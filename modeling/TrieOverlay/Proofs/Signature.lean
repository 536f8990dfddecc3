import TrieOverlay.Signature

/-!
# What a memo may be trusted with

A memo *follows* a collection if what it remembers was derived at the current signature or before,
and is right if it was derived at the current one.  A mutation gives the collection a new signature,
at which nothing is remembered, so the memo follows whatever the collection has become
(`Memo.Follows.next`); asking the memo gives the right value and leaves it following
(`Memo.Follows.fetch_eq`).
-/

namespace TrieOverlay.Memo

variable {α : Type} {c : Memo α} {s : Signature} {a b : α}

/-- What a memo remembers is not newer than the current signature, and right if it is not older. -/
structure Follows (c : Memo α) (current : Signature) (a : α) : Prop where
  /-- What is remembered was derived at the current signature or before. -/
  known : ∀ s b, c.slot = some (s, b) → s.version ≤ current.version
  /-- What is remembered at the current signature is right. -/
  right : ∀ b, c.lookup? current = some b → b = a

theorem follows_empty (s : Signature) (a : α) : (empty : Memo α).Follows s a :=
  ⟨by simp [empty], by simp⟩

theorem follows_mk (s : Signature) (a : α) : (Memo.mk (some (s, a))).Follows s a := by
  refine ⟨fun s' b h => ?_, fun b h => ?_⟩
  · cases h
    exact Nat.le_refl _
  · rw [lookup?_mk_self] at h
    exact (Option.some.inj h).symm

/-- Nothing is remembered at a new signature. -/
theorem Follows.lookup?_next (h : c.Follows s a) : c.lookup? s.next = none := by
  rw [lookup?]
  cases hslot : c.slot with
  | none => rfl
  | some known =>
    obtain ⟨s', b⟩ := known
    have hle := h.known s' b hslot
    -- what is remembered is older than the new signature
    refine if_neg fun heq => ?_
    have hnext : s'.version = s.version + 1 := congrArg Signature.version heq
    omega

theorem Follows.next (h : c.Follows s a) (b : α) : c.Follows s.next b := by
  refine ⟨fun s' b' hslot => Nat.le_succ_of_le (h.known s' b' hslot), fun b' hb => ?_⟩
  rw [h.lookup?_next] at hb
  cases hb

/-- Asking a memo for a value that can be computed without effects. -/
theorem Follows.fetch_eq (h : c.Follows s a) :
    (Id.run <| c.fetch s (pure a)).1 = a ∧ (Id.run <| c.fetch s (pure a)).2.Follows s a := by
  rw [fetch]
  cases hlookup : c.lookup? s with
  | some b =>
    obtain rfl := h.right b hlookup
    exact ⟨rfl, h⟩
  | none => exact ⟨rfl, follows_mk s a⟩

end TrieOverlay.Memo
