import TrieOverlay.Proofs.Store.Sampling

/-!
# Samples that are asked for one after the other

A call of `Store.sample` that nobody comes between either gives back the remembered sample and
leaves the store as it is, or picks a sample with a new number (`Store.sample_cases`).  A use of the
store *spares* the samples of a size if it is no mutation and asks for no sample of another size.
What is remembered stays while everything spares it (`Store.use_of_spares`), and once something does
not, every later sample of the size is a later pick (`Store.PickedSince`).

So what `sample` returns is never stale: it is a proper sample of the store as it is then, and two
calls of one size return the same sample exactly if everything between them spares it
(`Store.sample_fresh`).
-/

namespace TrieOverlay.Store

variable {s : Store} {size k : Nat} {picked : Sample}

/-! ### One call -/

/-- A call gives back the remembered sample and changes nothing, or it picks a sample. -/
theorem sample_cases (s : Store) (shuffle : List EntryId → List EntryId) (size : Nat) :
    (s.sampled.lookup? s.signature = some (size, (s.sample shuffle size).1) ∧
        (s.sample shuffle size).2 = s) ∨
      (∀ x, s.sampled.lookup? s.signature ≠ some (size, x)) ∧
        (s.sample shuffle size).1.serial = s.picks ∧
        (s.sample shuffle size).2.picks = s.picks + 1 := by
  have hpick : ∀ s : Store, s.sampled.lookup? s.signature = none →
      (s.lookUpSample shuffle size).1.2.serial = s.picks ∧
        (s.lookUpSample shuffle size).2.picks = s.picks + 1 := by
    intro s hnone
    rw [lookUpSample, hnone]
    exact ⟨rfl, rfl⟩
  cases hlookup : s.sampled.lookup? s.signature with
  | none =>
    refine .inr ⟨by simp, ?_⟩
    have hfound : (s.lookUpSample shuffle size).1.1 = size := by
      rw [lookUpSample, hlookup]
      rfl
    rw [sample_of_found hfound]
    exact hpick s hlookup
  | some found =>
    have hlook : s.lookUpSample shuffle size = (found, s) := by
      rw [lookUpSample, hlookup]
    by_cases hsize : found.1 = size
    · have hfound : (s.lookUpSample shuffle size).1.1 = size := by rwa [hlook]
      rw [sample_of_found hfound, hlook]
      exact .inl ⟨congrArg some (Prod.ext hsize rfl), rfl⟩
    · -- the sample of another size is forgotten first
      have hfound : (s.lookUpSample shuffle size).1.1 ≠ size := by rwa [hlook]
      rw [sample_of_ne hfound, hlook]
      refine .inr ⟨fun x hx => hsize ?_, hpick s.forgetSample rfl⟩
      rw [Option.some.inj hx]

theorem picks_le_sample (s : Store) (shuffle : List EntryId → List EntryId) (size : Nat) :
    s.picks ≤ (s.sample shuffle size).2.picks := by
  rcases s.sample_cases shuffle size with ⟨-, hsame⟩ | ⟨-, -, hpicks⟩
  · rw [hsame]
  · rw [hpicks]
    exact Nat.le_succ _

/-- A remembered sample is given back. -/
theorem sample_of_remembered (h : s.sampled.lookup? s.signature = some (size, picked))
    (shuffle : List EntryId → List EntryId) : s.sample shuffle size = (picked, s) := by
  rcases s.sample_cases shuffle size with ⟨hknown, hsame⟩ | ⟨hnot, -⟩
  · rw [h, Option.some.injEq, Prod.mk.injEq] at hknown
    exact Prod.ext hknown.2.symm hsame
  · exact absurd h (hnot picked)

/-- What is remembered after a call is what it returned. -/
theorem lookup?_after_sample (s : Store) (shuffle : List EntryId → List EntryId) (size : Nat) :
    (s.sample shuffle size).2.sampled.lookup? (s.sample shuffle size).2.signature =
      some (size, (s.sample shuffle size).1) := by
  rw [(s.sample_rest shuffle size).2.1, s.lookup?_sample]

/-- What a call returns is a sample of the store as it is. -/
theorem Remembers.sample_fits (h : s.Remembers) (shuffle : Shuffle) (size : Nat) :
    (s.sample shuffle.order size).1.Fits s.state size := by
  have hafter : (s.sample shuffle.order size).2.Remembers := h.use (.sample shuffle size)
  have hfits := hafter.fits _ (s.lookup?_after_sample shuffle.order size)
  rwa [(s.sample_rest shuffle.order size).1] at hfits

/-! ### One use -/

/-- Whether a use is no mutation and asks for no sample of another size. -/
def Use.Spares (size : Nat) : Use → Prop
  | .op .count => True
  | .op (.add _) | .op (.update _) | .op (.remove _) => False
  | .sample _ n => n = size

/-- A use counts the entries, changes them, or asks for a sample. -/
theorem use_cases (s : Store) (u : Use) :
    (∃ counted, s.use u = { s with counted } ∧ ∀ size, u.Spares size) ∨
      (∃ state, s.use u = s.mutated state ∧ ∀ size, ¬u.Spares size) ∨
      ∃ shuffle size, u = .sample shuffle size := by
  cases u with
  | op op =>
    cases op with
    | count => exact .inl ⟨_, rfl, fun _ => trivial⟩
    | add es | update es | remove es => exact .inr (.inl ⟨_, rfl, fun _ => id⟩)
  | sample shuffle size => exact .inr (.inr ⟨shuffle, size, rfl⟩)

/-- While it is spared, a remembered sample stays and nothing is picked. -/
theorem use_of_spares (h : s.sampled.lookup? s.signature = some (size, picked)) {u : Use}
    (hu : u.Spares size) :
    (s.use u).sampled.lookup? (s.use u).signature = some (size, picked) ∧
      (s.use u).picks = s.picks := by
  obtain ⟨counted, huse, -⟩ | ⟨state, -, hnot⟩ | ⟨shuffle, n, rfl⟩ := s.use_cases u
  · rw [huse]
    exact ⟨h, rfl⟩
  · exact absurd hu (hnot size)
  · obtain rfl : n = size := hu
    rw [use, sample_of_remembered h]
    exact ⟨h, rfl⟩

/-- Whether what is remembered has been picked. -/
def Numbered (s : Store) : Prop :=
  ∀ x, s.sampled.lookup? s.signature = some x → x.2.serial < s.picks

theorem Numbered.sample (h : s.Numbered) (shuffle : List EntryId → List EntryId) (size : Nat) :
    (s.sample shuffle size).1.serial < (s.sample shuffle size).2.picks := by
  rcases s.sample_cases shuffle size with ⟨hknown, hsame⟩ | ⟨-, hserial, hpicks⟩
  · rw [hsame]
    exact h _ hknown
  · rw [hserial, hpicks]
    exact Nat.lt_succ_self _

theorem Numbered.use (h : s.Numbered) (hs : s.Remembers) (u : Use) : (s.use u).Numbered := by
  intro x hx
  obtain ⟨counted, huse, -⟩ | ⟨state, huse, -⟩ | ⟨shuffle, n, rfl⟩ := s.use_cases u
  · rw [huse] at hx ⊢
    exact h x hx
  · rw [huse, hs.lookup?_mutated] at hx
    cases hx
  · rw [Store.use, lookup?_after_sample, Option.some.injEq] at hx
    subst hx
    exact h.sample shuffle.order n

/-- Whether the next sample of a size is one that was picked when at least `k` samples had been
picked. -/
structure PickedSince (s : Store) (size k : Nat) : Prop where
  picks : k ≤ s.picks
  remembered : ∀ x, s.sampled.lookup? s.signature = some (size, x) → k ≤ x.serial

theorem PickedSince.sample (h : s.PickedSince size k) (shuffle : List EntryId → List EntryId) :
    k ≤ (s.sample shuffle size).1.serial := by
  rcases s.sample_cases shuffle size with ⟨hknown, -⟩ | ⟨-, hserial, -⟩
  · exact h.remembered _ hknown
  · rw [hserial]
    exact h.picks

/-- After a use that does not spare the samples of a size, the next one is picked anew. -/
theorem pickedSince_use (hs : s.Remembers) (hk : k ≤ s.picks) {u : Use} (hu : ¬u.Spares size) :
    (s.use u).PickedSince size k := by
  obtain ⟨counted, -, hspares⟩ | ⟨state, huse, -⟩ | ⟨shuffle, n, rfl⟩ := s.use_cases u
  · exact absurd (hspares size) hu
  · rw [huse]
    refine ⟨hk, fun x hx => ?_⟩
    rw [hs.lookup?_mutated] at hx
    cases hx
  · refine ⟨hk.trans (s.picks_le_sample shuffle.order n), fun x hx => ?_⟩
    rw [use, lookup?_after_sample, Option.some.injEq] at hx
    exact absurd (Prod.mk.inj hx).1 hu

theorem PickedSince.use (h : s.PickedSince size k) (hs : s.Remembers) (u : Use) :
    (s.use u).PickedSince size k := by
  by_cases hu : u.Spares size
  · obtain ⟨counted, huse, -⟩ | ⟨state, -, hnot⟩ | ⟨shuffle, n, rfl⟩ := s.use_cases u
    · rw [huse]
      exact ⟨h.picks, h.remembered⟩
    · exact absurd hu (hnot size)
    · obtain rfl : n = size := hu
      refine ⟨h.picks.trans (s.picks_le_sample shuffle.order n), fun x hx => ?_⟩
      rw [Store.use, lookup?_after_sample, Option.some.injEq] at hx
      obtain rfl := (Prod.mk.inj hx).2
      exact h.sample shuffle.order
  · exact pickedSince_use hs h.picks hu

/-! ### Several uses -/

theorem PickedSince.uses (h : s.PickedSince size k) (hs : s.Remembers) (between : List Use) :
    (between.foldl Store.use s).PickedSince size k := by
  induction between generalizing s with
  | nil => exact h
  | cons u between ih => exact ih (h.use hs u) (hs.use u)

theorem numbered_uses (name : String) (past : List Use) :
    (past.foldl use (named name)).Numbered := by
  have hgoes : ∀ s : Store, s.Remembers → s.Numbered → (past.foldl use s).Numbered := by
    induction past with
    | nil => exact fun s _ h => h
    | cons u past ih => exact fun s hs h => ih _ (hs.use u) (h.use hs u)
  exact hgoes _ (remembers_named name) fun x hx => by cases hx

/-- A remembered sample comes back from a later call exactly if everything until then spares it. -/
theorem sample_uses_eq_iff (hs : s.Remembers)
    (h : s.sampled.lookup? s.signature = some (size, picked)) (hpicked : picked.serial < s.picks)
    (between : List Use) (shuffle : List EntryId → List EntryId) :
    ((between.foldl use s).sample shuffle size).1 = picked ↔ ∀ u ∈ between, u.Spares size := by
  induction between generalizing s with
  | nil => simp [sample_of_remembered h]
  | cons u between ih =>
    rw [List.foldl_cons, List.forall_mem_cons]
    by_cases hu : u.Spares size
    · obtain ⟨hstill, hpicks⟩ := use_of_spares h hu
      rw [ih (hs.use u) hstill (hpicks ▸ hpicked), and_iff_right hu]
    · -- the number of every later sample is larger
      have hsince : (s.use u).PickedSince size (picked.serial + 1) := pickedSince_use hs hpicked hu
      have hlater := (hsince.uses (hs.use u) between).sample shuffle
      refine iff_of_false (fun heq => ?_) fun hall => hu hall.1
      rw [heq] at hlater
      exact Nat.not_succ_le_self _ hlater

/-- An identifier with a key is that of an entry. -/
theorem Follows.exists_mem_get {m : Ledger} (h : s.Follows m) {id : EntryId}
    (hid : s.state.keyOf.contains id) : ∃ e ∈ s.get none, e.id = id := by
  rw [Std.ExtTreeMap.contains_eq_isSome_getElem?, h.rows.keyOf, Option.isSome_map,
    Option.isSome_iff_exists] at hid
  obtain ⟨e, he⟩ := hid
  have hname := h.rows.named id e he
  have hmem : m.shown e ∈ s.get none := h.rows.mem_entries.2
    (List.mem_map.2 ⟨e, h.rows.named.mem_list.2 (hname ▸ he), rfl⟩)
  exact ⟨m.shown e, hmem, hname⟩

/-- **A sample is never stale.**  Whatever a store has been used for, a call for a sample returns as
many identifiers as were asked for, or all of them if there are fewer, each of them once and each of
them that of an entry that is stored then.  And after further uses of the store a second call of the
same size returns the same sample if and only if none of them was a mutation or a call of another
size. -/
theorem sample_fresh (name : String) (past : List Use) (shuffle : Shuffle) (size : Nat) :
    let s := past.foldl use (named name)
    let picked := (s.sample shuffle.order size).1
    (picked.ids.length = min size s.count.1 ∧ picked.ids.Nodup ∧
        ∀ id ∈ picked.ids, ∃ e ∈ s.get none, e.id = id) ∧
      ∀ (between : List Use) (shuffle' : Shuffle),
        ((between.foldl use (s.sample shuffle.order size).2).sample shuffle'.order size).1 =
            picked ↔
          ∀ u ∈ between, u.Spares size := by
  intro s picked
  obtain ⟨hremembers, hcount⟩ := remembers_uses name past
  have hnumbered := numbered_uses name past
  change s.Remembers at hremembers
  change s.count.1 = s.state.keyOf.size at hcount
  change s.Numbered at hnumbered
  have hfits := hremembers.sample_fits shuffle size
  refine ⟨⟨?_, hfits.nodup, fun id hid => ?_⟩, fun between shuffle' => ?_⟩
  · rw [hcount]
    exact hfits.length
  · obtain ⟨m, hm⟩ := follows_uses name past
    exact hm.exists_mem_get (hfits.stored id hid)
  · exact sample_uses_eq_iff (hremembers.use (.sample shuffle size))
      (s.lookup?_after_sample shuffle.order size) (hnumbered.sample shuffle.order size) between
      shuffle'.order

end TrieOverlay.Store
