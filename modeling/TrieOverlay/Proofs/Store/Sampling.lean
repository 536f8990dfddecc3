import Mathlib.Logic.Relation
import TrieOverlay.Proofs.Store.Maps

/-!
# Samples that are asked for at the same time

`Store.sample` takes three steps at most: it looks at the remembered sample, forgets it if it was
picked for another number, and looks again, which picks one if none is remembered.  Callers that
share a store take these steps in any order (`Sampling.Step`); the entries stay as they are
meanwhile, because a mutation waits for all callers.

What is remembered is at any time a proper sample for the number that it was picked for
(`Store.Remembers`), but one caller may find what another has left between its forgetting and its
second look.  So what `sample` returns is a sample for a number that somebody asked for, and it is
never longer than asked for exactly if no two callers ask for numbers that the store can tell apart
(`Sampling.samples_fit_iff`).
-/

namespace TrieOverlay

/-- A way to shuffle identifiers. -/
structure Shuffle where
  /-- The identifiers in their new order. -/
  order : List EntryId → List EntryId
  /-- None is lost and none is repeated. -/
  perm : ∀ ids, (order ids).Perm ids

/-- Whether these are identifiers of a store, each once, and as many as were asked for unless the
store has fewer. -/
structure Sample.Fits (x : Sample) (s : Store.Rows) (size : Nat) : Prop where
  nodup : x.ids.Nodup
  stored : ∀ id ∈ x.ids, s.keyOf.contains id
  length : x.ids.length = min size s.keyOf.size

theorem Store.Rows.Keeps.size_keyOf {s : Store.Rows} {m : Ledger} (h : s.Keeps m) :
    s.keyOf.size = m.entries.size := by
  rw [← Std.ExtTreeMap.length_keys, ← Std.ExtTreeMap.length_keys]
  refine ((List.perm_ext_iff_of_nodup Std.ExtTreeMap.nodup_keys
    Std.ExtTreeMap.nodup_keys).2 fun id => ?_).length_eq
  rw [Std.ExtTreeMap.mem_keys, Std.ExtTreeMap.mem_keys, Std.ExtTreeMap.mem_iff_isSome_getElem?,
    Std.ExtTreeMap.mem_iff_isSome_getElem?, h.keyOf, Option.isSome_map]

/-! ### What a store remembers -/

namespace Store

variable {s : Store} {m : Ledger} {size : Nat} {found : Nat × Sample}

/-- Whether the remembered sample is not newer than the entries, and if it is not older a sample of
them for its number. -/
structure Remembers (s : Store) : Prop where
  known : ∀ sig x, s.sampled.slot = some (sig, x) → sig.version ≤ s.signature.version
  fits : ∀ x, s.sampled.lookup? s.signature = some x → x.2.Fits s.state x.1

theorem remembers_named (name : String) : (named name).Remembers :=
  ⟨by simp [named, Memo.empty], by simp [named]⟩

theorem pick_fits (s : Store) (shuffle : Shuffle) (size : Nat) :
    (s.pick shuffle.order size).1.2.Fits s.state size := by
  have hperm := shuffle.perm s.state.keyOf.keys
  refine ⟨?_, fun id hid => ?_, ?_⟩
  · exact (hperm.nodup_iff.2 Std.ExtTreeMap.nodup_keys).sublist (List.take_sublist ..)
  · have hmem := hperm.mem_iff.1 (List.mem_of_mem_take hid)
    rwa [Std.ExtTreeMap.mem_keys] at hmem
  · change ((shuffle.order s.state.keyOf.keys).take size).length = _
    rw [List.length_take, hperm.length_eq, Std.ExtTreeMap.length_keys]

/-- The entries, their version and their number are left alone by a look at the remembered
sample. -/
theorem lookUpSample_rest (s : Store) (shuffle : List EntryId → List EntryId) (size : Nat) :
    (s.lookUpSample shuffle size).2.state = s.state ∧
      (s.lookUpSample shuffle size).2.signature = s.signature ∧
      (s.lookUpSample shuffle size).2.counted = s.counted := by
  rw [lookUpSample]
  split <;> exact ⟨rfl, rfl, rfl⟩

/-- What was looked up is remembered. -/
theorem lookup?_lookUpSample (s : Store) (shuffle : List EntryId → List EntryId) (size : Nat) :
    (s.lookUpSample shuffle size).2.sampled.lookup? s.signature =
      some (s.lookUpSample shuffle size).1 := by
  rw [lookUpSample]
  split
  · assumption
  · exact Memo.lookup?_mk_self _ _

/-- What was looked up was remembered, or else it was picked for this number. -/
theorem lookUpSample_cases (s : Store) (shuffle : List EntryId → List EntryId) (size : Nat) :
    s.sampled.lookup? s.signature = some (s.lookUpSample shuffle size).1 ∨
      s.sampled.lookup? s.signature = none ∧ (s.lookUpSample shuffle size).1.1 = size := by
  rw [lookUpSample]
  split
  · exact .inl ‹_›
  · exact .inr ⟨‹_›, rfl⟩

theorem Remembers.lookUpSample (h : s.Remembers) (shuffle : Shuffle) (size : Nat) :
    (s.lookUpSample shuffle.order size).2.Remembers := by
  rw [Store.lookUpSample]
  split
  · exact h
  · refine ⟨?_, fun x hx => ?_⟩
    · intro sig x hslot
      cases hslot
      exact Nat.le_refl _
    · obtain rfl := Option.some.inj ((Memo.lookup?_mk_self _ _).symm.trans hx)
      exact s.pick_fits shuffle size

/-- A look finds a sample for the number that it was picked for. -/
theorem Remembers.found_fits (h : s.Remembers) (shuffle : Shuffle) (size : Nat) :
    (s.lookUpSample shuffle.order size).1.2.Fits s.state
      (s.lookUpSample shuffle.order size).1.1 := by
  obtain ⟨hstate, hsignature, -⟩ := s.lookUpSample_rest shuffle.order size
  rw [← hstate]
  refine (h.lookUpSample shuffle size).fits _ ?_
  rw [hsignature]
  exact s.lookup?_lookUpSample shuffle.order size

theorem remembers_forgetSample (s : Store) : s.forgetSample.Remembers :=
  ⟨by simp [forgetSample, Memo.forget, Memo.empty], by simp [forgetSample, Memo.forget]⟩

/-- Nothing is remembered of the entries after a mutation. -/
theorem Remembers.lookup?_mutated (h : s.Remembers) (state : Rows) :
    (s.mutated state).sampled.lookup? (s.mutated state).signature = none := by
  change s.sampled.lookup? s.signature.next = none
  rw [Memo.lookup?]
  cases hslot : s.sampled.slot with
  | none => rfl
  | some known =>
    have hle := h.known known.1 known.2 hslot
    -- what is remembered is older than the new signature
    refine if_neg fun heq => ?_
    rw [heq] at hle
    exact absurd hle (Nat.not_succ_le_self _)

theorem Remembers.mutated (h : s.Remembers) (state : Rows) : (s.mutated state).Remembers := by
  refine ⟨fun sig x hslot => Nat.le_succ_of_le (h.known sig x hslot), fun x hx => ?_⟩
  rw [h.lookup?_mutated] at hx
  cases hx

/-! ### The past of a store -/

/-- What is done with a store. -/
inductive Use where
  /-- Something is asked that the ledger answers too. -/
  | op (op : Op)
  /-- A sample is asked for. -/
  | sample (shuffle : Shuffle) (size : Nat)

/-- The store afterwards. -/
def use (s : Store) : Use → Store
  | .op op => (s.perform op).2
  | .sample shuffle size => (s.sample shuffle.order size).2

theorem sample_of_found {shuffle : List EntryId → List EntryId}
    (h : (s.lookUpSample shuffle size).1.1 = size) :
    s.sample shuffle size =
      ((s.lookUpSample shuffle size).1.2, (s.lookUpSample shuffle size).2) :=
  if_pos h

theorem sample_of_ne {shuffle : List EntryId → List EntryId}
    (h : (s.lookUpSample shuffle size).1.1 ≠ size) :
    s.sample shuffle size =
      (((s.lookUpSample shuffle size).2.forgetSample.lookUpSample shuffle size).1.2,
        ((s.lookUpSample shuffle size).2.forgetSample.lookUpSample shuffle size).2) :=
  if_neg h

theorem lookUpSample_forgetSample (s : Store) (shuffle : List EntryId → List EntryId)
    (size : Nat) : (s.forgetSample.lookUpSample shuffle size).1.1 = size := by
  rcases s.forgetSample.lookUpSample_cases shuffle size with hknown | ⟨-, hpicked⟩
  · cases hknown
  · exact hpicked

/-- What is remembered after a sample was asked for was picked for the number that was asked for. -/
theorem lookup?_sample (s : Store) (shuffle : List EntryId → List EntryId) (size : Nat) :
    (s.sample shuffle size).2.sampled.lookup? s.signature =
      some (size, (s.sample shuffle size).1) := by
  by_cases hfound : (s.lookUpSample shuffle size).1.1 = size
  · rw [sample_of_found hfound, s.lookup?_lookUpSample]
    exact congrArg some (Prod.ext hfound rfl)
  · have hsignature := (s.lookUpSample_rest shuffle size).2.1
    have hagain := (s.lookUpSample shuffle size).2.forgetSample.lookup?_lookUpSample shuffle size
    rw [sample_of_ne hfound, ← hsignature]
    exact hagain.trans (congrArg some (Prod.ext (lookUpSample_forgetSample ..) rfl))

theorem sample_rest (s : Store) (shuffle : List EntryId → List EntryId) (size : Nat) :
    (s.sample shuffle size).2.state = s.state ∧
      (s.sample shuffle size).2.signature = s.signature ∧
      (s.sample shuffle size).2.counted = s.counted := by
  have hlook := s.lookUpSample_rest shuffle size
  by_cases hfound : (s.lookUpSample shuffle size).1.1 = size
  · rw [sample_of_found hfound]
    exact hlook
  · have hagain := (s.lookUpSample shuffle size).2.forgetSample.lookUpSample_rest shuffle size
    rw [sample_of_ne hfound]
    exact ⟨hagain.1.trans hlook.1, hagain.2.1.trans hlook.2.1, hagain.2.2.trans hlook.2.2⟩

theorem Follows.use (h : s.Follows m) (u : Use) : ∃ m', (s.use u).Follows m' := by
  cases u with
  | op op => exact ⟨_, (h.perform op).2⟩
  | sample shuffle size =>
    obtain ⟨hstate, hsignature, hcounted⟩ := s.sample_rest shuffle.order size
    refine ⟨m, ?_, ?_⟩
    · exact hstate.symm ▸ h.rows
    · change (s.sample shuffle.order size).2.counted.Follows
        (s.sample shuffle.order size).2.signature _
      rw [hsignature, hcounted]
      exact h.counted

theorem Remembers.use (h : s.Remembers) (u : Use) : (s.use u).Remembers := by
  cases u with
  | op op =>
    cases op with
    | add es => exact h.mutated _
    | update es => exact h.mutated _
    | remove es => exact h.mutated _
    | count => exact ⟨h.known, h.fits⟩
  | sample shuffle size =>
    change (s.sample shuffle.order size).2.Remembers
    by_cases hfound : (s.lookUpSample shuffle.order size).1.1 = size
    · rw [sample_of_found hfound]
      exact h.lookUpSample shuffle size
    · rw [sample_of_ne hfound]
      exact (remembers_forgetSample _).lookUpSample shuffle size

theorem follows_uses (name : String) (past : List Use) :
    ∃ m, (past.foldl use (named name)).Follows m := by
  have hgoes : ∀ s : Store, (∃ m, s.Follows m) → ∃ m, (past.foldl use s).Follows m := by
    induction past with
    | nil => exact fun s h => h
    | cons u past ih => exact fun s ⟨m, hm⟩ => ih _ (hm.use u)
  exact hgoes _ ⟨_, follows_named name⟩

/-- Whatever a store has been used for, it remembers no wrong sample and counts its identifiers. -/
theorem remembers_uses (name : String) (past : List Use) :
    (past.foldl use (named name)).Remembers ∧
      (past.foldl use (named name)).count.1 = (past.foldl use (named name)).state.keyOf.size := by
  have hgoes : ∀ s : Store, s.Remembers → (past.foldl use s).Remembers := by
    induction past with
    | nil => exact fun s hs => hs
    | cons u past ih => exact fun s hs => ih _ (hs.use u)
  obtain ⟨m, hm⟩ := follows_uses name past
  exact ⟨hgoes _ (remembers_named name), hm.count.1.trans hm.rows.size_keyOf.symm⟩

end Store

/-! ### Callers that share a store -/

/-- How far a call for a sample has come. -/
inductive SampleCall where
  /-- There is no call. -/
  | idle
  /-- It has yet to look at the remembered sample. -/
  | asked (size : Nat)
  /-- It has found a sample that was picked for another number, and has yet to forget it. -/
  | mismatched (size : Nat)
  /-- It has forgotten the remembered sample, and has yet to look again. -/
  | forgotten (size : Nat)
  /-- It has returned a sample. -/
  | returned (size : Nat) (picked : Sample)

namespace SampleCall

/-- The number that was asked for. -/
def size? : SampleCall → Option Nat
  | idle => none
  | asked size | mismatched size | forgotten size | returned size _ => some size

/-- Whether another call may be made. -/
def isOver : SampleCall → Bool
  | idle | returned .. => true
  | asked _ | mismatched _ | forgotten _ => false

end SampleCall

/-- Callers and the store that they share. -/
structure Sampling (τ : Type) where
  /-- The store. -/
  store : Store
  /-- The last call of every caller. -/
  calls : τ → SampleCall

namespace Sampling

variable {τ : Type}

/-- Nobody has called yet. -/
def start (table : Store) : Sampling τ := ⟨table, fun _ => .idle⟩

/-- How calls for these numbers agree with the store at any moment. -/
structure Sound (sizes : τ → Set Nat) (table : Store) (s : Sampling τ) : Prop where
  state : s.store.state = table.state
  remembers : s.store.Remembers
  asked : ∀ t, ∀ size ∈ (s.calls t).size?, size ∈ sizes t
  /-- What is remembered while a caller is about to look again comes from another caller. -/
  forgotten : ∀ t size, s.calls t = .forgotten size →
    ∀ x, s.store.sampled.lookup? s.store.signature = some x → ∃ t', t' ≠ t ∧ x.1 ∈ sizes t'
  returned : ∀ t size picked, s.calls t = .returned size picked →
    ∃ asked, picked.Fits table.state asked ∧ (asked = size ∨ ∃ t', t' ≠ t ∧ asked ∈ sizes t')

theorem sound_start {sizes : τ → Set Nat} {table : Store} (h : table.Remembers) :
    (start table).Sound sizes table where
  state := rfl
  remembers := h
  asked _ _ h := by cases h
  forgotten _ _ h := by cases h
  returned _ _ _ h := by cases h

variable [DecidableEq τ]

/-- The state after a step of one caller. -/
def after (s : Sampling τ) (t : τ) (store : Store) (call : SampleCall) : Sampling τ :=
  ⟨store, Function.update s.calls t call⟩

/-- One step of a caller that asks for one of its numbers.  The remembered sample is used by one
caller at a time, so a look and a forgetting are a step each. -/
inductive Step (sizes : τ → Set Nat) (s : Sampling τ) : Sampling τ → Prop
  /-- A caller asks for a sample. -/
  | call (t : τ) (size : Nat) (hsize : size ∈ sizes t) (hover : (s.calls t).isOver = true) :
      Step sizes s (s.after t s.store (.asked size))
  /-- A caller finds a sample for its number, or picks one. -/
  | found (t : τ) (size : Nat) (shuffle : Shuffle) (hcall : s.calls t = .asked size)
      (hfound : (s.store.lookUpSample shuffle.order size).1.1 = size) :
      Step sizes s (s.after t (s.store.lookUpSample shuffle.order size).2
        (.returned size (s.store.lookUpSample shuffle.order size).1.2))
  /-- A caller finds a sample that was picked for another number. -/
  | mismatched (t : τ) (size : Nat) (shuffle : Shuffle) (hcall : s.calls t = .asked size)
      (hfound : (s.store.lookUpSample shuffle.order size).1.1 ≠ size) :
      Step sizes s (s.after t (s.store.lookUpSample shuffle.order size).2 (.mismatched size))
  /-- A caller forgets the sample that it found. -/
  | forget (t : τ) (size : Nat) (hcall : s.calls t = .mismatched size) :
      Step sizes s (s.after t s.store.forgetSample (.forgotten size))
  /-- A caller looks again, and takes what it finds. -/
  | lookAgain (t : τ) (size : Nat) (shuffle : Shuffle) (hcall : s.calls t = .forgotten size) :
      Step sizes s (s.after t (s.store.lookUpSample shuffle.order size).2
        (.returned size (s.store.lookUpSample shuffle.order size).1.2))

/-- What the callers can come to. -/
def Reachable (sizes : τ → Set Nat) (table : Store) (s : Sampling τ) : Prop :=
  Relation.ReflTransGen (Step sizes) (start table) s

variable {sizes : τ → Set Nat} {table : Store} {s s' : Sampling τ} {t t' : τ}

@[simp] theorem store_after (s : Sampling τ) (t : τ) (store : Store) (call : SampleCall) :
    (s.after t store call).store = store := rfl

@[simp] theorem calls_after_self (s : Sampling τ) (t : τ) (store : Store) (call : SampleCall) :
    (s.after t store call).calls t = call :=
  Function.update_self ..

theorem calls_after_of_ne (s : Sampling τ) (store : Store) (call : SampleCall) (h : t' ≠ t) :
    (s.after t store call).calls t' = s.calls t' :=
  Function.update_of_ne h ..

@[simp] theorem after_after (s : Sampling τ) (t : τ) (store store' : Store)
    (call call' : SampleCall) :
    (s.after t store call).after t store' call' = s.after t store' call' := by
  simp [after]

/-- What a step of one caller has to keep to, so that the calls still agree with the store. -/
theorem Sound.after (h : s.Sound sizes table) {store : Store} {call : SampleCall}
    (hstate : store.state = s.store.state) (hremembers : store.Remembers)
    (hasked : ∀ size ∈ call.size?, size ∈ sizes t)
    (hslot : ∀ x, store.sampled.lookup? store.signature = some x →
      s.store.sampled.lookup? s.store.signature = some x ∨ x.1 ∈ sizes t)
    (hforgotten : ∀ size, call = .forgotten size → store.sampled.lookup? store.signature = none)
    (hreturned : ∀ size picked, call = .returned size picked →
      ∃ asked, picked.Fits table.state asked ∧ (asked = size ∨ ∃ t', t' ≠ t ∧ asked ∈ sizes t')) :
    (s.after t store call).Sound sizes table where
  state := hstate.trans h.state
  remembers := hremembers
  asked t' := by
    by_cases ht : t' = t
    · subst ht
      rwa [calls_after_self]
    · rw [calls_after_of_ne s store call ht]
      exact h.asked t'
  forgotten t' size hcall x hx := by
    by_cases ht : t' = t
    · subst ht
      rw [calls_after_self] at hcall
      rw [show (s.after t' store call).store = store from rfl, hforgotten size hcall] at hx
      cases hx
    · rw [calls_after_of_ne s store call ht] at hcall
      rcases hslot x hx with hold | hnew
      · exact h.forgotten t' size hcall x hold
      · exact ⟨t, Ne.symm ht, hnew⟩
  returned t' size picked hcall := by
    by_cases ht : t' = t
    · subst ht
      rw [calls_after_self] at hcall
      exact hreturned size picked hcall
    · rw [calls_after_of_ne s store call ht] at hcall
      exact h.returned t' size picked hcall

/-- A look at the remembered sample keeps to it, whatever the caller makes of what it finds. -/
theorem Sound.lookUp (h : s.Sound sizes table) (shuffle : Shuffle) {size : Nat}
    {call : SampleCall} (hsize : size ∈ sizes t) (hcall : call.size? = some size)
    (hforgotten : ∀ size, call ≠ .forgotten size)
    (hreturned : ∀ n picked, call = .returned n picked →
      n = size ∧ picked = (s.store.lookUpSample shuffle.order size).1.2 ∧
      ((s.store.lookUpSample shuffle.order size).1.1 = size ∨
        ∃ t', t' ≠ t ∧ (s.store.lookUpSample shuffle.order size).1.1 ∈ sizes t')) :
    (s.after t (s.store.lookUpSample shuffle.order size).2 call).Sound sizes table := by
  obtain ⟨hstate, hsignature, -⟩ := s.store.lookUpSample_rest shuffle.order size
  refine h.after hstate (h.remembers.lookUpSample shuffle size) ?_ (fun x hx => ?_)
    (fun n hn => absurd hn (hforgotten n)) (fun n picked hpicked => ?_)
  · intro n hn
    rw [hcall, Option.mem_some_iff] at hn
    exact hn ▸ hsize
  · rw [hsignature, s.store.lookup?_lookUpSample, Option.some.injEq] at hx
    subst hx
    rcases s.store.lookUpSample_cases shuffle.order size with hknown | ⟨-, hpicked⟩
    · exact .inl hknown
    · rw [hpicked]
      exact .inr hsize
  · obtain ⟨rfl, rfl, hfound⟩ := hreturned n picked hpicked
    exact ⟨_, h.state ▸ h.remembers.found_fits shuffle n, hfound⟩

theorem Sound.step (h : s.Sound sizes table) (hstep : Step sizes s s') :
    s'.Sound sizes table := by
  cases hstep with
  | call t size hsize hover =>
    exact h.after rfl h.remembers (by simpa [SampleCall.size?] using hsize) (fun x hx => .inl hx)
      (by simp) (by simp)
  | found t size shuffle hcall hfound =>
    have hsize := h.asked t size (by simp [hcall, SampleCall.size?])
    refine h.lookUp shuffle hsize rfl (by simp) fun n picked hpicked => ?_
    obtain ⟨rfl, rfl⟩ := SampleCall.returned.inj hpicked
    exact ⟨rfl, rfl, .inl hfound⟩
  | mismatched t size shuffle hcall hfound =>
    have hsize := h.asked t size (by simp [hcall, SampleCall.size?])
    exact h.lookUp shuffle hsize rfl (by simp) (by simp)
  | forget t size hcall =>
    have hsize := h.asked t size (by simp [hcall, SampleCall.size?])
    have hnone : s.store.forgetSample.sampled.lookup? s.store.forgetSample.signature = none := rfl
    refine h.after rfl s.store.remembers_forgetSample (by simpa [SampleCall.size?] using hsize)
      (fun x hx => ?_) (fun _ _ => hnone) (by simp)
    rw [hnone] at hx
    cases hx
  | lookAgain t size shuffle hcall =>
    have hsize := h.asked t size (by simp [hcall, SampleCall.size?])
    refine h.lookUp shuffle hsize rfl (by simp) fun n picked hpicked => ?_
    obtain ⟨rfl, rfl⟩ := SampleCall.returned.inj hpicked
    refine ⟨rfl, rfl, ?_⟩
    -- what is found again was left by another caller, or nothing was there
    rcases s.store.lookUpSample_cases shuffle.order size with hknown | ⟨-, hpicked⟩
    · exact .inr (h.forgotten t size hcall _ hknown)
    · exact .inl hpicked

theorem Reachable.sound (htable : table.Remembers) (h : Reachable sizes table s) :
    s.Sound sizes table := by
  induction h with
  | refl => exact sound_start htable
  | tail _ hstep ih => exact ih.step hstep

/-- The steps of a call that nobody comes between are `Store.sample`. -/
theorem run_sample (s : Sampling τ) (shuffle : Shuffle) {size : Nat} (hsize : size ∈ sizes t)
    (hover : (s.calls t).isOver = true) :
    Relation.ReflTransGen (Step sizes) s
      (s.after t (s.store.sample shuffle.order size).2
        (.returned size (s.store.sample shuffle.order size).1)) := by
  have hcall : Relation.ReflTransGen (Step sizes) s _ := .single (.call t size hsize hover)
  by_cases hfound : (s.store.lookUpSample shuffle.order size).1.1 = size
  · have hlook := hcall.tail (.found t size shuffle (calls_after_self ..) hfound)
    rw [Store.sample_of_found hfound]
    simpa using hlook
  · have hlook := hcall.tail (.mismatched t size shuffle (calls_after_self ..) hfound)
    have hforget := hlook.tail (.forget t size (calls_after_self ..))
    have hagain := hforget.tail (.lookAgain t size shuffle (calls_after_self ..))
    rw [Store.sample_of_ne hfound]
    simpa using hagain

/-! ### The number that another caller asks for -/

/-- A caller comes to forget what another caller has picked for another number. -/
theorem exists_forgotten (table : Store) (hne : t ≠ t') {n m : Nat} (hn : n ∈ sizes t)
    (hm : m ∈ sizes t') (hnm : m ≠ n) :
    ∃ s, Reachable sizes table s ∧ s.calls t = .forgotten n ∧ (s.calls t').isOver = true := by
  let unshuffled : Shuffle := ⟨id, fun _ => .refl _⟩
  let s := (start table).after t' (table.sample id m).2 (.returned m (table.sample id m).1)
  have hpicked : Reachable sizes table s := run_sample (start table) unshuffled hm rfl
  have hslot : s.store.sampled.lookup? s.store.signature = some (m, (table.sample id m).1) := by
    rw [store_after, (table.sample_rest id m).2.1]
    exact table.lookup?_sample id m
  have hover : (s.calls t).isOver = true := by
    rw [calls_after_of_ne _ _ _ hne]
    rfl
  have hfound : (s.store.lookUpSample id n).1.1 ≠ n := by
    rcases s.store.lookUpSample_cases id n with hknown | ⟨hnone, -⟩
    · rw [hslot, Option.some.injEq] at hknown
      rwa [← hknown]
    · rw [hslot] at hnone
      cases hnone
  have hcalled := hpicked.tail (.call t n hn hover)
  have hlooked := hcalled.tail (.mismatched t n unshuffled (calls_after_self ..) hfound)
  refine ⟨_, hlooked.tail (.forget t n (calls_after_self ..)), calls_after_self .., ?_⟩
  rw [calls_after_of_ne _ _ _ hne.symm, calls_after_of_ne _ _ _ hne.symm,
    calls_after_of_ne _ _ _ hne.symm, calls_after_self]
  rfl

/-- A caller that has forgotten a sample is given the one that another caller asks for before it
looks again. -/
theorem Reachable.exists_returned (h : Reachable sizes table s) (hne : t ≠ t') {n m : Nat}
    (hcall : s.calls t = .forgotten n) (hm : m ∈ sizes t') (hover : (s.calls t').isOver = true) :
    ∃ s' picked, Reachable sizes table s' ∧ s'.calls t = .returned n picked ∧
      s'.store.sampled.lookup? s'.store.signature = some (m, picked) := by
  let unshuffled : Shuffle := ⟨id, fun _ => .refl _⟩
  let found := s.store.sample id m
  let s' := s.after t' found.2 (.returned m found.1)
  have hpicked : Reachable sizes table s' := h.trans (run_sample s unshuffled hm hover)
  have hstill : s'.calls t = .forgotten n := (calls_after_of_ne _ _ _ hne).trans hcall
  have hslot : s'.store.sampled.lookup? s'.store.signature = some (m, found.1) := by
    rw [store_after, (s.store.sample_rest id m).2.1]
    exact s.store.lookup?_sample id m
  have hlook : s'.store.lookUpSample id n = ((m, found.1), s'.store) := by
    rw [Store.lookUpSample, hslot]
  refine ⟨_, found.1, hpicked.tail (.lookAgain t n unshuffled hstill), ?_, ?_⟩
  · rw [calls_after_self]
    change SampleCall.returned n (s'.store.lookUpSample id n).1.2 = _
    rw [hlook]
  · change (s'.store.lookUpSample id n).2.sampled.lookup?
      (s'.store.lookUpSample id n).2.signature = _
    rw [hlook]
    exact hslot

/-- **A sample may be one that another caller asked for.**  Callers share a store, whatever it has
been used for, and each of them asks for its numbers of identifiers, in any order of their steps:

* what a call returns is a sample of the store for the number that it asked for, or for one that
  another caller asks for;
* it is never longer than asked for exactly if no number that another caller asks for is larger,
  unless the store has no more identifiers than the smaller one.
-/
theorem samples_fit_iff (name : String) (past : List Store.Use) (sizes : τ → Set Nat) :
    let table := past.foldl Store.use (.named name)
    (∀ s, Reachable sizes table s → ∀ t size picked, s.calls t = .returned size picked →
      ∃ asked, picked.Fits table.state asked ∧
        (asked = size ∨ ∃ t', t' ≠ t ∧ asked ∈ sizes t')) ∧
    ((∀ s, Reachable sizes table s → ∀ t size picked, s.calls t = .returned size picked →
        picked.ids.length ≤ size) ↔
      ∀ t t', t ≠ t' → ∀ n ∈ sizes t, ∀ m ∈ sizes t', m ≤ n ∨ table.count.1 ≤ n) := by
  intro table
  obtain ⟨hremembers, hcount⟩ := Store.remembers_uses name past
  change table.Remembers at hremembers
  change table.count.1 = table.state.keyOf.size at hcount
  refine ⟨fun s hs => (hs.sound hremembers).returned, ⟨fun hfits t t' hne n hn m hm => ?_,
    fun hsizes s hs t size picked hcall => ?_⟩⟩
  · by_contra hlarger
    push Not at hlarger
    obtain ⟨s, hs, hcall, hover⟩ := exists_forgotten table hne hn hm hlarger.1.ne'
    obtain ⟨s', picked, hs', hreturned, hslot⟩ := hs.exists_returned hne hcall hm hover
    have hsound := hs'.sound hremembers
    have hlength := (hsound.remembers.fits _ hslot).length
    have hle := hfits s' hs' t n picked hreturned
    rw [hsound.state, ← hcount] at hlength
    change picked.ids.length = min m _ at hlength
    omega
  · have hsound := hs.sound hremembers
    obtain ⟨asked, hpicked, hasked⟩ := hsound.returned t size picked hcall
    rw [hpicked.length, ← hcount]
    rcases hasked with rfl | ⟨t', ht', hasked⟩
    · exact Nat.min_le_left ..
    · have hsize := hsound.asked t size (by simp [hcall, SampleCall.size?])
      rcases hsizes t t' ht'.symm size hsize asked hasked with hle | hle
      · exact (Nat.min_le_left ..).trans hle
      · exact (Nat.min_le_right ..).trans hle

end Sampling

end TrieOverlay
