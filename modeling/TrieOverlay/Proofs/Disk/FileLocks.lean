import Mathlib.Algebra.BigOperators.Group.Finset.Basic
import Mathlib.Data.Fintype.Basic
import Mathlib.Logic.Relation
import TrieOverlay.Disk.FileLocks

/-!
# File locks under every interleaving

A thread that wants a guard tries until it is granted.  It gives a guard back in two steps, and the
other threads may do anything between them.  `Contention.Step` is one step of one thread;
`Contention.Reachable` holds of what any number of threads can come to from locks that nobody
holds.

A guard is *counted* from the try that granted it to the first step in which it is given back.  The
invariant `Contention.Tallied` relates the records to the threads:

* the record of a path says how many readers and whether a writer of it are counted
  (`LockState.counting`), and a path without a record has none;
* the counted guards are compatible with each other (`Apart`);
* a record in which nobody is counted is one that some thread is about to prune.

The second part is what makes the first one go through: with two writers of one path the step that
clears the flag would clear it for both.
-/

namespace TrieOverlay

/-! ### Guards that may be held together -/

/-- Whether two guards may be held together: on one path, only readers may. -/
def FileGuard.Compatible (g h : FileGuard) : Prop :=
  g.path = h.path → g.access = .read ∧ h.access = .read

instance (g h : FileGuard) : Decidable (g.Compatible h) :=
  inferInstanceAs (Decidable (g.path = h.path → _))

/-- Whether every two of these guards may be held together. -/
def Apart (gs : Multiset FileGuard) : Prop :=
  ∀ g ∈ gs, ∀ h ∈ gs.erase g, g.Compatible h

section Apart

variable {gs : Multiset FileGuard} {g h : FileGuard} {p : Path}

theorem FileGuard.Compatible.symm (hc : g.Compatible h) : h.Compatible g :=
  fun e => (hc e.symm).symm

theorem apart_zero : Apart 0 := by simp [Apart]

theorem Apart.cons (ha : Apart gs) (hg : ∀ h ∈ gs, g.Compatible h) : Apart (g ::ₘ gs) := by
  intro a hmem b hb
  by_cases hag : a = g
  · subst hag
    rw [Multiset.erase_cons_head] at hb
    exact hg b hb
  · have ha' : a ∈ gs := (Multiset.mem_cons.mp hmem).resolve_left hag
    rw [Multiset.erase_cons_tail _ (Ne.symm hag), Multiset.mem_cons] at hb
    obtain rfl | hb := hb
    · exact (hg a ha').symm
    · exact ha a ha' b hb

theorem Apart.erase (ha : Apart gs) (g : FileGuard) : Apart (gs.erase g) := by
  intro a hmem b hb
  rw [Multiset.erase_comm] at hb
  exact ha a (Multiset.mem_of_mem_erase hmem) b (Multiset.mem_of_mem_erase hb)

/-- One writer of a path is all its writers. -/
theorem Apart.writer_notMem_erase (ha : Apart gs) (hg : ⟨p, .write⟩ ∈ gs) :
    ⟨p, .write⟩ ∉ gs.erase ⟨p, .write⟩ := by
  intro hmem
  have := (ha _ hg _ hmem rfl).1
  simp at this

end Apart

/-! ### The record that a path should have -/

namespace LockState

variable {gs : Multiset FileGuard} {g : FileGuard} {p : Path}

/-- The record of a path that counts the readers among these guards and flags the writer. -/
def counting (gs : Multiset FileGuard) (p : Path) : LockState :=
  ⟨gs.count ⟨p, .read⟩, decide (⟨p, .write⟩ ∈ gs)⟩

theorem counting_zero : counting 0 p = nobody := by simp [counting, nobody]

theorem counting_cons_of_ne (h : g.path ≠ p) : counting (g ::ₘ gs) p = counting gs p := by
  have hne : ∀ access, (⟨p, access⟩ : FileGuard) ≠ g :=
    fun _ e => h (congrArg FileGuard.path e).symm
  simp [counting, Multiset.count_cons_of_ne (hne _), hne]

theorem counting_erase_of_ne (h : g.path ≠ p) : counting (gs.erase g) p = counting gs p := by
  have hne : ∀ access, (⟨p, access⟩ : FileGuard) ≠ g :=
    fun _ e => h (congrArg FileGuard.path e).symm
  simp [counting, Multiset.count_erase_of_ne (hne _), Multiset.mem_erase_of_ne (hne _)]

theorem isIdle_iff {s : LockState} : s.isIdle = true ↔ s = nobody := by
  obtain ⟨readers, writer⟩ := s
  simp [isIdle, nobody, and_comm]

theorem isIdle_counting : (counting gs p).isIdle = true ↔ ∀ g ∈ gs, g.path ≠ p := by
  simp only [isIdle_iff, counting, nobody, LockState.mk.injEq, Multiset.count_eq_zero,
    decide_eq_false_iff_not]
  constructor
  · rintro ⟨hr, hw⟩ ⟨q, access⟩ hmem rfl
    cases access with
    | read => exact hr hmem
    | write => exact hw hmem
  · exact fun h => ⟨fun hmem => h _ hmem rfl, fun hmem => h _ hmem rfl⟩

/-- A guard is admitted exactly when it is compatible with those that are counted, and then it is
counted too. -/
theorem admit?_counting (gs : Multiset FileGuard) (g : FileGuard) :
    (counting gs g.path).admit? g.access =
      if ∀ h ∈ gs, g.Compatible h then some (counting (g ::ₘ gs) g.path) else none := by
  obtain ⟨p, access⟩ := g
  cases access with
  | read =>
    have hiff : (∀ h ∈ gs, FileGuard.Compatible ⟨p, .read⟩ h) ↔ ⟨p, .write⟩ ∉ gs := by
      refine ⟨fun hc hmem => by simpa using (hc _ hmem rfl).2, ?_⟩
      rintro hw ⟨q, access⟩ hmem rfl
      cases access with
      | read => exact ⟨rfl, rfl⟩
      | write => exact absurd hmem hw
    simp only [hiff, admit?, counting]
    by_cases hw : (⟨p, .write⟩ : FileGuard) ∈ gs <;> simp [hw]
  | write =>
    have hiff : (∀ h ∈ gs, FileGuard.Compatible ⟨p, .write⟩ h) ↔
        (counting gs p).isIdle = true := by
      rw [isIdle_counting]
      exact forall₂_congr fun h _ =>
        ⟨fun hc e => by simpa using (hc e.symm).1, fun hne e => absurd e.symm hne⟩
    simp only [hiff, admit?]
    congr 2
    simp [counting]

/-- A guard that is given back is counted out. -/
theorem release_counting (ha : Apart gs) (hg : g ∈ gs) :
    (counting gs g.path).release g.access = counting (gs.erase g) g.path := by
  obtain ⟨p, access⟩ := g
  cases access with
  | read => simp [release, counting, Multiset.count_erase_self, Multiset.mem_erase_of_ne]
  | write =>
    simp [release, counting, ha.writer_notMem_erase hg, Multiset.count_erase_of_ne]

end LockState

/-! ### What the steps do to the records -/

namespace FileLocks

variable {l : FileLocks} {gs : Multiset FileGuard} {g : FileGuard} {p q : Path} {a : FileAccess}

/-- Whether the record of every path counts these guards. -/
def Tallies (l : FileLocks) (gs : Multiset FileGuard) : Prop :=
  ∀ p, l.stateOf p = .counting gs p

/-- Whether a path has a record in which nobody is counted. -/
def Vacant (l : FileLocks) (p : Path) : Prop :=
  ∃ s, l.held[p]? = some s ∧ s.isIdle = true

theorem stateOf_insert (l : FileLocks) (p q : Path) (s : LockState) :
    (⟨l.held.insert p s⟩ : FileLocks).stateOf q = if p = q then s else l.stateOf q := by
  simp only [stateOf, Std.ExtTreeMap.getElem?_insert, Std.LawfulEqCmp.compare_eq_iff_eq]
  split <;> rfl

theorem tallies_empty : empty.Tallies 0 := by
  intro p
  simp [stateOf, empty, LockState.counting_zero]

theorem not_vacant_empty : ¬ empty.Vacant p := by
  simp [Vacant, empty]

theorem tryAcquire_refused (h : (l.tryAcquire p a).1 = false) : (l.tryAcquire p a).2 = l := by
  unfold tryAcquire at h ⊢
  split at h
  · simp at h
  · rfl

theorem Tallies.tryAcquire (h : l.Tallies gs) (g : FileGuard) :
    (l.tryAcquire g.path g.access).1 = true ↔ ∀ h ∈ gs, g.Compatible h := by
  unfold FileLocks.tryAcquire
  rw [h g.path, LockState.admit?_counting]
  by_cases hc : ∀ h ∈ gs, g.Compatible h
  · rw [if_pos hc]
    exact iff_of_true rfl hc
  · rw [if_neg hc]
    exact iff_of_false Bool.false_ne_true hc

theorem Tallies.granted (h : l.Tallies gs) (hg : (l.tryAcquire g.path g.access).1 = true) :
    (l.tryAcquire g.path g.access).2.Tallies (g ::ₘ gs) := by
  have hc := (h.tryAcquire g).mp hg
  intro q
  unfold FileLocks.tryAcquire
  rw [h g.path, LockState.admit?_counting, if_pos hc]
  simp only [stateOf_insert]
  split
  · next e => rw [e]
  · next e => rw [h q, LockState.counting_cons_of_ne e]

/-- A path on which a guard is counted has a record. -/
theorem Tallies.exists_record (h : l.Tallies gs) (hg : g ∈ gs) :
    l.held[g.path]? = some (.counting gs g.path) := by
  have hstate := h g.path
  unfold stateOf at hstate
  cases hr : l.held[g.path]? with
  | some s => rw [← hstate, hr]; rfl
  | none =>
    rw [hr, Option.getD_none, eq_comm, ← LockState.isIdle_iff, LockState.isIdle_counting] at hstate
    exact absurd rfl (hstate g hg)

theorem Tallies.surrender (h : l.Tallies gs) (ha : Apart gs) (hg : g ∈ gs) :
    (l.surrender g.path g.access).Tallies (gs.erase g) := by
  intro q
  unfold FileLocks.surrender
  simp only [h.exists_record hg, stateOf_insert]
  split
  · next e => rw [← e, LockState.release_counting ha hg]
  · next e => rw [h q, LockState.counting_erase_of_ne e]

/-- Nobody is counted out by a prune: the record that goes says that nobody is there. -/
theorem stateOf_prune (l : FileLocks) (p q : Path) : (l.prune p).stateOf q = l.stateOf q := by
  unfold prune
  split
  · next s hs =>
    split
    · next hidle =>
      simp only [stateOf, Std.ExtTreeMap.getElem?_erase, Std.LawfulEqCmp.compare_eq_iff_eq]
      split
      · next e => rw [← e, hs, LockState.isIdle_iff.mp hidle]; rfl
      · rfl
    · rfl
  · rfl

theorem Tallies.prune (h : l.Tallies gs) (p : Path) : (l.prune p).Tallies gs := by
  intro q
  rw [stateOf_prune, h q]

theorem prune_record_of_not_vacant (h : ¬ l.Vacant q) (p : Path) :
    (l.prune p).held[q]? = l.held[q]? := by
  unfold FileLocks.prune
  split
  · next s hs =>
    split
    · next hidle =>
      have hne : p ≠ q := by
        rintro rfl
        exact h ⟨s, hs, hidle⟩
      simp [Std.ExtTreeMap.getElem?_erase, hne]
    · rfl
  · rfl

/-- A granted try leaves no vacant record where there was none. -/
theorem Vacant.of_tryAcquire (h : (l.tryAcquire p a).2.Vacant q) : l.Vacant q := by
  unfold tryAcquire at h
  split at h
  · next s hs =>
    obtain ⟨s', hs', hidle⟩ := h
    simp only [Std.ExtTreeMap.getElem?_insert, Std.LawfulEqCmp.compare_eq_iff_eq] at hs'
    split at hs'
    · obtain rfl : s = s' := by simpa using hs'
      rw [LockState.isIdle_iff] at hidle
      subst hidle
      cases a <;> simp [LockState.admit?, LockState.nobody] at hs
    · exact ⟨s', hs', hidle⟩
  · exact h

theorem Vacant.of_surrender (h : (l.surrender p a).Vacant q) : p = q ∨ l.Vacant q := by
  unfold surrender at h
  split at h
  · obtain ⟨s', hs', hidle⟩ := h
    simp only [Std.ExtTreeMap.getElem?_insert, Std.LawfulEqCmp.compare_eq_iff_eq] at hs'
    split at hs'
    · next e => exact .inl e
    · exact .inr ⟨s', hs', hidle⟩
  · exact .inr h

theorem Vacant.of_prune (h : (l.prune p).Vacant q) : p ≠ q ∧ l.Vacant q := by
  obtain ⟨s', hs', hidle⟩ := h
  unfold prune at hs'
  split at hs'
  · next s hs =>
    split at hs'
    · simp only [Std.ExtTreeMap.getElem?_erase, Std.LawfulEqCmp.compare_eq_iff_eq] at hs'
      split at hs'
      · simp at hs'
      · next e => exact ⟨e, s', hs', hidle⟩
    · next hbusy =>
      refine ⟨?_, s', hs', hidle⟩
      rintro rfl
      rw [hs, Option.some.injEq] at hs'
      exact hbusy (hs' ▸ hidle)
  · next hnone =>
    refine ⟨?_, s', hs', hidle⟩
    rintro rfl
    simp [hnone] at hs'

end FileLocks

/-! ### Threads that use the locks -/

/-- What a thread is at. -/
inductive Stage where
  /-- Not at anything that concerns a lock. -/
  | free
  /-- It tries to take a guard until it is granted. -/
  | acquiring (g : FileGuard)
  /-- It has counted a guard of a path out and has yet to prune the path. -/
  | dropping (p : Path)

/-- A thread that uses the locks. -/
structure LockUser where
  /-- What it is at. -/
  stage : Stage
  /-- The guards that it was granted and has not counted out. -/
  guards : Multiset FileGuard

/-- Threads and the locks that they use. -/
structure Contention (τ : Type) where
  /-- The locks. -/
  locks : FileLocks
  /-- The threads. -/
  users : τ → LockUser

namespace Contention

variable {τ : Type}

/-- Nobody holds or wants a guard. -/
def initial : Contention τ := ⟨.empty, fun _ => ⟨.free, 0⟩⟩

section Counted

variable [Fintype τ] {s : Contention τ} {g : FileGuard} {p : Path}

/-- The guards that are counted, over all threads. -/
def counted (s : Contention τ) : Multiset FileGuard :=
  ∑ t, (s.users t).guards

theorem mem_counted : g ∈ s.counted ↔ ∃ t, g ∈ (s.users t).guards := by
  simp [counted, Multiset.mem_sum]

/-- How the records agree with the threads at any moment. -/
structure Tallied (s : Contention τ) : Prop where
  /-- The records count the guards that are counted. -/
  tallies : s.locks.Tallies s.counted
  /-- The guards that are counted may be held together. -/
  apart : Apart s.counted
  /-- A record in which nobody is counted will be pruned. -/
  vacant : ∀ p, s.locks.Vacant p → ∃ t, (s.users t).stage = .dropping p

theorem tallied_initial : (initial : Contention τ).Tallied where
  tallies := by simpa [counted, initial] using FileLocks.tallies_empty
  apart := by simpa [counted, initial] using apart_zero
  vacant _ h := absurd h FileLocks.not_vacant_empty

theorem Tallied.not_vacant (h : s.Tallied) (hg : g ∈ s.counted) : ¬ s.locks.Vacant g.path := by
  rintro ⟨r, hr, hidle⟩
  rw [h.tallies.exists_record hg, Option.some.injEq] at hr
  subst hr
  exact LockState.isIdle_counting.mp hidle g hg rfl

/-- A path is locked as long as a guard of it is counted. -/
theorem Tallied.isLocked (h : s.Tallied) :
    s.locks.isLocked p = true ↔ ∃ g ∈ s.counted, g.path = p := by
  unfold FileLocks.isLocked
  rw [Bool.not_eq_true', ← Bool.not_eq_true, h.tallies p, LockState.isIdle_counting]
  push Not
  rfl

/-- A path of which no thread holds a guard or is giving one back has no record. -/
theorem Tallied.no_record (h : s.Tallied)
    (hp : ∀ t, (s.users t).stage ≠ .dropping p ∧ ∀ g ∈ (s.users t).guards, g.path ≠ p) :
    s.locks.held[p]? = none := by
  by_contra hsome
  obtain ⟨r, hr⟩ := Option.ne_none_iff_exists'.mp hsome
  have hidle : r.isIdle = true := by
    have hstate := h.tallies p
    rw [FileLocks.stateOf, hr, Option.getD_some] at hstate
    rw [hstate, LockState.isIdle_counting]
    intro g hg
    obtain ⟨t, ht⟩ := mem_counted.mp hg
    exact (hp t).2 g ht
  obtain ⟨t, ht⟩ := h.vacant p ⟨r, hr, hidle⟩
  exact (hp t).1 ht

end Counted

/-! ### Steps and runs -/

variable [DecidableEq τ]

/-- The state after a step of one thread. -/
def after (s : Contention τ) (t : τ) (locks : FileLocks) (u : LockUser) : Contention τ :=
  ⟨locks, Function.update s.users t u⟩

/-- One step of one thread.  The locks are used by one thread at a time, so a try, a surrender and a
prune are a step each. -/
inductive Step (s : Contention τ) : Contention τ → Prop
  /-- A thread asks for a guard. -/
  | call (t : τ) (g : FileGuard) (hstage : (s.users t).stage = .free) :
      Step s (s.after t s.locks ⟨.acquiring g, (s.users t).guards⟩)
  /-- A thread tries, and is granted the guard. -/
  | granted (t : τ) (g : FileGuard) (hstage : (s.users t).stage = .acquiring g)
      (htry : (s.locks.tryAcquire g.path g.access).1 = true) :
      Step s (s.after t (s.locks.tryAcquire g.path g.access).2 ⟨.free, g ::ₘ (s.users t).guards⟩)
  /-- A thread tries, and has to try again. -/
  | refused (t : τ) (g : FileGuard) (hstage : (s.users t).stage = .acquiring g)
      (htry : (s.locks.tryAcquire g.path g.access).1 = false) :
      Step s (s.after t (s.locks.tryAcquire g.path g.access).2
        ⟨.acquiring g, (s.users t).guards⟩)
  /-- A thread starts to give a guard back: it is counted out. -/
  | surrender (t : τ) (g : FileGuard) (hstage : (s.users t).stage = .free)
      (hg : g ∈ (s.users t).guards) :
      Step s (s.after t (s.locks.surrender g.path g.access)
        ⟨.dropping g.path, (s.users t).guards.erase g⟩)
  /-- A thread has given a guard back: the path is pruned. -/
  | prune (t : τ) (p : Path) (hstage : (s.users t).stage = .dropping p) :
      Step s (s.after t (s.locks.prune p) ⟨.free, (s.users t).guards⟩)

/-- What the threads can come to. -/
def Reachable (s : Contention τ) : Prop :=
  Relation.ReflTransGen Step initial s

section Steps

variable {s s' : Contention τ} {t : τ} {g : FileGuard} {q : Path}

/-- A thread that is about to prune a path still is after a step of another. -/
theorem exists_dropping_after {locks : FileLocks} {u : LockUser}
    (h : ∃ t', (s.users t').stage = .dropping q) (ht : (s.users t).stage ≠ .dropping q) :
    ∃ t', ((s.after t locks u).users t').stage = .dropping q := by
  obtain ⟨t', ht'⟩ := h
  have hne : t' ≠ t := by
    rintro rfl
    exact ht ht'
  exact ⟨t', by simpa [after, Function.update_of_ne hne] using ht'⟩

variable [Fintype τ]

/-- A step of one thread changes what is counted by what it changes of its own guards. -/
theorem counted_after (s : Contention τ) (t : τ) (locks : FileLocks) (u : LockUser) :
    (s.after t locks u).counted + (s.users t).guards = s.counted + u.guards := by
  have hself : ((s.after t locks u).users t).guards = u.guards := by simp [after]
  have hrest : ∀ t' ∈ Finset.univ.erase t,
      ((s.after t locks u).users t').guards = (s.users t').guards := by
    intro t' ht'
    simp [after, Function.update_of_ne (Finset.ne_of_mem_erase ht')]
  unfold counted
  rw [← Finset.add_sum_erase _ _ (Finset.mem_univ t), Finset.sum_congr rfl hrest, hself,
    ← Finset.add_sum_erase _ (fun t => (s.users t).guards) (Finset.mem_univ t)]
  ac_rfl

theorem counted_after_same (s : Contention τ) (t : τ) (locks : FileLocks) (stage : Stage) :
    (s.after t locks ⟨stage, (s.users t).guards⟩).counted = s.counted :=
  add_right_cancel (s.counted_after t locks _)

theorem counted_after_cons (s : Contention τ) (t : τ) (locks : FileLocks) (stage : Stage)
    (g : FileGuard) :
    (s.after t locks ⟨stage, g ::ₘ (s.users t).guards⟩).counted = g ::ₘ s.counted := by
  have hsum := s.counted_after t locks ⟨stage, g ::ₘ (s.users t).guards⟩
  rw [Multiset.add_cons, ← Multiset.cons_add] at hsum
  exact add_right_cancel hsum

theorem counted_after_erase (locks : FileLocks) (stage : Stage) (hg : g ∈ (s.users t).guards) :
    (s.after t locks ⟨stage, (s.users t).guards.erase g⟩).counted = s.counted.erase g := by
  have hsum := s.counted_after t locks ⟨stage, (s.users t).guards.erase g⟩
  rw [← Multiset.cons_erase hg, Multiset.erase_cons_head, Multiset.add_cons,
    ← Multiset.cons_add] at hsum
  rw [← add_right_cancel hsum, Multiset.erase_cons_head]

/-- A step that leaves the locks and the guards as they are, of a thread that is to prune nothing. -/
theorem Tallied.after_same (h : s.Tallied) (stage : Stage)
    (hstage : ∀ p, (s.users t).stage ≠ .dropping p) :
    (s.after t s.locks ⟨stage, (s.users t).guards⟩).Tallied := by
  refine ⟨?_, ?_, fun p hp => exists_dropping_after (h.vacant p hp) (hstage p)⟩
  · rw [counted_after_same]
    exact h.tallies
  · rw [counted_after_same]
    exact h.apart

theorem Tallied.step (h : s.Tallied) (hstep : Step s s') : s'.Tallied := by
  cases hstep with
  | call t g hstage => exact h.after_same _ (by simp [hstage])
  | granted t g hstage htry =>
    refine ⟨?_, ?_, fun p hp =>
      exists_dropping_after (h.vacant p hp.of_tryAcquire) (by simp [hstage])⟩
    · rw [counted_after_cons]
      exact h.tallies.granted htry
    · rw [counted_after_cons]
      exact h.apart.cons ((h.tallies.tryAcquire g).mp htry)
  | refused t g hstage htry =>
    rw [FileLocks.tryAcquire_refused htry]
    exact h.after_same _ (by simp [hstage])
  | surrender t g hstage hg =>
    refine ⟨?_, ?_, fun p hp => ?_⟩
    · rw [counted_after_erase _ _ hg]
      exact h.tallies.surrender h.apart (mem_counted.mpr ⟨t, hg⟩)
    · rw [counted_after_erase _ _ hg]
      exact h.apart.erase g
    · -- the record may have become vacant by this step, and then this thread will prune it
      obtain rfl | hp := hp.of_surrender
      · exact ⟨t, by simp [after]⟩
      · exact exists_dropping_after (h.vacant p hp) (by simp [hstage])
  | prune t p hstage =>
    refine ⟨?_, ?_, fun q hq => ?_⟩
    · rw [counted_after_same]
      exact h.tallies.prune p
    · rw [counted_after_same]
      exact h.apart
    · -- this thread prunes no path any more, but the record that it was to prune is gone
      obtain ⟨hne, hq⟩ := hq.of_prune
      exact exists_dropping_after (h.vacant q hq) (by simp [hstage, hne])

theorem Reachable.tallied (h : Reachable s) : s.Tallied := by
  induction h with
  | refl => exact tallied_initial
  | tail _ hstep ih => exact ih.step hstep

end Steps

variable [Fintype τ]

/-- **The locks of a path exclude each other under every interleaving.** Whatever any number of
threads have done so far:

* of two guards of one path that are counted, both are readers';
* the record of a path has the number of its readers and whether it has a writer;
* pruning a path leaves the record of a counted guard, so no release takes it away from another;
* a reader that is counted out is one of those that the record has, so none is counted out in vain;
* a try is granted exactly if the guard is compatible with those that are counted;
* once no thread holds a guard or is giving one back, there is no record.
-/
theorem guards_exclude {s : Contention τ} (h : Reachable s) :
    (∀ g ∈ s.counted, ∀ g' ∈ s.counted.erase g,
      g.path = g'.path → g.access = .read ∧ g'.access = .read) ∧
    (∀ p, s.locks.stateOf p =
      ⟨s.counted.count ⟨p, .read⟩, decide (⟨p, .write⟩ ∈ s.counted)⟩) ∧
    (∀ g ∈ s.counted, ∀ p, (s.locks.prune p).held[g.path]? = s.locks.held[g.path]? ∧
      (s.locks.held[g.path]?).isSome) ∧
    (∀ p, ⟨p, .read⟩ ∈ s.counted →
      ((s.locks.surrender p .read).stateOf p).readers + 1 = (s.locks.stateOf p).readers) ∧
    (∀ g : FileGuard, (s.locks.tryAcquire g.path g.access).1 = true ↔
      ∀ g' ∈ s.counted, g.path = g'.path → g.access = .read ∧ g'.access = .read) ∧
    ((∀ t, (s.users t).guards = 0 ∧ ∀ p, (s.users t).stage ≠ .dropping p) →
      s.locks.held = ∅) := by
  have hs := h.tallied
  refine ⟨hs.apart, hs.tallies, fun g hg p => ⟨?_, ?_⟩, fun p hp => ?_, hs.tallies.tryAcquire,
    fun hdone => ?_⟩
  · exact FileLocks.prune_record_of_not_vacant (hs.not_vacant hg) p
  · simp [hs.tallies.exists_record hg]
  · rw [hs.tallies.surrender hs.apart hp p, hs.tallies p]
    unfold LockState.counting
    rw [Multiset.count_erase_self]
    exact Nat.sub_add_cancel (Multiset.count_pos.mpr hp)
  · apply Std.ExtTreeMap.ext_getElem?
    intro q
    rw [hs.no_record fun t => ⟨(hdone t).2 q, by simp [(hdone t).1]⟩]
    simp

/-- A reader gives its guard back while a writer waits: the writer is granted the path between the
two steps of the reader, and the reader's prune leaves the writer's record. -/
theorem guards_exclude_of_handover :
    ∃ s : Contention Bool, Reachable s ∧ (s.users true).stage = .dropping ⟨["a"]⟩ ∧
      s.counted = {⟨⟨["a"]⟩, .write⟩} ∧
      ((s.locks.prune ⟨["a"]⟩).held[(⟨["a"]⟩ : Path)]?).isSome ∧
      (s.locks.tryAcquire ⟨["a"]⟩ .read).1 = false := by
  let reads : FileGuard := ⟨⟨["a"]⟩, .read⟩
  let writes : FileGuard := ⟨⟨["a"]⟩, .write⟩
  have hcalled : Reachable _ :=
    .tail (.single (.call (s := initial) true reads rfl)) (.call false writes rfl)
  have hread : Reachable _ := .tail hcalled (.granted true reads rfl rfl)
  have hwaits : Reachable _ := .tail hread (.refused false writes rfl rfl)
  have hleaves : Reachable _ := .tail hwaits (.surrender true reads rfl (by decide))
  have hwrites : Reachable _ := .tail hleaves (.granted false writes rfl rfl)
  obtain ⟨-, -, hkept, -, htry, -⟩ := guards_exclude hwrites
  refine ⟨_, hwrites, rfl, by decide, ?_, ?_⟩
  · obtain ⟨hprune, hrecord⟩ := hkept writes (by decide) ⟨["a"]⟩
    exact hprune ▸ hrecord
  · refine Bool.eq_false_iff.mpr fun hgranted => ?_
    have := (htry reads).mp hgranted writes (by decide) rfl
    simp [writes] at this

end Contention

end TrieOverlay
