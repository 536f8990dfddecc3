import Std.Data.ExtTreeMap.Lemmas
import TrieOverlay.Disk.Volume

/-!
# Volumes on which no call is refused

With an empty schedule every call has one outcome, which depends only on what is at its path.
`Volume.HasFile` says that a file can be read and what it holds; `Volume.Keeps ps v v'` says that
everything that was on the volume `v` is still on `v'`, apart from the files at `ps`.
-/

namespace TrieOverlay

/-! ### Computations in sequence -/

section Runs

variable {α β : Type} {v v' : Volume}

theorem TryDisk.run_bind_ok {act : TryDisk α} {f : α → TryDisk β} {a : α}
    (h : act.run.run v = (.ok a, v')) : (act >>= f).run.run v = (f a).run.run v' := by
  simp only [ExceptT.run_bind, StateT.run_bind, h]
  rfl

theorem TryDisk.run_bind_error {act : TryDisk α} {f : α → TryDisk β} {e : StorageError}
    (h : act.run.run v = (.error e, v')) : (act >>= f).run.run v = (.error e, v') := by
  simp only [ExceptT.run_bind, StateT.run_bind, h]
  rfl

theorem TryDisk.run_map_ok {act : TryDisk α} {f : α → β} {a : α}
    (h : act.run.run v = (.ok a, v')) : (f <$> act).run.run v = (.ok (f a), v') := by
  simp only [ExceptT.run_map, StateT.run_map, h]
  rfl

theorem TryDisk.run_tryCatch_ok {act : TryDisk α} {f : StorageError → TryDisk α} {a : α}
    (h : act.run.run v = (.ok a, v')) : (tryCatch act f).run.run v = (.ok a, v') := by
  simp only [tryCatch, tryCatchThe, MonadExceptOf.tryCatch, ExceptT.tryCatch, ExceptT.run_mk,
    StateT.run_bind]
  erw [h]
  rfl

theorem TryDisk.run_map_error {act : TryDisk α} {f : α → β} {e : StorageError}
    (h : act.run.run v = (.error e, v')) : (f <$> act).run.run v = (.error e, v') := by
  simp only [ExceptT.run_map, StateT.run_map, h]
  rfl

theorem TryDisk.run_tryCatch_error {act : TryDisk α} {f : StorageError → TryDisk α}
    {e : StorageError} (h : act.run.run v = (.error e, v')) :
    (tryCatch act f).run.run v = (f e).run.run v' := by
  simp only [tryCatch, tryCatchThe, MonadExceptOf.tryCatch, ExceptT.tryCatch, ExceptT.run_mk,
    StateT.run_bind]
  erw [h]
  rfl

theorem TryDisk.run_lift {act : Disk α} {a : α} (h : act.run v = (a, v')) :
    (liftM act : TryDisk α).run.run v = (.ok a, v') := by
  change (Except.ok <$> act : StateM Volume _).run v = _
  simp only [StateT.run_map, h]
  rfl

theorem Disk.run_bind_eq {act : Disk α} {f : α → Disk β} {a : α} (h : act.run v = (a, v')) :
    (act >>= f).run v = (f a).run v' := by
  simp only [StateT.run_bind, h]
  rfl

end Runs

namespace Volume

variable {v v' v'' : Volume} {p q : Path} {bytes : Bytes}

/-! ### What is at a path -/

theorem item?_put_self (hp : p ≠ .root) (i : Item) : (v.put p i).item? p = some i := by
  simp [item?, put, hp]

theorem item?_put_of_ne (h : q ≠ p) (i : Item) : (v.put p i).item? q = v.item? q := by
  simp [item?, put, Std.ExtTreeMap.getElem?_insert, Std.LawfulEqCmp.compare_eq_iff_eq, Ne.symm h]

theorem item?_drop_of_ne (h : q ≠ p) : (v.drop p).item? q = v.item? q := by
  simp [item?, drop, Std.ExtTreeMap.getElem?_erase, Std.LawfulEqCmp.compare_eq_iff_eq, Ne.symm h]

/-- A path can be reached if all that is on the way are directories. -/
theorem obstacle?_eq_none_iff :
    v.obstacle? p = none ↔ ∀ a ∈ p.ancestors, v.item? a = some .directory := by
  rw [obstacle?, List.findSome?_eq_none_iff]
  refine forall₂_congr fun a _ => ?_
  split <;> simp_all

/-- A file can be read. -/
def HasFile (v : Volume) (p : Path) (bytes : Bytes) : Prop :=
  v.obstacle? p = none ∧ v.item? p = some (.file bytes)

theorem HasFile.content_eq (h : v.HasFile p bytes) : v.content p = .ok bytes := by
  simp [content, find, h.1, h.2]

theorem hasFile_iff : v.HasFile p bytes ↔ v.content p = .ok bytes := by
  refine ⟨HasFile.content_eq, fun h => ?_⟩
  simp only [content, find] at h
  -- only a file that can be reached has content
  split at h
  · rename_i hfind
    split at hfind
    · cases hfind
    · split at hfind
      · cases hfind
        cases h
        exact ⟨‹_›, ‹_›⟩
      · cases hfind
  all_goals cases h

theorem HasFile.writable_eq (h : v.HasFile p bytes) : v.writable p = .ok (some bytes) := by
  simp [writable, h.content_eq]

theorem HasFile.eq (h : v.HasFile p bytes) {bytes' : Bytes} (h' : v.HasFile p bytes') :
    bytes = bytes' := by
  simpa [h.2] using h'.2

theorem HasFile.ne_root (h : v.HasFile p bytes) : p ≠ .root := by
  rintro rfl
  simpa [item?] using h.2

/-- A directory can be reached. -/
def HasDirectory (v : Volume) (p : Path) : Prop :=
  v.obstacle? p = none ∧ v.item? p = some .directory

theorem HasDirectory.find_eq (h : v.HasDirectory p) : v.find p = .ok .directory := by
  simp [find, h.1, h.2]

theorem ancestors_child (dir : Path) (name : String) :
    (dir.child name).ancestors = dir.ancestors ++ [dir] := by
  simp only [Path.ancestors, Path.child, List.length_append, List.length_singleton,
    List.range_succ, List.map_append, List.map_cons, List.map_nil, List.take_left']
  congr 1
  refine List.map_congr_left fun n hn => ?_
  rw [List.take_append_of_le_length (Nat.le_of_lt (List.mem_range.1 hn))]

theorem child_ne_root (dir : Path) (name : String) : dir.child name ≠ .root := by
  simp [Path.child, Path.root]

/-- What is in a directory can be reached. -/
theorem HasDirectory.obstacle?_child (h : v.HasDirectory p) (name : String) :
    v.obstacle? (p.child name) = none := by
  rw [obstacle?_eq_none_iff, ancestors_child]
  intro a ha
  rcases List.mem_append.1 ha with ha | ha
  · exact obstacle?_eq_none_iff.1 h.1 a ha
  · rw [List.mem_singleton.1 ha]
    exact h.2

/-! ### What stays -/

/-- Everything stays where it is, apart from the files at some paths. -/
def Keeps (ps : List Path) (v v' : Volume) : Prop :=
  ∀ q i, v.item? q = some i → (q ∈ ps → i = .directory) → v'.item? q = some i

theorem Keeps.refl (v : Volume) (ps : List Path) : Keeps ps v v :=
  fun _ _ h _ => h

theorem Keeps.trans {ps : List Path} (h : Keeps ps v v') (h' : Keeps ps v' v'') :
    Keeps ps v v'' :=
  fun q i hi hq => h' q i (h q i hi hq) hq

theorem Keeps.mono {ps qs : List Path} (h : Keeps ps v v') (hs : ps ⊆ qs) : Keeps qs v v' :=
  fun q i hi hq => h q i hi fun hp => hq (hs hp)

/-- A path that holds nothing at first may be left out. -/
theorem Keeps.of_cons {ps : List Path} (h : Keeps (p :: ps) v v') (hp : v.item? p = none) :
    Keeps ps v v' := by
  intro q i hi hq
  refine h q i hi fun hmem => ?_
  rcases List.mem_cons.1 hmem with rfl | hmem
  · rw [hp] at hi
    cases hi
  · exact hq hmem

theorem Keeps.obstacle? {ps : List Path} (h : Keeps ps v v') (hp : v.obstacle? p = none) :
    v'.obstacle? p = none := by
  rw [obstacle?_eq_none_iff] at hp ⊢
  exact fun a ha => h a _ (hp a ha) fun _ => rfl

theorem Keeps.hasFile {ps : List Path} (h : Keeps ps v v') (hf : v.HasFile p bytes)
    (hp : p ∉ ps) : v'.HasFile p bytes :=
  ⟨h.obstacle? hf.1, h p _ hf.2 fun hmem => absurd hmem hp⟩

theorem Keeps.hasDirectory {ps : List Path} (h : Keeps ps v v') (hd : v.HasDirectory p) :
    v'.HasDirectory p :=
  ⟨h.obstacle? hd.1, h p _ hd.2 fun _ => rfl⟩

theorem keeps_putFile (hp : v.item? p ≠ some .directory) (bytes : Bytes) :
    Keeps [p] v (v.putFile p bytes) := by
  intro q i hi hq
  by_cases hqp : q = p
  · subst hqp
    exact absurd (hi.trans (congrArg some (hq (List.mem_singleton_self q)))) hp
  · rwa [putFile, item?_put_of_ne hqp]

theorem keeps_drop (hp : v.item? p ≠ some .directory) : Keeps [p] v (v.drop p) := by
  intro q i hi hq
  by_cases hqp : q = p
  · subst hqp
    exact absurd (hi.trans (congrArg some (hq (List.mem_singleton_self q)))) hp
  · rwa [item?_drop_of_ne hqp]

theorem hasFile_putFile (hr : p ≠ .root) (hp : v.item? p ≠ some .directory)
    (ho : v.obstacle? p = none) (bytes : Bytes) : (v.putFile p bytes).HasFile p bytes :=
  ⟨(keeps_putFile hp bytes).obstacle? ho, item?_put_self hr _⟩

theorem HasFile.not_directory (h : v.HasFile p bytes) : v.item? p ≠ some .directory := by
  rw [h.2]
  simp

theorem HasFile.putFile (h : v.HasFile p bytes) (bytes' : Bytes) :
    (v.putFile p bytes').HasFile p bytes' :=
  hasFile_putFile h.ne_root h.not_directory h.1 bytes'

/-! ### Calls -/

section Calls

variable (hs : v.schedule = [])

include hs

theorem run_call {α : Type} {act : Volume → Except IoError (α × Volume)} {a : α}
    (h : act v = .ok (a, v')) : (call p act).run.run v = (.ok a, v') := by
  unfold call
  simp only [ExceptT.run_mk, StateT.run, nextFault, hs, h]

theorem run_call_error {α : Type} {act : Volume → Except IoError (α × Volume)} {e : IoError}
    (h : act v = .error e) : (call p act).run.run v = (.error ⟨p, e⟩, v) := by
  unfold call
  simp only [ExceptT.run_mk, StateT.run, nextFault, hs, h]

theorem run_read (h : v.HasFile p bytes) : (read p).run.run v = (.ok bytes, v) :=
  run_call hs (by simp [readCall, h.content_eq, Except.map])

theorem run_readIfPresent (h : v.HasFile p bytes) :
    (readIfPresent p).run.run v = (.ok (some bytes), v) :=
  TryDisk.run_tryCatch_ok (TryDisk.run_map_ok (run_read hs h))

theorem run_readIfPresent_missing (h : v.content p = .error .notFound) :
    (readIfPresent p).run.run v = (.ok none, v) := by
  have hread : (read p).run.run v = (.error ⟨p, .notFound⟩, v) :=
    run_call_error hs (by simp [readCall, h, Except.map])
  rw [readIfPresent, TryDisk.run_tryCatch_error (TryDisk.run_map_error hread)]
  rfl

theorem run_touch (h : v.HasFile p bytes) : (touch p).run.run v = (.ok (), v) :=
  run_call hs (by simp [touchCall, h.writable_eq])

theorem run_touch_new (ho : v.obstacle? p = none) (hp : v.item? p = none) :
    (touch p).run.run v = (.ok (), v.putFile p []) :=
  run_call hs (by simp [touchCall, writable, content, find, ho, hp])

theorem run_append (h : v.HasFile p bytes) (more : Bytes) :
    (append p more).run.run v = (.ok (), v.putFile p (bytes ++ more)) := by
  have hcall : (call p (appendCall p more)).run.run v = (.ok (), v.putFile p (bytes ++ more)) :=
    run_call hs (by simp [appendCall, h.content_eq])
  unfold append
  simp only [ExceptT.run_mk, StateT.run, nextFault, hs]
  exact hcall

theorem run_clear (h : v.HasFile p bytes) :
    (clear p).run.run v = (.ok (), v.putFile p []) :=
  run_call hs (by simp [clearCall, h.writable_eq])

theorem run_clear_new (ho : v.obstacle? p = none) (hp : v.item? p = none) :
    (clear p).run.run v = (.ok (), v.putFile p []) :=
  run_call hs (by simp [clearCall, writable, content, find, ho, hp])

theorem run_createDirectories (h : v.HasDirectory p) :
    (createDirectories p).run.run v = (.ok (), v) :=
  run_call hs (by simp [createDirectoriesCall, h.find_eq])

end Calls

theorem run_discard (h : v.HasFile p bytes) : (discard p).run v = ((), v.drop p) := by
  change (_, _) = _
  simp [removeCall, h.content_eq]

theorem run_discard_of_not_hasFile (h : ∀ bytes, ¬v.HasFile p bytes) :
    (discard p).run v = ((), v) := by
  cases hc : v.content p with
  | ok bytes => exact absurd (hasFile_iff.2 hc) (h bytes)
  | error e =>
    change (_, _) = _
    simp [removeCall, hc]

theorem run_nextSerial (v : Volume) :
    nextSerial.run v = (v.serial, { v with serial := v.serial + 1 }) :=
  rfl

end Volume

end TrieOverlay
