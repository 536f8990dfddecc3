import TrieOverlay.Bulk.Split
import TrieOverlay.Proofs.Bulk.Faults
import TrieOverlay.Proofs.Bulk.File
import TrieOverlay.Proofs.Bulk.Reading

/-!
# A file is split while it is read

`Bulk.splitInPortions` is the split of a file with any number of entries for a portion.  Reading and
writing alternate in it, and a flag keeps what went wrong on the way.  `Bulk.splitAfterReading` does
the same one after the other: it reads the whole file, computes the portions (`Bulk.portions`), and
writes them in order, where the first failure ends everything.

The two make the same calls up to the first failure, so they succeed on the same volumes and with
the same outcome (`Bulk.alike_splitAfterReading`).
-/

namespace TrieOverlay.Bulk

variable {α : Type} {v v' : Volume} {dir p : Path} {path : Key} {size level : Nat}
  {files : List (Option ScratchFile)} {pending : List (List Entry)} {s : Split}

/-! ### Portions of any size -/

/-- Adds an entry to its level, and writes the level when a portion of a size is full. -/
def Split.visitIn (size : Nat) (path : Key) (dir : Path) (s : Split) (e : Entry) : Disk Split := do
  if s.failure.isSome then
    return s
  let level := path.levelOf e.key
  let batch := s.pending[level]?.getD [] ++ [e]
  let s := { s with pending := s.pending.set level batch }
  if batch.length ≥ size then s.flush dir level else return s

/-- Writes what is pending at all levels, unless something went wrong before. -/
def Split.flushRest (dir : Path) (levels : Nat) (s : Split) (visits : Except StorageError Nat) :
    Disk Split :=
  if visits.isOk && s.failure.isNone then Split.flushAll dir (List.range levels) s else pure s

/-- Hands the files on, or releases them if something went wrong. -/
def Split.conclude (s : Split) (visits : Except StorageError Nat) :
    TryDisk (List (Option ScratchFile)) :=
  match visits, s.failure with
  | .error e, _ | .ok _, some e => do
    ScratchFile.releaseAll s.made
    throw e
  | .ok _, none => return s.files

/-- Writes what is pending at a level to the file of the level. -/
def Split.writePending (s : Split) (level : Nat) (f : ScratchFile) : Disk Split := do
  match ← (f.append (s.pending[level]?.getD [])).run with
  | .error e => s.failed level e
  | .ok _ => return { s with pending := s.pending.set level [] }

/-- Splits a file by level with portions of a size. -/
def splitInPortions (size : Nat) (path : Key) (source : ScratchFile) (dir : Path) :
    TryDisk (List (Option ScratchFile)) := do
  let levels := path.length + 1
  let (s, visits) ← scan source.path (Split.visitIn size path dir) (Split.start levels)
  source.release
  let s ← s.flushRest dir levels visits
  s.conclude visits

theorem splitByLevel_eq (path : Key) (source : ScratchFile) (dir : Path) :
    splitByLevel path source dir = splitInPortions portionSize path source dir := by
  rw [splitByLevel, splitInPortions]
  congr 1
  funext r
  obtain ⟨s, visits⟩ := r
  simp only [Split.flushRest]
  split <;> rfl

/-! ### Reading first -/

/-- The portions of some entries with their levels, in the order in which they get full, and what is
left at each level. -/
def portions (size : Nat) (path : Key) (pending : List (List Entry)) :
    List Entry → List (Nat × List Entry) × List (List Entry)
  | [] => ([], pending)
  | e :: es =>
    let level := path.levelOf e.key
    let batch := pending[level]?.getD [] ++ [e]
    if batch.length ≥ size then
      let (full, left) := portions size path (pending.set level []) es
      ((level, batch) :: full, left)
    else portions size path (pending.set level batch) es

/-- Adds a batch to the file of its level, which is made if there is none. -/
def addBatch (dir : Path) (files : List (Option ScratchFile)) (batch : Nat × List Entry) :
    TryDisk (List (Option ScratchFile)) := do
  if batch.2.isEmpty then
    return files
  let file ← match files[batch.1]? with
    | some (some f) => pure f
    | _ => ScratchFile.createIn dir
  let _ ← file.append batch.2
  return files.set batch.1 (some file)

/-- Adds some batches to the files of their levels. -/
def addBatches (dir : Path) (files : List (Option ScratchFile))
    (batches : List (Nat × List Entry)) : TryDisk (List (Option ScratchFile)) :=
  batches.foldlM (addBatch dir) files

/-- Splits a file that was read whole: writes the full portions, lets go of the file and writes what
is left at the levels. -/
def splitAfterReading (size : Nat) (path : Key) (source : ScratchFile) (dir : Path) :
    TryDisk (List (Option ScratchFile)) := do
  let levels := path.length + 1
  let es ← readEntries source.path
  let (full, left) := portions size path (List.replicate levels []) es
  let files ← addBatches dir (List.replicate levels none) full
  source.release
  addBatches dir files ((List.range levels).map fun i => (i, left[i]?.getD []))

/-! ### Scanning -/

/-- A scan reads a file and visits its entries, or it fails. -/
theorem run_scan_eq {σ : Type} (visit : σ → Entry → Disk σ) (s : σ) (p : Path) (v : Volume) :
    match (readEntries p).run.run v with
    | (.ok es, v₁) => (scan p visit s).run v =
        ((((es.foldlM visit s).run v₁).1, .ok es.length), ((es.foldlM visit s).run v₁).2)
    | (.error _, _) => ∃ s' e v', (scan p visit s).run v = ((s', .error e), v') := by
  rw [readEntries_eq]
  rcases hlines : (readLines p).run.run v with ⟨e | lines, v₁⟩
  · obtain ⟨seen, hseen⟩ := run_scan_of_no_lines hlines visit
    rw [TryDisk.run_map_error hlines]
    exact ⟨_, e, _, hseen s⟩
  · rw [TryDisk.run_map_ok hlines]
    exact run_scan_of_lines hlines visit s

theorem run_scan_of_ok {σ : Type} {visit : σ → Entry → Disk σ} {s s' : σ} {es : List Entry}
    {v₁ : Volume} (hread : (readEntries p).run.run v = (.ok es, v₁))
    (hvisits : (es.foldlM visit s).run v₁ = (s', v')) :
    (scan p visit s).run v = ((s', .ok es.length), v') := by
  have h := run_scan_eq visit s p v
  rw [hread] at h
  simp only [hvisits] at h
  exact h

theorem run_scan_of_error {σ : Type} (visit : σ → Entry → Disk σ) (s : σ) {e : StorageError}
    (hread : (readEntries p).run.run v = (.error e, v')) :
    ∃ s' e v', (scan p visit s).run v = ((s', .error e), v') := by
  have h := run_scan_eq visit s p v
  rw [hread] at h
  exact h

/-! ### Writing while reading -/

/-- A computation on the files of the levels ends like a split: with the same files and volume, or
both fail. -/
def Matches (pending : List (List Entry)) :
    Except StorageError (List (Option ScratchFile)) × Volume → Split × Volume → Prop
  | (.ok files, v), r => r = (⟨files, pending, none⟩, v)
  | (.error e, _), r => r.1.failure = some e

/-- What comes after a failure leaves a split as it is. -/
theorem Matches.bind {left : List (List Entry)} {act : TryDisk (List (Option ScratchFile))}
    {split : Disk Split} {f : List (Option ScratchFile) → TryDisk (List (Option ScratchFile))}
    {g : Split → Disk Split} (h : Matches pending (act.run.run v) (split.run v))
    (hok : ∀ files v₁, Matches left ((f files).run.run v₁) ((g ⟨files, pending, none⟩).run v₁))
    (herror : ∀ s v₁, s.failure.isSome → (g s).run v₁ = (s, v₁)) :
    Matches left ((act >>= f).run.run v) ((split >>= g).run v) := by
  rcases hact : act.run.run v with ⟨e | files, v₁⟩
  · rcases hsplit : split.run v with ⟨s, v₂⟩
    rw [hact, hsplit] at h
    have hfailure : s.failure = some e := h
    rw [TryDisk.run_bind_error hact, Disk.run_bind_eq hsplit, herror s v₂ (by rw [hfailure]; rfl)]
    exact hfailure
  · rw [hact] at h
    rw [TryDisk.run_bind_ok hact, Disk.run_bind_eq h]
    exact hok files v₁

theorem failure_failed (s : Split) (level : Nat) (e : StorageError) (v : Volume) :
    ((s.failed level e).run v).1.failure = some e := by
  rw [Split.failed]
  rcases s.files[level]? with _ | _ | f <;> rfl

theorem set_getD_nil (h : pending[level]?.getD [] = []) : pending.set level [] = pending := by
  refine List.ext_getElem? fun i => ?_
  rw [List.getElem?_set]
  split
  · rename_i hi
    subst hi
    split
    · rename_i hlt
      rw [List.getElem?_eq_getElem hlt, Option.getD_some] at h
      rw [List.getElem?_eq_getElem hlt, h]
    · rw [List.getElem?_eq_none (by omega)]
  · rfl

/-- Writing what is pending at a level. -/
theorem matches_flush (dir : Path) (files : List (Option ScratchFile))
    (pending : List (List Entry)) (level : Nat) (v : Volume) :
    Matches (pending.set level [])
      ((addBatch dir files (level, pending[level]?.getD [])).run.run v)
      ((Split.flush ⟨files, pending, none⟩ dir level).run v) := by
  rw [Split.flush, addBatch]
  simp only
  cases hempty : (pending[level]?.getD []).isEmpty with
  | true =>
    simp only [if_true]
    rw [set_getD_nil (List.isEmpty_iff.1 hempty)]
    rfl
  | false =>
    simp only [Bool.false_eq_true, if_false]
    -- both add the batch to the file that is there, or that was made
    have hwrite : ∀ f v₁, Matches (pending.set level [])
        ((do
          let _ ← f.append (pending[level]?.getD [])
          return files.set level (some f) : TryDisk (List (Option ScratchFile))).run.run v₁)
        ((Split.writePending ⟨files.set level (some f), pending, none⟩ level f).run v₁) := by
      intro f v₁
      rw [Split.writePending]
      rcases happend : (f.append (pending[level]?.getD [])).run.run v₁ with ⟨_ | n, v₂⟩
      · rename_i e
        rw [TryDisk.run_bind_error happend, Disk.run_bind_eq happend]
        exact failure_failed _ level e v₂
      · rw [TryDisk.run_bind_ok happend, Disk.run_bind_eq happend]
        rfl
    rcases hfile : files[level]? with _ | _ | f
    case some.some => exact hwrite f v
    all_goals
      rcases hcreate : (ScratchFile.createIn dir).run.run v with ⟨_ | f, v₁⟩
      · rename_i e
        simp only [TryDisk.run_bind_error hcreate, Disk.run_bind_eq hcreate]
        exact failure_failed _ level e v₁
      · simp only [TryDisk.run_bind_ok hcreate, Disk.run_bind_eq hcreate]
        exact hwrite f v₁

theorem run_visits_of_failure (h : s.failure.isSome) (es : List Entry) (v : Volume) :
    (es.foldlM (Split.visitIn size path dir) s).run v = (s, v) := by
  induction es with
  | nil => rfl
  | cons e es ih =>
    have hvisit : (s.visitIn size path dir e).run v = (s, v) := by
      rw [Split.visitIn, if_pos h]
      rfl
    rw [List.foldlM_cons, Disk.run_bind_eq hvisit, ih]

/-- The visits write the full portions. -/
theorem matches_visits (size : Nat) (path : Key) (dir : Path) (es : List Entry)
    (files : List (Option ScratchFile)) (pending : List (List Entry))
    (hlength : pending.length = path.length + 1) (v : Volume) :
    Matches (portions size path pending es).2
      ((addBatches dir files (portions size path pending es).1).run.run v)
      ((es.foldlM (Split.visitIn size path dir) ⟨files, pending, none⟩).run v) := by
  induction es generalizing files pending v with
  | nil => rfl
  | cons e es ih =>
    have hlevel : path.levelOf e.key < pending.length :=
      hlength ▸ Nat.lt_succ_of_le (Key.levelOf_le path e.key)
    rw [List.foldlM_cons, portions]
    generalize hbatch : pending[path.levelOf e.key]?.getD [] ++ [e] = batch
    have hvisit : (Split.visitIn size path dir ⟨files, pending, none⟩ e).run v =
        (if batch.length ≥ size then
          Split.flush ⟨files, pending.set (path.levelOf e.key) batch, none⟩ dir (path.levelOf e.key)
        else pure ⟨files, pending.set (path.levelOf e.key) batch, none⟩ : Disk Split).run v := by
      rw [Split.visitIn, if_neg (by simp)]
      simp only [hbatch]
    by_cases hfull : batch.length ≥ size
    · simp only [if_pos hfull] at hvisit ⊢
      have hflush := matches_flush dir files (pending.set (path.levelOf e.key) batch)
        (path.levelOf e.key) v
      rw [List.getElem?_set_self hlevel, Option.getD_some, List.set_set, ← hvisit] at hflush
      rw [addBatches, List.foldlM_cons]
      exact hflush.bind (fun files' v₁ => ih files' _ ((List.length_set ..).trans hlength) v₁)
        fun s v₁ hs => run_visits_of_failure hs es v₁
    · simp only [if_neg hfull] at hvisit ⊢
      rw [Disk.run_bind_eq hvisit]
      exact ih files _ ((List.length_set ..).trans hlength) v

/-- At the end what is left is written, level by level. -/
theorem matches_flushAll (dir : Path) (levels : List Nat) (hlevels : levels.Nodup)
    (files : List (Option ScratchFile)) (pending : List (List Entry)) (v : Volume) :
    Matches (levels.foldl (fun left i => left.set i []) pending)
      ((addBatches dir files (levels.map fun i => (i, pending[i]?.getD []))).run.run v)
      ((Split.flushAll dir levels ⟨files, pending, none⟩).run v) := by
  induction levels generalizing files pending v with
  | nil => rfl
  | cons level levels ih =>
    obtain ⟨hlevel, hlevels⟩ := List.nodup_cons.1 hlevels
    rw [Split.flushAll, List.map_cons, addBatches, List.foldlM_cons, List.foldl_cons]
    refine (matches_flush dir files pending level v).bind (fun files' v₁ => ?_) fun s v₁ hs => ?_
    · -- the other levels are still to be written
      have hrest : (levels.map fun i => (i, pending[i]?.getD [])) =
          levels.map fun i => (i, (pending.set level [])[i]?.getD []) := by
        refine List.map_congr_left fun i hi => ?_
        rw [List.getElem?_set_ne (by rintro rfl; exact hlevel hi)]
      rw [if_neg (by simp), hrest]
      exact ih hlevels files' (pending.set level []) v₁
    · rw [if_pos hs]
      rfl

/-! ### Alike -/

/-- Two computations that succeed alike or both fail. -/
def Alike (r r' : Except StorageError α × Volume) : Prop :=
  match r with
  | (.ok a, v) => r' = (.ok a, v)
  | (.error _, _) => ∃ e v, r' = (.error e, v)

/-- A split that failed, or whose source could not be read, reports it. -/
theorem run_conclude_error {visits : Except StorageError Nat}
    (h : visits.isOk = true → s.failure.isSome) (v : Volume) :
    ∃ e v', (s.conclude visits).run.run v = (.error e, v') := by
  have hthrow : ∀ e : StorageError, ∃ e' v', (do
      ScratchFile.releaseAll s.made
      throw e : TryDisk (List (Option ScratchFile))).run.run v = (.error e', v') := fun e =>
    ⟨e, _, TryDisk.run_bind_ok (TryDisk.run_lift rfl)⟩
  unfold Split.conclude
  split
  · exact hthrow _
  · exact hthrow _
  · rename_i hnone
    exact absurd (h rfl) (by simp [hnone])

/-- After the last entry what is left is written, and the files are handed on. -/
theorem alike_flushRest (dir : Path) (files : List (Option ScratchFile))
    (left : List (List Entry)) (levels m : Nat) (v : Volume) :
    Alike
      ((addBatches dir files
        ((List.range levels).map fun i => (i, left[i]?.getD []))).run.run v)
      ((do
        let s ← Split.flushRest dir levels ⟨files, left, none⟩ (.ok m)
        s.conclude (.ok m) : TryDisk (List (Option ScratchFile))).run.run v) := by
  have hrest := matches_flushAll dir (List.range levels) List.nodup_range files left v
  rcases hrun : (Split.flushRest dir levels ⟨files, left, none⟩ (.ok m)).run v with ⟨s, v₁⟩
  rw [show Split.flushAll dir (List.range levels) ⟨files, left, none⟩ =
    Split.flushRest dir levels ⟨files, left, none⟩ (.ok m) from rfl, hrun] at hrest
  rw [TryDisk.run_bind_ok (TryDisk.run_lift hrun)]
  rcases hwrite : (addBatches dir files
    ((List.range levels).map fun i => (i, left[i]?.getD []))).run.run v with ⟨_ | files', v₂⟩
  · rename_i e
    rw [hwrite] at hrest
    have hfailure : s.failure = some e := hrest
    exact run_conclude_error (fun _ => by rw [hfailure]; rfl) v₁
  · rw [hwrite] at hrest
    obtain ⟨rfl, rfl⟩ := Prod.mk.inj hrest
    rfl

/-- **A file is split while it is read as if it was read first.** -/
theorem alike_splitAfterReading (size : Nat) (path : Key) (source : ScratchFile) (dir : Path)
    (v : Volume) :
    Alike ((splitAfterReading size path source dir).run.run v)
      ((splitInPortions size path source dir).run.run v) := by
  rw [splitAfterReading, splitInPortions]
  rcases hread : (readEntries source.path).run.run v with ⟨_ | es, v₁⟩
  · obtain ⟨s, e, v₂, hscan⟩ := run_scan_of_error (Split.visitIn size path dir)
      (Split.start (path.length + 1)) hread
    rcases hrelease : source.release.run v₂ with ⟨⟨⟩, v₃⟩
    rw [TryDisk.run_bind_error hread, TryDisk.run_bind_ok (TryDisk.run_lift hscan)]
    simp only
    rw [TryDisk.run_bind_ok (TryDisk.run_lift hrelease)]
    have hrest : (s.flushRest dir (path.length + 1) (.error e)).run v₃ = (s, v₃) := rfl
    rw [TryDisk.run_bind_ok (TryDisk.run_lift hrest)]
    exact run_conclude_error (by simp [Except.isOk, Except.toBool]) v₃
  · rcases hrun : (es.foldlM (Split.visitIn size path dir)
      (Split.start (path.length + 1))).run v₁ with ⟨s, v₂⟩
    have hvisits := matches_visits size path dir es (List.replicate (path.length + 1) none)
      (List.replicate (path.length + 1) []) List.length_replicate v₁
    rw [show (⟨List.replicate (path.length + 1) none, List.replicate (path.length + 1) [], none⟩ :
      Split) = Split.start (path.length + 1) from rfl, hrun] at hvisits
    rcases hrelease : source.release.run v₂ with ⟨⟨⟩, v₃⟩
    rw [TryDisk.run_bind_ok hread,
      TryDisk.run_bind_ok (TryDisk.run_lift (run_scan_of_ok hread hrun))]
    simp only
    rw [TryDisk.run_bind_ok (TryDisk.run_lift hrelease)]
    rcases hwrite : (addBatches dir (List.replicate (path.length + 1) none)
        (portions size path (List.replicate (path.length + 1) []) es).1).run.run v₁ with
      ⟨_ | files, w⟩
    · rename_i e
      rw [hwrite] at hvisits
      have hfailure : s.failure = some e := hvisits
      have hrest : (s.flushRest dir (path.length + 1) (.ok es.length)).run v₃ = (s, v₃) := by
        rw [Split.flushRest, hfailure]
        rfl
      rw [TryDisk.run_bind_error hwrite, TryDisk.run_bind_ok (TryDisk.run_lift hrest)]
      exact run_conclude_error (fun _ => by rw [hfailure]; rfl) v₃
    · rw [hwrite] at hvisits
      obtain ⟨rfl, rfl⟩ := Prod.mk.inj hvisits
      rw [TryDisk.run_bind_ok hwrite, TryDisk.run_bind_ok (TryDisk.run_lift hrelease)]
      exact alike_flushRest dir files _ (path.length + 1) es.length v₃

end TrieOverlay.Bulk
