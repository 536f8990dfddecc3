import Mathlib.Logic.Function.Basic
import TrieOverlay.Proofs.Bulk.Portions
import TrieOverlay.Proofs.Bulk.RoundTrip
import TrieOverlay.Proofs.Bulk.Shelf
import TrieOverlay.Proofs.Bulk.Split

/-!
# What is left of a file that is split

Whatever calls fail while a file is split, and however many entries are a portion: the source is
gone afterwards, and the files of the levels are there with all their entries or are gone as well
(`Bulk.splits_like_batch`).

* `Volume.Adds` says that some files were made on a volume and nothing else was written; a file that
  was made can be written and released again.
* `Split.Kept` says that the files of the levels are all that was made.  It holds throughout, and
  after a failure nothing more is needed to clean up.
* `Split.Filled` says besides that what was written at a level and what is pending there are the
  entries of the level, in order, as long as nothing failed.
-/

namespace TrieOverlay

open Volume (Writes)

namespace Volume

variable {v v' : Volume} {dir : Path} {first : Nat} {base : Path → Option Bytes}
  {f : ScratchFile} {held held' : List ScratchFile}

/-- Some files were made on a volume that had other files before: they have names that were made up
since, and nothing else was written. -/
structure Adds (dir : Path) (first : Nat) (base : Path → Option Bytes) (held : List ScratchFile)
    (v : Volume) : Prop where
  tree : v.IsTree
  serial : first ≤ v.serial
  free : ∀ k, first ≤ k → base (dir.child (ScratchFile.nameOf k)) = none
  named : ∀ f ∈ held, ∃ k, first ≤ k ∧ k < v.serial ∧ f.path = dir.child (ScratchFile.nameOf k)
  others : ∀ p, (∀ f ∈ held, f.path ≠ p) → v.bytes? p = base p
  nodup : held.Nodup

/-- The names that are made up from now on are those of no file in a directory, nor of a file that
somebody holds. -/
def Unclaimed (dir : Path) (f : ScratchFile) (v : Volume) : Prop :=
  ∀ k, v.serial ≤ k → v.bytes? (dir.child (ScratchFile.nameOf k)) = none ∧
    f.path ≠ dir.child (ScratchFile.nameOf k)

namespace Adds

/-- So far no file was made. -/
theorem start (ht : v.IsTree)
    (hfree : ∀ k, v.serial ≤ k → v.bytes? (dir.child (ScratchFile.nameOf k)) = none) :
    v.Adds dir v.serial v.bytes? [] :=
  ⟨ht, Nat.le_refl _, hfree, by simp, fun _ _ => rfl, List.nodup_nil⟩

theorem perm (h : v.Adds dir first base held) (hp : held.Perm held') :
    v.Adds dir first base held' :=
  ⟨h.tree, h.serial, h.free, fun f hf => h.named f (hp.mem_iff.2 hf),
    fun p hne => h.others p fun f hf => hne f (hp.mem_iff.1 hf), hp.nodup_iff.1 h.nodup⟩

theorem later (h : v.Adds dir first base held) (hs : v.serial ≤ v'.serial) :
    ∀ f ∈ held, ∃ k, first ≤ k ∧ k < v'.serial ∧ f.path = dir.child (ScratchFile.nameOf k) := by
  intro f hf
  obtain ⟨k, hk, hlt, hpath⟩ := h.named f hf
  exact ⟨k, hk, Nat.lt_of_lt_of_le hlt hs, hpath⟩

/-- A file that was made is written. -/
theorem write (h : v.Adds dir first base held) (hf : f ∈ held) (hw : Writes [f.path] v v') :
    v'.Adds dir first base held := by
  refine ⟨hw.tree, Nat.le_trans h.serial hw.serial, h.free, h.later hw.serial, fun p hne => ?_,
    h.nodup⟩
  rw [hw.spares p fun hmem => hne f hf (List.mem_singleton.1 hmem).symm, h.others p hne]

theorem untouched (h : v.Adds dir first base held) (hw : Writes [] v v') :
    v'.Adds dir first base held := by
  refine ⟨hw.tree, Nat.le_trans h.serial hw.serial, h.free, h.later hw.serial, fun p hne => ?_,
    h.nodup⟩
  rw [hw.spares p List.not_mem_nil, h.others p hne]

/-- A file is made. -/
theorem cons {k : Nat} (h : v.Adds dir first base held) (hk : v.serial ≤ k) (hk' : k < v'.serial)
    (hpath : f.path = dir.child (ScratchFile.nameOf k)) (hw : Writes [f.path] v v') :
    v'.Adds dir first base (f :: held) := by
  have hnew : f ∉ held := by
    intro hf
    obtain ⟨k', -, hlt, hpath'⟩ := h.named f hf
    have := ScratchFile.child_nameOf_injective (hpath.symm.trans hpath')
    omega
  refine ⟨hw.tree, Nat.le_trans h.serial hw.serial, h.free,
    List.forall_mem_cons.2 ⟨⟨k, Nat.le_trans h.serial hk, hk', hpath⟩, h.later hw.serial⟩,
    fun p hne => ?_, List.nodup_cons.2 ⟨hnew, h.nodup⟩⟩
  obtain ⟨hf, hne⟩ := List.forall_mem_cons.1 hne
  rw [hw.spares p fun hmem => hf (List.mem_singleton.1 hmem).symm, h.others p hne]

/-- A file that was made goes; before it was made nothing was there. -/
theorem drop (h : v.Adds dir first base (f :: held)) (hw : Writes [f.path] v v')
    (hb : v'.bytes? f.path = none) : v'.Adds dir first base held := by
  obtain ⟨⟨k, hk, -, hpath⟩, -⟩ := List.forall_mem_cons.1 h.named
  refine ⟨hw.tree, Nat.le_trans h.serial hw.serial, h.free,
    (List.forall_mem_cons.1 (h.later hw.serial)).2, fun p hne => ?_, (List.nodup_cons.1 h.nodup).2⟩
  by_cases hp : f.path = p
  · rw [← hp, hb, hpath, h.free k hk]
  · rw [hw.spares p fun hmem => hp (List.mem_singleton.1 hmem).symm,
      h.others p (List.forall_mem_cons.2 ⟨hp, hne⟩)]

/-- A file that was there before goes. -/
theorem erase (h : v.Adds dir first base held) {p : Path} (hw : Writes [p] v v')
    (hb : v'.bytes? p = none) : v'.Adds dir first (Function.update base p none) held := by
  refine ⟨hw.tree, Nat.le_trans h.serial hw.serial, fun k hk => ?_, h.later hw.serial,
    fun q hne => ?_, h.nodup⟩
  · rw [Function.update_apply]
    split
    · rfl
    · exact h.free k hk
  · rw [Function.update_apply]
    split
    · rename_i hqp
      rw [hqp, hb]
    · rename_i hqp
      rw [hw.spares q fun hmem => hqp (List.mem_singleton.1 hmem), h.others q hne]

end Adds

end Volume

namespace ScratchFile

variable {v : Volume} {dir : Path} {first : Nat} {base : Path → Option Bytes}
  {f : ScratchFile} {held : List ScratchFile}

theorem adds_release (h : v.Adds dir first base (f :: held)) :
    f.release.Ends v fun _ v' => v'.Adds dir first base held :=
  (ends_release h.tree f).imp fun _ _ ⟨hw, hb⟩ => h.drop hw hb

theorem adds_releaseAll {files : List ScratchFile} (h : v.Adds dir first base (files ++ held)) :
    (releaseAll files).Ends v fun _ v' => v'.Adds dir first base held := by
  induction files generalizing v with
  | nil => exact h
  | cons f files ih => exact (adds_release h).bind fun _ _ h₁ => ih h₁

end ScratchFile

/-! ### A split under way -/

namespace Bulk

theorem writeEntries_append (es es' : List Entry) :
    writeEntries (es ++ es') = writeEntries es ++ writeEntries es' := by
  rw [writeEntries, List.filterMap_append, bytesOfLines, List.flatMap_append]
  rfl

namespace Split

variable {s : Split} {v v' : Volume} {dir : Path} {first : Nat} {base : Path → Option Bytes}
  {path : Key} {done : List Entry} {size level n : Nat} {f : ScratchFile}

/-- The files of the levels are all that was made. -/
structure Kept (dir : Path) (first : Nat) (base : Path → Option Bytes) (n : Nat) (s : Split)
    (v : Volume) : Prop where
  length_files : s.files.length = n
  length_pending : s.pending.length = n
  adds : v.Adds dir first base s.made

/-- What was written at a level and what is pending there are the entries of the level. -/
def LevelWritten (v : Volume) (all pending : List Entry) (file : Option ScratchFile) : Prop :=
  ∃ written, all = written ++ pending ∧
    match file with
    | none => written = []
    | some f => written ≠ [] ∧ v.bytes? f.path = some (writeEntries written)

/-- A split under way that visited some entries: as long as nothing failed, all of them are written
or pending. -/
structure Filled (dir : Path) (first : Nat) (base : Path → Option Bytes) (path : Key)
    (done : List Entry) (s : Split) (v : Volume) : Prop extends
    s.Kept dir first base (path.length + 1) v where
  level : s.failure = none → ∀ i ≤ path.length,
    LevelWritten v (atLevel path i done) (s.pendingAt i) (s.fileAt i)

theorem LevelWritten.keep {all pending : List Entry} {file : Option ScratchFile} {p : Path}
    (h : LevelWritten v all pending file) (hw : Writes [p] v v')
    (hne : ∀ g, file = some g → g.path ≠ p) : LevelWritten v' all pending file := by
  obtain ⟨written, hall, hfile⟩ := h
  refine ⟨written, hall, ?_⟩
  cases file with
  | none => exact hfile
  | some g =>
    refine ⟨hfile.1, ?_⟩
    rw [hw.spares g.path fun hmem => hne g rfl (List.mem_singleton.1 hmem), hfile.2]

/-- A level at which nothing is pending has a file exactly if it has entries. -/
theorem LevelWritten.isSome_iff {all : List Entry} {file : Option ScratchFile}
    (h : LevelWritten v all [] file) : file.isSome ↔ all ≠ [] := by
  obtain ⟨written, hall, hfile⟩ := h
  rw [List.append_nil] at hall
  rw [hall]
  cases file with
  | none => simp [hfile]
  | some g => simp [hfile.1]

/-- The file of a level has the entries of the level that can be written. -/
theorem LevelWritten.entriesAt_eq {all : List Entry} (h : LevelWritten v all [] (some f)) :
    entriesAt (v.bytes? f.path) = some (all.filter fun e => (Line.encode? e).isSome) := by
  obtain ⟨written, hall, -, hb⟩ := h
  rw [List.append_nil] at hall
  rw [hb, entriesAt, Option.getD_some, entriesOf_writeEntries, hall]
  simp only [isSome_encode?_eq]

theorem mem_made (h : s.fileAt level = some f) : f ∈ s.made := by
  rw [fileAt, Option.join_eq_some_iff] at h
  exact List.mem_filterMap.2 ⟨some f, List.mem_of_getElem? h, rfl⟩

/-- Two levels do not share a file. -/
theorem Kept.path_ne (h : s.Kept dir first base n v) {i j : Nat} {g : ScratchFile} (hij : i ≠ j)
    (hi : s.fileAt i = some f) (hj : s.fileAt j = some g) : g.path ≠ f.path := by
  have hfile : s.files[i]? = some (some f) := Option.join_eq_some_iff.1 hi
  have hlt : i < s.files.length := (List.getElem?_eq_some_iff.1 hfile).1
  have hnodup := (made_perm hfile).nodup_iff.1 h.adds.nodup
  rw [Option.toList_some, List.singleton_append, List.nodup_cons] at hnodup
  intro hpath
  obtain rfl : g = f := congrArg ScratchFile.mk hpath
  have hother : ({ s with files := s.files.set i none } : Split).fileAt j = some g := by
    rw [fileAt_set hlt, if_neg (Ne.symm hij), hj]
  exact hnodup.1 (mem_made hother)

/-- After a failure the file of the level is gone. -/
theorem Kept.failed (h : s.Kept dir first base n v) (hl : level < n) (e : StorageError) :
    (s.failed level e).Ends v fun s' v' =>
      s'.Kept dir first base n v' ∧ s'.failure = some e := by
  obtain ⟨file, hfile⟩ : ∃ file, s.files[level]? = some file :=
    ⟨_, List.getElem?_eq_getElem (h.length_files ▸ hl)⟩
  have hlength : (s.files.set level none).length = n := (List.length_set ..).trans h.length_files
  have hadds := h.adds.perm (made_perm hfile)
  rw [Split.failed, hfile]
  cases file with
  | none => exact Disk.ends_pure ⟨⟨hlength, h.length_pending, hadds⟩, rfl⟩
  | some f =>
    exact (ScratchFile.adds_release hadds).bind fun _ _ h₁ =>
      Disk.ends_pure ⟨⟨hlength, h.length_pending, h₁⟩, rfl⟩

theorem Kept.pending (h : s.Kept dir first base n v) (level : Nat) (batch : List Entry) :
    ({ s with pending := s.pending.set level batch } : Split).Kept dir first base n v :=
  ⟨h.length_files, (List.length_set ..).trans h.length_pending, h.adds⟩

/-- The file of a level is there, or was made, or is not to be had. -/
theorem Filled.open (h : s.Filled dir first base path done v) (hs : s.failure = none)
    (hl : level ≤ path.length) {go : Except StorageError ScratchFile → Disk Split}
    {P : Split → Volume → Prop}
    (hok : ∀ f v₁ written,
      ({ s with files := s.files.set level (some f) } : Split).Kept dir first base
        (path.length + 1) v₁ →
      (∀ i ≤ path.length, i ≠ level →
        LevelWritten v₁ (atLevel path i done) (s.pendingAt i) (s.fileAt i)) →
      atLevel path level done = written ++ s.pendingAt level →
      v₁.bytes? f.path = some (writeEntries written) → (go (.ok f)).Ends v₁ P)
    (herror : ∀ e v₁, s.Kept dir first base (path.length + 1) v₁ → (go (.error e)).Ends v₁ P) :
    (match s.files[level]? with
      | some (some f) => pure (.ok f) >>= go
      | _ => (ScratchFile.createIn dir).run >>= go : Disk Split).Ends v P := by
  have hlt : level < s.files.length := by
    rw [h.length_files]
    omega
  have hfile : s.files[level]? = some s.files[level] := List.getElem?_eq_getElem hlt
  obtain ⟨written, hall, hwritten⟩ := h.level hs level hl
  rw [hfile]
  rcases hgot : s.files[level] with _ | f
  · have hnone : s.fileAt level = none := by simp [fileAt, hfile, hgot]
    rw [hnone] at hwritten
    refine Disk.Ends.bind (ScratchFile.ends_createIn h.adds.tree dir) fun r v₁ h₁ => ?_
    cases r with
    | error e => exact herror e v₁ ⟨h.length_files, h.length_pending, h.adds.untouched h₁⟩
    | ok f =>
      obtain ⟨k, hk, hk', hpath, hw, hb⟩ := h₁
      have hadds := h.adds.cons hk hk' hpath hw
      rw [hgot] at hfile
      have hperm := (made_perm hfile).cons f
      refine hok f v₁ written ⟨(List.length_set ..).trans h.length_files, h.length_pending,
        hadds.perm (hperm.trans (made_set_perm hlt (some f)).symm)⟩ (fun i hi hne => ?_) hall ?_
      · -- the new file is none of those that are there
        refine (h.level hs i hi).keep hw fun g hg hgf => ?_
        obtain rfl : g = f := congrArg ScratchFile.mk hgf
        exact (List.nodup_cons.1 hadds.nodup).1 (mem_made hg)
      · rw [hb, hwritten]
        rfl
  · have hsome : s.fileAt level = some f := by simp [fileAt, hfile, hgot]
    rw [hsome] at hwritten
    have hset : s.files.set level (some f) = s.files := by rw [← hgot, List.set_getElem_self]
    refine hok f v written ?_ (fun i hi _ => h.level hs i hi) hall hwritten.2
    rw [hset]
    exact h.toKept

/-- A split that failed need not have the entries any more. -/
theorem Kept.filled (h : s.Kept dir first base (path.length + 1) v) (hs : s.failure ≠ none) :
    s.Filled dir first base path done v :=
  ⟨h, fun hnone => absurd hnone hs⟩

/-- What was pending at a level is in its file now; nothing is pending there any more. -/
theorem Kept.filled_of_append
    (h : ({ s with files := s.files.set level (some f) } : Split).Kept dir first base
      (path.length + 1) v)
    (hlf : level < s.files.length) (hlp : level < s.pending.length)
    (hothers : ∀ i ≤ path.length, i ≠ level →
      LevelWritten v (atLevel path i done) (s.pendingAt i) (s.fileAt i))
    (hne : s.pendingAt level ≠ []) {written : List Entry}
    (hall : atLevel path level done = written ++ s.pendingAt level)
    (hw : Writes [f.path] v v')
    (hb : v'.bytes? f.path = some (writeEntries (written ++ s.pendingAt level))) :
    ({ s with
      files := s.files.set level (some f)
      pending := s.pending.set level [] } : Split).Filled dir first base path done v' := by
  have hat : ∀ i, ({ s with files := s.files.set level (some f) } : Split).fileAt i =
      if i = level then some f else s.fileAt i := fileAt_set hlf (some f)
  have hown := (hat level).trans (if_pos rfl)
  refine ⟨⟨h.length_files, (List.length_set ..).trans h.length_pending,
    h.adds.write (mem_made hown) hw⟩, fun _ i hi => ?_⟩
  change LevelWritten v' (atLevel path i done)
    (pendingAt { s with pending := s.pending.set level [] } i)
    (fileAt { s with files := s.files.set level (some f) } i)
  rw [pendingAt_set hlp, hat]
  by_cases hil : i = level
  · subst hil
    rw [if_pos rfl, if_pos rfl]
    exact ⟨written ++ s.pendingAt i, by rw [hall, List.append_nil], by simp [hne], hb⟩
  · rw [if_neg hil, if_neg hil]
    refine (hothers i hi hil).keep hw fun g hg => ?_
    exact h.path_ne (Ne.symm hil) hown (by rw [hat, if_neg hil, hg])

/-- What is pending at a level is written, or something fails. -/
theorem Filled.flush (h : s.Filled dir first base path done v) (hs : s.failure = none)
    (hl : level ≤ path.length) :
    (s.flush dir level).Ends v fun s' v' => s'.Filled dir first base path done v' ∧
      (s'.failure = none → ∀ i, s'.pendingAt i = if i = level then [] else s.pendingAt i) := by
  have hlf : level < s.files.length := by
    rw [h.length_files]
    omega
  have hlp : level < s.pending.length := by
    rw [h.length_pending]
    omega
  have hfailed : ∀ {s' : Split} {e v'},
      s'.Kept dir first base (path.length + 1) v' ∧ s'.failure = some e →
      s'.Filled dir first base path done v' ∧
        (s'.failure = none → ∀ i, s'.pendingAt i = if i = level then [] else s.pendingAt i) := by
    rintro s' e v' ⟨hkept, he⟩
    have hnot : s'.failure ≠ none := by simp [he]
    exact ⟨hkept.filled hnot, fun hnone => absurd hnone hnot⟩
  rw [Split.flush]
  change Disk.Ends (if (s.pendingAt level).isEmpty then _ else _) v _
  by_cases hempty : s.pendingAt level = []
  · rw [if_pos (by simp [hempty])]
    refine Disk.ends_pure ⟨h, fun _ i => ?_⟩
    split
    · rename_i hi
      rw [hi, hempty]
    · rfl
  · rw [if_neg (by simpa using hempty)]
    refine h.open hs hl (fun f v₁ written hkept hothers hall hb => ?_) fun e v₁ hkept =>
      (hkept.failed (Nat.lt_succ_of_le hl) e).imp fun _ _ => hfailed
    refine Disk.Ends.bind (ends_append hkept.adds.tree f.path (s.pendingAt level))
      fun r v₂ h₂ => ?_
    cases r with
    | error e =>
      have hmade := mem_made ((fileAt_set hlf (some f) level).trans (if_pos rfl))
      exact (Kept.failed ⟨hkept.length_files, hkept.length_pending, hkept.adds.write hmade h₂.1⟩
        (Nat.lt_succ_of_le hl) e).imp fun _ _ => hfailed
    | ok m =>
      obtain ⟨-, hw, hb₂⟩ := h₂
      rw [hb, Option.getD_some, ← writeEntries_append] at hb₂
      exact Disk.ends_pure ⟨hkept.filled_of_append hlf hlp hothers hempty hall hw hb₂,
        fun _ => pendingAt_set hlp []⟩

/-- Every visit is of one more entry. -/
theorem Filled.visit (h : s.Filled dir first base path done v) (size : Nat) (e : Entry) :
    (s.visitIn size path dir e).Ends v fun s' v' =>
      s'.Filled dir first base path (done ++ [e]) v' := by
  rw [visitIn]
  by_cases hs : s.failure = none
  · rw [if_neg (by simp [hs])]
    have hl : path.levelOf e.key ≤ path.length := Key.levelOf_le path e.key
    have hltp : path.levelOf e.key < s.pending.length := by
      rw [h.length_pending]
      omega
    let batch := s.pendingAt (path.levelOf e.key) ++ [e]
    have h₁ : ({ s with pending := s.pending.set (path.levelOf e.key) batch } : Split).Filled dir
        first base path (done ++ [e]) v := by
      refine ⟨h.toKept.pending _ _, fun _ i hi => ?_⟩
      obtain ⟨written, hall, hfile⟩ := h.level hs i hi
      refine ⟨written, ?_, hfile⟩
      rw [pendingAt_set hltp, atLevel, List.filter_append]
      rw [atLevel] at hall
      rw [hall]
      by_cases hil : i = path.levelOf e.key
      · simp [← hil, batch]
      · simp [hil, Ne.symm hil]
    dsimp only
    split
    · exact (h₁.flush hs hl).imp fun _ _ => And.left
    · exact Disk.ends_pure h₁
  · rw [if_pos (Option.isSome_iff_ne_none.2 hs)]
    exact Disk.ends_pure (h.toKept.filled hs)

theorem Filled.flushAll (h : s.Filled dir first base path done v) (hs : s.failure = none)
    {levels : List Nat} (hl : ∀ i ∈ levels, i ≤ path.length) :
    (Split.flushAll dir levels s).Ends v fun s' v' => s'.Filled dir first base path done v' ∧
      (s'.failure = none → ∀ i, s'.pendingAt i = if i ∈ levels then [] else s.pendingAt i) := by
  induction levels generalizing s v with
  | nil => exact Disk.ends_pure ⟨h, fun _ i => by simp⟩
  | cons level levels ih =>
    obtain ⟨hlevel, hlevels⟩ := List.forall_mem_cons.1 hl
    refine (h.flush hs hlevel).bind fun s₁ v₁ ⟨h₁, hp₁⟩ => ?_
    by_cases hs₁ : s₁.failure = none
    · rw [if_neg (by simp [hs₁])]
      refine (ih h₁ hs₁ hlevels).imp fun s₂ v₂ ⟨h₂, hp₂⟩ => ⟨h₂, fun hs₂ i => ?_⟩
      rw [hp₂ hs₂, hp₁ hs₁]
      by_cases hi : i ∈ levels <;> by_cases hil : i = level <;> simp [hi, hil]
    · rw [if_pos (Option.isSome_iff_ne_none.2 hs₁)]
      exact Disk.ends_pure ⟨h₁, fun hnone => absurd hnone hs₁⟩

theorem filled_start (h : v.Adds dir first base []) (path : Key) :
    (Split.start (path.length + 1)).Filled dir first base path [] v := by
  refine ⟨⟨List.length_replicate, List.length_replicate, ?_⟩, fun _ i _ => ⟨[], ?_, ?_⟩⟩
  · have hmade : (Split.start (path.length + 1)).made = [] := by simp [made, start]
    rwa [hmade]
  · simp only [atLevel, pendingAt, Split.start, List.getElem?_replicate]
    split <;> rfl
  · have hnone : (Split.start (path.length + 1)).fileAt i = none := by
      simp only [fileAt, Split.start, List.getElem?_replicate]
      split <;> rfl
    rw [hnone]

/-- A file that was there before and is not that of a level goes. -/
theorem Filled.erase (h : s.Filled dir first base path done v) {p : Path} (hw : Writes [p] v v')
    (hb : v'.bytes? p = none) (hp : ∀ f ∈ s.made, f.path ≠ p) :
    s.Filled dir first (Function.update base p none) path done v' :=
  ⟨⟨h.length_files, h.length_pending, h.adds.erase hw hb⟩, fun hs i hi =>
    (h.level hs i hi).keep hw fun g hg => hp g (mem_made hg)⟩

/-- A split that is over hands its files on, or releases them after a failure. -/
theorem Filled.conclude (h : s.Filled dir first base path done v) {visits : Except StorageError Nat}
    (hleft : visits.isOk = true → s.failure = none → ∀ i ≤ path.length, s.pendingAt i = []) :
    (s.conclude visits).Ends v
      (fun files v' => visits.isOk = true ∧ files.length = path.length + 1 ∧
        v'.Adds dir first base (files.filterMap id) ∧
        ∀ i ≤ path.length, LevelWritten v' (atLevel path i done) [] files[i]?.join)
      fun _ v' => v'.Adds dir first base [] := by
  have hgone : ∀ e : StorageError, (do
      ScratchFile.releaseAll s.made
      throw e : TryDisk (List (Option ScratchFile))).Ends v
      (fun files v' => visits.isOk = true ∧ files.length = path.length + 1 ∧
        v'.Adds dir first base (files.filterMap id) ∧
        ∀ i ≤ path.length, LevelWritten v' (atLevel path i done) [] files[i]?.join)
      fun _ v' => v'.Adds dir first base [] := fun e =>
    have hadds : v.Adds dir first base (s.made ++ []) := by
      rw [List.append_nil]
      exact h.adds
    (TryDisk.ends_lift (ScratchFile.adds_releaseAll hadds)).bind fun _ _ h₁ =>
      TryDisk.ends_throw h₁
  unfold Split.conclude
  split
  · exact hgone _
  · exact hgone _
  · rename_i m hs
    refine TryDisk.ends_pure ⟨rfl, h.length_files, h.adds, fun i hi => ?_⟩
    have hlevel := h.level hs i hi
    rwa [hleft rfl hs i hi] at hlevel

end Split

/-! ### The whole split -/

variable {v : Volume} {dir : Path} {source : ScratchFile}

/-- The source is gone, and the files of the levels are there unless something failed. -/
theorem ends_splitInPortions (ht : v.IsTree) (hnew : v.Unclaimed dir source) (size : Nat)
    (path : Key) :
    (splitInPortions size path source dir).Ends v
      (fun files v' => ∃ es, entriesAt (v.bytes? source.path) = some es ∧
        files.length = path.length + 1 ∧
        v'.Adds dir v.serial (Function.update v.bytes? source.path none) (files.filterMap id) ∧
        ∀ i ≤ path.length, Split.LevelWritten v' (atLevel path i es) [] files[i]?.join)
      fun _ v' => v'.Adds dir v.serial (Function.update v.bytes? source.path none) [] := by
  have hbefore : v.Adds dir v.serial v.bytes? [] := .start ht fun k hk => (hnew k hk).1
  have hscan := ends_scan (p := source.path) ht
    (fun done s v₁ e (h : s.Filled dir v.serial v.bytes? path done v₁) => h.visit size e)
    fun v₁ hw => Split.filled_start (hbefore.untouched hw) path
  refine (TryDisk.ends_lift hscan).bind fun r v₁ h₁ => ?_
  obtain ⟨s, visits⟩ := r
  obtain ⟨es, hes, hs⟩ : ∃ es, (visits.isOk = true → entriesAt (v.bytes? source.path) = some es) ∧
      s.Filled dir v.serial v.bytes? path es v₁ := by
    cases visits with
    | ok m =>
      obtain ⟨es, hes, -, hs⟩ := h₁
      exact ⟨es, fun _ => hes, hs⟩
    | error e =>
      obtain ⟨es, hs⟩ := h₁
      exact ⟨es, by simp [Except.isOk, Except.toBool], hs⟩
  refine (TryDisk.ends_lift (ScratchFile.ends_release hs.adds.tree source)).bind ?_
  rintro - v₂ ⟨hw₂, hb₂⟩
  have hs₂ := hs.erase hw₂ hb₂ fun f hf hpath => by
    obtain ⟨k, hk, -, hname⟩ := hs.adds.named f hf
    exact (hnew k hk).2 (hpath ▸ hname)
  have hrest : (s.flushRest dir (path.length + 1) visits).Ends v₂ fun s' v' =>
      s'.Filled dir v.serial (Function.update v.bytes? source.path none) path es v' ∧
        (visits.isOk = true → s'.failure = none → ∀ i ≤ path.length, s'.pendingAt i = []) := by
    rw [Split.flushRest]
    split
    · rename_i hgood
      rw [Bool.and_eq_true, Option.isNone_iff_eq_none] at hgood
      refine (hs₂.flushAll hgood.2 fun i hi => Nat.le_of_lt_succ (List.mem_range.1 hi)).imp ?_
      rintro s' v' ⟨hs', hp⟩
      refine ⟨hs', fun _ hnone i hi => ?_⟩
      rw [hp hnone, if_pos (List.mem_range.2 (Nat.lt_succ_of_le hi))]
    · rename_i hbad
      refine Disk.ends_pure ⟨hs₂, fun hok hnone => absurd ?_ hbad⟩
      rw [hok, hnone]
      rfl
  refine (TryDisk.ends_lift hrest).bind ?_
  rintro s₃ v₃ ⟨hs₃, hp₃⟩
  refine (hs₃.conclude hp₃).imp ?_ fun _ _ h => h
  rintro files v' ⟨hok, hlength, hadds, hlevels⟩
  exact ⟨es, hes hok, hlength, hadds, hlevels⟩

theorem entriesOfLines_eq_none {lines : List Bytes} {line : Bytes} (hline : line ∈ lines)
    (h : Utf8.decode? line = none) : entriesOfLines lines = none := by
  induction lines with
  | nil => cases hline
  | cons l lines ih =>
    cases hl : Utf8.decode? l with
    | none => simp [entriesOfLines, hl]
    | some text =>
      rw [entriesOfLines_cons hl, ih ((List.mem_cons.1 hline).resolve_left ?_)]
      · rfl
      · rintro rfl
        rw [h] at hl
        cases hl

/-- The slots of a split with what is in their files. -/
theorem slots_eq {v' : Volume} {path : Key} {es : List Entry} {files : List (Option ScratchFile)}
    (hlength : files.length = path.length + 1)
    (hlevels : ∀ i ≤ path.length, Split.LevelWritten v' (atLevel path i es) [] files[i]?.join) :
    files.map (Option.map fun f => v'.bytes? f.path) =
      (byLevel path es).map fun bucket =>
        if bucket = [] then none else some (some (writeEntries bucket)) := by
  refine List.ext_getElem? fun i => ?_
  rw [List.getElem?_map, List.getElem?_map]
  by_cases hi : i ≤ path.length
  · obtain ⟨written, hall, hfile⟩ := hlevels i hi
    rw [List.append_nil] at hall
    obtain ⟨slot, hslot⟩ : ∃ slot, files[i]? = some slot :=
      ⟨_, List.getElem?_eq_getElem (by omega)⟩
    have hbucket : (byLevel path es)[i]? = some written := by
      rw [getElem?_byLevel path es hi, ← hall]
      rfl
    rw [hslot, hbucket]
    rw [hslot, Option.join_some] at hfile
    cases slot with
    | none => simp [hfile]
    | some f => simp [hfile.1, hfile.2]
  · rw [List.getElem?_eq_none (by omega), List.getElem?_eq_none (by simp; omega)]
    rfl

/-- **A file is split like a batch, whatever its portions are.**  The split fails if a line of its
source is not UTF-8, and else exactly if the source cannot be read or the file of a level cannot be
made or written, as reading first and then writing would; nothing is left then, neither the source
nor the file of a level.  A split that does not fail takes the source away and makes one file for
every level that has entries; the file has those of the bucket of the level that can be written, in
order. -/
theorem splits_like_batch (ht : v.IsTree) (hnew : v.Unclaimed dir source) (size : Nat)
    (path : Key) :
    splitByLevel path source dir = splitInPortions portionSize path source dir ∧
    Alike ((splitAfterReading size path source dir).run.run v)
      ((splitInPortions size path source dir).run.run v) ∧
    (∀ bytes line, v.bytes? source.path = some bytes → line ∈ splitLines bytes →
      Utf8.decode? line = none →
      ∃ e v', (splitInPortions size path source dir).run.run v = (.error e, v')) ∧
    (∀ e v', (splitInPortions size path source dir).run.run v = (.error e, v') →
      v'.bytes? source.path = none ∧ ∀ p ≠ source.path, v'.bytes? p = v.bytes? p) ∧
    (∀ files v', (splitInPortions size path source dir).run.run v = (.ok files, v') →
      ∃ es, entriesAt (v.bytes? source.path) = some es ∧
        files.length = path.length + 1 ∧ (files.filterMap id).Nodup ∧
        (∀ f ∈ files.filterMap id, f.path.isChildOf dir = true ∧ v.bytes? f.path = none) ∧
        (∀ (i : Nat) (bucket : List Entry), (byLevel path es)[i]? = some bucket →
          (files[i]?.join.isSome ↔ bucket ≠ []) ∧
          ∀ f, files[i]? = some (some f) → entriesAt (v'.bytes? f.path) =
            some (bucket.filter fun e => (Line.encode? e).isSome)) ∧
        v'.bytes? source.path = none ∧
        ∀ p ≠ source.path, (∀ f ∈ files.filterMap id, f.path ≠ p) →
          v'.bytes? p = v.bytes? p) ∧
    (∀ size' files files' v₁ v₂,
      (splitInPortions size path source dir).run.run v = (.ok files, v₁) →
      (splitInPortions size' path source dir).run.run v = (.ok files', v₂) →
      files.map (Option.map fun f => v₁.bytes? f.path) =
        files'.map (Option.map fun f => v₂.bytes? f.path)) := by
  have hends := ends_splitInPortions ht hnew size path
  refine ⟨splitByLevel_eq path source dir, alike_splitAfterReading size path source dir v, ?_, ?_,
    ?_, ?_⟩
  · intro bytes line hbytes hline hdecode
    rcases hrun : (splitInPortions size path source dir).run.run v with ⟨e | files, v'⟩
    · exact ⟨e, v', rfl⟩
    · obtain ⟨es, hes, -⟩ := hends.of_ok hrun
      rw [hbytes, entriesAt, Option.getD_some, entriesOf_eq,
        entriesOfLines_eq_none hline hdecode] at hes
      cases hes
  · intro e v' hrun
    have hadds := Disk.Ends.of_run hends hrun
    refine ⟨?_, fun p hp => ?_⟩
    · rw [hadds.others source.path (by simp), Function.update_self]
    · rw [hadds.others p (by simp), Function.update_of_ne hp]
  · intro files v' hrun
    obtain ⟨es, hes, hlength, hadds, hlevels⟩ := hends.of_ok hrun
    have hnamed : ∀ f ∈ files.filterMap id,
        f.path.isChildOf dir = true ∧ v.bytes? f.path = none ∧ f.path ≠ source.path := by
      intro f hf
      obtain ⟨k, hk, -, hpath⟩ := hadds.named f hf
      obtain ⟨hfree, hsource⟩ := hnew k hk
      rw [hpath]
      exact ⟨Path.isChildOf_child dir _, hfree, hsource.symm⟩
    refine ⟨es, hes, hlength, hadds.nodup, fun f hf => ⟨(hnamed f hf).1, (hnamed f hf).2.1⟩,
      fun i bucket hbucket => ?_, ?_, fun p hp hne => ?_⟩
    · have hi : i ≤ path.length := by
        have := (List.getElem?_eq_some_iff.1 hbucket).1
        rw [length_byLevel] at this
        omega
      rw [getElem?_byLevel path es hi] at hbucket
      obtain rfl : atLevel path i es = bucket := Option.some.inj hbucket
      refine ⟨(hlevels i hi).isSome_iff, fun f hf => ?_⟩
      have hlevel := hlevels i hi
      rw [hf, Option.join_some] at hlevel
      exact hlevel.entriesAt_eq
    · rw [hadds.others source.path fun f hf => (hnamed f hf).2.2, Function.update_self]
    · rw [hadds.others p hne, Function.update_of_ne hp]
  · intro size' files files' v₁ v₂ hrun hrun'
    obtain ⟨es, hes, hlength, -, hlevels⟩ := hends.of_ok hrun
    obtain ⟨es', hes', hlength', -, hlevels'⟩ :=
      (ends_splitInPortions ht hnew size' path).of_ok hrun'
    obtain rfl := Option.some.inj (hes.symm.trans hes')
    rw [slots_eq hlength hlevels, slots_eq hlength' hlevels']

/-- On a volume with one file that has a short name all names that are made up are free. -/
theorem ready_putFile {name : String} (h : name.length < 36) (bytes : Bytes) :
    (Volume.empty.putFile (Path.root.child name) bytes).Ready .root ∧
      (Volume.empty.putFile (Path.root.child name) bytes).Unclaimed .root
        ⟨Path.root.child name⟩ := by
  have hne : ∀ k, Path.root.child name ≠ Path.root.child (ScratchFile.nameOf k) := fun k =>
    Volume.avoids_child h .empty .root .root k (Nat.zero_le k)
  have hfresh : ∀ k, (Volume.empty.putFile (Path.root.child name) bytes).item?
      (Path.root.child (ScratchFile.nameOf k)) = none := by
    intro k
    have hempty : Volume.empty.item? (Path.root.child (ScratchFile.nameOf k)) = none := by
      simp [Volume.item?, Volume.empty, Path.root, Path.child]
    exact (Volume.item?_put_of_ne (hne k).symm _).trans hempty
  exact ⟨⟨rfl, ⟨rfl, rfl⟩, fun k _ => hfresh k⟩,
    fun k _ => ⟨Volume.bytes?_of_item?_eq_none (hfresh k), hne k⟩⟩

/-- Three entries at two levels. -/
theorem splits_like_batch_of_two_levels :
    let path : Key := ⟨[false]⟩
    let source : ScratchFile := ⟨Path.root.child "source.csv"⟩
    let kept : Entry := ⟨⟨"a"⟩, ⟨[false]⟩, "type", ⟨⟨"peer"⟩, "localhost:1"⟩, "item"⟩
    let other : Entry := ⟨⟨"b"⟩, ⟨[true]⟩, "type", ⟨⟨"peer"⟩, "localhost:1"⟩, "item"⟩
    let v := Volume.empty.putFile source.path (writeEntries [kept, other, kept])
    v.IsTree ∧ v.Unclaimed .root source ∧
      ∃ files v', (splitByLevel path source .root).run.run v = (.ok files, v') ∧
        files.length = 2 ∧ v'.bytes? source.path = none ∧
        (∀ f, files[0]? = some (some f) → entriesAt (v'.bytes? f.path) = some [other]) ∧
        ∀ f, files[1]? = some (some f) → entriesAt (v'.bytes? f.path) = some [kept, kept] := by
  intro path source kept other v
  have htree : v.IsTree := Volume.isTree_empty.putFile (by decide) (by decide) _
  obtain ⟨hready, hnew⟩ : v.Ready .root ∧ v.Unclaimed .root source := ready_putFile (by decide) _
  have hsource : v.HasFile source.path (writeEntries [kept, other, kept]) :=
    Volume.hasFile_putFile (by decide) (by decide) (by decide) _
  have hentries : entriesOf (writeEntries [kept, other, kept]) = some [kept, other, kept] := by
    rw [entriesOf_writeEntries]
    decide
  obtain ⟨files, v', hrun, -, -⟩ := run_splitByLevel hready ⟨_, hsource, hentries⟩ path
  obtain ⟨heq, -, -, -, hfiles, -⟩ := splits_like_batch htree hnew portionSize path
  obtain ⟨es, hes, hlength, -, -, hlevels, hgone, -⟩ := hfiles files v' (heq ▸ hrun)
  rw [Volume.bytes?_eq_some_iff.2 hsource, entriesAt, Option.getD_some, hentries] at hes
  obtain rfl := Option.some.inj hes
  have hother := (hlevels 0 [other] (by decide)).2
  have hkept := (hlevels 1 [kept, kept] (by decide)).2
  rw [show [other].filter (fun e => (Line.encode? e).isSome) = [other] by decide] at hother
  rw [show [kept, kept].filter (fun e => (Line.encode? e).isSome) = [kept, kept] by decide] at hkept
  exact ⟨htree, hnew, files, v', hrun, hlength, hgone, hother, hkept⟩

end Bulk

end TrieOverlay
