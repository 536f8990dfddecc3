import TrieOverlay.Bulk.Split
import TrieOverlay.Proofs.Bulk.ScratchFile
import TrieOverlay.Proofs.Partition

/-!
# A file is split by level like a batch in memory

`Bulk.run_splitByLevel` says what comes of splitting a file: one new file for every level that has
entries, which holds those of them that can be written, in order.  The invariant `Split.Sorted` is
that what was written at a level and what is pending there are together the entries of the level
that were visited.
-/

namespace TrieOverlay.Bulk

open Volume (HasFile HasList HasEntries Keeps)

namespace Split

variable {s : Split} {v₀ v : Volume} {dir src : Path} {path : Key} {done es : List Entry}
  {e : Entry} {i j level : Nat}

/-- The file of a level, if it was made. -/
def fileAt (s : Split) (i : Nat) : Option ScratchFile :=
  s.files[i]?.join

/-- What is pending at a level. -/
def pendingAt (s : Split) (i : Nat) : List Entry :=
  s.pending[i]?.getD []

/-- What a level looks like after the entries `all` of the level were visited. -/
def LevelSorted (v₀ v : Volume) (all pending : List Entry) (file : Option ScratchFile) : Prop :=
  ∃ written, all = written ++ pending ∧
    match file with
    | none => written = []
    | some f => written ≠ [] ∧ v₀.item? f.path = none ∧
        v.HasList f.path (written.filter fun e => Line.isEncodable e)

/-- A split under way that began on a volume and visited some entries. -/
structure Sorted (dir src : Path) (path : Key) (v₀ : Volume) (done : List Entry) (s : Split)
    (v : Volume) : Prop where
  failure : s.failure = none
  length_files : s.files.length = path.length + 1
  length_pending : s.pending.length = path.length + 1
  start : v₀.Ready dir
  leads : v₀.Leads dir [src] v
  source : v₀.item? src ≠ none
  level : ∀ i ≤ path.length,
    LevelSorted v₀ v (atLevel path i done) (s.pendingAt i) (s.fileAt i)
  distinct : ∀ i j f, s.fileAt i = some f → s.fileAt j = some f → i = j

theorem fileAt_set (h : level < s.files.length) (f : Option ScratchFile) (i : Nat) :
    ({ s with files := s.files.set level f } : Split).fileAt i =
      if i = level then f else s.fileAt i := by
  simp only [fileAt, List.getElem?_set]
  by_cases hi : i = level
  · subst hi
    simp [h]
  · simp [hi, Ne.symm hi]

theorem pendingAt_set (h : level < s.pending.length) (batch : List Entry) (i : Nat) :
    ({ s with pending := s.pending.set level batch } : Split).pendingAt i =
      if i = level then batch else s.pendingAt i := by
  simp only [pendingAt, List.getElem?_set]
  by_cases hi : i = level
  · subst hi
    simp [h]
  · simp [hi, Ne.symm hi]

theorem LevelSorted.keep {all pending : List Entry} {file : Option ScratchFile} {v' : Volume}
    {ps : List Path} (h : LevelSorted v₀ v all pending file) (hk : Keeps ps v v')
    (hp : ∀ f, file = some f → f.path ∉ ps) : LevelSorted v₀ v' all pending file := by
  obtain ⟨written, hall, hfile⟩ := h
  refine ⟨written, hall, ?_⟩
  cases file with
  | none => exact hfile
  | some f => exact ⟨hfile.1, hfile.2.1, hk.hasList hfile.2.2 (hp f rfl)⟩

/-- A file made later than the start is not the source, and not there at the start. -/
theorem Sorted.item?_of_new (h : s.Sorted dir src path v₀ done v) {f : ScratchFile}
    (hf : f.path = dir.child (ScratchFile.nameOf v.serial)) : v₀.item? f.path = none := by
  rw [hf]
  exact h.start.fresh _ h.leads.serial

theorem Sorted.hasList_of_fileAt (h : s.Sorted dir src path v₀ done v) (hi : i ≤ path.length)
    {f : ScratchFile} (hf : s.fileAt i = some f) :
    v₀.item? f.path = none ∧ v.item? f.path ≠ none := by
  obtain ⟨written, -, hfile⟩ := h.level i hi
  rw [hf] at hfile
  exact ⟨hfile.2.1, hfile.2.2.hasEntries.item?_ne_none⟩

theorem Sorted.le_of_fileAt (h : s.Sorted dir src path v₀ done v) {f : ScratchFile}
    (hf : s.fileAt i = some f) : i ≤ path.length := by
  by_contra hi
  have : s.files[i]? = none := List.getElem?_eq_none (by rw [h.length_files]; omega)
  simp [fileAt, this] at hf

/-- The file of a level, which is made if there is none. -/
theorem Sorted.open (h : s.Sorted dir src path v₀ done v) (hl : level ≤ path.length) :
    ∃ f v', (∀ go : Except StorageError ScratchFile → Disk Split,
        (match s.files[level]? with
          | some (some f) => pure (.ok f) >>= go
          | _ => (ScratchFile.createIn dir).run >>= go : Disk Split).run v =
        (go (.ok f)).run v') ∧
      v.Leads dir [] v' ∧ v₀.item? f.path = none ∧
      (∀ j g, s.fileAt j = some g → g.path = f.path → j = level) ∧
      ∃ written, atLevel path level done = written ++ s.pendingAt level ∧
        v'.HasList f.path (written.filter fun e => Line.isEncodable e) := by
  have hlt : level < s.files.length := by rw [h.length_files]; omega
  obtain ⟨written, hall, hfile⟩ := h.level level hl
  cases hf : s.fileAt level with
  | some f =>
    have hget : s.files[level]? = some (some f) := by
      simpa [fileAt, List.getElem?_eq_getElem hlt] using hf
    rw [hf] at hfile
    refine ⟨f, v, fun go => by rw [hget]; rfl, h.leads.ready.leads_refl [], hfile.2.1, ?_,
      written, hall, hfile.2.2⟩
    intro j g hg hgf
    obtain rfl : g = f := congrArg ScratchFile.mk hgf
    exact h.distinct j level g hg hf
  | none =>
    have hget : s.files[level]? = some none := by
      simpa [fileAt, List.getElem?_eq_getElem hlt] using hf
    rw [hf] at hfile
    obtain ⟨f, v', hcreate, hleads, hpath, hf'⟩ := ScratchFile.run_createIn h.leads.ready
    refine ⟨f, v', fun go => by rw [hget]; exact Disk.run_bind_eq hcreate, hleads,
      h.item?_of_new hpath, ?_, written, hall, ?_⟩
    · -- The files of the levels are there, the new file was not.
      intro j g hg hgf
      exfalso
      refine (h.hasList_of_fileAt (h.le_of_fileAt hg) hg).2 ?_
      rw [hgf]
      exact ScratchFile.item?_of_new h.leads.ready hpath
    · obtain rfl : written = [] := hfile
      exact hasList_of_hasFile_nil hf'

/-- What is pending at a level was written to the file of the level. -/
theorem Sorted.written (h : s.Sorted dir src path v₀ done v) (hl : level ≤ path.length)
    {f : ScratchFile} {v' : Volume} {written : List Entry} (hleads : v.Leads dir [f.path] v')
    (hfree : v₀.item? f.path = none)
    (hdistinct : ∀ j g, s.fileAt j = some g → g.path = f.path → j = level)
    (hall : atLevel path level done = written ++ s.pendingAt level)
    (hne : s.pendingAt level ≠ [])
    (hlist : v'.HasList f.path
      ((written ++ s.pendingAt level).filter fun e => Line.isEncodable e)) :
    ({ s with
        files := s.files.set level (some f)
        pending := s.pending.set level [] } : Split).Sorted dir src path v₀ done v' ∧
      ∀ i, ({ s with
        files := s.files.set level (some f)
        pending := s.pending.set level [] } : Split).pendingAt i =
          if i = level then [] else s.pendingAt i := by
  have hltf : level < s.files.length := by rw [h.length_files]; omega
  have hltp : level < s.pending.length := by rw [h.length_pending]; omega
  let s' : Split :=
    { s with files := s.files.set level (some f), pending := s.pending.set level [] }
  have hfiles : ∀ i, s'.fileAt i = if i = level then some f else s.fileAt i :=
    fun i => fileAt_set hltf (some f) i
  have hpending : ∀ i, s'.pendingAt i = if i = level then [] else s.pendingAt i :=
    fun i => pendingAt_set hltp [] i
  refine ⟨⟨h.failure, (List.length_set ..).trans h.length_files,
    (List.length_set ..).trans h.length_pending, h.start, ?_, h.source, ?_, ?_⟩, hpending⟩
  · exact ((h.leads.mono (List.subset_cons_self f.path [src])).trans
      (hleads.mono (by simp))).of_cons hfree
  · intro i hi
    rw [hfiles, hpending]
    by_cases hil : i = level
    · subst hil
      refine ⟨written ++ s.pendingAt i, by simpa using hall, ?_⟩
      simp only [if_true]
      exact ⟨by simp [hne], hfree, hlist⟩
    · -- The files of the other levels were not written.
      rw [if_neg hil, if_neg hil]
      refine (h.level i hi).keep hleads.keeps fun g hg hmem => hil ?_
      exact hdistinct i g hg (List.mem_singleton.1 hmem)
  · intro i j g hi hj
    rw [hfiles] at hi hj
    by_cases hil : i = level <;> by_cases hjl : j = level
    · rw [hil, hjl]
    · rw [if_pos hil] at hi
      rw [if_neg hjl] at hj
      exact absurd (hdistinct j g hj (by rw [Option.some.inj hi])) hjl
    · rw [if_neg hil] at hi
      rw [if_pos hjl] at hj
      exact absurd (hdistinct i g hi (by rw [Option.some.inj hj])) hil
    · rw [if_neg hil] at hi
      rw [if_neg hjl] at hj
      exact h.distinct i j g hi hj

theorem Sorted.flush (h : s.Sorted dir src path v₀ done v) (hl : level ≤ path.length) :
    ∃ s' v', (s.flush dir level).run v = (s', v') ∧ s'.Sorted dir src path v₀ done v' ∧
      ∀ i, s'.pendingAt i = if i = level then [] else s.pendingAt i := by
  by_cases hempty : s.pendingAt level = []
  · refine ⟨s, v, ?_, h, fun i => ?_⟩
    · rw [Split.flush]
      change (if (s.pendingAt level).isEmpty then _ else _ : Disk Split).run v = _
      rw [hempty]
      rfl
    · split
      · rename_i hi
        rw [hi, hempty]
      · rfl
  · obtain ⟨f, v₁, hopen, hleads₁, hfree, hdistinct, written, hall, hlist⟩ := h.open hl
    obtain ⟨n, v₂, happend, hleads₂, hlist₂⟩ :=
      run_append hleads₁.ready hlist (s.pendingAt level)
    have hleads : v.Leads dir [f.path] v₂ := (hleads₁.mono (List.nil_subset _)).trans hleads₂
    rw [← List.filter_append] at hlist₂
    refine ⟨_, v₂, ?_, h.written hl hleads hfree hdistinct hall hempty hlist₂⟩
    rw [Split.flush]
    change (if (s.pendingAt level).isEmpty then _ else _ : Disk Split).run v = _
    rw [if_neg (by simpa using hempty)]
    exact (hopen _).trans (Disk.run_bind_eq happend)

theorem Sorted.visit (h : s.Sorted dir src path v₀ done v) (e : Entry) :
    ∃ s' v', (s.visit path dir e).run v = (s', v') ∧
      s'.Sorted dir src path v₀ (done ++ [e]) v' := by
  have hl : path.levelOf e.key ≤ path.length := Key.levelOf_le path e.key
  have hltp : path.levelOf e.key < s.pending.length := by rw [h.length_pending]; omega
  let batch := s.pendingAt (path.levelOf e.key) ++ [e]
  let s₁ : Split := { s with pending := s.pending.set (path.levelOf e.key) batch }
  have h₁ : s₁.Sorted dir src path v₀ (done ++ [e]) v := by
    refine ⟨h.failure, h.length_files, (List.length_set ..).trans h.length_pending, h.start,
      h.leads, h.source, fun i hi => ?_, h.distinct⟩
    obtain ⟨written, hall, hfile⟩ := h.level i hi
    refine ⟨written, ?_, hfile⟩
    rw [show s₁.pendingAt i = _ from pendingAt_set hltp batch i]
    rw [atLevel] at hall
    rw [atLevel, List.filter_append, hall]
    by_cases hil : i = path.levelOf e.key
    · simp [← hil, batch]
    · simp [hil, Ne.symm hil]
  have hrun : (s.visit path dir e).run v =
      (if batch.length ≥ portionSize then s₁.flush dir (path.levelOf e.key)
        else pure s₁ : Disk Split).run v := by
    rw [Split.visit, if_neg (by simp [h.failure])]
    rfl
  rw [hrun]
  split
  · obtain ⟨s', v', hflush, hs', -⟩ := h₁.flush hl
    exact ⟨s', v', hflush, hs'⟩
  · exact ⟨s₁, v, rfl, h₁⟩

theorem Sorted.visits (h : s.Sorted dir src path v₀ done v) (es : List Entry) :
    ∃ s' v', (es.foldlM (Split.visit path dir) s).run v = (s', v') ∧
      s'.Sorted dir src path v₀ (done ++ es) v' := by
  induction es generalizing s v done with
  | nil => exact ⟨s, v, rfl, by simpa using h⟩
  | cons e es ih =>
    obtain ⟨s₁, v₁, hvisit, h₁⟩ := h.visit e
    obtain ⟨s₂, v₂, hrest, h₂⟩ := ih h₁
    refine ⟨s₂, v₂, ?_, by simpa using h₂⟩
    rw [List.foldlM_cons, Disk.run_bind_eq hvisit]
    exact hrest

theorem Sorted.flushAll (h : s.Sorted dir src path v₀ done v) (levels : List Nat)
    (hl : ∀ i ∈ levels, i ≤ path.length) :
    ∃ s' v', (Split.flushAll dir levels s).run v = (s', v') ∧ s'.Sorted dir src path v₀ done v' ∧
      ∀ i, s'.pendingAt i = if i ∈ levels then [] else s.pendingAt i := by
  induction levels generalizing s v with
  | nil => exact ⟨s, v, rfl, h, fun i => by simp⟩
  | cons level levels ih =>
    obtain ⟨s₁, v₁, hflush, h₁, hp₁⟩ := h.flush (hl level (List.mem_cons_self ..))
    obtain ⟨s₂, v₂, hrest, h₂, hp₂⟩ := ih h₁ fun i hi => hl i (List.mem_cons_of_mem _ hi)
    refine ⟨s₂, v₂, ?_, h₂, fun i => ?_⟩
    · rw [Split.flushAll, Disk.run_bind_eq hflush, h₁.failure]
      exact hrest
    · rw [hp₂, hp₁]
      by_cases hi : i ∈ levels <;> by_cases hil : i = level <;> simp [hi, hil]

theorem sorted_start (path : Key) (hv : v₀.Ready dir) (hsrc : v₀.item? src ≠ none) :
    (Split.start (path.length + 1)).Sorted dir src path v₀ [] v₀ := by
  have hfiles : ∀ i, (Split.start (path.length + 1)).fileAt i = none := by
    intro i
    simp only [fileAt, Split.start, List.getElem?_replicate]
    split <;> rfl
  refine ⟨rfl, List.length_replicate .., List.length_replicate .., hv, hv.leads_refl _, hsrc,
    fun i hi => ?_, fun i j f hf => ?_⟩
  · rw [hfiles]
    refine ⟨[], ?_, rfl⟩
    simp only [atLevel, pendingAt, Split.start, List.getElem?_replicate]
    split <;> rfl
  · rw [hfiles] at hf
    cases hf

theorem Sorted.keep (h : s.Sorted dir src path v₀ done v) {v' : Volume}
    (hleads : v.Leads dir [src] v') : s.Sorted dir src path v₀ done v' := by
  refine ⟨h.failure, h.length_files, h.length_pending, h.start, h.leads.trans hleads, h.source,
    fun i hi => ?_, h.distinct⟩
  refine (h.level i hi).keep hleads.keeps fun f hf hmem => h.source ?_
  rw [← List.mem_singleton.1 hmem]
  exact (h.hasList_of_fileAt hi hf).1

/-- No file serves two levels. -/
theorem Sorted.nodup_made (h : s.Sorted dir src path v₀ done v) : (s.files.filterMap id).Nodup := by
  have hpair : s.files.Pairwise fun a b => ∀ f, a = some f → b ≠ some f := by
    rw [List.pairwise_iff_getElem]
    intro i j hi hj hij f ha hb
    have hfi : s.fileAt i = some f := by simp [fileAt, List.getElem?_eq_getElem hi, ha]
    have hfj : s.fileAt j = some f := by simp [fileAt, List.getElem?_eq_getElem hj, hb]
    exact Nat.ne_of_lt hij (h.distinct i j f hfi hfj)
  refine List.Pairwise.filterMap _ (fun a b hab f ha g hb hfg => ?_) hpair
  exact hab f ha (hfg ▸ hb)

end Split

/-- What splitting a file comes to: for every level with entries a file of its own that was not
there before and has those of them that can be written. -/
structure IsSplit (path : Key) (es : List Entry) (v v' : Volume)
    (files : List (Option ScratchFile)) : Prop where
  length_eq : files.length = path.length + 1
  level : ∀ (i : Nat) (file : Option ScratchFile), files[i]? = some file →
    match file with
    | none => atLevel path i es = []
    | some f => atLevel path i es ≠ [] ∧ v.item? f.path = none ∧
        v'.HasEntries f.path ((atLevel path i es).filter fun e => Line.isEncodable e)
  nodup : (files.filterMap id).Nodup

/-- The files that were made lie where nothing was, and can be read. -/
theorem IsSplit.fresh {path : Key} {es : List Entry} {v v' : Volume}
    {files : List (Option ScratchFile)} (h : IsSplit path es v v' files) :
    ∀ f ∈ files.filterMap id, v.item? f.path = none ∧ ∃ es, v'.HasEntries f.path es := by
  intro f hf
  obtain ⟨file, hfile, rfl⟩ := List.mem_filterMap.1 hf
  obtain ⟨i, hi⟩ := List.mem_iff_getElem?.1 hfile
  obtain ⟨-, hfree, hentries⟩ := h.level i _ hi
  exact ⟨hfree, _, hentries⟩

theorem run_splitByLevel {v : Volume} {dir : Path} {src : ScratchFile} {es : List Entry}
    (hv : v.Ready dir) (h : v.HasEntries src.path es) (path : Key) :
    ∃ files v', (splitByLevel path src dir).run.run v = (.ok files, v') ∧
      v.Leads dir [src.path] v' ∧ IsSplit path es v v' files := by
  have hsrc := h.item?_ne_none
  obtain ⟨s₁, v₁, hvisits, h₁⟩ := (Split.sorted_start path hv hsrc).visits es
  obtain ⟨v₂, hrelease, hleads₂⟩ := ScratchFile.run_release h₁.leads.ready src
  obtain ⟨s₃, v₃, hflush, h₃, hp₃⟩ := (h₁.keep hleads₂).flushAll (List.range (path.length + 1))
    fun i hi => Nat.le_of_lt_succ (List.mem_range.1 hi)
  refine ⟨s₃.files, v₃, ?_, h₃.leads, h₃.length_files, fun i file hfile => ?_, h₃.nodup_made⟩
  · rw [splitByLevel]
    refine (TryDisk.run_bind_ok
      (TryDisk.run_lift (run_scan hv.schedule h hvisits))).trans ?_
    refine (TryDisk.run_bind_ok (TryDisk.run_lift hrelease)).trans ?_
    simp only [h₁.failure]
    refine (TryDisk.run_bind_ok (TryDisk.run_lift hflush)).trans ?_
    simp only [h₃.failure]
    rfl
  · have hi : i ≤ path.length := by
      have := (List.getElem?_eq_some_iff.1 hfile).1
      rw [h₃.length_files] at this
      omega
    obtain ⟨written, hall, hlevel⟩ := h₃.level i hi
    rw [hp₃, if_pos (List.mem_range.2 (Nat.lt_succ_of_le hi)), List.append_nil,
      List.nil_append] at hall
    rw [Split.fileAt, hfile] at hlevel
    cases file with
    | none => exact hall.trans hlevel
    | some f => exact ⟨hall ▸ hlevel.1, hlevel.2.1, hall ▸ hlevel.2.2.hasEntries⟩

end TrieOverlay.Bulk
