import TrieOverlay.Bulk.Split
import TrieOverlay.Proofs.Bulk.Calls
import TrieOverlay.Proofs.Bulk.ScratchFile
import TrieOverlay.Proofs.Partition

/-!
# Who holds the scratch files

`Volume.Shelf dir held v` says that the files in the directory `dir` are the scratch files `held`,
each held once.  Whatever calls fail on the way, the computations that make, fill and release
scratch files keep account of them: a file that was made is in the hands of whoever gets the result,
and if there is no result it is gone.
-/

namespace TrieOverlay

open Volume (Writes)

namespace Volume

variable {v v' : Volume} {dir : Path} {f : ScratchFile} {held held' : List ScratchFile}
  {ps : List Path}

/-- The files in a directory are those that somebody holds, each of them once, and their names were
made up. -/
structure Shelf (dir : Path) (held : List ScratchFile) (v : Volume) : Prop where
  tree : v.IsTree
  files : ∀ f : ScratchFile, f.path.isChildOf dir → ((v.bytes? f.path).isSome ↔ f ∈ held)
  named : ∀ f ∈ held, ∃ k < v.serial, f.path = dir.child (ScratchFile.nameOf k)
  nodup : held.Nodup

namespace Shelf

theorem isChildOf (h : v.Shelf dir held) (hf : f ∈ held) : f.path.isChildOf dir = true := by
  obtain ⟨k, -, hpath⟩ := h.named f hf
  rw [hpath]
  exact Path.isChildOf_child dir _

theorem isSome (h : v.Shelf dir held) (hf : f ∈ held) : (v.bytes? f.path).isSome :=
  (h.files f (h.isChildOf hf)).2 hf

theorem perm (h : v.Shelf dir held) (hp : held.Perm held') : v.Shelf dir held' :=
  ⟨h.tree, fun f hf => (h.files f hf).trans hp.mem_iff, fun f hf => h.named f (hp.mem_iff.2 hf),
    hp.nodup_iff.1 h.nodup⟩

theorem serial_named (h : v.Shelf dir held) (hs : v.serial ≤ v'.serial) :
    ∀ f ∈ held, ∃ k < v'.serial, f.path = dir.child (ScratchFile.nameOf k) := by
  intro f hf
  obtain ⟨k, hk, hpath⟩ := h.named f hf
  exact ⟨k, Nat.lt_of_lt_of_le hk hs, hpath⟩

theorem of_writes (h : v.Shelf dir held) (hw : Writes ps v v')
    (hps : ∀ p ∈ ps, p.isChildOf dir = false) : v'.Shelf dir held := by
  refine ⟨hw.tree, fun f hf => ?_, h.serial_named hw.serial, h.nodup⟩
  rw [hw.spares f.path fun hmem => by simp [hps _ hmem] at hf]
  exact h.files f hf

theorem untouched (h : v.Shelf dir held) (hw : Writes [] v v') : v'.Shelf dir held :=
  h.of_writes hw fun _ hp => absurd hp List.not_mem_nil

/-- What is written elsewhere is no business of the shelf. -/
theorem elsewhere (h : v.Shelf dir held) {p : Path} (hw : Writes [p] v v')
    (hp : p.isChildOf dir = false) : v'.Shelf dir held :=
  h.of_writes hw fun _ hq => List.mem_singleton.1 hq ▸ hp

/-- A file of the shelf is written. -/
theorem write (h : v.Shelf dir held) (hf : f ∈ held) (hw : Writes [f.path] v v')
    (hb : (v'.bytes? f.path).isSome) : v'.Shelf dir held := by
  refine ⟨hw.tree, fun g hg => ?_, h.serial_named hw.serial, h.nodup⟩
  by_cases hgf : g = f
  · subst hgf
    exact iff_of_true hb hf
  · rw [hw.spares g.path fun hmem => hgf (congrArg ScratchFile.mk (List.mem_singleton.1 hmem))]
    exact h.files g hg

/-- A new file is in somebody's hands. -/
theorem cons {k : Nat} (h : v.Shelf dir held) (hk : v.serial ≤ k) (hk' : k < v'.serial)
    (hpath : f.path = dir.child (ScratchFile.nameOf k)) (hw : Writes [f.path] v v')
    (hb : (v'.bytes? f.path).isSome) : v'.Shelf dir (f :: held) := by
  have hnew : f ∉ held := by
    intro hf
    obtain ⟨k', hk'', hpath'⟩ := h.named f hf
    have := ScratchFile.child_nameOf_injective (hpath.symm.trans hpath')
    omega
  refine ⟨hw.tree, fun g hg => ?_, List.forall_mem_cons.2 ⟨⟨k, hk', hpath⟩, ?_⟩,
    List.nodup_cons.2 ⟨hnew, h.nodup⟩⟩
  · by_cases hgf : g = f
    · subst hgf
      exact iff_of_true hb (List.mem_cons_self ..)
    · rw [hw.spares g.path fun hmem => hgf (congrArg ScratchFile.mk (List.mem_singleton.1 hmem)),
        List.mem_cons, or_iff_right hgf]
      exact h.files g hg
  · exact h.serial_named hw.serial

/-- A file goes away with its holder. -/
theorem drop (h : v.Shelf dir (f :: held)) (hw : Writes [f.path] v v')
    (hb : v'.bytes? f.path = none) : v'.Shelf dir held := by
  obtain ⟨hnot, hnodup⟩ := List.nodup_cons.1 h.nodup
  refine ⟨hw.tree, fun g hg => ?_, fun g hg => h.serial_named hw.serial g
    (List.mem_cons_of_mem _ hg), hnodup⟩
  by_cases hgf : g = f
  · subst hgf
    exact iff_of_false (by simp [hb]) hnot
  · rw [hw.spares g.path fun hmem => hgf (congrArg ScratchFile.mk (List.mem_singleton.1 hmem)),
      h.files g hg, List.mem_cons, or_iff_right hgf]

end Shelf

end Volume

/-- A computation leaves a shelf what it is, however it ends. -/
def TryDisk.KeepsShelf {α : Type} (act : TryDisk α) (dir : Path) (held : List ScratchFile) : Prop :=
  ∀ v, v.Shelf dir held → act.Ends v (fun _ v' => v'.Shelf dir held) fun _ v' => v'.Shelf dir held

theorem TryDisk.KeepsShelf.bind {α β : Type} {act : TryDisk α} {f : α → TryDisk β} {dir : Path}
    {held : List ScratchFile} (h : act.KeepsShelf dir held)
    (hf : ∀ a, (f a).KeepsShelf dir held) : (act >>= f).KeepsShelf dir held :=
  fun v hv => (h v hv).bind fun a v₁ h₁ => hf a v₁ h₁

theorem TryDisk.keepsShelf_pure {α : Type} (a : α) (dir : Path) (held : List ScratchFile) :
    (pure a : TryDisk α).KeepsShelf dir held :=
  fun _ hv => hv

/-! ### Making, filling and releasing -/

namespace ScratchFile

variable {α : Type} {v : Volume} {dir : Path} {f : ScratchFile} {held : List ScratchFile}

theorem shelf_createIn (h : v.Shelf dir held) :
    (createIn dir).Ends v (fun f v' => v'.Shelf dir (f :: held)) fun _ v' => v'.Shelf dir held := by
  refine (ends_createIn h.tree dir).imp ?_ fun _ _ hw => h.untouched hw
  rintro f v' ⟨k, hk, hk', hpath, hw, hb⟩
  exact h.cons hk hk' hpath hw (by simp [hb])

theorem shelf_release (h : v.Shelf dir (f :: held)) :
    f.release.Ends v fun _ v' => v'.Shelf dir held :=
  (ends_release h.tree f).imp fun _ _ ⟨hw, hb⟩ => h.drop hw hb

theorem shelf_releaseAll {files : List ScratchFile} (h : v.Shelf dir (files ++ held)) :
    (releaseAll files).Ends v fun _ v' => v'.Shelf dir held := by
  induction files generalizing v with
  | nil => exact h
  | cons f files ih =>
    exact (shelf_release h).bind fun _ _ h₁ => ih h₁

theorem shelf_orRelease {act : TryDisk α} {P : α → Volume → Prop}
    (h : act.Ends v P fun _ v' => v'.Shelf dir (f :: held)) :
    (f.orRelease act).Ends v P fun _ v' => v'.Shelf dir held :=
  ends_orRelease h fun _ _ h₁ => shelf_release h₁

/-! A file of the shelf may be written. -/

variable (hf : f ∈ held)

include hf

theorem keepsShelf_append (entries : List Entry) :
    TryDisk.KeepsShelf (Bulk.append f.path entries) dir held := by
  intro v h
  refine (Bulk.ends_append h.tree f.path entries).imp ?_ ?_
  · rintro _ v' ⟨-, hw, hb⟩
    exact h.write hf hw (by simp [hb])
  · rintro _ v' ⟨hw, hb⟩
    exact h.write hf hw (hb (h.isSome hf))

theorem keepsShelf_appendLines (lines : List String) :
    TryDisk.KeepsShelf (Bulk.appendLines f.path lines) dir held := by
  intro v h
  refine (Bulk.ends_appendLines h.tree f.path lines).imp ?_ ?_
  · rintro _ v' ⟨hw, hb⟩
    exact h.write hf hw (by simp [hb])
  · rintro _ v' ⟨hw, hb⟩
    exact h.write hf hw (hb (h.isSome hf))

theorem keepsShelf_touch : (Volume.touch f.path).KeepsShelf dir held := by
  intro v h
  refine (h.tree.ends_touch f.path).imp ?_ fun _ _ hw => h.untouched hw
  rintro _ v' ⟨hw, hb⟩
  exact h.write hf hw (by simp [hb])

theorem keepsShelf_clear : (Volume.clear f.path).KeepsShelf dir held := by
  intro v h
  refine (h.tree.ends_clear f.path).imp ?_ fun _ _ hw => h.untouched hw
  rintro _ v' ⟨hw, hb⟩
  exact h.write hf hw (by simp [hb])

theorem keepsShelf_appendBytes (more : Bytes) :
    (Volume.append f.path more).KeepsShelf dir held := by
  intro v h
  refine (h.tree.ends_append f.path more).imp ?_ ?_
  · rintro _ v' ⟨hw, old, -, hb⟩
    exact h.write hf hw (by simp [hb])
  · rintro _ v' ⟨hw, hb⟩
    exact h.write hf hw (hb ▸ h.isSome hf)

theorem keepsShelf_extend (more : Bytes) : (Volume.extend f.path more).KeepsShelf dir held :=
  (keepsShelf_touch hf).bind fun _ => keepsShelf_appendBytes hf more

end ScratchFile

/-! ### New files with contents -/

section New

variable {v : Volume} {dir : Path} {f : ScratchFile} {held : List ScratchFile}

theorem ScratchFile.shelf_ofLines (h : v.Shelf dir held) (lines : List String) :
    (ofLines dir lines).Ends v (fun f v' => v'.Shelf dir (f :: held))
      fun _ v' => v'.Shelf dir held := by
  refine (shelf_createIn h).bind fun f v₁ h₁ => shelf_orRelease ?_
  exact (keepsShelf_appendLines (List.mem_cons_self ..) lines v₁ h₁).bind fun _ _ h₂ => h₂

theorem Bulk.Draft.keepsShelf_write (hf : f ∈ held) (d : Draft) :
    (d.write f.path).KeepsShelf dir held := by
  obtain ⟨entries, lines, bytes⟩ := d
  -- what comes after a part is the draft without the parts before
  have hbytes : (write ⟨none, none, bytes⟩ f.path).KeepsShelf dir held := by
    cases bytes with
    | none => exact TryDisk.keepsShelf_pure () dir held
    | some more => exact ScratchFile.keepsShelf_extend hf more
  have hlines : (write ⟨none, lines, bytes⟩ f.path).KeepsShelf dir held := by
    cases lines with
    | none => exact hbytes
    | some ls => exact (ScratchFile.keepsShelf_appendLines hf ls).bind fun _ => hbytes
  cases entries with
  | none => exact hlines
  | some es => exact (ScratchFile.keepsShelf_append hf es).bind fun _ => hlines

theorem Bulk.Draft.shelf_createIn (h : v.Shelf dir held) (d : Draft) :
    (d.createIn dir).Ends v (fun f v' => v'.Shelf dir (f :: held))
      fun _ v' => v'.Shelf dir held := by
  refine (ScratchFile.shelf_createIn h).bind fun f v₁ h₁ => ScratchFile.shelf_orRelease ?_
  have hf : f ∈ f :: held := List.mem_cons_self ..
  refine (keepsShelf_write hf d v₁ h₁).bind fun _ v₂ h₂ => ?_
  cases d.bytes with
  | none => exact TryDisk.ends_pure h₂
  | some more =>
    refine (ScratchFile.keepsShelf_clear hf v₂ h₂).bind fun _ v₃ h₃ => ?_
    exact (ScratchFile.keepsShelf_appendBytes hf more v₃ h₃).bind fun _ _ h₄ => h₄

theorem Transfer.shelf_createIn (h : v.Shelf dir held) :
    (createIn dir).Ends v
      (fun t v' => t.list.path = t.file.path ∧ v'.Shelf dir (t.file :: held))
      fun _ v' => v'.Shelf dir held := by
  refine (ScratchFile.shelf_createIn h).bind fun f v₁ h₁ => ScratchFile.shelf_orRelease ?_
  refine (BulkList.ends_openAt h₁.tree f.path).bind_imp (fun _ _ hw => h₁.untouched hw) ?_
  rintro l v₂ ⟨rfl, hw, hb⟩
  exact TryDisk.ends_pure ⟨rfl, h₁.write (List.mem_cons_self ..) hw (by simp [hb])⟩

theorem Transfer.shelf_stage {t : Transfer} (ht : t.list.path = t.file.path)
    (h : v.Shelf dir (t.file :: held)) (entries : List Entry) :
    (t.stage entries).Ends v (fun r v' => v'.Shelf dir (r.2.file :: held))
      fun _ v' => v'.Shelf dir (t.file :: held) := by
  rw [stage, BulkList.tryAdd, ht]
  simp only [bind_assoc, pure_bind]
  refine (ScratchFile.keepsShelf_append (List.mem_cons_self ..) entries v h).bind fun _ v₁ h₁ => ?_
  exact TryDisk.ends_pure h₁

/-- Entries of a list outside go into a new file, if there are any. -/
theorem BulkList.shelf_takeInto (h : v.Shelf dir held) (l : BulkList)
    (hl : l.path.isChildOf dir = false) :
    (l.takeInto dir).Ends v
      (fun r v' => r.2.path = l.path ∧ v'.Shelf dir (r.1.toList ++ held))
      fun _ v' => v'.Shelf dir held := by
  refine (ScratchFile.shelf_createIn h).bind fun f v₁ h₁ => ScratchFile.shelf_orRelease ?_
  have hf : f ∈ f :: held := List.mem_cons_self ..
  refine (Bulk.ends_readEntries h₁.tree l.path).bind_imp (fun _ _ hw => h₁.untouched hw)
    fun es v₂ ⟨hw₂, _⟩ => ?_
  have h₂ := h₁.untouched hw₂
  cases es.isEmpty with
  | true =>
    refine (TryDisk.ends_lift (ScratchFile.shelf_release h₂)).bind fun _ v₃ h₃ => ?_
    exact TryDisk.ends_pure ⟨rfl, h₃⟩
  | false =>
    refine (ScratchFile.keepsShelf_append hf es v₂ h₂).bind fun _ v₃ h₃ => ?_
    refine (h₃.tree.ends_clear l.path).bind_imp (fun _ _ hw => h₃.untouched hw)
      fun _ v₄ ⟨hw₄, _⟩ => ?_
    exact TryDisk.ends_pure ⟨rfl, h₃.elsewhere hw₄ hl⟩

end New

/-! ### Splitting -/

namespace Bulk.Split

variable {s : Split} {v : Volume} {dir : Path} {path : Key} {rest : List ScratchFile}
  {level n : Nat}

/-- The files of the levels are in the hands of the split. -/
structure Shelved (dir : Path) (rest : List ScratchFile) (n : Nat) (s : Split) (v : Volume) :
    Prop where
  length : s.files.length = n
  shelf : v.Shelf dir (s.made ++ rest)

/-- The file of a level and those of the others. -/
theorem made_set_perm (h : level < s.files.length) (file : Option ScratchFile) :
    ({ s with files := s.files.set level file } : Split).made.Perm
      (file.toList ++ ({ s with files := s.files.set level none } : Split).made) := by
  simp only [made, List.set_eq_take_append_cons_drop, if_pos h, List.filterMap_append]
  cases file with
  | none => exact List.Perm.refl _
  | some f => exact List.perm_middle

theorem made_perm {file : Option ScratchFile} (h : s.files[level]? = some file) :
    s.made.Perm (file.toList ++ ({ s with files := s.files.set level none } : Split).made) := by
  obtain ⟨hlt, hfile⟩ := List.getElem?_eq_some_iff.1 h
  have hset : s.files.set level file = s.files := by rw [← hfile, List.set_getElem_self]
  have hperm := made_set_perm hlt file
  rwa [hset] at hperm

theorem Shelved.getElem? (h : s.Shelved dir rest n v) (hl : level < n) :
    ∃ file, s.files[level]? = some file :=
  ⟨_, List.getElem?_eq_getElem (h.length ▸ hl)⟩

/-- After a failure the file of the level is gone, and the others are where they were. -/
theorem Shelved.failed (h : s.Shelved dir rest n v) (hl : level < n) (e : StorageError) :
    (s.failed level e).Ends v fun s' v' => s'.Shelved dir rest n v' := by
  obtain ⟨file, hfile⟩ := h.getElem? hl
  have hlength : (s.files.set level none).length = n := (List.length_set ..).trans h.length
  have hshelf := h.shelf.perm ((made_perm hfile).append_right rest)
  rw [Split.failed, hfile]
  cases file with
  | none => exact Disk.ends_pure ⟨hlength, hshelf⟩
  | some f => exact (ScratchFile.shelf_release hshelf).bind fun _ _ h₁ => ⟨hlength, h₁⟩

/-- The file of a level is there, or was made, or is not to be had. -/
theorem Shelved.open (h : s.Shelved dir rest n v) (hl : level < n)
    {go : Except StorageError ScratchFile → Disk Split} {P : Split → Volume → Prop}
    (hok : ∀ f v₁,
      ({ s with files := s.files.set level (some f) } : Split).Shelved dir rest n v₁ →
        (go (.ok f)).Ends v₁ P)
    (herror : ∀ e v₁, s.Shelved dir rest n v₁ → (go (.error e)).Ends v₁ P) :
    (match s.files[level]? with
      | some (some f) => pure (.ok f) >>= go
      | _ => (ScratchFile.createIn dir).run >>= go : Disk Split).Ends v P := by
  obtain ⟨file, hfile⟩ := h.getElem? hl
  have hlt : level < s.files.length := h.length ▸ hl
  rw [hfile]
  cases file with
  | some f =>
    have hset : s.files.set level (some f) = s.files := by
      rw [← (List.getElem?_eq_some_iff.1 hfile).2, List.set_getElem_self]
    refine hok f v ?_
    rwa [hset]
  | none =>
    refine Disk.Ends.bind (ScratchFile.shelf_createIn h.shelf) fun r v₁ h₁ => ?_
    cases r with
    | error e => exact herror e v₁ ⟨h.length, h₁⟩
    | ok f =>
      refine hok f v₁ ⟨(List.length_set ..).trans h.length, h₁.perm ?_⟩
      have hperm := ((made_perm hfile).trans (List.Perm.refl _)).cons f
      exact (hperm.trans (made_set_perm hlt (some f)).symm).append_right rest

theorem Shelved.flush (h : s.Shelved dir rest n v) (hl : level < n) :
    (s.flush dir level).Ends v fun s' v' => s'.Shelved dir rest n v' := by
  rw [Split.flush]
  split
  · exact Disk.ends_pure h
  · refine h.open hl (fun f v₁ h₁ => ?_) fun e v₁ h₁ => h₁.failed hl e
    have hf : f ∈ ({ s with files := s.files.set level (some f) } : Split).made ++ rest := by
      have hlt : level < s.files.length := h.length ▸ hl
      exact List.mem_append_left _ ((made_set_perm hlt (some f)).mem_iff.2 (List.mem_cons_self ..))
    refine Disk.Ends.bind (ScratchFile.keepsShelf_append hf _ v₁ h₁.shelf) fun r v₂ h₂ => ?_
    cases r with
    | ok _ => exact Disk.ends_pure ⟨h₁.length, h₂⟩
    | error e => exact Shelved.failed ⟨h₁.length, h₂⟩ hl e

theorem Shelved.visit (h : s.Shelved dir rest (path.length + 1) v) (e : Entry) :
    (s.visit path dir e).Ends v fun s' v' => s'.Shelved dir rest (path.length + 1) v' := by
  rw [Split.visit]
  split
  · exact Disk.ends_pure h
  · have hpending : ∀ pending,
        ({ s with pending } : Split).Shelved dir rest (path.length + 1) v :=
      fun _ => ⟨h.length, h.shelf⟩
    dsimp only
    split
    · exact (hpending _).flush (Nat.lt_succ_of_le (Key.levelOf_le path e.key))
    · exact Disk.ends_pure (hpending _)

theorem Shelved.flushAll (h : s.Shelved dir rest n v) {levels : List Nat}
    (hl : ∀ level ∈ levels, level < n) :
    (Split.flushAll dir levels s).Ends v fun s' v' => s'.Shelved dir rest n v' := by
  induction levels generalizing s v with
  | nil => exact Disk.ends_pure h
  | cons level levels ih =>
    obtain ⟨hlevel, hlevels⟩ := List.forall_mem_cons.1 hl
    refine (h.flush hlevel).bind fun s₁ v₁ h₁ => ?_
    split
    · exact Disk.ends_pure h₁
    · exact ih h₁ hlevels

theorem shelved_start (h : v.Shelf dir rest) (n : Nat) :
    (Split.start n).Shelved dir rest n v := by
  refine ⟨List.length_replicate .., ?_⟩
  have hmade : (Split.start n).made = [] := by simp [made, start]
  rwa [hmade]

/-- A split that is over hands its files on, or releases them after a failure. -/
theorem Shelved.conclude (h : s.Shelved dir rest n v) (visits : Except StorageError Nat) :
    (match visits, s.failure with
      | .error e, _ | .ok _, some e => do
        ScratchFile.releaseAll s.made
        throw e
      | .ok _, none => return s.files : TryDisk (List (Option ScratchFile))).Ends v
      (fun files v' => files.length = n ∧ v'.Shelf dir (files.filterMap id ++ rest))
      fun _ v' => v'.Shelf dir rest := by
  have hgone : ∀ e : StorageError, (do
      ScratchFile.releaseAll s.made
      throw e : TryDisk (List (Option ScratchFile))).Ends v
      (fun files v' => files.length = n ∧ v'.Shelf dir (files.filterMap id ++ rest))
      fun _ v' => v'.Shelf dir rest := fun e =>
    (TryDisk.ends_lift (ScratchFile.shelf_releaseAll h.shelf)).bind fun _ _ h₁ =>
      TryDisk.ends_throw h₁
  split
  · exact hgone _
  · exact hgone _
  · exact TryDisk.ends_pure ⟨h.length, h.shelf⟩

end Bulk.Split

/-- Splitting a file takes it away; the files of the levels take its place, unless it fails. -/
theorem Bulk.shelf_splitByLevel {v : Volume} {dir : Path} {source : ScratchFile}
    {held : List ScratchFile} (h : v.Shelf dir (source :: held)) (path : Key) :
    (splitByLevel path source dir).Ends v
      (fun files v' => files.length = path.length + 1 ∧
        v'.Shelf dir (files.filterMap id ++ held))
      fun _ v' => v'.Shelf dir held := by
  have hvisit : ∀ (done : List Entry) (s : Split) (v : Volume) (e : Entry),
      s.Shelved dir (source :: held) (path.length + 1) v →
      (s.visit path dir e).Ends v fun s' v' =>
        s'.Shelved dir (source :: held) (path.length + 1) v' := fun _ _ _ e hs => hs.visit e
  have hscan := ends_scan (p := source.path) h.tree hvisit fun v₁ hw =>
    Split.shelved_start (h.untouched hw) _
  refine (TryDisk.ends_lift hscan).bind fun r v₁ h₁ => ?_
  obtain ⟨s, visits⟩ := r
  have hs : s.Shelved dir (source :: held) (path.length + 1) v₁ := by
    cases visits with
    | ok m => exact h₁.choose_spec.2.2
    | error e => exact h₁.choose_spec
  refine (TryDisk.ends_lift (ScratchFile.shelf_release
    (hs.shelf.perm List.perm_middle))).bind fun _ v₂ h₂ => ?_
  have hs₂ : s.Shelved dir held (path.length + 1) v₂ := ⟨hs.length, h₂⟩
  split
  · refine (TryDisk.ends_lift (hs₂.flushAll fun level hlevel =>
      List.mem_range.1 hlevel)).bind fun s₃ v₃ h₃ => ?_
    exact h₃.conclude visits
  · exact hs₂.conclude visits

end TrieOverlay
