import TrieOverlay.Bulk.Draft
import TrieOverlay.Proofs.Bulk.File
import TrieOverlay.Proofs.Ident

/-!
# Scratch files on a volume on which no call is refused

A new scratch file is empty and lies where nothing was (`ScratchFile.run_createIn`), so everything
that was on the volume stays.  A file of lines from elsewhere holds these lines without the blanks
at their ends, and a draft becomes a file of the bytes that it stands for
(`Bulk.Draft.run_createIn`).
-/

namespace TrieOverlay

open Volume (HasFile HasDirectory Keeps)

namespace ScratchFile

variable {α : Type} {v v' : Volume} {dir : Path} {f : ScratchFile} {bytes : Bytes}
  {es : List Entry}

theorem child_nameOf_injective {m n : Nat} (h : dir.child (nameOf m) = dir.child (nameOf n)) :
    m = n := by
  rw [Path.child, Path.child, Path.mk.injEq] at h
  exact nameOf_injective (List.singleton_inj.1 (List.append_cancel_left h))

theorem run_createIn (hv : v.Ready dir) :
    ∃ f v', (createIn dir).run.run v = (.ok f, v') ∧ v.Leads dir [] v' ∧
      f.path = dir.child (nameOf v.serial) ∧ v'.HasFile f.path [] := by
  have hfree := hv.fresh v.serial (Nat.le_refl _)
  have hreach := hv.directory.obstacle?_child (nameOf v.serial)
  have hroot := Volume.child_ne_root dir (nameOf v.serial)
  let counted : Volume := { v with serial := v.serial + 1 }
  have hnotDir : counted.item? (dir.child (nameOf v.serial)) ≠ some .directory := by
    change v.item? _ ≠ _
    simp [hfree]
  have hkeeps : Keeps [dir.child (nameOf v.serial)] v
      (counted.putFile (dir.child (nameOf v.serial)) []) :=
    Volume.keeps_putFile hnotDir []
  refine ⟨⟨dir.child (nameOf v.serial)⟩, counted.putFile (dir.child (nameOf v.serial)) [], ?_,
    Volume.Leads.of_cons ⟨⟨hv.schedule, hkeeps.hasDirectory hv.directory, ?_⟩, hkeeps,
      Nat.le_succ _⟩ hfree, rfl, Volume.hasFile_putFile hroot hnotDir hreach []⟩
  · rw [createIn, TryDisk.run_bind_ok (Volume.run_createDirectories hv.schedule hv.directory),
      TryDisk.run_bind_ok (TryDisk.run_lift (Volume.run_nextSerial v)),
      TryDisk.run_bind_ok (Volume.run_clear_new (v := counted) hv.schedule hreach hfree)]
    rfl
  · intro k hk
    have hlt : v.serial < k := hk
    have hne : dir.child (nameOf k) ≠ dir.child (nameOf v.serial) := fun h =>
      Nat.ne_of_gt hlt (child_nameOf_injective h)
    rw [Volume.putFile, Volume.item?_put_of_ne hne]
    exact hv.fresh k (Nat.le_of_lt hlt)

/-- Nothing is where a new file will be. -/
theorem item?_of_new (hv : v.Ready dir) (h : f.path = dir.child (nameOf v.serial)) :
    v.item? f.path = none := by
  rw [h]
  exact hv.fresh v.serial (Nat.le_refl _)

theorem run_release (hv : v.Ready dir) (f : ScratchFile) :
    ∃ v', f.release.run v = ((), v') ∧ v.Leads dir [f.path] v' := by
  by_cases h : ∃ bytes, v.HasFile f.path bytes
  · obtain ⟨bytes, hf⟩ := h
    exact ⟨_, Volume.run_discard hf, hv.drop hf⟩
  · exact ⟨v, Volume.run_discard_of_not_hasFile (not_exists.1 h), hv.leads_refl _⟩

theorem run_orRelease {act : TryDisk α} {a : α} (h : act.run.run v = (.ok a, v')) :
    (f.orRelease act).run.run v = (.ok a, v') :=
  TryDisk.run_tryCatch_ok h

end ScratchFile

namespace Bulk

variable {v : Volume} {dir p : Path} {bytes : Bytes}

theorem run_appendLines (hv : v.Ready dir) (hf : v.HasFile p bytes) (lines : List String) :
    ∃ v', (appendLines p lines).run.run v = (.ok lines.length, v') ∧ v.Leads dir [p] v' ∧
      v'.HasFile p (bytes ++ bytesOfLines (lines.map Text.trimEnd)) := by
  obtain ⟨v', hrun, hleads, hf'⟩ := run_writeLines hv hf (lines.map Text.trimEnd)
  refine ⟨v', ?_, hleads, hf'⟩
  rw [appendLines, TryDisk.run_bind_ok hrun]
  rfl

end Bulk

namespace ScratchFile

variable {v : Volume} {dir : Path}

theorem run_ofLines (hv : v.Ready dir) {lines : List String} {es : List Entry}
    (h : Bulk.entriesOf (Bulk.bytesOfLines (lines.map Text.trimEnd)) = some es) :
    ∃ f v', (ofLines dir lines).run.run v = (.ok f, v') ∧ v.Leads dir [] v' ∧
      v.item? f.path = none ∧ v'.HasEntries f.path es := by
  obtain ⟨f, v₁, hcreate, hleads₁, hpath, hf₁⟩ := run_createIn hv
  have hfree := item?_of_new hv hpath
  obtain ⟨v₂, hwrite, hleads₂, hf₂⟩ := Bulk.run_appendLines hleads₁.ready hf₁ lines
  refine ⟨f, v₂, ?_, ((hleads₁.mono (List.nil_subset _)).trans hleads₂).of_cons hfree, hfree,
    _, hf₂, h⟩
  rw [ofLines, TryDisk.run_bind_ok hcreate]
  refine run_orRelease ?_
  rw [appendLines, TryDisk.run_bind_ok hwrite]
  rfl

end ScratchFile

/-! ### Drafts -/

namespace Bulk.Draft

variable {v : Volume} {dir p : Path} {bytes : Bytes}

/-- The bytes that a draft stands for. -/
def content (d : Draft) : Bytes :=
  d.bytes.getD <| writeEntries (d.entries.getD []) ++
    bytesOfLines ((d.lines.getD []).map Text.trimEnd)

/-- The last part of writing a draft. -/
theorem run_writeBytes (hv : v.Ready dir) (hf : v.HasFile p bytes) (raw : Option Bytes) :
    ∃ v', (match raw with
        | some more => Volume.extend p more
        | _ => pure () : TryDisk Unit).run.run v = (.ok (), v') ∧ v.Leads dir [p] v' ∧
      v'.HasFile p (bytes ++ raw.getD []) := by
  cases raw with
  | none => exact ⟨v, rfl, hv.leads_refl _, by simpa using hf⟩
  | some more => exact run_extend hv hf more

/-- The last two parts of writing a draft. -/
theorem run_writeRest (hv : v.Ready dir) (hf : v.HasFile p bytes) (lines : Option (List String))
    (raw : Option Bytes) :
    ∃ v', (match lines with
        | some ls => do
          let _ ← appendLines p ls
          match raw with
            | some more => Volume.extend p more
            | _ => pure ()
        | _ => match raw with
          | some more => Volume.extend p more
          | _ => pure () : TryDisk Unit).run.run v = (.ok (), v') ∧ v.Leads dir [p] v' ∧
      v'.HasFile p
        (bytes ++ bytesOfLines ((lines.getD []).map Text.trimEnd) ++ raw.getD []) := by
  cases lines with
  | none => simpa [bytesOfLines] using run_writeBytes hv hf raw
  | some ls =>
    obtain ⟨v₁, hrun₁, hleads₁, hf₁⟩ := run_appendLines hv hf ls
    obtain ⟨v₂, hrun₂, hleads₂, hf₂⟩ := run_writeBytes hleads₁.ready hf₁ raw
    exact ⟨v₂, (TryDisk.run_bind_ok hrun₁).trans hrun₂, hleads₁.trans hleads₂, hf₂⟩

theorem run_write (hv : v.Ready dir) (hf : v.HasFile p bytes) (d : Draft) :
    ∃ v', (d.write p).run.run v = (.ok (), v') ∧ v.Leads dir [p] v' ∧
      v'.HasFile p (bytes ++ writeEntries (d.entries.getD []) ++
        bytesOfLines ((d.lines.getD []).map Text.trimEnd) ++ d.bytes.getD []) := by
  obtain ⟨entries, lines, raw⟩ := d
  cases entries with
  | none =>
    obtain ⟨v', hrun, hleads, hf'⟩ := run_writeRest hv hf lines raw
    exact ⟨v', hrun, hleads, by simpa [writeEntries, bytesOfLines] using hf'⟩
  | some es =>
    obtain ⟨n, v₁, hrun₁, hleads₁, hf₁⟩ := run_append_hasFile hv hf es
    obtain ⟨v₂, hrun₂, hleads₂, hf₂⟩ := run_writeRest hleads₁.ready hf₁ lines raw
    exact ⟨v₂, (TryDisk.run_bind_ok hrun₁).trans hrun₂, hleads₁.trans hleads₂, hf₂⟩

theorem run_createIn (hv : v.Ready dir) (d : Draft) :
    ∃ f v', (d.createIn dir).run.run v = (.ok f, v') ∧ v.Leads dir [] v' ∧
      v.item? f.path = none ∧ v'.HasFile f.path d.content := by
  obtain ⟨f, v₁, hcreate, hleads₁, hpath, hf₁⟩ := ScratchFile.run_createIn hv
  have hfree := ScratchFile.item?_of_new hv hpath
  obtain ⟨v₂, hwrite, hleads₂, hf₂⟩ := run_write hleads₁.ready hf₁ d
  have hleads := (hleads₁.mono (List.nil_subset _)).trans hleads₂
  refine ⟨f, ?_⟩
  rw [createIn, TryDisk.run_bind_ok hcreate]
  cases hd : d.bytes with
  -- raw bytes take the place of what was written before them
  | none =>
    refine ⟨v₂, ScratchFile.run_orRelease ?_, hleads.of_cons hfree, hfree, ?_⟩
    · rw [TryDisk.run_bind_ok hwrite]
      rfl
    · simpa [content, hd] using hf₂
  | some raw =>
    obtain ⟨v₃, hclear, hleads₃, hf₃⟩ := run_clear hleads₂.ready hf₂
    refine ⟨v₃.putFile f.path raw, ScratchFile.run_orRelease ?_,
      ((hleads.trans hleads₃).trans (hleads₃.ready.putFile hf₃ raw)).of_cons hfree, hfree, ?_⟩
    · rw [TryDisk.run_bind_ok hwrite]
      refine (TryDisk.run_bind_ok hclear).trans ?_
      exact TryDisk.run_bind_ok (Volume.run_append hleads₃.ready.schedule hf₃ raw)
    · simpa [content, hd] using hf₃.putFile raw

end Bulk.Draft

end TrieOverlay
