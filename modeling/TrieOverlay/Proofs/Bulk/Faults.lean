import TrieOverlay.Bulk.ScratchFile
import TrieOverlay.Proofs.Bulk.Content
import TrieOverlay.Proofs.Disk.Faults

/-!
# Bulk files on a volume on which any call may fail

What reading and writing a bulk file comes to, whatever calls fail on the way.  Reading that
succeeds gives what the bytes of the file hold (`Bulk.ends_readEntries`), writing that succeeds adds
the bytes of the new lines (`Bulk.ends_writeLines`), and a file that is replaced has either its new
bytes or, unless it is itself named like a staging file, those that it had
(`Bulk.ends_overwrite`).  A new scratch file has a name that was not made up before
(`ScratchFile.ends_createIn`).
-/

namespace TrieOverlay

open Volume (IsTree Writes)

namespace Bulk

variable {v v' : Volume} {p : Path}

/-- The entries of a file, where a file that is missing counts as empty. -/
def entriesAt (content : Option Bytes) : Option (List Entry) :=
  entriesOf (content.getD [])

/-! ### Reading -/

/-- The entry of a line, if it has one. -/
def entriesOfText (text : String) : List Entry :=
  if Text.isBlankText text then [] else (Line.decode? text).toList

/-- The entries of some lines, if all of them are UTF-8. -/
def entriesOfLines (lines : List Bytes) : Option (List Entry) :=
  (lines.mapM Utf8.decode?).map (·.flatMap entriesOfText)

theorem entriesOf_eq (bytes : Bytes) : entriesOf bytes = entriesOfLines (splitLines bytes) := by
  have hflat : ∀ texts : List String,
      (texts.filter fun l => !Text.isBlankText l).filterMap Line.decode? =
        texts.flatMap entriesOfText := by
    intro texts
    induction texts with
    | nil => rfl
    | cons text texts ih =>
      rw [List.flatMap_cons, ← ih, entriesOfText]
      cases hblank : Text.isBlankText text
      · cases hdecode : Line.decode? text <;> simp [hblank, hdecode]
      · simp [hblank]
  rw [entriesOf, linesOf, entriesOfLines]
  cases (splitLines bytes).mapM Utf8.decode? with
  | none => rfl
  | some texts => exact congrArg some (hflat texts)

theorem entriesOfLines_cons {line : Bytes} {text : String} (h : Utf8.decode? line = some text)
    (rest : List Bytes) :
    entriesOfLines (line :: rest) = (entriesOfLines rest).map (entriesOfText text ++ ·) := by
  rw [entriesOfLines, entriesOfLines, List.mapM_cons, h]
  cases rest.mapM Utf8.decode? <;> rfl

section Scan

variable {σ : Type} {visit : σ → Entry → Disk σ} {Inv : List Entry → σ → Volume → Prop}
  {lines : List Bytes} {done : List Entry} {s : σ} {n : Nat}

/-- What holds after a scan of some lines that began when some entries were visited: after a whole
scan what holds of them and all entries of the lines, else what holds of some entries. -/
def Scanned (Inv : List Entry → σ → Volume → Prop) (lines : List Bytes) (done : List Entry)
    (n : Nat) : σ × Except StorageError Nat → Volume → Prop
  | (s, .ok m), v => ∃ es, entriesOfLines lines = some es ∧ m = n + es.length ∧ Inv (done ++ es) s v
  | (s, .error _), v => ∃ es, Inv es s v

theorem Scanned.cons {line : Bytes} {text : String} (htext : Utf8.decode? line = some text)
    {r : σ × Except StorageError Nat} {seen : List Entry} (hseen : entriesOfText text = seen)
    (h : Scanned Inv lines (done ++ seen) (n + seen.length) r v) :
    Scanned Inv (line :: lines) done n r v := by
  obtain ⟨s, m | m⟩ := r
  · exact h
  · obtain ⟨es, hes, hm, hinv⟩ := h
    refine ⟨seen ++ es, by rw [entriesOfLines_cons htext, hes, hseen]; rfl, ?_, ?_⟩
    · rw [hm, List.length_append, Nat.add_assoc]
    · rwa [← List.append_assoc]

/-- What every visit keeps holds after a scan. -/
theorem ends_scanLines
    (hvisit : ∀ done s v e, Inv done s v →
      (visit s e).Ends v fun s' v' => Inv (done ++ [e]) s' v')
    (h : Inv done s v) : (scanLines p visit lines s n).Ends v (Scanned Inv lines done n) := by
  induction lines generalizing done s n v with
  | nil => exact Disk.ends_pure ⟨[], rfl, rfl, by rwa [List.append_nil]⟩
  | cons line rest ih =>
    rw [scanLines]
    cases htext : Utf8.decode? line with
    | none => exact Disk.ends_pure ⟨done, h⟩
    | some text =>
      -- a line that is blank or no entry is passed over
      have hpass : entriesOfText text = [] →
          (scanLines p visit rest s n).Ends v (Scanned Inv (line :: rest) done n) := fun hseen =>
        (ih (n := n) h).imp fun r v' hr =>
          Scanned.cons htext hseen (by rwa [List.append_nil])
      cases hblank : Text.isBlankText text with
      | true =>
        simp only [hblank, if_true]
        exact hpass (by simp [entriesOfText, hblank])
      | false =>
        cases hdecode : Line.decode? text with
        | none =>
          simp only [hblank, hdecode]
          exact hpass (by simp [entriesOfText, hdecode])
        | some e =>
          simp only [hblank, hdecode]
          refine (hvisit done s v e h).bind fun s₁ v₁ h₁ => ?_
          exact (ih h₁).imp fun r v' hr =>
            Scanned.cons htext (by simp [entriesOfText, hblank, hdecode]) hr

/-- What holds after a scan of a file. -/
theorem ends_scan (ht : v.IsTree)
    (hvisit : ∀ done s v e, Inv done s v →
      (visit s e).Ends v fun s' v' => Inv (done ++ [e]) s' v')
    (h : ∀ v₁, Writes [] v v₁ → Inv [] s v₁) :
    (scan p visit s).Ends v fun r v' =>
      match r with
      | (s', .ok m) => ∃ es, entriesAt (v.bytes? p) = some es ∧ m = es.length ∧ Inv es s' v'
      | (s', .error _) => ∃ es, Inv es s' v' := by
  refine Disk.Ends.bind (ht.ends_readIfPresent p) fun found v₁ hfound => ?_
  cases found with
  | error e => exact Disk.ends_pure ⟨[], h v₁ hfound⟩
  | ok found =>
    obtain ⟨hw, rfl⟩ := hfound
    cases hb : v.bytes? p with
    | none => exact Disk.ends_pure ⟨[], entriesOf_nil, rfl, h v₁ hw⟩
    | some bytes =>
      refine (ends_scanLines hvisit (h v₁ hw)).imp fun r v' hr => ?_
      obtain ⟨s', m | m⟩ := r
      · exact hr
      · obtain ⟨es, hes, hm, hinv⟩ := hr
        exact ⟨es, (entriesOf_eq bytes).trans hes, by rw [hm, Nat.zero_add], hinv⟩

end Scan

theorem ends_readEntries (ht : v.IsTree) (p : Path) :
    (readEntries p).Ends v
      (fun es v' => Writes [] v v' ∧ entriesAt (v.bytes? p) = some es)
      fun _ v' => Writes [] v v' := by
  have hvisit : ∀ (done : List Entry) (s : List Entry) (v₁ : Volume) (e : Entry),
      s = done.reverse ∧ Writes [] v v₁ →
      (pure (e :: s) : Disk (List Entry)).Ends v₁ fun s' v' =>
        s' = (done ++ [e]).reverse ∧ Writes [] v v' := by
    rintro done s v₁ e ⟨rfl, hw⟩
    exact Disk.ends_pure ⟨by simp, hw⟩
  refine (ends_scan ht hvisit fun v₁ hw => ⟨rfl, hw⟩).bind fun r v₁ hr => ?_
  obtain ⟨s, e | m⟩ := r
  · obtain ⟨es, -, hw⟩ := hr
    exact Disk.ends_pure hw
  · obtain ⟨es, hes, -, rfl, hw⟩ := hr
    exact Disk.ends_pure ⟨hw, by rw [hes, List.reverse_reverse]⟩

theorem ends_countEntries (ht : v.IsTree) (p : Path) :
    (countEntries p).Ends v
      (fun n v' => Writes [] v v' ∧ ∃ es, entriesAt (v.bytes? p) = some es ∧ n = es.length)
      fun _ v' => Writes [] v v' := by
  have hvisit : ∀ (done : List Entry) (s : Unit) (v₁ : Volume) (e : Entry),
      Writes [] v v₁ → (pure s : Disk Unit).Ends v₁ fun _ v' => Writes [] v v' :=
    fun _ _ _ _ hw => hw
  refine Disk.Ends.bind (ends_scan ht hvisit fun v₁ hw => hw) fun r v₁ hr => ?_
  obtain ⟨s, e | m⟩ := r
  · obtain ⟨es, hw⟩ := hr
    exact Disk.ends_pure hw
  · obtain ⟨es, hes, hm, hw⟩ := hr
    exact Disk.ends_pure ⟨hw, es, hes, hm⟩

/-! ### Writing -/

/-- What holds after something was, or was not, written at the end of a file. -/
theorem ends_writeLines (ht : v.IsTree) (p : Path) (lines : List String) :
    (writeLines p lines).Ends v
      (fun _ v' => Writes [p] v v' ∧
        v'.bytes? p = some ((v.bytes? p).getD [] ++ bytesOfLines lines))
      fun _ v' => Writes [p] v v' ∧ ((v.bytes? p).isSome → (v'.bytes? p).isSome) := by
  refine (ht.ends_touch p).bind_imp (fun _ v₁ hw => ?_) fun _ v₁ ⟨hw₁, hb₁⟩ => ?_
  · refine ⟨hw.mono (List.nil_subset _), ?_⟩
    rw [hw.spares p List.not_mem_nil]
    exact id
  cases lines with
  | nil => exact TryDisk.ends_pure ⟨hw₁, by rw [hb₁, bytesOfLines]; simp⟩
  | cons l ls =>
    refine (hw₁.tree.ends_append p (bytesOfLines (l :: ls))).imp ?_ ?_
    · rintro _ v' ⟨hw, old, hold, hb⟩
      rw [hb₁] at hold
      cases hold
      exact ⟨hw₁.trans hw, hb⟩
    · rintro _ v' ⟨hw, hsome⟩
      refine ⟨hw₁.trans hw, fun _ => ?_⟩
      rw [hsome, hb₁]
      rfl

theorem ends_append (ht : v.IsTree) (p : Path) (entries : List Entry) :
    (append p entries).Ends v
      (fun n v' => n = (entries.filterMap Line.encode?).length ∧ Writes [p] v v' ∧
        v'.bytes? p = some ((v.bytes? p).getD [] ++ writeEntries entries))
      fun _ v' => Writes [p] v v' ∧ ((v.bytes? p).isSome → (v'.bytes? p).isSome) :=
  (ends_writeLines ht p _).bind fun _ _ h => TryDisk.ends_pure ⟨rfl, h⟩

theorem ends_appendLines (ht : v.IsTree) (p : Path) (lines : List String) :
    (appendLines p lines).Ends v
      (fun _ v' => Writes [p] v v' ∧
        v'.bytes? p = some ((v.bytes? p).getD [] ++ bytesOfLines (lines.map Text.trimEnd)))
      fun _ v' => Writes [p] v v' ∧ ((v.bytes? p).isSome → (v'.bytes? p).isSome) :=
  (ends_writeLines ht p _).bind fun _ _ h => TryDisk.ends_pure h

/-- A file is replaced as a whole or, if the new version cannot be put in its place, only what is
beside it has changed. -/
theorem ends_overwrite (ht : v.IsTree) (p : Path) (entries : List Entry) :
    (overwrite p entries).Ends v
      (fun _ v' => Writes [stagingPath p, p] v v' ∧ v'.bytes? p = some (writeEntries entries))
      fun _ v' => Writes [stagingPath p] v v' := by
  rw [overwrite]
  refine (ht.ends_removeIfPresent (stagingPath p)).bind_imp
    (fun _ _ hw => hw.mono (List.nil_subset _)) fun _ v₁ ⟨hw₁, hb₁⟩ => ?_
  refine (ends_append hw₁.tree (stagingPath p) entries).bind_imp
    (fun _ _ h => hw₁.trans h.1) fun _ v₂ ⟨_, hw₂, hb₂⟩ => ?_
  refine (hw₂.tree.ends_rename (stagingPath p) p).imp ?_ ?_
  · rintro _ v₃ ⟨hw₃, hb₃⟩
    refine ⟨((hw₁.trans hw₂).mono (by simp)).trans hw₃, ?_⟩
    rw [hb₃, hb₂, hb₁]
    rfl
  · rintro _ v₃ hw₃
    exact (hw₁.trans hw₂).trans (hw₃.mono (List.nil_subset _))

end Bulk

/-! ### Scratch files -/

namespace ScratchFile

variable {v : Volume}

/-- A new file has a name that was not made up before, and is empty. -/
theorem ends_createIn (ht : v.IsTree) (dir : Path) :
    (createIn dir).Ends v
      (fun f v' => ∃ k, v.serial ≤ k ∧ k < v'.serial ∧ f.path = dir.child (nameOf k) ∧
        Writes [f.path] v v' ∧ v'.bytes? f.path = some [])
      fun _ v' => Writes [] v v' := by
  refine (ht.ends_createDirectories dir).bind fun _ v₁ hw₁ => ?_
  refine (TryDisk.ends_lift hw₁.tree.ends_nextSerial).bind fun n v₂ ⟨hn, hw₂, hs₂⟩ => ?_
  refine (hw₂.tree.ends_clear (dir.child (nameOf n))).bind_imp
    (fun _ _ hw => (hw₁.trans hw₂).trans hw) fun _ v₃ ⟨hw₃, hb₃⟩ => ?_
  refine TryDisk.ends_pure ⟨n, hn ▸ hw₁.serial, ?_, rfl, ?_, hb₃⟩
  · exact Nat.lt_of_lt_of_le (by rw [hs₂, hn]; exact Nat.lt_succ_self _) hw₃.serial
  · exact ((hw₁.trans hw₂).mono (List.nil_subset _)).trans hw₃

theorem ends_release (ht : v.IsTree) (f : ScratchFile) :
    f.release.Ends v fun _ v' => Writes [f.path] v v' ∧ v'.bytes? f.path = none :=
  ht.ends_discard f.path

/-- A file that is used is released if that fails. -/
theorem ends_orRelease {α : Type} {f : ScratchFile} {act : TryDisk α} {P : α → Volume → Prop}
    {Q Q' : StorageError → Volume → Prop} (h : act.Ends v P Q')
    (hQ : ∀ e v₁, Q' e v₁ → f.release.Ends v₁ fun _ v' => Q e v') :
    (f.orRelease act).Ends v P Q :=
  h.tryCatch fun e v₁ he => (TryDisk.ends_lift (hQ e v₁ he)).bind fun _ _ => TryDisk.ends_throw

end ScratchFile

end TrieOverlay
