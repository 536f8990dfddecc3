import Mathlib.Logic.Function.Basic
import TrieOverlay.Proofs.Bulk.AsList

/-!
# Files beside each other

Bulk lists and scratch files lie beside each other (`Neighbours`), and operations go through one
after the other of them.  What a call on a list may write is the file of the list, a file with a new
name and, if the call edits entries, the file under whose name the new version of the list is
written first (`BulkList.Call.ends_writes`).  That name is made from the name of the list, and a
neighbour may have it: then an edit takes the neighbour away (`BulkList.run_remove_staged`).  So no
operation disturbs a neighbour, whatever calls fail, if and only if no neighbour has the name of a
new version (`Neighbours.undisturbed_iff`).
-/

namespace TrieOverlay

open Volume (IsTree Writes HasFile)

variable {v v' : Volume} {ps qs : List Path}

/-! ### What a call may write -/

/-- What holds whether or not a computation fails. -/
theorem TryDisk.Ends.run {α : Type} {act : TryDisk α} {P : Volume → Prop}
    (h : act.Ends v (fun _ v' => P v') fun _ v' => P v') : act.run.Ends v fun _ v' => P v' := by
  refine Disk.Ends.imp h fun r v' hr => ?_
  cases r <;> exact hr

/-- The files at some paths are written, and perhaps one with a new name. -/
def Volume.WritesOrMakes (ps : List Path) (v v' : Volume) : Prop :=
  ∃ (dir : Path) (k : Nat), v.serial ≤ k ∧ Writes (dir.child (ScratchFile.nameOf k) :: ps) v v'

open Volume (WritesOrMakes)

theorem Volume.Writes.orMakes (h : Writes qs v v') (hs : qs ⊆ ps) : WritesOrMakes ps v v' :=
  ⟨.root, v.serial, Nat.le_refl _, h.mono (List.Subset.trans hs (List.subset_cons_self ..))⟩

namespace Volume.WritesOrMakes

variable {q : Path}

theorem tree (h : WritesOrMakes ps v v') : v'.IsTree := by
  obtain ⟨dir, k, -, hw⟩ := h
  exact hw.tree

theorem serial (h : WritesOrMakes ps v v') : v.serial ≤ v'.serial := by
  obtain ⟨dir, k, -, hw⟩ := h
  exact hw.serial

/-- A file is spared that has another path and no new name. -/
theorem spares (h : WritesOrMakes ps v v') (hq : q ∉ ps) (hnew : v.Avoids q) :
    v'.bytes? q = v.bytes? q := by
  obtain ⟨dir, k, hk, hw⟩ := h
  exact hw.spares q (List.not_mem_cons_of_ne_of_not_mem (hnew dir k hk) hq)

theorem avoids (h : WritesOrMakes ps v v') (hnew : v.Avoids q) : v'.Avoids q :=
  fun dir k hk => hnew dir k (Nat.le_trans h.serial hk)

end Volume.WritesOrMakes

namespace BulkList

variable {l : BulkList}

/-- The files that a call on a list may write, apart from one with a new name. -/
def Call.written (l : BulkList) : Call → List Path
  | remove _ | update _ => [Bulk.stagingPath l.path, l.path]
  | add _ | takeAll | takeInto _ | clear | reopen => [l.path]
  | read _ | get _ | count | isEmpty => []

theorem Call.mem_written {c : Call} {q : Path} (h : q ∈ c.written l) :
    q = l.path ∨ q = Bulk.stagingPath l.path := by
  cases c <;> simp [written] at h <;> tauto

section Kinds

variable {γ : Type} {P : Volume → Prop}

theorem ends_report_of {act : TryDisk γ} {reply : γ → Reply ScratchFile × BulkList}
    (h : act.Ends v (fun _ v' => P v') fun _ v' => P v') :
    (l.report act reply).Ends v fun _ v' => P v' := by
  refine h.run.bind fun r v₁ hr => ?_
  cases r <;> exact hr

theorem ends_keepToItself_of {reading : TryDisk γ} {act : Disk (Reply ScratchFile × BulkList)}
    (h : act.Ends v fun _ v' => P v') : (keepToItself reading act).Ends v fun _ v' => P v' :=
  Disk.Ends.bind_get (h.bind fun _ _ hr => Disk.ends_pure hr)

end Kinds

theorem ends_tryRewrite_writes (ht : v.IsTree) (edit : List Entry → Nat × List Entry) :
    (l.tryRewrite edit).Ends v
      (fun _ v' => WritesOrMakes [Bulk.stagingPath l.path, l.path] v v')
      fun _ v' => WritesOrMakes [Bulk.stagingPath l.path, l.path] v v' :=
  (ends_tryRewrite ht l edit).imp (fun _ _ ⟨_, _, _, hw, _⟩ => hw.orMakes (List.Subset.refl _))
    fun _ _ hw => hw.orMakes (by simp)

/-- Whatever fails inside, a call writes the files of the list that it may write, and perhaps one
with a new name. -/
theorem Call.ends_writes (c : Call) (ht : v.IsTree) (hl : v.Avoids l.path) :
    (c.perform l).Ends v fun _ v' => WritesOrMakes (c.written l) v v' := by
  cases c with
  | add entries =>
    exact ends_report_of ((ends_tryAdd ht l entries).imp
      (fun _ _ h => h.2.1.orMakes (List.Subset.refl _))
      fun _ _ hw => hw.orMakes (List.Subset.refl _))
  | remove removed => exact ends_report_of (ends_tryRewrite_writes ht _)
  | update updates => exact ends_report_of (ends_tryRewrite_writes ht _)
  | takeAll =>
    exact ends_report_of ((ends_takeAll ht l).imp
      (fun _ _ ⟨_, _, _, hw, _⟩ => hw.orMakes (List.Subset.refl _))
      fun _ _ hw => hw.orMakes (List.nil_subset _))
  | takeInto dir =>
    exact ends_report_of ((ends_takeInto_writes ht l hl dir).imp
      (fun _ _ ⟨_, _, ⟨k, hk, hw⟩, _⟩ => ⟨dir, k, hk, hw⟩)
      fun _ _ ⟨k, hk, hw⟩ => ⟨dir, k, hk, hw.mono (by simp)⟩)
  | clear =>
    exact ends_report_of ((ends_clear ht l).imp
      (fun _ _ h => h.2.1.orMakes (List.Subset.refl _))
      fun _ _ hw => hw.orMakes (List.nil_subset _))
  | read below =>
    exact ends_report_of ((ends_tryGet ht l below).imp
      (fun _ _ h => h.1.orMakes (List.Subset.refl _))
      fun _ _ hw => hw.orMakes (List.Subset.refl _))
  | get below =>
    exact ends_keepToItself_of ((ends_get ht l below).bind fun _ _ h =>
      Disk.ends_pure (h.1.orMakes (List.Subset.refl _)))
  | count =>
    exact ends_keepToItself_of ((ends_count ht l).bind fun _ _ h =>
      Disk.ends_pure (h.1.orMakes (List.Subset.refl _)))
  | isEmpty =>
    refine ends_keepToItself_of ?_
    simp only [BulkList.isEmpty, bind_assoc, pure_bind]
    exact (ends_count ht l).bind fun _ _ h =>
      Disk.ends_pure (h.1.orMakes (List.Subset.refl _))
  | reopen =>
    exact ends_report_of ((ends_openAt ht l.path).imp
      (fun _ _ h => h.2.1.orMakes (List.Subset.refl _))
      fun _ _ hw => hw.orMakes (List.nil_subset _))

end BulkList

/-! ### An edit beside a file with the name of the new version -/

namespace Bulk

variable {p : Path} {bytes other : Bytes}

/-- A file that is not there is made when lines are written to it. -/
theorem run_writeLines_new (hs : v.schedule = []) (ho : v.obstacle? p = none)
    (hp : v.item? p = none) (lines : List String) :
    ∃ v' bytes, (writeLines p lines).run.run v = (.ok (), v') ∧ v'.schedule = [] ∧
      Volume.Keeps [p] v v' ∧ v'.HasFile p bytes := by
  have hroot : p ≠ .root := by
    rintro rfl
    simp [Volume.item?] at hp
  have hd : v.item? p ≠ some .directory := by simp [hp]
  have hf := Volume.hasFile_putFile hroot hd ho []
  have hkeeps := Volume.keeps_putFile hd []
  rw [writeLines, TryDisk.run_bind_ok (Volume.run_touch_new hs ho hp)]
  cases lines with
  | nil => exact ⟨_, [], rfl, hs, hkeeps, hf⟩
  | cons l ls =>
    have hs₁ : (v.putFile p []).schedule = [] := hs
    exact ⟨_, _, Volume.run_append hs₁ hf _, hs₁,
      hkeeps.trans (Volume.keeps_putFile hf.not_directory _), hf.putFile _⟩

/-- A file is replaced, and the file is gone that had the name of the new version. -/
theorem run_overwrite_staged (hs : v.schedule = []) (hp : v.HasFile p bytes)
    (hstaging : v.HasFile (stagingPath p) other) (hne : stagingPath p ≠ p)
    (entries : List Entry) :
    ∃ v', (overwrite p entries).run.run v = (.ok (), v') ∧ v'.bytes? (stagingPath p) = none := by
  have hremove : (Volume.removeIfPresent (stagingPath p)).run.run v =
      (.ok (), v.drop (stagingPath p)) :=
    TryDisk.run_tryCatch_ok
      (Volume.run_call hs (by simp [Volume.removeCall, hstaging.content_eq]))
  have hdrop := Volume.keeps_drop hstaging.not_directory
  obtain ⟨v₂, new, hwrite, hs₂, hkeeps, hnew⟩ := run_writeLines_new
    (v := v.drop (stagingPath p)) hs (hdrop.obstacle? hstaging.1)
    (Volume.item?_drop_self hstaging.ne_root) (entries.filterMap Line.encode?)
  have hp₂ := (hdrop.trans hkeeps).hasFile hp (by simpa using hne.symm)
  have hrename : (Volume.rename (stagingPath p) p).run.run v₂ =
      (.ok (), (v₂.drop (stagingPath p)).putFile p new) :=
    Volume.run_call hs₂ (by simp [Volume.renameCall, hnew.content_eq, hp₂.writable_eq])
  refine ⟨(v₂.drop (stagingPath p)).putFile p new, ?_, Volume.bytes?_of_item?_eq_none ?_⟩
  · have happend : (append (stagingPath p) entries).run.run (v.drop (stagingPath p)) =
        (.ok (entries.filterMap Line.encode?).length, v₂) := TryDisk.run_bind_ok hwrite
    rw [overwrite, TryDisk.run_bind_ok hremove, TryDisk.run_bind_ok happend]
    exact hrename
  · exact (Volume.item?_put_of_ne hne _).trans (Volume.item?_drop_self hnew.ne_root)

end Bulk

namespace BulkList

variable {l : BulkList} {bytes other : Bytes}

theorem run_report {γ : Type} {act : TryDisk γ} {reply : γ → Reply ScratchFile × BulkList} {a : γ}
    (h : act.run.run v = (.ok a, v')) :
    (l.report act reply).run v = ((.ok (reply a).1, (reply a).2), v') := by
  rw [report, Disk.run_bind_eq h]
  rfl

theorem run_clear (hs : v.schedule = []) (hp : v.HasFile l.path bytes) :
    (Call.clear.perform l).run v = ((.ok .done, l.renewed), v.putFile l.path []) :=
  run_report (TryDisk.run_bind_ok (Volume.run_clear hs hp))

theorem run_add (hs : v.schedule = []) (hp : v.HasFile l.path bytes) (entries : List Entry) :
    ∃ r v', ((Call.add entries).perform l).run v = ((r, l.renewed), v') ∧ v'.schedule = [] ∧
      v'.HasFile l.path (bytes ++ Bulk.writeEntries entries) := by
  have hwrite := Bulk.run_writeLines_eq hs hp (entries.filterMap Bulk.Line.encode?)
  have happend : (Bulk.append l.path entries).run.run v = (.ok _, _) := TryDisk.run_bind_ok hwrite
  have hadd : (l.tryAdd entries).run.run v = (.ok (_, l.renewed), _) := TryDisk.run_bind_ok happend
  refine ⟨.ok (.number (entries.filterMap Bulk.Line.encode?).length), _, run_report hadd, ?_⟩
  split
  · rename_i hnone
    rw [Bulk.writeEntries, hnone, Bulk.bytesOfLines, List.flatMap_nil, List.append_nil]
    exact ⟨hs, hp⟩
  · exact ⟨hs, hp.putFile _⟩

/-- An edit that touches something takes the file away that has the name of the new version. -/
theorem run_remove_staged (hs : v.schedule = []) {e : Entry} {es : List Entry}
    (hp : v.HasEntries l.path es) (he : e ∈ es)
    (hstaging : v.HasFile (Bulk.stagingPath l.path) other)
    (hne : Bulk.stagingPath l.path ≠ l.path) :
    ∃ r v', ((Call.remove [e]).perform l).run v = ((r, l.renewed), v') ∧
      v'.bytes? (Bulk.stagingPath l.path) = none := by
  have hread := Bulk.run_readEntries hs hp
  obtain ⟨bytes, hf, -⟩ := hp
  obtain ⟨v', hover, hgone⟩ :=
    Bulk.run_overwrite_staged hs hf hstaging hne (withoutIds [e.id] es).2
  have htouched : (withoutIds [e.id] es).1 > 0 := by
    rw [fst_withoutIds]
    exact List.countP_pos_iff.2 ⟨e, he, by simp⟩
  have hremove : (l.tryRemove [e]).run.run v =
      (.ok ((withoutIds [e.id] es).1, l.renewed), v') := by
    rw [tryRemove, tryRewrite, TryDisk.run_bind_ok hread]
    simp only [List.map_cons, List.map_nil, if_pos htouched]
    exact TryDisk.run_bind_ok hover
  exact ⟨.ok (.number (withoutIds [e.id] es).1), v', run_report hremove, hgone⟩

end BulkList

/-! ### Neighbours -/

/-- Bulk lists and scratch files that are used side by side. -/
structure Neighbours (ι κ : Type) where
  /-- The lists. -/
  lists : ι → BulkList
  /-- The scratch files. -/
  files : κ → ScratchFile

namespace Neighbours

variable {ι κ : Type} {n : Neighbours ι κ}

/-- The path of a list or of a scratch file. -/
def path (n : Neighbours ι κ) : ι ⊕ κ → Path
  | .inl i => (n.lists i).path
  | .inr k => (n.files k).path

/-- The neighbours with another version of a list. -/
def withList [DecidableEq ι] (n : Neighbours ι κ) (i : ι) (l : BulkList) : Neighbours ι κ :=
  { n with lists := Function.update n.lists i l }

@[simp] theorem lists_withList_self [DecidableEq ι] (i : ι) (l : BulkList) :
    (n.withList i l).lists i = l :=
  Function.update_self ..

theorem path_withList [DecidableEq ι] {i : ι} {l : BulkList} (h : l.path = (n.lists i).path) :
    (n.withList i l).path = n.path := by
  funext x
  cases x with
  | inl j =>
    by_cases hj : j = i
    · rw [hj, path, path, lists_withList_self, h]
    · simp only [path, withList, Function.update_of_ne hj]
  | inr k => rfl

/-- An operation through one of some lists and scratch files. -/
inductive Op (ι κ : Type) where
  /-- A call on a list. -/
  | call (i : ι) (c : BulkList.Call)
  /-- Adds entries to a scratch file. -/
  | append (k : κ) (entries : List Entry)
  /-- Adds lines to a scratch file. -/
  | appendLines (k : κ) (lines : List String)

namespace Op

/-- Through what an operation goes. -/
def through : Op ι κ → ι ⊕ κ
  | call i _ => .inl i
  | append k _ | appendLines k _ => .inr k

/-- Does an operation, whether or not it fails. -/
def perform [DecidableEq ι] : Op ι κ → Neighbours ι κ → Disk (Neighbours ι κ)
  | call i c, n => do
    let (_, l) ← c.perform (n.lists i)
    return n.withList i l
  | append k entries, n => do
    let _ ← ((n.files k).append entries).run
    return n
  | appendLines k lines, n => do
    let _ ← ((n.files k).appendLines lines).run
    return n

/-- The files that an operation may write, apart from one with a new name. -/
def written (n : Neighbours ι κ) : Op ι κ → List Path
  | call i c => c.written (n.lists i)
  | append k _ | appendLines k _ => [(n.files k).path]

end Op

/-- Whether every one of some operations leaves all files as they are but the one that it goes
through. -/
def Undisturbed [DecidableEq ι] : List (Op ι κ) → Neighbours ι κ → Volume → Prop
  | [], _, _ => True
  | op :: ops, n, v => (op.perform n).Ends v fun n' v' =>
    (∀ x, x ≠ op.through → v'.bytes? (n.path x) = v.bytes? (n.path x)) ∧ Undisturbed ops n' v'

/-- Whether nobody has the name of a new version of a neighbour's list. -/
def Apart (n : Neighbours ι κ) : Prop :=
  ∀ i x, x ≠ .inl i → Bulk.stagingPath (n.path (.inl i)) ≠ n.path x

/-! ### No operation disturbs a neighbour -/

/-- An operation leaves everybody where it is, and writes what it may write. -/
theorem Op.ends_perform [DecidableEq ι] (op : Op ι κ) (ht : v.IsTree)
    (hnew : ∀ x, v.Avoids (n.path x)) :
    (op.perform n).Ends v fun n' v' =>
      n'.path = n.path ∧ Volume.WritesOrMakes (op.written n) v v' := by
  cases op with
  | call i c =>
    have hc : (c.perform (n.lists i)).Ends v fun r v' =>
        r.2.path = (n.lists i).path ∧ Volume.WritesOrMakes (c.written (n.lists i)) v v' :=
      ⟨(c.ends_perform ht (hnew (.inl i))).path, c.ends_writes ht (hnew (.inl i))⟩
    exact hc.bind fun r v₁ ⟨hpath, hw⟩ => Disk.ends_pure ⟨path_withList hpath, hw⟩
  | append k entries =>
    have hk : Disk.Ends ((n.files k).append entries).run v fun _ v' =>
        Writes [(n.files k).path] v v' :=
      TryDisk.Ends.run ((Bulk.ends_append ht (n.files k).path entries).imp
        (fun _ _ h => h.2.1) fun _ _ h => h.1)
    exact hk.bind fun _ _ hw => Disk.ends_pure ⟨rfl, hw.orMakes (List.Subset.refl _)⟩
  | appendLines k lines =>
    have hk : Disk.Ends ((n.files k).appendLines lines).run v fun _ v' =>
        Writes [(n.files k).path] v v' :=
      TryDisk.Ends.run ((Bulk.ends_appendLines ht (n.files k).path lines).imp
        (fun _ _ h => h.1) fun _ _ h => h.1)
    exact hk.bind fun _ _ hw => Disk.ends_pure ⟨rfl, hw.orMakes (List.Subset.refl _)⟩

/-- An operation may write neither a neighbour's file nor one beside it that has another name. -/
theorem Op.not_mem_written (op : Op ι κ) (hpaths : Function.Injective n.path) (hapart : n.Apart)
    {x : ι ⊕ κ} (hx : x ≠ op.through) : n.path x ∉ op.written n := by
  cases op with
  | call i c =>
    intro hmem
    rcases BulkList.Call.mem_written hmem with hown | hstaging
    · exact hx (hpaths hown)
    · exact hapart i x hx hstaging.symm
  | append k entries => exact fun hmem => hx (hpaths (List.mem_singleton.1 hmem))
  | appendLines k lines => exact fun hmem => hx (hpaths (List.mem_singleton.1 hmem))

/-- If nobody has the name of a new version, no operation disturbs a neighbour, whatever calls
fail. -/
theorem undisturbed_of_apart [DecidableEq ι] (hpaths : Function.Injective n.path)
    (hapart : n.Apart) (ops : List (Op ι κ)) (ht : v.IsTree)
    (hnew : ∀ x, v.Avoids (n.path x)) : Undisturbed ops n v := by
  -- who has which path does not change, so the next operation finds what the first one found
  induction ops generalizing n v with
  | nil => trivial
  | cons op ops ih =>
    refine (op.ends_perform ht hnew).imp fun n' v' ⟨hpath, hw⟩ => ⟨fun x hx => ?_, ?_⟩
    · exact hw.spares (op.not_mem_written hpaths hapart hx) (hnew x)
    · refine ih (hpath ▸ hpaths) ?_ hw.tree fun x => hpath ▸ hw.avoids (hnew x)
      rwa [Apart, hpath]

/-! ### An operation that disturbs a neighbour -/

variable [DecidableEq ι]

/-- What is known of a call after which nobody is disturbed. -/
theorem Undisturbed.of_call {i : ι} {c : BulkList.Call} {ops : List (Op ι κ)}
    (h : Undisturbed (.call i c :: ops) n v) {l l' : BulkList} (hl : n.lists i = l)
    {r : Except StorageError (BulkList.Reply ScratchFile)}
    (hrun : (c.perform l).run v = ((r, l'), v')) (hpath : l'.path = l.path) :
    ∃ n', n'.lists i = l' ∧ n'.path = n.path ∧
      (∀ x, x ≠ .inl i → v'.bytes? (n.path x) = v.bytes? (n.path x)) ∧ Undisturbed ops n' v' := by
  subst hl
  have hop : ((Op.call i c : Op ι κ).perform n).run v = (n.withList i l', v') := by
    rw [Op.perform, Disk.run_bind_eq hrun]
    rfl
  exact ⟨n.withList i l', lists_withList_self i l', path_withList hpath, Disk.Ends.of_run h hop⟩

/-- A neighbour that has the name of a new version is taken away by an edit. -/
theorem not_undisturbed {i : ι} {x : ι ⊕ κ} (hx : x ≠ .inl i)
    (hstaging : Bulk.stagingPath (n.lists i).path = n.path x) (hne : n.path x ≠ (n.lists i).path)
    {bytes other : Bytes} (hs : v.schedule = []) (hfile : v.HasFile (n.lists i).path bytes)
    (hother : v.HasFile (n.path x) other) {e : Entry} (he : Bulk.Line.isEncodable e) :
    ¬Undisturbed [.call i .clear, .call i (.add [e]), .call i (.remove [e])] n v := by
  intro h
  obtain ⟨n₁, hl₁, hpath₁, hkept₁, h⟩ := h.of_call rfl (BulkList.run_clear hs hfile) rfl
  obtain ⟨r₂, v₂, hadd, hs₂, hfile₂⟩ :=
    BulkList.run_add (l := (n.lists i).renewed) (v := v.putFile (n.lists i).path []) hs
      (hfile.putFile []) [e]
  obtain ⟨n₂, hl₂, hpath₂, hkept₂, h⟩ := h.of_call hl₁ hadd rfl
  have hentries₂ : v₂.HasEntries (n.lists i).path [e] := by
    refine ⟨_, hfile₂, ?_⟩
    rw [List.nil_append, Bulk.entriesOf_writeEntries, List.filter_singleton, he]
    rfl
  -- the neighbour is still there when the list is edited
  have hother₂ : v₂.HasFile (n.path x) other := by
    rw [← Volume.bytes?_eq_some_iff, ← hpath₁, hkept₂ x hx, hpath₁, hkept₁ x hx]
    exact Volume.bytes?_eq_some_iff.2 hother
  obtain ⟨r₃, v₃, hremove, hgone⟩ :=
    BulkList.run_remove_staged (l := (n.lists i).renewed.renewed) hs₂ hentries₂
      (List.mem_singleton_self e) (hstaging ▸ hother₂) (hstaging ▸ hne)
  obtain ⟨-, -, -, hkept₃, -⟩ := h.of_call hl₂ hremove rfl
  have hkept := hkept₃ x hx
  rw [hpath₂, hpath₁, Volume.bytes?_eq_some_iff.2 hother₂, ← hstaging] at hkept
  exact nomatch hgone.symm.trans hkept

/-- Lists and scratch files on different files do not disturb each other, whatever is done through
them and whatever calls fail, if and only if none of them has the name of a new version of another
one's list. -/
theorem undisturbed_iff (ht : v.IsTree) (hnew : ∀ x, v.Avoids (n.path x))
    (hpaths : Function.Injective n.path) (hfiles : ∀ x, (v.bytes? (n.path x)).isSome) :
    (∀ ops schedule, Undisturbed ops n { v with schedule }) ↔ n.Apart := by
  constructor
  · intro h i x hx hstaging
    obtain ⟨bytes, hbytes⟩ := Option.isSome_iff_exists.1 (hfiles (.inl i))
    obtain ⟨other, hother⟩ := Option.isSome_iff_exists.1 (hfiles x)
    let e : Entry := ⟨⟨"a"⟩, ⟨[]⟩, "", ⟨⟨"a"⟩, ""⟩, ""⟩
    have he : Bulk.Line.isEncodable e := by decide
    exact not_undisturbed (v := { v with schedule := [] }) hx hstaging (hpaths.ne hx) rfl
      (Volume.bytes?_eq_some_iff.1 hbytes) (Volume.bytes?_eq_some_iff.1 hother) he (h _ [])
  · intro hapart ops schedule
    exact undisturbed_of_apart hpaths hapart ops ht hnew

/-- Two lists, of which one has the name of a new version of the other. -/
theorem undisturbed_iff_of_staged :
    let n : Neighbours Bool Empty :=
      ⟨fun b => ⟨Path.root.child (if b then "a.csv" else "a.rewrite"), .first, .empty⟩, Empty.elim⟩
    let v : Volume :=
      (Volume.empty.putFile (n.path (.inl true)) []).putFile (n.path (.inl false)) []
    ¬∀ ops schedule, Undisturbed ops n { v with schedule } := by
  intro n v
  have htree : v.IsTree :=
    (Volume.isTree_empty.putFile (by decide) (by decide) _).putFile (by decide) (by decide) _
  have hnew : ∀ x, v.Avoids (n.path x) := by
    rintro ((_ | _) | ⟨⟨⟩⟩) <;> exact Volume.avoids_child (by decide) v .root
  have hpaths : Function.Injective n.path := by
    rintro ((_ | _) | ⟨⟨⟩⟩) ((_ | _) | ⟨⟨⟩⟩) h <;> first | rfl | exact absurd h (by decide)
  have hfiles : ∀ x, (v.bytes? (n.path x)).isSome := by
    rintro ((_ | _) | ⟨⟨⟩⟩) <;> decide
  rw [undisturbed_iff htree hnew hpaths hfiles]
  exact fun hapart => hapart true (.inl false) (by decide) (by decide)

end Neighbours

end TrieOverlay
