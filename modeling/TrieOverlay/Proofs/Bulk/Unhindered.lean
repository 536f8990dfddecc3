import TrieOverlay.Proofs.Bulk.Calls
import TrieOverlay.Proofs.Bulk.ScratchFile

/-!
# When nothing is in the way, no call fails

`Volume.Unhindered dir ps v` says that nothing is in the way of calls that write the files at `ps`
and make scratch files in `dir`: the schedule lets every call pass, the files can be reached and
are no directories, and neither are the names in `dir` that are made up next.  This stays so, and no
call on a bulk list fails (`BulkList.Call.succeeds`): only what is in the way can make one fail.
-/

namespace TrieOverlay

open Volume (HasFile HasDirectory)

section Never

variable {α β : Type} {v v' : Volume} {act : TryDisk α} {P P' : α → Volume → Prop}
  {Q : StorageError → Volume → Prop}

/-- What holds after a computation that does not fail. -/
def TryDisk.Succeeds (act : TryDisk α) (v : Volume) (P : α → Volume → Prop) : Prop :=
  act.Ends v P fun _ _ => False

theorem TryDisk.Succeeds.and (h : act.Succeeds v P) (h' : act.Ends v P' Q) :
    act.Succeeds v fun a v' => P a v' ∧ P' a v' := by
  cases hrun : act.run.run v with
  | mk r v' =>
    rw [Succeeds, Ends] at h
    have hr := h.of_run hrun
    have hr' := Disk.Ends.of_run h' hrun
    rw [Succeeds, Ends, Disk.Ends, hrun]
    cases r with
    | ok a => exact ⟨hr, hr'⟩
    | error e => exact hr

theorem TryDisk.Succeeds.of_run {a : α} (hrun : act.run.run v = (.ok a, v')) (h : P a v') :
    act.Succeeds v P := by
  rw [Succeeds, Ends, Disk.Ends, hrun]
  exact h

theorem TryDisk.Succeeds.bind {f : α → TryDisk β} {P : β → Volume → Prop}
    (h : act.Succeeds v P') (hf : ∀ a v₁, P' a v₁ → (f a).Succeeds v₁ P) :
    (act >>= f).Succeeds v P :=
  Ends.bind h hf

end Never

namespace Volume

variable {v v' : Volume} {dir p q : Path} {ps : List Path} {bytes : Bytes}

/-! ### What is not in the way -/

/-- Nothing is in the way of calls that write the files at some paths and make scratch files in a
directory. -/
structure Unhindered (dir : Path) (ps : List Path) (v : Volume) : Prop where
  schedule : v.schedule = []
  directory : v.HasDirectory dir
  reach : ∀ p ∈ ps, v.obstacle? p = none ∧ v.item? p ≠ some .directory
  fresh : ∀ k, v.serial ≤ k → v.item? (dir.child (ScratchFile.nameOf k)) = none ∧
    dir.child (ScratchFile.nameOf k) ∉ ps

/-- Changing what is at one of the paths puts nothing in the way. -/
theorem Unhindered.alter (h : v.Unhindered dir ps) (hp : p ∈ ps)
    (hs : v'.schedule = v.schedule) (hn : v'.serial = v.serial)
    (hi : ∀ q, q ≠ p → v'.item? q = v.item? q) (hp' : v'.item? p ≠ some .directory) :
    v'.Unhindered dir ps := by
  -- what is at the path is on the way to nothing
  have hdirectory : ∀ a, v.item? a = some .directory → v'.item? a = some .directory := by
    intro a ha
    rw [hi a (by rintro rfl; exact (h.reach a hp).2 ha), ha]
  have hobstacle : ∀ q, v.obstacle? q = none → v'.obstacle? q = none := by
    intro q hq
    rw [obstacle?_eq_none_iff] at hq ⊢
    exact fun a ha => hdirectory a (hq a ha)
  refine ⟨hs.trans h.schedule, ⟨hobstacle _ h.directory.1, hdirectory _ h.directory.2⟩,
    fun q hq => ⟨hobstacle q (h.reach q hq).1, ?_⟩, fun k hk => ?_⟩
  · by_cases hqp : q = p
    · rwa [hqp]
    · rw [hi q hqp]
      exact (h.reach q hq).2
  · rw [hn] at hk
    obtain ⟨hfree, hnot⟩ := h.fresh k hk
    refine ⟨?_, hnot⟩
    rw [hi _ (by rintro rfl; exact hnot hp), hfree]

theorem Unhindered.ne_root (h : v.Unhindered dir ps) (hp : p ∈ ps) : p ≠ .root := by
  rintro rfl
  exact (h.reach .root hp).2 (by simp [item?])

theorem Unhindered.putFile (h : v.Unhindered dir ps) (hp : p ∈ ps) (bytes : Bytes) :
    (v.putFile p bytes).Unhindered dir ps := by
  refine h.alter hp rfl rfl (fun q hq => item?_put_of_ne hq _) ?_
  rw [Volume.putFile, item?_put_self (h.ne_root hp)]
  simp

theorem Unhindered.drop (h : v.Unhindered dir ps) (hp : p ∈ ps) :
    (v.drop p).Unhindered dir ps := by
  refine h.alter hp rfl rfl (fun q hq => item?_drop_of_ne hq) ?_
  rw [item?_drop_self (h.ne_root hp)]
  simp

theorem Unhindered.of_cons (h : v.Unhindered dir (p :: ps)) : v.Unhindered dir ps :=
  ⟨h.schedule, h.directory, fun q hq => h.reach q (List.mem_cons_of_mem _ hq),
    fun k hk => ⟨(h.fresh k hk).1, fun hmem => (h.fresh k hk).2 (List.mem_cons_of_mem _ hmem)⟩⟩

/-- At a path that can be reached there is a file or nothing. -/
theorem Unhindered.hasFile_or (h : v.Unhindered dir ps) (hp : p ∈ ps) :
    (∃ bytes, v.HasFile p bytes) ∨ v.item? p = none := by
  obtain ⟨ho, hd⟩ := h.reach p hp
  cases hi : v.item? p with
  | none => exact Or.inr rfl
  | some item =>
    cases item with
    | directory => exact absurd hi hd
    | file bytes => exact Or.inl ⟨bytes, ho, hi⟩

theorem Unhindered.writable_eq (h : v.Unhindered dir ps) (hp : p ∈ ps) :
    ∃ old, v.writable p = .ok old := by
  rcases h.hasFile_or hp with ⟨bytes, hf⟩ | hnone
  · exact ⟨_, hf.writable_eq⟩
  · exact ⟨none, by simp [writable, content, find, (h.reach p hp).1, hnone]⟩

/-! ### Calls -/

theorem Unhindered.touch (h : v.Unhindered dir ps) (hp : p ∈ ps) :
    (touch p).Succeeds v fun _ v' => v'.Unhindered dir ps ∧ ∃ bytes, v'.HasFile p bytes := by
  rcases h.hasFile_or hp with ⟨bytes, hf⟩ | hnone
  · exact .of_run (run_touch h.schedule hf) ⟨h, bytes, hf⟩
  · obtain ⟨ho, hd⟩ := h.reach p hp
    exact .of_run (run_touch_new h.schedule ho hnone)
      ⟨h.putFile hp [], [], hasFile_putFile (h.ne_root hp) hd ho []⟩

theorem Unhindered.append (h : v.Unhindered dir ps) (hp : p ∈ ps) (hf : v.HasFile p bytes)
    (more : Bytes) :
    (append p more).Succeeds v fun _ v' =>
      v'.Unhindered dir ps ∧ ∃ bytes, v'.HasFile p bytes :=
  .of_run (run_append h.schedule hf more) ⟨h.putFile hp _, _, hf.putFile _⟩

theorem Unhindered.clear (h : v.Unhindered dir ps) (hp : p ∈ ps) :
    (clear p).Succeeds v fun _ v' => v'.Unhindered dir ps ∧ ∃ bytes, v'.HasFile p bytes := by
  obtain ⟨ho, hd⟩ := h.reach p hp
  obtain ⟨old, hw⟩ := h.writable_eq hp
  have hcall : clearCall p v = .ok ((), v.putFile p []) := by
    simp [clearCall, hw]
  exact .of_run (run_call h.schedule hcall)
    ⟨h.putFile hp [], [], hasFile_putFile (h.ne_root hp) hd ho []⟩

theorem Unhindered.removeIfPresent (h : v.Unhindered dir ps) (hp : p ∈ ps) :
    (removeIfPresent p).Succeeds v fun _ v' => v'.Unhindered dir ps := by
  have hremove : (remove p).Ends v (fun _ v' => v'.Unhindered dir ps) fun e v' =>
      e.cause = .notFound ∧ v'.Unhindered dir ps := by
    rcases h.hasFile_or hp with ⟨bytes, hf⟩ | hnone
    · have hrun : (remove p).run.run v = (.ok (), v.drop p) :=
        run_call h.schedule (by simp [removeCall, hf.content_eq])
      rw [TryDisk.Ends, Disk.Ends, hrun]
      exact h.drop hp
    · have hrun : (remove p).run.run v = (.error ⟨p, .notFound⟩, v) :=
        run_call_error h.schedule (by
          simp [removeCall, content, find, (h.reach p hp).1, hnone])
      rw [TryDisk.Ends, Disk.Ends, hrun]
      exact ⟨rfl, h⟩
  refine hremove.tryCatch fun e v₁ h₁ => ?_
  rw [if_pos h₁.1]
  exact h₁.2

theorem Unhindered.rename (h : v.Unhindered dir ps) (hp : p ∈ ps) (hq : q ∈ ps)
    (hf : v.HasFile p bytes) :
    (rename p q).Succeeds v fun _ v' => v'.Unhindered dir ps := by
  obtain ⟨old, hw⟩ := h.writable_eq hq
  have hcall : renameCall p q v = .ok ((), (v.drop p).putFile q bytes) := by
    simp [renameCall, hf.content_eq, hw]
  exact .of_run (run_call h.schedule hcall) ((h.drop hp).putFile hq bytes)

end Volume

/-! ### Files -/

namespace Bulk

variable {v : Volume} {dir p : Path} {ps : List Path} {es : List Entry}

open Volume (Unhindered)

theorem succeeds_append (h : v.Unhindered dir ps) (hp : p ∈ ps) (entries : List Entry) :
    (append p entries).Succeeds v fun _ v' =>
      v'.Unhindered dir ps ∧ ∃ bytes, v'.HasFile p bytes := by
  have hwrite : (writeLines p (entries.filterMap Line.encode?)).Succeeds v fun _ v' =>
      v'.Unhindered dir ps ∧ ∃ bytes, v'.HasFile p bytes := by
    refine (h.touch hp).bind fun _ v₁ ⟨h₁, bytes, hf⟩ => ?_
    cases entries.filterMap Line.encode? with
    | nil => exact TryDisk.ends_pure ⟨h₁, bytes, hf⟩
    | cons l ls => exact h₁.append hp hf _
  exact hwrite.bind fun _ _ h => TryDisk.ends_pure h

theorem succeeds_overwrite (h : v.Unhindered dir ps) (hp : p ∈ ps) (hs : stagingPath p ∈ ps)
    (entries : List Entry) :
    (overwrite p entries).Succeeds v fun _ v' => v'.Unhindered dir ps := by
  refine (h.removeIfPresent hs).bind fun _ v₁ h₁ => ?_
  refine (succeeds_append h₁ hs entries).bind fun _ v₂ ⟨h₂, bytes, hf⟩ => ?_
  exact h₂.rename hs hp hf

theorem hasEntries_of_bytes? {bytes : Bytes} (hb : v.bytes? p = some bytes)
    (he : entriesAt (v.bytes? p) = some es) : v.HasEntries p es := by
  rw [hb] at he
  exact ⟨bytes, Volume.bytes?_eq_some_iff.1 hb, he⟩

theorem succeeds_readEntries (h : v.Unhindered dir ps) (hf : v.HasEntries p es) :
    (readEntries p).Succeeds v fun found v' => found = es ∧ v' = v :=
  .of_run (run_readEntries h.schedule hf) ⟨rfl, rfl⟩

end Bulk

namespace ScratchFile

variable {v : Volume} {dir : Path} {ps : List Path}

theorem succeeds_createIn (h : v.Unhindered dir ps) :
    (createIn dir).Succeeds v fun f v' => v'.Unhindered dir (f.path :: ps) := by
  let p : Path := dir.child (nameOf v.serial)
  have hfresh := h.fresh v.serial (Nat.le_refl _)
  have hcounted : Volume.Unhindered dir (p :: ps) { v with serial := v.serial + 1 } := by
    refine ⟨h.schedule, h.directory, List.forall_mem_cons.2 ⟨⟨?_, ?_⟩, h.reach⟩, fun k hk => ?_⟩
    · exact h.directory.obstacle?_child _
    · change v.item? p ≠ _
      rw [hfresh.1]
      simp
    · have hlt : v.serial < k := hk
      obtain ⟨hfree, hnot⟩ := h.fresh k (Nat.le_of_lt hlt)
      refine ⟨hfree, List.not_mem_cons_of_ne_of_not_mem (fun heq => ?_) hnot⟩
      exact Nat.ne_of_gt hlt (child_nameOf_injective heq)
  refine (TryDisk.Succeeds.of_run (Volume.run_createDirectories h.schedule h.directory)
    (P := fun _ v' => v' = v) rfl).bind ?_
  rintro _ _ rfl
  refine (TryDisk.Succeeds.of_run (TryDisk.run_lift (Volume.run_nextSerial _))
    (P := fun n v' => n = _ ∧ v' = _) ⟨rfl, rfl⟩).bind ?_
  rintro _ _ ⟨rfl, rfl⟩
  exact (hcounted.clear (List.mem_cons_self ..)).bind fun _ _ h => TryDisk.ends_pure h.1

theorem succeeds_release (h : v.Unhindered dir ps) {f : ScratchFile} (hf : f.path ∈ ps) :
    (liftM f.release : TryDisk Unit).Succeeds v fun _ v' => v'.Unhindered dir ps := by
  rcases h.hasFile_or hf with ⟨bytes, hfile⟩ | hnone
  · exact .of_run (TryDisk.run_lift (Volume.run_discard hfile)) (h.drop hf)
  · have hnot : ∀ bytes, ¬v.HasFile f.path bytes := fun bytes hc => by
      rw [hc.2] at hnone
      cases hnone
    exact .of_run (TryDisk.run_lift (Volume.run_discard_of_not_hasFile hnot)) h

end ScratchFile

/-! ### Lists -/

namespace BulkList

variable {v : Volume} {dir : Path} {l : BulkList} {bytes : Bytes} {es : List Entry} {ps : List Path}

/-- A call makes scratch files in a directory only. -/
def Call.StaysIn (dir : Path) : Call → Prop
  | takeInto d => d = dir
  | _ => True

section Kinds

variable {γ : Type}

theorem succeeds_report {act : TryDisk γ} {reply : γ → Reply ScratchFile × BulkList}
    {P : Volume → Prop} (h : act.Succeeds v fun _ v' => P v') :
    (l.report act reply).Ends v fun r v' => (∃ a, r.1 = .ok a) ∧ P v' := by
  rw [TryDisk.Succeeds, TryDisk.Ends] at h
  refine Disk.Ends.bind h fun r v₁ hr => ?_
  cases r with
  | ok a => exact Disk.ends_pure ⟨⟨_, rfl⟩, hr⟩
  | error e => exact hr.elim

theorem succeeds_keepToItself {reading : TryDisk γ} {act : Disk (Reply ScratchFile × BulkList)}
    {P : Volume → Prop} (hreading : reading.Succeeds v fun _ _ => True)
    (hact : act.Ends v fun _ v' => P v') :
    (keepToItself reading act).Ends v fun r v' => (∃ a, r.1 = .ok a) ∧ P v' := by
  refine Disk.Ends.bind_get (Disk.Ends.bind hact fun r v₁ hr => Disk.ends_pure ⟨?_, hr⟩)
  rw [TryDisk.Succeeds, TryDisk.Ends, Disk.Ends] at hreading
  cases hr : (reading.run.run v).1 with
  | ok a => exact ⟨_, rfl⟩
  | error e =>
    rw [hr] at hreading
    exact hreading.elim

end Kinds

theorem succeeds_tryRewrite (h : v.Unhindered dir ps) (hp : l.path ∈ ps)
    (hs : Bulk.stagingPath l.path ∈ ps) (hf : v.HasEntries l.path es)
    (edit : List Entry → Nat × List Entry) :
    (l.tryRewrite edit).Succeeds v fun _ v' => v'.Unhindered dir ps := by
  refine (Bulk.succeeds_readEntries h hf).bind ?_
  rintro _ _ ⟨rfl, rfl⟩
  simp only
  split
  · exact (Bulk.succeeds_overwrite h hp hs _).bind fun _ _ h => TryDisk.ends_pure h
  · exact TryDisk.ends_pure h

theorem succeeds_takeInto (ht : v.IsTree) (h : v.Unhindered dir ps) (hp : l.path ∈ ps)
    (hf : v.HasEntries l.path es) :
    (l.takeInto dir).Succeeds v fun _ v' => v'.Unhindered dir ps := by
  refine ((ScratchFile.succeeds_createIn h).and (ScratchFile.ends_createIn ht dir)).bind ?_
  rintro f v₁ ⟨h₁, k, hk, -, hpath, hw₁, -⟩
  -- the new file is not the file of the list
  have hne : l.path ∉ [f.path] := by
    rw [List.mem_singleton, hpath]
    rintro heq
    exact (h.fresh k hk).2 (heq ▸ hp)
  have hf₁ : v₁.HasEntries l.path es := by
    obtain ⟨bytes, hfile, he⟩ := hf
    refine ⟨bytes, Volume.bytes?_eq_some_iff.1 ?_, he⟩
    rw [hw₁.spares l.path hne]
    exact Volume.bytes?_eq_some_iff.2 hfile
  have hp₁ : l.path ∈ f.path :: ps := List.mem_cons_of_mem _ hp
  have hself : f.path ∈ f.path :: ps := List.mem_cons_self ..
  refine ScratchFile.ends_orRelease ?_ fun _ _ => False.elim
  refine (Bulk.succeeds_readEntries h₁ hf₁).bind ?_
  rintro _ _ ⟨rfl, rfl⟩
  split
  · exact (ScratchFile.succeeds_release h₁ hself).bind fun _ _ h => TryDisk.ends_pure h.of_cons
  · refine (Bulk.succeeds_append h₁ hself _).bind fun _ v₂ ⟨h₂, _⟩ => ?_
    exact (h₂.clear hp₁).bind fun _ _ h => TryDisk.ends_pure h.1.of_cons

theorem succeeds_openAt {p : Path} (h : v.Unhindered dir ps) (hp : p ∈ ps) :
    (openAt p).Succeeds v fun _ v' => v'.Unhindered dir ps := by
  have htouch : (do
      Volume.touch p
      return ⟨p, .first, .empty⟩ : TryDisk BulkList).Succeeds v fun _ v' =>
        v'.Unhindered dir ps :=
    (h.touch hp).bind fun _ _ h => TryDisk.ends_pure h.1
  rw [openAt]
  cases hparent : p.parent? with
  | none => exact htouch
  | some parent =>
    -- the directory of a file that can be reached is there
    have hmem : parent ∈ p.ancestors := by
      rw [Path.parent?] at hparent
      split at hparent
      · cases hparent
      · rename_i hne
        cases hparent
        rw [Volume.mem_ancestors]
        have hlen : 0 < p.parts.length := List.length_pos_iff.2 (by simpa using hne)
        exact ⟨p.parts.length - 1, by omega, by rw [List.dropLast_eq_take]⟩
    have hway := Volume.obstacle?_eq_none_iff.1 (h.reach p hp).1
    have hdir : v.HasDirectory parent :=
      ⟨Volume.obstacle?_eq_none_iff.2 fun a ha => hway a (Volume.mem_ancestors_trans ha hmem),
        hway parent hmem⟩
    refine (TryDisk.Succeeds.of_run (Volume.run_createDirectories h.schedule hdir)
      (P := fun _ v' => v' = v) rfl).bind ?_
    rintro _ _ rfl
    exact htouch

theorem succeeds_readingOfCount (h : v.Unhindered dir ps) (hf : v.HasEntries l.path es) :
    l.readingOfCount.Succeeds v fun _ _ => True := by
  rw [readingOfCount]
  cases l.counted.lookup? l.signature with
  | some n => exact TryDisk.ends_pure trivial
  | none => exact .of_run (Bulk.run_countEntries h.schedule hf) trivial

theorem ends_count_of_unhindered (h : v.Unhindered dir ps) (hf : v.HasEntries l.path es) :
    l.count.Ends v fun _ v' => v'.Unhindered dir ps := by
  have hscan : l.scanCount.Ends v fun _ v' => v'.Unhindered dir ps := by
    rw [Disk.Ends, scanCount, Disk.run_bind_eq (Bulk.run_countEntries h.schedule hf)]
    exact h
  rw [count, Memo.fetch]
  cases l.counted.lookup? l.signature with
  | some n => exact h
  | none =>
    simp only [bind_assoc, pure_bind]
    exact hscan.bind fun _ _ h => h

/-- If nothing is in the way, a call does not fail, and nothing is in the way after it. -/
theorem Call.succeeds (c : Call) (hc : c.StaysIn dir) (ht : v.IsTree) (h : v.Unhindered dir ps)
    (hp : l.path ∈ ps) (hs : Bulk.stagingPath l.path ∈ ps) (hf : v.HasEntries l.path es) :
    (c.perform l).Ends v fun r v' => (∃ a, r.1 = .ok a) ∧ v'.Unhindered dir ps := by
  have hread := Bulk.succeeds_readEntries h hf
  have hget : ∀ below, (l.tryGet below).Succeeds v fun _ v' => v'.Unhindered dir ps := by
    intro below
    refine hread.bind ?_
    rintro _ _ ⟨rfl, rfl⟩
    exact TryDisk.ends_pure h
  cases c with
  | add entries =>
    refine succeeds_report ?_
    exact (Bulk.succeeds_append h hp entries).bind fun _ _ h => TryDisk.ends_pure h.1
  | remove removed => exact succeeds_report (succeeds_tryRewrite h hp hs hf _)
  | update updates => exact succeeds_report (succeeds_tryRewrite h hp hs hf _)
  | takeAll =>
    refine succeeds_report (hread.bind ?_)
    rintro _ _ ⟨rfl, rfl⟩
    exact (h.clear hp).bind fun _ _ h => TryDisk.ends_pure h.1
  | takeInto d =>
    obtain rfl : d = dir := hc
    exact succeeds_report (succeeds_takeInto ht h hp hf)
  | clear => exact succeeds_report ((h.clear hp).bind fun _ _ h => TryDisk.ends_pure h.1)
  | read below => exact succeeds_report (hget below)
  | get below =>
    refine succeeds_keepToItself ((hget below).imp (fun _ _ _ => trivial) fun _ _ h => h) ?_
    have hfound : (l.get below).Ends v fun _ v' => v'.Unhindered dir ps := by
      have hrun := hget below
      rw [TryDisk.Succeeds, TryDisk.Ends] at hrun
      refine Disk.Ends.bind hrun fun r v₁ hr => ?_
      cases r with
      | ok found => exact hr
      | error e => exact hr.elim
    exact hfound.bind fun _ _ h => h
  | count =>
    refine succeeds_keepToItself (succeeds_readingOfCount h hf) ?_
    exact (ends_count_of_unhindered h hf).bind fun _ _ h => h
  | isEmpty =>
    refine succeeds_keepToItself (succeeds_readingOfCount h hf) ?_
    simp only [BulkList.isEmpty, bind_assoc, pure_bind]
    exact (ends_count_of_unhindered h hf).bind fun _ _ h => h
  | reopen => exact succeeds_report (succeeds_openAt h hp)

end BulkList

end TrieOverlay
