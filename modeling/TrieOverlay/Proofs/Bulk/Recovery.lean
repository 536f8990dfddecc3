import TrieOverlay.Proofs.Bulk.Calls
import TrieOverlay.Proofs.Bulk.File

/-!
# Bulk lists recover from calls that fail

A history of calls on a bulk list says for each call what came of it (`BulkList.Event`): it was
*done*, with its reply and the bytes of the file after it; it failed and counts as *undone*; or it
was *broken*, which can happen to the calls that are not atomic and leaves what it leaves.

A history can be replayed from the list and the bytes of its file alone (`BulkList.replay`,
`BulkList.Call.ends_history`): nothing else on the volume has a part in it, such as a new version
of the file that a call which failed left beside it.  So a call that is undone leaves no trace, at
once or later (`BulkList.leavesNoTrace_of_eq`).  A call that replaces the entries is undone by every
failure, unless the list is named like the file that its new version is written to: then an edit
removes the list before it has written anything (`BulkList.leaves_no_trace_iff`).
-/

namespace TrieOverlay

/-! ### Calls that the schedule lets pass -/

/-- What a call comes to that the schedule lets pass. -/
theorem Volume.run_call_pass {α : Type} {v v' : Volume} {p : Path}
    {act : Volume → Except IoError (α × Volume)} {a : α} {s : List Fault}
    (h : act { v with schedule := s } = .ok (a, v')) :
    (Volume.call p act).run.run { v with schedule := .pass :: s } = (.ok a, v') := by
  unfold Volume.call
  simp only [ExceptT.run_mk, StateT.run, Volume.nextFault, h]

/-- A file is read by one call. -/
theorem Bulk.run_readEntries_pass {v : Volume} {p : Path} {es : List Entry}
    (h : v.HasEntries p es) (s : List Fault) :
    (Bulk.readEntries p).run.run { v with schedule := .pass :: s } =
      (.ok es, { v with schedule := s }) := by
  obtain ⟨bytes, hf, hes⟩ := h
  obtain ⟨lines, hlines, hdecode⟩ := Option.map_eq_some_iff.1 hes
  have hread : (Volume.readIfPresent p).run.run { v with schedule := .pass :: s } =
      (.ok (some bytes), { v with schedule := s }) := by
    refine TryDisk.run_tryCatch_ok (TryDisk.run_map_ok (Volume.run_call_pass ?_))
    have hcontent : Volume.content { v with schedule := s } p = .ok bytes := hf.content_eq
    rw [Volume.readCall, hcontent]
    rfl
  have hreadLines : (Bulk.readLines p).run.run { v with schedule := .pass :: s } =
      (.ok lines, { v with schedule := s }) := by
    rw [Bulk.readLines, TryDisk.run_bind_ok hread]
    simp only [hlines]
    rfl
  rw [Bulk.readEntries_eq, ← hdecode]
  exact TryDisk.run_map_ok hreadLines

namespace BulkList

variable {l : BulkList} {v v' : Volume}

/-! ### Histories -/

/-- What came of a call. -/
inductive Event where
  /-- It succeeded, with a reply, and left some bytes in the file. -/
  | done (c : Call) (reply : Reply (Option Bytes)) (content : Option Bytes)
  /-- It failed, and counts as not made. -/
  | undone (c : Call)
  /-- It failed, and left a list and some bytes in its file. -/
  | broken (c : Call) (left : BulkList) (content : Option Bytes)

namespace Event

/-- The event of a call on the file at a path: what the call gave, and the volume after it. -/
def ofCall (c : Call) (p : Path) (r : Except StorageError (Reply ScratchFile) × BulkList)
    (v : Volume) : Event :=
  match r.1 with
  | .ok a => done c (a.map fun f => v.bytes? f.path) (v.bytes? p)
  | .error _ => if c.isAtomic p then undone c else broken c r.2 (v.bytes? p)

/-- Whether the event counts. -/
def isMade : Event → Bool
  | undone _ => false
  | _ => true

/-- Whether the event is a call that succeeded. -/
def isDone : Event → Bool
  | done _ _ _ => true
  | _ => false

/-- What an event that counts comes from: the call and, if it is broken, what it left. -/
def cause? : Event → Option (Call × Option (BulkList × Option Bytes))
  | done c _ _ => some (c, none)
  | undone _ => none
  | broken c left content => some (c, some (left, content))

variable {c : Call} {reply : Reply (Option Bytes)} {left : BulkList} {content : Option Bytes}

@[simp] theorem isMade_done : (done c reply content).isMade = true := rfl

@[simp] theorem isMade_undone : (undone c).isMade = false := rfl

@[simp] theorem isMade_broken : (broken c left content).isMade = true := rfl

@[simp] theorem cause?_done : (done c reply content).cause? = some (c, none) := rfl

@[simp] theorem cause?_undone : (undone c).cause? = none := rfl

@[simp] theorem cause?_broken :
    (broken c left content).cause? = some (c, some (left, content)) := rfl

end Event

/-- Makes calls one after the other: what came of each, and the list after them. -/
def Call.history : List Call → BulkList → Disk (List Event × BulkList)
  | [], l => return ([], l)
  | c :: cs, l => do
    let r ← c.perform l
    let v ← getThe Volume
    let (es, l') ← history cs r.2
    return (Event.ofCall c l.path r v :: es, l')

/-- The events that come from some causes, as a function of the list and the bytes of its file;
then the list and the bytes after them. -/
def replay : List (Call × Option (BulkList × Option Bytes)) → BulkList → Option Bytes →
    Option (List Event × BulkList × Option Bytes)
  | [], l, content => some ([], l, content)
  | (c, none) :: causes, l, content => do
    let (reply, l, content) ← c.outcome l content
    let (es, l', content') ← replay causes l content
    return (.done c reply content :: es, l', content')
  | (c, some (l, content)) :: causes, _, _ => do
    let (es, l', content') ← replay causes l content
    return (.broken c l content :: es, l', content')

/-- What counts in a history follows from the list and the bytes of its file. -/
theorem Call.ends_history (cs : List Call) (ht : v.IsTree) (hl : v.Avoids l.path) :
    (Call.history cs l).Ends v fun r v' =>
      replay (r.1.filterMap Event.cause?) l (v.bytes? l.path) =
        some (r.1.filter Event.isMade, r.2, v'.bytes? l.path) := by
  induction cs generalizing l v with
  | nil => exact Disk.ends_pure rfl
  | cons c cs ih =>
    refine (c.ends_perform ht hl).bind fun r v₁ h => Disk.Ends.bind_get ?_
    have hl₁ : v₁.Avoids r.2.path := fun dir k hk =>
      h.path ▸ hl dir k (Nat.le_trans h.serial hk)
    refine (ih h.tree hl₁).bind fun rest v₂ hrest => Disk.ends_pure ?_
    obtain ⟨result, l₁⟩ := r
    have hpath : l₁.path = l.path := h.path
    rw [hpath] at hrest
    cases result with
    | ok a =>
      have houtcome := h.ok a rfl
      simp [Event.ofCall, List.filter_cons, replay, houtcome, hrest]
    | error e =>
      cases hc : c.isAtomic l.path with
      | true =>
        obtain ⟨rfl, hb⟩ := h.error e rfl hc
        rw [hb] at hrest
        simpa [Event.ofCall, hc, List.filter_cons, List.filterMap_cons] using hrest
      | false => simp [Event.ofCall, hc, List.filter_cons, replay, hrest]

/-- Two histories on lists that are alike are alike: where the same calls are done, and what is
broken leaves the same, the replies and the bytes of the file are the same. -/
theorem history_unique {w w' : Volume} {cs ds : List Call} {es es' : List Event}
    {l₁ l₂ : BulkList} (hv : v.IsTree) (hw : w.IsTree) (hlv : v.Avoids l.path)
    (hlw : w.Avoids l.path) (halike : v.bytes? l.path = w.bytes? l.path)
    (h : (Call.history cs l).run v = ((es, l₁), v'))
    (h' : (Call.history ds l).run w = ((es', l₂), w'))
    (hcauses : es.filterMap Event.cause? = es'.filterMap Event.cause?) :
    es.filter Event.isMade = es'.filter Event.isMade ∧ l₁ = l₂ ∧
      v'.bytes? l.path = w'.bytes? l.path := by
  have hreplay := (Call.ends_history cs hv hlv).of_run h
  have hreplay' := (Call.ends_history ds hw hlw).of_run h'
  rw [hcauses, halike, hreplay'] at hreplay
  simpa [eq_comm] using hreplay

/-! ### Recovery -/

/-- A call on a list left no trace: the list and the bytes of its file are as they were, and from
then on everything is as if the call had not been made.  Calls that are made afterwards, whatever
fails among them, and calls that are made instead on the volume as it was, come to the same if the
same of them are done. -/
structure LeavesNoTrace (l : BulkList) (v : Volume) (l₁ : BulkList) (v₁ : Volume) : Prop where
  list : l₁ = l
  bytes : ∀ bytes, v₁.HasFile l.path bytes ↔ v.HasFile l.path bytes
  later (cs ds : List Call) (s t : List Fault) (es es' : List Event) (l₂ l₃ : BulkList)
    (v₂ v₃ : Volume) :
    (Call.history cs l₁).run { v₁ with schedule := s } = ((es, l₂), v₂) →
    (Call.history ds l).run { v with schedule := t } = ((es', l₃), v₃) →
    es.filterMap Event.cause? = es'.filterMap Event.cause? →
    es.filter Event.isMade = es'.filter Event.isMade ∧ l₂ = l₃ ∧
      ∀ bytes, v₂.HasFile l.path bytes ↔ v₃.HasFile l.path bytes

/-- A call leaves no trace if the list and the bytes of its file are as they were. -/
theorem leavesNoTrace_of_eq {l₁ : BulkList} {v₁ : Volume} (ht : v.IsTree) (ht₁ : v₁.IsTree)
    (hl : v.Avoids l.path) (hserial : v.serial ≤ v₁.serial) (hlist : l₁ = l)
    (hbytes : v₁.bytes? l.path = v.bytes? l.path) : LeavesNoTrace l v l₁ v₁ := by
  refine ⟨hlist, Volume.bytes?_eq_bytes?_iff.1 hbytes, ?_⟩
  intro cs ds s t es es' l₂ l₃ v₂ v₃ hrun hrun' hcauses
  subst hlist
  have hl₁ : v₁.Avoids l₁.path := fun dir k hk => hl dir k (Nat.le_trans hserial hk)
  have ht₁' : Volume.IsTree { v₁ with schedule := s } := ht₁
  have ht' : Volume.IsTree { v with schedule := t } := ht
  obtain ⟨hmade, hlists, hbytes₂⟩ := history_unique ht₁' ht' hl₁ hl hbytes hrun hrun' hcauses
  exact ⟨hmade, hlists, Volume.bytes?_eq_bytes?_iff.1 hbytes₂⟩

/-- Whether a call puts other entries, or none, in the place of those in the file. -/
def Call.isReplacing : Call → Bool
  | remove _ | update _ | takeAll | takeInto _ | clear => true
  | add _ | read _ | get _ | count | isEmpty | reopen => false

/-- An edit of a list that has no entry to read writes nothing. -/
theorem ends_tryRewrite_of_empty {edit : List Entry → Nat × List Entry} (ht : v.IsTree)
    (hempty : ∀ es, Bulk.entriesAt (v.bytes? l.path) = some es → es = [])
    (hedit : (edit []).1 = 0) :
    (l.tryRewrite edit).Ends v (fun _ v' => Volume.Writes [] v v')
      fun _ v' => Volume.Writes [] v v' := by
  refine (Bulk.ends_readEntries ht l.path).bind fun es v₁ ⟨hw, hes⟩ => ?_
  obtain rfl := hempty es hes
  simp only [hedit, gt_iff_lt, Nat.lt_irrefl, if_false]
  exact TryDisk.ends_pure hw

/-- A call that replaces entries and fails has changed neither the list nor the bytes of its file,
if the new version of the file is written to another one or there is no entry to replace. -/
theorem Call.ends_unchanged {c : Call} (ht : v.IsTree) (hl : v.Avoids l.path)
    (hc : c.isReplacing = true)
    (hsafe : Bulk.stagingPath l.path ≠ l.path ∨
      ∀ es, Bulk.entriesAt (v.bytes? l.path) = some es → es = []) :
    (c.perform l).Ends v fun r v' =>
      ∀ e, r.1 = .error e → r.2 = l ∧ v'.bytes? l.path = v.bytes? l.path := by
  by_cases hatomic : c.isAtomic l.path = true
  · exact (c.ends_perform ht hl).imp fun _ _ h e he => h.error e he hatomic
  · -- only an edit of a list that is named like its new version is left
    have hedit {edit : List Entry → Nat × List Entry}
        {reply : Nat × BulkList → Reply ScratchFile × BulkList} (hnone : (edit []).1 = 0)
        (hsame : Bulk.stagingPath l.path = l.path) :
        (l.report (l.tryRewrite edit) reply).Ends v fun r v' =>
          ∀ e, r.1 = .error e → r.2 = l ∧ v'.bytes? l.path = v.bytes? l.path := by
      have hempty := hsafe.resolve_left fun h => h hsame
      refine Disk.Ends.bind (ends_tryRewrite_of_empty ht hempty hnone) fun r v₁ hr => ?_
      cases r with
      | ok a => exact Disk.ends_pure fun e he => absurd he (by simp)
      | error e => exact Disk.ends_pure fun _ _ => ⟨rfl, hr.spares l.path List.not_mem_nil⟩
    cases c with
    | remove removed => exact hedit rfl (by simpa [isAtomic] using hatomic)
    | update updates => exact hedit rfl (by simpa [isAtomic] using hatomic)
    | takeAll | takeInto _ | clear => exact absurd rfl hatomic
    | add _ | read _ | get _ | count | isEmpty | reopen => cases hc

/-! ### A list that is named like its new version -/

/-- An edit removes the file under whose name it writes the new version.  If that is the file of
the list, it is gone when the next call is refused. -/
theorem run_remove_refused {e : Entry} {es : List Entry} (hp : v.HasEntries l.path (e :: es))
    (hsame : Bulk.stagingPath l.path = l.path) :
    ((Call.remove [e]).perform l).run { v with schedule := [.pass, .pass, .refuse] } =
      ((.error ⟨l.path, .refused⟩, l), { v.drop l.path with schedule := [] }) := by
  have hread := Bulk.run_readEntries_pass hp [.pass, .refuse]
  have hremove : (Volume.removeIfPresent l.path).run.run { v with schedule := [.pass, .refuse] } =
      (.ok (), { v.drop l.path with schedule := [.refuse] }) := by
    obtain ⟨bytes, hf, -⟩ := hp
    have hcontent : Volume.content { v with schedule := [.refuse] } l.path = .ok bytes :=
      hf.content_eq
    refine TryDisk.run_tryCatch_ok (Volume.run_call_pass ?_)
    rw [Volume.removeCall, hcontent]
    rfl
  have hover (entries : List Entry) :
      (Bulk.overwrite l.path entries).run.run { v with schedule := [.pass, .refuse] } =
        (.error ⟨l.path, .refused⟩, { v.drop l.path with schedule := [] }) := by
    rw [Bulk.overwrite, hsame, TryDisk.run_bind_ok hremove]
    exact TryDisk.run_bind_error (TryDisk.run_bind_error (TryDisk.run_bind_error rfl))
  have htouched : (withoutIds [e.id] (e :: es)).1 > 0 := by
    have hkept := List.length_filter_le (fun x : Entry => !(List.contains [e.id] x.id)) es
    rw [withoutIds, List.filter_cons_of_neg (by simp), List.length_cons]
    omega
  have htry : (l.tryRemove [e]).run.run { v with schedule := [.pass, .pass, .refuse] } =
      (.error ⟨l.path, .refused⟩, { v.drop l.path with schedule := [] }) := by
    rw [tryRemove, tryRewrite, TryDisk.run_bind_ok hread]
    simp only [List.map_cons, List.map_nil, if_pos htouched]
    exact TryDisk.run_bind_error (hover _)
  rw [Call.perform, report, Disk.run_bind_eq htry]
  rfl

/-! ### Which lists recover -/

/-- Every call that replaces entries and fails, whatever fails inside, leaves no trace, if and only
if the file of the list is not named like the one that a new version is written to, or has no entry
that can be read. -/
theorem leaves_no_trace_iff (ht : v.IsTree) (hl : v.Avoids l.path) :
    (∀ (c : Call) (faults : List Fault) (e : StorageError) (l₁ : BulkList) (v₁ : Volume),
        c.isReplacing = true →
        (c.perform l).run { v with schedule := faults } = ((.error e, l₁), v₁) →
        LeavesNoTrace l v l₁ v₁) ↔
      Bulk.stagingPath l.path ≠ l.path ∨
        ∀ es, Bulk.entriesAt (v.bytes? l.path) = some es → es = [] := by
  constructor
  · intro h
    by_contra hunsafe
    obtain ⟨hsame, hentries⟩ := not_or.1 hunsafe
    obtain ⟨es, hes, hne⟩ := not_forall₂.1 hentries
    obtain ⟨e, es, rfl⟩ := List.exists_cons_of_ne_nil hne
    cases hbytes : v.bytes? l.path with
    | none =>
      rw [hbytes] at hes
      cases hes
    | some bytes =>
      have hf : v.HasFile l.path bytes := Volume.bytes?_eq_some_iff.1 hbytes
      have hp : v.HasEntries l.path (e :: es) := ⟨bytes, hf, by rwa [hbytes] at hes⟩
      have htrace := h _ _ _ _ _ rfl (run_remove_refused hp (not_not.1 hsame))
      have hgone : (v.drop l.path).item? l.path = none := Volume.item?_drop_self hf.ne_root
      exact absurd (hgone.symm.trans ((htrace.bytes bytes).2 hf).2) (by simp)
  · intro hsafe c faults e l₁ v₁ hc hfail
    have hended := (c.ends_perform (v := { v with schedule := faults }) ht hl).of_run hfail
    obtain ⟨hlist, hbytes⟩ :=
      (Call.ends_unchanged (v := { v with schedule := faults }) ht hl hc hsafe).of_run hfail e rfl
    exact leavesNoTrace_of_eq ht hended.tree hl hended.serial hlist hbytes

/-- The new version of a list was written and could not be moved into place: it stays beside the
list, and there is no other trace. -/
theorem leaves_no_trace_of_rename :
    let l : BulkList := ⟨Path.root.child "list.csv", .first, .empty⟩
    let kept : Entry := ⟨⟨"b"⟩, ⟨[false]⟩, "type", ⟨⟨"peer"⟩, "localhost:1"⟩, "item"⟩
    let removed : Entry := ⟨⟨"a"⟩, ⟨[true]⟩, "type", ⟨⟨"peer"⟩, "localhost:1"⟩, "item"⟩
    let v : Volume := Volume.empty.putFile l.path (Bulk.writeEntries [removed, kept])
    let r := ((Call.remove [removed]).perform l).run
      { v with schedule := [.pass, .pass, .pass, .pass, .refuse] }
    r.1.1.toBool = false ∧
      r.2.HasFile (Path.root.child "list.rewrite") (Bulk.writeEntries [kept]) ∧
      LeavesNoTrace l v r.1.2 r.2 := by
  intro l kept removed v r
  have htree : v.IsTree := Volume.isTree_empty.putFile (by decide) (by decide) _
  have hfail : r.1.1.toBool = false := by decide
  have hstaging : r.2.HasFile (Path.root.child "list.rewrite") (Bulk.writeEntries [kept]) :=
    ⟨by decide, by decide⟩
  refine ⟨hfail, hstaging, ?_⟩
  rcases hr : r with ⟨⟨_ | _, l₁⟩, v₁⟩
  · exact (leaves_no_trace_iff htree (Volume.avoids_child (by decide) v .root)).2
      (.inl (by decide)) _ _ _ _ _ rfl hr
  · rw [hr] at hfail
    cases hfail

/-- A list is named like its new version: an edit removes its file, cannot make it again, and fails;
the entries are gone. -/
theorem trace_of_refused_touch :
    let l : BulkList := ⟨Path.root.child "list.rewrite", .first, .empty⟩
    let kept : Entry := ⟨⟨"b"⟩, ⟨[false]⟩, "type", ⟨⟨"peer"⟩, "localhost:1"⟩, "item"⟩
    let removed : Entry := ⟨⟨"a"⟩, ⟨[true]⟩, "type", ⟨⟨"peer"⟩, "localhost:1"⟩, "item"⟩
    let v : Volume := Volume.empty.putFile l.path (Bulk.writeEntries [removed, kept])
    let r := ((Call.remove [removed]).perform l).run
      { v with schedule := [.pass, .pass, .refuse] }
    r.1.1.toBool = false ∧ v.HasFile l.path (Bulk.writeEntries [removed, kept]) ∧
      r.2.bytes? l.path = none ∧ ¬LeavesNoTrace l v r.1.2 r.2 := by
  intro l kept removed v r
  have hfile : v.HasFile l.path (Bulk.writeEntries [removed, kept]) := ⟨by decide, by decide⟩
  have hgone : r.2.bytes? l.path = none := by decide
  refine ⟨by decide, hfile, hgone, fun h => ?_⟩
  have hkept := Volume.bytes?_eq_some_iff.2 ((h.bytes _).2 hfile)
  rw [hgone] at hkept
  cases hkept

end BulkList

end TrieOverlay
