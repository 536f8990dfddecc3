import TrieOverlay.Bulk.List
import TrieOverlay.Proofs.Bulk.Faults
import TrieOverlay.Proofs.Ident

/-!
# Calls on a bulk list

The operations of a bulk list as data (`BulkList.Call`), what they report (`BulkList.Reply`), and
what a call that succeeds comes to as a function of the list and the bytes of its file
(`BulkList.Call.outcome`).  The main result is `BulkList.Call.ends_perform`: whatever calls to the
file system fail inside, a call that succeeds has exactly its outcome, and one that fails and is
*atomic* has changed neither the list nor the bytes of its file.
-/

namespace TrieOverlay

open Volume (IsTree Writes)

/-- No name that is made up from now on is that of a path. -/
def Volume.Avoids (v : Volume) (p : Path) : Prop :=
  ∀ (dir : Path) (k : Nat), v.serial ≤ k → p ≠ dir.child (ScratchFile.nameOf k)

/-- Names that are made up are long. -/
theorem Volume.avoids_child {name : String} (h : name.length < 36) (v : Volume) (dir : Path) :
    v.Avoids (dir.child name) := by
  intro dir' k _ heq
  rw [Path.child, Path.child, Path.mk.injEq] at heq
  obtain rfl : name = ScratchFile.nameOf k := by
    simpa using congrArg List.getLast? heq
  have hlen := Serial.le_length_digits k
  have hext : ".csv".length = 4 := rfl
  simp only [ScratchFile.nameOf, Serial.compact, String.length_append, String.length_ofList] at h
  omega

namespace BulkList

variable {α β : Type} {l : BulkList} {v v' : Volume}

/-! ### The operations -/

theorem ends_tryAdd (ht : v.IsTree) (l : BulkList) (entries : List Entry) :
    (l.tryAdd entries).Ends v
      (fun r v' => r = ((entries.filterMap Bulk.Line.encode?).length, l.renewed) ∧
        Writes [l.path] v v' ∧
        v'.bytes? l.path = some ((v.bytes? l.path).getD [] ++ Bulk.writeEntries entries))
      fun _ v' => Writes [l.path] v v' := by
  refine (Bulk.ends_append ht l.path entries).bind_imp (fun _ _ h => h.1)
    fun n v₁ ⟨hn, hw, hb⟩ => ?_
  exact TryDisk.ends_pure ⟨by rw [hn], hw, hb⟩

theorem ends_tryGet (ht : v.IsTree) (l : BulkList) (below : Option Key) :
    (l.tryGet below).Ends v
      (fun found v' => Writes [] v v' ∧ ∃ es, Bulk.entriesAt (v.bytes? l.path) = some es ∧
        found = es.filter fun e => below.all (·.isPrefixOf e.key))
      fun _ v' => Writes [] v v' :=
  (Bulk.ends_readEntries ht l.path).bind fun es _ ⟨hw, hes⟩ =>
    TryDisk.ends_pure ⟨hw, es, hes, rfl⟩

/-- An edit that touches nothing writes nothing; one that fails has changed only what is beside
the file. -/
theorem ends_tryRewrite (ht : v.IsTree) (l : BulkList) (edit : List Entry → Nat × List Entry) :
    (l.tryRewrite edit).Ends v
      (fun r v' => ∃ es, Bulk.entriesAt (v.bytes? l.path) = some es ∧
        r = ((edit es).1, l.renewed) ∧ Writes [Bulk.stagingPath l.path, l.path] v v' ∧
        v'.bytes? l.path =
          if (edit es).1 > 0 then some (Bulk.writeEntries (edit es).2) else v.bytes? l.path)
      fun _ v' => Writes [Bulk.stagingPath l.path] v v' := by
  refine (Bulk.ends_readEntries ht l.path).bind_imp (fun _ _ hw => hw.mono (List.nil_subset _))
    fun es v₁ ⟨hw₁, hes⟩ => ?_
  have hb₁ := hw₁.spares l.path List.not_mem_nil
  rcases hedit : edit es with ⟨touched, entries⟩
  simp only
  split
  · rename_i htouched
    refine (Bulk.ends_overwrite hw₁.tree l.path entries).bind_imp
      (fun _ _ hw => (hw₁.mono (List.nil_subset _)).trans hw) ?_
    rintro _ v₂ ⟨hw₂, hb₂⟩
    refine TryDisk.ends_pure ⟨es, hes, by rw [hedit], ?_, ?_⟩
    · exact (hw₁.mono (List.nil_subset _)).trans hw₂
    · rw [hedit, if_pos htouched, hb₂]
  · rename_i htouched
    refine TryDisk.ends_pure ⟨es, hes, by rw [hedit], hw₁.mono (List.nil_subset _), ?_⟩
    rw [hedit, if_neg htouched, hb₁]

theorem ends_takeAll (ht : v.IsTree) (l : BulkList) :
    l.takeAll.Ends v
      (fun r v' => ∃ es, Bulk.entriesAt (v.bytes? l.path) = some es ∧ r = (es, l.renewed) ∧
        Writes [l.path] v v' ∧ v'.bytes? l.path = some [])
      fun _ v' => Writes [] v v' := by
  refine (Bulk.ends_readEntries ht l.path).bind fun es v₁ ⟨hw₁, hes⟩ => ?_
  refine (hw₁.tree.ends_clear l.path).bind_imp (fun _ _ hw => hw₁.trans hw)
    fun _ v₂ ⟨hw₂, hb₂⟩ => ?_
  exact TryDisk.ends_pure ⟨es, hes, rfl, (hw₁.mono (List.nil_subset _)).trans hw₂, hb₂⟩

theorem ends_clear (ht : v.IsTree) (l : BulkList) :
    l.clear.Ends v
      (fun r v' => r = l.renewed ∧ Writes [l.path] v v' ∧ v'.bytes? l.path = some [])
      fun _ v' => Writes [] v v' :=
  (ht.ends_clear l.path).bind fun _ _ h => TryDisk.ends_pure ⟨rfl, h⟩

/-- The file that was made goes when the rest fails, and its name is new; only it and the file of
the list are written. -/
theorem ends_takeInto_writes (ht : v.IsTree) (l : BulkList) (hl : v.Avoids l.path) (dir : Path) :
    (l.takeInto dir).Ends v
      (fun r v' => ∃ es, Bulk.entriesAt (v.bytes? l.path) = some es ∧
        (∃ k, v.serial ≤ k ∧ Writes [dir.child (ScratchFile.nameOf k), l.path] v v') ∧
        if es.isEmpty then r = (none, l) ∧ v'.bytes? l.path = v.bytes? l.path
        else ∃ f, r = (some f, l.renewed) ∧ v'.bytes? l.path = some [] ∧
          v'.bytes? f.path = some (Bulk.writeEntries es))
      fun _ v' => ∃ k, v.serial ≤ k ∧ Writes [dir.child (ScratchFile.nameOf k)] v v' := by
  refine (ScratchFile.ends_createIn ht dir).bind_imp
    (fun _ _ hw => ⟨v.serial, Nat.le_refl _, hw.mono (List.nil_subset _)⟩)
    fun f v₁ ⟨k, hk, _, hpath, hw₁, hb₁⟩ => ?_
  rw [hpath] at hw₁ hb₁
  have hne : l.path ≠ dir.child (ScratchFile.nameOf k) := hl dir k hk
  have hmem : l.path ∉ [dir.child (ScratchFile.nameOf k)] := by rwa [List.mem_singleton]
  -- whatever fails from here on, only the new file was written so far
  have hrelease : ∀ (_ : StorageError) v₂, Writes [dir.child (ScratchFile.nameOf k)] v v₂ →
      f.release.Ends v₂ fun _ v' =>
        ∃ k, v.serial ≤ k ∧ Writes [dir.child (ScratchFile.nameOf k)] v v' :=
    fun _ v₂ hw₂ => (ScratchFile.ends_release hw₂.tree f).imp fun _ _ ⟨hw₃, _⟩ =>
      ⟨k, hk, hw₂.trans (hpath ▸ hw₃)⟩
  refine ScratchFile.ends_orRelease ?_ hrelease
  refine (Bulk.ends_readEntries hw₁.tree l.path).bind_imp
    (fun _ _ hw => hw₁.trans (hw.mono (List.nil_subset _))) fun es v₂ ⟨hread₂, hes⟩ => ?_
  rw [hw₁.spares l.path hmem] at hes
  have hw₂ := hw₁.trans (hread₂.mono (List.nil_subset _))
  cases hempty : es.isEmpty with
  | true =>
    simp only [if_true]
    refine (TryDisk.ends_lift (ScratchFile.ends_release hw₂.tree f)).bind fun _ v₃ ⟨hw₃, _⟩ => ?_
    have hw := hw₂.trans (hpath ▸ hw₃)
    refine TryDisk.ends_pure ⟨es, hes, ⟨k, hk, hw.mono (by simp)⟩, ?_⟩
    rw [if_pos hempty]
    exact ⟨rfl, hw.spares l.path hmem⟩
  | false =>
    simp only [Bool.false_eq_true, if_false]
    refine (Bulk.ends_append hw₂.tree f.path es).bind_imp
      (fun _ _ h => hw₂.trans (hpath ▸ h.1)) fun _ v₃ ⟨_, hw₃, hb₃⟩ => ?_
    rw [hpath] at hw₃ hb₃
    have hw₃ := hw₂.trans hw₃
    refine (hw₃.tree.ends_clear l.path).bind_imp
      (fun _ _ hw => hw₃.trans (hw.mono (List.nil_subset _))) fun _ v₄ ⟨hw₄, hb₄⟩ => ?_
    refine TryDisk.ends_pure ⟨es, hes,
      ⟨k, hk, (hw₃.mono (by simp)).trans (hw₄.mono (by simp))⟩, ?_⟩
    rw [if_neg (by simp [hempty])]
    refine ⟨f, rfl, hb₄, ?_⟩
    rw [hpath, hw₄.spares _ (by rw [List.mem_singleton]; exact hne.symm), hb₃,
      hread₂.spares _ List.not_mem_nil, hb₁]
    rfl

theorem ends_takeInto (ht : v.IsTree) (l : BulkList) (hl : v.Avoids l.path) (dir : Path) :
    (l.takeInto dir).Ends v
      (fun r v' => ∃ es, Bulk.entriesAt (v.bytes? l.path) = some es ∧ v'.IsTree ∧
        v.serial ≤ v'.serial ∧
        if es.isEmpty then r = (none, l) ∧ v'.bytes? l.path = v.bytes? l.path
        else ∃ f, r = (some f, l.renewed) ∧ v'.bytes? l.path = some [] ∧
          v'.bytes? f.path = some (Bulk.writeEntries es))
      fun _ v' => v'.IsTree ∧ v.serial ≤ v'.serial ∧ v'.bytes? l.path = v.bytes? l.path := by
  refine (ends_takeInto_writes ht l hl dir).imp ?_ ?_
  · rintro r v' ⟨es, hes, ⟨k, -, hw⟩, hr⟩
    exact ⟨es, hes, hw.tree, hw.serial, hr⟩
  · rintro e v' ⟨k, hk, hw⟩
    refine ⟨hw.tree, hw.serial, hw.spares l.path ?_⟩
    rw [List.mem_singleton]
    exact hl dir k hk

theorem ends_openAt (ht : v.IsTree) (p : Path) :
    (openAt p).Ends v
      (fun l v' => l = ⟨p, .first, .empty⟩ ∧ Writes [p] v v' ∧
        v'.bytes? p = some ((v.bytes? p).getD []))
      fun _ v' => Writes [] v v' := by
  have htouch : ∀ {v₁}, Writes [] v v₁ → (do
      Volume.touch p
      return ⟨p, .first, .empty⟩ : TryDisk BulkList).Ends v₁
      (fun l v' => l = ⟨p, .first, .empty⟩ ∧ Writes [p] v v' ∧
        v'.bytes? p = some ((v.bytes? p).getD []))
      fun _ v' => Writes [] v v' := by
    intro v₁ hw₁
    refine (hw₁.tree.ends_touch p).bind_imp (fun _ _ hw => hw₁.trans hw)
      fun _ v₂ ⟨hw₂, hb₂⟩ => TryDisk.ends_pure ⟨rfl, ?_, ?_⟩
    · exact (hw₁.mono (List.nil_subset _)).trans hw₂
    · rw [hb₂, hw₁.spares p List.not_mem_nil]
  rw [openAt]
  cases p.parent? with
  | none => exact htouch (ht.writes_refl [])
  | some parent => exact (ht.ends_createDirectories parent).bind fun _ _ hw₁ => htouch hw₁

/-! ### The operations as data -/

/-- A call on a bulk list. -/
inductive Call where
  /-- Adds entries at the end. -/
  | add (entries : List Entry)
  /-- Removes the entries that have the identifier of one of the given ones. -/
  | remove (removed : List Entry)
  /-- Replaces every entry by the last given one with its identifier. -/
  | update (updates : List Entry)
  /-- Takes the entries out. -/
  | takeAll
  /-- Moves the entries into a new scratch file. -/
  | takeInto (dir : Path)
  /-- Makes the list empty. -/
  | clear
  /-- Reads the entries below a key, or all of them. -/
  | read (below : Option Key)
  /-- Reads like `read`, but takes a failure for nothing. -/
  | get (below : Option Key)
  /-- Counts the entries. -/
  | count
  /-- Asks whether there are none. -/
  | isEmpty
  /-- Opens the list again. -/
  | reopen

/-- What a call reports; a new file is shown as an `α`. -/
inductive Reply (α : Type) where
  | number (n : Nat)
  | entries (es : List Entry)
  | file (f : Option α)
  | flag (b : Bool)
  | done

/-- The reply with the file shown otherwise. -/
def Reply.map (f : α → β) : Reply α → Reply β
  | number n => number n
  | entries es => entries es
  | file g => file (g.map f)
  | flag b => flag b
  | done => done

/-- A call that reports its failures; the list stays as it is if it fails. -/
def report {γ : Type} (l : BulkList) (act : TryDisk γ) (reply : γ → Reply ScratchFile × BulkList) :
    Disk (Except StorageError (Reply ScratchFile) × BulkList) := do
  match ← act.run with
  | .ok a => return (.ok (reply a).1, (reply a).2)
  | .error e => return (.error e, l)

/-- A call that keeps its failures to itself.  It counts as failed if what it reads cannot be
read. -/
def keepToItself {γ : Type} (reading : TryDisk γ) (act : Disk (Reply ScratchFile × BulkList)) :
    Disk (Except StorageError (Reply ScratchFile) × BulkList) := do
  let v ← getThe Volume
  let (a, l) ← act
  return ((reading.run.run v).1.map fun _ => a, l)

/-- What a count reads. -/
def readingOfCount (l : BulkList) : TryDisk Nat :=
  match l.counted.lookup? l.signature with
  | some n => pure n
  | none => Bulk.countEntries l.path

/-- Makes a call: what it reports, and the list after it. -/
def Call.perform : Call → BulkList → Disk (Except StorageError (Reply ScratchFile) × BulkList)
  | add entries, l => l.report (l.tryAdd entries) fun (n, l) => (.number n, l)
  | remove removed, l => l.report (l.tryRemove removed) fun (n, l) => (.number n, l)
  | update updates, l => l.report (l.tryUpdate updates) fun (n, l) => (.number n, l)
  | takeAll, l => l.report l.takeAll fun (es, l) => (.entries es, l)
  | takeInto dir, l => l.report (l.takeInto dir) fun (f, l) => (.file f, l)
  | clear, l => l.report l.clear fun l => (.done, l)
  | read below, l => l.report (l.tryGet below) fun es => (.entries es, l)
  | get below, l => keepToItself (l.tryGet below) do return (.entries (← l.get below), l)
  | count, l => keepToItself l.readingOfCount do
    let (n, l) ← l.count
    return (.number n, l)
  | isEmpty, l => keepToItself l.readingOfCount do
    let (b, l) ← l.isEmpty
    return (.flag b, l)
  | reopen, l => l.report (openAt l.path) fun l => (.done, l)

/-- An edit as a function of the bytes of the file. -/
def editOutcome (l : BulkList) (content : Option Bytes) (edit : List Entry → Nat × List Entry) :
    Option (Reply (Option Bytes) × BulkList × Option Bytes) :=
  (Bulk.entriesAt content).map fun es =>
    let (touched, entries) := edit es
    (.number touched, l.renewed, if touched > 0 then some (Bulk.writeEntries entries) else content)

/-- A count as a function of the bytes of the file. -/
def countOutcome (l : BulkList) (content : Option Bytes) : Option (Nat × BulkList) := do
  let (n, counted) ← l.counted.fetch l.signature ((Bulk.entriesAt content).map List.length)
  return (n, { l with counted })

/-- What a call that succeeds comes to, as a function of the list and the bytes of its file: the
reply, the list and the bytes after the call.  A new file is shown as its bytes. -/
def Call.outcome : Call → BulkList → Option Bytes →
    Option (Reply (Option Bytes) × BulkList × Option Bytes)
  | add entries, l, content =>
    some (.number (entries.filterMap Bulk.Line.encode?).length, l.renewed,
      some (content.getD [] ++ Bulk.writeEntries entries))
  | remove removed, l, content => l.editOutcome content (withoutIds (removed.map (·.id)))
  | update updates, l, content => l.editOutcome content (withUpdates updates)
  | takeAll, l, content =>
    (Bulk.entriesAt content).map fun es => (.entries es, l.renewed, some [])
  | takeInto _, l, content =>
    (Bulk.entriesAt content).map fun es =>
      if es.isEmpty then (.file none, l, content)
      else (.file (some (some (Bulk.writeEntries es))), l.renewed, some [])
  | clear, l, _ => some (.done, l.renewed, some [])
  | read below, l, content | get below, l, content =>
    (Bulk.entriesAt content).map fun es =>
      (.entries (es.filter fun e => below.all (·.isPrefixOf e.key)), l, content)
  | count, l, content => (l.countOutcome content).map fun (n, l) => (.number n, l, content)
  | isEmpty, l, content => (l.countOutcome content).map fun (n, l) => (.flag (n == 0), l, content)
  | reopen, l, content => some (.done, ⟨l.path, .first, .empty⟩, some (content.getD []))

/-- Whether a call leaves a list on the file at a path as it was if it fails.  One that rewrites the
file does so only if the file is not named like the one that the new version is written to. -/
def Call.isAtomic (p : Path) : Call → Bool
  | remove _ | update _ => Bulk.stagingPath p ≠ p
  | add _ | count | isEmpty => false
  | takeAll | takeInto _ | clear | read _ | get _ | reopen => true

/-! ### What a call comes to -/

/-- What holds after a call: it had its outcome, or it failed and, if it is atomic, changed
nothing. -/
structure Call.Ended (c : Call) (l : BulkList) (v : Volume)
    (r : Except StorageError (Reply ScratchFile) × BulkList) (v' : Volume) : Prop where
  tree : v'.IsTree
  serial : v.serial ≤ v'.serial
  path : r.2.path = l.path
  ok : ∀ a, r.1 = .ok a → c.outcome l (v.bytes? l.path) =
    some (a.map fun f => v'.bytes? f.path, r.2, v'.bytes? l.path)
  error : ∀ e, r.1 = .error e → c.isAtomic l.path → r.2 = l ∧ v'.bytes? l.path = v.bytes? l.path

section Kinds

variable {γ : Type} {c : Call}

/-- A call that reports its failures. -/
theorem ends_report {act : TryDisk γ} {reply : γ → Reply ScratchFile × BulkList}
    {P : γ → Volume → Prop} {Q : StorageError → Volume → Prop} (h : act.Ends v P Q)
    (hok : ∀ a v', P a v' → c.Ended l v (.ok (reply a).1, (reply a).2) v')
    (herror : ∀ e v', Q e v' → c.Ended l v (.error e, l) v') :
    (l.report act reply).Ends v (c.Ended l v) := by
  refine Disk.Ends.bind h fun r v₁ hr => ?_
  cases r with
  | ok a => exact hok a v₁ hr
  | error e => exact herror e v₁ hr

theorem ended_ok {a : Reply ScratchFile} {l' : BulkList} (htree : v'.IsTree)
    (hserial : v.serial ≤ v'.serial) (hpath : l'.path = l.path)
    (h : c.outcome l (v.bytes? l.path) =
      some (a.map fun f => v'.bytes? f.path, l', v'.bytes? l.path)) :
    c.Ended l v (.ok a, l') v' :=
  ⟨htree, hserial, hpath, fun _ ha => Except.ok.inj ha ▸ h, fun _ he => (nomatch he)⟩

theorem ended_error {e : StorageError} (htree : v'.IsTree) (hserial : v.serial ≤ v'.serial)
    (h : c.isAtomic l.path → v'.bytes? l.path = v.bytes? l.path) :
    c.Ended l v (.error e, l) v' :=
  ⟨htree, hserial, rfl, fun _ ha => (nomatch ha), fun _ _ hc => ⟨rfl, h hc⟩⟩

/-- A call that failed before it wrote anything. -/
theorem ended_error_of_writes {e : StorageError} (hw : Writes [] v v') :
    c.Ended l v (.error e, l) v' :=
  ended_error hw.tree hw.serial fun _ => hw.spares l.path List.not_mem_nil

/-- A call that keeps its failures to itself and only reads. -/
theorem ends_keepToItself {reading : TryDisk γ} {act : Disk (Reply ScratchFile × BulkList)}
    (h : act.Ends v fun r v' => Writes [] v v' ∧ r.2.path = l.path ∧
      (c.isAtomic l.path → r.2 = l) ∧
      ((reading.run.run v).1.toBool = true → c.outcome l (v.bytes? l.path) =
        some (r.1.map fun f => v'.bytes? f.path, r.2, v.bytes? l.path))) :
    (keepToItself reading act).Ends v (c.Ended l v) := by
  refine Disk.Ends.bind_get (Disk.Ends.bind h ?_)
  rintro r v₁ ⟨hw, hpath, hatomic, hok⟩
  refine Disk.ends_pure ?_
  have hb := hw.spares l.path List.not_mem_nil
  cases hreading : (reading.run.run v).1 with
  | ok a =>
    rw [hreading] at hok
    exact ended_ok hw.tree hw.serial hpath (by rw [hb]; exact hok rfl)
  | error e =>
    exact ⟨hw.tree, hw.serial, hpath, fun _ ha => (nomatch ha), fun _ _ ha => ⟨hatomic ha, hb⟩⟩

end Kinds

theorem ends_scanCount (ht : v.IsTree) (l : BulkList) :
    l.scanCount.Ends v fun n v' => Writes [] v v' ∧
      (((Bulk.countEntries l.path).run.run v).1.toBool = true →
        ∃ es, Bulk.entriesAt (v.bytes? l.path) = some es ∧ n = es.length) := by
  refine Disk.Ends.bind (Disk.Ends.and_run (Bulk.ends_countEntries ht l.path)) ?_
  rintro r v₁ ⟨hrun, hr⟩
  cases r with
  | ok n =>
    obtain ⟨hw, hes⟩ := hr
    exact Disk.ends_pure ⟨hw, fun _ => hes⟩
  | error e =>
    refine Disk.ends_pure ⟨hr, fun hok => ?_⟩
    erw [hrun] at hok
    cases hok

/-- A count reads the file unless it is remembered. -/
theorem ends_count (ht : v.IsTree) (l : BulkList) :
    l.count.Ends v fun r v' => Writes [] v v' ∧ r.2.path = l.path ∧
      ((l.readingOfCount.run.run v).1.toBool = true →
        l.countOutcome (v.bytes? l.path) = some r) := by
  rw [count, readingOfCount, countOutcome, Memo.fetch, Memo.fetch]
  cases hlookup : l.counted.lookup? l.signature with
  | some n =>
    exact Disk.ends_pure ⟨ht.writes_refl [], rfl, fun _ => rfl⟩
  | none =>
    simp only [bind_assoc, pure_bind]
    refine (ends_scanCount ht l).bind fun n v₁ ⟨hw, hn⟩ => Disk.ends_pure ⟨hw, rfl, fun hok => ?_⟩
    obtain ⟨es, hes, rfl⟩ := hn hok
    rw [hes]
    rfl

theorem ends_get (ht : v.IsTree) (l : BulkList) (below : Option Key) :
    (l.get below).Ends v fun found v' => Writes [] v v' ∧
      (((l.tryGet below).run.run v).1.toBool = true →
        ∃ es, Bulk.entriesAt (v.bytes? l.path) = some es ∧
          found = es.filter fun e => below.all (·.isPrefixOf e.key)) := by
  refine Disk.Ends.bind (Disk.Ends.and_run (ends_tryGet ht l below)) ?_
  rintro r v₁ ⟨hrun, hr⟩
  cases r with
  | ok found =>
    obtain ⟨hw, hes⟩ := hr
    exact Disk.ends_pure ⟨hw, fun _ => hes⟩
  | error e =>
    refine Disk.ends_pure ⟨hr, fun hok => ?_⟩
    rw [hrun] at hok
    cases hok

/-- The calls that edit the entries. -/
theorem ends_report_tryRewrite (ht : v.IsTree) {c : Call} {edit : List Entry → Nat × List Entry}
    (houtcome : c.outcome l (v.bytes? l.path) = l.editOutcome (v.bytes? l.path) edit)
    (hatomic : c.isAtomic l.path → Bulk.stagingPath l.path ≠ l.path) :
    (l.report (l.tryRewrite edit) fun (n, l) => (.number n, l)).Ends v (c.Ended l v) := by
  refine ends_report (ends_tryRewrite ht l edit) ?_ ?_
  · rintro r v' ⟨es, hes, rfl, hw, hb⟩
    refine ended_ok hw.tree hw.serial rfl ?_
    rw [houtcome, editOutcome, hes, hb]
    rfl
  · intro e v' hw
    refine ended_error hw.tree hw.serial fun hc => hw.spares l.path fun hmem => ?_
    exact hatomic hc (List.mem_singleton.1 hmem).symm

/-- Whatever fails inside a call: if it succeeds it has its outcome, and if it fails and is atomic
it has changed neither the list nor the bytes of its file. -/
theorem Call.ends_perform (c : Call) (ht : v.IsTree) (hl : v.Avoids l.path) :
    (c.perform l).Ends v (c.Ended l v) := by
  cases c with
  | add entries =>
    refine ends_report (ends_tryAdd ht l entries) ?_ ?_
    · rintro r v' ⟨rfl, hw, hb⟩
      exact ended_ok hw.tree hw.serial rfl (by rw [Call.outcome, hb]; rfl)
    · exact fun e v' hw => ended_error hw.tree hw.serial fun hc => nomatch hc
  | remove removed => exact ends_report_tryRewrite ht rfl of_decide_eq_true
  | update updates => exact ends_report_tryRewrite ht rfl of_decide_eq_true
  | takeAll =>
    refine ends_report (ends_takeAll ht l) ?_ ?_
    · rintro r v' ⟨es, hes, rfl, hw, hb⟩
      exact ended_ok hw.tree hw.serial rfl (by rw [Call.outcome, hes, hb]; rfl)
    · exact fun _ _ => ended_error_of_writes
  | takeInto dir =>
    refine ends_report (ends_takeInto ht l hl dir) ?_ ?_
    · rintro r v' ⟨es, hes, htree, hserial, hr⟩
      split at hr
      · rename_i hempty
        obtain ⟨rfl, hb⟩ := hr
        refine ended_ok htree hserial rfl ?_
        rw [Call.outcome, hes, hb, Option.map_some, if_pos hempty]
        rfl
      · rename_i hempty
        obtain ⟨f, rfl, hb, hf⟩ := hr
        refine ended_ok htree hserial rfl ?_
        rw [Call.outcome, hes, hb, Option.map_some, if_neg hempty, Reply.map, Option.map_some, hf]
    · exact fun e v' ⟨htree, hserial, hb⟩ => ended_error htree hserial fun _ => hb
  | clear =>
    refine ends_report (ends_clear ht l) ?_ ?_
    · rintro r v' ⟨rfl, hw, hb⟩
      exact ended_ok hw.tree hw.serial rfl (by rw [Call.outcome, hb]; rfl)
    · exact fun _ _ => ended_error_of_writes
  | read below =>
    refine ends_report (ends_tryGet ht l below) ?_ ?_
    · rintro r v' ⟨hw, es, hes, rfl⟩
      refine ended_ok hw.tree hw.serial rfl ?_
      rw [Call.outcome, hes, hw.spares _ List.not_mem_nil]
      rfl
    · exact fun _ _ => ended_error_of_writes
  | get below =>
    refine ends_keepToItself ?_
    refine (ends_get ht l below).bind fun found v₁ ⟨hw, hfound⟩ =>
      Disk.ends_pure ⟨hw, rfl, fun _ => rfl, ?_⟩
    intro hok
    obtain ⟨es, hes, rfl⟩ := hfound hok
    rw [Call.outcome, hes]
    rfl
  | count =>
    refine ends_keepToItself ?_
    refine (ends_count ht l).bind fun r v₁ ⟨hw, hpath, hr⟩ =>
      Disk.ends_pure ⟨hw, hpath, fun hc => (nomatch hc), ?_⟩
    intro hok
    rw [Call.outcome, hr hok]
    rfl
  | isEmpty =>
    refine ends_keepToItself ?_
    simp only [BulkList.isEmpty, bind_assoc, pure_bind]
    refine (ends_count ht l).bind fun r v₁ ⟨hw, hpath, hr⟩ =>
      Disk.ends_pure ⟨hw, hpath, fun hc => (nomatch hc), fun hok => ?_⟩
    rw [Call.outcome, hr hok]
    rfl
  | reopen =>
    refine ends_report (ends_openAt ht l.path) ?_ ?_
    · rintro r v' ⟨rfl, hw, hb⟩
      exact ended_ok hw.tree hw.serial rfl (by rw [Call.outcome, hb]; rfl)
    · exact fun _ _ => ended_error_of_writes

end BulkList

end TrieOverlay
