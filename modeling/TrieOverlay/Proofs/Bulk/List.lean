import Mathlib.Data.List.Nodup
import TrieOverlay.Bulk.List
import TrieOverlay.Proofs.Bulk.ScratchFile
import TrieOverlay.Proofs.Signature

/-!
# Bulk lists on a volume on which no call is refused

`BulkList.Holds l v es` says that the file of a list can be read and written and has the entries
`es`, and that the number that the list remembers is theirs.  Each operation is then one on lists:
adding appends, taking gives everything and leaves nothing, counting gives the length.
-/

namespace TrieOverlay

namespace BulkList

variable {l l' : BulkList} {v v' : Volume} {dir : Path} {es : List Entry}

/-! ### The last entry of an identifier -/

theorem lastWithId?_eq (updates : List Entry) (id : EntryId) :
    lastWithId? updates id = (updates.filter (·.id = id)).getLast? := by
  rw [lastWithId?, ← List.head?_filter, List.filter_reverse, List.head?_reverse]

theorem lastWithId?_append_singleton (updates : List Entry) (e : Entry) (id : EntryId) :
    lastWithId? (updates ++ [e]) id = if e.id = id then some e else lastWithId? updates id := by
  rw [lastWithId?, List.reverse_append, List.reverse_singleton, List.singleton_append,
    List.find?_cons]
  by_cases hid : e.id = id <;> simp [hid, lastWithId?]

theorem isSome_lastWithId? (updates : List Entry) (id : EntryId) :
    (lastWithId? updates id).isSome = decide (id ∈ updates.map (·.id)) := by
  rw [Bool.eq_iff_iff, lastWithId?, List.find?_isSome]
  simp [eq_comm]

theorem mem_of_lastWithId? {updates : List Entry} {id : EntryId} {e : Entry}
    (h : lastWithId? updates id = some e) : e ∈ updates :=
  List.mem_reverse.1 (List.mem_of_find?_eq_some h)

theorem id_of_lastWithId? {updates : List Entry} {id : EntryId} {e : Entry}
    (h : lastWithId? updates id = some e) : e.id = id := by
  rw [lastWithId?] at h
  simpa using List.find?_some h

/-- Where the identifiers are different, every entry is the last one with its identifier. -/
theorem lastWithId?_of_nodup {updates : List Entry} {e : Entry}
    (h : (updates.map (·.id)).Nodup) (he : e ∈ updates) : lastWithId? updates e.id = some e := by
  obtain ⟨last, hlast⟩ := Option.isSome_iff_exists.1
    ((isSome_lastWithId? updates e.id).trans (by simpa using ⟨e, he, rfl⟩))
  rw [hlast, List.inj_on_of_nodup_map h (mem_of_lastWithId? hlast) he (id_of_lastWithId? hlast)]

/-! ### Operations -/

/-- A list that can be used, and its entries. -/
structure Holds (l : BulkList) (v : Volume) (es : List Entry) : Prop where
  /-- The file has the entries. -/
  file : v.HasList l.path es
  /-- What is remembered was derived at this signature or before. -/
  known : ∀ s n, l.counted.slot = some (s, n) → s.version ≤ l.signature.version
  /-- What is remembered at this signature is right. -/
  right : ∀ n, l.counted.lookup? l.signature = some n → n = es.length

theorem Holds.keep {ps : List Path} (h : l.Holds v es) (hk : Volume.Keeps ps v v')
    (hp : l.path ∉ ps) : l.Holds v' es :=
  ⟨hk.hasList h.file hp, h.known, h.right⟩

/-- Nothing is remembered at a new signature. -/
theorem Holds.renewed (h : l.Holds v es) {es' : List Entry} (hf : v'.HasList l.path es') :
    l.renewed.Holds v' es' := by
  have hcounted : l.counted.Follows l.signature es.length := ⟨h.known, h.right⟩
  exact ⟨hf, (hcounted.next es'.length).known, (hcounted.next es'.length).right⟩

theorem Holds.tryAdd (h : l.Holds v es) (hv : v.Ready dir) (entries : List Entry) :
    ∃ n v', (l.tryAdd entries).run.run v = (.ok (n, l.renewed), v') ∧ v.Leads dir [l.path] v' ∧
      l.renewed.Holds v' (es ++ entries.filter fun e => Bulk.Line.isEncodable e) := by
  obtain ⟨n, v', hrun, hleads, hf⟩ := Bulk.run_append hv h.file entries
  refine ⟨n, v', ?_, hleads, h.renewed hf⟩
  rw [BulkList.tryAdd, TryDisk.run_bind_ok hrun]
  rfl

theorem Holds.takeAll (h : l.Holds v es) (hv : v.Ready dir) :
    ∃ v', l.takeAll.run.run v = (.ok (es, l.renewed), v') ∧ v.Leads dir [l.path] v' ∧
      l.renewed.Holds v' [] := by
  obtain ⟨bytes, hf, -⟩ := id h.file
  obtain ⟨v', hrun, hleads, hf'⟩ := Bulk.run_clear hv hf
  refine ⟨v', ?_, hleads, h.renewed (Bulk.hasList_of_hasFile_nil hf')⟩
  rw [BulkList.takeAll, TryDisk.run_bind_ok (Bulk.run_readEntries hv.schedule h.file.hasEntries),
    TryDisk.run_bind_ok hrun]
  rfl

theorem Holds.takeInto_nil (h : l.Holds v []) (hv : v.Ready dir) :
    ∃ v', (l.takeInto dir).run.run v = (.ok (none, l), v') ∧ v.Leads dir [] v' := by
  obtain ⟨f, v₁, hcreate, hleads₁, hpath, hf₁⟩ := ScratchFile.run_createIn hv
  have hfree := ScratchFile.item?_of_new hv hpath
  obtain ⟨v₂, hrelease, hleads₂⟩ := ScratchFile.run_release hleads₁.ready f
  have hread := Bulk.run_readEntries hleads₁.ready.schedule
    (hleads₁.keeps.hasEntries h.file.hasEntries List.not_mem_nil)
  refine ⟨v₂, ?_, ((hleads₁.mono (List.nil_subset _)).trans hleads₂).of_cons hfree⟩
  rw [BulkList.takeInto, TryDisk.run_bind_ok hcreate]
  refine ScratchFile.run_orRelease ?_
  rw [TryDisk.run_bind_ok hread]
  exact TryDisk.run_bind_ok (TryDisk.run_lift hrelease)

theorem Holds.takeInto (h : l.Holds v es) (hv : v.Ready dir) (hne : es ≠ []) :
    ∃ f v', (l.takeInto dir).run.run v = (.ok (some f, l.renewed), v') ∧
      v.Leads dir [l.path] v' ∧ v.item? f.path = none ∧ l.renewed.Holds v' [] ∧
      v'.HasEntries f.path (es.filter fun e => Bulk.Line.isEncodable e) := by
  obtain ⟨f, v₁, hcreate, hleads₁, hpath, hf₁⟩ := ScratchFile.run_createIn hv
  have hfree := ScratchFile.item?_of_new hv hpath
  have hlist₁ := hleads₁.keeps.hasList h.file List.not_mem_nil
  have hread := Bulk.run_readEntries hleads₁.ready.schedule hlist₁.hasEntries
  -- the new file lies where nothing was, so it is not the file of the list
  have hfl : f.path ≠ l.path := by
    rintro hp
    exact h.file.hasEntries.item?_ne_none (hp ▸ hfree)
  obtain ⟨n, v₂, happend, hleads₂, hf₂⟩ :=
    Bulk.run_append hleads₁.ready (Bulk.hasList_of_hasFile_nil hf₁) es
  obtain ⟨bytes, hlist₂, -⟩ := hleads₂.keeps.hasList hlist₁ (by simpa using Ne.symm hfl)
  obtain ⟨v₃, hclear, hleads₃, hlist₃⟩ := Bulk.run_clear hleads₂.ready hlist₂
  refine ⟨f, v₃, ?_, ?_, hfree, h.renewed (Bulk.hasList_of_hasFile_nil hlist₃), ?_⟩
  · rw [BulkList.takeInto, TryDisk.run_bind_ok hcreate]
    refine ScratchFile.run_orRelease ?_
    rw [TryDisk.run_bind_ok hread, if_neg (by simpa using hne)]
    refine (TryDisk.run_bind_ok happend).trans ?_
    exact TryDisk.run_bind_ok hclear
  · have h₁ := hleads₁.mono (List.nil_subset [f.path, l.path])
    have h₂ := hleads₂.mono (show [f.path] ⊆ [f.path, l.path] by simp)
    have h₃ := hleads₃.mono (show [l.path] ⊆ [f.path, l.path] by simp)
    exact ((h₁.trans h₂).trans h₃).of_cons hfree
  · simpa using (hleads₃.keeps.hasList hf₂ (by simpa using hfl)).hasEntries

theorem Holds.count (h : l.Holds v es) (hs : v.schedule = []) :
    ∃ l', l.count.run v = ((es.length, l'), v) ∧ l'.path = l.path ∧ l'.Holds v es := by
  have hscan : l.scanCount.run v = (es.length, v) := by
    rw [scanCount, Disk.run_bind_eq (Bulk.run_countEntries hs h.file.hasEntries)]
    rfl
  rw [BulkList.count]
  cases hslot : l.counted.lookup? l.signature with
  | some n =>
    obtain rfl := h.right n hslot
    refine ⟨{ l with counted := l.counted }, ?_, rfl, h⟩
    rw [Memo.fetch, hslot]
    rfl
  | none =>
    have hcounted := Memo.follows_mk l.signature es.length
    refine ⟨{ l with counted := ⟨some (l.signature, es.length)⟩ }, ?_, rfl, h.file,
      hcounted.known, hcounted.right⟩
    have hfetch : (l.counted.fetch l.signature l.scanCount : Disk _).run v =
        ((es.length, ⟨some (l.signature, es.length)⟩), v) := by
      rw [Memo.fetch, hslot]
      exact (Disk.run_bind_eq hscan).trans rfl
    rw [Disk.run_bind_eq hfetch]
    rfl

/-- A list is opened on the file of a name in a directory. -/
theorem run_openAt (name : String) (hs : v.schedule = []) (hd : v.HasDirectory dir)
    (htouch : (Volume.touch (dir.child name)).run.run v = (.ok (), v')) :
    (openAt (dir.child name)).run.run v = (.ok ⟨dir.child name, .first, .empty⟩, v') := by
  have hparent : (dir.child name).parent? = some dir := by
    simp [Path.parent?, Path.child]
  rw [openAt, hparent]
  refine (TryDisk.run_bind_ok (Volume.run_createDirectories hs hd)).trans ?_
  exact TryDisk.run_bind_ok htouch

/-- A list on an empty file has no entries. -/
theorem holds_of_hasFile_nil {p : Path} (h : v.HasFile p []) :
    Holds ⟨p, .first, .empty⟩ v [] :=
  ⟨Bulk.hasList_of_hasFile_nil h, by simp [Memo.empty], by simp⟩

end BulkList

end TrieOverlay
