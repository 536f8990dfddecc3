import TrieOverlay.Holdings
import TrieOverlay.Proofs.Bulk.List
import TrieOverlay.Proofs.Store.Maps

/-!
# What a listener knows of the store

A listener that puts the entries it hears of as inserted or updated, and removes those it hears of
as deleted, keeps a ledger of its own (`Ledger.replay`).  If every identifier always comes with one
type, this ledger agrees with the store on the types that the listener is registered for
(`Holdings.replay_shows_store`): the entries of a type are heard as one group, in the order in which
they were applied, and nothing else is told of their identifiers.
-/

namespace TrieOverlay

variable {es : List Entry} {e : Entry} {id : EntryId} {type : String} {kind : Change}

/-- An entry without the address of its peer, which all entries of the peer share. -/
def Entry.withoutAddress (e : Entry) : Entry :=
  { e with peer := { e.peer with address := "" } }

/-! ### Groups -/

namespace Listeners

/-- The entries of a type. -/
def group (type : String) (es : List Entry) : List Entry :=
  es.filter (·.typeName = type)

theorem getElem?_byType (es : List Entry) (type : String) :
    (byType es)[type]? = if group type es = [] then none else some (group type es) := by
  induction es using List.reverseRecOn with
  | nil => simp [byType, group]
  | append_singleton es e ih =>
    rw [byType, List.foldl_append, ← byType, List.foldl_cons, List.foldl_nil,
      Std.ExtTreeMap.getElem?_alter]
    simp only [Std.LawfulEqCmp.compare_eq_iff_eq]
    by_cases htype : e.typeName = type
    · rw [if_pos htype, htype, ih]
      split <;> simp_all [group]
    · rw [if_neg htype, ih]
      simp [group, htype]

/-- What is heard of changed entries: every listener of a type hears of the group of the type. -/
theorem mem_notify_iff {ls : Listeners} {ev : Event} :
    ev ∈ ls.notify kind es ↔
      ∃ type, group type es ≠ [] ∧ ev.listener ∈ ls.get type ∧ ev.kind = kind ∧
        ev.entries = group type es := by
  rw [notify, List.mem_flatMap]
  constructor
  · rintro ⟨⟨type, entries⟩, hgroup, hev⟩
    obtain ⟨l, hl, rfl⟩ := List.mem_map.1 hev
    rw [Std.ExtTreeMap.mem_toList_iff_getElem?_eq_some, getElem?_byType] at hgroup
    split at hgroup
    · cases hgroup
    · obtain rfl := Option.some.inj hgroup
      exact ⟨type, ‹_›, hl, rfl, rfl⟩
  · rintro ⟨type, hne, hl, rfl, hentries⟩
    refine ⟨(type, group type es), ?_, List.mem_map.2 ⟨ev.listener, hl, ?_⟩⟩
    · rw [Std.ExtTreeMap.mem_toList_iff_getElem?_eq_some, getElem?_byType, if_neg hne]
    · rw [← hentries]

end Listeners

/-! ### Replays -/

namespace Ledger

variable {m : Ledger} {ev : Event} {evs : List Event}

/-- A ledger after an event: inserted and updated entries are put, deleted ones are removed. -/
def hear (m : Ledger) (ev : Event) : Ledger :=
  match ev.kind with
  | .inserted | .updated => ev.entries.foldl put m
  | .deleted => ev.entries.foldl (fun m e => m.erase e.id) m

/-- What a listener makes of the events that it heard. -/
def replay (l : Listener) (journal : List Event) : Ledger :=
  (journal.filter (·.listener = l)).foldl hear .empty

theorem getElem?_foldl_put (m : Ledger) (es : List Entry) (id : EntryId) :
    (es.foldl put m).entries[id]? = (BulkList.lastWithId? es id).or m.entries[id]? := by
  induction es using List.reverseRecOn with
  | nil => rfl
  | append_singleton es e ih =>
    rw [List.foldl_append, List.foldl_cons, List.foldl_nil, getElem?_put, ih,
      BulkList.lastWithId?_append_singleton]
    split <;> rfl

theorem getElem?_foldl_erase (m : Ledger) (es : List Entry) (id : EntryId) :
    (es.foldl (fun m e => m.erase e.id) m).entries[id]? =
      if (BulkList.lastWithId? es id).isSome then none else m.entries[id]? := by
  induction es using List.reverseRecOn with
  | nil => rfl
  | append_singleton es e ih =>
    rw [List.foldl_append, List.foldl_cons, List.foldl_nil, getElem?_erase, ih,
      BulkList.lastWithId?_append_singleton]
    by_cases hid : e.id = id <;> simp [hid]

end Ledger

/-- What an event tells of an identifier: nothing, that it has no entry, or its entry. -/
def Event.tells? (ev : Event) (id : EntryId) : Option (Option Entry) :=
  (BulkList.lastWithId? ev.entries id).map fun e => if ev.kind = .deleted then none else some e

namespace Ledger

variable {m : Ledger} {ev : Event} {evs : List Event}

theorem getElem?_hear (m : Ledger) (ev : Event) (id : EntryId) :
    (m.hear ev).entries[id]? = (ev.tells? id).getD m.entries[id]? := by
  obtain ⟨l, kind, es⟩ := ev
  rw [Event.tells?]
  cases kind with
  | inserted =>
    rw [hear, getElem?_foldl_put]
    cases BulkList.lastWithId? es id <;> rfl
  | updated =>
    rw [hear, getElem?_foldl_put]
    cases BulkList.lastWithId? es id <;> rfl
  | deleted =>
    rw [hear, getElem?_foldl_erase]
    cases BulkList.lastWithId? es id <;> rfl

/-- Events that tell the same of an identifier, if anything, are as good as one of them. -/
theorem getElem?_foldl_hear (told : Option Entry)
    (h : ∀ ev ∈ evs, ∀ s, ev.tells? id = some s → s = told) :
    (evs.foldl hear m).entries[id]? =
      if ∃ ev ∈ evs, (ev.tells? id).isSome then told else m.entries[id]? := by
  induction evs generalizing m with
  | nil => simp
  | cons ev evs ih =>
    obtain ⟨hev, hevs⟩ := List.forall_mem_cons.1 h
    rw [List.foldl_cons, ih hevs, getElem?_hear]
    cases htells : ev.tells? id with
    | none => simp [htells]
    | some s =>
      rw [hev s htells]
      simp [htells]

theorem Named.hear (h : m.Named) (ev : Event) : (m.hear ev).Named := by
  have hfold (f : Ledger → Entry → Ledger) (hf : ∀ m e, m.Named → (f m e).Named) :
      (ev.entries.foldl f m).Named :=
    List.foldlRecOn ev.entries f h fun m hm e _ => hf m e hm
  rw [Ledger.hear]
  split
  · exact hfold _ fun _ e hm => hm.put e
  · exact hfold _ fun _ e hm => hm.put e
  · exact hfold _ fun _ e hm => hm.erase e.id

theorem named_replay (l : Listener) (journal : List Event) : (replay l journal).Named := by
  rw [replay]
  induction journal.filter (·.listener = l) using List.reverseRecOn with
  | nil => exact named_empty
  | append_singleton evs ev ih =>
    rw [List.foldl_append]
    exact ih.hear ev

end Ledger

/-! ### A change of the store -/

namespace Holdings

/-- The holdings after a change of entries, of which the listeners are told. -/
def change (h : Holdings) (kind : Change) (es : List Entry) : Holdings :=
  match kind with
  | .inserted => (h.add es).2
  | .updated => (h.update es).2
  | .deleted => (h.remove es).2

@[simp] theorem listeners_change (h : Holdings) (kind : Change) (es : List Entry) :
    (h.change kind es).listeners = h.listeners := by
  cases kind <;> rfl

theorem inbound_foldl_change (h : Holdings) (changes : List (Change × List Entry)) :
    (changes.foldl (fun h c => h.change c.1 c.2) h).inbound = h.inbound := by
  induction changes generalizing h with
  | nil => rfl
  | cons c changes ih =>
    rw [List.foldl_cons, ih]
    cases c.1 <;> rfl

theorem journal_change (h : Holdings) (kind : Change) (es : List Entry) :
    (h.change kind es).journal = h.journal ++ h.listeners.notify kind es := by
  cases kind <;> rfl

theorem keeps_change {h : Holdings} {m : Ledger} (hm : h.store.state.Keeps m) (kind : Change)
    (es : List Entry) (l : Listener) :
    (h.change kind es).store.state.Keeps (m.hear ⟨l, kind, es⟩) := by
  cases kind with
  | inserted => exact hm.upserts es
  | updated => exact hm.upserts es
  | deleted => exact (hm.deletes es).2

/-- The store keeps a ledger in which the type of an entry follows from its identifier, and the
replay of a listener agrees with it on the types of the listener and has nothing else. -/
structure Replays (l : Listener) (typeOf : EntryId → String) (h : Holdings) (m : Ledger) :
    Prop where
  keeps : h.store.state.Keeps m
  typed : ∀ id e, m.entries[id]? = some e → e.typeName = typeOf id
  heard : ∀ id : EntryId, (Ledger.replay l h.journal).entries[id]? =
    if l ∈ h.listeners.get (typeOf id) then m.entries[id]? else none

variable {l : Listener} {typeOf : EntryId → String} {h : Holdings} {m : Ledger}

theorem lastWithId?_group (hes : ∀ e ∈ es, e.typeName = typeOf e.id) (id : EntryId)
    (type : String) : BulkList.lastWithId? (Listeners.group type es) id =
      if type = typeOf id then BulkList.lastWithId? es id else none := by
  rw [BulkList.lastWithId?_eq, BulkList.lastWithId?_eq, Listeners.group, List.filter_filter]
  split
  · rename_i htype
    refine congrArg List.getLast? (List.filter_congr fun e he => ?_)
    by_cases hid : e.id = id <;> simp [hid, hes e he, htype]
  · rename_i htype
    rw [List.getLast?_eq_none_iff, List.filter_eq_nil_iff]
    intro e he hc
    obtain ⟨hid, htypeName⟩ : e.id = id ∧ e.typeName = type := by simpa using hc
    exact htype (by rw [← htypeName, hes e he, hid])

/-- Of an identifier only the group of its type tells anything, and that tells all of it. -/
theorem tells?_group (hes : ∀ e ∈ es, e.typeName = typeOf e.id) (id : EntryId) (type : String) :
    (Event.mk l kind (Listeners.group type es)).tells? id =
      if type = typeOf id then (Event.mk l kind es).tells? id else none := by
  rw [Event.tells?, Event.tells?, lastWithId?_group hes]
  by_cases htype : type = typeOf id
  · rw [if_pos htype, if_pos htype]
  · rw [if_neg htype, if_neg htype, Option.map_none]

/-- A listener hears of the groups of the types that it is registered for. -/
theorem mem_heard_iff {ls : Listeners} {ev : Event} :
    ev ∈ (ls.notify kind es).filter (·.listener = l) ↔
      ∃ type, Listeners.group type es ≠ [] ∧ l ∈ ls.get type ∧
        ev = ⟨l, kind, Listeners.group type es⟩ := by
  obtain ⟨l', kind', es'⟩ := ev
  rw [List.mem_filter, Listeners.mem_notify_iff, decide_eq_true_iff]
  constructor
  · rintro ⟨⟨type, hne, hget, rfl, rfl⟩, rfl⟩
    exact ⟨type, hne, hget, rfl⟩
  · rintro ⟨type, hne, hget, hev⟩
    obtain ⟨rfl, rfl, rfl⟩ := Event.mk.inj hev
    exact ⟨⟨type, hne, hget, rfl, rfl⟩, rfl⟩

/-- A listener learns of an identifier what the whole change tells of it, if it is registered for
the type, and nothing otherwise. -/
theorem getElem?_foldl_hear_notify (hes : ∀ e ∈ es, e.typeName = typeOf e.id) (ls : Listeners)
    (l : Listener) (m : Ledger) (id : EntryId) :
    (((ls.notify kind es).filter (·.listener = l)).foldl Ledger.hear m).entries[id]? =
      if l ∈ ls.get (typeOf id) then ((Event.mk l kind es).tells? id).getD m.entries[id]?
      else m.entries[id]? := by
  cases htells : (Event.mk l kind es).tells? id with
  | none =>
    have hnone : ∀ ev ∈ (ls.notify kind es).filter (·.listener = l), ev.tells? id = none := by
      intro ev hev
      obtain ⟨type, -, -, rfl⟩ := mem_heard_iff.1 hev
      rw [tells?_group hes, htells, ite_self]
    rw [Ledger.getElem?_foldl_hear none fun ev hev s hs => by simp [hnone ev hev] at hs, if_neg]
    · simp
    · rintro ⟨ev, hev, hsome⟩
      simp [hnone ev hev] at hsome
  | some told =>
    rw [Option.getD_some, Ledger.getElem?_foldl_hear told]
    · refine if_congr ⟨?_, fun hget => ?_⟩ rfl rfl
      · rintro ⟨ev, hev, hsome⟩
        obtain ⟨type, -, hget, rfl⟩ := mem_heard_iff.1 hev
        rw [tells?_group hes] at hsome
        split at hsome
        · rename_i htype
          rwa [htype] at hget
        · cases hsome
      · -- an entry with the identifier is in the group
        obtain ⟨e, hlast, -⟩ := Option.map_eq_some_iff.1 htells
        have he := BulkList.mem_of_lastWithId? hlast
        have hid := BulkList.id_of_lastWithId? hlast
        have hgroup : Listeners.group (typeOf id) es ≠ [] :=
          List.ne_nil_of_mem (List.mem_filter.2 ⟨he, by simp [hes e he, hid]⟩)
        refine ⟨_, mem_heard_iff.2 ⟨typeOf id, hgroup, hget, rfl⟩, ?_⟩
        rw [tells?_group hes, if_pos rfl, htells]
        rfl
    · intro ev hev s hs
      obtain ⟨type, -, -, rfl⟩ := mem_heard_iff.1 hev
      rw [tells?_group hes, htells] at hs
      split at hs
      · exact (Option.some.inj hs).symm
      · cases hs

theorem Replays.change (hr : Replays l typeOf h m) (hes : ∀ e ∈ es, e.typeName = typeOf e.id) :
    Replays l typeOf (h.change kind es) (m.hear ⟨l, kind, es⟩) where
  keeps := keeps_change hr.keeps kind es l
  typed id e he := by
    rw [Ledger.getElem?_hear, Event.tells?] at he
    cases hlast : BulkList.lastWithId? es id with
    | none =>
      rw [hlast] at he
      exact hr.typed id e he
    | some e' =>
      simp only [hlast, Option.map_some, Option.getD_some] at he
      split at he
      · cases he
      · obtain rfl := Option.some.inj he
        rw [hes _ (BulkList.mem_of_lastWithId? hlast), BulkList.id_of_lastWithId? hlast]
  heard id := by
    rw [listeners_change, journal_change, Ledger.replay, List.filter_append, List.foldl_append,
      ← Ledger.replay, getElem?_foldl_hear_notify hes, hr.heard, Ledger.getElem?_hear]
    split <;> rfl

/-! ### Runs -/

/-- What is asked of the holdings. -/
inductive Op where
  /-- Put entries into the store. -/
  | add (entries : List Entry)
  /-- Update entries in the store. -/
  | update (entries : List Entry)
  /-- Remove entries from the store. -/
  | remove (entries : List Entry)
  /-- Apply updated entries for a peer at a path. -/
  | applyUpdate (path : Key) (keys : KeyScheme) (entries : List Entry)
  /-- Keep entries that were delivered. -/
  | appendInbound (entries : List Entry)
  /-- Move the delivered entries into the store. -/
  | mergeInbound

/-- The entries that come with an operation. -/
def Op.entries : Op → List Entry
  | .add es | .update es | .remove es | .applyUpdate _ _ es | .appendInbound es => es
  | .mergeInbound => []

/-- The holdings after an attempt, which stay what they were if it fails. -/
def orKept (h : Holdings) (act : TryDisk (Nat × Holdings)) : Disk Holdings := do
  match ← act.run with
  | .ok (_, h) => return h
  | .error _ => return h

/-- The holdings after an operation. -/
def perform (h : Holdings) : Op → Disk Holdings
  | .add es => return (h.add es).2
  | .update es => return (h.update es).2
  | .remove es => return (h.remove es).2
  | .applyUpdate path keys es => return (h.applyUpdate path keys es).2
  | .appendInbound es => h.orKept (h.appendInbound es)
  | .mergeInbound => h.orKept h.mergeInbound

/-- The holdings and the volume after some operations. -/
def run : List Op → Holdings × Volume → Holdings × Volume
  | [], w => w
  | op :: ops, (h, v) => run ops ((h.perform op).run v)

/-- The entries that an operation uses: those that it comes with, or that it finds delivered. -/
def usedBy (h : Holdings) (v : Volume) : Op → List Entry
  | .mergeInbound =>
    match (h.inbound.takeAll.run.run v).1 with
    | .ok (es, _) => es
    | .error _ => []
  | op => op.entries

/-- The entries that some operations use. -/
def used : List Op → Holdings × Volume → List Entry
  | [], _ => []
  | op :: ops, (h, v) => h.usedBy v op ++ used ops ((h.perform op).run v)

/-- An update of some entries is at most an update of those that stay and a removal of the rest. -/
theorem applyUpdate_eq_changes (h : Holdings) (path : Key) (keys : KeyScheme) (es : List Entry) :
    ∃ changes : List (Change × List Entry),
      (h.applyUpdate path keys es).2 = changes.foldl (fun h c => h.change c.1 c.2) h ∧
      ∀ c ∈ changes, ∀ e ∈ c.2, ∃ e' ∈ es, ∃ key, e = e'.withKey key := by
  let staying := es.filter fun e => path.owns (rekey keys e).key
  let leaving := es.filter fun e => !path.owns (rekey keys e).key
  refine ⟨(if staying.isEmpty then [] else [(.updated, staying.map (rekey keys))]) ++
    (if leaving.isEmpty then [] else [(.deleted, leaving)]), ?_, fun c hc e he => ?_⟩
  · rw [applyUpdate, List.partition_eq_filter_filter]
    change (if leaving.isEmpty then _ else _) = _
    cases staying.isEmpty <;> cases leaving.isEmpty <;> rfl
  · rcases List.mem_append.1 hc with hc | hc
    · split at hc
      · cases hc
      · obtain rfl := List.mem_singleton.1 hc
        obtain ⟨e', he', rfl⟩ := List.mem_map.1 he
        exact ⟨e', (List.mem_filter.1 he').1, _, rfl⟩
    · split at hc
      · cases hc
      · obtain rfl := List.mem_singleton.1 hc
        exact ⟨e, (List.mem_filter.1 he).1, e.key, rfl⟩

/-- Keeping delivered entries changes the inbound list at most. -/
theorem run_perform_appendInbound (h : Holdings) (v : Volume) (es : List Entry) :
    ∃ inbound, ((h.perform (.appendInbound es)).run v).1 = { h with inbound } := by
  rw [perform, orKept, appendInbound]
  simp only [ExceptT.run_bind, StateT.run_bind]
  cases hrun : (h.inbound.tryAdd es).run.run v with
  | mk result v' =>
    cases result with
    | ok r => exact ⟨r.2, rfl⟩
    | error e => exact ⟨h.inbound, rfl⟩

/-- A merge adds the entries that it finds delivered, if there are any. -/
theorem run_perform_mergeInbound (h : Holdings) (v : Volume) :
    ∃ inbound, ((h.perform .mergeInbound).run v).1 =
      if (h.usedBy v .mergeInbound).isEmpty then { h with inbound }
      else { h with inbound }.change .inserted (h.usedBy v .mergeInbound) := by
  rw [perform, orKept, mergeInbound, usedBy]
  simp only [ExceptT.run_bind, StateT.run_bind]
  cases hrun : h.inbound.takeAll.run.run v with
  | mk result v' =>
    cases result with
    | ok r =>
      obtain ⟨es, inbound⟩ := r
      cases es <;> exact ⟨inbound, rfl⟩
    | error e => exact ⟨h.inbound, rfl⟩

/-- What an operation can do to the store and to what is heard: it makes some changes one after the
other, with entries that it uses, up to their keys. -/
theorem exists_changes (h : Holdings) (v : Volume) (op : Op) :
    ∃ inbound, ∃ changes : List (Change × List Entry),
      ((h.perform op).run v).1 =
        changes.foldl (fun h c => h.change c.1 c.2) { h with inbound } ∧
      ∀ c ∈ changes, ∀ e ∈ c.2, ∃ e' ∈ h.usedBy v op, ∃ key, e = e'.withKey key := by
  have hone (kind : Change) (es : List Entry) : ∀ c ∈ [(kind, es)], ∀ e ∈ c.2,
      ∃ e' ∈ es, ∃ key, e = e'.withKey key := by
    intro c hc e he
    obtain rfl := List.mem_singleton.1 hc
    exact ⟨e, he, e.key, rfl⟩
  cases op with
  | add es => exact ⟨h.inbound, [(.inserted, es)], rfl, hone _ _⟩
  | update es => exact ⟨h.inbound, [(.updated, es)], rfl, hone _ _⟩
  | remove es => exact ⟨h.inbound, [(.deleted, es)], rfl, hone _ _⟩
  | applyUpdate path keys es => exact ⟨h.inbound, applyUpdate_eq_changes h path keys es⟩
  | appendInbound es =>
    obtain ⟨inbound, hrun⟩ := run_perform_appendInbound h v es
    exact ⟨inbound, [], hrun, by simp⟩
  | mergeInbound =>
    obtain ⟨inbound, hrun⟩ := run_perform_mergeInbound h v
    rw [hrun]
    split
    · exact ⟨inbound, [], rfl, by simp⟩
    · exact ⟨inbound, [(.inserted, h.usedBy v .mergeInbound)], rfl, hone _ _⟩

theorem Replays.changes (hr : Replays l typeOf h m) {changes : List (Change × List Entry)}
    (htyped : ∀ c ∈ changes, ∀ e ∈ c.2, e.typeName = typeOf e.id) :
    (changes.foldl (fun h c => h.change c.1 c.2) h).listeners = h.listeners ∧
      ∃ m', Replays l typeOf (changes.foldl (fun h c => h.change c.1 c.2) h) m' := by
  induction changes generalizing h m with
  | nil => exact ⟨rfl, m, hr⟩
  | cons c changes ih =>
    obtain ⟨hc, hrest⟩ := List.forall_mem_cons.1 htyped
    obtain ⟨hlisteners, hlast⟩ := ih (hr.change hc) hrest
    exact ⟨hlisteners.trans (listeners_change h c.1 c.2), hlast⟩

/-- After an operation the store keeps a ledger that the replay agrees with, as it did before. -/
theorem Replays.perform (hr : Replays l typeOf h m) {v : Volume} {op : Op}
    (hused : ∀ e ∈ h.usedBy v op, e.typeName = typeOf e.id) :
    ((h.perform op).run v).1.listeners = h.listeners ∧
      ∃ m', Replays l typeOf ((h.perform op).run v).1 m' := by
  obtain ⟨inbound, changes, hrun, hchanges⟩ := exists_changes h v op
  have hstart : Replays l typeOf { h with inbound } m := ⟨hr.keeps, hr.typed, hr.heard⟩
  rw [hrun]
  refine hstart.changes fun c hc e he => ?_
  obtain ⟨e', he', key, rfl⟩ := hchanges c hc e he
  exact hused e' he'

theorem Replays.run (hr : Replays l typeOf h m) {v : Volume} {ops : List Op}
    (hused : ∀ e ∈ used ops (h, v), e.typeName = typeOf e.id) :
    (run ops (h, v)).1.listeners = h.listeners ∧
      ∃ m', Replays l typeOf (run ops (h, v)).1 m' := by
  induction ops generalizing h m v with
  | nil => exact ⟨rfl, m, hr⟩
  | cons op ops ih =>
    rw [used, List.forall_mem_append] at hused
    obtain ⟨hlisteners, m', hr'⟩ := hr.perform hused.1
    obtain ⟨hlisteners', hlast⟩ := ih hr' hused.2
    exact ⟨hlisteners'.trans hlisteners, hlast⟩

/-! ### The replay and the store -/

theorem replays_empty (hstore : h.store.state = .empty) (hjournal : h.journal = []) :
    Replays l typeOf h .empty where
  keeps := hstore ▸ Store.Rows.keeps_empty
  typed id e he := by simp [Ledger.empty] at he
  heard id := by simp [hjournal, Ledger.replay, Ledger.empty]

/-- The entries of a replay are those of the ledger with a type that the listener hears of. -/
theorem Replays.list_perm (hr : Replays l typeOf h m) :
    (Ledger.replay l h.journal).list.Perm
      (m.list.filter fun e => l ∈ h.listeners.get e.typeName) := by
  have hnamed := Ledger.named_replay l h.journal
  refine (List.perm_ext_iff_of_nodup hnamed.nodup_list (hr.keeps.named.nodup_list.filter _)).2 ?_
  intro e
  rw [hnamed.mem_list, hr.heard, List.mem_filter, hr.keeps.named.mem_list, decide_eq_true_iff]
  constructor
  · intro he
    split at he
    · exact ⟨he, by rwa [hr.typed _ _ he]⟩
    · cases he
  · rintro ⟨he, hget⟩
    rw [hr.typed _ _ he] at hget
    rw [if_pos hget, he]

theorem Replays.shows (hr : Replays l typeOf h m) :
    ((Ledger.replay l h.journal).list.map Entry.withoutAddress).Perm
      (((h.store.get none).filter fun e => l ∈ h.listeners.get e.typeName).map
        Entry.withoutAddress) := by
  have hstore : (h.store.get none).Perm (m.list.map m.shown) := hr.keeps.entries_perm
  refine (hr.list_perm.map _).trans ?_
  refine List.Perm.trans ?_ ((hstore.filter _).map _).symm
  rw [List.filter_map, List.map_map]
  exact List.Perm.refl _

/-! ### Undisturbed runs -/

theorem run_orKept {act : TryDisk (Nat × Holdings)} {v v' : Volume} {n : Nat} {h' : Holdings}
    (hrun : act.run.run v = (.ok (n, h'), v')) : (h.orKept act).run v = (h', v') := by
  rw [orKept, Disk.run_bind_eq hrun]
  rfl

variable {v : Volume} {dir : Path} {es₀ : List Entry}

/-- Where no call is refused, the inbound list holds what it held or what the operation brought, and
nothing else is used. -/
theorem perform_of_ready (hv : v.Ready dir) (hl : h.inbound.Holds v es₀) (op : Op) :
    ∃ h' v' es₁, (h.perform op).run v = (h', v') ∧ v'.Ready dir ∧ h'.inbound.Holds v' es₁ ∧
      (∀ e ∈ es₁, e ∈ es₀ ∨ e ∈ op.entries) ∧ ∀ e ∈ h.usedBy v op, e ∈ es₀ ∨ e ∈ op.entries := by
  have hkept {h' : Holdings} (hinbound : h'.inbound = h.inbound) : h'.inbound.Holds v es₀ :=
    hinbound ▸ hl
  cases op with
  | add es => exact ⟨_, v, es₀, rfl, hv, hl, fun _ => .inl, fun _ => .inr⟩
  | update es => exact ⟨_, v, es₀, rfl, hv, hl, fun _ => .inl, fun _ => .inr⟩
  | remove es => exact ⟨_, v, es₀, rfl, hv, hl, fun _ => .inl, fun _ => .inr⟩
  | applyUpdate path keys es =>
    refine ⟨_, v, es₀, rfl, hv, hkept ?_, fun _ => .inl, fun _ => .inr⟩
    obtain ⟨changes, hchanges, -⟩ := applyUpdate_eq_changes h path keys es
    rw [hchanges, inbound_foldl_change]
  | appendInbound es =>
    obtain ⟨n, v', hrun, hleads, hl'⟩ := hl.tryAdd hv es
    have happend : (h.appendInbound es).run.run v =
        (.ok (n, { h with inbound := h.inbound.renewed }), v') := by
      rw [appendInbound, TryDisk.run_bind_ok hrun]
      rfl
    refine ⟨_, v', _, run_orKept happend, hleads.ready, hl', fun e he => ?_, fun _ => .inr⟩
    exact (List.mem_append.1 he).imp_right fun he => (List.mem_filter.1 he).1
  | mergeInbound =>
    obtain ⟨v', hrun, hleads, hl'⟩ := hl.takeAll hv
    have hused : h.usedBy v .mergeInbound = es₀ := by
      rw [usedBy, hrun]
    obtain ⟨h', hmerge, hinbound⟩ : ∃ h', h.mergeInbound.run.run v = (.ok h', v') ∧
        h'.2.inbound = h.inbound.renewed := by
      rw [mergeInbound, TryDisk.run_bind_ok hrun]
      cases es₀ <;> exact ⟨_, rfl, rfl⟩
    refine ⟨_, v', [], run_orKept hmerge, hleads.ready, hinbound ▸ hl', by simp, ?_⟩
    rw [hused]
    exact fun _ => .inl

/-- Where no call is refused, all that is used is delivered at first or comes with an operation. -/
theorem mem_used (hv : v.Ready dir) (hl : h.inbound.Holds v es₀) {ops : List Op} :
    ∀ e ∈ used ops (h, v), e ∈ es₀ ∨ ∃ op ∈ ops, e ∈ op.entries := by
  induction ops generalizing h v es₀ with
  | nil => simp [used]
  | cons op ops ih =>
    obtain ⟨h', v', es₁, hrun, hv', hl', hes₁, husedBy⟩ := perform_of_ready hv hl op
    intro e he
    rw [used, hrun, List.mem_append] at he
    rcases he with he | he
    · exact (husedBy e he).imp_right fun he => ⟨op, List.mem_cons_self, he⟩
    · rcases ih hv' hl' e he with he | ⟨op', hop', he⟩
      · exact (hes₁ e he).imp_right fun he => ⟨op, List.mem_cons_self, he⟩
      · exact Or.inr ⟨op', List.mem_cons_of_mem _ hop', he⟩

/-- **A listener can follow the store.**  From an empty store and journal on, whatever is asked of
the holdings and whatever becomes of their calls to the volume: if every identifier is used with one
type only, a listener that replays what it heard has exactly the entries of the types that it is
registered for, up to the addresses of their peers.  Where no call is refused, what is used are the
entries that were delivered at first and those that come with the operations. -/
theorem replay_shows_store (h : Holdings) (v : Volume) (ops : List Op) (l : Listener)
    (hstore : h.store.state = .empty) (hjournal : h.journal = []) :
    let h' := (run ops (h, v)).1
    (∀ typeOf : EntryId → String, (∀ e ∈ used ops (h, v), e.typeName = typeOf e.id) →
      ((Ledger.replay l h'.journal).list.map Entry.withoutAddress).Perm
        (((h'.store.get none).filter fun e => l ∈ h.listeners.get e.typeName).map
          Entry.withoutAddress) ∧
      ∀ type, (∀ t, l ∈ h.listeners.get t ↔ t = type) →
        ((Ledger.replay l h'.journal).list.map Entry.withoutAddress).Perm
          (((h'.store.get none).filter fun e => e.typeName = type).map Entry.withoutAddress)) ∧
    ∀ dir es₀, v.Ready dir → h.inbound.Holds v es₀ →
      ∀ e ∈ used ops (h, v), e ∈ es₀ ∨ ∃ op ∈ ops, e ∈ op.entries := by
  intro h'
  refine ⟨fun typeOf hused => ?_, fun dir es₀ hv hl => mem_used hv hl⟩
  obtain ⟨hlisteners, m, hr⟩ := (replays_empty (l := l) hstore hjournal).run hused
  have hshows := hr.shows
  rw [hlisteners] at hshows
  refine ⟨hshows, fun type htype => ?_⟩
  simp only [htype] at hshows
  exact hshows

/-- A listener of a type hears of an entry that is added, replaced by one that was delivered and,
with another one, moved to another peer; entries of another type come and go meanwhile. -/
theorem replay_shows_store_of_delivery :
    let peer : PeerInfo := ⟨⟨"peer"⟩, "localhost:1"⟩
    let a : Entry := ⟨⟨"a"⟩, ⟨[true]⟩, "type", peer, "old"⟩
    let a' : Entry := ⟨⟨"a"⟩, ⟨[true]⟩, "type", peer, "new"⟩
    let b : Entry := ⟨⟨"b"⟩, ⟨[true]⟩, "type", peer, "item"⟩
    let c : Entry := ⟨⟨"c"⟩, ⟨[true]⟩, "other", peer, "item"⟩
    let list (name : String) : BulkList := ⟨Path.root.child name, .first, .empty⟩
    let h : Holdings :=
      { store := .named "canonical", inbound := list "inbound.csv"
        outboundDelete := list "d", outboundInsert := list "i", outboundUpdate := list "u"
        scratch := Path.root.child "scratch"
        listeners := Listeners.empty.register "type" (.named "l"), journal := [] }
    let v := (Volume.empty.put h.scratch .directory).putFile h.inbound.path []
    let ops : List Op := [.add [a, c, b], .appendInbound [a'], .mergeInbound,
      .applyUpdate ⟨[true]⟩ (.ofBits 8) [b], .remove [c]]
    ((Ledger.replay (.named "l") (run ops (h, v)).1.journal).list.map Entry.withoutAddress).Perm
      ((((run ops (h, v)).1.store.get none).filter fun e => e.typeName = "type").map
        Entry.withoutAddress) := by
  intro peer a a' b c list h v ops
  have hfree (k : Nat) : h.scratch.child (ScratchFile.nameOf k) ≠ h.inbound.path ∧
      h.scratch.child (ScratchFile.nameOf k) ≠ h.scratch := by
    simp [h, list, Path.child, Path.root]
  have hv : v.Ready h.scratch := by
    refine ⟨rfl, ⟨by decide, by decide⟩, fun k _ => ?_⟩
    refine (Volume.item?_put_of_ne (hfree k).1 _).trans ?_
    refine (Volume.item?_put_of_ne (hfree k).2 _).trans ?_
    simp [Volume.item?, Volume.child_ne_root, Volume.empty]
  have hl : h.inbound.Holds v [] :=
    BulkList.holds_of_hasFile_nil (Volume.hasFile_putFile (by decide) (by decide) (by decide) [])
  let typeOf (id : EntryId) : String := if id = ⟨"c"⟩ then "other" else "type"
  obtain ⟨hshows, hused⟩ := replay_shows_store h v ops (.named "l") rfl rfl
  refine (hshows typeOf fun e he => ?_).2 "type" fun t => ?_
  · have hall : ∀ op ∈ ops, ∀ e ∈ op.entries, e.typeName = typeOf e.id := by decide
    rcases hused h.scratch [] hv hl e he with he | ⟨op, hop, he⟩
    · cases he
    · exact hall op hop e he
  · by_cases ht : "type" = t
    · simp [h, Listeners.register, Listeners.get, Listeners.empty, ht]
    · simp [h, Listeners.register, Listeners.get, Listeners.empty, ht, Ne.symm ht]

end Holdings

end TrieOverlay
