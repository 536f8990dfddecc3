import Mathlib.Data.List.Sort
import TrieOverlay.Proofs.Store.Updates

/-!
# Removals and what is heard of them

`Holdings.remove` takes the entries with the identifiers of a batch out of the store and tells the
listeners of the batch.  The two are compared here:

* `Listeners.heard_notify_perm`: a listener hears of every entry of the batch once for every time
  that it is registered for the type of the entry.
* `Store.Rows.Keeps.entries_deleteAll`: the store shows the other entries as before, addresses
  included.
* `Store.Rows.Keeps.perm_matching_iff`: a batch is what it takes out exactly if it is *genuine*: its
  identifiers are different, and every entry of it is stored as it is.
-/

namespace TrieOverlay

variable {es : List Entry} {e : Entry} {l : Listener} {kind : Change}

/-! ### What is heard -/

namespace Listeners

/-- The entries that a listener hears of as changed in a way, event after event. -/
def heard (l : Listener) (kind : Change) (evs : List Event) : List Entry :=
  (evs.filter fun ev => ev.listener = l ∧ ev.kind = kind).flatMap (·.entries)

/-- Some entries, each once for every time that a listener is registered for its type. -/
def due (ls : Listeners) (l : Listener) (es : List Entry) : List Entry :=
  es.flatMap fun e => List.replicate ((ls.get e.typeName).count l) e

theorem count_due (ls : Listeners) (l : Listener) (es : List Entry) (e : Entry) :
    (ls.due l es).count e = es.count e * (ls.get e.typeName).count l := by
  induction es with
  | nil => simp [due]
  | cons e' es ih =>
    rw [due, List.flatMap_cons, List.count_append, ← due, ih, List.count_cons,
      List.count_replicate]
    by_cases he : e' = e
    · simp [he, Nat.add_mul, Nat.add_comm]
    · simp [he]

/-- Where their types have listeners, these tell two batches apart. -/
theorem perm_due_iff {ls : Listeners} {es es' : List Entry}
    (h : ∀ e ∈ es ++ es', ls.get e.typeName ≠ []) :
    (∀ l, (ls.due l es).Perm (ls.due l es')) ↔ es.Perm es' := by
  constructor
  · intro hdue
    rw [List.perm_iff_count]
    intro e
    by_cases hnone : ls.get e.typeName = []
    · have hnot : e ∉ es ++ es' := fun he => h e he hnone
      rw [List.mem_append, not_or] at hnot
      rw [List.count_eq_zero_of_not_mem hnot.1, List.count_eq_zero_of_not_mem hnot.2]
    · obtain ⟨l, hl⟩ := List.exists_mem_of_ne_nil _ hnone
      have hcount := (hdue l).count_eq e
      rw [count_due, count_due] at hcount
      exact Nat.eq_of_mul_eq_mul_right (List.count_pos_iff.2 hl) hcount
  · intro hperm l
    exact hperm.flatMap_right _

theorem count_group (type : String) (es : List Entry) (e : Entry) :
    (group type es).count e = if e.typeName = type then es.count e else 0 := by
  split
  · exact List.count_filter (by simpa using ‹_›)
  · rw [List.count_eq_zero]
    simp [group, *]

/-- The groups of some types, each so many times, have the entries of these types so many times. -/
theorem count_flatMap_group {types : List String} (h : types.Nodup) (n : String → Nat)
    (es : List Entry) (e : Entry) :
    (types.flatMap fun t => (List.replicate (n t) (group t es)).flatten).count e =
      if e.typeName ∈ types then es.count e * n e.typeName else 0 := by
  induction types with
  | nil => simp
  | cons t types ih =>
    obtain ⟨ht, htypes⟩ := List.nodup_cons.1 h
    rw [List.flatMap_cons, List.count_append, ih htypes, List.count_flatten, List.map_replicate,
      List.sum_replicate_nat, count_group]
    by_cases he : e.typeName = t
    · subst he
      simp [ht, Nat.mul_comm]
    · simp [he]

theorem mem_keys_byType (es : List Entry) (type : String) :
    type ∈ (byType es).keys ↔ group type es ≠ [] := by
  rw [Std.ExtTreeMap.mem_keys, Std.ExtTreeMap.mem_iff_isSome_getElem?, getElem?_byType]
  split <;> simp [*]

theorem notify_eq (ls : Listeners) (kind : Change) (es : List Entry) :
    ls.notify kind es = (byType es).keys.flatMap fun type =>
      (ls.get type).map fun l => ⟨l, kind, group type es⟩ := by
  rw [notify, ← Std.ExtTreeMap.map_fst_toList_eq_keys, List.flatMap_map]
  refine List.flatMap_congr ?_
  rintro ⟨type, entries⟩ hgroup
  rw [Std.ExtTreeMap.mem_toList_iff_getElem?_eq_some, getElem?_byType] at hgroup
  split at hgroup
  · cases hgroup
  · rw [← Option.some.inj hgroup]

/-- A listener hears of the group of a type once for every time that it is registered for it. -/
theorem heard_notify_eq (ls : Listeners) (l : Listener) (kind : Change) (es : List Entry) :
    heard l kind (ls.notify kind es) = (byType es).keys.flatMap fun type =>
      (List.replicate ((ls.get type).count l) (group type es)).flatten := by
  rw [heard, notify_eq, List.filter_flatMap, List.flatMap_assoc]
  refine List.flatMap_congr fun type _ => ?_
  have hone : ((fun ev : Event => decide (ev.listener = l ∧ ev.kind = kind)) ∘
      fun l' => Event.mk l' kind (group type es)) = (· == l) := by
    funext l'
    simp [beq_eq_decide]
  rw [List.filter_map, hone, List.filter_beq, List.flatMap_map, List.flatMap_def,
    List.map_replicate]

/-- A listener hears of every entry of a batch once for every time that it is registered for the
type of the entry. -/
theorem heard_notify_perm (ls : Listeners) (l : Listener) (kind : Change) (es : List Entry) :
    (heard l kind (ls.notify kind es)).Perm (ls.due l es) := by
  rw [List.perm_iff_count]
  intro e
  rw [heard_notify_eq, count_flatMap_group Std.ExtTreeMap.nodup_keys, count_due]
  split
  · rfl
  · rename_i hnot
    rw [mem_keys_byType, not_not] at hnot
    have hcount := count_group e.typeName es e
    rw [hnot, if_pos rfl] at hcount
    simp [← hcount]

/-- Of a change of another kind nothing is heard. -/
theorem heard_notify_of_ne {kind' : Change} (ls : Listeners) (l : Listener) (es : List Entry)
    (h : kind' ≠ kind) : heard l kind (ls.notify kind' es) = [] := by
  have hnone : (ls.notify kind' es).filter (fun ev => ev.listener = l ∧ ev.kind = kind) = [] := by
    rw [List.filter_eq_nil_iff]
    intro ev hev
    obtain ⟨-, -, -, hkind, -⟩ := mem_notify_iff.1 hev
    simp [hkind, h]
  rw [heard, hnone, List.flatMap_nil]

theorem heard_append (l : Listener) (kind : Change) (evs evs' : List Event) :
    heard l kind (evs ++ evs') = heard l kind evs ++ heard l kind evs' := by
  rw [heard, List.filter_append, List.flatMap_append]
  rfl

@[simp] theorem notify_nil (ls : Listeners) (kind : Change) : ls.notify kind [] = [] := rfl

end Listeners

namespace Holdings

theorem journal_updateSome (h : Holdings) (es : List Entry) :
    (h.updateSome es).journal = h.journal ++ h.listeners.notify .updated es := by
  cases es with
  | nil => simp [updateSome]
  | cons e es => rfl

theorem journal_removeSome (h : Holdings) (es : List Entry) :
    (h.removeSome es).journal = h.journal ++ h.listeners.notify .deleted es := by
  cases es with
  | nil => simp [removeSome]
  | cons e es => rfl

theorem listeners_updateSome (h : Holdings) (es : List Entry) :
    (h.updateSome es).listeners = h.listeners := by
  cases es <;> rfl

end Holdings

/-! ### What is taken out -/

theorem Entry.Before.asymm {a b : Entry} (h : a.Before b) : ¬ b.Before a := by
  rcases h with h | ⟨hkey, h⟩ <;> rintro (h' | ⟨hkey', h'⟩)
  · exact absurd (Std.OrientedCmp.gt_of_lt h) (by simp [h'])
  · simp [hkey'] at h
  · simp [hkey] at h'
  · exact absurd (Std.OrientedCmp.gt_of_lt h) (by simp [h'])

instance : Std.Asymm Entry.Before :=
  ⟨fun _ _ => Entry.Before.asymm⟩

namespace Store.Rows

variable {s : Store.Rows} {m : Ledger} {id : EntryId}

/-- The entries of a store have different identifiers. -/
theorem Keeps.eq_of_id (h : s.Keeps m) {e e' : Entry} (he : e ∈ s.entries) (he' : e' ∈ s.entries)
    (hid : e.id = e'.id) : e = e' := by
  obtain ⟨a, ha, rfl⟩ := List.mem_map.1 (h.mem_entries.1 he)
  obtain ⟨b, hb, rfl⟩ := List.mem_map.1 (h.mem_entries.1 he')
  have hab : a.id = b.id := hid
  rw [h.named.mem_list] at ha hb
  rw [hab, hb] at ha
  rw [Option.some.inj ha]

theorem Keeps.nodup_ids (h : s.Keeps m) : (s.entries.map (·.id)).Nodup := by
  rw [(h.entries_perm.map _).nodup_iff, List.map_map,
    show (fun e : Entry => e.id) ∘ m.shown = (·.id) from rfl, h.named.map_id_list]
  exact Std.ExtTreeMap.nodup_keys

theorem Keeps.contains_iff (h : s.Keeps m) :
    s.keyOf.contains id = true ↔ ∃ e ∈ s.entries, e.id = id := by
  rw [h.exists_mem_entries, Std.ExtTreeMap.contains_eq_isSome_getElem?, h.keyOf, Option.isSome_map]

/-- Deleting identifiers leaves the entries with other ones, with the addresses they showed. -/
theorem Keeps.entries_deleteAll (h : s.Keeps m) (es : List Entry) :
    (s.deleteAll (es.map (·.id))).2.entries =
      s.entries.filter fun e => e.id ∉ es.map (·.id) := by
  have hafter := (h.deletes es).2
  have hlist : ∀ a, a ∈ (es.foldl (fun m e => m.erase e.id) m).list ↔
      a ∈ m.list ∧ a.id ∉ es.map (·.id) := by
    intro a
    rw [hafter.named.mem_list, h.named.mem_list, Ledger.getElem?_foldl_erase,
      BulkList.isSome_lastWithId?]
    by_cases hid : a.id ∈ es.map (·.id) <;> simp [hid]
  refine (pairwise_entries _).eq_of_mem_iff (s.pairwise_entries.filter _) fun e => ?_
  rw [hafter.mem_entries, Ledger.shown_foldl_erase, List.mem_filter, h.mem_entries, List.mem_map,
    List.mem_map, decide_eq_true_iff]
  constructor
  · rintro ⟨a, ha, rfl⟩
    obtain ⟨ha, hid⟩ := (hlist a).1 ha
    exact ⟨⟨a, ha, rfl⟩, hid⟩
  · rintro ⟨⟨a, ha, rfl⟩, hid⟩
    exact ⟨a, (hlist a).2 ⟨ha, hid⟩, rfl⟩

/-- The entries of a store with the identifiers of a batch. -/
def matching (s : Store.Rows) (es : List Entry) : List Entry :=
  s.entries.filter fun e => (es.map (·.id)).contains e.id

theorem matching_eq (s : Store.Rows) (es : List Entry) :
    s.matching es = s.entries.filter fun e => e.id ∈ es.map (·.id) :=
  List.filter_congr fun _ _ => List.contains_eq_mem ..

theorem Keeps.nodup_matching (h : s.Keeps m) (es : List Entry) :
    ((s.matching es).map (·.id)).Nodup :=
  h.nodup_ids.sublist (List.filter_sublist.map _)

theorem mem_matching : e ∈ s.matching es ↔ e ∈ s.entries ∧ e.id ∈ es.map (·.id) := by
  rw [matching_eq, List.mem_filter, decide_eq_true_iff]

/-- As many entries are deleted as match. -/
theorem Keeps.fst_deleteAll (h : s.Keeps m) (es : List Entry) :
    (s.deleteAll (es.map (·.id))).1 = (s.matching es).length := by
  have hamong : m.among es = ((s.matching es).map (·.id)).toFinset := by
    ext id
    simp only [Ledger.among, Finset.mem_filter, List.mem_toFinset,
      Std.ExtTreeMap.contains_eq_isSome_getElem?, ← h.exists_mem_entries]
    rw [List.mem_map (l := s.matching es)]
    simp only [mem_matching]
    grind
  rw [(h.deletes es).1, hamong, List.toFinset_card_of_nodup (h.nodup_matching es), List.length_map]

/-- A batch deletes as many entries as it has exactly if its identifiers are different and all of
them are stored. -/
theorem Keeps.length_matching_iff (h : s.Keeps m) (es : List Entry) :
    (s.matching es).length = es.length ↔
      (es.map (·.id)).Nodup ∧ ∀ e ∈ es, s.keyOf.contains e.id = true := by
  have hsubset : (s.matching es).map (·.id) ⊆ es.map (·.id) := by
    intro id hid
    obtain ⟨e, he, rfl⟩ := List.mem_map.1 hid
    exact (mem_matching.1 he).2
  constructor
  · intro hlength
    have hperm : ((s.matching es).map (·.id)).Perm (es.map (·.id)) :=
      (List.subperm_of_subset (h.nodup_matching es) hsubset).perm_of_length_le (by simp [hlength])
    refine ⟨hperm.nodup_iff.1 (h.nodup_matching es), fun e he => ?_⟩
    obtain ⟨e', he', hid⟩ := List.mem_map.1 (hperm.mem_iff.2 (List.mem_map_of_mem he))
    exact h.contains_iff.2 ⟨e', (mem_matching.1 he').1, hid⟩
  · rintro ⟨hnodup, hall⟩
    have hperm : ((s.matching es).map (·.id)).Perm (es.map (·.id)) := by
      refine (List.perm_ext_iff_of_nodup (h.nodup_matching es) hnodup).2 fun id =>
        ⟨fun hid => hsubset hid, fun hid => ?_⟩
      obtain ⟨e, he, rfl⟩ := List.mem_map.1 hid
      obtain ⟨e', he', hid'⟩ := h.contains_iff.1 (hall e he)
      exact List.mem_map.2 ⟨e', mem_matching.2 ⟨he', hid' ▸ hid⟩, hid'⟩
    simpa using hperm.length_eq

/-- A batch is what it deletes exactly if its identifiers are different and the store has its
entries as they are. -/
theorem Keeps.perm_matching_iff (h : s.Keeps m) (es : List Entry) :
    es.Perm (s.matching es) ↔ (es.map (·.id)).Nodup ∧ ∀ e ∈ es, e ∈ s.entries := by
  constructor
  · intro hperm
    refine ⟨(hperm.map _).nodup_iff.2 (h.nodup_matching es), fun e he => ?_⟩
    exact (mem_matching.1 (hperm.mem_iff.1 he)).1
  · rintro ⟨hnodup, hall⟩
    refine (List.perm_ext_iff_of_nodup hnodup.of_map (h.nodup_matching es).of_map).2 fun e => ?_
    rw [mem_matching]
    constructor
    · intro he
      exact ⟨hall e he, List.mem_map_of_mem he⟩
    · rintro ⟨he, hid⟩
      obtain ⟨e', he', hid'⟩ := List.mem_map.1 hid
      rwa [← h.eq_of_id (hall e' he') he hid']

end Store.Rows

/-- The entries that a store has lost when it has become another one. -/
def Store.lost (s s' : Store) : List Entry :=
  (s.get none).filter fun e => !s'.contains e.id

theorem Store.lost_eq {s s' : Store} {m : Ledger} (h : s.state.Keeps m)
    (hs : s'.state = (s.state.deleteAll (es.map (·.id))).2) : s.lost s' = s.state.matching es := by
  have hafter : s'.state.Keeps (es.foldl (fun m e => m.erase e.id) m) := by
    rw [hs]
    exact (h.deletes es).2
  rw [Rows.matching_eq]
  refine List.filter_congr fun e he => ?_
  have hstays : s'.contains e.id = true ↔ e.id ∉ es.map (·.id) := by
    rw [Store.contains, hafter.contains_iff, hs, h.entries_deleteAll]
    simp only [List.mem_filter, decide_eq_true_iff]
    constructor
    · rintro ⟨e', ⟨-, hid'⟩, hid⟩
      rwa [hid] at hid'
    · intro hid
      exact ⟨e, ⟨he, hid⟩, rfl⟩
  cases hcontains : s'.contains e.id <;> simp_all

end TrieOverlay
