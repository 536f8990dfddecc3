import TrieOverlay.Proofs.Store.Replay

/-!
# Changes of different identifiers

A store is changed by putting an entry or by dropping an identifier (`Edit`).  Two stores agree on
an identifier (`AgreeOn`) if it has the same key and the same rows in both; what they know of the
address of its peer may differ.

An edit touches its own identifier only (`Store.Rows.agree_edit_of_ne`), and what it makes of that
one depends on what was known of it and on nothing else (`Store.Rows.AgreeOn.edit`).  So groups of
edits may change places if no identifier is in two of them (`Store.Rows.agree_of_perm`).  Stores
that agree on all identifiers are `Alike`: they show the same entries up to the addresses
(`Store.Rows.Alike.entries`).
-/

namespace TrieOverlay

/-- A change of a store. -/
inductive Edit where
  /-- An entry is put, in the place of the one with its identifier. -/
  | put (e : Entry)
  /-- The entry with an identifier is dropped. -/
  | drop (id : EntryId)

namespace Edit

/-- The identifier that an edit is about. -/
def id : Edit → EntryId
  | put e => e.id
  | drop id => id

/-- No identifier is in both of two groups of edits. -/
def Apart (xs ys : List Edit) : Prop :=
  ∀ x ∈ xs, ∀ y ∈ ys, x.id ≠ y.id

theorem Apart.symm {xs ys : List Edit} (h : Apart xs ys) : Apart ys xs :=
  fun y hy x hx => (h x hx y hy).symm

end Edit

namespace Store.Rows

variable {s s' s'' : Store.Rows} {id id' : EntryId} {e : Entry} {x : Edit} {xs ys : List Edit}
  {m m' : Ledger}

/-- The rows after an edit. -/
def edit (s : Store.Rows) : Edit → Store.Rows
  | .put e => s.upsert e
  | .drop id => (s.delete id).2

/-- The rows after several edits. -/
def edits (s : Store.Rows) (xs : List Edit) : Store.Rows :=
  xs.foldl edit s

theorem edits_append (s : Store.Rows) (xs ys : List Edit) :
    s.edits (xs ++ ys) = (s.edits xs).edits ys :=
  List.foldl_append

theorem edits_put (s : Store.Rows) (es : List Entry) :
    s.edits (es.map .put) = es.foldl .upsert s :=
  List.foldl_map

theorem edits_drop (s : Store.Rows) (ids : List EntryId) :
    s.edits (ids.map .drop) = (s.deleteAll ids).2 := by
  induction ids generalizing s with
  | nil => rfl
  | cons id ids ih => exact ih _

/-! ### One identifier -/

/-- Two stores know the same of an identifier. -/
structure AgreeOn (id : EntryId) (s s' : Store.Rows) : Prop where
  keyOf : s.keyOf[id]? = s'.keyOf[id]?
  rows : ∀ key : Key, s.rows[RowPlace.mk key id]? = s'.rows[RowPlace.mk key id]?

namespace AgreeOn

@[refl] theorem refl (id : EntryId) (s : Store.Rows) : AgreeOn id s s :=
  ⟨rfl, fun _ => rfl⟩

theorem symm (h : AgreeOn id s s') : AgreeOn id s' s :=
  ⟨h.keyOf.symm, fun key => (h.rows key).symm⟩

theorem trans (h : AgreeOn id s s') (h' : AgreeOn id s' s'') : AgreeOn id s s'' :=
  ⟨h.keyOf.trans h'.keyOf, fun key => (h.rows key).trans (h'.rows key)⟩

end AgreeOn

/-- Deleting an identifier leaves the others alone. -/
theorem agree_delete_of_ne (h : id' ≠ id) : AgreeOn id (s.delete id').2 s := by
  have hplace : ∀ k k', RowPlace.mk k id' ≠ RowPlace.mk k' id := fun _ _ hc =>
    h (RowPlace.mk.inj hc).2
  rw [delete]
  cases s.keyOf[id']? with
  | none => rfl
  | some key =>
    dsimp only
    cases s.rows[RowPlace.mk key id']? with
    | none => constructor <;> simp [Std.ExtTreeMap.getElem?_erase, h]
    | some row => constructor <;> simp [Std.ExtTreeMap.getElem?_erase, h, hplace]

/-- Putting an entry leaves the other identifiers alone. -/
theorem agree_upsert_of_ne (h : e.id ≠ id) : AgreeOn id (s.upsert e) s := by
  have hplace : ∀ k k', RowPlace.mk k e.id ≠ RowPlace.mk k' id := fun _ _ hc =>
    h (RowPlace.mk.inj hc).2
  refine AgreeOn.trans ?_ (agree_delete_of_ne h)
  constructor <;> simp [upsert, Std.ExtTreeMap.getElem?_insert, h, hplace]

/-- What is left of an identifier that is deleted depends on what was known of it. -/
theorem AgreeOn.delete_self (h : AgreeOn id s s') :
    AgreeOn id (s.delete id).2 (s'.delete id).2 := by
  rw [Rows.delete, Rows.delete, ← h.keyOf]
  cases s.keyOf[id]? with
  | none => exact h
  | some key =>
    dsimp only
    rw [← h.rows key]
    cases s.rows[RowPlace.mk key id]? with
    | none => exact ⟨by simp, h.rows⟩
    | some row =>
      refine ⟨by simp, fun key' => ?_⟩
      simp only [Std.ExtTreeMap.getElem?_erase, h.rows key']

theorem AgreeOn.delete (h : AgreeOn id s s') (id' : EntryId) :
    AgreeOn id (s.delete id').2 (s'.delete id').2 := by
  by_cases hid : id' = id
  · subst hid
    exact h.delete_self
  · exact (agree_delete_of_ne hid).trans (h.trans (agree_delete_of_ne hid).symm)

theorem AgreeOn.upsert (h : AgreeOn id s s') (e : Entry) :
    AgreeOn id (s.upsert e) (s'.upsert e) := by
  have hdelete := h.delete e.id
  constructor
  · simp only [Rows.upsert, Std.ExtTreeMap.getElem?_insert, hdelete.keyOf]
  · intro key
    simp only [Rows.upsert, Std.ExtTreeMap.getElem?_insert, hdelete.rows key]

/-! ### Edits -/

theorem agree_edit_of_ne (h : x.id ≠ id) : AgreeOn id (s.edit x) s := by
  cases x with
  | put e => exact agree_upsert_of_ne h
  | drop id' => exact agree_delete_of_ne h

theorem AgreeOn.edit (h : AgreeOn id s s') (x : Edit) : AgreeOn id (s.edit x) (s'.edit x) := by
  cases x with
  | put e => exact h.upsert e
  | drop id' => exact h.delete id'

theorem agree_edits_of_ne (h : ∀ x ∈ xs, x.id ≠ id) : AgreeOn id (s.edits xs) s := by
  induction xs generalizing s with
  | nil => rfl
  | cons x xs ih =>
    obtain ⟨hx, hxs⟩ := List.forall_mem_cons.1 h
    exact (ih hxs).trans (agree_edit_of_ne hx)

theorem AgreeOn.edits (h : AgreeOn id s s') (xs : List Edit) :
    AgreeOn id (s.edits xs) (s'.edits xs) := by
  induction xs generalizing s s' with
  | nil => exact h
  | cons x xs ih => exact ih (h.edit x)

/-- Two groups of edits without a common identifier may change places. -/
theorem agree_edits_swap (h : Edit.Apart xs ys) (id : EntryId) :
    AgreeOn id ((s.edits xs).edits ys) ((s.edits ys).edits xs) := by
  by_cases hid : ∃ x ∈ xs, x.id = id
  · -- the second group is not about the identifier
    obtain ⟨x, hx, rfl⟩ := hid
    have hys : ∀ y ∈ ys, y.id ≠ x.id := fun y hy => (h x hx y hy).symm
    exact (agree_edits_of_ne hys).trans ((agree_edits_of_ne hys).symm.edits xs)
  · have hxs : ∀ x ∈ xs, x.id ≠ id := fun x hx hc => hid ⟨x, hx, hc⟩
    exact ((agree_edits_of_ne hxs).edits ys).trans (agree_edits_of_ne hxs).symm

/-- **Groups of edits commute** if no identifier is in two of them. -/
theorem agree_of_perm {xss yss : List (List Edit)} (hperm : xss.Perm yss)
    (hapart : xss.Pairwise Edit.Apart) (id : EntryId) (s : Store.Rows) :
    AgreeOn id (s.edits xss.flatten) (s.edits yss.flatten) := by
  induction hperm generalizing s with
  | nil => rfl
  | @cons xs xss yss _ ih =>
    rw [List.flatten_cons, List.flatten_cons, edits_append, edits_append]
    exact ih hapart.of_cons _
  | swap xs ys xss =>
    have hapart' : Edit.Apart ys xs := List.rel_of_pairwise_cons hapart List.mem_cons_self
    simp only [List.flatten_cons, edits_append]
    exact (agree_edits_swap hapart' id).edits xss.flatten
  | trans hperm _ ih ih' =>
    have hapart' := (hperm.pairwise_iff fun h => Edit.Apart.symm h).1 hapart
    exact (ih hapart s).trans (ih' hapart' s)

/-! ### All identifiers -/

/-- Two stores have the same rows; only the addresses of the peers may differ. -/
structure Alike (s s' : Store.Rows) : Prop where
  rows : s.rows = s'.rows
  keyOf : s.keyOf = s'.keyOf

theorem alike_of_agree (h : ∀ id, AgreeOn id s s') : s.Alike s' := by
  constructor
  · ext1 place
    exact (h place.id).rows place.key
  · ext1 id
    exact (h id).keyOf

/-- The entry of a row, without the address. -/
theorem Keeps.withoutAddress_entryOf (h : s.Keeps m) (place : RowPlace) (row : Row) :
    (s.entryOf place row).withoutAddress =
      ⟨place.id, place.key, row.typeName, ⟨row.peer, ""⟩, row.payload⟩ := by
  rw [Rows.entryOf, h.peers]
  split
  · rename_i record hrecord
    split at hrecord
    · cases hrecord
    · obtain rfl := Option.some.inj hrecord
      rfl
  · rfl

theorem Alike.entries (h : s.Alike s') (hs : s.Keeps m) (hs' : s'.Keeps m') :
    s.entries.map Entry.withoutAddress = s'.entries.map Entry.withoutAddress := by
  rw [Rows.entries, Rows.entries, List.map_map, List.map_map, h.rows]
  refine List.map_congr_left fun p _ => ?_
  exact (hs.withoutAddress_entryOf p.1 p.2).trans (hs'.withoutAddress_entryOf p.1 p.2).symm

end Store.Rows

end TrieOverlay
