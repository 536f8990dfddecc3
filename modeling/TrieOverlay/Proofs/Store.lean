import Std.Data.ExtTreeMap.Lemmas
import TrieOverlay.Store

/-!
# Which key an identifier is stored under

`Store.Rows.keyAt?` is the key of the entry with an identifier.  Putting an entry and deleting an
identifier change it for this identifier and for no other one; the contact address that an entry
shows may change with the entries of its peer, its key does not.

In a `Linked` store the place of every row is the one that is known for its identifier, so an
identifier has one row at most, and the foreign entries are those whose keys are not compatible with
the path (`Linked.keyAt?_of_mem_foreignTo`).
-/

namespace TrieOverlay.Store.Rows

variable {s s' : Store.Rows} {e : Entry} {es : List Entry} {id : EntryId} {key path : Key}

/-- The key of the entry with an identifier. -/
def keyAt? (s : Store.Rows) (id : EntryId) : Option Key :=
  (s.find? id).map (·.key)

theorem keyAt?_eq (s : Store.Rows) (id : EntryId) :
    s.keyAt? id = s.keyOf[id]?.bind fun key => s.rows[RowPlace.mk key id]?.map fun _ => key := by
  rw [keyAt?, find?]
  cases s.keyOf[id]? with
  | none => rfl
  | some key =>
    simp only [Option.bind_eq_bind, Option.bind_some]
    cases s.rows[RowPlace.mk key id]? <;> rfl

theorem keyAt?_delete (s : Store.Rows) (id id' : EntryId) :
    (s.delete id').2.keyAt? id = if id = id' then none else s.keyAt? id := by
  rw [keyAt?_eq, keyAt?_eq, delete]
  by_cases hid : id = id'
  · subst hid
    cases hkey : s.keyOf[id]? with
    | none => simp [hkey]
    | some key =>
      cases hrow : s.rows[RowPlace.mk key id]? <;> simp [hrow]
  · rw [if_neg hid]
    cases hkey : s.keyOf[id']? with
    | none => rfl
    | some key =>
      have hplace : ∀ k, RowPlace.mk key id' ≠ RowPlace.mk k id := fun k h =>
        hid (RowPlace.mk.inj h).2.symm
      cases hrow : s.rows[RowPlace.mk key id']? <;>
        simp [hrow, Std.ExtTreeMap.getElem?_erase, Std.LawfulEqCmp.compare_eq_iff_eq,
          Ne.symm hid, hplace]

theorem keyAt?_upsert (s : Store.Rows) (e : Entry) (id : EntryId) :
    (s.upsert e).keyAt? id = if id = e.id then some e.key else s.keyAt? id := by
  by_cases hid : id = e.id
  · subst hid
    rw [keyAt?_eq, upsert]
    simp
  · have hplace : ∀ k, RowPlace.mk e.key e.id ≠ RowPlace.mk k id := fun k h =>
      hid (RowPlace.mk.inj h).2.symm
    have hdelete := keyAt?_delete s id e.id
    rw [if_neg hid] at hdelete ⊢
    rw [← hdelete, keyAt?_eq, keyAt?_eq, upsert]
    simp [Std.ExtTreeMap.getElem?_insert, Std.LawfulEqCmp.compare_eq_iff_eq, Ne.symm hid, hplace]

theorem keyAt?_deleteAll (s : Store.Rows) (ids : List EntryId) (id : EntryId) :
    (s.deleteAll ids).2.keyAt? id = if id ∈ ids then none else s.keyAt? id := by
  induction ids generalizing s with
  | nil => simp [deleteAll]
  | cons id' ids ih =>
    simp only [deleteAll, ih, keyAt?_delete, List.mem_cons]
    split <;> split <;> simp_all

/-! ### Putting several entries -/

/-- What entries put under a key stays there if no later one puts it elsewhere. -/
theorem keyAt?_foldl_upsert (h : ∀ e ∈ es, e.id = id → e.key = key)
    (hs : s.keyAt? id = some key ∨ ∃ e ∈ es, e.id = id) :
    (es.foldl upsert s).keyAt? id = some key := by
  induction es generalizing s with
  | nil => simpa using hs
  | cons e es ih =>
    obtain ⟨he, hes⟩ := List.forall_mem_cons.1 h
    refine ih hes ?_
    rw [keyAt?_upsert]
    split
    · rename_i hid
      rw [he hid.symm]
      exact Or.inl rfl
    · rename_i hid
      rcases hs with hs | ⟨e', he', hid'⟩
      · exact Or.inl hs
      · rcases List.mem_cons.1 he' with rfl | he'
        · exact absurd hid'.symm hid
        · exact Or.inr ⟨e', he', hid'⟩

/-- Putting other identifiers leaves an identifier where it is. -/
theorem keyAt?_foldl_upsert_of_ne (h : ∀ e ∈ es, e.id ≠ id) :
    (es.foldl upsert s).keyAt? id = s.keyAt? id := by
  induction es generalizing s with
  | nil => rfl
  | cons e es ih =>
    obtain ⟨he, hes⟩ := List.forall_mem_cons.1 h
    rw [List.foldl_cons, ih hes, keyAt?_upsert, if_neg (Ne.symm he)]

/-- Whether entries bring an identifier under a key does not depend on what else was stored. -/
theorem keyAt?_foldl_upsert_congr (h : s.keyAt? id = some key → s'.keyAt? id = some key)
    (hs : (es.foldl upsert s).keyAt? id = some key) :
    (es.foldl upsert s').keyAt? id = some key := by
  induction es generalizing s s' with
  | nil => exact h hs
  | cons e es ih =>
    refine ih ?_ hs
    rw [keyAt?_upsert, keyAt?_upsert]
    split
    · exact fun hkey => hkey
    · exact h

/-- An identifier is under a key after putting entries only if one of them brings it or it was
there. -/
theorem exists_of_keyAt?_foldl_upsert (h : (es.foldl upsert s).keyAt? id = some key) :
    (∃ e ∈ es, e.id = id ∧ e.key = key) ∨ s.keyAt? id = some key := by
  induction es generalizing s with
  | nil => exact Or.inr h
  | cons e es ih =>
    rcases ih h with ⟨e', he', hrest⟩ | hs
    · exact Or.inl ⟨e', List.mem_cons_of_mem _ he', hrest⟩
    · rw [keyAt?_upsert] at hs
      split at hs
      · rename_i hid
        exact Or.inl ⟨e, List.mem_cons_self .., hid.symm, Option.some.inj hs⟩
      · exact Or.inr hs

/-! ### Rows and their places -/

/-- The place of every row is the one that is known for its identifier. -/
def Linked (s : Store.Rows) : Prop :=
  ∀ (place : RowPlace) (row : Row),
    s.rows[place]? = some row → s.keyOf[place.id]? = some place.key

theorem linked_empty : Linked empty := by
  intro place row h
  simp [empty] at h

theorem Linked.delete (h : s.Linked) (id : EntryId) : (s.delete id).2.Linked := by
  rw [Store.Rows.delete]
  cases hkey : s.keyOf[id]? with
  | none => exact h
  | some key =>
    simp only
    cases hrow : s.rows[RowPlace.mk key id]? with
    | none =>
      intro place row hplace
      have hold := h place row hplace
      have hne : id ≠ place.id := by
        rintro rfl
        obtain rfl : place.key = key := Option.some.inj (hold.symm.trans hkey)
        exact absurd (hplace.symm.trans hrow) (by simp)
      simp only [Std.ExtTreeMap.getElem?_erase, Std.LawfulEqCmp.compare_eq_iff_eq, if_neg hne]
      exact hold
    | some row' =>
      -- the erased row was the only one of the identifier
      intro place row hplace
      simp only [Std.ExtTreeMap.getElem?_erase, Std.LawfulEqCmp.compare_eq_iff_eq] at hplace
      split at hplace
      · cases hplace
      · rename_i hplace'
        have hold := h place row hplace
        have hne : id ≠ place.id := by
          rintro rfl
          obtain rfl : place.key = key := Option.some.inj (hold.symm.trans hkey)
          exact hplace' rfl
        simp only [Std.ExtTreeMap.getElem?_erase, Std.LawfulEqCmp.compare_eq_iff_eq, if_neg hne]
        exact hold

theorem keyOf_delete (s : Store.Rows) (id : EntryId) : (s.delete id).2.keyOf[id]? = none := by
  rw [Store.Rows.delete]
  cases hkey : s.keyOf[id]? with
  | none => exact hkey
  | some key =>
    simp only
    cases s.rows[RowPlace.mk key id]? <;> simp

theorem Linked.upsert (h : s.Linked) (e : Entry) : (s.upsert e).Linked := by
  have hdeleted := h.delete e.id
  intro place row hplace
  rw [Store.Rows.upsert] at hplace ⊢
  simp only [Std.ExtTreeMap.getElem?_insert, Std.LawfulEqCmp.compare_eq_iff_eq] at hplace ⊢
  split at hplace
  · rename_i hnew
    subst hnew
    rw [if_pos rfl]
  · have hold := hdeleted place row hplace
    have hne : e.id ≠ place.id := fun hc => by
      rw [← hc, keyOf_delete] at hold
      cases hold
    rw [if_neg hne]
    exact hold

theorem Linked.foldl_upsert (h : s.Linked) (es : List Entry) : (es.foldl .upsert s).Linked := by
  induction es generalizing s with
  | nil => exact h
  | cons e es ih => exact ih (h.upsert e)

theorem Linked.deleteAll (h : s.Linked) (ids : List EntryId) : (s.deleteAll ids).2.Linked := by
  induction ids generalizing s with
  | nil => exact h
  | cons id ids ih => exact ih (h.delete id)

/-- A foreign entry is stored under a key that is not compatible with the path. -/
theorem Linked.keyAt?_of_mem_foreignTo (h : s.Linked) (he : e ∈ s.foreignTo path) :
    s.keyAt? e.id = some e.key ∧ e.key.isCompatibleWith path = false := by
  obtain ⟨⟨place, row⟩, hplace, rfl⟩ := List.mem_map.1 he
  obtain ⟨hrow, hforeign⟩ := List.mem_filter.1 hplace
  rw [Std.ExtTreeMap.mem_toList_iff_getElem?_eq_some] at hrow
  refine ⟨?_, show place.key.isCompatibleWith path = false by simpa using hforeign⟩
  rw [keyAt?_eq, show s.keyOf[(s.entryOf place row).id]? = some place.key from h place row hrow,
    Option.bind_some]
  change (s.rows[place]?.map fun _ => place.key) = _
  rw [hrow]
  rfl

end TrieOverlay.Store.Rows
