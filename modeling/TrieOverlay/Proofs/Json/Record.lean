import Mathlib.Data.List.Nodup
import TrieOverlay.Json.Record

/-!
# Records are read back

A record with distinct names has each of its members under its name, in whatever order it keeps
them (`Json.Written.fields?_record`), and a list has its items (`Json.Written.listOf?_array`).
-/

namespace TrieOverlay.Json

variable {name : String} {value : Json} {ms : List (String × Json)}

/-- A member with a new name comes to the others. -/
theorem insertMember_perm (h : name ∉ ms.map Prod.fst) :
    (insertMember name value ms).Perm ((name, value) :: ms) := by
  induction ms with
  | nil => exact .refl _
  | cons m ms ih =>
    obtain ⟨n, v⟩ := m
    rw [List.map_cons, List.mem_cons, not_or] at h
    rw [insertMember]
    cases hc : compare name n with
    | lt => exact .refl _
    | eq => exact absurd (Std.LawfulEqOrd.eq_of_compare hc) h.1
    | gt => exact ((ih h.2).cons _).trans (.swap ..)

/-- A record with distinct names keeps all its members. -/
theorem exists_record_eq (h : (ms.map Prod.fst).Nodup) :
    ∃ kept, record ms = .object kept ∧ kept.Perm ms := by
  -- inserting the rest one by one loses none of the members that were inserted before
  have hfold : ∀ rest done : List (String × Json), ((rest ++ done).map Prod.fst).Nodup →
      (rest.foldl (fun ms m => insertMember m.1 m.2 ms) done).Perm (rest ++ done) := by
    intro rest
    induction rest with
    | nil => exact fun done _ => .refl _
    | cons m rest ih =>
      intro done hnodup
      rw [List.cons_append, List.map_cons, List.nodup_cons] at hnodup
      have hinsert : (insertMember m.1 m.2 done).Perm (m :: done) := by
        refine insertMember_perm fun hc => hnodup.1 ?_
        rw [List.map_append]
        exact List.mem_append_right _ hc
      have hall : (rest ++ insertMember m.1 m.2 done).Perm (m :: (rest ++ done)) :=
        (hinsert.append_left rest).trans List.perm_middle
      refine (ih _ ?_).trans hall
      rw [(hall.map Prod.fst).nodup_iff, List.map_cons, List.nodup_cons]
      exact hnodup
  refine ⟨_, rfl, ?_⟩
  have := hfold ms [] (by rwa [List.append_nil])
  rwa [List.append_nil] at this

theorem membersToWritten_eq (ms : List (String × Json)) :
    membersToWritten ms = ms.map fun m => (some m.1, m.2.toWritten) := by
  induction ms with
  | nil => rfl
  | cons m ms ih => rw [membersToWritten, ih, List.map_cons]

theorem itemsToWritten_eq (items : List Json) : itemsToWritten items = items.map toWritten := by
  induction items with
  | nil => rfl
  | cons j items ih => rw [itemsToWritten, ih, List.map_cons]

namespace Written

/-- A name that does not occur has no value. -/
theorem valuesOf_eq_nil (h : name ∉ ms.map Prod.fst) :
    valuesOf name (membersToWritten ms) = [] := by
  rw [valuesOf, membersToWritten_eq, List.filterMap_eq_nil_iff, List.forall_mem_map]
  exact fun m hm => if_neg fun hc => h (List.mem_map.2 ⟨m, hm, Option.some.inj hc⟩)

/-- A name that occurs once has one value. -/
theorem valuesOf_eq (h : (ms.map Prod.fst).Nodup) (hm : (name, value) ∈ ms) :
    valuesOf name (membersToWritten ms) = [value.toWritten] := by
  obtain ⟨before, after, rfl⟩ := List.append_of_mem hm
  rw [List.map_append, List.map_cons, List.nodup_middle, List.nodup_cons, List.mem_append,
    not_or] at h
  have hbefore := valuesOf_eq_nil h.1.1
  have hafter := valuesOf_eq_nil h.1.2
  rw [valuesOf, membersToWritten_eq] at hbefore hafter
  rw [valuesOf, membersToWritten_eq, List.map_append, List.filterMap_append, hbefore,
    List.map_cons, List.filterMap_cons_some (b := value.toWritten) (by simp), hafter]
  rfl

/-- The fields of a record are what it has under their names. -/
theorem fields?_record_lookup (ms : List (String × Json)) (names : List String)
    (h : (ms.map Prod.fst).Nodup) :
    (record ms).toWritten.fields? names =
      some (names.map fun name => (ms.lookup name).map toWritten) := by
  obtain ⟨kept, hrecord, hperm⟩ := exists_record_eq h
  have hkept : (kept.map Prod.fst).Nodup := ((hperm.map _).nodup_iff).2 h
  have hall : (membersToWritten kept).all (·.1.isSome) = true := by
    simp [membersToWritten_eq]
  have hread : ∀ name, valuesOf name (membersToWritten kept) =
      ((ms.lookup name).map toWritten).toList := by
    intro name
    cases hlookup : ms.lookup name with
    | some value =>
      obtain ⟨before, after, rfl, -⟩ := List.lookup_eq_some_iff.1 hlookup
      exact valuesOf_eq hkept (hperm.mem_iff.2 (by simp))
    | none =>
      refine valuesOf_eq_nil fun hc => ?_
      obtain ⟨m, hm, rfl⟩ := List.mem_map.1 ((hperm.map _).mem_iff.1 hc)
      simpa using List.lookup_eq_none_iff.1 hlookup m hm
  rw [hrecord, toWritten, fields?, hall]
  change (names.mapM _ : Option _) = _
  induction names with
  | nil => rfl
  | cons name names ih =>
    rw [List.mapM_cons, hread name, ih, List.map_cons]
    cases ms.lookup name <;> rfl

/-- The fields of a record are its members. -/
theorem fields?_record (ms wanted : List (String × Json)) (h : (ms.map Prod.fst).Nodup)
    (hw : wanted ⊆ ms) :
    (record ms).toWritten.fields? (wanted.map Prod.fst) =
      some (wanted.map fun m => some m.2.toWritten) := by
  rw [fields?_record_lookup ms _ h, List.map_map]
  refine congrArg some (List.map_congr_left fun m hm => ?_)
  obtain ⟨before, after, rfl⟩ := List.append_of_mem (hw hm)
  have hbefore : ∀ p ∈ before, m.1 ≠ p.1 := by
    intro p hp hc
    rw [List.map_append, List.nodup_append] at h
    exact h.2.2 _ (List.mem_map_of_mem hp) _ (by simp) hc.symm
  have hlookup : (before ++ m :: after).lookup m.1 = some m.2 :=
    List.lookup_eq_some_iff.2 ⟨before, after, rfl, by simpa using hbefore⟩
  rw [Function.comp_apply, hlookup]
  rfl

/-- The items of a list are read one by one. -/
theorem listOf?_array {α : Type} {read : Written → Option α} {write : α → Json}
    (h : ∀ a, read (write a).toWritten = some a) (as : List α) :
    (Json.array (as.map write)).toWritten.listOf? read = some as := by
  rw [toWritten, itemsToWritten_eq, listOf?]
  induction as with
  | nil => rfl
  | cons a as ih =>
    rw [List.map_cons, List.map_cons, List.mapM_cons, h a, ih]
    rfl

end Written

end TrieOverlay.Json
