import Mathlib.Data.List.TakeWhile
import Std.Data.ExtTreeMap.Lemmas
import TrieOverlay.Store

/-!
# The entries below a key are one range

The rows stand in order of key and identifier, and the keys are ordered lexicographically:

* `Key.not_lt_of_isPrefixOf`: a key stands before no key on the way to it.
* `Key.isPrefixOf_of_between`: a key between another one and a key below that lies below it too.
* `Store.get_below`: **reading from the first place of a key on, up to the first key that does not
  lie below it, finds all entries below the key, in order.**
-/

namespace TrieOverlay

/-! ### Reading a part of a list -/

section Reading

variable {α : Type} {p : α → Bool} {as : List α}

/-- What holds at the beginning of a list only is read at the beginning. -/
theorem takeWhile_eq_filter (h : as.Pairwise fun a b => p b = true → p a = true) :
    as.takeWhile p = as.filter p := by
  induction as with
  | nil => rfl
  | cons a as ih =>
    obtain ⟨ha, has⟩ := List.pairwise_cons.1 h
    cases hp : p a with
    | true => rw [List.takeWhile_cons_of_pos hp, List.filter_cons_of_pos hp, ih has]
    | false =>
      have hnone : as.filter p = [] := List.filter_eq_nil_iff.2 fun b hb hpb => by
        rw [ha b hb hpb] at hp
        cases hp
      simp [hp, hnone]

theorem dropWhile_eq_filter (h : as.Pairwise fun a b => p b = true → p a = true) :
    as.dropWhile p = as.filter (!p ·) := by
  induction as with
  | nil => rfl
  | cons a as ih =>
    obtain ⟨ha, has⟩ := List.pairwise_cons.1 h
    cases hp : p a with
    | true => simp [hp, ih has]
    | false =>
      have hall : as.filter (!p ·) = as := List.filter_eq_self.2 fun b hb => by
        cases hpb : p b with
        | true =>
          rw [ha b hb hpb] at hp
          cases hp
        | false => rfl
      simp [hp, hall]

end Reading

/-! ### The order of keys -/

namespace Key

variable {key a b : Key}

theorem isPrefixOf_iff : key.isPrefixOf a = true ↔ key.bits <+: a.bits :=
  List.isPrefixOf_iff_prefix

theorem bits_not_lt_of_prefix {ks as : List Bool} (h : ks <+: as) : compare as ks ≠ .lt := by
  induction ks generalizing as with
  | nil => cases as <;> simp [List.compare_cons_nil]
  | cons k ks ih =>
    cases as with
    | nil => simp at h
    | cons a as =>
      obtain ⟨rfl, hrest⟩ := List.cons_prefix_cons.1 h
      simpa [List.compare_cons_cons] using ih hrest

theorem bits_prefix_of_between {ks as bs : List Bool} (hka : compare as ks ≠ .lt)
    (hab : compare as bs ≠ .gt) (h : ks <+: bs) : ks <+: as := by
  induction ks generalizing as bs with
  | nil => exact List.nil_prefix
  | cons k ks ih =>
    cases bs with
    | nil => simp at h
    | cons b bs =>
      obtain ⟨rfl, hrest⟩ := List.cons_prefix_cons.1 h
      cases as with
      | nil => simp [List.compare_nil_cons] at hka
      | cons a as =>
        rw [List.compare_cons_cons] at hka hab
        -- the first bit stands neither before nor behind the one of the key
        have hfirst : compare a k = .eq := by
          cases hcompare : compare a k with
          | lt => simp [hcompare] at hka
          | eq => rfl
          | gt => simp [hcompare] at hab
        obtain rfl := Std.LawfulEqOrd.eq_of_compare hfirst
        rw [List.cons_prefix_cons]
        exact ⟨rfl, ih (by simpa using hka) (by simpa using hab) hrest⟩

/-- What lies below a key does not stand before it. -/
theorem not_lt_of_isPrefixOf (h : key.isPrefixOf a = true) : compare a key ≠ .lt :=
  bits_not_lt_of_prefix (isPrefixOf_iff.1 h)

/-- What stands between a key and one below it lies below it. -/
theorem isPrefixOf_of_between (hkey : compare a key ≠ .lt) (hab : compare a b ≠ .gt)
    (h : key.isPrefixOf b = true) : key.isPrefixOf a = true :=
  isPrefixOf_iff.2 (bits_prefix_of_between hkey hab (isPrefixOf_iff.1 h))

end Key

/-! ### The rows below a key -/

namespace RowPlace

/-- Where the rows of a key begin: no identifier stands before the empty one. -/
def first (key : Key) : RowPlace :=
  ⟨key, ⟨""⟩⟩

theorem id_not_lt_empty (id : EntryId) : compare id ⟨""⟩ ≠ .lt := by
  intro h
  have hlt := (@compareOfLessAndEq_eq_lt String _ _ _ _ id.text "").1 h
  exact List.not_lt_nil id.text.toList hlt

theorem lt_first_iff (place : RowPlace) (key : Key) :
    compare place (first key) = .lt ↔ compare place.key key = .lt := by
  change (compare place.key key).then (compare place.id ⟨""⟩) = .lt ↔ _
  simp [Ordering.then_eq_lt, id_not_lt_empty]

theorem key_not_gt {a b : RowPlace} (h : compare a b = .lt) : compare a.key b.key ≠ .gt := by
  have hlex : (compare a.key b.key).then (compare a.id b.id) = .lt := h
  rw [Ordering.then_eq_lt] at hlex
  rcases hlex with hlt | ⟨heq, -⟩
  · simp [hlt]
  · simp [heq]

end RowPlace

namespace Store.Rows

variable {s : Store.Rows} {key : Key}

/-- The rows from the first place of a key on are those that do not stand before it. -/
theorem dropWhile_first_eq (s : Store.Rows) (key : Key) :
    (s.rows.toList.dropWhile fun row => compare row.1 (.first key) == .lt) =
      s.rows.toList.filter fun row => !(compare row.1 (.first key) == .lt) := by
  refine dropWhile_eq_filter (Std.ExtTreeMap.ordered_keys_toList.imp fun {a b} hab hb => ?_)
  exact beq_iff_eq.2 (Std.TransCmp.lt_trans hab (beq_iff_eq.1 hb))

/-- From the first place of a key on, a row before one below the key is below it too. -/
theorem pairwise_below (s : Store.Rows) (key : Key) :
    (s.rows.toList.dropWhile fun row => compare row.1 (.first key) == .lt).Pairwise
      fun a b => key.isPrefixOf b.1.key = true → key.isPrefixOf a.1.key = true := by
  rw [dropWhile_first_eq]
  refine (Std.ExtTreeMap.ordered_keys_toList.filter _).imp_of_mem fun {a b} ha _ hab hb => ?_
  have hlate : compare a.1 (.first key) ≠ .lt := by simpa using (List.mem_filter.1 ha).2
  rw [ne_eq, RowPlace.lt_first_iff] at hlate
  exact Key.isPrefixOf_of_between hlate (RowPlace.key_not_gt hab) hb

theorem rowsBelow_eq_filter (s : Store.Rows) (key : Key) :
    s.rowsBelow key = s.rows.toList.filter fun row => key.isPrefixOf row.1.key := by
  have hread : s.rowsBelow key =
      (s.rows.toList.dropWhile fun row => compare row.1 (.first key) == .lt).filter
        fun row => key.isPrefixOf row.1.key := takeWhile_eq_filter (pairwise_below s key)
  rw [hread, dropWhile_first_eq, List.filter_filter]
  refine List.filter_congr fun row _ => ?_
  -- nothing below the key stands before its first place
  cases hbelow : key.isPrefixOf row.1.key with
  | false => rfl
  | true => simp [RowPlace.lt_first_iff, Key.not_lt_of_isPrefixOf hbelow]

/-- The rows below a key stand together: those before them stand before the first place of the key,
and those behind them do not lie below it. -/
theorem exists_around_rowsBelow (s : Store.Rows) (key : Key) :
    ∃ before after, s.rows.toList = before ++ s.rowsBelow key ++ after ∧
      (∀ row ∈ before, compare row.1 (.first key) = .lt) ∧
      ∀ row ∈ after, compare row.1 (.first key) ≠ .lt ∧ key.isPrefixOf row.1.key = false := by
  refine ⟨s.rows.toList.takeWhile fun row => compare row.1 (.first key) == .lt,
    (s.rows.toList.dropWhile fun row => compare row.1 (.first key) == .lt).dropWhile
      fun row => key.isPrefixOf row.1.key, ?_, fun row hrow => ?_, fun row hrow => ?_⟩
  · rw [List.append_assoc]
    exact (List.takeWhile_append_dropWhile.symm.trans
      (congrArg _ List.takeWhile_append_dropWhile.symm))
  · have hearly := List.mem_takeWhile_imp hrow
    exact beq_iff_eq.1 hearly
  · rw [dropWhile_eq_filter (pairwise_below s key), dropWhile_first_eq, List.mem_filter,
      List.mem_filter] at hrow
    exact ⟨by simpa using hrow.1.2, by simpa using hrow.2⟩

theorem entriesBelow_eq_filter (s : Store.Rows) (key : Key) :
    s.entriesBelow key = s.entries.filter fun e => key.isPrefixOf e.key := by
  rw [entriesBelow, entries, rowsBelow_eq_filter, List.filter_map]
  rfl

end Store.Rows

/-- **The entries below a key are one range of the store.**  Asking for the entries below a key
gives all entries that lie below it, in the order of the store.  No place below the key stands
before the place that the scan begins at, and where the scan ends none is left: what it finds stands
together, behind the entries before its beginning and in front of entries that are not below the
key. -/
theorem Store.get_below (s : Store) (key : Key) :
    s.get (some key) = (s.get none).filter (fun e => key.isPrefixOf e.key) ∧
    (∀ place : RowPlace, key.isPrefixOf place.key = true → compare place (.first key) ≠ .lt) ∧
    ∃ before after, s.get none = before ++ s.get (some key) ++ after ∧
      (∀ e ∈ before, compare (RowPlace.mk e.key e.id) (.first key) = .lt) ∧
      ∀ e ∈ after, compare (RowPlace.mk e.key e.id) (.first key) ≠ .lt ∧
        key.isPrefixOf e.key = false := by
  let entry (row : RowPlace × Row) : Entry := s.state.entryOf row.1 row.2
  have hentries : s.get none = s.state.rows.toList.map entry := rfl
  have hscan : s.get (some key) = (s.state.rowsBelow key).map entry := rfl
  refine ⟨?_, fun place hplace => ?_, ?_⟩
  · rw [hscan, hentries, Rows.rowsBelow_eq_filter, List.filter_map]
    rfl
  · rw [ne_eq, RowPlace.lt_first_iff]
    exact Key.not_lt_of_isPrefixOf hplace
  · obtain ⟨before, after, hrows, hbefore, hafter⟩ := s.state.exists_around_rowsBelow key
    refine ⟨before.map entry, after.map entry, ?_, List.forall_mem_map.2 hbefore,
      List.forall_mem_map.2 hafter⟩
    rw [hentries, hscan, hrows, List.map_append, List.map_append]

end TrieOverlay
