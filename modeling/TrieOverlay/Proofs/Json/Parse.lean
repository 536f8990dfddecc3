import Mathlib.Data.List.Induction
import TrieOverlay.Proofs.Json.Record
import TrieOverlay.Proofs.Json.Scan

/-!
# Printed values are read back

The tokens of a value build its tree (`Json.isRead`), so parsing what is printed gives the tree of
the value that was printed (`Json.Written.parse?_render`).  The fuel of the parser is enough: it
takes two steps a token at most.

The reader of whole values makes the value of its tree again (`Json.Kept`): texts and finite numbers
always, lists and records of such values where the depth allows them, and a record in any order of
its members, since their order is restored.
-/

namespace TrieOverlay.Json

open Written (ofTokens? toJsonWithin? itemsWithin? membersWithin?)

/-! ### Building the tree -/

/-- The tokens of the value are read as its tree, whatever follows them. -/
def IsRead (j : Json) : Prop :=
  ∀ fuel ts, 2 * (tokens j).length ≤ fuel →
    valueOfTokens? fuel (tokens j ++ ts) = some (j.toWritten, ts)

/-- A value does not begin with a closing bracket. -/
theorem exists_tokens_eq_cons (j : Json) :
    ∃ t ts, tokens j = t :: ts ∧ t ≠ .closeBracket := by
  match j with
  | .null | .bool _ | .number _ | .text _ | .array [] | .object [] =>
    exact ⟨_, _, by rw [tokens], by simp⟩
  | .array (_ :: _) | .object ((_, _) :: _) =>
    exact ⟨_, _, by rw [tokens, List.cons_append], by simp⟩

theorem valueOfTokens?_array {x : Json} {fuel : Nat} {ts : List Token} :
    valueOfTokens? (fuel + 1) (.openBracket :: (tokens x ++ ts)) =
      (itemsOfTokens? fuel (tokens x ++ ts)).map fun (items, ts) => (.array items, ts) := by
  obtain ⟨t, rest, ht, hclose⟩ := exists_tokens_eq_cons x
  rw [ht, List.cons_append, valueOfTokens?]
  exact fun _ h => hclose (List.cons.inj h).1

mutual

theorem isRead (j : Json) : IsRead j := by
  intro fuel ts hfuel
  match j, fuel with
  | .null, fuel + 1 => rfl
  | .bool _, fuel + 1 => rfl
  | .number _, fuel + 1 => rfl
  | .text _, fuel + 1 => rfl
  | .array [], fuel + 1 => rfl
  | .object [], fuel + 1 => rfl
  | .array (x :: xs), fuel + 1 =>
    simp only [tokens, List.cons_append, List.append_assoc, List.length_cons,
      List.length_append] at hfuel ⊢
    rw [valueOfTokens?_array, items_read xs x (isRead x) fuel ts (by omega)]
    rfl
  | .object ((n, v) :: ms), fuel + 1 =>
    simp only [tokens, List.cons_append, List.append_assoc, List.length_cons,
      List.length_append] at hfuel ⊢
    rw [valueOfTokens?, members_read ms n v (isRead v) fuel ts (by omega)]
    · rfl
    · exact fun _ h => nomatch h

theorem items_read (xs : List Json) (x : Json) (hx : IsRead x) (fuel : Nat) (ts : List Token)
    (hfuel : 2 * ((tokens x).length + (itemTokens xs).length) < fuel) :
    itemsOfTokens? fuel (tokens x ++ (itemTokens xs ++ ts)) =
      some (itemsToWritten (x :: xs), ts) := by
  match xs, fuel with
  | [], fuel + 1 =>
    rw [itemsOfTokens?, hx _ _ (by omega)]
    rfl
  | y :: ys, fuel + 1 =>
    simp only [itemTokens, List.cons_append, List.append_assoc, List.length_cons,
      List.length_append] at hfuel ⊢
    have hys := items_read ys y (isRead y) fuel ts (by omega)
    rw [itemsOfTokens?, hx _ _ (by omega), Option.bind_eq_bind, Option.bind_some]
    simp only [hys]
    rfl

theorem members_read (ms : List (String × Json)) (n : String) (v : Json) (hv : IsRead v)
    (fuel : Nat) (ts : List Token)
    (hfuel : 2 * ((tokens v).length + (memberTokens ms).length) < fuel) :
    membersOfTokens? fuel
        (.text (some n) :: .colon :: (tokens v ++ (memberTokens ms ++ ts))) =
      some (membersToWritten ((n, v) :: ms), ts) := by
  match ms, fuel with
  | [], fuel + 1 =>
    rw [membersOfTokens?, hv _ _ (by omega)]
    rfl
  | (m, w) :: ms, fuel + 1 =>
    simp only [memberTokens, List.cons_append, List.append_assoc, List.length_cons,
      List.length_append] at hfuel ⊢
    have hms := members_read ms m w (isRead w) fuel ts (by omega)
    rw [membersOfTokens?, hv _ _ (by omega), Option.bind_eq_bind, Option.bind_some]
    simp only [hms]
    rfl

end

/-- **Parsing a printed value gives the tree of the value.** -/
theorem Written.parse?_render (j : Json) : Written.parse? j.render = some j.toWritten := by
  have h := isRead j (2 * (tokens j).length + 2) [] (by omega)
  rw [List.append_nil] at h
  rw [parse?, Token.scan_render, Option.bind_eq_bind, Option.bind_some, ofTokens?, h]

/-! ### Reading whole values -/

/-- The members stand in increasing order of their names, each name once. -/
def Sorted (ms : List (String × Json)) : Prop :=
  ms.Pairwise fun m k => compare m.1 k.1 = .lt

variable {name : String} {value : Json} {ms : List (String × Json)} {depth : Nat}

theorem mem_of_mem_insertMember {m : String × Json} (h : m ∈ insertMember name value ms) :
    m = (name, value) ∨ m ∈ ms := by
  induction ms with
  | nil => exact .inl (List.mem_singleton.1 h)
  | cons k ms ih =>
    obtain ⟨n, v⟩ := k
    rw [insertMember] at h
    rw [List.mem_cons]
    split at h
    · exact List.mem_cons.1 h |>.imp_right List.mem_cons.1
    · exact List.mem_cons.1 h |>.imp_right .inr
    · rcases List.mem_cons.1 h with rfl | h
      · exact .inr (.inl rfl)
      · exact (ih h).imp_right .inr

theorem Sorted.insertMember (h : Sorted ms) (name : String) (value : Json) :
    Sorted (insertMember name value ms) := by
  induction ms with
  | nil => exact List.pairwise_singleton _ _
  | cons k ms ih =>
    obtain ⟨n, v⟩ := k
    obtain ⟨hbelow, hsorted⟩ := List.pairwise_cons.1 h
    rw [Json.insertMember]
    split
    case h_1 hlt =>
      refine List.pairwise_cons.2 ⟨fun m hm => ?_, h⟩
      rcases List.mem_cons.1 hm with rfl | hm
      · exact hlt
      · exact Std.TransCmp.lt_trans hlt (hbelow m hm)
    case h_2 heq =>
      obtain rfl := Std.LawfulEqOrd.eq_of_compare heq
      exact List.pairwise_cons.2 ⟨hbelow, hsorted⟩
    case h_3 hgt =>
      refine List.pairwise_cons.2 ⟨fun m hm => ?_, ih hsorted⟩
      rcases mem_of_mem_insertMember hm with rfl | hm
      · exact Std.OrientedCmp.lt_of_gt hgt
      · exact hbelow m hm

/-- A member whose name comes after all others stands at the end. -/
theorem insertMember_eq_append (h : ∀ m ∈ ms, compare m.1 name = .lt) :
    insertMember name value ms = ms ++ [(name, value)] := by
  induction ms with
  | nil => rfl
  | cons k ms ih =>
    obtain ⟨n, v⟩ := k
    obtain ⟨hk, hms⟩ := List.forall_mem_cons.1 h
    rw [insertMember, Std.OrientedCmp.gt_of_lt hk, ih hms]
    rfl

/-- A record is made of some of the members, in order. -/
theorem exists_record_sorted (ms : List (String × Json)) :
    ∃ kept, record ms = .object kept ∧ Sorted kept ∧ kept ⊆ ms := by
  refine ⟨_, rfl, ?_⟩
  induction ms using List.reverseRecOn with
  | nil => exact ⟨.nil, List.Subset.refl _⟩
  | append_singleton ms m ih =>
    rw [List.foldl_append, List.foldl_cons, List.foldl_nil]
    refine ⟨ih.1.insertMember m.1 m.2, fun k hk => ?_⟩
    rcases mem_of_mem_insertMember hk with rfl | hk
    · exact List.mem_append_right _ (List.mem_singleton_self _)
    · exact List.mem_append_left _ (ih.2 hk)

/-- Members in order are the members of their record. -/
theorem record_of_sorted (h : Sorted ms) : record ms = .object ms := by
  rw [record]
  congr 1
  induction ms using List.reverseRecOn with
  | nil => rfl
  | append_singleton ms m ih =>
    obtain ⟨hms, -, hbelow⟩ := List.pairwise_append.1 h
    rw [List.foldl_append, ih hms]
    exact insertMember_eq_append fun k hk => hbelow k hk m (List.mem_singleton_self m)

/-- The value is read back from its tree, at a place where so many lists and records may still be
inside each other. -/
def Kept (depth : Nat) (j : Json) : Prop :=
  toJsonWithin? depth j.toWritten = some j

theorem kept_text (s : String) : Kept depth (.text s) := by
  rw [Kept, toWritten, toJsonWithin?, Option.map_some]

theorem kept_number {n : Number} (h : Written.isFinite n = true) : Kept depth (.number n) := by
  rw [Kept, toWritten, toJsonWithin?, if_pos h]

theorem kept_array {items : List Json} (hdepth : 1 < depth)
    (h : ∀ j ∈ items, Kept (depth - 1) j) : Kept depth (.array items) := by
  have hitems : itemsWithin? (depth - 1) (itemsToWritten items) = some items := by
    clear hdepth
    induction items with
    | nil => rw [itemsToWritten, itemsWithin?]
    | cons j items ih =>
      obtain ⟨hj, hitems⟩ := List.forall_mem_cons.1 h
      rw [Kept] at hj
      rw [itemsToWritten, itemsWithin?, hj, ih hitems]
      rfl
  rw [Kept, toWritten, toJsonWithin?, if_neg (by omega), hitems, Option.map_some]

theorem kept_record (hdepth : 1 < depth) (h : ∀ m ∈ ms, Kept (depth - 1) m.2) :
    Kept depth (record ms) := by
  obtain ⟨kept, hrecord, hsorted, hsub⟩ := exists_record_sorted ms
  have hmembers : ∀ ks ⊆ kept, membersWithin? (depth - 1) (membersToWritten ks) = some ks := by
    intro ks hks
    induction ks with
    | nil => rw [membersToWritten, membersWithin?]
    | cons m ks ih =>
      obtain ⟨hm, hks⟩ := List.cons_subset.1 hks
      have hvalue := h m (hsub hm)
      rw [Kept] at hvalue
      rw [membersToWritten, membersWithin?, hvalue, ih hks]
      rfl
  rw [hrecord, Kept, toWritten, toJsonWithin?, if_neg (by omega),
    hmembers kept (List.Subset.refl _), Option.map_some, record_of_sorted hsorted]

end TrieOverlay.Json
