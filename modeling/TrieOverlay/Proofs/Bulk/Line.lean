import Mathlib.Data.List.DropRight
import Mathlib.Data.List.TakeDrop
import TrieOverlay.Bulk.Line
import TrieOverlay.Proofs.Text.Base64
import TrieOverlay.Text.Blank

/-!
# Written lines are read back

An entry can be written exactly if its identifier and the identifier and address of its peer hold
no comma and no line end (`Bulk.Line.isEncodable_iff`); its line is then read back as the entry
(`Bulk.Line.decode?_encode?`).  An entry that was read from a line is written as that line, unless
there is a line end in it (`Bulk.Line.encode?_of_decode?`).  When the blanks at the end of a line
are dropped, its entry loses the blanks at the end of the identifier of its peer and nothing else
(`Bulk.Line.decode?_trimEnd`).
-/

namespace TrieOverlay

namespace Bulk

theorem forall₂_of_mapM {α β : Type} {f : α → Option β} {as : List α} {bs : List β}
    (h : as.mapM f = some bs) : List.Forall₂ (fun a b => f a = some b) as bs := by
  induction as generalizing bs with
  | nil =>
    obtain rfl : bs = [] := by simpa using h
    exact .nil
  | cons a as ih =>
    rw [List.mapM_cons, Option.bind_eq_bind, Option.bind_eq_some_iff] at h
    obtain ⟨b, hb, h⟩ := h
    rw [Option.bind_eq_bind, Option.bind_eq_some_iff] at h
    obtain ⟨bs', hbs, h⟩ := h
    obtain rfl := Option.some.inj h
    exact .cons hb (ih hbs)

theorem not_mem_of_mem_splitOn {α : Type} [BEq α] [LawfulBEq α] {sep : α} {xs piece : List α}
    (h : piece ∈ xs.splitOn sep) : sep ∉ piece := by
  have hall : ∀ piece ∈ xs.splitOn sep, sep ∉ piece := by
    clear h
    induction xs with
    | nil => simp [List.splitOn_nil]
    | cons x xs ih =>
      rw [List.splitOn_cons_eq_if_modifyHead]
      split
      · exact List.forall_mem_cons.2 ⟨List.not_mem_nil, ih⟩
      · rename_i hx
        cases hpieces : xs.splitOn sep with
        | nil => simp
        | cons first rest =>
          rw [hpieces, List.forall_mem_cons] at ih
          rw [List.modifyHead_cons, List.forall_mem_cons, List.mem_cons, not_or]
          exact ⟨⟨fun hc => hx (by simp [hc]), ih.1⟩, ih.2⟩
  exact hall piece h

end Bulk

/-! ### Keys -/

namespace Key

/-- A written key is read back. -/
theorem ofString?_toString (k : Key) : ofString? k.toString = some k := by
  rw [ofString?, Key.toString, String.toList_ofList, mapM_charBit?_map_bitChar]
  rfl

theorem eq_bitChar_of_charBit? {c : Char} {b : Bool} (h : charBit? c = some b) : c = bitChar b := by
  unfold charBit? at h
  split at h
  · obtain rfl := Option.some.inj h
    assumption
  · split at h
    · obtain rfl := Option.some.inj h
      assumption
    · cases h

/-- A key is only read from its own text. -/
theorem toString_of_ofString? {s : String} {k : Key} (h : ofString? s = some k) :
    k.toString = s := by
  obtain ⟨bits, hbits, rfl⟩ := Option.map_eq_some_iff.1 h
  have hchars : bits.map bitChar = s.toList := by
    have hall := Bulk.forall₂_of_mapM hbits
    clear h hbits
    generalize s.toList = cs at hall
    induction hall with
    | nil => rfl
    | cons hc _ ih => rw [List.map_cons, ← ih, eq_bitChar_of_charBit? hc]
  rw [Key.toString, hchars, String.ofList_toList]

end Key

namespace Bulk.Line

/-! ### Fields without separators -/

theorem isSeparator_of_mem_alphabet {c : Char} (h : c ∈ Base64.alphabet) :
    isSeparator c = false ∧ c ≠ ':' := by
  have hall : (Base64.alphabet.all fun c => !isSeparator c && c != ':') = true := by
    decide
  simpa using List.all_eq_true.1 hall c h

theorem isSeparator_of_mem_key {k : Key} {c : Char} (h : c ∈ k.toString.toList) :
    isSeparator c = false := by
  rw [Key.toString, String.toList_ofList, List.mem_map] at h
  obtain ⟨b, -, rfl⟩ := h
  cases b <;> decide

theorem isSeparator_of_mem_itemField {e : Entry} {c : Char} (h : c ∈ itemField e) :
    isSeparator c = false := by
  rw [itemField, List.mem_append, List.mem_cons] at h
  rcases h with h | rfl | h
  · exact (isSeparator_of_mem_alphabet (Base64.mem_alphabet h)).1
  · decide
  · exact (isSeparator_of_mem_alphabet (Base64.mem_alphabet h)).1

/-- Whether a text may stand in a field as it is. -/
def IsField (s : String) : Prop :=
  ∀ c ∈ s.toList, isSeparator c = false

/-- An entry can be written exactly if the fields that are written as they are hold no separator. -/
theorem isEncodable_iff (e : Entry) :
    isEncodable e = true ↔ IsField e.id.text ∧ IsField e.peer.address ∧ IsField e.peer.id.text := by
  simp only [isEncodable, fields, List.all_cons, List.all_nil, Bool.and_true, Bool.and_eq_true,
    Bool.not_eq_true', List.any_eq_false, Bool.not_eq_true, IsField]
  constructor
  · rintro ⟨-, -, hid, haddress, hpeer⟩
    exact ⟨hid, haddress, hpeer⟩
  · rintro ⟨hid, haddress, hpeer⟩
    exact ⟨fun c => isSeparator_of_mem_key, fun c => isSeparator_of_mem_itemField, hid, haddress,
      hpeer⟩

@[simp] theorem isEncodable_withKey (e : Entry) (k : Key) :
    isEncodable (e.withKey k) = isEncodable e := by
  rw [Bool.eq_iff_iff, isEncodable_iff, isEncodable_iff]
  rfl

/-! ### Reading what was written -/

theorem decodeItem?_itemField (e : Entry) :
    decodeItem? (itemField e) = some (e.typeName, e.payload) := by
  have hspan : (itemField e).span (· ≠ ':') =
      (Base64.encodeText e.typeName, ':' :: Base64.encodeText e.payload) := by
    have hne : ∀ c ∈ Base64.encodeText e.typeName, decide (c ≠ ':') = true := fun c hc =>
      decide_eq_true (isSeparator_of_mem_alphabet (Base64.mem_alphabet hc)).2
    rw [itemField, List.span_eq_takeWhile_dropWhile, List.takeWhile_append_of_pos hne,
      List.dropWhile_append_of_pos hne]
    simp
  rw [decodeItem?, hspan]
  simp

theorem not_isSeparator_of_isEncodable {e : Entry} (h : isEncodable e = true) :
    ∀ f ∈ fields e, ∀ c ∈ f, isSeparator c = false := by
  simpa [isEncodable] using h

theorem splitOn_fields {e : Entry} (h : isEncodable e = true) :
    ([','].intercalate (fields e)).splitOn ',' = fields e := by
  refine List.splitOn_intercalate ',' (fun f hf hc => ?_) (by simp [fields])
  have := not_isSeparator_of_isEncodable h f hf ',' hc
  simp [isSeparator] at this

/-- Written entries are read back. -/
theorem decode?_encode? {e : Entry} {line : String} (h : encode? e = some line) :
    decode? line = some e := by
  simp only [encode?] at h
  split at h
  · rename_i he
    obtain rfl := Option.some.inj h
    rw [decode?, String.toList_ofList, splitOn_fields he]
    simp only [fields, String.ofList_toList, Key.ofString?_toString, decodeItem?_itemField,
      Option.bind_eq_bind, Option.bind_some]
    rfl
  · cases h

theorem encode?_eq_some {e : Entry} (h : isEncodable e = true) : ∃ line, encode? e = some line :=
  ⟨_, if_pos h⟩

theorem encode?_eq_none {e : Entry} (h : isEncodable e = false) : encode? e = none :=
  if_neg (by simp [h])

theorem eq_comma_or_mem_of_mem_intercalate {fs : List (List Char)} {c : Char}
    (h : c ∈ [','].intercalate fs) : c = ',' ∨ ∃ f ∈ fs, c ∈ f := by
  induction fs with
  | nil => exact absurd h List.not_mem_nil
  | cons f fs ih =>
    cases fs with
    | nil => exact Or.inr ⟨f, List.mem_singleton_self f, by simpa [List.intercalate] using h⟩
    | cons f' fs =>
      rw [List.intercalate, List.intersperse_cons_cons, List.flatten_cons, List.flatten_cons,
        List.mem_append, List.mem_append, List.mem_singleton] at h
      rcases h with h | h | h
      · exact Or.inr ⟨f, List.mem_cons_self, h⟩
      · exact Or.inl h
      · rcases ih h with hc | ⟨f'', hf'', hc⟩
        · exact Or.inl hc
        · exact Or.inr ⟨f'', List.mem_cons_of_mem _ hf'', hc⟩

/-- A written line holds a comma and no line end. -/
theorem mem_encode? {e : Entry} {line : String} (h : encode? e = some line) :
    ',' ∈ line.toList ∧ '\n' ∉ line.toList ∧ '\r' ∉ line.toList := by
  simp only [encode?] at h
  split at h
  · rename_i he
    obtain rfl := Option.some.inj h
    have hsep : ∀ c ∈ [','].intercalate (fields e), c = ',' ∨ isSeparator c = false := by
      intro c hc
      rcases eq_comma_or_mem_of_mem_intercalate hc with rfl | ⟨f, hf, hc⟩
      · exact Or.inl rfl
      · exact Or.inr (not_isSeparator_of_isEncodable he f hf c hc)
    rw [String.toList_ofList]
    refine ⟨?_, fun hc => ?_, fun hc => ?_⟩
    · simp [List.intercalate, List.intersperse, fields]
    · exact absurd (hsep _ hc) (by decide)
    · exact absurd (hsep _ hc) (by decide)
  · cases h

/-! ### Writing what was read -/

theorem itemField_of_decodeItem? {field : List Char} {typeName payload : String}
    (h : decodeItem? field = some (typeName, payload)) :
    Base64.encodeText typeName ++ ':' :: Base64.encodeText payload = field := by
  have hspan := List.takeWhile_append_dropWhile (p := fun c => decide (c ≠ ':')) (l := field)
  rw [decodeItem?, List.span_eq_takeWhile_dropWhile] at h
  split at h
  · rename_i type written heq
    obtain ⟨rfl, hwritten⟩ := Prod.mk.inj heq
    rw [Option.bind_eq_bind, Option.bind_eq_some_iff] at h
    obtain ⟨t, ht, h⟩ := h
    obtain ⟨p, hp, h⟩ := Option.bind_eq_some_iff.1 h
    obtain ⟨rfl, rfl⟩ := Prod.mk.inj (Option.some.inj h)
    rw [Base64.encodeText_of_decodeText? ht, Base64.encodeText_of_decodeText? hp, ← hwritten, hspan]
  · cases h

/-- The pieces of a line are the fields of the entry that it is read as. -/
theorem fields_of_decode? {line : String} {e : Entry} (h : decode? line = some e) :
    line.toList.splitOn ',' = fields e := by
  rw [decode?] at h
  split at h
  · rename_i key item id address peer hsplit
    rw [Option.bind_eq_bind, Option.bind_eq_some_iff] at h
    obtain ⟨k, hk, h⟩ := h
    obtain ⟨⟨typeName, payload⟩, hitem, h⟩ := Option.bind_eq_some_iff.1 h
    obtain rfl := Option.some.inj h
    have hkey : k.toString.toList = key := by
      rw [Key.toString_of_ofString? hk, String.toList_ofList]
    simp only [hsplit, fields, itemField, hkey, itemField_of_decodeItem? hitem,
      String.toList_ofList]
  · cases h

theorem ofList_fields_of_decode? {line : String} {e : Entry} (h : decode? line = some e) :
    String.ofList ([','].intercalate (fields e)) = line := by
  rw [← fields_of_decode? h, List.intercalate_splitOn, String.ofList_toList]

theorem mem_intercalate_of_mem {fs : List (List Char)} {f : List Char} {c : Char} (hf : f ∈ fs)
    (hc : c ∈ f) : c ∈ [','].intercalate fs := by
  rw [List.intercalate, List.mem_flatten]
  refine ⟨f, ?_, hc⟩
  induction fs with
  | nil => cases hf
  | cons f' fs ih =>
    cases fs with
    | nil => simpa using hf
    | cons f'' fs =>
      rw [List.intersperse_cons_cons]
      rcases List.mem_cons.1 hf with rfl | hf
      · exact List.mem_cons_self
      · exact List.mem_cons_of_mem _ (List.mem_cons_of_mem _ (ih hf))

/-- An entry that was read can be written if no line end was read with it: commas cannot be. -/
theorem isEncodable_of_decode? {line : String} {e : Entry} (h : decode? line = some e) :
    isEncodable e = true ↔ '\n' ∉ line.toList ∧ '\r' ∉ line.toList := by
  have hline := congrArg String.toList (ofList_fields_of_decode? h)
  rw [String.toList_ofList] at hline
  constructor
  · intro he
    have hmem := mem_encode? (if_pos he)
    rw [String.toList_ofList, hline] at hmem
    exact hmem.2
  · rintro ⟨hfeed, hreturn⟩
    simp only [isEncodable, List.all_eq_true, Bool.not_eq_true', List.any_eq_false]
    intro f hf c hc hsep
    have hmem : c ∈ line.toList := hline ▸ mem_intercalate_of_mem hf hc
    simp only [isSeparator, Bool.or_eq_true, decide_eq_true_eq] at hsep
    obtain (rfl | rfl) | rfl := hsep
    · rw [← fields_of_decode? h] at hf
      exact not_mem_of_mem_splitOn hf hc
    · exact hfeed hmem
    · exact hreturn hmem

/-- What was read is written as it was, or not at all. -/
theorem encode?_of_decode? {line : String} {e : Entry} (h : decode? line = some e) :
    encode? e = if '\n' ∈ line.toList ∨ '\r' ∈ line.toList then none else some line := by
  split
  · rename_i hends
    refine encode?_eq_none (Bool.eq_false_iff.2 fun he => ?_)
    obtain ⟨hfeed, hreturn⟩ := (isEncodable_of_decode? h).1 he
    exact hends.elim hfeed hreturn
  · rename_i hends
    rw [not_or] at hends
    rw [encode?, if_pos ((isEncodable_of_decode? h).2 hends), ofList_fields_of_decode? h]

/-! ### Blanks at the end -/

theorem trimEnd_toList (s : String) :
    (Text.trimEnd s).toList = s.toList.rdropWhile Text.isBlank := by
  rw [Text.trimEnd, String.toList_ofList, List.rdropWhile]

theorem rdropWhile_append_comma (before after : List Char) :
    (before ++ ',' :: after).rdropWhile Text.isBlank =
      before ++ ',' :: after.rdropWhile Text.isBlank := by
  induction after using List.reverseRecOn with
  | nil =>
    rw [List.rdropWhile_concat_neg _ _ _ (by decide), List.rdropWhile_nil]
  | append_singleton after c ih =>
    rw [← List.cons_append, ← List.append_assoc, List.rdropWhile_concat, List.rdropWhile_concat]
    split
    · exact ih
    · simp

/-- The pieces before the last comma of a line, and what stands after it. -/
theorem exists_splitOn_comma {cs : List Char} (h : ',' ∈ cs) :
    ∃ before after, cs = before ++ ',' :: after ∧ ',' ∉ after := by
  obtain ⟨after, before, hcs, hafter⟩ := List.eq_append_cons_of_mem (List.mem_reverse.2 h)
  refine ⟨before.reverse, after.reverse, ?_, by simpa using hafter⟩
  rw [← List.reverse_inj, hcs]
  simp

/-- A line that has an entry holds a comma. -/
theorem mem_of_decode? {line : String} {e : Entry} (h : decode? line = some e) :
    ',' ∈ line.toList := by
  by_contra hc
  simp [decode?, List.splitOn_eq_singleton hc] at h

/-- An entry whose peer has no blanks at the end of its identifier. -/
def trimmed (e : Entry) : Entry :=
  { e with peer := { e.peer with id := ⟨Text.trimEnd e.peer.id.text⟩ } }

theorem trimEnd_trimEnd (s : String) : Text.trimEnd (Text.trimEnd s) = Text.trimEnd s := by
  rw [← String.toList_inj, trimEnd_toList, trimEnd_toList, List.rdropWhile_idempotent]

@[simp] theorem trimmed_trimmed (e : Entry) : trimmed (trimmed e) = trimmed e := by
  rw [trimmed, trimmed, trimEnd_trimEnd]

/-- Dropping the blanks at the end of a line changes nothing but the identifier of the peer. -/
theorem decode?_trimEnd (line : String) :
    decode? (Text.trimEnd line) = (decode? line).map trimmed := by
  by_cases hcomma : ',' ∈ line.toList
  · obtain ⟨before, after, hline, hafter⟩ := exists_splitOn_comma hcomma
    have hafter' : ',' ∉ after.rdropWhile Text.isBlank := fun hc =>
      hafter ((List.rdropWhile_prefix Text.isBlank _).subset hc)
    have hsplit : line.toList.splitOn ',' = before.splitOn ',' ++ [after] := by
      rw [hline, List.splitOn_append_cons_self, List.splitOn_eq_singleton hafter]
    have hsplit' : (Text.trimEnd line).toList.splitOn ',' =
        before.splitOn ',' ++ [after.rdropWhile Text.isBlank] := by
      rw [trimEnd_toList, hline, rdropWhile_append_comma, List.splitOn_append_cons_self,
        List.splitOn_eq_singleton hafter']
    have hid : Text.trimEnd (String.ofList after) =
        String.ofList (after.rdropWhile Text.isBlank) := by
      rw [← String.toList_inj, trimEnd_toList, String.toList_ofList, String.toList_ofList]
    rw [decode?, decode?, hsplit, hsplit']
    -- the identifier of the peer is the last of the five fields
    match before.splitOn ',' with
    | [key, item, id, address] =>
      simp only [List.cons_append, List.nil_append, Option.bind_eq_bind]
      cases Key.ofString? (String.ofList key) with
      | none => rfl
      | some k =>
        cases decodeItem? item with
        | none => rfl
        | some field =>
          simp only [Option.bind_some, Option.pure_def, Option.map_some, trimmed, hid]
    | [] => rfl
    | [_] => rfl
    | [_, _] => rfl
    | [_, _, _] => rfl
    | _ :: _ :: _ :: _ :: _ :: _ => simp
  · have hcomma' : ',' ∉ (Text.trimEnd line).toList := by
      rw [trimEnd_toList]
      exact fun hc => hcomma ((List.rdropWhile_prefix Text.isBlank _).subset hc)
    simp [decode?, List.splitOn_eq_singleton hcomma, List.splitOn_eq_singleton hcomma']

theorem isEncodable_trimmed {e : Entry} (h : isEncodable e = true) :
    isEncodable (trimmed e) = true := by
  rw [isEncodable_iff] at h ⊢
  refine ⟨h.1, h.2.1, fun c hc => h.2.2 c ?_⟩
  rw [trimmed, trimEnd_toList] at hc
  exact (List.rdropWhile_prefix Text.isBlank _).subset hc

end Bulk.Line

end TrieOverlay
