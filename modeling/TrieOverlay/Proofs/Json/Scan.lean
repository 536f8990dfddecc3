import Mathlib.Data.List.Basic
import Mathlib.Data.List.TakeDrop
import TrieOverlay.Json.Printer
import TrieOverlay.Json.Written

/-!
# Printed values are cut into their tokens

`Json.tokens` lists the tokens of a value in the order in which they are printed.  Scanning what
`Json.renderChars` prints gives these tokens (`Json.Token.scan_render`), whatever the texts and
numbers in the value are.

Where a number ends only what follows tells, so the lemmas are about a printed part and some
characters behind it; behind a value stands a comma, the end of a list or record, or nothing
(`Json.IsEnd`).
-/

namespace TrieOverlay.Json

variable {c e : Char} {n : Nat} {cs rest : List Char}

/-! ### The tokens of a value -/

mutual

/-- The tokens of a value. -/
def tokens : Json → List Token
  | .null => [.null]
  | .bool b => [.bool b]
  | .number n => [.number n]
  | .text s => [.text (some s)]
  | .array [] => [.openBracket, .closeBracket]
  | .array (x :: xs) => .openBracket :: tokens x ++ itemTokens xs
  | .object [] => [.openBrace, .closeBrace]
  | .object ((n, v) :: ms) =>
    .openBrace :: .text (some n) :: .colon :: tokens v ++ memberTokens ms

/-- The tokens of the items after the first, and the end of the list. -/
def itemTokens : List Json → List Token
  | [] => [.closeBracket]
  | x :: xs => .comma :: tokens x ++ itemTokens xs

/-- The tokens of the members after the first, and the end of the record. -/
def memberTokens : List (String × Json) → List Token
  | [] => [.closeBrace]
  | (n, v) :: ms => .comma :: .text (some n) :: .colon :: tokens v ++ memberTokens ms

end

/-! ### Texts -/

theorem number?_digits {c : Char} (h : c.toNat < 0x20) :
    Hex.number? ['0', '0', Hex.digit (c.toNat / 16), Hex.digit (c.toNat % 16)] = some c.toNat := by
  have hhigh := Hex.value?_digit (n := c.toNat / 16) (by omega)
  have hlow := Hex.value?_digit (n := c.toNat % 16) (by omega)
  have hzero : Hex.value? '0' = some 0 := by decide
  simp only [Hex.number?, List.foldlM_cons, List.foldlM_nil, hzero, hhigh, hlow, Option.map_some,
    Option.bind_eq_bind, Option.bind_some, Option.pure_def, Option.some.injEq]
  omega

theorem scanPieces_escape (he : e ≠ 'u') (h : escapeLetter? e = some c) :
    scanPieces ('\\' :: e :: cs) = (scanPieces cs).map fun (ps, rest) => (.char c :: ps, rest) := by
  rw [scanPieces]
  · rw [h]; cases scanPieces cs <;> rfl
  · rintro p q r s cs' rfl
    exact fun _ => he rfl

theorem scanPieces_unit {p q r s : Char} (h : Hex.number? [p, q, r, s] = some n) :
    scanPieces ('\\' :: 'u' :: p :: q :: r :: s :: cs) =
      (scanPieces cs).map fun (ps, rest) => (.unit n :: ps, rest) := by
  rw [scanPieces, h]; cases scanPieces cs <;> rfl

theorem scanPieces_char (hquote : c ≠ '"') (hback : c ≠ '\\') (hc : ¬ c.toNat < 0x20) :
    scanPieces (c :: cs) = (scanPieces cs).map fun (ps, rest) => (.char c :: ps, rest) := by
  rw [scanPieces]
  · rw [if_neg (by simp [hc, hback])]; cases scanPieces cs <;> rfl
  · exact hquote
  · exact fun _ _ _ _ _ h _ => hback h
  · exact fun _ _ h _ => hback h

theorem charsOfPieces_unit {ps : List Piece} (h : n < 0xd800) :
    charsOfPieces (.unit n :: ps) = (charsOfPieces ps).map (Char.ofNat n :: ·) := by
  have hone : ¬ (0xd800 ≤ n ∧ n < 0xe000) := by omega
  have hhigh : ¬ (0xd800 ≤ n ∧ n < 0xdc00) := by omega
  have hlow : ¬ (0xdc00 ≤ n ∧ n < 0xe000) := by omega
  rcases ps with _ | ⟨c | l, ps⟩
  · simp only [charsOfPieces, if_neg hone]
  · simp only [charsOfPieces, if_neg hone]
  · rw [charsOfPieces, if_neg hhigh, if_neg hlow]

/-- A printed character is cut off as one piece, which stands for this character whatever pieces
follow. -/
theorem exists_piece (c : Char) :
    ∃ p, (∀ cs, scanPieces (escapeChar c ++ cs) =
        (scanPieces cs).map fun (ps, rest) => (p :: ps, rest)) ∧
      ∀ ps, charsOfPieces (p :: ps) = (charsOfPieces ps).map (c :: ·) := by
  have hchar (ps) : charsOfPieces (.char c :: ps) = (charsOfPieces ps).map (c :: ·) := by
    rw [charsOfPieces]
  rw [escapeChar]
  split_ifs with hquote hback hctl hn hr ht hb hf
  · subst hquote; exact ⟨_, fun _ => scanPieces_escape (by decide) rfl, hchar⟩
  · subst hback; exact ⟨_, fun _ => scanPieces_escape (by decide) rfl, hchar⟩
  · subst hn; exact ⟨_, fun _ => scanPieces_escape (by decide) rfl, hchar⟩
  · subst hr; exact ⟨_, fun _ => scanPieces_escape (by decide) rfl, hchar⟩
  · subst ht; exact ⟨_, fun _ => scanPieces_escape (by decide) rfl, hchar⟩
  · obtain rfl : c = '\x08' := Char.toNat_inj.1 hb
    exact ⟨_, fun _ => scanPieces_escape (by decide) rfl, hchar⟩
  · obtain rfl : c = '\x0c' := Char.toNat_inj.1 hf
    exact ⟨_, fun _ => scanPieces_escape (by decide) rfl, hchar⟩
  · refine ⟨.unit c.toNat, fun _ => scanPieces_unit (number?_digits hctl), fun ps => ?_⟩
    rw [charsOfPieces_unit (by omega), Char.ofNat_toNat]
  · exact ⟨_, fun _ => scanPieces_char hquote hback hctl, hchar⟩

theorem exists_pieces (cs rest : List Char) :
    ∃ ps, scanPieces (cs.flatMap escapeChar ++ '"' :: rest) = some (ps, rest) ∧
      charsOfPieces ps = some cs := by
  induction cs with
  | nil => exact ⟨[], by rw [List.flatMap_nil, List.nil_append, scanPieces], by rw [charsOfPieces]⟩
  | cons c cs ih =>
    obtain ⟨ps, hps, hchars⟩ := ih
    obtain ⟨p, hp, hchar⟩ := exists_piece c
    refine ⟨p :: ps, ?_, ?_⟩
    · rw [List.flatMap_cons, List.append_assoc, hp, hps, Option.map_some]
    · rw [hchar, hchars, Option.map_some]

theorem next?_renderText (s : String) (rest : List Char) :
    Token.next? (renderText s ++ rest) = some (.text (some s), rest) := by
  obtain ⟨ps, hps, hchars⟩ := exists_pieces s.toList rest
  have h : renderText s ++ rest = '"' :: (s.toList.flatMap escapeChar ++ '"' :: rest) := by
    simp only [renderText, List.cons_append, List.append_assoc, List.nil_append]
  rw [h, Token.next?, hps, Option.map_some]
  simp only [hchars, Option.map_some, String.ofList_toList]

/-! ### Numbers -/

theorem value_toDigits (n : Nat) : Decimal.value (Nat.toDigits 10 n) = n := by
  have h := Nat.ofDigitChars_ten_toDigits (n := n)
  rw [Nat.ofDigitChars] at h
  simpa [Decimal.value, Nat.mul_comm] using h

theorem isDigit_toDigits {n : Nat} : ∀ c ∈ Nat.toDigits 10 n, c.isDigit := fun _ h =>
  Nat.isDigit_of_mem_toDigits (by decide) (by decide) h

theorem digitChar_ne_zero : ∀ n < 10, 0 < n → Nat.digitChar n ≠ '0' := by
  decide

theorem head?_toDigits (n : Nat) (h : 0 < n) : (Nat.toDigits 10 n).head? ≠ some '0' := by
  induction n using Nat.strongRecOn with
  | ind n ih =>
    rw [Nat.toDigits_eq_if (by decide)]
    split
    case isTrue hn =>
      rw [List.head?_cons]
      exact fun h' => digitChar_ne_zero n hn h (Option.some.inj h')
    case isFalse hn =>
      rw [List.head?_append_of_ne_nil _ Nat.toDigits_ne_nil]
      exact ih (n / 10) (by omega) (by omega)

/-- The digits of a number are never empty, and begin with a zero only if it is the only digit. -/
theorem leading_toDigits (n : Nat) :
    Nat.toDigits 10 n ≠ [] ∧
      ((Nat.toDigits 10 n).head? ≠ some '0' ∨ (Nat.toDigits 10 n).length = 1) := by
  refine ⟨Nat.toDigits_ne_nil, ?_⟩
  rcases Nat.eq_zero_or_pos n with rfl | h
  · exact .inr (by rw [Nat.toDigits_zero]; rfl)
  · exact .inl (head?_toDigits n h)

theorem spanDigits_toDigits (n : Nat) (h : ∀ c ∈ rest.head?, ¬ c.isDigit) :
    spanDigits (Nat.toDigits 10 n ++ rest) = (Nat.toDigits 10 n, rest) := by
  have hrest : rest.takeWhile Char.isDigit = [] ∧ rest.dropWhile Char.isDigit = rest := by
    cases rest with
    | nil => exact ⟨rfl, rfl⟩
    | cons c rest =>
      have hc := h c rfl
      exact ⟨List.takeWhile_cons_of_neg hc, List.dropWhile_cons_of_neg hc⟩
  rw [spanDigits, List.span_eq_takeWhile_dropWhile, List.takeWhile_append_of_pos isDigit_toDigits,
    List.dropWhile_append_of_pos isDigit_toDigits, hrest.1, hrest.2, List.append_nil]

/-- An integer is printed as a sign, if it is negative, and the digits of its magnitude. -/
theorem toList_toString (m : Int) :
    (toString m).toList = (if m < 0 then ['-'] else []) ++ Nat.toDigits 10 m.natAbs := by
  rw [Int.toString_eq_repr, Int.repr_eq_if]
  rcases Int.lt_or_le m 0 with h | h
  · rw [if_neg (by omega), if_pos h, String.toList_append, Nat.toList_repr,
      show (-m).toNat = m.natAbs by omega]
    rfl
  · rw [if_pos h, if_neg (by omega), Nat.toList_repr, show m.toNat = m.natAbs by omega,
      List.nil_append]

theorem eq_of_sign (m : Int) :
    (if decide (m < 0) = true then -(m.natAbs : Int) else m.natAbs) = m := by
  simp only [decide_eq_true_eq]
  omega

theorem exists_toDigits_eq_cons (n : Nat) :
    ∃ d ds, Nat.toDigits 10 n = d :: ds ∧ d.isDigit := by
  obtain ⟨d, ds, h⟩ := List.exists_cons_of_ne_nil (Nat.toDigits_ne_nil (n := n) (b := 10))
  exact ⟨d, ds, h, isDigit_toDigits d (by rw [h]; exact List.mem_cons_self)⟩

/-- Whether what follows a value is the end, or one of the characters that end a value. -/
def IsEnd (rest : List Char) : Prop :=
  ∀ c ∈ rest.head?, c = ',' ∨ c = ']' ∨ c = '\x7d'

theorem IsEnd.not_isDigit (h : IsEnd rest) : ∀ c ∈ rest.head?, ¬ c.isDigit := by
  intro c hc
  rcases h c hc with rfl | rfl | rfl <;> decide

theorem IsEnd.cases (h : IsEnd rest) :
    rest = [] ∨ ∃ rest', rest = ',' :: rest' ∨ rest = ']' :: rest' ∨ rest = '\x7d' :: rest' := by
  rcases rest with _ | ⟨c, rest⟩
  · exact .inl rfl
  · rcases h c rfl with rfl | rfl | rfl
    · exact .inr ⟨rest, .inl rfl⟩
    · exact .inr ⟨rest, .inr (.inl rfl)⟩
    · exact .inr ⟨rest, .inr (.inr rfl)⟩

theorem scanExponent_toDigits (n : Nat) (h : IsEnd rest) :
    scanExponent (Nat.toDigits 10 n ++ rest) = some ((n : Int), rest) ∧
      scanExponent ('-' :: (Nat.toDigits 10 n ++ rest)) = some (-(n : Int), rest) := by
  have hspan := spanDigits_toDigits n h.not_isDigit
  have hvalue := value_toDigits n
  have hne : Nat.toDigits 10 n ≠ [] := Nat.toDigits_ne_nil
  have hdigit := isDigit_toDigits (n := n)
  -- the two signs are told from a digit by the first character
  generalize Nat.toDigits 10 n = ds at *
  obtain ⟨d, ds, rfl⟩ := List.exists_cons_of_ne_nil hne
  have hd := hdigit d List.mem_cons_self
  have hminus : d ≠ '-' := by rintro rfl; exact absurd hd (by decide)
  have hplus : d ≠ '+' := by rintro rfl; exact absurd hd (by decide)
  rw [List.cons_append] at *
  constructor
  · rw [scanExponent]
    · simp only [hspan, hvalue, if_false, Bool.false_eq_true]
    · exact fun _ h => hminus (List.cons.inj h).1
    · exact fun _ h => hplus (List.cons.inj h).1
  · simp only [scanExponent, hspan, hvalue, if_true]

theorem scanExponent_toString (e : Int) (h : IsEnd rest) :
    scanExponent ((toString e).toList ++ rest) = some (e, rest) := by
  rw [toList_toString]
  split
  case isTrue he =>
    rw [List.append_assoc, List.singleton_append, (scanExponent_toDigits _ h).2]
    congr 2; omega
  case isFalse he =>
    rw [List.nil_append, (scanExponent_toDigits _ h).1]
    congr 2; omega

theorem scanNumber_integer {negative : Bool} (hn : negative = true → n ≠ 0) (h : IsEnd rest) :
    scanNumber negative (Nat.toDigits 10 n ++ rest) =
      some (.integer (if negative then -(n : Int) else n), rest) := by
  rw [scanNumber, spanDigits_toDigits _ h.not_isDigit]
  -- neither a point nor an exponent letter follows
  obtain rfl | ⟨rest, rfl | rfl | rfl⟩ := h.cases
  all_goals simpa [leading_toDigits, value_toDigits, guard] using hn

theorem scanNumber_decimal (negative : Bool) (n : Nat) (e : Int) (h : IsEnd rest) :
    scanNumber negative (Nat.toDigits 10 n ++ 'e' :: ((toString e).toList ++ rest)) =
      some (.decimal (if negative then -(n : Int) else n) e, rest) := by
  rw [scanNumber, spanDigits_toDigits _ (by simp)]
  simp [leading_toDigits, value_toDigits, guard, scanExponent_toString e h,
    - Int.toString_eq_repr]

theorem next?_digit (h : c.isDigit) :
    Token.next? (c :: cs) =
      (scanNumber false (c :: cs)).map fun (n, rest) => (.number n, rest) := by
  rw [Token.next?]
  all_goals
    rintro _ ⟨⟩
    exact absurd h (by decide)

theorem next?_signed {m : Int} {x : Number} {tail : List Char}
    (h : scanNumber (m < 0) (Nat.toDigits 10 m.natAbs ++ tail) = some (x, rest)) :
    Token.next? ((toString m).toList ++ tail) = some (.number x, rest) := by
  rw [toList_toString]
  split
  case isTrue hm =>
    rw [decide_eq_true hm] at h
    rw [List.append_assoc, List.singleton_append, Token.next?, h, Option.map_some]
  case isFalse hm =>
    obtain ⟨d, ds, hds, hd⟩ := exists_toDigits_eq_cons m.natAbs
    rw [decide_eq_false hm, hds, List.cons_append] at h
    rw [hds, List.nil_append, List.cons_append, next?_digit hd, h, Option.map_some]

theorem exists_toString_eq_cons (m : Int) :
    ∃ d ds, (toString m).toList = d :: ds ∧ isSpace d = false := by
  obtain ⟨d, ds, hds, hd⟩ := exists_toDigits_eq_cons m.natAbs
  rw [toList_toString, hds]
  split
  · exact ⟨'-', d :: ds, rfl, rfl⟩
  · refine ⟨d, ds, rfl, ?_⟩
    simp only [isSpace, Bool.or_eq_false_iff, decide_eq_false_iff_not]
    refine ⟨⟨⟨?_, ?_⟩, ?_⟩, ?_⟩
    all_goals
      rintro rfl
      exact absurd hd (by decide)

theorem exists_renderNumber_eq_cons (x : Number) :
    ∃ d ds, renderNumber x = d :: ds ∧ isSpace d = false := by
  cases x with
  | integer m => exact exists_toString_eq_cons m
  | decimal m e =>
    obtain ⟨d, ds, h, hspace⟩ := exists_toString_eq_cons m
    exact ⟨d, _, by rw [renderNumber, h]; rfl, hspace⟩

theorem next?_renderNumber (x : Number) (h : IsEnd rest) :
    Token.next? (renderNumber x ++ rest) = some (.number x, rest) := by
  cases x with
  | integer m =>
    have hsign : decide (m < 0) = true → m.natAbs ≠ 0 := by
      rw [decide_eq_true_eq]
      omega
    refine next?_signed ?_
    rw [scanNumber_integer hsign h, eq_of_sign]
  | decimal m e =>
    rw [renderNumber, List.append_assoc, List.cons_append]
    refine next?_signed ?_
    rw [scanNumber_decimal _ _ e h, eq_of_sign]

/-! ### Values -/

/-- The characters are cut into these tokens, with any fuel that their number allows. -/
def Reads (cs : List Char) (ts : List Token) : Prop :=
  ∀ fuel, cs.length ≤ fuel → Token.scanFrom fuel cs = some ts

theorem Reads.nil : Reads [] [] := by
  intro fuel _
  cases fuel <;> rfl

theorem Reads.next {t : Token} {ts : List Token} (hnext : Token.next? (c :: cs) = some (t, rest))
    (hspace : isSpace c = false) (hle : rest.length ≤ cs.length) (h : Reads rest ts) :
    Reads (c :: cs) (t :: ts) := by
  intro fuel hfuel
  rw [List.length_cons] at hfuel
  obtain ⟨fuel, rfl⟩ : ∃ k, fuel = k + 1 := ⟨fuel - 1, by omega⟩
  have hrest := h fuel (by omega)
  rw [Token.scanFrom, hspace, hnext]
  simp only [Bool.false_eq_true, if_false, Option.bind_eq_bind, Option.bind_some, hrest,
    Option.pure_def]

theorem reads_renderText {ts : List Token} (s : String) (h : Reads rest ts) :
    Reads (renderText s ++ rest) (.text (some s) :: ts) :=
  h.next (next?_renderText s rest) rfl (by simp; omega)

theorem reads_renderNumber {ts : List Token} (x : Number) (hend : IsEnd rest) (h : Reads rest ts) :
    Reads (renderNumber x ++ rest) (.number x :: ts) := by
  have hnext := next?_renderNumber x hend
  obtain ⟨d, ds, hds, hspace⟩ := exists_renderNumber_eq_cons x
  rw [hds, List.cons_append] at hnext ⊢
  exact h.next hnext hspace (by simp)

theorem isEnd_renderItems (xs : List Json) (rest : List Char) : IsEnd (renderItems xs ++ rest) := by
  cases xs with
  | nil => simp [renderItems, IsEnd]
  | cons x xs => simp [renderItems, IsEnd]

theorem isEnd_renderMembers (ms : List (String × Json)) (rest : List Char) :
    IsEnd (renderMembers ms ++ rest) := by
  rcases ms with _ | ⟨⟨n, v⟩, ms⟩
  · simp [renderMembers, IsEnd]
  · simp [renderMembers, IsEnd]

mutual

theorem reads_renderChars (j : Json) {rest : List Char} {ts : List Token}
    (hend : IsEnd rest) (h : Reads rest ts) :
    Reads (renderChars j ++ rest) (tokens j ++ ts) := by
  match j with
  | .null => exact h.next rfl rfl (Nat.le_add_right _ 3)
  | .bool true => exact h.next rfl rfl (Nat.le_add_right _ 3)
  | .bool false => exact h.next rfl rfl (Nat.le_add_right _ 4)
  | .number x => exact reads_renderNumber x hend h
  | .text s => exact reads_renderText s h
  | .array [] => exact (h.next (c := ']') rfl rfl (Nat.le_refl _)).next rfl rfl (Nat.le_refl _)
  | .array (x :: xs) =>
    have hitems := reads_renderItems xs h
    have hx := reads_renderChars x (isEnd_renderItems xs rest) hitems
    rw [renderChars, tokens]
    simp only [List.cons_append, List.append_assoc]
    exact hx.next rfl rfl (Nat.le_refl _)
  | .object [] => exact (h.next (c := '\x7d') rfl rfl (Nat.le_refl _)).next rfl rfl (Nat.le_refl _)
  | .object ((n, v) :: ms) =>
    have hmembers := reads_renderMembers ms h
    have hv := reads_renderChars v (isEnd_renderMembers ms rest) hmembers
    have hname := reads_renderText n (hv.next (c := ':') rfl rfl (Nat.le_refl _))
    rw [renderChars, tokens]
    simp only [List.cons_append, List.append_assoc]
    exact hname.next rfl rfl (Nat.le_refl _)

theorem reads_renderItems (xs : List Json) {rest : List Char} {ts : List Token}
    (h : Reads rest ts) :
    Reads (renderItems xs ++ rest) (itemTokens xs ++ ts) := by
  match xs with
  | [] => exact h.next rfl rfl (Nat.le_refl _)
  | x :: xs =>
    have hitems := reads_renderItems xs h
    have hx := reads_renderChars x (isEnd_renderItems xs rest) hitems
    rw [renderItems, itemTokens]
    simp only [List.cons_append, List.append_assoc]
    exact hx.next rfl rfl (Nat.le_refl _)

theorem reads_renderMembers (ms : List (String × Json)) {rest : List Char} {ts : List Token}
    (h : Reads rest ts) :
    Reads (renderMembers ms ++ rest) (memberTokens ms ++ ts) := by
  match ms with
  | [] => exact h.next rfl rfl (Nat.le_refl _)
  | (n, v) :: ms =>
    have hmembers := reads_renderMembers ms h
    have hv := reads_renderChars v (isEnd_renderMembers ms rest) hmembers
    have hname := reads_renderText n (hv.next (c := ':') rfl rfl (Nat.le_refl _))
    rw [renderMembers, memberTokens]
    simp only [List.cons_append, List.append_assoc]
    exact hname.next rfl rfl (Nat.le_refl _)

end

/-- **A printed value is cut into its tokens.** -/
theorem Token.scan_render (j : Json) : Token.scan j.render = some (tokens j) := by
  have hend : IsEnd [] := fun _ h => nomatch h
  have h := reads_renderChars j hend .nil
  rw [List.append_nil, List.append_nil] at h
  rw [Token.scan, render, String.toList_ofList]
  exact h _ (Nat.le_refl _)

end TrieOverlay.Json
