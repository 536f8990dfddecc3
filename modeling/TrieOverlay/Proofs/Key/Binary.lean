import Mathlib.Data.List.Infix
import Mathlib.Tactic.Linarith
import TrieOverlay.Key.Scheme
import TrieOverlay.Proofs.Store.Range
import TrieOverlay.Proofs.Text.Utf8

/-!
# Binary keys keep order and prefixes

A binary key is a text written in pieces, eight bits for every byte, and cut off at a limit.

* Pieces of one length that are in the order of what they are written for keep the order of lists
  (`compare_flatMap`), and the bits of a byte are in its order because bits of one length are in the
  order of the number that they write (`Key.compare_number`).
* Pieces of which none begins another keep prefixes in both directions
  (`flatMap_prefix_flatMap_iff`).  The bits of a byte are such pieces, and so are the bytes of a
  character, so it is the same whether a text begins with another character by character, byte by
  byte or bit by bit.
* Cutting off keeps the order and the prefixes of lists.

`Key.binary_embeds` puts these together.
-/

namespace TrieOverlay

/-! ### Lists that are written in pieces -/

section Pieces

variable {α β : Type} {f : α → List β} {as bs : List α}

/-- Lists that are written in pieces of which none begins another begin with each other exactly if
what is written does. -/
theorem flatMap_prefix_flatMap_iff (hne : ∀ a, f a ≠ [])
    (hfree : ∀ a b xs ys, f a ++ xs = f b ++ ys → a = b) :
    as.flatMap f <+: bs.flatMap f ↔ as <+: bs := by
  refine ⟨fun h => ?_, fun h => List.IsPrefix.flatMap h f⟩
  induction as generalizing bs with
  | nil => exact List.nil_prefix
  | cons a as ih =>
    cases bs with
    | nil => simp [hne a] at h
    | cons b bs =>
      rw [List.flatMap_cons, List.flatMap_cons] at h
      obtain ⟨rest, hrest⟩ := h
      obtain rfl := hfree a b (as.flatMap f ++ rest) (bs.flatMap f) (by simpa using hrest)
      refine (List.prefix_cons_inj a).2 (ih ⟨rest, ?_⟩)
      rwa [List.append_assoc, List.append_cancel_left_eq] at hrest

variable [Ord α] [Ord β]

theorem compare_append {xs ys : List β} (h : xs.length = ys.length) (xs' ys' : List β) :
    compare (xs ++ xs') (ys ++ ys') = (compare xs ys).then (compare xs' ys') := by
  induction xs generalizing ys with
  | nil =>
    obtain rfl : ys = [] := List.length_eq_zero_iff.1 h.symm
    simp
  | cons x xs ih =>
    cases ys with
    | nil => cases h
    | cons y ys =>
      rw [List.cons_append, List.cons_append, List.compare_cons_cons, List.compare_cons_cons,
        ih (Nat.succ.inj h), Ordering.then_assoc]

/-- Lists that are written in pieces of one length, each in the order of what it is written for, are
in the order of what is written. -/
theorem compare_flatMap {n : Nat} (hlength : ∀ a, (f a).length = n + 1)
    (hcompare : ∀ a b, compare (f a) (f b) = compare a b) :
    compare (as.flatMap f) (bs.flatMap f) = compare as bs := by
  have hne : ∀ a, ∃ x xs, f a = x :: xs := fun a =>
    List.exists_cons_of_length_eq_add_one (hlength a)
  induction as generalizing bs with
  | nil =>
    cases bs with
    | nil => rfl
    | cons b bs =>
      obtain ⟨y, ys, hy⟩ := hne b
      rw [List.flatMap_nil, List.flatMap_cons, hy]
      rfl
  | cons a as ih =>
    cases bs with
    | nil =>
      obtain ⟨x, xs, hx⟩ := hne a
      rw [List.flatMap_nil, List.flatMap_cons, hx]
      rfl
    | cons b bs =>
      rw [List.flatMap_cons, List.flatMap_cons, compare_append ((hlength a).trans (hlength b).symm),
        hcompare, ih, List.compare_cons_cons]

/-- Lists that are cut off at one length stay in order. -/
theorem compare_take_ne_gt (h : compare as bs ≠ .gt) (n : Nat) :
    compare (as.take n) (bs.take n) ≠ .gt := by
  induction n generalizing as bs with
  | zero => simp
  | succ n ih =>
    cases as with
    | nil => cases bs <;> simp [List.compare_nil_cons]
    | cons a as =>
      cases bs with
      | nil => exact absurd List.compare_cons_nil h
      | cons b bs =>
        rw [List.take_succ_cons, List.take_succ_cons]
        rw [List.compare_cons_cons] at h ⊢
        -- only lists that begin with the same are compared further
        cases hab : compare a b with
        | lt => simp
        | eq => exact ih (by simpa [hab] using h)
        | gt => simp [hab] at h

end Pieces

/-! ### Texts as bytes -/

theorem Utf8.length_encode (s : String) : (encode s).length = s.utf8ByteSize :=
  rfl

/-- The bytes of a text begin with those of another exactly if the text begins with the other. -/
theorem Utf8.encode_prefix_encode_iff {a b : String} :
    encode a <+: encode b ↔ a.toList <+: b.toList := by
  rw [encode_eq_flatMap, encode_eq_flatMap]
  refine flatMap_prefix_flatMap_iff (fun c => String.utf8EncodeChar_ne_nil) fun c d xs ys h => ?_
  -- the first character is decoded from its bytes, whatever follows
  have hdecode : ∀ (c : Char) (xs : Bytes),
      (String.utf8EncodeChar c ++ xs).toByteArray.utf8DecodeChar? 0 = some c := by
    intro c xs
    rw [List.toByteArray_append]
    exact ByteArray.utf8DecodeChar?_utf8EncodeChar_append
  have hc := hdecode c xs
  rw [h, hdecode d ys] at hc
  exact (Option.some.inj hc).symm

namespace Key

/-! ### Bytes as bits -/

/-- The number that bits write, most significant first. -/
def number : List Bool → Nat
  | [] => 0
  | b :: bs => b.toNat * 2 ^ bs.length + number bs

theorem number_lt (bs : List Bool) : number bs < 2 ^ bs.length := by
  induction bs with
  | nil => simp [number]
  | cons b bs ih =>
    have hb : b.toNat ≤ 1 := Bool.toNat_le b
    rw [number, List.length_cons, Nat.pow_succ]
    nlinarith

/-- Bits of one length are in the order of the numbers that they write. -/
theorem compare_number {as bs : List Bool} (h : as.length = bs.length) :
    compare (number as) (number bs) = compare as bs := by
  induction as generalizing bs with
  | nil =>
    obtain rfl : bs = [] := List.length_eq_zero_iff.1 h.symm
    rfl
  | cons a as ih =>
    cases bs with
    | nil => cases h
    | cons b bs =>
      have hlength : as.length = bs.length := Nat.succ.inj h
      have has := number_lt as
      have hbs := number_lt bs
      rw [hlength] at has
      rw [List.compare_cons_cons, ← ih hlength, number, number, hlength]
      -- the first bit weighs more than all others together
      cases a <;> cases b
      · simp
      · have hlt : number as < 2 ^ bs.length + number bs := by omega
        simp only [Bool.toNat_false, Bool.toNat_true, Nat.zero_mul, Nat.one_mul, Nat.zero_add]
        rw [Nat.compare_eq_lt.2 hlt]
        rfl
      · have hgt : number bs < 2 ^ bs.length + number as := by omega
        simp only [Bool.toNat_false, Bool.toNat_true, Nat.zero_mul, Nat.one_mul, Nat.zero_add]
        rw [Nat.compare_eq_gt.2 hgt]
        rfl
      · rw [Nat.compare_eq_ite_lt, Nat.compare_eq_ite_lt]
        simp

/-- The lowest bits of a number write what is left of it modulo their power of two. -/
theorem number_testBit (n k : Nat) :
    number ((List.range k).reverse.map n.testBit) = n % 2 ^ k := by
  induction k with
  | zero => simp [number, Nat.mod_one]
  | succ k ih =>
    rw [List.range_succ, List.reverse_append, List.reverse_singleton, List.singleton_append,
      List.map_cons, number, ih, List.length_map, List.length_reverse, List.length_range,
      Nat.toNat_testBit, Nat.pow_succ, Nat.mod_mul, Nat.mul_comm, Nat.add_comm]

theorem length_byteBits (b : UInt8) : (byteBits b).length = 8 :=
  rfl

theorem number_byteBits (b : UInt8) : number (byteBits b) = b.toNat :=
  (number_testBit b.toNat 8).trans (Nat.mod_eq_of_lt b.toNat_lt)

theorem compare_byteBits (a b : UInt8) : compare (byteBits a) (byteBits b) = compare a b := by
  rw [← compare_number (by rw [length_byteBits, length_byteBits]), number_byteBits,
    number_byteBits]
  simp [compare, compareOfLessAndEq, UInt8.lt_iff_toNat_lt, ← UInt8.toNat_inj]

theorem eq_of_byteBits_append {a b : UInt8} {xs ys : List Bool}
    (h : byteBits a ++ xs = byteBits b ++ ys) : a = b := by
  have hbits := (List.append_inj h rfl).1
  rw [← UInt8.toNat_inj, ← number_byteBits, hbits, number_byteBits]

/-! ### Texts as bits -/

/-- The bits of a text. -/
def textBits (s : String) : List Bool :=
  (Utf8.encode s).flatMap byteBits

theorem binary_bits (limit : Nat) (s : String) :
    (binary limit s).bits = (textBits s).take limit :=
  rfl

theorem length_textBits (s : String) : (textBits s).length = 8 * s.utf8ByteSize := by
  rw [textBits, List.length_flatMap, List.map_congr_left fun b _ => length_byteBits b,
    List.map_const', List.sum_replicate_nat, Utf8.length_encode, Nat.mul_comm]

theorem textBits_prefix_iff {a b : String} :
    textBits a <+: textBits b ↔ a.toList <+: b.toList := by
  rw [← Utf8.encode_prefix_encode_iff]
  exact flatMap_prefix_flatMap_iff (fun b h => by cases h) fun _ _ _ _ => eq_of_byteBits_append

theorem compare_textBits (a b : String) :
    compare (textBits a) (textBits b) = compare (Utf8.encode a) (Utf8.encode b) :=
  compare_flatMap (n := 7) length_byteBits compare_byteBits

theorem length_binary (limit : Nat) (s : String) :
    (binary limit s).length = min limit (8 * s.utf8ByteSize) := by
  rw [length, binary_bits, List.length_take, length_textBits]

theorem compare_binary_ne_gt {a b : String}
    (h : compare (Utf8.encode a) (Utf8.encode b) ≠ .gt) (limit : Nat) :
    compare (binary limit a) (binary limit b) ≠ .gt := by
  rw [← compare_textBits] at h
  exact compare_take_ne_gt h limit

theorem isPrefixOf_binary {a b : String} (h : a.toList <+: b.toList) (limit : Nat) :
    (binary limit a).isPrefixOf (binary limit b) = true :=
  isPrefixOf_iff.2 (List.IsPrefix.take (textBits_prefix_iff.2 h) limit)

/-- Where nothing of a text is cut off, its key begins those of the texts that it begins, and no
others. -/
theorem isPrefixOf_binary_iff {limit : Nat} {a : String} (h : 8 * a.utf8ByteSize ≤ limit)
    (b : String) :
    (binary limit a).isPrefixOf (binary limit b) = true ↔ a.toList <+: b.toList := by
  have hwhole : (textBits a).take limit = textBits a :=
    List.take_of_length_le ((length_textBits a).trans_le h)
  rw [isPrefixOf_iff, binary_bits, binary_bits, hwhole, List.prefix_take_iff, textBits_prefix_iff,
    length_textBits]
  exact and_iff_left h

/-- **Binary keys keep order and prefixes**, whatever the limit:

* payloads that are in order byte by byte have keys in order;
* a payload that begins with another has a key that begins with the key of the other;
* if the key of a payload is not cut off, it begins no other keys than those of the payloads that
  begin with it, so the entries below it are those whose payloads begin with it;
* a key has eight bits for every byte of the payload, up to the limit.
-/
theorem binary_embeds (limit : Nat) (a b : String) :
    (compare (Utf8.encode a) (Utf8.encode b) ≠ .gt →
      compare (binary limit a) (binary limit b) ≠ .gt) ∧
    (a.toList <+: b.toList → (binary limit a).isPrefixOf (binary limit b) = true) ∧
    (8 * a.utf8ByteSize ≤ limit →
      ((binary limit a).isPrefixOf (binary limit b) = true → a.toList <+: b.toList) ∧
      ∀ s : Store, (∀ e ∈ s.get none, e.key = binary limit e.payload) →
        s.get (some (binary limit a)) =
          (s.get none).filter fun e => a.toList.isPrefixOf e.payload.toList) ∧
    (binary limit a).length = min limit (8 * a.utf8ByteSize) := by
  refine ⟨fun h => compare_binary_ne_gt h limit, fun h => isPrefixOf_binary h limit,
    fun h => ⟨(isPrefixOf_binary_iff h b).1, fun s hkeys => ?_⟩, length_binary limit a⟩
  rw [show s.get (some (binary limit a)) = _ from s.state.entriesBelow_eq_filter _]
  refine List.filter_congr fun e he => ?_
  rw [hkeys e he, Bool.eq_iff_iff, isPrefixOf_binary_iff h, List.isPrefixOf_iff_prefix]

/-- A word is looked for by its first letter, at a limit that cuts the second one. -/
theorem binary_embeds_of_cut :
    let a : Entry := ⟨⟨"1"⟩, binary 12 "ab", "word", ⟨⟨"peer"⟩, "localhost:1"⟩, "ab"⟩
    let b : Entry := ⟨⟨"2"⟩, binary 12 "b", "word", ⟨⟨"peer"⟩, "localhost:1"⟩, "b"⟩
    let s := ((Store.named "words").add [b, a]).2
    compare (binary 12 "a") (binary 12 "ab") ≠ .gt ∧
      (binary 12 "a").isPrefixOf (binary 12 "ab") = true ∧
      s.get (some (binary 12 "a")) = [a] := by
  intro a b s
  have hstored : s.get none = [a, b] := by decide
  obtain ⟨horder, hprefix, hquery, -⟩ := binary_embeds 12 "a" "ab"
  refine ⟨horder (by decide), hprefix (by decide), ?_⟩
  rw [(hquery (by decide)).2 s (by rw [hstored]; decide), hstored]
  decide

end Key

end TrieOverlay
