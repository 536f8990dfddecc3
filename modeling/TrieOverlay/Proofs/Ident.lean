import TrieOverlay.Bulk.ScratchFile
import TrieOverlay.Text.Hex

/-!
# Names made from serials are distinct

Two serials have different digits (`Serial.digits_injective`), and hence give different names
(`Ident.ofSerial_injective`) and different file names (`ScratchFile.nameOf_injective`).
-/

namespace TrieOverlay

/-! ### Digits -/

namespace Serial

/-- The number that hexadecimal digits write. -/
def number (ds : List Char) : Nat :=
  ds.foldl (fun n c => 16 * n + (Hex.value? c).getD 0) 0

theorem number_append_singleton (ds : List Char) (c : Char) :
    number (ds ++ [c]) = 16 * number ds + (Hex.value? c).getD 0 := by
  simp [number]

theorem value?_digitChar : ∀ n < 16, Hex.value? (Nat.digitChar n) = some n := by
  decide

theorem number_toDigits (n : Nat) : number (Nat.toDigits 16 n) = n := by
  induction n using Nat.strongRecOn with
  | ind n ih =>
    rw [Nat.toDigits_eq_if (by decide)]
    split
    · simp [number, value?_digitChar n ‹_›]
    · rw [number_append_singleton, ih (n / 16) (by omega),
        value?_digitChar _ (Nat.mod_lt n (by decide)), Option.getD_some]
      exact Nat.div_add_mod n 16

theorem number_digits (n : Nat) : number (digits n) = n := by
  have hzeros : ∀ k, (List.replicate k '0').foldl
      (fun n c => 16 * n + (Hex.value? c).getD 0) 0 = 0 := by
    intro k
    induction k with
    | zero => rfl
    | succ k ih => exact ih
  rw [digits, number, List.foldl_append, hzeros]
  exact number_toDigits n

theorem digits_injective {m n : Nat} (h : digits m = digits n) : m = n := by
  rw [← number_digits m, h, number_digits]

/-- There are at least 32 digits. -/
theorem le_length_digits (n : Nat) : 32 ≤ (digits n).length := by
  simp only [digits, List.length_append, List.length_replicate]
  omega

theorem compact_injective {m n : Nat} (h : compact m = compact n) : m = n :=
  digits_injective (by simpa [compact] using congrArg String.toList h)

/-- The digits are the groups put together. -/
theorem groups_eq (ds : List Char) :
    (ds.drop 0).take 8 ++ ((ds.drop 8).take 4 ++ ((ds.drop 12).take 4 ++
      ((ds.drop 16).take 4 ++ ds.drop 20))) = ds := by
  have h₁ : (ds.drop 16).take 4 ++ ds.drop 20 = ds.drop 16 := by
    simpa [List.drop_drop] using List.take_append_drop 4 (ds.drop 16)
  have h₂ : (ds.drop 12).take 4 ++ ds.drop 16 = ds.drop 12 := by
    simpa [List.drop_drop] using List.take_append_drop 4 (ds.drop 12)
  have h₃ : (ds.drop 8).take 4 ++ ds.drop 12 = ds.drop 8 := by
    simpa [List.drop_drop] using List.take_append_drop 4 (ds.drop 8)
  rw [h₁, h₂, h₃]
  exact List.take_append_drop 8 ds

theorem hyphenated_injective {m n : Nat} (h : hyphenated m = hyphenated n) : m = n := by
  have hlist := congrArg String.toList h
  simp only [hyphenated, String.toList_ofList] at hlist
  have hm := le_length_digits m
  have hn := le_length_digits n
  refine digits_injective ?_
  rw [← groups_eq (digits m), ← groups_eq (digits n)]
  generalize digits m = ds at *
  generalize digits n = es at *
  have hlen : ∀ (ds : List Char), 32 ≤ ds.length → ∀ s k, s + k ≤ 32 →
      ((ds.drop s).take k).length = k := by
    intro ds hds s k hsk
    rw [List.length_take, List.length_drop]
    omega
  simp only [List.intercalate, List.intersperse, List.flatten_cons, List.flatten_nil,
    List.append_nil] at hlist
  obtain ⟨h₁, hlist⟩ := List.append_inj hlist
    ((hlen ds (by omega) 0 8 (by omega)).trans (hlen es (by omega) 0 8 (by omega)).symm)
  obtain ⟨-, hlist⟩ := List.append_inj hlist rfl
  obtain ⟨h₂, hlist⟩ := List.append_inj hlist
    ((hlen ds (by omega) 8 4 (by omega)).trans (hlen es (by omega) 8 4 (by omega)).symm)
  obtain ⟨-, hlist⟩ := List.append_inj hlist rfl
  obtain ⟨h₃, hlist⟩ := List.append_inj hlist
    ((hlen ds (by omega) 12 4 (by omega)).trans (hlen es (by omega) 12 4 (by omega)).symm)
  obtain ⟨-, hlist⟩ := List.append_inj hlist rfl
  obtain ⟨h₄, hlist⟩ := List.append_inj hlist
    ((hlen ds (by omega) 16 4 (by omega)).trans (hlen es (by omega) 16 4 (by omega)).symm)
  obtain ⟨-, h₅⟩ := List.append_inj hlist rfl
  rw [h₁, h₂, h₃, h₄, h₅]

end Serial

theorem Ident.ofSerial_injective {kind : IdentKind} {m n : Nat}
    (h : (Ident.ofSerial m : Ident kind) = Ident.ofSerial n) : m = n :=
  Serial.hyphenated_injective (congrArg Ident.text h)

theorem ScratchFile.nameOf_injective {m n : Nat} (h : nameOf m = nameOf n) : m = n := by
  refine Serial.compact_injective (String.toList_inj.1 ?_)
  have := congrArg String.toList h
  simp only [nameOf, String.toList_append] at this
  exact List.append_cancel_right this

end TrieOverlay
