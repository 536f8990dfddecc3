/-!
# Signatures and what is remembered under them

A collection changes its *signature* with every mutation, so a value derived from it can be
remembered together with the signature it was derived at, and is good for as long as the collection
has that signature.  Signatures are counted up: no two mutations leave the same one.  A `Memo`
remembers one such value.
-/

namespace TrieOverlay

/-- The version of a collection. -/
structure Signature where
  /-- The number of the version. -/
  version : Nat
deriving DecidableEq, Repr, Inhabited

namespace Signature

/-- The signature of a new collection. -/
def first : Signature := ⟨0⟩

/-- The signature after a mutation. -/
def next (s : Signature) : Signature := ⟨s.version + 1⟩

/-- A mutation is seen. -/
theorem next_ne (s : Signature) : s.next ≠ s := by
  cases s
  simp [next]

/-- A signature for a person to read: eight hexadecimal digits. -/
def describe (s : Signature) : String :=
  let ds := Nat.toDigits 16 s.version
  let shown := (List.replicate (8 - ds.length) '0' ++ ds).reverse.take 8
  "Signature(" ++ String.ofList shown.reverse ++ ")"

end Signature

/-- A derived value with the signature it was derived at. -/
structure Memo (α : Type) where
  /-- The remembered value, if there is one. -/
  slot : Option (Signature × α)

namespace Memo

variable {α : Type}

/-- Nothing is remembered. -/
def empty : Memo α := ⟨none⟩

instance : Inhabited (Memo α) := ⟨empty⟩

/-- The remembered value, if it was derived at this signature. -/
def lookup? (c : Memo α) (current : Signature) : Option α :=
  match c.slot with
  | some (s, a) => if s = current then some a else none
  | none => none

/-- Whether a value derived at this signature is remembered. -/
def isFresh (c : Memo α) (current : Signature) : Bool :=
  (c.lookup? current).isSome

/-- The memo after forgetting. -/
def forget (_ : Memo α) : Memo α := empty

/-- The remembered value if it was derived at this signature, else a newly derived one, which is
remembered. -/
def fetch {m : Type → Type} [Monad m] (c : Memo α) (current : Signature)
    (compute : m α) : m (α × Memo α) :=
  match c.lookup? current with
  | some a => pure (a, c)
  | none => do
    let a ← compute
    return (a, ⟨some (current, a)⟩)

@[simp] theorem lookup?_empty (s : Signature) : (empty : Memo α).lookup? s = none := rfl

@[simp] theorem lookup?_mk_self (s : Signature) (a : α) :
    (Memo.mk (some (s, a))).lookup? s = some a := by
  simp [lookup?]

end Memo

end TrieOverlay
