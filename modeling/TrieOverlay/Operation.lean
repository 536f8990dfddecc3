/-!
# Operations

A request changes the index in one of three ways.  Each operation has a code, which is what
travels between peers, and a name, which is what people read.
-/

namespace TrieOverlay

/-- The kind of change that a request asks for. -/
inductive Operation where
  | delete
  | insert
  | update
deriving DecidableEq, Repr, Inhabited

namespace Operation

/-- The operations in the order of their codes. -/
def all : List Operation := [delete, insert, update]

/-- The number of an operation on the wire. -/
def code : Operation → Nat
  | delete => 0
  | insert => 1
  | update => 2

/-- The operation with a number. -/
def ofCode? : Nat → Option Operation
  | 0 => some delete
  | 1 => some insert
  | 2 => some update
  | _ => none

/-- The name of an operation. -/
def name : Operation → String
  | delete => "DELETE"
  | insert => "INSERT"
  | update => "UPDATE"

instance : ToString Operation := ⟨name⟩

/-- The wording for a number that no operation has. -/
def unknownCodeMessage (code : Nat) : String :=
  "unknown operation code " ++ toString code

@[simp] theorem ofCode?_code (o : Operation) : ofCode? o.code = some o := by
  cases o <;> rfl

theorem code_of_ofCode? {n : Nat} {o : Operation} (h : ofCode? n = some o) : o.code = n := by
  match n, h with
  | 0, h | 1, h | 2, h => cases h; rfl

theorem mem_all (o : Operation) : o ∈ all := by
  cases o <;> decide

end Operation

end TrieOverlay
