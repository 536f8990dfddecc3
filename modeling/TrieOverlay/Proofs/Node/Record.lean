import Mathlib.Algebra.BigOperators.Group.Multiset.Basic
import TrieOverlay.Proofs.Node.Runs

/-!
# Reading the record of a run

`outcomes` pairs every message of a record with the first report on it that came afterwards.
`afloat` are the messages without a report, `deliveredOf` the entries of those whose first report
said that they were delivered.  The lemmas say what one more item of the record does to them; a
report concerns the messages afloat that have its name, and no others.
-/

namespace TrieOverlay

/-- The entries of a batch for one operation. -/
def ofOperation (o o' : Operation) (es : List Entry) : Multiset Entry :=
  if o' = o then (es : Multiset Entry) else 0

@[simp] theorem ofOperation_nil (o o' : Operation) : ofOperation o o' [] = 0 := by
  simp [ofOperation]

theorem ofOperation_append (o o' : Operation) (es es' : List Entry) :
    ofOperation o o' (es ++ es') = ofOperation o o' es + ofOperation o o' es' := by
  rw [ofOperation, ofOperation, ofOperation]
  split
  · exact (Multiset.coe_add es es').symm
  · rfl

theorem ofOperation_perm {o o' : Operation} {es es' : List Entry} (h : es.Perm es') :
    ofOperation o o' es = ofOperation o o' es' := by
  rw [ofOperation, ofOperation, Multiset.coe_eq_coe.2 h]

/-- The entries that some messages carry for one operation. -/
def loads (o : Operation) (ms : Multiset Carried) : Multiset Entry :=
  (ms.map fun m => ofOperation o m.operation m.entries).sum

@[simp] theorem loads_zero (o : Operation) : loads o 0 = 0 := rfl

@[simp] theorem loads_cons (o : Operation) (m : Carried) (ms : Multiset Carried) :
    loads o (m ::ₘ ms) = ofOperation o m.operation m.entries + loads o ms := by
  simp [loads]

/-- Whether a message has a sender and a name. -/
def Carried.IsNamed (sender : Engine) (id : MessageId) (m : Carried) : Prop :=
  m.sender = sender ∧ m.id = id

instance (sender : Engine) (id : MessageId) : DecidablePred (Carried.IsNamed sender id) :=
  fun _ => inferInstanceAs (Decidable (_ ∧ _))

namespace Record

variable {log : List Note} {m : Carried} {sender : Engine} {id : MessageId} {delivered : Bool}

/-- What an item says about a message. -/
def verdict (m : Carried) : Note → Option Bool
  | .told sender id delivered => if m.IsNamed sender id then some delivered else none
  | .asked _ | .served _ | .sent _ => none

/-- The messages that took off, each with the first report on it afterwards. -/
def outcomes : List Note → List (Carried × Option Bool)
  | [] => []
  | .sent m :: later => (m, later.findSome? (verdict m)) :: outcomes later
  | .asked _ :: later | .served _ :: later | .told _ _ _ :: later => outcomes later

/-- The messages on which there was no report. -/
def afloat (log : List Note) : Multiset Carried :=
  ((outcomes log).filter (·.2 = none)).map (·.1)

/-- The entries of an operation that travelled in messages whose first report said that they were
delivered. -/
def deliveredOf (o : Operation) (log : List Note) : Multiset Entry :=
  loads o (((outcomes log).filter (·.2 = some true)).map (·.1) : List Carried)

/-- One more item is the first report on a message if there was none before. -/
theorem outcomes_append (log : List Note) (note : Note) :
    outcomes (log ++ [note]) =
      ((outcomes log).map fun x => (x.1, x.2.or (verdict x.1 note))) ++ outcomes [note] := by
  induction log with
  | nil => rfl
  | cons first log ih =>
    cases first with
    | sent m =>
      rw [List.cons_append, outcomes, outcomes, ih, List.findSome?_append, List.map_cons,
        List.cons_append, List.findSome?_singleton]
    | asked r => exact ih
    | served r => exact ih
    | told sender id delivered => exact ih

theorem outcomes_append_of_silent {note : Note} (h : ∀ m, verdict m note = none) :
    outcomes (log ++ [note]) = outcomes log ++ outcomes [note] := by
  rw [outcomes_append]
  simp [h]

theorem afloat_sent (log : List Note) (m : Carried) :
    afloat (log ++ [.sent m]) = m ::ₘ afloat log := by
  rw [afloat, outcomes_append_of_silent fun _ => rfl, outcomes, outcomes, List.filter_append,
    List.map_append]
  simp [afloat]

theorem deliveredOf_sent (o : Operation) (log : List Note) (m : Carried) :
    deliveredOf o (log ++ [.sent m]) = deliveredOf o log := by
  rw [deliveredOf, outcomes_append_of_silent fun _ => rfl, outcomes, outcomes, List.filter_append]
  simp [deliveredOf]

/-- Nothing is said about messages. -/
def IsSilent : Note → Prop
  | .asked _ | .served _ => True
  | .sent _ | .told _ _ _ => False

theorem outcomes_append_silent {notes : List Note} (h : ∀ note ∈ notes, IsSilent note) :
    outcomes (log ++ notes) = outcomes log := by
  induction notes using List.reverseRecOn with
  | nil => rw [List.append_nil]
  | append_singleton notes note ih =>
    rw [List.forall_mem_append, List.forall_mem_singleton] at h
    rw [← List.append_assoc]
    cases note with
    | asked r => rw [outcomes_append_of_silent fun _ => rfl, ih h.1]; exact List.append_nil _
    | served r => rw [outcomes_append_of_silent fun _ => rfl, ih h.1]; exact List.append_nil _
    | sent m => exact h.2.elim
    | told sender id delivered => exact h.2.elim

@[simp] theorem verdict_told (m : Carried) (sender : Engine) (id : MessageId) (delivered : Bool) :
    verdict m (.told sender id delivered) =
      if m.IsNamed sender id then some delivered else none :=
  rfl

/-- After a report the messages of its name are not afloat any more. -/
theorem afloat_told (log : List Note) (sender : Engine) (id : MessageId) (delivered : Bool) :
    afloat (log ++ [.told sender id delivered]) =
      (afloat log).filter (¬·.IsNamed sender id) := by
  rw [afloat, afloat, outcomes_append, outcomes, outcomes, List.append_nil, Multiset.filter_coe]
  refine congrArg _ ?_
  -- a message with an earlier report is not afloat before or after, whatever its name
  induction outcomes log with
  | nil => rfl
  | cons x xs ih =>
    obtain ⟨m, before⟩ := x
    rw [List.map_cons]
    cases before with
    | some d => simpa using ih
    | none =>
      by_cases hm : m.IsNamed sender id
      · simpa [hm] using ih
      · simpa [hm] using ih

/-- A report that a message was delivered counts for those afloat that have its name. -/
theorem deliveredOf_told (o : Operation) (log : List Note) (sender : Engine) (id : MessageId)
    (delivered : Bool) :
    deliveredOf o (log ++ [.told sender id delivered]) = deliveredOf o log +
      if delivered then loads o ((afloat log).filter (·.IsNamed sender id)) else 0 := by
  rw [deliveredOf, deliveredOf, afloat, outcomes_append, outcomes, outcomes, List.append_nil]
  simp only [verdict_told, Multiset.filter_coe]
  induction outcomes log with
  | nil => cases delivered <;> rfl
  | cons x xs ih =>
    obtain ⟨m, before⟩ := x
    rw [List.map_cons]
    cases before with
    | some d =>
      cases d
      · simpa using ih
      · simp [← Multiset.cons_coe, add_assoc, ih]
    | none =>
      by_cases hm : m.IsNamed sender id
      · cases delivered
        · simpa [hm] using ih
        · simp [hm, ← Multiset.cons_coe, add_left_comm, ih]
      · simpa [hm] using ih

end Record

end TrieOverlay
