import TrieOverlay.Envelope
import TrieOverlay.Proofs.Bulk.File
import TrieOverlay.Proofs.Json.Parse

/-!
# Envelopes are opened again

Identifiers, keys, operations, peers, entries and parcels are read as they were written, so opening
an envelope gives the parcel that was put into it (`Envelope.unwrap_wrap`).

The body of an envelope is read as a whole value before anybody knows what kind of message it is.
A parcel is no deeper than such a value may be, so an envelope is read as it was written
(`Envelope.ofWritten?_wrap`).
-/

namespace TrieOverlay

open Json (Written)

@[simp] theorem Ident.ofWritten?_toJson {kind : IdentKind} (i : Ident kind) :
    Ident.ofWritten? i.toJson.toWritten = some i :=
  rfl

@[simp] theorem Key.ofWritten?_toJson (k : Key) : Key.ofWritten? k.toJson.toWritten = some k :=
  Key.ofString?_toString k

@[simp] theorem Operation.ofWritten?_toJson (o : Operation) :
    Operation.ofWritten? o.toJson.toWritten = some o := by
  cases o <;> rfl

theorem Json.Written.text?_text (s : String) : (Json.text s).toWritten.text? = some s :=
  rfl

theorem PeerInfo.ofWritten?_toJson (p : PeerInfo) :
    PeerInfo.ofWritten? p.toJson.toWritten = some p := by
  have hfields := Written.fields?_record [("id", p.id.toJson), ("address", .text p.address)]
    [("id", p.id.toJson), ("address", .text p.address)] (by simp) (List.Subset.refl _)
  rw [PeerInfo.ofWritten?, PeerInfo.toJson]
  simp only [List.map_cons, List.map_nil] at hfields
  rw [hfields]
  rfl

theorem Entry.ofWritten?_toJson (e : Entry) : Entry.ofWritten? e.toJson.toWritten = some e := by
  have hfields := Written.fields?_record
    [("id", e.id.toJson), ("key", e.key.toJson), ("type_name", .text e.typeName),
      ("peer", e.peer.toJson), ("payload", .text e.payload)]
    [("id", e.id.toJson), ("key", e.key.toJson), ("type_name", .text e.typeName),
      ("peer", e.peer.toJson), ("payload", .text e.payload)] (by simp) (List.Subset.refl _)
  rw [Entry.ofWritten?, Entry.toJson]
  simp only [List.map_cons, List.map_nil] at hfields
  rw [hfields]
  simp [Written.required?, PeerInfo.ofWritten?_toJson, Written.text?_text]

namespace Parcel

theorem headerOf?_toJson (h : Header) :
    headerOf? (some h.id.toJson.toWritten) (some h.branch.toJson.toWritten)
      (some h.operation.toJson.toWritten) (some h.parent.toJson.toWritten) = some h := by
  simp [headerOf?, Written.required?]

/-- A parcel is read as it was written. -/
theorem ofWritten?_toJson (p : Parcel) :
    Parcel.ofWritten? p.content.kind p.toJson.toWritten = some p := by
  obtain ⟨h, content⟩ := p
  cases content with
  | entries batch =>
    have hfields := Written.fields?_record
      [("id", h.id.toJson), ("branch_key", h.branch.toJson), ("operation", h.operation.toJson),
        ("parent_id", h.parent.toJson), ("entries", Entry.listToJson batch)]
      [("id", h.id.toJson), ("branch_key", h.branch.toJson), ("operation", h.operation.toJson),
        ("entries", Entry.listToJson batch), ("parent_id", h.parent.toJson)]
      (by simp) (by simp)
    have hbatch : Entry.listOfWritten? (Entry.listToJson batch).toWritten = some batch :=
      Written.listOf?_array Entry.ofWritten?_toJson batch
    simp only [List.map_cons, List.map_nil] at hfields
    simp only [Content.kind, Parcel.ofWritten?, Parcel.toJson, hfields]
    simp [headerOf?_toJson, Written.required?, hbatch]
  | lines lines =>
    have hfields := Written.fields?_record
      [("id", h.id.toJson), ("branch_key", h.branch.toJson), ("operation", h.operation.toJson),
        ("parent_id", h.parent.toJson), ("lines", .texts lines)]
      [("id", h.id.toJson), ("branch_key", h.branch.toJson), ("operation", h.operation.toJson),
        ("parent_id", h.parent.toJson), ("lines", .texts lines)]
      (by simp) (by simp)
    have hlines : Written.listOf? Written.text? (Json.texts lines).toWritten = some lines :=
      Written.listOf?_array Written.text?_text lines
    simp only [List.map_cons, List.map_nil] at hfields
    simp only [Content.kind, Parcel.ofWritten?, Parcel.toJson, hfields]
    simp [headerOf?_toJson, Written.required?, hlines]

/-- A parcel is no parcel of the other kind: it says nothing where that has its content. -/
theorem ofWritten?_toJson_of_ne {kind : MessageKind} (p : Parcel) (h : kind ≠ p.content.kind) :
    Parcel.ofWritten? kind p.toJson.toWritten = none := by
  obtain ⟨header, content⟩ := p
  cases content with
  | entries batch =>
    cases kind with
    | entries => exact absurd rfl h
    | file =>
      simp only [Parcel.ofWritten?, Parcel.toJson]
      rw [Written.fields?_record_lookup _ _ (by simp)]
      simp [List.lookup_cons, headerOf?_toJson, Written.required?]
  | lines lines =>
    cases kind with
    | file => exact absurd rfl h
    | entries =>
      simp only [Parcel.ofWritten?, Parcel.toJson]
      rw [Written.fields?_record_lookup _ _ (by simp)]
      simp [List.lookup_cons, headerOf?_toJson, Written.required?]

end Parcel

/-! ### Bodies as whole values -/

open Json (Kept kept_text kept_number kept_array kept_record)

variable {depth : Nat}

theorem Operation.kept_toJson (o : Operation) : Kept depth o.toJson :=
  kept_number (by cases o <;> decide)

theorem PeerInfo.kept_toJson (p : PeerInfo) (h : 1 < depth) : Kept depth p.toJson := by
  refine kept_record h ?_
  simp only [List.forall_mem_cons, List.not_mem_nil, false_implies, implies_true, and_true]
  exact ⟨kept_text _, kept_text _⟩

theorem Entry.kept_toJson (e : Entry) (h : 2 < depth) : Kept depth e.toJson := by
  refine kept_record (by omega) ?_
  simp only [List.forall_mem_cons, List.not_mem_nil, false_implies, implies_true, and_true]
  exact ⟨kept_text _, kept_text _, kept_text _, e.peer.kept_toJson (by omega), kept_text _⟩

theorem Parcel.kept_toJson (p : Parcel) (h : 4 < depth) : Kept depth p.toJson := by
  refine kept_record (by omega) ?_
  simp only [List.forall_mem_cons, List.not_mem_nil, false_implies, implies_true, and_true]
  refine ⟨kept_text _, kept_text _, p.header.operation.kept_toJson, kept_text _, ?_⟩
  obtain ⟨header, content⟩ := p
  cases content with
  | entries batch =>
    refine kept_array (by omega) (List.forall_mem_map.2 fun e _ => e.kept_toJson (by omega))
  | lines lines =>
    refine kept_array (by omega) (List.forall_mem_map.2 fun l _ => kept_text l)

/-! ### Envelopes -/

@[simp] theorem Strategy.ofWritten?_toJson (s : Strategy) :
    Strategy.ofWritten? s.toJson.toWritten = some s :=
  Strategy.ofName?_name s

namespace Envelope

/-- Opening an envelope gives the parcel that was put into it. -/
theorem unwrap_wrap (strategy : Strategy) (sender : PeerId) (p : Parcel) :
    (wrap strategy sender p).unwrap = .ok p := by
  rw [unwrap, wrap]
  simp only [MessageKind.ofCode?_code, Parcel.ofWritten?_toJson]

/-- Under another number the parcel is not found: no kind has the number, or the other kind has. -/
theorem unwrap_of_ne {e : Envelope} {p : Parcel} (hbody : e.body = p.toJson)
    (h : e.kindCode ≠ p.content.kind.code) :
    e.unwrap = .error (if (MessageKind.ofCode? e.kindCode).isSome then .malformedBody
      else .unknownKind e.kindCode) := by
  rw [unwrap, hbody]
  cases hkind : MessageKind.ofCode? e.kindCode with
  | none => rfl
  | some kind =>
    have hne : kind ≠ p.content.kind := by
      rintro rfl
      exact h (MessageKind.code_of_ofCode? hkind).symm
    simp only [p.ofWritten?_toJson_of_ne hne]
    rfl

/-- An envelope is read as it was written, if its number has sixteen bits and its body can be
read. -/
theorem ofWritten?_toJson {e : Envelope} (hcode : e.kindCode < UInt16.size)
    (hbody : Kept (Written.depthLimit - 1) e.body) :
    Envelope.ofWritten? e.toJson.toWritten = some e := by
  have hfields := Written.fields?_record
    [("strategy", e.strategy.toJson), ("sender", e.sender.toJson),
      ("message_type", .nat e.kindCode), ("body", e.body)]
    [("strategy", e.strategy.toJson), ("sender", e.sender.toJson),
      ("message_type", .nat e.kindCode), ("body", e.body)]
    (by simp) (List.Subset.refl _)
  simp only [List.map_cons, List.map_nil] at hfields
  have hnumber : Written.natUpTo? (UInt16.size - 1) (Json.nat e.kindCode).toWritten =
      some e.kindCode := by
    rw [Json.nat, Json.toWritten, Written.natUpTo?, if_pos (by omega), Int.toNat_natCast]
  rw [Kept] at hbody
  rw [Envelope.ofWritten?, Envelope.toJson]
  simp only [hfields, Written.required?, Strategy.ofWritten?_toJson, Ident.ofWritten?_toJson,
    hnumber, hbody, Option.bind_eq_bind, Option.bind_some, Option.pure_def]

/-- An envelope of a parcel is read as it was written. -/
theorem ofWritten?_wrap (strategy : Strategy) (sender : PeerId) (p : Parcel) :
    Envelope.ofWritten? (wrap strategy sender p).toJson.toWritten =
      some (wrap strategy sender p) := by
  have hcode : ∀ kind : MessageKind, kind.code < UInt16.size := by
    rintro (_ | _) <;> decide
  exact ofWritten?_toJson (hcode p.content.kind) (p.kept_toJson (by decide))

/-- The envelope of a message whose file gives some lines. -/
theorem run_ofMessage_lines {v : Volume} {path : Path} {lines : List String}
    (h : (Bulk.readLines path).run.run v = (.ok lines, v)) (strategy : Strategy) (sender : PeerId)
    (header : Header) :
    (ofMessage strategy sender ⟨header, .file path⟩).run.run v =
      (.ok (wrap strategy sender ⟨header, .lines lines⟩), v) := by
  rw [ofMessage, Parcel.ofMessage]
  exact TryDisk.run_bind_ok (TryDisk.run_bind_ok h)

/-- The envelope of a message that names a file has the lines of the entries of the file. -/
theorem run_ofMessage_file {v : Volume} {p : Path} {es : List Entry}
    (hs : v.schedule = []) (hp : v.HasEntries p es) (strategy : Strategy) (sender : PeerId)
    (header : Header) :
    ∃ lines, (ofMessage strategy sender ⟨header, .file p⟩).run.run v =
        (.ok (wrap strategy sender ⟨header, .lines lines⟩), v) ∧
      lines.filterMap Bulk.Line.decode? = es ∧ ∀ l ∈ lines, '\n' ∉ l.toList := by
  obtain ⟨lines, hrun, hes, hplain⟩ := Bulk.run_readLines hs hp
  exact ⟨lines, run_ofMessage_lines hrun strategy sender header, hes, hplain⟩

end Envelope

end TrieOverlay
