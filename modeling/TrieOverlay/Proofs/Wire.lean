import TrieOverlay.Proofs.Envelope

/-!
# Messages on the wire

A message goes over the wire as the text of its envelope.  What is read from the text is the
envelope (`Envelope.ofText?`), and opening it gives the header of the message, and the entries of
its batch or the lines of its file (`Envelope.Arrives`).

The other direction is about texts that come from anywhere.  A key is only read from a text over the
characters 0 and 1, an operation only from its code (`Key.ofWritten?_eq_some`,
`Operation.ofWritten?_eq_some`), so what a parcel says of keys and operations is what the value
writes that it was read from (`Parcel.Says`).
-/

namespace TrieOverlay

open Json (Written)

/-! ### What was read from a value -/

namespace Json.Written

variable {α : Type} {read : Written → Option α} {w : Written}

theorem required?_eq_some {field : Option Written} {a : α} :
    required? read field = some a ↔ ∃ w, field = some w ∧ read w = some a := by
  cases field <;> simp [required?]

theorem text?_eq_some {s : String} : w.text? = some s ↔ w = .text (some s) := by
  cases w <;> simp [text?]

theorem listOf?_eq_some {as : List α} (h : w.listOf? read = some as) :
    ∃ items, w = .array items ∧ List.Forall₂ (fun item a => read item = some a) items as := by
  unfold listOf? at h
  split at h
  · next items => exact ⟨items, rfl, Bulk.forall₂_of_mapM h⟩
  · cases h

/-- The value that a record with some fields writes under one of their names. -/
def field? (names : List String) (name : String) (w : Written) : Option Written :=
  (w.fields? names).bind fun fields => ((names.zip fields).lookup name).join

end Json.Written

namespace Key

theorem ofWritten?_eq_some {w : Written} {k : Key} :
    ofWritten? w = some k ↔ w = .text (some k.toString) := by
  constructor
  · intro h
    obtain ⟨s, hs, hk⟩ := Option.bind_eq_some_iff.1 h
    rw [toString_of_ofString? hk]
    exact Written.text?_eq_some.1 hs
  · rintro rfl
    exact ofWritten?_toJson k

/-- The characters of a key are 0 and 1. -/
theorem mem_toString {k : Key} {c : Char} (h : c ∈ k.toString.toList) : c = '0' ∨ c = '1' := by
  rw [Key.toString, String.toList_ofList, List.mem_map] at h
  obtain ⟨b, -, rfl⟩ := h
  cases b
  · exact .inl rfl
  · exact .inr rfl

end Key

theorem Operation.ofWritten?_eq_some {w : Written} {o : Operation} :
    ofWritten? w = some o ↔ w = .number (.integer o.code) := by
  constructor
  · intro h
    obtain ⟨n, hn, ho⟩ := Option.bind_eq_some_iff.1 h
    rw [code_of_ofCode? ho]
    unfold Written.natUpTo? at hn
    split at hn
    · split at hn
      · next hrange =>
        obtain rfl := Option.some.inj hn
        rw [Int.toNat_of_nonneg hrange.1]
      · cases hn
    · cases hn
  · rintro rfl
    exact ofWritten?_toJson o

/-! ### What a parcel says of keys and operations -/

namespace Entry

/-- The names of the fields of an entry. -/
def fieldNames : List String :=
  ["id", "key", "type_name", "peer", "payload"]

/-- The key of an entry is the text that is written under its name. -/
theorem key_of_ofWritten? {w : Written} {e : Entry} (h : ofWritten? w = some e) :
    w.field? fieldNames "key" = some (.text (some e.key.toString)) := by
  obtain ⟨fields, hfields, h⟩ := Option.bind_eq_some_iff.1 h
  split at h
  · obtain ⟨id, -, h⟩ := Option.bind_eq_some_iff.1 h
    obtain ⟨key, hkey, h⟩ := Option.bind_eq_some_iff.1 h
    obtain ⟨typeName, -, h⟩ := Option.bind_eq_some_iff.1 h
    obtain ⟨peer, -, h⟩ := Option.bind_eq_some_iff.1 h
    obtain ⟨payload, -, h⟩ := Option.bind_eq_some_iff.1 h
    obtain rfl := Option.some.inj h
    obtain ⟨_, rfl, hkey⟩ := Written.required?_eq_some.1 hkey
    obtain rfl := Key.ofWritten?_eq_some.1 hkey
    rw [Written.field?, fieldNames, hfields]
    rfl
  · cases h

end Entry

namespace Parcel

/-- The names of the fields of a parcel. -/
def fieldNames : MessageKind → List String
  | .entries => ["id", "branch_key", "operation", "entries", "parent_id"]
  | .file => ["id", "branch_key", "operation", "parent_id", "lines"]

theorem headerOf?_eq_some {id branch operation parent : Option Written} {h : Header}
    (hheader : headerOf? id branch operation parent = some h) :
    branch = some (.text (some h.branch.toString)) ∧
      operation = some (.number (.integer h.operation.code)) := by
  obtain ⟨i, -, hheader⟩ := Option.bind_eq_some_iff.1 hheader
  obtain ⟨key, hkey, hheader⟩ := Option.bind_eq_some_iff.1 hheader
  obtain ⟨o, ho, hheader⟩ := Option.bind_eq_some_iff.1 hheader
  obtain ⟨p, -, hheader⟩ := Option.bind_eq_some_iff.1 hheader
  obtain rfl := Option.some.inj hheader
  obtain ⟨_, rfl, hkey⟩ := Written.required?_eq_some.1 hkey
  obtain ⟨_, rfl, ho⟩ := Written.required?_eq_some.1 ho
  exact ⟨congrArg some (Key.ofWritten?_eq_some.1 hkey),
    congrArg some (Operation.ofWritten?_eq_some.1 ho)⟩

/-- What a value says of the keys and the operation of a parcel. -/
structure Says (w : Written) (p : Parcel) : Prop where
  /-- The branch is the text under its name. -/
  branch : w.field? (fieldNames p.content.kind) "branch_key" =
    some (.text (some p.header.branch.toString))
  /-- The operation is the code under its name. -/
  operation : w.field? (fieldNames p.content.kind) "operation" =
    some (.number (.integer p.header.operation.code))
  /-- The keys of the entries are the texts under the names in the items of the batch. -/
  keys : ∀ batch, p.content = .entries batch → ∃ items,
    w.field? (fieldNames .entries) "entries" = some (.array items) ∧
      List.Forall₂ (fun item (e : Entry) => item.field? Entry.fieldNames "key" =
        some (.text (some e.key.toString))) items batch

theorem says_of_ofWritten? {kind : MessageKind} {w : Written} {p : Parcel}
    (h : Parcel.ofWritten? kind w = some p) : p.content.kind = kind ∧ Says w p := by
  cases kind with
  | entries =>
    obtain ⟨fields, hfields, h⟩ := Option.bind_eq_some_iff.1 h
    split at h
    · obtain ⟨header, hheader, h⟩ := Option.bind_eq_some_iff.1 h
      obtain ⟨batch, hbatch, h⟩ := Option.bind_eq_some_iff.1 h
      obtain rfl := Option.some.inj h
      obtain ⟨rfl, rfl⟩ := headerOf?_eq_some hheader
      obtain ⟨_, rfl, hbatch⟩ := Written.required?_eq_some.1 hbatch
      obtain ⟨items, rfl, hitems⟩ := Written.listOf?_eq_some hbatch
      refine ⟨rfl, ?_, ?_, ?_⟩
      · rw [Written.field?, Content.kind, fieldNames, hfields]
        rfl
      · rw [Written.field?, Content.kind, fieldNames, hfields]
        rfl
      · intro batch' hcontent
        obtain rfl := Content.entries.inj hcontent
        refine ⟨items, ?_, hitems.imp fun _ _ => Entry.key_of_ofWritten?⟩
        rw [Written.field?, fieldNames, hfields]
        rfl
    · cases h
  | file =>
    obtain ⟨fields, hfields, h⟩ := Option.bind_eq_some_iff.1 h
    split at h
    · obtain ⟨header, hheader, h⟩ := Option.bind_eq_some_iff.1 h
      obtain ⟨lines, -, h⟩ := Option.bind_eq_some_iff.1 h
      obtain rfl := Option.some.inj h
      obtain ⟨rfl, rfl⟩ := headerOf?_eq_some hheader
      refine ⟨rfl, ?_, ?_, fun _ hbatch => by cases hbatch⟩
      · rw [Written.field?, Content.kind, fieldNames, hfields]
        rfl
      · rw [Written.field?, Content.kind, fieldNames, hfields]
        rfl
    · cases h

end Parcel

/-! ### From one peer to another -/

namespace Envelope

/-- The envelope that a text writes. -/
def ofText? (text : String) : Option Envelope :=
  Written.parse? text >>= Envelope.ofWritten?

/-- An envelope that carries a parcel from a sender over the wire. -/
structure Arrives (e : Envelope) (strategy : Strategy) (sender : PeerId) (p : Parcel) :
    Prop where
  /-- What is read from the text of the envelope is the envelope. -/
  read : ofText? e.toJson.render = some e
  sender : e.sender = sender
  viaReplica : e.viaReplica = true ↔ strategy = .replicas
  /-- The parcel is found in it. -/
  opened : e.unwrap = .ok p
  /-- Under any other number it is read as well, but no parcel is found in it. -/
  relabelled : ∀ code ≠ p.content.kind.code,
    (code < UInt16.size →
      ofText? ({ e with kindCode := code } : Envelope).toJson.render =
        some { e with kindCode := code }) ∧
    ({ e with kindCode := code } : Envelope).unwrap =
      .error (if (MessageKind.ofCode? code).isSome then .malformedBody else .unknownKind code)

theorem ofText?_render {e : Envelope} (hcode : e.kindCode < UInt16.size)
    (hbody : Json.Kept (Written.depthLimit - 1) e.body) : ofText? e.toJson.render = some e := by
  rw [ofText?, Written.parse?_render]
  exact ofWritten?_toJson hcode hbody

theorem wrap_arrives (strategy : Strategy) (sender : PeerId) (p : Parcel) :
    (wrap strategy sender p).Arrives strategy sender p where
  read := by
    rw [ofText?, Written.parse?_render]
    exact ofWritten?_wrap strategy sender p
  sender := rfl
  viaReplica := by cases strategy <;> simp [wrap, viaReplica]
  opened := unwrap_wrap strategy sender p
  relabelled code hcode := by
    refine ⟨fun hsize => ofText?_render hsize (p.kept_toJson (by decide)), ?_⟩
    exact unwrap_of_ne rfl hcode

/-- What is found in an envelope is written in its body. -/
theorem says_of_unwrap {e : Envelope} {p : Parcel} (h : e.unwrap = .ok p) :
    MessageKind.ofCode? e.kindCode = some p.content.kind ∧ Parcel.Says e.body.toWritten p := by
  unfold unwrap at h
  split at h
  · cases h
  · next kind hkind =>
    split at h
    · next p' hp =>
      obtain rfl := Except.ok.inj h
      obtain ⟨rfl, hsays⟩ := Parcel.says_of_ofWritten? hp
      exact ⟨hkind, hsays⟩
    · cases h

/-- **Messages survive the wire, and none is taken for another kind.** The envelope of a message
with a batch of entries, or with a file that is a text or is missing, is read from its own text and
gives the sender, the strategy, the header and the entries, or the lines of the file that are not
blank; under another number for its kind it gives nothing.  What a text gives, wherever it comes
from, says of keys and operations what is written in it, and it only has keys over 0 and 1 and one
of the three operations. -/
theorem survives_wire :
    (∀ (strategy : Strategy) (sender : PeerId) (header : Header) (batch : List Entry) (v : Volume),
      ∃ e, (ofMessage strategy sender ⟨header, .entries batch⟩).run.run v = (.ok e, v) ∧
        e.Arrives strategy sender ⟨header, .entries batch⟩) ∧
    (∀ (strategy : Strategy) (sender : PeerId) (header : Header) (path : Path) (v : Volume),
      v.schedule = [] →
      (∀ text, v.HasFile path (Utf8.encode text) →
        ∃ e, (ofMessage strategy sender ⟨header, .file path⟩).run.run v = (.ok e, v) ∧
          e.Arrives strategy sender
            ⟨header, .lines ((Bulk.linesOfText text).filter fun l => !Text.isBlankText l)⟩) ∧
      (v.content path = .error .notFound →
        ∃ e, (ofMessage strategy sender ⟨header, .file path⟩).run.run v = (.ok e, v) ∧
          e.Arrives strategy sender ⟨header, .lines []⟩)) ∧
    (∀ (text : String) (e : Envelope) (p : Parcel), ofText? text = some e → e.unwrap = .ok p →
      MessageKind.ofCode? e.kindCode = some p.content.kind ∧
      Parcel.Says e.body.toWritten p ∧ p.header.operation ∈ Operation.all ∧
      (∀ c ∈ p.header.branch.toString.toList, c = '0' ∨ c = '1') ∧
      ∀ batch, p.content = .entries batch →
        ∀ entry ∈ batch, ∀ c ∈ entry.key.toString.toList, c = '0' ∨ c = '1') := by
  refine ⟨fun strategy sender header batch v => ?_, fun strategy sender header path v hs => ?_,
    fun text e p _ hp => ?_⟩
  · exact ⟨_, rfl, wrap_arrives strategy sender ⟨header, .entries batch⟩⟩
  · constructor
    · intro text htext
      exact ⟨_, run_ofMessage_lines (Bulk.run_readLines_text hs htext) strategy sender header,
        wrap_arrives ..⟩
    · intro hmissing
      exact ⟨_, run_ofMessage_lines (Bulk.run_readLines_missing hs hmissing) strategy sender header,
        wrap_arrives ..⟩
  · obtain ⟨hkind, hsays⟩ := says_of_unwrap hp
    exact ⟨hkind, hsays, Operation.mem_all _, fun _ => Key.mem_toString,
      fun _ _ _ _ _ => Key.mem_toString⟩

/-- A file with a blank line and two kinds of line ends, and one that is not there. -/
theorem survives_wire_of_files :
    let header : Header := ⟨⟨"m"⟩, ⟨[true]⟩, .update, ⟨"r"⟩⟩
    let sender : PeerId := ⟨"\"né\"\n"⟩
    let path := Path.root.child "list.csv"
    let v := Volume.empty.putFile path (Utf8.encode "one\r\n \n two\r")
    (∃ e, (ofMessage .replicas sender ⟨header, .file path⟩).run.run v = (.ok e, v) ∧
      e.Arrives .replicas sender ⟨header, .lines ["one", " two\r"]⟩) ∧
    ∃ e, (ofMessage .greedy sender ⟨header, .file path⟩).run.run Volume.empty =
        (.ok e, Volume.empty) ∧
      e.Arrives .greedy sender ⟨header, .lines []⟩ := by
  intro header sender path v
  constructor
  · have hfile : v.HasFile path (Utf8.encode "one\r\n \n two\r") :=
      Volume.hasFile_putFile (by decide) (by decide) (by decide) _
    have hlines : (Bulk.linesOfText "one\r\n \n two\r").filter (fun l => !Text.isBlankText l) =
        ["one", " two\r"] := by decide
    rw [← hlines]
    exact (survives_wire.2.1 .replicas sender header path v rfl).1 _ hfile
  · exact (survives_wire.2.1 .greedy sender header path Volume.empty rfl).2 (by decide)

end Envelope

end TrieOverlay
