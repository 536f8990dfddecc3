import TrieOverlay.Proofs.Envelope
import TrieOverlay.Proofs.Node.Chores
import TrieOverlay.Proofs.Node.Inputs

/-!
# What a message brings to another node

A message is put into an envelope with the entries of its payload as they arrive: those of a file
are sent as lines and trimmed on the way (`Node.Sound.run_ofMessage`).  The node that gets the
envelope has a request with these entries (`Node.Sound.receive_parcel`), so with the same entries up
to the identifiers of their peers (`Node.Sound.receive`).
-/

namespace TrieOverlay

/-- Whether one of some entries has an identifier and a key, and can be written. -/
def Bears (es : List Entry) (id : EntryId) (key : Key) : Prop :=
  ∃ e ∈ es, e.id = id ∧ e.key = key ∧ Bulk.Line.isEncodable e = true

instance (es : List Entry) (id : EntryId) (key : Key) : Decidable (Bears es id key) :=
  inferInstanceAs (Decidable (∃ e ∈ es, _))

theorem not_bears_nil {id : EntryId} {key : Key} : ¬Bears [] id key := by
  rintro ⟨e, he, -⟩
  exact absurd he List.not_mem_nil

theorem Bears.mono {es es' : List Entry} {id : EntryId} {key : Key} (h : Bears es id key)
    (hs : es ⊆ es') : Bears es' id key := by
  obtain ⟨e, he, hrest⟩ := h
  exact ⟨e, hs he, hrest⟩

theorem Bears.filter_isEncodable {es : List Entry} {id : EntryId} {key : Key}
    (h : Bears es id key) : Bears (es.filter fun e => Bulk.Line.isEncodable e) id key := by
  obtain ⟨e, he, hid, hkey, hencodable⟩ := h
  exact ⟨e, List.mem_filter.2 ⟨he, hencodable⟩, hid, hkey, hencodable⟩

/-- What a message is posted as. -/
def Target.strategy : Target → Strategy
  | .toward _ => .greedy
  | .replicas => .replicas

namespace Content

/-- The entries that a content brings. -/
def arriving : Content → List Entry
  | .entries batch => batch
  | .lines ls => Bulk.entriesOfSent ls

/-- Whether every line of a content is one line. -/
def IsPlain : Content → Prop
  | .entries _ => True
  | .lines ls => ∀ l ∈ ls, '\n' ∉ l.toList

end Content

/-- The entries of a batch as they arrive: those of a file are sent as lines. -/
def Batch.arriving (b : Batch) : List Entry :=
  if b.inFile then b.entries.map Bulk.Line.trimmed else b.entries

theorem Bears.arriving {b : Batch} {id : EntryId} {key : Key} (h : Bears b.entries id key) :
    Bears b.arriving id key := by
  obtain ⟨e, he, hid, hkey, hencodable⟩ := h
  rw [Batch.arriving]
  split
  · exact ⟨Bulk.Line.trimmed e, List.mem_map_of_mem he, hid, hkey,
      Bulk.Line.isEncodable_trimmed hencodable⟩
  · exact ⟨e, he, hid, hkey, hencodable⟩

namespace Node

variable {n : Node} {hands : List Payload}

/-- The envelope of a message has the entries of its payload as they arrive. -/
theorem Sound.run_ofMessage (h : n.Sound hands) {m : Message}
    (hm : n.volume.CanRead m.cargo.payload) (strategy : Strategy) (sender : PeerId) :
    ∃ content : Content, n.tryOnDisk (Envelope.ofMessage strategy sender m) =
        (.ok (.wrap strategy sender ⟨m.header, content⟩), n) ∧ content.IsPlain ∧
      content.arriving = (n.batch m.cargo.payload).arriving := by
  obtain ⟨header, cargo⟩ := m
  cases cargo with
  | entries batch => exact ⟨.entries batch, rfl, trivial, rfl⟩
  | file p =>
    obtain ⟨lines, hrun, hes, hplain⟩ :=
      Envelope.run_ofMessage_file h.inventory.ready.schedule hm.hasEntries strategy sender header
    refine ⟨.lines lines, tryOnDisk_ok hrun, hplain, ?_⟩
    rw [Content.arriving, Bulk.entriesOfSent_eq, hes]
    rfl

/-- The content of a parcel comes to hand, whatever it is. -/
theorem Sound.payloadOfContent (h : n.Sound hands) (content : Content) :
    ∃ x n', n.payloadOfContent content = (.ok x, n') ∧ n.Yields hands (x :: hands) n.view n' ∧
      (content.IsPlain → n'.entriesIn x = content.arriving ∧ (n'.batch x).arriving =
        content.arriving) := by
  cases content with
  | entries batch =>
    exact ⟨.entries batch, n, rfl, ⟨h.entries_cons _, rfl, fun _ _ => rfl, Nat.le_refl _⟩,
      fun _ => ⟨rfl, rfl⟩⟩
  | lines lines =>
    obtain ⟨es, hes⟩ := Bulk.exists_entriesOf_bytesOfLines (lines.map Text.trimEnd)
    obtain ⟨f, v, hrun, hl, hfree, hf⟩ := ScratchFile.run_ofLines h.inventory.ready hes
    obtain ⟨hy, hentries⟩ := h.newFile hl hfree hf
    refine ⟨.file f, { n with volume := v }, ?_, hy, fun hplain => ?_⟩
    · simp only [Node.payloadOfContent, tryOnDisk_ok hrun, Except.map]
    · have harriving : es = Bulk.entriesOfSent lines :=
        Option.some.inj (hes.symm.trans (Bulk.entriesOf_bytesOfLines_trimEnd hplain))
      have hsent : ({ n with volume := v } : Node).entriesIn (.file f) =
          Bulk.entriesOfSent lines := hentries.trans harriving
      refine ⟨hsent, ?_⟩
      -- the lines were trimmed when they were written
      rw [batch, hsent]
      exact Bulk.map_trimmed_entriesOfSent lines

/-- A node that gets an envelope has one more request, unless there is no message in the
envelope. -/
theorem Sound.receive_parcel (h : n.Sound hands) {e : Envelope} {parcel : Parcel}
    (he : e.unwrap = .ok parcel) :
    ∃ b : Batch, ∃ n', n.receive e = ((.ok, ⟨true⟩), n') ∧
      n.Yields hands hands (n.view.queue ⟨parcel.header.operation,
        .peer parcel.header.id parcel.header.parent e.viaReplica, b.entries, b.inFile⟩) n' ∧
      (parcel.content.IsPlain → b.entries = parcel.content.arriving ∧
        b.arriving = parcel.content.arriving) := by
  obtain ⟨x, n₁, hrun, hy, hplain⟩ := h.payloadOfContent parcel.content
  refine ⟨n₁.batch x, _, ?_, hy.submitFrom rfl parcel.header.operation parcel.header.id
    parcel.header.parent e.viaReplica, hplain⟩
  simp only [Node.receive, he, hrun]

theorem receive_of_unwrap_error {e : Envelope} {error : EnvelopeError}
    (he : e.unwrap = .error error) : n.receive e = ((.badRequest, ⟨false⟩), n) := by
  simp only [receive, he]

/-- A node that gets an envelope of a parcel has one more request. -/
theorem Sound.receive (h : n.Sound hands) (strategy : Strategy) (sender : PeerId) (header : Header)
    {content : Content} (hc : content.IsPlain) :
    ∃ inFile n', n.receive (.wrap strategy sender ⟨header, content⟩) = ((.ok, ⟨true⟩), n') ∧
      n.Yields hands hands (n.view.queue ⟨header.operation,
        .peer header.id header.parent (strategy == .replicas), content.arriving, inFile⟩) n' := by
  obtain ⟨b, n', hrun, hy, hplain⟩ := h.receive_parcel (Envelope.unwrap_wrap strategy sender _)
  refine ⟨b.inFile, n', hrun, ?_⟩
  rw [(hplain hc).1] at hy
  exact hy

end Node

end TrieOverlay
