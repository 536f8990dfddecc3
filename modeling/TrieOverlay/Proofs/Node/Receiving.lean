import TrieOverlay.Proofs.Node.HandingOff
import TrieOverlay.Proofs.Node.Transfer

/-!
# A message is received as a whole or not at all

A message that is received becomes one request at the end of its queue (`Node.receive`).  If it has
lines, these go to a new scratch file first, and any call on the way may fail.

* `ScratchFile.adds_ofLines`: the lines are in a new file, or no file was made.
* `ScratchFile.exists_ofLines`: they are, if nothing is in the way.

Lines are written without the blanks at their ends, so the file has them as they came exactly if
there are none (`Bulk.bytesOfLines_map_trimEnd_eq_iff`).
-/

namespace TrieOverlay

/-! ### Lines without the blanks at their ends -/

namespace Bulk

theorem prefix_encode_trimEnd (l : String) : Utf8.encode (Text.trimEnd l) <+: Utf8.encode l := by
  obtain ⟨blanks, hblanks⟩ : (Text.trimEnd l).toList <+: l.toList := by
    rw [Line.trimEnd_toList]
    exact List.rdropWhile_prefix ..
  rw [Utf8.encode_eq_flatMap, Utf8.encode_eq_flatMap, ← hblanks, List.flatMap_append]
  exact List.prefix_append ..

/-- A line is as long without the blanks at its end only if there are none. -/
theorem trimEnd_eq_of_length (l : String)
    (h : (Utf8.encode (Text.trimEnd l)).length = (Utf8.encode l).length) : Text.trimEnd l = l := by
  have hsame := (prefix_encode_trimEnd l).eq_of_length h
  have hread := congrArg Utf8.decode? hsame
  rw [Utf8.decode?_encode, Utf8.decode?_encode] at hread
  exact Option.some.inj hread

theorem length_bytesOfLines_map_trimEnd (lines : List String) :
    (bytesOfLines (lines.map Text.trimEnd)).length ≤ (bytesOfLines lines).length ∧
      ((bytesOfLines (lines.map Text.trimEnd)).length = (bytesOfLines lines).length →
        ∀ l ∈ lines, Text.trimEnd l = l) := by
  induction lines with
  | nil => simp
  | cons l ls ih =>
    obtain ⟨hle, hsame⟩ := ih
    have hl := (prefix_encode_trimEnd l).length_le
    simp only [bytesOfLines, List.map_cons, List.flatMap_cons, List.length_append] at hle hsame ⊢
    refine ⟨by omega, fun heq => List.forall_mem_cons.2 ⟨trimEnd_eq_of_length l ?_, hsame ?_⟩⟩
    · omega
    · omega

/-- Lines can be told from what is written of them exactly by the blanks at their ends. -/
theorem bytesOfLines_map_trimEnd_eq_iff (lines : List String) :
    bytesOfLines (lines.map Text.trimEnd) = bytesOfLines lines ↔
      ∀ l ∈ lines, Text.trimEnd l = l := by
  constructor
  · exact fun h => (length_bytesOfLines_map_trimEnd lines).2 (congrArg List.length h)
  · intro h
    rw [List.map_congr_left h, List.map_id']

end Bulk

/-! ### The file -/

section File

variable {v : Volume} {dir : Path} {first : Nat} {base : Path → Option Bytes}
  {held : List ScratchFile}

/-- The lines are in a new file, or no file was made. -/
theorem ScratchFile.adds_ofLines (h : v.Adds dir first base held) (lines : List String) :
    (ofLines dir lines).Ends v
      (fun f v' => v'.Adds dir first base (f :: held) ∧
        v'.bytes? f.path = some (Bulk.bytesOfLines (lines.map Text.trimEnd)))
      fun _ v' => v'.Adds dir first base held := by
  refine (ends_createIn h.tree dir).bind_imp (fun _ _ hw => h.untouched hw) ?_
  rintro f v₁ ⟨k, hk, hk', hpath, hw, hb⟩
  have h₁ := h.cons hk hk' hpath hw
  have hmem : f ∈ f :: held := List.mem_cons_self ..
  refine ends_orRelease ?_ fun _ _ h₂ => adds_release h₂
  refine (Bulk.ends_appendLines h₁.tree f.path lines).bind_imp
    (fun _ _ h₂ => h₁.write hmem h₂.1) fun _ v₂ ⟨hw₂, hb₂⟩ => ?_
  rw [hb, Option.getD_some, List.nil_append] at hb₂
  exact TryDisk.ends_pure ⟨h₁.write hmem hw₂, hb₂⟩

end File

/-- Whatever lines there are, they can be written if nothing is in the way. -/
theorem ScratchFile.exists_ofLines {v : Volume} {dir : Path} (hv : v.Ready dir)
    (lines : List String) : ∃ f v', (ofLines dir lines).run.run v = (.ok f, v') := by
  obtain ⟨es, hes⟩ := Bulk.exists_entriesOf_bytesOfLines (lines.map Text.trimEnd)
  obtain ⟨f, v', hrun, -⟩ := run_ofLines hv hes
  exact ⟨f, v', hrun⟩

/-! ### The message -/

namespace Node

variable {n : Node}

/-- **A message is received as a whole or not at all.**  Whatever calls fail:

* an envelope without a message is refused, and nothing changes;
* a message with entries is accepted, and one request with these entries goes to the end of its
  queue, with what the header says and whether a replica sent it; nothing else changes;
* a message with lines is refused if they cannot be written, and then all files, the requests and
  the holdings are as before.  If they can, which they can if nothing is in the way, it is accepted,
  and one request with a new scratch file goes to the end of its queue; no other file and nothing
  else changes.  The file has the lines without the blanks at their ends, so it has them as they
  came if and only if no line ends with a blank.
-/
theorem receive_all_or_nothing (ht : n.volume.IsTree)
    (hfree : ∀ k, n.volume.serial ≤ k →
      n.volume.bytes? (n.holdings.scratch.child (ScratchFile.nameOf k)) = none)
    (e : Envelope) :
    let q := n.queues
    let request (h : Header) (payload : Payload) : Request :=
      ⟨.ofSerial n.serial, h.operation, payload,
        .peer h.id h.parent (e.strategy == .replicas)⟩
    (∀ err, e.unwrap = .error err → n.receive e = ((.badRequest, ⟨false⟩), n)) ∧
    (∀ h batch, e.unwrap = .ok ⟨h, .entries batch⟩ →
      n.receive e = ((.ok, ⟨true⟩), { n with
        serial := n.serial + 1
        queues := { q with remoteEntries := q.remoteEntries ++ [request h (.entries batch)] } })) ∧
    (∀ h lines, e.unwrap = .ok ⟨h, .lines lines⟩ →
      let writing := (ScratchFile.ofLines n.holdings.scratch lines).run.run n.volume
      (∀ err v, writing = (.error err, v) →
        n.receive e = ((.internalError, ⟨false⟩), { n with volume := v }) ∧
        v.bytes? = n.volume.bytes?) ∧
      (∀ f v, writing = (.ok f, v) →
        n.receive e = ((.ok, ⟨true⟩), { n with
          serial := n.serial + 1
          volume := v
          queues := { q with remoteFiles := q.remoteFiles ++ [request h (.file f)] } }) ∧
        f.path.isChildOf n.holdings.scratch = true ∧ n.volume.bytes? f.path = none ∧
        (∀ p ≠ f.path, v.bytes? p = n.volume.bytes? p) ∧
        v.bytes? f.path = some (Bulk.bytesOfLines (lines.map Text.trimEnd)) ∧
        (v.bytes? f.path = some (Bulk.bytesOfLines lines) ↔
          ∀ l ∈ lines, Text.trimEnd l = l)) ∧
      (n.volume.Ready n.holdings.scratch → ∃ f v, writing = (.ok f, v))) := by
  intro q request
  refine ⟨fun err h => ?_, fun h batch hunwrap => ?_, fun h lines hunwrap => ?_⟩
  · rw [receive, h]
  · rw [receive, hunwrap]
    rfl
  · have hends := ScratchFile.adds_ofLines (.start ht hfree) lines
    refine ⟨fun err v hrun => ?_, fun f v hrun => ?_,
      fun hready => ScratchFile.exists_ofLines hready lines⟩
    · have hadds : v.Adds n.holdings.scratch n.volume.serial n.volume.bytes? [] :=
        Disk.Ends.of_run hends hrun
      refine ⟨?_, funext fun p => hadds.others p (by simp)⟩
      simp only [receive, hunwrap, payloadOfContent, tryOnDisk, onDisk, hrun]
      rfl
    · obtain ⟨hadds, hbytes⟩ := hends.of_ok hrun
      obtain ⟨k, hk, -, hpath⟩ := hadds.named f (List.mem_singleton_self f)
      refine ⟨?_, hpath ▸ Path.isChildOf_child .., hpath ▸ hfree k hk,
        fun p hp => hadds.others p (by simpa using hp.symm), hbytes, ?_⟩
      · simp only [receive, hunwrap, payloadOfContent, tryOnDisk, onDisk, hrun]
        rfl
      · rw [hbytes, Option.some.injEq]
        exact Bulk.bytesOfLines_map_trimEnd_eq_iff lines

/-- A new node receives two lines from a replica, one of them with a blank at its end. -/
theorem receive_all_or_nothing_of_blank :
    let header : Header := ⟨⟨"message"⟩, .root, .insert, ⟨"parent"⟩⟩
    let e := Envelope.wrap .replicas ⟨"sender"⟩ ⟨header, .lines ["a ", "b"]⟩
    ∃ (n n' : Node) (f : ScratchFile),
      openAt (Sample.peer .root) (.ofBits 8) 0 .root Volume.empty = .ok n ∧
      n.receive e = ((.ok, ⟨true⟩), n') ∧
      n'.queues.remoteFiles =
        [⟨.ofSerial n.serial, .insert, .file f, .peer ⟨"message"⟩ ⟨"parent"⟩ true⟩] ∧
      n'.volume.bytes? f.path = some (Bulk.bytesOfLines ["a", "b"]) ∧
      n'.volume.bytes? f.path ≠ some (Bulk.bytesOfLines ["a ", "b"]) := by
  intro header e
  obtain ⟨n, hopen, hn, -⟩ := openAt_sound rfl Volume.vacant_empty (Sample.peer .root) (.ofBits 8) 0
  obtain ⟨n', hopen', hqueues⟩ :
      ∃ n, openAt (Sample.peer .root) (.ofBits 8) 0 .root Volume.empty = .ok n ∧
        n.queues = .empty := ⟨_, rfl, rfl⟩
  obtain rfl := Except.ok.inj (hopen.symm.trans hopen')
  have htidy := openAt_tidy Volume.isTree_empty (fun _ => rfl) hopen
  obtain ⟨-, -, hlines⟩ := receive_all_or_nothing htidy.shelf.tree htidy.free e
  obtain ⟨-, htaken, hwritten⟩ := hlines header ["a ", "b"] (Envelope.unwrap_wrap ..)
  obtain ⟨f, v, hrun⟩ := hwritten hn.inventory.ready
  obtain ⟨hreceive, -, -, -, hbytes, hiff⟩ := htaken f v hrun
  refine ⟨n, _, f, hopen, hreceive, ?_, hbytes, fun hsame => ?_⟩
  · rw [hqueues]
    rfl
  · exact absurd (hiff.1 hsame "a " (List.mem_cons_self ..)) (by decide)

end Node

end TrieOverlay
