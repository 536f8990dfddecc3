import TrieOverlay.Proofs.Bulk.File

/-!
# What is appended to a bulk file is read back

Whether an entry can be written depends on three of its fields only; its type and its payload may be
any text.  Where no call is refused, reading a file after entries were appended to it gives what it
gave before and then the entries that can be written (`Bulk.append_read_back`), whatever stands in
the file: lines that write no entry, blank lines, line ends of both kinds.
-/

namespace TrieOverlay.Bulk

open Volume (HasFile)

variable {v v' : Volume} {p : Path} {bytes : Bytes} {old : List Entry}

/-! ### Entries that can be written -/

theorem isField_iff (s : String) :
    Line.IsField s ↔ ',' ∉ s.toList ∧ '\n' ∉ s.toList ∧ '\r' ∉ s.toList := by
  have hsep (c : Char) : Line.isSeparator c = false ↔ c ≠ ',' ∧ c ≠ '\n' ∧ c ≠ '\r' := by
    simp [Line.isSeparator, and_assoc]
  constructor
  · intro h
    refine ⟨fun hc => ?_, fun hc => ?_, fun hc => ?_⟩
    · exact ((hsep _).1 (h _ hc)).1 rfl
    · exact ((hsep _).1 (h _ hc)).2.1 rfl
    · exact ((hsep _).1 (h _ hc)).2.2 rfl
  · rintro ⟨hcomma, hfeed, hreturn⟩ c hc
    refine (hsep c).2 ⟨?_, ?_, ?_⟩
    · rintro rfl
      exact hcomma hc
    · rintro rfl
      exact hfeed hc
    · rintro rfl
      exact hreturn hc

theorem isSome_encode?_eq (e : Entry) : (Line.encode? e).isSome = Line.isEncodable e := by
  rw [Line.encode?]
  split <;> simp [*]

/-- An entry has a line exactly if no field that is written as it is holds a separator. -/
theorem isSome_encode?_iff (e : Entry) :
    (Line.encode? e).isSome = true ↔ ∀ s ∈ [e.id.text, e.peer.address, e.peer.id.text],
      ',' ∉ s.toList ∧ '\n' ∉ s.toList ∧ '\r' ∉ s.toList := by
  rw [isSome_encode?_eq, Line.isEncodable_iff, isField_iff, isField_iff, isField_iff]
  simp only [List.forall_mem_cons, List.not_mem_nil, false_implies, implies_true, and_true]

/-! ### Appending and reading -/

/-- What appending leaves behind, and the number it answers. -/
theorem run_append_counted (hs : v.schedule = []) (hf : v.HasFile p bytes) (es : List Entry) :
    ∃ v', (append p es).run.run v =
        (.ok (es.filter fun e => (Line.encode? e).isSome).length, v') ∧
      v'.schedule = [] ∧ v'.HasFile p (bytes ++ writeEntries es) := by
  obtain ⟨v', hwrite, hs', hf'⟩ : ∃ v',
      (writeLines p (es.filterMap Line.encode?)).run.run v = (.ok (), v') ∧
        v'.schedule = [] ∧ v'.HasFile p (bytes ++ writeEntries es) := by
    refine ⟨_, run_writeLines_eq hs hf _, ?_⟩
    split
    · rename_i hnil
      rw [writeEntries, hnil, bytesOfLines, List.flatMap_nil, List.append_nil]
      exact ⟨hs, hf⟩
    · exact ⟨hs, hf.putFile _⟩
  refine ⟨v', ?_, hs', hf'⟩
  rw [append, TryDisk.run_bind_ok hwrite, ← List.countP_eq_length_filter,
    ← List.length_filterMap_eq_countP]
  rfl

/-- **Writing and reading entries are inverse.**  An entry has a line exactly if its identifier and
the address and identifier of its peer hold no comma and no line end, and the line is read back as
the entry.  Reading a file of text whose last line is ended gives, after entries were appended to
it, the entries it gave before and then those that have a line, which are as many as were counted. -/
theorem append_read_back :
    (∀ e : Entry, (Line.encode? e).isSome = true ↔
      ∀ s ∈ [e.id.text, e.peer.address, e.peer.id.text],
        ',' ∉ s.toList ∧ '\n' ∉ s.toList ∧ '\r' ∉ s.toList) ∧
    (∀ e line, Line.encode? e = some line → Line.decode? line = some e) ∧
    (∀ (v : Volume) p bytes text es, v.schedule = [] → v.HasFile p bytes →
      Utf8.decode? bytes = some text → Terminated bytes →
      ∃ old v', (readEntries p).run.run v = (.ok old, v) ∧
        (append p es).run.run v =
          (.ok (es.filter fun e => (Line.encode? e).isSome).length, v') ∧
        (readEntries p).run.run v' =
          (.ok (old ++ es.filter fun e => (Line.encode? e).isSome), v')) := by
  refine ⟨isSome_encode?_iff, fun _ _ h => Line.decode?_encode? h, ?_⟩
  intro v p bytes text es hs hf htext hbytes
  obtain ⟨old, hold⟩ := exists_entriesOf htext
  obtain ⟨v', happend, hs', hf'⟩ := run_append_counted hs hf es
  refine ⟨old, v', run_readEntries hs ⟨bytes, hf, hold⟩, happend, ?_⟩
  simp only [isSome_encode?_eq]
  exact run_readEntries hs' ⟨_, hf', entriesOf_append_writeEntries hbytes hold es⟩

/-- An entry with odd texts is appended twice to a file that has none, and one in between that
cannot be written. -/
theorem append_read_back_of_odd_texts :
    let p := Path.root.child "list.csv"
    let text := "no entry\r\n\n"
    let v := Volume.empty.putFile p (Utf8.encode text)
    let odd : Entry := ⟨⟨"a"⟩, .root, "t:y,p\ne", ⟨⟨"peer "⟩, "localhost:1"⟩, ""⟩
    let bad : Entry := ⟨⟨"a,b"⟩, .root, "type", ⟨⟨"peer"⟩, "localhost:1"⟩, "x"⟩
    (∃ line, Line.encode? odd = some line ∧ Line.decode? line = some odd) ∧
    ∃ old v', (readEntries p).run.run v = (.ok old, v) ∧
      (append p [odd, bad, odd]).run.run v = (.ok 2, v') ∧
      (readEntries p).run.run v' = (.ok (old ++ [odd, odd]), v') := by
  intro p text v odd bad
  obtain ⟨-, hlines, hfiles⟩ := append_read_back
  have hfile : v.HasFile p (Utf8.encode text) :=
    Volume.hasFile_putFile (by decide) (by decide) (by decide) _
  have hended : Terminated (Utf8.encode text) := Or.inr ⟨(Utf8.encode text).dropLast, by decide⟩
  have hfilter : [odd, bad, odd].filter (fun e => (Line.encode? e).isSome) = [odd, odd] := by
    decide
  have hodd : (Line.encode? odd).isSome = true := by decide
  obtain ⟨line, hline⟩ := Option.isSome_iff_exists.1 hodd
  obtain ⟨old, v', hold, happend, hread⟩ :=
    hfiles v p _ text [odd, bad, odd] rfl hfile (Utf8.decode?_encode text) hended
  rw [hfilter] at happend hread
  exact ⟨⟨line, hline, hlines odd line hline⟩, old, v', hold, happend, hread⟩

end TrieOverlay.Bulk
