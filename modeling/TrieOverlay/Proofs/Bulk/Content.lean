import TrieOverlay.Bulk.File
import TrieOverlay.Proofs.Bulk.Line
import TrieOverlay.Proofs.Text.Utf8

/-!
# What the bytes of a bulk file hold

`Bulk.entriesOf` is what reading a bulk file comes to, as a function of its bytes.  When the bytes
are empty or end with a line feed, appending to them appends to the entries
(`Bulk.entriesOf_append`), and appended entries are read back (`Bulk.entriesOf_writeEntries`).
The lines that one node sends to another hold the same entries, trimmed (`Bulk.entriesOfSent_eq`),
and whatever lines arrive can be written and read (`Bulk.exists_entriesOf_bytesOfLines`).  The lines
of a file that is a text are those of the text (`Bulk.linesOf_encode`).
-/

namespace TrieOverlay.Bulk

/-- The entries of a file, if all its lines are UTF-8. -/
def entriesOf (bytes : Bytes) : Option (List Entry) :=
  (linesOf bytes).map (·.filterMap Line.decode?)

/-- Whether the last line of a file is ended, so that what is appended starts a line. -/
def Terminated (bytes : Bytes) : Prop :=
  bytes = [] ∨ ∃ init, bytes = init ++ [lineFeed]

/-! ### Lines of bytes -/

theorem terminated_nil : Terminated [] :=
  Or.inl rfl

theorem Terminated.append {b c : Bytes} (hb : Terminated b) (hc : Terminated c) :
    Terminated (b ++ c) := by
  rcases hc with rfl | ⟨init, rfl⟩
  · rwa [List.append_nil]
  · exact Or.inr ⟨b ++ init, (List.append_assoc _ _ _).symm⟩

theorem terminated_bytesOfLines (lines : List String) : Terminated (bytesOfLines lines) := by
  induction lines with
  | nil => exact terminated_nil
  | cons l ls ih =>
    rw [bytesOfLines, List.flatMap_cons]
    exact Terminated.append (Or.inr ⟨_, rfl⟩) ih

theorem splitLines_append {b : Bytes} (hb : Terminated b) (c : Bytes) :
    splitLines (b ++ c) = splitLines b ++ splitLines c := by
  rcases hb with rfl | ⟨init, rfl⟩
  · simp [splitLines]
  · have hsplit : (init ++ [lineFeed]).splitOn lineFeed = init.splitOn lineFeed ++ [[]] := by
      rw [List.splitOn_append_cons_self, List.splitOn_nil]
    have hne := List.splitOn_ne_nil lineFeed c
    rw [List.append_assoc, List.singleton_append]
    simp only [splitLines, List.splitOn_append_cons_self, hsplit]
    rw [List.dropLast_append_of_ne_nil hne, List.dropLast_concat, List.map_append]
    simp [List.getLastD_eq_getLast?, List.getLast?_append_of_ne_nil _ hne, List.append_assoc]

theorem splitLines_line {line : Bytes} (h : lineFeed ∉ line) :
    splitLines (line ++ [lineFeed]) = [dropCarriageReturn line] := by
  simp [splitLines, List.splitOn_append_cons_self, List.splitOn_eq_singleton h, List.splitOn_nil]

theorem linesOf_nil : linesOf [] = some [] := by
  simp [linesOf, splitLines, List.splitOn_nil]

theorem linesOf_append {b : Bytes} (hb : Terminated b) (c : Bytes) :
    linesOf (b ++ c) = (linesOf b).bind fun ls => (linesOf c).map (ls ++ ·) := by
  simp only [linesOf, splitLines_append hb, List.mapM_append]
  cases (splitLines b).mapM Utf8.decode? with
  | none => rfl
  | some ls =>
    cases (splitLines c).mapM Utf8.decode? with
    | none => rfl
    | some ks => simp

theorem entriesOf_append {b : Bytes} (hb : Terminated b) (c : Bytes) :
    entriesOf (b ++ c) = (entriesOf b).bind fun es => (entriesOf c).map (es ++ ·) := by
  simp only [entriesOf, linesOf_append hb]
  cases linesOf b with
  | none => rfl
  | some ls =>
    cases linesOf c with
    | none => rfl
    | some ks => simp

/-! ### Lines of text -/

/-- Whether a text can be a line of a file as it is. -/
def IsLine (l : String) : Prop :=
  '\n' ∉ l.toList ∧ l.toList.getLast? ≠ some '\r'

theorem linesOf_line {l : String} (h : IsLine l) :
    linesOf (Utf8.encode l ++ [lineFeed]) =
      some (if Text.isBlankText l then [] else [l]) := by
  have hfeed : lineFeed ∉ Utf8.encode l := fun hc =>
    h.1 ((Utf8.mem_encode_iff (by decide) (by decide)).1 hc)
  have hreturn : dropCarriageReturn (Utf8.encode l) = Utf8.encode l :=
    if_neg fun hc => h.2 (Utf8.getLast?_encode (by decide) (by decide) hc)
  rw [linesOf, splitLines_line hfeed, hreturn]
  cases hb : Text.isBlankText l <;> simp [hb]

theorem linesOf_bytesOfLines {lines : List String} (h : ∀ l ∈ lines, IsLine l) :
    linesOf (bytesOfLines lines) = some (lines.filter fun l => !Text.isBlankText l) := by
  induction lines with
  | nil => exact linesOf_nil
  | cons l ls ih =>
    have hl : linesOf (Utf8.encode l ++ [lineFeed]) =
        some (if Text.isBlankText l then [] else [l]) := linesOf_line (h l (List.mem_cons_self ..))
    rw [bytesOfLines, List.flatMap_cons, linesOf_append (Or.inr ⟨_, rfl⟩), hl, Option.bind_some]
    have := ih fun l' hl' => h l' (List.mem_cons_of_mem _ hl')
    rw [bytesOfLines] at this
    rw [this]
    cases hb : Text.isBlankText l <;> simp [hb]

theorem not_isBlankText_of_mem {l : String} {c : Char} (h : c ∈ l.toList)
    (hc : Text.isBlank c = false) : Text.isBlankText l = false := by
  rw [Text.isBlankText, List.all_eq_false]
  exact ⟨c, h, by simp [hc]⟩

/-! ### Written entries -/

/-- What `append` writes for some entries. -/
def writeEntries (entries : List Entry) : Bytes :=
  bytesOfLines (entries.filterMap Line.encode?)

theorem terminated_writeEntries (entries : List Entry) : Terminated (writeEntries entries) :=
  terminated_bytesOfLines _

theorem isLine_of_encode? {e : Entry} {l : String} (h : Line.encode? e = some l) : IsLine l := by
  obtain ⟨-, hfeed, hreturn⟩ := Line.mem_encode? h
  exact ⟨hfeed, fun hc => hreturn (List.mem_of_getLast? hc)⟩

theorem filterMap_decode?_encode? (entries : List Entry) :
    (entries.filterMap Line.encode?).filterMap Line.decode? =
      entries.filter fun e => Line.isEncodable e := by
  induction entries with
  | nil => rfl
  | cons e es ih =>
    cases he : Line.isEncodable e with
    | true =>
      obtain ⟨l, hl⟩ := Line.encode?_eq_some he
      rw [List.filterMap_cons_some hl, List.filterMap_cons_some (Line.decode?_encode? hl),
        List.filter_cons_of_pos he, ih]
    | false =>
      rw [List.filterMap_cons_none (Line.encode?_eq_none he), ih,
        List.filter_cons_of_neg (by simp [he])]

/-- Written entries are read back, without those that cannot be written. -/
theorem entriesOf_writeEntries (entries : List Entry) :
    entriesOf (writeEntries entries) = some (entries.filter fun e => Line.isEncodable e) := by
  have hlines : ∀ l ∈ entries.filterMap Line.encode?, IsLine l := by
    intro l hl
    obtain ⟨e, -, he⟩ := List.mem_filterMap.1 hl
    exact isLine_of_encode? he
  have hfilter : (entries.filterMap Line.encode?).filter (fun l => !Text.isBlankText l) =
      entries.filterMap Line.encode? := by
    rw [List.filter_eq_self]
    intro l hl
    obtain ⟨e, -, he⟩ := List.mem_filterMap.1 hl
    rw [not_isBlankText_of_mem (Line.mem_encode? he).1 (by decide)]
    rfl
  rw [entriesOf, writeEntries, linesOf_bytesOfLines hlines, hfilter, Option.map_some,
    filterMap_decode?_encode?]

theorem entriesOf_append_writeEntries {b : Bytes} {es : List Entry} (hb : Terminated b)
    (h : entriesOf b = some es) (entries : List Entry) :
    entriesOf (b ++ writeEntries entries) =
      some (es ++ entries.filter fun e => Line.isEncodable e) := by
  rw [entriesOf_append hb, h, entriesOf_writeEntries]
  rfl

theorem entriesOf_nil : entriesOf [] = some [] := by
  simp [entriesOf, linesOf_nil]

/-! ### Lines that are sent -/

theorem not_mem_of_mem_splitLines {bytes line : Bytes} (h : line ∈ splitLines bytes) :
    lineFeed ∉ line := by
  rw [splitLines, List.mem_append] at h
  rcases h with h | h
  · obtain ⟨piece, hpiece, rfl⟩ := List.mem_map.1 h
    have := not_mem_of_mem_splitOn (List.dropLast_subset _ hpiece)
    rw [dropCarriageReturn]
    split
    · exact fun hc => this (List.dropLast_subset _ hc)
    · exact this
  · split at h
    · exact absurd h List.not_mem_nil
    · rw [List.mem_singleton] at h
      have hlast : line ∈ bytes.splitOn lineFeed := by
        rw [h, List.getLastD_eq_getLast?, List.getLast?_eq_some_getLast (List.splitOn_ne_nil _ _)]
        exact List.getLast_mem _
      exact not_mem_of_mem_splitOn hlast

theorem exists_of_mem_mapM {α β : Type} {f : α → Option β} {as : List α} {bs : List β}
    (h : as.mapM f = some bs) {b : β} (hb : b ∈ bs) : ∃ a ∈ as, f a = some b := by
  have hall := forall₂_of_mapM h
  clear h
  induction hall with
  | nil => cases hb
  | cons ha _ ih =>
    rcases List.mem_cons.1 hb with rfl | hb
    · exact ⟨_, List.mem_cons_self, ha⟩
    · obtain ⟨a, ha, hf⟩ := ih hb
      exact ⟨a, List.mem_cons_of_mem _ ha, hf⟩

/-- No line that was read holds a line feed. -/
theorem not_mem_of_linesOf {bytes : Bytes} {lines : List String} (h : linesOf bytes = some lines) :
    ∀ l ∈ lines, '\n' ∉ l.toList := by
  rw [linesOf, Option.bind_eq_bind, Option.bind_eq_some_iff] at h
  obtain ⟨texts, htexts, h⟩ := h
  obtain rfl := Option.some.inj h
  intro l hl hc
  obtain ⟨line, hline, hdecode⟩ := exists_of_mem_mapM htexts (List.mem_filter.1 hl).1
  rw [← Utf8.encode_of_decode? hdecode] at hline
  exact not_mem_of_mem_splitLines hline
    ((Utf8.mem_encode_iff (by decide) (by decide)).2 hc)

theorem isLine_trimEnd {l : String} (h : '\n' ∉ l.toList) : IsLine (Text.trimEnd l) := by
  rw [IsLine, Line.trimEnd_toList]
  refine ⟨fun hc => h ((List.rdropWhile_prefix Text.isBlank _).subset hc), fun hc => ?_⟩
  -- a carriage return is a blank, and the last character left is none
  have hne : l.toList.rdropWhile Text.isBlank ≠ [] := fun hnil => by simp [hnil] at hc
  have hlast := List.rdropWhile_last_not Text.isBlank l.toList hne
  rw [List.getLast?_eq_some_getLast hne] at hc
  rw [Option.some.inj hc] at hlast
  exact hlast (by decide)

/-- The entries that lines give where they are written again. -/
def entriesOfSent (lines : List String) : List Entry :=
  ((lines.map Text.trimEnd).filter fun l => !Text.isBlankText l).filterMap Line.decode?

theorem entriesOf_bytesOfLines_trimEnd {lines : List String} (h : ∀ l ∈ lines, '\n' ∉ l.toList) :
    entriesOf (bytesOfLines (lines.map Text.trimEnd)) = some (entriesOfSent lines) := by
  rw [entriesOf, linesOf_bytesOfLines, entriesOfSent, Option.map_some]
  exact List.forall_mem_map.2 fun l hl => isLine_trimEnd (h l hl)

/-- Lines that are sent bring their entries, up to the identifiers of the peers. -/
theorem entriesOfSent_eq (lines : List String) :
    entriesOfSent lines = (lines.filterMap Line.decode?).map Line.trimmed := by
  induction lines with
  | nil => rfl
  | cons l ls ih =>
    rw [entriesOfSent] at ih
    rw [entriesOfSent, List.map_cons]
    cases hdecode : Line.decode? l with
    | none =>
      have htrim : Line.decode? (Text.trimEnd l) = none := by
        rw [Line.decode?_trimEnd, hdecode]
        rfl
      rw [List.filterMap_cons_none hdecode, ← ih]
      cases hblank : Text.isBlankText (Text.trimEnd l) <;> simp [hblank, htrim]
    | some e =>
      have htrim : Line.decode? (Text.trimEnd l) = some (Line.trimmed e) := by
        rw [Line.decode?_trimEnd, hdecode]
        rfl
      -- a line that has an entry holds a comma, so it is not blank
      have hblank : Text.isBlankText (Text.trimEnd l) = false :=
        not_isBlankText_of_mem (Line.mem_of_decode? htrim) (by decide)
      rw [List.filterMap_cons_some hdecode, List.map_cons, ← ih,
        List.filter_cons_of_pos (by rw [hblank]; rfl), List.filterMap_cons_some htrim]

/-- What lines bring is what they bring when it is sent again. -/
theorem map_trimmed_entriesOfSent (lines : List String) :
    (entriesOfSent lines).map Line.trimmed = entriesOfSent lines := by
  rw [entriesOfSent_eq, List.map_map]
  exact List.map_congr_left fun e _ => Line.trimmed_trimmed e

/-! ### The lines of a text -/

/-- A line that was ended, without the carriage return of its end. -/
def endedLine (cs : List Char) : List Char :=
  if cs.getLast? = some '\r' then cs.dropLast else cs

/-- The lines of a text: those that a line feed ends, and what is left after the last of them. -/
def linesOfText (text : String) : List String :=
  let pieces := text.toList.splitOn '\n'
  let last := pieces.getLastD []
  (pieces.dropLast.map endedLine ++ (if last.isEmpty then [] else [last])).map String.ofList

theorem encode_ofList (cs : List Char) :
    Utf8.encode (String.ofList cs) = cs.flatMap String.utf8EncodeChar := by
  rw [Utf8.encode_eq_flatMap, String.toList_ofList]

theorem splitOn_append_of_notMem {α : Type} [BEq α] [LawfulBEq α] {sep : α} {xs : List α}
    (h : sep ∉ xs) (ys : List α) :
    (xs ++ ys).splitOn sep = (ys.splitOn sep).modifyHead (xs ++ ·) := by
  induction xs with
  | nil => cases hys : ys.splitOn sep <;> simp [hys]
  | cons x xs ih =>
    rw [List.mem_cons, not_or] at h
    rw [List.cons_append, List.splitOn_cons_eq_if_modifyHead, if_neg (by simpa using Ne.symm h.1),
      ih h.2, List.modifyHead_modifyHead]
    rfl

/-- The pieces of the bytes are the bytes of the pieces. -/
theorem splitOn_encode (cs : List Char) :
    (cs.flatMap String.utf8EncodeChar).splitOn lineFeed =
      (cs.splitOn '\n').map (·.flatMap String.utf8EncodeChar) := by
  induction cs with
  | nil => rfl
  | cons c cs ih =>
    rw [List.flatMap_cons, List.splitOn_cons_eq_if_modifyHead]
    by_cases hc : c = '\n'
    · subst hc
      have hbytes : String.utf8EncodeChar '\n' = [lineFeed] := rfl
      rw [hbytes, List.singleton_append, List.splitOn_cons_eq_if_modifyHead, ih]
      rfl
    · have hfeed : lineFeed ∉ String.utf8EncodeChar c := fun hmem =>
        hc (Char.toNat_inj.1 (Utf8.utf8EncodeChar_of_mem hmem (by decide)).2)
      rw [splitOn_append_of_notMem hfeed, ih, if_neg (by simpa using hc)]
      cases cs.splitOn '\n' <;> simp

theorem dropCarriageReturn_encode (cs : List Char) :
    dropCarriageReturn (cs.flatMap String.utf8EncodeChar) =
      (endedLine cs).flatMap String.utf8EncodeChar := by
  rw [dropCarriageReturn, endedLine, ← encode_ofList]
  split
  · -- the byte that goes is the character at the end
    next hlast =>
    have hreturn := Utf8.getLast?_encode (c := '\r') (by decide) (by decide) hlast
    rw [String.toList_ofList] at hreturn
    obtain ⟨init, rfl⟩ := List.getLast?_eq_some_iff.1 hreturn
    rw [if_pos hreturn, encode_ofList, List.flatMap_append, List.dropLast_concat]
    exact List.dropLast_concat
  · next hlast =>
    rw [if_neg, encode_ofList]
    intro hreturn
    obtain ⟨init, rfl⟩ := List.getLast?_eq_some_iff.1 hreturn
    refine hlast ?_
    rw [encode_ofList, List.flatMap_append]
    exact List.getLast?_concat

/-- The lines of the bytes of a text are the bytes of its lines. -/
theorem splitLines_encode (text : String) :
    splitLines (Utf8.encode text) = (linesOfText text).map Utf8.encode := by
  rw [splitLines, Utf8.encode_eq_flatMap, splitOn_encode, linesOfText]
  generalize text.toList.splitOn '\n' = pieces
  have hlast : (pieces.map (·.flatMap String.utf8EncodeChar)).getLastD [] =
      (pieces.getLastD []).flatMap String.utf8EncodeChar := by
    cases h : pieces.getLast? <;> simp [List.getLastD_eq_getLast?, h]
  have hempty : ((pieces.getLastD []).flatMap String.utf8EncodeChar).isEmpty =
      (pieces.getLastD []).isEmpty := by
    cases pieces.getLastD [] with
    | nil => rfl
    | cons c cs => simp [String.utf8EncodeChar_ne_nil]
  simp only [hlast, hempty, ← List.map_dropLast, List.map_append, List.map_map]
  congr 1
  · exact List.map_congr_left fun cs _ =>
      (dropCarriageReturn_encode cs).trans (encode_ofList _).symm
  · split
    · rfl
    · exact congrArg (fun l => [l]) (encode_ofList _).symm

/-- A text is read line by line. -/
theorem linesOf_encode (text : String) :
    linesOf (Utf8.encode text) = some ((linesOfText text).filter fun l => !Text.isBlankText l) := by
  have hdecode : ∀ lines : List String,
      (lines.map Utf8.encode).mapM Utf8.decode? = some lines := by
    intro lines
    induction lines with
    | nil => rfl
    | cons l lines ih => simp [ih]
  rw [linesOf, splitLines_encode, hdecode]
  rfl

/-- A text can be read, whatever is in its lines. -/
theorem exists_entriesOf {bytes : Bytes} {text : String} (h : Utf8.decode? bytes = some text) :
    ∃ es, entriesOf bytes = some es := by
  rw [← Utf8.encode_of_decode? h, entriesOf, linesOf_encode]
  exact ⟨_, rfl⟩

/-- Lines that are written can be read, whatever line ends are in them. -/
theorem exists_entriesOf_bytesOfLines (lines : List String) :
    ∃ es, entriesOf (bytesOfLines lines) = some es := by
  have htext : bytesOfLines lines =
      Utf8.encode (String.ofList (lines.flatMap fun l => l.toList ++ ['\n'])) := by
    rw [encode_ofList, List.flatMap_assoc, bytesOfLines]
    refine List.flatMap_congr fun l _ => ?_
    rw [List.flatMap_append, Utf8.encode_eq_flatMap]
    rfl
  rw [htext]
  exact exists_entriesOf (Utf8.decode?_encode _)

end TrieOverlay.Bulk
