import TrieOverlay.Envelope
import TrieOverlay.Proofs.Disk.Volume

/-!
# Entries and lines of one file

A bulk file is read in two ways: by a scan, which visits the entries one after the other, and line
by line, when it is sent.  `Bulk.run_scan_lines` says what a scan comes to in terms of the lines,
whatever calls fail: it visits the entries that the lines write, or ends with the failure that the
lines have.  So the entries that are read are those of the lines (`Bulk.readEntries_eq`), a file
that is sent has the same entries as one that is read, and the two ways fail on the same files
(`Bulk.reads_agree`).
-/

namespace TrieOverlay

namespace Bulk

variable {σ : Type} {v v' : Volume} {p : Path} {bytes : Bytes}

/-! ### Lines -/

/-- The lines of a file cannot be read if one of them is not UTF-8. -/
theorem linesOf_eq_none_iff :
    linesOf bytes = none ↔ ∃ line ∈ splitLines bytes, Utf8.decode? line = none := by
  have hmap : ∀ lines : List Bytes,
      lines.mapM Utf8.decode? = none ↔ ∃ line ∈ lines, Utf8.decode? line = none := by
    intro lines
    induction lines with
    | nil => simp
    | cons line rest ih =>
      cases hline : Utf8.decode? line with
      | none => simp [hline]
      | some text =>
        cases hrest : rest.mapM Utf8.decode? with
        | none => simpa [hline, hrest] using ih
        | some texts => simpa [hline, hrest] using ih
  rw [← hmap, linesOf]
  cases (splitLines bytes).mapM Utf8.decode? <;> simp

/-- What reading the lines of a file comes to if no call is refused. -/
theorem run_readLines_eq (hs : v.schedule = []) (h : v.HasFile p bytes) :
    (readLines p).run.run v =
      (match linesOf bytes with
        | some lines => .ok lines
        | none => .error ⟨p, .invalidData⟩, v) := by
  rw [readLines, TryDisk.run_bind_ok (Volume.run_readIfPresent hs h)]
  dsimp only
  cases linesOf bytes <;> rfl

/-- A file that does not exist has no lines. -/
theorem run_readLines_missing (hs : v.schedule = []) (h : v.content p = .error .notFound) :
    (readLines p).run.run v = (.ok [], v) := by
  rw [readLines, TryDisk.run_bind_ok (Volume.run_readIfPresent_missing hs h)]
  rfl

/-! ### Scans -/

/-- A scan over lines that are all UTF-8 visits the entries of the file in order. -/
theorem scanLines_eq (visit : σ → Entry → Disk σ) {lines : List Bytes}
    {texts : List String} (h : lines.mapM Utf8.decode? = some texts) (s : σ) (n : Nat) :
    scanLines p visit lines s n =
      let visited := (texts.filter fun l => !Text.isBlankText l).filterMap Line.decode?
      (fun s => (s, .ok (n + visited.length))) <$> visited.foldlM visit s := by
  -- a line is blank, not an entry, or an entry; only the last is visited and counted
  induction lines generalizing texts s n with
  | nil =>
    obtain rfl : texts = [] := by simpa using h
    simp [scanLines]
  | cons line rest ih =>
    rw [List.mapM_cons, Option.bind_eq_bind, Option.bind_eq_some_iff] at h
    obtain ⟨text, htext, h⟩ := h
    rw [Option.bind_eq_bind, Option.bind_eq_some_iff] at h
    obtain ⟨texts', hrest, h⟩ := h
    obtain rfl := Option.some.inj h
    rw [scanLines, htext]
    cases hblank : Text.isBlankText text with
    | true =>
      simp only [hblank, if_true]
      rw [ih hrest]
      simp [hblank]
    | false =>
      cases hdecode : Line.decode? text with
      | none =>
        simp only [hblank, hdecode]
        rw [if_neg (by simp), ih hrest]
        simp [hblank, hdecode]
      | some e =>
        simp only [hblank, hdecode]
        rw [if_neg (by simp), List.filter_cons_of_pos (by simp [hblank]),
          List.filterMap_cons_some hdecode]
        simp only [ih hrest, List.foldlM_cons, List.length_cons, map_bind, Nat.add_assoc,
          Nat.add_comm 1]

/-- A scan over lines of which one is not UTF-8 ends there, after some visits. -/
theorem scanLines_eq_error (visit : σ → Entry → Disk σ) {lines : List Bytes}
    (h : lines.mapM Utf8.decode? = none) :
    ∃ seen : List Entry, ∀ s n, scanLines p visit lines s n =
      (fun s => (s, .error ⟨p, .invalidData⟩)) <$> seen.foldlM visit s := by
  induction lines with
  | nil => cases h
  | cons line rest ih =>
    cases htext : Utf8.decode? line with
    | none => exact ⟨[], fun s n => by simp [scanLines, htext]⟩
    | some text =>
      have hrest : rest.mapM Utf8.decode? = none := by
        rw [List.mapM_cons, htext] at h
        cases hmap : rest.mapM Utf8.decode? with
        | none => rfl
        | some texts => simp [hmap] at h
      obtain ⟨seen, hseen⟩ := ih hrest
      cases hblank : Text.isBlankText text with
      | true => exact ⟨seen, fun s n => by simp [scanLines, htext, hblank, hseen]⟩
      | false =>
        cases hdecode : Line.decode? text with
        | none => exact ⟨seen, fun s n => by simp [scanLines, htext, hblank, hdecode, hseen]⟩
        | some e =>
          exact ⟨e :: seen, fun s n => by simp [scanLines, htext, hblank, hdecode, hseen]⟩

/-- The visits to some entries, then the result of a scan. -/
def visits (visit : σ → Entry → Disk σ) (es : List Entry) (r : Except StorageError Nat) (s : σ) :
    Disk (σ × Except StorageError Nat) :=
  (fun s => (s, r)) <$> es.foldlM visit s

/-- A scan visits the entries that the lines of a file write, or it ends with the failure of reading
the lines. -/
theorem run_scan_lines (visit : σ → Entry → Disk σ) (p : Path) (v : Volume) :
    match (readLines p).run.run v with
    | (.ok lines, v₁) => ∀ s, (scan p visit s).run v =
        (visits visit (lines.filterMap Line.decode?)
          (.ok (lines.filterMap Line.decode?).length) s).run v₁
    | (.error e, v₁) => ∃ seen, ∀ s, (scan p visit s).run v =
        (visits visit seen (.error e) s).run v₁ := by
  rcases hread : (Volume.readIfPresent p).run.run v with ⟨e | _ | bytes, v₁⟩
  · rw [readLines, TryDisk.run_bind_error hread]
    refine ⟨[], fun s => ?_⟩
    rw [scan, Disk.run_bind_eq hread]
    rfl
  · rw [readLines, TryDisk.run_bind_ok hread]
    intro s
    rw [scan, Disk.run_bind_eq hread]
    rfl
  · rw [readLines, TryDisk.run_bind_ok hread]
    simp only [linesOf]
    cases htexts : (splitLines bytes).mapM Utf8.decode? with
    | none =>
      obtain ⟨seen, hseen⟩ := scanLines_eq_error (p := p) visit htexts
      refine ⟨seen, fun s => ?_⟩
      rw [scan, Disk.run_bind_eq hread]
      exact congrArg (fun act => StateT.run act v₁) (hseen s 0)
    | some texts =>
      intro s
      rw [scan, Disk.run_bind_eq hread]
      simp only [scanLines_eq visit htexts, Nat.zero_add]
      rfl

theorem run_scan_of_lines {lines : List String} (h : (readLines p).run.run v = (.ok lines, v'))
    (visit : σ → Entry → Disk σ) (s : σ) :
    (scan p visit s).run v =
      (visits visit (lines.filterMap Line.decode?)
        (.ok (lines.filterMap Line.decode?).length) s).run v' := by
  have hscan := run_scan_lines visit p v
  rw [h] at hscan
  exact hscan s

theorem run_scan_of_no_lines {e : StorageError} (h : (readLines p).run.run v = (.error e, v'))
    (visit : σ → Entry → Disk σ) :
    ∃ seen, ∀ s, (scan p visit s).run v = (visits visit seen (.error e) s).run v' := by
  have hscan := run_scan_lines visit p v
  rw [h] at hscan
  exact hscan

/-- A scan that cannot fail on a visit, as a function of the lines. -/
theorem scan_pure_eq {α : Type} (step : σ → Entry → σ) (s : σ) (out : σ → Nat → α) (p : Path) :
    (ExceptT.mk do
      let (found, r) ← scan p (fun s e => pure (step s e)) s
      return r.map (out found) : TryDisk α) =
      (fun lines =>
        let es := lines.filterMap Line.decode?
        out (es.foldl step s) es.length) <$> readLines p := by
  refine ExceptT.ext (StateT.ext fun v => ?_)
  rcases hlines : (readLines p).run.run v with ⟨e | lines, v₁⟩
  · obtain ⟨seen, hseen⟩ := run_scan_of_no_lines hlines fun s e => pure (step s e)
    have hscan := hseen s
    rw [visits, List.foldlM_pure] at hscan
    rw [TryDisk.run_map_error hlines, ExceptT.run_mk, Disk.run_bind_eq hscan]
    rfl
  · have hscan := run_scan_of_lines hlines (fun s e => pure (step s e)) s
    rw [visits, List.foldlM_pure] at hscan
    rw [TryDisk.run_map_ok hlines, ExceptT.run_mk, Disk.run_bind_eq hscan]
    rfl

/-! ### Readings -/

/-- The entries of a file are those that its lines write. -/
theorem readEntries_eq (p : Path) :
    readEntries p = (fun lines => lines.filterMap Line.decode?) <$> readLines p := by
  refine (scan_pure_eq (fun es e => e :: es) [] (fun found _ => found.reverse) p).trans ?_
  simp only [List.foldl_flip_cons_eq_append', List.append_nil, List.reverse_reverse]

theorem countEntries_eq (p : Path) :
    countEntries p = (fun lines => (lines.filterMap Line.decode?).length) <$> readLines p := by
  refine Eq.trans ?_ (scan_pure_eq (fun s _ => s) () (fun _ n => n) p)
  refine congrArg (fun f => ExceptT.mk (scan p (fun s _ => pure s) () >>= f)) (funext fun r => ?_)
  obtain ⟨_, _ | _⟩ := r <;> rfl

end Bulk

/-! ### Files that are sent -/

/-- The parcel of a message that names a file has the lines of the file. -/
theorem Parcel.ofMessage_file (header : Header) (p : Path) :
    Parcel.ofMessage ⟨header, .file p⟩ =
      (fun lines => ⟨header, .lines lines⟩) <$> Bulk.readLines p := by
  rw [map_eq_pure_bind]
  rfl

namespace Bulk

/-- Reading the entries of a file and reading its lines agree, whatever calls fail and whatever the
file holds.  They fail together; else the entries are those that the lines write, in order, a scan
visits and counts these, and a message that names the file is sent with the lines.  A file that is
there is read unless a line is not UTF-8, and one that is missing is read as empty. -/
theorem reads_agree (p : Path) (v : Volume) :
    (∀ e v', (readEntries p).run.run v = (.error e, v') ↔
      (readLines p).run.run v = (.error e, v')) ∧
    (∀ e v', (readLines p).run.run v = (.error e, v') →
      ∀ (σ : Type) (visit : σ → Entry → Disk σ), ∃ seen, ∀ s,
        (scan p visit s).run v = (visits visit seen (.error e) s).run v') ∧
    (∀ lines v', (readLines p).run.run v = (.ok lines, v') →
      let es := lines.filterMap Line.decode?
      (readEntries p).run.run v = (.ok es, v') ∧
      (countEntries p).run.run v = (.ok es.length, v') ∧
      (∀ (σ : Type) (visit : σ → Entry → Disk σ) (s : σ),
        (scan p visit s).run v = (visits visit es (.ok es.length) s).run v') ∧
      ∀ header, (Parcel.ofMessage ⟨header, .file p⟩).run.run v =
        (.ok ⟨header, .lines lines⟩, v')) ∧
    (v.schedule = [] →
      (∀ bytes, v.HasFile p bytes →
        ((readLines p).run.run v = (.error ⟨p, .invalidData⟩, v) ↔
          ∃ line ∈ splitLines bytes, Utf8.decode? line = none) ∧
        ∀ texts, (splitLines bytes).mapM Utf8.decode? = some texts →
          (readLines p).run.run v = (.ok (texts.filter fun l => !Text.isBlankText l), v)) ∧
      (v.content p = .error .notFound →
        (readLines p).run.run v = (.ok [], v) ∧ (readEntries p).run.run v = (.ok [], v) ∧
          (countEntries p).run.run v = (.ok 0, v))) := by
  have hok : ∀ lines v', (readLines p).run.run v = (.ok lines, v') →
      (readEntries p).run.run v = (.ok (lines.filterMap Line.decode?), v') ∧
      (countEntries p).run.run v = (.ok (lines.filterMap Line.decode?).length, v') := by
    intro lines v' hlines
    rw [readEntries_eq, countEntries_eq]
    exact ⟨TryDisk.run_map_ok hlines, TryDisk.run_map_ok hlines⟩
  refine ⟨fun e v' => ⟨fun h => ?_, fun h => ?_⟩,
    fun e v' h σ visit => run_scan_of_no_lines h visit,
    fun lines v' h => ⟨(hok lines v' h).1, (hok lines v' h).2, fun σ => run_scan_of_lines h, ?_⟩,
    fun hs => ⟨fun bytes hf => ⟨?_, fun texts htexts => ?_⟩, fun hmissing => ?_⟩⟩
  · rcases hlines : (readLines p).run.run v with ⟨e' | lines, v₁⟩
    · rw [readEntries_eq, TryDisk.run_map_error hlines] at h
      cases h
      rfl
    · rw [(hok lines v₁ hlines).1] at h
      cases h
  · rw [readEntries_eq]
    exact TryDisk.run_map_error h
  · intro header
    rw [Parcel.ofMessage_file]
    exact TryDisk.run_map_ok h
  · rw [run_readLines_eq hs hf, ← linesOf_eq_none_iff]
    cases linesOf bytes with
    | none => exact iff_of_true rfl rfl
    | some lines => exact iff_of_false (fun h => nomatch congrArg Prod.fst h) (fun h => nomatch h)
  · rw [run_readLines_eq hs hf, linesOf, htexts]
    rfl
  · have hlines := run_readLines_missing hs hmissing
    exact ⟨hlines, hok [] v hlines⟩

/-- A file of a line that is no entry, a blank line and one that is an entry, and a file of a line
that is not UTF-8. -/
theorem reads_agree_of_odd_lines :
    let p := Path.root.child "list.csv"
    let line := "1,dHlwZQ:eA,a,localhost:1,peer"
    let v : Volume := Volume.empty.putFile p (Utf8.encode ("odd\r\n \n" ++ line))
    let w : Volume := Volume.empty.putFile p [255, lineFeed]
    (readLines p).run.run v = (.ok ["odd", line], v) ∧
      (readEntries p).run.run v =
        (.ok [⟨⟨"a"⟩, ⟨[true]⟩, "type", ⟨⟨"peer"⟩, "localhost:1"⟩, "x"⟩], v) ∧
      (readEntries p).run.run w = (.error ⟨p, .invalidData⟩, w) := by
  intro p line v w
  obtain ⟨-, -, hok, hplain⟩ := reads_agree p v
  obtain ⟨herror, -, -, hplain'⟩ := reads_agree p w
  have hv := Volume.hasFile_putFile (v := .empty) (p := p) (by decide) (by decide) (by decide)
  have hkept : (["odd", " ", line].filter fun l => !Text.isBlankText l) = ["odd", line] := by decide
  have hlines : (readLines p).run.run v = (.ok ["odd", line], v) :=
    hkept ▸ ((hplain rfl).1 _ (hv _)).2 ["odd", " ", line] (by decide)
  have hentries : ["odd", line].filterMap Line.decode? =
      [⟨⟨"a"⟩, ⟨[true]⟩, "type", ⟨⟨"peer"⟩, "localhost:1"⟩, "x"⟩] := by decide
  refine ⟨hlines, hentries ▸ (hok _ v hlines).1, (herror _ w).2 ?_⟩
  exact ((hplain' rfl).1 _ (hv _)).1.2 ⟨[255], by decide, by decide⟩

end Bulk

end TrieOverlay
