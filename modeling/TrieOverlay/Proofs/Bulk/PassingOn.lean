import TrieOverlay.Proofs.Bulk.Calls
import TrieOverlay.Proofs.Bulk.Streaming

/-!
# Entries that are read only to be written again

Most of what is done to a bulk file reads its entries and writes them somewhere: those that are left
when some are removed or replaced, those that are moved into another file, those of a level.  An
edit of this kind is a function on entries, and `Bulk.Line.rewritten` says what becomes of a line
under it: a line whose entry is passed on stays as it is, unless a carriage return stands in it.
Reading takes a carriage return inside a field for a character of the field, but no field is written
with one, so an entry that is passed on vanishes exactly if its line has one
(`Bulk.passed_on_unless_return`).
-/

namespace TrieOverlay.Bulk

namespace Line

/-- What is written for a line when an edit was made to its entry, which takes some out. -/
def rewritten (edit : Entry → Option Entry) (line : String) : Option String := do
  let e ← decode? line
  let e' ← edit e
  if e' ≠ e then encode? e'
  else if '\r' ∈ line.toList then none
  else some line

theorem bind_encode?_eq_rewritten {line : String} (hline : '\n' ∉ line.toList)
    (edit : Entry → Option Entry) :
    ((decode? line).bind edit).bind encode? = rewritten edit line := by
  rw [rewritten]
  cases hdecode : decode? line with
  | none => rfl
  | some e =>
    cases hedit : edit e with
    | none => simp [hedit]
    | some e' =>
      simp only [Option.bind_some, hedit, Option.bind_eq_bind]
      split
      · rfl
      · rename_i heq
        rw [not_not.1 heq, encode?_of_decode? hdecode]
        simp only [hline, false_or]

end Line

variable {v : Volume} {bytes : Bytes} {lines : List String}

/-- What is written for the edited entries of a file is what is left of its lines. -/
theorem writeEntries_filterMap (h : linesOf bytes = some lines) (edit : Entry → Option Entry) :
    entriesOf bytes = some (lines.filterMap Line.decode?) ∧
      writeEntries ((lines.filterMap Line.decode?).filterMap edit) =
        bytesOfLines (lines.filterMap (Line.rewritten edit)) := by
  refine ⟨by rw [entriesOf, h]; rfl, ?_⟩
  rw [writeEntries, List.filterMap_filterMap, List.filterMap_filterMap]
  refine congrArg bytesOfLines (List.filterMap_congr fun line hline => ?_)
  rw [← Line.bind_encode?_eq_rewritten (not_mem_of_linesOf h line hline), Option.bind_assoc]

/-! ### The edits -/

/-- Takes out the entries that have the identifier of one of the given ones. -/
def removing (removed : List Entry) (e : Entry) : Option Entry :=
  if (removed.map (·.id)).contains e.id then none else some e

/-- Replaces the entries that have the identifier of one of the given ones. -/
def updating (updates : List Entry) (e : Entry) : Option Entry :=
  some ((BulkList.lastWithId? updates e.id).getD e)

/-- Takes out the entries of other levels. -/
def picking (path : Key) (level : Nat) (e : Entry) : Option Entry :=
  if path.levelOf e.key = level then some e else none

theorem filterMap_removing (removed es : List Entry) :
    es.filterMap (removing removed) = (BulkList.withoutIds (removed.map (·.id)) es).2 := by
  rw [BulkList.withoutIds, ← List.filterMap_eq_filter]
  refine List.filterMap_congr fun e _ => ?_
  rw [removing, Option.guard]
  cases (removed.map (·.id)).contains e.id <;> rfl

theorem filterMap_updating (updates es : List Entry) :
    es.filterMap (updating updates) = (BulkList.withUpdates updates es).2 := by
  rw [BulkList.withUpdates, ← List.filterMap_eq_map]
  rfl

theorem filterMap_picking (path : Key) (level : Nat) (es : List Entry) :
    es.filterMap (picking path level) = atLevel path level es := by
  rw [atLevel, ← List.filterMap_eq_filter]
  refine List.filterMap_congr fun e _ => ?_
  rw [picking, Option.guard]
  by_cases hlevel : path.levelOf e.key = level <;> simp [hlevel]

/-! ### What the operations pass on -/

section Operations

variable {l : BulkList}

/-- A list is rewritten line by line, unless no entry is touched. -/
theorem bytes?_of_tryRewrite (ht : v.IsTree)
    (hlines : linesOf ((v.bytes? l.path).getD []) = some lines)
    {edit : List Entry → Nat × List Entry} {each : Entry → Option Entry}
    (heach : ∀ es : List Entry, es.filterMap each = (edit es).2) :
    (l.tryRewrite edit).Ends v
      (fun r v' => v'.bytes? l.path =
        if r.1 > 0 then some (bytesOfLines (lines.filterMap (Line.rewritten each)))
        else v.bytes? l.path)
      fun _ _ => True := by
  obtain ⟨hentries, hwritten⟩ := writeEntries_filterMap hlines each
  refine (BulkList.ends_tryRewrite ht l edit).imp ?_ fun _ _ _ => trivial
  rintro _ v' ⟨es, hes, rfl, -, hb⟩
  rw [entriesAt, hentries] at hes
  obtain rfl := Option.some.inj hes
  rw [hb, ← heach, hwritten]

end Operations

/-- **What is passed on stays as it is, unless a carriage return stands in it.**  A line from which
an entry is read is the line that is written for the entry if no carriage return is in it, and else
the entry cannot be written.  So where entries are removed from a list, replaced in it, moved out of
it or sorted by level, the lines of the entries that are passed on are there again afterwards,
except for those that hold a carriage return: these are gone. -/
theorem passed_on_unless_return {p : Path} (ht : v.IsTree)
    (hlines : linesOf ((v.bytes? p).getD []) = some lines) :
    (∀ line e, '\n' ∉ line.toList → Line.decode? line = some e →
      (Line.encode? e = some line ↔ '\r' ∉ line.toList) ∧
      (Line.encode? e = none ↔ '\r' ∈ line.toList)) ∧
    (∀ (l : BulkList) removed n l' v', l.path = p →
      (l.tryRemove removed).run.run v = (.ok (n, l'), v') → v'.bytes? p =
        if n > 0 then some (bytesOfLines (lines.filterMap (Line.rewritten (removing removed))))
        else v.bytes? p) ∧
    (∀ (l : BulkList) updates n l' v', l.path = p →
      (l.tryUpdate updates).run.run v = (.ok (n, l'), v') → v'.bytes? p =
        if n > 0 then some (bytesOfLines (lines.filterMap (Line.rewritten (updating updates))))
        else v.bytes? p) ∧
    (∀ (l : BulkList) dir f l' v', l.path = p → v.Avoids p →
      (l.takeInto dir).run.run v = (.ok (some f, l'), v') →
      v'.bytes? f.path = some (bytesOfLines (lines.filterMap (Line.rewritten some)))) ∧
    (∀ path (source : ScratchFile) dir files v', source.path = p → v.Unclaimed dir source →
      (splitByLevel path source dir).run.run v = (.ok files, v') →
      ∀ i f, files[i]? = some (some f) → v'.bytes? f.path =
        some (bytesOfLines (lines.filterMap (Line.rewritten (picking path i))))) := by
  refine ⟨fun line e hline hdecode => ?_, ?_, ?_, ?_, ?_⟩
  · rw [Line.encode?_of_decode? hdecode]
    by_cases hreturn : '\r' ∈ line.toList <;> simp [hline, hreturn]
  · rintro l removed n l' v' rfl hrun
    exact (bytes?_of_tryRewrite ht hlines (filterMap_removing removed)).of_ok hrun
  · rintro l updates n l' v' rfl hrun
    exact (bytes?_of_tryRewrite ht hlines (filterMap_updating updates)).of_ok hrun
  · rintro l dir f l' v' rfl havoids hrun
    obtain ⟨hentries, hwritten⟩ := writeEntries_filterMap hlines some
    obtain ⟨es, hes, -, -, hmoved⟩ := (BulkList.ends_takeInto ht l havoids dir).of_ok hrun
    rw [entriesAt, hentries] at hes
    obtain rfl := Option.some.inj hes
    split at hmoved
    · cases hmoved.1
    · obtain ⟨f', hf', -, hb⟩ := hmoved
      cases hf'
      rw [hb, ← hwritten, List.filterMap_some]
  · rintro path source dir files v' rfl hnew hrun i f hf
    obtain ⟨hentries, hwritten⟩ := writeEntries_filterMap hlines (picking path i)
    rw [splitByLevel_eq] at hrun
    obtain ⟨es, hes, hlength, -, hlevels⟩ :=
      (ends_splitInPortions ht hnew portionSize path).of_ok hrun
    rw [entriesAt, hentries] at hes
    obtain rfl := Option.some.inj hes
    have hi : i ≤ path.length := by
      have := (List.getElem?_eq_some_iff.1 hf).1
      omega
    obtain ⟨written, hall, hfile⟩ := hlevels i hi
    rw [hf, Option.join_some] at hfile
    rw [hfile.2, ← hwritten, filterMap_picking, hall, List.append_nil]

/-- The first of two lines holds a carriage return: it has an entry, which is gone when the entry of
the second line is removed, and is in no file when both are sorted by level. -/
theorem passed_on_unless_return_of_two_lines :
    let odd := "1,ZGVmYXVsdA:eA,a\rb,127.0.0.1:6000,p0"
    let plain := "1,ZGVmYXVsdA:eA,c,127.0.0.1:6000,p0"
    let removed : Entry := ⟨⟨"c"⟩, ⟨[true]⟩, "default", ⟨⟨"p0"⟩, "127.0.0.1:6000"⟩, "x"⟩
    let l : BulkList := ⟨Path.root.child "list.csv", .first, .empty⟩
    let v := Volume.empty.putFile l.path (bytesOfLines [odd, plain])
    ((Line.decode? odd).isSome ∧ (Line.decode? odd).bind Line.encode? = none) ∧
      v.IsTree ∧ v.Unclaimed .root ⟨l.path⟩ ∧
      linesOf ((v.bytes? l.path).getD []) = some [odd, plain] ∧
      (∃ l' v', (l.tryRemove [removed]).run.run v = (.ok (1, l'), v') ∧
        v'.bytes? l.path = some []) ∧
      ∃ files v', (splitByLevel .root ⟨l.path⟩ .root).run.run v = (.ok files, v') ∧
        ∀ f, files[0]? = some (some f) → v'.bytes? f.path = some (bytesOfLines [plain]) := by
  intro odd plain removed l v
  have htree : v.IsTree := Volume.isTree_empty.putFile (by decide) (by decide) _
  obtain ⟨hready, hnew⟩ : v.Ready .root ∧ v.Unclaimed .root ⟨l.path⟩ :=
    ready_putFile (by decide) _
  have hfile : v.HasFile l.path (bytesOfLines [odd, plain]) :=
    Volume.hasFile_putFile (by decide) (by decide) (by decide) _
  have hlines : linesOf (bytesOfLines [odd, plain]) = some [odd, plain] := by
    rw [linesOf_bytesOfLines]
    · decide
    · rintro line hline
      obtain rfl | rfl : line = odd ∨ line = plain := by simpa using hline
      · exact ⟨by decide, by decide⟩
      · exact ⟨by decide, by decide⟩
  have hcontent : linesOf ((v.bytes? l.path).getD []) = some [odd, plain] := by
    rw [Volume.bytes?_eq_some_iff.2 hfile]
    exact hlines
  obtain ⟨hline, hremove, -, -, hsplit⟩ := passed_on_unless_return htree hcontent
  have hdecode : (Line.decode? odd).isSome = true := by decide
  obtain ⟨e, he⟩ := Option.isSome_iff_exists.1 hdecode
  refine ⟨⟨hdecode, ?_⟩, htree, hnew, hcontent, ?_, ?_⟩
  · rw [he]
    exact (hline odd e (by decide) he).2.2 (by decide)
  · have hok : ((l.tryRemove [removed]).run.run v).1.toOption.map Prod.fst = some 1 := by decide
    rcases hrun : (l.tryRemove [removed]).run.run v with ⟨_ | ⟨n, l'⟩, v'⟩
    · rw [hrun] at hok
      cases hok
    · rw [hrun] at hok
      obtain rfl : n = 1 := Option.some.inj hok
      refine ⟨l', v', rfl, (hremove l [removed] 1 l' v' rfl hrun).trans ?_⟩
      decide
  · have hentries : v.HasEntries (ScratchFile.mk l.path).path _ :=
      ⟨_, hfile, (writeEntries_filterMap hlines some).1⟩
    obtain ⟨files, v', hrun, -, -⟩ := run_splitByLevel hready hentries .root
    refine ⟨files, v', hrun, fun f hf => ?_⟩
    rw [hsplit .root ⟨l.path⟩ .root files v' rfl hnew hrun 0 f hf]
    decide

end TrieOverlay.Bulk
