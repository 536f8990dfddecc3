import TrieOverlay.Bulk.ScratchFile
import TrieOverlay.Proofs.Bulk.Content
import TrieOverlay.Proofs.Bulk.Reading

/-!
# Bulk files on a volume on which no call is refused

`Volume.HasEntries v p es` says that the file at `p` can be read and has the entries `es`;
`Volume.HasList v p es` that besides it can be written at its end.  Under `Volume.Ready dir v` no
call is refused and `dir` is a directory in which the names that are made up next are free.
`v.Leads dir ps v'` is what every computation here does to the volume: it stays ready, and
everything stays that was there, apart from the files at `ps`.
-/

namespace TrieOverlay

open Volume (HasFile HasDirectory Keeps)

/-! ### Ready volumes -/

namespace Volume

variable {v v' v'' : Volume} {dir p q : Path} {bytes : Bytes} {es : List Entry}

/-- A file that can be read, and its entries. -/
def HasEntries (v : Volume) (p : Path) (es : List Entry) : Prop :=
  ∃ bytes, v.HasFile p bytes ∧ Bulk.entriesOf bytes = some es

/-- A file that can be read and written at its end, and its entries. -/
def HasList (v : Volume) (p : Path) (es : List Entry) : Prop :=
  ∃ bytes, v.HasFile p bytes ∧ Bulk.Terminated bytes ∧ Bulk.entriesOf bytes = some es

theorem HasList.hasEntries (h : v.HasList p es) : v.HasEntries p es := by
  obtain ⟨bytes, hf, -, he⟩ := h
  exact ⟨bytes, hf, he⟩

theorem HasEntries.eq (h : v.HasEntries p es) {es' : List Entry} (h' : v.HasEntries p es') :
    es = es' := by
  obtain ⟨bytes, hf, he⟩ := h
  obtain ⟨bytes', hf', he'⟩ := h'
  rw [hf.eq hf', he'] at he
  exact (Option.some.inj he).symm

theorem HasEntries.item?_ne_none (h : v.HasEntries p es) : v.item? p ≠ none := by
  obtain ⟨bytes, hf, -⟩ := h
  simp [hf.2]

theorem Keeps.hasEntries {ps : List Path} (h : Keeps ps v v') (he : v.HasEntries p es)
    (hp : p ∉ ps) : v'.HasEntries p es := by
  obtain ⟨bytes, hf, he⟩ := he
  exact ⟨bytes, h.hasFile hf hp, he⟩

theorem Keeps.hasList {ps : List Path} (h : Keeps ps v v') (hl : v.HasList p es)
    (hp : p ∉ ps) : v'.HasList p es := by
  obtain ⟨bytes, hf, he⟩ := hl
  exact ⟨bytes, h.hasFile hf hp, he⟩

/-- No call is refused, and the names that are made up next are free in a directory. -/
structure Ready (dir : Path) (v : Volume) : Prop where
  schedule : v.schedule = []
  directory : v.HasDirectory dir
  fresh : ∀ k, v.serial ≤ k → v.item? (dir.child (ScratchFile.nameOf k)) = none

/-- The volume stays ready, and everything stays apart from the files at some paths. -/
structure Leads (v : Volume) (dir : Path) (ps : List Path) (v' : Volume) : Prop where
  ready : v'.Ready dir
  keeps : Keeps ps v v'
  serial : v.serial ≤ v'.serial

theorem Ready.leads_refl (h : v.Ready dir) (ps : List Path) : v.Leads dir ps v :=
  ⟨h, Keeps.refl v ps, Nat.le_refl _⟩

theorem Leads.trans {ps : List Path} (h : v.Leads dir ps v') (h' : v'.Leads dir ps v'') :
    v.Leads dir ps v'' :=
  ⟨h'.ready, h.keeps.trans h'.keeps, Nat.le_trans h.serial h'.serial⟩

theorem Leads.mono {ps qs : List Path} (h : v.Leads dir ps v') (hs : ps ⊆ qs) :
    v.Leads dir qs v' :=
  ⟨h.ready, h.keeps.mono hs, h.serial⟩

theorem Leads.of_cons {ps : List Path} (h : v.Leads dir (p :: ps) v') (hp : v.item? p = none) :
    v.Leads dir ps v' :=
  ⟨h.ready, h.keeps.of_cons hp, h.serial⟩

/-- Changing a file that is there keeps the volume ready. -/
theorem Ready.of_item?_eq (h : v.Ready dir) (hp : v.item? p ≠ none) (hk : Keeps [p] v v')
    (hs : v'.schedule = v.schedule) (hn : v'.serial = v.serial)
    (hi : ∀ q, q ≠ p → v'.item? q = v.item? q) : v.Leads dir [p] v' := by
  refine ⟨⟨hs.trans h.schedule, hk.hasDirectory h.directory, fun k hle => ?_⟩, hk,
    Nat.le_of_eq hn.symm⟩
  rw [hn] at hle
  have hne : dir.child (ScratchFile.nameOf k) ≠ p := by
    rintro rfl
    exact hp (h.fresh k hle)
  rw [hi _ hne, h.fresh k hle]

theorem Ready.putFile (h : v.Ready dir) (hf : v.HasFile p bytes) (bytes' : Bytes) :
    v.Leads dir [p] (v.putFile p bytes') :=
  h.of_item?_eq (by simp [hf.2]) (keeps_putFile hf.not_directory _) rfl rfl
    fun _ hq => item?_put_of_ne hq _

theorem Ready.drop (h : v.Ready dir) (hf : v.HasFile p bytes) :
    v.Leads dir [p] (v.drop p) :=
  h.of_item?_eq (by simp [hf.2]) (keeps_drop hf.not_directory) rfl rfl
    fun _ hq => item?_drop_of_ne hq

end Volume

/-! ### Reading -/

namespace Bulk

variable {v : Volume} {dir p : Path} {bytes : Bytes} {es : List Entry}

/-- The lines of a file write its entries, and each of them is one line. -/
theorem run_readLines (hs : v.schedule = []) (h : v.HasEntries p es) :
    ∃ lines, (readLines p).run.run v = (.ok lines, v) ∧ lines.filterMap Line.decode? = es ∧
      ∀ l ∈ lines, '\n' ∉ l.toList := by
  obtain ⟨bytes, hf, he⟩ := h
  rw [entriesOf, Option.map_eq_some_iff] at he
  obtain ⟨lines, hlines, hes⟩ := he
  refine ⟨lines, ?_, hes, not_mem_of_linesOf hlines⟩
  rw [run_readLines_eq hs hf, hlines]

/-- A scan visits the entries of a file in order. -/
theorem run_scan {σ : Type} (hs : v.schedule = []) (h : v.HasEntries p es)
    {visit : σ → Entry → Disk σ} {s s' : σ} {v' : Volume}
    (hv : (es.foldlM visit s).run v = (s', v')) :
    (scan p visit s).run v = ((s', .ok es.length), v') := by
  obtain ⟨lines, hlines, rfl, -⟩ := run_readLines hs h
  rw [run_scan_of_lines hlines, visits, StateT.run_map, hv]
  rfl

theorem run_readEntries (hs : v.schedule = []) (h : v.HasEntries p es) :
    (readEntries p).run.run v = (.ok es, v) := by
  obtain ⟨lines, hlines, rfl, -⟩ := run_readLines hs h
  rw [readEntries_eq]
  exact TryDisk.run_map_ok hlines

theorem run_countEntries (hs : v.schedule = []) (h : v.HasEntries p es) :
    (countEntries p).run.run v = (.ok es.length, v) := by
  obtain ⟨lines, hlines, rfl, -⟩ := run_readLines hs h
  rw [countEntries_eq]
  exact TryDisk.run_map_ok hlines

/-- A text is read line by line, and its blank lines are skipped. -/
theorem run_readLines_text {text : String} (hs : v.schedule = [])
    (h : v.HasFile p (Utf8.encode text)) :
    (readLines p).run.run v =
      (.ok ((linesOfText text).filter fun l => !Text.isBlankText l), v) := by
  rw [run_readLines_eq hs h, linesOf_encode]

/-! ### Writing -/

/-- Lines are written by opening the file and, if there are any, one write at its end. -/
theorem run_writeLines_eq (hs : v.schedule = []) (hf : v.HasFile p bytes) (lines : List String) :
    (writeLines p lines).run.run v =
      (.ok (), if lines = [] then v else v.putFile p (bytes ++ bytesOfLines lines)) := by
  rw [writeLines, TryDisk.run_bind_ok (Volume.run_touch hs hf)]
  cases lines with
  | nil => rfl
  | cons l ls => exact Volume.run_append hs hf _

theorem run_writeLines (hv : v.Ready dir) (hf : v.HasFile p bytes) (lines : List String) :
    ∃ v', (writeLines p lines).run.run v = (.ok (), v') ∧ v.Leads dir [p] v' ∧
      v'.HasFile p (bytes ++ bytesOfLines lines) := by
  refine ⟨_, run_writeLines_eq hv.schedule hf lines, ?_⟩
  split
  · rename_i hnil
    rw [hnil, bytesOfLines, List.flatMap_nil, List.append_nil]
    exact ⟨hv.leads_refl [p], hf⟩
  · exact ⟨hv.putFile hf _, hf.putFile _⟩

theorem run_append_hasFile (hv : v.Ready dir) (hf : v.HasFile p bytes) (entries : List Entry) :
    ∃ n v', (append p entries).run.run v = (.ok n, v') ∧ v.Leads dir [p] v' ∧
      v'.HasFile p (bytes ++ writeEntries entries) := by
  obtain ⟨v', hrun, hleads, hf'⟩ := run_writeLines hv hf (entries.filterMap Line.encode?)
  refine ⟨(entries.filterMap Line.encode?).length, v', ?_, hleads, hf'⟩
  rw [append, TryDisk.run_bind_ok hrun]
  rfl

theorem run_append (hv : v.Ready dir) (h : v.HasList p es) (entries : List Entry) :
    ∃ n v', (append p entries).run.run v = (.ok n, v') ∧ v.Leads dir [p] v' ∧
      v'.HasList p (es ++ entries.filter fun e => Line.isEncodable e) := by
  obtain ⟨bytes, hf, ht, he⟩ := h
  obtain ⟨n, v', hrun, hleads, hf'⟩ := run_append_hasFile hv hf entries
  exact ⟨n, v', hrun, hleads, _, hf', ht.append (terminated_writeEntries entries),
    entriesOf_append_writeEntries ht he entries⟩

theorem run_clear (hv : v.Ready dir) (h : v.HasFile p bytes) :
    ∃ v', (Volume.clear p).run.run v = (.ok (), v') ∧ v.Leads dir [p] v' ∧ v'.HasFile p [] :=
  ⟨_, Volume.run_clear hv.schedule h, hv.putFile h [], h.putFile []⟩

theorem run_extend (hv : v.Ready dir) (h : v.HasFile p bytes) (more : Bytes) :
    ∃ v', (Volume.extend p more).run.run v = (.ok (), v') ∧ v.Leads dir [p] v' ∧
      v'.HasFile p (bytes ++ more) := by
  refine ⟨_, ?_, hv.putFile h _, h.putFile _⟩
  rw [Volume.extend, TryDisk.run_bind_ok (Volume.run_touch hv.schedule h)]
  exact Volume.run_append hv.schedule h more

theorem hasList_of_hasFile_nil (h : v.HasFile p []) : v.HasList p [] :=
  ⟨[], h, terminated_nil, entriesOf_nil⟩

end Bulk

end TrieOverlay
