import TrieOverlay.Holdings
import TrieOverlay.Proofs.Bulk.List
import TrieOverlay.Proofs.Bulk.Split
import TrieOverlay.Request

/-!
# The files of a node

All files of a node are its four bulk lists and the scratch files that somebody holds.
`Volume.Inventory v dir lists held` says that no call on the volume `v` is refused, that all these
files can be read, and that no two of them are the same.  `Volume.entriesIn` is what a payload
stands for.  The lemmas are the ways in which the inventory changes hands.
-/

namespace TrieOverlay

open Volume (Keeps)

/-- The bulk lists of a node. -/
inductive Buffer where
  /-- The delivered entries. -/
  | inbound
  /-- The undelivered entries of an operation. -/
  | outbound (operation : Operation)
deriving DecidableEq, Repr

namespace Holdings

/-- The list of a buffer. -/
def list (h : Holdings) : Buffer → BulkList
  | .inbound => h.inbound
  | .outbound o => h.outbound o

/-- The holdings with another list for a buffer. -/
def setList (h : Holdings) (b : Buffer) (l : BulkList) : Holdings :=
  match b with
  | .inbound => { h with inbound := l }
  | .outbound o => h.setOutbound o l

theorem list_setList (h : Holdings) (b : Buffer) (l : BulkList) :
    (h.setList b l).list = Function.update h.list b l := by
  funext b'
  rcases b with _ | o <;> rcases b' with _ | o' <;> try cases o
  all_goals try cases o'
  all_goals simp [setList, setOutbound, list, outbound, Function.update]

@[simp] theorem scratch_setList (h : Holdings) (b : Buffer) (l : BulkList) :
    (h.setList b l).scratch = h.scratch := by
  rcases b with _ | o
  · rfl
  · cases o <;> rfl

@[simp] theorem store_setList (h : Holdings) (b : Buffer) (l : BulkList) :
    (h.setList b l).store = h.store := by
  rcases b with _ | o
  · rfl
  · cases o <;> rfl

end Holdings

/-- The file of a payload, if it is one. -/
def Payload.path? : Payload → Option Path
  | .entries _ => none
  | .file f => some f.path

namespace Volume

variable {v v' : Volume} {dir p : Path} {ps : List Path} {es : List Entry}

/-- The entries of a file, none if it cannot be read. -/
def entriesAt (v : Volume) (p : Path) : List Entry :=
  match v.content p with
  | .ok bytes => (Bulk.entriesOf bytes).getD []
  | .error _ => []

/-- The entries that a payload stands for. -/
def entriesIn (v : Volume) : Payload → List Entry
  | .entries batch => batch
  | .file f => v.entriesAt f.path

/-- Whether a payload can be read. -/
def CanRead (v : Volume) : Payload → Prop
  | .entries _ => True
  | .file f => ∃ es, v.HasEntries f.path es

theorem HasEntries.entriesAt_eq (h : v.HasEntries p es) : v.entriesAt p = es := by
  obtain ⟨bytes, hf, he⟩ := h
  simp [entriesAt, hf.content_eq, he]

theorem CanRead.hasEntries {f : ScratchFile} (h : v.CanRead (.file f)) :
    v.HasEntries f.path (v.entriesIn (.file f)) := by
  obtain ⟨es, he⟩ := h
  rwa [entriesIn, he.entriesAt_eq]

theorem Keeps.canRead {x : Payload} (h : Keeps ps v v') (hx : v.CanRead x)
    (hp : ∀ p, x.path? = some p → p ∉ ps) : v'.CanRead x := by
  cases x with
  | entries batch => trivial
  | file f =>
    obtain ⟨es, he⟩ := hx
    exact ⟨es, h.hasEntries he (hp _ rfl)⟩

theorem Keeps.entriesIn {x : Payload} (h : Keeps ps v v') (hx : v.CanRead x)
    (hp : ∀ p, x.path? = some p → p ∉ ps) : v'.entriesIn x = v.entriesIn x := by
  cases x with
  | entries batch => rfl
  | file f =>
    exact (h.hasEntries hx.hasEntries (hp _ rfl)).entriesAt_eq

/-- All files of a node: its lists and the payloads that somebody holds. -/
structure Inventory (v : Volume) (dir : Path) (lists : Buffer → BulkList) (held : List Payload) :
    Prop where
  ready : v.Ready dir
  holds : ∀ b, (lists b).Holds v (v.entriesAt (lists b).path)
  apart : ∀ b b', (lists b).path = (lists b').path → b = b'
  canRead : ∀ x ∈ held, v.CanRead x
  separate : ∀ x ∈ held, ∀ b, x.path? ≠ some (lists b).path
  nodup : (held.filterMap Payload.path?).Nodup

namespace Inventory

variable {lists : Buffer → BulkList} {held held' : List Payload} {x : Payload}
  {f : ScratchFile} {b : Buffer} {l : BulkList}

theorem perm (h : v.Inventory dir lists held) (hp : held.Perm held') :
    v.Inventory dir lists held' :=
  ⟨h.ready, h.holds, h.apart, fun x hx => h.canRead x (hp.mem_iff.2 hx),
    fun x hx => h.separate x (hp.mem_iff.2 hx), (hp.filterMap _).nodup_iff.1 h.nodup⟩

theorem entries_cons (h : v.Inventory dir lists held) (batch : List Entry) :
    v.Inventory dir lists (.entries batch :: held) :=
  ⟨h.ready, h.holds, h.apart, List.forall_mem_cons.2 ⟨trivial, h.canRead⟩,
    List.forall_mem_cons.2 ⟨by simp [Payload.path?], h.separate⟩, h.nodup⟩

/-- A payload that nobody needs any more may be forgotten. -/
theorem of_cons (h : v.Inventory dir lists (x :: held)) : v.Inventory dir lists held := by
  refine ⟨h.ready, h.holds, h.apart, (List.forall_mem_cons.1 h.canRead).2,
    (List.forall_mem_cons.1 h.separate).2, ?_⟩
  have := h.nodup
  rw [List.filterMap_cons] at this
  split at this
  · exact this
  · exact (List.nodup_cons.1 this).2

/-- Other payloads are in other files. -/
theorem path?_ne_of_cons (h : v.Inventory dir lists (.file f :: held)) (hx : x ∈ held) :
    x.path? ≠ some f.path := by
  have := h.nodup
  rw [List.filterMap_cons_some (show Payload.path? (.file f) = some f.path from rfl),
    List.nodup_cons] at this
  exact fun hp => this.1 (List.mem_filterMap.2 ⟨x, hx, hp⟩)

/-- The files other than some stay what they are. -/
theorem keep (h : v.Inventory dir lists held) (hl : v.Leads dir ps v')
    (hlists : ∀ b, (lists b).path ∉ ps) (hheld : ∀ x ∈ held, ∀ p, x.path? = some p → p ∉ ps) :
    v'.Inventory dir lists held := by
  refine ⟨hl.ready, fun b => ?_, h.apart,
    fun x hx => hl.keeps.canRead (h.canRead x hx) (hheld x hx), h.separate, h.nodup⟩
  have hb := (h.holds b).keep hl.keeps (hlists b)
  rwa [hb.file.hasEntries.entriesAt_eq]

/-- The entries of a list that stays what it is. -/
theorem entriesAt_keep (h : v.Inventory dir lists held) (hk : Keeps ps v v')
    (hb : (lists b).path ∉ ps) :
    v'.entriesAt (lists b).path = v.entriesAt (lists b).path :=
  (hk.hasEntries (h.holds b).file.hasEntries hb).entriesAt_eq

/-- New files come to somebody's hands. -/
theorem files_append (h : v.Inventory dir lists held) {lists' : Buffer → BulkList}
    (h' : v'.Inventory dir lists' held) (hpath : ∀ b, (lists' b).path = (lists b).path)
    {files : List ScratchFile} (hnodup : files.Nodup)
    (hfiles : ∀ f ∈ files, v.item? f.path = none ∧ ∃ es, v'.HasEntries f.path es) :
    v'.Inventory dir lists' (files.map .file ++ held) := by
  induction files with
  | nil => exact h'
  | cons f files ih =>
    obtain ⟨hnot, hnodup⟩ := List.nodup_cons.1 hnodup
    obtain ⟨⟨hfree, hf⟩, hfiles⟩ := List.forall_mem_cons.1 hfiles
    have hrest := ih hnodup hfiles
    refine ⟨hrest.ready, hrest.holds, hrest.apart, List.forall_mem_cons.2 ⟨hf, hrest.canRead⟩,
      List.forall_mem_cons.2 ⟨fun b hb => ?_, hrest.separate⟩, ?_⟩
    -- a list is in a file that was there, the new file was not
    · refine (h.holds b).file.hasEntries.item?_ne_none ?_
      rw [← hpath, ← Option.some.inj hb]
      exact hfree
    · rw [List.map_cons, List.cons_append,
        List.filterMap_cons_some (show Payload.path? (.file f) = some f.path from rfl),
        List.nodup_cons]
      refine ⟨fun hmem => ?_, hrest.nodup⟩
      obtain ⟨x, hx, hp⟩ := List.mem_filterMap.1 hmem
      rcases List.mem_append.1 hx with hx | hx
      · obtain ⟨g, hg, rfl⟩ := List.mem_map.1 hx
        obtain rfl : g = f := congrArg ScratchFile.mk (Option.some.inj hp)
        exact hnot hg
      · cases x with
        | entries batch => cases hp
        | file g =>
          obtain ⟨es', hg⟩ := h.canRead _ hx
          rw [Option.some.inj hp] at hg
          exact hg.item?_ne_none hfree

/-- A new file comes to somebody's hands. -/
theorem file_cons (h : v.Inventory dir lists held) (hl : v.Leads dir [] v')
    (hfree : v.item? f.path = none) (hf : v'.HasEntries f.path es) :
    v'.Inventory dir lists (.file f :: held) :=
  have hkeep := h.keep hl (fun _ => List.not_mem_nil) fun _ _ _ _ => List.not_mem_nil
  show v'.Inventory dir lists ([f].map .file ++ held) from
    h.files_append hkeep (fun _ => rfl) (by simp) (by simpa using ⟨hfree, es, hf⟩)

/-- A file goes away. -/
theorem release (h : v.Inventory dir lists (.file f :: held)) (hl : v.Leads dir [f.path] v') :
    v'.Inventory dir lists held := by
  refine h.of_cons.keep hl (fun b hb => ?_) fun x hx p hp hmem => ?_
  · have := (List.forall_mem_cons.1 h.separate).1 b
    exact this (congrArg some (List.mem_singleton.1 hb).symm)
  · rw [List.mem_singleton.1 hmem] at hp
    exact h.path?_ne_of_cons hx hp

/-- No payload is in the file of a list. -/
theorem not_mem_path (h : v.Inventory dir lists held) (hx : x ∈ held) (b : Buffer) :
    ∀ p, x.path? = some p → p ∉ [(lists b).path] := by
  intro p hxp hmem
  refine h.separate x hx b ?_
  rw [hxp, List.mem_singleton.1 hmem]

theorem path_update (hp : l.path = (lists b).path) (b' : Buffer) :
    (Function.update lists b l b').path = (lists b').path := by
  rw [Function.update_apply]
  split
  · rename_i hb
    rw [hp, hb]
  · rfl

/-- A list is written. -/
theorem setList (h : v.Inventory dir lists held) (hl : v.Leads dir [(lists b).path] v')
    (hp : l.path = (lists b).path) (hholds : l.Holds v' es) :
    v'.Inventory dir (Function.update lists b l) held := by
  have hpath := path_update hp
  refine ⟨hl.ready, fun b' => ?_, fun b₁ b₂ heq => ?_, fun x hx => ?_, fun x hx b' => ?_, h.nodup⟩
  · rw [Function.update_apply]
    split
    · rwa [hholds.file.hasEntries.entriesAt_eq]
    · rename_i hb
      have := (h.holds b').keep hl.keeps fun hmem => hb (h.apart _ _ (List.mem_singleton.1 hmem))
      rwa [this.file.hasEntries.entriesAt_eq]
  · rw [hpath, hpath] at heq
    exact h.apart _ _ heq
  · exact hl.keeps.canRead (h.canRead x hx) (h.not_mem_path hx b)
  · rw [hpath]
    exact h.separate x hx b'

theorem entriesIn_setList (h : v.Inventory dir lists held) (hk : Keeps [(lists b).path] v v')
    (hx : x ∈ held) : v'.entriesIn x = v.entriesIn x :=
  hk.entriesIn (h.canRead x hx) (h.not_mem_path hx b)

theorem entriesAt_setList (h : v.Inventory dir lists held) (hk : Keeps [(lists b).path] v v')
    (hholds : l.Holds v' es) :
    (fun b' => v'.entriesAt (Function.update lists b l b').path) =
      Function.update (fun b' => v.entriesAt (lists b').path) b es := by
  funext b'
  simp only [Function.update_apply]
  split
  · exact hholds.file.hasEntries.entriesAt_eq
  · rename_i hb
    exact h.entriesAt_keep hk fun hmem => hb (h.apart _ _ (List.mem_singleton.1 hmem))

end Inventory

end Volume

end TrieOverlay
