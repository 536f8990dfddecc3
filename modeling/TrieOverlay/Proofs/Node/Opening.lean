import TrieOverlay.Proofs.Node.View

/-!
# Opening a node

A node that is opened in an empty directory of a volume on which no call is refused is sound, and
nothing waits in it (`Node.openAt_sound`).
-/

namespace TrieOverlay

namespace Volume

variable {v : Volume} {dir p : Path} {name : String}

/-- Nothing is in a directory. -/
structure Vacant (dir : Path) (v : Volume) : Prop where
  directory : v.HasDirectory dir
  free : ∀ name below, v.item? ⟨dir.parts ++ name :: below⟩ = none

theorem Vacant.item?_child (h : v.Vacant dir) (name : String) : v.item? (dir.child name) = none :=
  h.free name []

theorem vacant_empty : Volume.empty.Vacant .root := by
  refine ⟨⟨rfl, rfl⟩, fun name below => ?_⟩
  simp [item?, Path.root, empty]

theorem run_createDirectories_child (hs : v.schedule = []) (hd : v.HasDirectory p)
    (hfree : v.item? (p.child name) = none) :
    (createDirectories (p.child name)).run.run v = (.ok (), v.put (p.child name) .directory) := by
  refine run_call hs ?_
  -- all that is on the way is there already
  have hway : ∀ ps : List Path, (∀ a ∈ ps, v.item? a = some .directory) →
      ps.foldl (fun v a => if (v.item? a).isSome then v else v.put a .directory) v = v := by
    intro ps hps
    induction ps with
    | nil => rfl
    | cons a ps ih =>
      obtain ⟨ha, hps⟩ := List.forall_mem_cons.1 hps
      rw [List.foldl_cons, ha]
      exact ih hps
  have hfind : v.find (p.child name) = .error .notFound := by
    simp [find, hd.obstacle?_child, hfree]
  have hdirectories : ∀ a ∈ (p.child name).ancestors, v.item? a = some .directory :=
    obstacle?_eq_none_iff.1 (hd.obstacle?_child name)
  simp only [createDirectoriesCall, hfind, List.foldl_append, hway _ hdirectories]
  simp [hfree]

theorem keeps_put (hfree : v.item? p = none) (item : Item) : Keeps [] v (v.put p item) := by
  intro q i hq _
  rw [item?_put_of_ne (by rintro rfl; simp [hfree] at hq)]
  exact hq

end Volume

/-- A volume on which some lists of a node in a directory were opened, and others were not. -/
structure Opened (dir : Path) (names : List String) (v : Volume) : Prop where
  ready : v.Ready (dir.child Holdings.scratchName)
  directory : v.HasDirectory dir
  opened : ∀ name ∈ names, v.HasFile (dir.child name) []
  free : ∀ name, name ≠ Holdings.scratchName → name ∉ names → v.item? (dir.child name) = none

namespace Opened

variable {v : Volume} {dir : Path} {names : List String} {name : String}

theorem child_ne_child_child (dir : Path) (name a b : String) :
    dir.child name ≠ (dir.child a).child b := by
  simp [Path.child]

theorem child_injective {a b : String} (h : dir.child a = dir.child b) : a = b := by
  simpa [Path.child] using h

/-- The scratch directory is there first. -/
theorem start (hs : v.schedule = []) (hv : v.Vacant dir) :
    Opened dir [] (v.put (dir.child Holdings.scratchName) .directory) := by
  have hkeeps := Volume.keeps_put (hv.item?_child Holdings.scratchName) .directory
  have hdir := hkeeps.hasDirectory hv.directory
  have hself := Volume.item?_put_self (v := v)
    (Volume.child_ne_root dir Holdings.scratchName) .directory
  refine ⟨⟨hs, ⟨hdir.obstacle?_child _, hself⟩, fun k _ => ?_⟩, hdir, by simp,
    fun name hname _ => ?_⟩
  · rw [Volume.item?_put_of_ne (child_ne_child_child _ _ _ _).symm]
    simpa [Path.child] using hv.free Holdings.scratchName [ScratchFile.nameOf k]
  · rw [Volume.item?_put_of_ne fun hc => hname (child_injective hc)]
    exact hv.item?_child name

/-- One more list is opened. -/
theorem openAt (h : Opened dir names v) (hscratch : name ≠ Holdings.scratchName)
    (hname : name ∉ names) :
    ∃ v', (BulkList.openAt (dir.child name)).run.run v =
        (.ok ⟨dir.child name, .first, .empty⟩, v') ∧ Opened dir (name :: names) v' := by
  have hfree := h.free name hscratch hname
  have hnot : v.item? (dir.child name) ≠ some .directory := by
    simp [hfree]
  have hreach := h.directory.obstacle?_child name
  have hkeeps : Volume.Keeps [] v (v.putFile (dir.child name) []) :=
    (Volume.keeps_putFile hnot []).of_cons hfree
  refine ⟨_, BulkList.run_openAt name h.ready.schedule h.directory
    (Volume.run_touch_new h.ready.schedule hreach hfree), ⟨h.ready.schedule,
      hkeeps.hasDirectory h.ready.directory, fun k hk => ?_⟩, hkeeps.hasDirectory h.directory,
    ?_, fun other hother hnames => ?_⟩
  · rw [Volume.putFile, Volume.item?_put_of_ne (child_ne_child_child _ _ _ _).symm]
    exact h.ready.fresh k hk
  · refine List.forall_mem_cons.2 ⟨?_, fun other hother => ?_⟩
    · exact Volume.hasFile_putFile (Volume.child_ne_root dir name) hnot hreach []
    · exact hkeeps.hasFile (h.opened other hother) List.not_mem_nil
  · rw [List.mem_cons, not_or] at hnames
    rw [Volume.putFile, Volume.item?_put_of_ne fun hc => hnames.1 (child_injective hc)]
    exact h.free other hother hnames.2

end Opened

namespace Node

/-- The names of the lists. -/
def nameOf : Buffer → String
  | .inbound => Holdings.inboundName
  | .outbound o => Holdings.outboundName o

theorem nameOf_injective : Function.Injective nameOf := by
  intro b b' h
  rcases b with _ | o <;> rcases b' with _ | o'
  · rfl
  · cases o' <;> exact absurd h (by decide)
  · cases o <;> exact absurd h (by decide)
  · cases o <;> cases o' <;> first | rfl | exact absurd h (by decide)

theorem nameOf_ne_scratch (b : Buffer) : nameOf b ≠ Holdings.scratchName := by
  rcases b with _ | o
  · decide
  · cases o <;> decide

/-- What the holdings are that are opened in an empty directory. -/
theorem run_openHoldings {v : Volume} {dir : Path} (hs : v.schedule = []) (hv : v.Vacant dir) :
    ∃ g v', (Holdings.openAt dir).run.run v = (.ok g, v') ∧
      v'.Ready g.scratch ∧ g.store = .named "canonical" ∧
      (∀ b, g.list b = ⟨dir.child (nameOf b), .first, .empty⟩) ∧
      ∀ b, v'.HasFile (dir.child (nameOf b)) [] := by
  have hfree := hv.item?_child Holdings.scratchName
  have hexists : v.exists? (dir.child Holdings.scratchName) = false := by
    simp [Volume.exists?, Volume.find, hv.directory.obstacle?_child, hfree, Except.toBool]
  have hstart := Opened.start hs hv
  obtain ⟨v₁, hrun₁, h₁⟩ := hstart.openAt (nameOf_ne_scratch .inbound) (by simp)
  obtain ⟨v₂, hrun₂, h₂⟩ := h₁.openAt (nameOf_ne_scratch (.outbound .delete)) (by decide)
  obtain ⟨v₃, hrun₃, h₃⟩ := h₂.openAt (nameOf_ne_scratch (.outbound .insert)) (by decide)
  obtain ⟨v₄, hrun₄, h₄⟩ := h₃.openAt (nameOf_ne_scratch (.outbound .update)) (by decide)
  let opened (b : Buffer) : BulkList := ⟨dir.child (nameOf b), .first, .empty⟩
  refine ⟨⟨.named "canonical", opened .inbound, opened (.outbound .delete),
    opened (.outbound .insert), opened (.outbound .update), dir.child Holdings.scratchName, .empty,
    []⟩, v₄, ?_, h₄.ready, rfl, fun b => ?_, fun b => h₄.opened _ ?_⟩
  · rw [Holdings.openAt]
    refine (TryDisk.run_bind_ok (a := v) rfl).trans ?_
    simp only [hexists]
    refine (TryDisk.run_bind_ok
      (Volume.run_createDirectories_child hs hv.directory hfree)).trans ?_
    refine (TryDisk.run_bind_ok hrun₁).trans ?_
    refine (TryDisk.run_bind_ok hrun₂).trans ?_
    refine (TryDisk.run_bind_ok hrun₃).trans ?_
    refine (TryDisk.run_bind_ok hrun₄).trans rfl
  · rcases b with _ | o
    · rfl
    · cases o <;> rfl
  · rcases b with _ | o
    · simp
    · cases o <;> simp

/-- **A node that is opened in an empty directory is sound and idle.** -/
theorem openAt_sound {v : Volume} {dir : Path} (hs : v.schedule = []) (hv : v.Vacant dir)
    (peer : LocalPeer) (keys : KeyScheme) (idlePoll : Nat) :
    ∃ n, Node.openAt peer keys idlePoll dir v = .ok n ∧ n.Sound [] ∧ n.view.Idle ∧
      n.peer = peer ∧ n.keys = keys ∧ n.view.rows = (Store.named "canonical").state := by
  obtain ⟨g, v', hrun, hready, hstore, hlist, hfile⟩ := run_openHoldings hs hv
  have hholds : ∀ b, (g.list b).Holds v' [] := fun b => by
    rw [hlist]
    exact BulkList.holds_of_hasFile_nil (hfile b)
  have hempty : ∀ b, v'.entriesAt (g.list b).path = [] := fun b =>
    (hholds b).file.hasEntries.entriesAt_eq
  let n : Node := { peer, keys, holdings := g, queues := .empty, entryFlights := .empty,
                    fileFlights := .empty, volume := v', serial := 0, isPaused := false, clock := 0,
                    idlePoll, lastRetry := none }
  have hflights : n.flights = [] := by
    simp [n, flights, InFlight.toList, InFlight.empty]
  have hpayloads : [] ++ n.payloads = [] := by
    rw [payloads, hflights]
    rfl
  refine ⟨n, ?_, ⟨⟨hready, ?_, ?_, ?_, ?_, ?_⟩, ?_⟩, ⟨rfl, ?_, hempty⟩, rfl, rfl, ?_⟩
  · rw [Node.openAt, show (Holdings.openAt dir).run v = _ from hrun]
  · intro b
    rw [hempty]
    exact hholds b
  · intro b b' hpath
    rw [hlist, hlist] at hpath
    exact nameOf_injective (Opened.child_injective hpath)
  · simp [hpayloads]
  · simp [hpayloads]
  · simp [hpayloads]
  · simp [hflights]
  · simp [view, hflights]
  · simp [view, n, hstore]

end Node

/-! ### Samples -/

namespace Sample

/-- A super peer at a path. -/
def peer (path : Key) : LocalPeer :=
  ⟨⟨⟨"peer"⟩, "localhost:1"⟩, path, true⟩

/-- An entry at a key. -/
def entry (id : String) (key : Key) : Entry :=
  ⟨⟨id⟩, key, "type", ⟨⟨"peer"⟩, "localhost:1"⟩, "item"⟩

end Sample

end TrieOverlay
