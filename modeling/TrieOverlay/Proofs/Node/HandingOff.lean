import TrieOverlay.Node.Changes
import TrieOverlay.Proofs.Bulk.Streaming
import TrieOverlay.Proofs.Node.Opening
import TrieOverlay.Proofs.Node.ScratchFiles
import TrieOverlay.Proofs.Routing.Ownership
import TrieOverlay.Proofs.Store.Deletions

/-!
# What a hand-off loses

A peer that moved hands the entries that its path does not own any more to others
(`Node.redistribute`): they are written to a scratch file, removed from the store, and the file
becomes a request to insert them.

* `Node.adds_stage`: whatever calls fail, a file is there with the entries that can be written, or
  there is none.
* `Store.Rows.Keeps.entries_delete`: the store shows the others as before, addresses included.

The file skips what cannot be written and the store does not, so nothing is lost exactly if all that
is removed can be written (`Node.redistribute_intact_iff`).
-/

namespace TrieOverlay

/-! ### The store -/

namespace Store.Rows

variable {s : Store.Rows} {m : Ledger}

/-- Deleting the entries that are picked out leaves the others, with the addresses they showed. -/
theorem Keeps.entries_delete (h : s.Keeps m) (p : Entry → Bool) :
    (s.deleteAll ((s.entries.filter p).map (·.id))).2.entries =
      s.entries.filter fun e => !p e := by
  rw [h.entries_deleteAll]
  refine List.filter_congr fun e he => ?_
  -- the identifier of an entry is that of one that is picked out only if it is picked out itself
  have hpicked : e.id ∈ (s.entries.filter p).map (·.id) ↔ p e = true := by
    rw [List.mem_map]
    constructor
    · rintro ⟨e', he', hid⟩
      obtain ⟨he', hp⟩ := List.mem_filter.1 he'
      rwa [← h.eq_of_id he' he hid]
    · intro hp
      exact ⟨e, List.mem_filter.2 ⟨he, hp⟩, rfl⟩
  simp [hpicked]

end Store.Rows

/-! ### The file -/

section File

variable {v : Volume} {dir : Path} {first : Nat} {base : Path → Option Bytes}
  {held : List ScratchFile}

/-- An empty transfer is in a new file, or no file was made. -/
theorem Transfer.adds_createIn (h : v.Adds dir first base held) :
    (createIn dir).Ends v
      (fun t v' => v'.Adds dir first base (t.file :: held) ∧ t.list.path = t.file.path ∧
        v'.bytes? t.file.path = some [])
      fun _ v' => v'.Adds dir first base held := by
  refine (ScratchFile.ends_createIn h.tree dir).bind_imp (fun _ _ hw => h.untouched hw) ?_
  rintro f v₁ ⟨k, hk, hk', hpath, hw, hb⟩
  have h₁ := h.cons hk hk' hpath hw
  refine ScratchFile.ends_orRelease ?_ fun _ _ h₂ => ScratchFile.adds_release h₂
  refine (BulkList.ends_openAt h₁.tree f.path).bind_imp (fun _ _ hw => h₁.untouched hw) ?_
  rintro l v₂ ⟨rfl, hw₂, hb₂⟩
  exact TryDisk.ends_pure ⟨h₁.write (List.mem_cons_self ..) hw₂, rfl, by rw [hb₂, hb]; rfl⟩

/-- The entries that can be written are in a new file, or no file was made. -/
theorem Node.adds_stage (h : v.Adds dir first base held) (entries : List Entry) :
    (stage dir entries).Ends v
      (fun r v' => v'.Adds dir first base (r.2.file :: held) ∧
        r.1 = (entries.filter fun e => Bulk.Line.isEncodable e).length ∧
        v'.HasEntries r.2.file.path (entries.filter fun e => Bulk.Line.isEncodable e))
      fun _ v' => v'.Adds dir first base held := by
  refine (Transfer.adds_createIn h).bind fun t v₁ ⟨h₁, hpath, hb₁⟩ => ?_
  refine ScratchFile.ends_orRelease ?_ fun _ _ h₂ => ScratchFile.adds_release h₂
  have hmem : t.file ∈ t.file :: held := List.mem_cons_self ..
  refine (BulkList.ends_tryAdd h₁.tree t.list entries).bind_imp
    (fun _ _ hw => h₁.write hmem (hpath ▸ hw)) ?_
  rintro r v₂ ⟨rfl, hw, hb⟩
  rw [hpath, hb₁] at hb
  refine TryDisk.ends_pure ⟨h₁.write hmem (hpath ▸ hw), ?_, ?_⟩
  · rw [List.length_filterMap_eq_countP, List.countP_eq_length_filter]
    simp only [Bulk.isSome_encode?_eq]
  · exact ⟨_, Volume.bytes?_eq_some_iff.1 hb, Bulk.entriesOf_writeEntries entries⟩

end File

/-! ### The whole hand-off -/

namespace Node

variable {n : Node} {m : Ledger}

/-- All that a hand-off can do. -/
theorem redistribute_cases (ht : n.volume.IsTree)
    (hfree : ∀ k, n.volume.serial ≤ k →
      n.volume.bytes? (n.holdings.scratch.child (ScratchFile.nameOf k)) = none)
    {removed : List Entry} (hremoved : n.holdings.store.foreignTo n.peer.path = removed) :
    (removed = [] ∧ n.redistribute = (.ok 0, n)) ∨
    (∃ e v, n.redistribute = (.error e, { n with volume := v }) ∧
      v.Adds n.holdings.scratch n.volume.serial n.volume.bytes? []) ∨
    ∃ f v, removed ≠ [] ∧
      n.redistribute = (.ok (removed.filter fun e => Bulk.Line.isEncodable e).length,
        ({ n with holdings := (n.holdings.remove removed).2, volume := v } : Node).submit .insert
          (.file f)) ∧
      v.Adds n.holdings.scratch n.volume.serial n.volume.bytes? [f] ∧
      v.HasEntries f.path (removed.filter fun e => Bulk.Line.isEncodable e) := by
  have hbefore : n.volume.Adds n.holdings.scratch n.volume.serial n.volume.bytes? [] :=
    .start ht hfree
  rw [redistribute, hremoved]
  by_cases hnil : removed = []
  · exact .inl ⟨hnil, by simp [hnil]⟩
  · have hstage := adds_stage hbefore removed
    rw [List.isEmpty_eq_false_iff.2 hnil, tryOnDisk, onDisk]
    rcases hrun : (stage n.holdings.scratch removed).run.run n.volume with ⟨e | ⟨k, t⟩, v⟩
    · exact .inr (.inl ⟨e, v, rfl, Disk.Ends.of_run hstage hrun⟩)
    · obtain ⟨hadds, rfl, hentries⟩ := hstage.of_ok hrun
      exact .inr (.inr ⟨t.file, v, hnil, rfl, hadds, hentries⟩)

/-- The names that a tidy node will make up are those of no file yet. -/
theorem Tidy.free {dir : Path} {hands : List Payload} (h : n.Tidy dir hands) (k : Nat)
    (hk : n.volume.serial ≤ k) :
    n.volume.bytes? (n.holdings.scratch.child (ScratchFile.nameOf k)) = none := by
  rw [h.order.scratch]
  by_contra hsome
  have hheld := (h.shelf.files ⟨_⟩ (Path.isChildOf_child _ (ScratchFile.nameOf k))).1
    (Option.isSome_iff_ne_none.2 hsome)
  obtain ⟨k', hk', hpath⟩ := h.shelf.named _ hheld
  have := ScratchFile.child_nameOf_injective hpath
  omega

/-- **A hand-off loses nothing exactly if all that it removes can be written.**  Whatever calls
fail: a hand-off that fails leaves the node as it was, and all files on its volume.  One that
succeeds leaves in the store the entries that are compatible with the path.  If it removed any, it
made one request to insert them, with a new file that has those that can be written, in order; their
number is the result, and no other file is touched.  So the file has all that was removed, and the
result is the number of these, if and only if all of it can be written; what cannot be is gone. -/
theorem redistribute_intact_iff (hm : n.holdings.store.state.Keeps m) (ht : n.volume.IsTree)
    (hfree : ∀ k, n.volume.serial ≤ k →
      n.volume.bytes? (n.holdings.scratch.child (ScratchFile.nameOf k)) = none) :
    let stored := n.holdings.store.get none
    let removed := stored.filter fun e => !e.key.isCompatibleWith n.peer.path
    (∀ e n', n.redistribute = (.error e, n') →
      n' = { n with volume := n'.volume } ∧ n'.volume.bytes? = n.volume.bytes?) ∧
    ∀ k n', n.redistribute = (.ok k, n') →
      n'.holdings.store.get none = (stored.filter fun e => e.key.isCompatibleWith n.peer.path) ∧
      (removed = [] → k = 0 ∧ n' = n) ∧
      (removed ≠ [] → ∃ f : ScratchFile,
        n'.queues = n.queues.push ⟨.ofSerial n.serial, .insert, .file f, .here⟩ ∧
        n.volume.bytes? f.path = none ∧ (∀ p ≠ f.path, n'.volume.bytes? p = n.volume.bytes? p) ∧
        n'.volume.HasEntries f.path (removed.filter fun e => Bulk.Line.isEncodable e) ∧
        k = (removed.filter fun e => Bulk.Line.isEncodable e).length ∧
        (n'.volume.HasEntries f.path removed ∧ k = removed.length ↔
          ∀ e ∈ removed, Bulk.Line.isEncodable e)) := by
  intro stored removed
  have hforeign : n.holdings.store.foreignTo n.peer.path = removed := by
    simp only [Store.foreignTo, Store.Rows.foreignTo_eq, owns_eq_isCompatibleWith]
    rfl
  have hrest : (n.holdings.store.state.deleteAll (removed.map (·.id))).2.entries =
      stored.filter fun e => e.key.isCompatibleWith n.peer.path := by
    have hdelete := hm.entries_delete fun e => !e.key.isCompatibleWith n.peer.path
    simp only [Bool.not_not] at hdelete
    exact hdelete
  rcases redistribute_cases ht hfree hforeign with
    ⟨hnil, hrun⟩ | ⟨e, v, hrun, hadds⟩ | ⟨f, v, hne, hrun, hadds, hentries⟩
  · refine ⟨fun e n' h => ?_, fun k n' h => ?_⟩ <;> rw [hrun] at h
    · cases h
    · cases h
      refine ⟨?_, fun _ => ⟨rfl, rfl⟩, fun h => absurd hnil h⟩
      rw [hnil] at hrest
      exact hrest
  · refine ⟨fun e' n' h => ?_, fun k n' h => ?_⟩ <;> rw [hrun] at h
    · cases h
      exact ⟨rfl, funext fun p => hadds.others p (by simp)⟩
    · cases h
  · refine ⟨fun e' n' h => ?_, fun k n' h => ?_⟩ <;> rw [hrun] at h
    · cases h
    · cases h
      obtain ⟨k, hk, -, hpath⟩ := hadds.named f (List.mem_singleton_self f)
      refine ⟨hrest, fun h => absurd h hne, fun _ => ⟨f, rfl, hpath ▸ hfree k hk,
        fun p hp => hadds.others p (by simpa using hp.symm), hentries, rfl, ?_⟩⟩
      have hall : (removed.filter fun e => Bulk.Line.isEncodable e) = removed ↔
          ∀ e ∈ removed, Bulk.Line.isEncodable e := List.filter_eq_self
      rw [← hall]
      constructor
      · exact fun ⟨hfile, _⟩ => hentries.eq hfile
      · intro hsame
        rw [hsame] at hentries ⊢
        exact ⟨hentries, rfl⟩

/-- Of two entries that a peer at the path 1 hands off, one has a comma in its identifier and is
gone. -/
theorem redistribute_intact_iff_of_comma :
    let entries := [Sample.entry "a,b" ⟨[false]⟩, Sample.entry "c" ⟨[true]⟩,
      Sample.entry "d" ⟨[false]⟩]
    ∃ (n n' : Node) (f : ScratchFile),
      openAt (Sample.peer ⟨[true]⟩) (.ofBits 8) 0 .root Volume.empty = .ok n ∧
      (n.insert entries false).redistribute = (.ok 1, n') ∧
      n'.holdings.store.get none = [Sample.entry "c" ⟨[true]⟩] ∧
      n'.queues = n.queues.push ⟨.ofSerial n.serial, .insert, .file f, .here⟩ ∧
      n'.volume.HasEntries f.path [Sample.entry "d" ⟨[false]⟩] := by
  intro entries
  obtain ⟨n, hopen, hpeer, hstore, hrun⟩ :
      ∃ n, openAt (Sample.peer ⟨[true]⟩) (.ofBits 8) 0 .root Volume.empty = .ok n ∧
        n.peer = Sample.peer ⟨[true]⟩ ∧ n.holdings.store = .named "canonical" ∧
        (n.insert entries false).redistribute.1 = .ok 1 :=
    ⟨_, rfl, rfl, rfl, by decide +kernel⟩
  have htidy : (n.insert entries false).Tidy .root [] :=
    (openAt_tidy Volume.isTree_empty (fun _ => rfl) hopen).insert entries false
  have hadded : (n.insert entries false).holdings.store =
      ((Store.named "canonical").perform (.add entries)).2 := by
    rw [← hstore]
    rfl
  have hkeeps := ((Store.follows_named "canonical").perform (.add entries)).2.rows
  rw [← hadded] at hkeeps
  have hstored : (n.insert entries false).holdings.store.get none =
      [Sample.entry "a,b" ⟨[false]⟩, Sample.entry "d" ⟨[false]⟩, Sample.entry "c" ⟨[true]⟩] := by
    rw [hadded]
    decide +kernel
  have hpath : (n.insert entries false).peer.path = ⟨[true]⟩ := congrArg (·.path) hpeer
  obtain ⟨-, hintact⟩ := redistribute_intact_iff hkeeps htidy.shelf.tree htidy.free
  obtain ⟨hrest, -, hmoved⟩ := hintact 1 _ (Prod.ext hrun rfl)
  rw [hstored, hpath] at hrest hmoved
  obtain ⟨f, hqueues, -, -, hentries, -⟩ := hmoved (by decide)
  exact ⟨n, _, f, hopen, Prod.ext hrun rfl, hrest, hqueues, hentries⟩

end Node

end TrieOverlay
