import TrieOverlay.Proofs.Bulk.List
import TrieOverlay.Proofs.Bulk.Recovery
import TrieOverlay.Proofs.Bulk.Unhindered
import TrieOverlay.Proofs.Signature

/-!
# A bulk list is a list

`BulkList.Call.onList` says what each call does to a plain list of entries, and what it replies.  A
bulk list on a file with encodable entries does the same (`BulkList.history_shows_list`): in every
history in which no call fails, the replies are those of the plain list, the numbers that are
remembered included, and in the end the file has the entries of the plain list.
-/

namespace TrieOverlay.BulkList

variable {l l' : BulkList} {v v' : Volume} {content content' : Option Bytes} {es : List Entry}

/-! ### Calls on a plain list -/

/-- What a call does to a plain list: its reply, in which a new file is shown as its entries, and
the list after it. -/
def Call.onList : Call → List Entry → Reply (List Entry) × List Entry
  | add entries, es => (.number entries.length, es ++ entries)
  | remove removed, es =>
    (.number (es.countP fun e => e.id ∈ removed.map (·.id)),
      es.filter fun e => e.id ∉ removed.map (·.id))
  | update updates, es =>
    (.number (es.countP fun e => e.id ∈ updates.map (·.id)),
      es.map fun e => (updates.filter (·.id = e.id)).getLast?.getD e)
  | takeAll, es => (.entries es, [])
  | takeInto _, es => (.file (if es = [] then none else some es), [])
  | clear, _ => (.done, [])
  | read below, es | get below, es =>
    (.entries (es.filter fun e => below.all (·.isPrefixOf e.key)), es)
  | count, es => (.number es.length, es)
  | isEmpty, es => (.flag (es = []), es)
  | reopen, es => (.done, es)

/-- What some calls reply on a plain list, and the list after them. -/
def Call.allOnList : List Call → List Entry → List (Reply (List Entry)) × List Entry
  | [], es => ([], es)
  | c :: cs, es =>
    let (r, es) := c.onList es
    let (rs, es) := allOnList cs es
    (r :: rs, es)

/-- Whether the entries that a call brings can be written. -/
def Call.Encodable : Call → Prop
  | add entries | update entries => ∀ e ∈ entries, Bulk.Line.isEncodable e
  | _ => True

/-- An event is a call that was done and replied like a plain list. -/
def Event.Shows (event : Event) (r : Reply (List Entry)) : Prop :=
  ∃ c reply content, event = .done c reply content ∧
    reply.map (fun file => file.bind Bulk.entriesOf) = r.map some

/-! ### The list that a file holds -/

/-- A list on a file with some bytes stands for some entries: the bytes hold them, all of them can
be written, and what is remembered is their number. -/
structure Lists (l : BulkList) (content : Option Bytes) (es : List Entry) : Prop where
  terminated : Bulk.Terminated (content.getD [])
  entries : Bulk.entriesAt content = some es
  encodable : ∀ e ∈ es, Bulk.Line.isEncodable e
  counted : l.counted.Follows l.signature es.length

theorem filter_isEncodable (h : ∀ e ∈ es, Bulk.Line.isEncodable e) :
    (es.filter fun e => Bulk.Line.isEncodable e) = es :=
  List.filter_eq_self.2 h

/-- Encodable entries that are written are read back. -/
theorem entriesAt_writeEntries (h : ∀ e ∈ es, Bulk.Line.isEncodable e) :
    Bulk.entriesAt (some (Bulk.writeEntries es)) = some es := by
  rw [Bulk.entriesAt, Option.getD_some, Bulk.entriesOf_writeEntries, filter_isEncodable h]

/-- A mutation gives a list a new signature, so nothing wrong is remembered. -/
theorem Lists.renewed (h : l.Lists content es) {es' : List Entry}
    (hterminated : Bulk.Terminated (content'.getD []))
    (hentries : Bulk.entriesAt content' = some es')
    (hencodable : ∀ e ∈ es', Bulk.Line.isEncodable e) : l.renewed.Lists content' es' :=
  ⟨hterminated, hentries, hencodable, h.counted.next es'.length⟩

theorem Lists.written (h : l.Lists content es) {es' : List Entry}
    (hencodable : ∀ e ∈ es', Bulk.Line.isEncodable e) :
    l.renewed.Lists (some (Bulk.writeEntries es')) es' :=
  h.renewed (Bulk.terminated_writeEntries es') (entriesAt_writeEntries hencodable) hencodable

theorem Lists.emptied (h : l.Lists content es) : l.renewed.Lists (some []) [] :=
  h.renewed Bulk.terminated_nil Bulk.entriesOf_nil (by simp)

theorem length_filterMap_encode? (h : ∀ e ∈ es, Bulk.Line.isEncodable e) :
    (es.filterMap Bulk.Line.encode?).length = es.length := by
  rw [List.length_filterMap_eq_countP, List.countP_eq_length]
  exact fun e he => by simp [Bulk.Line.encode?, h e he]

/-! ### Edits -/

/-- What an edit comes to that leaves entries that can be written, and leaves everything if it
touches nothing. -/
theorem Lists.editOutcome (h : l.Lists content es) (edit : List Entry → Nat × List Entry)
    (hencodable : ∀ e ∈ (edit es).2, Bulk.Line.isEncodable e)
    (hsame : (edit es).1 = 0 → (edit es).2 = es) :
    ∃ l' content', l.editOutcome content edit = some (.number (edit es).1, l', content') ∧
      l'.Lists content' (edit es).2 := by
  refine ⟨_, _, by rw [BulkList.editOutcome, h.entries]; rfl, ?_⟩
  split
  · exact h.written hencodable
  · rename_i htouched
    have hedit := hsame (Nat.eq_zero_of_not_pos htouched)
    exact h.renewed h.terminated (by rw [hedit]; exact h.entries) hencodable

theorem fst_withoutIds (ids : List EntryId) (es : List Entry) :
    (withoutIds ids es).1 = es.countP fun e => e.id ∈ ids := by
  have hsplit := List.length_eq_countP_add_countP (fun e : Entry => decide (e.id ∈ ids)) (l := es)
  have hkept : (es.filter fun e => !ids.contains e.id).length =
      es.countP fun e => ¬decide (e.id ∈ ids) := by
    rw [List.countP_eq_length_filter]
    congr 1
    simp
  rw [withoutIds, hkept]
  omega

theorem Lists.outcome_remove (h : l.Lists content es) (removed : List Entry) :
    ∃ l' content', (Call.remove removed).outcome l content =
        some (.number (es.countP fun e => e.id ∈ removed.map (·.id)), l', content') ∧
      l'.Lists content' (es.filter fun e => e.id ∉ removed.map (·.id)) := by
  have hkept : (withoutIds (removed.map (·.id)) es).2 =
      es.filter fun e => e.id ∉ removed.map (·.id) := by
    simp only [withoutIds, List.contains_eq_mem, decide_not]
  rw [← fst_withoutIds, ← hkept]
  refine h.editOutcome (withoutIds (removed.map (·.id))) (fun e he => ?_) fun hnone => ?_
  · rw [hkept] at he
    exact h.encodable e (List.mem_filter.1 he).1
  · rw [fst_withoutIds, List.countP_eq_zero] at hnone
    rw [hkept]
    exact List.filter_eq_self.2 fun e he => by simpa using hnone e he

theorem Lists.outcome_update (h : l.Lists content es) {updates : List Entry}
    (hupdates : ∀ e ∈ updates, Bulk.Line.isEncodable e) :
    ∃ l' content', (Call.update updates).outcome l content =
        some (.number (es.countP fun e => e.id ∈ updates.map (·.id)), l', content') ∧
      l'.Lists content' (es.map fun e => (updates.filter (·.id = e.id)).getLast?.getD e) := by
  have hcount : (withUpdates updates es).1 = es.countP fun e => e.id ∈ updates.map (·.id) := by
    rw [withUpdates, List.countP_eq_length_filter]
    simp only [isSome_lastWithId?]
  have hupdated : (withUpdates updates es).2 =
      es.map fun e => (updates.filter (·.id = e.id)).getLast?.getD e := by
    simp only [withUpdates, lastWithId?_eq]
  rw [← hcount, ← hupdated]
  refine h.editOutcome (withUpdates updates) (fun e he => ?_) fun hnone => ?_
  · obtain ⟨old, hold, rfl⟩ := List.mem_map.1 he
    cases hlast : lastWithId? updates old.id with
    | none => exact h.encodable old hold
    | some new => exact hupdates new (mem_of_lastWithId? hlast)
  · rw [hcount, List.countP_eq_zero] at hnone
    refine (List.map_congr_left fun e he => ?_).trans (List.map_id es)
    have hlast : lastWithId? updates e.id = none := by
      rw [← Option.not_isSome_iff_eq_none, isSome_lastWithId?]
      exact hnone e he
    rw [hlast]
    rfl

/-! ### Calls -/

theorem Lists.countOutcome (h : l.Lists content es) :
    ∃ l', l.countOutcome content = some (es.length, l') ∧ l'.Lists content es := by
  rw [BulkList.countOutcome, Memo.fetch]
  cases hlookup : l.counted.lookup? l.signature with
  | some n =>
    obtain rfl := h.counted.right n hlookup
    exact ⟨l, rfl, h⟩
  | none =>
    refine ⟨{ l with counted := ⟨some (l.signature, es.length)⟩ }, by rw [h.entries]; rfl, ?_⟩
    exact ⟨h.terminated, h.entries, h.encodable, Memo.follows_mk _ _⟩

/-- A call on a file that holds a list replies as on the list, and leaves a file that holds the
list that it leaves. -/
theorem Lists.outcome (h : l.Lists content es) {c : Call} (hc : c.Encodable) :
    ∃ reply l' content', c.outcome l content = some (reply, l', content') ∧
      reply.map (fun file => file.bind Bulk.entriesOf) = (c.onList es).1.map some ∧
      l'.Lists content' (c.onList es).2 := by
  cases c with
  | add entries =>
    refine ⟨_, _, _, rfl, ?_, ?_⟩
    · rw [length_filterMap_encode? hc]
      rfl
    · refine h.renewed (h.terminated.append (Bulk.terminated_writeEntries _)) ?_ ?_
      · rw [Bulk.entriesAt, Option.getD_some,
          Bulk.entriesOf_append_writeEntries h.terminated h.entries, filter_isEncodable hc]
        rfl
      · exact fun e he => (List.mem_append.1 he).elim (h.encodable e) (hc e)
  | remove removed =>
    obtain ⟨l', content', houtcome, hlists⟩ := h.outcome_remove removed
    exact ⟨_, l', content', houtcome, rfl, hlists⟩
  | update updates =>
    obtain ⟨l', content', houtcome, hlists⟩ := h.outcome_update hc
    exact ⟨_, l', content', houtcome, rfl, hlists⟩
  | takeAll => exact ⟨_, _, _, by rw [Call.outcome, h.entries]; rfl, rfl, h.emptied⟩
  | takeInto dir =>
    cases es with
    | nil => exact ⟨_, _, _, by rw [Call.outcome, h.entries]; rfl, rfl, h⟩
    | cons e es =>
      refine ⟨_, _, _, by rw [Call.outcome, h.entries]; rfl, ?_, h.emptied⟩
      have hread := entriesAt_writeEntries h.encodable
      simpa [Reply.map, Call.onList, Bulk.entriesAt] using hread
  | clear => exact ⟨_, _, _, rfl, rfl, h.emptied⟩
  | read below => exact ⟨_, _, _, by rw [Call.outcome, h.entries]; rfl, rfl, h⟩
  | get below => exact ⟨_, _, _, by rw [Call.outcome, h.entries]; rfl, rfl, h⟩
  | count =>
    obtain ⟨l', hcount, hlists⟩ := h.countOutcome
    exact ⟨_, _, _, by rw [Call.outcome, hcount]; rfl, rfl, hlists⟩
  | isEmpty =>
    obtain ⟨l', hcount, hlists⟩ := h.countOutcome
    refine ⟨_, _, _, by rw [Call.outcome, hcount]; rfl, ?_, hlists⟩
    cases es <;> rfl
  | reopen =>
    exact ⟨_, _, _, rfl, rfl, h.terminated, h.entries, h.encodable, Memo.follows_empty _ _⟩

/-! ### Histories -/

/-- A file that is there is there after a call that succeeds. -/
theorem isSome_of_outcome {c : Call} {reply : Reply (Option Bytes)}
    (h : c.outcome l content = some (reply, l', content')) (hsome : content.isSome) :
    content'.isSome := by
  have hedit : ∀ edit, l.editOutcome content edit = some (reply, l', content') →
      content'.isSome := by
    intro edit hedit
    obtain ⟨es, -, hes⟩ := Option.map_eq_some_iff.1 hedit
    rw [Prod.mk.injEq, Prod.mk.injEq] at hes
    rw [← hes.2.2]
    split
    · rfl
    · exact hsome
  cases c with
  | remove removed => exact hedit (withoutIds (removed.map Entry.id)) h
  | update updates => exact hedit (withUpdates updates) h
  | add entries =>
    cases h
    rfl
  | clear =>
    cases h
    rfl
  | reopen =>
    cases h
    rfl
  | takeInto dir =>
    obtain ⟨es, -, hes⟩ := Option.map_eq_some_iff.1 h
    split at hes
    · cases hes
      exact hsome
    · cases hes
      rfl
  | takeAll =>
    obtain ⟨es, -, hes⟩ := Option.map_eq_some_iff.1 h
    cases hes
    rfl
  | read below | get below | count | isEmpty =>
    obtain ⟨es, -, hes⟩ := Option.map_eq_some_iff.1 h
    cases hes
    exact hsome

/-- A history in which no call fails replies as the plain list does. -/
theorem Call.ends_history_of_done {cs : List Call} (hcs : ∀ c ∈ cs, c.Encodable) (ht : v.IsTree)
    (hl : v.Avoids l.path) (h : l.Lists (v.bytes? l.path) es) :
    (Call.history cs l).Ends v fun r v' => (∀ event ∈ r.1, event.isDone) →
      List.Forall₂ Event.Shows r.1 (Call.allOnList cs es).1 ∧
        r.2.Lists (v'.bytes? l.path) (Call.allOnList cs es).2 := by
  induction cs generalizing l v es with
  | nil => exact Disk.ends_pure fun _ => ⟨.nil, h⟩
  | cons c cs ih =>
    obtain ⟨hc, hcs⟩ := List.forall_mem_cons.1 hcs
    obtain ⟨reply, l₁, content, houtcome, hreply, hlists⟩ := h.outcome hc
    refine (c.ends_perform ht hl).bind fun r v₁ hended => Disk.Ends.bind_get ?_
    obtain ⟨result, l₂⟩ := r
    have hpath : l₂.path = l.path := hended.path
    cases result with
    | error e =>
      have hfailed : (Event.ofCall c l.path (.error e, l₂) v₁).isDone = false := by
        simp only [Event.ofCall]
        split <;> rfl
      have hrest : (Call.history cs l₂).Ends v₁ fun _ _ => True := trivial
      refine hrest.bind fun rest v₂ _ => Disk.ends_pure fun hdone => ?_
      rw [hdone _ (List.mem_cons_self ..)] at hfailed
      cases hfailed
    | ok a =>
      have hok := hended.ok a rfl
      rw [houtcome, Option.some.injEq, Prod.mk.injEq, Prod.mk.injEq] at hok
      obtain ⟨rfl, rfl, rfl⟩ := hok
      have hl₁ : v₁.Avoids l₁.path := fun dir k hk =>
        hpath ▸ hl dir k (Nat.le_trans hended.serial hk)
      rw [← hpath] at hlists
      refine (ih hcs hended.tree hl₁ hlists).bind fun rest v₂ hrest =>
        Disk.ends_pure fun hdone => ?_
      obtain ⟨-, hdone⟩ := List.forall_mem_cons.1 hdone
      obtain ⟨hshows, hlast⟩ := hrest hdone
      rw [hpath] at hlast
      exact ⟨.cons ⟨_, _, _, rfl, hreply⟩ hshows, hlast⟩

/-- If nothing is in the way, no call of a history fails. -/
theorem Call.ends_history_of_unhindered {cs : List Call} {dir : Path} {ps : List Path}
    (hcs : ∀ c ∈ cs, c.Encodable ∧ c.StaysIn dir) (ht : v.IsTree) (hl : v.Avoids l.path)
    (h : l.Lists (v.bytes? l.path) es) (hu : v.Unhindered dir ps) (hp : l.path ∈ ps)
    (hs : Bulk.stagingPath l.path ∈ ps) (hfile : (v.bytes? l.path).isSome) :
    (Call.history cs l).Ends v fun r _ => ∀ event ∈ r.1, event.isDone := by
  induction cs generalizing l v es with
  | nil => exact Disk.ends_pure (by simp)
  | cons c cs ih =>
    obtain ⟨⟨hc, hstays⟩, hcs⟩ := List.forall_mem_cons.1 hcs
    obtain ⟨reply, l₁, content, houtcome, -, hlists⟩ := h.outcome hc
    obtain ⟨bytes, hbytes⟩ := Option.isSome_iff_exists.1 hfile
    have hf := Bulk.hasEntries_of_bytes? hbytes h.entries
    have hperform : (c.perform l).Ends v fun r v' =>
        c.Ended l v r v' ∧ (∃ a, r.1 = .ok a) ∧ v'.Unhindered dir ps :=
      ⟨c.ends_perform ht hl, c.succeeds hstays ht hu hp hs hf⟩
    refine hperform.bind fun r v₁ ⟨hended, ⟨a, ha⟩, hu₁⟩ => Disk.Ends.bind_get ?_
    obtain ⟨result, l₂⟩ := r
    obtain rfl : result = .ok a := ha
    have hpath : l₂.path = l.path := hended.path
    have hok := hended.ok a rfl
    rw [houtcome, Option.some.injEq, Prod.mk.injEq, Prod.mk.injEq] at hok
    obtain ⟨rfl, rfl, rfl⟩ := hok
    have hfile₁ := isSome_of_outcome houtcome hfile
    have hl₁ : v₁.Avoids l₁.path := fun dir k hk =>
      hpath ▸ hl dir k (Nat.le_trans hended.serial hk)
    rw [← hpath] at hlists hfile₁
    refine (ih hcs hended.tree hl₁ hlists hu₁ (hpath ▸ hp) (hpath ▸ hs) hfile₁).bind
      fun rest v₂ hrest => Disk.ends_pure ?_
    exact List.forall_mem_cons.2 ⟨rfl, hrest⟩

/-- A bulk list is a list: if no call fails, every call replies as on a plain list, and in the end
the file has the entries of the plain list and what is remembered is their number.  And unless
something is in the way no call fails. -/
theorem history_shows_list {cs : List Call} (hcs : ∀ c ∈ cs, c.Encodable) (ht : v.IsTree)
    (hl : v.Avoids l.path) (h : l.Lists (v.bytes? l.path) es) :
    (Call.history cs l).Ends v fun r v' =>
      ((∀ event ∈ r.1, event.isDone) →
        List.Forall₂ Event.Shows r.1 (Call.allOnList cs es).1 ∧
          r.2.Lists (v'.bytes? l.path) (Call.allOnList cs es).2) ∧
      ∀ dir, v.Unhindered dir [l.path, Bulk.stagingPath l.path] → (v.bytes? l.path).isSome →
        (∀ c ∈ cs, c.StaysIn dir) → ∀ event ∈ r.1, event.isDone := by
  refine ⟨Call.ends_history_of_done hcs ht hl h, fun dir hu hfile hstays => ?_⟩
  exact Call.ends_history_of_unhindered (fun c hc => ⟨hcs c hc, hstays c hc⟩) ht hl h hu
    (List.mem_cons_self ..) (by simp) hfile

/-- An entry that is added twice, updated, moved into a file and looked for. -/
theorem history_shows_list_of_move :
    let l : BulkList := ⟨Path.root.child "list.csv", .first, .empty⟩
    let v : Volume := Volume.empty.putFile l.path []
    let old : Entry := ⟨⟨"a"⟩, ⟨[true]⟩, "type", ⟨⟨"peer"⟩, "localhost:1"⟩, "old"⟩
    let new : Entry := ⟨⟨"a"⟩, ⟨[false]⟩, "type", ⟨⟨"peer"⟩, "localhost:1"⟩, "new"⟩
    let cs : List Call := [.add [old, old], .count, .update [old, new], .takeInto .root, .isEmpty]
    (Call.history cs l).Ends v fun r v' =>
      List.Forall₂ Event.Shows r.1
          [.number 2, .number 2, .number 2, .file (some [new, new]), .flag true] ∧
        r.2.Lists (v'.bytes? l.path) [] := by
  intro l v old new cs
  have htree : v.IsTree := Volume.isTree_empty.putFile (by decide) (by decide) _
  have hl : v.Avoids l.path := Volume.avoids_child (by decide) v .root
  have hlists : l.Lists (v.bytes? l.path) [] := by
    rw [show v.bytes? l.path = some [] by decide]
    exact ⟨Bulk.terminated_nil, Bulk.entriesOf_nil, by simp, Memo.follows_empty _ _⟩
  have hu : v.Unhindered .root [l.path, Bulk.stagingPath l.path] := by
    refine ⟨rfl, ⟨by decide, by decide⟩, by decide, fun k hk => ⟨?_, ?_⟩⟩
    · refine (Volume.item?_put_of_ne (hl .root k hk).symm _).trans ?_
      simp [Volume.item?, Volume.child_ne_root, Volume.empty]
    · have hstaging : v.Avoids (Path.root.child "list.rewrite") :=
        Volume.avoids_child (by decide) v .root
      rw [show Bulk.stagingPath l.path = Path.root.child "list.rewrite" by decide]
      simp [(hl .root k hk).symm, (hstaging .root k hk).symm]
  have hold : Bulk.Line.isEncodable old = true := by decide
  have hnew : Bulk.Line.isEncodable new = true := by decide
  have hcs : ∀ c ∈ cs, c.Encodable := by
    simp [cs, Call.Encodable, hold, hnew]
  have hstays : ∀ c ∈ cs, c.StaysIn .root := by
    simp [cs, Call.StaysIn]
  obtain ⟨hshows, hdone⟩ := history_shows_list hcs htree hl hlists
  exact hshows (hdone .root hu (by decide) hstays)

end TrieOverlay.BulkList
