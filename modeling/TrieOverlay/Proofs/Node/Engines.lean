import TrieOverlay.Proofs.Node.Courses
import TrieOverlay.Proofs.Node.Opening

/-!
# Batches in memory and batches in files

A request with a batch in memory and one with the same batch in a file are served alike, by
different parts of a node.

`Follows` says that a node with payloads of one kind is where a course is: its jobs are the acts
that are left, its slips say what the messages of the course say, and what is in flight is what is
awaited.  `Follows.answer` and `Follows.perform` say that an answer and a job take it to the next
place of the course; so two nodes on one course stay on one course (`Follows.works`).

* `Node.served_alike`: batches in memory and batches in files lead to the same messages, to the same
  rows, lists and requests, and leave as many messages in flight.
-/

namespace TrieOverlay

/-! ### Following a course -/

/-- Who handles batches in memory or in files. -/
def engineOf (inFile : Bool) : Engine :=
  if inFile then .files else .entries

theorem Payload.engine_eq (x : Payload) : x.engine = engineOf x.isFile := by
  cases x <;> rfl

/-- The name of the message at a place. -/
def nameAt (log : List Slip) (place : Nat) : MessageId :=
  ((log.map Slip.name)[place]?).getD ⟨""⟩

/-- The message in flight that is awaited at a place. -/
def Awaited.carried (inFile : Bool) (log : List Slip) (a : Awaited) : Carried :=
  ⟨engineOf inFile, nameAt log a.place, a.operation, a.entries⟩

/-- A node with payloads in memory or in files follows a course.  The messages of the course have
names that were made up after the first `start` names, those that were in flight before have some of
these. -/
structure Follows (inFile : Bool) (start : Nat) (acts : List Act) (c : Course) (js : List Job)
    (n : Node) (log : List Slip) : Prop where
  sound : n.Sound (handsOf js)
  duties : js.map (·.duty n) = acts.map (Act.duty inFile)
  view_eq : n.view = c.view.tracking (c.awaited.map (Awaited.carried inFile log) : List Carried)
  letters : log.map Slip.letter = c.letters
  places : ∀ a ∈ c.awaited, a.place < log.length
  senders : ∀ s ∈ log, s.dispatch.sender = engineOf inFile
  names : (log.map Slip.name).Nodup
  start_le : start ≤ n.serial
  fresh : ∀ s ∈ log, ∃ k, start ≤ k ∧ k < n.serial ∧ s.name = .ofSerial k
  before : ∀ m ∈ c.view.flying, ∃ k < start, m.id = .ofSerial k

namespace Follows

variable {inFile : Bool} {start : Nat} {acts acts' : List Act} {c : Course} {js js' : List Job}
  {n n' : Node} {log : List Slip} {s : Slip} {i : Nat} {a : Awaited}

theorem nameAt_eq (hi : i < log.length) : nameAt log i = log[i].name := by
  rw [nameAt, List.getElem?_eq_getElem (by rwa [List.length_map]), List.getElem_map]
  rfl

theorem nameAt_append (hi : i < log.length) (s : Slip) : nameAt (log ++ [s]) i = nameAt log i := by
  rw [nameAt, nameAt, List.map_append, List.getElem?_append_left (by rwa [List.length_map])]

theorem nameAt_length (log : List Slip) (s : Slip) : nameAt (log ++ [s]) log.length = s.name := by
  rw [nameAt, List.map_append, List.map_singleton]
  have hlength : log.length = (log.map Slip.name).length := (List.length_map ..).symm
  rw [hlength, List.getElem?_concat_length]
  rfl

theorem nameAt_inj (h : Follows inFile start acts c js n log) {j : Nat} (hi : i < log.length)
    (hj : j < log.length) (hname : nameAt log i = nameAt log j) : i = j := by
  rw [nameAt_eq hi, nameAt_eq hj] at hname
  have hi' : i < (log.map Slip.name).length := by rwa [List.length_map]
  have hj' : j < (log.map Slip.name).length := by rwa [List.length_map]
  have heq : (log.map Slip.name)[i] = (log.map Slip.name)[j] := by
    rwa [List.getElem_map, List.getElem_map]
  exact h.names.getElem_inj_iff.1 heq

/-- A message that was in flight before has another name. -/
theorem name_ne_before (h : Follows inFile start acts c js n log) (hs : s ∈ log) {m : Carried}
    (hm : m ∈ c.view.flying) : m.id ≠ s.name := by
  obtain ⟨k, hk, -, hname⟩ := h.fresh s hs
  obtain ⟨k', hk', hname'⟩ := h.before m hm
  intro hc
  rw [hname, hname'] at hc
  have heq := Ident.ofSerial_injective hc
  omega

/-- What is left to show of a step that sends nothing. -/
theorem of_sound (h : Follows inFile start acts c js n log) {c' : Course}
    (hsound : n'.Sound (handsOf js')) (hserial : n.serial ≤ n'.serial)
    (hduties : js'.map (·.duty n') = acts'.map (Act.duty inFile))
    (hview : n'.view =
      c'.view.tracking (c'.awaited.map (Awaited.carried inFile log) : List Carried))
    (hletters : c'.letters = c.letters) (hplaces : c'.awaited ⊆ c.awaited)
    (hflying : c'.view.flying = c.view.flying) : Follows inFile start acts' c' js' n' log := by
  refine ⟨hsound, hduties, hview, h.letters.trans hletters.symm,
    fun a ha => h.places a (hplaces ha), h.senders, h.names, h.start_le.trans hserial,
    fun s hs => ?_, hflying ▸ h.before⟩
  obtain ⟨k, hk, hlt, hname⟩ := h.fresh s hs
  exact ⟨k, hk, Nat.lt_of_lt_of_le hlt hserial, hname⟩

theorem flying_eq (h : Follows inFile start acts c js n log) :
    n.view.flying =
      c.view.flying + (c.awaited.map (Awaited.carried inFile log) : List Carried) := by
  rw [h.view_eq]
  rfl

theorem carried_mem (h : Follows inFile start acts c js n log) (ha : a ∈ c.awaited) :
    a.carried inFile log ∈ n.view.flying := by
  rw [h.flying_eq]
  exact Multiset.mem_add.2 (Or.inr (Multiset.mem_coe.2 (List.mem_map_of_mem ha)))

/-- A message that is awaited at a place has the name of the message there, and no other has. -/
theorem carried_iff (h : Follows inFile start acts c js n log) (hs : log[i]? = some s)
    (ha : a ∈ c.awaited) : s.Names (a.carried inFile log) ↔ a.place = i := by
  obtain ⟨hi, rfl⟩ := List.getElem?_eq_some_iff.1 hs
  have hsender : engineOf inFile = log[i].dispatch.sender :=
    (h.senders _ (List.getElem_mem hi)).symm
  refine ⟨fun hc => h.nameAt_inj (h.places a ha) hi (hc.2.trans (nameAt_eq hi).symm), ?_⟩
  rintro rfl
  exact ⟨hsender, nameAt_eq hi⟩

/-- What is in flight when a message lands that was sent is what is awaited at other places. -/
theorem flying_of_landing (h : Follows inFile start acts c js n log) (hs : log[i]? = some s)
    {m : Carried} {rest : Multiset Carried} (hm : n.view.flying = m ::ₘ rest)
    (hnames : s.Names m) (hrest : ∀ m' ∈ rest, ¬s.Names m') :
    rest = c.view.flying +
      ((c.awaited.filter (·.place ≠ i)).map (Awaited.carried inFile log) : List Carried) := by
  have hold : c.view.flying.filter (¬s.Names ·) = c.view.flying :=
    Multiset.filter_eq_self.2 fun m' hm' hc =>
      h.name_ne_before (List.mem_of_getElem? hs) hm' hc.2
  have hnew : (c.awaited.map (Awaited.carried inFile log)).filter (¬s.Names ·) =
      (c.awaited.filter (·.place ≠ i)).map (Awaited.carried inFile log) := by
    rw [List.filter_map]
    refine congrArg _ (List.filter_congr fun a ha => ?_)
    exact decide_eq_decide.2 (not_congr (h.carried_iff hs ha))
  calc rest = rest.filter (¬s.Names ·) := (Multiset.filter_eq_self.2 hrest).symm
    _ = n.view.flying.filter (¬s.Names ·) := by
      rw [hm, Multiset.filter_cons_of_neg rest (not_not_intro hnames)]
    _ = _ := by rw [h.flying_eq, Multiset.filter_add, hold, Multiset.filter_coe, hnew]

/-- A message that lands and was sent is awaited at its place. -/
theorem awaited_of_landing (h : Follows inFile start acts c js n log) (hs : log[i]? = some s)
    {m : Carried} {rest : Multiset Carried} (hm : n.view.flying = m ::ₘ rest)
    (hnames : s.Names m) (hrest : ∀ m' ∈ rest, ¬s.Names m') :
    ∃ t, c.awaited.find? (·.place = i) = some t ∧ m = t.carried inFile log := by
  have hflying : m ∈ n.view.flying := hm ▸ Multiset.mem_cons_self m rest
  rw [h.flying_eq, Multiset.mem_add] at hflying
  rcases hflying with hold | hnew
  · exact absurd hnames.2 (h.name_ne_before (List.mem_of_getElem? hs) hold)
  · obtain ⟨a, ha, rfl⟩ := List.mem_map.1 (Multiset.mem_coe.1 hnew)
    have hsome : (c.awaited.find? (·.place = i)).isSome :=
      List.find?_isSome.2 ⟨a, ha, decide_eq_true ((h.carried_iff hs ha).1 hnames)⟩
    obtain ⟨t, ht⟩ := Option.isSome_iff_exists.1 hsome
    refine ⟨t, ht, ?_⟩
    -- only one message in flight has the name
    have htmem : t ∈ c.awaited := List.mem_of_find?_eq_some ht
    have htplace : t.place = i := by simpa using List.find?_some ht
    have htflying := h.carried_mem htmem
    rw [hm, Multiset.mem_cons] at htflying
    rcases htflying with heq | hother
    · exact heq.symm
    · exact absurd ((h.carried_iff hs htmem).2 htplace) (hrest _ hother)

/-- An answer is a report on the awaited message at its place, if there is one. -/
theorem answer (h : Follows inFile start acts c js n log) (hs : log[i]? = some s) (ok : Bool) :
    Follows inFile start acts (c.answer (i, ok)) js
      (n.take (.report s.dispatch.sender s.name ok)) log := by
  have hmem : s ∈ log := List.mem_of_getElem? hs
  obtain ⟨⟨v', hy⟩, htakes⟩ :=
    h.sound.take (c := .report s.dispatch.sender s.name ok) trivial
  have hduties : js.map (·.duty (n.take (.report s.dispatch.sender s.name ok))) =
      acts.map (Act.duty inFile) := (Node.map_duty_congr hy.kept_eq).trans h.duties
  rcases htakes.report_cases with ⟨hnone, hsame⟩ | ⟨m, rest, hm, hsender, hname, hrest, hsettled⟩
  · have hfind : c.awaited.find? (·.place = i) = none := by
      refine List.find?_eq_none.2 fun a ha hplace => ?_
      refine hnone _ (h.carried_mem ha) ((h.carried_iff hs ha).2 ?_)
      simpa using hplace
    simp only [Course.answer, hfind]
    exact h.of_sound hy.sound hy.serial_le hduties (hsame.trans h.view_eq) rfl
      (List.Subset.refl _) rfl
  · obtain ⟨t, hfind, rfl⟩ := h.awaited_of_landing hs hm ⟨hsender, hname⟩ hrest
    have hflying := h.flying_of_landing hs hm ⟨hsender, hname⟩ hrest
    simp only [Course.answer, hfind]
    refine h.of_sound hy.sound hy.serial_le hduties ?_ rfl (List.filter_subset_self ..)
      (View.settle_flying ..)
    rw [hsettled, hflying, ← View.settle_tracking, h.view_eq]
    rfl

/-- Answers are reports on awaited messages. -/
theorem answers (h : Follows inFile start acts c js n log) (as : List (Nat × Bool)) :
    Follows inFile start acts (as.foldl Course.answer c) js
      ((reportsOn log as).foldl Node.take n) log := by
  induction as generalizing c n with
  | nil => exact h
  | cons a as ih =>
    obtain ⟨i, ok⟩ := a
    cases hs : log[i]? with
    | none =>
      have hfind : c.awaited.find? (·.place = i) = none := by
        refine List.find?_eq_none.2 fun a ha hplace => ?_
        have hlt := h.places a ha
        have hle := List.getElem?_eq_none_iff.1 hs
        have heq : a.place = i := by simpa using hplace
        omega
      have hsame : c.answer (i, ok) = c := by simp only [Course.answer, hfind]
      rw [reportsOn, List.filterMap_cons_none (by simp [hs]), List.foldl_cons, hsame]
      exact ih h
    | some s =>
      rw [reportsOn, List.filterMap_cons_some (b := .report s.dispatch.sender s.name ok)
        (by simp [hs]), List.foldl_cons, List.foldl_cons]
      exact ih (h.answer hs ok)

/-- What is left to show when a message was sent. -/
theorem extend (h : Follows inFile start acts c js n log) (new : List Awaited) {l : Letter}
    (hsound : n'.Sound (handsOf js')) (hserial : n.serial < n'.serial)
    (hduties : js'.map (·.duty n') = acts'.map (Act.duty inFile)) (hletter : s.letter = l)
    (hsender : s.dispatch.sender = engineOf inFile) (hname : s.name = .ofSerial n.serial)
    (hview : n'.view =
      n.view.tracking (new.map (Awaited.carried inFile (log ++ [s])) : List Carried))
    (hplaces : ∀ a ∈ new, a.place = log.length) :
    Follows inFile start acts'
      { c with letters := c.letters ++ [l], awaited := c.awaited ++ new } js' n' (log ++ [s]) where
  sound := hsound
  duties := hduties
  view_eq := by
    have hold : c.awaited.map (Awaited.carried inFile (log ++ [s])) =
        c.awaited.map (Awaited.carried inFile log) := by
      refine List.map_congr_left fun a ha => ?_
      rw [Awaited.carried, Awaited.carried, nameAt_append (h.places a ha)]
    rw [hview, h.view_eq, List.map_append, hold, ← Multiset.coe_add]
    simp only [View.tracking, add_assoc]
  letters := by rw [List.map_append, h.letters, List.map_singleton, hletter]
  places := by
    refine List.forall_mem_append.2 ⟨fun a ha => ?_, fun a ha => ?_⟩
    · rw [List.length_append]
      exact Nat.lt_add_right _ (h.places a ha)
    · rw [hplaces a ha, List.length_append]
      exact Nat.lt_succ_self _
  senders := List.forall_mem_append.2 ⟨h.senders, List.forall_mem_singleton.2 hsender⟩
  names := by
    rw [List.map_append, List.map_singleton, List.nodup_append_comm, List.singleton_append,
      List.nodup_cons]
    refine ⟨fun hmem => ?_, h.names⟩
    obtain ⟨s', hs', heq⟩ := List.mem_map.1 hmem
    obtain ⟨k, -, hk, hname'⟩ := h.fresh s' hs'
    rw [hname', hname] at heq
    exact Nat.ne_of_lt hk (Ident.ofSerial_injective heq)
  start_le := h.start_le.trans hserial.le
  fresh := by
    refine List.forall_mem_append.2 ⟨fun s' hs' => ?_, List.forall_mem_singleton.2 ?_⟩
    · obtain ⟨k, hk, hlt, hname'⟩ := h.fresh s' hs'
      exact ⟨k, hk, hlt.trans hserial, hname'⟩
    · exact ⟨n.serial, h.start_le, hserial, hname⟩
  before := h.before

/-- What a payload stands for says who handles it. -/
theorem engine_of_batch {x : Payload} {es : List Entry} (hbatch : n.batch x = ⟨es, inFile⟩) :
    x.engine = engineOf inFile ∧ n.entriesIn x = es := by
  obtain ⟨hes, hfile⟩ := (Batch.mk.injEq ..).mp hbatch
  exact ⟨hfile ▸ x.engine_eq, hes⟩

variable {task : Task} {path branch : Key} {x : Payload} {es : List Entry} {shared : Bool}

theorem perform_send (h : Follows inFile start (.send task branch es :: acts) c
    (.send task branch x :: js) n log) (manner : Manner) :
    let p := Node.perform manner.desk.router (.send task branch x) (n, log, ())
    Follows inFile start ((c.perform manner (.send task branch es)).1 ++ acts)
      (c.perform manner (.send task branch es)).2 (p.1 ++ js) p.2.1 p.2.2.1 := by
  obtain ⟨hduty, hduties⟩ := List.cons_eq_cons.1 h.duties
  have hbatch : n.batch x = ⟨es, inFile⟩ := (Duty.send.inj hduty).2.2
  obtain ⟨hengine, hentries⟩ := engine_of_batch hbatch
  have hsound : n.Sound (x :: handsOf js) := h.sound
  obtain ⟨n', hrun, hread, hkept, hserial, hy⟩ :=
    hsound.send manner.desk.router task branch (log, ())
  have htells := hy.sound.slip_tells hread hkept task (.toward branch) branch
  rw [hbatch] at htells
  have hnext := h.extend [⟨log.length, task.operation, es⟩] hy.sound hserial
    ((Node.map_duty_congr hy.kept_eq).trans hduties) htells.letter_eq hengine rfl ?_ ?_
  · have hletters := hnext.letters
    have hlength : log.length = c.letters.length := by rw [← h.letters, List.length_map]
    rw [hlength] at hnext
    simp only [Node.perform, hrun, Desk.router, Manner.desk, hletters]
    exact hnext.answers _
  · rw [hy.view_eq, List.map_singleton, Awaited.carried, nameAt_length, hengine, hentries]
    exact View.fly_eq_tracking ..
  · exact List.forall_mem_singleton.2 rfl

theorem perform_share (h : Follows inFile start (.share task path es :: acts) c
    (.share task path x :: js) n log) (manner : Manner) :
    let p := Node.perform manner.desk.router (.share task path x) (n, log, ())
    Follows inFile start ((c.perform manner (.share task path es)).1 ++ acts)
      (c.perform manner (.share task path es)).2 (p.1 ++ js) p.2.1 p.2.2.1 := by
  obtain ⟨hduty, hduties⟩ := List.cons_eq_cons.1 h.duties
  have hbatch : n.batch x = ⟨es, inFile⟩ := (Duty.share.inj hduty).2.2
  obtain ⟨hengine, -⟩ := engine_of_batch hbatch
  have hsound : n.Sound (x :: handsOf js) := h.sound
  obtain ⟨n', hrun, hread, hserial, hy⟩ :=
    hsound.broadcast manner.desk.router task path (log, ())
  have htells := hy.sound.slip_tells hread (hy.kept_eq x (List.mem_cons_self ..)) task .replicas
    path
  rw [hbatch] at htells
  have hdrop : n'.Sound (handsOf (.drop x :: js)) := hy.sound
  have hrest : (Job.drop x :: js).map (·.duty n') = (Act.drop :: acts).map (Act.duty inFile) :=
    congrArg (_ :: ·) ((Node.map_duty_congr (hy.mono (List.subset_cons_self ..)).kept_eq).trans
      hduties)
  have hnext := h.extend [] hdrop hserial hrest htells.letter_eq hengine rfl ?_ ?_
  · have hletters := hnext.letters
    rw [List.append_nil] at hnext
    simp only [Node.perform, hrun, Desk.router, Manner.desk, hletters]
    exact hnext.answers _
  · rw [hy.view_eq]
    exact (View.tracking_zero _).symm
  · exact List.forall_mem_nil _

/-- A job that does not call the router follows its act, if what fulfils the act is known. -/
theorem perform_of_fulfils {act : Act} {j : Job}
    (h : Follows inFile start (act :: acts) c (j :: js) n log) (hj : ¬j.Routes)
    (router : Router (List Slip × Unit))
    {v : View} (hf : ∀ ds v', n.view.Fulfils (act.duty inFile) ds v' →
      ds = acts'.map (Act.duty inFile) ∧
        v' = v.tracking (c.awaited.map (Awaited.carried inFile log) : List Carried))
    (hflying : v.flying = c.view.flying) :
    let p := Node.perform router j (n, log, ())
    Follows inFile start (acts' ++ acts) { c with view := v } (p.1 ++ js) p.2.1 p.2.2.1 := by
  obtain ⟨hduty, hduties⟩ := List.cons_eq_cons.1 h.duties
  obtain ⟨js', n', hrun, hp⟩ := h.sound.perform hj (log, ())
  have hfulfils := hp.fulfils
  rw [show j.duty n = act.duty inFile from hduty] at hfulfils
  obtain ⟨hnew, hview⟩ := hf _ _ hfulfils
  rw [hrun]
  refine h.of_sound hp.sound hp.serial_le ?_ hview rfl (List.Subset.refl _) hflying
  rw [List.map_append, List.map_append, hnew, Node.map_duty_congr hp.kept_eq, hduties]

theorem perform_apply (h : Follows inFile start (.apply task path es shared :: acts) c
    (.apply task path x shared :: js) n log) (manner : Manner) :
    let p := Node.perform manner.desk.router (.apply task path x shared) (n, log, ())
    Follows inFile start ((c.perform manner (.apply task path es shared)).1 ++ acts)
      (c.perform manner (.apply task path es shared)).2 (p.1 ++ js) p.2.1 p.2.2.1 := by
  refine h.perform_of_fulfils id _ (fun ds v' hf => ?_) (View.apply_frame ..).2.2
  rw [h.view_eq] at hf
  cases hf
  refine ⟨?_, View.apply_tracking ..⟩
  cases shared <;> rfl

theorem perform_drop (h : Follows inFile start (.drop :: acts) c (.drop x :: js) n log)
    (manner : Manner) :
    let p := Node.perform manner.desk.router (.drop x) (n, log, ())
    Follows inFile start ((c.perform manner .drop).1 ++ acts) (c.perform manner .drop).2
      (p.1 ++ js) p.2.1 p.2.2.1 := by
  refine h.perform_of_fulfils id _ (fun ds v' hf => ?_) rfl
  cases hf
  exact ⟨rfl, h.view_eq⟩

/-- A job follows its act. -/
theorem perform {act : Act} {j : Job} (h : Follows inFile start (act :: acts) c (j :: js) n log)
    (manner : Manner) :
    let p := Node.perform manner.desk.router j (n, log, ())
    Follows inFile start ((c.perform manner act).1 ++ acts) (c.perform manner act).2 (p.1 ++ js)
      p.2.1 p.2.2.1 := by
  obtain ⟨hduty, -⟩ := List.cons_eq_cons.1 h.duties
  cases act with
  | send task branch es =>
    cases j with
    | send =>
      obtain ⟨rfl, rfl, -⟩ := Duty.send.inj hduty
      exact h.perform_send manner
    | _ => cases hduty
  | apply task path es shared =>
    cases j with
    | apply =>
      obtain ⟨rfl, rfl, -, rfl⟩ := Duty.apply.inj hduty
      exact h.perform_apply manner
    | _ => cases hduty
  | share task path es =>
    cases j with
    | share =>
      obtain ⟨rfl, rfl, -⟩ := Duty.share.inj hduty
      exact h.perform_share manner
    | _ => cases hduty
  | drop =>
    cases j with
    | drop => exact h.perform_drop manner
    | _ => cases hduty

/-- A request that a sound node has in hand is served in acts that do not depend on what holds its
entries. -/
theorem of_serve {r : Request} (h : n.Sound [r.payload]) (hbatch : n.batch r.payload = ⟨es, inFile⟩)
    (hne : es ≠ []) (hes : ∀ e ∈ es, Bulk.Line.isEncodable e = true)
    (router : Router (List Slip × Unit)) :
    let p := Node.perform router (.serve r) (n, [], ())
    Follows inFile n.serial
      (Act.ofRequest n.view.peer ⟨r.operation, r.parent, r.origin == .here⟩ r.origin es)
      ⟨n.view, [], []⟩ p.1 p.2.1 p.2.2.1 := by
  obtain ⟨hentries, hfile⟩ := (Batch.mk.injEq ..).mp hbatch
  have hsound : n.Sound (handsOf [.serve r]) := h
  obtain ⟨js', n', hrun, hp⟩ := hsound.perform id ([], ())
  have herrand : (n.errand r).entries = es := hentries
  have hinFile : (n.errand r).inFile = inFile := hfile
  obtain ⟨hduties, hview⟩ := hp.fulfils.eq_acts (herrand.symm ▸ hne) (herrand.symm ▸ hes)
  rw [herrand, hinFile] at hduties
  have hjobs := hp.sound
  rw [List.append_nil] at hjobs
  rw [hrun]
  refine ⟨hjobs, hduties, ?_, rfl, List.forall_mem_nil _, List.forall_mem_nil _, List.nodup_nil,
    hp.serial_le, List.forall_mem_nil _, fun m hm => ?_⟩
  · rw [hview]
    exact (View.tracking_zero _).symm
  · obtain ⟨f, hf, rfl⟩ := List.mem_map.1 (Multiset.mem_coe.1 hm)
    exact h.named f hf

/-- Two nodes that follow one course and work off their jobs follow one course to its end. -/
theorem works {manner : Manner} {s s' t t' : Node × List Slip × Unit} {inFile' : Bool}
    {start' : Nat} (hw : Node.Works manner.desk.router js s t)
    (hw' : Node.Works manner.desk.router js' s' t')
    (h : Follows inFile start acts c js s.1 s.2.1)
    (h' : Follows inFile' start' acts c js' s'.1 s'.2.1) :
    ∃ c', Follows inFile start [] c' [] t.1 t.2.1 ∧
      Follows inFile' start' [] c' [] t'.1 t'.2.1 := by
  induction hw generalizing acts c js' s' with
  | nil s =>
    have hacts : acts = [] := (List.map_eq_nil_iff.1 h.duties.symm)
    subst hacts
    have hjobs : js' = [] := List.map_eq_nil_iff.1 h'.duties
    subst hjobs
    cases hw'
    exact ⟨c, h, h'⟩
  | @cons j js s t _ ih =>
    obtain ⟨act, acts, rfl, -⟩ := List.map_eq_cons_iff.1 h.duties.symm
    obtain ⟨j', js', rfl, -⟩ := List.map_eq_cons_iff.1 h'.duties
    cases hw' with
    | cons hw' => exact ih hw' (h.perform manner) (h'.perform manner)

end Follows

/-! ### The two engines -/

/-- What a message in flight asks for. -/
def Carried.load (m : Carried) : Operation × List Entry :=
  (m.operation, m.entries)

/-- Two nodes came to the same after the same messages. -/
structure Alike (s t : Node × List Slip) : Prop where
  letters : t.2.map Slip.letter = s.2.map Slip.letter
  rows : t.1.view.rows = s.1.view.rows
  list : t.1.view.list = s.1.view.list
  queued : t.1.view.queued = s.1.view.queued
  loads : t.1.view.flying.map Carried.load = s.1.view.flying.map Carried.load
  attempts : t.1.entryFlights.size + t.1.fileFlights.size =
    s.1.entryFlights.size + s.1.fileFlights.size

/-- The messages in flight are those that the two engines keep. -/
theorem Node.card_flying (n : Node) :
    n.view.flying.card = n.entryFlights.size + n.fileFlights.size := by
  rw [view]
  simp [flights, InFlight.toList, InFlight.size]

/-- Two nodes that follow one course come to the same. -/
theorem Follows.alike {inFile inFile' : Bool} {start start' : Nat} {acts acts' : List Act}
    {c : Course} {js js' : List Job} {n n' : Node} {log log' : List Slip}
    (h : Follows inFile start acts c js n log) (h' : Follows inFile' start' acts' c js' n' log') :
    Alike (n, log) (n', log') := by
  have hloads : n'.view.flying.map Carried.load = n.view.flying.map Carried.load := by
    rw [h.flying_eq, h'.flying_eq, Multiset.map_add, Multiset.map_add, Multiset.map_coe,
      Multiset.map_coe, List.map_map, List.map_map]
    rfl
  refine ⟨h'.letters.trans h.letters.symm, ?_, ?_, ?_, hloads, ?_⟩
  · rw [h.view_eq, h'.view_eq]
    rfl
  · rw [h.view_eq, h'.view_eq]
    rfl
  · rw [h.view_eq, h'.view_eq]
    rfl
  · have hcard := congrArg Multiset.card hloads
    rwa [Multiset.card_map, Multiset.card_map, Node.card_flying, Node.card_flying] at hcard

namespace Node

variable {n : Node} {es : List Entry}

/-- A file with some entries comes to hand. -/
theorem Sound.writeFile (h : n.Sound []) (hes : ∀ e ∈ es, Bulk.Line.isEncodable e = true) :
    ∃ f m, n.tryOnDisk (Bulk.Draft.createIn ⟨some es, none, none⟩ n.holdings.scratch) =
        (.ok f, m) ∧ m.Sound [.file f] ∧ m.view = n.view ∧
      m.batch (.file f) = ⟨es, true⟩ := by
  obtain ⟨f, v, hrun, hl, hfree, hfile⟩ :=
    Bulk.Draft.run_createIn h.inventory.ready ⟨some es, none, none⟩
  have hcontent : Bulk.entriesOf (Bulk.Draft.content ⟨some es, none, none⟩) = some es := by
    simp only [Bulk.Draft.content, Option.getD_none, Option.getD_some, List.map_nil]
    rw [Bulk.bytesOfLines, List.flatMap_nil, List.append_nil, Bulk.entriesOf_writeEntries,
      List.filter_eq_self.2 hes]
  obtain ⟨hy, hentries⟩ := h.newFile hl hfree ⟨_, hfile, hcontent⟩
  exact ⟨f, _, tryOnDisk_ok hrun, hy.sound, hy.view_eq, congrArg (Batch.mk · true) hentries⟩

/-- **Batches in memory and batches in files are served alike.**  Let a batch of entries that can be
written be written to a new file.  A request with the batch and a request with the file lead to the
same messages in the same order, to the same rows, lists and requests, and to the same attempts, if
the messages are answered in the same manner. -/
theorem served_alike (h : n.Sound []) (hne : es ≠ [])
    (hes : ∀ e ∈ es, Bulk.Line.isEncodable e = true) (id : RequestId) (o : Operation)
    (origin : Origin) (manner : Manner) (later : List (Nat × Bool)) :
    ∃ f m, n.tryOnDisk (Bulk.Draft.createIn ⟨some es, none, none⟩ n.holdings.scratch) =
        (.ok f, m) ∧
      Alike (manner.serve later n ⟨id, o, .entries es, origin⟩)
        (manner.serve later m ⟨id, o, .file f, origin⟩) := by
  obtain ⟨f, m, hrun, hm, hview, hbatch⟩ := h.writeFile hes
  let r : Request := ⟨id, o, .entries es, origin⟩
  let r' : Request := ⟨id, o, .file f, origin⟩
  have hstart := Follows.of_serve (r := r) (h.entries_cons es) rfl hne hes manner.desk.router
  have hstart' := Follows.of_serve (r := r') hm hbatch hne hes manner.desk.router
  rw [hview] at hstart'
  -- what is left to do after the first step is the same but for what holds the entries
  have hworks : ∀ s r, Works manner.desk.router
      (Node.perform manner.desk.router (.serve r) s).1
      (Node.perform manner.desk.router (.serve r) s).2 (Node.serve manner.desk.router s r) := by
    intro s r
    cases works_serve r s with
    | cons hw => rwa [List.append_nil] at hw
  obtain ⟨c, hc, hc'⟩ := Follows.works (hworks _ _) (hworks _ _) hstart hstart'
  exact ⟨f, m, hrun, (hc.answers later).alike (hc'.answers later)⟩

/-- An update that another peer delivered to a node that was just opened: the message with the
foreign entry fails at once, the one to the replicas arrives after the update was served. -/
theorem served_alike_of_update :
    let es := [Sample.entry "a" ⟨[true]⟩, Sample.entry "b" ⟨[false]⟩]
    let origin : Origin := .peer ⟨"message"⟩ ⟨"parent"⟩ false
    let manner : Manner := fun letters => if letters.length = 1 then [(0, false)] else []
    ∃ n, Node.openAt (Sample.peer ⟨[true]⟩) (.ofBits 8) 0 .root .empty = .ok n ∧
      ∃ f m, n.tryOnDisk (Bulk.Draft.createIn ⟨some es, none, none⟩ n.holdings.scratch) =
          (.ok f, m) ∧
        Alike (manner.serve [(1, true)] n ⟨⟨"request"⟩, .update, .entries es, origin⟩)
          (manner.serve [(1, true)] m ⟨⟨"request"⟩, .update, .file f, origin⟩) := by
  intro es origin manner
  obtain ⟨n, hopen, hn, -⟩ := openAt_sound rfl Volume.vacant_empty (Sample.peer ⟨[true]⟩)
    (.ofBits 8) 0
  have hes : ∀ e ∈ es, Bulk.Line.isEncodable e = true := by
    refine List.forall_mem_cons.2 ⟨?_, List.forall_mem_singleton.2 ?_⟩ <;> decide +kernel
  exact ⟨n, hopen, served_alike hn (List.cons_ne_nil _ _) hes ⟨"request"⟩ .update origin manner
    [(1, true)]⟩

end Node

end TrieOverlay
