import TrieOverlay.Proofs.Disk.Volume

/-!
# Volumes that are trees

On a volume that is a *tree* all that is there can be reached (`Volume.IsTree`), and `v.bytes? p` is
what the file at `p` holds, if there is one.  A call that is made leaves a tree; the files stay that
it does not write (`Volume.Writes`), and what it leaves of the file that it writes follows from what
was there (`Volume.IsTree.writes_of_appendCall` and so on).
-/

namespace TrieOverlay

/-! ### Paths in a directory -/

namespace Path

variable {p dir : Path}

theorem isChildOf_child (dir : Path) (name : String) : (dir.child name).isChildOf dir = true := by
  simp [isChildOf, child, parent?]

theorem not_isChildOf_child (dir : Path) (a b : String) :
    (dir.child a).isChildOf (dir.child b) = false := by
  simp [isChildOf, child, parent?]

theorem eq_child_of_isChildOf (h : p.isChildOf dir = true) : ∃ name, p = dir.child name := by
  obtain ⟨parts⟩ := p
  rw [isChildOf, parent?, beq_iff_eq] at h
  split at h
  · cases h
  · rename_i hne
    obtain rfl := Option.some.inj h
    refine ⟨parts.getLast (by simpa using hne), congrArg mk ?_⟩
    exact (List.dropLast_concat_getLast _).symm

theorem isWithin_of_isChildOf (h : p.isChildOf dir = true) : p.isWithin dir = true := by
  obtain ⟨name, rfl⟩ := eq_child_of_isChildOf h
  simp [isWithin, child]

end Path

namespace Volume

variable {v v' v'' : Volume} {p q : Path} {bytes : Bytes}

/-! ### Trees -/

/-- All that is there can be reached. -/
def IsTree (v : Volume) : Prop :=
  ∀ p, v.item? p ≠ none → v.obstacle? p = none

theorem isTree_empty : Volume.empty.IsTree := by
  intro p hp
  by_cases hroot : p = .root
  · subst hroot
    rfl
  · exact absurd (by simp [item?, hroot, empty]) hp

theorem IsTree.putFile (h : v.IsTree) (ho : v.obstacle? p = none)
    (hp : v.item? p ≠ some .directory) (bytes : Bytes) : (v.putFile p bytes).IsTree := by
  intro q hq
  have hkeeps := keeps_putFile hp bytes
  by_cases hqp : q = p
  · rw [hqp]
    exact hkeeps.obstacle? ho
  · rw [Volume.putFile, item?_put_of_ne hqp] at hq
    exact hkeeps.obstacle? (h q hq)

theorem item?_drop_self (hp : p ≠ .root) : (v.drop p).item? p = none := by
  simp [item?, drop, hp]

theorem IsTree.drop (h : v.IsTree) (hp : v.item? p ≠ some .directory) : (v.drop p).IsTree := by
  intro q hq
  by_cases hqp : q = p
  · subst hqp
    have hroot : q ≠ .root := by
      rintro rfl
      exact hp (by simp [item?])
    exact absurd (item?_drop_self hroot) hq
  · rw [item?_drop_of_ne hqp] at hq
    exact (keeps_drop hp).obstacle? (h q hq)

theorem IsTree.hasFile_iff_item? (h : v.IsTree) :
    v.HasFile p bytes ↔ v.item? p = some (.file bytes) :=
  ⟨And.right, fun hp => ⟨h p (by simp [hp]), hp⟩⟩

/-! ### What a file holds -/

/-- The bytes of a file, if there is one. -/
def bytes? (v : Volume) (p : Path) : Option Bytes :=
  (v.content p).toOption

theorem bytes?_eq_some_iff : v.bytes? p = some bytes ↔ v.HasFile p bytes := by
  rw [hasFile_iff, bytes?]
  cases v.content p <;> simp [Except.toOption]

theorem bytes?_eq_none_iff : v.bytes? p = none ↔ ∀ bytes, ¬ v.HasFile p bytes := by
  simp only [← bytes?_eq_some_iff]
  exact Option.eq_none_iff_forall_ne_some

theorem bytes?_of_item?_eq_none (h : v.item? p = none) : v.bytes? p = none :=
  bytes?_eq_none_iff.2 fun bytes hf => by simp [hf.2] at h

/-- Two volumes have the same file at a path if whatever is a file on one is so on the other. -/
theorem bytes?_eq_bytes?_iff :
    v'.bytes? p = v.bytes? p ↔ ∀ bytes, v'.HasFile p bytes ↔ v.HasFile p bytes := by
  simp only [← bytes?_eq_some_iff]
  constructor
  · intro h bytes
    rw [h]
  · exact Option.ext

theorem bytes?_eq_of_item?_eq (h : v.IsTree) (h' : v'.IsTree) (hp : v'.item? p = v.item? p) :
    v'.bytes? p = v.bytes? p := by
  rw [bytes?_eq_bytes?_iff]
  intro bytes
  rw [h.hasFile_iff_item?, h'.hasFile_iff_item?, hp]

/-- What calls do that write at some paths only: the files elsewhere stay as they are. -/
structure Writes (ps : List Path) (v v' : Volume) : Prop where
  tree : v'.IsTree
  spares : ∀ q ∉ ps, v'.bytes? q = v.bytes? q
  serial : v.serial ≤ v'.serial

theorem IsTree.writes_refl (h : v.IsTree) (ps : List Path) : Writes ps v v :=
  ⟨h, fun _ _ => rfl, Nat.le_refl _⟩

theorem Writes.trans {ps : List Path} (h : Writes ps v v') (h' : Writes ps v' v'') :
    Writes ps v v'' :=
  ⟨h'.tree, fun q hq => (h'.spares q hq).trans (h.spares q hq), Nat.le_trans h.serial h'.serial⟩

theorem Writes.mono {ps qs : List Path} (h : Writes ps v v') (hs : ps ⊆ qs) : Writes qs v v' :=
  ⟨h.tree, fun q hq => h.spares q fun hp => hq (hs hp), h.serial⟩

theorem IsTree.writes_of_item? {ps : List Path} (h : v.IsTree) (h' : v'.IsTree)
    (hs : ∀ q ∉ ps, v'.item? q = v.item? q) (hn : v.serial ≤ v'.serial) : Writes ps v v' :=
  ⟨h', fun q hq => bytes?_eq_of_item?_eq h h' (hs q hq), hn⟩

/-! ### Calls that are made -/

/-- A path that may be written can be reached and is no directory, and what is there is known. -/
theorem writable_eq_ok {old : Option Bytes} (h : v.writable p = .ok old) :
    v.obstacle? p = none ∧ v.item? p ≠ some .directory ∧ v.bytes? p = old := by
  rw [writable] at h
  split at h
  · rename_i bytes hc
    cases h
    have hf := hasFile_iff.2 hc
    exact ⟨hf.1, hf.not_directory, bytes?_eq_some_iff.2 hf⟩
  · rename_i hc
    split at h
    · cases h
    · rename_i ho
      cases h
      refine ⟨ho, fun hd => ?_, by rw [bytes?, hc]; rfl⟩
      simp [content, find, ho, hd] at hc
  · cases h

theorem bytes?_of_content_error {e : IoError} (h : v.content p = .error e) :
    v.bytes? p = none := by
  rw [bytes?, h]
  rfl

theorem IsTree.writes_putFile (h : v.IsTree) (ho : v.obstacle? p = none)
    (hp : v.item? p ≠ some .directory) (bytes : Bytes) :
    Writes [p] v (v.putFile p bytes) ∧ (v.putFile p bytes).bytes? p = some bytes := by
  have hroot : p ≠ .root := by
    rintro rfl
    exact hp (by simp [item?])
  refine ⟨h.writes_of_item? (h.putFile ho hp bytes) (fun q hq => ?_) (Nat.le_refl _), ?_⟩
  · exact item?_put_of_ne (fun hqp => hq (List.mem_singleton.2 hqp)) _
  · exact bytes?_eq_some_iff.2 (hasFile_putFile hroot hp ho bytes)

theorem IsTree.writes_drop (h : v.IsTree) (hf : v.HasFile p bytes) :
    Writes [p] v (v.drop p) ∧ (v.drop p).bytes? p = none := by
  refine ⟨h.writes_of_item? (h.drop hf.not_directory) (fun q hq => ?_) (Nat.le_refl _), ?_⟩
  · exact item?_drop_of_ne fun hqp => hq (List.mem_singleton.2 hqp)
  · exact bytes?_of_item?_eq_none (item?_drop_self hf.ne_root)

section Made

variable {r : Unit × Volume} (h : v.IsTree)

theorem bytes?_of_readCall {r : Bytes × Volume} (hr : readCall p v = .ok r) :
    v.bytes? p = some r.1 ∧ r.2 = v := by
  rw [readCall] at hr
  cases hc : v.content p with
  | ok bytes =>
    rw [hc] at hr
    cases hr
    exact ⟨bytes?_eq_some_iff.2 (hasFile_iff.2 hc), rfl⟩
  | error e =>
    rw [hc] at hr
    cases hr

theorem bytes?_of_readCall_error {e : IoError} (he : readCall p v = .error e) :
    v.bytes? p = none := by
  rw [readCall] at he
  cases hc : v.content p with
  | ok bytes =>
    rw [hc] at he
    cases he
  | error e => exact bytes?_of_content_error hc

theorem bytes?_of_removeCall_error {e : IoError} (he : removeCall p v = .error e) :
    v.bytes? p = none := by
  rw [removeCall] at he
  split at he
  · cases he
  · exact bytes?_of_content_error ‹_›

include h

theorem IsTree.writes_of_touchCall (hr : touchCall p v = .ok r) :
    Writes [p] v r.2 ∧ r.2.bytes? p = some ((v.bytes? p).getD []) := by
  rw [touchCall] at hr
  split at hr
  · rename_i bytes hw
    cases hr
    have hold := (writable_eq_ok hw).2.2
    exact ⟨h.writes_refl [p], by rw [hold]; rfl⟩
  · rename_i hw
    cases hr
    obtain ⟨ho, hd, hold⟩ := writable_eq_ok hw
    rw [hold]
    exact h.writes_putFile ho hd []
  · cases hr

theorem IsTree.writes_of_appendCall (hr : appendCall p bytes v = .ok r) :
    Writes [p] v r.2 ∧ ∃ old, v.bytes? p = some old ∧ r.2.bytes? p = some (old ++ bytes) := by
  rw [appendCall] at hr
  split at hr
  · rename_i old hc
    cases hr
    have hf := hasFile_iff.2 hc
    obtain ⟨hw, hb⟩ := h.writes_putFile hf.1 hf.not_directory (old ++ bytes)
    exact ⟨hw, old, bytes?_eq_some_iff.2 hf, hb⟩
  · cases hr

theorem IsTree.writes_of_clearCall (hr : clearCall p v = .ok r) :
    Writes [p] v r.2 ∧ r.2.bytes? p = some [] := by
  rw [clearCall] at hr
  split at hr
  · rename_i old hw
    cases hr
    obtain ⟨ho, hd, -⟩ := writable_eq_ok hw
    exact h.writes_putFile ho hd []
  · cases hr

theorem IsTree.writes_of_removeCall (hr : removeCall p v = .ok r) :
    Writes [p] v r.2 ∧ r.2.bytes? p = none := by
  rw [removeCall] at hr
  split at hr
  · cases hr
    exact h.writes_drop (hasFile_iff.2 ‹_›)
  · cases hr

theorem IsTree.writes_of_renameCall (hr : renameCall p q v = .ok r) :
    Writes [p, q] v r.2 ∧ r.2.bytes? q = v.bytes? p := by
  rw [renameCall] at hr
  split at hr
  · rename_i bytes old hc hw
    cases hr
    have hf := hasFile_iff.2 hc
    obtain ⟨ho, hd, -⟩ := writable_eq_ok hw
    obtain ⟨hdrop, -⟩ := h.writes_drop hf
    -- the file that goes is on the way to nothing
    have ho' := (keeps_drop hf.not_directory).obstacle? ho
    have hd' : (v.drop p).item? q ≠ some .directory := by
      by_cases hpq : q = p
      · rw [hpq, item?_drop_self hf.ne_root]
        simp
      · rwa [item?_drop_of_ne hpq]
    obtain ⟨hput, hb⟩ := hdrop.tree.writes_putFile ho' hd' bytes
    refine ⟨(hdrop.mono (by simp)).trans (hput.mono (by simp)), hb.trans ?_⟩
    exact (bytes?_eq_some_iff.2 hf).symm
  · cases hr
  · cases hr

end Made

/-! ### Directories -/

theorem mem_ancestors {a : Path} :
    a ∈ p.ancestors ↔ ∃ n < p.parts.length, a = ⟨p.parts.take n⟩ := by
  simp [Path.ancestors, eq_comm]

theorem mem_ancestors_take {m n : Nat} (hm : m < n) (hn : n ≤ p.parts.length) :
    (⟨p.parts.take m⟩ : Path) ∈ (⟨p.parts.take n⟩ : Path).ancestors := by
  rw [mem_ancestors]
  refine ⟨m, ?_, ?_⟩
  · simp only [List.length_take]
    omega
  · rw [List.take_take, Nat.min_eq_left (Nat.le_of_lt hm)]

theorem mem_ancestors_trans {a b : Path} (ha : a ∈ b.ancestors) (hb : b ∈ p.ancestors) :
    a ∈ p.ancestors := by
  obtain ⟨m, hm, rfl⟩ := mem_ancestors.1 hb
  obtain ⟨n, hn, rfl⟩ := mem_ancestors.1 ha
  simp only [List.length_take] at hn
  refine mem_ancestors.2 ⟨n, by omega, ?_⟩
  rw [List.take_take, Nat.min_eq_left (by omega)]

/-- The directories on the way to a path are on the way to each other, in order. -/
theorem pairwise_ancestors (p : Path) : p.ancestors.Pairwise fun a b => a ∈ b.ancestors := by
  rw [Path.ancestors, List.pairwise_map]
  refine List.pairwise_lt_range.imp_of_mem fun _ hn hmn => ?_
  exact mem_ancestors_take hmn (Nat.le_of_lt (List.mem_range.1 hn))

/-- If a path is not found, no file is on the way to it. -/
theorem IsTree.item?_ancestor (h : v.IsTree) (hfind : v.find p = .error .notFound) {a : Path}
    (ha : a ∈ p.ancestors) : v.item? a = none ∨ v.item? a = some .directory := by
  rw [find] at hfind
  cases hitem : v.item? a with
  | none => exact Or.inl rfl
  | some item =>
    refine Or.inr ?_
    cases ho : v.obstacle? p with
    | none =>
      rw [← hitem]
      exact obstacle?_eq_none_iff.1 ho a ha
    | some e =>
      rw [ho] at hfind
      cases hfind
      obtain ⟨before, b, after, hway, hb, hbefore⟩ := List.findSome?_eq_some_iff.1 ho
      have hnone : v.item? b = none := by
        split at hb
        · cases hb
        · cases hb
        · assumption
      rw [hway, List.mem_append, List.mem_cons] at ha
      rcases ha with ha | rfl | ha
      · have := hbefore a ha
        rw [hitem] at this
        cases item with
        | directory => rfl
        | file bytes => simp at this
      · rw [hnone] at hitem
        cases hitem
      · -- what lies behind something missing is missing on a tree
        have hpair := pairwise_ancestors p
        rw [hway, List.pairwise_append, List.pairwise_cons] at hpair
        have hdir := obstacle?_eq_none_iff.1 (h a (by simp [hitem])) b (hpair.2.1.1 a ha)
        rw [hnone] at hdir
        cases hdir

/-- The directories that are missing are made. -/
theorem item?_foldl_put (ps : List Path) (v : Volume) (q : Path) :
    (ps.foldl (fun v a => if (v.item? a).isSome then v else v.put a .directory) v).item? q =
      if q ∈ ps ∧ v.item? q = none then some .directory else v.item? q := by
  induction ps generalizing v with
  | nil => simp
  | cons a ps ih =>
    rw [List.foldl_cons, ih]
    by_cases hqa : q = a
    · subst hqa
      cases hq : v.item? q with
      | some item => simp [hq]
      | none =>
        have hroot : q ≠ .root := by
          rintro rfl
          simp [item?] at hq
        simp [item?_put_self hroot]
    · have hstep : (if (v.item? a).isSome then v else v.put a .directory).item? q = v.item? q := by
        split
        · rfl
        · exact item?_put_of_ne hqa _
      simp [hstep, hqa]

theorem serial_foldl_put (ps : List Path) (v : Volume) :
    (ps.foldl (fun v a => if (v.item? a).isSome then v else v.put a .directory) v).serial =
      v.serial := by
  induction ps generalizing v with
  | nil => rfl
  | cons a ps ih =>
    rw [List.foldl_cons, ih]
    split <;> rfl

/-- A tree with the directories to a path that was not found is a tree. -/
theorem IsTree.of_directories (h : v.IsTree) (hfind : v.find p = .error .notFound)
    (hitem : ∀ q, v'.item? q =
      if q ∈ p.ancestors ++ [p] ∧ v.item? q = none then some .directory else v.item? q) :
    v'.IsTree := by
  have hway : ∀ a ∈ p.ancestors, v'.item? a = some .directory := by
    intro a ha
    rw [hitem]
    rcases h.item?_ancestor hfind ha with hnone | hdir
    · simp [hnone, ha]
    · simp [hdir]
  intro q hq
  rw [obstacle?_eq_none_iff]
  intro a ha
  by_cases hqv : v.item? q = none
  · -- only what is on the way to the path, or the path, was made
    rw [hitem, hqv] at hq
    by_cases hmem : q ∈ p.ancestors ++ [p]
    · rcases List.mem_append.1 hmem with hmem | hmem
      · exact hway a (mem_ancestors_trans ha hmem)
      · rw [List.mem_singleton.1 hmem] at ha
        exact hway a ha
    · simp [hmem] at hq
  · have hdir := obstacle?_eq_none_iff.1 (h q hqv) a ha
    simp [hitem, hdir]

/-- Making directories leaves a tree, with the files that were there. -/
theorem IsTree.writes_of_createDirectoriesCall (h : v.IsTree) {r : Unit × Volume}
    (hr : createDirectoriesCall p v = .ok r) : Writes [] v r.2 := by
  rw [createDirectoriesCall] at hr
  split at hr
  · cases hr
    exact h.writes_refl []
  · cases hr
  · rename_i hfind
    cases hr
    have hitem := item?_foldl_put (p.ancestors ++ [p]) v
    have htree := h.of_directories hfind hitem
    refine ⟨htree, fun q _ => ?_, Nat.le_of_eq (serial_foldl_put _ v).symm⟩
    rw [bytes?_eq_bytes?_iff]
    intro bytes
    rw [h.hasFile_iff_item?, htree.hasFile_iff_item?, hitem]
    split
    · rename_i hq
      simp [hq.2]
    · rfl
  · cases hr

/-! ### Removing a directory -/

theorem item?_removeTree (hq : q ≠ .root) :
    ({ v with items := v.items.filter fun q _ => !q.isWithin p } : Volume).item? q =
      if q.isWithin p then none else v.item? q := by
  simp only [item?, if_neg hq, Std.ExtTreeMap.getElem?_filter']
  cases q.isWithin p <;> cases v.items[q]? <;> simp

/-- Nothing is left of a directory that was removed. -/
theorem IsTree.of_removeTreeCall (h : v.IsTree) {r : Unit × Volume}
    (hr : removeTreeCall p v = .ok r) :
    r.2.IsTree ∧ ∀ q : Path, q.isWithin p = true → r.2.bytes? q = none := by
  rw [removeTreeCall] at hr
  split at hr
  · cases hr
    refine ⟨fun q hq => obstacle?_eq_none_iff.2 fun a ha => ?_, fun q hq => ?_⟩
    · by_cases hroot : a = .root
      · simp [item?, hroot]
      · obtain ⟨n, hn, rfl⟩ := mem_ancestors.1 ha
        have hqroot : q ≠ .root := by
          rintro rfl
          simp [Path.root] at hn
        rw [item?_removeTree hqroot] at hq
        rw [item?_removeTree hroot]
        -- what lies below something that was removed was removed too
        have hbelow : (⟨q.parts.take n⟩ : Path).isWithin p = true → q.isWithin p = true := by
          simp only [Path.isWithin, List.isPrefixOf_iff_prefix]
          exact fun hp => hp.trans (List.take_prefix n q.parts)
        cases hwithin : q.isWithin p with
        | true => simp [hwithin] at hq
        | false =>
          rw [hwithin] at hq hbelow
          rw [if_neg fun hc => Bool.false_ne_true (hbelow hc)]
          exact obstacle?_eq_none_iff.1 (h q hq) _ ha
    · refine bytes?_eq_none_iff.2 fun bytes hf => ?_
      have hitem := hf.2
      rw [item?_removeTree hf.ne_root, if_pos hq] at hitem
      cases hitem
  · cases hr
  · cases hr

/-- Files are in directories only. -/
theorem bytes?_of_not_directory (h : v.find p ≠ .ok .directory) (hq : q.isChildOf p = true) :
    v.bytes? q = none := by
  obtain ⟨name, rfl⟩ := Path.eq_child_of_isChildOf hq
  refine bytes?_eq_none_iff.2 fun bytes hf => ?_
  have hway := obstacle?_eq_none_iff.1 hf.1
  have hp : p ∈ (p.child name).ancestors :=
    mem_ancestors.2 ⟨p.parts.length, by simp [Path.child], by simp [Path.child]⟩
  have hobstacle : v.obstacle? p = none :=
    obstacle?_eq_none_iff.2 fun a ha => hway a (mem_ancestors_trans ha hp)
  exact h (by simp [find, hobstacle, hway p hp])

end Volume

end TrieOverlay
