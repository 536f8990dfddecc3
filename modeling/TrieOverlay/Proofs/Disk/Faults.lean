import TrieOverlay.Proofs.Disk.Tree

/-!
# Volumes on which any call may fail

Nothing is known here about the schedule: any call may be refused, and a write may be torn.  So a
statement on a computation says what holds if it succeeds and what holds if it fails
(`TryDisk.Ends`), and such statements are put together along the computation (`TryDisk.Ends.bind`).
A call that fails has written nothing, but for a torn write, which has written a part to a file that
is there (`Volume.IsTree.ends_append`).
-/

namespace TrieOverlay

/-! ### How computations end -/

section Ends

variable {α β : Type} {v v' : Volume}

/-- What holds after a computation. -/
def Disk.Ends (act : Disk α) (v : Volume) (P : α → Volume → Prop) : Prop :=
  P (act.run v).1 (act.run v).2

/-- What holds after a computation that succeeds, and what after one that fails. -/
def TryDisk.Ends (act : TryDisk α) (v : Volume) (P : α → Volume → Prop)
    (Q : StorageError → Volume → Prop) : Prop :=
  Disk.Ends act.run v fun r v' =>
    match r with
    | .ok a => P a v'
    | .error e => Q e v'

section Disk

variable {act : Disk α} {P P' : α → Volume → Prop}

theorem Disk.Ends.of_run (h : act.Ends v P) {a : α} (hrun : act.run v = (a, v')) : P a v' := by
  rw [Ends, hrun] at h
  exact h

theorem Disk.Ends.imp (h : act.Ends v P') (hP : ∀ a v', P' a v' → P a v') : act.Ends v P :=
  hP _ _ h

theorem Disk.Ends.bind {f : α → Disk β} {P : β → Volume → Prop} (h : act.Ends v P')
    (hf : ∀ a v₁, P' a v₁ → (f a).Ends v₁ P) : (act >>= f).Ends v P := by
  have hact : act.run v = ((act.run v).1, (act.run v).2) := rfl
  rw [Ends, Disk.run_bind_eq hact]
  exact hf _ _ h

/-- What is known of the run may be used. -/
theorem Disk.Ends.and_run (h : act.Ends v P) :
    act.Ends v fun a v' => act.run v = (a, v') ∧ P a v' :=
  ⟨rfl, h⟩

theorem Disk.ends_pure {a : α} (h : P a v) : (pure a : Disk α).Ends v P :=
  h

end Disk

variable {act : TryDisk α} {P P' : α → Volume → Prop} {Q Q' : StorageError → Volume → Prop}

theorem TryDisk.Ends.of_ok (h : act.Ends v P Q) {a : α} (hrun : act.run.run v = (.ok a, v')) :
    P a v' :=
  Disk.Ends.of_run h hrun

theorem TryDisk.Ends.imp (h : act.Ends v P' Q') (hP : ∀ a v', P' a v' → P a v')
    (hQ : ∀ e v', Q' e v' → Q e v') : act.Ends v P Q := by
  refine Disk.Ends.imp h fun r v' hr => ?_
  cases r with
  | ok a => exact hP a v' hr
  | error e => exact hQ e v' hr

theorem TryDisk.ends_pure {a : α} (h : P a v) : (pure a : TryDisk α).Ends v P Q :=
  h

theorem TryDisk.ends_throw {e : StorageError} (h : Q e v) :
    (throw e : TryDisk α).Ends v P Q :=
  h

/-- A computation that goes on only if the first part succeeds. -/
theorem TryDisk.Ends.bind {f : α → TryDisk β} {P : β → Volume → Prop} (h : act.Ends v P' Q)
    (hf : ∀ a v₁, P' a v₁ → (f a).Ends v₁ P Q) : (act >>= f).Ends v P Q := by
  refine Disk.Ends.bind (f := ExceptT.bindCont f) h fun r v₁ hr => ?_
  cases r with
  | ok a => exact hf a v₁ hr
  | error e => exact hr

/-- A computation that goes on only if the first part succeeds, and of whose failure less is
said. -/
theorem TryDisk.Ends.bind_imp {f : α → TryDisk β} {P : β → Volume → Prop} (h : act.Ends v P' Q')
    (herror : ∀ e v', Q' e v' → Q e v') (hf : ∀ a v₁, P' a v₁ → (f a).Ends v₁ P Q) :
    (act >>= f).Ends v P Q :=
  (h.imp (fun _ _ ha => ha) herror).bind hf

/-- The volume is looked at. -/
theorem Disk.Ends.bind_get {f : Volume → Disk β} {P : β → Volume → Prop} (h : (f v).Ends v P) :
    (getThe Volume >>= f).Ends v P :=
  h

theorem TryDisk.Ends.bind_get {f : Volume → TryDisk β} {P : β → Volume → Prop}
    (h : (f v).Ends v P Q) : (get >>= f : TryDisk β).Ends v P Q :=
  h

theorem TryDisk.ends_lift {act : Disk α} (h : act.Ends v P) :
    (liftM act : TryDisk α).Ends v P Q := by
  have hact : act.run v = ((act.run v).1, (act.run v).2) := rfl
  rw [Ends, Disk.Ends, TryDisk.run_lift hact]
  exact h

/-- A failure is caught. -/
theorem TryDisk.Ends.tryCatch {f : StorageError → TryDisk α} (h : act.Ends v P Q')
    (hf : ∀ e v₁, Q' e v₁ → (f e).Ends v₁ P Q) : (tryCatch act f).Ends v P Q := by
  rw [Ends]
  simp only [MonadExcept.tryCatch, tryCatchThe, MonadExceptOf.tryCatch, ExceptT.tryCatch,
    ExceptT.run_mk]
  refine Disk.Ends.bind h fun r v₁ hr => ?_
  cases r with
  | ok a => exact hr
  | error e => exact hf e v₁ hr

end Ends

namespace Volume

variable {v v' : Volume} {p : Path}

/-! ### Calls that may fail -/

section Calls

variable {α : Type} {act : Volume → Except IoError (α × Volume)} {P : α → Volume → Prop}
  {Q : StorageError → Volume → Prop}

theorem nextFault_snd (v : Volume) : v.nextFault.2 = { v with schedule := v.schedule.tail } := by
  obtain ⟨items, serial, schedule⟩ := v
  cases schedule <;> rfl

/-- A call of which it is known that it is made. -/
theorem ends_call_of_pass (hpass : v.nextFault.1 = .pass)
    (hok : ∀ s r, act { v with schedule := s } = .ok r → P r.1 r.2)
    (herror : ∀ s e, act { v with schedule := s } = .error e →
      Q ⟨p, e⟩ { v with schedule := s }) : (call p act).Ends v P Q := by
  have hnext := nextFault_snd v
  rw [TryDisk.Ends, Disk.Ends, call, ExceptT.run_mk, StateT.run]
  generalize v.nextFault = next at hnext hpass ⊢
  obtain ⟨f, w⟩ := next
  obtain rfl : w = _ := hnext
  obtain rfl : f = _ := hpass
  cases hact : act { v with schedule := v.schedule.tail } with
  | ok r =>
    simp only [hact]
    exact hok _ r hact
  | error e =>
    simp only [hact]
    exact herror _ e hact

/-- A call either has its effect or none. -/
theorem ends_call (hok : ∀ s r, act { v with schedule := s } = .ok r → P r.1 r.2)
    (herror : ∀ s e, act { v with schedule := s } = .error e.cause ∨ e.cause = .refused →
      Q e { v with schedule := s }) : (call p act).Ends v P Q := by
  by_cases hpass : v.nextFault.1 = .pass
  · exact ends_call_of_pass hpass hok fun s e h => herror s ⟨p, e⟩ (Or.inl h)
  · have hnext := nextFault_snd v
    rw [TryDisk.Ends, Disk.Ends, call, ExceptT.run_mk, StateT.run]
    generalize v.nextFault = next at hnext hpass ⊢
    obtain ⟨f, w⟩ := next
    obtain rfl : w = _ := hnext
    cases f with
    | pass => exact absurd rfl hpass
    | refuse => exact herror _ ⟨p, .refused⟩ (Or.inr rfl)
    | tear n => exact herror _ ⟨p, .refused⟩ (Or.inr rfl)

end Calls

/-- What the schedule says is nothing on the volume. -/
theorem Writes.of_schedule {ps : List Path} {s : List Fault}
    (h : Writes ps { v with schedule := s } v') : Writes ps v v' :=
  ⟨h.tree, h.spares, h.serial⟩

section Files

variable (h : v.IsTree)

include h

theorem IsTree.writes_schedule (s : List Fault) (ps : List Path) :
    Writes ps v { v with schedule := s } :=
  ⟨h, fun _ _ => rfl, Nat.le_refl _⟩

theorem IsTree.ends_read (p : Path) :
    (read p).Ends v (fun bytes v' => Writes [] v v' ∧ v.bytes? p = some bytes)
      fun e v' => Writes [] v v' ∧ (e.cause = .notFound → v.bytes? p = none) := by
  refine ends_call (fun s r hr => ?_) fun s e he => ⟨h.writes_schedule s [], fun hcause => ?_⟩
  · obtain ⟨hb, hv⟩ := bytes?_of_readCall hr
    rw [hv]
    exact ⟨h.writes_schedule s [], hb⟩
  · rcases he with he | he
    · exact bytes?_of_readCall_error (v := { v with schedule := s }) he
    · rw [hcause] at he
      cases he

theorem IsTree.ends_readIfPresent (p : Path) :
    (readIfPresent p).Ends v (fun found v' => Writes [] v v' ∧ found = v.bytes? p)
      fun _ v' => Writes [] v v' := by
  have hread : (some <$> read p : TryDisk _).Ends v
      (fun found v' => Writes [] v v' ∧ found = v.bytes? p)
      fun e v' => Writes [] v v' ∧ (e.cause = .notFound → v.bytes? p = none) := by
    rw [map_eq_pure_bind]
    exact (h.ends_read p).bind fun bytes v₁ ⟨hw, hb⟩ => ⟨hw, hb.symm⟩
  refine hread.tryCatch fun e v₁ ⟨hw, he⟩ => ?_
  split
  · rename_i hcause
    exact TryDisk.ends_pure ⟨hw, (he hcause).symm⟩
  · exact TryDisk.ends_throw hw

theorem IsTree.ends_touch (p : Path) :
    (touch p).Ends v (fun _ v' => Writes [p] v v' ∧ v'.bytes? p = some ((v.bytes? p).getD []))
      fun _ v' => Writes [] v v' := by
  refine ends_call (fun s r hr => ?_) fun s e _ => h.writes_schedule s []
  obtain ⟨hw, hb⟩ := (h.writes_schedule s []).tree.writes_of_touchCall hr
  exact ⟨hw.of_schedule, hb⟩

/-- A write that fails may have written a part, to a file that is there. -/
theorem IsTree.ends_append (p : Path) (more : Bytes) :
    (append p more).Ends v
      (fun _ v' => Writes [p] v v' ∧
        ∃ old, v.bytes? p = some old ∧ v'.bytes? p = some (old ++ more))
      fun _ v' => Writes [p] v v' ∧ ((v'.bytes? p).isSome = (v.bytes? p).isSome) := by
  have hcall : (call p (appendCall p more)).Ends v
      (fun _ v' => Writes [p] v v' ∧
        ∃ old, v.bytes? p = some old ∧ v'.bytes? p = some (old ++ more))
      fun _ v' => Writes [p] v v' ∧ ((v'.bytes? p).isSome = (v.bytes? p).isSome) := by
    refine ends_call (fun s r hr => ?_) fun s e _ => ⟨h.writes_schedule s [p], rfl⟩
    obtain ⟨hw, hb⟩ := (h.writes_schedule s []).tree.writes_of_appendCall hr
    exact ⟨hw.of_schedule, hb⟩
  have hnext := nextFault_snd v
  rw [TryDisk.Ends, Disk.Ends, append, ExceptT.run_mk, StateT.run]
  generalize v.nextFault = next at hnext ⊢
  obtain ⟨f, w⟩ := next
  obtain rfl : w = _ := hnext
  cases f with
  | pass => exact hcall
  | refuse => exact hcall
  | tear n =>
    cases hact : appendCall p (more.take n) { v with schedule := v.schedule.tail } with
    | ok r =>
      simp only [hact]
      obtain ⟨hw, old, hold, hb⟩ := (h.writes_schedule _ []).tree.writes_of_appendCall hact
      have hold' : v.bytes? p = some old := hold
      exact ⟨hw.of_schedule, by rw [hb, hold']; rfl⟩
    | error e =>
      simp only [hact]
      exact ⟨h.writes_schedule _ [p], rfl⟩

theorem IsTree.ends_clear (p : Path) :
    (clear p).Ends v (fun _ v' => Writes [p] v v' ∧ v'.bytes? p = some [])
      fun _ v' => Writes [] v v' := by
  refine ends_call (fun s r hr => ?_) fun s e _ => h.writes_schedule s []
  obtain ⟨hw, hb⟩ := (h.writes_schedule s []).tree.writes_of_clearCall hr
  exact ⟨hw.of_schedule, hb⟩

theorem IsTree.ends_remove (p : Path) :
    (remove p).Ends v (fun _ v' => Writes [p] v v' ∧ v'.bytes? p = none)
      fun e v' => Writes [] v v' ∧ (e.cause = .notFound → v.bytes? p = none) := by
  refine ends_call (fun s r hr => ?_) fun s e he => ⟨h.writes_schedule s [], fun hcause => ?_⟩
  · obtain ⟨hw, hb⟩ := (h.writes_schedule s []).tree.writes_of_removeCall hr
    exact ⟨hw.of_schedule, hb⟩
  · rcases he with he | he
    · exact bytes?_of_removeCall_error (v := { v with schedule := s }) he
    · rw [hcause] at he
      cases he

theorem IsTree.ends_removeIfPresent (p : Path) :
    (removeIfPresent p).Ends v (fun _ v' => Writes [p] v v' ∧ v'.bytes? p = none)
      fun _ v' => Writes [] v v' := by
  refine (h.ends_remove p).tryCatch fun e v₁ ⟨hw, he⟩ => ?_
  split
  · rename_i hcause
    refine TryDisk.ends_pure ⟨hw.mono (List.nil_subset _), ?_⟩
    rw [hw.spares p List.not_mem_nil]
    exact he hcause
  · exact TryDisk.ends_throw hw

theorem IsTree.ends_rename (src dst : Path) :
    (rename src dst).Ends v
      (fun _ v' => Writes [src, dst] v v' ∧ v'.bytes? dst = v.bytes? src)
      fun _ v' => Writes [] v v' := by
  refine ends_call (fun s r hr => ?_) fun s e _ => h.writes_schedule s []
  obtain ⟨hw, hb⟩ := (h.writes_schedule s []).tree.writes_of_renameCall hr
  exact ⟨hw.of_schedule, hb⟩

theorem IsTree.ends_discard (p : Path) :
    (discard p).Ends v fun _ v' => Writes [p] v v' ∧ v'.bytes? p = none := by
  rw [Disk.Ends]
  by_cases hf : ∃ bytes, v.HasFile p bytes
  · obtain ⟨bytes, hf⟩ := hf
    rw [run_discard hf]
    exact h.writes_drop hf
  · rw [run_discard_of_not_hasFile (not_exists.1 hf)]
    exact ⟨h.writes_refl [p], bytes?_eq_none_iff.2 (not_exists.1 hf)⟩

theorem IsTree.ends_nextSerial :
    nextSerial.Ends v fun n v' => n = v.serial ∧ Writes [] v v' ∧ v'.serial = v.serial + 1 :=
  ⟨rfl, ⟨h, fun _ _ => rfl, Nat.le_succ _⟩, rfl⟩

theorem IsTree.ends_createDirectories (p : Path) :
    (createDirectories p).Ends v (fun _ v' => Writes [] v v') fun _ v' => Writes [] v v' :=
  ends_call
    (fun s _ hr => ((h.writes_schedule s []).tree.writes_of_createDirectoriesCall hr).of_schedule)
    fun s _ _ => h.writes_schedule s []

/-- A directory is removed with everything in it, or there was none. -/
theorem IsTree.ends_removeTree (hpass : v.nextFault.1 = .pass) (p : Path) :
    (removeTree p).Ends v
      (fun _ v' => v'.IsTree ∧ ∀ q : Path, q.isChildOf p = true → v'.bytes? q = none)
      fun _ v' => v'.IsTree ∧ ∀ q : Path, q.isChildOf p = true → v'.bytes? q = none := by
  refine ends_call_of_pass hpass (fun s r hr => ?_) fun s e he => ?_
  · obtain ⟨htree, hgone⟩ := (h.writes_schedule s []).tree.of_removeTreeCall hr
    exact ⟨htree, fun q hq => hgone q (Path.isWithin_of_isChildOf hq)⟩
  · refine ⟨(h.writes_schedule s []).tree, fun q hq => bytes?_of_not_directory (fun hp => ?_) hq⟩
    rw [removeTreeCall, hp] at he
    cases he

end Files

end Volume

end TrieOverlay
