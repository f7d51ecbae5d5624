import Xv6.Process.Effect

/-!
# Every step has one of the five effects

The functions of the model one by one. A step that continues after a sleep first clears the channel of
the process and then does what the function does, so it has two effects.
-/

namespace Xv6.Process

variable {s s' : State} {p : Slot} {es : List Event}

/-! ## Rescheduling -/

section

variable (h : Tree s)
include h

theorem effect_refl : Effect s s [] :=
  .quiet s.proc s.current (fun _ => .refl _) (fun _ => rfl) h.running fun _ => .inl

/-- The running process changes its own record and goes on. -/
theorem effect_stay (hp : s.current = some p) {x : Proc} (hpid : x.pid = (s.proc p).pid)
    (hxstate : x.xstate = (s.proc p).xstate) (hparent : x.parent = (s.proc p).parent)
    (hrun : x.state = .running) : Effect s ⟨s.proc.set p x, s.nextpid, s.current⟩ [] := by
  have hx : (s.proc p).Resched x :=
    .of_live hpid hxstate (h.live_of_current hp) (.inr (.inr hrun))
  refine .quiet _ _ (Table.resched_set hx) ?_ ?_ ?_
  · intro q
    by_cases hq : q = p
    · rw [hq, Table.set_self, hparent]
    · rw [Table.set_of_ne hq]
  · intro q
    by_cases hq : q = p
    · rw [hq, Table.set_self]
      exact ⟨fun _ => hp, fun _ => hrun⟩
    · rw [Table.set_of_ne hq]
      exact h.running q
  · intro q hq
    by_cases hqp : q = p
    · rw [hqp, Table.set_self] at hq
      exact absurd (hq.1.symm.trans hrun) (by simp)
    · rw [Table.set_of_ne hqp] at hq
      exact .inl hq

/-- The running process changes its own record and gives up the processor. -/
theorem effect_leave (hp : s.current = some p) {x : Proc}
    (hpid : x.pid = (s.proc p).pid) (hxstate : x.xstate = (s.proc p).xstate)
    (hparent : x.parent = (s.proc p).parent) (hlive : x.Live) (hrun : x.state ≠ .running)
    (halert : x.sched.Asleep (.slot p) →
      ∀ c, (s.proc c).parent = some p → (s.proc c).state ≠ .zombie) :
    Effect s ⟨s.proc.set p x, s.nextpid, none⟩ [] := by
  have hx : (s.proc p).Resched x := .of_live hpid hxstate (h.live_of_current hp) hlive
  refine .quiet _ _ (Table.resched_set hx) ?_ ?_ ?_
  · intro q
    by_cases hq : q = p
    · rw [hq, Table.set_self, hparent]
    · rw [Table.set_of_ne hq]
  · intro q
    by_cases hq : q = p
    · rw [hq, Table.set_self]
      exact ⟨fun h' => absurd h' hrun, nofun⟩
    · rw [Table.set_of_ne hq, h.running q, hp]
      exact ⟨fun h' => absurd (Option.some.inj h').symm hq, nofun⟩
  · intro q hq
    by_cases hqp : q = p
    · rw [hqp, Table.set_self] at hq
      rw [hqp]
      exact .inr (halert hq)
    · rw [Table.set_of_ne hqp] at hq
      exact .inl hq

/-- Sleeping on an address other than a slot. -/
theorem effect_sleep (hp : s.current = some p) (c : Nat) (at' : Place) :
    Effect s { s with proc := s.proc.sleep p (.other c) at', current := none } [] := by
  refine effect_leave h hp rfl rfl rfl (.inl rfl) (by simp [Proc.state, Sched.sleep]) ?_
  intro hasleep
  cases Sched.asleep_sleep.mp hasleep

theorem effect_awake (hp : s.current = some p) : Effect s (s.awake p) [] :=
  effect_stay h hp rfl rfl rfl ((h.running p).mpr hp)

theorem effect_back (hp : s.current = some p) : Effect s (s.back p) [] :=
  effect_stay h hp rfl rfl rfl ((h.running p).mpr hp)

theorem effect_dispatch (hcur : s.current = none) (hrun : (s.proc p).state = .runnable) :
    Effect s { s with
      proc := s.proc.set p { s.proc p with sched := { (s.proc p).sched with state := .running } }
      current := some p } [] := by
  have hx : (s.proc p).Resched { s.proc p with sched := { (s.proc p).sched with state := .running } } :=
    .of_live rfl rfl (.inr (.inl hrun)) (.inr (.inr rfl))
  refine .quiet _ _ (Table.resched_set hx) ?_ ?_ ?_
  · intro q
    by_cases hq : q = p
    · rw [hq, Table.set_self]
    · rw [Table.set_of_ne hq]
  · intro q
    by_cases hq : q = p
    · rw [hq, Table.set_self]
      exact ⟨fun _ => rfl, fun _ => rfl⟩
    · rw [Table.set_of_ne hq, h.running q, hcur]
      exact ⟨nofun, fun h' => absurd (Option.some.inj h').symm hq⟩
  · intro q hq
    by_cases hqp : q = p
    · rw [hqp, Table.set_self] at hq
      cases hq.1
    · rw [Table.set_of_ne hqp] at hq
      exact .inl hq

/-- Sleepers are woken and nothing else happens. -/
theorem effect_roused {t : Table} (hr : ∀ q, (s.proc q).Resched (t q))
    (hparent : ∀ q, (t q).parent = (s.proc q).parent)
    (hroused : ∀ q, (s.proc q).sched.Roused (t q).sched) : Effect s { s with proc := t } [] :=
  .quiet t s.current hr hparent (fun q => (hroused q).running_iff.trans (h.running q))
    fun q hq => .inl ((hroused q).asleep hq)

theorem effect_wakeup (c : Chan) : Effect s { s with proc := s.proc.wakeup s.current c } [] :=
  effect_roused h (Table.resched_wakeup s.current c s.proc)
    (Table.wakeup_parent s.current c s.proc) (Table.roused_wakeup s.current c s.proc)

theorem effect_kill (pid : Int32) : Effect s { s with proc := s.proc.kill pid } [] := by
  unfold Table.kill
  split
  · rename_i q hfind
    have hq : (s.proc q).pid = pid ∧ (s.proc q).state ≠ .unused := by
      simpa using List.find?_some hfind
    refine effect_roused h (Table.resched_set (.kill hq.2)) ?_ ?_
    · intro r
      by_cases hr : r = q
      · rw [hr, Table.set_self]
      · rw [Table.set_of_ne hr]
    · intro r
      by_cases hr : r = q
      · rw [hr, Table.set_self]
        exact .kill _
      · rw [Table.set_of_ne hr]
        exact .inl rfl
  · exact effect_refl h

end

/-! ## Fork -/

theorem Table.set_set (t : Table) (q : Slot) (x y : Proc) : (t.set q x).set q y = t.set q y := by
  simp [set]

theorem Table.set_eq_self (t : Table) (q : Slot) : t.set q (t q) = t := by
  simp [set]

/-- A slot that is allocated and freed again is as before. -/
theorem set_free (h : Tree s) {q : Slot} (hq : (s.proc q).state = .unused) (x : Proc) :
    (s.proc.set q x).set q .free = s.proc := by
  rw [Table.set_set, ← h.free q hq, Table.set_eq_self]

theorem effect_fork (h : Tree s) (hp : s.current = some p) (frames copied : Bool) :
    Effect s (s.fork p frames copied).1 (s.fork p frames copied).2 := by
  unfold State.fork State.allocproc
  cases hfind : (List.finRange NPROC).find? fun q => (s.proc q).state = .unused with
  | none => exact effect_refl h
  | some np =>
    have hnp : (s.proc np).state = .unused := by simpa using List.find?_some hfind
    have hne : p ≠ np := by
      intro heq
      exact (h.live_of_current hp).ne_unused (heq ▸ hnp)
    have hfree : s.proc np = .free := h.free np hnp
    cases frames with
    | false =>
      simp only [Bool.false_eq_true, if_false, State.freeproc, State.setProc]
      rw [set_free h hnp]
      exact .spent
    | true =>
      cases copied with
      | false =>
        simp only [Bool.false_eq_true, if_false, if_true, State.freeproc, State.setProc]
        rw [set_free h hnp]
        exact .spent
      | true =>
        simp only [if_true, State.setProc, Table.set_self, Table.set_of_ne hne, Table.set_set, hfree]
        exact .fork p np hp hnp

/-! ## Exit -/

theorem effect_exit (h : Tree s) (hp : s.current = some p) (hne : p ≠ 0) (status : Int32) :
    Effect s (s.exit p status).1 (s.exit p status).2 := by
  -- the table after `reparent` and `wakeup`
  obtain ⟨t, ht⟩ : ∃ t, t = s.proc.reparent s.current p := ⟨_, rfl⟩
  obtain ⟨u, hu⟩ : ∃ u, u = t.wakeParent s.current p := ⟨_, rfl⟩
  have hexit : s.exit p status = ({ s with
          proc := u.set p
            { u p with sched := { (u p).sched with state := .zombie }, xstate := status, place := .user }
          current := none },
        [.exit (s.proc p).pid status]) := by
    simp only [State.exit, hu, ht]
  have hres : ∀ q, (s.proc q).Resched (u q) := by
    intro q
    have hrep : (s.proc q).Resched (t q) := ht ▸ Table.reparent_resched s.proc q
    rw [hu]
    exact hrep.trans (Table.resched_wakeParent s.current p t q)
  have hroused : ∀ q, (s.proc q).sched.Roused (u q).sched := by
    intro q
    have hrep : (s.proc q).sched.Roused (t q).sched := ht ▸ Table.reparent_roused s.proc q
    rw [hu]
    exact hrep.trans (Table.roused_wakeParent s.current p t q)
  have hparent : ∀ q, (u q).parent = if (s.proc q).parent = some p then some 0 else (s.proc q).parent := by
    intro q
    rw [hu, Table.wakeParent_parent, ht, Table.reparent_parent hne]
  have hasleep : ∀ q, q ≠ p → (u q).sched.Asleep (.slot q) → (s.proc q).sched.Asleep (.slot q) ∧
      (u p).parent ≠ some q ∧ (q = 0 → ∀ c, (s.proc c).parent ≠ some p) := by
    intro q hqp hq
    have hme : some q ≠ s.current := by
      rw [hp]
      exact fun heq => hqp (Option.some.inj heq)
    rw [hu] at hq
    obtain ⟨hold, hnot⟩ := Table.asleep_wakeParent hme hq
    rw [ht] at hold
    obtain ⟨hbefore, hzero⟩ := Table.asleep_of_reparent hne hold
    refine ⟨hbefore, ?_, ?_⟩
    · rw [hu, Table.wakeParent_parent]
      exact hnot
    · intro hq0 c hc
      exact (hzero c hc).resolve_left hme (by rw [hq0])
  rw [hexit]
  refine .exit p status _ hp hne ?_ ?_ ?_ ?_ ?_ ?_ ?_
  · rw [Table.set_self]
    exact (hres p).pid
  · rw [Table.set_self]
    rfl
  · rw [Table.set_self]
  · intro q hq
    rw [Table.set_of_ne hq]
    exact hres q
  · intro q
    by_cases hq : q = p
    · rw [hq, Table.set_self]
      exact hparent p
    · rw [Table.set_of_ne hq]
      exact hparent q
  · intro q
    by_cases hq : q = p
    · rw [hq, Table.set_self]
      simp [Proc.state]
    · rw [Table.set_of_ne hq]
      show (u q).sched.state ≠ .running
      rw [Ne, (hroused q).running_iff]
      show ¬ (s.proc q).state = .running
      rw [h.running q, hp]
      exact fun heq => hq (Option.some.inj heq).symm
  · intro q hq
    by_cases hqp : q = p
    · rw [hqp, Table.set_self] at hq
      cases hq.1
    · rw [Table.set_of_ne hqp] at hq
      rw [Table.set_self]
      exact hasleep q hqp hq

/-! ## Wait -/

theorem back_self : (s.back p).proc p = { s.proc p with place := .user } :=
  Table.set_self s.proc p _

theorem back_of_ne {r : Slot} (hr : r ≠ p) : (s.back p).proc r = s.proc r :=
  Table.set_of_ne hr s.proc _

theorem effect_wait (h : Tree s) (hp : s.current = some p) (addr : UInt64) (copyout : Bool) :
    Effect s (s.wait p addr copyout).1 (s.wait p addr copyout).2 := by
  have hback := effect_back h hp
  unfold State.wait
  cases hfind : s.proc.zombieChild p with
  | some q =>
    have hq : (s.proc q).parent = some p ∧ (s.proc q).state = .zombie := by
      simpa using List.find?_some hfind
    dsimp only
    split
    · exact hback
    · refine .reap p q addr _ hp hq.1 hq.2 (Table.set_self _ _ _) ?_ ?_ ?_
      · intro r hr
        rw [Table.set_of_ne hr]
        have hx : (s.proc p).Resched { s.proc p with place := .user } :=
          .of_live rfl rfl (h.live_of_current hp) (h.live_of_current hp)
        exact Table.resched_set hx r
      · intro r hr
        rw [Table.set_of_ne hr]
        by_cases hrp : r = p
        · rw [hrp, back_self]
        · rw [back_of_ne hrp]
      · intro r hr
        rw [Table.set_of_ne hr]
        by_cases hrp : r = p
        · rw [hrp, back_self]
        · rw [back_of_ne hrp]
  | none =>
    dsimp only
    split
    · exact hback
    · refine effect_leave h hp rfl rfl rfl (.inl rfl) (by simp [Proc.state, Sched.sleep]) ?_
      intro _ c hc hz
      have hnone := List.find?_eq_none.mp hfind c (List.mem_finRange c)
      simp [hc, hz] at hnone

/-! ## All steps -/

/-- At most the second effect of a step uses up a process id, and only where the step calls
`allocproc`. -/
structure Effects (s s' : State) (es : List Event) (allocs : Bool) : Prop where
  effects : ∃ s₁, Effect s s₁ [] ∧ Effect s₁ s' es ∧ s₁.nextpid = s.nextpid
  nextpid : allocs = false → s'.nextpid = s.nextpid

theorem wait_nextpid (s : State) (p : Slot) (addr : UInt64) (copyout : Bool) :
    (s.wait p addr copyout).1.nextpid = s.nextpid := by
  unfold State.wait
  cases s.proc.zombieChild p with
  | some q =>
    dsimp only
    split <;> rfl
  | none =>
    dsimp only
    split <;> rfl

theorem effect_of_stepOf (h : Tree s) (hp : s.current = some p) {a : Action}
    (hstep : stepOf s p a = some (s', es)) : Effects s s' es a.allocs := by
  have hself := effect_refl h
  have hawake := effect_awake h hp
  have hcur : (s.awake p).current = some p := hp
  cases a with
  | dispatch q => cases hstep
  | wakeup c => cases hstep
  | yield =>
    obtain ⟨-, ⟨⟩⟩ := Option.ite_none_right_eq_some.mp hstep
    refine ⟨⟨s, hself, effect_leave h hp rfl rfl rfl (.inr (.inl rfl)) (by simp [Proc.state]) ?_, rfl⟩,
      fun _ => rfl⟩
    intro hasleep
    cases hasleep.1
  | fork frames copied =>
    obtain ⟨-, hs⟩ := Option.ite_none_right_eq_some.mp hstep
    have heff := effect_fork h hp frames copied
    rw [Option.some.inj hs] at heff
    exact ⟨⟨s, hself, heff, rfl⟩, fun h' => by cases h'⟩
  | exit status =>
    obtain ⟨⟨-, hne⟩, hs⟩ := Option.ite_none_right_eq_some.mp hstep
    have heff := effect_exit h hp hne status
    have hnext : (s.exit p status).1.nextpid = s.nextpid := rfl
    rw [Option.some.inj hs] at heff hnext
    exact ⟨⟨s, hself, heff, rfl⟩, fun _ => hnext⟩
  | exitSleep status c =>
    obtain ⟨-, ⟨⟩⟩ := Option.ite_none_right_eq_some.mp hstep
    exact ⟨⟨s, hself, effect_sleep h hp c _, rfl⟩, fun _ => rfl⟩
  | wait addr copyout =>
    obtain ⟨-, hs⟩ := Option.ite_none_right_eq_some.mp hstep
    have heff := effect_wait h hp addr copyout
    have hnext := wait_nextpid s p addr copyout
    rw [Option.some.inj hs] at heff hnext
    exact ⟨⟨s, hself, heff, rfl⟩, fun _ => hnext⟩
  | kill pid =>
    obtain ⟨-, ⟨⟩⟩ := Option.ite_none_right_eq_some.mp hstep
    exact ⟨⟨s, hself, effect_kill h pid, rfl⟩, fun _ => rfl⟩
  | sleep c =>
    obtain ⟨-, ⟨⟩⟩ := Option.ite_none_right_eq_some.mp hstep
    exact ⟨⟨s, hself, effect_sleep h hp c _, rfl⟩, fun _ => rfl⟩
  | resume copyout chan =>
    simp only [stepOf] at hstep
    cases hplace : (s.proc p).place with
    | user =>
      rw [hplace] at hstep
      cases hstep
    | syscall =>
      rw [hplace] at hstep
      cases hstep
      have htree := h.effect hawake
      exact ⟨⟨_, hawake, effect_back htree hcur, rfl⟩, fun _ => rfl⟩
    | waiting addr =>
      rw [hplace] at hstep
      have heff := effect_wait (h.effect hawake) hcur addr copyout
      have hnext := wait_nextpid (s.awake p) p addr copyout
      rw [Option.some.inj hstep] at heff hnext
      exact ⟨⟨_, hawake, heff, rfl⟩, fun _ => hnext⟩
    | exiting status =>
      rw [hplace] at hstep
      cases chan with
      | some c =>
        cases hstep
        exact ⟨⟨s, hself, effect_sleep h hp c _, rfl⟩, fun _ => rfl⟩
      | none =>
        obtain ⟨hne, hs⟩ := Option.ite_none_right_eq_some.mp hstep
        have heff := effect_exit (h.effect hawake) hcur hne status
        have hnext : ((s.awake p).exit p status).1.nextpid = s.nextpid := rfl
        rw [Option.some.inj hs] at heff hnext
        exact ⟨⟨_, hawake, heff, rfl⟩, fun _ => hnext⟩

/-- The actions other than `dispatch` and `wakeup` are those of the running process. -/
theorem stepOf_of_step {a : Action} (hstep : step s a = some (s', es)) (hd : ∀ p, a ≠ .dispatch p)
    (hw : ∀ c, a ≠ .wakeup c) : ∃ p, s.current = some p ∧ stepOf s p a = some (s', es) := by
  cases hcur : s.current with
  | none => cases a <;> simp_all [step]
  | some p => exact ⟨p, rfl, by cases a <;> simp_all [step]⟩

theorem effect_of_step (h : Tree s) {a : Action} (hstep : step s a = some (s', es)) : Effects s s' es a.allocs := by
  cases a with
  | dispatch p =>
    obtain ⟨⟨hcur, hrun⟩, ⟨⟩⟩ := Option.ite_none_right_eq_some.mp hstep
    exact ⟨⟨s, effect_refl h, effect_dispatch h hcur hrun, rfl⟩, fun _ => rfl⟩
  | wakeup c =>
    cases hstep
    exact ⟨⟨s, effect_refl h, effect_wakeup h (.other c), rfl⟩, fun _ => rfl⟩
  | _ =>
    obtain ⟨p, hcur, hs⟩ := stepOf_of_step hstep (by simp) (by simp)
    exact effect_of_stepOf h hcur hs

end Xv6.Process
