import Xv6.Process.Steps

/-!
# The life of a process

What holds of process ids and of the history of `fork`, `exit` and `wait` in every run. The history is
the list of events in their order; a process is named in it by its id. `Justified` says what must have
happened before an event.
-/

namespace Xv6.Process

variable {s s' : State} {es ev : List Event} {k : Int32} {n : Nat} {e : Event}

/-! ## Process ids -/

/-- After at most `n` calls of `allocproc` the ids in use are positive, distinct and below the next
one. -/
structure Pids (n : Nat) (s : State) : Prop where
  pos : 0 < s.nextpid.toInt
  le : s.nextpid.toInt ≤ n + 1
  range : ∀ q, (s.proc q).state ≠ .unused →
    0 < (s.proc q).pid.toInt ∧ (s.proc q).pid.toInt < s.nextpid.toInt
  inj : ∀ q r, (s.proc q).state ≠ .unused → (s.proc r).state ≠ .unused →
    (s.proc q).pid = (s.proc r).pid → q = r

theorem toInt_succ {x : Int32} (hpos : 0 < x.toInt) (hlt : x.toInt < 2 ^ 31 - 1) : (x + 1).toInt = x.toInt + 1 := by
  rw [Int32.toInt_add]
  have hone : (1 : Int32).toInt = 1 := by decide
  rw [hone]
  exact Int.bmod_eq_of_le (by omega) (by omega)

theorem succ_ne (x : Int32) : x + 1 ≠ x := by
  intro h
  have hsub : 1 + x - x = x - x := by rw [Int32.add_comm 1 x, h]
  rw [Int32.add_sub_cancel, Int32.sub_self] at hsub
  cases hsub

/-- A slot that is in use after a step was in use before under the same id, unless `fork` made it. -/
theorem Effect.pid_cases (ht : Tree s) (he : Effect s s' ev) :
    (s'.nextpid = s.nextpid ∨ s'.nextpid = s.nextpid + 1) ∧
    ((∀ q, (s'.proc q).state ≠ .unused → (s'.proc q).pid = (s.proc q).pid ∧ (s.proc q).state ≠ .unused) ∨
      ∃ np, s'.nextpid = s.nextpid + 1 ∧ (s'.proc np).pid = s.nextpid ∧
        ∀ q, q ≠ np → (s'.proc q) = s.proc q) := by
  cases he with
  | quiet t cur hr hparent hrun halert =>
    refine ⟨.inl rfl, .inl ?_⟩
    intro q hq
    exact ⟨(hr q).pid, ((hr q).ne_unused_iff (ht.used q)).mp hq⟩
  | spent => exact ⟨.inr rfl, .inl fun q hq => ⟨rfl, hq⟩⟩
  | fork p np hp hnp =>
    refine ⟨.inr rfl, .inr ⟨np, rfl, ?_, ?_⟩⟩
    · simp [Proc.child]
    · exact fun q hq => Table.set_of_ne hq _ _
  | exit p status t hp hne hpid hstate hxstate hr hparent hrun halert =>
    refine ⟨.inl rfl, .inl ?_⟩
    intro q hq
    by_cases hqp : q = p
    · rw [hqp]
      exact ⟨hpid, (ht.live_of_current hp).ne_unused⟩
    · exact ⟨(hr q hqp).pid, ((hr q hqp).ne_unused_iff (ht.used q)).mp hq⟩
  | reap p q addr t hp hq hz hfree hr hparent hsched =>
    refine ⟨.inl rfl, .inl ?_⟩
    intro r hu
    by_cases hrq : r = q
    · rw [hrq] at hu
      exact absurd (by show (t q).state = _; rw [hfree]; rfl) hu
    · exact ⟨(hr r hrq).pid, ((hr r hrq).ne_unused_iff (ht.used r)).mp hu⟩

theorem Pids.effect {m : Nat} (h : Pids n s) (ht : Tree s) (he : Effect s s' ev)
    (hm : s'.nextpid = s.nextpid ∧ m = n ∨ m = n + 1 ∧ n < 2 ^ 31 - 2) : Pids m s' := by
  obtain ⟨hnext, hcases⟩ := he.pid_cases ht
  have hle := h.le
  have hgrow : s'.nextpid = s.nextpid ∨
      s'.nextpid = s.nextpid + 1 ∧ s'.nextpid.toInt = s.nextpid.toInt + 1 ∧ m = n + 1 := by
    rcases hnext with hsame | hsucc
    · exact .inl hsame
    · refine .inr ⟨hsucc, ?_⟩
      rcases hm with ⟨hsame, -⟩ | ⟨hm, hn⟩
      · exact absurd (hsucc.symm.trans hsame) (succ_ne _)
      · refine ⟨?_, hm⟩
        rw [hsucc]
        exact toInt_succ h.pos (by omega)
  have hmono : s.nextpid.toInt ≤ s'.nextpid.toInt := by
    rcases hgrow with hsame | ⟨-, hplus, -⟩
    · rw [hsame]
    · omega
  refine ⟨lt_of_lt_of_le h.pos hmono, ?_, ?_, ?_⟩
  · rcases hgrow with hsame | ⟨-, hplus, hmn⟩
    · rw [hsame]
      omega
    · omega
  · intro q hq
    rcases hcases with hold | ⟨np, hsucc, hpid, hother⟩
    · obtain ⟨hpid, hu⟩ := hold q hq
      have := h.range q hu
      rw [hpid]
      omega
    · by_cases hqn : q = np
      · have hpos := h.pos
        rcases hgrow with hsame | ⟨-, hplus, -⟩
        · exact absurd (hsucc.symm.trans hsame) (succ_ne _)
        · rw [hqn, hpid]
          omega
      · rw [hother q hqn] at hq ⊢
        have := h.range q hq
        omega
  · intro q r hq hr hqr
    rcases hcases with hold | ⟨np, -, hpid, hother⟩
    · obtain ⟨hpq, huq⟩ := hold q hq
      obtain ⟨hpr, hur⟩ := hold r hr
      exact h.inj q r huq hur (by rw [← hpq, ← hpr, hqr])
    · -- the new id is above all others
      have hfresh : ∀ u, u ≠ np → (s'.proc u).state ≠ .unused → (s'.proc u).pid ≠ s.nextpid := by
        intro u hu hused heq
        rw [hother u hu] at hused heq
        have := (h.range u hused).2
        rw [heq] at this
        omega
      by_cases hqn : q = np
      · by_cases hrn : r = np
        · rw [hqn, hrn]
        · refine absurd ?_ (hfresh r hrn hr)
          rw [← hqr, hqn, hpid]
      · by_cases hrn : r = np
        · refine absurd ?_ (hfresh q hqn hq)
          rw [hqr, hrn, hpid]
        · rw [hother q hqn] at hq hqr
          rw [hother r hrn] at hr hqr
          exact h.inj q r hq hr hqr

/-! ## History -/

/-- The id of the process in `proc[0]`. -/
def initpid : Int32 := ((userinit procinit).proc 0).pid

def Exited (es : List Event) (k : Int32) : Prop := ∃ v, .exit k v ∈ es

def Reaped (es : List Event) (k : Int32) : Prop := ∃ w addr st, .wait w k addr st ∈ es

/-- The process that waits for a child of `f`: `f` itself, or `proc[0]` once `f` has exited. -/
def Owner (es : List Event) (f w : Int32) : Prop :=
  Exited es f ∧ w = initpid ∨ ¬ Exited es f ∧ w = f

/-- What happened before an event. -/
def Justified (es : List Event) : Event → Prop
  | .fork _ k => ¬ ∃ f, .fork f k ∈ es
  | .exit k _ => ¬ Exited es k
  | .wait w k addr st => ¬ Reaped es k ∧
      (∃ v, .exit k v ∈ es ∧ st = if addr ≠ 0 then some v else none) ∧
      ∃ f, .fork f k ∈ es ∧ Owner es f w

/-- The history agrees with the table. -/
structure Hist (es : List Event) (s : State) : Prop where
  init : (s.proc 0).pid = initpid
  forked : ∀ f k, .fork f k ∈ es → k.toInt < s.nextpid.toInt
  exited : ∀ k, Exited es k → k.toInt < s.nextpid.toInt
  reaped : ∀ k, Reaped es k → Exited es k
  born : ∀ q, q ≠ 0 → (s.proc q).state ≠ .unused →
    ∃ f r, .fork f (s.proc q).pid ∈ es ∧ (s.proc q).parent = some r ∧ Owner es f (s.proc r).pid
  dead : ∀ q, (s.proc q).state = .zombie →
    .exit (s.proc q).pid (s.proc q).xstate ∈ es ∧ ¬ Reaped es (s.proc q).pid
  alive : ∀ q, (s.proc q).Live → ¬ Exited es (s.proc q).pid
  kept : ∀ k v, .exit k v ∈ es →
    (∃ q, (s.proc q).state = .zombie ∧ (s.proc q).pid = k ∧ (s.proc q).xstate = v) ∨ Reaped es k
  justified : ∀ pre e post, es = pre ++ e :: post → Justified pre e

theorem exited_append : Exited (es ++ [e]) k ↔ Exited es k ∨ ∃ v, e = .exit k v := by
  simp only [Exited, List.mem_append, List.mem_singleton]
  constructor
  · rintro ⟨v, h | h⟩
    · exact .inl ⟨v, h⟩
    · exact .inr ⟨v, h.symm⟩
  · rintro (⟨v, h⟩ | ⟨v, h⟩)
    · exact ⟨v, .inl h⟩
    · exact ⟨v, .inr h.symm⟩

theorem reaped_append : Reaped (es ++ [e]) k ↔ Reaped es k ∨ ∃ w addr st, e = .wait w k addr st := by
  simp only [Reaped, List.mem_append, List.mem_singleton]
  constructor
  · rintro ⟨w, addr, st, h | h⟩
    · exact .inl ⟨w, addr, st, h⟩
    · exact .inr ⟨w, addr, st, h.symm⟩
  · rintro (⟨w, addr, st, h⟩ | ⟨w, addr, st, h⟩)
    · exact ⟨w, addr, st, .inl h⟩
    · exact ⟨w, addr, st, .inr h.symm⟩

theorem exited_append_of_ne (he : ∀ v, e ≠ .exit k v) : Exited (es ++ [e]) k ↔ Exited es k := by
  rw [exited_append]
  exact ⟨fun h => h.resolve_right fun ⟨v, hv⟩ => he v hv, .inl⟩

theorem reaped_append_of_ne (he : ∀ w addr st, e ≠ .wait w k addr st) : Reaped (es ++ [e]) k ↔ Reaped es k := by
  rw [reaped_append]
  exact ⟨fun h => h.resolve_right fun ⟨w, addr, st, hv⟩ => he w addr st hv, .inl⟩

theorem justified_append (h : ∀ pre e post, es = pre ++ e :: post → Justified pre e) (he : Justified es e) :
    ∀ pre e' post, es ++ [e] = pre ++ e' :: post → Justified pre e' := by
  intro pre e' post heq
  rcases List.eq_nil_or_concat post with rfl | ⟨post, x, rfl⟩
  · obtain ⟨rfl, hlast⟩ := List.append_inj' heq rfl
    rw [← List.singleton_inj.mp hlast]
    exact he
  · rw [List.concat_eq_append, ← List.cons_append, ← List.append_assoc] at heq
    exact h pre e' post (List.append_inj' heq rfl).1

/-- An event other than `exit` does not change who waits. -/
theorem Owner.append {f w : Int32} (h : Owner es f w) (he : ∀ v, e ≠ .exit f v) : Owner (es ++ [e]) f w := by
  unfold Owner
  rw [exited_append_of_ne he]
  exact h

theorem Hist.quiet (h : Hist es s) (ht : Tree s) {t : Table} {cur : Option Slot} {next : Int32}
    (hnext : s.nextpid.toInt ≤ next.toInt) (hr : ∀ q, (s.proc q).Resched (t q))
    (hparent : ∀ q, (t q).parent = (s.proc q).parent) : Hist es ⟨t, next, cur⟩ where
  init := (hr 0).pid.trans h.init
  forked := fun f k hk => lt_of_lt_of_le (h.forked f k hk) hnext
  exited := fun k hk => lt_of_lt_of_le (h.exited k hk) hnext
  reaped := h.reaped
  born := by
    intro q hq hu
    obtain ⟨f, r, hf, hpar, hown⟩ := h.born q hq (((hr q).ne_unused_iff (ht.used q)).mp hu)
    refine ⟨f, r, ?_, (hparent q).trans hpar, ?_⟩
    · show Event.fork f (t q).pid ∈ es
      rw [(hr q).pid]
      exact hf
    · show Owner es f (t r).pid
      rw [(hr r).pid]
      exact hown
  dead := by
    intro q hz
    have hold := h.dead q (((hr q).zombie_iff (ht.used q)).mp hz)
    show Event.exit (t q).pid (t q).xstate ∈ es ∧ ¬ Reaped es (t q).pid
    rw [(hr q).pid, (hr q).xstate]
    exact hold
  alive := by
    intro q hlive
    have hold : (s.proc q).Live := by
      refine Proc.live_of_ne ?_ (ht.used q) ?_
      · exact ((hr q).ne_unused_iff (ht.used q)).mp hlive.ne_unused
      · exact fun hz => hlive.ne_zombie ((hr q).zombie hz)
    show ¬ Exited es (t q).pid
    rw [(hr q).pid]
    exact h.alive q hold
  kept := by
    intro k v hk
    rcases h.kept k v hk with ⟨q, hz, hpid, hx⟩ | hreap
    · exact .inl ⟨q, (hr q).zombie hz, (hr q).pid.trans hpid, (hr q).xstate.trans hx⟩
    · exact .inr hreap
  justified := h.justified

theorem Hist.fork (h : Hist es s) (ht : Tree s) {p np : Slot}
    (hp : s.current = some p) (hnp : (s.proc np).state = .unused)
    (hsucc : (s.nextpid + 1).toInt = s.nextpid.toInt + 1) :
    Hist (es ++ [.fork (s.proc p).pid s.nextpid])
      ⟨s.proc.set np (.child p s.nextpid), s.nextpid + 1, s.current⟩ := by
  have hlive := ht.live_of_current hp
  have hset : ∀ q, q ≠ np → s.proc.set np (.child p s.nextpid) q = s.proc q :=
    fun q hq => Table.set_of_ne hq _ _
  have hne : ∀ q, (s.proc q).state ≠ .unused → q ≠ np := fun q hq heq => hq (heq ▸ hnp)
  have hexited : ∀ k, Exited (es ++ [.fork (s.proc p).pid s.nextpid]) k ↔ Exited es k := by
    exact fun k => exited_append_of_ne (by simp)
  have hreaped : ∀ k, Reaped (es ++ [.fork (s.proc p).pid s.nextpid]) k ↔ Reaped es k := by
    exact fun k => reaped_append_of_ne (by simp)
  refine ⟨?_, ?_, ?_, ?_, ?_, ?_, ?_, ?_, ?_⟩
  · show (s.proc.set np (.child p s.nextpid) 0).pid = initpid
    rw [hset 0 (hne 0 ht.init.ne_unused)]
    exact h.init
  · intro f k hk
    show k.toInt < (s.nextpid + 1).toInt
    rcases List.mem_append.mp hk with hold | hnew
    · have := h.forked f k hold
      omega
    · cases List.mem_singleton.mp hnew
      omega
  · intro k hk
    show k.toInt < (s.nextpid + 1).toInt
    have := h.exited k ((hexited k).mp hk)
    omega
  · intro k hk
    exact (hexited k).mpr (h.reaped k ((hreaped k).mp hk))
  · intro q hq hu
    by_cases hqn : q = np
    · refine ⟨(s.proc p).pid, p, ?_, ?_, .inr ⟨?_, ?_⟩⟩
      · simp [hqn, Proc.child]
      · simp [hqn, Proc.child]
      · rw [hexited]
        exact h.alive p hlive
      · show (s.proc.set np _ p).pid = _
        rw [hset p (hne p hlive.ne_unused)]
    · simp only [hset q hqn] at hu ⊢
      obtain ⟨f, r, hf, hpar, hown⟩ := h.born q hq hu
      refine ⟨f, r, List.mem_append_left _ hf, hpar, ?_⟩
      obtain ⟨r', hr', hrlive⟩ := ht.parent q hq hu
      cases hpar.symm.trans hr'
      rw [hset r (hne r hrlive.ne_unused)]
      exact hown.append fun v hv => by cases hv
  · intro q hz
    by_cases hqn : q = np
    · simp [hqn, Proc.child, Proc.state] at hz
    · simp only [hset q hqn] at hz ⊢
      obtain ⟨hex, hre⟩ := h.dead q hz
      exact ⟨List.mem_append_left _ hex, fun hr => hre ((hreaped _).mp hr)⟩
  · intro q hq hex
    rw [hexited] at hex
    by_cases hqn : q = np
    · have := h.exited _ hex
      simp [hqn, Proc.child] at this
    · simp only [hset q hqn] at hq hex
      exact h.alive q hq hex
  · intro k v hk
    have hold : Event.exit k v ∈ es := by
      rcases List.mem_append.mp hk with hold | hnew
      · exact hold
      · cases List.mem_singleton.mp hnew
    rcases h.kept k v hold with ⟨q, hz, hpid, hx⟩ | hre
    · have hqn := hne q (by rw [hz]; simp)
      refine .inl ⟨q, ?_⟩
      simp only [hset q hqn]
      exact ⟨hz, hpid, hx⟩
    · exact .inr ((hreaped k).mpr hre)
  · refine justified_append h.justified ?_
    rintro ⟨f, hf⟩
    have := h.forked f _ hf
    omega

theorem Hist.exit (h : Hist es s) (ht : Tree s) (hpids : Pids n s) {p : Slot}
    {status : Int32} {t : Table} (hp : s.current = some p) (hne : p ≠ 0)
    (hpid : (t p).pid = (s.proc p).pid) (hstate : (t p).state = .zombie)
    (hxstate : (t p).xstate = status) (hr : ∀ q, q ≠ p → (s.proc q).Resched (t q))
    (hparent : ∀ q, (t q).parent =
      if (s.proc q).parent = some p then some 0 else (s.proc q).parent) :
    Hist (es ++ [.exit (s.proc p).pid status]) ⟨t, s.nextpid, none⟩ := by
  have hlive := ht.live_of_current hp
  have hfresh := h.alive p hlive
  have hpids' : ∀ q, (t q).pid = (s.proc q).pid := by
    intro q
    by_cases hqp : q = p
    · rw [hqp]
      exact hpid
    · exact (hr q hqp).pid
  have hold : ∀ q, (t q).state ≠ .unused → (s.proc q).state ≠ .unused := by
    intro q hu
    by_cases hqp : q = p
    · rw [hqp]
      exact hlive.ne_unused
    · exact ((hr q hqp).ne_unused_iff (ht.used q)).mp hu
  have hother : ∀ q, q ≠ p → (s.proc q).state ≠ .unused → (s.proc q).pid ≠ (s.proc p).pid :=
    fun q hqp hu heq => hqp (hpids.inj q p hu hlive.ne_unused heq)
  have hexited : ∀ k, Exited (es ++ [.exit (s.proc p).pid status]) k ↔ Exited es k ∨ k = (s.proc p).pid := by
    intro k
    rw [exited_append]
    refine or_congr Iff.rfl ⟨?_, ?_⟩
    · rintro ⟨v, hv⟩
      cases hv
      rfl
    · rintro rfl
      exact ⟨status, rfl⟩
  have hreaped : ∀ k, Reaped (es ++ [.exit (s.proc p).pid status]) k ↔ Reaped es k := by
    exact fun k => reaped_append_of_ne (by simp)
  refine ⟨(hpids' 0).trans h.init, ?_, ?_, ?_, ?_, ?_, ?_, ?_, ?_⟩
  · intro f k hk
    refine h.forked f k ?_
    rcases List.mem_append.mp hk with hk | hk
    · exact hk
    · cases List.mem_singleton.mp hk
  · intro k hk
    rcases (hexited k).mp hk with hk | rfl
    · exact h.exited k hk
    · exact (hpids.range p hlive.ne_unused).2
  · intro k hk
    exact (hexited k).mpr (.inl (h.reaped k ((hreaped k).mp hk)))
  · intro q hq hu
    obtain ⟨f, r, hf, hpar, hown⟩ := h.born q hq (hold q hu)
    have hf' : Event.fork f (t q).pid ∈ es ++ [.exit (s.proc p).pid status] := by
      rw [hpids']
      exact List.mem_append_left _ hf
    by_cases hrp : r = p
    · -- the parent exits: its children wait for `proc[0]`
      subst hrp
      refine ⟨f, 0, hf', ?_, .inl ⟨?_, (hpids' 0).trans h.init⟩⟩
      · rw [hparent q, if_pos hpar]
      · rw [hexited]
        rcases hown with ⟨hex, -⟩ | ⟨-, heq⟩
        · exact .inl hex
        · exact .inr heq.symm
    · have hrlive : (s.proc r).state ≠ .unused := by
        obtain ⟨r', hr', hl⟩ := ht.parent q hq (hold q hu)
        cases hpar.symm.trans hr'
        exact hl.ne_unused
      refine ⟨f, r, hf', ?_, ?_⟩
      · rw [hparent q, if_neg]
        · exact hpar
        · exact fun hp' => hrp (Option.some.inj (hpar.symm.trans hp'))
      · show Owner _ f (t r).pid
        rw [hpids']
        rcases hown with ⟨hex, heq⟩ | ⟨hnot, heq⟩
        · exact .inl ⟨(hexited f).mpr (.inl hex), heq⟩
        · refine .inr ⟨?_, heq⟩
          rw [hexited, ← heq]
          rintro (hex | heq')
          · exact hnot (heq ▸ hex)
          · exact hother r hrp hrlive heq'
  · intro q hz
    show Event.exit (t q).pid (t q).xstate ∈ _ ∧ ¬ Reaped _ (t q).pid
    rw [hpids', hreaped]
    by_cases hqp : q = p
    · rw [hqp, hxstate]
      refine ⟨by simp, ?_⟩
      exact fun hre => hfresh (h.reaped _ hre)
    · obtain ⟨hex, hre⟩ := h.dead q (((hr q hqp).zombie_iff (ht.used q)).mp hz)
      rw [(hr q hqp).xstate]
      exact ⟨List.mem_append_left _ hex, hre⟩
  · intro q hq
    have hqp : q ≠ p := by
      intro heq
      rw [heq] at hq
      exact hq.ne_zombie hstate
    have hlive' : (s.proc q).Live := by
      refine Proc.live_of_ne (hold q hq.ne_unused) (ht.used q) ?_
      exact fun hz => hq.ne_zombie ((hr q hqp).zombie hz)
    show ¬ Exited _ (t q).pid
    rw [hpids', hexited]
    rintro (hex | heq)
    · exact h.alive q hlive' hex
    · exact hother q hqp hlive'.ne_unused heq
  · intro k v hk
    rcases List.mem_append.mp hk with hk | hk
    · rcases h.kept k v hk with ⟨q, hz, hq, hx⟩ | hre
      · have hqp : q ≠ p := by
          intro heq
          rw [heq] at hz
          exact hlive.ne_zombie hz
        exact .inl ⟨q, (hr q hqp).zombie hz, (hpids' q).trans hq, (hr q hqp).xstate.trans hx⟩
      · exact .inr ((hreaped k).mpr hre)
    · cases List.mem_singleton.mp hk
      exact .inl ⟨p, hstate, hpid, hxstate⟩
  · exact justified_append h.justified hfresh

theorem Hist.reap (h : Hist es s) (ht : Tree s) (hpids : Pids n s) {p q : Slot}
    {addr : UInt64} {t : Table} (hq : (s.proc q).parent = some p)
    (hz : (s.proc q).state = .zombie) (hfree : t q = .free)
    (hr : ∀ r, r ≠ q → (s.proc r).Resched (t r))
    (hparent : ∀ r, r ≠ q → (t r).parent = (s.proc r).parent) :
    Hist (es ++ [.wait (s.proc p).pid (s.proc q).pid addr
      (if addr ≠ 0 then some (s.proc q).xstate else none)]) ⟨t, s.nextpid, s.current⟩ := by
  have hqu : (s.proc q).state ≠ .unused := by rw [hz]; simp
  have hother : ∀ r, r ≠ q → (s.proc r).state ≠ .unused → (s.proc r).pid ≠ (s.proc q).pid :=
    fun r hrq hu heq => hrq (hpids.inj r q hu hqu heq)
  have hstate : (t q).state = .unused := by rw [hfree]; rfl
  have hqlive : ∀ r, (s.proc r).Live → r ≠ q := fun r hl heq => hl.ne_zombie (heq ▸ hz)
  obtain ⟨hex, hre⟩ := h.dead q hz
  have hq0 : q ≠ 0 := fun heq => ht.init.ne_zombie (heq ▸ hz)
  have hexited : ∀ k, Exited (es ++ [.wait (s.proc p).pid (s.proc q).pid addr
      (if addr ≠ 0 then some (s.proc q).xstate else none)]) k ↔ Exited es k := by
    exact fun k => exited_append_of_ne (by simp)
  have hreaped : ∀ k, Reaped (es ++ [.wait (s.proc p).pid (s.proc q).pid addr
      (if addr ≠ 0 then some (s.proc q).xstate else none)]) k ↔
      Reaped es k ∨ k = (s.proc q).pid := by
    intro k
    rw [reaped_append]
    refine or_congr Iff.rfl ⟨?_, ?_⟩
    · rintro ⟨w, a, st, hv⟩
      cases hv
      rfl
    · rintro rfl
      exact ⟨_, _, _, rfl⟩
  refine ⟨(hr 0 (Ne.symm hq0)).pid.trans h.init, ?_, ?_, ?_, ?_, ?_, ?_, ?_, ?_⟩
  · intro f k hk
    refine h.forked f k ?_
    rcases List.mem_append.mp hk with hk | hk
    · exact hk
    · cases List.mem_singleton.mp hk
  · intro k hk
    exact h.exited k ((hexited k).mp hk)
  · intro k hk
    rw [hexited]
    rcases (hreaped k).mp hk with hk | rfl
    · exact h.reaped k hk
    · exact ⟨_, hex⟩
  · intro r hr0 hu
    have hrq : r ≠ q := fun heq => hu (heq ▸ hstate)
    have hu' := ((hr r hrq).ne_unused_iff (ht.used r)).mp hu
    obtain ⟨f, u, hf, hpar, hown⟩ := h.born r hr0 hu'
    obtain ⟨u', hu'', hl⟩ := ht.parent r hr0 hu'
    cases hpar.symm.trans hu''
    refine ⟨f, u, ?_, (hparent r hrq).trans hpar, ?_⟩
    · show Event.fork f (t r).pid ∈ _
      rw [(hr r hrq).pid]
      exact List.mem_append_left _ hf
    · show Owner _ f (t u).pid
      rw [(hr u (hqlive u hl)).pid]
      exact hown.append fun v hv => by cases hv
  · intro r hzr
    have hrq : r ≠ q := by
      intro heq
      rw [heq] at hzr
      exact absurd (hstate.symm.trans hzr) (by simp)
    have hzr' := ((hr r hrq).zombie_iff (ht.used r)).mp hzr
    obtain ⟨hexr, hrer⟩ := h.dead r hzr'
    show Event.exit (t r).pid (t r).xstate ∈ _ ∧ ¬ Reaped _ (t r).pid
    rw [(hr r hrq).pid, (hr r hrq).xstate, hreaped]
    refine ⟨List.mem_append_left _ hexr, ?_⟩
    rintro (hre' | heq)
    · exact hrer hre'
    · exact hother r hrq (by rw [hzr']; simp) heq
  · intro r hl
    have hrq : r ≠ q := fun heq => hl.ne_unused (heq ▸ hstate)
    have hl' : (s.proc r).Live := by
      refine Proc.live_of_ne ?_ (ht.used r) ?_
      · exact ((hr r hrq).ne_unused_iff (ht.used r)).mp hl.ne_unused
      · exact fun hz' => hl.ne_zombie ((hr r hrq).zombie hz')
    show ¬ Exited _ (t r).pid
    rw [(hr r hrq).pid, hexited]
    exact h.alive r hl'
  · intro k v hk
    have hk' : Event.exit k v ∈ es := by
      rcases List.mem_append.mp hk with hk | hk
      · exact hk
      · cases List.mem_singleton.mp hk
    rw [hreaped]
    rcases h.kept k v hk' with ⟨r, hzr, hpr, hxr⟩ | hre'
    · by_cases hrq : r = q
      · exact .inr (.inr (by rw [← hpr, hrq]))
      · exact .inl ⟨r, (hr r hrq).zombie hzr, (hr r hrq).pid.trans hpr, (hr r hrq).xstate.trans hxr⟩
    · exact .inr (.inl hre')
  · refine justified_append h.justified ⟨hre, ⟨_, hex, rfl⟩, ?_⟩
    obtain ⟨f, r, hf, hpar, hown⟩ := h.born q hq0 hqu
    cases hq.symm.trans hpar
    exact ⟨f, hf, hown⟩

/-! ## Runs -/

structure Inv (n : Nat) (es : List Event) (s : State) : Prop where
  tree : Tree s
  pids : Pids n s
  hist : Hist es s

theorem Inv.effect {m : Nat} (h : Inv n es s) (he : Effect s s' ev)
    (hm : s'.nextpid = s.nextpid ∧ m = n ∨ m = n + 1 ∧ n < 2 ^ 31 - 2) : Inv m (es ++ ev) s' := by
  refine ⟨h.tree.effect he, h.pids.effect h.tree he hm, ?_⟩
  -- where an id is used up, there was one left
  have hsucc : s'.nextpid = s.nextpid + 1 → (s.nextpid + 1).toInt = s.nextpid.toInt + 1 := by
    intro hnext
    have hle := h.pids.le
    rcases hm with ⟨hsame, -⟩ | ⟨-, hn⟩
    · exact absurd (hnext.symm.trans hsame) (succ_ne _)
    · exact toInt_succ h.pids.pos (by omega)
  cases he with
  | quiet t cur hr hparent hrun halert =>
    rw [List.append_nil]
    exact h.hist.quiet h.tree le_rfl hr hparent
  | spent =>
    rw [List.append_nil]
    refine h.hist.quiet h.tree ?_ (fun q => .refl _) fun q => rfl
    rw [hsucc rfl]
    omega
  | fork p np hp hnp => exact h.hist.fork h.tree hp hnp (hsucc rfl)
  | exit p status t hp hne hpid hstate hxstate hr hparent hrun halert =>
    exact h.hist.exit h.tree h.pids hp hne hpid hstate hxstate hr hparent
  | reap p q addr t hp hq hz hfree hr hparent hsched =>
    exact h.hist.reap h.tree h.pids hq hz hfree hr hparent

theorem Inv.step {a : Action} (h : Inv n es s) (hstep : step s a = some (s', ev))
    (hn : a.allocs → n < 2 ^ 31 - 2) :
    Inv (n + if a.allocs then 1 else 0) (es ++ ev) s' := by
  obtain ⟨⟨s1, hfirst, hsecond, hsame⟩, hnext⟩ := effect_of_step h.tree hstep
  have h1 : Inv n es s1 := by
    have := h.effect hfirst (.inl ⟨hsame, rfl⟩)
    rwa [List.append_nil] at this
  refine h1.effect hsecond ?_
  cases ha : a.allocs with
  | false => exact .inl ⟨(hnext ha).trans hsame.symm, rfl⟩
  | true => exact .inr ⟨rfl, hn ha⟩

theorem Inv.run {as : List Action} (h : Inv n es s) (hrun : run s as = some (s', ev))
    (hn : n + as.countP Action.allocs < 2 ^ 31 - 1) :
    Inv (n + as.countP Action.allocs) (es ++ ev) s' := by
  induction as generalizing n es s ev with
  | nil =>
    cases hrun
    rw [List.append_nil]
    exact h
  | cons a as ih =>
    rw [List.countP_cons] at hn ⊢
    obtain ⟨⟨s1, ev1⟩, hstep, hrest⟩ := Option.bind_eq_some_iff.mp hrun
    obtain ⟨⟨s2, ev2⟩, htail, hpure⟩ := Option.bind_eq_some_iff.mp hrest
    cases hpure
    have h1 := h.step hstep fun ha => by
      rw [if_pos ha] at hn
      omega
    have h2 := ih h1 htail (by omega)
    rw [List.append_assoc] at h2
    have hsum : n + (if a.allocs = true then 1 else 0) + as.countP Action.allocs =
        n + (as.countP Action.allocs + if a.allocs = true then 1 else 0) := by omega
    rwa [hsum] at h2

theorem Tree.run {as : List Action} (h : Tree s) (hrun : run s as = some (s', ev)) : Tree s' := by
  induction as generalizing s ev with
  | nil =>
    cases hrun
    exact h
  | cons a as ih =>
    obtain ⟨⟨s1, ev1⟩, hstep, hrest⟩ := Option.bind_eq_some_iff.mp hrun
    obtain ⟨⟨s2, ev2⟩, htail, hpure⟩ := Option.bind_eq_some_iff.mp hrest
    cases hpure
    obtain ⟨⟨u, hfirst, hsecond, -⟩, -⟩ := effect_of_step h hstep
    exact ih ((h.effect hfirst).effect hsecond) htail

theorem userinit_eq : userinit procinit =
    ⟨procinit.proc.set 0 ⟨⟨.runnable, none⟩, 1, none, false, 0, .user⟩, 2, none⟩ := by
  have hfind : ((List.finRange NPROC).find? fun q => (procinit.proc q).state = .unused) = some 0 := rfl
  unfold userinit State.allocproc
  rw [hfind]
  simp only [if_true, State.setProc, Table.set_self, Table.set_set]
  rfl

theorem userinit_proc (q : Slot) : (userinit procinit).proc q =
    if q = 0 then ⟨⟨.runnable, none⟩, 1, none, false, 0, .user⟩ else .free := by
  rw [userinit_eq]
  by_cases hq : q = 0
  · simp [hq]
  · simp only [if_neg hq, Table.set_of_ne hq]
    rfl

theorem tree_userinit : Tree (userinit procinit) := by
  have hfree : Proc.free.state = .unused := rfl
  refine ⟨?_, ?_, ?_, ?_, ?_, ?_⟩
  · intro q hq
    rw [userinit_proc] at hq ⊢
    split at hq
    · cases hq
    · rw [if_neg ‹_›]
  · intro q
    rw [userinit_proc]
    split <;> simp [Proc.state, Proc.free]
  · rw [userinit_proc, if_pos rfl]
    exact .inr (.inl rfl)
  · intro q hq hu
    rw [userinit_proc, if_neg hq] at hu
    exact absurd hfree hu
  · intro q
    rw [userinit_proc, userinit_eq]
    split <;> simp [Proc.state, Proc.free]
  · intro q hq
    rw [userinit_proc] at hq
    split at hq <;> cases hq.1

theorem inv_userinit : Inv 1 [] (userinit procinit) := by
  have hnext : (userinit procinit).nextpid.toInt = 2 := by
    rw [userinit_eq]
    rfl
  have hzero : ∀ q, ((userinit procinit).proc q).state ≠ .unused → q = 0 := by
    intro q hu
    by_contra hq
    rw [userinit_proc, if_neg hq] at hu
    exact hu rfl
  refine ⟨tree_userinit, ⟨?_, ?_, ?_, ?_⟩, ?_⟩
  · omega
  · omega
  · intro q hu
    rw [hnext, hzero q hu, userinit_proc, if_pos rfl]
    decide
  · intro q r hq hr _
    rw [hzero q hq, hzero r hr]
  · refine ⟨rfl, by simp, by simp [Exited], by simp [Reaped], ?_, ?_, ?_, by simp, by simp⟩
    · intro q hq hu
      exact absurd (hzero q hu) hq
    · intro q hz
      rw [userinit_proc] at hz
      split at hz <;> cases hz
    · intro q hl
      simp [Exited]

/-- In every run the ids in use are positive and distinct, every process but the first has a parent
that is alive, at most one process runs, and every process that exited is a zombie until one `wait` of
its parent returns it, with its id and status. -/
theorem process_tree (as : List Action) (s : State) (es : List Event)
    (hrun : run (userinit procinit) as = some (s, es)) (hcalls : allocprocCalls as < 2 ^ 31 - 1) :
    (∀ q, (s.proc q).state ≠ .unused → 0 < (s.proc q).pid.toInt) ∧
      (∀ q r, (s.proc q).state ≠ .unused → (s.proc r).state ≠ .unused →
        (s.proc q).pid = (s.proc r).pid → q = r) ∧
      (∀ q, q ≠ 0 → (s.proc q).Live ∨ (s.proc q).state = .zombie →
        ∃ r, (s.proc q).parent = some r ∧ (s.proc r).state ≠ .unused ∧ (s.proc r).state ≠ .zombie) ∧
      (∀ q r, (s.proc q).state = .running → (s.proc r).state = .running → q = r) ∧
      (∀ k v, .exit k v ∈ es →
        (∃ q, (s.proc q).state = .zombie ∧ (s.proc q).pid = k ∧ (s.proc q).xstate = v) ∨
          Reaped es k) ∧
      ∀ pre e post, es = pre ++ e :: post → Justified pre e := by
  have h := inv_userinit.run hrun hcalls
  rw [List.nil_append] at h
  refine ⟨fun q hq => (h.pids.range q hq).1, h.pids.inj, ?_, ?_, h.hist.kept, h.hist.justified⟩
  · intro q hq hused
    have hu : (s.proc q).state ≠ .unused := by
      rcases hused with hl | hz
      · exact hl.ne_unused
      · rw [hz]
        simp
    obtain ⟨r, hpar, hl⟩ := h.tree.parent q hq hu
    exact ⟨r, hpar, hl.ne_unused, hl.ne_zombie⟩
  · intro q r hq hr
    have hq' := (h.tree.running q).mp hq
    rw [(h.tree.running r).mp hr] at hq'
    exact (Option.some.inj hq').symm

/-- The first process makes a child and waits for it; the child exits with status 7. -/
def oneChild : List Action :=
  [.dispatch 0, .fork true true, .wait 4096 true, .dispatch 1, .exit 7, .dispatch 0, .resume true none]

theorem process_tree_oneChild : ∃ s es, run (userinit procinit) oneChild = some (s, es) ∧
    allocprocCalls oneChild < 2 ^ 31 - 1 ∧
    es = [.fork 1 2, .exit 2 7] ++ .wait 1 2 4096 (some 7) :: [] ∧
    Justified [.fork 1 2, .exit 2 7] (.wait 1 2 4096 (some 7)) := by
  have hevents : (run (userinit procinit) oneChild).map Prod.snd =
      some ([.fork 1 2, .exit 2 7] ++ .wait 1 2 4096 (some 7) :: []) := by decide +kernel
  obtain ⟨⟨s, es⟩, hrun, hes⟩ := Option.map_eq_some_iff.mp hevents
  have hcalls : allocprocCalls oneChild < 2 ^ 31 - 1 := by decide
  refine ⟨s, es, hrun, hcalls, hes, ?_⟩
  exact (process_tree oneChild s es hrun hcalls).2.2.2.2.2 _ _ _ hes

/-- In every run, nobody sleeps in `wait` while a child is a zombie. -/
theorem no_missed_child (as : List Action) (s : State) (es : List Event)
    (hrun : run (userinit procinit) as = some (s, es)) (p c : Slot)
    (hp : (s.proc p).sched.Asleep (.slot p)) (hc : (s.proc c).parent = some p) :
    (s.proc c).state ≠ .zombie :=
  (tree_userinit.run hrun).alert p hp c hc

/-- The first process waits for a child that has not run yet. -/
def childWaited : List Action := [.dispatch 0, .fork true true, .wait 4096 true]

theorem no_missed_child_childWaited : ∃ s es, run (userinit procinit) childWaited = some (s, es) ∧
    (s.proc 0).sched.Asleep (.slot 0) ∧ (s.proc 1).parent = some 0 ∧
    (s.proc 1).state ≠ .zombie := by
  have hends : ((run (userinit procinit) childWaited).map fun r =>
      decide ((r.1.proc 0).sched.Asleep (.slot 0) ∧ (r.1.proc 1).parent = some 0)) = some true := by
    decide +kernel
  obtain ⟨⟨s, es⟩, hrun, hs⟩ := Option.map_eq_some_iff.mp hends
  obtain ⟨hasleep, hparent⟩ := of_decide_eq_true hs
  exact ⟨s, es, hrun, hasleep, hparent, no_missed_child childWaited s es hrun 0 1 hasleep hparent⟩

end Xv6.Process
