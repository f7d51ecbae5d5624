import Xv6.Coop.Sequential
import Mathlib.Logic.Relation

/-!
# A pool of processes over one shared state

A `Machine` gives each process a set of calls and the program of each call. A process is
idle, or it is in the middle of a call and asleep. One step of the pool is one burst: an
idle process issues a call, or a sleeper whose condition holds goes on, and either runs to
its next sleep point. The power may fail between any two bursts; then every process is
gone and only what `fail` keeps of the state is left.
-/

namespace Xv6.Coop

open Function

abbrev Pid := Nat

/-- The calls of type `ι`, their programs, when a process may issue them, and what a power
failure does to the state. -/
structure Machine (σ ι ρ : Type) where
  code : Pid → ι → Prog σ ρ
  may : Pid → ι → σ → Prop
  fail : σ → σ → Prop

/-- A process asleep in the middle of a call. -/
structure Thread (σ ι ρ : Type) : Type 1 where
  call : ι
  guard : σ → Bool
  rest : Prog σ ρ

structure Config (σ ι ρ : Type) : Type 1 where
  mem : σ
  thr : Pid → Option (Thread σ ι ρ)
  halted : Option String

namespace Config

variable {σ ι ρ : Type}

/-- Every process idle in the state `s`. -/
def start (s : σ) : Config σ ι ρ := ⟨s, fun _ => none, none⟩

/-- The pool after process `p` has run a burst of its call `i`. -/
def after (c : Config σ ι ρ) (p : Pid) (i : ι) : Prog.Burst σ ρ → Config σ ι ρ
  | .done _ s => ⟨s, update c.thr p none, none⟩
  | .parked g k s => ⟨s, update c.thr p (some ⟨i, g, k⟩), none⟩
  | .panicked m s => ⟨s, c.thr, some m⟩

end Config

namespace Machine

variable {σ ι ρ : Type} (M : Machine σ ι ρ)

/-- In `c`, process `p` may run the program `x` as a part of its call `i`. -/
inductive Enabled (c : Config σ ι ρ) (p : Pid) (i : ι) : Prog σ ρ → Prop
  | call (hidle : c.thr p = none) (hmay : M.may p i c.mem) : Enabled c p i (M.code p i)
  | wake (t : Thread σ ι ρ) (ht : c.thr p = some t) (hi : t.call = i)
      (hg : t.guard c.mem = true) : Enabled c p i t.rest

inductive Step (c : Config σ ι ρ) : Config σ ι ρ → Prop
  | burst (p : Pid) (i : ι) (x : Prog σ ρ) (hlive : c.halted = none)
      (hx : M.Enabled c p i x) : Step c (c.after p i (x.burst c.mem))
  | fail (s : σ) (hs : M.fail c.mem s) : Step c (.start s)

/-- The configurations reached from `c` by any interleaving. -/
def Reach : Config σ ι ρ → Config σ ι ρ → Prop := Relation.ReflTransGen M.Step

/-- A burst in `c` ends the call `i` of `p` with the value `r` in the state `s`. -/
def Returns (c : Config σ ι ρ) (p : Pid) (i : ι) (r : ρ) (s : σ) : Prop :=
  c.halted = none ∧ ∃ x, M.Enabled c p i x ∧ x.burst c.mem = .done r s

/-! ## Runs of one process -/

variable {M} {c : Config σ ι ρ} {p : Pid} {x : Prog σ ρ} {r : ρ} {s : σ}

/-- A process that is scheduled alone comes to a last burst, which ends as the whole run of its program does. Nothing
has happened to the other processes. -/
theorem exists_last_burst {i : ι} (hlive : c.halted = none)
    (hx : M.Enabled c p i x) : ∃ c' y, M.Reach c c' ∧ c'.halted = none ∧
      update c'.thr p none = update c.thr p none ∧ M.Enabled c' p i y ∧
      (y.burst c'.mem).outcome = x.run c.mem := by
  -- `y` in the state `t` is what is left of the burst of `z`
  have key : ∀ (y : Prog σ ρ) (t : σ) (e : Config σ ι ρ) (z : Prog σ ρ), e.halted = none →
      M.Enabled e p i z → z.burst e.mem = y.burst t →
      ∃ c' w, M.Reach e c' ∧ c'.halted = none ∧ update c'.thr p none = update e.thr p none ∧
        M.Enabled c' p i w ∧ (w.burst c'.mem).outcome = y.run t := by
    intro y
    induction y with
    | ret a =>
      intro t e z he hz hb
      exact ⟨e, z, .refl, he, rfl, hz, by rw [hb]; rfl⟩
    | act f k ih =>
      intro t e z he hz hb
      simp only [Prog.act_burst] at hb
      simp only [Prog.act_run]
      cases hf : f t with
      | ok q =>
        simp only [hf] at hb
        exact ih q.1 q.2 e z he hz hb
      | error m =>
        simp only [hf] at hb
        exact ⟨e, z, .refl, he, rfl, hz, by rw [hb]; rfl⟩
    | sleep g k ih =>
      intro t e z he hz hb
      simp only [Prog.sleep_run]
      cases hg : g t with
      | false => exact ⟨e, z, .refl, he, rfl, hz, by rw [hb]; rfl⟩
      | true =>
        have hwake : M.Enabled (e.after p i (.parked g k t)) p i k :=
          .wake ⟨i, g, k⟩ (by simp [Config.after]) rfl hg
        obtain ⟨c', w, hc', hlive', hthr, hrest⟩ := ih t _ k rfl hwake rfl
        refine ⟨c', w, .head ?_ hc', hlive', hthr.trans (by simp [Config.after]), hrest⟩
        have hstep := Step.burst p i z he hz
        rwa [hb] at hstep
  exact key x c.mem c x hlive hx rfl

/-- A call that returns alone has a last burst. -/
theorem exists_returns {i : ι} (hlive : c.halted = none) (hx : M.Enabled c p i x) (hr : x.run c.mem = .done r s) :
    ∃ c', M.Reach c c' ∧ M.Returns c' p i r s ∧ update c'.thr p none = update c.thr p none := by
  obtain ⟨c', y, hreach, hlive', hthr, hy, hend⟩ := exists_last_burst hlive hx
  rw [hr] at hend
  exact ⟨c', hreach, ⟨hlive', y, hy, Prog.Burst.eq_done_of_outcome hend⟩, hthr⟩

/-- A program that runs to its end alone does so in the pool when nobody else is
scheduled. -/
theorem exists_reach_of_run {i : ι}
    (hlive : c.halted = none) (hx : M.Enabled c p i x) (hr : x.run c.mem = .done r s) :
    M.Reach c ⟨s, update c.thr p none, none⟩ := by
  obtain ⟨c', hreach, ⟨hlive', y, hy, hdone⟩, hthr⟩ := exists_returns hlive hx hr
  have hstep := Step.burst p i y hlive' hy
  rw [hdone, Config.after, hthr] at hstep
  exact hreach.tail hstep

/-- A call that returns alone leads from one idle pool to another. -/
theorem reach_start_of_run {s' : σ} {i : ι} (hmay : M.may p i s)
    (hrun : (M.code p i).run s = .done r s') : M.Reach (.start s) (.start s') := by
  have hreach := exists_reach_of_run (c := .start s) rfl (Enabled.call rfl hmay) hrun
  have hthr : update (Config.start s : Config σ ι ρ).thr p none = fun _ => none :=
    update_eq_self p _
  rwa [hthr] at hreach

theorem reach_start_of_isDone {i : ι} (hmay : M.may p i s) (hdone : ((M.code p i).run s).isDone = true) :
    M.Reach (.start s) (.start ((M.code p i).run s).state) := by
  cases hrun : (M.code p i).run s with
  | done r s' => exact reach_start_of_run hmay hrun
  | panicked m s' =>
    rw [hrun] at hdone
    cases hdone
  | stuck s' =>
    rw [hrun] at hdone
    cases hdone

/-- The calls of a script one after the other, each one alone and to its end. A call may use what the one before it
has returned. -/
def play (M : Machine σ ι ρ) [∀ p i s, Decidable (M.may p i s)] : List (Pid × (ρ → ι)) → ρ → σ → Option (ρ × σ)
  | [], r, s => some (r, s)
  | (p, i) :: rest, r, s =>
    if M.may p (i r) s then
      match (M.code p (i r)).run s with
      | .done r' s' => play M rest r' s'
      | _ => none
    else none

theorem reach_of_play [∀ p i s, Decidable (M.may p i s)] {calls : List (Pid × (ρ → ι))} {r' : ρ} {s' : σ}
    (h : M.play calls r s = some (r', s')) : M.Reach (.start s) (.start s') := by
  induction calls generalizing r s with
  | nil =>
    cases h
    exact .refl
  | cons call rest ih =>
    obtain ⟨p, i⟩ := call
    rw [play] at h
    by_cases hmay : M.may p (i r) s
    · rw [if_pos hmay] at h
      cases hrun : (M.code p (i r)).run s with
      | done r1 s1 =>
        rw [hrun] at h
        exact (reach_start_of_run hmay hrun).trans (ih h)
      | panicked m s1 =>
        rw [hrun] at h
        cases h
      | stuck s1 =>
        rw [hrun] at h
        cases h
    · cases (if_neg hmay).symm.trans h

theorem exists_reach_of_play [∀ p i s, Decidable (M.may p i s)] {calls : List (Pid × (ρ → ι))}
    {f : ρ × σ → Bool} (h : (M.play calls r s).elim false f = true) :
    ∃ r' s', M.Reach (.start s) (.start s') ∧ f (r', s') = true := by
  cases hplay : M.play calls r s with
  | none =>
    rw [hplay] at h
    cases h
  | some out =>
    rw [hplay] at h
    exact ⟨out.1, out.2, reach_of_play hplay, h⟩

/-- A state that a call visits alone is the state of a reachable configuration. -/
theorem exists_reach_of_visits {i : ι}
    {P : σ → Prop} (hlive : c.halted = none) (hx : M.Enabled c p i x) (hv : x.visits P c.mem) :
    ∃ c', M.Reach c c' ∧ c'.halted = none ∧ P c'.mem := by
  -- a burst parks where `P` holds, or the sleeper wakes at once
  have key : ∀ (y : Prog σ ρ) (t : σ) (e : Config σ ι ρ), y.visits P t →
      ∃ c', M.Reach (e.after p i (y.burst t)) c' ∧ c'.halted = none ∧ P c'.mem := by
    intro y
    induction y with
    | ret a => exact fun _ _ h => h.elim
    | act f k ih =>
      intro t e hy
      simp only [Prog.visits] at hy
      simp only [Prog.act_burst]
      cases hf : f t with
      | ok q => simp only [hf] at hy; exact ih q.1 q.2 e hy
      | error m => simp only [hf] at hy
    | sleep g k ih =>
      intro t e hy
      rcases hy with hP | ⟨hg, hk⟩
      · exact ⟨_, .refl, rfl, hP⟩
      · obtain ⟨c', hc', hP⟩ := ih t (e.after p i (.parked g k t)) hk
        refine ⟨c', .head (.burst p i k rfl (.wake ⟨i, g, k⟩ ?_ rfl hg)) hc', hP⟩
        simp [Prog.burst, Config.after]
  obtain ⟨c', hc', hP⟩ := key x c.mem c hv
  exact ⟨c', .head (.burst p i x hlive hx) hc', hP⟩

/-- However a call ends alone, the state at its end is reached, with the panic if there is one. -/
theorem exists_reach_of_outcome {i : ι} (hlive : c.halted = none) (hx : M.Enabled c p i x) :
    ∃ c', M.Reach c c' ∧ c'.mem = (x.run c.mem).state ∧ c'.halted = (x.run c.mem).message := by
  obtain ⟨c', y, hreach, hlive', -, hy, hend⟩ := exists_last_burst hlive hx
  refine ⟨_, hreach.tail (.burst p i y hlive' hy), ?_⟩
  rw [← hend]
  cases y.burst c'.mem <;> exact ⟨rfl, rfl⟩

theorem exists_halted_of_play [∀ p i s, Decidable (M.may p i s)] {calls : List (Pid × (ρ → ι))}
    {i : ρ → ι} {m : String} (h : (M.play calls r s).elim false (fun out =>
      decide (M.may p (i out.1) out.2 ∧ ((M.code p (i out.1)).run out.2).message = some m)) = true) :
    ∃ c, M.Reach (.start s) c ∧ c.halted = some m := by
  obtain ⟨r', s', hreach, htest⟩ := exists_reach_of_play h
  obtain ⟨hmay, hmessage⟩ := of_decide_eq_true htest
  obtain ⟨c, hc, -, hhalted⟩ := exists_reach_of_outcome (M := M) (c := .start s') rfl (.call rfl hmay)
  exact ⟨c, hreach.trans hc, hhalted.trans hmessage⟩

end Machine

end Xv6.Coop
