import Mathlib.Data.Fintype.Basic
import Xv6.Irq.Spinlock
import Xv6.Process.Sched

/-!
# Interrupts and the scheduler

`scheduler`, `sched`, `sleep`, `yield` and `wakeup` of `kernel/proc.c` with the state of the spinlocks. A
context switch keeps the registers of a process, but `saved_sie` and `noff` are left as they are: the process
lock that the scheduler takes is released by the process, and the other way round. What a process restores
is thus what the scheduler saved.

The instructions of `acquire` and `release` are not interrupted here. A process that holds no lock may change
the interrupt-enable bit, by a trap or by returning from one.
-/

namespace Xv6.Irq.Switch

open Process Function

/-- The lock of a process, or another one. -/
inductive Lock (n : Nat)
  | proc (p : Fin n)
  | other (addr : Nat)
  deriving DecidableEq

/-- What a process is doing. The bit before its outermost `acquire` and, once it has slept, the bit that the
scheduler had when it took the process lock for the last dispatch are noted. -/
inductive Phase
  /-- it holds no lock -/
  | outside
  /-- in `yield` or `forkret`, before `release(&p->lock)` -/
  | yielded
  /-- it holds `lk` -/
  | inside (sie : Bool) (lk : Nat) (resumed : Option Bool)
  /-- in `sleep(chan, lk)`, switched out -/
  | asleep (sie : Bool) (lk : Nat)
  /-- in `sleep(chan, lk)`, dispatched and before `release(&p->lock)` -/
  | woken (sie : Bool) (lk : Nat) (resumed : Bool)
  deriving DecidableEq

/-- It is not in `yield` or `sleep`. -/
def Phase.active : Phase → Bool
  | outside | inside _ _ _ => true
  | _ => false

/-- Where the hart is: in the scheduler before slot `k` or after the `swtch` to `p`, or in a process. -/
inductive Place (n : Nat)
  | scan (k : Nat)
  | back (p : Fin n)
  | process (p : Fin n)

structure Kernel (n : Nat) where
  cpu : Cpu (Lock n)
  state : Fin n → ProcState
  phase : Fin n → Phase
  place : Place n

/-- An action that is not possible, or a panic. -/
inductive Stop
  | blocked
  | panic (msg : String)

variable {n : Nat} {held : List (Lock n)} {v : Bool}

def Kernel.acquire (k : Kernel n) (l : Lock n) : Except Stop (Kernel n) :=
  match k.cpu.call (.acquire l) with
  | .ok c => .ok { k with cpu := c }
  | .error m => .error (.panic m)

def Kernel.release (k : Kernel n) (l : Lock n) : Except Stop (Kernel n) :=
  match k.cpu.call (.release l) with
  | .ok c => .ok { k with cpu := c }
  | .error m => .error (.panic m)

def Kernel.setState (k : Kernel n) (p : Fin n) (x : ProcState) : Kernel n :=
  { k with state := update k.state p x }

def Kernel.setPhase (k : Kernel n) (p : Fin n) (x : Phase) : Kernel n :=
  { k with phase := update k.phase p x }

def Kernel.setSie (k : Kernel n) (b : Bool) : Kernel n := { k with cpu := { k.cpu with sie := b } }

/-- `sched`, up to the return of the scheduler from its `swtch`. -/
def Kernel.sched (k : Kernel n) (p : Fin n) : Except Stop (Kernel n) :=
  if k.cpu.locked (.proc p) = false then .error (.panic "sched: process lock not held")
  else if k.cpu.sie then .error (.panic "sched: interruptible")
  else if k.state p = .running then .error (.panic "sched: still RUNNING")
  else .ok { k with place := .back p }

/-- One round of `wakeup`. -/
def Kernel.wakeup (k : Kernel n) (q : Fin n) : Except Stop (Kernel n) := do
  let k ← k.acquire (.proc q)
  let k := if k.state q = .sleeping then k.setState q .runnable else k
  k.release (.proc q)

/-- The scheduler looks at slot `p`. -/
def Kernel.visit (k : Kernel n) (p : Fin n) : Except Stop (Kernel n) := do
  let sie := k.cpu.sie
  let k ← k.acquire (.proc p)
  if k.state p = .runnable then
    let x := match k.phase p with
      | .asleep s lk => .woken s lk sie
      | x => x
    .ok { (k.setState p .running).setPhase p x with place := .process p }
  else
    let k ← k.release (.proc p)
    .ok { k with place := .scan (p.val + 1) }

inductive Act (n : Nat)
  /-- the next step of the scheduler -/
  | schedule
  /-- an interrupt whose handler wakes a process -/
  | interrupt (q : Fin n)
  /-- the process that runs changes the interrupt-enable bit -/
  | set (sie : Bool)
  | wakeup (q : Fin n)
  | yield
  | acquire (lk : Nat)
  | sleep
  | release
  /-- what follows in `yield` and `sleep` after `sched()` -/
  | resume

/-- The scheduler. Between two scans it turns interrupts off, if they are on, and on again. -/
def Kernel.schedule (k : Kernel n) : Except Stop (Kernel n) :=
  match k.place with
  | .scan i => if h : i < n then k.visit ⟨i, h⟩ else .ok { k.setSie true with place := .scan 0 }
  | .back p => do
    let k ← k.release (.proc p)
    .ok { k with place := .scan (p.val + 1) }
  | .process _ => .error .blocked

/-- The process `p` that runs. -/
def Kernel.stepOf (k : Kernel n) (p : Fin n) : Act n → Except Stop (Kernel n)
  | .set b => if k.phase p = .outside then .ok (k.setSie b) else .error .blocked
  | .wakeup q =>
    if q ≠ p ∧ (k.phase p).active = true then k.wakeup q else .error .blocked
  | .yield =>
    if k.phase p = .outside then do
      let k ← k.acquire (.proc p)
      ((k.setState p .runnable).setPhase p .yielded).sched p
    else .error .blocked
  | .acquire lk =>
    if k.phase p = .outside then do
      let sie := k.cpu.sie
      let k ← k.acquire (.other lk)
      .ok (k.setPhase p (.inside sie lk none))
    else .error .blocked
  | .sleep =>
    match k.phase p with
    | .inside s lk _ => do
      let k ← k.acquire (.proc p)
      let k ← k.release (.other lk)
      ((k.setState p .sleeping).setPhase p (.asleep s lk)).sched p
    | _ => .error .blocked
  | .release =>
    match k.phase p with
    | .inside _ lk _ => do
      let k ← k.release (.other lk)
      .ok (k.setPhase p .outside)
    | _ => .error .blocked
  | .resume =>
    match k.phase p with
    | .yielded => do
      let k ← k.release (.proc p)
      .ok (k.setPhase p .outside)
    | .woken s lk b => do
      let k ← k.release (.proc p)
      let k ← k.acquire (.other lk)
      .ok (k.setPhase p (.inside s lk (some b)))
    | _ => .error .blocked
  | _ => .error .blocked

def Kernel.step (k : Kernel n) : Act n → Except Stop (Kernel n)
  | .schedule => k.schedule
  | .interrupt q =>
    if k.cpu.sie then do
      let k ← (k.setSie false).wakeup q
      .ok (k.setSie true)
    else .error .blocked
  | a =>
    match k.place with
    | .process p => k.stepOf p a
    | _ => .error .blocked

def Kernel.run (k : Kernel n) : List (Act n) → Except Stop (Kernel n)
  | [] => .ok k
  | a :: as => do
    let k ← k.step a
    k.run as

/-- The scheduler starts with `n` processes that were never dispatched. -/
def start (n : Nat) (sie : Bool) : Kernel n where
  cpu := idle sie false
  state := fun _ => .runnable
  phase := fun _ => .yielded
  place := .scan n

/-! ## The invariant -/

/-- Which locks are held and what is saved, from what the hart is doing. -/
def Locks (k : Kernel n) : Prop :=
  match k.place with
  | .scan _ => ∃ v, Between [] v k.cpu
  | .back p => ∃ v, Between [.proc p] v k.cpu
  | .process p =>
    match k.phase p with
    | .outside => ∃ v, Between [] v k.cpu
    | .yielded => ∃ v, Between [.proc p] v k.cpu
    | .inside s lk r => Between [.other lk] (r.getD s) k.cpu
    | .woken _ _ b => Between [.proc p] b k.cpu
    | .asleep _ _ => False

/-- Switched out. -/
def Phase.Out : Phase → Prop
  | .yielded | .asleep _ _ => True
  | _ => False

structure Inv (k : Kernel n) : Prop where
  locks : Locks k
  out : ∀ q, k.place ≠ .process q → (k.phase q).Out

/-- There is no panic, and what is reached satisfies `Q`. -/
def Fine (r : Except Stop (Kernel n)) (Q : Kernel n → Prop) : Prop :=
  match r with
  | .ok k => Q k
  | .error .blocked => True
  | .error (.panic _) => False

theorem fine_ite {c : Prop} [Decidable c] {r : Except Stop (Kernel n)} {Q : Kernel n → Prop} (h : c → Fine r Q) :
    Fine (if c then r else .error .blocked) Q := by
  split
  · exact h ‹c›
  · trivial

theorem between_setSie {c : Cpu (Lock n)} (h : Between [] v c) (b : Bool) : Between [] b { c with sie := b } :=
  ⟨⟨h.noff, h.nodup, h.locked⟩, fun _ => rfl, fun h => absurd rfl h⟩

theorem acquire_ok {k : Kernel n} {l : Lock n} (h : Between held v k.cpu) (hl : l ∉ held) :
    ∃ c, k.acquire l = .ok { k with cpu := c } ∧ Between (l :: held) v c := by
  obtain ⟨c, hrun, hc⟩ := h.call_acquire hl
  exact ⟨c, by rw [Kernel.acquire, hrun], hc⟩

theorem release_ok {k : Kernel n} {l : Lock n} (h : Between held v k.cpu) (hl : l ∈ held) :
    ∃ c, k.release l = .ok { k with cpu := c } ∧ Between (held.erase l) v c := by
  obtain ⟨c, hrun, hc⟩ := h.call_release hl
  exact ⟨c, by rw [Kernel.release, hrun], hc⟩

section

variable {k : Kernel n} {l : Lock n} {f : Kernel n → Except Stop (Kernel n)} {Q : Kernel n → Prop}

theorem fine_acquire (h : Between held v k.cpu) (hl : l ∉ held)
    (hf : ∀ c, Between (l :: held) v c → Fine (f { k with cpu := c }) Q) : Fine (k.acquire l >>= f) Q := by
  obtain ⟨c, hrun, hc⟩ := acquire_ok h hl
  rw [hrun]
  exact hf c hc

theorem fine_release (h : Between held v k.cpu) (hl : l ∈ held)
    (hf : ∀ c, Between (held.erase l) v c → Fine (f { k with cpu := c }) Q) : Fine (k.release l >>= f) Q := by
  obtain ⟨c, hrun, hc⟩ := release_ok h hl
  rw [hrun]
  exact hf c hc

theorem fine_release_head (h : Between (l :: held) v k.cpu)
    (hf : ∀ c, Between held v c → Fine (f { k with cpu := c }) Q) : Fine (k.release l >>= f) Q :=
  fine_release h List.mem_cons_self fun c hc => hf c (by rwa [List.erase_cons_head] at hc)

end

theorem sched_ok {k : Kernel n} {p : Fin n} (h : Between [.proc p] v k.cpu)
    (hp : k.state p ≠ .running) : k.sched p = .ok { k with place := .back p } := by
  have hlocked : k.cpu.locked (.proc p) = true := (h.locked _).mpr (List.mem_singleton_self _)
  have hsie : k.cpu.sie = false := (h.inner (by simp)).1
  simp [Kernel.sched, hlocked, hsie, hp]

/-- A wakeup changes the state of a process and nothing else that matters. -/
theorem wakeup_ok {k : Kernel n} {q : Fin n} (h : Between held v k.cpu) (hq : Lock.proc q ∉ held) :
    ∃ c x, k.wakeup q = .ok { k with cpu := c, state := x } ∧ Between held v c := by
  obtain ⟨c, hrun, hc⟩ := acquire_ok h hq
  have hfin : ∀ x, ∃ c', Kernel.release { k with cpu := c, state := x } (.proc q) =
      .ok { k with cpu := c', state := x } ∧ Between held v c' := by
    intro x
    obtain ⟨c', hrel, hc'⟩ := release_ok (k := { k with cpu := c, state := x }) hc List.mem_cons_self
    rw [List.erase_cons_head] at hc'
    exact ⟨c', hrel, hc'⟩
  rw [Kernel.wakeup, hrun]
  by_cases hs : k.state q = .sleeping
  · obtain ⟨c', hrel, hc'⟩ := hfin (update k.state q .runnable)
    refine ⟨c', update k.state q .runnable, ?_, hc'⟩
    rw [← hrel]
    simp only [bind, Except.bind, hs, if_true]
    rfl
  · obtain ⟨c', hrel, hc'⟩ := hfin k.state
    refine ⟨c', k.state, ?_, hc'⟩
    rw [← hrel]
    simp only [bind, Except.bind, hs, if_false]

namespace Inv

variable {k : Kernel n} {p q : Fin n}

section

variable (hi : Inv k)
include hi

theorem setOut (hplace : k.place = .process p) {x : Phase} (hx : x.Out) (q : Fin n) : (update k.phase p x q).Out := by
  by_cases hq : q = p
  · subst hq
    rwa [update_self]
  · rw [update_of_ne hq]
    apply hi.out q
    rw [hplace]
    intro h
    exact hq (Place.process.inj h).symm

theorem visit {i : Nat} (hplace : k.place = .scan i) (p : Fin n) : Fine (k.visit p) Inv := by
  have hl := hi.locks
  simp only [Locks, hplace] at hl
  obtain ⟨v, hv⟩ := hl
  have hout := hi.out p (by rw [hplace]; simp)
  have hsie : v = k.cpu.sie := (hv.outer rfl).symm
  refine fine_acquire hv List.not_mem_nil fun c hc => ?_
  split
  · refine ⟨?_, ?_⟩
    · cases hx : k.phase p with
      | asleep s lk => simpa [Locks, Kernel.setPhase, Kernel.setState, hx, ← hsie] using hc
      | yielded =>
        simp only [Locks, Kernel.setPhase, Kernel.setState, update_self]
        exact ⟨v, hc⟩
      | _ =>
        rw [hx] at hout
        exact hout.elim
    · intro q hq
      have hne : q ≠ p := fun h => hq (h ▸ rfl)
      simp only [Kernel.setPhase, update_of_ne hne]
      exact hi.out q (by rw [hplace]; simp)
  · exact fine_release_head hc fun c hc => ⟨⟨v, hc⟩, fun q _ => hi.out q (by rw [hplace]; simp)⟩

theorem schedule : Fine k.schedule Inv := by
  have hl := hi.locks
  unfold Kernel.schedule
  cases hplace : k.place with
  | scan i =>
    dsimp only
    split
    · exact hi.visit hplace _
    · simp only [Locks, hplace] at hl
      obtain ⟨v, hv⟩ := hl
      exact ⟨⟨true, between_setSie hv true⟩, fun q _ => hi.out q (by rw [hplace]; simp)⟩
  | back p =>
    simp only [Locks, hplace] at hl
    obtain ⟨v, hv⟩ := hl
    exact fine_release_head hv fun c hc => ⟨⟨v, hc⟩, fun q _ => hi.out q (by rw [hplace]; simp)⟩
  | process p => trivial

/-- A wakeup keeps the invariant wherever the lock of the other process is free. -/
theorem wakeup (hv : Between held v k.cpu) (hq : Lock.proc q ∉ held)
    (hlocks : ∀ c x, Between held v c → Locks { k with cpu := c, state := x }) :
    Fine (k.wakeup q) Inv := by
  obtain ⟨c, x, hrun, hc⟩ := wakeup_ok hv hq
  rw [hrun]
  exact ⟨hlocks c x hc, hi.out⟩

theorem stepOf (hplace : k.place = .process p) (a : Act n) : Fine (k.stepOf p a) Inv := by
  have hl := hi.locks
  simp only [Locks, hplace] at hl
  have hothers : ∀ (x : Phase) (q : Fin n), k.place ≠ .process q → (update k.phase p x q).Out := by
    intro x q hq
    have hne : q ≠ p := fun h => hq (h ▸ hplace)
    rw [update_of_ne hne]
    exact hi.out q hq
  cases a with
  | schedule => trivial
  | interrupt q => trivial
  | set b =>
    refine fine_ite fun hx => ?_
    rw [hx] at hl
    obtain ⟨v, hv⟩ := hl
    refine ⟨?_, hi.out⟩
    simp only [Locks, Kernel.setSie, hplace, hx]
    exact ⟨b, between_setSie hv b⟩
  | wakeup q =>
    refine fine_ite fun h => ?_
    cases hx : k.phase p with
    | outside =>
      rw [hx] at hl
      obtain ⟨v, hv⟩ := hl
      apply hi.wakeup hv List.not_mem_nil
      intro c x hc
      simpa only [Locks, hplace, hx] using ⟨v, hc⟩
    | inside s lk r =>
      rw [hx] at hl
      apply hi.wakeup hl (by simp)
      intro c x hc
      simpa only [Locks, hplace, hx] using hc
    | _ =>
      rw [hx] at h
      cases h.2
  | yield =>
    refine fine_ite fun hx => ?_
    rw [hx] at hl
    obtain ⟨v, hv⟩ := hl
    refine fine_acquire hv List.not_mem_nil fun c hc => ?_
    rw [sched_ok hc (by simp [Kernel.setState, Kernel.setPhase])]
    exact ⟨⟨v, hc⟩, fun q _ => hi.setOut (x := .yielded) hplace trivial q⟩
  | acquire lk =>
    refine fine_ite fun hx => ?_
    rw [hx] at hl
    obtain ⟨v, hv⟩ := hl
    refine fine_acquire hv List.not_mem_nil fun c hc => ⟨?_, hothers _⟩
    simpa [Locks, Kernel.setPhase, hplace, hv.outer rfl] using hc
  | sleep =>
    simp only [Kernel.stepOf]
    cases hx : k.phase p with
    | inside s lk r =>
      rw [hx] at hl
      refine fine_acquire hl (by simp) fun c hc => fine_release hc (by simp) fun c hc => ?_
      have herase : [Lock.proc p, .other lk].erase (.other lk) = [Lock.proc p] := by simp
      rw [herase] at hc
      rw [sched_ok hc (by simp [Kernel.setState, Kernel.setPhase])]
      exact ⟨⟨_, hc⟩, fun q _ => hi.setOut (x := .asleep s lk) hplace trivial q⟩
    | _ => trivial
  | release =>
    simp only [Kernel.stepOf]
    cases hx : k.phase p with
    | inside s lk r =>
      rw [hx] at hl
      refine fine_release_head hl fun c hc => ⟨?_, hothers _⟩
      simp only [Locks, Kernel.setPhase, hplace, update_self]
      exact ⟨_, hc⟩
    | _ => trivial
  | resume =>
    simp only [Kernel.stepOf]
    cases hx : k.phase p with
    | yielded =>
      rw [hx] at hl
      obtain ⟨v, hv⟩ := hl
      refine fine_release_head hv fun c hc => ⟨?_, hothers _⟩
      simp only [Locks, Kernel.setPhase, hplace, update_self]
      exact ⟨_, hc⟩
    | woken s lk b =>
      rw [hx] at hl
      refine fine_release_head hl fun c hc => fine_acquire hc List.not_mem_nil fun c hc => ⟨?_, hothers _⟩
      simpa [Locks, Kernel.setPhase, hplace] using hc
    | _ => trivial

/-- With interrupts enabled no lock is held. -/
theorem between_nil (hsie : k.cpu.sie) : Between [] true k.cpu := by
  have hall : ∀ {held : List (Lock n)} {v : Bool}, Between held v k.cpu → Between [] true k.cpu := by
    intro held v h
    by_cases hnil : held = []
    · subst hnil
      rw [← hsie, h.outer rfl]
      exact h
    · cases ((h.inner hnil).1).symm.trans hsie
  have hl := hi.locks
  unfold Locks at hl
  split at hl
  · exact hall hl.choose_spec
  · exact hall hl.choose_spec
  · split at hl
    · exact hall hl.choose_spec
    · exact hall hl.choose_spec
    · exact hall hl
    · exact hall hl
    · exact hl.elim

/-- The places where no lock is held do not say what the bit is. -/
theorem locks_of_nil (hsie : k.cpu.sie) {c : Cpu (Lock n)} {x : Fin n → ProcState}
    (hc : Between [] v c) : Locks { k with cpu := c, state := x } := by
  have hno : ∀ {l : Lock n} {v : Bool}, ¬ Between [l] v k.cpu := by
    intro l v h
    cases ((h.inner (by simp)).1).symm.trans hsie
  have hl := hi.locks
  unfold Locks at hl ⊢
  dsimp only
  split at hl
  · exact ⟨v, hc⟩
  · exact absurd hl.choose_spec hno
  · split at hl
    · exact ⟨v, hc⟩
    · exact absurd hl.choose_spec hno
    · exact absurd hl hno
    · exact absurd hl hno
    · exact hl

theorem step (a : Act n) : Fine (k.step a) Inv := by
  unfold Kernel.step
  split
  · exact hi.schedule
  · rename_i q
    split
    · rename_i hsie
      have hnil := hi.between_nil hsie
      have hmasked : Between [] false (k.setSie false).cpu := between_setSie hnil false
      obtain ⟨c, x, hrun, hc⟩ := wakeup_ok (q := q) hmasked List.not_mem_nil
      simp only [hrun, bind, Except.bind]
      exact ⟨hi.locks_of_nil hsie (between_setSie hc true), hi.out⟩
    · trivial
  · split
    · rename_i hplace
      exact hi.stepOf hplace _
    · trivial

theorem run (as : List (Act n)) : Fine (k.run as) Inv := by
  induction as generalizing k with
  | nil => exact hi
  | cons a as ih =>
    have hstep := hi.step a
    unfold Kernel.run
    cases hrun : k.step a with
    | ok k' =>
      rw [hrun] at hstep
      exact ih hstep
    | error e =>
      rw [hrun] at hstep
      exact hstep

end

end Inv

theorem inv_start (n : Nat) (sie : Bool) : Inv (start n sie) where
  locks := ⟨sie, ⟨⟨rfl, List.nodup_nil, fun k => by simp [start, idle]⟩, fun _ => rfl,
    fun h => absurd rfl h⟩⟩
  out _ _ := trivial

/-! ## What is restored -/

/-- A process makes a system call, sleeps with a lock and is woken by an interrupt. -/
def sleeper : List (Act 1) :=
  [.schedule, .schedule, .resume, .set false, .acquire 0, .sleep, .schedule, .schedule, .interrupt 0,
    .schedule, .resume]

end Xv6.Irq.Switch
