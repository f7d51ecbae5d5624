import Mathlib.Data.Fintype.Basic
import Xv6.Process.Sched

/-!
# Sleep locks

`acquiresleep` and `releasesleep` of `kernel/bio.c` statement by statement, with `sleep`, `wakeup`, `kill`
and the scheduler of `kernel/proc.c`. There is one hart and the processor is given up only in `sched()`,
so a process that is in the middle of one of these functions runs until it sleeps or returns. What it does
outside of them is to yield, to sleep on other channels and to kill; a wakeup on another channel may also
come from an interrupt.

`acquire` and `release` panic on a lock that is taken or free already. The panics are represented, for the
spinlock of the sleep lock and for the locks of the processes.
-/

namespace Xv6.Ipc.Sleeplock

open Process Function

/-- `struct sleeplock`; `held` is the state of the spinlock `lk->lk`. -/
structure Lock where
  held : Bool
  locked : Bool
  pid : Nat

/-- `holdingsleep`, with the lock's own spinlock held. -/
def Lock.holdingsleep (lk : Lock) (pid : Nat) : Bool := lk.locked && lk.pid == pid

/-- The addresses that a process sleeps on: the lock, or something else. -/
inductive Chan
  | lock
  | other (addr : Nat)
  deriving DecidableEq

/-- The next statement of a process. At `outside` and `holding` it is in neither of the two functions. -/
inductive Place
  | outside
  /-- `acquire(&lk->lk)` in `acquiresleep`, and `acquire(lk)` at the end of `sleep` -/
  | acquiring
  /-- the test of `lk->locked` -/
  | testing
  /-- `acquire(&p->lock)` in `sleep` -/
  | locking
  /-- `release(lk)` in `sleep` -/
  | unlocking
  /-- the writes of `p->chan` and `p->state`, and `sched()` -/
  | parking
  /-- `p->chan = 0` and `release(&p->lock)` after `sched()` -/
  | parked
  /-- `lk->pid = myproc()->pid` -/
  | signing
  /-- `release(&lk->lk)` in `acquiresleep` -/
  | leaving
  | holding
  /-- `acquire(&lk->lk)` in `releasesleep` -/
  | releasing
  /-- `lk->locked = 0` -/
  | clearing
  /-- `lk->pid = 0` -/
  | cleared
  /-- the round of `wakeup` for slot `k`, and `release(&lk->lk)` after the last round -/
  | waking (k : Nat)
  deriving DecidableEq

/-- `n` processes with their locks; `halted` is set by a panic. -/
structure State (n : Nat) where
  lk : Lock
  plock : Fin n → Bool
  sched : Fin n → Sched Chan
  place : Fin n → Place
  current : Option (Fin n)
  halted : Bool

namespace State

variable {n : Nat}

def panic (s : State n) : State n := { s with halted := true }

/-- The process `p` changes the lock and goes to its next statement. -/
def move (s : State n) (p : Fin n) (lk : Lock) (x : Place) : State n :=
  { s with lk := lk, place := update s.place p x }

def setSched (s : State n) (q : Fin n) (x : Sched Chan) : State n :=
  { s with sched := update s.sched q x }

def setPlock (s : State n) (q : Fin n) (b : Bool) : State n :=
  { s with plock := update s.plock q b }

/-- `acquire(&lk->lk)`. -/
def acquire (s : State n) (p : Fin n) (x : Place) : State n :=
  if s.lk.held then s.panic else s.move p { s.lk with held := true } x

/-- `release(&lk->lk)`. -/
def release (s : State n) (p : Fin n) (x : Place) : State n :=
  if s.lk.held then s.move p { s.lk with held := false } x else s.panic

/-- The return from `sched()` in a process: `sleep` clears the channel, and the process lock is released. -/
def resume (s : State n) (p : Fin n) (x : Place) : State n :=
  if s.plock p then
    ((s.setSched p { s.sched p with chan := none }).setPlock p false).move p s.lk x
  else s.panic

/-- One round of `wakeup` in the process `p`. -/
def wakeOne (s : State n) (p q : Fin n) : State n :=
  if q = p then s
  else if s.plock q then s.panic
  else s.setSched q ((s.sched q).wakeup .lock)

/-- The next statement of the process `p` that runs. -/
def go (pid : Fin n → Nat) (s : State n) (p : Fin n) : State n :=
  match s.place p with
  | .acquiring => s.acquire p .testing
  | .testing =>
    if s.lk.locked then s.move p s.lk .locking else s.move p { s.lk with locked := true } .signing
  | .locking => if s.plock p then s.panic else (s.setPlock p true).move p s.lk .unlocking
  | .unlocking => s.release p .parking
  | .parking =>
    -- the scheduler, which goes on after its `swtch`, releases the lock of the process
    if s.plock p then
      { ((s.setSched p (.sleep .lock)).setPlock p false).move p s.lk .parked with current := none }
    else s.panic
  | .parked => s.resume p .acquiring
  | .signing => s.move p { s.lk with pid := pid p } .leaving
  | .leaving => s.release p .holding
  | .releasing => s.acquire p .clearing
  | .clearing => s.move p { s.lk with locked := false } .cleared
  | .cleared => s.move p { s.lk with pid := 0 } (.waking 0)
  | .waking k =>
    if h : k < n then (s.wakeOne p ⟨k, h⟩).move p s.lk (.waking (k + 1)) else s.release p .outside
  | .outside => if s.plock p then s.resume p .outside else s
  | .holding => if s.plock p then s.resume p .holding else s

/-- The process is in neither function and has left `sched()`. -/
def AtLarge (s : State n) (p : Fin n) : Prop :=
  (s.place p = .outside ∨ s.place p = .holding) ∧ s.plock p = false

instance (s : State n) (p : Fin n) : Decidable (s.AtLarge p) := inferInstanceAs (Decidable (_ ∧ _))

/-- `p->lock` is taken, the state written, and the scheduler releases the lock after its `swtch`. -/
def switch (s : State n) (p : Fin n) (x : Sched Chan) : State n :=
  { s.setSched p x with current := none }

end State

inductive Act (n : Nat)
  | dispatch (p : Fin n)
  | wakeup (addr : Nat)
  | acquiresleep
  | releasesleep
  | go
  | yield
  | sleep (addr : Nat)
  | kill (q : Fin n)

variable {n : Nat}

/-- What the process `p` that runs may do. Only the holder calls `releasesleep`, and the holder does not
call `acquiresleep` again. -/
def stepOf (pid : Fin n → Nat) (s : State n) (p : Fin n) : Act n → Option (State n)
  | .go => some (s.go pid p)
  | .acquiresleep =>
    if s.AtLarge p ∧ s.place p = .outside then some (s.move p s.lk .acquiring) else none
  | .releasesleep =>
    if s.AtLarge p ∧ s.place p = .holding then some (s.move p s.lk .releasing) else none
  | .yield => if s.AtLarge p then some (s.switch p { s.sched p with state := .runnable }) else none
  | .sleep addr => if s.AtLarge p then some (s.switch p (.sleep (.other addr))) else none
  | .kill q =>
    if s.AtLarge p then
      if ∃ r ≤ q, s.plock r = true then some s.panic else some (s.setSched q (s.sched q).kill)
    else none
  | _ => none

/-- The scheduler runs while there is no current process; its locks are released again at once where the
process is not RUNNABLE. -/
def step (pid : Fin n → Nat) (s : State n) (a : Act n) : Option (State n) :=
  if s.halted then none
  else
    match a with
    | .dispatch p =>
      if s.current = none then
        if s.plock p then some s.panic
        else if (s.sched p).state = .runnable then
          some { (s.setSched p { s.sched p with state := .running }).setPlock p true with
            current := some p }
        else none
      else none
    | .wakeup addr =>
      if ∃ q, s.current ≠ some q ∧ s.plock q = true then some s.panic
      else
        some { s with sched := fun q =>
          if s.current = some q then s.sched q else (s.sched q).wakeup (.other addr) }
    | a => s.current.bind fun p => stepOf pid s p a

def run (pid : Fin n → Nat) (s : State n) : List (Act n) → Option (State n)
  | [] => some s
  | a :: as => do
    let s ← step pid s a
    run pid s as

/-- The lock after `initsleeplock`, with `n` processes that may run. -/
def start (n : Nat) : State n where
  lk := ⟨false, false, 0⟩
  plock := fun _ => false
  sched := fun _ => ⟨.runnable, none⟩
  place := fun _ => .outside
  current := none
  halted := false

/-! ## The invariant -/

namespace Place

def inside : Place → Bool
  | testing | locking | unlocking | signing | leaving | clearing | cleared | waking _ => true
  | _ => false

/-- The process has written `lk->locked = 1` and not yet `lk->locked = 0`. -/
def owns : Place → Bool
  | signing | leaving | holding | releasing | clearing => true
  | _ => false

/-- The process has written its `pid`, too. -/
def signed : Place → Bool
  | leaving | holding | releasing | clearing => true
  | _ => false

/-- The process has found the lock taken and is about to sleep. -/
def waits : Place → Bool
  | locking | unlocking | parking => true
  | _ => false

/-- The process is in `sleep` and holds its own lock. -/
def guarded : Place → Bool
  | unlocking | parking | parked => true
  | _ => false

/-- The places at which a process may hold its own lock. -/
def mayGuard : Place → Bool
  | unlocking | parking | parked | outside | holding => true
  | _ => false

/-- The process is still going to wake slot `q`. -/
def wakes (q : Nat) : Place → Bool
  | cleared => true
  | waking k => decide (k ≤ q)
  | _ => false

/-- The places at which the processor is given up. -/
def resting : Place → Bool
  | outside | holding | parked => true
  | _ => false

/-- From `y` to `x` the process neither takes nor gives up the lock. -/
def follows (x y : Place) : Bool := x.owns == y.owns && (!x.signed || y.signed) && x != cleared

/-- The process needs neither its own lock nor a lock that is taken. -/
def easy (x : Place) : Bool := !x.guarded && !x.waits

theorem of_follows {x y : Place} (h : x.follows y) :
    x.owns = y.owns ∧ (x.signed → y.signed) ∧ x ≠ cleared := by
  simp only [follows, Bool.and_eq_true, beq_iff_eq, Bool.or_eq_true, Bool.not_eq_true', bne_iff_ne] at h
  obtain ⟨⟨howns, hsigned⟩, hcleared⟩ := h
  refine ⟨howns, fun hx => ?_, hcleared⟩
  rcases hsigned with hno | hy
  · cases hx.symm.trans hno
  · exact hy

theorem of_resting {x : Place} (h : x.resting) : x.inside = false ∧ x.waits = false ∧ x.mayGuard := by
  cases x with
  | outside => exact ⟨rfl, rfl, rfl⟩
  | holding => exact ⟨rfl, rfl, rfl⟩
  | parked => exact ⟨rfl, rfl, rfl⟩
  | _ => cases h

theorem wakes_of_not_inside {x : Place} (h : x.inside = false) (q : Nat) : x.wakes q = false := by
  cases x with
  | cleared => cases h
  | waking k => cases h
  | _ => rfl

theorem owns_of_signed {x : Place} (h : x.signed) : x.owns := by
  cases x with
  | leaving => rfl
  | holding => rfl
  | releasing => rfl
  | clearing => rfl
  | _ => cases h

end Place

/-- The process `p` sleeps on the lock. -/
abbrev State.Asleep (s : State n) (p : Fin n) : Prop := (s.sched p).Asleep .lock

/-- `o` is the process that has the lock, if there is one. -/
structure Owner (lk : Lock) (place : Fin n → Place) (o : Option (Fin n)) : Prop where
  locked : lk.locked = o.isSome
  owns : ∀ q, (place q).owns = true ↔ o = some q

/-- A sleeper waits for a lock that is taken, or it is still to be woken by the process that has just
cleared the lock. -/
structure Inv (pid : Fin n → Nat) (s : State n) : Prop where
  live : s.halted = false
  running : ∀ p, s.current = some p → (s.sched p).state = .running
  resting : ∀ p, s.current ≠ some p → (s.place p).resting = true
  mayGuard : ∀ p, s.plock p = true → s.current = some p ∧ (s.place p).mayGuard = true
  guarded : ∀ p, s.current = some p → (s.place p).guarded = true → s.plock p = true
  held : s.lk.held = true ↔ ∃ p, s.current = some p ∧ (s.place p).inside = true
  owner : ∃ o, Owner s.lk s.place o
  pid : ∀ p, (s.place p).signed = true → s.lk.pid = pid p
  waits : ∀ p, (s.place p).waits = true → s.lk.locked = true
  cleared : ∀ p, s.place p = .cleared → s.lk.locked = false
  parked : ∀ p, s.Asleep p → s.place p = .parked
  asleep : ∀ p, s.Asleep p → s.lk.locked = true ∨
    ∃ r, s.current = some r ∧ (s.place r).wakes p = true

theorem inv_start (pid : Fin n → Nat) : Inv pid (start n) where
  live := rfl
  running _ h := by cases h
  resting _ _ := rfl
  mayGuard _ h := by cases h
  guarded _ h := by cases h
  held := ⟨nofun, fun ⟨_, h, _⟩ => (by cases h)⟩
  owner := ⟨none, rfl, fun _ => ⟨nofun, nofun⟩⟩
  pid _ h := by cases h
  waits _ h := by cases h
  cleared _ h := by cases h
  parked _ h := by cases h.1
  asleep _ h := by cases h.1

namespace Owner

variable {lk lk' : Lock} {place : Fin n → Place} {o : Option (Fin n)} {p : Fin n} {x : Place}

theorem keep (h : Owner lk place o) (hx : x.owns = (place p).owns) (hl : lk'.locked = lk.locked) :
    Owner lk' (update place p x) o where
  locked := hl.trans h.locked
  owns := (forall_update_iff place fun q x => x.owns = true ↔ o = some q).mpr
    ⟨hx.symm ▸ h.owns p, fun q _ => h.owns q⟩

theorem eq_none (h : Owner lk place o) (hl : lk.locked = false) : o = none := by
  rw [h.locked] at hl
  exact Option.not_isSome_iff_eq_none.mp (by simp [hl])

theorem take (h : Owner lk place o) (hl : lk.locked = false) (hx : x.owns)
    (hl' : lk'.locked) : Owner lk' (update place p x) (some p) where
  locked := hl'
  owns := by
    rw [forall_update_iff place fun q x => x.owns = true ↔ some p = some q]
    refine ⟨by simp [hx], fun q hq => ?_⟩
    rw [h.owns q, h.eq_none hl]
    simp [Ne.symm hq]

theorem drop (h : Owner lk place o) (hp : (place p).owns) (hx : x.owns = false)
    (hl' : lk'.locked = false) : Owner lk' (update place p x) none where
  locked := hl'
  owns := by
    rw [forall_update_iff place fun q x => x.owns = true ↔ none = some q]
    refine ⟨by simp [hx], fun q hq => ?_⟩
    rw [h.owns q, (h.owns p).mp hp]
    simp [Ne.symm hq]

end Owner

namespace Inv

variable {pid : Fin n → Nat} {s : State n} {p q : Fin n}

theorem idle (hc : s.current = some p) : ∀ q ≠ p, s.current ≠ some q :=
  fun _ hq h => hq (Option.some.inj (h.symm.trans hc))

variable (hi : Inv pid s)
include hi

theorem eq_of_owns (hp : (s.place p).owns) (hq : (s.place q).owns) : p = q := by
  obtain ⟨o, ho⟩ := hi.owner
  exact Option.some.inj (((ho.owns p).mp hp).symm.trans ((ho.owns q).mp hq))

theorem locked_iff : s.lk.locked ↔ ∃ p, (s.place p).owns := by
  obtain ⟨o, ho⟩ := hi.owner
  rw [ho.locked, Option.isSome_iff_exists]
  exact exists_congr fun p => (ho.owns p).symm

/-- The process `p` changes the lock, its own lock, its place and its state, and may get or give up the processor. What
has to be checked is about this process alone: the others are at rest. -/
theorem change (hidle : ∀ q ≠ p, s.current ≠ some q) {lk : Lock} {b : Bool} {y : Sched Chan} {x : Place}
    {c : Option (Fin n)} (hc : ∀ q ≠ p, c ≠ some q) (hrunning : c = some p → y.state = .running)
    (hresting : c ≠ some p → x.resting) (hmay : b → c = some p ∧ x.mayGuard)
    (hguarded : c = some p → x.guarded → b) (hheld : lk.held ↔ c = some p ∧ x.inside)
    (howner : ∃ o, Owner lk (update s.place p x) o) (hsigned : x.signed → lk.pid = pid p)
    (hpid : ∀ q ≠ p, (s.place q).signed → lk.pid = pid q) (hwaits : x.waits → lk.locked)
    (hcleared : x = .cleared → lk.locked = false) (hy : y.Asleep .lock → x = .parked ∧ lk.locked)
    (hasleep : ∀ q ≠ p, s.Asleep q → lk.locked ∨ c = some p ∧ x.wakes q) :
    Inv pid ⟨lk, update s.plock p b, update s.sched p y, update s.place p x, c, s.halted⟩ where
  live := hi.live
  running q hq := by
    obtain rfl : q = p := not_imp_not.mp (hc q) hq
    simpa only [update_self] using hrunning hq
  resting := (forall_update_iff s.place fun q x => c ≠ some q → x.resting = true).mpr
    ⟨hresting, fun q hne _ => hi.resting q (hidle q hne)⟩
  mayGuard q hq := by
    by_cases hqp : q = p
    · subst hqp
      simp only [update_self] at hq ⊢
      exact hmay hq
    · simp only [update_of_ne hqp] at hq
      exact absurd (hi.mayGuard q hq).1 (hidle q hqp)
  guarded q hq := by
    obtain rfl : q = p := not_imp_not.mp (hc q) hq
    simpa only [update_self] using hguarded hq
  held := by
    refine hheld.trans ⟨fun h => ⟨p, h.1, by simpa only [update_self] using h.2⟩, ?_⟩
    rintro ⟨q, hq, hin⟩
    obtain rfl : q = p := not_imp_not.mp (hc q) hq
    exact ⟨hq, by simpa only [update_self] using hin⟩
  owner := howner
  pid := (forall_update_iff s.place fun q x => x.signed = true → lk.pid = pid q).mpr ⟨hsigned, hpid⟩
  waits := by
    refine (forall_update_iff s.place fun q x => x.waits = true → lk.locked = true).mpr ⟨hwaits, fun q hne hq => ?_⟩
    -- a process at rest does not stand before a sleep
    rw [(Place.of_resting (hi.resting q (hidle q hne))).2.1] at hq
    cases hq
  cleared := by
    refine (forall_update_iff s.place fun q x => x = .cleared → lk.locked = false).mpr ⟨hcleared, fun q hne hq => ?_⟩
    have hrest := hi.resting q (hidle q hne)
    rw [hq] at hrest
    cases hrest
  parked q hq := by
    by_cases hqp : q = p
    · subst hqp
      simp only [State.Asleep, update_self] at hq ⊢
      exact (hy hq).1
    · simp only [State.Asleep, update_of_ne hqp] at hq ⊢
      exact hi.parked q hq
  asleep := by
    refine (forall_update_iff s.sched fun q y => y.Asleep .lock → _).mpr ⟨fun h => .inl (hy h).2, fun q hne hq => ?_⟩
    refine (hasleep q hne hq).imp_right fun ⟨hc, hw⟩ => ⟨p, hc, ?_⟩
    simpa only [update_self] using hw

theorem rouse {sched : Fin n → Sched Chan}
    (h : ∀ q, (s.sched q).Roused (sched q)) : Inv pid { s with sched := sched } where
  live := hi.live
  running q hq := (h q).running_iff.mpr (hi.running q hq)
  resting := hi.resting
  mayGuard := hi.mayGuard
  guarded := hi.guarded
  held := hi.held
  owner := hi.owner
  pid := hi.pid
  waits := hi.waits
  cleared := hi.cleared
  parked q hq := hi.parked q ((h q).asleep hq)
  asleep q hq := hi.asleep q ((h q).asleep hq)

theorem rouseOne {x : Sched Chan} (h : (s.sched q).Roused x) : Inv pid (s.setSched q x) := by
  apply hi.rouse
  intro r
  by_cases hr : r = q
  · subst hr
    rwa [update_self]
  · rw [update_of_ne hr]
    exact .inl rfl

theorem plock_eq_false (hx : (s.place p).mayGuard = false) : s.plock p = false := by
  by_contra h
  have hmay := (hi.mayGuard p (by simpa using h)).2
  cases hx.symm.trans hmay

section

variable {x z : Place} (hc : s.current = some p)
include hc

theorem held_eq : s.lk.held = (s.place p).inside := by
  rw [Bool.eq_iff_iff, hi.held, hc]
  constructor
  · rintro ⟨r, hr, hin⟩
    cases hr
    exact hin
  · exact fun hin => ⟨p, rfl, hin⟩

theorem asleep_of_current (hq : s.Asleep q) : s.lk.locked ∨ (s.place p).wakes q := by
  rcases hi.asleep q hq with hl | ⟨r, hr, hw⟩
  · exact .inl hl
  · cases hc.symm.trans hr
    exact .inr hw

theorem not_asleep : ¬ s.Asleep p :=
  Sched.not_asleep_of_state (by rw [hi.running p hc]; decide) _

theorem move {lk : Lock} {b : Bool} {y : Sched Chan}
    (hy : y.state = .running) (hheld : lk.held = x.inside) (howner : ∃ o, Owner lk (update s.place p x) o)
    (hsigned : x.signed → lk.pid = pid p) (hpid : ∀ q ≠ p, (s.place q).signed → lk.pid = pid q)
    (hmay : b → x.mayGuard) (hguarded : x.guarded → b)
    (hwaits : x.waits → lk.locked) (hcleared : x = .cleared → lk.locked = false)
    (hasleep : ∀ q, s.Asleep q → lk.locked ∨ x.wakes q) :
    Inv pid (((s.setSched p y).setPlock p b).move p lk x) := by
  have hidle := idle hc
  refine hi.change hidle hidle (fun _ => hy) (fun h => absurd hc h) (fun h => ⟨hc, hmay h⟩) (fun _ => hguarded) ?_ howner
    hsigned hpid hwaits hcleared ?_ fun q _ hq => (hasleep q hq).imp_right fun h => ⟨hc, h⟩
  · rw [hheld]
    exact ⟨fun h => ⟨hc, h⟩, And.right⟩
  · exact fun h => absurd h (Sched.not_asleep_of_state (by rw [hy]; decide) _)

theorem stay {held : Bool} {b : Bool} {y : Sched Chan}
    (hy : y.state = .running) (hheld : held = x.inside) (hfollows : x.follows (s.place p))
    (hmay : b → x.mayGuard) (hguarded : x.guarded → b)
    (hwaits : x.waits → s.lk.locked)
    (hasleep : ∀ q, s.Asleep q → s.lk.locked ∨ x.wakes q) :
    Inv pid (((s.setSched p y).setPlock p b).move p { s.lk with held := held } x) := by
  obtain ⟨o, ho⟩ := hi.owner
  obtain ⟨howns, hsigned, hcleared⟩ := Place.of_follows hfollows
  exact hi.move hc hy hheld ⟨o, ho.keep howns rfl⟩ (fun h => hi.pid p (hsigned h))
    (fun q _ hq => hi.pid q hq) hmay hguarded hwaits (fun h => absurd h hcleared) hasleep

theorem locked_of_asleep (hin : (s.place p).inside = false) (q : Fin n) (hq : s.Asleep q) : s.lk.locked := by
  rcases hi.asleep_of_current hc hq with hl | hw
  · exact hl
  · cases (Place.wakes_of_not_inside hin q).symm.trans hw

/-- The running process gives up the processor. The scheduler releases its lock. -/
theorem leave {y : Sched Chan}
    (hin : (s.place p).inside = false) (hrest : x.resting) (howns : x.owns = (s.place p).owns)
    (hsigned : x.signed → (s.place p).signed)
    (hy : y.Asleep .lock → x = .parked ∧ s.lk.locked) :
    Inv pid { ((s.setSched p y).setPlock p false).move p s.lk x with current := none } := by
  obtain ⟨o, ho⟩ := hi.owner
  refine hi.change (idle hc) nofun nofun (fun _ => hrest) nofun nofun ?_ ⟨o, ho.keep howns rfl⟩
    (fun h => hi.pid p (hsigned h)) (fun q _ hq => hi.pid q hq) ?_ ?_ hy
    fun q _ hq => .inl (hi.locked_of_asleep hc hin q hq)
  · exact ⟨fun h => absurd (hin.symm.trans ((hi.held_eq hc).symm.trans h)) Bool.false_ne_true, nofun⟩
  · rw [(Place.of_resting hrest).2.1]
    exact nofun
  · rintro rfl
    cases hrest

/-- `stay` for a move that does not touch the lock of the process. -/
theorem stay_self {held : Bool} (hheld : held = x.inside) (hfollows : x.follows (s.place p))
    (hmay : s.plock p → x.mayGuard) (hguarded : x.guarded → s.plock p)
    (hwaits : x.waits → s.lk.locked)
    (hasleep : ∀ q, s.Asleep q → s.lk.locked ∨ x.wakes q) :
    Inv pid (s.move p { s.lk with held := held } x) := by
  have h := hi.stay hc (hi.running p hc) hheld hfollows hmay hguarded hwaits hasleep
  rwa [State.setSched, State.setPlock, update_eq_self, update_eq_self] at h

theorem stay_free (hz : s.place p = z) {held : Bool} (hplock : s.plock p = false)
    (hheld : held = x.inside) (hfollows : x.follows z) (heasy : x.easy)
    (hasleep : ∀ q, s.Asleep q → s.lk.locked ∨ x.wakes q) :
    Inv pid (s.move p { s.lk with held := held } x) := by
  subst hz
  simp only [Place.easy, Bool.and_eq_true, Bool.not_eq_true'] at heasy
  refine hi.stay_self hc hheld hfollows ?_ ?_ ?_ hasleep
  · simp [hplock]
  · simp [heasy.1]
  · simp [heasy.2]

theorem acquire (hz : s.place p = z) (hfree : z.inside = false) (hmay : z.mayGuard = false) (hx : x.inside)
    (hfollows : x.follows z) (heasy : x.easy) : Inv pid (s.acquire p x) := by
  subst hz
  have hheld : s.lk.held = false := (hi.held_eq hc).trans hfree
  rw [State.acquire, hheld, if_neg Bool.false_ne_true]
  exact hi.stay_free hc rfl (hi.plock_eq_false hmay) hx.symm hfollows heasy
    fun q hq => .inl (hi.locked_of_asleep hc hfree q hq)

theorem release (hz : s.place p = z) (hin : z.inside) (hx : x.inside = false) (hfollows : x.follows z)
    (hmay : x.mayGuard) (hguarded : x.guarded → s.plock p)
    (hwaits : x.waits → s.lk.locked)
    (hasleep : ∀ q, s.Asleep q → s.lk.locked ∨ x.wakes q) :
    Inv pid (s.release p x) := by
  subst hz
  have hheld : s.lk.held = true := (hi.held_eq hc).trans hin
  rw [State.release, if_pos hheld]
  exact hi.stay_self hc hx.symm hfollows (fun _ => hmay) hguarded hwaits hasleep

theorem resume (hz : s.place p = z) (hp : s.plock p)
    (hin : z.inside = false) (hx : x.inside = false) (hfollows : x.follows z)
    (heasy : x.easy) : Inv pid (s.resume p x) := by
  subst hz
  rw [State.resume, if_pos hp]
  have hheld : s.lk.held = x.inside := ((hi.held_eq hc).trans hin).trans hx.symm
  simp only [Place.easy, Bool.and_eq_true, Bool.not_eq_true'] at heasy
  refine hi.stay hc (hi.running p hc) hheld hfollows ?_ ?_ ?_ fun q hq => .inl (hi.locked_of_asleep hc hin q hq)
  · simp
  · simp [heasy.1]
  · simp [heasy.2]

/-- A round of `wakeup` does not panic, and the slot is not asleep on the lock afterwards. -/
theorem wakeOne (q : Fin n) :
    Inv pid (s.wakeOne p q) ∧ ¬ (s.wakeOne p q).Asleep q ∧
      (s.wakeOne p q).place = s.place ∧ (s.wakeOne p q).current = s.current ∧
      (s.wakeOne p q).lk = s.lk := by
  unfold State.wakeOne
  by_cases hqp : q = p
  · subst hqp
    rw [if_pos rfl]
    exact ⟨hi, hi.not_asleep hc, rfl, rfl, rfl⟩
  · have hq : s.plock q = false := by
      by_contra h
      have hcur := (hi.mayGuard q (by simpa using h)).1
      exact hqp (Option.some.inj (hcur.symm.trans hc))
    rw [if_neg hqp, hq, if_neg Bool.false_ne_true]
    refine ⟨hi.rouseOne (.wakeup _ _), ?_, rfl, rfl, rfl⟩
    simp only [State.Asleep, State.setSched, update_self, Sched.asleep_wakeup]
    exact fun h => h.2 rfl

theorem write (hz : s.place p = z) {locked : Bool} {w : Nat} (hin : z.inside) (hmay : z.mayGuard = false)
    (hx : x.inside) (hguarded : x.guarded = false) (hwaits : x.waits = false)
    (howner : ∃ o, Owner ⟨s.lk.held, locked, w⟩ (update s.place p x) o)
    (hsigned : x.signed → w = pid p)
    (hpid : ∀ q ≠ p, (s.place q).signed → w = pid q)
    (hcleared : x = .cleared → locked = false)
    (hasleep : ∀ q, s.Asleep q → locked ∨ x.wakes q) :
    Inv pid (s.move p ⟨s.lk.held, locked, w⟩ x) := by
  subst hz
  have hheld : s.lk.held = x.inside := ((hi.held_eq hc).trans hin).trans hx.symm
  have hplock : s.plock p = false := hi.plock_eq_false hmay
  have h := hi.move (b := false) hc (hi.running p hc) (show Lock.held ⟨s.lk.held, locked, w⟩ = x.inside from hheld) howner
    hsigned hpid nofun (fun h => by rw [hguarded] at h; exact h) (fun h => by rw [hwaits] at h; cases h) hcleared hasleep
  rwa [← hplock, State.setSched, State.setPlock, update_eq_self, update_eq_self] at h

theorem test (hx : s.place p = .testing) :
    Inv pid (if s.lk.locked then s.move p s.lk .locking
      else s.move p { s.lk with locked := true } .signing) := by
  have hin : (s.place p).inside = true := by rw [hx]; rfl
  have hmay : (s.place p).mayGuard = false := by rw [hx]; rfl
  obtain ⟨o, ho⟩ := hi.owner
  split
  · rename_i hl
    exact hi.stay_self hc ((hi.held_eq hc).trans hin) (by rw [hx]; rfl)
      (fun h => by rw [hi.plock_eq_false hmay] at h; cases h) nofun (fun _ => hl)
      (fun _ _ => .inl hl)
  · rename_i hl
    have hfree : s.lk.locked = false := by simpa using hl
    apply hi.write hc hx rfl rfl rfl rfl rfl ⟨some p, ho.take hfree rfl rfl⟩
    · intro h
      cases h
    · exact fun q _ hq => hi.pid q hq
    · intro h
      cases h
    · exact fun _ _ => .inl rfl

theorem sign (hx : s.place p = .signing) : Inv pid (s.move p { s.lk with pid := pid p } .leaving) := by
  have howns : (s.place p).owns = true := by rw [hx]; rfl
  obtain ⟨o, ho⟩ := hi.owner
  refine hi.write hc hx rfl rfl rfl rfl rfl ⟨o, ho.keep (by rw [hx]; rfl) rfl⟩ ?_ ?_ ?_ ?_
  · exact fun _ => rfl
  · -- nobody else has the lock
    intro q hq hs
    exact absurd (hi.eq_of_owns (Place.owns_of_signed hs) howns) hq
  · intro h
    cases h
  · exact fun _ _ => .inl (hi.locked_iff.mpr ⟨p, howns⟩)

theorem clear (hx : s.place p = .clearing) : Inv pid (s.move p { s.lk with locked := false } .cleared) := by
  obtain ⟨o, ho⟩ := hi.owner
  apply hi.write hc hx rfl rfl rfl rfl rfl ⟨none, ho.drop (by rw [hx]; rfl) rfl rfl⟩
  · intro h
    cases h
  · exact fun q _ hs => hi.pid q hs
  · exact fun _ => rfl
  · exact fun _ _ => .inr rfl

theorem unsign (hx : s.place p = .cleared) : Inv pid (s.move p { s.lk with pid := 0 } (.waking 0)) := by
  have hl : s.lk.locked = false := hi.cleared p hx
  obtain ⟨o, ho⟩ := hi.owner
  refine hi.write hc hx rfl rfl rfl rfl rfl ⟨o, ho.keep (by rw [hx]; rfl) rfl⟩ ?_ ?_ ?_ ?_
  · intro h
    cases h
  · intro q _ hs
    have hlocked := hi.locked_iff.mpr ⟨q, Place.owns_of_signed hs⟩
    cases hl.symm.trans hlocked
  · intro h
    cases h
  · exact fun q _ => .inr (by simp [Place.wakes])

/-- The slots before `k` are awake, so after the last round nobody sleeps on the lock. -/
theorem round {k : Nat} (hx : s.place p = .waking k) :
    Inv pid (if h : k < n then (s.wakeOne p ⟨k, h⟩).move p s.lk (.waking (k + 1))
      else s.release p .outside) := by
  by_cases h : k < n
  · rw [dif_pos h]
    obtain ⟨hi', hawake, hplace, hcur, hlk⟩ := hi.wakeOne hc ⟨k, h⟩
    have hx' : (s.wakeOne p ⟨k, h⟩).place p = .waking k := by rw [hplace, hx]
    have hc' : (s.wakeOne p ⟨k, h⟩).current = some p := hcur.trans hc
    have hplock := hi'.plock_eq_false (by rw [hx']; rfl)
    rw [← hlk]
    refine hi'.stay_free hc' hx' hplock ((hi'.held_eq hc').trans (by rw [hx']; rfl)) rfl rfl fun q hq => ?_
    have hne : q.val ≠ k := by
      rintro rfl
      exact hawake hq
    rcases hi'.asleep_of_current hc' hq with hl | hw
    · exact .inl hl
    · rw [hx'] at hw
      simp only [Place.wakes, decide_eq_true_eq] at hw ⊢
      exact .inr (by omega)
  · rw [dif_neg h]
    refine hi.release hc hx rfl rfl rfl rfl nofun nofun
      fun q hq => ?_
    rcases hi.asleep_of_current hc hq with hl | hw
    · exact .inl hl
    · rw [hx] at hw
      simp only [Place.wakes, decide_eq_true_eq] at hw
      omega

theorem go : Inv pid (s.go pid p) := by
  -- one case for each statement, in the order of the source
  unfold State.go
  cases hx : s.place p with
  | acquiring =>
    exact hi.acquire hc hx rfl rfl rfl rfl rfl
  | testing => exact hi.test hc hx
  | locking =>
    have hl : s.lk.locked = true := hi.waits p (by rw [hx]; rfl)
    have hplock : s.plock p = false := hi.plock_eq_false (by rw [hx]; rfl)
    simp only [hplock, if_neg Bool.false_ne_true]
    have h := hi.stay (b := true) (x := .unlocking) hc (hi.running p hc) ((hi.held_eq hc).trans (by rw [hx]; rfl))
      (by rw [hx]; rfl) (fun _ => rfl) (fun _ => rfl) (fun _ => hl) (fun _ _ => .inl hl)
    rwa [State.setSched, update_eq_self] at h
  | unlocking =>
    have hl : s.lk.locked = true := hi.waits p (by rw [hx]; rfl)
    have hplock : s.plock p = true := hi.guarded p hc (by rw [hx]; rfl)
    exact hi.release hc hx rfl rfl rfl rfl (fun _ => hplock) (fun _ => hl)
      (fun _ _ => .inl hl)
  | parking =>
    have hl : s.lk.locked = true := hi.waits p (by rw [hx]; rfl)
    have hplock : s.plock p = true := hi.guarded p hc (by rw [hx]; rfl)
    simp only [hplock, if_pos]
    exact hi.leave hc (by rw [hx]; rfl) rfl (by rw [hx]; rfl) nofun (fun _ => ⟨rfl, hl⟩)
  | parked =>
    exact hi.resume hc hx (hi.guarded p hc (by rw [hx]; rfl)) rfl rfl rfl rfl
  | signing => exact hi.sign hc hx
  | leaving =>
    have hl : s.lk.locked = true := hi.locked_iff.mpr ⟨p, by rw [hx]; rfl⟩
    exact hi.release hc hx rfl rfl rfl rfl nofun nofun
      (fun _ _ => .inl hl)
  | releasing =>
    exact hi.acquire hc hx rfl rfl rfl rfl rfl
  | clearing => exact hi.clear hc hx
  | cleared => exact hi.unsign hc hx
  | waking k => exact hi.round hc hx
  | outside =>
    dsimp only
    split
    · rename_i hplock
      exact hi.resume hc hx hplock rfl rfl rfl rfl
    · exact hi
  | holding =>
    dsimp only
    split
    · rename_i hplock
      exact hi.resume hc hx hplock rfl rfl rfl rfl
    · exact hi

/-- Between two calls a process may yield or sleep on something else. -/
theorem switch (hl : s.AtLarge p) {y : Sched Chan} (hy : ¬ y.Asleep .lock) : Inv pid (s.switch p y) := by
  obtain ⟨hx, hplock⟩ := hl
  have hin : (s.place p).inside = false := by
    rcases hx with hx | hx
    · rw [hx]; rfl
    · rw [hx]; rfl
  have hrest : (s.place p).resting = true := by
    rcases hx with hx | hx
    · rw [hx]; rfl
    · rw [hx]; rfl
  have h := hi.leave hc hin hrest rfl id (fun h => absurd h hy)
  simpa [State.switch, State.move, State.setPlock, State.setSched, ← hplock] using h

theorem stepOf {s' : State n} {a : Act n} (h : stepOf pid s p a = some s') : Inv pid s' := by
  cases a with
  | dispatch q => cases h
  | wakeup addr => cases h
  | go =>
    cases h
    exact hi.go hc
  | acquiresleep =>
    obtain ⟨⟨hl, hx⟩, ⟨⟩⟩ := Option.ite_none_right_eq_some.mp h
    exact hi.stay_free hc hx hl.2 ((hi.held_eq hc).trans (by rw [hx]; rfl)) rfl rfl
      fun q hq => .inl (hi.locked_of_asleep hc (by rw [hx]; rfl) q hq)
  | releasesleep =>
    obtain ⟨⟨hl, hx⟩, ⟨⟩⟩ := Option.ite_none_right_eq_some.mp h
    exact hi.stay_free hc hx hl.2 ((hi.held_eq hc).trans (by rw [hx]; rfl)) rfl rfl
      fun q hq => .inl (hi.locked_of_asleep hc (by rw [hx]; rfl) q hq)
  | yield =>
    obtain ⟨hl, ⟨⟩⟩ := Option.ite_none_right_eq_some.mp h
    exact hi.switch hc hl (Sched.not_asleep_of_state (by simp) _)
  | sleep addr =>
    obtain ⟨hl, ⟨⟩⟩ := Option.ite_none_right_eq_some.mp h
    exact hi.switch hc hl (by simp [Sched.asleep_sleep])
  | kill q =>
    obtain ⟨hl, h⟩ := Option.ite_none_right_eq_some.mp h
    have hno : ¬ ∃ r ≤ q, s.plock r = true := by
      rintro ⟨r, -, hr⟩
      cases hc.symm.trans (hi.mayGuard r hr).1
      cases hl.2.symm.trans hr
    cases (if_neg hno).symm.trans h
    exact hi.rouseOne (.kill _)

end

theorem dispatch (hc : s.current = none) :
    Inv pid { (s.setSched p { s.sched p with state := .running }).setPlock p true with
      current := some p } := by
  have hidle : ∀ q, s.current ≠ some q := by simp [hc]
  have hrest := hi.resting p (hidle p)
  obtain ⟨o, ho⟩ := hi.owner
  have h := hi.change (p := p) (b := true) (y := { s.sched p with state := .running })
    (fun q _ => hidle q) (by simp +contextual [eq_comm]) (fun _ => rfl) (absurd rfl)
    (fun _ => ⟨rfl, (Place.of_resting hrest).2.2⟩) (fun _ _ => rfl) ?_ ⟨o, ho.keep rfl rfl⟩ (hi.pid p)
    (fun q _ => hi.pid q) (hi.waits p) (hi.cleared p) nofun ?_
  · rwa [update_eq_self] at h
  · rw [hi.held, (Place.of_resting hrest).1]
    exact ⟨fun ⟨q, hq, _⟩ => absurd hq (hidle q), nofun⟩
  · exact fun q _ hq => (hi.asleep q hq).imp_right fun ⟨r, hr, _⟩ => absurd hr (hidle r)

theorem step {s' : State n} {a : Act n} (h : step pid s a = some s') : Inv pid s' := by
  have hlive : ¬ s.halted = true := by simp [hi.live]
  simp only [Sleeplock.step, if_neg hlive] at h
  cases a with
  | dispatch p =>
    simp only [Option.ite_none_right_eq_some] at h
    obtain ⟨hc, h⟩ := h
    have hplock : s.plock p = false := by
      by_contra hp
      have := (hi.mayGuard p (by simpa using hp)).1
      cases hc.symm.trans this
    simp only [hplock, if_neg Bool.false_ne_true, Option.ite_none_right_eq_some,
      Option.some.injEq] at h
    obtain ⟨-, rfl⟩ := h
    exact hi.dispatch hc
  | wakeup addr =>
    have hno : ¬ ∃ q, s.current ≠ some q ∧ s.plock q = true :=
      fun ⟨q, hq, hp⟩ => hq (hi.mayGuard q hp).1
    simp only [if_neg hno, Option.some.injEq] at h
    subst h
    apply hi.rouse
    intro q
    split
    · exact .inl rfl
    · exact .wakeup _ _
  | _ =>
    obtain ⟨p, hc, h⟩ := Option.bind_eq_some_iff.mp h
    exact hi.stepOf hc h

theorem run {as : List (Act n)} {s' : State n} (h : run pid s as = some s') : Inv pid s' := by
  induction as generalizing s with
  | nil =>
    cases h
    exact hi
  | cons a as ih =>
    obtain ⟨s1, h1, h⟩ := Option.bind_eq_some_iff.mp h
    exact ih (hi.step h1) h

end Inv

/-! ## Exclusion and wakeup -/

/-- Between the return of `acquiresleep` and the first statement of `releasesleep`. -/
def State.Holds (s : State n) (p : Fin n) : Prop := s.place p = .holding ∨ s.place p = .releasing

instance (s : State n) (p : Fin n) : Decidable (s.Holds p) := inferInstanceAs (Decidable (_ ∨ _))

namespace State

variable {s : State n} {p : Fin n}

theorem Holds.signed (h : s.Holds p) : (s.place p).signed := by
  rcases h with h | h
  · rw [h]; rfl
  · rw [h]; rfl

theorem Holds.owns (h : s.Holds p) : (s.place p).owns := Place.owns_of_signed h.signed

/-- Outside of the spinlock an owner is a holder. -/
theorem holds_of_owns (h : (s.place p).owns) (hin : (s.place p).inside = false) : s.Holds p := by
  unfold State.Holds
  generalize s.place p = x at *
  cases x with
  | holding => exact .inl rfl
  | releasing => exact .inr rfl
  | signing => cases hin
  | leaving => cases hin
  | clearing => cases hin
  | _ => cases h

end State

namespace Inv

variable {pid : Fin n → Nat} {s : State n}

theorem not_inside (hi : Inv pid s) (hfree : s.lk.held = false) (p : Fin n) : (s.place p).inside = false := by
  by_cases hc : s.current = some p
  · rw [← hi.held_eq hc, hfree]
  · exact (Place.of_resting (hi.resting p hc)).1

theorem locked_iff_holds (hi : Inv pid s) (hfree : s.lk.held = false) : s.lk.locked ↔ ∃ p, s.Holds p := by
  rw [hi.locked_iff]
  constructor
  · rintro ⟨p, hp⟩
    exact ⟨p, State.holds_of_owns hp (hi.not_inside hfree p)⟩
  · rintro ⟨p, hp⟩
    exact ⟨p, hp.owns⟩

/-- A process that is still to wake somebody has the spinlock. -/
theorem locked_of_asleep_of_free (hi : Inv pid s) (hfree : s.lk.held = false) {p : Fin n}
    (hp : s.Asleep p) : s.lk.locked := by
  rcases hi.asleep p hp with hl | ⟨r, -, hw⟩
  · exact hl
  · rw [Place.wakes_of_not_inside (hi.not_inside hfree r)] at hw
    cases hw

/-- `holdingsleep` tells the holder from every process with another `pid`. -/
theorem holdingsleep_iff (hi : Inv pid s) (hfree : s.lk.held = false) (hpid : pid.Injective)
    (p : Fin n) : s.lk.holdingsleep (pid p) ↔ s.Holds p := by
  simp only [Lock.holdingsleep, Bool.and_eq_true, beq_iff_eq]
  constructor
  · rintro ⟨hl, hp⟩
    obtain ⟨q, hq⟩ := (hi.locked_iff_holds hfree).mp hl
    have hqp : pid q = pid p := (hi.pid q hq.signed).symm.trans hp
    exact hpid hqp ▸ hq
  · intro hp
    exact ⟨hi.locked_iff.mpr ⟨p, hp.owns⟩, hi.pid p hp.signed⟩

end Inv

/-- For any number of processes and any interleaving: there is no panic, at most one process has the lock
and the lock bears its `pid`, and `locked` is set from the write in `acquiresleep` to the write in
`releasesleep`. Where the spinlock is free, `locked` says whether there is a holder, and nobody sleeps on a
lock that is not taken. -/
theorem exclusion_and_wakeup (pid : Fin n → Nat) (as : List (Act n)) (s : State n)
    (h : run pid (start n) as = some s) :
    s.halted = false ∧
      (∀ p q, s.Holds p → s.Holds q → p = q) ∧
      (∀ p, s.Holds p → s.lk.locked = true ∧ s.lk.pid = pid p) ∧
      (s.lk.locked = true ↔ ∃ p, (s.place p).owns = true) ∧
      (s.lk.held = false →
        (s.lk.locked = true ↔ ∃ p, s.Holds p) ∧ (s.lk.locked = false → ∀ p, ¬ s.Asleep p)) := by
  have hi : Inv pid s := (inv_start pid).run h
  refine ⟨hi.live, ?_, ?_, hi.locked_iff, ?_⟩
  · exact fun p q hp hq => hi.eq_of_owns hp.owns hq.owns
  · exact fun p hp => ⟨hi.locked_iff.mpr ⟨p, hp.owns⟩, hi.pid p hp.signed⟩
  · intro hfree
    refine ⟨hi.locked_iff_holds hfree, ?_⟩
    intro hl p hp
    have hlocked := hi.locked_of_asleep_of_free hfree hp
    cases hl.symm.trans hlocked

/-- The first process takes the lock and yields, the second one goes to sleep on it. -/
def contended : List (Act 2) :=
  [.dispatch 0, .go, .acquiresleep, .go, .go, .go, .go, .yield,
    .dispatch 1, .go, .acquiresleep, .go, .go, .go, .go, .go]

theorem exclusion_and_wakeup_contended :
    ∃ s, run (fun p => p.val + 1) (start 2) contended = some s ∧ s.lk.held = false ∧
      s.lk.pid = 1 ∧ s.Holds 0 ∧ s.Asleep 1 ∧ ∀ p q, s.Holds p → s.Holds q → p = q :=
  ⟨_, rfl, rfl, rfl, by decide, by decide, (exclusion_and_wakeup (fun p => p.val + 1) contended _ rfl).2.1⟩

end Xv6.Ipc.Sleeplock
