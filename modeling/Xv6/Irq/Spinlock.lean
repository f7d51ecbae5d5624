import Mathlib.Data.List.Nodup
import Mathlib.Logic.Function.Basic

/-!
# Spinlocks and interrupts

`acquire`, `release`, `push_off` and `pop_off` of `kernel/spinlock.c`, one instruction for each statement, so
that an interrupt may arrive between any two of them. Of `sstatus` only the interrupt-enable bit is
represented. `saved_sie` and `noff` are global variables: a handler that takes a lock works on the same ones
as the code that it interrupts.

An interrupt is delivered where the bit is set. The hardware clears the bit and the `sret` of `kernelvec`
sets it again; in between the handler takes and releases locks.
-/

namespace Xv6.Irq

open Function

variable {L : Type} [DecidableEq L]

/-- The interrupt-enable bit, the globals of `spinlock.c` and the `locked` words, `L` being the locks. -/
structure Cpu (L : Type) where
  sie : Bool
  noff : Int
  saved : Bool
  locked : L → Bool

inductive Call (L : Type)
  | acquire (l : L)
  | release (l : L)

inductive Instr (L : Type)
  /-- `uint64 x = r_sstatus()` -/
  | read
  /-- `if (noff == 0) saved_sie = x & SSTATUS_SIE` -/
  | save
  /-- `noff += 1` -/
  | incr
  /-- `w_sstatus(x & ~SSTATUS_SIE)` -/
  | mask
  /-- `if (holding(lk)) panic("acquire")` -/
  | test (l : L)
  /-- `__sync_lock_test_and_set`, which finds the lock free -/
  | take (l : L)
  /-- `if (!holding(lk)) panic("release")` -/
  | check (l : L)
  /-- `__sync_lock_release` -/
  | drop (l : L)
  /-- `noff -= 1` -/
  | decr
  /-- `x = r_sstatus()` in `pop_off` -/
  | fetch
  /-- the write of `x` with the bit set or cleared -/
  | restore

def Call.code : Call L → List (Instr L)
  | .acquire l => [.read, .save, .incr, .mask, .test l, .take l]
  | .release l => [.check l, .drop l, .decr, .fetch, .restore]

/-- One instruction, with the bit in the local variable `x`. -/
def Instr.exec : Instr L → Bool × Cpu L → Except String (Bool × Cpu L)
  | .read, (_, c) => .ok (c.sie, c)
  | .save, (x, c) => .ok (x, if c.noff = 0 then { c with saved := x } else c)
  | .incr, (x, c) => .ok (x, { c with noff := c.noff + 1 })
  | .mask, (x, c) => .ok (x, { c with sie := false })
  | .test l, (x, c) => if c.locked l then .error "acquire" else .ok (x, c)
  | .take l, (x, c) => .ok (x, { c with locked := update c.locked l true })
  | .check l, (x, c) => if c.locked l then .ok (x, c) else .error "release"
  | .drop l, (x, c) => .ok (x, { c with locked := update c.locked l false })
  | .decr, (x, c) => .ok (x, { c with noff := c.noff - 1 })
  | .fetch, (x, c) => .ok (if c.noff = 0 then c.sie else x, c)
  | .restore, (x, c) => .ok (x, if c.noff = 0 then { c with sie := c.saved } else c)

/-- A call that is not interrupted. The value of `x` before its first instruction does not matter. -/
def Cpu.call (c : Cpu L) (a : Call L) : Except String (Cpu L) := do
  let (_, c) ← a.code.foldlM (fun s i => i.exec s) (false, c)
  .ok c

def Cpu.calls (c : Cpu L) : List (Call L) → Except String (Cpu L)
  | [] => .ok c
  | a :: as => do
    let c ← c.call a
    c.calls as

/-- The calls nest: from the locks `held`, each `acquire` is of a lock that is free, each `release` of one
that is held, and none is held at the end. -/
def Nested (held : List L) : List (Call L) → Prop
  | [] => held = []
  | .acquire l :: as => l ∉ held ∧ Nested (l :: held) as
  | .release l :: as => l ∈ held ∧ Nested (held.erase l) as

/-- What a handler does about locks. -/
def Handler (L : Type) [DecidableEq L] : Type := { as : List (Call L) // Nested [] as }

/-- An interrupt arrives. It is delivered if the bit is set. -/
def Cpu.interrupt (c : Cpu L) (h : Handler L) : Except String (Cpu L) :=
  if c.sie then do
    let c ← { c with sie := false }.calls h.val
    .ok { c with sie := true }
  else .ok c

def Cpu.interrupts (c : Cpu L) : List (Handler L) → Except String (Cpu L)
  | [] => .ok c
  | h :: hs => do
    let c ← c.interrupt h
    c.interrupts hs

/-- The instructions from number `i` on; `gaps i` are the interrupts that arrive before number `i`. The
handler keeps the registers of the code that it interrupts, `x` among them. -/
def runFrom (gaps : Nat → List (Handler L)) : Nat → List (Instr L) → Bool × Cpu L →
    Except String (Bool × Cpu L)
  | _, [], s => .ok s
  | i, a :: as, (x, c) => do
    let c ← c.interrupts (gaps i)
    let s ← a.exec (x, c)
    runFrom gaps (i + 1) as s

/-- A call with the interrupts that arrive before and between its instructions. -/
structure Event (L : Type) [DecidableEq L] where
  call : Call L
  gaps : Nat → List (Handler L)

def Cpu.event (c : Cpu L) (e : Event L) : Except String (Cpu L) := do
  let (_, c) ← runFrom e.gaps 0 e.call.code (false, c)
  .ok c

def Cpu.events (c : Cpu L) : List (Event L) → Except String (Cpu L)
  | [] => .ok c
  | e :: es => do
    let c ← c.event e
    c.events es

def idle (sie saved : Bool) : Cpu L := ⟨sie, 0, saved, fun _ => false⟩

/-- A handler that takes a lock arrives between `saved_sie = x & SSTATUS_SIE` and `noff += 1` of an
outermost `push_off`; `depth` is the number of locks held. -/
def Strikes : Nat → List (Event L) → Prop
  | _, [] => False
  | depth, ⟨.acquire _, gaps⟩ :: es => depth = 0 ∧ (∃ h ∈ gaps 2, h.val ≠ []) ∨ Strikes (depth + 1) es
  | depth, ⟨.release _, _⟩ :: es => Strikes (depth - 1) es

/-! ## Calls without interrupts -/

namespace Cpu

variable {c : Cpu L} {l : L}

theorem call_acquire (hl : c.locked l = false) : c.call (.acquire l) = .ok
    ⟨false, c.noff + 1, if c.noff = 0 then c.sie else c.saved, update c.locked l true⟩ := by
  by_cases hn : c.noff = 0
  · simp [call, Call.code, Instr.exec, hn, hl, bind, Except.bind, pure, Except.pure]
  · simp [call, Call.code, Instr.exec, hn, hl, bind, Except.bind, pure, Except.pure]

theorem call_release (hl : c.locked l) : c.call (.release l) = .ok
    ⟨if c.noff = 1 then c.saved else c.sie, c.noff - 1, c.saved, update c.locked l false⟩ := by
  have hiff : c.noff - 1 = 0 ↔ c.noff = 1 := by omega
  by_cases hn : c.noff = 1
  · simp [call, Call.code, Instr.exec, hn, hl, bind, Except.bind, pure, Except.pure]
  · simp [call, Call.code, Instr.exec, hiff, hn, hl, bind, Except.bind, pure, Except.pure]

end Cpu

/-- The locks `held` are held, on top of a depth `base`. -/
structure Depth (base : Int) (held : List L) (c : Cpu L) : Prop where
  noff : c.noff = base + held.length
  nodup : held.Nodup
  locked : ∀ k, c.locked k = true ↔ k ∈ held

namespace Depth

variable {base : Int} {held : List L} {c c' : Cpu L} {l : L}

omit [DecidableEq L] in
theorem free (h : Depth base held c) (hl : l ∉ held) : c.locked l = false := by
  by_contra hne
  exact hl ((h.locked l).mp (by simpa using hne))

theorem acquire (h : Depth base held c) (hl : l ∉ held) (hn : c'.noff = c.noff + 1)
    (hlocked : c'.locked = update c.locked l true) : Depth base (l :: held) c' where
  noff := by
    rw [hn, h.noff]
    push_cast [List.length_cons]
    omega
  nodup := List.nodup_cons.mpr ⟨hl, h.nodup⟩
  locked k := by
    rw [hlocked]
    by_cases hk : k = l
    · simp [hk]
    · simp [hk, h.locked k]

theorem release (h : Depth base held c) (hl : l ∈ held) (hn : c'.noff = c.noff - 1)
    (hlocked : c'.locked = update c.locked l false) : Depth base (held.erase l) c' where
  noff := by
    have hpos : 0 < held.length := List.length_pos_of_mem hl
    rw [hn, h.noff, List.length_erase_of_mem hl]
    omega
  nodup := h.nodup.erase l
  locked k := by
    rw [hlocked, h.nodup.mem_erase_iff]
    by_cases hk : k = l
    · simp [hk]
    · simp [hk, h.locked k]

omit [DecidableEq L] in
theorem locked_eq (h : Depth base [] c) : c.locked = fun _ => false := by
  funext k
  exact h.free (List.not_mem_nil)

end Depth

/-- A handler leaves everything as it was, except that it clears `saved_sie` if it is the first to take a
lock. Here `base` is the depth at which it was entered. -/
theorem calls_masked {base : Int} (hbase : 0 ≤ base) (as : List (Call L)) {held : List L} {c : Cpu L}
    (hnest : Nested held as) (hd : Depth base held c) (hsie : c.sie = false)
    (hsaved : base = 0 → held ≠ [] → c.saved = false) :
    ∃ c', c.calls as = .ok c' ∧ Depth base [] c' ∧ c'.sie = false ∧
      c'.saved = if base = 0 ∧ as ≠ [] then false else c.saved := by
  induction as generalizing held c with
  | nil =>
    cases hnest
    exact ⟨c, rfl, hd, hsie, by simp⟩
  | cons a as ih =>
    cases a with
    | acquire l =>
      obtain ⟨hl, hnest⟩ := hnest
      have hcall := Cpu.call_acquire (hd.free hl)
      have hsaved' : base ≠ 0 → c.noff ≠ 0 := by
        rw [hd.noff]
        omega
      have hown : base = 0 → (if c.noff = 0 then c.sie else c.saved) = false := by
        intro hb
        split
        · exact hsie
        · rename_i hn
          apply hsaved hb
          rintro rfl
          exact hn (by rw [hd.noff, hb]; rfl)
      have hd1 : Depth base (l :: held) ⟨false, c.noff + 1, if c.noff = 0 then c.sie else c.saved,
        update c.locked l true⟩ := hd.acquire hl rfl rfl
      obtain ⟨c', hrun, hd', hsie', hsv⟩ := ih hnest hd1 rfl (fun hb _ => hown hb)
      refine ⟨c', by rw [Cpu.calls, hcall]; exact hrun, hd', hsie', ?_⟩
      rw [hsv]
      by_cases hb : base = 0
      · simp [hb, hown hb]
      · simp [hb, hsaved' hb]
    | release l =>
      obtain ⟨hl, hnest⟩ := hnest
      have hne : held ≠ [] := List.ne_nil_of_mem hl
      have hpos : 0 < held.length := List.length_pos_of_mem hl
      have hcall := Cpu.call_release ((hd.locked l).mpr hl)
      -- the bit is restored at depth 0 only, and there `saved_sie` is the handler's own
      have hmasked : (if c.noff = 1 then c.saved else c.sie) = false := by
        split
        · rename_i hn
          apply hsaved _ hne
          rw [hd.noff] at hn
          omega
        · exact hsie
      have hd1 : Depth base (held.erase l) ⟨if c.noff = 1 then c.saved else c.sie, c.noff - 1, c.saved,
        update c.locked l false⟩ := hd.release hl rfl rfl
      obtain ⟨c', hrun, hd', hsie', hsv⟩ := ih hnest hd1 hmasked (fun hb _ => hsaved hb hne)
      refine ⟨c', by rw [Cpu.calls, hcall]; exact hrun, hd', hsie', ?_⟩
      rw [hsv]
      by_cases hb : base = 0
      · simp [hb, hsaved hb hne]
      · simp [hb]

/-! ## Interrupts -/

def takesLock (hs : List (Handler L)) : Bool := hs.any fun h => !h.val.isEmpty

theorem takesLock_iff {hs : List (Handler L)} : takesLock hs ↔ ∃ h ∈ hs, h.val ≠ [] := by
  simp [takesLock]

theorem interrupts_masked (c : Cpu L) (hsie : c.sie = false) (hs : List (Handler L)) : c.interrupts hs = .ok c := by
  induction hs with
  | nil => rfl
  | cons h hs ih =>
    have hone : c.interrupt h = .ok c := by simp [Cpu.interrupt, hsie]
    rw [Cpu.interrupts, hone]
    exact ih

theorem interrupt_unmasked {n : Int} (hn : 0 ≤ n) (v : Bool) (h : Handler L) :
    Cpu.interrupt ⟨true, n, v, fun _ => false⟩ h =
      .ok ⟨true, n, if n = 0 ∧ h.val ≠ [] then false else v, fun _ => false⟩ := by
  have hd : Depth n [] (⟨false, n, v, fun _ => false⟩ : Cpu L) :=
    ⟨by simp, List.nodup_nil, fun k => by simp⟩
  obtain ⟨c', hrun, hd', -, hsv⟩ := calls_masked hn h.val h.property hd rfl (fun _ h => absurd rfl h)
  have hc : c' = ⟨c'.sie, n, if n = 0 ∧ h.val ≠ [] then false else v, fun _ => false⟩ := by
    rw [← hsv, ← hd'.locked_eq]
    have hnoff : n = c'.noff := by simp [hd'.noff]
    rw [hnoff]
  rw [Cpu.interrupt, if_pos rfl, hrun, hc]
  rfl

theorem interrupts_unmasked {n : Int} (hn : 0 ≤ n) (v : Bool) (hs : List (Handler L)) :
    Cpu.interrupts ⟨true, n, v, fun _ => false⟩ hs =
      .ok ⟨true, n, if n = 0 ∧ takesLock hs = true then false else v, fun _ => false⟩ := by
  induction hs generalizing v with
  | nil => simp [Cpu.interrupts, takesLock]
  | cons h hs ih =>
    rw [Cpu.interrupts, interrupt_unmasked hn]
    refine (ih _).trans ?_
    by_cases hzero : n = 0
    · by_cases hnil : h.val = []
      · simp [hzero, hnil, takesLock]
      · simp [hzero, hnil, takesLock]
    · simp [hzero]

theorem Instr.exec_masked {a : Instr L} (ha : a ≠ .restore) {x x' : Bool} {c c' : Cpu L}
    (h : a.exec (x, c) = .ok (x', c')) (hsie : c.sie = false) : c'.sie = false := by
  cases a with
  | save =>
    cases h
    split
    · exact hsie
    · exact hsie
  | mask =>
    cases h
    rfl
  | test l =>
    simp only [Instr.exec] at h
    split at h
    · cases h
    · cases h
      exact hsie
  | check l =>
    simp only [Instr.exec] at h
    split at h
    · cases h
      exact hsie
    · cases h
  | restore => exact absurd rfl ha
  | _ =>
    cases h
    exact hsie

/-- Where the bit is clear it stays so until a `restore`, and interrupts do nothing. -/
theorem runFrom_masked (gaps : Nat → List (Handler L)) (as : List (Instr L)) (last : Instr L)
    (has : ∀ a ∈ as, a ≠ .restore) (i : Nat) (x : Bool) (c : Cpu L) (hsie : c.sie = false) :
    runFrom gaps i (as ++ [last]) (x, c) = (as ++ [last]).foldlM (fun s a => a.exec s) (x, c) := by
  induction as generalizing i x c with
  | nil =>
    simp only [List.nil_append, runFrom, interrupts_masked c hsie, List.foldlM_cons]
    rfl
  | cons a as ih =>
    simp only [List.cons_append, runFrom, interrupts_masked c hsie, List.foldlM_cons]
    show (a.exec (x, c) >>= runFrom gaps (i + 1) (as ++ [last])) = _
    cases hexec : a.exec (x, c) with
    | error m => rfl
    | ok s =>
      obtain ⟨x', c'⟩ := s
      exact ih (fun b hb => has b (List.mem_cons_of_mem a hb)) (i + 1) x' c'
        (Instr.exec_masked (has a List.mem_cons_self) hexec hsie)

theorem event_masked (c : Cpu L) (hsie : c.sie = false) (e : Event L) : c.event e = c.call e.call := by
  obtain ⟨a, gaps⟩ := e
  cases a with
  | acquire l =>
    have h := runFrom_masked gaps [.read, .save, .incr, .mask, .test l] (.take l) (by simp) 0 false c hsie
    exact congrArg (fun r => r >>= fun s => Except.ok s.2) h
  | release l =>
    have h := runFrom_masked gaps [.check l, .drop l, .decr, .fetch] .restore (by simp) 0 false c hsie
    exact congrArg (fun r => r >>= fun s => Except.ok s.2) h

theorem runFrom_quiet (as : List (Instr L)) (i : Nat) (s : Bool × Cpu L) :
    runFrom (fun _ => []) i as s = as.foldlM (fun s a => a.exec s) s := by
  induction as generalizing i s with
  | nil => rfl
  | cons a as ih =>
    obtain ⟨x, c⟩ := s
    rw [List.foldlM_cons]
    show (a.exec (x, c) >>= runFrom (fun _ => []) (i + 1) as) = _
    cases a.exec (x, c) with
    | error m => rfl
    | ok s => exact ih (i + 1) s

theorem event_quiet (c : Cpu L) (a : Call L) : c.event ⟨a, fun _ => []⟩ = c.call a := by
  rw [Cpu.event, runFrom_quiet, Cpu.call]

/-- The outermost `acquire`. A handler that arrives before the save, or after the increment, does no harm:
`saved_sie` is written afterwards, or the handler finds `noff` at 1. -/
theorem event_acquire (s v : Bool) (l : L) (gaps : Nat → List (Handler L)) :
    (idle s v).event ⟨.acquire l, gaps⟩ =
      .ok ⟨false, 1, s && !takesLock (gaps 2), update (fun _ => false) l true⟩ := by
  cases s with
  | false =>
    rw [event_masked _ rfl, Cpu.call_acquire rfl]
    rfl
  | true =>
    have hmasked (n : Int) (v : Bool) (hs : List (Handler L)) :
        Cpu.interrupts ⟨false, n, v, fun _ => false⟩ hs = .ok ⟨false, n, v, fun _ => false⟩ :=
      interrupts_masked _ rfl hs
    have hzero := interrupts_unmasked (L := L) (Int.le_refl 0)
    have hone := interrupts_unmasked (L := L) (n := 1) (by decide)
    simp only [Cpu.event, Call.code, idle, runFrom, Instr.exec, hzero, hone, hmasked, bind, Except.bind,
      Int.zero_add, if_true, Bool.false_eq_true, if_false]
    cases takesLock (gaps 2)
    · rfl
    · rfl

/-! ## The interrupt-enable bit -/

/-- Between two calls: the bit is `v` where no lock is held, and `v` is saved where one is. -/
structure Between (held : List L) (v : Bool) (c : Cpu L) : Prop extends Depth 0 held c where
  outer : held = [] → c.sie = v
  inner : held ≠ [] → c.sie = false ∧ c.saved = v

namespace Between

variable {held : List L} {v : Bool} {c : Cpu L} {l : L}

omit [DecidableEq L] in
theorem idle_eq (h : Between [] v c) : c = idle v c.saved := by
  have hnoff : c.noff = 0 := h.noff
  have hlocked := h.toDepth.locked_eq
  cases c
  simp only [idle, Cpu.mk.injEq]
  exact ⟨h.outer rfl, hnoff, trivial, hlocked⟩

theorem acquire (h : Between held v c) (hl : l ∉ held) (gaps : Nat → List (Handler L)) :
    ∃ c' v', c.event ⟨.acquire l, gaps⟩ = .ok c' ∧ Between (l :: held) v' c' ∧
      (v' ↔ v ∧ ¬ (held.length = 0 ∧ ∃ h ∈ gaps 2, h.val ≠ [])) := by
  by_cases hnil : held = []
  · subst hnil
    have hrun := (congrArg (Cpu.event · ⟨.acquire l, gaps⟩) h.idle_eq).trans
      (event_acquire v c.saved l gaps)
    refine ⟨_, v && !takesLock (gaps 2), hrun, ⟨⟨rfl, List.nodup_singleton l, ?_⟩, ?_, ?_⟩, ?_⟩
    · intro k
      by_cases hk : k = l
      · simp [hk]
      · simp [hk]
    · intro hne
      cases hne
    · exact fun _ => ⟨rfl, rfl⟩
    · rw [← takesLock_iff]
      simp
  · obtain ⟨hsie, hsaved⟩ := h.inner hnil
    have hpos : 0 < held.length := List.length_pos_iff.mpr hnil
    have hnoff : c.noff ≠ 0 := by
      rw [h.noff]
      omega
    have hrun := (event_masked c hsie ⟨.acquire l, gaps⟩).trans (Cpu.call_acquire (h.free hl))
    refine ⟨_, v, hrun, ⟨h.toDepth.acquire hl rfl rfl, ?_, ?_⟩, ?_⟩
    · intro hne
      cases hne
    · exact fun _ => ⟨rfl, (if_neg hnoff).trans hsaved⟩
    · simp [hnil]

theorem release (h : Between held v c) (hl : l ∈ held) (gaps : Nat → List (Handler L)) :
    ∃ c', c.event ⟨.release l, gaps⟩ = .ok c' ∧ Between (held.erase l) v c' := by
  obtain ⟨hsie, hsaved⟩ := h.inner (List.ne_nil_of_mem hl)
  have hpos : 0 < held.length := List.length_pos_of_mem hl
  have hlen := List.length_erase_of_mem hl
  have hone : c.noff = 1 ↔ held.erase l = [] := by
    rw [← List.length_eq_zero_iff, h.noff, hlen]
    omega
  have hrun := (event_masked c hsie ⟨.release l, gaps⟩).trans
    (Cpu.call_release ((h.locked l).mpr hl))
  refine ⟨_, hrun, ⟨h.toDepth.release hl rfl rfl, ?_, ?_⟩⟩
  · intro hnil
    exact (if_pos (hone.mpr hnil)).trans hsaved
  · intro hne
    exact ⟨(if_neg fun hn => hne (hone.mp hn)).trans hsie, hsaved⟩

theorem call_acquire (h : Between held v c) (hl : l ∉ held) :
    ∃ c', c.call (.acquire l) = .ok c' ∧ Between (l :: held) v c' := by
  obtain ⟨c', v', hrun, h', hv⟩ := h.acquire hl fun _ => []
  have hvv : v' = v := by
    rw [Bool.eq_iff_iff, hv]
    simp
  exact ⟨c', (event_quiet c _).symm.trans hrun, hvv ▸ h'⟩

theorem call_release (h : Between held v c) (hl : l ∈ held) :
    ∃ c', c.call (.release l) = .ok c' ∧ Between (held.erase l) v c' := by
  obtain ⟨c', hrun, h'⟩ := h.release hl fun _ => []
  exact ⟨c', (event_quiet c _).symm.trans hrun, h'⟩

/-- A whole sequence. The bit is lost at the first strike, for good. -/
theorem events (es : List (Event L)) (h : Between held v c) (hnest : Nested held (es.map Event.call)) :
    ∃ c' v', c.events es = .ok c' ∧ Between [] v' c' ∧
      (v' ↔ v ∧ ¬ Strikes held.length es) := by
  induction es generalizing held v c with
  | nil =>
    cases hnest
    exact ⟨c, v, rfl, h, by simp [Strikes]⟩
  | cons e es ih =>
    obtain ⟨a, gaps⟩ := e
    cases a with
    | acquire l =>
      obtain ⟨hl, hnest⟩ := hnest
      obtain ⟨c1, v1, hrun, h1, hv1⟩ := h.acquire hl gaps
      obtain ⟨c', v', hrun', h', hv'⟩ := ih h1 hnest
      refine ⟨c', v', by rw [Cpu.events, hrun]; exact hrun', h', ?_⟩
      rw [hv', hv1, Strikes, not_or, List.length_cons, and_assoc]
    | release l =>
      obtain ⟨hl, hnest⟩ := hnest
      obtain ⟨c1, hrun, h1⟩ := h.release hl gaps
      obtain ⟨c', v', hrun', h', hv'⟩ := ih h1 hnest
      refine ⟨c', v', by rw [Cpu.events, hrun]; exact hrun', h', ?_⟩
      rw [hv', Strikes, List.length_erase_of_mem hl]

end Between

/-- Calls that nest, with the interrupts that arrive in between. -/
structure Section (L : Type) [DecidableEq L] where
  events : List (Event L)
  nested : Nested [] (events.map Event.call)

/-- There is no panic and `noff` comes back to 0, but the bit comes back to its value before the outermost
`acquire` if and only if it was clear or no handler struck. -/
theorem restored_iff (σ : Section L) (sie saved : Bool) :
    ∃ c, (idle sie saved).events σ.events = .ok c ∧ c.noff = 0 ∧
      (c.sie = sie ↔ (sie = true → ¬ Strikes 0 σ.events)) := by
  have hstart : Between ([] : List L) sie (idle sie saved) :=
    ⟨⟨rfl, List.nodup_nil, fun k => by simp [idle]⟩, fun _ => rfl, fun h => absurd rfl h⟩
  obtain ⟨c, v, hrun, hend, hv⟩ := hstart.events σ.events σ.nested
  refine ⟨c, hrun, hend.noff, ?_⟩
  rw [hend.outer rfl]
  cases sie with
  | false =>
    have hfalse : v = false := by simpa using hv
    simp [hfalse]
  | true => simpa using hv

/-- The handler of a device, with its lock. -/
def deviceHandler : Handler Nat := ⟨[.acquire 1, .release 1], by simp [Nested]⟩

/-- An `acquire` and a `release` with interrupts enabled; one interrupt arrives after the save. -/
def struck : Section Nat where
  events := [⟨.acquire 0, fun i => if i = 2 then [deviceHandler] else []⟩, ⟨.release 0, fun _ => []⟩]
  nested := by simp [Nested]

theorem interrupts_stay_off :
    ∃ c, (idle true false).events struck.events = .ok c ∧ c.noff = 0 ∧ c.sie = false :=
  ⟨_, rfl, rfl, rfl⟩

end Xv6.Irq
