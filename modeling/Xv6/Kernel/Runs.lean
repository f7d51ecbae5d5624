import Xv6.Kernel.Ownership

/-!
# The steps keep the owners

One lemma for each system call, and from them that every run keeps `Own`.
-/

namespace Xv6.Kernel

open Coop Prog Vm Data Process Function Multiset
open Option (bind_eq_some_iff ite_none_right_eq_some)

variable {kt : UInt64} {kernel all : Multiset UInt64} {s s' : Sys} {p q : Slot} {a : Process.Action} {e : Exec}
  {m' : Mem}

theorem Keeps.of_mem (h : s'.mem = s.mem) : Keeps s s' := by
  intro q x _ _
  rw [h]

theorem Keeps.trans_left {s1 : Sys} (h : Keeps s s1) (h' : Keeps s1 s') (hspace : s1.space = s.space) :
    Keeps s s' := by
  intro q x hx hx'
  have hx1 : s1.space q = some x := by rw [hspace, hx]
  rw [h' q x hx1 hx', h q x hx hx1]

theorem Keeps.trans_right {s1 : Sys} (h : Keeps s s1) (h' : Keeps s1 s') (hspace : s'.space = s1.space) :
    Keeps s s' := by
  intro q x hx hx'
  have hx1 : s1.space q = some x := by rw [← hspace, hx']
  rw [h' q x hx1 hx', h q x hx hx1]

/-! ## The process table -/

theorem tree_of_step {t t' : Process.State} {es : List Event} (h : Tree t)
    (hstep : Process.step t a = some (t', es)) : Tree t' := by
  obtain ⟨⟨t1, h1, h2, -⟩, -⟩ := effect_of_step h hstep
  exact (h.effect h1).effect h2

/-- Only a process outside of `exec` calls `exit`. -/
def MayExit (s : Sys) (a : Process.Action) : Prop :=
  (∃ status, a = .exit status) ∨ (∃ status c, a = .exitSleep status c) →
    ∀ p, s.ps.current = some p → s.exec p = none

/-- A slot that is not reaped is in use as before. -/
theorem Own.used_of_slotted {ps : Process.State} (h : Own kt kernel all s)
    (hslot : Slotted s.ps a ps q) (hreap : reapedBy s.ps a ≠ some q) :
    (ps.proc q).state = .unused ↔ s.space q = none := by
  rw [← h.used q]
  cases hslot with
  | resched hr hexit hreap => exact not_iff_not.mp (hr.ne_unused_iff (h.tree.used q))
  | exited hcur hz hexit hreap =>
    have hlive := (h.tree.live_of_current hcur).ne_unused
    rw [hz]
    exact ⟨nofun, fun hu => absurd hu hlive⟩
  | reaped hr hz hfree => exact absurd hr hreap

/-- A process that is at work stays so, unless it exits. -/
theorem Slotted.working {t t' : Process.State} (hslot : Slotted t a t' q)
    (hw : (t.proc q).Live ∧ ¬ Exiting (t.proc q))
    (hno : (∃ status, a = .exit status) ∨ (∃ status c, a = .exitSleep status c) →
      t.current ≠ some q) : (t'.proc q).Live ∧ ¬ Exiting (t'.proc q) := by
  obtain ⟨hlive, hnot⟩ := hw
  cases hslot with
  | resched hr hexit hreap =>
    refine ⟨hr.live hlive, fun he => ?_⟩
    rcases hexit he with he | ⟨hcur, hsleep⟩
    · exact hnot he
    · exact hno (.inr hsleep) hcur
  | exited hcur hz hexit hreap =>
    rcases hexit with he | hexit
    · exact absurd he hnot
    · exact absurd hcur (hno (.inl hexit))
  | reaped hr hz hfree => exact absurd hz hlive.ne_zombie

theorem Own.live_of_slotted {ps : Process.State} (h : Own kt kernel all s)
    (hslot : Slotted s.ps a ps q) (hmay : MayExit s a) (hq : s.exec q ≠ none) :
    (ps.proc q).Live ∧ ¬ Exiting (ps.proc q) :=
  hslot.working (h.live q hq) fun hexit hcur => hq (hmay hexit q hcur)

theorem Own.procStep (h : Own kt kernel all s) (ha : ∀ f c, a ≠ .fork f c)
    (hmay : MayExit s a) (hs : s.procStep a = some s') : Own kt kernel all s' ∧ Keeps s s' := by
  obtain ⟨⟨ps, es⟩, hstep, hs⟩ := bind_eq_some_iff.mp hs
  have hslot := slotted_of_step h.tree hstep ha
  have htree := tree_of_step h.tree hstep
  dsimp only at hs
  cases hreap : reapedBy s.ps a with
  | none =>
    rw [hreap] at hs
    cases hs
    refine ⟨⟨h.pages, h.nodup, h.good, h.kernel, h.slot, h.files, htree, fun q => ?_, fun q => ?_⟩,
      .of_mem rfl⟩
    · exact h.used_of_slotted (hslot q) (by simp [hreap])
    · exact h.live_of_slotted (hslot q) hmay
  | some z =>
    rw [hreap] at hs
    obtain ⟨x, hx, hs⟩ := bind_eq_some_iff.mp hs
    obtain ⟨⟨u, s1⟩, hrun, hs⟩ := bind_eq_some_iff.mp hs
    cases hs
    obtain ⟨hdone, heq⟩ := runMem_eq_some hrun
    obtain ⟨m1, rfl⟩ : ∃ m1, s1 = { s with mem := m1 } := ⟨_, heq⟩
    -- the child is a zombie, so it is not in `exec`
    have hzombie : (s.ps.proc z).state = .zombie ∧ ps.proc z = .free := by
      cases hslot z with
      | resched hr hexit hne => exact absurd hreap hne
      | exited hcur hz hexit hne => exact absurd hreap hne
      | reaped hr hz hfree => exact ⟨hz, hfree⟩
    have hexec : s.exec z = none := by
      by_contra hne
      exact (h.live z hne).1.ne_zombie hzombie.1
    have hheld : held s z = spacePages s.mem x := by
      rw [held, hx, hexec, slotPages_some]
    have hpool := h.pool z
    rw [hheld] at hpool
    have hshift := of_run_eq_done (reapMem_shift ((h.slot z).space x hx) hpool) hdone
    rw [← hheld] at hshift
    have hown := @Own.slotStep m1 none none kt kernel all s z h ps hshift (by simp)
      ⟨by simp, by simp⟩ htree ?_ ?_
    · rwa [← hexec, update_eq_self] at hown
    · intro q
      by_cases hq : q = z
      · rw [hq, update_self, hzombie.2]
        exact ⟨fun _ => rfl, fun _ => rfl⟩
      · rw [update_of_ne hq]
        refine h.used_of_slotted (hslot q) ?_
        rw [hreap]
        exact fun heq => hq (Option.some.inj heq).symm
    · intro q
      by_cases hq : q = z
      · rw [hq, update_self]
        exact fun hne => absurd rfl hne
      · rw [update_of_ne hq]
        exact h.live_of_slotted (hslot q) hmay

/-! ## fork -/

section Fork

variable {t : Process.State} {np : Slot}

/-- A `fork` that fails leaves the slots as they were. -/
theorem fork_failed (h : Tree t) (hfind : (List.finRange NPROC).find? (fun q => (t.proc q).state = .unused) = some np)
    {frames copied : Bool} (hfail : frames = false ∨ copied = false) :
    (t.fork p frames copied).1.proc = t.proc := by
  have hnp : (t.proc np).state = .unused := by simpa using List.find?_some hfind
  unfold State.fork State.allocproc
  rw [hfind]
  cases frames with
  | false =>
    simp only [Bool.false_eq_true, if_false, State.freeproc, State.setProc]
    exact set_free h hnp _
  | true =>
    obtain rfl : copied = false := hfail.resolve_left (by decide)
    simp only [Bool.false_eq_true, if_false, if_true, State.freeproc, State.setProc]
    exact set_free h hnp _

/-- A `fork` that succeeds puts the child into the first unused slot. -/
theorem fork_succeeded (hfind : (List.finRange NPROC).find? (fun q => (t.proc q).state = .unused) = some np)
    (q : Slot) : (q = np → ((t.fork p true true).1.proc q).state = .runnable) ∧
      (q ≠ np → (t.fork p true true).1.proc q = t.proc q) := by
  unfold State.fork State.allocproc
  rw [hfind]
  simp only [if_true, State.setProc]
  constructor
  · rintro rfl
    rw [Table.set_self]
    rfl
  · intro hq
    rw [Table.set_of_ne hq, Table.set_of_ne hq]

end Fork

section

variable (h : Own kt kernel all s)
include h

/-- The descriptors are not part of the invariant. -/
theorem Own.of_ofile (of : Slot → Fin NOFILE → Option (Fin NFILE)) : Own kt kernel all { s with ofile := of } :=
  ⟨h.pages, h.nodup, h.good, h.kernel, h.slot, h.files, h.tree, h.used, h.live⟩

/-- What is recorded about the pipes is not part of it either. -/
theorem Own.of_io (io : Slot → Option PipeIo) (log : List PipeEvent) :
    Own kt kernel all { s with io := io, log := log } ∧ Keeps s { s with io := io, log := log } :=
  ⟨⟨h.pages, h.nodup, h.good, h.kernel, h.slot, h.files, h.tree, h.used, h.live⟩, .of_mem rfl⟩

theorem Own.unused_slot {np : Slot} (hnp : (s.ps.proc np).state = .unused) :
    s.space np = none ∧ s.exec np = none ∧ held s np = 0 := by
  have hspace : s.space np = none := (h.used np).mp hnp
  have hexec : s.exec np = none := by
    by_contra hne
    exact (h.live np hne).1.ne_unused hnp
  exact ⟨hspace, hexec, by rw [held, hspace, hexec, slotPages_none]⟩

theorem Own.forked {x y : Space} {np : Slot} {m1 : Mem} (hp : s.ps.current = some p) (hx : s.space p = some x)
    (hfind : (List.finRange NPROC).find? (fun q => (s.ps.proc q).state = .unused) = some np)
    (hdone : (forkMem s.trampoline x).run s.mem = .done (.child y) m1) :
    let s1 : Sys :=
      { s with
        mem := m1
        ps := (s.ps.fork p true true).1
        space := update s.space np (some y)
        ofile := update s.ofile np fun _ => none }
    Own kt kernel all s1 ∧ Keeps s s1 := by
  have hnp : (s.ps.proc np).state = .unused := by simpa using List.find?_some hfind
  obtain ⟨hspace, hexec, hheld⟩ := h.unused_slot hnp
  have hpool := h.pool np
  rw [hheld, zero_add] at hpool
  obtain ⟨hfits, hshift⟩ := of_run_eq_done (forkMem_shift hpool ((h.slot p).space x hx).fits.bound) hdone
  have hnoExec : update s.exec np none = s.exec := by
    rw [← hexec, update_eq_self]
  have htree := h.tree.effect (effect_fork h.tree hp true true)
  have hshift' : Shift s.mem m1 (others kernel s np) (held s np) (slotPages m1 (some y) none) := by
    rw [slotPages_some, hheld]
    exact hshift
  have hok : SlotOk m1 s.trampoline (some y) none := by
    refine ⟨fun x hx => ?_, nofun⟩
    cases hx
    exact hfits
  have hnew : ∀ z, s.space np = some z → some y = some z → spacePages m1 z = spacePages s.mem z := by
    intro z hz
    cases hspace.symm.trans hz
  have hown := @Own.slotStep m1 (some y) none kt kernel all s np h _ hshift' hnew hok htree ?_ ?_
  · rw [hnoExec] at hown
    exact ⟨hown.1.of_ofile (update s.ofile np fun _ => none), hown.2⟩
  · intro q
    obtain ⟨hchild, hother⟩ := @fork_succeeded p s.ps np hfind q
    by_cases hq : q = np
    · rw [hchild hq, hq, update_self]
      exact ⟨nofun, nofun⟩
    · rw [hother hq, update_of_ne hq]
      exact h.used q
  · intro q hq
    obtain ⟨-, hother⟩ := @fork_succeeded p s.ps np hfind q
    by_cases hqn : q = np
    · rw [hqn, update_self] at hq
      exact absurd rfl hq
    · rw [update_of_ne hqn] at hq
      rw [hother hqn]
      exact h.live q hq

theorem Own.fork (hp : s.ps.current = some p) (hs : s.fork p = some s') : Own kt kernel all s' ∧ Keeps s s' := by
  obtain ⟨x, hx, hs⟩ := bind_eq_some_iff.mp hs
  cases hfind : (List.finRange NPROC).find? fun q => (s.ps.proc q).state = .unused with
  | none =>
    rw [hfind] at hs
    cases hs
    exact ⟨h, .of_mem rfl⟩
  | some np =>
    rw [hfind] at hs
    have hnp : (s.ps.proc np).state = .unused := by simpa using List.find?_some hfind
    obtain ⟨hspace, hexec, hheld⟩ := h.unused_slot hnp
    have hpool := h.pool np
    rw [hheld, zero_add] at hpool
    obtain ⟨⟨r, s1⟩, hrun, hs⟩ := bind_eq_some_iff.mp hs
    obtain ⟨hdone, heq⟩ := runMem_eq_some hrun
    obtain ⟨m1, rfl⟩ : ∃ m1, s1 = { s with mem := m1 } := ⟨_, heq⟩
    have hpost := of_run_eq_done (forkMem_shift hpool ((h.slot p).space x hx).fits.bound) hdone
    have hnoSpace : update s.space np none = s.space := by
      rw [← hspace, update_eq_self]
    have hnoExec : update s.exec np none = s.exec := by
      rw [← hexec, update_eq_self]
    have hnew : ∀ {o : Option Space} (y : Space), s.space np = some y → o = some y →
        spacePages m1 y = spacePages s.mem y := by
      intro o y hy
      cases hspace.symm.trans hy
    -- a failure has given everything back
    have hfail : ∀ frames copied, frames = false ∨ copied = false →
        Shift s.mem m1 (others kernel s np) 0 0 →
        Own kt kernel all { s with mem := m1, ps := (s.ps.fork p frames copied).1 } ∧
          Keeps s { s with mem := m1, ps := (s.ps.fork p frames copied).1 } := by
      intro frames copied hfail hshift
      have htree := h.tree.effect (effect_fork h.tree hp frames copied)
      have hshift' : Shift s.mem m1 (others kernel s np) (held s np) (slotPages m1 none none) := by
        rw [slotPages_none, hheld]
        exact hshift
      have hown := @Own.slotStep m1 none none kt kernel all s np h _ hshift' hnew
        ⟨nofun, nofun⟩ htree ?_ ?_
      · rwa [hnoSpace, hnoExec] at hown
      · intro q
        rw [hnoSpace, fork_failed h.tree hfind hfail]
        exact h.used q
      · intro q
        rw [hnoExec, fork_failed h.tree hfind hfail]
        exact h.live q
    cases r with
    | noFrames =>
      cases hs
      exact hfail false false (.inl rfl) hpost
    | noCopy =>
      cases hs
      exact hfail true false (.inr rfl) hpost
    | child y =>
      obtain ⟨hown, hkeep⟩ := h.forked hp hx hfind hdone
      have hdup := dupAll_step hown.piped hs
      obtain ⟨hown', hkeep'⟩ := hown.pipeStep hdup
      exact ⟨hown', Keeps.trans_right hkeep hkeep' hdup.space⟩

end

/-! ## exec -/

theorem user_eq_some (hs : s.user = some p) :
    s.ps.current = some p ∧ s.exec p = none ∧ (s.ps.proc p).place = .user ∧ s.io p = none := by
  obtain ⟨r, hr, hs⟩ := bind_eq_some_iff.mp hs
  obtain ⟨⟨hplace, hexec, hio⟩, hrp⟩ := ite_none_right_eq_some.mp hs
  cases hrp
  exact ⟨hr, Option.isNone_iff_eq_none.mp hexec, hplace, Option.isNone_iff_eq_none.mp hio⟩

theorem inExec_eq_some (hs : s.inExec = some (p, e)) :
    s.ps.current = some p ∧ s.exec p = some e ∧ (s.ps.proc p).place = .user := by
  obtain ⟨r, hr, hs⟩ := bind_eq_some_iff.mp hs
  obtain ⟨hplace, hs⟩ := ite_none_right_eq_some.mp hs
  obtain ⟨e', he', heq⟩ := Option.map_eq_some_iff.mp hs
  cases heq
  exact ⟨hr, he', hplace⟩

section

variable (h : Own kt kernel all s)
include h

/-- A part of `exec`: the process table and the memory of the process stay. -/
theorem Own.execStep {x : Space} {r : Option Exec}
    (hx : s.space p = some x) (hlive : (s.ps.proc p).Live ∧ ¬ Exiting (s.ps.proc p))
    (hpost : ExecPost s.trampoline x.trapframe (spacePages s.mem x + others kernel s p)
      ((s.exec p).elim 0 fun e => execPages s.mem e (npages e.sz)) s.mem r m') :
    Own kt kernel all { s with mem := m', exec := update s.exec p r } ∧
      Keeps s { s with mem := m', exec := update s.exec p r } := by
  have hspace : update s.space p (some x) = s.space := by
    rw [← hx, update_eq_self]
  have hheld : held s p = spacePages s.mem x + (s.exec p).elim 0 fun e => execPages s.mem e (npages e.sz) := by
    rw [held, hx]
    rfl
  -- the image of the process is one of the other pages
  have hkeep : Agree s.mem m' (spacePages s.mem x + others kernel s p) := by
    cases r with
    | none => exact hpost.agree
    | some e => exact hpost.2.agree
  obtain ⟨hfits, hsame⟩ := ((h.slot p).space x hx).agree
    (hkeep.mono fun q hq => mem_add.mpr (.inl hq))
  have hshift : Shift s.mem m' (others kernel s p) (held s p) (slotPages m' (some x) r) := by
    rw [hheld]
    cases r with
    | none =>
      have hs := Shift.frame_left hpost
      rw [add_zero] at hs
      rw [slotPages_some, hsame]
      exact hs
    | some e =>
      rw [slotPages_exec, hsame]
      exact hpost.2.frame_left
  have hok : SlotOk m' s.trampoline (some x) r := by
    refine ⟨fun y hy => ?_, fun e he => ⟨x, rfl, ?_⟩⟩
    · cases hy
      exact hfits
    · subst he
      exact hpost.1
  have himage : ∀ y, s.space p = some y → some x = some y → spacePages m' y = spacePages s.mem y := by
    intro y _ hy
    cases hy
    exact hsame
  have hown := h.slotStep hshift himage hok h.tree ?_ ?_
  · rwa [hspace] at hown
  · intro q
    rw [hspace]
    exact h.used q
  · intro q hq
    by_cases hqp : q = p
    · rw [hqp]
      exact hlive
    · rw [update_of_ne hqp] at hq
      exact h.live q hq

theorem Own.live_of_user (hcur : s.ps.current = some p)
    (hplace : (s.ps.proc p).place = .user) : (s.ps.proc p).Live ∧ ¬ Exiting (s.ps.proc p) := by
  refine ⟨h.tree.live_of_current hcur, ?_⟩
  rintro ⟨st, hst⟩
  cases hplace.symm.trans hst

theorem Own.space_of_current (hcur : s.ps.current = some p) : ∃ x, s.space p = some x := by
  have hne : s.space p ≠ none := fun hnone =>
    (h.tree.live_of_current hcur).ne_unused ((h.used p).mpr hnone)
  exact Option.ne_none_iff_exists'.mp hne

/-- The running process, the parts of `exec` that it has done, and the pool of pages for the next. -/
theorem Own.in_exec (hs : s.inExec = some (p, e)) :
    ∃ x, s.space p = some x ∧ ExecOk s.mem s.trampoline x.trapframe e ∧
      Pool s.mem (execPages s.mem e (npages e.sz) + (spacePages s.mem x + others kernel s p)) ∧
      ((s.ps.proc p).Live ∧ ¬ Exiting (s.ps.proc p)) ∧
      ((s.exec p).elim 0 fun e => execPages s.mem e (npages e.sz)) = execPages s.mem e (npages e.sz) := by
  obtain ⟨hcur, he, hplace⟩ := inExec_eq_some hs
  obtain ⟨x, hx, hok⟩ := (h.slot p).exec e he
  refine ⟨x, hx, hok, ?_, h.live_of_user hcur hplace, ?_⟩
  · have hpool := h.pool p
    rw [held, hx, he, slotPages_exec] at hpool
    convert hpool using 1
    abel
  · rw [he]
    rfl

theorem Own.execStep_of_run {x : Prog Mem (Option Exec)}
    (hin : s.inExec = some (p, e)) (hs : s.execStep p x = some s')
    (hpost : ∀ y, s.space p = some y → ExecOk s.mem s.trampoline y.trapframe e →
      Pool s.mem (execPages s.mem e (npages e.sz) + (spacePages s.mem y + others kernel s p)) →
      After x (ExecPost s.trampoline y.trapframe (spacePages s.mem y + others kernel s p)
        (execPages s.mem e (npages e.sz)) s.mem) s.mem) : Own kt kernel all s' ∧ Keeps s s' := by
  obtain ⟨y, hy, hok, hpool, hlive, hpages⟩ := h.in_exec hin
  obtain ⟨⟨r, s1⟩, hrun, hs⟩ := bind_eq_some_iff.mp hs
  cases hs
  obtain ⟨hdone, heq⟩ := runMem_eq_some hrun
  obtain ⟨m1, rfl⟩ : ∃ m1, s1 = { s with mem := m1 } := ⟨_, heq⟩
  refine h.execStep hy hlive ?_
  rw [hpages]
  exact of_run_eq_done (hpost y hy hok hpool) hdone

theorem Own.execStart {args : List Arg} (hu : s.user = some p)
    (hs : s.execStep p (Kernel.execStart args) = some s') : Own kt kernel all s' ∧ Keeps s s' := by
  obtain ⟨hcur, he, hplace, -⟩ := user_eq_some hu
  obtain ⟨x, hx⟩ := h.space_of_current hcur
  obtain ⟨⟨r, s1⟩, hrun, hs⟩ := bind_eq_some_iff.mp hs
  cases hs
  obtain ⟨hdone, heq⟩ := runMem_eq_some hrun
  obtain ⟨m1, rfl⟩ : ∃ m1, s1 = { s with mem := m1 } := ⟨_, heq⟩
  have hpool := h.pool p
  rw [held, hx, he, slotPages_some] at hpool
  refine h.execStep hx (h.live_of_user hcur hplace) ?_
  rw [he]
  exact of_run_eq_done (execStart_post hpool) hdone

theorem Own.execCommit {x : Space} {pt entry sp : UInt64}
    (hin : s.inExec = some (p, e)) (hx : s.space p = some x) (htable : e.table = some pt)
    (hdone : (Kernel.execCommit x e entry sp).run s.mem = .done () m') :
    Own kt kernel all
      { s with
        mem := m'
        space := update s.space p (some ⟨x.trapframe, pt, e.sz⟩)
        exec := update s.exec p none } ∧
    Keeps s
      { s with
        mem := m'
        space := update s.space p (some ⟨x.trapframe, pt, e.sz⟩)
        exec := update s.exec p none } := by
  obtain ⟨hcur, he, -⟩ := inExec_eq_some hin
  obtain ⟨y, hy, hok⟩ := (h.slot p).exec e he
  obtain rfl : x = y := Option.some.inj (hx.symm.trans hy)
  have hheld : held s p = spacePages s.mem x + execPages s.mem e (npages e.sz) := by
    rw [held, hx, he, slotPages_exec]
  have hpool := h.pool p
  rw [hheld] at hpool
  obtain ⟨hfits, hshift⟩ := of_run_eq_done
    (execCommit_shift ((h.slot p).space x hx) hok htable hpool) hdone
  rw [← hheld, ← slotPages_some] at hshift
  -- the new page table is not the old one
  have hnew : ∀ y, s.space p = some y → some (⟨x.trapframe, pt, e.sz⟩ : Space) = some y →
      spacePages m' y = spacePages s.mem y := by
    intro y hy hpt
    obtain rfl : x = y := Option.some.inj (hx.symm.trans hy)
    have hpt : pt = x.pagetable := congrArg Space.pagetable (Option.some.inj hpt)
    have hnd := (nodup_add.mp (nodup_add.mp hpool.nodup).2.1).1
    obtain ⟨-, -, hdisj⟩ := nodup_add.mp hnd
    refine absurd ?_ (disjoint_left.mp hdisj
      (mem_add.mpr (.inr (mem_add.mpr (.inl (mem_tabs_self s.mem 2 x.pagetable))))))
    rw [execPages_some htable, hpt]
    exact mem_add.mpr (.inr (mem_add.mpr (.inl (mem_tabs_self s.mem 2 x.pagetable))))
  refine h.slotStep hshift hnew ⟨fun z hz => ?_, by simp⟩ h.tree ?_ ?_
  · cases hz
    exact hfits
  · intro q
    by_cases hq : q = p
    · rw [hq, update_self]
      have hne := (h.tree.live_of_current hcur).ne_unused
      exact ⟨fun hu => absurd hu hne, by simp⟩
    · rw [update_of_ne hq]
      exact h.used q
  · intro q hq
    by_cases hqp : q = p
    · rw [hqp, update_self] at hq
      exact absurd rfl hq
    · rw [update_of_ne hqp] at hq
      exact h.live q hq

end

/-! ## Writing to user memory -/

/-- A page is written that is no table of process `p` and not used elsewhere. -/
theorem Own.write {x : Space} {w : UInt64} (h : Own kt kernel all s) (hx : s.space p = some x)
    (hw : w ∉ tabs s.mem 2 x.pagetable)
    (hwe : ∀ e pt, s.exec p = some e → e.table = some pt → w ∉ tabs s.mem 2 pt)
    (hwo : w ∉ others kernel s p) (page : Fin 512 → UInt64) :
    Own kt kernel all { s with mem := { s.mem with page := update s.mem.page w page } } ∧
      Keeps s { s with mem := { s.mem with page := update s.mem.page w page } } := by
  obtain ⟨hfits, hsame⟩ := ((h.slot p).space x hx).fits.agree_tabs (.write hw page)
  have hspace : update s.space p (some x) = s.space := by
    rw [← hx, update_eq_self]
  have hexec : ∀ e, s.exec p = some e →
      ExecOk { s.mem with page := update s.mem.page w page } s.trampoline x.trapframe e ∧
      execPages { s.mem with page := update s.mem.page w page } e (npages e.sz) =
        execPages s.mem e (npages e.sz) := by
    intro e he
    obtain ⟨y, hy, hok⟩ := (h.slot p).exec e he
    obtain rfl : x = y := Option.some.inj (hx.symm.trans hy)
    cases htable : e.table with
    | none =>
      refine ⟨⟨fun pt hpt => ?_, hok.sz⟩, ?_⟩
      · cases htable.symm.trans hpt
      · rw [execPages_none htable, execPages_none htable]
    | some pt =>
      obtain ⟨hfits', hsame'⟩ := (hok.fits pt htable).agree_tabs (.write (hwe e pt he htable) page)
      refine ⟨⟨fun pt' hpt' => ?_, hok.sz⟩, ?_⟩
      · obtain rfl : pt = pt' := Option.some.inj (htable.symm.trans hpt')
        exact hfits'
      · rw [execPages_some htable, execPages_some htable, hsame']
  have hpages : slotPages { s.mem with page := update s.mem.page w page } (some x) (s.exec p) = held s p := by
    rw [held, hx]
    unfold slotPages
    refine congrArg₂ (· + ·) ?_ ?_
    · rw [Option.elim_some, Option.elim_some, spacePages, spacePages, hsame]
    · cases he : s.exec p with
      | none => rfl
      | some e => exact (hexec e he).2
  have hshift : Shift s.mem { s.mem with page := update s.mem.page w page }
      (others kernel s p) (held s p)
      (slotPages { s.mem with page := update s.mem.page w page } (some x) (s.exec p)) := by
    rw [hpages]
    exact ⟨rfl, .write hwo page, h.good⟩
  have himage : ∀ y, s.space p = some y → some x = some y →
      spacePages { s.mem with page := update s.mem.page w page } y = spacePages s.mem y := by
    intro y _ hy
    cases hy
    rw [spacePages, spacePages, hsame]
  have hown := h.slotStep hshift himage ⟨fun y hy => ?_, fun e he => ⟨x, rfl, (hexec e he).1⟩⟩ h.tree ?_ ?_
  · rwa [hspace, update_eq_self] at hown
  · cases hy
    exact ⟨hfits, ((h.slot p).space x hx).frame⟩
  · rw [hspace]
    exact h.used
  · rw [update_eq_self]
    exact h.live

theorem notMem_of_nodup_add {A B C : Multiset UInt64} {w : UInt64} (h : (A + B + C).Nodup) (hw : w ∈ A) : w ∉ B := by
  obtain ⟨-, -, hdisj⟩ := nodup_add.mp (nodup_add.mp h).1
  exact disjoint_left.mp hdisj hw

theorem Own.store {x : Space} {va : UInt64} {page : Fin 512 → UInt64} (h : Own kt kernel all s)
    (hx : s.space p = some x) (hdone : (writeUser x.pagetable va page).run s.mem = .done () m') :
    Own kt kernel all { s with mem := m' } ∧ Keeps s { s with mem := m' } := by
  have hok := (h.slot p).space x hx
  have hpost := of_run_eq_done (writeUser_after hok.fits hok.frame) hdone
  rcases hpost with rfl | ⟨w, hw, rfl⟩
  · exact ⟨h, .of_mem rfl⟩
  -- the page occurs once among all, and it occurs here
  have hnot : w ∉ tabs s.mem 2 x.pagetable +
      ((s.exec p).elim 0 fun e => execPages s.mem e (npages e.sz)) + others kernel s p := by
    refine notMem_of_nodup_add (A := {x.trapframe} + span (leaf s.mem x.pagetable) 0 (npages x.sz))
      (C := 0) ?_ ?_
    · have hnd := (nodup_add.mp (h.pool p).nodup).2.1
      rw [held, hx, slotPages, Option.elim_some, spacePages, img] at hnd
      convert hnd using 1
      abel
    · rcases hw with hw | rfl
      · exact mem_add.mpr (.inr hw)
      · exact mem_add.mpr (.inl (mem_singleton_self _))
  simp only [mem_add, not_or] at hnot
  refine h.write hx hnot.1.1 (fun e pt he htable hmem => hnot.1.2 ?_) hnot.2 page
  rw [he, Option.elim_some, execPages_some htable]
  exact mem_add.mpr (.inr (mem_add.mpr (.inl hmem)))

theorem Own.load {pt va : UInt64} {page : Fin 512 → UInt64} (h : Own kt kernel all s)
    (hin : s.inExec = some (p, e)) (htable : e.table = some pt)
    (hdone : (writeUser pt va page).run s.mem = .done () m') :
    Own kt kernel all { s with mem := m' } ∧ Keeps s { s with mem := m' } := by
  obtain ⟨-, he, -⟩ := inExec_eq_some hin
  obtain ⟨x, hx, hok⟩ := (h.slot p).exec e he
  have hframe := ((h.slot p).space x hx).frame
  have hpost := of_run_eq_done (writeUser_after (hok.fits pt htable) hframe) hdone
  rcases hpost with rfl | ⟨w, hw, rfl⟩
  · exact ⟨h, .of_mem rfl⟩
  have hnot : w ∉ img s.mem x.pagetable (npages x.sz) + tabs s.mem 2 pt + others kernel s p := by
    refine notMem_of_nodup_add
      (A := {x.trapframe} + span (leaf s.mem pt) 0 (npages e.sz)) (C := ↑e.argv) ?_ ?_
    · have hnd := (nodup_add.mp (h.pool p).nodup).2.1
      rw [held, hx, he, slotPages_exec, spacePages, execPages_some htable, img.eq_def s.mem pt] at hnd
      convert hnd using 1
      abel
    · rcases hw with hw | rfl
      · exact mem_add.mpr (.inr hw)
      · exact mem_add.mpr (.inl (mem_singleton_self _))
  simp only [mem_add, not_or] at hnot
  refine h.write hx (fun hmem => hnot.1.1 (mem_add.mpr (.inl hmem))) ?_ hnot.2 page
  intro e' pt' he' htable'
  obtain rfl : e = e' := Option.some.inj (he.symm.trans he')
  obtain rfl : pt = pt' := Option.some.inj (htable.symm.trans htable')
  exact hnot.1.2

/-! ## All steps -/

/-- A part of `exec` that the process may go on with. -/
inductive ExecPart (s : Sys) (p : Slot) : Prog Mem (Option Exec) → Prop
  | start (args : List Arg) (hu : s.user = some p) : ExecPart s p (execStart args)
  | create {e : Exec} {x : Space} (hin : s.inExec = some (p, e)) (hx : s.space p = some x) (htable : e.table = none) :
    ExecPart s p (execCreate s.trampoline x.trapframe e)
  | segment {e : Exec} {pt : UInt64} (ph : Segment) (hin : s.inExec = some (p, e)) (htable : e.table = some pt) :
    ExecPart s p (execSegment ph pt e)
  | stack {e : Exec} {pt : UInt64} (hin : s.inExec = some (p, e)) (htable : e.table = some pt) :
    ExecPart s p (execStack pt e)
  | fail {e : Exec} (hin : s.inExec = some (p, e)) : ExecPart s p (execFail e)

inductive Taken (s : Sys) (act : Act) : Sys → Prop
  | exit {a : Process.Action} {p : Slot} {s1 s' : Sys} (ha : ∀ f c, a ≠ .fork f c) (hu : s.user = some p)
    (hclose : s.closeAll p = some s1) (hs : s1.procStep a = some s') : Taken s act s'
  | proc {a : Process.Action} {s' : Sys} (ha : ∀ f c, a ≠ .fork f c) (hexit : ∀ status, a ≠ .exit status)
    (hsleep : ∀ status c, a ≠ .exitSleep status c) (hs : s.procStep a = some s') : Taken s act s'
  | fork {p : Slot} {s' : Sys} (hu : s.user = some p) (hs : s.fork p = some s') : Taken s act s'
  | exec {p : Slot} {z : Prog Mem (Option Exec)} {s' : Sys} (hz : ExecPart s p z) (hs : s.execStep p z = some s') :
    Taken s act s'
  | commit {p : Slot} {e : Exec} {x : Space} {pt entry sp : UInt64} {s1 : Sys} (hact : act = .commit entry sp)
    (hin : s.inExec = some (p, e)) (hx : s.space p = some x) (htable : e.table = some pt)
    (hrun : s.runMem (execCommit x e entry sp) = some ((), s1)) :
    Taken s act { s1 with space := update s1.space p (some ⟨x.trapframe, pt, e.sz⟩), exec := update s1.exec p none }
  | store {p : Slot} {x : Space} {va : UInt64} {page : Fin 512 → UInt64} {s' : Sys} (hx : s.space p = some x)
    (hrun : s.runMem (writeUser x.pagetable va page) = some ((), s')) : Taken s act s'
  | load {p : Slot} {e : Exec} {pt va : UInt64} {page : Fin 512 → UInt64} {s' : Sys} (hin : s.inExec = some (p, e))
    (htable : e.table = some pt) (hrun : s.runMem (writeUser pt va page) = some ((), s')) : Taken s act s'
  | pipe {p : Slot} {copyout : Bool} {s' : Sys} (hu : s.user = some p) (hs : s.sysPipe p copyout = some s') :
    Taken s act s'
  | close {p : Slot} {fd : Fin NOFILE} {s' : Sys} (hu : s.user = some p) (hs : s.sysClose p fd = some s') :
    Taken s act s'
  | dup {p : Slot} {fd : Fin NOFILE} {s' : Sys} (hu : s.user = some p) (hs : s.sysDup p fd = some s') : Taken s act s'
  | pipeCall {p : Slot} {fd : Fin NOFILE} {w : Bool} {s' : Sys} (hs : s.pipeCall p fd w = some s') : Taken s act s'
  | pipeGo {p : Slot} {k : PipeIo} (hin : s.inPipe = some (p, k)) : Taken s act (s.note (.used k.pi k.writable))
  | pipeReturn (p : Slot) : Taken s act (s.setIo p none)

theorem taken_of_step {act : Act} (hs : Kernel.step s act = some s') : Taken s act s' := by
  cases act with
  | proc a =>
    cases a with
    | fork f c => cases hs
    | exit status | exitSleep status c =>
      obtain ⟨p, hu, hs⟩ := bind_eq_some_iff.mp hs
      obtain ⟨s1, hclose, hs⟩ := bind_eq_some_iff.mp hs
      exact .exit (by simp) hu hclose hs
    | yield | wait addr copyout | kill pid =>
      obtain ⟨p, -, hs⟩ := bind_eq_some_iff.mp hs
      exact .proc (by simp) (by simp) (by simp) hs
    | dispatch p | resume copyout chan | sleep c | wakeup c => exact .proc (by simp) (by simp) (by simp) hs
  | fork =>
    obtain ⟨p, hu, hs⟩ := bind_eq_some_iff.mp hs
    exact .fork hu hs
  | exec args =>
    obtain ⟨p, hu, hs⟩ := bind_eq_some_iff.mp hs
    exact .exec (.start args hu) hs
  | create =>
    obtain ⟨⟨p, e⟩, hin, hs⟩ := bind_eq_some_iff.mp hs
    obtain ⟨x, hx, hs⟩ := bind_eq_some_iff.mp hs
    obtain ⟨htable, hs⟩ := ite_none_right_eq_some.mp hs
    exact .exec (.create hin hx htable) hs
  | segment ph =>
    obtain ⟨⟨p, e⟩, hin, hs⟩ := bind_eq_some_iff.mp hs
    obtain ⟨pt, htable, hs⟩ := bind_eq_some_iff.mp hs
    exact .exec (.segment ph hin htable) (Option.ite_none_left_eq_some.mp hs).2
  | stack =>
    obtain ⟨⟨p, e⟩, hin, hs⟩ := bind_eq_some_iff.mp hs
    obtain ⟨pt, htable, hs⟩ := bind_eq_some_iff.mp hs
    exact .exec (.stack hin htable) (Option.ite_none_left_eq_some.mp hs).2
  | commit entry sp =>
    obtain ⟨⟨p, e⟩, hin, hs⟩ := bind_eq_some_iff.mp hs
    obtain ⟨pt, htable, hs⟩ := bind_eq_some_iff.mp hs
    obtain ⟨x, hx, hs⟩ := bind_eq_some_iff.mp hs
    obtain ⟨-, hs⟩ := ite_none_right_eq_some.mp hs
    obtain ⟨⟨u, s1⟩, hrun, hs⟩ := bind_eq_some_iff.mp hs
    cases hs
    exact .commit rfl hin hx htable hrun
  | fail =>
    obtain ⟨⟨p, e⟩, hin, hs⟩ := bind_eq_some_iff.mp hs
    exact .exec (.fail hin) hs
  | store va page =>
    obtain ⟨p, -, hs⟩ := bind_eq_some_iff.mp hs
    obtain ⟨x, hx, hs⟩ := bind_eq_some_iff.mp hs
    obtain ⟨⟨u, s1⟩, hrun, hs⟩ := bind_eq_some_iff.mp hs
    cases hs
    exact .store hx hrun
  | load va page =>
    obtain ⟨⟨p, e⟩, hin, hs⟩ := bind_eq_some_iff.mp hs
    obtain ⟨pt, htable, hs⟩ := bind_eq_some_iff.mp hs
    obtain ⟨⟨u, s1⟩, hrun, hs⟩ := bind_eq_some_iff.mp hs
    cases hs
    exact .load hin htable hrun
  | pipe copyout =>
    obtain ⟨p, hu, hs⟩ := bind_eq_some_iff.mp hs
    exact .pipe hu hs
  | close fd =>
    obtain ⟨p, hu, hs⟩ := bind_eq_some_iff.mp hs
    exact .close hu hs
  | dup fd =>
    obtain ⟨p, hu, hs⟩ := bind_eq_some_iff.mp hs
    exact .dup hu hs
  | pipeCall fd writable =>
    obtain ⟨p, -, hs⟩ := bind_eq_some_iff.mp hs
    exact .pipeCall hs
  | pipeGo =>
    obtain ⟨⟨p, k⟩, hin, hs⟩ := bind_eq_some_iff.mp hs
    cases hs
    exact .pipeGo hin
  | pipeReturn =>
    obtain ⟨⟨p, k⟩, -, hs⟩ := bind_eq_some_iff.mp hs
    cases hs
    exact .pipeReturn p

theorem mayExit_of_user (hu : s.user = some p) : MayExit s a := by
  intro _ q hq
  obtain ⟨hcur, he, -⟩ := user_eq_some hu
  obtain rfl : p = q := Option.some.inj (hcur.symm.trans hq)
  exact he

/-- Closing the files leaves everything else that `exit` looks at. -/
theorem Own.exit {s1 : Sys} (h : Own kt kernel all s) (ha : ∀ f c, a ≠ .fork f c)
    (hu : s.user = some p) (hclose : s.closeAll p = some s1) (hs : s1.procStep a = some s') :
    Own kt kernel all s' ∧ Keeps s s' := by
  have hstep := closeAll_step h.piped hclose
  obtain ⟨hown, hkeep⟩ := h.pipeStep hstep
  have hmay : MayExit s1 a := by
    intro hexit q hq
    rw [hstep.ps] at hq
    rw [hstep.exec]
    exact mayExit_of_user hu hexit q hq
  obtain ⟨hown', hkeep'⟩ := hown.procStep ha hmay hs
  exact ⟨hown', hkeep.trans_left hkeep' hstep.space⟩

theorem pipeCall_eq_some {fd : Fin NOFILE} {w : Bool} (hs : s.pipeCall p fd w = some s') :
    ∃ f pi, s.ofile p fd = some f ∧ (s.file f).pipe = some (pi, w) ∧
      s' = (s.setIo p (some ⟨fd, pi, w⟩)).note (.used pi w) := by
  obtain ⟨f, hf, hs⟩ := bind_eq_some_iff.mp hs
  obtain ⟨⟨pi, v⟩, hpipe, hs⟩ := bind_eq_some_iff.mp hs
  dsimp only at hs
  split at hs
  · rename_i hv
    cases hs
    exact ⟨f, pi, hf, hv ▸ hpipe, by rw [hv]⟩
  · cases hs

theorem Own.execPart {z : Prog Mem (Option Exec)} (h : Own kt kernel all s) (hz : ExecPart s p z)
    (hs : s.execStep p z = some s') : Own kt kernel all s' ∧ Keeps s s' := by
  cases hz with
  | start args hu => exact h.execStart hu hs
  | create hin hx htable =>
    refine h.execStep_of_run hin hs fun y hy hok hpool => ?_
    obtain rfl := Option.some.inj (hx.symm.trans hy)
    exact execCreate_post hok htable hpool
  | segment ph hin htable =>
    exact h.execStep_of_run hin hs fun y hy hok hpool => execSegment_post hok htable hpool
  | stack hin htable => exact h.execStep_of_run hin hs fun y hy hok hpool => execStack_post hok htable hpool
  | fail hin =>
    refine h.execStep_of_run hin hs fun y hy hok hpool => ?_
    exact execFail_post hok.fits hpool (.refl hpool _ _) (.inl rfl)

theorem Own.step {act : Act} (h : Own kt kernel all s) (hs : Kernel.step s act = some s') :
    Own kt kernel all s' ∧ Keeps s s' := by
  cases taken_of_step hs with
  | exit ha hu hclose hs => exact h.exit ha hu hclose hs
  | proc ha hexit hsleep hs =>
    refine h.procStep ha ?_ hs
    rintro (⟨status, rfl⟩ | ⟨status, c, rfl⟩)
    · exact absurd rfl (hexit status)
    · exact absurd rfl (hsleep status c)
  | fork hu hs => exact h.fork (user_eq_some hu).1 hs
  | exec hz hs => exact h.execPart hz hs
  | commit hact hin hx htable hrun =>
    obtain ⟨hdone, heq⟩ := runMem_eq_some hrun
    rw [heq]
    exact h.execCommit hin hx htable hdone
  | store hx hrun =>
    obtain ⟨hdone, heq⟩ := runMem_eq_some hrun
    rw [heq]
    exact h.store hx hdone
  | load hin htable hrun =>
    obtain ⟨hdone, heq⟩ := runMem_eq_some hrun
    rw [heq]
    exact h.load hin htable hdone
  | pipe hu hs => exact h.pipeStep (sysPipe_step h.piped hs)
  | close hu hs => exact h.pipeStep (sysClose_step h.piped hs)
  | dup hu hs => exact h.pipeStep (sysDup_step h.piped hs)
  | pipeCall hs =>
    obtain ⟨f, pi, -, -, rfl⟩ := pipeCall_eq_some hs
    exact h.of_io _ _
  | pipeGo hin => exact h.of_io _ _
  | pipeReturn p => exact h.of_io _ _

theorem Own.run {acts : List Act} (h : Own kt kernel all s) (hs : Kernel.run s acts = some s') :
    Own kt kernel all s' := by
  induction acts generalizing s with
  | nil =>
    cases hs
    exact h
  | cons a as ih =>
    obtain ⟨s1, hstep, hs⟩ := bind_eq_some_iff.mp hs
    exact ih (h.step hstep).1 hs

end Xv6.Kernel
