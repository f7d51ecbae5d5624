import Xv6.Virtio.Queue

/-!
# What driver and device guarantee each other

Two defects. The driver publishes the `k`-th request in word `2 + k` of the available ring, not in slot
`k` modulo `NUM`; so only the first `NUM` requests reach the device as they should. And the handler of the
interrupt expects the status byte to be `0xff` still, which the device has overwritten with 0 by then: it
panics, or, if the waiter has returned on its own and the entry is in use again, it ends a request that
the device has not seen.
-/

namespace Xv6.Virtio

open Function

variable {dev : Device} {s s' : Sys} {acts : List Act}

/-- No interrupt handler of the run finds a completed chain. -/
def Quiet (dev : Device) : Sys → List Act → Prop
  | _, [] => True
  | s, a :: as => (a = .intr → s.used.idx = s.disk.usedIdx) ∧ ∀ s', step dev s a = some s' → Quiet dev s' as

/-- A step of the machine, with what its guard says. -/
theorem step_eq_some {a : Act} (h : step dev s a = some s') :
    s.halted = none ∧
      match a with
      | .rw blockno data write => s' = s.rw blockno data write
      | .wake k => s.Live k ∧ s' = s.wake k
      | .take x => dev s x ∧ s' = s.take x
      | .complete j => (j < s.takes ∧ s.finished j = false) ∧ s' = s.complete j
      | .intr => s' = s.put (s.disk.intr s.used) := by
  unfold step at h
  obtain ⟨hhalt, h⟩ := Option.ite_none_left_eq_some.mp h
  refine ⟨by simpa using hhalt, ?_⟩
  cases a with
  | rw blockno data write => exact (Option.some.inj h).symm
  | wake k =>
    obtain ⟨hk, h⟩ := Option.ite_none_right_eq_some.mp h
    exact ⟨hk, (Option.some.inj h).symm⟩
  | take x =>
    obtain ⟨hx, h⟩ := Option.ite_none_right_eq_some.mp h
    exact ⟨hx, (Option.some.inj h).symm⟩
  | complete j =>
    obtain ⟨hj, h⟩ := Option.ite_none_right_eq_some.mp h
    exact ⟨hj, (Option.some.inj h).symm⟩
  | intr => exact (Option.some.inj h).symm

/-! ## The handshake -/

/-- The device takes only chains of requests that it has not taken yet. -/
def TakesNew (dev : Device) (s : Sys) : Prop :=
  ∀ x, dev s x = true → ∃ k, s.Untaken k ∧ (s.request k).head = x

theorem Inv.step {a : Act} (h : Inv s) (hdev : TakesNew dev s) (hq : a = .intr → s.used.idx = s.disk.usedIdx)
    (hs : Virtio.step dev s a = some s') : Inv s' := by
  obtain ⟨-, hs⟩ := step_eq_some hs
  cases a with
  | rw blockno data write =>
    rw [hs]
    exact h.rw
  | wake k =>
    rw [hs.2]
    exact (h.wake hs.1).1
  | take x =>
    obtain ⟨k, hk, hx⟩ := hdev x hs.1
    rw [hs.2, ← hx]
    exact (h.take hk).2
  | complete j =>
    rw [hs.2]
    exact h.complete hs.1.1 hs.1.2
  | intr =>
    rw [hs, intr_quiet (hq rfl)]
    exact h

/-- The only panic is that of a block number that is too large. -/
def Calm (s : Sys) : Prop := s.halted = none ∨ s.halted = some "virtio_disk_rw: sector overflow"

theorem calm_step {a : Act} (h : Inv s) (hq : a = .intr → s.used.idx = s.disk.usedIdx)
    (hs : step dev s a = some s') : Calm s' := by
  obtain ⟨hlive, hs⟩ := step_eq_some hs
  cases a with
  | rw blockno data write =>
    have hcall := called_rw s blockno data write
    rw [← hs] at hcall
    cases hcall with
    | overflow => exact .inr rfl
    | full d hd => exact .inl hlive
    | submit a b c hspare => exact .inl hlive
  | wake k =>
    rw [hs.2]
    exact .inl ((h.wake hs.1).2.trans hlive)
  | take x =>
    rw [hs.2]
    exact .inl hlive
  | complete j =>
    rw [hs.2]
    exact .inl hlive
  | intr =>
    rw [hs, intr_quiet (hq rfl)]
    exact .inl hlive

theorem handshake_run (hdev : ∀ s, TakesNew dev s) (h : Inv s) (hc : Calm s) (hq : Quiet dev s acts)
    (hs : run dev s acts = some s') : Inv s' ∧ Calm s' := by
  induction acts generalizing s with
  | nil =>
    cases hs
    exact ⟨h, hc⟩
  | cons a as ih =>
    obtain ⟨s1, hstep, hs⟩ := Option.bind_eq_some_iff.mp hs
    exact ih (h.step (hdev s) hq.1 hstep) (calm_step h hq.1 hstep) (hq.2 s1 hstep) hs

/-- A device that takes the chains in any order. -/
def anyDevice : Device := fun s x =>
  decide (∃ k, k < s.submitted ∧ (s.request k).head = x ∧ ∀ j, j < s.takes → s.taken j ≠ s.request k)

theorem takesNew_anyDevice (s : Sys) : TakesNew anyDevice s := by
  intro x hx
  obtain ⟨k, hk, hhead, hnew⟩ := of_decide_eq_true hx
  exact ⟨k, ⟨hk, hnew⟩, hhead⟩

/-- One request that its waiter sees completed. -/
def onePolled : List Act := [.rw 5 0x1000 true, .take 0, .complete 0, .wake 0]

/-- A device that takes for the `k`-th available buffer the head in slot `k` modulo `NUM`. -/
def ringDevice : Device := fun s x =>
  decide (s.disk.avail 1 ≠ UInt16.ofNat s.takes ∧ (s.disk.avail (2 + s.takes % NUM)).toNat = x)

/-- The `k`-th chain that the device takes is that of the `k`-th request, and the driver has written only
to slots of the ring. -/
def Faithful (s : Sys) : Prop :=
  (∀ k, k < s.takes → k < s.submitted ∧ s.taken k = s.request k) ∧ ∀ w ∈ s.slots, w < NUM

/-- The index counts the requests, and it is where the driver writes. -/
structure Counted (s : Sys) : Prop where
  idx : s.disk.avail 1 = UInt16.ofNat s.submitted
  slots : ∀ w, w ∈ s.slots ↔ ∃ k, k < s.submitted ∧ w = k % 2 ^ 16

/-- The first requests are in their slots, and taken in turn. -/
structure InTurn (s : Sys) : Prop where
  ring : ∀ k, k < s.submitted → (s.disk.avail (2 + k)).toNat = (s.request k).head
  takes : s.takes ≤ s.submitted
  taken : ∀ k, k < s.takes → s.taken k = s.request k

theorem freeChain_avail {n : Nat} {d d' : Disk} {i : Fin NUM} (h : Disk.freeChain n d i = .ok d') :
    d'.avail = d.avail := by
  induction n generalizing d i with
  | zero =>
    cases h
    rfl
  | succ n ih =>
    rw [Disk.freeChain] at h
    cases hfree : d.free i with
    | true =>
      rw [Disk.freeDesc, dif_pos i.isLt, if_pos hfree] at h
      cases h
    | false =>
      rw [Disk.freeDesc_of_used hfree] at h
      dsimp only [bind, Except.bind] at h
      split at h
      · have hrest := ih h
        exact hrest
      · cases h
        rfl

theorem wake_avail (s : Sys) (k : Nat) :
    (s.wake k).disk.avail = s.disk.avail ∧ (s.wake k).submitted = s.submitted ∧
      (s.wake k).slots = s.slots ∧ (s.wake k).request = s.request ∧ (s.wake k).takes = s.takes ∧
      (s.wake k).taken = s.taken := by
  unfold Sys.wake
  split
  · cases hfree : Disk.freeChain (NUM + 1) s.disk (s.request k).head with
    | ok d => exact ⟨freeChain_avail hfree, rfl, rfl, rfl, rfl, rfl⟩
    | error m => exact ⟨rfl, rfl, rfl, rfl, rfl, rfl⟩
  · exact ⟨rfl, rfl, rfl, rfl, rfl, rfl⟩

theorem complete_avail (s : Sys) (j : Nat) : (s.complete j).disk.avail = s.disk.avail := by
  unfold Sys.complete
  cases (s.taken j).d2.addr <;> rfl

/-! ### One step -/

section Submit

variable {d : Disk} {a b c : Fin NUM} {blockno data : UInt64} {write : Bool}

theorem Counted.submit (h : Counted s) (hd : d.avail = s.disk.avail) :
    Counted (s.submit d a b c blockno data write) := by
  refine ⟨?_, fun w => ?_⟩
  · show update (update d.avail (2 + (d.avail 1).toNat) (UInt16.ofNat a)) 1 (d.avail 1 + 1) 1 = _
    rw [update_self, hd, h.idx]
    exact (UInt16.ofNat_add s.submitted 1).symm
  · show w ∈ (d.avail 1).toNat :: s.slots ↔ ∃ k, k < s.submitted + 1 ∧ w = k % 2 ^ 16
    rw [List.mem_cons, h.slots w, hd, h.idx, UInt16.toNat_ofNat']
    constructor
    · rintro (hw | ⟨k, hk, hw⟩)
      · exact ⟨s.submitted, by omega, hw⟩
      · exact ⟨k, by omega, hw⟩
    · rintro ⟨k, hk, hw⟩
      by_cases hks : k = s.submitted
      · exact .inl (by rw [hw, hks])
      · exact .inr ⟨k, by omega, hw⟩

theorem InTurn.submit (h : InTurn s) (hc : Counted s) (hd : d.avail = s.disk.avail)
    (hle : s.submitted + 1 ≤ NUM) (hab : a ≠ b) (hac : a ≠ c) (hbc : b ≠ c) :
    InTurn (s.submit d a b c blockno data write) := by
  have hidx : (d.avail 1).toNat = s.submitted := by
    rw [hd, hc.idx, UInt16.toNat_ofNat']
    exact Nat.mod_eq_of_lt (by lia)
  have hold : ∀ k, k < s.submitted → (s.submit d a b c blockno data write).request k = s.request k :=
    fun k hk => submit_request_of_ne (Nat.ne_of_lt hk)
  refine ⟨fun k hk => ?_, Nat.le_succ_of_le h.takes, fun k hk => ?_⟩
  · have hlt : k < s.submitted + 1 := hk
    show (update (update d.avail (2 + (d.avail 1).toNat) (UInt16.ofNat a)) 1 _
      (2 + k)).toNat = _
    rw [update_of_ne (by omega), hidx]
    by_cases hks : k = s.submitted
    · rw [hks, update_self, submit_request hab hac hbc, UInt16.toNat_ofNat']
      exact Nat.mod_eq_of_lt (Nat.lt_trans a.isLt (by decide))
    · rw [update_of_ne (by omega), hold k (by omega), hd]
      exact h.ring k (by omega)
  · have hk' := h.takes
    have hk'' : k < s.takes := hk
    rw [hold k (by omega)]
    exact h.taken k hk

end Submit

/-- What a ring device takes from a ring in order. -/
theorem takesNew_ringDevice (h : Inv s) (hc : Counted s) (ht : InTurn s) (hle : s.submitted ≤ NUM)
    {x : Fin NUM} (hx : ringDevice s x) :
    s.Untaken s.takes ∧ (s.request s.takes).head = x := by
  obtain ⟨hidx, hhead⟩ := of_decide_eq_true hx
  have hlt : s.takes < s.submitted := by
    refine Nat.lt_of_le_of_ne ht.takes fun heq => hidx ?_
    rw [hc.idx, heq]
  refine ⟨⟨hlt, fun j hj heq => ?_⟩, ?_⟩
  · -- the two headers are different
    rw [ht.taken j hj] at heq
    have haddr := (h.shape j (by omega)).1.addr
    rw [heq, (h.shape s.takes hlt).1.addr] at haddr
    have := Ptr.hdr.inj haddr
    omega
  · have hmod : s.takes % NUM = s.takes := Nat.mod_eq_of_lt (by omega)
    rw [hmod, ht.ring s.takes hlt] at hhead
    exact Fin.val_inj.mp hhead

/-- The state of a run in which no handler finds a completed chain. -/
structure RingInv (s : Sys) : Prop where
  counted : Counted s
  first : s.submitted ≤ NUM → Inv s ∧ InTurn s

theorem ringInv_init : RingInv init := by
  refine ⟨⟨rfl, fun w => ?_⟩, fun _ => ⟨inv_init, fun k hk => absurd hk (Nat.not_lt_zero k),
    Nat.le_refl 0, fun k hk => absurd hk (Nat.not_lt_zero k)⟩⟩
  constructor
  · intro hw
    cases hw
  · rintro ⟨k, hk, -⟩
    exact absurd hk (Nat.not_lt_zero k)

theorem RingInv.step {a : Act} (h : RingInv s) (hq : a = .intr → s.used.idx = s.disk.usedIdx)
    (hs : Virtio.step ringDevice s a = some s') : RingInv s' := by
  have hkeep : s'.submitted ≤ NUM → s.submitted ≤ NUM → Inv s' := by
    intro _ hle
    obtain ⟨hinv, hturn⟩ := h.first hle
    refine hinv.step (fun x hx => ?_) hq hs
    obtain ⟨hnew, hhead⟩ := takesNew_ringDevice hinv h.counted hturn hle hx
    exact ⟨s.takes, hnew, hhead⟩
  obtain ⟨-, hs⟩ := step_eq_some hs
  cases a with
  | rw blockno data write =>
    have hcall := called_rw s blockno data write
    rw [← hs] at hcall
    cases hcall with
    | overflow => exact ⟨⟨h.counted.idx, h.counted.slots⟩, fun hle => ⟨hkeep hle hle, (h.first hle).2.1,
        (h.first hle).2.2, (h.first hle).2.3⟩⟩
    | full d hd =>
      refine ⟨⟨?_, h.counted.slots⟩, fun hle => ⟨hkeep hle hle, fun k hk => ?_, (h.first hle).2.2,
        (h.first hle).2.3⟩⟩
      · show d.avail 1 = _
        rw [hd.avail]
        exact h.counted.idx
      · show (d.avail (2 + k)).toNat = _
        rw [hd.avail]
        exact (h.first hle).2.ring k hk
    | submit a b c hspare =>
      refine ⟨h.counted.submit rfl, fun hle => ?_⟩
      have hle' : s.submitted + 1 ≤ NUM := hle
      exact ⟨hkeep hle (by omega), (h.first (by omega)).2.submit h.counted rfl hle' hspare.ab hspare.ac
        hspare.bc⟩
  | wake k =>
    obtain ⟨havail, hsub, hslots, hreq, htakes, htaken⟩ := wake_avail s k
    rw [hs.2] at hkeep ⊢
    refine ⟨⟨?_, ?_⟩, fun hle => ?_⟩
    · rw [havail, hsub]
      exact h.counted.idx
    · rw [hslots, hsub]
      exact h.counted.slots
    · rw [hsub] at hle
      have hturn := (h.first hle).2
      refine ⟨hkeep (hsub ▸ hle) hle, ?_, ?_, ?_⟩
      · rw [hsub, havail, hreq]
        exact hturn.ring
      · rw [hsub, htakes]
        exact hturn.takes
      · rw [htakes, htaken, hreq]
        exact hturn.taken
  | take x =>
    rw [hs.2] at hkeep ⊢
    refine ⟨⟨h.counted.idx, h.counted.slots⟩, fun hle => ?_⟩
    obtain ⟨hinv, hturn⟩ := h.first hle
    obtain ⟨hnew, hhead⟩ := takesNew_ringDevice hinv h.counted hturn hle hs.1
    refine ⟨hkeep hle hle, hturn.ring, hnew.1, fun k hk => ?_⟩
    by_cases hks : k = s.takes
    · rw [hks, ← hhead]
      exact (hinv.take hnew).1
    · have hlt : k < s.takes + 1 := hk
      refine (update_of_ne hks _ _).trans ?_
      exact hturn.taken k (by omega)
  | complete j =>
    rw [hs.2] at hkeep ⊢
    have havail := complete_avail s j
    refine ⟨⟨?_, h.counted.slots⟩, fun hle => ⟨hkeep hle hle, ?_, (h.first hle).2.2, (h.first hle).2.3⟩⟩
    · rw [havail]
      exact h.counted.idx
    · rw [havail]
      exact (h.first hle).2.ring
  | intr =>
    rw [hs, intr_quiet (hq rfl)]
    exact h

theorem RingInv.run (h : RingInv s) (hq : Quiet ringDevice s acts)
    (hs : Virtio.run ringDevice s acts = some s') : RingInv s' := by
  induction acts generalizing s with
  | nil =>
    cases hs
    exact h
  | cons a as ih =>
    obtain ⟨s1, hstep, hs⟩ := Option.bind_eq_some_iff.mp hs
    exact ih (h.step hq.1 hstep) (hq.2 s1 hstep) hs

/-- The requests reach the device as they were submitted if and only if there are at most `NUM`. -/
theorem faithful_iff (hq : Quiet ringDevice init acts) (hs : run ringDevice init acts = some s) :
    Faithful s ↔ s.submitted ≤ NUM := by
  have h := ringInv_init.run hq hs
  constructor
  · intro hf
    by_contra hgt
    -- request `NUM` was published behind the ring
    have hslot : NUM ∈ s.slots := (h.counted.slots NUM).mpr ⟨NUM, by omega, rfl⟩
    exact Nat.lt_irrefl NUM (hf.2 NUM hslot)
  · intro hle
    obtain ⟨hinv, hturn⟩ := h.first hle
    refine ⟨fun k hk => ⟨Nat.lt_of_lt_of_le hk hturn.takes, hturn.taken k hk⟩, fun w hw => ?_⟩
    obtain ⟨k, hk, rfl⟩ := (h.counted.slots w).mp hw
    omega

theorem faithful_onePolled : ∃ s, run ringDevice init onePolled = some s ∧ s.submitted = 1 ∧
    (Faithful s ↔ s.submitted ≤ NUM) := by
  have hends : (run ringDevice init onePolled).map (fun s => s.submitted) = some 1 := by decide
  obtain ⟨s, hs, hsub⟩ := Option.map_eq_some_iff.mp hends
  refine ⟨s, hs, hsub, faithful_iff ?_ hs⟩
  simp only [Quiet, onePolled]
  simp

/-- Eight requests one after the other, then two at once. -/
def tenRequests : List Act :=
  (List.range 8).flatMap (fun k => [.rw (UInt64.ofNat k) 0x1000 true, .take 0, .complete k, .wake k]) ++
    [.rw 8 0x1000 true, .rw 9 0x2000 true, .take 0, .take 0]

/-- The driver has written behind the ring, and instead of the tenth request the device takes the ninth
once more. -/
theorem ring_overrun : ∃ s, run ringDevice init tenRequests = some s ∧ NUM ∈ s.slots ∧
    s.taken 9 = s.request 8 ∧ s.taken 9 ≠ s.request 9 := by
  have hends : (run ringDevice init tenRequests).map (fun s =>
      (decide (NUM ∈ s.slots), decide (s.taken 9 = s.request 8), decide (s.taken 9 ≠ s.request 9))) =
      some (true, true, true) := by decide
  obtain ⟨s, hs, hend⟩ := Option.map_eq_some_iff.mp hends
  simp only [Prod.mk.injEq, decide_eq_true_eq] at hend
  exact ⟨s, hs, hend⟩

end Xv6.Virtio
