import Mathlib.Tactic.Common
import Xv6.Virtio.Disk

/-!
# Chains in flight

What holds between driver and device as long as no interrupt handler finds a completed chain: the chain of
a request that has not returned lies in the queue as it was published, chains in flight share no
descriptor, and a status byte is 0 only after the transfer.
-/

namespace Xv6.Virtio

open Function

/-! ## Descriptors -/

namespace Disk

variable {d d' : Disk} {a b c i : Fin NUM}

/-- Only descriptors that are free may have been written. -/
structure Idle (d d' : Disk) : Prop where
  free : d'.free = d.free
  info : d'.info = d.info
  avail : d'.avail = d.avail
  usedIdx : d'.usedIdx = d.usedIdx
  desc : ∀ i, d.free i = false → d'.desc i = d.desc i

theorem allocDesc_cases (d : Disk) :
    d.allocDesc = none ∨
      ∃ i, d.free i ∧ d.allocDesc = some (i, { d with free := update d.free i false }) := by
  unfold allocDesc
  cases hfind : (List.finRange NUM).find? d.free with
  | none => exact .inl rfl
  | some i => exact .inr ⟨i, List.find?_some hfind, rfl⟩

/-- The queue after descriptor `i` has been freed. -/
def freed (d : Disk) (i : Fin NUM) : Disk :=
  { d with
    desc := update d.desc i { d.desc i with addr := .null }
    free := update d.free i true }

theorem freed_of_ne {j : Fin NUM} (h : j ≠ i) : (d.freed i).desc j = d.desc j ∧ (d.freed i).free j = d.free j := by
  simp [freed, h]

theorem freeDesc_of_used (h : d.free i = false) : d.freeDesc i = .ok (d.freed i) := by
  rw [freeDesc, dif_pos i.isLt, if_neg (by rw [h]; exact Bool.false_ne_true)]
  rfl

theorem freeChain_next {n : Nat} {x : Desc} (h : d.free i = false) (hx : d.desc i = x)
    (hnext : x.flags &&& F_NEXT ≠ 0) : freeChain (n + 1) d i = freeChain n (d.freed i) x.next := by
  subst hx
  rw [freeChain, freeDesc_of_used h]
  exact if_pos hnext

theorem freeChain_last {n : Nat} {x : Desc} (h : d.free i = false) (hx : d.desc i = x)
    (hlast : x.flags &&& F_NEXT = 0) : freeChain (n + 1) d i = .ok (d.freed i) := by
  subst hx
  rw [freeChain, freeDesc_of_used h]
  exact if_neg (not_not.mpr hlast)

/-- Three different free descriptors. -/
structure Spare (d : Disk) (a b c : Fin NUM) : Prop where
  freeA : d.free a = true
  freeB : d.free b = true
  freeC : d.free c = true
  ab : a ≠ b
  ac : a ≠ c
  bc : b ≠ c

/-- The queue after three descriptors have been taken. -/
def reserved (d : Disk) (a b c : Fin NUM) : Disk :=
  { d with free := update (update (update d.free a false) b false) c false }

/-- Three different free descriptors, or what was taken is free again. -/
theorem alloc3Desc_cases (d : Disk) :
    (∃ d', d.alloc3Desc = .ok (none, d') ∧ Idle d d') ∨
      ∃ a b c, d.Spare a b c ∧ d.alloc3Desc = .ok (some (a, b, c), d.reserved a b c) := by
  unfold alloc3Desc
  rcases d.allocDesc_cases with h1 | ⟨a, ha, h1⟩
  · rw [h1]
    exact .inl ⟨d, rfl, rfl, rfl, rfl, rfl, fun _ _ => rfl⟩
  rw [h1]
  dsimp only
  rcases allocDesc_cases { d with free := update d.free a false } with h2 | ⟨b, hb, h2⟩
  · rw [h2]
    dsimp only
    rw [freeDesc_of_used (by simp)]
    refine .inl ⟨_, rfl, ?_, rfl, rfl, rfl, ?_⟩
    · funext i
      by_cases hi : i = a
      · subst hi
        simp [freed, ha]
      · simp [freed, hi]
    · intro i hi
      have hne : i ≠ a := fun heq => by simp [heq, ha] at hi
      exact (freed_of_ne hne).1
  rw [h2]
  dsimp only at hb ⊢
  have hba : b ≠ a := fun heq => by simp [heq] at hb
  rw [update_of_ne hba] at hb
  rcases allocDesc_cases { d with free := update (update d.free a false) b false }
    with h3 | ⟨c, hc, h3⟩
  · rw [h3]
    dsimp only
    rw [freeDesc_of_used (by simp [hba.symm])]
    dsimp only [bind, Except.bind]
    rw [freeDesc_of_used (by simp [freed, hba])]
    refine .inl ⟨_, rfl, ?_, rfl, rfl, rfl, ?_⟩
    · funext i
      by_cases hi : i = b
      · subst hi
        simp [freed, hb]
      · by_cases hi' : i = a
        · subst hi'
          simp [freed, hi, ha]
        · simp [freed, hi, hi']
    · intro i hi
      have hne : i ≠ a := fun heq => by simp [heq, ha] at hi
      have hne' : i ≠ b := fun heq => by simp [heq, hb] at hi
      rw [(freed_of_ne hne').1, (freed_of_ne hne).1]
  · rw [h3]
    dsimp only at hc ⊢
    have hcb : c ≠ b := fun heq => by simp [heq] at hc
    have hca : c ≠ a := fun heq => by simp [heq, hba.symm] at hc
    rw [update_of_ne hcb, update_of_ne hca] at hc
    exact .inr ⟨a, b, c, ⟨ha, hb, hc, hba.symm, hca.symm, hcb.symm⟩, rfl⟩

end Disk

/-! ## Chains -/

def Chain.Owns (x : Chain) (i : Fin NUM) : Prop := i = x.head ∨ i = x.d0.next ∨ i = x.d1.next

/-- A chain as the driver makes it for the `k`-th request. -/
structure Chain.Shape (x : Chain) (k : Nat) : Prop where
  ne₁ : x.head ≠ x.d0.next
  ne₂ : x.head ≠ x.d1.next
  ne₃ : x.d0.next ≠ x.d1.next
  next₀ : x.d0.flags &&& F_NEXT ≠ 0
  next₁ : x.d1.flags &&& F_NEXT ≠ 0
  last : x.d2.flags &&& F_NEXT = 0
  addr : x.d0.addr = .hdr k
  status : x.d2.addr = .status x.head

structure Disk.Laid (d : Disk) (x : Chain) : Prop where
  d0 : d.desc x.head = x.d0
  d1 : d.desc x.d0.next = x.d1
  d2 : d.desc x.d1.next = x.d2
  used : ∀ i, x.Owns i → d.free i = false

theorem Disk.Laid.mono {d d' : Disk} {x : Chain} (h : d.Laid x)
    (hdesc : ∀ i, x.Owns i → d'.desc i = d.desc i) (hfree : ∀ i, x.Owns i → d'.free i = false) :
    d'.Laid x :=
  ⟨(hdesc _ (.inl rfl)).trans h.d0, (hdesc _ (.inr (.inl rfl))).trans h.d1,
    (hdesc _ (.inr (.inr rfl))).trans h.d2, hfree⟩

variable {k : Nat}

/-- Freeing a chain that lies in the queue frees its three descriptors and no other. -/
theorem freeChain_laid {d : Disk} {x : Chain} (h : d.Laid x) (hx : x.Shape k) :
    ∃ d', Disk.freeChain (NUM + 1) d x.head = .ok d' ∧ d'.info = d.info ∧ d'.avail = d.avail ∧
      d'.usedIdx = d.usedIdx ∧ (∀ i, x.Owns i → d'.free i) ∧
      ∀ i, ¬ x.Owns i → d'.desc i = d.desc i ∧ d'.free i = d.free i := by
  have hu := h.used
  have h0 : d.free x.head = false := hu _ (.inl rfl)
  have h1 : d.free x.d0.next = false := hu _ (.inr (.inl rfl))
  have h2 : d.free x.d1.next = false := hu _ (.inr (.inr rfl))
  have hb := @Disk.freed_of_ne d x.head _ hx.ne₁.symm
  have hc := @Disk.freed_of_ne d x.head _ hx.ne₂.symm
  have hc' := @Disk.freed_of_ne (d.freed x.head) x.d0.next _ hx.ne₃.symm
  rw [Disk.freeChain_next h0 h.d0 hx.next₀, Disk.freeChain_next (hb.2.trans h1) (hb.1.trans h.d1) hx.next₁,
    Disk.freeChain_last (hc'.2.trans (hc.2.trans h2)) (hc'.1.trans (hc.1.trans h.d2)) hx.last]
  refine ⟨_, rfl, rfl, rfl, rfl, ?_, fun i hi => ?_⟩
  · rintro i (rfl | rfl | rfl)
    · simp [Disk.freed, hx.ne₁, hx.ne₂]
    · simp [Disk.freed, hx.ne₃]
    · simp [Disk.freed]
  obtain ⟨hi0, hi1, hi2⟩ := not_or.mp hi |>.imp_right not_or.mp
  simp [Disk.freed, hi0, hi1, hi2]

/-! ## The invariant -/

namespace Sys

/-- The call of the `k`-th request has not returned. -/
def Live (s : Sys) (k : Nat) : Prop := k < s.submitted ∧ s.returned k = false

/-- The device has made the transfer of the `k`-th request. -/
def Done (s : Sys) (k : Nat) : Prop := ∃ j, j < s.takes ∧ s.finished j = true ∧ s.taken j = s.request k

/-- The device has not taken the `k`-th request. -/
def Untaken (s : Sys) (k : Nat) : Prop := k < s.submitted ∧ ∀ j, j < s.takes → s.taken j ≠ s.request k

end Sys

/-- The descriptors in use are those of the chains of the requests that have not returned, and no two
of these share one. -/
structure Chains (s : Sys) : Prop where
  shape : ∀ k, k < s.submitted → (s.request k).Shape k ∧ (s.request k).hdr = s.hdrs k
  laid : ∀ k, s.Live k → s.disk.Laid (s.request k)
  apart : ∀ k l, s.Live k → s.Live l → k ≠ l → ∀ i, (s.request k).Owns i → ¬ (s.request l).Owns i
  owned : ∀ i, s.disk.free i = false → ∃ k, s.Live k ∧ (s.request k).Owns i

structure Inv (s : Sys) : Prop extends Chains s where
  status : ∀ k, s.Live k → (s.disk.info (s.request k).head).status = 0 → s.Done k
  pending : ∀ j, j < s.takes → s.finished j = false → ∃ k, s.Live k ∧ s.taken j = s.request k
  once : ∀ j l, j < s.takes → l < s.takes → s.taken j = s.taken l → j = l
  done : ∀ k, k < s.submitted → s.returned k = true → s.Done k

variable {s s' : Sys}

theorem chains_init : Chains init :=
  ⟨fun _ h => absurd h (Nat.not_lt_zero _), fun _ h => absurd h.1 (Nat.not_lt_zero _),
    fun _ _ h => absurd h.1 (Nat.not_lt_zero _), nofun⟩

theorem inv_init : Inv init :=
  ⟨chains_init, fun _ h => absurd h.1 (Nat.not_lt_zero _), fun _ h => absurd h (Nat.not_lt_zero _),
    fun _ _ h => absurd h (Nat.not_lt_zero _), fun _ h => absurd h (Nat.not_lt_zero _)⟩

theorem Chains.halt (h : Chains s) (m : Option String) : Chains { s with halted := m } :=
  ⟨h.shape, h.laid, h.apart, h.owned⟩

theorem Inv.halt (h : Inv s) (m : Option String) : Inv { s with halted := m } :=
  ⟨h.toChains.halt m, h.status, h.pending, h.once, h.done⟩

theorem Chains.idle {d : Disk} (h : Chains s) (hd : s.disk.Idle d) : Chains { s with disk := d } := by
  refine ⟨h.shape, fun k hk => ?_, h.apart, fun i hi => ?_⟩
  · have hl := h.laid k hk
    refine hl.mono (fun i hi => hd.desc i (hl.used i hi)) fun i hi => ?_
    show d.free i = false
    rw [hd.free]
    exact hl.used i hi
  · have hi : d.free i = false := hi
    rw [hd.free] at hi
    exact h.owned i hi

theorem Inv.idle {d : Disk} (h : Inv s) (hd : s.disk.Idle d) : Inv { s with disk := d } := by
  refine ⟨h.toChains.idle hd, fun k hk => ?_, h.pending, h.once, h.done⟩
  show (d.info _).status = 0 → _
  rw [hd.info]
  exact h.status k hk

/-! ## The steps of the driver -/

/-- The requests that are left when the `k`-th call has returned. -/
theorem live_return {l : Nat} {d : Disk}
    (hl : Sys.Live { s with disk := d, returned := update s.returned k true } l) :
    s.Live l ∧ l ≠ k := by
  have hne : l ≠ k := by
    intro heq
    have hret := hl.2
    simp [heq] at hret
  have hret : update s.returned k true l = false := hl.2
  rw [update_of_ne hne] at hret
  exact ⟨⟨hl.1, hret⟩, hne⟩

/-- A call that finds its status 0 frees its chain and returns. -/
theorem Chains.wake (h : Chains s) (hk : s.Live k) (hzero : (s.disk.info (s.request k).head).status = 0) :
    ∃ d, s.wake k = { s with disk := d, returned := update s.returned k true } ∧
      d.info = s.disk.info ∧
      Chains { s with disk := d, returned := update s.returned k true } := by
  obtain ⟨d, hd, hinfo, -, -, hfreed, hother⟩ := freeChain_laid (h.laid k hk) (h.shape k hk.1).1
  refine ⟨d, ?_, hinfo, h.shape, fun l hl => ?_, fun l l' hl hl' => ?_, fun i hi => ?_⟩
  · unfold Sys.wake
    rw [if_pos hzero, hd]
  · obtain ⟨hlive, hne⟩ := live_return hl
    have hlaid := h.laid l hlive
    have hsep : ∀ i, (s.request l).Owns i → ¬ (s.request k).Owns i := h.apart l k hlive hk hne
    refine hlaid.mono (fun i hi => (hother i (hsep i hi)).1) fun i hi => ?_
    show d.free i = false
    rw [(hother i (hsep i hi)).2]
    exact hlaid.used i hi
  · exact h.apart l l' (live_return hl).1 (live_return hl').1
  · have hi : d.free i = false := hi
    have hnot : ¬ (s.request k).Owns i := by
      intro howns
      cases (hfreed i howns).symm.trans hi
    rw [(hother i hnot).2] at hi
    obtain ⟨l, hl, howns⟩ := h.owned i hi
    have hne : l ≠ k := by
      rintro rfl
      exact hnot howns
    exact ⟨l, ⟨hl.1, (update_of_ne hne _ _).trans hl.2⟩, howns⟩

theorem Inv.wake (h : Inv s) (hk : s.Live k) : Inv (s.wake k) ∧ (s.wake k).halted = s.halted := by
  by_cases hzero : (s.disk.info (s.request k).head).status = 0
  · obtain ⟨d, hs, hinfo, hchains⟩ := h.toChains.wake hk hzero
    rw [hs]
    refine ⟨⟨hchains, fun l hl => ?_, fun j hj hf => ?_, h.once, fun l hl hret => ?_⟩, rfl⟩
    · show (d.info _).status = 0 → _
      rw [hinfo]
      exact h.status l (live_return hl).1
    · obtain ⟨l, hl, htaken⟩ := h.pending j hj hf
      have hne : l ≠ k := by
        intro heq
        obtain ⟨j', hj', hf', htaken'⟩ := h.status k hk hzero
        rw [heq, ← htaken'] at htaken
        rw [h.once j j' hj hj' htaken, hf'] at hf
        cases hf
      exact ⟨l, ⟨hl.1, (update_of_ne hne _ _).trans hl.2⟩, htaken⟩
    · by_cases hlk : l = k
      · rw [hlk]
        exact h.status k hk hzero
      · refine h.done l hl ?_
        have hret' : update s.returned k true l = true := hret
        rwa [update_of_ne hlk] at hret'
  · unfold Sys.wake
    rw [if_neg hzero]
    exact ⟨h, rfl⟩

/-- What a call of `virtio_disk_rw` does up to its wait. -/
inductive Called (s : Sys) (blockno data : UInt64) (write : Bool) : Sys → Prop
  | overflow : Called s blockno data write { s with halted := some "virtio_disk_rw: sector overflow" }
  | full (d : Disk) (hd : s.disk.Idle d) : Called s blockno data write { s with disk := d }
  | submit (a b c : Fin NUM) (hspare : s.disk.Spare a b c) :
      Called s blockno data write (s.submit (s.disk.reserved a b c) a b c blockno data write)

theorem called_rw (s : Sys) (blockno data : UInt64) (write : Bool) :
    Called s blockno data write (s.rw blockno data write) := by
  unfold Sys.rw
  by_cases hover : blockno &&& 0x1fffffffffffffff = 0x1fffffffffffffff
  · rw [if_pos hover]
    exact .overflow
  rw [if_neg hover]
  rcases s.disk.alloc3Desc_cases with ⟨d, h, hd⟩ | ⟨a, b, c, hspare, h⟩
  · rw [h]
    exact .full d hd
  · rw [h]
    exact .submit a b c hspare

/-! ### A new request -/

theorem next_flags (write : Bool) :
    F_NEXT &&& F_NEXT ≠ 0 ∧ ((if write then 0 else F_WRITE) ||| F_NEXT) &&& F_NEXT ≠ 0 ∧
      F_WRITE &&& F_NEXT = 0 := by
  cases write <;> decide

theorem inFlight_ne_zero : (0xff : UInt8) ≠ 0 := by decide

section Submit

variable {d : Disk} {a b c : Fin NUM} {blockno data : UInt64} {write : Bool}

theorem submit_request (hab : a ≠ b) (hac : a ≠ c) (hbc : b ≠ c) :
    (s.submit d a b c blockno data write).request s.submitted =
      ⟨a, ⟨if write then T_OUT else T_IN, 0, blockno * 2⟩, ⟨.hdr s.submitted, 16, F_NEXT, b⟩,
        ⟨.data data, 1024, (if write then 0 else F_WRITE) ||| F_NEXT, c⟩, ⟨.status a, 1, F_WRITE, 0⟩⟩ := by
  unfold Sys.submit Sys.chainAt Disk.publish
  simp [hab, hac, hbc]

theorem submit_request_of_ne (hk : k ≠ s.submitted) : (s.submit d a b c blockno data write).request k = s.request k :=
  update_of_ne hk _ _

theorem submit_desc {i : Fin NUM} (ha : i ≠ a) (hb : i ≠ b) (hc : i ≠ c) :
    (s.submit d a b c blockno data write).disk.desc i = d.desc i := by
  unfold Sys.submit Disk.publish
  simp [ha, hb, hc]

theorem live_submit (h : (s.submit d a b c blockno data write).Live k) : k = s.submitted ∨ s.Live k := by
  by_cases hk : k = s.submitted
  · exact .inl hk
  · have hret : update s.returned s.submitted false k = false := h.2
    rw [update_of_ne hk] at hret
    have hlt : k < s.submitted + 1 := h.1
    exact .inr ⟨by omega, hret⟩

/-- A request in flight keeps its chain, and its descriptors are none of the new ones. -/
theorem Chains.flight (h : Chains s) (hspare : s.disk.Spare a b c) {i : Fin NUM}
    (hk : s.Live k) (hi : (s.request k).Owns i) : i ≠ a ∧ i ≠ b ∧ i ≠ c := by
  have hused := (h.laid k hk).used i hi
  refine ⟨?_, ?_, ?_⟩
  · intro heq
    rw [heq, hspare.freeA] at hused
    cases hused
  · intro heq
    rw [heq, hspare.freeB] at hused
    cases hused
  · intro heq
    rw [heq, hspare.freeC] at hused
    cases hused

theorem submit_owns (hspare : s.disk.Spare a b c) {i : Fin NUM} :
    ((s.submit d a b c blockno data write).request s.submitted).Owns i ↔ i = a ∨ i = b ∨ i = c := by
  rw [submit_request hspare.ab hspare.ac hspare.bc]
  exact Iff.rfl

theorem laid_submit (hspare : s.disk.Spare a b c) :
    (s.submit (s.disk.reserved a b c) a b c blockno data write).disk.Laid
      ((s.submit (s.disk.reserved a b c) a b c blockno data write).request s.submitted) := by
  rw [submit_request hspare.ab hspare.ac hspare.bc]
  refine ⟨?_, ?_, ?_, ?_⟩
  · simp [Sys.submit, Disk.publish, hspare.ab, hspare.ac]
  · simp [Sys.submit, Disk.publish, hspare.bc]
  · simp [Sys.submit, Disk.publish]
  · rintro i (rfl | rfl | rfl)
    · simp [Sys.submit, Disk.publish, Disk.reserved, hspare.ab, hspare.ac]
    · simp [Sys.submit, Disk.publish, Disk.reserved, hspare.bc]
    · simp [Sys.submit, Disk.publish, Disk.reserved]

theorem Chains.submit (h : Chains s) (hspare : s.disk.Spare a b c) :
    Chains (s.submit (s.disk.reserved a b c) a b c blockno data write) := by
  have hne : ∀ k, s.Live k → k ≠ s.submitted := fun k hk => Nat.ne_of_lt hk.1
  refine ⟨fun k hk => ?_, fun k hk => ?_, fun k l hk hl hkl i hi hi' => ?_, fun i hi => ?_⟩
  · by_cases hks : k = s.submitted
    · subst hks
      rw [submit_request hspare.ab hspare.ac hspare.bc]
      obtain ⟨hf0, hf1, hf2⟩ := next_flags write
      exact ⟨⟨hspare.ab, hspare.ac, hspare.bc, hf0, hf1, hf2, rfl, rfl⟩, by simp [Sys.submit]⟩
    · rw [submit_request_of_ne hks]
      have hlt : k < s.submitted + 1 := hk
      obtain ⟨hshape, hhdr⟩ := h.shape k (by omega)
      exact ⟨hshape, hhdr.trans (update_of_ne hks _ _).symm⟩
  · rcases live_submit hk with rfl | hk'
    · exact laid_submit hspare
    · rw [submit_request_of_ne (hne k hk')]
      have hlaid := h.laid k hk'
      refine hlaid.mono (fun i hi => ?_) fun i hi => ?_
      · obtain ⟨hia, hib, hic⟩ := h.flight hspare hk' hi
        exact submit_desc hia hib hic
      · obtain ⟨hia, hib, hic⟩ := h.flight hspare hk' hi
        simp [Sys.submit, Disk.publish, Disk.reserved, hia, hib, hic, hlaid.used i hi]
  · -- of two requests one is older, and the older one owns none of the new descriptors
    rcases live_submit hk with rfl | hk'
    · rcases live_submit hl with rfl | hl'
      · exact hkl rfl
      · rw [submit_request_of_ne (hne l hl')] at hi'
        obtain ⟨hia, hib, hic⟩ := h.flight hspare hl' hi'
        rcases (submit_owns hspare).mp hi with h' | h' | h'
        · exact hia h'
        · exact hib h'
        · exact hic h'
    · rw [submit_request_of_ne (hne k hk')] at hi
      rcases live_submit hl with rfl | hl'
      · obtain ⟨hia, hib, hic⟩ := h.flight hspare hk' hi
        rcases (submit_owns hspare).mp hi' with h' | h' | h'
        · exact hia h'
        · exact hib h'
        · exact hic h'
      · rw [submit_request_of_ne (hne l hl')] at hi'
        exact h.apart k l hk' hl' hkl i hi hi'
  · by_cases hnew : i = a ∨ i = b ∨ i = c
    · exact ⟨s.submitted, ⟨Nat.lt_succ_self _, update_self _ _ _⟩, (submit_owns hspare).mpr hnew⟩
    · obtain ⟨hia, hib, hic⟩ := not_or.mp hnew |>.imp_right not_or.mp
      have hi' : s.disk.free i = false := by
        simpa [Sys.submit, Disk.publish, Disk.reserved, hia, hib, hic] using hi
      obtain ⟨k, hk, howns⟩ := h.owned i hi'
      refine ⟨k, ⟨Nat.lt_succ_of_lt hk.1, (update_of_ne (hne k hk) _ _).trans hk.2⟩, ?_⟩
      rw [submit_request_of_ne (hne k hk)]
      exact howns

theorem Inv.submit (h : Inv s) (hspare : s.disk.Spare a b c) :
    Inv (s.submit (s.disk.reserved a b c) a b c blockno data write) := by
  have hne : ∀ k, s.Live k → k ≠ s.submitted := fun k hk => Nat.ne_of_lt hk.1
  have hdone : ∀ k, k ≠ s.submitted → s.Done k →
      (s.submit (s.disk.reserved a b c) a b c blockno data write).Done k := by
    rintro k hk ⟨j, hj, hf, htaken⟩
    refine ⟨j, hj, hf, ?_⟩
    rw [submit_request_of_ne hk]
    exact htaken
  refine ⟨h.toChains.submit hspare, fun k hk => ?_, fun j hj hf => ?_, h.once, fun k hk hret => ?_⟩
  · show (update s.disk.info a ⟨data, 0xff⟩ _).status = 0 → _
    rcases live_submit hk with rfl | hk'
    · rw [submit_request hspare.ab hspare.ac hspare.bc, update_self]
      exact fun hzero => absurd hzero inFlight_ne_zero
    · rw [submit_request_of_ne (hne k hk'), update_of_ne (h.flight hspare hk' (.inl rfl)).1]
      exact fun hzero => hdone k (hne k hk') (h.status k hk' hzero)
  · obtain ⟨k, hk, htaken⟩ := h.pending j hj hf
    refine ⟨k, ⟨Nat.lt_succ_of_lt hk.1, ?_⟩, ?_⟩
    · exact (update_of_ne (hne k hk) _ _).trans hk.2
    · rw [submit_request_of_ne (hne k hk)]
      exact htaken
  · by_cases hks : k = s.submitted
    · subst hks
      have hfalse : (s.submit (s.disk.reserved a b c) a b c blockno data write).returned s.submitted =
          false := update_self _ _ _
      cases hfalse.symm.trans hret
    · have hret' : s.returned k = true := (update_of_ne hks _ _).symm.trans hret
      have hlt : k < s.submitted + 1 := hk
      exact hdone k hks (h.done k (by omega) hret')

end Submit

theorem Inv.rw {blockno data : UInt64} {write : Bool} (h : Inv s) : Inv (s.rw blockno data write) := by
  have hcall := called_rw s blockno data write
  generalize s.rw blockno data write = s' at hcall
  cases hcall with
  | overflow => exact h.halt _
  | full d hd => exact h.idle hd
  | submit a b c hspare => exact h.submit hspare

/-! ## The steps of the device -/

/-- The chain at the head of a request that lies in the queue is that of the request. -/
theorem chainAt_of_laid (h : Inv s) (hk : s.Live k) : s.chainAt (s.request k).head = s.request k := by
  have hl := h.laid k hk
  obtain ⟨hshape, hhdr⟩ := h.shape k hk.1
  unfold Sys.chainAt
  simp only [hl.d0, hl.d1, hl.d2, hshape.addr, ← hhdr]

theorem Inv.live_of_untaken (h : Inv s) (hk : s.Untaken k) : s.Live k := by
  refine ⟨hk.1, Bool.eq_false_iff.mpr fun hret => ?_⟩
  obtain ⟨j, hj, -, htaken⟩ := h.done k hk.1 hret
  exact hk.2 j hj htaken

theorem Inv.take (h : Inv s) (hk : s.Untaken k) :
    (s.take (s.request k).head).taken s.takes = s.request k ∧ Inv (s.take (s.request k).head) := by
  have hlive := h.live_of_untaken hk
  have hnew : (s.take (s.request k).head).taken s.takes = s.request k := by
    rw [← chainAt_of_laid h hlive]
    exact update_self _ _ _
  have hold : ∀ j, j ≠ s.takes → (s.take (s.request k).head).taken j = s.taken j :=
    fun j hj => update_of_ne hj _ _
  have hfin : ∀ j, j ≠ s.takes → (s.take (s.request k).head).finished j = s.finished j :=
    fun j hj => update_of_ne hj _ _
  have hdone : ∀ l, s.Done l → (s.take (s.request k).head).Done l := by
    rintro l ⟨j, hj, hf, htaken⟩
    have hne : j ≠ s.takes := Nat.ne_of_lt hj
    exact ⟨j, Nat.lt_succ_of_lt hj, (hfin j hne).trans hf, (hold j hne).trans htaken⟩
  refine ⟨hnew, ⟨h.shape, h.laid, h.apart, h.owned⟩, fun l hl hz => hdone l (h.status l hl hz),
    fun j hj hf => ?_, fun j l hj hl heq => ?_, fun l hl hret => hdone l (h.done l hl hret)⟩
  · by_cases hjs : j = s.takes
    · subst hjs
      exact ⟨k, hlive, hnew⟩
    · have hlt : j < s.takes + 1 := hj
      obtain ⟨l, hl, htaken⟩ := h.pending j (by omega) ((hfin j hjs).symm.trans hf)
      exact ⟨l, hl, (hold j hjs).trans htaken⟩
  · have hj' : j < s.takes + 1 := hj
    have hl' : l < s.takes + 1 := hl
    by_cases hjs : j = s.takes
    · by_cases hls : l = s.takes
      · omega
      · rw [hjs, hnew, hold l hls] at heq
        exact absurd heq.symm (hk.2 l (by omega))
    · by_cases hls : l = s.takes
      · rw [hls, hnew, hold j hjs] at heq
        exact absurd heq (hk.2 j (by omega))
      · rw [hold j hjs, hold l hls] at heq
        exact h.once j l (by omega) (by omega) heq

theorem Inv.complete {j : Nat} (h : Inv s) (hj : j < s.takes) (hf : s.finished j = false) : Inv (s.complete j) := by
  obtain ⟨k, hk, htaken⟩ := h.pending j hj hf
  have hself : (s.complete j).Done k := ⟨j, hj, update_self _ _ _, htaken⟩
  have hdone : ∀ l, s.Done l → (s.complete j).Done l := by
    rintro l ⟨j', hj', hf', htaken'⟩
    have hne : j' ≠ j := by
      intro heq
      rw [heq, hf] at hf'
      cases hf'
    exact ⟨j', hj', (update_of_ne hne _ _).trans hf', htaken'⟩
  have haddr : (s.taken j).d2.addr = .status (s.request k).head := by
    rw [htaken]
    exact (h.shape k hk.1).1.status
  have hdisk : (s.complete j).disk = { s.disk with
        info := update s.disk.info (s.request k).head
          { s.disk.info (s.request k).head with status := 0 } } := by
    unfold Sys.complete
    rw [haddr]
  refine ⟨⟨h.shape, fun l hl => ?_, h.apart, fun i hi => ?_⟩, fun l hl hz => ?_, fun j' hj' hf' => ?_,
    h.once, fun l hl hret => hdone l (h.done l hl hret)⟩
  · rw [hdisk]
    exact (h.laid l hl).mono (fun _ _ => rfl) (h.laid l hl).used
  · rw [hdisk] at hi
    exact h.owned i hi
  · by_cases hlk : l = k
    · rw [hlk]
      exact hself
    · have hhead : (s.request l).head ≠ (s.request k).head := by
        intro heq
        exact h.apart l k hl hk hlk _ (.inl rfl) (.inl heq)
      rw [hdisk] at hz
      have hz' : (update s.disk.info (s.request k).head
          { s.disk.info (s.request k).head with status := 0 } (s.request l).head).status = 0 := hz
      rw [update_of_ne hhead] at hz'
      exact hdone l (h.status l hl hz')
  · have hne : j' ≠ j := by
      intro heq
      have htrue : (s.complete j).finished j = true := update_self _ _ _
      rw [heq, htrue] at hf'
      cases hf'
    exact h.pending j' hj' ((update_of_ne hne _ _).symm.trans hf')

/-- An interrupt that finds nothing new changes nothing. -/
theorem intr_quiet (hq : s.used.idx = s.disk.usedIdx) : s.put (s.disk.intr s.used) = s := by
  have hcount : (s.used.idx.toUInt32 - s.disk.usedIdx.toUInt32).toNat = 0 := by
    rw [hq, UInt32.sub_self]
    rfl
  unfold Disk.intr
  rw [hcount]
  simp only [Disk.intrLoop, bind, Except.bind, Sys.put, hq]

end Xv6.Virtio
