import Xv6.Virtio.Guarantees

/-!
# The partition of the descriptors

`virtio_disk_rw` for any number of callers, with the completion of a request as an event that sets its
status to 0. A caller that finds too few free descriptors sleeps and calls again; a waiter may be woken
before its request is completed and then goes on waiting.
-/

namespace Xv6.Virtio

/-- The `k`-th request is completed. -/
def Sys.finish (s : Sys) (k : Nat) : Sys :=
  { s with
    disk :=
      { s.disk with
        info := Function.update s.disk.info (s.request k).head
          { s.disk.info (s.request k).head with status := 0 } } }

inductive Event
  | rw (blockno data : UInt64) (write : Bool)
  | finish (k : Nat)
  | wake (k : Nat)

/-- A request can be completed, and its waiter woken, until its call has returned. -/
def advance (s : Sys) (e : Event) : Option Sys :=
  if s.halted.isSome then none
  else
    match e with
    | .rw blockno data write => some (s.rw blockno data write)
    | .finish k => if k < s.submitted ∧ s.returned k = false then some (s.finish k) else none
    | .wake k => if k < s.submitted ∧ s.returned k = false then some (s.wake k) else none

def advances (s : Sys) : List Event → Option Sys
  | [] => some s
  | e :: es => do
    let s ← advance s e
    advances s es

variable {s s' : Sys} {events : List Event}

theorem advance_eq_some {e : Event} (h : advance s e = some s') :
    s.halted = none ∧
      match e with
      | .rw blockno data write => s' = s.rw blockno data write
      | .finish k => s.Live k ∧ s' = s.finish k
      | .wake k => s.Live k ∧ s' = s.wake k := by
  unfold advance at h
  obtain ⟨hhalt, h⟩ := Option.ite_none_left_eq_some.mp h
  refine ⟨by simpa using hhalt, ?_⟩
  cases e with
  | rw blockno data write => exact (Option.some.inj h).symm
  | finish k =>
    obtain ⟨hk, h⟩ := Option.ite_none_right_eq_some.mp h
    exact ⟨hk, (Option.some.inj h).symm⟩
  | wake k =>
    obtain ⟨hk, h⟩ := Option.ite_none_right_eq_some.mp h
    exact ⟨hk, (Option.some.inj h).symm⟩

theorem Chains.finish (h : Chains s) (k : Nat) : Chains (s.finish k) :=
  ⟨h.shape, fun l hl => (h.laid l hl).mono (fun _ _ => rfl) (h.laid l hl).used, h.apart, h.owned⟩

theorem Chains.advance {e : Event} (h : Chains s) (hs : Virtio.advance s e = some s') : Chains s' ∧ Calm s' := by
  obtain ⟨hlive, hs⟩ := advance_eq_some hs
  cases e with
  | rw blockno data write =>
    have hcall := called_rw s blockno data write
    rw [← hs] at hcall
    cases hcall with
    | overflow => exact ⟨h.halt _, .inr rfl⟩
    | full d hd => exact ⟨h.idle hd, .inl hlive⟩
    | submit a b c hspare => exact ⟨h.submit hspare, .inl hlive⟩
  | finish k =>
    rw [hs.2]
    exact ⟨h.finish k, .inl hlive⟩
  | wake k =>
    rw [hs.2]
    by_cases hzero : (s.disk.info (s.request k).head).status = 0
    · obtain ⟨d, heq, -, hchains⟩ := h.wake hs.1 hzero
      rw [heq]
      exact ⟨hchains, .inl hlive⟩
    · unfold Sys.wake
      rw [if_neg hzero]
      exact ⟨h, .inl hlive⟩

theorem Chains.advances (h : Chains s) (hc : Calm s) (hs : Virtio.advances s events = some s') :
    Chains s' ∧ Calm s' := by
  induction events generalizing s with
  | nil =>
    cases hs
    exact ⟨h, hc⟩
  | cons e es ih =>
    obtain ⟨s1, hstep, hs⟩ := Option.bind_eq_some_iff.mp hs
    obtain ⟨h1, hc1⟩ := h.advance hstep
    exact ih h1 hc1 hs

/-- A descriptor is free, or it belongs to one chain in flight. -/
theorem Chains.free_or_owned (h : Chains s) (i : Fin NUM) :
    (s.disk.free i ∧ ∀ k, s.Live k → ¬ (s.request k).Owns i) ∨
      (s.disk.free i = false ∧ ∃! k, s.Live k ∧ (s.request k).Owns i) := by
  cases hfree : s.disk.free i with
  | true =>
    refine .inl ⟨rfl, fun k hk howns => ?_⟩
    cases ((h.laid k hk).used i howns).symm.trans hfree
  | false =>
    obtain ⟨k, hk, howns⟩ := h.owned i hfree
    refine .inr ⟨rfl, k, ⟨hk, howns⟩, ?_⟩
    rintro l ⟨hl, howns'⟩
    by_contra hne
    exact h.apart l k hl hk hne i howns' howns

/-- An allocation that fails leaves the map of the free descriptors as it was. -/
theorem free_of_alloc3Desc_none {d d' : Disk} (h : d.alloc3Desc = .ok (none, d')) : d'.free = d.free := by
  rcases d.alloc3Desc_cases with ⟨d1, h1, hidle⟩ | ⟨a, b, c, -, h1⟩
  · cases h1.symm.trans h
    exact hidle.free
  · cases h1.symm.trans h

/-- Two requests take six of the eight descriptors, a third one has to wait until one of them has
returned. -/
def threeRequests : List Event :=
  [.rw 5 0x1000 true, .rw 6 0x2000 false, .rw 7 0x3000 true, .finish 1, .wake 0, .wake 1, .rw 7 0x3000 true]

end Xv6.Virtio
