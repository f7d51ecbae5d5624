import Mathlib.Data.Fintype.Card
import Xv6.Virtio.Guarantees

/-!
# The completions that an interrupt consumes

`virtio_disk_intr` is to work on the entries that the device has appended to the used ring since the last
invocation: as many as the 16-bit difference of the two counters says. The source computes a difference of
32-bit numbers. When the counter of the device has wrapped and that of the driver has not, this is more
than four thousand million; the loop then comes to an entry that it has worked on already, and panics.
-/

namespace Xv6.Virtio

namespace Disk

/-- The entry that is the `i`-th after those consumed before. -/
def entry (d : Disk) (used : Used) (i : UInt32) : UInt32 :=
  used.elems (Fin.ofNat NUM (d.usedIdx.toUInt32 + i).toNat)

/-- The status of an entry of `disk.info` is set to 0. -/
def finish (d : Disk) (x : Fin NUM) : Disk :=
  { d with info := Function.update d.info x { d.info x with status := 0 } }

/-- The loop of `virtio_disk_intr`, with the entries that it has worked on. -/
def intrLog (used : Used) : Nat → UInt32 → Disk → Except String (List (Fin NUM) × Disk)
  | 0, _, d => .ok ([], d)
  | n + 1, i, d =>
    if h : (d.entry used i).toNat < NUM then
      if (d.info ⟨_, h⟩).status ≠ 0xff then .error "virtio_disk_intr: status"
      else do
        let (ids, d) ← intrLog used n (i + 1) (d.finish ⟨_, h⟩)
        .ok (⟨_, h⟩ :: ids, d)
    else .error "virtio_disk_intr: used id"

theorem intrLoop_succ (used : Used) (n : Nat) (i : UInt32) (d : Disk) :
    intrLoop used (n + 1) i d =
      if h : (d.entry used i).toNat < NUM then
        if (d.info ⟨_, h⟩).status ≠ 0xff then .error "virtio_disk_intr: status"
        else intrLoop used n (i + 1) (d.finish ⟨_, h⟩)
      else .error "virtio_disk_intr: used id" := rfl

theorem intrLoop_eq (used : Used) (n : Nat) (i : UInt32) (d : Disk) :
    intrLoop used n i d = (intrLog used n i d).map Prod.snd := by
  induction n generalizing i d with
  | zero => rfl
  | succ n ih =>
    rw [intrLoop_succ, intrLog]
    by_cases hid : (d.entry used i).toNat < NUM
    · rw [dif_pos hid, dif_pos hid]
      by_cases hff : (d.info ⟨_, hid⟩).status ≠ 0xff
      · rw [if_pos hff, if_pos hff]
        rfl
      · rw [if_neg hff, if_neg hff, ih]
        cases intrLog used n (i + 1) (d.finish ⟨_, hid⟩) with
        | ok r => rfl
        | error m => rfl
    · rw [dif_neg hid, dif_neg hid]
      rfl

/-- What a completed loop has done: the entries were different heads of chains in flight, and they are
finished in their order. -/
structure Worked (used : Used) (i : UInt32) (d d' : Disk) (ids : List (Fin NUM)) : Prop where
  order : ∀ j (h : j < ids.length), (d.entry used (i + UInt32.ofNat j)).toNat = ids[j]
  flight : ∀ x ∈ ids, (d.info x).status = 0xff
  nodup : ids.Nodup
  result : d' = ids.foldl finish d

variable {used : Used} {n : Nat} {i : UInt32} {d d' : Disk} {ids : List (Fin NUM)}

theorem status_finish_self (d : Disk) (x : Fin NUM) : ((d.finish x).info x).status = 0 := by
  simp [finish]

theorem info_finish_of_ne {x y : Fin NUM} (h : y ≠ x) : (d.finish x).info y = d.info y := by
  simp [finish, h]

theorem add_zero_index (i : UInt32) : i + UInt32.ofNat 0 = i := UInt32.add_zero i

theorem add_succ (i : UInt32) (j : Nat) : i + 1 + UInt32.ofNat j = i + UInt32.ofNat (j + 1) := by
  rw [UInt32.ofNat_add, UInt32.add_assoc, UInt32.add_comm 1]
  rfl

theorem worked_cons {x : Fin NUM} : Worked used i d d' (x :: ids) ↔
    (d.entry used i).toNat = x ∧ (d.info x).status = 0xff ∧ Worked used (i + 1) (d.finish x) d' ids := by
  constructor
  · intro h
    have hx := h.flight x List.mem_cons_self
    have hnodup := List.nodup_cons.mp h.nodup
    refine ⟨?_, hx, fun j hj => ?_, fun y hy => ?_, hnodup.2, h.result⟩
    · have h0 := h.order 0 (Nat.succ_pos _)
      rwa [add_zero_index] at h0
    · rw [add_succ]
      exact h.order (j + 1) (Nat.succ_lt_succ hj)
    · have hne : y ≠ x := by
        rintro rfl
        exact hnodup.1 hy
      rw [info_finish_of_ne hne]
      exact h.flight y (List.mem_cons_of_mem x hy)
  · rintro ⟨h0, hx, h⟩
    have hnot : x ∉ ids := by
      intro hmem
      have hff := h.flight x hmem
      rw [status_finish_self] at hff
      cases hff
    refine ⟨fun j hj => ?_, fun y hy => ?_, List.nodup_cons.mpr ⟨hnot, h.nodup⟩, h.result⟩
    · cases j with
      | zero =>
        rw [add_zero_index]
        exact h0
      | succ j =>
        rw [← add_succ]
        exact h.order j (Nat.lt_of_succ_lt_succ hj)
    · rcases List.mem_cons.mp hy with rfl | hmem
      · exact hx
      · have hne : y ≠ x := by
          rintro rfl
          exact hnot hmem
        rw [← info_finish_of_ne hne]
        exact h.flight y hmem

theorem intrLog_eq_ok : intrLog used n i d = .ok (ids, d') ↔ ids.length = n ∧ Worked used i d d' ids := by
  induction n generalizing i d ids with
  | zero =>
    rw [intrLog]
    constructor
    · intro h
      cases h
      exact ⟨rfl, fun j hj => absurd hj (Nat.not_lt_zero j), nofun, List.nodup_nil, rfl⟩
    · rintro ⟨hlen, h⟩
      rw [List.length_eq_zero_iff.mp hlen, h.result, List.length_eq_zero_iff.mp hlen]
      rfl
  | succ n ih =>
    rw [intrLog]
    constructor
    · intro h
      split at h
      · rename_i hid
        split at h
        · cases h
        rename_i hff
        obtain ⟨⟨rest, d1⟩, hrest, h⟩ : ∃ r, intrLog used n (i + 1) (d.finish ⟨_, hid⟩) = .ok r ∧
            Except.ok (⟨_, hid⟩ :: r.1, r.2) = Except.ok (ids, d') := by
          cases hrest : intrLog used n (i + 1) (d.finish ⟨_, hid⟩) with
          | error m =>
            rw [hrest] at h
            cases h
          | ok r =>
            rw [hrest] at h
            exact ⟨r, rfl, h⟩
        cases h
        obtain ⟨hlen, hworked⟩ := ih.mp hrest
        exact ⟨congrArg Nat.succ hlen, worked_cons.mpr ⟨rfl, not_not.mp hff, hworked⟩⟩
      · cases h
    · rintro ⟨hlen, h⟩
      cases ids with
      | nil => cases hlen
      | cons x rest =>
        obtain ⟨h0, hff, hworked⟩ := worked_cons.mp h
        have hid : (d.entry used i).toNat < NUM := by
          rw [h0]
          exact x.isLt
        obtain rfl : x = ⟨_, hid⟩ := Fin.ext h0.symm
        rw [dif_pos hid, if_neg (not_not.mpr hff), ih.mpr ⟨Nat.succ.inj hlen, hworked⟩]
        rfl

/-- `virtio_disk_intr` with the entries that it has worked on. -/
def intrLogged (d : Disk) (used : Used) : Except String (List (Fin NUM) × Disk) := do
  let (ids, d) ← d.intrLog used (used.idx.toUInt32 - d.usedIdx.toUInt32).toNat 0
  .ok (ids, { d with usedIdx := used.idx })

theorem intr_eq (d : Disk) (used : Used) : d.intr used = (d.intrLogged used).map Prod.snd := by
  unfold intr intrLogged
  rw [intrLoop_eq]
  cases d.intrLog used (used.idx.toUInt32 - d.usedIdx.toUInt32).toNat 0 with
  | ok r => rfl
  | error m => rfl

/-- The number of entries appended since the last invocation. -/
def appended (d : Disk) (used : Used) : Nat := (used.idx - d.usedIdx).toNat

/-- An invocation has worked on the entries appended since the last one, on each of them once and in
their order, and they were at most `NUM`. -/
structure Consumes (d d' : Disk) (used : Used) (ids : List (Fin NUM)) : Prop where
  count : ids.length = d.appended used
  bound : ids.length ≤ NUM
  order : ∀ j (h : j < ids.length),
    (used.elems (Fin.ofNat NUM (d.usedIdx + UInt16.ofNat j).toNat)).toNat = ids[j]
  nodup : ids.Nodup
  idx : d'.usedIdx = used.idx
  info : d'.info = (ids.foldl finish d).info

/-- The entries appended since the last invocation name different chains in flight. -/
def InFlight (d : Disk) (used : Used) : Prop :=
  ∃ ids : List (Fin NUM), ids.length = d.appended used ∧ ids.Nodup ∧
    ∀ j (h : j < ids.length), (d.info ids[j]).status = 0xff ∧
      (used.elems (Fin.ofNat NUM (d.usedIdx + UInt16.ofNat j).toNat)).toNat = ids[j]

end Disk

open Disk

variable {d d' : Disk} {used : Used} {ids : List (Fin NUM)}

/-- The difference that the source computes. -/
theorem toNat_sub_toUInt32 (a b : UInt16) :
    (a.toUInt32 - b.toUInt32).toNat = (2 ^ 32 - b.toNat + a.toNat) % 2 ^ 32 := by
  rw [UInt32.toNat_sub, UInt16.toNat_toUInt32, UInt16.toNat_toUInt32]

/-- The entry of the source is the entry of the 16-bit counter. -/
theorem ofNat_index (a : UInt16) (j : Nat) :
    Fin.ofNat NUM (a.toUInt32 + UInt32.ofNat j).toNat = Fin.ofNat NUM (a + UInt16.ofNat j).toNat := by
  apply Fin.ext
  simp only [Fin.ofNat, UInt32.toNat_add, UInt16.toNat_add, UInt16.toNat_toUInt32, UInt32.toNat_ofNat',
    UInt16.toNat_ofNat']
  have := a.toNat_lt
  lia

theorem entry_eq (j : Nat) :
    d.entry used (0 + UInt32.ofNat j) = used.elems (Fin.ofNat NUM (d.usedIdx + UInt16.ofNat j).toNat) := by
  rw [UInt32.zero_add, entry, ofNat_index]

theorem length_le_of_nodup (h : ids.Nodup) : ids.length ≤ NUM := by
  have := List.Nodup.length_le_card h
  rwa [Fintype.card_fin] at this

/-- The two differences agree on at most `NUM` entries only if the counter has not wrapped. -/
theorem le_of_count {a b : UInt16} {n : Nat} (hn : n ≤ NUM) (h : n = (a.toUInt32 - b.toUInt32).toNat) : b ≤ a := by
  rw [toNat_sub_toUInt32] at h
  rw [UInt16.le_iff_toNat_le]
  have := a.toNat_lt
  have := b.toNat_lt
  lia

theorem count_eq_of_le {a b : UInt16} (h : b ≤ a) : (a.toUInt32 - b.toUInt32).toNat = (a - b).toNat := by
  rw [toNat_sub_toUInt32, UInt16.toNat_sub_of_le _ _ h]
  rw [UInt16.le_iff_toNat_le] at h
  have := a.toNat_lt
  omega

/-- An invocation consumes the entries that were appended if and only if the counter of the device has not
wrapped since the last invocation and the entries name different chains whose status is still `0xff`. -/
theorem intr_consumes_iff (d : Disk) (used : Used) :
    (∃ ids d', d.intrLogged used = .ok (ids, d') ∧ d.intr used = .ok d' ∧ Consumes d d' used ids) ↔
      d.usedIdx ≤ used.idx ∧ d.InFlight used := by
  constructor
  · rintro ⟨ids, d', hlog, -, hcons⟩
    obtain ⟨⟨ids1, d1⟩, hrun, heq⟩ : ∃ r, d.intrLog used (used.idx.toUInt32 - d.usedIdx.toUInt32).toNat 0 =
        .ok r ∧ Except.ok (r.1, { r.2 with usedIdx := used.idx }) = Except.ok (ids, d') := by
      unfold intrLogged at hlog
      cases hrun : d.intrLog used (used.idx.toUInt32 - d.usedIdx.toUInt32).toNat 0 with
      | error m =>
        rw [hrun] at hlog
        cases hlog
      | ok r =>
        rw [hrun] at hlog
        exact ⟨r, rfl, hlog⟩
    cases heq
    obtain ⟨hlen, hworked⟩ := intrLog_eq_ok.mp hrun
    exact ⟨le_of_count hcons.bound hlen, ids1, hcons.count, hcons.nodup, fun j hj =>
      ⟨hworked.flight _ (List.getElem_mem hj), hcons.order j hj⟩⟩
  · rintro ⟨hle, ids, hlen, hnodup, hall⟩
    have hbound := length_le_of_nodup hnodup
    have hworked : Worked used 0 d (ids.foldl finish d) ids := by
      refine ⟨fun j hj => ?_, fun x hx => ?_, hnodup, rfl⟩
      · rw [entry_eq]
        exact (hall j hj).2
      · obtain ⟨j, hj, rfl⟩ := List.getElem_of_mem hx
        exact (hall j hj).1
    have hrun := intrLog_eq_ok.mpr ⟨hlen.trans (count_eq_of_le hle).symm, hworked⟩
    have hlog : d.intrLogged used = .ok (ids, { ids.foldl finish d with usedIdx := used.idx }) := by
      unfold intrLogged
      rw [hrun]
      rfl
    refine ⟨ids, _, hlog, ?_, hlen, hbound, fun j hj => (hall j hj).2, hnodup, rfl, rfl⟩
    rw [intr_eq, hlog]
    rfl

/-- The driver after 65535 completions, with one chain in flight. -/
def lateDisk : Disk where
  desc := fun _ => ⟨.null, 0, 0, 0⟩
  avail := fun _ => 0
  free := fun i => decide (2 < i.val)
  info := fun i => ⟨0, if i = 0 then 0xff else 0⟩
  usedIdx := 0xffff

/-- The device returns this chain, and its counter wraps. -/
def lateUsed : Used where
  idx := 0
  elems := fun _ => 0

/-- One entry was appended and its chain is in flight, but the handler panics at what it takes for the
second entry. With a device that writes the status byte, it panics at the first completion. -/
theorem intr_panics_at_wrap :
    lateDisk.appended lateUsed = 1 ∧ lateDisk.InFlight lateUsed ∧
    lateDisk.intr lateUsed = .error "virtio_disk_intr: status" ∧
    ∃ s, run anyDevice init [.rw 5 0x1000 true, .take 0, .complete 0] = some s ∧
      s.disk.appended s.used = 1 ∧ s.disk.intr s.used = .error "virtio_disk_intr: status" := by
  refine ⟨by decide, ⟨[0], by decide, List.nodup_singleton 0, ?_⟩, ?_, ?_⟩
  · intro j hj
    obtain rfl : j = 0 := by simpa using hj
    exact ⟨rfl, rfl⟩
  · have hcount : (lateUsed.idx.toUInt32 - lateDisk.usedIdx.toUInt32).toNat = 4294901759 + 2 := by decide
    unfold Disk.intr
    rw [hcount]
    rfl
  · have hends : (run anyDevice init [.rw 5 0x1000 true, .take 0, .complete 0]).map (fun s =>
        (s.disk.appended s.used, (s.disk.intr s.used).casesOn (motive := fun _ => Option String) some fun _ => none)) =
        some (1, some "virtio_disk_intr: status") := by decide
    obtain ⟨s, hs, hend⟩ := Option.map_eq_some_iff.mp hends
    simp only [Prod.mk.injEq] at hend
    refine ⟨s, hs, hend.1, ?_⟩
    cases hintr : s.disk.intr s.used with
    | ok d =>
      rw [hintr] at hend
      cases hend.2
    | error m =>
      rw [hintr] at hend
      rw [Option.some.inj hend.2]

end Xv6.Virtio
