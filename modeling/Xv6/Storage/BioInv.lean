import Xv6.Storage.Bio
import Xv6.Coop.Logic
import Mathlib.Data.Fintype.Card

/-!
# The invariant of the buffer cache

`BioInv` says that the LRU list holds every entry once, that identities are unique, and that
each reference count is the number of holders and waiters. In the middle of `bget` and of
`brelse` one reference belongs to neither; `pend` is the entry that it counts for.
-/

namespace Xv6.Storage

open Data Coop Prog

structure BioInv (c : Bcache) (chan : Pid → Option (Fin NBUF)) (pend : Option (Fin NBUF)) :
    Prop where
  ring : ∃ l, Ring c.links l ∧ ∀ i, i ∈ l
  ident : ∀ i j, (c.buf i).assigned = true → i ≠ j →
    ¬ ((c.buf i).dev = (c.buf j).dev ∧ (c.buf i).blockno = (c.buf j).blockno)
  refs : ∃ W : Fin NBUF → Finset Pid, (∀ i p, p ∈ W i ↔ chan p = some i) ∧
    ∀ i, (c.buf i).refcnt =
      (if (c.buf i).locked then 1 else 0) + (W i).card + (if pend = some i then 1 else 0)

/-! ## Searching the list -/

variable {dev blockno : Nat}

namespace BioInv

variable {c : Bcache} {chan : Pid → Option (Fin NBUF)} {pend : Option (Fin NBUF)}
  {i : Fin NBUF} {p : Pid}

theorem follow_next_of_ring {l : List (Fin NBUF)} (h : Ring c.links l) : Links.follow c.links.next NBUF none = l :=
  h.follow_next (by simpa using h.nodup.length_le_card)

theorem follow_prev_of_ring {l : List (Fin NBUF)} (h : Ring c.links l) :
    Links.follow c.links.prev NBUF none = l.reverse :=
  h.follow_prev (by simpa using h.nodup.length_le_card)

theorem of_lookup_eq_some (hi : c.lookup dev blockno = some i) :
    (c.buf i).dev = dev ∧ (c.buf i).blockno = blockno := by
  have h := List.find?_some hi
  simpa using h

/-- A failed lookup has seen every entry. -/
theorem of_lookup_eq_none (h : BioInv c chan pend) (hn : c.lookup dev blockno = none) (i : Fin NBUF) :
    ¬ ((c.buf i).dev = dev ∧ (c.buf i).blockno = blockno) := by
  obtain ⟨l, hl, hall⟩ := h.ring
  unfold Bcache.lookup at hn
  rw [follow_next_of_ring hl, List.find?_eq_none] at hn
  simpa using hn i (hall i)

theorem of_victim_eq_some (hi : c.victim = some i) : (c.buf i).refcnt = 0 ∧ (c.buf i).pinned = 0 := by
  have h := List.find?_some hi
  simpa using h

/-- No victim means that every entry is in use. -/
theorem of_victim_eq_none (h : BioInv c chan pend) (hn : c.victim = none) (i : Fin NBUF) :
    ¬ ((c.buf i).refcnt = 0 ∧ (c.buf i).pinned = 0) := by
  obtain ⟨l, hl, hall⟩ := h.ring
  unfold Bcache.victim at hn
  rw [follow_prev_of_ring hl, List.find?_eq_none] at hn
  simpa using hn i (List.mem_reverse.mpr (hall i))

theorem of_refcnt_eq_zero (h : BioInv c chan pend) (hi : (c.buf i).refcnt = 0) :
    (c.buf i).locked = false ∧ (∀ p, chan p ≠ some i) ∧ pend ≠ some i := by
  obtain ⟨W, hW, href⟩ := h.refs
  have hr := href i
  rw [hi] at hr
  refine ⟨?_, ?_, ?_⟩
  · by_contra hl
    simp only [Bool.not_eq_false] at hl
    simp [hl] at hr
    omega
  · intro p hp
    have hmem := (hW i p).mpr hp
    have := Finset.card_pos.mpr ⟨p, hmem⟩
    omega
  · intro hp
    simp [hp] at hr

/-! ## The steps of the cache -/

theorem binit_ring : ∃ l, Ring binit.links l ∧ ∀ i, i ∈ l := by
  have key : ∀ (l r : List (Fin NBUF)) (k : Links (Fin NBUF)), Ring k r → (l ++ r).Nodup →
      ∃ r', Ring (l.foldl Links.pushFront k) r' ∧ ∀ i, i ∈ l ∨ i ∈ r → i ∈ r' := by
    intro l
    induction l with
    | nil =>
      intro r k hk _
      exact ⟨r, hk, fun i hi => by simpa using hi⟩
    | cons x l ih =>
      intro r k hk hnd
      simp only [List.cons_append, List.nodup_cons, List.mem_append, not_or] at hnd
      obtain ⟨r', hr', hmem⟩ := ih (x :: r) (k.pushFront x) (hk.pushFront hnd.1.2)
        (by
          rw [List.nodup_middle]
          simpa [List.nodup_cons] using hnd)
      refine ⟨r', hr', ?_⟩
      rintro i (hi | hi)
      · rcases List.mem_cons.mp hi with rfl | hi
        · exact hmem i (Or.inr (by simp))
        · exact hmem i (Or.inl hi)
      · exact hmem i (Or.inr (List.mem_cons_of_mem _ hi))
  obtain ⟨l, hl, hmem⟩ := key (List.finRange NBUF) [] Links.empty Ring.empty
    (by simpa using List.nodup_finRange NBUF)
  exact ⟨l, hl, fun i => hmem i (Or.inl (List.mem_finRange i))⟩

theorem binit : BioInv binit (fun _ => none) none where
  ring := binit_ring
  ident := by
    intro i j hi
    simp [Storage.binit] at hi
  refs := ⟨fun _ => ∅, by simp, by intro i; simp [Storage.binit]⟩

section

variable (h : BioInv c chan pend)
include h

/-- One entry changes, and what its count gains or loses is gained or lost by its lock and by
the pending reference. -/
theorem mod_of_balance {f : Buf → Buf} {pend' : Option (Fin NBUF)} (hdev : (f (c.buf i)).dev = (c.buf i).dev)
    (hno : (f (c.buf i)).blockno = (c.buf i).blockno)
    (has : (f (c.buf i)).assigned = (c.buf i).assigned)
    (hpend : ∀ j, j ≠ i → (pend' = some j ↔ pend = some j))
    (hbal : (f (c.buf i)).refcnt + (if (c.buf i).locked then 1 else 0) + (if pend = some i then 1 else 0) =
      (c.buf i).refcnt + (if (f (c.buf i)).locked then 1 else 0) +
        (if pend' = some i then 1 else 0)) :
    BioInv (c.mod i f) chan pend' := by
  have key : ∀ j, ((c.mod i f).buf j).dev = (c.buf j).dev ∧
      ((c.mod i f).buf j).blockno = (c.buf j).blockno ∧
      ((c.mod i f).buf j).assigned = (c.buf j).assigned := by
    intro j
    by_cases hj : j = i
    · subst hj
      simp [hdev, hno, has]
    · simp [Bcache.mod_buf_of_ne c f hj]
  refine ⟨h.ring, ?_, ?_⟩
  · intro j k hj hjk
    rw [(key j).1, (key j).2.1, (key k).1, (key k).2.1]
    exact h.ident j k ((key j).2.2 ▸ hj) hjk
  · obtain ⟨W, hW, hr⟩ := h.refs
    refine ⟨W, hW, ?_⟩
    intro j
    by_cases hj : j = i
    · subst hj
      have := hr j
      rw [Bcache.mod_buf_self]
      omega
    · rw [Bcache.mod_buf_of_ne c f hj, hr j]
      simp only [hpend j hj]

theorem mod_of_eq {f : Buf → Buf} (hdev : (f (c.buf i)).dev = (c.buf i).dev)
    (hno : (f (c.buf i)).blockno = (c.buf i).blockno)
    (has : (f (c.buf i)).assigned = (c.buf i).assigned)
    (href : (f (c.buf i)).refcnt = (c.buf i).refcnt)
    (hlock : (f (c.buf i)).locked = (c.buf i).locked) :
    BioInv (c.mod i f) chan pend :=
  h.mod_of_balance hdev hno has (fun _ _ => Iff.rfl) (by rw [href, hlock])

theorem fill (d : Block) : BioInv (c.mod i (Buf.fill d)) chan pend :=
  h.mod_of_eq rfl rfl rfl rfl rfl

theorem validate : BioInv (c.mod i Buf.validate) chan pend :=
  h.mod_of_eq rfl rfl rfl rfl rfl

theorem incPin : BioInv (c.mod i Buf.incPin) chan pend :=
  h.mod_of_eq rfl rfl rfl rfl rfl

theorem decPin : BioInv (c.mod i Buf.decPin) chan pend :=
  h.mod_of_eq rfl rfl rfl rfl rfl

end

theorem incRef (h : BioInv c chan none) : BioInv (c.mod i Buf.incRef) chan (some i) :=
  h.mod_of_balance rfl rfl rfl (fun j hj => by simp [Ne.symm hj])
    (by cases hl : (c.buf i).locked <;> simp [Buf.incRef, hl])

theorem decRef (h : BioInv c chan (some i)) : BioInv (c.mod i Buf.decRef) chan none := by
  refine h.mod_of_balance rfl rfl rfl (fun j hj => by simp [Ne.symm hj]) ?_
  have hpos : 0 < (c.buf i).refcnt := by
    by_contra hz
    exact (h.of_refcnt_eq_zero (by omega)).2.2 rfl
  cases hl : (c.buf i).locked <;> simp [Buf.decRef, hl] <;> omega

theorem lockBy (h : BioInv c chan (some i)) (hi : (c.buf i).locked = false) :
    BioInv (c.mod i (Buf.lockBy p)) chan none :=
  h.mod_of_balance rfl rfl rfl (fun j hj => by simp [Ne.symm hj]) (by simp [Buf.lockBy, hi])

theorem unlock (h : BioInv c chan none) (hi : (c.buf i).locked) : BioInv (c.mod i Buf.unlock) chan (some i) :=
  h.mod_of_balance rfl rfl rfl (fun j hj => by simp [Ne.symm hj]) (by simp [Buf.unlock, hi])

/-- The pending reference becomes that of a waiter. -/
theorem setChan_some (h : BioInv c chan (some i)) (hp : chan p = none) :
    BioInv c (Function.update chan p (some i)) none := by
  refine ⟨h.ring, h.ident, ?_⟩
  obtain ⟨W, hW, hr⟩ := h.refs
  have hpW : ∀ j, p ∉ W j := by
    intro j hj
    have := (hW j p).mp hj
    simp [hp] at this
  refine ⟨fun j => if j = i then insert p (W j) else W j, ?_, ?_⟩
  · intro j q
    by_cases hq : q = p
    · subst hq
      by_cases hj : j = i
      · simp [hj]
      · simp [hj, hpW j, Ne.symm hj]
    · by_cases hj : j = i
      · simp [hj, hq, hW]
      · simp [hj, hq, hW]
  · intro j
    by_cases hj : j = i
    · subst hj
      have := hr j
      simp [Finset.card_insert_of_notMem (hpW j)] at this ⊢
      omega
    · have := hr j
      simp [hj, Ne.symm hj] at this ⊢
      exact this

/-- The reference of a waiter becomes the pending one. -/
theorem setChan_none (h : BioInv c chan none) (hp : chan p = some i) :
    BioInv c (Function.update chan p none) (some i) := by
  refine ⟨h.ring, h.ident, ?_⟩
  obtain ⟨W, hW, hr⟩ := h.refs
  have hpW : ∀ j, p ∈ W j ↔ j = i := by
    intro j
    rw [hW j p, hp]
    simp [eq_comm]
  refine ⟨fun j => (W j).erase p, ?_, ?_⟩
  · intro j q
    by_cases hq : q = p
    · subst hq
      simp
    · simp [hq, hW]
  · intro j
    have := hr j
    by_cases hj : j = i
    · subst hj
      have hmem := (hpW j).mpr rfl
      have hpos := Finset.card_pos.mpr ⟨p, hmem⟩
      simp [Finset.card_erase_of_mem hmem] at this ⊢
      omega
    · simp [Finset.erase_eq_of_notMem (mt (hpW j).mp hj), Ne.symm hj] at this ⊢
      exact this

/-- A recycled entry had no holder and no waiter. -/
theorem assign (h : BioInv c chan none) (hn : c.lookup dev blockno = none)
    (hi : (c.buf i).refcnt = 0) : BioInv (c.mod i (Buf.assign dev blockno)) chan (some i) := by
  refine ⟨h.ring, ?_, ?_⟩
  · intro j k hj hjk
    have hfresh := h.of_lookup_eq_none hn
    by_cases hji : j = i
    · subst hji
      rw [Bcache.mod_buf_self, Bcache.mod_buf_of_ne c _ (Ne.symm hjk)]
      rintro ⟨h1, h2⟩
      exact hfresh k ⟨h1.symm, h2.symm⟩
    · rw [Bcache.mod_buf_of_ne c _ hji] at hj ⊢
      by_cases hki : k = i
      · subst hki
        rw [Bcache.mod_buf_self]
        exact hfresh j
      · rw [Bcache.mod_buf_of_ne c _ hki]
        exact h.ident j k hj hjk
  · obtain ⟨hlock, hchan, -⟩ := h.of_refcnt_eq_zero hi
    obtain ⟨W, hW, hr⟩ := h.refs
    refine ⟨W, hW, ?_⟩
    intro j
    by_cases hj : j = i
    · subst hj
      have hempty : W j = ∅ := by
        ext q
        simp [hW, hchan]
      simp [Buf.assign, hlock, hempty]
    · have := hr j
      rw [Bcache.mod_buf_of_ne c _ hj]
      simpa [Ne.symm hj] using this

theorem relink (h : BioInv c chan pend) (i : Fin NBUF) :
    BioInv { c with links := (c.links.unlink i).pushBack i } chan pend := by
  refine ⟨?_, h.ident, h.refs⟩
  obtain ⟨l, hl, hall⟩ := h.ring
  obtain ⟨l1, l2, rfl⟩ := List.append_of_mem (hall i)
  have hi : i ∉ l1 ++ l2 := by
    have hnd := hl.nodup
    rw [List.nodup_middle, List.nodup_cons] at hnd
    exact hnd.1
  refine ⟨l1 ++ l2 ++ [i], hl.unlink.pushBack hi, ?_⟩
  intro j
  have := hall j
  simp only [List.mem_append, List.mem_cons, List.not_mem_nil, or_false] at this ⊢
  tauto

theorem unref (h : BioInv c chan (some i)) : BioInv (c.unref i) chan none := by
  unfold Bcache.unref
  dsimp only
  split
  · exact h.decRef.relink i
  · exact h.decRef

end BioInv

theorem Bcache.unref_buf (c : Bcache) (i j : Fin NBUF) : (c.unref i).buf j = (c.mod i Buf.decRef).buf j := by
  unfold Bcache.unref
  dsimp only
  split
  · rfl
  · rfl

/-! ## Rules for the functions of the cache

Each rule holds in every logic over the state, and lists what has to be shown at the sleep
points of the function. -/

section rules

variable {γ V : Type} {L : Logic Sys γ V} {p : Pid} {i : Fin NBUF} {w0 w : Sys × γ}

open Logic

theorem safe_acquiresleep {Q : Unit → Sys × γ → Sys × γ → Prop}
    (hfree : (w.1.buf i).locked = false → Q () w0 (w.1.mod i (Buf.lockBy p), w.2))
    (hbusy : (w.1.buf i).locked →
      L.inv (w.1.setChan p (some i), w.2) ∧ L.Rel p w0 (w.1.setChan p (some i), w.2) ∧
      ∀ w1, L.inv w1 → L.view p w1 = L.view p (w.1.setChan p (some i), w.2) →
        (w1.1.buf i).locked = false →
        Q () w1 ((w1.1.setChan p none).mod i (Buf.lockBy p), w1.2)) :
    L.safe p (acquiresleep p i) Q w0 w := by
  unfold acquiresleep
  refine safe_seq (safe_gets (Q := fun b w0' w' => b = (w.1.buf i).locked ∧ w0' = w0 ∧ w' = w)
    ⟨rfl, rfl, rfl⟩) ?_
  rintro b w1 w2 ⟨hb, h1, h2⟩
  rw [hb, h1, h2]
  cases hl : (w.1.buf i).locked with
  | false => exact ⟨w.2, hfree hl⟩
  | true =>
    obtain ⟨hinv, hrel, hwake⟩ := hbusy hl
    refine ⟨w.2, hinv, hrel, ?_⟩
    intro w3 hinv3 hview hg
    exact ⟨w3.2, w3.2, hwake w3 hinv3 hview (by simpa using hg)⟩

/-- `bget`: the entry found or recycled, then its sleep lock. -/
theorem safe_bget {Q : Fin NBUF → Sys × γ → Sys × γ → Prop} (hhit : ∀ i, w.1.bcache.lookup dev blockno = some i →
      L.safe p (acquiresleep p i) (fun _ => Q i) w0 (w.1.mod i Buf.incRef, w.2))
    (hmiss : ∀ i, w.1.bcache.lookup dev blockno = none → w.1.bcache.victim = some i →
      L.safe p (acquiresleep p i) (fun _ => Q i) w0 (w.1.mod i (Buf.assign dev blockno), w.2))
    (hfull : w.1.bcache.lookup dev blockno = none → w.1.bcache.victim = none →
      ¬ L.bad "bget: no buffers" w.1 ∧ L.dead w.1 ∧ L.guar w0.1 w.1) :
    L.safe p (bget p dev blockno) Q w0 w := by
  have hrest : ∀ i w', L.safe p (acquiresleep p i) (fun _ => Q i) w0 w' →
      L.safe p (acquiresleep p i >>= fun _ => ret i) Q w0 w' := by
    intro i w' h
    exact (safe_bind _ _ _ _ _).mpr (safe_mono h fun _ _ _ hq => hq)
  unfold bget
  rw [safe_bind, safe_step]
  cases hl : w.1.bcache.lookup dev blockno with
  | some i => exact ⟨w.2, hrest i _ (hhit i hl)⟩
  | none =>
    cases hv : w.1.bcache.victim with
    | some i => exact ⟨w.2, hrest i _ (hmiss i hl hv)⟩
    | none => exact hfull hl hv

end rules

end Xv6.Storage
