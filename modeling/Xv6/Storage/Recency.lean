import Xv6.Storage.Cache

/-!
# Which buffer is evicted

`brelse` moves a buffer whose count comes down to 0 to the tail of the list, and the second loop of `bget` begins at the
tail. So the buffer that is recycled is the one that was released last, not the one that was released first. The loop
panics when every buffer is referenced or pinned. Readers that wait for the disk hold a buffer each, so there need only
be as many of them as there are buffers.
-/

namespace Xv6.Storage

open Data Coop Prog

/-! ## What one burst does to the list -/

/-- No count has come down to 0, and the list is as it was. -/
def NoDrop (s s' : Sys) : Prop :=
  s'.bcache.links = s.bcache.links ∧ ∀ i, (s'.buf i).refcnt = 0 → (s.buf i).refcnt = 0

/-- A burst releases at most one buffer. -/
def Turn (s s' : Sys) : Prop :=
  NoDrop s s' ∨ ∃ i, (s.buf i).locked = true ∧ s'.bcache = (s.bcache.mod i Buf.unlock).unref i

theorem NoDrop.refl (s : Sys) : NoDrop s s := ⟨rfl, fun _ h => h⟩

theorem NoDrop.trans {s s' s'' : Sys} (h : NoDrop s s') (h' : NoDrop s' s'') : NoDrop s s'' :=
  ⟨h'.1.trans h.1, fun i hi => h.2 i (h'.2 i hi)⟩

theorem noDrop_mod {s : Sys} {i : Fin NBUF} {f : Buf → Buf} (hf : (f (s.buf i)).refcnt = 0 → (s.buf i).refcnt = 0) :
    NoDrop s (s.mod i f) := by
  refine ⟨rfl, fun j hj => ?_⟩
  by_cases hji : j = i
  · subst hji
    rw [Sys.mod_buf_self] at hj
    exact hf hj
  · rwa [Sys.mod_buf_of_ne s f hji] at hj

/-- The bursts of the calls, and the state in which `bget` gives up. -/
def turnLogic : Logic Sys Unit Unit where
  inv := fun _ => True
  view := fun _ _ => ()
  idle := fun _ => True
  bad := fun m s => m = "bget: no buffers" ∧ s.bcache.victim ≠ none
  dead := fun _ => True
  guar := Turn

/-- In every burst of the program no buffer is released. -/
def Calm {α : Type} (p : Pid) (x : Prog Sys α) : Prop :=
  ∀ w₀ w, NoDrop w₀.1 w.1 → turnLogic.safe p x (fun _ w₀' w' => NoDrop w₀'.1 w'.1) w₀ w

variable {α β : Type} {p : Pid}

theorem Calm.bind {x : Prog Sys α} {h : α → Prog Sys β} (hx : Calm p x) (hh : ∀ a, Calm p (h a)) : Calm p (x >>= h) :=
  fun w0 w hw => Logic.safe_seq (hx w0 w hw) fun a w0' w' hw' => hh a w0' w' hw'

theorem calm_pure (a : α) : Calm p (pure a : Prog Sys α) := fun _ _ hw => hw

theorem calm_gets (f : Sys → α) : Calm p (gets f) := fun _ _ hw => Logic.safe_gets hw

theorem calm_modify {f : Sys → Sys} (hf : ∀ s, NoDrop s (f s)) : Calm p (modify f) :=
  fun _ w hw => Logic.safe_modify w.2 (hw.trans (hf w.1))

theorem calm_pause : Calm p (pause : Prog Sys Unit) :=
  fun _ _ hw => Logic.safe_pause trivial ⟨fun _ _ => rfl, .inl hw⟩ fun w1 _ _ => .refl w1.1

theorem calm_check {c : Sys → Bool} {m : String} (hm : m ≠ "bget: no buffers") : Calm p (check c m) :=
  fun _ _ hw => Logic.safe_check (fun _ => hw) fun _ => ⟨fun hbad => hm hbad.1, trivial, .inl hw⟩

theorem calm_acquiresleep (i : Fin NBUF) : Calm p (acquiresleep p i) := by
  intro w0 w hw
  refine safe_acquiresleep (fun _ => hw.trans (noDrop_mod fun h => h)) fun _ => ⟨trivial, ⟨fun _ _ => rfl, .inl ?_⟩, ?_⟩
  · exact hw.trans ⟨rfl, fun _ h => h⟩
  · intro w1 _ _ _
    have hchan : NoDrop w1.1 (w1.1.setChan p none) := ⟨rfl, fun _ h => h⟩
    exact hchan.trans (noDrop_mod fun h => h)

theorem calm_bget (dev blockno : Nat) : Calm p (bget p dev blockno) := by
  unfold bget
  refine Calm.bind ?_ fun i => (calm_acquiresleep i).bind fun _ => calm_pure i
  intro w0 w hw
  rw [Logic.safe_step]
  cases hl : w.1.bcache.lookup dev blockno with
  | some i => exact ⟨w.2, hw.trans (noDrop_mod fun h => absurd h (Nat.succ_ne_zero _))⟩
  | none =>
    cases hv : w.1.bcache.victim with
    | some i => exact ⟨w.2, hw.trans (noDrop_mod fun h => absurd h (Nat.succ_ne_zero _))⟩
    | none => exact ⟨fun hbad => hbad.2 hv, trivial, .inl hw⟩

theorem calm_bread (dev blockno : Nat) : Calm p (bread p dev blockno) := by
  refine (calm_bget dev blockno).bind fun i => (calm_gets _).bind fun valid => ?_
  cases valid with
  | true => exact calm_pure i
  | false =>
    refine Calm.bind (calm_pause.bind fun _ => calm_modify fun s => noDrop_mod fun h => h) fun _ => ?_
    exact (calm_modify fun s => noDrop_mod fun h => h).bind fun _ => calm_pure i

theorem turnLogic_verified : turnLogic.Verified bioMachine fun _ _ _ _ => True := by
  refine ⟨fun p c w _ _ hmay => ⟨w.2, ?_⟩, fun _ _ _ h => h.elim, fun s => .inl (.refl s)⟩
  have hcalm : ∀ {x : Prog Sys (Option (Fin NBUF))}, Calm p x →
      turnLogic.safe p x (turnLogic.Final (fun _ _ _ _ => True) p c) w (w.1, w.2) := fun hx =>
    Logic.safe_mono (hx w w (.refl w.1)) fun _ _ _ hw => ⟨trivial, ⟨fun _ _ => rfl, .inl hw⟩, trivial, trivial⟩
  cases c with
  | bread dev blockno => exact hcalm ((calm_bread dev blockno).bind fun i => calm_pure _)
  | bwrite i =>
    refine hcalm (Calm.bind ((calm_check (by decide)).bind fun _ => ?_) fun _ => calm_pure _)
    exact (calm_modify fun s => ⟨rfl, fun _ h => h⟩).bind fun _ => calm_pause
  | brelse i =>
    have hlocked : (w.1.buf i).locked = true := hmay.1
    have hholds : holdingsleep p i w.1 = true := decide_eq_true hmay
    show turnLogic.safe p (brelse p i >>= fun _ => pure none) _ w w
    refine Logic.safe_seq ?_
      fun _ _ _ hw => ⟨trivial, ⟨fun _ _ => rfl, hw⟩, trivial, trivial⟩
    refine Logic.safe_seq (Logic.safe_check (Q := fun _ w0' w' => w0' = w ∧ w' = w) (fun _ => ⟨rfl, rfl⟩) ?_) ?_
    · intro hno
      cases hholds.symm.trans hno
    · rintro _ w0' w' ⟨h0, h1⟩
      rw [h0, h1]
      exact ⟨w.2, w.2, .inr ⟨i, hlocked, rfl⟩⟩
  | bpin i => exact hcalm ((calm_modify fun s => noDrop_mod fun h => h).bind fun _ => calm_pure _)
  | bunpin i =>
    refine hcalm (Calm.bind ((calm_check (by decide)).bind fun _ => ?_) fun _ => calm_pure _)
    exact calm_modify fun s => noDrop_mod fun h => h
  | fill i d => exact hcalm ((calm_modify fun s => noDrop_mod fun h => h).bind fun _ => calm_pure _)

/-! ## The order of the list -/

section Order

variable {s : Sys} {c c' : BioConfig} {age : Fin NBUF → Nat} {t : Nat}

/-- A run from `s`, with the time of the last release of each buffer to the count 0; the time is 0 for a buffer that
was never released. -/
inductive Aged (s : Sys) : BioConfig → (Fin NBUF → Nat) → Nat → Prop
  | start : Aged s (.start s) (fun _ => 0) 0
  | step {c c' : BioConfig} {age : Fin NBUF → Nat} {t : Nat} (h : Aged s c age t)
      (hstep : bioMachine.Step c c') :
      Aged s c' (fun i => if (c.mem.buf i).refcnt ≠ 0 ∧ (c'.mem.buf i).refcnt = 0 then t + 1 else age i) (t + 1)

theorem Aged.reach (h : Aged s c age t) : bioMachine.Reach (.start s) c := by
  induction h with
  | start => exact .refl
  | step _ hstep ih => exact ih.tail hstep

/-- The list goes from the buffer that was released first to the one that was released last, behind those that were
never released. -/
def Sorted (b : Bcache) (age : Fin NBUF → Nat) (t : Nat) : Prop :=
  ∃ l, Ring b.links l ∧ (∀ i, i ∈ l) ∧ l.Pairwise (fun i j => age i < age j ∨ age i = 0) ∧ ∀ i, age i ≤ t

theorem Sorted.congr {b b' : Bcache} {age' : Fin NBUF → Nat} (h : Sorted b age t) (hlinks : b'.links = b.links)
    (hage : ∀ i, age' i = age i) : Sorted b' age' (t + 1) := by
  obtain ⟨l, hring, hall, hpair, hle⟩ := h
  obtain rfl : age' = age := funext hage
  exact ⟨l, hlinks ▸ hring, hall, hpair, fun i => Nat.le_succ_of_le (hle i)⟩

theorem eq_nil_of_next {l1 l2 : List (Fin NBUF)} {k : Links (Fin NBUF)} {i : Fin NBUF} (h : Ring k (l1 ++ i :: l2))
    (hi : k.next (some i) = none) : l2 = [] := by
  cases l2 with
  | nil => rfl
  | cons j l2 =>
    have hpath := ((path_append none l1 _).mp h.path).2
    have hnext : k.next (some i) = some j := hpath.2.2.1
    cases hi.symm.trans hnext

theorem Sorted.unref {b : Bcache} {i : Fin NBUF} {age' : Fin NBUF → Nat} (h : Sorted b age t)
    (hi : (b.buf i).refcnt = 1) (hself : age' i = t + 1) (hother : ∀ j, j ≠ i → age' j = age j) :
    Sorted (b.unref i) age' (t + 1) := by
  obtain ⟨l, hring, hall, hpair, hle⟩ := h
  obtain ⟨l1, l2, rfl⟩ := List.append_of_mem (hall i)
  have hnd := hring.nodup
  rw [List.nodup_middle, List.nodup_cons] at hnd
  have hne : ∀ j ∈ l1 ++ l2, j ≠ i := fun j hj he => hnd.1 (he ▸ hj)
  have hring' : Ring (b.unref i).links (l1 ++ l2 ++ [i]) := by
    have hzero : ((b.mod i Buf.decRef).buf i).refcnt = 0 := by
      rw [Bcache.mod_buf_self]
      show (b.buf i).refcnt - 1 = 0
      rw [hi]
    unfold Bcache.unref
    dsimp only
    by_cases hnext : b.links.next (some i) = none
    · rw [if_neg (fun hc => hc.2 hnext)]
      obtain rfl := eq_nil_of_next hring hnext
      rwa [List.append_nil]
    · rw [if_pos ⟨hzero, hnext⟩]
      exact hring.unlink.pushBack hnd.1
  refine ⟨_, hring', fun j => ?_, List.pairwise_append.mpr ⟨?_, List.pairwise_singleton _ _, ?_⟩, fun j => ?_⟩
  · have hj := hall j
    simp only [List.mem_append, List.mem_cons, List.not_mem_nil, or_false] at hj ⊢
    tauto
  · have hsub : (l1 ++ l2).Sublist (l1 ++ i :: l2) := (List.sublist_cons_self i l2).append_left l1
    refine (hpair.sublist hsub).imp_of_mem fun {j k} hj hk hjk => ?_
    rwa [hother j (hne j hj), hother k (hne k hk)]
  · intro j hj k hk
    obtain rfl := List.mem_singleton.mp hk
    rw [hother j (hne j hj), hself]
    exact .inl (Nat.lt_succ_of_le (hle j))
  · by_cases hji : j = i
    · rw [hji, hself]
    · rw [hother j hji]
      exact Nat.le_succ_of_le (hle j)

theorem sorted_binit : Sorted binit (fun _ => 0) 0 := by
  obtain ⟨l, hring, hall⟩ := BioInv.binit_ring
  exact ⟨l, hring, hall, List.pairwise_of_forall fun _ _ => .inr rfl, fun _ => Nat.le_refl 0⟩

theorem Turn.sorted {s' : Sys} {age' : Fin NBUF → Nat} (h : Turn s s') (hinv : BioInv s.bcache s.chan none)
    (hs : Sorted s.bcache age t)
    (hage : ∀ i, age' i = if (s.buf i).refcnt ≠ 0 ∧ (s'.buf i).refcnt = 0 then t + 1 else age i) :
    Sorted s'.bcache age' (t + 1) := by
  rcases h with ⟨hlinks, hheld⟩ | ⟨i, hlocked, hb⟩
  · refine hs.congr hlinks fun i => ?_
    rw [hage, if_neg]
    exact fun hc => hc.1 (hheld i hc.2)
  · have hpos : (s.buf i).refcnt ≠ 0 := fun h0 =>
      absurd ((hinv.of_refcnt_eq_zero h0).1.symm.trans hlocked) (by decide)
    have hbuf : ∀ j, s'.buf j = if j = i then (s.buf j).unlock.decRef else s.buf j := by
      intro j
      show s'.bcache.buf j = _
      rw [hb, Bcache.unref_buf]
      by_cases hji : j = i
      · rw [if_pos hji, hji, Bcache.mod_buf_self, Bcache.mod_buf_self]
        rfl
      · rw [if_neg hji, Bcache.mod_buf_of_ne _ _ hji, Bcache.mod_buf_of_ne _ _ hji]
        rfl
    have hother : ∀ j, j ≠ i → age' j = age j := by
      intro j hji
      rw [hage, hbuf, if_neg hji, if_neg]
      exact fun hc => hc.1 hc.2
    have hcount : (s'.buf i).refcnt = (s.buf i).refcnt - 1 := by
      rw [hbuf, if_pos rfl]
      rfl
    have hs1 : Sorted (s.bcache.mod i Buf.unlock) age t := hs
    rw [hb]
    by_cases hone : (s.buf i).refcnt = 1
    · refine hs1.unref ?_ ?_ hother
      · rw [Bcache.mod_buf_self]
        exact hone
      · rw [hage, if_pos ⟨hpos, by rw [hcount, hone]⟩]
    · -- somebody else has a reference
      refine hs1.congr ?_ fun j => ?_
      · unfold Bcache.unref
        dsimp only
        split
        · rename_i hc
          rw [Bcache.mod_buf_self, Bcache.mod_buf_self] at hc
          have hsub : (s.buf i).refcnt - 1 = 0 := hc.1
          omega
        · rfl
      · by_cases hji : j = i
        · rw [hage, hji, if_neg]
          rintro ⟨-, hc⟩
          rw [hcount] at hc
          omega
        · exact hother j hji

theorem Aged.sorted (hbcache : s.bcache = binit) (hchan : s.chan = fun _ => none) (h : Aged s c age t) :
    Sorted c.mem.bcache age t := by
  induction h with
  | start =>
    show Sorted s.bcache _ _
    rw [hbcache]
    exact sorted_binit
  | @step c c' age t h hstep ih =>
    have hinv := bioInv_of_reach hbcache hchan h.reach
    have hgood := Logic.good_of_reach turnLogic_verified (Logic.good_start (g := ()) trivial fun _ => trivial) h.reach
    refine Turn.sorted ?_ hinv ih fun i => rfl
    cases hstep with
    | burst p i x hlive hx => exact Logic.guar_of_burst turnLogic_verified hgood hlive hx
    | fail s hs => exact hs.elim

/-- A buffer that may be recycled. -/
def Evictable (s : Sys) (i : Fin NBUF) : Prop := (s.buf i).refcnt = 0 ∧ (s.buf i).pinned = 0

/-- The victim is the last evictable buffer of the list. -/
theorem Sorted.victim {v : Fin NBUF} (h : Sorted s.bcache age t) (hv : s.bcache.victim = some v) {j : Fin NBUF}
    (hj : Evictable s j) : j = v ∨ age j < age v ∨ age j = 0 := by
  obtain ⟨l, hring, hall, hpair, -⟩ := h
  unfold Bcache.victim at hv
  rw [BioInv.follow_prev_of_ring hring] at hv
  obtain ⟨-, l1, l2, hl, hfirst⟩ := List.find?_eq_some_iff_append.mp hv
  have hsplit : l = l2.reverse ++ v :: l1.reverse := by
    rw [← List.reverse_reverse l, hl]
    simp
  rw [hsplit] at hpair hall
  have hjl := hall j
  simp only [List.mem_append, List.mem_cons, List.mem_reverse] at hjl
  rcases hjl with hj2 | rfl | hj1
  · exact .inr ((List.pairwise_append.mp hpair).2.2 j (List.mem_reverse.mpr hj2) v List.mem_cons_self)
  · exact .inl rfl
  · have hno := hfirst j hj1
    have hyes : (s.buf j).refcnt = 0 ∧ (s.buf j).pinned = 0 := hj
    simp [Sys.buf] at hno hyes
    exact hno.elim (absurd hyes.1) (absurd hyes.2)

end Order

/-! ## Scripts -/

section Script

variable {s : Sys} {c : BioConfig} {age : Fin NBUF → Nat} {t : Nat}

instance (p : Pid) (i : BioCall) (s : Sys) : Decidable (bioMay p i s) :=
  match i with
  | .bread _ _ => .isTrue trivial
  | .bwrite i => inferInstanceAs (Decidable (s.Holds p i))
  | .brelse i => inferInstanceAs (Decidable (s.Holds p i))
  | .bpin _ => .isTrue trivial
  | .bunpin _ => .isTrue trivial
  | .fill i _ => inferInstanceAs (Decidable (s.Holds p i))

/-- The next burst of a process: of its call, or of the given one when it is idle. -/
def nextBurst (c : BioConfig) (p : Pid) (i : BioCall) : Option BioConfig :=
  match c.halted, c.thr p with
  | none, none => if bioMay p i c.mem then some (c.after p i ((bioCode p i).burst c.mem)) else none
  | none, some th => if th.guard c.mem then some (c.after p th.call (th.rest.burst c.mem)) else none
  | some _, _ => none

theorem step_of_nextBurst {c' : BioConfig} {p : Pid} {i : BioCall} (h : nextBurst c p i = some c') : bioMachine.Step c c' := by
  unfold nextBurst at h
  split at h
  · rename_i hlive hidle
    obtain ⟨hmay, rfl⟩ := Option.ite_none_right_eq_some.mp h |>.imp id Option.some.inj
    exact .burst p i _ hlive (.call hidle hmay)
  · rename_i th hlive hth
    obtain ⟨hg, rfl⟩ := Option.ite_none_right_eq_some.mp h |>.imp id Option.some.inj
    exact .burst p th.call _ hlive (.wake th hth rfl hg)
  · cases h

/-- One burst after the other, with the times of the releases. -/
def drive : List (Pid × BioCall) → BioConfig → (Fin NBUF → Nat) → Nat → Option (BioConfig × (Fin NBUF → Nat))
  | [], c, age, _ => some (c, age)
  | (p, i) :: rest, c, age, t =>
    match nextBurst c p i with
    | none => none
    | some c' => drive rest c' (fun i => if (c.mem.buf i).refcnt ≠ 0 ∧ (c'.mem.buf i).refcnt = 0 then t + 1 else age i) (t + 1)

theorem exists_aged_of_drive {calls : List (Pid × BioCall)} {f : BioConfig × (Fin NBUF → Nat) → Bool}
    (h : Aged s c age t) (htest : (drive calls c age t).elim false f = true) :
    ∃ c' age' t', Aged s c' age' t' ∧ f (c', age') = true := by
  induction calls generalizing c age t with
  | nil => exact ⟨c, age, t, h, htest⟩
  | cons call rest ih =>
    rw [drive] at htest
    cases hnext : nextBurst c call.1 call.2 with
    | none =>
      rw [hnext] at htest
      cases htest
    | some c' =>
      rw [hnext] at htest
      exact ih (h.step (step_of_nextBurst hnext)) htest

end Script

/-- A blank disk after `binit`. -/
def blank : Sys := Sys.boot (fun _ => Bytes.zero) fun _ => Bytes.zero

/-- A buffer is read and released, and one process more than there are buffers begins to read. -/
theorem blank_parts :
    (drive [(1, .bread 1 2), (1, .bread 1 2), (1, .brelse 0)] (.start blank) (fun _ => 0) 0).elim false (fun x =>
      decide (x.1.mem.bcache.lookup 1 3 = none ∧ ((x.1.mem.buf 1).refcnt = 0 ∧ (x.1.mem.buf 1).pinned = 0) ∧
        x.2 1 < x.2 0) && ((bget 1 1 3).run x.1.mem).returned fun v _ => decide (v = 0)) = true ∧
    (drive ((List.range (NBUF + 1)).map fun p => (p + 1, .bread 1 (p + 2))) (.start blank) (fun _ => 0) 0).elim false
      (fun x => decide (x.1.halted = some "bget: no buffers")) = true := by
  decide +kernel

/-- The buffers that are pinned, and those that somebody holds or waits for. -/
noncomputable def inUse (s : Sys) : Nat :=
  {i | 0 < (s.buf i).pinned}.ncard + {i | ∃ p, s.Holds p i ∨ s.chan p = some i}.ncard

theorem BioInv.exists_user {s : Sys} {i : Fin NBUF} (h : BioInv s.bcache s.chan none) (hi : (s.buf i).refcnt ≠ 0) :
    ∃ p, s.Holds p i ∨ s.chan p = some i := by
  by_contra hno
  have hholds : {p | s.Holds p i} = ∅ := Set.eq_empty_of_forall_notMem fun p hp => hno ⟨p, .inl hp⟩
  have hchan : {p | s.chan p = some i} = ∅ := Set.eq_empty_of_forall_notMem fun p hp => hno ⟨p, .inr hp⟩
  have hsum := h.encard_eq i
  rw [hholds, hchan, Set.encard_empty, zero_add] at hsum
  exact hi (by exact_mod_cast hsum.symm)

end Xv6.Storage
