import Xv6.Riscv.Sv39
import Xv6.Vm.Model

/-!
# Page tables as the hardware reads them

`walk` accepts every address below `MAXVA = 2 ^ 39`, the hardware only those below `2 ^ 38` and those
at the top of the 64-bit space. On what both accept they agree: the three indices are the same, an
intermediate entry is a pointer for both, and a leaf gives the same page and permissions, unless it
has the reserved encoding of a page that can be written and not read.

`Levels` records for every page of a table its level. It is kept by `mappages`, which takes the pages
for new tables from the free list.
-/

namespace Xv6.Vm

open Coop Prog Riscv Function

/-- The memory as the hardware addresses it. -/
def Mem.hw (m : Mem) (ppn : Nat) : Fin 512 → UInt64 := m.page (UInt64.ofNat (ppn * 4096))

/-- The entries of every table point to tables of the next level, those of the last level to pages, and
no table is on the free list. -/
structure Levels (m : Mem) (lvl : UInt64 → Option Nat) : Prop where
  table : ∀ pt l, lvl pt = some (l + 1) → ∀ i, Has (m.page pt i) PTE_V →
    ∃ c, IsPage c ∧ lvl c = some l ∧ m.page pt i = PA2PTE c ||| PTE_V
  leaf : ∀ pt, lvl pt = some 0 → ∀ i, Has (m.page pt i) PTE_V →
    ∃ pa f, pa.toNat < 2 ^ 56 ∧ f.toNat < 1024 ∧ m.page pt i = PA2PTE pa ||| f
  free : ∀ pg ∈ m.free, IsPage pg ∧ lvl pg = none
  nodup : m.free.Nodup

/-- The second assignment extends the first. -/
def Extends (lvl lvl' : UInt64 → Option Nat) : Prop := ∀ pt l, lvl pt = some l → lvl' pt = some l

variable {m m' : Mem} {lvl : UInt64 → Option Nat} {pg pt pa perm va : UInt64} {l : Nat}

theorem Extends.refl (lvl : UInt64 → Option Nat) : Extends lvl lvl := fun _ _ h => h

theorem Extends.trans {a b c : UInt64 → Option Nat} (h : Extends a b) (h' : Extends b c) :
    Extends a c := fun pt l hl => h' pt l (h pt l hl)

theorem Extends.update (hpg : lvl pg = none) (l : Nat) : Extends lvl (update lvl pg (some l)) := by
  intro q k hq
  have hne : q ≠ pg := by
    intro heq
    rw [heq, hpg] at hq
    cases hq
  rw [update_of_ne hne]
  exact hq

namespace Levels

theorem update_page (h : Levels m lvl) (hpg : lvl pg = none) (w : Fin 512 → UInt64) :
    Levels { m with page := update m.page pg w } lvl := by
  have hne : ∀ pt l, lvl pt = some l → pt ≠ pg := by
    intro pt l hl heq
    rw [heq, hpg] at hl
    cases hl
  refine ⟨?_, ?_, h.free, h.nodup⟩
  · intro pt l hl i hi
    simp only [update_of_ne (hne pt _ hl)] at hi ⊢
    exact h.table pt l hl i hi
  · intro pt hl i hi
    simp only [update_of_ne (hne pt _ hl)] at hi ⊢
    exact h.leaf pt hl i hi

theorem tail (h : Levels m lvl) {rest : List UInt64} (hfree : m.free = pg :: rest) :
    Levels { m with free := rest } lvl := by
  refine ⟨h.table, h.leaf, ?_, ?_⟩
  · intro p hp
    exact h.free p (hfree ▸ List.mem_cons_of_mem pg hp)
  · have := h.nodup
    rw [hfree] at this
    exact this.of_cons

theorem setWord_page {q : UInt64} {i j : Fin 512} {w : UInt64} :
    (m.setWord pt i w).page q j = if q = pt ∧ j = i then w else m.page q j := by
  unfold Mem.setWord
  by_cases hq : q = pt
  · subst hq
    by_cases hj : j = i
    · simp [hj]
    · simp [hj]
  · simp [hq]

theorem adopt (h : Levels m lvl) (hpg : lvl pg = none) (hnew : pg ∉ m.free)
    (hzero : ∀ i, m.page pg i = 0) (l : Nat) : Levels m (update lvl pg (some l)) := by
  have hold := Extends.update hpg l
  have hcases : ∀ q k i, update lvl pg (some l) q = some k → Has (m.page q i) PTE_V → lvl q = some k := by
    intro q k i hq hi
    have hqp : q ≠ pg := by
      intro heq
      rw [heq, hzero i] at hi
      exact absurd hi (by decide)
    rwa [update_of_ne hqp] at hq
  refine ⟨?_, ?_, ?_, h.nodup⟩
  · intro q k hq i hi
    obtain ⟨c, hc, hlc, he⟩ := h.table q k (hcases q _ i hq hi) i hi
    exact ⟨c, hc, hold c k hlc, he⟩
  · intro q hq i hi
    exact h.leaf q (hcases q _ i hq hi) i hi
  · intro p hp
    obtain ⟨hpage, hl⟩ := h.free p hp
    have hne : p ≠ pg := fun heq => hnew (heq ▸ hp)
    refine ⟨hpage, ?_⟩
    rw [update_of_ne hne]
    exact hl

theorem set_pointer (h : Levels m lvl) {c : UInt64} (hpt : lvl pt = some (l + 1))
    (hc : lvl c = some l) (hpage : IsPage c) (i : Fin 512) :
    Levels (m.setWord pt i (PA2PTE c ||| PTE_V)) lvl := by
  refine ⟨?_, ?_, h.free, h.nodup⟩
  · intro q k hq j hj
    rw [setWord_page] at hj ⊢
    by_cases hwritten : q = pt ∧ j = i
    · rw [if_pos hwritten]
      have hk : k = l := by
        rw [hwritten.1, hpt] at hq
        have := Option.some.inj hq
        omega
      exact ⟨c, hpage, hk ▸ hc, rfl⟩
    · rw [if_neg hwritten] at hj ⊢
      exact h.table q k hq j hj
  · intro q hq j hj
    have hqt : q ≠ pt := by
      intro heq
      rw [heq, hpt] at hq
      cases hq
    rw [setWord_page, if_neg fun h' => hqt h'.1] at hj ⊢
    exact h.leaf q hq j hj

theorem set_leaf (h : Levels m lvl) {f : UInt64} (hpt : lvl pt = some 0)
    (hpa : pa.toNat < 2 ^ 56) (hf : f.toNat < 1024) (i : Fin 512) :
    Levels (m.setWord pt i (PA2PTE pa ||| f)) lvl := by
  refine ⟨?_, ?_, h.free, h.nodup⟩
  · intro q k hq j hj
    have hqt : q ≠ pt := by
      intro heq
      rw [heq, hpt] at hq
      cases hq
    rw [setWord_page, if_neg fun h' => hqt h'.1] at hj ⊢
    exact h.table q k hq j hj
  · intro q hq j hj
    rw [setWord_page] at hj ⊢
    by_cases hwritten : q = pt ∧ j = i
    · rw [if_pos hwritten]
      exact ⟨pa, f, hpa, hf, rfl⟩
    · rw [if_neg hwritten] at hj ⊢
      exact h.leaf q hq j hj

end Levels

/-! ## The functions keep the levels -/

/-- Panics are not restricted. -/
abbrev AnyEnd : Option String → Mem → Prop := fun _ _ => True

abbrev NoSleep : Mem → Prop := fun _ => True

theorem kalloc_levels (h : Levels m lvl) :
    kalloc.ensures NoSleep AnyEnd (fun r m' => Levels m' lvl ∧
      ∀ pg, r = some pg → IsPage pg ∧ lvl pg = none ∧ pg ∉ m'.free ∧ ∀ i, m'.page pg i = 0) m := by
  unfold kalloc
  rw [ensures_step]
  cases hfree : m.free with
  | nil => exact ⟨h, by simp⟩
  | cons pg rest =>
    obtain ⟨hpage, hl⟩ := h.free pg (hfree ▸ List.mem_cons_self)
    refine ⟨(h.tail hfree).update_page hl _, ?_⟩
    intro q hq
    cases hq
    refine ⟨hpage, hl, ?_, ?_⟩
    · have hnodup := h.nodup
      rw [hfree] at hnodup
      exact (List.nodup_cons.mp hnodup).1
    · intro i
      simp [Mem.fill]

theorem walkFrom_levels (va : UInt64) (alloc : Bool) (h : Levels m lvl) (hpt : lvl pt = some l) :
    (walkFrom va alloc l pt).ensures NoSleep AnyEnd (fun r m' => ∃ lvl', Levels m' lvl' ∧
      Extends lvl lvl' ∧ ∀ t i, r = some (t, i) → lvl' t = some 0) m := by
  induction l generalizing m lvl pt with
  | zero =>
    refine ⟨lvl, h, .refl lvl, ?_⟩
    intro t i ht
    cases ht
    exact hpt
  | succ l ih =>
    unfold walkFrom
    rw [ensures_bind, ensures_gets]
    by_cases hv : Has (m.page pt (PX (l + 1) va)) PTE_V
    · rw [if_pos hv]
      obtain ⟨c, hc, hlc, he⟩ := h.table pt l hpt _ hv
      rw [he, PTE2PA_PA2PTE hc (by decide)]
      exact ih h hlc
    · rw [if_neg hv]
      cases alloc with
      | false => exact ⟨lvl, h, .refl lvl, by simp⟩
      | true =>
        rw [if_pos rfl]
        refine ensures_seq (kalloc_levels h) ?_
        rintro r m1 ⟨h1, hr⟩
        cases r with
        | none => exact ⟨lvl, h1, .refl lvl, by simp⟩
        | some pg =>
          obtain ⟨hpage, hl, hnew, hzero⟩ := hr pg rfl
          simp only [ensures_bind, ensures_modify]
          have hfill : Levels (m1.fill pg 0) lvl := h1.update_page hl _
          have hext := Extends.update hl l
          have hself : update lvl pg (some l) pg = some l := update_self pg _ _
          have hadopt := hfill.adopt hl hnew (fun i => by simp [Mem.fill]) l
          have hlink := hadopt.set_pointer (hext pt _ hpt) hself hpage (PX (l + 1) va)
          refine ensures_mono (ih hlink hself) ?_
          rintro r m2 ⟨lvl', h2, hext', hr'⟩
          exact ⟨lvl', h2, hext.trans hext', hr'⟩

theorem walk_levels (pt va : UInt64) (alloc : Bool) (h : Levels m lvl) (hpt : lvl pt = some 2) :
    (walk pt va alloc).ensures NoSleep AnyEnd (fun r m' => ∃ lvl', Levels m' lvl' ∧
      Extends lvl lvl' ∧ ∀ t i, r = some (t, i) → lvl' t = some 0) m := by
  unfold walk
  split
  · trivial
  · exact walkFrom_levels va alloc h hpt

theorem mapPage_levels (hperm : perm.toNat < 1024) (hpa : pa.toNat < 2 ^ 56)
    (a : UInt64) (h : Levels m lvl) (hpt : lvl pt = some 2) :
    (mapPage pt perm a pa).ensures NoSleep AnyEnd
      (fun _ m' => ∃ lvl', Levels m' lvl' ∧ Extends lvl lvl') m := by
  unfold mapPage
  refine ensures_seq (walk_levels pt a true h hpt) ?_
  rintro r m1 ⟨lvl1, h1, hext, hr⟩
  cases r with
  | none => exact ⟨lvl1, h1, hext⟩
  | some p =>
    obtain ⟨t, i⟩ := p
    simp only [ensures_bind, ensures_gets]
    split
    · trivial
    · have hf : (perm ||| PTE_V).toNat < 1024 := by
        rw [UInt64.toNat_or]
        exact Nat.or_lt_two_pow (n := 10) hperm (by decide)
      have hleaf := h1.set_leaf (hr t i rfl) hpa hf i
      rw [← UInt64.or_assoc] at hleaf
      exact ⟨lvl1, hleaf, hext⟩

theorem mapLoop_levels (hperm : perm.toNat < 1024) {n : Nat} {a : UInt64}
    (hpa : ∀ k ≤ n, (pa + 4096 * UInt64.ofNat k).toNat < 2 ^ 56) (h : Levels m lvl)
    (hpt : lvl pt = some 2) :
    (mapLoop pt perm n a pa).ensures NoSleep AnyEnd
      (fun _ m' => ∃ lvl', Levels m' lvl' ∧ Extends lvl lvl') m := by
  have hfirst : pa.toNat < 2 ^ 56 := by simpa using hpa 0 (Nat.zero_le n)
  induction n generalizing m lvl a pa with
  | zero => exact mapPage_levels hperm hfirst a h hpt
  | succ n ih =>
    refine ensures_seq (mapPage_levels hperm hfirst a h hpt) ?_
    rintro ok m1 ⟨lvl1, h1, hext⟩
    cases ok with
    | false => exact ⟨lvl1, h1, hext⟩
    | true =>
      have hnext : ∀ k ≤ n, (pa + 4096 + 4096 * UInt64.ofNat k).toNat < 2 ^ 56 := by
        intro k hk
        have hsucc := hpa (k + 1) (Nat.succ_le_succ hk)
        have heq : pa + 4096 * UInt64.ofNat (k + 1) = pa + 4096 + 4096 * UInt64.ofNat k := by
          rw [UInt64.ofNat_add, UInt64.mul_add, UInt64.add_assoc pa 4096,
            UInt64.add_comm (4096 * UInt64.ofNat k)]
          rfl
        rwa [heq] at hsucc
      have hfirst' : (pa + 4096).toNat < 2 ^ 56 := by simpa using hnext 0 (Nat.zero_le n)
      refine ensures_mono (ih hnext h1 (hext pt 2 hpt) hfirst') ?_
      rintro ok m2 ⟨lvl2, h2, hext'⟩
      exact ⟨lvl2, h2, hext.trans hext'⟩

/-- The number of rounds that `mappages` makes after the first one. -/
def rounds (va size : UInt64) : Nat :=
  (PGROUNDDOWN (va + size - 1) - PGROUNDDOWN va).toNat / PGSIZE

theorem mappages_levels {size : UInt64} (hperm : perm.toNat < 1024)
    (hpa : ∀ k ≤ rounds va size, (pa + 4096 * UInt64.ofNat k).toNat < 2 ^ 56) (h : Levels m lvl)
    (hpt : lvl pt = some 2) :
    (mappages pt va size pa perm).ensures NoSleep AnyEnd
      (fun _ m' => ∃ lvl', Levels m' lvl' ∧ Extends lvl lvl') m := by
  unfold mappages
  split
  · trivial
  · exact mapLoop_levels hperm hpa h hpt

theorem uvmcreate_levels (h : Levels m lvl) :
    uvmcreate.ensures NoSleep AnyEnd (fun r m' => ∃ lvl', Levels m' lvl' ∧ Extends lvl lvl' ∧
      ∀ pt, r = some pt → IsPage pt ∧ lvl' pt = some 2) m := by
  unfold uvmcreate
  refine ensures_seq (kalloc_levels h) ?_
  rintro r m1 ⟨h1, hr⟩
  cases r with
  | none => exact ⟨lvl, h1, .refl lvl, by simp⟩
  | some pg =>
    obtain ⟨hpage, hl, hnew, hzero⟩ := hr pg rfl
    have hfill : Levels (m1.fill pg 0) lvl := h1.update_page hl _
    refine ⟨_, hfill.adopt hl hnew (fun i => by simp [Mem.fill]) 2, .update hl 2, ?_⟩
    intro pt hpt
    cases hpt
    exact ⟨hpage, update_self pg _ _⟩

/-! ## Tables built by `mappages` -/

/-- The memory `m` was reached from `m₀` by creating the tables `rs` and mapping pages in them. -/
inductive Built (m₀ : Mem) : Mem → List UInt64 → Prop
  | start : Built m₀ m₀ []
  | create {m m' : Mem} {rs : List UInt64} {r : UInt64} (h : Built m₀ m rs)
      (hrun : uvmcreate.run m = .done (some r) m') : Built m₀ m' (r :: rs)
  | map {m m' : Mem} {rs : List UInt64} {r va size pa perm : UInt64} {ok : Bool} (h : Built m₀ m rs)
      (hr : r ∈ rs) (hperm : perm.toNat < 1024)
      (hpa : ∀ k ≤ rounds va size, (pa + 4096 * UInt64.ofNat k).toNat < 2 ^ 56)
      (hrun : (mappages r va size pa perm).run m = .done ok m') : Built m₀ m' rs

/-- The free list at the start: distinct pages. -/
def GoodFree (m : Mem) : Prop := (∀ pg ∈ m.free, IsPage pg) ∧ m.free.Nodup

theorem Built.levels {m0 : Mem} {rs : List UInt64} (hfree : GoodFree m0) (h : Built m0 m rs) :
    ∃ lvl, Levels m lvl ∧ ∀ r ∈ rs, IsPage r ∧ lvl r = some 2 := by
  induction h with
  | start =>
    refine ⟨fun _ => none, ⟨by simp, by simp, ?_, hfree.2⟩, by simp⟩
    exact fun pg hpg => ⟨hfree.1 pg hpg, rfl⟩
  | create h hrun ih =>
    obtain ⟨lvl, hl, hrs⟩ := ih
    obtain ⟨lvl', hl', hext, hr⟩ := of_run_eq_done (uvmcreate_levels hl) hrun
    refine ⟨lvl', hl', ?_⟩
    intro q hq
    rcases List.mem_cons.mp hq with rfl | hq
    · exact hr q rfl
    · exact ⟨(hrs q hq).1, hext q 2 (hrs q hq).2⟩
  | map h hr hperm hpa hrun ih =>
    obtain ⟨lvl, hl, hrs⟩ := ih
    obtain ⟨lvl', hl', hext⟩ := of_run_eq_done (mappages_levels hperm hpa hl (hrs _ hr).2) hrun
    exact ⟨lvl', hl', fun q hq => ⟨(hrs q hq).1, hext q 2 (hrs q hq).2⟩⟩

/-! ## Agreement -/

theorem vpn_eq_PX (level : Nat) (va : UInt64) : Sv39.vpn level va = PX level va := rfl

/-- The flags as the hardware tests them. -/
theorem bit_eq_has (e : UInt64) {i : Nat} {flag : UInt64} (hflag : flag.toNat = 2 ^ i) :
    Sv39.bit e i = decide (Has e flag) := by
  have hiff : Sv39.bit e i = true ↔ Has e flag := by
    unfold Sv39.bit Has
    rw [Ne, ← UInt64.toNat_inj, UInt64.toNat_and, hflag, Nat.and_two_pow]
    cases e.toNat.testBit i <;> simp
  rw [Bool.eq_iff_iff, hiff, decide_eq_true_iff]

theorem has_or (e a b : UInt64) : Has e (a ||| b) ↔ Has e a ∨ Has e b := by
  unfold Has
  rw [← not_and_or, not_iff_not, ← UInt64.toNat_inj, ← UInt64.toNat_inj, ← UInt64.toNat_inj]
  simp only [UInt64.toNat_and, UInt64.toNat_or, Nat.and_or_distrib_left]
  exact Nat.or_eq_zero_iff

/-- What the hardware makes of a leaf. -/
def target (e : UInt64) : Option Sv39.Target :=
  if Has e PTE_W ∧ ¬ Has e PTE_R then none
  else some ⟨(PTE2PA e).toNat / 4096, Has e PTE_R, Has e PTE_W, Has e PTE_X, Has e PTE_U⟩

theorem hw_eq (hpt : IsPage pt) : m.hw (pt.toNat / 4096) = m.page pt := by
  unfold Mem.hw
  have haligned : pt.toNat / 4096 * 4096 = pt.toNat := by
    have := hpt.1
    omega
  rw [haligned, UInt64.ofNat_toNat]

theorem ppn_eq {e : UInt64} (he : e.toNat < 2 ^ 54) : Sv39.ppn e = (PTE2PA e).toNat / 4096 := by
  rw [Sv39.ppn, toNat_PTE2PA he]
  omega

theorem faulty_iff {e : UInt64} (hv : Has e PTE_V) (hlt : e.toNat < 2 ^ 54) :
    Sv39.Faulty e ↔ Has e PTE_W ∧ ¬ Has e PTE_R := by
  unfold Sv39.Faulty
  rw [@bit_eq_has e 0 PTE_V rfl, @bit_eq_has e 1 PTE_R rfl, @bit_eq_has e 2 PTE_W rfl]
  simp only [decide_eq_false_iff_not, decide_eq_true_iff, hv, not_true, false_or]
  constructor
  · rintro (⟨hr, hw⟩ | hbig)
    · exact ⟨hw, hr⟩
    · omega
  · rintro ⟨hw, hr⟩
    exact .inl ⟨hr, hw⟩

theorem translateFrom_zero (hpt : IsPage pt) (hleaf : IsLeaf (m.page pt (PX 0 va)))
    (hlt : (m.page pt (PX 0 va)).toNat < 2 ^ 54) :
    Sv39.translateFrom m.hw va 0 (pt.toNat / 4096) = target (m.page pt (PX 0 va)) := by
  unfold Sv39.translateFrom target
  rw [hw_eq hpt, vpn_eq_PX]
  obtain ⟨e, he⟩ : ∃ e, e = m.page pt (PX 0 va) := ⟨_, rfl⟩
  rw [← he] at hleaf hlt ⊢
  have hfaulty := faulty_iff hleaf.1 hlt
  by_cases hres : Has e PTE_W ∧ ¬ Has e PTE_R
  · simp only [if_pos hres, if_pos (hfaulty.mpr hres)]
  · have hread : Has e PTE_R ∨ Has e PTE_X := by
      have hsome := hleaf.2
      rw [has_or, has_or] at hsome
      tauto
    simp only [if_neg hres, if_neg (mt hfaulty.mp hres), @bit_eq_has e 1 PTE_R rfl,
      @bit_eq_has e 2 PTE_W rfl, @bit_eq_has e 3 PTE_X rfl, @bit_eq_has e 4 PTE_U rfl,
      decide_eq_true_iff, if_pos hread, ppn_eq hlt, Nat.mul_zero, Nat.pow_zero, Nat.mod_one,
      ne_eq, not_true, if_false, Nat.add_zero]

theorem translateFrom_succ {c : UInt64} (hpt : IsPage pt) (hc : IsPage c)
    (he : m.page pt (PX (l + 1) va) = PA2PTE c ||| PTE_V) :
    Sv39.translateFrom m.hw va (l + 1) (pt.toNat / 4096) =
      Sv39.translateFrom m.hw va l (c.toNat / 4096) := by
  have hone : PTE_V.toNat < 1024 := by decide
  have hflag : ∀ flag, 0x3FF &&& flag = flag → ¬ Has PTE_V flag → ¬ Has (PA2PTE c ||| PTE_V) flag := by
    intro flag hf hno
    rw [has_PA2PTE hone hf]
    exact hno
  have hlt : (PA2PTE c ||| PTE_V).toNat < 2 ^ 54 := by
    rw [toNat_PA2PTE_or hone]
    have := hc.2
    omega
  have hv : Has (PA2PTE c ||| PTE_V) PTE_V := (has_PA2PTE hone (by decide)).mpr (by decide)
  have hr := hflag PTE_R (by decide) (by decide)
  have hw := hflag PTE_W (by decide) (by decide)
  have hx := hflag PTE_X (by decide) (by decide)
  have hu := hflag PTE_U (by decide) (by decide)
  have ha := hflag 64 (by decide) (by decide)
  have hd := hflag 128 (by decide) (by decide)
  have hfaulty : ¬ Sv39.Faulty (PA2PTE c ||| PTE_V) := fun hf => hw ((faulty_iff hv hlt).mp hf).1
  conv_lhs => unfold Sv39.translateFrom
  rw [hw_eq hpt, vpn_eq_PX, he]
  simp only [if_neg hfaulty, @bit_eq_has _ 1 PTE_R rfl, @bit_eq_has _ 3 PTE_X rfl,
    @bit_eq_has _ 4 PTE_U rfl, @bit_eq_has _ 6 64 rfl, @bit_eq_has _ 7 128 rfl, hr, hx, hu, ha, hd,
    decide_false, Bool.false_eq_true, or_self, if_false, ppn_eq hlt, PTE2PA_PA2PTE hc hone]

/-- Where `walk` finds a leaf, the hardware finds the same one. -/
theorem walkFrom_agrees (va : UInt64) (h : Levels m lvl) (hpt : lvl pt = some l) (hpage : IsPage pt) :
    (walkFrom va false l pt).ensures NoSleep AnyEnd (fun r m' => m' = m ∧
      ∀ t i, r = some (t, i) → IsLeaf (m.page t i) →
        Sv39.translateFrom m.hw va l (pt.toNat / 4096) = target (m.page t i)) m := by
  induction l generalizing pt with
  | zero =>
    refine ⟨rfl, ?_⟩
    intro t i ht hleaf
    cases ht
    refine translateFrom_zero hpage hleaf ?_
    obtain ⟨pa, f, hpa, hf, he⟩ := h.leaf pt hpt _ hleaf.1
    rw [he, toNat_PA2PTE_or hf]
    omega
  | succ l ih =>
    unfold walkFrom
    rw [ensures_bind, ensures_gets]
    by_cases hv : Has (m.page pt (PX (l + 1) va)) PTE_V
    · rw [if_pos hv]
      obtain ⟨c, hc, hlc, he⟩ := h.table pt l hpt _ hv
      rw [translateFrom_succ hpage hc he, he, PTE2PA_PA2PTE hc (by decide)]
      exact ih hlc hc
    · rw [if_neg hv]
      exact ⟨rfl, by simp⟩

theorem toNat_MAKE_SATP {r : UInt64} (hr : IsPage r) : (MAKE_SATP r).toNat = 8 * 2 ^ 60 + r.toNat / 4096 := by
  have hlt := hr.2
  have h12 : (12 : UInt64).toNat % 64 = 12 := rfl
  have h8 : ((8 : UInt64) <<< 60).toNat = 8 <<< 60 := by decide
  rw [MAKE_SATP, UInt64.toNat_or, UInt64.toNat_shiftRight, h12, h8, Nat.shiftRight_eq_div_pow,
    Nat.or_comm, ← Nat.shiftLeft_add_eq_or_of_lt (by omega : r.toNat / 2 ^ 12 < 2 ^ 60),
    Nat.shiftLeft_eq]
  rfl

/-- Where `walk` finds a leaf, the hardware translates the address to the same page with the same
permissions exactly when the address is below `2 ^ 38` and the leaf has no reserved encoding. The
trampoline, the trap frame and the kernel stacks are above, under every table. -/
theorem translates_iff {m₀ : Mem} {rs : List UInt64} (hfree : GoodFree m₀) (hbuilt : Built m₀ m rs)
    {r va t : UInt64} {i : Fin 512} (hr : r ∈ rs)
    (hwalk : (walk r va false).run m = .done (some (t, i)) m') (hleaf : IsLeaf (m.page t i)) :
    (Sv39.translate m.hw (MAKE_SATP r) va =
        some ⟨(PTE2PA (m.page t i)).toNat / 4096, Has (m.page t i) PTE_R, Has (m.page t i) PTE_W,
          Has (m.page t i) PTE_X, Has (m.page t i) PTE_U⟩ ↔
      va.toNat < 2 ^ 38 ∧ ¬ (Has (m.page t i) PTE_W ∧ ¬ Has (m.page t i) PTE_R)) ∧
    ∀ satp, Sv39.translate m.hw satp (UInt64.ofNat TRAMPOLINE) = none ∧
      Sv39.translate m.hw satp (UInt64.ofNat TRAPFRAME) = none ∧
      ∀ k < NPROC, Sv39.translate m.hw satp (UInt64.ofNat (KSTACK k)) = none := by
  have hhigh : ∀ satp va, 2 ^ 38 ≤ va → va < 2 ^ 39 → Sv39.translate m.hw satp (UInt64.ofNat va) = none := by
    intro satp va hle hlt
    unfold Sv39.translate
    rw [if_neg]
    rintro ⟨-, hcanon⟩
    have hva : (UInt64.ofNat va).toNat = va := by
      rw [UInt64.toNat_ofNat']
      exact Nat.mod_eq_of_lt (by omega)
    unfold Sv39.Canonical at hcanon
    omega
  refine ⟨?_, ?_⟩
  · obtain ⟨lvl, hl, hrs⟩ := hbuilt.levels hfree
    obtain ⟨hpage, hlr⟩ := hrs r hr
    have hmax : va.toNat < 2 ^ 39 := by
      by_contra hge
      unfold walk at hwalk
      rw [if_pos (show 2 ^ 39 ≤ va.toNat from Nat.le_of_not_lt hge)] at hwalk
      cases hwalk
    have hagree : Sv39.translateFrom m.hw va 2 (r.toNat / 4096) = target (m.page t i) := by
      unfold walk at hwalk
      rw [if_neg (show ¬ 2 ^ 39 ≤ va.toNat from Nat.not_le_of_lt hmax)] at hwalk
      exact (of_run_eq_done (walkFrom_agrees va hl hlr hpage) hwalk).2 t i rfl hleaf
    have hsatp := toNat_MAKE_SATP hpage
    have hlt := hpage.2
    have hmode : (MAKE_SATP r).toNat / 2 ^ 60 = 8 := by omega
    have hroot : (MAKE_SATP r).toNat % 2 ^ 44 = r.toNat / 4096 := by omega
    have hcanon : Sv39.Canonical va ↔ va.toNat < 2 ^ 38 := by
      unfold Sv39.Canonical
      omega
    unfold target at hagree
    unfold Sv39.translate
    rw [hmode, hroot, hagree]
    by_cases hva : va.toNat < 2 ^ 38
    · rw [if_pos ⟨rfl, hcanon.mpr hva⟩]
      by_cases hres : Has (m.page t i) PTE_W ∧ ¬ Has (m.page t i) PTE_R
      · rw [if_pos hres]
        exact ⟨nofun, fun h => absurd hres h.2⟩
      · rw [if_neg hres]
        exact ⟨fun _ => ⟨hva, hres⟩, fun _ => rfl⟩
    · rw [if_neg fun h => hva (hcanon.mp h.2)]
      exact ⟨nofun, fun h => absurd h.1 hva⟩
  · intro satp
    refine ⟨hhigh satp _ (by decide) (by decide), hhigh satp _ (by decide) (by decide), ?_⟩
    intro k hk
    have hstack : KSTACK k = 2 ^ 39 - 4096 - (k + 1) * 2 * 4096 := rfl
    have hk' : k < 64 := hk
    exact hhigh satp _ (by omega) (by omega)

def threePages : Mem := ⟨fun _ _ => 0, [0x80100000, 0x80101000, 0x80102000], 0x80100000⟩

theorem goodFree_threePages : GoodFree threePages := by
  refine ⟨?_, ?_⟩
  · intro pg hpg
    simp only [threePages, List.mem_cons, List.not_mem_nil, or_false] at hpg
    rcases hpg with rfl | rfl | rfl
    · exact ⟨rfl, by decide⟩
    · exact ⟨rfl, by decide⟩
    · exact ⟨rfl, by decide⟩
  · simp [threePages]

def memAfter {α : Type} (x : Prog Mem α) (m : Mem) : Mem :=
  match x.run m with
  | .done _ m' => m'
  | .panicked _ m' => m'
  | .stuck m' => m'

/-- A table in the first of the pages, with one page mapped. -/
def onePage (va perm : UInt64) : Mem :=
  memAfter (mappages 0x80100000 va 4096 0x80200000 perm) (memAfter uvmcreate threePages)

theorem built_onePage (hperm : perm.toNat < 1024) (hva : rounds va 4096 = 0)
    (hrun : (mappages 0x80100000 va 4096 0x80200000 perm).run (memAfter uvmcreate threePages) =
      .done true (onePage va perm)) : Built threePages (onePage va perm) [0x80100000] := by
  refine .map (.create .start rfl) List.mem_cons_self hperm ?_ hrun
  intro k hk
  rw [hva, Nat.le_zero] at hk
  rw [hk]
  decide

/-- A page that is mapped for reading at address `4096` is reached there. -/
theorem translates_onePage :
    GoodFree threePages ∧ Built threePages (onePage 4096 PTE_R) [0x80100000] ∧
    Sv39.translate (onePage 4096 PTE_R).hw (MAKE_SATP 0x80100000) 4096 =
      some ⟨0x80200, true, false, false, false⟩ := by
  have hbuilt := @built_onePage PTE_R 4096 (by decide) (by decide) rfl
  refine ⟨goodFree_threePages, hbuilt, ?_⟩
  have hwalk : (walk 0x80100000 4096 false).run (onePage 4096 PTE_R) =
      .done (some (0x80102000, 1)) (onePage 4096 PTE_R) := rfl
  have hleaf : IsLeaf ((onePage 4096 PTE_R).page 0x80102000 1) := by decide +kernel
  have h := (translates_iff goodFree_threePages hbuilt List.mem_cons_self hwalk hleaf).1
  exact h.mpr (by decide +kernel)

/-- `walk` finds the trampoline page of a table, the hardware does not. -/
theorem trampoline_unreachable :
    Built threePages (onePage (UInt64.ofNat TRAMPOLINE) (PTE_R ||| PTE_X)) [0x80100000] ∧
    (walk 0x80100000 (UInt64.ofNat TRAMPOLINE) false).run
      (onePage (UInt64.ofNat TRAMPOLINE) (PTE_R ||| PTE_X)) =
        .done (some (0x80102000, 511)) (onePage (UInt64.ofNat TRAMPOLINE) (PTE_R ||| PTE_X)) ∧
    IsLeaf ((onePage (UInt64.ofNat TRAMPOLINE) (PTE_R ||| PTE_X)).page 0x80102000 511) ∧
    Sv39.translate (onePage (UInt64.ofNat TRAMPOLINE) (PTE_R ||| PTE_X)).hw (MAKE_SATP 0x80100000)
      (UInt64.ofNat TRAMPOLINE) = none := by
  refine ⟨built_onePage (by decide) (by decide) rfl, rfl, ?_, ?_⟩
  · decide +kernel
  · decide +kernel

end Xv6.Vm
