import Xv6.Kernel.CopyOut
import Xv6.Kernel.Rollback

/-!
# `sys_pipe`

The call takes two entries of the file table, a page and two descriptors, and then copies the two descriptors to the
user. When one of these fails, everything that was taken before is given back: the tables and the free list are the same
as before the call.
-/

namespace Xv6.Kernel

open Data Coop Prog Vm Function
open Process (Slot)

/-- The descriptor as an integer in memory. -/
def fdBytes (fd : Fin NOFILE) : Fin 4 → UInt8 := fun k => UInt8.ofNat (fd.val / 256 ^ k.val)

/-- The result with the value that is returned; `x` is the memory of the process. -/
def Sys.sysPipeAt (s : Sys) (p : Slot) (x : Space) (addr : UInt64) : Option (Int × Sys) := do
  let (r, s) ← s.pipealloc
  match r with
  | none => pure (-1, s)
  | some (rf, wf) =>
    match s.fdalloc p rf with
    | none => do
      let s ← s.closeBoth rf wf
      pure (-1, s)
    | some (fd0, s) =>
      match s.fdalloc p wf with
      | none => do
        let s ← (s.setOfile p fd0 none).closeBoth rf wf
        pure (-1, s)
      | some (fd1, s) => do
        let (ok, s) ← s.runMem (copyouts x.pagetable (OutCall.pipe addr (fdBytes fd0) (fdBytes fd1)).copies)
        if ok then pure (0, s)
        else do
          let s ← ((s.setOfile p fd0 none).setOfile p fd1 none).closeBoth rf wf
          pure (-1, s)

variable {s s' : Sys} {p : Slot} {x : Space} {addr pi : UInt64} {rf wf : Fin NFILE} {m m' : Mem} {rest : List UInt64}

/-- The descriptors, the entries of the file table and the free pages are the same. -/
structure Unchanged (s s' : Sys) : Prop where
  ofile : s'.ofile = s.ofile
  file : s'.file = s.file
  free : s'.mem.free = s.mem.free

/-- Two descriptors, two entries and one page are taken, and the user knows the descriptors. -/
structure PipeMade (s s' : Sys) (p : Slot) (x : Space) (addr : UInt64) (fd0 fd1 : Fin NOFILE) (rf wf : Fin NFILE)
    (pi : UInt64) : Prop where
  fds : fd1 ≠ fd0 ∧ s.ofile p fd0 = none ∧ s.ofile p fd1 = none
  ofile : s'.ofile = update s.ofile p (update (update (s.ofile p) fd0 (some rf)) fd1 (some wf))
  files : wf ≠ rf ∧ s.file rf = ⟨0, none⟩ ∧ s.file wf = ⟨0, none⟩
  file : s'.file = update (update s.file rf ⟨1, some (pi, false)⟩) wf ⟨1, some (pi, true)⟩
  free : s.mem.free = pi :: s'.mem.free
  first : ∀ k : Fin 4, userByteAt s'.mem x.pagetable (addr.toNat + k) = some (fdBytes fd0 k)
  second : ∀ k : Fin 4, userByteAt s'.mem x.pagetable (addr.toNat + 4 + k) = some (fdBytes fd1 k)

/-- What the kernel knows when a process with memory `x` calls: an unused entry of the file table has no type, free pages
can be freed again, and the user has its pages for itself. -/
structure Sane (s : Sys) (x : Space) : Prop where
  unused : ∀ f, (s.file f).ref = 0 → (s.file f).pipe = none
  ram : ∀ pg ∈ s.mem.free, Ram s.mem.kend pg
  tabs : ∀ pg ∈ tabs s.mem 2 x.pagetable, pg ∉ s.mem.free
  table : UserTable s.mem x.pagetable
  user : ∀ a q, userAddr s.mem x.pagetable a = some q → q.1 ∉ s.mem.free
  inj : ∀ a b q, userAddr s.mem x.pagetable a = some q → userAddr s.mem x.pagetable b = some q → a = b

/-! ## The page -/

theorem runMem_of_done {α : Type} {z : Prog Mem α} {a : α} (h : z.run s.mem = .done a m) :
    s.runMem z = some (a, { s with mem := m }) := by
  unfold Sys.runMem
  rw [h]

theorem kfree_run (h : Ram m.kend pi) : (kfree pi).run m = .done () { m.fill pi poison with free := pi :: m.free } := by
  have hno : ¬ (pi.toNat % PGSIZE ≠ 0 ∨ pi < m.kend ∨ PHYSTOP ≤ pi.toNat) := by
    obtain ⟨halign, hlow, hhigh⟩ := h
    rw [not_or, not_or]
    exact ⟨not_not.mpr halign, UInt64.not_lt.mpr hlow, Nat.not_le.mpr hhigh⟩
  rw [kfree, Prog.step, act_run, if_neg hno]
  rfl

theorem pipeclose_run (m : Mem) (pi : UInt64) (w : Bool) : (pipeclose pi w).run m =
    if m.page pi (endWord !w) = 0 then (kfree pi >>= fun _ => pure true).run (m.setWord pi (endWord w) 0)
    else .done false (m.setWord pi (endWord w) 0) := by
  have hset : (modify (·.setWord pi (endWord w) 0) : Prog Mem Unit).run m = .done () (m.setWord pi (endWord w) 0) := rfl
  have hgets : ∀ m : Mem, (gets fun m => decide (m.page pi 0 = 0 ∧ m.page pi 1 = 0) : Prog Mem Bool).run m =
      .done (decide (m.page pi 0 = 0 ∧ m.page pi 1 = 0)) m := fun _ => rfl
  rw [pipeclose, run_bind_of_done hset, run_bind_of_done (hgets _)]
  simp only [both_zero_iff _ pi w, setWord_page_self, setWord_page_other (endWord_not w), true_and, decide_eq_true_iff]
  split
  · rfl
  · rfl

theorem fileclose_plain (h : s.file rf = ⟨0, none⟩) : (s.setFile rf ⟨1, none⟩).fileclose rf = some s := by
  have hback : (s.setFile rf ⟨1, none⟩).setFile rf ⟨0, none⟩ = s := by simp [Sys.setFile, ← h]
  simp [Sys.fileclose, setFile_self s rf, hback]

theorem fileclose_pipe {w freed : Bool} (h : s.file rf = ⟨1, some (pi, w)⟩)
    (hrun : (pipeclose pi w).run s.mem = .done freed m) : ∃ s', s.fileclose rf = some s' ∧ s'.ofile = s.ofile ∧
      s'.file = update s.file rf ⟨0, none⟩ ∧ s'.mem = m := by
  have hmem := runMem_of_done (s := s.setFile rf ⟨0, none⟩) hrun
  refine ⟨{ s.setFile rf ⟨0, none⟩ with mem := m }.note (.closed pi w freed), ?_, rfl, rfl, rfl⟩
  simp [Sys.fileclose, h, hmem]

/-- The first of the two ends is closed, then the second one, and the page is free. -/
theorem closeBoth_new (hne : wf ≠ rf) (hr : s.file rf = ⟨1, some (pi, false)⟩) (hw : s.file wf = ⟨1, some (pi, true)⟩)
    (hopen : s.mem.page pi (endWord true) = 1) (hram : Ram s.mem.kend pi) :
    ∃ s', s.closeBoth rf wf = some s' ∧ s'.ofile = s.ofile ∧
      s'.file = update (update s.file rf ⟨0, none⟩) wf ⟨0, none⟩ ∧ s'.mem.free = pi :: s.mem.free := by
  have hfirst : (pipeclose pi false).run s.mem = .done false (s.mem.setWord pi (endWord false) 0) := by
    rw [pipeclose_run, if_neg]
    rw [Bool.not_false, hopen]
    decide
  have hsecond : (pipeclose pi true).run (s.mem.setWord pi (endWord false) 0) = .done true
      { ((s.mem.setWord pi (endWord false) 0).setWord pi (endWord true) 0).fill pi poison with
        free := pi :: s.mem.free } := by
    have hram' : Ram ((s.mem.setWord pi (endWord false) 0).setWord pi (endWord true) 0).kend pi := hram
    have hyes : (s.mem.setWord pi (endWord false) 0).page pi (endWord !true) = 0 := setWord_page_self _ _ _ _
    rw [pipeclose_run, if_pos hyes, run_bind_of_done (kfree_run hram')]
    rfl
  obtain ⟨s1, hs1, hofile1, hfile1, hmem1⟩ := fileclose_pipe hr hfirst
  rw [← hmem1] at hsecond
  obtain ⟨s2, hs2, hofile2, hfile2, hmem2⟩ := fileclose_pipe (by rw [hfile1, update_of_ne hne, hw]) hsecond
  refine ⟨s2, ?_, hofile2.trans hofile1, by rw [hfile2, hfile1], by rw [hmem2]⟩
  rw [Sys.closeBoth, hs1]
  exact hs2

/-! ## The allocations -/

theorem kalloc_run (m : Mem) : kalloc.run m = match m.free with
    | [] => .done none m
    | pg :: rest => .done (some pg) ({ m with free := rest }.fill pg 0) := by
  rw [kalloc, Prog.step, act_run]
  cases m.free with
  | nil => rfl
  | cons pg rest => rfl

/-- Nothing is taken, or the two entries and the first free page. -/
theorem pipealloc_cases (hunused : ∀ f, (s.file f).ref = 0 → (s.file f).pipe = none) :
    (∃ s', s.pipealloc = some (none, s') ∧ Unchanged s s') ∨
      ∃ rf wf pi s', s.pipealloc = some (some (rf, wf), s') ∧ wf ≠ rf ∧ s.file rf = ⟨0, none⟩ ∧ s.file wf = ⟨0, none⟩ ∧
        s'.ofile = s.ofile ∧ s'.file = update (update s.file rf ⟨1, some (pi, false)⟩) wf ⟨1, some (pi, true)⟩ ∧
        s.mem.free = pi :: s'.mem.free ∧ s'.mem.kend = s.mem.kend ∧ s'.mem.page pi (endWord true) = 1 ∧
        ∀ pg, pg ≠ pi → s'.mem.page pg = s.mem.page pg := by
  have hentry : ∀ f, (s.file f).ref = 0 → s.file f = ⟨0, none⟩ := by
    intro f hf
    have heta : s.file f = ⟨(s.file f).ref, (s.file f).pipe⟩ := rfl
    rw [heta, hf, hunused f hf]
  unfold Sys.pipealloc
  cases hrf : s.filealloc with
  | none => exact .inl ⟨s, rfl, rfl, rfl, rfl⟩
  | some r =>
    obtain ⟨rf, s1⟩ := r
    obtain ⟨href, rfl⟩ := filealloc_eq_some hrf
    have hr := hentry rf href
    dsimp only
    cases hwf : (s.setFile rf ⟨1, (s.file rf).pipe⟩).filealloc with
    | none =>
      refine .inl ⟨s, ?_, rfl, rfl, rfl⟩
      rw [hr, fileclose_plain hr]
      rfl
    | some r =>
      obtain ⟨wf, s2⟩ := r
      obtain ⟨hwref, rfl⟩ := filealloc_eq_some hwf
      have hne : wf ≠ rf := by
        rintro rfl
        rw [setFile_self] at hwref
        cases hwref
      rw [setFile_of_ne hne] at hwref
      have hw := hentry wf hwref
      rw [setFile_of_ne hne, hr, hw]
      dsimp only
      cases hfree : s.mem.free with
      | nil =>
        have hdone : kalloc.run s.mem = .done none s.mem := by rw [kalloc_run, hfree]
        have hrun := runMem_of_done (s := (s.setFile rf ⟨1, none⟩).setFile wf ⟨1, none⟩) hdone
        have hcomm : (s.setFile rf ⟨1, none⟩).setFile wf ⟨1, none⟩ = (s.setFile wf ⟨1, none⟩).setFile rf ⟨1, none⟩ := by
          simp [Sys.setFile, update_comm hne]
        refine .inl ⟨s, ?_, rfl, rfl, rfl⟩
        rw [hrun, hcomm]
        show ((s.setFile wf ⟨1, none⟩).setFile rf ⟨1, none⟩).fileclose rf >>= _ = _
        rw [fileclose_plain ((setFile_of_ne hne.symm).trans hr)]
        show (s.setFile wf ⟨1, none⟩).fileclose wf >>= _ = _
        rw [fileclose_plain hw]
        rfl
      | cons pi rest =>
        have hdone : kalloc.run s.mem = .done (some pi) ({ s.mem with free := rest }.fill pi 0) := by
          rw [kalloc_run, hfree]
        have hrun := runMem_of_done (s := (s.setFile rf ⟨1, none⟩).setFile wf ⟨1, none⟩) hdone
        rw [hrun]
        refine .inr ⟨rf, wf, pi, _, rfl, hne, hr, hw, rfl, ?_, rfl, rfl, setWord_page_self _ _ _ _, fun pg hpg => ?_⟩
        · funext f
          by_cases hfw : f = wf
          · subst hfw
            simp [Sys.note, Sys.setFile, hne]
          · by_cases hfr : f = rf
            · subst hfr
              simp [Sys.note, Sys.setFile, hfw]
            · simp [Sys.note, Sys.setFile, hfw, hfr]
        · show (Mem.setWord (Mem.setWord _ pi _ 1) pi _ 1).page pg = _
          rw [setWord_page_of_ne hpg, setWord_page_of_ne hpg]
          simp [Mem.fill, hpg]

/-! ## The copies to the user -/

theorem copyoutBytes_frame (pt : UInt64) (src : List UInt8) (a : Nat) (h : UserTable m pt) :
    (copyoutBytes pt src a m).2.kend = m.kend ∧ ∀ pg, (∀ b q, userAddr m pt b = some q → q.1 ≠ pg) →
      (copyoutBytes pt src a m).2.page pg = m.page pg := by
  induction src generalizing a m with
  | nil => exact ⟨rfl, fun _ _ => rfl⟩
  | cons x xs ih =>
    rw [copyoutBytes]
    cases hu : userAddr m pt a with
    | none => exact ⟨rfl, fun _ _ => rfl⟩
    | some q =>
      obtain ⟨-, hq, -⟩ := h.userAddr hu
      obtain ⟨hkend, hpage⟩ := ih (a + 1) (h.setByte hq q.2 x)
      refine ⟨hkend, fun pg hpg => ?_⟩
      rw [userAddr_setByte hq] at hpage
      exact (hpage pg hpg).trans (setWord_page_of_ne (hpg a q hu).symm)

/-- What a copy to the user at `a` leaves as it was, and what it has written when it succeeds. -/
structure Landed (m m' : Mem) (pt : UInt64) (a : Nat) (src : List UInt8) (ok : Bool) : Prop where
  tables : Same m m' 2 pt
  free : m'.free = m.free
  kend : m'.kend = m.kend
  page : ∀ pg, (∀ b q, userAddr m pt b = some q → q.1 ≠ pg) → m'.page pg = m.page pg
  other : ∀ b, (∀ k < src.length, a + k ≠ b) → userByteAt m' pt b = userByteAt m pt b
  bytes : ok = true → ∀ k < src.length, userByteAt m' pt (a + k) = src[k]?

theorem copyout_lands {pt len : UInt64} {src : List UInt8} (va : UInt64) (h : UserTable m pt)
    (hinj : ∀ a b q, userAddr m pt a = some q → userAddr m pt b = some q → a = b) (hsrc : src.length = len.toNat) :
    ∃ ok m', (copyout pt va src len).run m = .done ok m' ∧ Landed m m' pt va.toNat src ok := by
  obtain ⟨ok, m', hrun, hr⟩ := exists_done_of_ensures (@copyoutLoop_bytes m pt va len h _ src (Nat.le_refl _) hsrc)
  obtain ⟨rfl, rfl⟩ := Prod.mk.inj hr
  obtain ⟨w, hw, hwrites, hfull⟩ := copyoutBytes_writes h src va.toNat
  obtain ⟨hkend, hpage⟩ := copyoutBytes_frame pt src va.toNat h
  refine ⟨_, _, hrun, hwrites.tables, hwrites.free, hkend, hpage, fun b hb => ?_, fun hok k hk => ?_⟩
  · unfold userByteAt
    rw [hwrites.tables.userAddr]
    cases hq : userAddr m pt b with
    | none => rfl
    | some q =>
      obtain ⟨-, -, hoff⟩ := h.userAddr hq
      refine congrArg some (hwrites.other q.1 q.2 ?_ fun k hk hsame => hb k (by omega) (hinj _ _ _ hsame hq))
      rw [hoff]
      exact Nat.mod_lt _ (by decide)
  · obtain rfl := hfull hok
    obtain ⟨q, hq⟩ := Option.ne_none_iff_exists'.mp (hwrites.mapped k hk)
    unfold userByteAt
    rw [hwrites.tables.userAddr, hq]
    refine (hwrites.bytes k hk q.1 q.2 hq fun j hkj hj hsame => ?_).symm
    have := hinj _ _ _ hsame hq
    omega

theorem copyouts_pipe {pt : UInt64} (h : UserTable m pt)
    (hinj : ∀ a b q, userAddr m pt a = some q → userAddr m pt b = some q → a = b) (addr : UInt64) (x y : Fin 4 → UInt8) :
    ∃ ok m', (copyouts pt (OutCall.pipe addr x y).copies).run m = .done ok m' ∧ m'.free = m.free ∧ m'.kend = m.kend ∧
      (∀ pg, (∀ b q, userAddr m pt b = some q → q.1 ≠ pg) → m'.page pg = m.page pg) ∧
      (ok → (∀ k : Fin 4, userByteAt m' pt (addr.toNat + k) = some (x k)) ∧
        ∀ k : Fin 4, userByteAt m' pt (addr.toNat + 4 + k) = some (y k)) := by
  have hlen : ∀ x : Fin 4 → UInt8, (List.ofFn x).length = (UInt64.ofNat (List.ofFn x).length).toNat := by
    intro x
    rw [List.length_ofFn]
    rfl
  have hget : ∀ (x : Fin 4 → UInt8) (k : Fin 4), (List.ofFn x)[k.val]? = some (x k) := by
    intro x k
    rw [List.getElem?_ofFn, dif_pos k.isLt]
  obtain ⟨ok1, m1, hrun1, h1⟩ := copyout_lands addr h hinj (hlen x)
  have hgo : (copyouts pt (OutCall.pipe addr x y).copies).run m =
      (if ok1 then copyouts pt [(addr + 4, List.ofFn y)] else pure false).run m1 := run_bind_of_done hrun1
  cases ok1 with
  | false => exact ⟨false, m1, hgo, h1.free, h1.kend, h1.page, nofun⟩
  | true =>
    have hinj1 := hinj
    rw [← h1.tables.userAddr] at hinj1
    obtain ⟨ok2, m2, hrun2, h2⟩ := copyout_lands (addr + 4) (h.same h1.tables) hinj1 (hlen y)
    have hlast : (copyouts pt [(addr + 4, List.ofFn y)]).run m1 = .done ok2 m2 := by
      have hnext : (copyouts pt [(addr + 4, List.ofFn y)]).run m1 =
          (if ok2 then copyouts pt [] else pure false).run m2 := run_bind_of_done hrun2
      rw [hnext]
      cases ok2 with
      | false => rfl
      | true => rfl
    have hpage2 := h2.page
    rw [h1.tables.userAddr] at hpage2
    refine ⟨ok2, m2, hgo.trans hlast, h2.free.trans h1.free, h2.kend.trans h1.kend,
      fun pg hpg => (hpage2 pg hpg).trans (h1.page pg hpg), fun hok => ?_⟩
    have hfirst : ∀ k : Fin 4, userByteAt m1 pt (addr.toNat + k) = some (x k) := by
      intro k
      rw [h1.bytes rfl k (by rw [List.length_ofFn]; exact k.isLt), hget]
    -- the first byte is mapped, so the address does not wrap around
    have hnext : (addr + 4).toNat = addr.toNat + 4 := by
      obtain ⟨q, hq, -⟩ := Option.map_eq_some_iff.mp (hfirst 0)
      obtain ⟨e, he, -⟩ := leaf_of_userAddr hq
      obtain ⟨hlt, -⟩ := Option.ite_none_right_eq_some.mp he
      have hfour : (4 : UInt64).toNat = 4 := rfl
      rw [UInt64.toNat_add, hfour]
      omega
    have hother := h2.other
    have hbytes := h2.bytes hok
    rw [hnext] at hother hbytes
    refine ⟨fun k => ?_, fun k => ?_⟩
    · rw [hother _ fun j _ => by omega, hfirst]
    · rw [hbytes k (by rw [List.length_ofFn]; exact k.isLt), hget]

/-! ## The call -/

theorem setOfile_setOfile_none {fd : Fin NOFILE} {o : Option (Fin NFILE)} (h : s.ofile p fd = none) :
    ((s.setOfile p fd o).setOfile p fd none).ofile = s.ofile := by
  simp [Sys.setOfile, ← h]

/-- Both ends are closed again after a failure that left the file table and the page as `pipealloc` has made them. -/
theorem closeBoth_back (hofile : s'.ofile = s.ofile) (hne : wf ≠ rf) (hr : s.file rf = ⟨0, none⟩)
    (hw : s.file wf = ⟨0, none⟩)
    (hfile : s'.file = update (update s.file rf ⟨1, some (pi, false)⟩) wf ⟨1, some (pi, true)⟩)
    (hfree : s.mem.free = pi :: s'.mem.free) (hopen : s'.mem.page pi (endWord true) = 1) (hram : Ram s'.mem.kend pi) :
    ∃ s'', s'.closeBoth rf wf = some s'' ∧ Unchanged s s'' := by
  obtain ⟨s'', hs, hofile', hfile', hfree'⟩ := closeBoth_new hne (by simp [hfile, hne.symm])
    (by simp [hfile]) hopen hram
  refine ⟨s'', hs, hofile'.trans hofile, ?_, hfree'.trans hfree.symm⟩
  rw [hfile', hfile]
  funext f
  by_cases hfw : f = wf
  · subst hfw
    simp [hw]
  · by_cases hfr : f = rf
    · subst hfr
      simp [hfw, hr]
    · simp [hfw, hfr]

/-- A call that fails leaves the descriptors, the file table and the free list as they were, and a call that succeeds
takes two descriptors, two entries and a page. -/
theorem sysPipe_rolls_back (h : Sane s x) (p : Slot) (addr : UInt64) :
    ∃ r s', s.sysPipeAt p x addr = some (r, s') ∧
      ((r = -1 ∧ Unchanged s s') ∨ (r = 0 ∧ ∃ fd0 fd1 rf wf pi, PipeMade s s' p x addr fd0 fd1 rf wf pi)) := by
  unfold Sys.sysPipeAt
  rcases pipealloc_cases h.unused with ⟨s', hs, hsame⟩ |
    ⟨rf, wf, pi, s1, hs, hne, hr, hw, hofile, hfile, hfree, hkend, hopen, hpage⟩
  · rw [hs]
    exact ⟨-1, s', rfl, .inl ⟨rfl, hsame⟩⟩
  rw [hs]
  have hpi : pi ∈ s.mem.free := by
    rw [hfree]
    exact List.mem_cons_self ..
  have hram : Ram s1.mem.kend pi := by
    rw [hkend]
    exact h.ram pi hpi
  have htables : Same s.mem s1.mem 2 x.pagetable := .of_agree fun pg hpg => hpage pg fun heq => h.tabs pg hpg (heq ▸ hpi)
  dsimp only [Option.bind_eq_bind, Option.bind_some]
  cases hfd0 : s1.fdalloc p rf with
  | none =>
    obtain ⟨s', hs', hback⟩ := closeBoth_back hofile hne hr hw hfile hfree hopen hram
    refine ⟨-1, s', ?_, .inl ⟨rfl, hback⟩⟩
    dsimp only
    rw [hs']
    rfl
  | some r =>
    obtain ⟨fd0, s2⟩ := r
    obtain ⟨hfree0, rfl⟩ := fdalloc_eq_some hfd0
    dsimp only
    cases hfd1 : (s1.setOfile p fd0 (some rf)).fdalloc p wf with
    | none =>
      have hofile' := (setOfile_setOfile_none (o := some rf) hfree0).trans hofile
      obtain ⟨s', hs', hback⟩ := closeBoth_back hofile' hne hr hw hfile hfree hopen hram
      refine ⟨-1, s', ?_, .inl ⟨rfl, hback⟩⟩
      dsimp only
      rw [hs']
      rfl
    | some r =>
      obtain ⟨fd1, s3⟩ := r
      obtain ⟨hfree1, rfl⟩ := fdalloc_eq_some hfd1
      have hfds : fd1 ≠ fd0 := by
        rintro rfl
        simp [Sys.setOfile] at hfree1
      have hfree1' : s1.ofile p fd1 = none := by simpa [Sys.setOfile, hfds] using hfree1
      have hinj := h.inj
      rw [← htables.userAddr] at hinj
      obtain ⟨ok, m', hrun, hfree', hkend', hpage', hbytes⟩ :=
        copyouts_pipe (h.table.same htables) hinj addr (fdBytes fd0) (fdBytes fd1)
      have hmem := runMem_of_done (s := (s1.setOfile p fd0 (some rf)).setOfile p fd1 (some wf)) hrun
      dsimp only
      rw [hmem]
      cases ok with
      | true =>
        obtain ⟨hfirst, hsecond⟩ := hbytes rfl
        have hnew : ((s1.setOfile p fd0 (some rf)).setOfile p fd1 (some wf)).ofile =
            update s.ofile p (update (update (s.ofile p) fd0 (some rf)) fd1 (some wf)) := by
          simp [Sys.setOfile, hofile]
        rw [hofile] at hfree0 hfree1'
        exact ⟨0, _, rfl, .inr ⟨rfl, fd0, fd1, rf, wf, pi, ⟨hfds, hfree0, hfree1'⟩, hnew, ⟨hne, hr, hw⟩, hfile,
          hfree.trans (congrArg _ hfree'.symm), hfirst, hsecond⟩⟩
      | false =>
        have hfar : ∀ b q, userAddr s1.mem x.pagetable b = some q → q.1 ≠ pi := by
          rw [htables.userAddr]
          exact fun b q hq heq => h.user b q hq (heq ▸ hpi)
        have hold : ((({ (s1.setOfile p fd0 (some rf)).setOfile p fd1 (some wf) with mem := m' } : Sys).setOfile p fd0
            none).setOfile p fd1 none).ofile = s.ofile := by
          rw [← hofile]
          funext q fd
          by_cases hq : q = p
          · subst hq
            by_cases h1 : fd = fd1
            · simp [Sys.setOfile, h1, hfree1']
            · by_cases h0 : fd = fd0
              · simp [Sys.setOfile, h0, hfds.symm, hfree0]
              · simp [Sys.setOfile, h1, h0]
          · simp [Sys.setOfile, hq]
        obtain ⟨s', hs', hback⟩ := closeBoth_back hold hne hr hw hfile (hfree.trans (congrArg _ hfree'.symm))
          ((congrFun (hpage' pi hfar) _).trans hopen) (hkend'.symm ▸ hram)
        exact ⟨-1, s', congrArg (fun o => Option.bind o fun s => some (-1, s)) hs', .inl ⟨rfl, hback⟩⟩

/-! ## The states of the kernel -/

variable {x₀ : Space} {m₀ : Mem} {kt kend trampoline usertrap : UInt64} {kernel all : Multiset UInt64}
  {initcode : Fin 512 → UInt64} {acts : List Act}

theorem Own.sane (h : Own kt kernel all s) (hall : 0 ∉ all) (hx : s.space p = some x)
    (hram : ∀ pg ∈ s.mem.free, Ram s.mem.kend pg) : Sane s x := by
  have hapart : ∀ pg ∈ held s p, pg ∉ s.mem.free := by
    intro pg hpg hin
    have hnd := (h.pool p).nodup
    exact Multiset.disjoint_left.mp (Multiset.nodup_add.mp hnd).2.2 hin (Multiset.mem_add.mpr (.inl hpg))
  refine ⟨h.files.free, hram, fun pg hpg => hapart pg ((mem_held hx).2.1 pg hpg), h.userTable hall hx, ?_,
    fun a b q => h.userAddr_inj hx⟩
  intro a q hq
  have hfits := (h.slot p).space x hx
  obtain ⟨e, he, hu, hpg, -⟩ := leaf_of_userAddr hq
  rw [← hpg]
  rcases userLeaf_cases hfits.fits hfits.frame he hu with ⟨-, hspan⟩ | ⟨-, hframe⟩
  · exact hapart _ ((mem_held hx).2.2 _ hspan)
  · rw [hframe]
    exact hapart _ (mem_held hx).1

/-- The state of a run is such a state for every process. -/
theorem sane_of_run (hboot : Booted kend kt m₀) (hinit : (userinitMem trampoline usertrap initcode).run m₀ = .done x₀ m)
    (hrun : run (start trampoline x₀ m) acts = some s) (hend : m₀.kend = kend) (hpos : 0 < (PGROUNDUP kend).toNat)
    (hlow : kend.toNat ≤ PHYSTOP) (hx : s.space p = some x) : Sane s x := by
  refine ((own_start hboot hinit).run hrun).sane (fun h0 => ?_) hx (ram_of_run hboot hinit hrun hend hlow)
  exact absurd (inRam_of_count hboot.pages h0).2.1 (Nat.not_le.mpr hpos)

/-- The first process makes a pipe. -/
theorem sysPipe_rolls_back_first : ∃ x m r s', (userinitMem 0x80000000 0 fun _ => 0).run tinyRam = .done x m ∧
    Sane (start 0x80000000 x m) x ∧ (start 0x80000000 x m).sysPipeAt 0 x 0 = some (r, s') ∧
    ((r = -1 ∧ Unchanged (start 0x80000000 x m) s') ∨ (r = 0 ∧ ∃ fd0 fd1 rf wf pi,
      PipeMade (start 0x80000000 x m) s' 0 x 0 fd0 fd1 rf wf pi)) := by
  obtain ⟨x, m, s, hinit, hrun, -⟩ := reached_eq_true tinyRam_parts.2.2
  cases hrun
  have hnow : run (start 0x80000000 x m) [] = some (start 0x80000000 x m) := rfl
  have hsane : Sane (start 0x80000000 x m) x :=
    sane_of_run (p := 0) booted_tinyRam hinit hnow rfl (by decide) (by decide) rfl
  obtain ⟨r, s', hs, hcases⟩ := sysPipe_rolls_back hsane 0 0
  exact ⟨x, m, r, s', hinit, hsane, hs, hcases⟩

end Xv6.Kernel
