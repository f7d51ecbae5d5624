import Xv6.Kernel.Boot
import Xv6.Kernel.Endpoints

/-!
# What every run of the system guarantees

Both results hold in every state that the calls of any number of processes lead to from the boot: each
page of memory has one owner at all times, and the pages of a process that the user can reach are its own,
with one exception. `userinit`, `fork` and `exec` map the trap frame with `PTE_U`.
-/

namespace Xv6.Kernel

open Coop Prog Vm Data Process Function Multiset
open Option (bind_eq_some_iff ite_none_right_eq_some)

variable {kend kt trampoline usertrap : UInt64} {initcode : Fin 512 → UInt64} {kernel all : Multiset UInt64}
  {m₀ m : Mem} {x y : Space} {s s' : Sys} {acts : List Act} {p q : Slot}

/-! ## The owners -/

def frames (s : Sys) (p : Slot) : Multiset UInt64 := (s.space p).elim 0 fun x => {x.trapframe}

def tables (s : Sys) (p : Slot) : Multiset UInt64 := (s.space p).elim 0 fun x => tabs s.mem 2 x.pagetable

/-- The pages that the leaves below the size of a process refer to. -/
def userPages (s : Sys) (p : Slot) : Multiset UInt64 :=
  (s.space p).elim 0 fun x => span (leaf s.mem x.pagetable) 0 (npages x.sz)

/-- The free pages, those of the kernel, the trap frames, the page tables and the user memory of the
processes, and the live pipes. -/
def owners (kt : UInt64) (s : Sys) : Multiset UInt64 :=
  ↑s.mem.free + kernelPages s.mem kt + total (frames s) + total (tables s) + total (userPages s) +
    pipePages s.file

theorem held_eq_of_quiet (h : s.exec p = none) : held s p = frames s p + tables s p + userPages s p := by
  rw [held, h, frames, tables, userPages]
  cases s.space p with
  | none => rfl
  | some x =>
    rw [slotPages_some, spacePages, img]
    exact (add_assoc _ _ _).symm

theorem Own.owners_eq (h : Own kt kernel all s) (hquiet : ∀ p, s.exec p = none) : owners kt s = all := by
  have hheld : total (held s) = total (frames s) + total (tables s) + total (userPages s) := by
    rw [total_congr fun p => held_eq_of_quiet (hquiet p), total_add, total_add]
  rw [← h.pages, hheld, owners, h.kernel]
  abel

/-! ## Processes that stay -/

theorem execStep_space {z : Prog Mem (Option Exec)} (hs : s.execStep p z = some s') : s'.space = s.space := by
  obtain ⟨⟨r, s1⟩, hrun, hs⟩ := bind_eq_some_iff.mp hs
  cases hs
  rw [(runMem_eq_some hrun).2]

theorem procStep_space {a : Process.Action} (hs : s.procStep a = some s') :
    s'.space = s.space ∨ ∃ z, s'.space = update s.space z none := by
  obtain ⟨⟨ps, es⟩, -, hs⟩ := bind_eq_some_iff.mp hs
  dsimp only at hs
  split at hs
  · cases hs
    exact .inl rfl
  · rename_i z hz
    obtain ⟨x, -, hs⟩ := bind_eq_some_iff.mp hs
    obtain ⟨⟨u, s1⟩, hrun, hs⟩ := bind_eq_some_iff.mp hs
    cases hs
    refine .inr ⟨z, ?_⟩
    show update s1.space z none = _
    rw [(runMem_eq_some hrun).2]

/-- Only the file table and the descriptors change. -/
theorem dupAll_frame {np : Slot} (hs : s.dupAll p np = some s') :
    ∃ file ofile, s' = { s with file := file, ofile := ofile } := by
  unfold Sys.dupAll at hs
  generalize List.finRange NOFILE = fds at hs
  induction fds generalizing s with
  | nil =>
    cases hs
    exact ⟨_, _, rfl⟩
  | cons fd fds ih =>
    rw [List.foldlM_cons] at hs
    obtain ⟨s1, hstep, hs⟩ := bind_eq_some_iff.mp hs
    obtain ⟨file, ofile, rfl⟩ := ih hs
    refine ⟨file, ofile, ?_⟩
    split at hstep
    · cases hstep
      rfl
    · obtain ⟨s2, hdup, hstep⟩ := bind_eq_some_iff.mp hstep
      cases hstep
      obtain ⟨-, hdup⟩ := Option.ite_none_left_eq_some.mp hdup
      cases hdup
      rfl

theorem Own.fork_space (h : Own kt kernel all s) (hs : s.fork p = some s') (hx : s.space q = some x) :
    s'.space q = some x := by
  obtain ⟨y, -, hs⟩ := bind_eq_some_iff.mp hs
  split at hs
  · cases hs
    exact hx
  · rename_i np hfind
    have hnp : (s.ps.proc np).state = .unused := by simpa using List.find?_some hfind
    have hne : q ≠ np := by
      rintro rfl
      cases ((h.used q).mp hnp).symm.trans hx
    obtain ⟨⟨r, s1⟩, hrun, hs⟩ := bind_eq_some_iff.mp hs
    have hspace : s1.space = s.space := by rw [(runMem_eq_some hrun).2]
    dsimp only at hs
    cases r with
    | noFrames =>
      cases hs
      exact (congrFun hspace q).trans hx
    | noCopy =>
      cases hs
      exact (congrFun hspace q).trans hx
    | child y =>
      obtain ⟨file, ofile, rfl⟩ := dupAll_frame hs
      show update s1.space np (some y) q = some x
      rw [update_of_ne hne, hspace, hx]

/-- Only `exec` replaces the memory of a process that stays. -/
theorem Own.space_of_step {act : Act} (h : Own kt kernel all s) (hact : ∀ entry sp, act ≠ .commit entry sp)
    (hs : Kernel.step s act = some s') (hx : s.space q = some x) (hne : s'.space q ≠ none) :
    s'.space q = some x := by
  have hproc : ∀ {s1 : Sys} {a}, s1.space = s.space → s1.procStep a = some s' → s'.space q = some x := by
    intro s1 a hspace hs
    rw [← hspace] at hx
    rcases procStep_space hs with heq | ⟨z, heq⟩
    · rw [heq, hx]
    · rw [heq] at hne ⊢
      by_cases hqz : q = z
      · rw [hqz, update_self] at hne
        exact absurd rfl hne
      · rw [update_of_ne hqz, hx]
  have hsame : s'.space = s.space → s'.space q = some x := fun heq => by rw [heq, hx]
  have hmem : ∀ {z : Prog Mem Unit}, s.runMem z = some ((), s') → s'.space q = some x := by
    intro z hrun
    refine hsame ?_
    rw [(runMem_eq_some hrun).2]
  cases taken_of_step hs with
  | exit ha hu hclose hs => exact hproc (closeAll_step h.piped hclose).space hs
  | proc ha hexit hsleep hs => exact hproc rfl hs
  | fork hu hs => exact h.fork_space hs hx
  | exec hz hs => exact hsame (execStep_space hs)
  | commit hcommit hin hx htable hrun => exact absurd hcommit (hact _ _)
  | store hx hrun => exact hmem hrun
  | load hin htable hrun => exact hmem hrun
  | pipe hu hs => exact hsame (sysPipe_step h.piped hs).space
  | close hu hs => exact hsame (sysClose_step h.piped hs).space
  | dup hu hs => exact hsame (sysDup_step h.piped hs).space
  | pipeCall hs =>
    obtain ⟨f, pi, -, -, rfl⟩ := pipeCall_eq_some hs
    exact hsame rfl
  | pipeGo hin => exact hsame rfl
  | pipeReturn p => exact hsame rfl

/-- The process in slot `q` is not reaped during the run. -/
def Stays (q : Slot) : Sys → List Act → Prop
  | s, [] => s.space q ≠ none
  | s, a :: as => s.space q ≠ none ∧ ∀ s', step s a = some s' → Stays q s' as

/-- A process that stays, and whose image is not replaced, keeps its pages. -/
theorem Own.pages_of_run (h : Own kt kernel all s) (hs : Kernel.run s acts = some s')
    (hacts : ∀ a ∈ acts, ∀ entry sp, a ≠ .commit entry sp) (hstays : Stays q s acts)
    (hx : s.space q = some x) : s'.space q = some x ∧ spacePages s'.mem x = spacePages s.mem x := by
  induction acts generalizing s with
  | nil =>
    cases hs
    exact ⟨hx, rfl⟩
  | cons a as ih =>
    obtain ⟨s1, hstep, hs⟩ := bind_eq_some_iff.mp hs
    have hstays1 := hstays.2 s1 hstep
    have hne : s1.space q ≠ none := by
      cases as with
      | nil => exact hstays1
      | cons b bs => exact hstays1.1
    have hx1 := h.space_of_step (hacts a List.mem_cons_self) hstep hx hne
    obtain ⟨hown, hkeep⟩ := h.step hstep
    obtain ⟨hx', hpages⟩ := ih hown hs (fun b hb => hacts b (List.mem_cons_of_mem a hb)) hstays1 hx1
    exact ⟨hx', hpages.trans (hkeep q x hx hx1)⟩

/-- If the same processes are there as before, with the same images, and as many pipes, then as many pages
are free. -/
theorem Own.free_of_run (h : Own kt kernel all s) (hs : Kernel.run s acts = some s')
    (hquiet : ∀ p, s.exec p = none) (hquiet' : ∀ p, s'.exec p = none)
    (hacts : ∀ a ∈ acts, ∀ entry sp, a ≠ .commit entry sp)
    (hold : ∀ q, s.space q ≠ none → Stays q s acts) (hnew : ∀ q, s.space q = none → s'.space q = none)
    (hpipes : (pipePages s'.file).card = (pipePages s.file).card) :
    s'.mem.free.length = s.mem.free.length := by
  have h' := h.run hs
  have hheld : ∀ q, held s' q = held s q := by
    intro q
    rw [held, held, hquiet, hquiet']
    cases hx : s.space q with
    | none =>
      rw [hnew q hx]
      rfl
    | some x =>
      obtain ⟨hx', hpages⟩ := h.pages_of_run hs hacts (hold q (by rw [hx]; exact Option.some_ne_none x)) hx
      rw [hx', slotPages_some, slotPages_some, hpages]
  have hcard := congrArg card (h'.pages.trans h.pages.symm)
  rw [total_congr hheld] at hcard
  simp only [card_add, coe_card, hpipes] at hcard
  omega

/-- Every page behind the kernel has exactly one owner whenever no process is inside `exec`. If after a
run the same processes are there as before it, with the same images, and as many pipes, then as many pages
are free. -/
theorem conservation (hboot : Booted kend kt m₀)
    (hinit : (userinitMem trampoline usertrap initcode).run m₀ = .done x m)
    (hs : run (start trampoline x m) acts = some s) (hquiet : ∀ p, s.exec p = none) :
    (∀ pg, (owners kt s).count pg = if InRam kend pg then 1 else 0) ∧
    (∀ p, (s.ps.proc p).state = .unused ↔ s.space p = none) ∧
    ∀ acts' s', run s acts' = some s' → (∀ p, s'.exec p = none) →
      (∀ a ∈ acts', ∀ entry sp, a ≠ .commit entry sp) → (∀ q, s.space q ≠ none → Stays q s acts') →
      (∀ q, s.space q = none → s'.space q = none) →
      (pipePages s'.file).card = (pipePages s.file).card → s'.mem.free.length = s.mem.free.length := by
  have hown := (own_start hboot hinit).run hs
  refine ⟨fun pg => ?_, hown.used, fun acts' s' hs' hquiet' hacts hold hnew hpipes => ?_⟩
  · rw [hown.owners_eq hquiet]
    exact hboot.pages pg
  · exact hown.free_of_run hs' hquiet hquiet' hacts hold hnew hpipes

/-! ### A small memory -/

/-- The pages from the end of the memory downwards. -/
def ramPage (i : Nat) : UInt64 := UInt64.ofNat (PHYSTOP - 4096 * (i + 1))

/-- A machine with twelve pages behind the kernel, of which the first is an empty kernel page table. -/
def tinyRam : Mem where
  page := fun _ _ => 0
  free := (List.range 11).map ramPage
  kend := ramPage 11

theorem not_has_zero : ¬ Has 0 PTE_V := by decide

/-- An empty kernel page table in `n + 1` pages behind the kernel. -/
def emptyRam (n : Nat) : Mem where
  page := fun _ _ => 0
  free := (List.range n).map ramPage
  kend := ramPage n

theorem kernelPages_emptyRam (n : Nat) (kt : UInt64) : kernelPages (emptyRam n) kt = {kt} := by
  have hchild : ∀ i, child (emptyRam n) kt i = none := fun i => if_neg not_has_zero
  have htabs : tabs (emptyRam n) 2 kt = {kt} := by
    rw [tabs, total_eq_zero fun i => by rw [hchild]; rfl]
    rfl
  have hleaf : ∀ v, leaf (emptyRam n) kt v = none := by
    intro v
    unfold leaf lookup find
    rw [hchild]
    exact ite_self none
  rw [kernelPages, htabs, stackPages, total_eq_zero fun p => by rw [hleaf]; rfl, add_zero]

theorem toNat_ramPage (i : Nat) : (ramPage i).toNat = PHYSTOP - 4096 * (i + 1) := by
  rw [ramPage, UInt64.toNat_ofNat']
  lia

theorem mem_emptyRam {n : Nat} (hn : n < 1024) (pg : UInt64) :
    pg ∈ (List.range (n + 1)).map ramPage ↔ InRam (ramPage n) pg := by
  have hlow : (PGROUNDUP (ramPage n)).toNat = PHYSTOP - 4096 * (n + 1) := by
    rw [toNat_PGROUNDUP, toNat_ramPage]
    · lia
    · rw [toNat_ramPage]
      lia
  rw [List.mem_map]
  unfold InRam
  rw [hlow]
  constructor
  · rintro ⟨i, hi, rfl⟩
    have hle := List.mem_range.mp hi
    rw [toNat_ramPage]
    lia
  · rintro ⟨hmod, hge, hhigh⟩
    refine ⟨(PHYSTOP - pg.toNat) / 4096 - 1, List.mem_range.mpr (by lia), ?_⟩
    apply UInt64.toNat_inj.mp
    rw [toNat_ramPage]
    lia

theorem booted_emptyRam {n : Nat} (hn : n < 1024) : Booted (ramPage n) (ramPage n) (emptyRam n) := by
  refine ⟨fun i hi => absurd hi not_has_zero, fun pg => ?_⟩
  have hall : (↑(emptyRam n).free + kernelPages (emptyRam n) (ramPage n) : Multiset UInt64) =
      ↑((List.range (n + 1)).map ramPage) := by
    rw [kernelPages_emptyRam, ← coe_singleton, coe_add, List.range_succ, List.map_append]
    rfl
  have hnodup : ((List.range (n + 1)).map ramPage).Nodup := by
    refine List.Nodup.map_on (fun i hi j hj heq => ?_) List.nodup_range
    have hi' := List.mem_range.mp hi
    have hj' := List.mem_range.mp hj
    have heq' := congrArg UInt64.toNat heq
    rw [toNat_ramPage, toNat_ramPage] at heq'
    lia
  rw [hall, count_eq_of_nodup (coe_nodup.mpr hnodup)]
  exact if_congr (mem_emptyRam hn pg) rfl rfl

theorem booted_tinyRam : Booted (ramPage 11) (ramPage 11) tinyRam := booted_emptyRam (by decide)

/-- What a predicate says about the state after the first process was made and a run was made from there. -/
def reached (acts : List Act) (P : Space → Sys → Bool) : Outcome Mem Space → Bool
  | .done x m => (run (start 0x80000000 x m) acts).elim false (P x)
  | _ => false

theorem reached_eq_true {P : Space → Sys → Bool} {o : Outcome Mem Space} (h : reached acts P o) :
    ∃ x m s, o = .done x m ∧ run (start 0x80000000 x m) acts = some s ∧ P x s := by
  cases o with
  | done x m =>
    cases hrun : run (start 0x80000000 x m) acts with
    | none =>
      rw [reached, hrun] at h
      cases h
    | some s =>
      rw [reached, hrun] at h
      exact ⟨x, m, s, rfl, hrun, h⟩
  | panicked msg m => cases h
  | stuck m => cases h

/-- The first process makes a pipe and closes one of its ends. -/
def onePipe : List Act := [.proc (.dispatch 0), .pipe true, .close 0]

/-- The first process makes a pipe, reads from it and closes both ends. -/
def usedPipe : List Act :=
  [.proc (.dispatch 0), .pipe true, .pipeCall 0 false, .pipeReturn, .close 0, .close 1]

/-- The runs of the first process, with what is needed of the states they reach. -/
theorem tinyRam_parts :
    reached onePipe (fun _ s => decide (∀ p, (s.exec p).isNone) && (s.space 0).elim false fun y =>
      (leaf s.mem y.pagetable 0).elim false fun e => decide (Has e PTE_U))
      ((userinitMem 0x80000000 0 fun _ => 0).run tinyRam) ∧
    reached usedPipe (fun _ s => decide (s.log.length = 4))
      ((userinitMem 0x80000000 0 fun _ => 0).run tinyRam) ∧
    reached [] (fun x s => (leaf s.mem x.pagetable frameVpn).elim false fun e =>
      decide (Has e PTE_U ∧ PTE2PA e = x.trapframe ∧ npages x.sz ≤ frameVpn))
      ((userinitMem 0x80000000 0 fun _ => 0).run tinyRam) := by
  decide +kernel

theorem conservation_onePipe : ∃ x m s,
    (userinitMem 0x80000000 0 fun _ => 0).run tinyRam = .done x m ∧
    run (start 0x80000000 x m) onePipe = some s ∧
    ∀ pg, (owners (ramPage 11) s).count pg = if InRam (ramPage 11) pg then 1 else 0 := by
  obtain ⟨x, m, s, hinit, hrun, hparts⟩ := reached_eq_true tinyRam_parts.1
  have hquiet := (Bool.and_eq_true_iff.mp hparts).1
  have hnone : ∀ p, s.exec p = none := fun p => Option.isNone_iff_eq_none.mp (of_decide_eq_true hquiet p)
  exact ⟨x, m, s, hinit, hrun, (conservation booted_tinyRam hinit hrun hnone).1⟩

/-! ## The ends of the pipes -/

theorem endpoints_start : Endpoints (start trampoline x m) := by
  refine ⟨fun f => ?_, fun q k hk => ?_, ⟨trivial, fun pi w => ?_⟩, fun q fd hq => absurd rfl hq⟩
  · have hnone : opened (start trampoline x m).ofile = 0 := total_eq_zero fun _ => rfl
    rw [hnone, add_zero, count_zero]
    rfl
  · cases hk
  · constructor
    · intro hopen
      cases hopen
    · rintro ⟨f, hf⟩
      cases hf

/-- An entry that stands for an end of a pipe has a descriptor. -/
theorem FilesOk.exists_ref {file : Fin NFILE → File} (h : FilesOk m file) {pi : UInt64} {w : Bool} :
    (∃ f, (file f).pipe = some (pi, w)) ↔ ∃ f, 0 < (file f).ref ∧ (file f).pipe = some (pi, w) := by
  constructor
  · rintro ⟨f, hf⟩
    refine ⟨f, Nat.pos_of_ne_zero fun hzero => ?_, hf⟩
    cases (h.free f hzero).symm.trans hf
  · rintro ⟨f, -, hf⟩
    exact ⟨f, hf⟩

/-- The flag of a pipe says whether that end is in the file table. -/
theorem FilesOk.flag_iff {file : Fin NFILE → File} (h : FilesOk m file) {f : Fin NFILE} {pi : UInt64} {v : Bool}
    (hf : (file f).pipe = some (pi, v)) (w : Bool) :
    m.page pi (endWord w) = 1 ↔ ∃ g, (file g).pipe = some (pi, w) := by
  constructor
  · intro hone
    by_cases hw : w = v
    · exact ⟨f, by rw [hw]; exact hf⟩
    · obtain rfl : w = !v := Bool.eq_not_of_ne hw
      exact h.other f pi v hf (by rw [hone]; decide)
  · rintro ⟨g, hg⟩
    exact h.opened g pi w hg

theorem Own.pipe_notMem_free (h : Own kt kernel all s) {f : Fin NFILE} {pi : UInt64} {v : Bool}
    (hf : (s.file f).pipe = some (pi, v)) : pi ∉ s.mem.free := by
  have hpipe : pi ∈ pipePages s.file := mem_pipeSet.mpr ⟨f, v, hf⟩
  intro hfree
  have hdisj := (nodup_add.mp h.piped.pool.1).2.2
  exact disjoint_left.mp hdisj hfree (mem_add.mpr (.inl hpipe))

/-- The events of the pipes come in a legal order, and at every moment the ends that are open are those
with a reference in the file table. A page with an open end is not free, and its flags say which of its
ends are open. -/
theorem pipe_lifetime (hboot : Booted kend kt m₀)
    (hinit : (userinitMem trampoline usertrap initcode).run m₀ = .done x m)
    (hs : run (start trampoline x m) acts = some s) :
    Legal s.log ∧
    (∀ pi w, openEnd pi w s.log = true ↔ ∃ f, 0 < (s.file f).ref ∧ (s.file f).pipe = some (pi, w)) ∧
    ∀ pi v, openEnd pi v s.log = true → pi ∉ s.mem.free ∧
      ∀ w, s.mem.page pi (endWord w) = 1 ↔ ∃ f, 0 < (s.file f).ref ∧ (s.file f).pipe = some (pi, w) := by
  have hstart := own_start hboot hinit
  have hown := hstart.run hs
  have hends := endpoints_start.run hstart hs
  refine ⟨hends.log.legal, fun pi w => ?_, fun pi v hopen => ?_⟩
  · rw [hends.log.ends]
    exact hown.files.exists_ref
  · obtain ⟨f, hf⟩ := (hends.log.ends pi v).mp hopen
    refine ⟨hown.pipe_notMem_free hf, fun w => ?_⟩
    rw [hown.files.flag_iff hf]
    exact hown.files.exists_ref

theorem pipe_lifetime_usedPipe : ∃ x m s,
    (userinitMem 0x80000000 0 fun _ => 0).run tinyRam = .done x m ∧
    run (start 0x80000000 x m) usedPipe = some s ∧ s.log.length = 4 ∧ Legal s.log := by
  obtain ⟨x, m, s, hinit, hrun, hlog⟩ := reached_eq_true tinyRam_parts.2.1
  exact ⟨x, m, s, hinit, hrun, of_decide_eq_true hlog, (pipe_lifetime booted_tinyRam hinit hrun).1⟩

/-! ## Isolation -/

/-- The leaf `e` for page `v` of process `p` is below the size of the process, and the page behind it is no
trap frame, no page table, no page of the kernel, not free and not mapped for another user. -/
structure Isolated (kt : UInt64) (s : Sys) (p : Slot) (x : Space) (v : Nat) (e : UInt64) : Prop where
  below : v < npages x.sz
  frame : ∀ q y, s.space q = some y → PTE2PA e ≠ y.trapframe
  table : ∀ q y, s.space q = some y → PTE2PA e ∉ tabs s.mem 2 y.pagetable
  kernel : PTE2PA e ∉ kernelPages s.mem kt
  free : PTE2PA e ∉ s.mem.free
  other : ∀ q y v' e', q ≠ p → s.space q = some y → leaf s.mem y.pagetable v' = some e' → Has e' PTE_U →
    PTE2PA e' ≠ PTE2PA e

/-- A page that slot `p` holds is not free and not of the kernel, and no other slot holds it. -/
theorem Own.only (h : Own kt kernel all s) {pg : UInt64} (hpg : pg ∈ held s p) :
    pg ∉ s.mem.free ∧ pg ∉ kernel ∧ ∀ q, q ≠ p → pg ∉ held s q := by
  have hnd := (h.pool p).nodup
  obtain ⟨-, hrest, hfree⟩ := nodup_add.mp hnd
  obtain ⟨-, -, hothers⟩ := nodup_add.mp hrest
  have hnot := disjoint_left.mp hothers hpg
  simp only [others, mem_add, not_or] at hnot
  refine ⟨fun hin => ?_, hnot.1.1, fun q hq hin => hnot.1.2 ?_⟩
  · exact disjoint_left.mp hfree hin (mem_add.mpr (.inl hpg))
  · exact subset_of_le (le_rest hq) hin

theorem mem_held (hx : s.space p = some x) :
    x.trapframe ∈ held s p ∧ (∀ pg ∈ tabs s.mem 2 x.pagetable, pg ∈ held s p) ∧
      ∀ pg ∈ span (leaf s.mem x.pagetable) 0 (npages x.sz), pg ∈ held s p := by
  have hsub : ∀ pg ∈ spacePages s.mem x, pg ∈ held s p := by
    intro pg hpg
    rw [held, hx]
    exact mem_add.mpr (.inl hpg)
  refine ⟨hsub _ ?_, fun pg hpg => hsub _ ?_, fun pg hpg => hsub _ ?_⟩
  · exact mem_add.mpr (.inl (mem_singleton_self _))
  · exact mem_add.mpr (.inr (mem_add.mpr (.inl hpg)))
  · exact mem_add.mpr (.inr (mem_add.mpr (.inr hpg)))

/-- Within one process user memory, tables and trap frame are apart. -/
theorem Own.span_apart (h : Own kt kernel all s) (hx : s.space p = some x) {pg : UInt64}
    (hpg : pg ∈ span (leaf s.mem x.pagetable) 0 (npages x.sz)) :
    pg ≠ x.trapframe ∧ pg ∉ tabs s.mem 2 x.pagetable := by
  have hnd := (nodup_add.mp (nodup_add.mp (h.pool p).nodup).2.1).1
  rw [held, hx] at hnd
  have hspace := (nodup_add.mp hnd).1
  obtain ⟨-, himg, hframe⟩ := nodup_add.mp hspace
  obtain ⟨-, -, htabs⟩ := nodup_add.mp himg
  refine ⟨fun heq => ?_, fun hin => disjoint_left.mp htabs hin hpg⟩
  refine disjoint_left.mp hframe (mem_singleton_self x.trapframe) ?_
  exact mem_add.mpr (.inr (heq ▸ hpg))

theorem Own.isolated_iff (h : Own kt kernel all s) (hx : s.space p = some x) {v : Nat} {e : UInt64}
    (hleaf : leaf s.mem x.pagetable v = some e) (huser : Has e PTE_U) :
    Isolated kt s p x v e ↔ v ≠ frameVpn := by
  have hfits := (h.slot p).space x hx
  constructor
  · intro hiso heq
    have hbound := hfits.fits.bound
    have hbelow := hiso.below
    omega
  · intro hne
    obtain ⟨hbelow, hpg⟩ := (userLeaf_cases hfits.fits hfits.frame hleaf huser).resolve_right
      fun hframe => hne hframe.1
    obtain ⟨hframe, htabs⟩ := h.span_apart hx hpg
    obtain ⟨hfree, hkernel, honly⟩ := h.only ((mem_held hx).2.2 _ hpg)
    refine ⟨hbelow, fun q y hy => ?_, fun q y hy => ?_, by rwa [h.kernel], hfree, ?_⟩
    · by_cases hq : q = p
      · subst hq
        obtain rfl : x = y := Option.some.inj (hx.symm.trans hy)
        exact hframe
      · intro heq
        exact honly q hq (heq ▸ (mem_held hy).1)
    · by_cases hq : q = p
      · subst hq
        obtain rfl : x = y := Option.some.inj (hx.symm.trans hy)
        exact htabs
      · exact fun hin => honly q hq ((mem_held hy).2.1 _ hin)
    · intro q y v' e' hq hy hleaf' huser' heq
      have hfits' := (h.slot q).space y hy
      refine honly q hq ?_
      rw [← heq]
      rcases userLeaf_cases hfits'.fits hfits'.frame hleaf' huser' with ⟨-, hin⟩ | ⟨-, hin⟩
      · exact (mem_held hy).2.2 _ hin
      · rw [hin]
        exact (mem_held hy).1

/-- In every state that is reached, a user leaf is isolated if and only if it is not that of the trap
frame. -/
theorem userLeaf_isolated_iff (hboot : Booted kend kt m₀)
    (hinit : (userinitMem trampoline usertrap initcode).run m₀ = .done x m)
    (hs : run (start trampoline x m) acts = some s) (hy : s.space p = some y) {v : Nat} {e : UInt64}
    (hleaf : leaf s.mem y.pagetable v = some e) (huser : Has e PTE_U) :
    Isolated kt s p y v e ↔ v ≠ frameVpn :=
  ((own_start hboot hinit).run hs).isolated_iff hy hleaf huser

/-- The page of the first program. -/
theorem userLeaf_isolated_onePipe : ∃ x m s y e,
    (userinitMem 0x80000000 0 fun _ => 0).run tinyRam = .done x m ∧
    run (start 0x80000000 x m) onePipe = some s ∧ s.space 0 = some y ∧
    leaf s.mem y.pagetable 0 = some e ∧ (Isolated (ramPage 11) s 0 y 0 e ↔ 0 ≠ frameVpn) := by
  obtain ⟨x, m, s, hinit, hrun, hparts⟩ := reached_eq_true tinyRam_parts.1
  have huser := (Bool.and_eq_true_iff.mp hparts).2
  cases hy : s.space 0 with
  | none =>
    rw [hy] at huser
    cases huser
  | some y =>
    cases hleaf : leaf s.mem y.pagetable 0 with
    | none =>
      rw [hy, Option.elim_some, hleaf] at huser
      cases huser
    | some e =>
      rw [hy, Option.elim_some, hleaf] at huser
      exact ⟨x, m, s, y, e, hinit, hrun, hy, hleaf,
        userLeaf_isolated_iff booted_tinyRam hinit hrun hy hleaf (of_decide_eq_true huser)⟩

/-- The first process can reach its own trap frame. -/
theorem trapframe_exposed : ∃ x m e, (userinitMem 0x80000000 0 fun _ => 0).run tinyRam = .done x m ∧
    (start 0x80000000 x m).space 0 = some x ∧ leaf m x.pagetable frameVpn = some e ∧ Has e PTE_U ∧
    PTE2PA e = x.trapframe ∧ npages x.sz ≤ frameVpn := by
  obtain ⟨x, m, s, hinit, hrun, huser⟩ := reached_eq_true tinyRam_parts.2.2
  cases hrun
  cases hleaf : leaf m x.pagetable frameVpn with
  | none =>
    have hnone : leaf (start 0x80000000 x m).mem x.pagetable frameVpn = none := hleaf
    rw [hnone] at huser
    cases huser
  | some e =>
    have hsome : leaf (start 0x80000000 x m).mem x.pagetable frameVpn = some e := hleaf
    rw [hsome] at huser
    exact ⟨x, m, e, hinit, rfl, hleaf, of_decide_eq_true huser⟩

end Xv6.Kernel
