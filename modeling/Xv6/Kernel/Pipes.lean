import Xv6.Kernel.Memory

/-!
# The pages of the pipes

A pipe is alive as long as one of its two ends is an entry of the file table. Its flags say which ends
these are, so `fileclose` frees the page when the last of them is closed and not before.
-/

namespace Xv6.Kernel

open Coop Prog Vm Data Function Multiset
open Option (bind_eq_some_iff)

/-- The pages of the live pipes. -/
@[irreducible]
def pipeSet (file : Fin NFILE → File) : Finset UInt64 :=
  Finset.univ.biUnion fun f => ((file f).pipe.map Prod.fst).toFinset

def pipePages (file : Fin NFILE → File) : Multiset UInt64 := (pipeSet file).val

variable {file file' : Fin NFILE → File} {m m' : Mem} {X : Multiset UInt64} {s s' s'' : Sys}
  {f g rf wf : Fin NFILE} {pi : UInt64} {w : Bool} {log : List PipeEvent} {p : Process.Slot}

theorem mem_pipeSet {pg : UInt64} : pg ∈ pipeSet file ↔ ∃ f w, (file f).pipe = some (pg, w) := by
  rw [pipeSet]
  simp

theorem pipeSet_congr (h : ∀ f, (file' f).pipe = (file f).pipe) : pipeSet file' = pipeSet file := by
  ext pg
  simp only [mem_pipeSet, h]

/-- The entries of the file table and the flags of the pipes agree. -/
structure FilesOk (m : Mem) (file : Fin NFILE → File) : Prop where
  free : ∀ f, (file f).ref = 0 → (file f).pipe = none
  inj : ∀ f g k, (file f).pipe = some k → (file g).pipe = some k → f = g
  opened : ∀ f pg w, (file f).pipe = some (pg, w) → m.page pg (endWord w) = 1
  other : ∀ f pg w, (file f).pipe = some (pg, w) → m.page pg (endWord !w) ≠ 0 →
    ∃ g, (file g).pipe = some (pg, !w)

theorem FilesOk.agree (h : FilesOk m file) (hagree : Agree m m' (pipePages file)) : FilesOk m' file := by
  have hpage : ∀ f pg w, (file f).pipe = some (pg, w) → m'.page pg = m.page pg :=
    fun f pg w hf => hagree pg (mem_pipeSet.mpr ⟨f, w, hf⟩)
  refine ⟨h.free, h.inj, ?_, ?_⟩
  · intro f pg w hf
    rw [hpage f pg w hf]
    exact h.opened f pg w hf
  · intro f pg w hf
    rw [hpage f pg w hf]
    exact h.other f pg w hf

theorem FilesOk.congr (h : FilesOk m file) (hpipe : ∀ f, (file' f).pipe = (file f).pipe)
    (hfree : ∀ f, (file' f).ref = 0 → (file' f).pipe = none) : FilesOk m file' := by
  refine ⟨hfree, ?_, ?_, ?_⟩
  · intro f g k
    rw [hpipe, hpipe]
    exact h.inj f g k
  · intro f pg w
    rw [hpipe]
    exact h.opened f pg w
  · intro f pg w
    rw [hpipe]
    intro hf hflag
    obtain ⟨g, hg⟩ := h.other f pg w hf hflag
    exact ⟨g, (hpipe g).trans hg⟩

/-! ## The list of events -/

theorem pipe_update_none (k : UInt64 × Bool) :
    (update file f ⟨0, none⟩ g).pipe = some k ↔ g ≠ f ∧ (file g).pipe = some k := by
  by_cases hg : g = f
  · rw [hg]
    simp
  · simp [hg]

/-- The end of the pipe has been made and not closed since. -/
def openEnd (pi : UInt64) (w : Bool) : List PipeEvent → Bool
  | [] => false
  | .made qi :: l => decide (qi = pi) || openEnd pi w l
  | .closed qi v _ :: l => !decide (qi = pi ∧ v = w) && openEnd pi w l
  | .used _ _ :: l => openEnd pi w l

/-- A page becomes a pipe when both ends are closed; an end is closed and used only when it is open,
and closing it frees the page if and only if the other end is closed. -/
def Legal : List PipeEvent → Prop
  | [] => True
  | .made pi :: l => (∀ w, openEnd pi w l = false) ∧ Legal l
  | .closed pi w freed :: l =>
    openEnd pi w l = true ∧ (freed = true ↔ openEnd pi (!w) l = false) ∧ Legal l
  | .used pi w :: l => openEnd pi w l = true ∧ Legal l

/-- The open ends are those in the file table. -/
structure LogOk (log : List PipeEvent) (file : Fin NFILE → File) : Prop where
  legal : Legal log
  ends : ∀ pi w, openEnd pi w log = true ↔ ∃ f, (file f).pipe = some (pi, w)

theorem LogOk.congr (h : LogOk log file) (hpipe : ∀ f, (file' f).pipe = (file f).pipe) : LogOk log file' := by
  refine ⟨h.legal, fun pi w => ?_⟩
  simp only [hpipe]
  exact h.ends pi w

theorem LogOk.openEnd_eq_false (h : LogOk log file)
    (hno : ∀ f, (file f).pipe ≠ some (pi, w)) : openEnd pi w log = false := by
  rw [← Bool.not_eq_true, h.ends]
  rintro ⟨f, hf⟩
  exact hno f hf

/-- A process uses an end that is in the file table. -/
theorem LogOk.used (h : LogOk log file) (hf : (file f).pipe = some (pi, w)) : LogOk (.used pi w :: log) file :=
  ⟨⟨(h.ends pi w).mpr ⟨f, hf⟩, h.legal⟩, h.ends⟩

theorem LogOk.closed (h : LogOk log file) (hok : FilesOk m file) (hf : (file f).pipe = some (pi, w)) :
    LogOk (.closed pi w (decide (m.page pi (endWord !w) = 0)) :: log)
      (update file f ⟨0, none⟩) := by
  have hother : m.page pi (endWord !w) = 0 ↔ openEnd pi (!w) log = false := by
    constructor
    · intro hzero
      refine h.openEnd_eq_false fun g hg => ?_
      have hone := hok.opened g pi (!w) hg
      cases hzero.symm.trans hone
    · intro hclosed
      by_contra hflag
      have hopen := (h.ends pi !w).mpr (hok.other f pi w hf hflag)
      cases hclosed.symm.trans hopen
  refine ⟨⟨(h.ends pi w).mpr ⟨f, hf⟩, ?_, h.legal⟩, fun qi v => ?_⟩
  · rw [decide_eq_true_iff]
    exact hother
  · simp only [openEnd, Bool.and_eq_true, Bool.not_eq_true', decide_eq_false_iff_not, h.ends, pipe_update_none]
    constructor
    · rintro ⟨hne, g, hg⟩
      refine ⟨g, ?_, hg⟩
      rintro rfl
      cases hf.symm.trans hg
      exact hne ⟨rfl, rfl⟩
    · rintro ⟨g, hgf, hg⟩
      refine ⟨?_, g, hg⟩
      rintro ⟨rfl, rfl⟩
      exact hgf (hok.inj g f _ hg hf)

/-- A call that concerns files only. -/
structure PipeStep (s s' : Sys) (X : Multiset UInt64) : Prop where
  ps : s'.ps = s.ps
  trampoline : s'.trampoline = s.trampoline
  space : s'.space = s.space
  exec : s'.exec = s.exec
  shift : Shift s.mem s'.mem X (pipePages s.file) (pipePages s'.file)
  files : FilesOk s'.mem s'.file
  log : LogOk s.log s.file → LogOk s'.log s'.file

/-- The state before a call that concerns files. -/
structure Piped (s : Sys) (X : Multiset UInt64) : Prop where
  pool : Pool s.mem (pipePages s.file + X)
  files : FilesOk s.mem s.file

namespace PipeStep

theorem piped (h : PipeStep s s' X) (hs : Piped s X) : Piped s' X := ⟨h.shift.pool hs.pool, h.files⟩

theorem trans (h : PipeStep s s' X) (h' : PipeStep s' s'' X) : PipeStep s s'' X :=
  ⟨h'.ps.trans h.ps, h'.trampoline.trans h.trampoline, h'.space.trans h.space, h'.exec.trans h.exec,
    h.shift.trans h'.shift, h'.files, fun hlog => h'.log (h.log hlog)⟩

theorem refl (h : Piped s X) : PipeStep s s X :=
  ⟨rfl, rfl, rfl, rfl, .refl h.pool X _, h.files, fun hlog => hlog⟩

theorem of_congr (h : Piped s X) (hps : s'.ps = s.ps) (htramp : s'.trampoline = s.trampoline)
    (hspace : s'.space = s.space) (hexec : s'.exec = s.exec) (hmem : s'.mem = s.mem)
    (hlog : s'.log = s.log)
    (hpipe : ∀ f, (s'.file f).pipe = (s.file f).pipe)
    (hfree : ∀ f, (s'.file f).ref = 0 → (s'.file f).pipe = none) : PipeStep s s' X := by
  refine ⟨hps, htramp, hspace, hexec, ?_, ?_, ?_⟩
  · rw [hmem, pipePages, pipePages, pipeSet_congr hpipe]
    exact .refl h.pool X _
  · rw [hmem]
    exact h.files.congr hpipe hfree
  · rw [hlog]
    exact fun hl => hl.congr hpipe

end PipeStep

theorem setOfile_step (h : Piped s X) (p : Process.Slot) (fd : Fin NOFILE) (o : Option (Fin NFILE)) :
    PipeStep s (s.setOfile p fd o) X :=
  ⟨rfl, rfl, rfl, rfl, .refl h.pool X _, h.files, fun hlog => hlog⟩

theorem setFile_self (s : Sys) (f : Fin NFILE) (x : File) : (s.setFile f x).file f = x := by
  simp [Sys.setFile]

theorem setFile_of_ne {x : File} (h : g ≠ f) : (s.setFile f x).file g = s.file g := by
  simp [Sys.setFile, h]

section

variable (h : Piped s X)
include h

theorem setRef_step {n : Nat} (hn : n = 0 → (s.file f).pipe = none) :
    PipeStep s (s.setFile f ⟨n, (s.file f).pipe⟩) X := by
  refine .of_congr h rfl rfl rfl rfl rfl rfl ?_ ?_
  · intro g
    by_cases hg : g = f
    · rw [hg, setFile_self]
    · rw [setFile_of_ne hg]
  · intro g
    by_cases hg : g = f
    · rw [hg, setFile_self]
      exact hn
    · rw [setFile_of_ne hg]
      exact h.files.free g

theorem filealloc_step (hs : s.filealloc = some (f, s')) : PipeStep s s' X := by
  unfold Sys.filealloc at hs
  split at hs
  · cases hs
  · cases hs
    exact setRef_step h nofun

theorem filedup_step (hs : s.filedup f = some s') : PipeStep s s' X := by
  unfold Sys.filedup at hs
  split at hs
  · cases hs
  · cases hs
    exact setRef_step h fun h0 => (by omega)

theorem fdalloc_step {fd : Fin NOFILE} (hs : s.fdalloc p f = some (fd, s')) : PipeStep s s' X := by
  unfold Sys.fdalloc at hs
  split at hs
  · cases hs
  · cases hs
    exact setOfile_step h p fd (some f)

end

/-! ## Closing -/

theorem runMem_eq_some {α : Type} {x : Prog Mem α} {a : α} (hs : s.runMem x = some (a, s')) :
    x.run s.mem = .done a s'.mem ∧ s' = { s with mem := s'.mem } := by
  unfold Sys.runMem at hs
  cases hrun : x.run s.mem with
  | done b m =>
    rw [hrun] at hs
    cases hs
    exact ⟨rfl, rfl⟩
  | panicked _ _ =>
    rw [hrun] at hs
    cases hs
  | stuck _ =>
    rw [hrun] at hs
    cases hs

theorem endWord_not (w : Bool) : endWord (!w) ≠ endWord w := by
  cases w <;> decide

theorem both_zero_iff (m : Mem) (pi : UInt64) (w : Bool) :
    (m.page pi 0 = 0 ∧ m.page pi 1 = 0) ↔
      m.page pi (endWord w) = 0 ∧ m.page pi (endWord !w) = 0 := by
  cases w with
  | false => exact Iff.rfl
  | true => exact and_comm

/-- The last end but one is closed: the pipe stays. -/
theorem FilesOk.closeOne (h : FilesOk m file) (hf : (file f).pipe = some (pi, w))
    (hother : m.page pi (endWord !w) ≠ 0) :
    pipeSet (update file f ⟨0, none⟩) = pipeSet file ∧
      FilesOk (m.setWord pi (endWord w) 0) (update file f ⟨0, none⟩) := by
  obtain ⟨g, hg⟩ := h.other f pi w hf hother
  have hgf : g ≠ f := by
    rintro rfl
    rw [hf] at hg
    have := congrArg Prod.snd (Option.some.inj hg)
    cases w <;> simp at this
  refine ⟨?_, ?_, ?_, ?_, ?_⟩
  · ext pg
    simp only [mem_pipeSet, pipe_update_none]
    constructor
    · rintro ⟨k, v, -, hk⟩
      exact ⟨k, v, hk⟩
    · rintro ⟨k, v, hk⟩
      by_cases hkf : k = f
      · rw [hkf, hf] at hk
        cases hk
        exact ⟨g, !w, hgf, hg⟩
      · exact ⟨k, v, hkf, hk⟩
  · intro k hk
    by_cases hkf : k = f
    · rw [hkf]
      simp
    · rw [update_of_ne hkf] at hk ⊢
      exact h.free k hk
  · intro k l x hk hl
    exact h.inj k l x ((pipe_update_none x).mp hk).2 ((pipe_update_none x).mp hl).2
  · intro k pg v hk
    obtain ⟨hkf, hk⟩ := (pipe_update_none _).mp hk
    have hold := h.opened k pg v hk
    by_cases hpg : pg = pi
    · rw [hpg] at hk hold ⊢
      have hvw : v ≠ w := fun hv => hkf (h.inj k f (pi, w) (hv ▸ hk) hf)
      obtain rfl : v = !w := by cases v <;> cases w <;> simp_all
      rw [setWord_page_other (endWord_not w)]
      exact hold
    · rw [setWord_page_of_ne hpg]
      exact hold
  · intro k pg v hk hflag
    obtain ⟨hkf, hk⟩ := (pipe_update_none _).mp hk
    by_cases hpg : pg = pi
    · rw [hpg] at hk hflag
      have hvw : v ≠ w := fun hv => hkf (h.inj k f (pi, w) (hv ▸ hk) hf)
      obtain rfl : v = !w := by cases v <;> cases w <;> simp_all
      rw [Bool.not_not, setWord_page_self] at hflag
      exact absurd rfl hflag
    · rw [setWord_page_of_ne hpg] at hflag
      obtain ⟨l, hl⟩ := h.other k pg v hk hflag
      refine ⟨l, (pipe_update_none _).mpr ⟨?_, hl⟩⟩
      rintro rfl
      rw [hf] at hl
      exact hpg (congrArg Prod.fst (Option.some.inj hl)).symm

/-- The last end is closed: the pipe is gone. -/
theorem FilesOk.closeLast (h : FilesOk m file) (hf : (file f).pipe = some (pi, w))
    (hother : m.page pi (endWord !w) = 0) (hagree : Agree m m' ((pipeSet file).erase pi).val) :
    pipeSet (update file f ⟨0, none⟩) = (pipeSet file).erase pi ∧
      FilesOk m' (update file f ⟨0, none⟩) := by
  have hne : ∀ k pg v, k ≠ f → (file k).pipe = some (pg, v) → pg ≠ pi := by
    rintro k pg v hkf hk rfl
    have hopen := h.opened k pg v hk
    by_cases hvw : v = w
    · exact hkf (h.inj k f (pg, w) (hvw ▸ hk) hf)
    · obtain rfl : v = !w := by cases v <;> cases w <;> simp_all
      cases hother.symm.trans hopen
  have hset : pipeSet (update file f ⟨0, none⟩) = (pipeSet file).erase pi := by
    ext pg
    simp only [mem_pipeSet, pipe_update_none, Finset.mem_erase]
    constructor
    · rintro ⟨k, v, hkf, hk⟩
      exact ⟨hne k pg v hkf hk, k, v, hk⟩
    · rintro ⟨hpg, k, v, hk⟩
      refine ⟨k, v, ?_, hk⟩
      rintro rfl
      rw [hf] at hk
      exact hpg (congrArg Prod.fst (Option.some.inj hk)).symm
  have hpage : ∀ k pg v, k ≠ f → (file k).pipe = some (pg, v) → m'.page pg = m.page pg :=
    fun k pg v hkf hk => hagree pg
      (Finset.mem_erase.mpr ⟨hne k pg v hkf hk, mem_pipeSet.mpr ⟨k, v, hk⟩⟩)
  refine ⟨hset, ?_, ?_, ?_, ?_⟩
  · intro k hk
    by_cases hkf : k = f
    · rw [hkf]
      simp
    · rw [update_of_ne hkf] at hk ⊢
      exact h.free k hk
  · intro k l x hk hl
    exact h.inj k l x ((pipe_update_none x).mp hk).2 ((pipe_update_none x).mp hl).2
  · intro k pg v hk
    obtain ⟨hkf, hk⟩ := (pipe_update_none _).mp hk
    rw [hpage k pg v hkf hk]
    exact h.opened k pg v hk
  · intro k pg v hupd hflag
    obtain ⟨hkf, hk⟩ := (pipe_update_none _).mp hupd
    rw [hpage k pg v hkf hk] at hflag
    obtain ⟨l, hl⟩ := h.other k pg v hk hflag
    refine ⟨l, (pipe_update_none _).mpr ⟨?_, hl⟩⟩
    rintro rfl
    rw [hf] at hl
    exact hne k pg v hkf hk (congrArg Prod.fst (Option.some.inj hl)).symm

section

variable (h : Piped s X)
include h

/-- `pipeclose` frees the page when the other end is closed, and takes the end from the table. -/
theorem pipeclose_post (hpipe : (s.file f).pipe = some (pi, w)) :
    After (pipeclose pi w) (fun freed m' =>
      Shift s.mem m' X (pipePages s.file) (pipePages (update s.file f ⟨0, none⟩)) ∧
      FilesOk m' (update s.file f ⟨0, none⟩) ∧
      freed = decide (s.mem.page pi (endWord !w) = 0)) s.mem := by
  have hmem : pi ∈ pipeSet s.file := mem_pipeSet.mpr ⟨f, w, hpipe⟩
  have hval : pipePages s.file = {pi} + ((pipeSet s.file).erase pi).val := by
    rw [singleton_add, ← Finset.insert_val_of_notMem (Finset.notMem_erase pi _),
      Finset.insert_erase hmem]
    rfl
  have hpool := h.pool
  rw [hval] at hpool
  have hnot := notMem_of_pool hpool
  have hX : pi ∉ X := fun hx => hnot (mem_add.mpr (.inr hx))
  rw [pipeclose]
  simp only [ensures_bind, ensures_modify, ensures_gets, both_zero_iff _ pi w, setWord_page_self,
    setWord_page_other (endWord_not w), true_and, decide_eq_true_iff]
  by_cases hother : s.mem.page pi (endWord !w) = 0
  · rw [if_pos hother, ensures_bind]
    have hwrite : Agree s.mem (s.mem.setWord pi (endWord w) 0) (((pipeSet s.file).erase pi).val + X) :=
      .setWord hnot
    have hpool1 : Pool (s.mem.setWord pi (endWord w) 0) ({pi} + (((pipeSet s.file).erase pi).val + X)) := by
      rw [← add_assoc]
      exact ⟨hpool.nodup, hpool.good⟩
    refine ensures_mono (kfree_shift hpool1) fun _ m' hs' => ?_
    have hagree := hwrite.trans hs'.agree
    obtain ⟨hset, hfiles⟩ := h.files.closeLast hpipe hother
      (hagree.mono fun q hq => mem_add.mpr (.inl hq))
    refine ⟨⟨?_, hagree.mono fun q hq => mem_add.mpr (.inr hq), hs'.good⟩, hfiles,
      (decide_eq_true hother).symm⟩
    have hfree := hs'.pages
    rw [zero_add] at hfree
    have hsame : (s.mem.setWord pi (endWord w) 0).free = s.mem.free := rfl
    rw [hval, pipePages, hset, hfree, hsame]
    abel
  · rw [if_neg hother]
    obtain ⟨hset, hfiles⟩ := h.files.closeOne hpipe hother
    refine ⟨⟨?_, .setWord hX, hpool.good⟩, hfiles, (decide_eq_false hother).symm⟩
    rw [pipePages, pipePages, hset]
    rfl

/-- What `fileclose` does: it drops a reference, or takes the entry from the table and closes its end
of the pipe. -/
theorem fileclose_eq_some (hs : s.fileclose f = some s') :
    0 < (s.file f).ref ∧
      (1 < (s.file f).ref ∧ s' = s.setFile f ⟨(s.file f).ref - 1, (s.file f).pipe⟩ ∨
      (s.file f).ref = 1 ∧ (s.file f).pipe = none ∧ s' = s.setFile f ⟨0, none⟩ ∨
      (s.file f).ref = 1 ∧ ∃ pi w m, (s.file f).pipe = some (pi, w) ∧
        Shift s.mem m X (pipePages s.file) (pipePages (update s.file f ⟨0, none⟩)) ∧
        FilesOk m (update s.file f ⟨0, none⟩) ∧
        s' = { s.setFile f ⟨0, none⟩ with mem := m }.note
          (.closed pi w (decide (s.mem.page pi (endWord !w) = 0)))) := by
  unfold Sys.fileclose at hs
  split at hs
  · cases hs
  rename_i hpos
  refine ⟨by omega, ?_⟩
  split at hs
  · rename_i hmore
    cases hs
    exact .inl ⟨by omega, rfl⟩
  have hone : (s.file f).ref = 1 := by omega
  cases hpipe : (s.file f).pipe with
  | none =>
    rw [hpipe] at hs
    cases hs
    exact .inr (.inl ⟨hone, rfl, rfl⟩)
  | some k =>
    obtain ⟨pi, w⟩ := k
    rw [hpipe] at hs
    obtain ⟨⟨freed, s1⟩, hrun, hpure⟩ := bind_eq_some_iff.mp hs
    cases hpure
    obtain ⟨hdone, heq⟩ := runMem_eq_some hrun
    obtain ⟨hshift, hfiles, hfreed⟩ := of_run_eq_done (pipeclose_post h hpipe) hdone
    refine .inr (.inr ⟨hone, pi, w, s1.mem, rfl, hshift, hfiles, ?_⟩)
    rw [heq, ← hfreed]

theorem fileclose_step (hs : s.fileclose f = some s') : PipeStep s s' X := by
  obtain ⟨-, ⟨hmore, rfl⟩ | ⟨-, hpipe, rfl⟩ | ⟨-, pi, w, m, hpipe, hshift, hfiles, rfl⟩⟩ :=
    fileclose_eq_some h hs
  · exact setRef_step h fun h0 => absurd h0 (by omega)
  · have hsame := @setRef_step X s f h 0 fun _ => hpipe
    rwa [hpipe] at hsame
  · exact ⟨rfl, rfl, rfl, rfl, hshift, hfiles, fun hlog => hlog.closed h.files hpipe⟩

theorem closeBoth_step (hs : s.closeBoth rf wf = some s') : PipeStep s s' X := by
  obtain ⟨s1, h1, h2⟩ := bind_eq_some_iff.mp hs
  have hstep := fileclose_step h h1
  exact hstep.trans (fileclose_step (hstep.piped h) h2)

theorem sysClose_step {fd : Fin NOFILE} (hs : s.sysClose p fd = some s') : PipeStep s s' X := by
  unfold Sys.sysClose at hs
  split at hs
  · cases hs
    exact .refl h
  · have hstep := setOfile_step h p fd none
    exact hstep.trans (fileclose_step (hstep.piped h) hs)

theorem sysDup_step {fd : Fin NOFILE} (hs : s.sysDup p fd = some s') : PipeStep s s' X := by
  unfold Sys.sysDup at hs
  split at hs
  · cases hs
    exact .refl h
  · split at hs
    · cases hs
      exact .refl h
    · rename_i hfd
      have hstep := fdalloc_step h hfd
      exact hstep.trans (filedup_step (hstep.piped h) hs)

end

/-- A loop over the descriptors whose rounds concern files only. -/
theorem foldlM_step {α : Type} {body : Sys → α → Option Sys} (hbody : ∀ s s' a, Piped s X →
    body s a = some s' → PipeStep s s' X) (l : List α) (h : Piped s X)
    (hs : l.foldlM body s = some s') : PipeStep s s' X := by
  induction l generalizing s with
  | nil =>
    cases hs
    exact .refl h
  | cons a l ih =>
    rw [List.foldlM_cons] at hs
    obtain ⟨s1, h1, h2⟩ := bind_eq_some_iff.mp hs
    have hstep := hbody s s1 a h h1
    exact hstep.trans (ih (hstep.piped h) h2)

theorem closeAll_step (h : Piped s X) (hs : s.closeAll p = some s') : PipeStep s s' X :=
  foldlM_step (fun _ _ _ h hs => sysClose_step h hs) _ h hs

theorem dupAll_step {np : Process.Slot} (h : Piped s X) (hs : s.dupAll p np = some s') : PipeStep s s' X := by
  refine foldlM_step (fun s s' fd h hs => ?_) _ h hs
  split at hs
  · cases hs
    exact .refl h
  · obtain ⟨s1, h1, h2⟩ := bind_eq_some_iff.mp hs
    cases h2
    have hstep := filedup_step h h1
    exact hstep.trans (setOfile_step (hstep.piped h) np fd _)

/-! ## Opening -/

theorem filealloc_eq_some (hs : s.filealloc = some (f, s')) :
    (s.file f).ref = 0 ∧ s' = s.setFile f ⟨1, (s.file f).pipe⟩ := by
  unfold Sys.filealloc at hs
  split at hs
  · cases hs
  · rename_i hfind
    cases hs
    have := List.find?_some hfind
    exact ⟨of_decide_eq_true this, rfl⟩

/-- The file table with the two ends of a new pipe. -/
def withPipe (file : Fin NFILE → File) (rf wf : Fin NFILE) (pi : UInt64) : Fin NFILE → File :=
  let file := update file rf { file rf with pipe := some (pi, false) }
  update file wf { file wf with pipe := some (pi, true) }

theorem withPipe_iff (hne : wf ≠ rf) (hr : (file rf).pipe = none)
    (hw : (file wf).pipe = none) {pg : UInt64} {v : Bool} :
    (withPipe file rf wf pi g).pipe = some (pg, v) ↔
      (pg = pi ∧ g = if v then wf else rf) ∨ (file g).pipe = some (pg, v) := by
  unfold withPipe
  by_cases hgw : g = wf
  · subst hgw
    rw [update_self, hw]
    cases v <;> simp [hne, eq_comm]
  · rw [update_of_ne hgw]
    by_cases hgr : g = rf
    · subst hgr
      rw [update_self, hr]
      cases v <;> simp [hgw, eq_comm]
    · rw [update_of_ne hgr]
      cases v <;> simp [hgw, hgr]

theorem FilesOk.withPipe (h : FilesOk m file) (hne : wf ≠ rf)
    (hr : (file rf).pipe = none) (hw : (file wf).pipe = none) (hrref : (file rf).ref ≠ 0)
    (hwref : (file wf).ref ≠ 0) (hnew : pi ∉ pipeSet file) (hagree : Agree m m' (pipePages file))
    (hread : m'.page pi (endWord false) = 1) (hwrite : m'.page pi (endWord true) = 1) :
    pipeSet (Kernel.withPipe file rf wf pi) = insert pi (pipeSet file) ∧
      FilesOk m' (Kernel.withPipe file rf wf pi) := by
  have hiff : ∀ g pg v, (Kernel.withPipe file rf wf pi g).pipe = some (pg, v) ↔
      (pg = pi ∧ g = if v then wf else rf) ∨ (file g).pipe = some (pg, v) :=
    fun g pg v => withPipe_iff hne hr hw
  have hold : ∀ g pg v, (file g).pipe = some (pg, v) → pg ≠ pi ∧ m'.page pg = m.page pg := by
    intro g pg v hg
    have hmem : pg ∈ pipeSet file := mem_pipeSet.mpr ⟨g, v, hg⟩
    exact ⟨fun heq => hnew (heq ▸ hmem), hagree pg hmem⟩
  refine ⟨?_, ?_, ?_, ?_, ?_⟩
  · ext pg
    simp only [mem_pipeSet, Finset.mem_insert, hiff]
    constructor
    · rintro ⟨g, v, ⟨rfl, -⟩ | hg⟩
      · exact .inl rfl
      · exact .inr ⟨g, v, hg⟩
    · rintro (rfl | ⟨g, v, hg⟩)
      · exact ⟨rf, false, .inl ⟨rfl, rfl⟩⟩
      · exact ⟨g, v, .inr hg⟩
  · intro g hg
    unfold Kernel.withPipe at hg ⊢
    by_cases hgw : g = wf
    · subst hgw
      rw [update_self, update_of_ne hne] at hg
      exact absurd hg hwref
    · rw [update_of_ne hgw] at hg ⊢
      by_cases hgr : g = rf
      · subst hgr
        rw [update_self] at hg
        exact absurd hg hrref
      · rw [update_of_ne hgr] at hg ⊢
        exact h.free g hg
  · intro g k x hg hk
    obtain ⟨pg, v⟩ := x
    rcases (hiff g pg v).mp hg with ⟨hpg, rfl⟩ | hg
    · rcases (hiff k pg v).mp hk with ⟨-, rfl⟩ | hk
      · rfl
      · exact absurd hpg (hold k pg v hk).1
    · rcases (hiff k pg v).mp hk with ⟨hpg, -⟩ | hk
      · exact absurd hpg (hold g pg v hg).1
      · exact h.inj g k _ hg hk
  · intro g pg v hg
    rcases (hiff g pg v).mp hg with ⟨rfl, -⟩ | hg
    · cases v with
      | false => exact hread
      | true => exact hwrite
    · rw [(hold g pg v hg).2]
      exact h.opened g pg v hg
  · intro g pg v hg hflag
    rcases (hiff g pg v).mp hg with ⟨rfl, -⟩ | hg
    · exact ⟨_, (hiff _ _ _).mpr (.inl ⟨rfl, rfl⟩)⟩
    · rw [(hold g pg v hg).2] at hflag
      obtain ⟨k, hk⟩ := h.other g pg v hg hflag
      exact ⟨k, (hiff _ _ _).mpr (.inr hk)⟩

theorem LogOk.made (h : LogOk log file) (hne : wf ≠ rf)
    (hr : (file rf).pipe = none) (hw : (file wf).pipe = none) (hnew : pi ∉ pipeSet file) :
    LogOk (.made pi :: log) (Kernel.withPipe file rf wf pi) := by
  refine ⟨⟨fun w => h.openEnd_eq_false fun f hf => hnew (mem_pipeSet.mpr ⟨f, w, hf⟩), h.legal⟩, ?_⟩
  intro qi v
  simp only [openEnd, Bool.or_eq_true, decide_eq_true_iff, h.ends, withPipe_iff hne hr hw]
  constructor
  · rintro (rfl | ⟨g, hg⟩)
    · exact ⟨_, .inl ⟨rfl, rfl⟩⟩
    · exact ⟨g, .inr hg⟩
  · rintro ⟨g, ⟨rfl, -⟩ | hg⟩
    · exact .inl rfl
    · exact .inr ⟨g, hg⟩

/-- Both ends of a new pipe are in the file table, or nothing has happened. -/
theorem pipealloc_step {r : Option (Fin NFILE × Fin NFILE)} (h : Piped s X)
    (hs : s.pipealloc = some (r, s')) : PipeStep s s' X := by
  unfold Sys.pipealloc at hs
  split at hs
  · cases hs
    exact .refl h
  rename_i rf s1 hrf
  have hstep1 := filealloc_step h hrf
  have h1 := hstep1.piped h
  split at hs
  · obtain ⟨s2, hclose, hpure⟩ := bind_eq_some_iff.mp hs
    cases hpure
    exact hstep1.trans (fileclose_step h1 hclose)
  rename_i wf s2 hwf
  have hstep2 := filealloc_step h1 hwf
  have h2 := hstep2.piped h1
  obtain ⟨⟨page, s3⟩, hrun, hs⟩ := bind_eq_some_iff.mp hs
  obtain ⟨hdone, heq⟩ := runMem_eq_some hrun
  have hpost := of_run_eq_done h2.pool.kalloc_after hdone
  rcases hpost with ⟨rfl, hmem⟩ | ⟨pi, rfl, hA⟩
  · have hsame : s3 = s2 := by rw [heq, hmem]
    rw [hsame] at hs
    obtain ⟨s4, hclose, hs⟩ := bind_eq_some_iff.mp hs
    obtain ⟨s5, hclose', hpure⟩ := bind_eq_some_iff.mp hs
    cases hpure
    have hstep4 := fileclose_step h2 hclose
    have hstep5 := fileclose_step (hstep4.piped h2) hclose'
    exact ((hstep1.trans hstep2).trans hstep4).trans hstep5
  · cases hs
    refine (hstep1.trans hstep2).trans ?_
    obtain ⟨m3, rfl⟩ : ∃ m3, s3 = { s2 with mem := m3 } := ⟨_, heq⟩
    obtain ⟨hrref, hs1⟩ := filealloc_eq_some hrf
    obtain ⟨hwref, hs2⟩ := filealloc_eq_some hwf
    have hne : wf ≠ rf := by
      rintro rfl
      rw [hs1, setFile_self] at hwref
      cases hwref
    have hfr : s2.file rf = ⟨1, none⟩ := by
      rw [hs2, setFile_of_ne hne.symm, hs1, setFile_self, h.files.free rf hrref]
    have hfw : s2.file wf = ⟨1, none⟩ := by
      rw [hs2, setFile_self, h1.files.free wf hwref]
    have hnd := hA.pool.nodup
    rw [add_cons] at hnd
    have hnot := (nodup_cons.mp hnd).1
    rw [mem_add, not_or] at hnot
    have hagree : Agree s2.mem ((m3.setWord pi (endWord false) 1).setWord pi (endWord true) 1)
        (pipePages s2.file + X) := (hA.agree.trans (.setWord hnot.2)).trans (.setWord hnot.2)
    have hnew : pi ∉ pipeSet s2.file := fun hpi => hnot.2 (mem_add.mpr (.inl hpi))
    have hends : endWord false ≠ endWord true := endWord_not true
    obtain ⟨hset, hfiles⟩ := h2.files.withPipe hne (by rw [hfr]) (by rw [hfw]) (by rw [hfr]; decide)
      (by rw [hfw]; decide) hnew (hagree.mono fun q hq => mem_add.mpr (.inl hq))
      (by rw [setWord_page_other hends, setWord_page_self]) (by rw [setWord_page_self])
    refine ⟨rfl, rfl, rfl, rfl, ⟨?_, hagree.mono fun q hq => mem_add.mpr (.inr hq),
      hA.pool.good⟩, hfiles, fun hlog => hlog.made hne (by rw [hfr]) (by rw [hfw]) hnew⟩
    show (pipeSet (withPipe s2.file rf wf pi)).val + (m3.free : Multiset UInt64) = _
    rw [hset, Finset.insert_val_of_notMem hnew, hA.free, cons_add, add_cons]
    rfl

theorem sysPipe_step {copyout : Bool} (h : Piped s X) (hs : s.sysPipe p copyout = some s') : PipeStep s s' X := by
  obtain ⟨⟨r, s1⟩, halloc, hs⟩ := bind_eq_some_iff.mp hs
  have hstep1 := pipealloc_step h halloc
  have h1 := hstep1.piped h
  refine hstep1.trans ?_
  dsimp only at hs
  split at hs
  · cases hs
    exact .refl h1
  rename_i rf wf
  split at hs
  · exact closeBoth_step h1 hs
  rename_i fd0 s2 hfd0
  have hstep2 := fdalloc_step h1 hfd0
  have h2 := hstep2.piped h1
  refine hstep2.trans ?_
  split at hs
  · have hclear := setOfile_step h2 p fd0 none
    exact hclear.trans (closeBoth_step (hclear.piped h2) hs)
  rename_i fd1 s3 hfd1
  have hstep3 := fdalloc_step h2 hfd1
  have h3 := hstep3.piped h2
  refine hstep3.trans ?_
  split at hs
  · cases hs
    exact .refl h3
  · have hclear := setOfile_step h3 p fd0 none
    have hclear' := setOfile_step (hclear.piped h3) p fd1 none
    exact (hclear.trans hclear').trans (closeBoth_step (hclear'.piped (hclear.piped h3)) hs)

end Xv6.Kernel
