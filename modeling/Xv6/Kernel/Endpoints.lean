import Xv6.Kernel.Runs

/-!
# The ends of the pipes

The reference count of an entry of the file table is the number of descriptors for it, in all
processes together; while a call is on its way it may hold some more references. So an entry stays
what it is as long as a descriptor points to it, and a process inside of `piperead` or `pipewrite`,
which keeps its descriptor, uses a pipe whose end is open.
-/

namespace Xv6.Kernel

open Coop Prog Vm Data Process Function Multiset
open Option (bind_eq_some_iff ite_none_right_eq_some)

variable {s s' s'' : Sys} {p q : Slot} {f g : Fin NFILE} {fd : Fin NOFILE}
  {e e' : Multiset (Fin NFILE)} {X : Multiset UInt64}

/-! ## References -/

def fileOf (o : Option (Fin NFILE)) : Multiset (Fin NFILE) := o.elim 0 fun f => {f}

def opened (of : Slot → Fin NOFILE → Option (Fin NFILE)) : Multiset (Fin NFILE) :=
  total fun k : Slot × Fin NOFILE => fileOf (of k.1 k.2)

theorem mem_opened {of : Slot → Fin NOFILE → Option (Fin NFILE)} (h : of q fd = some f) : f ∈ opened of := by
  rw [opened, mem_total]
  exact ⟨(q, fd), by rw [h]; exact mem_singleton_self f⟩

theorem opened_setOfile (s : Sys) (p : Slot) (fd : Fin NOFILE) (o : Option (Fin NFILE)) :
    opened (s.setOfile p fd o).ofile + fileOf (s.ofile p fd) = opened s.ofile + fileOf o := by
  have hself : (s.setOfile p fd o).ofile p fd = o := by simp [Sys.setOfile]
  have hother : ∀ k : Slot × Fin NOFILE, k ≠ (p, fd) →
      fileOf ((s.setOfile p fd o).ofile k.1 k.2) = fileOf (s.ofile k.1 k.2) := by
    rintro ⟨q, fd'⟩ hk
    by_cases hq : q = p
    · subst hq
      have hfd : fd' ≠ fd := fun h => hk (by rw [h])
      simp [Sys.setOfile, hfd]
    · simp [Sys.setOfile, hq]
  rw [opened, opened, total_eq_add_rest _ (p, fd), total_eq_add_rest _ (p, fd), hself,
    rest_congr hother]
  abel

/-- `e` are the references that are not in a descriptor. -/
def Balanced (s : Sys) (e : Multiset (Fin NFILE)) : Prop :=
  ∀ f, (s.file f).ref = (opened s.ofile + e).count f

/-- The other processes keep their descriptors and what these stand for. -/
structure Quiet (p : Slot) (s s' : Sys) : Prop where
  io : s'.io = s.io
  ofile : ∀ q, q ≠ p → s'.ofile q = s.ofile q
  pipe : ∀ q fd f, q ≠ p → s.ofile q fd = some f → (s'.file f).pipe = (s.file f).pipe

theorem Quiet.refl (p : Slot) (s : Sys) : Quiet p s s := ⟨rfl, fun _ _ => rfl, fun _ _ _ _ _ => rfl⟩

theorem Quiet.trans (h : Quiet p s s') (h' : Quiet p s' s'') : Quiet p s s'' where
  io := h'.io.trans h.io
  ofile q hq := (h'.ofile q hq).trans (h.ofile q hq)
  pipe q fd f hq hf := by
    have hf' : s'.ofile q fd = some f := by rw [h.ofile q hq, hf]
    exact (h'.pipe q fd f hq hf').trans (h.pipe q fd f hq hf)

/-- A part of a call of `p` that leaves the references `e` outside of descriptors. -/
def Moves (p : Slot) (s s' : Sys) (e : Multiset (Fin NFILE)) : Prop := Balanced s' e ∧ Quiet p s s'

theorem Moves.trans (h : Moves p s s' e) (h' : Moves p s' s'' e') : Moves p s s'' e' :=
  ⟨h'.1, h.2.trans h'.2⟩

theorem Balanced.moves (hb : Balanced s e) : Moves p s s e := ⟨hb, .refl p s⟩

theorem quiet_setOfile (o : Option (Fin NFILE)) : Quiet p s (s.setOfile p fd o) := by
  refine ⟨rfl, fun q hq => ?_, fun _ _ _ _ _ => rfl⟩
  simp [Sys.setOfile, hq]

theorem setOfile_none_moves (hb : Balanced s e) (hf : s.ofile p fd = some f) :
    Moves p s (s.setOfile p fd none) (f ::ₘ e) := by
  refine ⟨fun g => ?_, quiet_setOfile none⟩
  have hopened := opened_setOfile s p fd none
  rw [hf, fileOf, fileOf, Option.elim_some, Option.elim_none, add_zero] at hopened
  show (s.file g).ref = _
  rw [hb g, ← hopened, ← singleton_add, add_assoc]

theorem setOfile_some_moves (hb : Balanced s (f ::ₘ e))
    (hfree : s.ofile p fd = none) : Moves p s (s.setOfile p fd (some f)) e := by
  refine ⟨fun g => ?_, quiet_setOfile _⟩
  have hopened := opened_setOfile s p fd (some f)
  rw [hfree, fileOf, fileOf, Option.elim_some, Option.elim_none, add_zero] at hopened
  show (s.file g).ref = _
  rw [hb g, hopened, ← singleton_add, add_assoc]

theorem fdalloc_eq_some (hs : s.fdalloc p f = some (fd, s')) :
    s.ofile p fd = none ∧ s' = s.setOfile p fd (some f) := by
  unfold Sys.fdalloc at hs
  split at hs
  · cases hs
  · rename_i hfind
    cases hs
    exact ⟨by simpa using List.find?_some hfind, rfl⟩

theorem fdalloc_moves (hb : Balanced s (f ::ₘ e)) (hs : s.fdalloc p f = some (fd, s')) : Moves p s s' e := by
  obtain ⟨hfree, rfl⟩ := fdalloc_eq_some hs
  exact setOfile_some_moves hb hfree

/-- The reference count of an entry is changed together with the references to it. -/
theorem setRef_moves (p : Slot) {n : Nat} (hn : n = (opened s.ofile + e').count f)
    (hother : ∀ g, g ≠ f → (opened s.ofile + e').count g = (s.file g).ref) :
    Moves p s (s.setFile f ⟨n, (s.file f).pipe⟩) e' := by
  refine ⟨fun g => ?_, rfl, fun _ _ => rfl, fun q fd g _ _ => ?_⟩
  · by_cases hg : g = f
    · rw [hg, setFile_self]
      exact hn
    · rw [setFile_of_ne hg]
      exact (hother g hg).symm
  · by_cases hg : g = f
    · rw [hg, setFile_self]
    · rw [setFile_of_ne hg]

theorem filealloc_moves (p : Slot) (hb : Balanced s e) (hs : s.filealloc = some (f, s')) :
    Moves p s s' (f ::ₘ e) := by
  obtain ⟨hzero, rfl⟩ := filealloc_eq_some hs
  refine setRef_moves p ?_ fun g hg => ?_
  · rw [add_cons, count_cons_self, ← hb f, hzero]
  · rw [add_cons, count_cons_of_ne hg, hb g]

theorem filedup_eq_some (hs : s.filedup f = some s') : s' = s.setFile f ⟨(s.file f).ref + 1, (s.file f).pipe⟩ := by
  unfold Sys.filedup at hs
  split at hs
  · cases hs
  · cases hs
    rfl

theorem filedup_moves (p : Slot) (hb : Balanced s e) (hs : s.filedup f = some s') : Moves p s s' (f ::ₘ e) := by
  obtain rfl := filedup_eq_some hs
  refine setRef_moves p ?_ fun g hg => ?_
  · rw [add_cons, count_cons_self, ← hb f]
  · rw [add_cons, count_cons_of_ne hg, hb g]

/-- The last reference goes: nobody has a descriptor for the entry. -/
theorem Balanced.notMem_of_ref_eq_one (hb : Balanced s (f ::ₘ e)) (hone : (s.file f).ref = 1) :
    f ∉ opened s.ofile := by
  have hcount := hb f
  rw [hone, add_cons, count_cons_self, count_add] at hcount
  rw [← count_eq_zero]
  omega

/-- An entry that no descriptor stands for is taken from the table, or put into it. -/
theorem entry_moves (p : Slot) (hb : Balanced s e) (hnot : f ∉ opened s.ofile) {x : File}
    (hx : x.ref = e'.count f) (hother : ∀ g, g ≠ f → e'.count g = e.count g)
    (hfile : s'.file = update s.file f x) (hofile : s'.ofile = s.ofile) (hio : s'.io = s.io) :
    Moves p s s' e' := by
  refine ⟨fun g => ?_, hio, fun _ _ => by rw [hofile], fun q fd g _ hg => ?_⟩
  · rw [hfile, hofile]
    by_cases hg : g = f
    · rw [hg, update_self, hx, count_add, count_eq_zero.mpr hnot, zero_add]
    · rw [update_of_ne hg, hb g, count_add, count_add, hother g hg]
  · have hgf : g ≠ f := by
      rintro rfl
      exact hnot (mem_opened hg)
    rw [hfile, update_of_ne hgf]

theorem fileclose_moves (p : Slot) (h : Piped s X) (hb : Balanced s (f ::ₘ e)) (hs : s.fileclose f = some s') :
    Moves p s s' e := by
  have hcount := hb f
  rw [add_cons, count_cons_self] at hcount
  -- the last reference to the entry
  have hlast : ∀ s', (s.file f).ref = 1 → s'.file = update s.file f ⟨0, none⟩ →
      s'.ofile = s.ofile → s'.io = s.io → Moves p s s' e := by
    intro s' hone hfile hofile hio
    rw [hone, count_add] at hcount
    refine entry_moves p hb (hb.notMem_of_ref_eq_one hone) ?_ (fun g hg => ?_) hfile hofile hio
    · show 0 = _
      omega
    · rw [count_cons_of_ne hg]
  obtain ⟨-, ⟨hmore, rfl⟩ | ⟨hone, hpipe, rfl⟩ | ⟨hone, pi, w, m, hpipe, -, -, rfl⟩⟩ :=
    fileclose_eq_some h hs
  · refine setRef_moves p (by omega) fun g hg => ?_
    rw [hb g, add_cons, count_cons_of_ne hg]
  · exact hlast _ hone rfl rfl rfl
  · exact hlast _ hone rfl rfl rfl

/-! ## The calls -/

theorem closeBoth_moves (p : Slot) {rf wf : Fin NFILE} (h : Piped s X) (hb : Balanced s (rf ::ₘ wf ::ₘ e))
    (hs : s.closeBoth rf wf = some s') : Moves p s s' e := by
  obtain ⟨s1, h1, h2⟩ := bind_eq_some_iff.mp hs
  have hmoves := fileclose_moves p h hb h1
  exact hmoves.trans (fileclose_moves p ((fileclose_step h h1).piped h) hmoves.1 h2)

/-- Both entries of a new pipe have one reference, or nothing has happened. -/
theorem pipealloc_moves (p : Slot) {r : Option (Fin NFILE × Fin NFILE)} (h : Piped s X) (hb : Balanced s e)
    (hs : s.pipealloc = some (r, s')) :
    Moves p s s' (r.elim e fun k => k.1 ::ₘ k.2 ::ₘ e) := by
  unfold Sys.pipealloc at hs
  split at hs
  · cases hs
    exact hb.moves
  rename_i rf s1 hrf
  have hmoves1 := filealloc_moves p hb hrf
  have h1 := (filealloc_step h hrf).piped h
  split at hs
  · obtain ⟨s2, hclose, hpure⟩ := bind_eq_some_iff.mp hs
    cases hpure
    exact hmoves1.trans (fileclose_moves p h1 hmoves1.1 hclose)
  rename_i wf s2 hwf
  have hmoves2 := filealloc_moves p hmoves1.1 hwf
  have h2 := (filealloc_step h1 hwf).piped h1
  have hb2 : Balanced s2 (rf ::ₘ wf ::ₘ e) := by
    rw [cons_swap]
    exact hmoves2.1
  obtain ⟨⟨page, s3⟩, hrun, hs⟩ := bind_eq_some_iff.mp hs
  obtain ⟨hdone, heq⟩ := runMem_eq_some hrun
  rcases of_run_eq_done h2.pool.kalloc_after hdone with ⟨rfl, hmem⟩ | ⟨pi, rfl, -⟩
  · have hsame : s3 = s2 := by rw [heq, hmem]
    rw [hsame] at hs
    obtain ⟨s4, hclose, hs⟩ := bind_eq_some_iff.mp hs
    obtain ⟨s5, hclose', hpure⟩ := bind_eq_some_iff.mp hs
    cases hpure
    have hmoves4 := fileclose_moves p h2 hb2 hclose
    have hmoves5 := fileclose_moves p ((fileclose_step h2 hclose).piped h2) hmoves4.1 hclose'
    exact ((hmoves1.trans hmoves2).trans hmoves4).trans hmoves5
  · cases hs
    refine (hmoves1.trans hmoves2).trans ?_
    obtain ⟨m3, rfl⟩ : ∃ m3, s3 = { s2 with mem := m3 } := ⟨_, heq⟩
    obtain ⟨hrref, hs1⟩ := filealloc_eq_some hrf
    obtain ⟨hwref, hs2⟩ := filealloc_eq_some hwf
    have hne : wf ≠ rf := by
      rintro rfl
      rw [hs1, setFile_self] at hwref
      cases hwref
    have hrone : (s2.file rf).ref = 1 := by rw [hs2, setFile_of_ne hne.symm, hs1, setFile_self]
    have hwone : (s2.file wf).ref = 1 := by rw [hs2, setFile_self]
    have hrnot := hb2.notMem_of_ref_eq_one hrone
    have hwnot := hmoves2.1.notMem_of_ref_eq_one hwone
    have hold : ∀ g, g ≠ rf → g ≠ wf → withPipe s2.file rf wf pi g = s2.file g := by
      intro g hr hw
      rw [withPipe, update_of_ne hw, update_of_ne hr]
    have href : ∀ g, (withPipe s2.file rf wf pi g).ref = (s2.file g).ref := by
      intro g
      unfold withPipe
      by_cases hgw : g = wf
      · rw [hgw, update_self, update_of_ne hne]
      · rw [update_of_ne hgw]
        by_cases hgr : g = rf
        · rw [hgr, update_self]
        · rw [update_of_ne hgr]
    refine ⟨fun g => (href g).trans (hb2 g), rfl, fun _ _ => rfl, fun q fd g _ hg => ?_⟩
    have hmem := mem_opened hg
    refine congrArg File.pipe (hold g ?_ ?_)
    · rintro rfl
      exact hrnot hmem
    · rintro rfl
      exact hwnot hmem

theorem sysPipe_moves {copyout : Bool} (h : Piped s X) (hb : Balanced s e)
    (hs : s.sysPipe p copyout = some s') : Moves p s s' e := by
  obtain ⟨⟨r, s1⟩, halloc, hs⟩ := bind_eq_some_iff.mp hs
  have hmoves1 := pipealloc_moves p h hb halloc
  have h1 := (pipealloc_step h halloc).piped h
  refine hmoves1.trans ?_
  dsimp only at hs
  split at hs
  · cases hs
    exact hmoves1.1.moves
  rename_i rf wf
  have hb1 : Balanced s1 (rf ::ₘ wf ::ₘ e) := hmoves1.1
  split at hs
  · exact closeBoth_moves p h1 hb1 hs
  rename_i fd0 s2 hfd0
  have hmoves2 := fdalloc_moves hb1 hfd0
  have h2 := (fdalloc_step h1 hfd0).piped h1
  obtain ⟨-, hs2⟩ := fdalloc_eq_some hfd0
  have hrf : s2.ofile p fd0 = some rf := by rw [hs2]; simp [Sys.setOfile]
  refine hmoves2.trans ?_
  split at hs
  · have hclear := setOfile_none_moves hmoves2.1 hrf
    exact hclear.trans (closeBoth_moves p ((setOfile_step h2 p fd0 none).piped h2) hclear.1 hs)
  rename_i fd1 s3 hfd1
  have hmoves3 := fdalloc_moves hmoves2.1 hfd1
  have h3 := (fdalloc_step h2 hfd1).piped h2
  obtain ⟨hfree, hs3⟩ := fdalloc_eq_some hfd1
  refine hmoves3.trans ?_
  split at hs
  · cases hs
    exact hmoves3.1.moves
  · have hne : fd0 ≠ fd1 := by
      rintro rfl
      cases hrf.symm.trans hfree
    have hrf3 : s3.ofile p fd0 = some rf := by
      rw [hs3]
      simpa [Sys.setOfile, hne] using hrf
    have hclear := setOfile_none_moves hmoves3.1 hrf3
    have hwf4 : (s3.setOfile p fd0 none).ofile p fd1 = some wf := by
      rw [hs3]
      simp [Sys.setOfile, hne.symm]
    have hclear' := setOfile_none_moves hclear.1 hwf4
    have h4 := (setOfile_step h3 p fd0 none).piped h3
    have hb5 := hclear'.1
    rw [cons_swap] at hb5
    exact (hclear.trans hclear').trans
      (closeBoth_moves p ((setOfile_step h4 p fd1 none).piped h4) hb5 hs)

/-- The descriptor is there before the reference is counted. -/
theorem sysDup_moves (hb : Balanced s e) (hs : s.sysDup p fd = some s') : Moves p s s' e := by
  unfold Sys.sysDup at hs
  split at hs
  · cases hs
    exact hb.moves
  rename_i f hf
  split at hs
  · cases hs
    exact hb.moves
  rename_i fd' s1 hfd
  obtain ⟨hfree, rfl⟩ := fdalloc_eq_some hfd
  obtain rfl := filedup_eq_some hs
  have hopened := opened_setOfile s p fd' (some f)
  rw [hfree, fileOf, fileOf, Option.elim_some, Option.elim_none, add_zero] at hopened
  have hcount : ∀ g, (opened (s.setOfile p fd' (some f)).ofile + e).count g = (s.file g).ref + count g {f} := by
    intro g
    rw [hopened, hb g, count_add, count_add, count_add]
    omega
  have hmoves := @setRef_moves (s.setOfile p fd' (some f)) f e p ((s.file f).ref + 1)
    (by rw [hcount, count_singleton_self])
    (fun g hg => by rw [hcount, count_singleton, if_neg hg]; rfl)
  exact ⟨hmoves.1, (quiet_setOfile _).trans hmoves.2⟩

theorem sysClose_moves (h : Piped s X) (hb : Balanced s e) (hs : s.sysClose p fd = some s') : Moves p s s' e := by
  unfold Sys.sysClose at hs
  split at hs
  · cases hs
    exact hb.moves
  · rename_i f hf
    have hclear := setOfile_none_moves hb hf
    exact hclear.trans (fileclose_moves p ((setOfile_step h p fd none).piped h) hclear.1 hs)

theorem fileclose_ofile (h : Piped s X) (hs : s.fileclose f = some s') : s'.ofile = s.ofile := by
  obtain ⟨-, ⟨-, rfl⟩ | ⟨-, -, rfl⟩ | ⟨-, pi, w, m, -, -, -, rfl⟩⟩ := fileclose_eq_some h hs
  · rfl
  · rfl
  · rfl

/-- The descriptor that is closed is free, and so are those that were. -/
theorem sysClose_ofile (h : Piped s X) (hs : s.sysClose p fd = some s') {fd' : Fin NOFILE}
    (hfd : fd' = fd ∨ s.ofile p fd' = none) : s'.ofile p fd' = none := by
  unfold Sys.sysClose at hs
  split at hs
  · rename_i hnone
    cases hs
    exact hfd.elim (fun heq => heq ▸ hnone) fun hfree => hfree
  · rw [fileclose_ofile ((setOfile_step h p fd none).piped h) hs]
    by_cases heq : fd' = fd
    · simp [Sys.setOfile, heq]
    · simpa [Sys.setOfile, heq] using hfd.resolve_left heq

theorem closeAll_moves (h : Piped s X) (hb : Balanced s e)
    (hs : s.closeAll p = some s') : Moves p s s' e ∧ ∀ fd, s'.ofile p fd = none := by
  -- the descriptors in front of the rest of the list are closed, and stay so
  have key : ∀ (l : List (Fin NOFILE)) (s : Sys), Piped s X → Balanced s e →
      l.foldlM (Sys.sysClose · p ·) s = some s' →
      Moves p s s' e ∧ ∀ fd, (fd ∈ l ∨ s.ofile p fd = none) → s'.ofile p fd = none := by
    intro l
    induction l with
    | nil =>
      intro s _ hb hs
      cases hs
      exact ⟨hb.moves, fun fd hfd => hfd.resolve_left (by simp)⟩
    | cons a l ih =>
      intro s h hb hs
      rw [List.foldlM_cons] at hs
      obtain ⟨s1, h1, h2⟩ := bind_eq_some_iff.mp hs
      have hmoves := sysClose_moves h hb h1
      obtain ⟨hrest, hnone⟩ := ih s1 ((sysClose_step h h1).piped h) hmoves.1 h2
      refine ⟨hmoves.trans hrest, fun fd hfd => hnone fd ?_⟩
      rw [List.mem_cons, or_assoc] at hfd
      rcases hfd with rfl | hfd | hfd
      · exact .inr (sysClose_ofile h h1 (.inl rfl))
      · exact .inl hfd
      · exact .inr (sysClose_ofile h h1 (.inr hfd))
  obtain ⟨hmoves, hnone⟩ := key _ s h hb hs
  exact ⟨hmoves, fun fd => hnone fd (.inl (List.mem_finRange fd))⟩

/-! ## The invariant -/

/-- What a process inside of `piperead` or `pipewrite` works on is an end of a pipe that one of its
descriptors stands for. Only processes at work have descriptors. -/
structure Endpoints (s : Sys) : Prop where
  balanced : Balanced s 0
  io : ∀ q k, s.io q = some k →
    ∃ f, s.ofile q k.fd = some f ∧ (s.file f).pipe = some (k.pi, k.writable)
  log : LogOk s.log s.file
  working : ∀ q fd, s.ofile q fd ≠ none → (s.ps.proc q).Live ∧ ¬ Exiting (s.ps.proc q)

theorem Endpoints.congr (h : Endpoints s) (hfile : s'.file = s.file) (hofile : s'.ofile = s.ofile)
    (hio : s'.io = s.io) (hlog : s'.log = s.log)
    (hw : ∀ q fd, s.ofile q fd ≠ none → (s'.ps.proc q).Live ∧ ¬ Exiting (s'.ps.proc q)) :
    Endpoints s' where
  balanced f := by rw [hfile, hofile]; exact h.balanced f
  io := by rw [hfile, hofile, hio]; exact h.io
  log := by rw [hfile, hlog]; exact h.log
  working := by rw [hofile]; exact hw

theorem Endpoints.moves (h : Endpoints s) (hp : s.io p = none) (hm : Moves p s s' 0)
    (hlog : LogOk s.log s.file → LogOk s'.log s'.file) (hps : s'.ps = s.ps)
    (hw : ∀ fd, s'.ofile p fd ≠ none → (s.ps.proc p).Live ∧ ¬ Exiting (s.ps.proc p)) :
    Endpoints s' where
  balanced := hm.1
  io q k hk := by
    rw [hm.2.io] at hk
    have hqp : q ≠ p := by
      rintro rfl
      cases hp.symm.trans hk
    obtain ⟨f, hf, hpipe⟩ := h.io q k hk
    exact ⟨f, by rw [hm.2.ofile q hqp, hf], by rw [hm.2.pipe q k.fd f hqp hf, hpipe]⟩
  log := hlog h.log
  working q fd hq := by
    rw [hps]
    by_cases hqp : q = p
    · subst hqp
      exact hw fd hq
    · rw [hm.2.ofile q hqp] at hq
      exact h.working q fd hq

variable {kt : UInt64} {kernel all : Multiset UInt64}

/-- A running process that is not on its way out is at work. -/
theorem Own.working (h : Own kt kernel all s) (hu : s.user = some p) :
    (s.ps.proc p).Live ∧ ¬ Exiting (s.ps.proc p) := by
  obtain ⟨hcur, -, hplace, -⟩ := user_eq_some hu
  refine ⟨h.tree.live_of_current hcur, ?_⟩
  rintro ⟨status, hexit⟩
  cases hplace.symm.trans hexit

theorem Endpoints.procStep {a : Process.Action} (h : Endpoints s) (hown : Own kt kernel all s)
    (ha : ∀ f c, a ≠ .fork f c)
    (hmay : (∃ status, a = .exit status) ∨ (∃ status c, a = .exitSleep status c) →
      ∀ q, s.ps.current = some q → ∀ fd, s.ofile q fd = none)
    (hs : s.procStep a = some s') : Endpoints s' := by
  obtain ⟨⟨ps, es⟩, hstep, hs⟩ := bind_eq_some_iff.mp hs
  have hw : ∀ q fd, s.ofile q fd ≠ none → (ps.proc q).Live ∧ ¬ Exiting (ps.proc q) := by
    intro q fd hq
    exact (slotted_of_step hown.tree hstep ha q).working (h.working q fd hq)
      fun hexit hcur => hq (hmay hexit q hcur fd)
  dsimp only at hs
  split at hs
  · cases hs
    exact h.congr rfl rfl rfl rfl hw
  · obtain ⟨x, -, hs⟩ := bind_eq_some_iff.mp hs
    obtain ⟨⟨u, s1⟩, hrun, hs⟩ := bind_eq_some_iff.mp hs
    cases hs
    obtain ⟨-, heq⟩ := runMem_eq_some hrun
    obtain ⟨m1, rfl⟩ : ∃ m1, s1 = { s with mem := m1 } := ⟨_, heq⟩
    exact h.congr rfl rfl rfl rfl hw

/-- Nothing is left open when a process exits. -/
theorem Endpoints.exit {a : Process.Action} {s1 : Sys} (h : Endpoints s) (hown : Own kt kernel all s)
    (ha : ∀ f c, a ≠ .fork f c) (hu : s.user = some p) (hclose : s.closeAll p = some s1)
    (hs : s1.procStep a = some s') : Endpoints s' := by
  obtain ⟨hcur, -, -, hio⟩ := user_eq_some hu
  have hstep := closeAll_step hown.piped hclose
  obtain ⟨hmoves, hnone⟩ := closeAll_moves hown.piped h.balanced hclose
  have h1 := h.moves hio hmoves hstep.log hstep.ps fun fd hfd => absurd (hnone fd) hfd
  refine h1.procStep (hown.pipeStep hstep).1 ha (fun _ q hq fd => ?_) hs
  rw [hstep.ps, hcur] at hq
  cases hq
  exact hnone fd

/-! ## fork -/

/-- The child, which has no descriptors, gets those of its parent. -/
theorem dupAll_moves {np : Slot} (h : Piped s X) (hb : Balanced s e)
    (hnone : ∀ fd, s.ofile np fd = none) (hs : s.dupAll p np = some s') : Moves np s s' e := by
  -- the descriptors of the rest of the list are free
  have hfree : ∀ fd ∈ List.finRange NOFILE, s.ofile np fd = none := fun fd _ => hnone fd
  have hl := List.nodup_finRange NOFILE
  clear hnone
  unfold Sys.dupAll at hs
  generalize List.finRange NOFILE = l at hs hl hfree
  induction l generalizing s with
  | nil =>
    cases hs
    exact hb.moves
  | cons a l ih =>
    obtain ⟨ha, hl⟩ := List.nodup_cons.mp hl
    rw [List.foldlM_cons] at hs
    obtain ⟨s1, h1, h2⟩ := bind_eq_some_iff.mp hs
    split at h1
    · cases h1
      exact ih h hb h2 hl fun fd hfd => hfree fd (List.mem_cons_of_mem a hfd)
    · rename_i f hf
      obtain ⟨s2, hdup, hset⟩ := bind_eq_some_iff.mp h1
      cases hset
      have hmoves1 := filedup_moves np hb hdup
      have hofile : s2.ofile = s.ofile := by rw [filedup_eq_some hdup]; rfl
      have hnone : s2.ofile np a = none := by rw [hofile]; exact hfree a List.mem_cons_self
      have hmoves2 := setOfile_some_moves hmoves1.1 hnone
      have hp2 := (filedup_step h hdup).piped h
      refine (hmoves1.trans hmoves2).trans (ih ((setOfile_step hp2 np a _).piped hp2) hmoves2.1 h2 hl ?_)
      intro fd hfd
      have hne : fd ≠ a := fun heq => ha (heq ▸ hfd)
      simpa [Sys.setOfile, hne, hofile] using hfree fd (List.mem_cons_of_mem a hfd)

theorem fork_place {t : Process.State} {np : Slot}
    (hfind : (List.finRange NPROC).find? (fun q => (t.proc q).state = .unused) = some np) :
    ((t.fork p true true).1.proc np).place = .user := by
  unfold State.fork State.allocproc
  rw [hfind]
  simp only [if_true, State.setProc]
  rw [Table.set_self]

theorem Endpoints.fork (h : Endpoints s) (hown : Own kt kernel all s) (hp : s.ps.current = some p)
    (hs : s.fork p = some s') : Endpoints s' := by
  obtain ⟨x, hx, hs'⟩ := bind_eq_some_iff.mp hs
  cases hfind : (List.finRange NPROC).find? fun q => (s.ps.proc q).state = .unused with
  | none =>
    rw [hfind] at hs'
    cases hs'
    exact h
  | some np =>
    rw [hfind] at hs'
    have hnp : (s.ps.proc np).state = .unused := by simpa using List.find?_some hfind
    have hnone : ∀ fd, s.ofile np fd = none := by
      intro fd
      by_contra hne
      exact (h.working np fd hne).1.ne_unused hnp
    have hio : s.io np = none := by
      by_contra hne
      obtain ⟨k, hk⟩ := Option.ne_none_iff_exists'.mp hne
      obtain ⟨f, hf, -⟩ := h.io np k hk
      rw [hnone] at hf
      cases hf
    obtain ⟨⟨r, s1⟩, hrun, hs'⟩ := bind_eq_some_iff.mp hs'
    obtain ⟨hdone, heq⟩ := runMem_eq_some hrun
    obtain ⟨m1, rfl⟩ : ∃ m1, s1 = { s with mem := m1 } := ⟨_, heq⟩
    have hfail : ∀ frames copied, frames = false ∨ copied = false →
        Endpoints { s with mem := m1, ps := (s.ps.fork p frames copied).1 } := by
      intro frames copied hfail
      refine h.congr rfl rfl rfl rfl fun q fd hq => ?_
      dsimp only
      rw [fork_failed hown.tree hfind hfail]
      exact h.working q fd hq
    cases r with
    | noFrames =>
      cases hs'
      exact hfail false false (.inl rfl)
    | noCopy =>
      cases hs'
      exact hfail true false (.inr rfl)
    | child y =>
      have hpool := (hown.forked hp hx hfind hdone).1.piped
      have hofile : (update s.ofile np fun _ => none) = s.ofile := by
        rw [show (fun _ => none) = s.ofile np from funext fun fd => (hnone fd).symm,
          update_eq_self]
      have hother := fun q => @fork_succeeded p s.ps np hfind q
      have h2 : Endpoints { s with
            mem := m1
            ps := (s.ps.fork p true true).1
            space := update s.space np (some y)
            ofile := update s.ofile np fun _ => none } := by
        refine h.congr rfl hofile rfl rfl fun q fd hq => ?_
        have hqnp : q ≠ np := fun heq => hq (heq ▸ hnone fd)
        dsimp only
        rw [(hother q).2 hqnp]
        exact h.working q fd hq
      have hstep := dupAll_step hpool hs'
      refine h2.moves hio (dupAll_moves hpool h2.balanced (fun fd => ?_) hs') hstep.log hstep.ps
        fun fd _ => ⟨?_, ?_⟩
      · simp
      · have hstate := (hother np).1 rfl
        exact Proc.live_of_ne (by rw [hstate]; decide) (by rw [hstate]; decide) (by rw [hstate]; decide)
      · rintro ⟨status, hexit⟩
        cases (fork_place hfind).symm.trans hexit

/-! ## Runs -/

theorem execStep_files {y : Prog Mem (Option Exec)} (hs : s.execStep p y = some s') :
    s'.file = s.file ∧ s'.ofile = s.ofile ∧ s'.io = s.io ∧ s'.log = s.log ∧ s'.ps = s.ps := by
  obtain ⟨⟨k, s1⟩, hrun, hs⟩ := bind_eq_some_iff.mp hs
  cases hs
  obtain ⟨-, heq⟩ := runMem_eq_some hrun
  obtain ⟨m1, rfl⟩ : ∃ m1, s1 = { s with mem := m1 } := ⟨_, heq⟩
  exact ⟨rfl, rfl, rfl, rfl, rfl⟩

theorem Endpoints.execStep {y : Prog Mem (Option Exec)} (h : Endpoints s)
    (hs : s.execStep p y = some s') : Endpoints s' := by
  obtain ⟨hfile, hofile, hio, hlog, hps⟩ := execStep_files hs
  refine h.congr hfile hofile hio hlog ?_
  rw [hps]
  exact h.working

/-- Only the memory, the images and what is left of `exec` change. -/
theorem Endpoints.runMem {α : Type} {y : Prog Mem α} {r : α} (h : Endpoints s)
    (hs : s.runMem y = some (r, s')) (space : Slot → Option Space) (exec : Slot → Option Exec) :
    Endpoints { s' with space := space, exec := exec } := by
  obtain ⟨-, heq⟩ := runMem_eq_some hs
  obtain ⟨m1, rfl⟩ : ∃ m1, s' = { s with mem := m1 } := ⟨_, heq⟩
  exact h.congr rfl rfl rfl rfl h.working

/-- A call that concerns files, by a process that is not in another call. -/
theorem Endpoints.call (h : Endpoints s) (hown : Own kt kernel all s) (hu : s.user = some p)
    (hm : Moves p s s' 0) (hstep : PipeStep s s' X) : Endpoints s' :=
  h.moves (user_eq_some hu).2.2.2 hm hstep.log hstep.ps fun _ _ => hown.working hu

theorem inPipe_eq_some {k : PipeIo} (hs : s.inPipe = some (p, k)) : s.io p = some k := by
  obtain ⟨r, hr, hs⟩ := bind_eq_some_iff.mp hs
  obtain ⟨-, hs⟩ := ite_none_right_eq_some.mp hs
  obtain ⟨k', hk', heq⟩ := Option.map_eq_some_iff.mp hs
  cases heq
  exact hk'

theorem Endpoints.pipeCall {w : Bool} (h : Endpoints s) (hs : s.pipeCall p fd w = some s') : Endpoints s' := by
  obtain ⟨f, pi, hf, hpipe, rfl⟩ := pipeCall_eq_some hs
  refine ⟨h.balanced, fun q k hk => ?_, h.log.used hpipe, h.working⟩
  have hk : update s.io p (some ⟨fd, pi, w⟩) q = some k := hk
  by_cases hq : q = p
  · subst hq
    rw [update_self] at hk
    cases hk
    exact ⟨f, hf, hpipe⟩
  · rw [update_of_ne hq] at hk
    exact h.io q k hk

theorem Endpoints.pipeReturn (h : Endpoints s) (p : Slot) : Endpoints (s.setIo p none) := by
  refine ⟨h.balanced, fun q k hk => ?_, h.log, h.working⟩
  have hk : update s.io p none q = some k := hk
  by_cases hq : q = p
  · subst hq
    rw [update_self] at hk
    cases hk
  · rw [update_of_ne hq] at hk
    exact h.io q k hk

theorem Endpoints.step {act : Act} (h : Endpoints s) (hown : Own kt kernel all s)
    (hs : Kernel.step s act = some s') : Endpoints s' := by
  cases taken_of_step hs with
  | exit ha hu hclose hs => exact h.exit hown ha hu hclose hs
  | proc ha hexit hsleep hs =>
    refine h.procStep hown ha ?_ hs
    rintro (⟨status, rfl⟩ | ⟨status, c, rfl⟩)
    · exact absurd rfl (hexit status)
    · exact absurd rfl (hsleep status c)
  | fork hu hs => exact h.fork hown (user_eq_some hu).1 hs
  | exec hz hs => exact h.execStep hs
  | commit hact hin hx htable hrun => exact h.runMem hrun _ _
  | store hx hrun => exact h.runMem hrun _ _
  | load hin htable hrun => exact h.runMem hrun _ _
  | pipe hu hs => exact h.call hown hu (sysPipe_moves hown.piped h.balanced hs) (sysPipe_step hown.piped hs)
  | close hu hs => exact h.call hown hu (sysClose_moves hown.piped h.balanced hs) (sysClose_step hown.piped hs)
  | dup hu hs => exact h.call hown hu (sysDup_moves h.balanced hs) (sysDup_step hown.piped hs)
  | pipeCall hs => exact h.pipeCall hs
  | pipeGo hin =>
    obtain ⟨f, -, hpipe⟩ := h.io _ _ (inPipe_eq_some hin)
    exact ⟨h.balanced, h.io, h.log.used hpipe, h.working⟩
  | pipeReturn p => exact h.pipeReturn p

theorem Endpoints.run {acts : List Act} (h : Endpoints s) (hown : Own kt kernel all s)
    (hs : Kernel.run s acts = some s') : Endpoints s' := by
  induction acts generalizing s with
  | nil =>
    cases hs
    exact h
  | cons a as ih =>
    obtain ⟨s1, hstep, hs⟩ := bind_eq_some_iff.mp hs
    exact ih (h.step hown hstep) (hown.step hstep).1 hs

end Xv6.Kernel
