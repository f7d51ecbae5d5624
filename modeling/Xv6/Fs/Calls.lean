import Xv6.Fs.Brackets

/-!
# Every call is verified

A call of the machine starts and ends outside of operations. `Ends` is the specification of the
part of a call from its `begin_op` on, `Calls` that of a whole call or of a function that a call
uses outside of operations.

Of the states only one fact is needed beyond the modes: `sys_open` closes a file that it has just
taken from the table, which has no type yet, so this `fileclose` does not begin an operation
within the operation.
-/

namespace Xv6.Fs

open Data Coop Prog Storage Logic

variable {p : Pid} {α β : Type} {P : Mode → Prop} {w0 w : State × Unit} {f : Fin NFILE} {A : UpperSet Mode}

/-- The program leads out of the operation of `p`. -/
def Ends (p : Pid) (x : Prog State α) : Prop :=
  traceLogic.Turns p opened (fun _ v' => v' ∈ idling) x

/-- The program starts and ends outside of operations. -/
def Calls (p : Pid) (x : Prog State α) : Prop :=
  traceLogic.Turns p idling (fun _ v' => v' ∈ idling) x

/-- What may be done in the modes `writing` may be done inside an operation. -/
theorem Ends.bind {x : Prog State α} {h : α → Prog State β}
    (hx : traceLogic.Steady p writing x) (hh : ∀ a, Ends p (h a)) : Ends p (x >>= h) :=
  Turns.bind (hx.mono (fun _ hv => Or.inl hv.1) fun _ _ h => h) hh
    (fun _ _ hv hle => opened.upper hle hv) fun _ _ _ _ h => h

theorem Ends.andThen {x : Prog State α} {h : α → Prog State β} (hx : Ends p x)
    (hh : ∀ a, Calls p (h a)) : Ends p (x >>= h) :=
  Turns.bind hx hh (fun _ _ _ h => h) fun _ _ _ _ h => h

theorem Calls.of_steady {x : Prog State α} (hx : traceLogic.Steady p idling x) : Calls p x := by
  intro w0 w hw
  refine safe_mono (hx w0 w hw) ?_
  intro _ _ _ h
  exact ⟨h.1, h.2.1, idling.upper h.2.2 hw.2.2⟩

theorem Calls.bind {x : Prog State α} {h : α → Prog State β} (hx : Calls p x)
    (hh : ∀ a, Calls p (h a)) : Calls p (x >>= h) :=
  Turns.bind hx hh (fun _ _ _ h => h) fun _ _ _ _ h => h

theorem Calls.steady_bind {x : Prog State α} {h : α → Prog State β}
    (hx : traceLogic.Steady p idling x) (hh : ∀ a, Calls p (h a)) : Calls p (x >>= h) :=
  (Calls.of_steady hx).bind hh

theorem calls_pure (a : α) : Calls p (pure a : Prog State α) := .of_steady (steady_pure a)

theorem Calls.bracket {h : Unit → Prog State α} (hh : ∀ a, Ends p (h a)) : Calls p (beginOp p >>= h) :=
  Turns.bind turns_beginOp hh (fun _ _ _ h => h) fun _ _ _ _ h => h

theorem ends_endWith (r : Int) : Ends p (endWith p r) := Ends.andThen turns_endOp fun _ => calls_pure r

theorem calls_loop {body : Nat → Prog State Unit} (hbody : ∀ i, Calls p (body i)) (a n : Nat) :
    Calls p (loop body a n) := by
  induction n generalizing a with
  | zero => exact calls_pure ()
  | succ n ih => exact (hbody a).bind fun _ => ih (a + 1)

/-! ## Open files -/

theorem Silent.mid {s' : State} (h : Silent w.1 s')
    (hw : traceLogic.Mid p P w0 w) : traceLogic.Mid p P w0 (s', ()) := by
  refine ⟨h.traced hw.1, ⟨fun q hq => (h.mode q).trans (hw.2.1.1 q hq), trivial⟩, ?_⟩
  have hmode : traceLogic.view p (s', ()) = traceLogic.view p w := h.mode p
  rw [hmode]
  exact hw.2.2

/-- The file has just been taken from the table. -/
def Fresh (f : Fin NFILE) (s : State) : Prop := (s.ftable f).ref = 1 ∧ (s.ftable f).type = .none

theorem safe_filealloc (hw : traceLogic.Mid p P w0 w) :
    traceLogic.safe p filealloc
      (fun r w0' w' => traceLogic.Mid p P w0' w' ∧ ∀ f, r = some f → Fresh f w'.1) w0 w := by
  unfold filealloc
  rw [safe_step]
  split
  · rename_i r s' h
    split at h
    · rename_i f hfind
      obtain ⟨⟩ := h
      have href : (w.1.ftable f).ref = 0 := by simpa using List.find?_some hfind
      have htype : (w.1.ftable f).type = .none := (show Traced w.1 from hw.1).closed f href
      refine ⟨(), Silent.mid (silent_modFile w.1 f ?_) hw, ?_⟩
      · intro _ h
        cases h
      · intro f' hf'
        obtain ⟨⟩ := hf'
        simp [Fresh, State.modFile, htype]
    · obtain ⟨⟩ := h
      exact ⟨(), hw, nofun⟩
  · rename_i m h
    split at h <;> cases h

theorem safe_fdalloc (hw : traceLogic.Mid p P w0 w) (hf : Fresh f w.1) :
    traceLogic.safe p (fdalloc p f)
      (fun _ w0' w' => traceLogic.Mid p P w0' w' ∧ Fresh f w'.1) w0 w := by
  unfold fdalloc
  rw [safe_step]
  split
  · rename_i r s' h
    split at h
    · obtain ⟨⟩ := h
      exact ⟨(), (silent_setOfile w.1 p _ _).mid hw, hf⟩
    · obtain ⟨⟩ := h
      exact ⟨(), hw, hf⟩
  · rename_i m h
    split at h <;> cases h

theorem safe_fileclose_fresh (hw : traceLogic.Mid p P w0 w) (hf : Fresh f w.1) :
    traceLogic.safe p (fileclose p f) (fun _ => traceLogic.Mid p P) w0 w := by
  have hrelease : fileRelease f w.1 =
      .ok (some (w.1.ftable f), w.1.modFile f fun ff => { ff with ref := 0, type := .none }) := by
    simp [fileRelease, hf.1]
  unfold fileclose
  rw [safe_bind, safe_step, hrelease]
  refine ⟨(), ?_⟩
  simp only [hf.2, reduceCtorEq, if_false]
  exact Silent.mid (silent_modFile w.1 f fun _ _ => rfl) hw

theorem silent_fileRelease {s s' : State} {r : Option File} (h : fileRelease f s = .ok (r, s')) : Silent s s' := by
  simp only [fileRelease] at h
  split at h
  · cases h
  split at h
  · rename_i hpos
    obtain ⟨⟩ := h
    refine silent_modFile s f fun _ href => ?_
    simp only at href
    omega
  · obtain ⟨⟩ := h
    exact silent_modFile s f fun _ _ => rfl

theorem calls_fileclose (f : Fin NFILE) : Calls p (fileclose p f) := by
  refine Calls.steady_bind (turns_step plain (fun s _ r s' hs _ h => ?_) ?_) fun r => ?_
  · exact (silent_fileRelease h).kept hs
  · intro s _ m _ _ h
    have hm : m = "fileclose" := by
      simp only [fileRelease] at h
      split at h
      · exact (Except.error.inj h).symm
      · split at h <;> cases h
    have hother : Other m := by
      rw [hm]
      decide
    exact hother.not_unexpected s
  split
  · exact calls_pure ()
  split
  · exact Calls.bracket fun _ => Ends.bind (steady_iput _) fun _ => turns_endOp
  · exact calls_pure ()

theorem steady_filedup (f : Fin NFILE) : traceLogic.Steady p A (filedup f) := by
  refine Steady.bind (steady_test (by decide)) fun _ => steady_silent fun s => ?_
  refine silent_modFile s f fun _ h => ?_
  simp only at h
  omega

theorem steady_moveOff (f : Fin NFILE) (g : State → File → UInt32) :
    traceLogic.Steady p A (modify fun s => s.modFile f fun ff => { ff with off := g s ff }) :=
  steady_silent fun s => silent_modFile s f fun h => h

theorem steady_filestat (f : Fin NFILE) : traceLogic.Steady p A (filestat p f) := by
  refine (steady_gets _).bind fun ff => ?_
  split
  · exact steady_pure none
  · exact (steady_ilock _).bind fun _ => (steady_gets _).bind fun _ =>
      (steady_iunlock _).bind fun _ => steady_pure _

theorem steady_fileread (f : Fin NFILE) (ok : Nat → Nat → Bool) (n : Nat) :
    traceLogic.Steady p A (fileread p f ok n) := by
  refine (steady_gets _).bind fun ff => (steady_gets _).bind fun plain => ?_
  split
  · exact steady_pure _
  · exact (steady_ilock _).bind fun _ => (steady_gets _).bind fun _ =>
      (steady_readi _ ok _ _).bind fun _ => (steady_moveOff f _).bind fun _ =>
      (steady_iunlock _).bind fun _ => steady_pure _

/-- Each round of `filewrite` is an operation of its own. -/
theorem calls_filewriteLoop (f : Fin NFILE) (src : Source) (k n tot : Nat) :
    Calls p (filewriteLoop p f src k n tot) := by
  induction k generalizing n tot with
  | zero => exact calls_pure _
  | succ k ih =>
    unfold filewriteLoop
    split
    · dsimp only
      refine Calls.steady_bind (steady_gets _) fun ff => ?_
      -- the operation ends before the result is looked at
      refine Calls.bracket fun _ => Ends.bind (steady_writei _ _ _ _) fun r =>
        Ends.andThen turns_endOp fun _ => ?_
      split
      · exact calls_pure _
      · exact calls_pure _
      · exact Calls.steady_bind (steady_moveOff f _) fun _ => ih _ _
    · exact calls_pure _

theorem calls_filewrite (f : Fin NFILE) (src : Source) (n : Nat) : Calls p (filewrite p f src n) := by
  refine Calls.steady_bind (steady_gets _) fun ff => ?_
  split
  · exact calls_pure _
  refine Calls.steady_bind (steady_gets _) fun type => ?_
  split
  · exact calls_pure _
  · exact Calls.steady_bind (steady_ilock _) fun _ =>
      Calls.steady_bind (steady_moveOff f _) fun _ =>
      (calls_filewriteLoop f src n n 0).bind fun tot =>
      Calls.steady_bind (steady_iunlock _) fun _ => calls_pure tot

/-! ## Creating an inode -/

theorem steady_createExisting (type : UInt16) (ip : Fin NINODE) :
    traceLogic.Steady p A (createExisting p type ip) := by
  refine (steady_ilock ip).bind fun _ => (steady_gets _).bind fun found => ?_
  split
  · exact steady_pure _
  · exact (steady_iunlockput ip).bind fun _ => steady_pure _

theorem steady_createFail (ip dp : Fin NINODE) : traceLogic.Steady p writing (createFail p ip dp) := by
  refine (steady_gets _).bind fun type => ?_
  extract_lets rest
  have hrest : ∀ u, traceLogic.Steady p writing (rest u) := by
    intro u
    unfold rest
    exact (steady_modDin ip _).bind fun _ => (steady_iupdate ip).bind fun _ =>
      (steady_iput ip).bind fun _ => (steady_iunlockput ip).bind fun _ =>
      (steady_iunlockput dp).bind fun _ => steady_pure none
  split
  · exact (steady_modDin dp _).bind fun _ => (steady_iupdate dp).bind hrest
  · exact hrest ()

theorem steady_createDots (ip dp : Fin NINODE) : traceLogic.Steady p writing (createDots p ip dp) := by
  refine (steady_gets _).bind fun inum => (steady_dirlink ip _ inum).bind fun ok => ?_
  split
  · exact (steady_gets _).bind fun parent => steady_dirlink ip _ parent
  · exact steady_pure false

theorem steady_create (path : List UInt8) (type major minor : UInt16) :
    traceLogic.Steady p writing (create p path type major minor) := by
  refine (steady_dnamex path true).bind fun r => ?_
  split
  · exact steady_pure none
  rename_i dp name
  refine (steady_ilock dp).bind fun _ => (steady_dirlookup dp name).bind fun r => ?_
  split
  · exact (steady_iunlockput dp).bind fun _ => steady_createExisting type _
  refine (steady_iallocAlloc type).bind fun r => ?_
  split
  · exact (steady_iunlockput dp).bind fun _ => steady_pure none
  rename_i ip
  refine (steady_ilock ip).bind fun _ => (steady_modDin ip _).bind fun _ =>
    (steady_iupdate ip).bind fun _ => ?_
  extract_lets rest
  have hrest : ∀ dots, traceLogic.Steady p writing (rest dots) := by
    intro dots
    unfold rest
    split
    · refine (steady_gets _).bind fun inum => (steady_dirlink dp name inum).bind fun ok => ?_
      split
      · exact (steady_iunlockput dp).bind fun _ => steady_pure _
      · exact steady_createFail ip dp
    · exact steady_createFail ip dp
  split
  · exact (steady_modDin dp _).bind fun _ => (steady_iupdate dp).bind fun _ =>
      (steady_createDots ip dp).bind hrest
  · exact hrest true

/-! ## The calls -/

/-- The file gets its type while it has a reference. -/
theorem ends_publish (hw : traceLogic.Mid p (· ∈ opened) w0 w) (hf : Fresh f w.1) {g : File → File}
    (hg : ∀ ff, (g ff).ref = ff.ref) {x : Prog State Int} (hx : Ends p x) :
    traceLogic.safe p (do modify fun s => s.modFile f g; x)
      (fun _ => traceLogic.Mid p (· ∈ idling)) w0 w := by
  rw [safe_bind]
  refine safe_modify () (hx _ _ (Silent.mid (silent_modFile w.1 f fun _ href => ?_) hw))
  rw [hg, hf.1] at href
  cases href

theorem ends_openFile (ip : Fin NINODE) (omode : UInt32) : Ends p (openFile p ip omode) := by
  have hfail : Ends p (do iunlockput p ip; endWith p (-1)) :=
    Ends.bind (steady_iunlockput ip) fun _ => ends_endWith (-1)
  intro w0 w hw
  refine safe_seq (safe_filealloc hw) ?_
  rintro r w1 w2 ⟨hmid, hfresh⟩
  cases r with
  | none => exact hfail _ _ hmid
  | some f =>
    refine safe_seq (safe_fdalloc hmid (hfresh f rfl)) ?_
    rintro r w3 w4 ⟨hmid4, hf4⟩
    cases r with
    | none => exact safe_seq (safe_fileclose_fresh hmid4 hf4) fun _ _ _ h => hfail _ _ h
    | some fd =>
      dsimp only
      have hend : Ends p (do iunlock p ip; endWith p fd) :=
        Ends.bind (steady_iunlock ip) fun _ => ends_endWith fd
      apply ends_publish hmid4 hf4
      · intro ff
        rfl
      refine Ends.bind (steady_gets _) fun type => ?_
      split
      · exact Ends.bind (steady_itrunc ip) fun _ => Ends.bind (steady_iupdate ip) fun _ => hend
      · exact hend

theorem steady_openInode (path : List UInt8) (omode : UInt32) :
    traceLogic.Steady p writing (openInode p path omode) := by
  unfold openInode
  split
  · exact steady_create path _ _ _
  refine (steady_namei path).bind fun r => ?_
  split
  · exact steady_pure none
  · exact (steady_ilock _).bind fun _ => steady_pure _

theorem calls_open (path : List UInt8) (omode : UInt32) : Calls p (sysOpen p path omode) := by
  refine Calls.bracket fun _ => ?_
  split
  · exact ends_endWith _
  refine Ends.bind (steady_openInode path omode) fun r => ?_
  split
  · exact ends_endWith _
  refine Ends.bind (steady_gets _) fun type => ?_
  split
  · exact Ends.bind (steady_iunlockput _) fun _ => ends_endWith _
  · exact ends_openFile _ omode

theorem calls_createAndClose (path : List UInt8) (type major minor : UInt16) :
    Calls p (createAndClose p path type major minor) := by
  refine Calls.bracket fun _ => Ends.bind (steady_create path type major minor) fun r => ?_
  split
  · exact ends_endWith _
  · exact Ends.bind (steady_iunlockput _) fun _ => ends_endWith _

theorem ends_linkBad (ip : Fin NINODE) : Ends p (linkBad p ip) :=
  Ends.bind (steady_ilock ip) fun _ => Ends.bind (steady_modDin ip _) fun _ =>
    Ends.bind (steady_iupdate ip) fun _ => Ends.bind (steady_iunlockput ip) fun _ =>
    ends_endWith _

theorem calls_link (old new : List UInt8) : Calls p (sysLink p old new) := by
  refine Calls.bracket fun _ => Ends.bind (steady_namei old) fun r => ?_
  split
  · exact ends_endWith _
  rename_i ip
  refine Ends.bind (steady_ilock ip) fun _ => Ends.bind (steady_gets _) fun type => ?_
  split
  · exact Ends.bind (steady_iunlockput ip) fun _ => ends_endWith _
  refine Ends.bind (steady_modDin ip _) fun _ => Ends.bind (steady_iupdate ip) fun _ =>
    Ends.bind (steady_iunlock ip) fun _ => Ends.bind (steady_dnamex new true) fun r => ?_
  split
  · exact ends_linkBad ip
  refine Ends.bind (steady_ilock _) fun _ => Ends.bind (steady_gets _) fun inum =>
    Ends.bind (steady_dirlink _ _ inum) fun ok => Ends.bind (steady_iunlockput _) fun _ => ?_
  split
  · exact Ends.bind (steady_iput ip) fun _ => ends_endWith _
  · exact ends_linkBad ip

theorem calls_unlink (path : List UInt8) : Calls p (sysUnlink p path) :=
  Calls.bracket fun _ => Ends.bind (steady_unlinkHelper path) fun _ => ends_endWith _

/-- The calls on a descriptor: the descriptor is looked up, and one without a file is dealt with
apart. -/
theorem calls_fd {x : Prog State β} {y : Fin NFILE → Prog State β} {fd : Fin NOFILE}
    (hx : Calls p x) (hy : ∀ f, Calls p (y f)) :
    Calls p (do
      match ← gets fun s => s.ofile p fd with
      | none => x
      | some f => y f) := by
  refine Calls.steady_bind (steady_gets _) fun r => ?_
  split
  · exact hx
  · exact hy _

theorem calls_write (fd : Nat) (src : Source) (n : Int) : Calls p (sysWrite p fd src n) := by
  unfold sysWrite
  split
  · split
    · exact calls_pure _
    · refine calls_fd ?_ fun f => calls_filewrite f src _
      split
      · exact calls_pure _
      · exact calls_pure _
  · exact calls_pure _

theorem calls_read (fd : Nat) (ok : Nat → Nat → Bool) (n : Int) : Calls p (sysRead p fd ok n) := by
  unfold sysRead
  split
  · refine calls_fd (calls_pure _) fun f => ?_
    split
    · exact calls_pure _
    · exact .of_steady (steady_fileread f ok _)
  · exact calls_pure _

theorem calls_fstat (fd : Nat) (ok : Bool) : Calls p (sysFstat p fd ok) := by
  unfold sysFstat
  split
  · exact calls_fd (calls_pure _) fun f =>
      Calls.steady_bind (steady_filestat f) fun _ => calls_pure _
  · exact calls_pure _

theorem steady_fdalloc (f : Fin NFILE) : traceLogic.Steady p A (fdalloc p f) := by
  refine turns_step plain (fun s _ r s' hs _ h => ?_) ?_
  · split at h
    · obtain ⟨⟩ := h
      exact (silent_setOfile s p _ _).kept hs
    · obtain ⟨⟩ := h
      exact ⟨hs, fun _ _ => rfl, le_refl _⟩
  · intro s _ m _ _ h
    split at h <;> cases h

theorem calls_dup (fd : Nat) : Calls p (sysDup p fd) := by
  unfold sysDup
  split
  · refine calls_fd (calls_pure _) fun f => Calls.steady_bind (steady_fdalloc f) fun r => ?_
    split
    · exact calls_pure _
    · exact Calls.steady_bind (steady_filedup f) fun _ => calls_pure _
  · exact calls_pure _

theorem calls_close (fd : Nat) : Calls p (sysClose p fd) := by
  unfold sysClose
  split
  · exact calls_fd (calls_pure _) fun f =>
      Calls.steady_bind (steady_silent fun s => silent_setOfile s p _ _) fun _ =>
      (calls_fileclose f).bind fun _ => calls_pure _
  · exact calls_pure _

theorem calls_chdir (path : List UInt8) : Calls p (sysChdir p path) := by
  refine Calls.steady_bind (steady_namei path) fun r => ?_
  split
  · exact calls_pure _
  rename_i ip
  refine Calls.steady_bind (steady_ilock ip) fun _ =>
    Calls.steady_bind (steady_gets _) fun type => ?_
  split
  · exact Calls.steady_bind (steady_iunlockput ip) fun _ => calls_pure _
  refine Calls.steady_bind (steady_iunlock ip) fun _ =>
    Calls.steady_bind (steady_gets _) fun old => ?_
  have hend : Calls p (do
      modify fun s => s.setCwd p (some ip)
      pure 0 : Prog State Int) :=
    Calls.steady_bind (steady_silent fun s => silent_setCwd s p _) fun _ => calls_pure _
  split
  · exact hend
  · exact Calls.steady_bind (steady_iput _) fun _ => hend

theorem calls_exitClose (fd : Nat) : Calls p (exitClose p fd) := by
  unfold exitClose
  split
  · exact calls_fd (calls_pure _) fun f =>
      Calls.steady_bind (steady_silent fun s => silent_setOfile s p _ _) fun _ =>
      calls_fileclose f
  · exact calls_pure _

theorem calls_exit : Calls p (exitFiles p) := by
  unfold exitFiles
  split
  · exact .of_steady (steady_stop (by decide))
  have hend : Ends p (do
      endOp p
      modify fun s => s.setAlive p false
      pure 0 : Prog State Int) :=
    Ends.andThen turns_endOp fun _ =>
      Calls.steady_bind (steady_silent fun s => silent_setAlive s p _) fun _ => calls_pure _
  refine (calls_loop calls_exitClose 0 NOFILE).bind fun _ => Calls.bracket fun _ =>
    Ends.bind (steady_gets _) fun cwd => ?_
  split
  · exact hend
  · exact Ends.bind (steady_iput _) fun _ =>
      Ends.bind (steady_silent fun s => silent_setCwd s p _) fun _ => hend

theorem steady_forkDup (q : Pid) (fd : Nat) : traceLogic.Steady p A (forkDup p q fd) := by
  unfold forkDup
  split
  · refine (steady_gets _).bind fun r => ?_
    split
    · exact steady_pure ()
    · exact (steady_filedup _).bind fun _ => steady_silent fun s => silent_setOfile s q _ _
  · exact steady_pure ()

theorem steady_forkFiles (q : Pid) : traceLogic.Steady p A (forkFiles p q) := by
  have hend : traceLogic.Steady p A (do
      modify fun s => s.setAlive q true
      pure q : Prog State Int) :=
    Steady.bind (steady_silent fun s => silent_setAlive s q _) fun _ => steady_pure _
  refine (steady_loop (steady_forkDup q) 0 NOFILE).bind fun _ => (steady_gets _).bind fun cwd => ?_
  split
  · exact hend
  · exact (steady_idup _).bind fun ip =>
      Steady.bind (steady_silent fun s => silent_setCwd s q _) fun _ => hend

/-! ## Executing a file -/

theorem steady_readKernel (ip : Fin NINODE) (off n : Nat) : traceLogic.Steady p A (readKernel p ip off n) :=
  steady_readi ip _ _ _

theorem steady_loadPages (ip : Fin NINODE) (a : Answers) (ph : List UInt8)
    (i k j : Nat) : traceLogic.Steady p A (loadPages p ip a ph i k j) := by
  induction k generalizing j with
  | zero => exact steady_pure true
  | succ k ih =>
    unfold loadPages
    dsimp only
    split
    · refine (steady_readKernel ip _ _).bind fun l => ?_
      split
      · exact ih (j + 1)
      · exact steady_pure false
    · exact steady_pure false

theorem steady_loadSegments (ip : Fin NINODE) (a : Answers)
    (elf : List UInt8) (k i : Nat) : traceLogic.Steady p A (loadSegments p ip a elf k i) := by
  induction k generalizing i with
  | zero => exact steady_pure true
  | succ k ih =>
    refine (steady_readKernel ip _ _).bind fun ph => ?_
    split
    · exact steady_pure false
    split
    · exact ih (i + 1)
    split
    · exact steady_pure false
    refine (steady_loadPages ip a ph i _ _).bind fun ok => ?_
    split
    · exact ih (i + 1)
    · exact steady_pure false

theorem calls_exec (path : List UInt8) (a : Answers) : Calls p (execFile p path a) := by
  refine Calls.bracket fun _ => Ends.bind (steady_namei path) fun r => ?_
  split
  · exact ends_endWith _
  rename_i ip
  refine Ends.bind (steady_ilock ip) fun _ => Ends.bind (steady_readKernel ip _ _) fun elf => ?_
  extract_lets rest
  have hrest : ∀ ok, Ends p (rest ok) := fun ok =>
    Ends.bind (steady_iunlockput ip) fun _ => ends_endWith _
  split
  · exact hrest false
  · exact Ends.bind (steady_loadSegments ip a elf _ _) hrest

/-! ## The machine -/

theorem calls_code (c : Call) : Calls p (c.code p) := by
  cases c with
  | «open» path omode => exact calls_open path omode
  | read fd ok n => exact calls_read fd ok n
  | write fd src n => exact calls_write fd src n
  | close fd => exact calls_close fd
  | dup fd => exact calls_dup fd
  | fstat fd ok => exact calls_fstat fd ok
  | mknod path major minor => exact calls_createAndClose path _ major minor
  | mkdir path => exact calls_createAndClose path _ 0 0
  | link old new => exact calls_link old new
  | unlink path => exact calls_unlink path
  | chdir path => exact calls_chdir path
  | fork q => exact .of_steady (steady_forkFiles q)
  | exec path a => exact calls_exec path a
  | exit => exact calls_exit

theorem machine_verified : traceLogic.Verified machine (fun _ _ _ _ => True) :=
  verified_of_turns plain (fun _ c => calls_code c) fun _ _ h => h

end Xv6.Fs
