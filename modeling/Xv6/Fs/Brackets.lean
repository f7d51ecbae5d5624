import Xv6.Fs.Trace

/-!
# The calls bracket their changes

Each function of the file system against the invariant `Traced`, from the bitmap up to the calls.
The functions that call `log_write` are steady on the modes `writing`; those that may be called
anywhere record a change of the disk before they make it. A call leads from the modes outside of
operations back to them.
-/

namespace Xv6.Fs

open Data Coop Prog Storage Logic

variable {p : Pid} {A : UpperSet Mode}

/-! ## Blocks -/

theorem steady_bzeroBlock (b : Nat) : traceLogic.Steady p writing (bzeroBlock p b) :=
  (steady_bread b).bind fun _ => (steady_putBlock b _).bind fun _ => steady_logWrite b

theorem steady_ballocFrom (sb : Superblock) (k b : Nat) : traceLogic.Steady p writing (ballocFrom p sb k b) := by
  induction k generalizing b with
  | zero => exact steady_pure 0
  | succ k ih =>
    refine (steady_bread _).bind fun data => ?_
    split
    · exact (steady_putBlock _ _).bind fun _ => (steady_logWrite _).bind fun _ =>
        (steady_bzeroBlock _).bind fun _ => steady_pure _
    · exact ih (b + BPB)

theorem steady_ballocAlloc : traceLogic.Steady p writing (ballocAlloc p) :=
  (steady_gets _).bind fun _ => steady_ballocFrom _ _ _

theorem steady_bfreeRelease (b : Nat) : traceLogic.Steady p writing (bfreeRelease p b) := by
  refine (steady_gets _).bind fun sb => ?_
  split
  · exact steady_stop (by decide)
  refine (steady_bread _).bind fun data => ?_
  split
  · exact (steady_putBlock _ _).bind fun _ => steady_logWrite _
  · exact steady_stop (by decide)

/-! ## The inode cache -/

theorem silent_iget {inum : Nat} {s s' : State} {i : Fin NINODE}
    (h : igetStep inum s = .ok (i, s')) : Silent s s' := by
  unfold igetStep at h
  split at h
  · obtain ⟨⟩ := h
    exact silent_modInode s _ fun _ _ h => h
  · split at h
    · obtain ⟨⟩ := h
      exact silent_modInode s _ fun _ _ h => h
    · cases h

/-- `iget` panics only if every entry is in use. -/
theorem iget_error {inum : Nat} {s : State} {m : String} (h : igetStep inum s = .error m) :
    m = NOINODES ∧ ∀ i, (s.icache i).ref ≠ 0 := by
  unfold igetStep at h
  split at h
  · cases h
  · split at h
    · cases h
    · rename_i hfull
      refine ⟨(Except.error.inj h).symm, fun i hi => ?_⟩
      have hno := List.find?_eq_none.mp hfull i (List.mem_finRange i)
      exact hno (decide_eq_true hi)

theorem steady_iget (inum : Nat) : traceLogic.Steady p A (iget inum) := by
  refine turns_step plain (fun s _ i s' hs _ h => (silent_iget h).kept hs) ?_
  intro s _ m _ _ h hbad
  obtain ⟨hm, hfull⟩ := iget_error h
  rcases hbad with ⟨hout, -⟩ | ⟨-, i, hi⟩
  · exact absurd (hm.symm.trans hout) (by decide)
  · exact hfull i hi

section

variable (i : Fin NINODE)
include i

theorem steady_idup : traceLogic.Steady p A (idup i) :=
  Steady.bind (steady_modInode i fun _ _ h => h) fun _ => steady_pure i

theorem steady_ilock : traceLogic.Steady p A (ilock p i) := by
  refine (steady_test (by decide)).bind fun _ => (steady_acquireInode i).bind fun _ =>
    (steady_gets _).bind fun ip => ?_
  split
  · exact steady_pure ()
  · exact (steady_gets _).bind fun _ => (steady_bread _).bind fun _ =>
      Steady.bind (steady_modInode i fun _ _ h => h) fun _ => steady_test (by decide)

theorem steady_iunlock : traceLogic.Steady p A (iunlock p i) :=
  (steady_test (by decide)).bind fun _ => steady_releaseInode i

theorem steady_iupdate : traceLogic.Steady p writing (iupdate p i) :=
  (steady_gets _).bind fun _ => (steady_gets _).bind fun _ => (steady_bread _).bind fun _ =>
    (steady_gets _).bind fun _ => (steady_putBlock _ _).bind fun _ => steady_logWrite _

end

theorem steady_iallocFrom (sb : Superblock) (type : UInt16) (k inum : Nat) :
    traceLogic.Steady p writing (iallocFrom p sb type k inum) := by
  induction k generalizing inum with
  | zero => exact steady_pure none
  | succ k ih =>
    refine (steady_bread _).bind fun data => ?_
    split
    · exact (steady_putBlock _ _).bind fun _ => (steady_logWrite _).bind fun _ =>
        (steady_iget inum).bind fun _ => steady_pure _
    · exact ih (inum + 1)

theorem steady_iallocAlloc (type : UInt16) : traceLogic.Steady p writing (iallocAlloc p type) :=
  (steady_gets _).bind fun _ => steady_iallocFrom _ type _ _

/-! ## The block map -/

theorem steady_bmapDirect (i : Fin NINODE) (k : Nat) : traceLogic.Steady p A (bmapDirect p i k) := by
  refine (steady_gets _).bind fun addr => ?_
  split
  · refine steady_change (steady_ballocAlloc.bind fun addr => ?_)
    split
    · exact steady_pure 0
    · exact (steady_modDin i _).bind fun _ => steady_pure addr
  · exact steady_pure addr

theorem steady_bmap (i : Fin NINODE) (bn : Nat) : traceLogic.Steady p A (bmap p i bn) := by
  unfold bmap
  split
  · exact steady_bmapDirect i bn
  split
  · refine (steady_bmapDirect i NDIRECT).bind fun ind => ?_
    split
    · exact steady_pure 0
    refine (steady_bread ind).bind fun data => ?_
    dsimp only
    split
    · refine steady_change (steady_ballocAlloc.bind fun addr => ?_)
      split
      · exact steady_pure 0
      · exact (steady_putBlock ind _).bind fun _ => (steady_logWrite ind).bind fun _ =>
          steady_pure addr
    · exact steady_pure _
  · exact steady_pure 0

theorem steady_itruncDirect (i : Fin NINODE) (k : Nat) : traceLogic.Steady p writing (itruncDirect p i k) := by
  refine (steady_gets _).bind fun addr => ?_
  split
  · exact steady_pure ()
  · exact (steady_bfreeRelease addr).bind fun _ => steady_modDin i _

theorem steady_itruncEntry (data : Block) (j : Nat) : traceLogic.Steady p writing (itruncEntry p data j) := by
  unfold itruncEntry
  dsimp only
  split
  · exact steady_pure ()
  · exact steady_bfreeRelease _

theorem steady_itrunc (i : Fin NINODE) : traceLogic.Steady p writing (itrunc p i) := by
  have hend : traceLogic.Steady p writing (do
      modify fun s => s.modDin i fun d => { d with size := 0 }
      iupdate p i) :=
    (steady_modDin i _).bind fun _ => steady_iupdate i
  refine (steady_loop (steady_itruncDirect i) 0 NDIRECT).bind fun _ =>
    (steady_gets _).bind fun ind => ?_
  split
  · exact (steady_pure ()).bind fun _ => hend
  · exact (steady_bread ind).bind fun data =>
      (steady_loop (steady_itruncEntry data) 0 NINDIRECT).bind fun _ =>
      (steady_bfreeRelease ind).bind fun _ => (steady_modDin i _).bind fun _ => hend

theorem steady_iput (i : Fin NINODE) : traceLogic.Steady p A (iput p i) := by
  refine (steady_gets _).bind fun ip => ?_
  split
  · exact (steady_test (by decide)).bind fun _ => steady_modInode i fun _ _ h => h
  · exact steady_change ((steady_acquireInode i).bind fun _ => (steady_itrunc i).bind fun _ =>
      (steady_modDin i _).bind fun _ => (steady_iupdate i).bind fun _ =>
      (steady_releaseInode i).bind fun _ => Steady.bind (steady_modInode i fun _ _ h => h) fun _ =>
      Steady.bind (steady_test (by decide)) fun _ => steady_modInode i fun _ _ h => h)

theorem steady_iunlockput (i : Fin NINODE) : traceLogic.Steady p A (iunlockput p i) :=
  (steady_iunlock i).bind fun _ => steady_iput i

/-! ## Contents -/

section

variable (i : Fin NINODE)
include i

theorem steady_readLoop (ok : Nat → Nat → Bool) (k tot off n : Nat) :
    traceLogic.Steady p A (readLoop p i ok k tot off n) := by
  induction k generalizing tot off n with
  | zero => exact steady_pure []
  | succ k ih =>
    unfold readLoop
    split
    · refine (steady_bmap i _).bind fun addr => ?_
      split
      · exact steady_pure []
      refine (steady_bread addr).bind fun data => ?_
      dsimp only
      split
      · exact (ih _ _ _).bind fun _ => steady_pure _
      · exact steady_pure []
    · exact steady_pure []

theorem steady_readi (ok : Nat → Nat → Bool) (off n : UInt32) : traceLogic.Steady p A (readi p i ok off n) := by
  refine (steady_gets _).bind fun size => ?_
  split
  · exact steady_pure []
  · exact steady_readLoop i ok _ _ _ _

theorem steady_writeLoop (src : Source) (k tot off n : Nat) :
    traceLogic.Steady p writing (writeLoop p i src k tot off n) := by
  induction k generalizing tot off n with
  | zero => exact steady_pure tot
  | succ k ih =>
    unfold writeLoop
    split
    · refine (steady_bmap i _).bind fun addr => ?_
      split
      · exact steady_pure tot
      refine (steady_bread addr).bind fun data => (steady_putBlock addr _).bind fun _ => ?_
      split
      · exact (steady_logWrite addr).bind fun _ => ih _ _ _
      · exact steady_pure tot
    · exact steady_pure tot

theorem steady_writei (src : Source) (off n : UInt32) : traceLogic.Steady p writing (writei p i src off n) := by
  refine (steady_gets _).bind fun size => ?_
  split
  · exact steady_pure none
  split
  · exact steady_pure none
  · exact (steady_writeLoop i src _ _ _ _).bind fun tot => (steady_modDin i _).bind fun _ =>
      (steady_iupdate i).bind fun _ => steady_pure _

end

/-! ## Directories -/

section

variable (dp : Fin NINODE)
include dp

theorem steady_readDirent (off : Nat) {msg : String} (hm : Other msg) :
    traceLogic.Steady p A (readDirent p dp off msg) := by
  refine (steady_readi dp _ _ _).bind fun l => ?_
  split
  · exact steady_pure _
  · exact steady_stop hm

theorem steady_dirlookupFrom (name : List UInt8) (k off : Nat) :
    traceLogic.Steady p A (dirlookupFrom p dp name k off) := by
  induction k generalizing off with
  | zero => exact steady_pure none
  | succ k ih =>
    refine (steady_gets _).bind fun size => ?_
    split
    · refine (steady_readDirent dp off (by decide)).bind fun de => ?_
      split
      · exact ih (off + DESIZE)
      split
      · exact (steady_iget _).bind fun _ => steady_pure _
      · exact ih (off + DESIZE)
    · exact steady_pure none

theorem steady_dirlookup (name : List UInt8) : traceLogic.Steady p A (dirlookup p dp name) :=
  Steady.bind (steady_test (by decide)) fun _ => (steady_gets _).bind fun _ =>
    steady_dirlookupFrom dp name _ _

theorem steady_dirlinkSlot (k off : Nat) : traceLogic.Steady p A (dirlinkSlot p dp k off) := by
  induction k generalizing off with
  | zero => exact steady_pure off
  | succ k ih =>
    refine (steady_gets _).bind fun size => ?_
    split
    · refine (steady_readDirent dp off (by decide)).bind fun de => ?_
      split
      · exact steady_pure off
      · exact ih (off + DESIZE)
    · exact steady_pure off

theorem steady_dirlink (name : List UInt8) (inum : Nat) : traceLogic.Steady p writing (dirlink p dp name inum) := by
  refine (steady_dirlookup dp name).bind fun r => ?_
  split
  · exact (steady_iput _).bind fun _ => steady_pure false
  · exact (steady_gets _).bind fun _ => (steady_dirlinkSlot dp _ _).bind fun _ =>
      (steady_writei dp _ _ _).bind fun _ => steady_pure _

theorem steady_isdiremptyFrom (k off : Nat) : traceLogic.Steady p A (isdiremptyFrom p dp k off) := by
  induction k generalizing off with
  | zero => exact steady_pure true
  | succ k ih =>
    refine (steady_gets _).bind fun size => ?_
    split
    · refine (steady_readDirent dp off (by decide)).bind fun de => ?_
      split
      · exact steady_pure false
      · exact ih (off + DESIZE)
    · exact steady_pure true

theorem steady_isdirempty : traceLogic.Steady p A (isdirempty p dp) :=
  (steady_gets _).bind fun _ => steady_isdiremptyFrom dp _ _

end

theorem steady_dnamexFrom (parent : Bool) (k : Nat) (ip : Fin NINODE) (path : List UInt8) :
    traceLogic.Steady p A (dnamexFrom p parent k ip path) := by
  -- the end of the path, with or without the parent
  have hend : ∀ ip : Fin NINODE, traceLogic.Steady p A ( if parent then do
        iput p ip
        pure none
      else pure (some (ip, [])) : Prog State (Option (Fin NINODE × List UInt8))) := by
    intro ip
    split
    · exact (steady_iput ip).bind fun _ => steady_pure none
    · exact steady_pure _
  induction k generalizing ip path with
  | zero => exact hend ip
  | succ k ih =>
    unfold dnamexFrom
    split
    · exact hend ip
    refine (steady_ilock ip).bind fun _ => (steady_gets _).bind fun type => ?_
    split
    · exact (steady_iunlockput ip).bind fun _ => steady_pure none
    split
    · exact (steady_iunlock ip).bind fun _ => steady_pure _
    refine (steady_dirlookup ip _).bind fun r => ?_
    split
    · exact (steady_iunlockput ip).bind fun _ => steady_pure none
    · exact (steady_iunlockput ip).bind fun _ => ih _ _

theorem steady_dnamex (path : List UInt8) (parent : Bool) : traceLogic.Steady p A (dnamex p path parent) :=
  (steady_iget ROOTINO).bind fun ip => steady_dnamexFrom parent _ ip path

theorem steady_namei (path : List UInt8) : traceLogic.Steady p A (namei p path) :=
  (steady_dnamex path false).bind fun _ => steady_pure _

theorem steady_unlinkBad (ip dp : Fin NINODE) : traceLogic.Steady p A (unlinkBad p ip dp) :=
  (steady_iunlockput ip).bind fun _ => (steady_iunlockput dp).bind fun _ => steady_pure false

theorem steady_unlinkHelper (path : List UInt8) : traceLogic.Steady p writing (unlinkHelper p path) := by
  refine (steady_dnamex path true).bind fun r => ?_
  split
  · exact steady_pure false
  rename_i dp name
  refine (steady_ilock dp).bind fun _ => (steady_dirlookup dp name).bind fun r => ?_
  split
  · exact (steady_iunlockput dp).bind fun _ => steady_pure false
  rename_i ip off
  refine (steady_ilock ip).bind fun _ => ?_
  split
  · exact steady_unlinkBad ip dp
  refine (steady_gets _).bind fun type => ?_
  extract_lets rest
  have hrest : ∀ empty, traceLogic.Steady p writing (rest empty) := by
    intro empty
    unfold rest
    split
    · refine (steady_writei dp _ _ _).bind fun r => ?_
      split
      · exact (steady_modDin ip _).bind fun _ => (steady_iupdate ip).bind fun _ =>
          (steady_iunlockput ip).bind fun _ => (steady_iunlockput dp).bind fun _ =>
          steady_pure true
      · exact steady_unlinkBad ip dp
    · exact steady_unlinkBad ip dp
  split
  · exact (steady_isdirempty ip).bind hrest
  · exact hrest true

end Xv6.Fs
