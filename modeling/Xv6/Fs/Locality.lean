import Xv6.Fs.Walk

/-!
# What a function leaves alone

Most functions of `kernel/fs.c` work on one inode. Whenever such a function returns, the other
entries of the inode cache that are in use, the file table and the descriptors are as they were, and
of the entry that it works on at most the fields have changed.
-/

namespace Xv6.Fs

open Data Coop Prog Storage Function

/-! ## What is left alone -/

/-- Of the entries in use only that in slot `i` may have changed, and neither the file table nor the
descriptors. -/
structure Only (i : Fin NINODE) (s s' : State) : Prop where
  ftable : s'.ftable = s.ftable
  ofile : s'.ofile = s.ofile
  other : ∀ j, j ≠ i → 1 ≤ (s.icache j).ref → s'.icache j = s.icache j

/-- The entry in slot `i` has at most got other fields. -/
structure Still (i : Fin NINODE) (s s' : State) : Prop extends Only i s s' where
  self : 1 ≤ (s.icache i).ref → s'.icache i = { s.icache i with din := s'.din i }

theorem Only.refl (i : Fin NINODE) (s : State) : Only i s s := ⟨rfl, rfl, fun _ _ _ => rfl⟩

theorem Only.trans {i : Fin NINODE} {s s' s'' : State} (h : Only i s s') (h' : Only i s' s'') :
    Only i s s'' where
  ftable := h'.ftable.trans h.ftable
  ofile := h'.ofile.trans h.ofile
  other j hj hone := by
    have hs := h.other j hj hone
    rw [h'.other j hj (by rwa [hs]), hs]

theorem Still.refl (i : Fin NINODE) (s : State) : Still i s s := ⟨Only.refl i s, fun _ => rfl⟩

theorem Still.trans {i : Fin NINODE} {s s' s'' : State} (h : Still i s s') (h' : Still i s' s'') :
    Still i s s'' where
  toOnly := h.toOnly.trans h'.toOnly
  self hone := by
    have hs := h.self hone
    have href : (s'.icache i).ref = (s.icache i).ref := by rw [hs]
    rw [h'.self (by rwa [href]), hs]

/-- A relation that holds between the states before and after every step of the work on inodes, apart from changes of
the fields of an inode. -/
class Stable (R : State → State → Prop) : Prop where
  refl : ∀ s, R s s
  trans : ∀ {s s' s'' : State}, R s s' → R s' s'' → R s s''
  trace : ∀ s f, R s (s.modTrace f)
  block : ∀ s b d, R s (s.setBlock b d)
  record : ∀ s b, R s (s.setLog { s.log with lh := addNew s.log.lh b })

/-- The same with the fields of the inode in slot `i`. -/
class StableAt (i : Fin NINODE) (R : State → State → Prop) : Prop extends Stable R where
  din : ∀ s f, R s (s.modDin i f)

instance (i : Fin NINODE) : StableAt i (Still i) where
  refl := Still.refl i
  trans := Still.trans
  trace _ _ := ⟨⟨rfl, rfl, fun _ _ _ => rfl⟩, fun _ => rfl⟩
  block _ _ _ := ⟨⟨rfl, rfl, fun _ _ _ => rfl⟩, fun _ => rfl⟩
  record _ _ := ⟨⟨rfl, rfl, fun _ _ _ => rfl⟩, fun _ => rfl⟩
  din s f := by
    refine ⟨⟨rfl, rfl, fun j hj _ => update_of_ne hj _ _⟩, fun _ => ?_⟩
    rw [din_modDin]
    exact update_self _ _ _

/-- Whenever the program returns, the states before and after it are related. -/
def Keeps (R : State → State → Prop) {α : Type} (x : Prog State α) : Prop := ∀ s, May x (fun _ s' => R s s') s

/-- Whenever the program returns, it has left the other entries alone. -/
abbrev Local (i : Fin NINODE) {α : Type} (x : Prog State α) : Prop := Keeps (Still i) x

namespace Keeps

variable {R : State → State → Prop} {i : Fin NINODE} {p : Pid} {α β : Type}

section Steps

variable [Stable R]

theorem bind {x : Prog State α} {h : α → Prog State β} (hx : Keeps R x) (hh : ∀ a, Keeps R (h a)) :
    Keeps R (x >>= h) := by
  intro s
  apply ensures_seq (hx s)
  intro a s' hs'
  exact ensures_mono (hh a s') fun _ _ h => Stable.trans hs' h

theorem pure (a : α) : Keeps R (Pure.pure a : Prog State α) := fun s => Stable.refl (R := R) s

theorem gets (f : State → α) : Keeps R (Prog.gets f) := fun s => Stable.refl (R := R) s

omit [Stable R] in
theorem panic (m : String) : Keeps R (Prog.panic m : Prog State α) := fun _ => trivial

theorem check (c : State → Bool) (m : String) : Keeps R (Prog.check c m) := fun s =>
  ensures_check.mpr ⟨fun _ => Stable.refl s, fun _ => trivial⟩

omit [Stable R] in
theorem ite {c : Prop} [Decidable c] {x y : Prog State α} (hx : Keeps R x) (hy : Keeps R y) :
    Keeps R (if c then x else y) := by
  split
  · exact hx
  · exact hy

theorem noteChange : Keeps R (Prog.modify fun s => s.noteChange p) := fun s => Stable.trace s _

theorem bread (b : Nat) : Keeps R (Fs.bread b) := by
  intro s
  refine ensures_of_total (ensures_mono (bread_ends b) ?_)
  rintro _ s' ⟨_, rfl⟩
  exact Stable.refl _

theorem putBlock (b : Nat) (d : Block) : Keeps R (Fs.putBlock b d) := fun s => Stable.block s b d

theorem logWrite (b : Nat) : Keeps R (Fs.logWrite p b) :=
  bind (fun s => Stable.trace s _) fun _ => bind (check _ _) fun _ => bind (check _ _) fun _ s => Stable.record s b

theorem ballocFrom (sb : Superblock) (k : Nat) : ∀ b, Keeps R (Fs.ballocFrom p sb k b) := by
  induction k with
  | zero => exact fun _ => pure 0
  | succ k ih =>
    intro b
    unfold Fs.ballocFrom
    refine bind (bread _) fun data => ?_
    cases firstClear sb data b with
    | none => exact ih _
    | some bi =>
      refine bind (putBlock _ _) fun _ => bind (logWrite _) fun _ => bind ?_ fun _ => pure _
      exact bind (bread _) fun _ => bind (putBlock _ _) fun _ => logWrite _

theorem ballocAlloc : Keeps R (Fs.ballocAlloc p) := bind (gets _) fun _ => ballocFrom _ _ _

theorem iupdate (j : Fin NINODE) : Keeps R (Fs.iupdate p j) :=
  bind (gets _) fun _ => bind (gets _) fun _ => bind (bread _) fun _ => bind (gets _) fun _ =>
    bind (putBlock _ _) fun _ => logWrite _

theorem bfreeRelease (b : Nat) : Keeps R (Fs.bfreeRelease p b) :=
  bind (gets _) fun _ => ite (panic _) (bind (bread _) fun _ =>
    ite (bind (putBlock _ _) fun _ => logWrite _) (panic _))

theorem loop {body : Nat → Prog State Unit} (hb : ∀ k, Keeps R (body k)) (n : Nat) :
    ∀ a, Keeps R (Prog.loop body a n) := by
  induction n with
  | zero => exact fun _ => pure _
  | succ n ih =>
    intro a
    exact bind (hb a) fun _ => ih _

end Steps

variable [StableAt i R]

theorem modDin (f : Dinode → Dinode) : Keeps R (Prog.modify fun s => s.modDin i f) := fun s => StableAt.din s f

theorem bmapDirect (k : Nat) : Keeps R (Fs.bmapDirect p i k) :=
  bind (gets _) fun _ => ite
    (bind noteChange fun _ => bind ballocAlloc fun _ =>
      ite (pure _) (bind (modDin _) fun _ => pure _))
    (pure _)

theorem bmap (bn : Nat) : Keeps R (Fs.bmap p i bn) := by
  unfold Fs.bmap
  refine ite (bmapDirect bn) (ite (bind (bmapDirect _) fun ind => ite (pure _) ?_) (pure _))
  refine bind (bread _) fun data => ite ?_ (pure _)
  exact bind noteChange fun _ => bind ballocAlloc fun _ =>
    ite (pure _) (bind (putBlock _ _) fun _ => bind (logWrite _) fun _ => pure _)

theorem readLoop (ok : Nat → Nat → Bool) (k : Nat) : ∀ tot off n, Keeps R (Fs.readLoop p i ok k tot off n) := by
  induction k with
  | zero => exact fun _ _ _ => pure _
  | succ k ih =>
    intro tot off n
    unfold Fs.readLoop
    refine ite (bind (bmap _) fun addr => ite (pure _) (bind (bread _) fun data => ?_)) (pure _)
    exact ite (bind (ih _ _ _) fun _ => pure _) (pure _)

theorem readi (ok : Nat → Nat → Bool) (off n : UInt32) : Keeps R (Fs.readi p i ok off n) :=
  bind (gets _) fun _ => ite (pure _) (readLoop _ _ _ _ _)

theorem writeLoop (src : Source) (k : Nat) : ∀ tot off n, Keeps R (Fs.writeLoop p i src k tot off n) := by
  induction k with
  | zero => exact fun _ _ _ => pure _
  | succ k ih =>
    intro tot off n
    unfold Fs.writeLoop
    refine ite (bind (bmap _) fun addr => ite (pure _) (bind (bread _) fun data => ?_)) (pure _)
    exact bind (putBlock _ _) fun _ => ite (bind (logWrite _) fun _ => ih _ _ _) (pure _)

theorem modDin_iupdate (f : Dinode → Dinode) (a : α) :
    Keeps R (do Prog.modify fun s => s.modDin i f; Fs.iupdate p i; Pure.pure a) :=
  bind (modDin f) fun _ => bind (iupdate i) fun _ => pure a

theorem writei (src : Source) (off n : UInt32) : Keeps R (Fs.writei p i src off n) :=
  bind (gets _) fun _ => ite (pure _) (ite (pure _) (bind (writeLoop _ _ _ _ _) fun _ => modDin_iupdate _ _))

theorem readDirent (off : Nat) (msg : String) : Keeps R (Fs.readDirent p i off msg) :=
  bind (readi _ _ _) fun _ => ite (pure _) (panic _)

theorem dirlinkSlot (k : Nat) : ∀ off, Keeps R (Fs.dirlinkSlot p i k off) := by
  induction k with
  | zero => exact fun _ => pure _
  | succ k ih =>
    intro off
    exact bind (gets _) fun _ => ite (bind (readDirent _ _) fun _ => ite (pure _) (ih _)) (pure _)

theorem itrunc : Keeps R (Fs.itrunc p i) := by
  have hdirect : ∀ k, Keeps R (itruncDirect p i k) := fun k =>
    bind (gets _) fun _ => ite (pure _) (bind (bfreeRelease _) fun _ => modDin _)
  have hentry : ∀ data k, Keeps R (itruncEntry p data k) := fun data k => ite (pure _) (bfreeRelease _)
  have hend : Keeps R (Prog.modify (fun s => s.modDin i fun d => { d with size := 0 }) >>= fun _ =>
      Fs.iupdate p i) := bind (modDin _) fun _ => iupdate i
  refine bind (loop hdirect _ _) fun _ => bind (gets _) fun _ => ite hend ?_
  exact bind (bread _) fun _ => bind (loop (hentry _) _ _) fun _ => bind (bfreeRelease _) fun _ =>
    bind (modDin _) fun _ => hend

end Keeps

section References

variable {i ip : Fin NINODE} {p : Pid} {s s' : State} {n : Nat}

theorem Got.iput_still (h : Got n ip s s') : May (iput p ip) (fun _ s'' => Still i s s'') s' := by
  refine ensures_mono (ensures_of_total h.iput_back) ?_
  rintro _ s'' ⟨⟨_, _, hftable, hofile⟩, hback⟩
  refine ⟨⟨hftable, hofile, fun j _ => hback j⟩, fun hone => ?_⟩
  unfold State.din
  rw [hback i hone]

theorem dirlookupFrom_still (name : List UInt8) {k : Nat} : ∀ {off : Nat} {s : State},
    May (dirlookupFrom p i name k off) (fun r s' => match r with
      | none => Still i s s'
      | some (ip, _) => ∃ n s1, Still i s s1 ∧ Got n ip s1 s') s := by
  induction k with
  | zero => exact Still.refl i _
  | succ k ih =>
    intro off s
    have hnext : ∀ {s1 : State}, Still i s s1 → May (dirlookupFrom p i name k (off + DESIZE))
        (fun r s' => match r with
          | none => Still i s s'
          | some (ip, _) => ∃ n s1, Still i s s1 ∧ Got n ip s1 s') s1 := by
      intro s1 h1
      refine ensures_mono ih fun r s' hr => ?_
      rcases r with _ | ⟨ip, o⟩
      · exact h1.trans hr
      · obtain ⟨n, s2, h2, hg⟩ := hr
        exact ⟨n, s2, h1.trans h2, hg⟩
    unfold dirlookupFrom
    show May (if off < (s.din i).size.toNat then _ else _) _ s
    by_cases hoff : off < (s.din i).size.toNat
    · rw [if_pos hoff]
      apply ensures_seq (Keeps.readDirent (R := Still i) off _ s)
      intro e s1 h1
      by_cases hinum : e.inum = 0
      · rw [if_pos hinum]
        exact hnext h1
      · rw [if_neg hinum]
        by_cases hname : nameEq name e.name = true
        · rw [if_pos hname]
          refine ensures_seq (R := fun ip s' => Got e.inum.toNat ip s1 s') ?_ fun ip s' hg => ⟨_, s1, h1, hg⟩
          rw [iget, ensures_step]
          cases hget : igetStep e.inum.toNat s1 with
          | ok r => exact got_of_igetStep hget
          | error m => trivial
        · rw [if_neg hname]
          exact hnext h1
    · rw [if_neg hoff]
      exact Still.refl i s

theorem dirlink_local (name : List UInt8) (inum : Nat) : Local i (dirlink p i name inum) := by
  intro s
  unfold dirlink
  refine ensures_seq (R := fun r s' => match r with
      | none => Still i s s'
      | some (ip, _) => ∃ n s1, Still i s s1 ∧ Got n ip s1 s') ?_ ?_
  · refine ensures_seq (Keeps.check (R := Still i) _ _ s) fun _ s1 h1 => ?_
    refine ensures_mono (dirlookupFrom_still name) fun r s' hr => ?_
    rcases r with _ | ⟨ip, o⟩
    · exact h1.trans hr
    · obtain ⟨n, s2, h2, hg⟩ := hr
      exact ⟨n, s2, h1.trans h2, hg⟩
  · intro r s1 hr
    rcases r with _ | ⟨ip, o⟩
    · refine ensures_mono (Keeps.bind (Keeps.gets _) (fun _ => Keeps.bind (Keeps.dirlinkSlot _ _) fun _ =>
        Keeps.bind (Keeps.writei _ _ _) fun _ => Keeps.pure _) s1) fun _ _ h => Still.trans hr h
    · obtain ⟨n, s2, h2, hg⟩ := hr
      apply ensures_seq hg.iput_still
      intro _ s3 h3
      exact h2.trans h3

/-- A reference is dropped, and perhaps the inode is reclaimed. -/
theorem iput_only : May (iput p i) (fun _ s' => Only i s s') s := by
  have hmod : ∀ {f : Inode → Inode} {s1 : State}, Only i s s1 → Only i s (s1.modInode i f) := fun h =>
    h.trans ⟨rfl, rfl, fun j hj _ => update_of_ne hj _ _⟩
  have hlocal : ∀ {α : Type} {x : Prog State α} {s1 : State}, Local i x → Only i s s1 →
      May x (fun _ s' => Only i s s') s1 := fun hx h =>
    ensures_mono (hx _) fun _ _ h' => h.trans h'.toOnly
  have hcheck : ∀ {c : State → Bool} {m : String} {s1 : State}, Only i s s1 →
      May (Prog.check c m) (fun _ s' => Only i s s') s1 := fun h =>
    ensures_check.mpr ⟨fun _ => h, fun _ => trivial⟩
  unfold iput
  show May (if _ then _ else _) _ s
  split
  · refine ensures_seq (hcheck (Only.refl i s)) fun _ s1 h1 => hmod h1
  · refine ensures_seq (R := fun _ s1 => Only i s s1) ⟨rfl, rfl, fun _ _ _ => rfl⟩ fun _ s1 h1 => ?_
    refine ensures_seq (R := fun _ s1 => Only i s s1) ?_ fun _ s2 h2 => ?_
    · unfold acquireInode
      refine ensures_seq (R := fun _ s1 => Only i s s1) ?_ fun _ s2 h2 =>
        hmod (h2.trans ⟨rfl, rfl, fun _ _ _ => rfl⟩)
      refine ensures_seq ?_ fun _ s2 h2 =>
        ensures_await.mpr ⟨fun _ => h2, fun _ => ⟨trivial, trivial⟩⟩
      obtain ⟨f, hf⟩ := exists_noteWait_eq s1 p (.inode i)
      show Only i s (s1.noteWait p _)
      rw [hf]
      exact h1.trans ⟨rfl, rfl, fun _ _ _ => rfl⟩
    · refine ensures_seq (hlocal Keeps.itrunc h2) fun _ s3 h3 => ?_
      refine ensures_seq (hlocal (Keeps.modDin _) h3) fun _ s4 h4 => ?_
      refine ensures_seq (hlocal (Keeps.iupdate i) h4) fun _ s5 h5 => ?_
      refine ensures_seq (R := fun _ s1 => Only i s s1) (hmod h5) fun _ s6 h6 => ?_
      refine ensures_seq (R := fun _ s1 => Only i s s1) (hmod h6) fun _ s7 h7 => ?_
      exact ensures_seq (hcheck h7) fun _ s8 h8 => hmod h8

theorem iunlockput_only : May (iunlockput p i) (fun _ s' => Only i s s') s := by
  unfold iunlockput iunlock
  refine ensures_seq (R := fun _ s1 => Only i s s1) ?_ fun _ s1 h1 =>
    ensures_mono iput_only fun _ _ h => h1.trans h
  refine ensures_seq (Keeps.check (R := Still i) _ _ s) fun _ s1 h1 => ?_
  exact h1.toOnly.trans ⟨rfl, rfl, fun j hj _ => update_of_ne hj _ _⟩

end References

end Xv6.Fs
