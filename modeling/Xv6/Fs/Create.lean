import Xv6.Fs.Locality
import Xv6.Fs.Syscall

/-!
# Creating a file

A `create` that returns without an inode has changed nothing on the disk. Its failure path after the
allocation of an inode does not return at all: it drops the last reference to the inode, whose lock it
holds, and waits for that lock.
-/

namespace Xv6.Fs

open Data Coop Prog Storage Function

/-! ## The parts of `create` -/

/-- What `create` does with a new inode up to the last `dirlink`. The result is `false` when one of the calls of
`dirlink` has failed. -/
def createLinks (p : Pid) (ip dp : Fin NINODE) (name : List UInt8) (type major minor : UInt16) : Prog State Bool := do
  ilock p ip
  modify fun s => s.modDin ip fun d => { d with major := major, minor := minor, nlink := 1 }
  iupdate p ip
  let dots ←
    if type = T_DIR then do
      modify fun s => s.modDin dp fun d => { d with nlink := d.nlink + 1 }
      iupdate p dp
      createDots p ip dp
    else pure true
  if dots then
    let inum ← gets fun s => (s.icache ip).inum
    dirlink p dp name inum
  else pure false

/-- How `create` ends without its failure path. -/
inductive Attempt
  | result (r : Option (Fin NINODE))
  | unlinked (ip dp : Fin NINODE)

/-- `create` up to the label `fail`. -/
def createTry (p : Pid) (path : List UInt8) (type major minor : UInt16) : Prog State Attempt := do
  match ← nameiparent p path with
  | none => pure (.result none)
  | some (dp, name) =>
    ilock p dp
    match ← dirlookup p dp name with
    | some (ip, _) =>
      iunlockput p dp
      let r ← createExisting p type ip
      pure (.result r)
    | none =>
      match ← iallocAlloc p type with
      | none =>
        iunlockput p dp
        pure (.result none)
      | some ip =>
        let ok ← createLinks p ip dp name type major minor
        if ok then
          iunlockput p dp
          pure (.result (some ip))
        else pure (.unlinked ip dp)

/-- The failure path follows an attempt that has not linked its inode. -/
theorem create_eq (p : Pid) (path : List UInt8) (type major minor : UInt16) :
    create p path type major minor = createTry p path type major minor >>= fun a =>
      match a with
      | .result r => pure r
      | .unlinked ip dp => createFail p ip dp := by
  unfold create createTry
  rw [Prog.bind_assoc]
  refine congrArg _ (funext fun r => ?_)
  rcases r with _ | ⟨dp, name⟩
  · rfl
  · show (ilock p dp >>= _) = (ilock p dp >>= _) >>= _
    rw [Prog.bind_assoc]
    refine congrArg _ (funext fun _ => ?_)
    rw [Prog.bind_assoc]
    refine congrArg _ (funext fun r => ?_)
    rcases r with _ | ⟨ip, off⟩
    · show (iallocAlloc p type >>= _) = (iallocAlloc p type >>= _) >>= _
      rw [Prog.bind_assoc]
      refine congrArg _ (funext fun r => ?_)
      rcases r with _ | ip
      · show _ = (iunlockput p dp >>= _) >>= _
        rw [Prog.bind_assoc]
        rfl
      · show _ = (createLinks p ip dp name type major minor >>= _) >>= _
        rw [Prog.bind_assoc]
        have hlast : ∀ dots : Bool, (if dots = true then do
              let inum ← gets fun s => (s.icache ip).inum
              let ok ← dirlink p dp name inum
              if ok = true then do
                iunlockput p dp
                pure (some ip)
              else createFail p ip dp
            else createFail p ip dp) =
              (if dots = true then (gets fun s => (s.icache ip).inum) >>= fun inum => dirlink p dp name inum
                else pure false) >>= fun ok =>
              (if ok = true then iunlockput p dp >>= fun _ => pure (Attempt.result (some ip))
                else pure (.unlinked ip dp)) >>= fun a =>
              match a with
              | .result r => pure r
              | .unlinked ip dp => createFail p ip dp := by
          intro dots
          cases dots with
          | false => rfl
          | true =>
            show (gets _ >>= _) = (gets _ >>= _) >>= _
            rw [Prog.bind_assoc]
            refine congrArg _ (funext fun inum => congrArg _ (funext fun ok => ?_))
            cases ok with
            | false => rfl
            | true =>
              show _ = (iunlockput p dp >>= _) >>= _
              rw [Prog.bind_assoc]
              rfl
        unfold createLinks
        by_cases hdir : type = T_DIR
        · simp only [Prog.bind_assoc, hdir, if_true, hlast]
        · simp only [Prog.bind_assoc, hdir, if_false, hlast]
    · show (iunlockput p dp >>= fun _ => createExisting p type ip) = (iunlockput p dp >>= _) >>= _
      rw [Prog.bind_assoc]
      refine congrArg _ (funext fun _ => ?_)
      rw [Prog.bind_assoc]
      exact (Prog.bind_pure _).symm

/-! ## Creating an inode -/

/-- The process has the new inode in slot `ip` locked and loaded, and nobody else refers to it. -/
structure Owned (p : Pid) (ip : Fin NINODE) (s : State) : Prop where
  ref : (s.icache ip).ref = 1
  valid : (s.icache ip).valid = true
  lock : (s.icache ip).lock = some p

theorem acquireInode_never {p q : Pid} {ip : Fin NINODE} {s : State} (hlock : (s.icache ip).lock = some q) :
    May (acquireInode p ip) (fun _ _ => False) s := by
  unfold acquireInode waitFor
  refine ensures_seq (R := fun _ _ => False) ?_ fun _ _ hf => hf.elim
  refine ensures_seq (R := fun _ s2 => s2.icache = s.icache) ?_ fun _ s2 h2 => ?_
  · obtain ⟨t, ht⟩ := exists_noteWait_eq s p (.inode ip)
    show (s.noteWait p _).icache = s.icache
    rw [ht]
    rfl
  · have hlocked : s2.free (.inode ip) = false := by
      show ((s2.icache ip).lock == none) = false
      rw [h2, hlock]
      rfl
    refine ensures_await.mpr ⟨fun hfree => ?_, fun _ => ⟨trivial, trivial⟩⟩
    cases hlocked.symm.trans hfree

/-- A reclaim by the process that has the lock does not return. -/
theorem iput_never {p : Pid} {ip : Fin NINODE} {s : State} (h : Owned p ip s) (hlink : (s.din ip).nlink = 0) :
    May (iput p ip) (fun _ _ => False) s := by
  have hreclaim : ¬ ((s.icache ip).ref ≠ 1 ∨ (s.icache ip).valid = false ∨ (s.icache ip).din.nlink ≠ 0) := by
    rintro (h1 | h1 | h1)
    · exact h1 h.ref
    · cases h.valid.symm.trans h1
    · exact h1 hlink
  unfold iput
  show May (if _ then _ else _) _ s
  rw [if_neg hreclaim]
  refine ensures_seq (R := fun _ (s1 : State) => s1.icache = s.icache) rfl fun _ s1 h₁ => ?_
  have hlock : (s1.icache ip).lock = some p := by rw [h₁, h.lock]
  exact ensures_seq (acquireInode_never hlock) fun _ _ hf => hf.elim

/-- The state of a `create` that has made the inode in slot `ip` for the directory in slot `dp`. -/
structure Creating (s₀ : State) (p : Pid) (type : UInt16) (ip dp : Fin NINODE) (s : State) : Prop where
  ftable : s.ftable = s₀.ftable
  ofile : s.ofile = s₀.ofile
  ne : ip ≠ dp
  owned : Owned p ip s
  ref : 1 ≤ (s.icache dp).ref
  type : type = T_FILE → (s.din ip).type = T_FILE

namespace Creating

variable {s₀ s s' : State} {p : Pid} {type : UInt16} {ip dp : Fin NINODE}

theorem parent (h : Creating s₀ p type ip dp s) (hs : Still dp s s') : Creating s₀ p type ip dp s' := by
  have hself : s'.icache ip = s.icache ip := hs.other ip h.ne (by rw [h.owned.ref])
  refine ⟨hs.ftable.trans h.ftable, hs.ofile.trans h.ofile, h.ne, ⟨?_, ?_, ?_⟩, ?_, fun ht => ?_⟩
  · rw [hself, h.owned.ref]
  · rw [hself, h.owned.valid]
  · rw [hself, h.owned.lock]
  · rw [hs.self h.ref]
    exact h.ref
  · unfold State.din
    rw [hself]
    exact h.type ht

/-- A step on the new inode keeps its type, or the type does not matter. -/
theorem child (h : Creating s₀ p type ip dp s) (hs : Still ip s s')
    (ht : type = T_FILE → (s'.din ip).type = (s.din ip).type) : Creating s₀ p type ip dp s' := by
  have hself := hs.self (by rw [h.owned.ref])
  refine ⟨hs.ftable.trans h.ftable, hs.ofile.trans h.ofile, h.ne, ⟨?_, ?_, ?_⟩, ?_, fun hf => ?_⟩
  · rw [hself]
    exact h.owned.ref
  · rw [hself]
    exact h.owned.valid
  · rw [hself]
    exact h.owned.lock
  · rw [hs.other dp h.ne.symm h.ref]
    exact h.ref
  · rw [ht hf, h.type hf]

/-- The failure path of `create` does not return: it waits for the lock that it holds. -/
theorem createFail (h : Creating s₀ p type ip dp s) : May (Fs.createFail p ip dp) (fun _ _ => False) s := by
  have hrest : ∀ {s1 : State}, Creating s₀ p type ip dp s1 → May (do
      modify fun s => s.modDin ip fun d => { d with nlink := 0 }
      iupdate p ip
      iput p ip
      iunlockput p ip
      iunlockput p dp
      pure (none : Option (Fin NINODE))) (fun _ _ => False) s1 := by
    intro s1 h1
    have h2 := h1.child (Keeps.modDin (fun d => { d with nlink := 0 }) s1) fun _ => by
      rw [din_modDin]
    refine ensures_seq (R := fun _ s2 => s2 = s1.modDin ip fun d => { d with nlink := 0 }) rfl ?_
    rintro _ s2 rfl
    apply ensures_seq (Keeps.iupdate (R := Still dp) ip _)
    intro _ s3 hstill
    have h3 := h2.parent hstill
    have hlink : (s3.din ip).nlink = 0 := by
      unfold State.din
      rw [hstill.other ip h.ne (by rw [h2.owned.ref])]
      show ((s1.modDin ip fun d => { d with nlink := 0 }).din ip).nlink = 0
      rw [din_modDin]
    exact ensures_seq (iput_never h3.owned hlink) fun _ _ hf => hf.elim
  unfold Fs.createFail
  show May (if _ then _ else _) _ s
  split
  · refine ensures_seq (Keeps.modDin (R := Still dp) _ s) fun _ s1 h1 => ?_
    refine ensures_seq (Keeps.iupdate (R := Still dp) dp s1) fun _ s2 h2 => ?_
    exact hrest (h.parent (h1.trans h2))
  · exact hrest h

end Creating

section Create

variable {s₀ s s' : State} {p : Pid} {ip dp : Fin NINODE} {n : Nat}

/-- A free inode was given the type `type`. It is in an entry of the cache that was free, and has not
been read. -/
structure Taken (type : UInt16) (ip : Fin NINODE) (s s' : State) : Prop where
  only : Only ip s s'
  free : (s.icache ip).ref = 0
  ref : (s'.icache ip).ref = 1
  valid : (s'.icache ip).valid = false
  type_eq : (dinodeAt s'.sb s'.disk (s'.icache ip).inum).type = type

/-- The loop of `ialloc_alloc` changes nothing when it finds no free inode. -/
theorem Coherent.iallocFrom (h : Coherent s) (type : UInt16) {k : Nat} :
    ∀ inum, May (Fs.iallocFrom p s.sb type k inum) (fun r s' => match r with
      | none => s' = s
      | some ip => Taken type ip s s') s := by
  induction k with
  | zero => exact fun _ => rfl
  | succ k ih =>
    intro inum
    unfold Fs.iallocFrom
    apply ensures_seq (ensures_of_total (bread_ends _))
    intro data s1 hdata
    rw [hdata.1, hdata.2]
    by_cases hfree : (Dinode.read (s.disk (inodeBlock s.sb inum)) (inum % IPB)).type = 0
    · rw [if_pos hfree]
      refine ensures_seq (R := fun _ s1 => s1 = s.setBlock (inodeBlock s.sb inum) _) rfl ?_
      rintro _ s1 rfl
      refine ensures_seq (R := fun _ s2 => s2.sb = s.sb ∧ s2.icache = s.icache ∧ s2.ftable = s.ftable ∧
        s2.ofile = s.ofile ∧ s2.disk = update s.disk (inodeBlock s.sb inum)
          (Dinode.write { type := type } (s.disk (inodeBlock s.sb inum)) (inum % IPB))) ?_ ?_
      · unfold logWrite
        simp only [ensures_bind, ensures_modify, ensures_check]
        exact ⟨fun _ => ⟨fun _ => ⟨rfl, rfl, rfl, rfl, rfl⟩, fun _ => trivial⟩, fun _ => trivial⟩
      · rintro _ s2 ⟨hsb, hic, hft, hof, hdisk⟩
        refine ensures_seq (R := fun ip s' => Got inum ip s2 s') ?_ ?_
        · rw [Fs.iget, ensures_step]
          cases hget : igetStep inum s2 with
          | ok r => exact got_of_igetStep hget
          | error m => trivial
        · intro ip s' hg
          -- no entry in use has the number of a free inode
          have hnew : (s.icache ip).ref = 0 ∧ (s'.icache ip).ref = 1 ∧ (s'.icache ip).valid = false := by
            rcases hg.cases with ⟨hone, hself⟩ | ⟨hzero, hone, hval, _⟩
            · have hnum := hg.inum_eq
              rw [hself, hic] at hnum
              rw [hic] at hone
              have hlive := (h.live ip hone).2
              rw [show (s.icache ip).inum = inum from hnum] at hlive
              exact absurd hfree hlive
            · rw [hic] at hzero
              exact ⟨hzero, hone, hval⟩
          refine ⟨⟨hg.ftable.trans hft, hg.ofile.trans hof, fun j hj _ => ?_⟩, hnew.1, hnew.2.1, hnew.2.2, ?_⟩
          · rw [hg.other j hj, hic]
          · rw [hg.sb, hg.disk, hg.inum_eq, hsb, hdisk, dinodeAt, update_self,
              Dinode.read_write_self (Nat.mod_lt _ (by decide))]
    · rw [if_neg hfree]
      exact ih (inum + 1)

theorem Coherent.iallocAlloc (h : Coherent s) (type : UInt16) :
    May (Fs.iallocAlloc p type) (fun r s' => match r with
      | none => s' = s
      | some ip => Taken type ip s s') s := h.iallocFrom type 1

theorem ilock_new {type : UInt16} (href : (s.icache ip).ref = 1) (hval : (s.icache ip).valid = false)
    (htype : (dinodeAt s.sb s.disk (s.icache ip).inum).type = type) :
    May (ilock p ip) (fun _ s' => Only ip s s' ∧ Owned p ip s' ∧ (s'.din ip).type = type) s := by
  unfold ilock
  refine ensures_check_bind.mpr ⟨fun _ => ?_, fun _ => trivial⟩
  refine ensures_seq (R := fun _ s2 => s2.sb = s.sb ∧ s2.disk = s.disk ∧ Only ip s s2 ∧
    s2.icache ip = { s.icache ip with lock := some p }) ?_ ?_
  · unfold acquireInode waitFor
    refine ensures_seq (R := fun _ s2 => s2.sb = s.sb ∧ s2.disk = s.disk ∧ s2.icache = s.icache ∧
      s2.ftable = s.ftable ∧ s2.ofile = s.ofile) ?_ ?_
    · refine ensures_seq ?_ fun _ s2 h2 =>
          ensures_await.mpr ⟨fun _ => h2, fun _ => ⟨trivial, trivial⟩⟩
      obtain ⟨t, ht⟩ := exists_noteWait_eq s p (.inode ip)
      show (s.noteWait p _).sb = _ ∧ (s.noteWait p _).disk = _ ∧ (s.noteWait p _).icache = _ ∧
        (s.noteWait p _).ftable = _ ∧ (s.noteWait p _).ofile = _
      rw [ht]
      exact ⟨rfl, rfl, rfl, rfl, rfl⟩
    · rintro _ s2 ⟨hsb, hdisk, hic, hft, hof⟩
      refine ⟨hsb, hdisk, ⟨hft, hof, fun j hj _ => ?_⟩, ?_⟩
      · exact (update_of_ne hj _ _).trans (congrFun hic j)
      · refine (update_self _ _ _).trans ?_
        show { s2.icache ip with lock := some p } = _
        rw [hic]
  · rintro _ s2 ⟨hsb, hdisk, honly, hself⟩
    have hval2 : ¬ (s2.icache ip).valid = true := by
      rw [hself]
      simp [hval]
    show May (if (s2.icache ip).valid = true then _ else _) _ s2
    rw [if_neg hval2]
    show May (bread _ >>= _) _ s2
    apply ensures_seq (ensures_of_total (bread_ends _))
    intro data s3 hdata
    rw [hdata.1, hdata.2]
    refine ensures_seq ?_
      fun _ s4 h4 => ensures_check.mpr ⟨fun _ => h4, fun _ => trivial⟩
    have hnew : ∀ f : Inode → Inode, (s2.modInode ip f).icache ip = f (s2.icache ip) := fun f =>
      update_self _ _ _
    refine ⟨honly.trans ⟨rfl, rfl, fun j hj _ => update_of_ne hj _ _⟩, ⟨?_, ?_, ?_⟩, ?_⟩
    · rw [hnew, hself]
      exact href
    · rw [hnew]
    · rw [hnew, hself]
    · unfold State.din
      rw [hnew]
      show (Dinode.read (s2.disk (inodeBlock s2.sb (s2.icache ip).inum)) ((s2.icache ip).inum % IPB)).type = type
      rw [hself, hsb, hdisk]
      exact htype

/-- What `create` does: a failure has changed nothing, and a success leaves the tables of open files
alone. -/
def Created (s₀ : State) (type : UInt16) (r : Option (Fin NINODE)) (s' : State) : Prop :=
  match r with
  | none => Walk s₀ [] [] s'
  | some ip => s'.ftable = s₀.ftable ∧ s'.ofile = s₀.ofile ∧ (type = T_FILE → (s'.din ip).type ≠ T_DIR)

theorem Walk.createExisting (h : Walk s₀ [(ip, n)] [] s) (type : UInt16) :
    May (Fs.createExisting p type ip) (Created s₀ type) s := by
  unfold Fs.createExisting
  apply ensures_seq (h.ilock ip (by simp))
  intro _ s1 h1
  show May (if _ then _ else _) _ s1
  by_cases hsame : (type = T_FILE ∧ ((s1.din ip).type = T_FILE ∨ (s1.din ip).type = T_DEVICE)) ∨
      (type = T_DIR ∧ (s1.din ip).type = T_DIR)
  · rw [if_pos hsame]
    refine ⟨h1.ftable, h1.ofile, fun ht hd => ?_⟩
    rcases hsame with ⟨_, hf | hf⟩ | ⟨hdir, _⟩
    · cases hd.symm.trans hf
    · cases hd.symm.trans hf
    · cases ht.symm.trans hdir
  · rw [if_neg hsame]
    apply ensures_seq ((h1.forget  fun j hj => absurd hj (List.not_mem_nil)).iunlockput
      fun j hj => absurd hj (List.not_mem_nil))
    intro _ s2 h2
    exact h2

theorem Creating.createDots {type : UInt16} (h : Creating s₀ p type ip dp s) (ht : type ≠ T_FILE) :
    May (Fs.createDots p ip dp) (fun _ => Creating s₀ p type ip dp) s := by
  unfold Fs.createDots
  refine ensures_seq (R := fun _ s1 => s1 = s) rfl ?_
  rintro inum s1 rfl
  apply ensures_seq (dirlink_local [DOT] inum s1)
  intro ok s2 hstill
  have h2 := h.child hstill fun hf => absurd hf ht
  cases ok with
  | false => exact h2
  | true =>
    refine ensures_seq (R := fun _ s3 => s3 = s2) rfl ?_
    rintro parent s3 rfl
    refine ensures_mono (dirlink_local [DOT, DOT] parent s3) fun _ s4 hs => ?_
    exact h2.child hs fun hf => absurd hf ht

theorem Taken.createLinks {type : UInt16} (h : Taken type ip s s') (hdp : 1 ≤ (s.icache dp).ref) (name : List UInt8)
    (major minor : UInt16) :
    May (Fs.createLinks p ip dp name type major minor) (fun _ => Creating s p type ip dp) s' := by
  have hne : ip ≠ dp := by
    rintro rfl
    have := h.free
    omega
  have hdp' := h.only.other dp hne.symm hdp
  unfold Fs.createLinks
  apply ensures_seq (ilock_new h.ref h.valid h.type_eq)
  rintro _ s1 ⟨honly, howned, htype⟩
  have h1 : Creating s p type ip dp s1 := by
    refine ⟨honly.ftable.trans h.only.ftable, honly.ofile.trans h.only.ofile, hne, howned, ?_,
      fun ht => htype.trans ht⟩
    rw [honly.other dp hne.symm (by rwa [hdp']), hdp']
    exact hdp
  have hset := Keeps.modDin (i := ip) (R := Still ip) (fun d => { d with major := major, minor := minor, nlink := 1 }) s1
  refine ensures_seq (R := fun _ => Creating s p type ip dp) (h1.child hset fun _ => by rw [din_modDin])
    fun _ s2 h2 => ?_
  refine ensures_seq (Keeps.iupdate (R := Still dp) ip s2) fun _ s3 hstill => ?_
  have h3 := h2.parent hstill
  have hlast : ∀ {s4 : State} {inum : Nat}, Creating s p type ip dp s4 →
      May (dirlink p dp name inum) (fun _ => Creating s p type ip dp) s4 := fun h4 =>
    ensures_mono (dirlink_local name _ _) fun _ _ hs => h4.parent hs
  by_cases hdir : type = T_DIR
  · rw [if_pos hdir]
    refine ensures_seq (Keeps.modDin (R := Still dp) _ s3) fun _ s4 h4 => ?_
    refine ensures_seq (Keeps.iupdate (R := Still dp) dp s4) fun _ s5 h5 => ?_
    apply ensures_seq ((h3.parent (h4.trans h5)).createDots (by rw [hdir]; decide))
    intro dots s6 h6
    cases dots with
    | false => exact h6
    | true => exact hlast h6
  · rw [if_neg hdir]
    exact hlast h3

/-- The directory is released after the new inode has been linked. -/
theorem Creating.release {type : UInt16} (h : Creating s₀ p type ip dp s) :
    May (iunlockput p dp) (fun _ => Created s₀ type (some ip)) s := by
  refine ensures_mono iunlockput_only fun _ s1 honly => ?_
  have hself : s1.icache ip = s.icache ip := honly.other ip h.ne (by rw [h.owned.ref])
  refine ⟨honly.ftable.trans h.ftable, honly.ofile.trans h.ofile, fun ht hd => ?_⟩
  unfold State.din at hd
  rw [hself] at hd
  have hf := h.type ht
  cases (show (s.din ip).type = T_DIR from hd).symm.trans hf

theorem Walk.createTry (h : Walk s₀ [] [] s) (hsound : Sound s₀.sb s₀.disk) (path : List UInt8)
    (type major minor : UInt16) : May (Fs.createTry p path type major minor) (fun a s' => match a with
      | .result r => Created s₀ type r s'
      | .unlinked ip dp => Creating s₀ p type ip dp s') s := by
  have hnil : ∀ {P : Fin NINODE → Prop} (j : Fin NINODE), j ∈ ([] : List (Fin NINODE)) → P j :=
    fun j hj => absurd hj (List.not_mem_nil)
  unfold Fs.createTry
  apply ensures_seq (h.dnamex hsound hnil path true)
  intro r s1 hr
  rcases r with _ | ⟨dp, name⟩
  · exact hr
  · obtain ⟨m, h1⟩ := hr
    apply ensures_seq (h1.ilock dp (by simp))
    intro _ s2 h2
    apply ensures_seq (h2.dirlookup hsound List.mem_cons_self List.mem_cons_self name)
    intro r s3 hr
    rcases r with _ | ⟨ip, off⟩
    · have h3 : Walk s₀ [(dp, m)] [dp] s3 := hr
      apply ensures_seq (h3.coherent.iallocAlloc type)
      intro r s4 hr
      rcases r with _ | ip
      · obtain rfl : s4 = s3 := hr
        apply ensures_seq ((h3.forget hnil).iunlockput hnil)
        intro _ s5 h5
        exact h5
      · have htaken : Taken type ip s3 s4 := hr
        apply ensures_seq (htaken.createLinks (h3.one_le_ref (by simp)) name major minor)
        intro ok s5 h5
        have h5' : Creating s₀ p type ip dp s5 :=
          { h5 with
            ftable := h5.ftable.trans h3.ftable
            ofile := h5.ofile.trans h3.ofile }
        cases ok with
        | false => exact h5'
        | true =>
          apply ensures_seq h5'.release
          intro _ s6 h6
          exact h6
    · obtain ⟨m', h3, _⟩ := hr
      apply ensures_seq (((h3.perm (List.Perm.swap _ _ _)).forget hnil).iunlockput hnil)
      intro _ s4 h4
      apply ensures_seq (h4.createExisting type)
      intro r s5 h5
      exact h5

theorem Walk.create (h : Walk s₀ [] [] s) (hsound : Sound s₀.sb s₀.disk) (path : List UInt8)
    (type major minor : UInt16) : May (Fs.create p path type major minor) (Created s₀ type) s := by
  rw [create_eq]
  apply ensures_seq (h.createTry hsound path type major minor)
  intro a s1 h1
  cases a with
  | result r => exact h1
  | unlinked ip dp => exact ensures_mono (Creating.createFail h1) fun _ _ hf => hf.elim

end Create

end Xv6.Fs
