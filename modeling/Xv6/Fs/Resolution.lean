import Xv6.Fs.Visit
import Xv6.Fs.Failures
import Xv6.Fs.Guarantees

/-!
# Path resolution

`namei` and `nameiparent` find the inode that a path means, with one reference to it and without a lock. They
start at the root for every path: the current directory of a process is kept by `chdir` and `fork` but never used.
-/

namespace Xv6.Fs

open Data Coop Prog Storage
open List (not_mem_nil mem_cons_self)

/-! ## The guarantee -/

/-- A file system that nobody works on: it is well-formed, the inode cache agrees with the disk, and no inode
is locked. -/
structure Consistent (s : State) : Prop where
  sound : Sound s.sb s.disk
  coherent : Coherent s
  unlocked : ∀ i, (s.icache i).lock = none

/-- Of the state only the inode cache has changed, and no inode is locked. -/
structure Untouched (s s' : State) : Prop where
  sb : s'.sb = s.sb
  disk : s'.disk = s.disk
  log : s'.log = s.log
  ftable : s'.ftable = s.ftable
  ofile : s'.ofile = s.ofile
  cwd : s'.cwd = s.cwd
  unlocked : ∀ i, (s'.icache i).lock = none

/-- The entry of the cache is one for inode `m`, and one reference to it is new. Without an inode, no reference is. -/
def Holds (s : State) (m : Option Nat) (ip : Option (Fin NINODE)) (s' : State) : Prop :=
  m = ip.map (fun i => (s'.icache i).inum) ∧ (∀ i, ip = some i → 1 ≤ (s'.icache i).ref) ∧
    ∀ n, refcount s' n = refcount s n + if m = some n then 1 else 0

section Guarantee

variable {p : Pid} {s s' : State} {l : List (Fin NINODE × Nat)}

theorem Consistent.visit (h : Consistent s) (p : Pid) : Visit p s [] [] s where
  sb := rfl
  disk := rfl
  log := rfl
  ftable := rfl
  ofile := rfl
  coherent := h.coherent
  refs _ := Nat.zero_le _
  held _ hr := absurd hr not_mem_nil
  valid _ hj := absurd hj not_mem_nil
  cwd := rfl
  locks i := by rw [h.unlocked, if_neg not_mem_nil]
  count n := by rw [List.map_nil, List.count_nil, Nat.add_zero]
  stays _ hi := ⟨hi, rfl⟩

theorem Visit.untouched (h : Visit p s l [] s') : Untouched s s' :=
  ⟨h.sb, h.disk, h.log, h.ftable, h.ofile, h.cwd, fun i => by rw [h.locks, if_neg not_mem_nil]⟩

theorem Visit.holds_none (h : Visit p s [] [] s') : Holds s none none s' := by
  refine ⟨rfl, nofun, fun n => ?_⟩
  rw [h.count, List.map_nil, List.count_nil, if_neg (Option.some_ne_none n).symm]

theorem Visit.holds_some {ip : Fin NINODE} {m : Nat} (h : Visit p s [(ip, m)] [] s') : Holds s (some m) (some ip) s' := by
  refine ⟨?_, fun i hi => ?_, fun n => ?_⟩
  · rw [Option.map_some, (h.held _ mem_cons_self).1]
  · obtain rfl := Option.some.inj hi
    exact h.one_le_ref (by simp)
  · rw [h.count, List.map_singleton, List.count_singleton]
    refine congrArg _ (if_congr ?_ rfl rfl)
    rw [beq_iff_eq, Option.some_inj]

/-- With two free entries in the inode cache the program returns. -/
theorem Returns.run {s0 s : State} {α : Type} {x : Prog State α} {Q : α → State → Prop} (hx : Returns s0 x Q s)
    (hfree : 2 ≤ freeEntries s0) : ∃ a s', x.run s = .done a s' ∧ Q a s' := by
  have hrun := ensures_run hx
  cases hr : x.run s with
  | done a s' =>
    rw [hr] at hrun
    exact ⟨a, s', rfl, hrun⟩
  | panicked m s' =>
    rw [hr] at hrun
    exact absurd hrun.2 (by omega)
  | stuck s' =>
    rw [hr] at hrun
    cases hrun.1

theorem Consistent.namei (h : Consistent s) (p : Pid) (path : List UInt8) :
    Returns s (Fs.namei p path) (fun r s' => Untouched s s' ∧
      Holds s (resolve s.sb s.disk ROOTINO (elements path)) r s') s := by
  refine ensures_mono ((h.visit p).namei h.sound path) ?_
  intro r s' hr
  rcases r with _ | ip
  · rw [hr.1]
    exact ⟨hr.2.untouched, hr.2.holds_none⟩
  · obtain ⟨m, hm, hv⟩ := hr
    rw [hm]
    exact ⟨hv.untouched, hv.holds_some⟩

theorem Visit.lookupLast {s0 : State} {dp : Fin NINODE} {n m : Nat} {name : List UInt8} {cs : List (List UInt8)}
    (h : Visit p s0 [(dp, m)] [] s') (hsound : Sound s0.sb s0.disk)
    (hparent : resolveParent s0.sb s0.disk n cs = some (m, name)) :
    Returns s0 (do Fs.ilock p dp; Fs.dirlookup p dp name) (fun r s'' =>
      r.map (fun x => (s''.icache x.1).inum) = resolve s0.sb s0.disk n cs) s' := by
  have hdir := (resolveParent_type hparent).1
  rw [resolve_of_parent hparent]
  apply ensures_seq (ensures_of_total (h.ilock dp (by simp) not_mem_nil))
  intro _ s1 h1
  have htype := h1.type_eq mem_cons_self mem_cons_self
  refine ensures_mono (h1.dirlookup hsound (by simp) mem_cons_self mem_cons_self (htype.trans hdir) name) ?_
  intro r s2 hr
  rcases r with _ | ⟨ip, off⟩
  · exact hr.1.symm
  · obtain ⟨k, hk, h2⟩ := hr
    rw [hk, Option.map_some, (h2.held _ mem_cons_self).1]

end Guarantee

theorem short_a : ∀ c, c ∈ components [SLASH, 97] → c.length ≤ DIRSIZ - 1 := by
  intro c hc
  have hcs : components [SLASH, 97] = [[97]] := rfl
  rw [hcs, List.mem_singleton] at hc
  rw [hc]
  decide

/-- A file system without blocks: 51 inodes, of which the first is the empty root directory and the others are
empty files. Every entry of the inode cache is in use for one of the files. -/
def fullCache : State where
  sb := { magic := FSMAGIC, size := 7, nblocks := 1, ninodes := 64, nlog := 30, logstart := 0, inodestart := 1,
          bmapstart := 5 }
  disk := fun b =>
    if 1 ≤ b ∧ b < 5 then fun i =>
      let inum := IPB * (b - 1) + i.val / 64
      if inum = 0 ∨ 52 ≤ inum then 0
      else
        match i.val % 64 with
        | 0 => if inum = 1 then 1 else 2
        | 6 => 1
        | _ => 0
    else if b = 5 then fun i => if i.val = 0 then 63 else 0
    else Bytes.zero
  log := { size := 30 }
  icache := fun i => { inum := i.val + 2, ref := 1 }
  ftable := fun _ => {}
  ofile := fun _ _ => none

theorem fullCache_parts :
    Plain fullCache.sb fullCache.disk ∧ (∀ i : Fin NINODE, Live fullCache.sb fullCache.disk (i.val + 2)) ∧
    (match (namei 1 [SLASH, 97]).run fullCache with
      | .panicked m _ => m == "iget: no inodes"
      | _ => false) = true := by
  decide +kernel

theorem consistent_fullCache : Consistent fullCache where
  sound := fullCache_parts.1.sound
  coherent := by
    refine ⟨fun i _ => fullCache_parts.2.1 i, nofun, fun i j _ _ he => ?_⟩
    have he' : i.val + 2 = j.val + 2 := he
    exact Fin.ext (by omega)
  unlocked := fun _ => rfl

/-- The inode that `namei` returns, if it returns. -/
def answer (p : Pid) (path : List UInt8) (s : State) : Option (Option Nat) :=
  match (namei p path).run s with
  | .done r s' => some (r.map fun i => (s'.icache i).inum)
  | _ => none

section Cwd

variable {p q : Pid} {s s' : State}

/-- Every process that is asked gets the answer from the root. -/
theorem Consistent.answer_eq (h : Consistent s) (hfree : 2 ≤ freeEntries s) (p : Pid) (path : List UInt8) :
    answer p path s = some (resolve s.sb s.disk ROOTINO (elements path)) := by
  obtain ⟨r, s', hrun, _, hholds⟩ := (h.namei p path).run hfree
  unfold answer
  rw [hrun, hholds.1]

/-- A state that differs from a consistent one in the references to entries in use, in the file table and in what
the processes have. -/
theorem Consistent.of_refs (h : Consistent s) (s' : State) (hsb : s'.sb = s.sb) (hdisk : s'.disk = s.disk)
    (hentry : ∀ i, ∃ k, s'.icache i = { s.icache i with ref := k } ∧ (1 ≤ k → 1 ≤ (s.icache i).ref)) :
    Consistent s' ∧ freeEntries s ≤ freeEntries s' := by
  have hone : ∀ i, 1 ≤ (s'.icache i).ref → 1 ≤ (s.icache i).ref := by
    intro i hi
    obtain ⟨k, he, hk⟩ := hentry i
    rw [he] at hi
    exact hk hi
  have hinum : ∀ i, (s'.icache i).inum = (s.icache i).inum := by
    intro i
    obtain ⟨k, he, _⟩ := hentry i
    rw [he]
  refine ⟨⟨?_, ⟨?_, ?_, ?_⟩, ?_⟩, ?_⟩
  · rw [hsb, hdisk]
    exact h.sound
  · intro i hi
    rw [hsb, hdisk, hinum]
    exact h.coherent.live i (hone i hi)
  · intro i hi hv
    have hi' := hone i hi
    obtain ⟨k, he, _⟩ := hentry i
    unfold State.din
    rw [hsb, hdisk, hinum]
    rw [he] at hv ⊢
    exact h.coherent.din i hi' hv
  · intro i j hi hj he
    rw [hinum, hinum] at he
    exact h.coherent.inj i j (hone i hi) (hone j hj) he
  · intro i
    obtain ⟨k, he, _⟩ := hentry i
    rw [he]
    exact h.unlocked i
  · refine Finset.card_le_card fun i hi => ?_
    simp only [Finset.mem_filter, Finset.mem_univ, true_and] at hi ⊢
    have := hone i
    omega

theorem Visit.consistent {l : List (Fin NINODE × Nat)} (h : Visit p s l [] s') (hs : Consistent s) :
    Consistent s' where
  sound := by
    rw [h.sb, h.disk]
    exact hs.sound
  coherent := h.coherent
  unlocked := h.untouched.unlocked

/-- What a process needs of its current directory: it has a reference to it, and the directory has not been
removed. -/
def CwdOk (p : Pid) (s : State) : Prop :=
  ∀ c, s.cwd p = some c → 1 ≤ (s.icache c).ref ∧ Linked s.sb s.disk (s.icache c).inum

/-- A `chdir` with success leaves the process with a reference to the directory that the path leads to. -/
theorem Consistent.chdir (h : Consistent s) (hold : CwdOk p s) (path : List UInt8) :
    Returns s (sysChdir p path) (fun r s' => r = 0 → Consistent s' ∧ s'.sb = s.sb ∧ s'.disk = s.disk ∧
      ∃ c, s'.cwd p = some c ∧ 1 ≤ (s'.icache c).ref ∧
        resolve s.sb s.disk ROOTINO (elements path) = some (s'.icache c).inum) s := by
  have hfails : ∀ {s1 : State} {Q : State → Prop}, Returns s (pure (-1)) (fun (r : Int) s' => r = 0 → Q s') s1 := by
    intro s1 Q hr
    cases hr
  unfold sysChdir
  apply ensures_seq ((h.visit p).namei h.sound path)
  intro r s1 hr
  rcases r with _ | ip
  · exact hfails
  · obtain ⟨m, hm, h1⟩ := hr
    apply ensures_seq (ensures_of_total (h1.ilock ip (by simp) not_mem_nil))
    intro _ s2 h2
    show Returns s (if _ then _ else _) _ s2
    by_cases htype : (s2.din ip).type ≠ T_DIR
    · rw [if_pos htype]
      apply ensures_seq (ensures_of_total (h2.iunlockput not_mem_nil fun j hj => absurd hj not_mem_nil))
      intro _ s3 _
      exact hfails
    · rw [if_neg htype]
      apply ensures_seq (ensures_of_total (h2.iunlock not_mem_nil))
      intro _ s3 h3
      have hinum := (h3.held _ mem_cons_self).1
      have hcons := h3.consistent h
      rw [ensures_bind, ensures_gets]
      cases hcwd : s3.cwd p with
      | none =>
        intro _
        obtain ⟨hcons', _⟩ := hcons.of_refs (s3.setCwd p (some ip)) rfl rfl fun i => ⟨(s3.icache i).ref, rfl, id⟩
        refine ⟨hcons', h3.sb, h3.disk, ip, Function.update_self _ _ _, h3.one_le_ref (by simp), ?_⟩
        rw [hm]
        exact congrArg some hinum.symm
      | some old =>
        rw [h3.cwd] at hcwd
        obtain ⟨hone, hlinked⟩ := hold old hcwd
        obtain ⟨hone', hinum'⟩ := h3.stays old hone
        refine ensures_seq
          (ensures_of_total (iput_total hone' fun hval => ?_)) ?_
        · rw [h3.coherent.din old hone' hval, hinum', h3.sb, h3.disk]
          exact hlinked.2
        · rintro _ s4 rfl _
          have hentry : ∀ i, ∃ k, ((s3.modInode old fun e => { e with ref := e.ref - 1 }).setCwd p (some ip)).icache i =
              { s3.icache i with ref := k } ∧ (1 ≤ k → 1 ≤ (s3.icache i).ref) := by
            intro i
            show ∃ k, (s3.modInode old fun e => { e with ref := e.ref - 1 }).icache i = _ ∧ _
            by_cases hi : i = old
            · rw [hi, State.modInode_self]
              exact ⟨_, rfl, fun hk => by omega⟩
            · rw [State.modInode_of_ne _ _ hi]
              exact ⟨_, rfl, id⟩
          obtain ⟨hcons', _⟩ := hcons.of_refs
            ((s3.modInode old fun e => { e with ref := e.ref - 1 }).setCwd p (some ip)) rfl rfl hentry
          refine ⟨hcons', h3.sb, h3.disk, ip, Function.update_self _ _ _, ?_, ?_⟩
          · show 1 ≤ ((s3.modInode old fun e => { e with ref := e.ref - 1 }).icache ip).ref
            by_cases hi : ip = old
            · -- the new directory is the old one: there are two references
              subst hi
              have hrefs := h3.coherent.refcount_eq hone'
              have hbefore := one_le_refcount hone
              rw [h3.count, hinum, List.map_cons, List.count_cons_self] at hrefs
              rw [← hinum', hinum] at hbefore
              rw [State.modInode_self]
              show 1 ≤ (s3.icache ip).ref - 1
              omega
            · rw [State.modInode_of_ne _ _ hi]
              exact h3.one_le_ref (by simp)
          · show _ = some ((s3.modInode old fun e => { e with ref := e.ref - 1 }).icache ip).inum
            rw [hm]
            by_cases hi : ip = old
            · rw [hi, State.modInode_self, ← hi]
              exact congrArg some hinum.symm
            · rw [State.modInode_of_ne _ _ hi]
              exact congrArg some hinum.symm

/-- The part of `fork` that concerns the file system only adds a reference to the current directory. -/
theorem forkFiles_may (hcwd : ∀ c, s.cwd p = some c → 1 ≤ (s.icache c).ref) :
    May (forkFiles p q) (fun _ s' => s'.sb = s.sb ∧ s'.disk = s.disk ∧
      ∀ i, ∃ k, s'.icache i = { s.icache i with ref := k } ∧ (1 ≤ k → 1 ≤ (s.icache i).ref)) s := by
  unfold forkFiles
  refine ensures_seq (R := fun _ (s1 : State) => s1.sb = s.sb ∧ s1.disk = s.disk ∧ s1.icache = s.icache ∧ s1.cwd = s.cwd)
    ?_ ?_
  · refine ensures_loop (fun _ (s1 : State) => s1.sb = s.sb ∧ s1.disk = s.disk ∧ s1.icache = s.icache ∧ s1.cwd = s.cwd) ?_
      ⟨rfl, rfl, rfl, rfl⟩
    intro fd s1 _ _ h1
    unfold forkDup
    split
    · rw [ensures_bind, ensures_gets]
      split
      · exact h1
      · unfold filedup
        refine ensures_seq ?_ fun _ s2 h2 => h2
        exact ensures_check_bind.mpr ⟨fun _ => h1, fun _ => trivial⟩
    · exact h1
  · rintro _ s1 ⟨hsb, hdisk, hicache, hs1⟩
    rw [ensures_bind, ensures_gets]
    cases hc : s1.cwd p with
    | none =>
      refine ⟨hsb, hdisk, fun i => ⟨(s.icache i).ref, ?_, id⟩⟩
      show s1.icache i = _
      rw [hicache]
    | some c =>
      refine ⟨hsb, hdisk, fun i => ?_⟩
      show ∃ k, (s1.modInode c fun e => { e with ref := e.ref + 1 }).icache i = _ ∧ _
      by_cases hi : i = c
      · rw [hs1] at hc
        rw [hi, State.modInode_self, hicache]
        exact ⟨_, rfl, fun _ => hcwd c hc⟩
      · rw [State.modInode_of_ne _ _ hi, hicache]
        exact ⟨_, rfl, id⟩

end Cwd

/-- A relative path is resolved from the root and not from the current directory. So a process that went to `d`
reaches with `r` what it reaches with `d/r`, and its children do, exactly when `r` leads from the root to the same
inode as from the current directory. -/
theorem cwd_respected_iff {p : Pid} {s s₁ : State} {d r : List UInt8} (h : Consistent s) (hold : CwdOk p s)
    (hchdir : (sysChdir p d).run s = .done 0 s₁) (hfree : 2 ≤ freeEntries s₁) :
    ∃ c, s₁.cwd p = some c ∧
      ((answer p r s₁ = answer p (d ++ SLASH :: r) s₁ ∧
        ∀ q s₂, (forkFiles p q).run s₁ = .done q s₂ → answer q r s₂ = answer q (d ++ SLASH :: r) s₂) ↔
      resolve s₁.sb s₁.disk ROOTINO (elements r) = resolve s₁.sb s₁.disk (s₁.icache c).inum (elements r)) := by
  have helements : elements (d ++ SLASH :: r) = elements d ++ elements r := by
    rw [elements, components_append_slash, List.map_append]
    rfl
  obtain ⟨h1, hsb1, hdisk1, c, hc, hone, hm⟩ := of_run_eq_done (h.chdir hold d) hchdir rfl
  rw [← hsb1, ← hdisk1] at hm
  have happend : resolve s₁.sb s₁.disk ROOTINO (elements d ++ elements r) =
      resolve s₁.sb s₁.disk (s₁.icache c).inum (elements r) := by
    rw [resolve_append, hm]
    rfl
  refine ⟨c, hc, ?_⟩
  rw [h1.answer_eq hfree, h1.answer_eq hfree, helements, happend, Option.some_inj]
  refine ⟨fun hboth => hboth.1, fun he => ⟨he, fun q s₂ hrun => ?_⟩⟩
  have hcwd : ∀ c', s₁.cwd p = some c' → 1 ≤ (s₁.icache c').ref := by
    intro c' hc'
    rw [hc] at hc'
    rw [← Option.some.inj hc']
    exact hone
  obtain ⟨hsb, hdisk, hentry⟩ := of_run_eq_done (forkFiles_may hcwd) hrun
  obtain ⟨h2, hfree2⟩ := h1.of_refs s₂ hsb hdisk hentry
  rw [h2.answer_eq (by omega), h2.answer_eq (by omega), helements, hsb, hdisk, happend, he]

/-- The first process goes to the root directory. -/
theorem cwd_respected_iff_root : ∃ s₁ c, (sysChdir 1 [SLASH]).run fullTable = .done 0 s₁ ∧ s₁.cwd 1 = some c ∧
    ((answer 1 [97] s₁ = answer 1 [SLASH, SLASH, 97] s₁ ∧
      ∀ q s₂, (forkFiles 1 q).run s₁ = .done q s₂ → answer q [97] s₂ = answer q [SLASH, SLASH, 97] s₂) ↔
    resolve s₁.sb s₁.disk ROOTINO (elements [97]) = resolve s₁.sb s₁.disk (s₁.icache c).inum (elements [97])) := by
  have hresult : ((sysChdir 1 [SLASH]).run fullTable).returned
      (fun r s₁ => decide (r = 0 ∧ 2 ≤ freeEntries s₁)) = true := by decide +kernel
  have hcons : Consistent fullTable := ⟨wellFormed_fullTable.sound, wellFormed_fullTable.coherent, fun _ => rfl⟩
  obtain ⟨r, s₁, hrun, htest⟩ := Outcome.exists_done_of_returned hresult
  obtain ⟨rfl, hfree⟩ := of_decide_eq_true htest
  obtain ⟨c, hc, hiff⟩ := cwd_respected_iff hcons (nofun) hrun hfree
  exact ⟨s₁, c, hrun, hc, hiff⟩

/-- The first process goes to `/d`. Then `d` still names the directory itself, while `/d/d` does not exist. -/
theorem cwd_ignored : Initial smallFs ∧ ∃ s₁, (sysChdir 1 pathD).run smallFs = .done 0 s₁ ∧
    answer 1 [100] s₁ = some (some 2) ∧ answer 1 (pathD ++ SLASH :: [100]) s₁ = some none := by
  have hresult : ((sysChdir 1 pathD).run smallFs).returned (fun r s₁ => decide (r = 0 ∧
      answer 1 [100] s₁ = some (some 2) ∧ answer 1 (pathD ++ SLASH :: [100]) s₁ = some none)) = true := by
    decide +kernel
  obtain ⟨r, s₁, hrun, htest⟩ := Outcome.exists_done_of_returned hresult
  obtain ⟨rfl, hanswer⟩ := of_decide_eq_true htest
  exact ⟨initial_smallFs, s₁, hrun, hanswer⟩

end Xv6.Fs
