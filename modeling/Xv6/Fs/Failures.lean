import Xv6.Fs.Create
import Xv6.Fs.Edits

/-!
# Calls that fail

The calls of `kernel/sysfile.c` that change the name space are `open`, `mkdir`, `mknod`, `link` and
`unlink`. When one of them returns `-1`, the allocated inodes, their types, link counts, sizes and
bytes are as they were before the call. The exception is an `open` with `O_CREATE` that has made the
file when it finds that the file table or the descriptor table is full.

The calls run alone here: no other process runs while a call sleeps.
-/

namespace Xv6.Fs

open Data Coop Prog Storage

/-! ## The calls -/

/-- A state between two system calls of a well-formed file system. -/
structure WellFormed (s : State) : Prop where
  sound : Sound s.sb s.disk
  coherent : Coherent s
  nlink : ∀ n, Linked s.sb s.disk n → (dinodeAt s.sb s.disk n).nlink + 1 ≠ 0
  files : ∀ f, (s.ftable f).ref = 0 → (s.ftable f).type = .none
  log : LOGSIZE ≤ s32 s.log.size

section Calls

variable {s0 s s' : State} {l : List (Fin NINODE × Nat)} {v : List (Fin NINODE)} {p : Pid}
  {i ip dp : Fin NINODE} {n : Nat}

theorem not_mem_nil_fst {P : Fin NINODE → Prop} (j : Fin NINODE) (hj : j ∈ ([] : List (Fin NINODE))) : P j :=
  absurd hj (List.not_mem_nil)

/-- A system call has begun its operation. -/
structure Begun (s s₁ : State) : Prop where
  walk : Walk s₁ [] [] s₁
  sb : s₁.sb = s.sb
  disk : s₁.disk = s.disk
  ftable : s₁.ftable = s.ftable
  ofile : s₁.ofile = s.ofile
  room : Room 8 s₁

theorem WellFormed.beginOp (h : WellFormed s) : May (Fs.beginOp p) (fun _ => Begun s) s := by
  unfold Fs.beginOp waitFor
  refine ensures_seq (R := fun _ s1 => (∃ f, s1 = s.modTrace f) ∧ admits s.log = true) ?_ ?_
  · refine ensures_seq (R := fun _ s1 => ∃ f, s1 = s.modTrace f) (exists_noteWait_eq s p .admission) ?_
    rintro _ s1 ⟨f, rfl⟩
    exact ensures_await.mpr ⟨fun hfree => ⟨⟨f, rfl⟩, hfree⟩, fun _ => ⟨trivial, trivial⟩⟩
  · rintro _ s1 ⟨⟨f, rfl⟩, hadmit⟩
    obtain ⟨_, hlh⟩ := of_decide_eq_true hadmit
    have hlog := h.log
    refine ⟨⟨rfl, rfl, rfl, rfl, rfl, ⟨h.coherent.live, h.coherent.din, h.coherent.inj⟩,
      fun j => Nat.zero_le _, fun r hr => absurd hr (List.not_mem_nil), not_mem_nil_fst⟩,
      rfl, rfl, rfl, rfl, ⟨?_, ?_, ?_⟩⟩
    · show s.log.lh.length + 8 ≤ LOGSIZE
      lia
    · show (s.log.lh.length + 8 : Int) ≤ s32 s.log.size - 1
      lia
    · exact Nat.le_add_left _ _

theorem endOp_may : May (endOp p) (fun _ s' => s'.sb = s.sb ∧ s'.disk = s.disk) s := by
  unfold endOp
  refine ensures_seq (R := fun _ s1 => s1.sb = s.sb ∧ s1.disk = s.disk) ?_ ?_
  · rw [ensures_step]
    simp only [leave]
    by_cases hc : s.log.committing = true
    · rw [if_pos hc]
      trivial
    · rw [if_neg hc]
      by_cases ho : s.log.outstanding - 1 = 0
      · rw [if_pos ho]
        exact ⟨rfl, rfl⟩
      · rw [if_neg ho]
        exact ⟨rfl, rfl⟩
  · rintro doCommit s1 h1
    cases doCommit with
    | false => exact h1
    | true =>
      refine ensures_seq (R := fun _ s2 => s2 = s1) ((ensures_pause _ _).mpr ⟨trivial, rfl⟩) ?_
      rintro _ s2 rfl
      exact h1

theorem endWith_may (r : Int) : May (endWith p r) (fun r' s' => r' = r ∧ s'.sb = s.sb ∧ s'.disk = s.disk) s := by
  apply ensures_seq endOp_may
  intro _ s1 h1
  exact ⟨rfl, h1⟩

/-- A call that fails at the end of a walk has changed no file. -/
theorem Walk.endWith (h : Walk s0 l v s) (r : Int) :
    May (Fs.endWith p r) (fun r' s' => r' = -1 → SameFiles s0.sb s0.disk s'.disk) s := by
  refine ensures_mono (endWith_may r) fun _ s' hs' _ => ?_
  rw [hs'.2.2, h.disk]
  exact AgreeOff.refl _ _ _

theorem endWith_ne {r : Int} (hr : r ≠ -1) (Q : State → Prop) :
    May (endWith p r) (fun r' s' => r' = -1 → Q s') s := by
  refine ensures_mono (endWith_may r) fun r' s' hs' he => ?_
  rw [hs'.1] at he
  exact absurd he hr

theorem Walk.modFile (h : Walk s0 l v s) (f : Fin NFILE) (g : File → File) :
    Walk (s0.modFile f g) l v (s.modFile f g) := by
  refine ⟨h.sb, h.disk, h.log, ?_, h.ofile, ⟨h.coherent.live, h.coherent.din, h.coherent.inj⟩, h.refs,
    h.held, h.valid⟩
  show Function.update s.ftable f (g (s.ftable f)) = Function.update s0.ftable f (g (s0.ftable f))
  rw [h.ftable]

theorem openFile_success {f : Fin NFILE} {fd : Fin NOFILE} (omode : UInt32) (Q : State → Prop) :
    May (do
      modify fun s => s.modFile f fun ff =>
        { ff with
          type := .inode
          ip := ip
          off := 0
          readable := omode &&& O_WRONLY == 0
          writable := omode &&& O_WRONLY != 0 || omode &&& O_RDWR != 0 }
      let type ← gets fun s => (s.din ip).type
      if omode &&& O_TRUNC ≠ 0 ∧ type = T_FILE then
        itrunc p ip
        iupdate p ip
      iunlock p ip
      endWith p fd) (fun r s' => r = -1 → Q s') s := by
  have hne : ((fd.val : Nat) : Int) ≠ -1 := by omega
  have hrest : ∀ {s1 : State}, May (iunlock p ip >>= fun _ => endWith p fd) (fun r s' => r = -1 → Q s') s1 :=
    ensures_seq (ensures_of_forall (fun _ _ => trivial) _ _) fun _ _ _ => endWith_ne hne Q
  refine ensures_seq (ensures_of_forall (fun _ _ => trivial) _ _) fun _ s1 _ => ?_
  show May (if _ then _ else _) _ s1
  split
  · refine ensures_seq (ensures_of_forall (fun _ _ => trivial) _ _) fun _ s2 _ => ?_
    refine ensures_seq (ensures_of_forall (fun _ _ => trivial) _ _) fun _ s3 _ => ?_
    exact hrest
  · exact hrest

theorem filealloc_may : May filealloc (fun r s' => match r with
    | none => s' = s ∧ ∀ f, (s.ftable f).ref ≠ 0
    | some f => s' = s.modFile f (fun ff => { ff with ref := 1 }) ∧ (s.ftable f).ref = 0) s := by
  unfold filealloc
  rw [May, ensures_step]
  cases hfind : (List.finRange NFILE).find? fun f => decide ((s.ftable f).ref = 0) with
  | none => exact ⟨rfl, fun f hf => List.find?_eq_none.mp hfind f (List.mem_finRange f) (decide_eq_true hf)⟩
  | some f =>
    have hf := List.find?_some hfind
    exact ⟨rfl, of_decide_eq_true hf⟩

theorem fdalloc_may (f : Fin NFILE) : May (fdalloc p f)
    (fun r s' => r = none → s' = s ∧ ∀ fd, s.ofile p fd ≠ none) s := by
  unfold fdalloc
  rw [May, ensures_step]
  cases hfind : (List.finRange NOFILE).find? fun fd => s.ofile p fd == none with
  | none => exact fun _ => ⟨rfl, fun fd hfd => List.find?_eq_none.mp hfind fd (List.mem_finRange fd) (by rw [hfd]; rfl)⟩
  | some fd => exact fun h => absurd h (Option.some_ne_none fd)

/-- With a free file and a free descriptor an open does not fail at its end. -/
theorem openFile_of_free {f : Fin NFILE} {fd : Fin NOFILE} (hf : (s.ftable f).ref = 0)
    (hfd : s.ofile p fd = none) (omode : UInt32) (Q : State → Prop) :
    May (openFile p ip omode) (fun r s' => r = -1 → Q s') s := by
  unfold openFile
  apply ensures_seq filealloc_may
  intro r s1 hr
  rcases r with _ | g
  · exact absurd hf (hr.2 f)
  · obtain ⟨rfl, _⟩ := hr
    apply ensures_seq (fdalloc_may g)
    intro r s2 hr
    rcases r with _ | fd'
    · exact absurd hfd ((hr rfl).2 fd)
    · exact openFile_success omode Q

/-- The close of a file that has just been allocated: it has no type, so nothing is dropped. -/
theorem Walk.fileclose_new {f : Fin NFILE} (h : Walk s0 l v s) (hone : (s.ftable f).ref = 1)
    (hnone : (s.ftable f).type = .none) :
    May (fileclose p f) (fun _ s' => ∃ s1 : State, s1.sb = s0.sb ∧ s1.disk = s0.disk ∧ Walk s1 l v s') s := by
  unfold fileclose
  refine ensures_seq (R := fun r s1 => r = some (s.ftable f) ∧
    s1 = s.modFile f fun ff => { ff with ref := 0, type := .none }) ?_ ?_
  · rw [ensures_step]
    unfold fileRelease
    rw [if_neg (by omega), if_neg (by omega)]
    exact ⟨rfl, rfl⟩
  · rintro r s1 ⟨rfl, rfl⟩
    have hne : ¬ (s.ftable f).type = .inode := by
      rw [hnone]
      decide
    show May (if (s.ftable f).type = .inode then _ else pure ()) _ _
    rw [if_neg hne]
    exact ⟨s0.modFile f _, rfl, rfl, h.modFile f _⟩

theorem Walk.openFile (h : Walk s0 [(ip, n)] v s) (hfiles : ∀ f, (s.ftable f).ref = 0 → (s.ftable f).type = .none)
    (omode : UInt32) :
    May (Fs.openFile p ip omode) (fun r s' => r = -1 → SameFiles s0.sb s0.disk s'.disk) s := by
  have hbad : ∀ {s1 s2 : State}, Walk s1 [(ip, n)] [] s2 → s1.sb = s0.sb → s1.disk = s0.disk →
      May (Fs.iunlockput p ip >>= fun _ => Fs.endWith p (-1))
        (fun r s' => r = -1 → SameFiles s0.sb s0.disk s'.disk) s2 := by
    intro s1 s2 h2 hsb hdisk
    apply ensures_seq (h2.iunlockput not_mem_nil_fst)
    intro _ s3 h3
    rw [← hsb, ← hdisk]
    exact h3.endWith (-1)
  have h' : Walk s0 [(ip, n)] [] s := h.forget not_mem_nil_fst
  unfold Fs.openFile
  apply ensures_seq filealloc_may
  intro r s1 hr
  rcases r with _ | f
  · rw [hr.1]
    exact hbad h' rfl rfl
  · obtain ⟨rfl, hfree⟩ := hr
    apply ensures_seq (fdalloc_may f)
    intro r s2 hr
    rcases r with _ | fd
    · have hentry : (s.modFile f fun ff => { ff with ref := 1 }).ftable f = { s.ftable f with ref := 1 } :=
        Function.update_self _ _ _
      have hnew := (h'.modFile f fun ff => { ff with ref := 1 }).fileclose_new (p := p)
        (by rw [hentry]) (by rw [hentry]; exact hfiles f hfree)
      rw [(hr rfl).1]
      apply ensures_seq hnew
      rintro _ s3 ⟨s1, hsb, hdisk, h3⟩
      exact hbad h3 hsb hdisk
    · exact openFile_success omode _

/-- There is a free entry in the file table and a free descriptor of the process. -/
def Openable (p : Pid) (s : State) : Prop := (∃ f, (s.ftable f).ref = 0) ∧ ∃ fd, s.ofile p fd = none

/-- The files when the operation began are those before the call. -/
theorem Begun.lift (hb : Begun s s0) {x : Prog State Int}
    (hx : May x (fun r s' => r = -1 → SameFiles s0.sb s0.disk s'.disk) s') :
    May x (fun r s' => r = -1 → SameFiles s.sb s.disk s'.disk) s' := by
  rw [hb.sb, hb.disk] at hx
  exact hx

theorem Begun.sound (hb : Begun s s0) (h : WellFormed s) : Sound s0.sb s0.disk := by
  rw [hb.sb, hb.disk]
  exact h.sound

theorem sysOpen_fails (h : WellFormed s) (path : List UInt8) (omode : UInt32)
    (hopen : omode &&& O_CREATE = 0 ∨ Openable p s) :
    May (sysOpen p path omode) (fun r s' => r = -1 → SameFiles s.sb s.disk s'.disk) s := by
  unfold sysOpen
  apply ensures_seq h.beginOp
  intro _ s0 hb
  refine hb.lift ?_
  have hsound := hb.sound h
  by_cases hmode : omode &&& ~~~(O_RDONLY ||| O_WRONLY ||| O_RDWR ||| O_CREATE ||| O_TRUNC) ≠ 0
  · rw [if_pos hmode]
    exact hb.walk.endWith (-1)
  · rw [if_neg hmode]
    unfold openInode
    by_cases hcreate : omode &&& O_CREATE ≠ 0
    · rw [if_pos hcreate]
      apply ensures_seq (hb.walk.create hsound path T_FILE 0 0)
      intro r s1 hr
      rcases r with _ | ip
      · exact Walk.endWith hr (-1)
      · obtain ⟨hft, hof, htype⟩ := hr
        obtain ⟨⟨f, hf⟩, fd, hfd⟩ := hopen.resolve_left hcreate
        show May (if _ then _ else _) _ s1
        rw [if_neg fun hd => htype rfl hd.1]
        rw [← hb.ftable, ← hft] at hf
        rw [← hb.ofile, ← hof] at hfd
        exact openFile_of_free hf hfd omode _
    · rw [if_neg hcreate]
      refine ensures_seq (R := fun r s1 => r.elim (Walk s0 [] [] s1) fun ip => ∃ m, Walk s0 [(ip, m)] [ip] s1)
        ?_ ?_
      · apply ensures_seq (hb.walk.namei hsound not_mem_nil_fst path)
        intro r s1 hr
        rcases r with _ | ip
        · exact hr
        · obtain ⟨m, h1⟩ := hr
          apply ensures_seq (h1.ilock ip (by simp))
          intro _ s2 h2
          exact ⟨m, h2⟩
      · intro r s1 hr
        rcases r with _ | ip
        · exact Walk.endWith hr (-1)
        · obtain ⟨m, h1⟩ := hr
          show May (if _ then _ else _) _ s1
          by_cases hdir : (s1.din ip).type = T_DIR ∧ omode ≠ O_RDONLY
          · rw [if_pos hdir]
            have h1' : Walk s0 [(ip, m)] [] s1 := h1.forget not_mem_nil_fst
            apply ensures_seq (h1'.iunlockput not_mem_nil_fst)
            intro _ s2 h2
            exact h2.endWith (-1)
          · rw [if_neg hdir]
            refine h1.openFile (fun f hf => ?_) omode
            rw [h1.ftable, hb.ftable] at hf ⊢
            exact h.files f hf

theorem createAndClose_fails (h : WellFormed s) (path : List UInt8) (type major minor : UInt16) :
    May (createAndClose p path type major minor) (fun r s' => r = -1 → SameFiles s.sb s.disk s'.disk) s := by
  unfold createAndClose
  apply ensures_seq h.beginOp
  intro _ s0 hb
  apply ensures_seq (hb.walk.create (hb.sound h) path type major minor)
  intro r s1 hr
  rcases r with _ | ip
  · exact hb.lift (Walk.endWith hr (-1))
  · refine ensures_seq (ensures_of_forall (fun _ _ => trivial) _ _) fun _ s2 _ => ?_
    exact endWith_ne (by decide) _

theorem Walk.unlinkBad {m : Nat} (h : Walk s0 [(ip, n), (dp, m)] v s) :
    May (Fs.unlinkBad p ip dp) (fun ok s' => ok = false → Walk s0 [] [] s') s := by
  have h' : Walk s0 [(ip, n), (dp, m)] [] s := h.forget not_mem_nil_fst
  apply ensures_seq (h'.iunlockput not_mem_nil_fst)
  intro _ s1 h1
  apply ensures_seq (h1.iunlockput not_mem_nil_fst)
  intro _ s2 h2 _
  exact h2

theorem Walk.unlinkHelper (h : Walk s0 [] [] s) (hsound : Sound s0.sb s0.disk) (hr : Room 7 s0) (path : List UInt8) :
    May (Fs.unlinkHelper p path) (fun ok s' => ok = false → Walk s0 [] [] s') s := by
  unfold Fs.unlinkHelper
  apply ensures_seq (h.dnamex hsound not_mem_nil_fst path true)
  intro r s1 hr1
  rcases r with _ | ⟨dp, name⟩
  · exact fun _ => hr1
  obtain ⟨m, h1⟩ := hr1
  apply ensures_seq (h1.ilock dp (by simp))
  intro _ s2 h2
  apply ensures_seq (h2.dirlookup hsound List.mem_cons_self List.mem_cons_self name)
  intro r s3 hr3
  rcases r with _ | ⟨ip, off⟩
  · have h3 : Walk s0 [(dp, m)] [] s3 := Walk.forget hr3 not_mem_nil_fst
    apply ensures_seq (h3.iunlockput not_mem_nil_fst)
    intro _ s4 h4 _
    exact h4
  obtain ⟨m', h3, k, j, hd, hj, rfl⟩ := hr3
  apply ensures_seq (h3.ilock ip (by simp))
  intro _ s4 h4
  by_cases hdots : nameEq name [DOT] = true ∨ nameEq name [DOT, DOT] = true
  · rw [if_pos hdots]
    exact h4.unlinkBad
  · rw [if_neg hdots]
    -- the entry is there, so writing zeros over it does not fail
    have hclear : ∀ {s5 : State}, Walk s0 [(ip, m'), (dp, m)] [ip, dp] s5 → May (do
          let r ← writei p dp (.ofList (List.replicate DESIZE 0)) (UInt32.ofNat (DESIZE * j)) (UInt32.ofNat DESIZE)
          if r = some DESIZE then
            modify fun s => s.modDin ip fun d => { d with nlink := d.nlink - 1 }
            iupdate p ip
            Fs.iunlockput p ip
            Fs.iunlockput p dp
            pure true
          else Fs.unlinkBad p ip dp) (fun ok s' => ok = false → Walk s0 [] [] s') s5 := by
      intro s5 h5
      have hv : dp ∈ [ip, dp] := by simp
      have hin : (dp, m) ∈ [(ip, m'), (dp, m)] := by simp
      have hdin : s5.din dp = s3.din dp := (h5.din_eq hv hin).trans (h3.din_eq (by simp) hin).symm
      obtain ⟨k', _, hd'⟩ := h5.dir hsound hv hin (by rw [hdin, hd.type])
      have hk : k' = k := by
        have h1 := hd'.size
        rw [hdin, hd.size] at h1
        lia
      subst hk
      have hroom : Room 7 s5 := by
        refine ⟨?_, ?_, ?_⟩ <;> rw [h5.log]
        · exact hr.logsize
        · exact hr.size
        · exact hr.outstanding
      apply ensures_seq (ensures_of_total (writei_total hd' hroom (Nat.le_of_lt hj) List.length_replicate))
      intro r s6 hw
      rw [if_pos (hw.iff.mpr (hd'.fits hj))]
      refine ensures_seq (ensures_of_forall (fun _ _ => trivial) _ _) fun _ _ _ => ?_
      refine ensures_seq (ensures_of_forall (fun _ _ => trivial) _ _) fun _ _ _ => ?_
      refine ensures_seq (ensures_of_forall (fun _ _ => trivial) _ _) fun _ _ _ => ?_
      refine ensures_seq (ensures_of_forall (fun _ _ => trivial) _ _) fun _ _ _ => ?_
      exact nofun
    show May (if (s4.din ip).type = T_DIR then _ else _) _ s4
    by_cases hdir : (s4.din ip).type = T_DIR
    · rw [if_pos hdir]
      apply ensures_seq (ensures_of_total (h4.isdirempty hsound List.mem_cons_self List.mem_cons_self hdir))
      rintro empty s5 rfl
      cases empty with
      | true => exact hclear h4
      | false => exact h4.unlinkBad
    · rw [if_neg hdir]
      exact hclear h4

theorem sysUnlink_fails (h : WellFormed s) (path : List UInt8) :
    May (sysUnlink p path) (fun r s' => r = -1 → SameFiles s.sb s.disk s'.disk) s := by
  unfold sysUnlink
  apply ensures_seq h.beginOp
  intro _ s0 hb
  apply ensures_seq (hb.walk.unlinkHelper (hb.sound h) (hb.room.mono (by omega)) path)
  intro ok s1 hok
  cases ok with
  | false => exact hb.lift ((hok rfl).endWith _)
  | true => exact endWith_ne (by decide) _

/-- The failure path of `sys_link` takes back the link. -/
theorem Walk.linkBad (h : Walk s0 [(ip, n)] [] s) (hsound : Sound s0.sb s0.disk) {x : UInt16} (hx : x ≠ 0)
    (hlink : (dinodeAt s0.sb s0.disk n).nlink = x + 1) :
    May (Fs.linkBad p ip) (fun _ s' => AgreeOff (· ≠ n) s0.sb s0.disk s'.disk ∧
      (dinodeAt s0.sb s'.disk n).nlink = x) s := by
  unfold Fs.linkBad
  apply ensures_seq (h.ilock ip (by simp))
  intro _ s1 h1
  have hback : (dinodeAt s1.sb s1.disk n).nlink - 1 = x := by
    rw [h1.sb, h1.disk, hlink]
    simp
  refine h1.setNlink (by rw [h1.sb, h1.disk]; exact hsound) List.mem_cons_self List.mem_cons_self (· - 1)
    (by rw [hback]; exact hx) fun s2 h2 _ hframed hsame hnlink => ?_
  have h2' : Walk s2 [(ip, n)] [] s2 := h2.forget not_mem_nil_fst
  apply ensures_seq (h2'.iunlockput not_mem_nil_fst)
  intro _ s3 h3
  refine ensures_mono (endWith_may (-1)) fun _ s' hs' => ?_
  rw [hs'.2.2, h3.disk]
  rw [h1.sb, h1.disk] at hsame
  rw [hback, h1.sb] at hnlink
  exact ⟨hsame, hnlink⟩

theorem sysLink_fails (h : WellFormed s) (old new : List UInt8) :
    May (sysLink p old new) (fun r s' => r = -1 → SameFiles s.sb s.disk s'.disk) s := by
  unfold sysLink
  apply ensures_seq h.beginOp
  intro _ s0 hb
  have hsound := hb.sound h
  refine hb.lift ?_
  apply ensures_seq (hb.walk.namei hsound not_mem_nil_fst old)
  intro r s1 hr
  rcases r with _ | ip
  · exact Walk.endWith hr (-1)
  obtain ⟨n, h1⟩ := hr
  apply ensures_seq (h1.ilock ip (by simp))
  intro _ s2 h2
  show May (if _ then _ else _) _ s2
  by_cases hdir : (s2.din ip).type = T_DIR
  · rw [if_pos hdir]
    have h2' : Walk s0 [(ip, n)] [] s2 := h2.forget not_mem_nil_fst
    apply ensures_seq (h2'.iunlockput not_mem_nil_fst)
    intro _ s3 h3
    exact h3.endWith (-1)
  rw [if_neg hdir]
  obtain ⟨_, hlinked⟩ := h2.held _ List.mem_cons_self
  have hone : (dinodeAt s2.sb s2.disk n).nlink + 1 ≠ 0 := by
    rw [h2.sb, h2.disk, hb.sb, hb.disk]
    rw [hb.sb, hb.disk] at hlinked
    exact h.nlink n hlinked
  refine h2.setNlink (by rw [h2.sb, h2.disk]; exact hsound) List.mem_cons_self List.mem_cons_self (· + 1) hone
    fun s3 h3 hsound3 hframed hsame hnlink => ?_
  rw [h2.sb, h2.disk] at hsame
  rw [h2.sb, h2.disk] at hnlink
  have hsb3 : s3.sb = s0.sb := hframed.sb.trans h2.sb
  have hroom3 : Room 7 s3 := by
    refine hframed.room (k := 7) ⟨?_, ?_, ?_⟩ <;> rw [h2.log]
    · exact hb.room.logsize
    · exact hb.room.size
    · exact hb.room.outstanding
  -- what is left to do once a directory entry could not be made
  have hbad : ∀ {s4 s5 : State}, Walk s4 [(ip, n)] [] s5 → s4.sb = s0.sb → Sound s4.sb s4.disk →
      SameFiles s0.sb s3.disk s4.disk →
      May (Fs.linkBad p ip) (fun r s' => r = -1 → SameFiles s0.sb s0.disk s'.disk) s5 := by
    intro s4 s5 h5 hsb4 hsound4 hsame4
    have hlive3 : Live s0.sb s3.disk n := by
      refine ⟨hlinked.1.1, ?_⟩
      rw [hsame.type n hlinked.1.1]
      exact hlinked.1.2
    refine ensures_mono (h5.linkBad hsound4 hlinked.2 ?_) fun _ s' hs' _ => ?_
    · rw [hsb4, hsame4.nlink n hlive3 trivial, hnlink]
    · rw [hsb4] at hs'
      have hall := (hsame.trans ⟨hsame4.type, fun n hn _ => hsame4.nlink n hn trivial, hsame4.major,
        hsame4.minor, hsame4.size, hsame4.bytes⟩).trans hs'.1
      refine { hall with nlink := fun n' hn' _ => ?_ }
      by_cases he : n' = n
      · rw [he, hs'.2]
      · exact hall.nlink n' hn' he
  refine ensures_seq (R := fun _ => Walk s3 [(ip, n)] []) ?_ fun _ s4 h4 => ?_
  · have h3' : Walk s3 [(ip, n)] [] s3 := h3.forget not_mem_nil_fst
    exact h3'.iunlock
  apply ensures_seq (h4.dnamex hsound3 not_mem_nil_fst new true)
  intro r s5 hr5
  rcases r with _ | ⟨dp, name⟩
  · exact hbad hr5 hsb3 hsound3 (AgreeOff.refl _ _ _)
  obtain ⟨m, h5⟩ := hr5
  apply ensures_seq (h5.ilock dp (by simp))
  intro _ s6 h6
  have hroom6 : Room 7 s6 := by
    refine ⟨?_, ?_, ?_⟩ <;> rw [h6.log]
    · exact hroom3.logsize
    · exact hroom3.size
    · exact hroom3.outstanding
  show May (Fs.dirlink p dp name _ >>= _) _ s6
  apply ensures_seq (h6.dirlink hsound3 hroom6 List.mem_cons_self List.mem_cons_self name _)
  intro ok s7 hok
  cases ok with
  | true =>
    refine ensures_seq (ensures_of_forall (fun _ _ => trivial) _ _) fun _ _ _ => ?_
    refine ensures_seq (ensures_of_forall (fun _ _ => trivial) _ _) fun _ _ _ => ?_
    exact endWith_ne (by decide) _
  | false =>
    obtain ⟨h7, hsb7, hsound7, hsame7⟩ := hok rfl
    have h7' : Walk s7 [(dp, m), (ip, n)] [] s7 := h7.forget not_mem_nil_fst
    apply ensures_seq (h7'.iunlockput not_mem_nil_fst)
    intro _ s8 h8
    rw [hsb3] at hsame7
    exact hbad h8 (hsb7.trans hsb3) hsound7 hsame7

end Calls

/-- The calls that change the name space. -/
def Call.onNames : Call → Bool
  | .open _ _ => true
  | .mkdir _ => true
  | .mknod _ _ _ => true
  | .link _ _ => true
  | .unlink _ => true
  | _ => false

/-- An open that may create a file can also enter it into the tables of open files. -/
def Call.Secured (p : Pid) (s : State) : Call → Prop
  | .open _ omode => omode &&& O_CREATE = 0 ∨ Openable p s
  | _ => True

/-- A file system of four blocks: block 1 holds the inodes, of which only that of the empty root
directory is allocated, block 2 the bitmap, and block 3 is free. Every entry of the file table is in
use. -/
def fullTable : State where
  sb := { magic := FSMAGIC, size := 4, nblocks := 1, ninodes := 16, nlog := 30, logstart := 0,
          inodestart := 1, bmapstart := 2 }
  disk := fun b =>
    if b = 1 then Dinode.write { type := T_DIR, nlink := 1 } Bytes.zero 1
    else if b = 2 then ((Bytes.zero.setBit 0).setBit 1).setBit 2
    else Bytes.zero
  log := { size := 30 }
  icache := fun _ => {}
  ftable := fun _ => { ref := 1 }
  ofile := fun _ _ => none

theorem fullTable_parts :
    Plain fullTable.sb fullTable.disk ∧
    (∀ n, n < 16 → Linked fullTable.sb fullTable.disk n → (dinodeAt fullTable.sb fullTable.disk n).nlink = 1) ∧
    (dinodeAt fullTable.sb fullTable.disk 2).type = 0 ∧
    ((Call.code 1 (.unlink [SLASH, 97])).run fullTable).returned (fun r _ => decide (r = -1)) ∧
    ((Call.code 1 (.open [SLASH, 97] (O_CREATE ||| O_RDWR))).run fullTable).returned
      (fun r s' => decide (r = -1 ∧ (dinodeAt fullTable.sb s'.disk 2).type = T_FILE)) := by
  decide +kernel

theorem wellFormed_fullTable : WellFormed fullTable where
  sound := fullTable_parts.1.sound
  coherent := by
    have hno : ∀ i : Fin NINODE, ¬ 1 ≤ (fullTable.icache i).ref := fun _ h => absurd h (Nat.not_succ_le_zero 0)
    exact ⟨fun i hi => absurd hi (hno i), fun i hi => absurd hi (hno i), fun i _ hi => absurd hi (hno i)⟩
  nlink n hn := by
    rw [fullTable_parts.2.1 n hn.1.1 hn]
    decide
  files f hf := rfl
  log := by decide

end Xv6.Fs
