import Xv6.Storage.StoreSafe

/-!
# What the cache and the log guarantee

The theorems speak about every configuration that the storage machine reaches from a formatted
disk, by any number of processes, in any interleaving and through any number of power failures.
-/

namespace Xv6.Storage

open Data Coop Prog

variable {sb : Superblock} {disk : Nat → Block} {tight : Prop} {ok : Pid → Fin NBUF → Sys → Prop}
  {c : Config Sys Call (Option (Fin NBUF))} {p : Pid}

/-! ## Scripts -/

instance (s : Sys) (p : Pid) : Decidable (s.Inside p) :=
  match h : s.ops p with
  | .inside l => .isTrue ⟨l, h⟩
  | .out | .entering | .committing => .isFalse fun ⟨l, hl⟩ => by
    cases h.symm.trans hl

instance (ok : Pid → Fin NBUF → Sys → Prop) [∀ p i s, Decidable (ok p i s)] (p : Pid) (s : Sys) :
    (call : Call) → Decidable ((storeMachine ok).may p call s)
  | .initlog | .beginOp => inferInstanceAs (Decidable (_ ∧ _))
  | .endOp | .modify _ _ | .brelse _ => inferInstanceAs (Decidable (_ ∧ _ ∧ _))
  | .bread _ => inferInstanceAs (Decidable (_ = _))
  | .logWrite _ => inferInstanceAs (Decidable (_ ∧ _ ∧ _ ∧ _ ∧ _))

abbrev Script := List (Pid × (Option (Fin NBUF) → Call))

/-- The process reads the block and logs it. -/
def logBlock (p : Pid) (b : Nat) : Script := [(p, fun _ => .bread b), (p, fun r => .logWrite (r.getD 0))]

/-! ## Crash atomicity -/

/-- A disk with the superblock of `mkfs` and zeros elsewhere. -/
def zeroDisk : Nat → Block := fun b => if b = 1 then mkfsSuperblock.encode else Bytes.zero

theorem formatted_zeroDisk : Formatted mkfsSuperblock zeroDisk := by
  refine ⟨?_, ?_⟩
  · exact Superblock.decode_encode mkfsSuperblock
  · change headCount (Bytes.zero : Block) = 0
    simp [headCount]

/-- The operation of `p` names at most `n` blocks, the one of buffer `i` included. -/
def AtMost (n : Nat) (p : Pid) (i : Fin NBUF) (s : Sys) : Prop :=
  (addNew (s.ops p).logged (s.buf i).blockno).length ≤ n

/-- The header never outgrows the slots of the log region. -/
theorem slots_in_region (hv : sb.Valid) (hdisk : Formatted sb disk)
    (hreach : (storeMachine ok).Reach (.start (Sys.boot disk disk)) c) (hup : c.mem.phase = .up) :
    c.mem.log.lh.length ≤ c.mem.log.size - 1 ∧
      ∀ k, k < c.mem.log.lh.length → sb.InLog (c.mem.log.start + k + 1) := by
  obtain ⟨t, hinv⟩ := storeInv_of_good (good_of_boot hv hdisk hreach)
  obtain ⟨-, hlog, -⟩ := logInv_of_storeInv hinv hup
  have hlt := hlog.len_lt
  rw [hlog.size_eq, hlog.start_eq]
  refine ⟨by omega, fun k hk => ⟨by omega, ?_⟩⟩
  omega

instance (n : Nat) (p : Pid) (i : Fin NBUF) (s : Sys) : Decidable (AtMost n p i s) := inferInstanceAs (Decidable (_ ≤ _))

/-- Three operations log 29 blocks, and the third one reads another block. -/
def threeOps : Script :=
  [(1, fun _ => .initlog), (1, fun _ => .beginOp), (2, fun _ => .beginOp), (3, fun _ => .beginOp)] ++
    (List.range' 46 10).flatMap (logBlock 1) ++ (List.range' 56 10).flatMap (logBlock 2) ++
    (List.range' 66 9).flatMap (logBlock 3) ++ [(3, fun _ => .bread 75)]

/-- An operation logs two blocks. Then the header and the slots of the log are brought into the cache, so that the commit
recycles no entry. -/
def twoBlocks : Script :=
  [(1, fun _ => .initlog), (1, fun _ => .beginOp)] ++ logBlock 1 46 ++ logBlock 1 47 ++
    [2, 3, 4].map (fun b => (1, fun _ => .bread b)) ++ [0, 1, 2, 3, 4].map fun i => (1, fun _ => .brelse i)

end Xv6.Storage
