-- SUMMARY: The length of the chain in its counter, its list and its block numbers, and the repairs that make them disagree.
import OneVote.ForkChoice

/-!
# Numbering

The length is stored three times: in `chain_length`, in the list, and in the
number of the newest block. `add_block` writes all three. A repair shortens the
list and leaves the counter as it is.
-/

namespace OneVote

namespace Blockchain

/-- The counter, the list and the numbers agree, so that the head carries the
length and a lookup by number finds the block at that place. -/
structure Numbered (bc : Blockchain) : Prop where
  length : bc.chainLength = bc.blocks.length
  numbers : ∀ i b, bc.blocks.reverse[i]? = some b → b.blockNumber.toNat = i + 1
  head : ∃ head, bc.getHeadBlock = .ok head ∧ head.blockNumber.toNat = bc.chainLength
  found : ∀ n : Int32, 1 ≤ n.toInt → n.toInt ≤ bc.chainLength →
    ∃ b, bc.getBlock n = some b ∧ bc.blocks.reverse[n.toInt.toNat - 1]? = some b
  missing : ∀ n : Int32, ¬ (1 ≤ n.toInt ∧ n.toInt ≤ bc.chainLength) → bc.getBlock n = none

/-- The two facts that the operations maintain. -/
structure Aligned (bc : Blockchain) : Prop where
  length : bc.chainLength = bc.blocks.length
  numbers : ∀ i b, bc.blocks.reverse[i]? = some b → b.blockNumber.toNat = i + 1

theorem Numbered.aligned {bc : Blockchain} (h : bc.Numbered) : bc.Aligned := ⟨h.length, h.numbers⟩

theorem toNat_toUInt32 (n : Int32) :
    n.toUInt32.toNat = if 0 ≤ n.toInt then n.toInt.toNat else (n.toInt + 2 ^ 32).toNat := by
  have hcond := BitVec.toInt_eq_toNat_cond n.toBitVec
  have hlt := n.toBitVec.isLt
  have hnat : n.toUInt32.toNat = n.toBitVec.toNat := rfl
  rw [hnat, Int32.toInt]
  split <;> omega

theorem toNat_ofNat_succ {n : Nat} (h : n ≤ 5) : (UInt32.ofNat (n + 1)).toNat = n + 1 := by
  rw [UInt32.toNat_ofNat']
  omega

/-- The number of an `int` decides where `get_block` can find a block. -/
theorem Aligned.number_eq_iff {bc : Blockchain} (h : bc.Aligned) (hshort : bc.chainLength ≤ 5)
    {i : Nat} {b : Block} (hb : bc.blocks.reverse[i]? = some b) (n : Int32) :
    b.blockNumber = n.toUInt32 ↔ n.toInt = i + 1 := by
  have hi : i < bc.blocks.reverse.length := (List.getElem?_eq_some_iff.1 hb).1
  rw [List.length_reverse, ← h.length] at hi
  have hnumber := h.numbers i b hb
  have hn := toNat_toUInt32 n
  have hlow := Int32.le_toInt n
  rw [← UInt32.toNat_inj, hnumber, hn]
  split <;> omega

theorem Aligned.numbered {bc : Blockchain} (h : bc.Aligned) (hshort : bc.chainLength ≤ 5)
    (hne : bc.blocks ≠ []) : bc.Numbered where
  length := h.length
  numbers := h.numbers
  head := by
    obtain ⟨head, rest, hblocks⟩ := List.exists_cons_of_ne_nil hne
    have hlength := h.length
    have hlast := h.numbers rest.length head (by simp [hblocks])
    rw [hblocks, List.length_cons] at hlength
    exact ⟨head, getHeadBlock_eq_ok.2 ⟨by omega, by rw [hblocks]; rfl⟩, hlast.trans hlength.symm⟩
  found := by
    intro n hpos hle
    have hlength := h.length
    have hlt : n.toInt.toNat - 1 < bc.blocks.reverse.length := by
      rw [List.length_reverse]
      omega
    have hb := List.getElem?_eq_getElem hlt
    have hnumber := (h.number_eq_iff hshort hb n).2 (by omega)
    cases hfind : bc.getBlock n with
    | none =>
        have hnone := List.find?_eq_none.1 hfind _ (List.mem_reverse.1 (List.mem_of_getElem? hb))
        exact absurd (decide_eq_true hnumber) hnone
    | some c =>
        have hc : c.blockNumber = n.toUInt32 := by
          simpa using List.find?_some hfind
        have hmem := List.mem_reverse.2 (List.mem_of_find?_eq_some hfind)
        obtain ⟨i, hi⟩ := List.getElem?_of_mem hmem
        have hplace := (h.number_eq_iff hshort hi n).1 hc
        have hindex : n.toInt.toNat - 1 = i := by omega
        exact ⟨c, rfl, hindex ▸ hi⟩
  missing := by
    intro n hout
    refine List.find?_eq_none.2 fun b hb => ?_
    obtain ⟨i, hi⟩ := List.getElem?_of_mem (List.mem_reverse.2 hb)
    have hlt := (List.getElem?_eq_some_iff.1 hi).1
    rw [List.length_reverse, ← h.length] at hlt
    simp only [decide_eq_true_eq, h.number_eq_iff hshort hi n]
    omega

theorem new_aligned (tail : GenesisTail) : (new tail).Aligned where
  length := rfl
  numbers := by
    intro i b hb
    cases i with
    | zero =>
        cases hb
        rfl
    | succ i => cases hb

theorem Aligned.appended {bc : Blockchain} (h : bc.Aligned) (hshort : bc.chainLength < 5)
    (b : Block) : (Thread.appended bc b).Aligned where
  length := by
    simp only [Thread.appended, List.length_cons, h.length]
  numbers := by
    intro i c hc
    simp only [Thread.appended, List.reverse_cons] at hc
    by_cases hi : i < bc.blocks.reverse.length
    · rw [List.getElem?_append_left hi] at hc
      exact h.numbers i c hc
    · rw [List.getElem?_append_right (Nat.le_of_not_lt hi)] at hc
      obtain ⟨hone, rfl⟩ := List.getElem?_eq_some_iff.1 hc
      rw [List.length_singleton] at hone
      have hlast : i = bc.chainLength := by
        rw [h.length, ← List.length_reverse]
        omega
      rw [List.getElem_singleton, hlast]
      exact toNat_ofNat_succ hshort.le

/-- Removing blocks and keeping the counter. -/
theorem aligned_truncated_iff {bc : Blockchain} (h : bc.Aligned) {it : Nat}
    (hit : it < bc.blocks.length) : (bc.truncated it).Aligned ↔ it = 0 := by
  constructor
  · intro haligned
    have hlength := haligned.length
    simp only [truncated, List.length_drop, h.length] at hlength
    omega
  · rintro rfl
    have hsame : bc.truncated 0 = bc := by simp [truncated]
    rwa [hsame]

end Blockchain

namespace Thread

/-- A received block that makes a repair return names the head, so that the
repair removes nothing. -/
def RemovesNothing (m : TransitionSystem.Move Thread (Input × List Effect)) : Prop :=
  ∀ b env, m.label.1 = .block (some b) env → m.pre.ClaimsHigher b →
    m.pre.bc.checkIfBlockInChain b = .ok (some 0)

/-- No number is above 5, so that numbers do not wrap around, and none is 0. -/
structure Short (th : Thread) : Prop where
  nonempty : th.bc.blocks ≠ []
  number_pos : ∀ b ∈ th.bc.blocks, 1 ≤ b.blockNumber
  chainLength_pos : 0 < th.bc.chainLength
  chainLength_le : th.bc.chainLength ≤ 5

theorem lt_of_number_le {n : Nat} (h : n ≤ 5) (hnumber : UInt32.ofNat (n + 1) ≤ 5) : n < 5 := by
  rw [UInt32.le_iff_toNat_le, Blockchain.toNat_ofNat_succ h] at hnumber
  exact hnumber

theorem Short.appended {th : Thread} (h : th.Short)
    (hnumber : UInt32.ofNat (th.bc.chainLength + 1) ≤ 5) (b : Block) (w : Block) (full : Bool)
    (point : Point) : (⟨appended th.bc b, w, full, point⟩ : Thread).Short where
  nonempty := List.cons_ne_nil _ _
  number_pos := by
    intro c hc
    rcases List.mem_cons.1 hc with rfl | hc
    · rw [UInt32.le_iff_toNat_le]
      change 1 ≤ (UInt32.ofNat (th.bc.chainLength + 1)).toNat
      rw [Blockchain.toNat_ofNat_succ h.chainLength_le]
      exact Nat.le_add_left 1 _
    · exact h.number_pos c hc
  chainLength_pos := Nat.succ_pos _
  chainLength_le := lt_of_number_le h.chainLength_le hnumber

theorem Short.truncated {th : Thread} (h : th.Short) {it : Nat} (hit : it < th.bc.blocks.length)
    (w : Block) (full : Bool) (point : Point) :
    (⟨th.bc.truncated it, w, full, point⟩ : Thread).Short where
  nonempty := by
    intro hnil
    have hlen := congrArg List.length hnil
    simp only [Blockchain.truncated, List.length_drop, List.length_nil] at hlen
    omega
  number_pos b hb := h.number_pos b (List.mem_of_mem_drop hb)
  chainLength_pos := h.chainLength_pos
  chainLength_le := h.chainLength_le

theorem Short.change {SHA1 : Bytes → Digest} {th th' : Thread} {i : Input × List Effect}
    (h : th.Short) (hs : Change SHA1 th i th') : th'.Short := by
  cases hs with
  | accepted _ _ hnumber => exact h.appended hnumber _ _ _ _
  | repaired _ _ _ _ _ hfound =>
      exact h.truncated (Blockchain.lt_of_checkIfBlockInChain hfound) _ _ _
  | mined _ _ _ _ hnumber => exact h.appended hnumber _ _ _ _
  | _ => exact ⟨h.nonempty, h.number_pos, h.chainLength_pos, h.chainLength_le⟩

theorem Short.proceeds {SHA1 : Bytes → Digest} {th th' : Thread} {i : Input × List Effect}
    (h : th.Short) (hs : Proceeds SHA1 th i th') : th'.Short := by
  cases hs with
  | step hstep => exact h.change hstep.change
  | overruns _ _ _ _ _ hover =>
      exact h.truncated (Blockchain.lt_of_checkIfBlockInChain hover.2.1) _ _ _

theorem initial_short (tail : GenesisTail) : (initial tail).Short where
  nonempty := List.cons_ne_nil _ _
  number_pos := by
    intro b hb
    cases List.mem_singleton.1 hb
    exact show (1 : UInt32) ≤ 1 by decide
  chainLength_pos := Nat.one_pos
  chainLength_le := show 1 ≤ 5 by decide

theorem Short.exists_head {th : Thread} (h : th.Short) :
    ∃ head, th.bc.getHeadBlock = .ok head := by
  obtain ⟨head, rest, hblocks⟩ := List.exists_cons_of_ne_nil h.nonempty
  exact ⟨head, Blockchain.getHeadBlock_eq_ok.2 ⟨h.chainLength_pos.ne', by rw [hblocks]; rfl⟩⟩

theorem short_invariant (SHA1 : Bytes → Digest) (tail : GenesisTail) :
    (processingThread SHA1 tail).Invariant Short where
  init := by
    rintro th rfl
    exact initial_short tail
  step := fun _ _ _ hstep h => h.change hstep.change

theorem Short.numbered_iff {th : Thread} (h : th.Short) : th.bc.Numbered ↔ th.bc.Aligned :=
  ⟨fun hn => hn.aligned, fun ha => ha.numbered h.chainLength_le h.nonempty⟩

/-- A repair that cuts the chain back keeps the numbers exactly when it removes
no block. -/
theorem aligned_iff_of_found {th th' : Thread} {b head : Block} {env : RepairEnv} {it : Nat}
    {effects : List Effect} (ha : th.bc.Aligned)
    (hcheck : th.bc.checkBlockValidity b = .ok .prevBlockNonmatch)
    (hhead : th.bc.getHeadBlock = .ok head) (hhigher : head.blockNumber < b.blockNumber)
    (hnumber : b.blockNumber ≤ 5) (hfound : th.bc.checkIfBlockInChain b = .ok (some it)) :
    (th.bc.truncated it).Aligned ↔ RemovesNothing ⟨th, (.block (some b) env, effects), th'⟩ := by
  rw [Blockchain.aligned_truncated_iff ha (Blockchain.lt_of_checkIfBlockInChain hfound)]
  constructor
  · rintro rfl b' env' hb -
    cases hb
    exact hfound
  · intro hremoves
    have hfirst := hremoves b env rfl (claimsHigher_of_found hcheck hhead hhigher hnumber hfound)
    simpa using hfound.symm.trans hfirst

/-- A step keeps the numbers exactly when it removes no block. -/
theorem Short.aligned_iff {SHA1 : Bytes → Digest} {th th' : Thread} {i : Input × List Effect}
    (h : th.Short) (ha : th.bc.Aligned) (hs : Change SHA1 th i th') :
    th'.bc.Aligned ↔ RemovesNothing ⟨th, i, th'⟩ := by
  cases hs with
  | ignored _ hbad =>
      apply iff_of_true ha
      intro b env hb hclaims
      cases hb
      exact absurd hclaims (not_claimsHigher_of_ignored hbad)
  | accepted _ hcheck hnumber =>
      apply iff_of_true (ha.appended (lt_of_number_le h.chainLength_le hnumber) _)
      intro b env hb hclaims
      cases hb
      exact absurd hclaims (not_claimsHigher_of_ok hcheck)
  | repaired _ hcheck hhead hhigher hnumber hfound =>
      exact aligned_iff_of_found ha hcheck hhead hhigher hnumber hfound
  | mined _ _ _ _ hnumber =>
      apply iff_of_true (ha.appended (lt_of_number_le h.chainLength_le hnumber) _)
      intro b env hb
      cases hb
  | _ =>
      -- the chain is the same, and no block was received
      apply iff_of_true ha
      intro b env hb
      cases hb

/-- The three stored lengths agree in every state of a run exactly when no
repair of it removes a block. -/
theorem run_numbered_iff {SHA1 : Bytes → Digest} {tail : GenesisTail} {th : Thread}
    {tr : List (TransitionSystem.Move Thread (Input × List Effect))}
    (h : (proceedingThread SHA1 tail).Run (.initial tail) tr th) :
    (∀ m ∈ tr, m.post.bc.Numbered) ↔ ∀ m ∈ tr, RemovesNothing m := by
  have hinit := initial_short tail
  refine TransitionSystem.Run.forall_post_iff (G := fun _ => True) (J := Short)
    (P := fun th => th.bc.Numbered) (fun _ _ _ hstep _ hshort => hshort.proceeds hstep) ?_ h hinit
    (hinit.numbered_iff.2 (Blockchain.new_aligned tail)) (by simp)
  intro th i th' hstep _ hshort hnumbered
  rw [(hshort.proceeds hstep).numbered_iff]
  cases hstep with
  | step hstep => exact hshort.aligned_iff hnumbered.aligned hstep.change
  | overruns _ hcheck hhead hhigher hnumber hover =>
      exact aligned_iff_of_found hnumbered.aligned hcheck hhead hhigher hnumber hover.2.1

theorem numbered_first :
    (firstAccepted Blockchain.sampleTail Blockchain.sampleFirst).bc.Numbered := by
  refine (run_numbered_iff (run_proceeds run_sampleFirst)).2 ?_ _ (List.mem_singleton_self _)
  simp only [List.mem_singleton, forall_eq]
  intro b env hb hclaims
  cases hb
  exact absurd hclaims.1 (by decide)

/-- After a repair back to genesis the counter says 2 and the list has one block. -/
theorem renumberedGenesis_not_numbered :
    ¬ ∃ SHA1, ∀ tail th, (proceedingThread SHA1 tail).Reachable th → th.bc.Numbered := by
  intro h
  rcases h with ⟨SHA1, h⟩
  have hreach := (reachable_firstIdle SHA1).step (step_renumberedGenesis SHA1)
  have hnumbered := h _ _ (reachable_proceeds hreach)
  exact absurd hnumbered.length (by decide)

end Thread

end OneVote
