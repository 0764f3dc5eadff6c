-- SUMMARY: Lookup by number in any reachable chain: the numbers fall towards the genesis block, so a number names one block at most.
import OneVote.Numbering

/-!
# Lookup by number

A repair leaves a gap between the number of the newest block and the counter,
from which the next block is numbered. So the numbers are not the places of the
blocks, but they still fall from block to block.
-/

namespace OneVote

namespace Blockchain

/-- The numbers fall from the newest block on, from the counter at most to 1 at least. -/
structure Descending (bc : Blockchain) : Prop where
  pos : ∀ b ∈ bc.blocks, 1 ≤ b.blockNumber.toNat
  le : ∀ b ∈ bc.blocks, b.blockNumber.toNat ≤ bc.chainLength
  falls : bc.blocks.Pairwise fun c d => d.blockNumber < c.blockNumber

theorem new_descending (tail : GenesisTail) : (new tail).Descending where
  pos := by
    intro b hb
    cases List.mem_singleton.1 hb
    exact le_rfl
  le := by
    intro b hb
    cases List.mem_singleton.1 hb
    exact le_rfl
  falls := List.pairwise_singleton _ _

theorem Descending.appended {bc : Blockchain} (h : bc.Descending) (hshort : bc.chainLength ≤ 5)
    (b : Block) : (Thread.appended bc b).Descending := by
  have hnumber : (numbered b (bc.chainLength + 1)).blockNumber.toNat = bc.chainLength + 1 :=
    toNat_ofNat_succ hshort
  refine ⟨List.forall_mem_cons.2 ⟨?_, h.pos⟩, List.forall_mem_cons.2 ⟨hnumber.le, ?_⟩,
    List.pairwise_cons.2 ⟨?_, h.falls⟩⟩
  · rw [hnumber]
    exact Nat.le_add_left 1 _
  · exact fun c hc => (h.le c hc).trans (Nat.le_succ _)
  · intro c hc
    rw [UInt32.lt_iff_toNat_lt, hnumber]
    exact Nat.lt_succ_of_le (h.le c hc)

theorem Descending.truncated {bc : Blockchain} (h : bc.Descending) (it : Nat) :
    (bc.truncated it).Descending where
  pos := fun b hb => h.pos b (List.mem_of_mem_drop hb)
  le := fun b hb => h.le b (List.mem_of_mem_drop hb)
  falls := h.falls.sublist (List.drop_sublist it _)

/-- Two blocks of the chain have two numbers. -/
theorem Descending.number_inj {bc : Blockchain} (h : bc.Descending) {b c : Block}
    (hb : b ∈ bc.blocks) (hc : c ∈ bc.blocks) (hbc : b.blockNumber = c.blockNumber) : b = c := by
  have hnodup : (bc.blocks.map (·.blockNumber)).Nodup := by
    apply List.pairwise_map.2
    apply h.falls.imp
    intro c d hlt heq
    rw [heq] at hlt
    exact UInt32.lt_irrefl _ hlt
  exact List.inj_on_of_nodup_map hnodup hb hc hbc

theorem Descending.getBlock_eq_some_iff {bc : Blockchain} (h : bc.Descending) {n : Int32}
    {b : Block} : bc.getBlock n = some b ↔ b ∈ bc.blocks ∧ b.blockNumber = n.toUInt32 := by
  constructor
  · intro hfind
    exact ⟨List.mem_of_find?_eq_some hfind, by simpa using List.find?_some hfind⟩
  · rintro ⟨hb, hnumber⟩
    cases hfind : bc.getBlock n with
    | none =>
        have hnone := List.find?_eq_none.1 hfind b hb
        exact absurd (decide_eq_true hnumber) hnone
    | some c =>
        have hc : c.blockNumber = n.toUInt32 := by simpa using List.find?_some hfind
        rw [h.number_inj (List.mem_of_find?_eq_some hfind) hb (hc.trans hnumber.symm)]

/-- A block that is found by an `int` has that `int` for its number. -/
theorem Descending.toInt_eq {bc : Blockchain} (h : bc.Descending) (hshort : bc.chainLength ≤ 5)
    {n : Int32} {b : Block} (hb : b ∈ bc.blocks) (hnumber : b.blockNumber = n.toUInt32) :
    n.toInt = b.blockNumber.toNat := by
  have hle := h.le b hb
  have hn := toNat_toUInt32 n
  have hlow := Int32.le_toInt n
  rw [← hnumber] at hn
  split at hn <;> omega

end Blockchain

namespace Thread

theorem descending_invariant (SHA1 : Bytes → Digest) (tail : GenesisTail) :
    (processingThread SHA1 tail).Invariant fun th => th.Short ∧ th.bc.Descending where
  init := by
    rintro th rfl
    exact ⟨initial_short tail, Blockchain.new_descending tail⟩
  step := by
    rintro th i th' hstep ⟨hshort, h⟩
    have hs := hstep.change
    refine ⟨hshort.change hs, ?_⟩
    cases hs with
    | accepted => exact h.appended hshort.chainLength_le _
    | repaired => exact h.truncated _
    | mined => exact h.appended hshort.chainLength_le _
    | _ => exact h

/-- In every reachable state, after repairs as well, the numbers fall from block
to block, `get_block` finds the one block with the number it is given, and what
it finds has a number from 1 to the counter. -/
theorem lookup_by_number {SHA1 : Bytes → Digest} {tail : GenesisTail} {th : Thread}
    (h : (processingThread SHA1 tail).Reachable th) :
    (th.bc.blocks.Pairwise fun c d => d.blockNumber < c.blockNumber) ∧
      (∀ n b, th.bc.getBlock n = some b ↔ b ∈ th.bc.blocks ∧ b.blockNumber = n.toUInt32) ∧
      ∀ n b, th.bc.getBlock n = some b →
        n.toInt = b.blockNumber.toNat ∧ 1 ≤ n.toInt ∧ n.toInt ≤ th.bc.chainLength := by
  obtain ⟨hshort, hdesc⟩ := (descending_invariant SHA1 tail).reachable h
  refine ⟨hdesc.falls, fun n b => hdesc.getBlock_eq_some_iff, fun n b hfind => ?_⟩
  obtain ⟨hb, hnumber⟩ := hdesc.getBlock_eq_some_iff.1 hfind
  have hint := hdesc.toInt_eq hshort.chainLength_le hb hnumber
  have hpos := hdesc.pos b hb
  have hle := hdesc.le b hb
  exact ⟨hint, by omega, by omega⟩

theorem lookup_by_number_first :
    (firstAccepted Blockchain.sampleTail Blockchain.sampleFirst).bc.blocks.length = 2 ∧
      ((firstAccepted Blockchain.sampleTail Blockchain.sampleFirst).bc.blocks.Pairwise
        fun c d => d.blockNumber < c.blockNumber) ∧
      ∀ n b, (firstAccepted Blockchain.sampleTail Blockchain.sampleFirst).bc.getBlock n = some b →
        n.toInt = b.blockNumber.toNat := by
  have hreach : (processingThread Block.sampleSHA1 Blockchain.sampleTail).Reachable
      (firstAccepted Blockchain.sampleTail Blockchain.sampleFirst) :=
    reachable_firstAccepted Block.sampleSHA1 (by decide)
  obtain ⟨hfalls, -, hfound⟩ := lookup_by_number hreach
  exact ⟨rfl, hfalls, fun n b hb => (hfound n b hb).1⟩

end Thread

end OneVote
