-- SUMMARY: Every block in the chain names the final hash of the block below it, down to the genesis block.
import Mathlib.Data.List.Chain
import OneVote.ProcessingThread

/-!
# Hash links

The link of a block is checked when it is received, copied from the head when it
is mined, and never rewritten; a repair only takes blocks away from above.
-/

namespace OneVote

namespace Blockchain

/-- Each block names the one below it, and every final hash has its 20 bytes. -/
structure Linked (bc : Blockchain) : Prop where
  links : bc.blocks.IsChain fun newer older => sameHash newer.prevBlockSHA1 older.finhash = .ok true
  hashes : ∀ b ∈ bc.blocks, b.finhash.IsHash

theorem new_linked (tail : GenesisTail) : (new tail).Linked where
  links := .singleton _
  hashes := by
    intro b hb
    obtain rfl := List.mem_singleton.1 hb
    exact ⟨_, rfl, by simp [startingBlock]⟩

/-- A block that names the head can be put on top. -/
theorem Linked.appended {bc : Blockchain} (h : bc.Linked) {b head : Block}
    (hhead : bc.getHeadBlock = .ok head) (hlink : sameHash b.prevBlockSHA1 head.finhash = .ok true)
    (hhash : b.finhash.IsHash) : (Thread.appended bc b).Linked where
  links := by
    obtain ⟨-, hhead⟩ := getHeadBlock_eq_ok.1 hhead
    obtain ⟨rest, hblocks⟩ := List.head?_eq_some_iff.1 hhead
    have hlinks := h.links
    unfold Thread.appended
    rw [hblocks]
    rw [hblocks] at hlinks
    exact hlinks.cons_cons hlink
  hashes := by
    intro c hc
    rcases List.mem_cons.1 hc with rfl | hc
    · exact hhash
    · exact h.hashes c hc

/-- Blocks can be taken away from above. -/
theorem Linked.truncated {bc : Blockchain} (h : bc.Linked) (it : Nat) :
    (bc.truncated it).Linked where
  links := h.links.drop it
  hashes := fun b hb => h.hashes b (List.mem_of_mem_drop hb)

end Blockchain

namespace Thread

/-- A received block comes with a final hash of 20 bytes. -/
def ReceivesHash (m : TransitionSystem.Move Thread (Input × List Effect)) : Prop :=
  ∀ b env, m.label.1 = .block (some b) env → b.finhash.IsHash

theorem Change.linked {SHA1 : Bytes → Digest} {th th' : Thread} {i : Input × List Effect}
    (hs : Change SHA1 th i th') (hhash : ReceivesHash ⟨th, i, th'⟩) (h : th.bc.Linked) :
    th'.bc.Linked := by
  cases hs with
  | @accepted b env ts _ hcheck =>
      obtain ⟨head, hhead, hlink, -⟩ := Blockchain.checkBlockValidity_eq_ok.1 hcheck
      exact h.appended hhead hlink (hhash b env rfl)
  | repaired => exact h.truncated _
  | @mined w head _ hloop hhead =>
      obtain ⟨-, hmatches⟩ := mineLoop_spec hloop
      obtain ⟨⟨b', root, -, hfin⟩, -⟩ := hmatches rfl
      have hheadHash : head.finhash.IsHash :=
        h.hashes head (List.mem_of_mem_head? (Blockchain.getHeadBlock_eq_ok.1 hhead).2)
      apply h.appended hhead (sameHash_refl hheadHash)
      change w.finhash.IsHash
      rw [hfin]
      exact Digest.isHash_ptr _
  | _ => exact h

/-- In every run whose received blocks have their hash, the chain is linked
down to the block that the constructor made. -/
theorem blocks_linked {SHA1 : Bytes → Digest} {tail : GenesisTail} {th : Thread}
    {tr : List (TransitionSystem.Move Thread (Input × List Effect))}
    (h : (processingThread SHA1 tail).Run (.initial tail) tr th)
    (hhash : ∀ m ∈ tr, ReceivesHash m) :
    th.bc.blocks ≠ [] ∧ th.bc.blocks.getLast? = some (Blockchain.genesis tail) ∧
      th.bc.blocks.IsChain fun newer older =>
        sameHash newer.prevBlockSHA1 older.finhash = .ok true := by
  have hpres : (processingThread SHA1 tail).PreservedUnder ReceivesHash fun th =>
      th.bc.blocks.getLast? = some (Blockchain.genesis tail) ∧ th.bc.Linked :=
    fun _ _ _ hstep hm hth => ⟨hstep.change.getLast?_blocks hth.1, hstep.change.linked hm hth.2⟩
  obtain ⟨hlast, hlinked⟩ := hpres.run h ⟨rfl, Blockchain.new_linked tail⟩ hhash
  refine ⟨?_, hlast, hlinked.links⟩
  rintro hnil
  rw [hnil] at hlast
  cases hlast

theorem blocks_linked_first :
    (firstAccepted Blockchain.sampleTail Blockchain.sampleFirst).bc.blocks ≠ [] ∧
      (firstAccepted Blockchain.sampleTail Blockchain.sampleFirst).bc.blocks.getLast? =
        some (Blockchain.genesis Blockchain.sampleTail) ∧
      (firstAccepted Blockchain.sampleTail Blockchain.sampleFirst).bc.blocks.IsChain
        fun newer older => sameHash newer.prevBlockSHA1 older.finhash = .ok true :=
  blocks_linked (run_firstAccepted Block.sampleSHA1 .alone (by decide)) (by
    simp only [List.mem_singleton, forall_eq]
    intro b env hb
    cases hb
    exact ⟨_, rfl, by decide⟩)

end Thread

end OneVote
