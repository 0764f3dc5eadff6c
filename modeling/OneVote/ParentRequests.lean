-- SUMMARY: Parents of mined blocks: the assertions before the request fail on every hash that meets the target.
import OneVote.Agreement

/-!
# Parent requests

`get_parent_block_from_neighbor` asserts that the first byte of each hash is not
zero. The target of the mining loop makes that byte zero.
-/

namespace OneVote

namespace Block

/-- `b` meets the target, and names a block that meets it or the genesis block. -/
structure MinedOn (b p : Block) : Prop where
  target : b.MeetsTarget
  parent : p.MeetsTarget ∨ ∃ tail, p.finhash = (Blockchain.genesis tail).finhash
  linked : b.prevBlockSHA1 = p.finhash

end Block

/-- What is asked for the parent of a block that meets the target fails before
the request, if not in reading the hash of the parent. -/
theorem getParentBlockFromNeighbor_of_meetsTarget {b : Block} (h : b.MeetsTarget) (env : RepairEnv)
    (parent? : Option Block) : getParentBlockFromNeighbor (some b) env ≠ .ok parent? := by
  intro hok
  cases parent? with
  | none => exact getParentBlockFromNeighbor_ne_null _ _ hok
  | some parent =>
      obtain ⟨child, x, y, hchild, -, -, hy, hy0, -⟩ :=
        getParentBlockFromNeighbor_eq_ok.1 hok
      cases hchild
      exact hy0 (Except.ok.inj (hy.symm.trans h.byte_finhash))

/-- A block on a mined parent fails the assertion on its previous hash, a block
on the genesis block the one on its own, whatever the peers can supply. -/
theorem Block.MinedOn.request_fails {b p : Block} (h : b.MinedOn p) (env : RepairEnv) :
    (∀ parent, getParentBlockFromNeighbor (some b) env ≠ .ok (some parent)) ∧
    (p.MeetsTarget →
      getParentBlockFromNeighbor (some b) env = .error (.assertion .childPrevByte)) ∧
    (∀ tail, p.finhash = (Blockchain.genesis tail).finhash →
      getParentBlockFromNeighbor (some b) env = .error (.assertion .childFinhashByte)) := by
  refine ⟨fun parent => getParentBlockFromNeighbor_of_meetsTarget h.target env _, ?_, ?_⟩
  · intro hp
    have hprev : b.prevBlockSHA1.byte 0 = .ok 0 := by
      rw [h.linked]
      exact hp.byte_finhash
    unfold getParentBlockFromNeighbor
    dsimp only
    rw [hprev, Except.ok_bind, if_pos rfl]
  · intro tail hp
    have hprev : b.prevBlockSHA1.byte 0 = .ok 83 := by
      rw [h.linked, hp]
      rfl
    unfold getParentBlockFromNeighbor
    dsimp only
    rw [hprev, Except.ok_bind, if_neg (by decide), h.target.byte_finhash, Except.ok_bind,
      if_pos rfl]

namespace Block

/-- A block on the genesis block, with a hash that the mining loop finds. -/
def sampleMined : Block :=
  { sample 1 (Blockchain.startingBlock ++ Blockchain.sampleTail.toList) [] 2 with
    prevBlockSHA1 := (Blockchain.genesis Blockchain.sampleTail).finhash
    finhash := sampleFinhash.ptr }

theorem sampleMined_minedOn : sampleMined.MinedOn (Blockchain.genesis Blockchain.sampleTail) where
  target := ⟨3, by decide, Int32.le_refl _⟩
  parent := .inr ⟨_, rfl⟩
  linked := rfl

/-- Peers that have the genesis block. -/
def suppliesGenesis : RepairEnv :=
  { RepairEnv.alone with
    getBlock := fun _ => .ok (some (Blockchain.genesis Blockchain.sampleTail)) }

theorem sampleMined_request_fails :
    (∀ parent, getParentBlockFromNeighbor (some sampleMined) suppliesGenesis ≠ .ok (some parent)) ∧
    ((Blockchain.genesis Blockchain.sampleTail).MeetsTarget →
      getParentBlockFromNeighbor (some sampleMined) suppliesGenesis =
        .error (.assertion .childPrevByte)) ∧
    (∀ tail, (Blockchain.genesis Blockchain.sampleTail).finhash =
        (Blockchain.genesis tail).finhash →
      getParentBlockFromNeighbor (some sampleMined) suppliesGenesis =
        .error (.assertion .childFinhashByte)) :=
  sampleMined_minedOn.request_fails suppliesGenesis

/-- The peers supply the genesis block, and the block mined on it does not get
as far as asking for it. -/
theorem genesis_parent_not_returned :
    ¬ ∀ (b p parent : Block) (env : RepairEnv), b.MinedOn p →
      env.getBlock b.prevBlockSHA1 = .ok (some parent) →
      getParentBlockFromNeighbor (some b) env = .ok (some parent) := by
  intro h
  have hok := h _ _ _ suppliesGenesis sampleMined_minedOn rfl
  obtain ⟨child, x, y, hchild, -, -, hy, hy0, -⟩ := getParentBlockFromNeighbor_eq_ok.1 hok
  cases hchild
  exact hy0 (Except.ok.inj (hy.symm.trans sampleMined_minedOn.target.byte_finhash))

end Block

/-- In a network of miners no block of any chain can be asked for its parent. -/
theorem Network.no_parent_returned {ι : Type*} [DecidableEq ι] {SHA1 : Bytes → Digest}
    {tail : GenesisTail} {s : Network ι}
    {tr : List (TransitionSystem.Move (Network ι) (ι × Input × List Effect))}
    (h : (network ι SHA1 tail).Run (.initial tail) tr s) (j : ι) {b : Block}
    (hb : b ∈ (s.miners j).bc.nonGenesis) (env : RepairEnv) (parent? : Option Block) :
    getParentBlockFromNeighbor (some b) env ≠ .ok parent? :=
  getParentBlockFromNeighbor_of_meetsTarget (mined_of_run h j b hb).2.1 env parent?

end OneVote
