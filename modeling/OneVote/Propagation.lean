-- SUMMARY: What a mined block becomes on its way to another miner: a block without votes.
import OneVote.Encoding
import OneVote.WorkingBlock

/-!
# Propagation

A miner adds its own block without a check and broadcasts it afterwards. At that
point `max_ind` is 0 already, and `encode_block` writes the first `max_ind`
transactions.
-/

namespace OneVote

namespace Blockchain

/-- The same hashes in the same order, the same voters, and the same length. -/
structure SameChain (bc bc' : Blockchain) : Prop where
  hashes : bc.blocks.map (·.finhash.read publicKeySize) =
    bc'.blocks.map (·.finhash.read publicKeySize)
  voted : bc.voted = bc'.voted
  chainLength : bc.chainLength = bc'.chainLength

/-- The same chain, with the same transactions and block numbers. -/
structure SameHistory (bc bc' : Blockchain) : Prop extends bc.SameChain bc' where
  transactions : bc.blocks.map (·.transactionArray) = bc'.blocks.map (·.transactionArray)
  numbers : bc.blocks.map (·.blockNumber) = bc'.blocks.map (·.blockNumber)

theorem SameChain.refl (bc : Blockchain) : bc.SameChain bc := ⟨rfl, rfl, rfl⟩

end Blockchain

/-- The block that `receiver` decodes from the broadcast of `w` has the eight
transactions of `w`, is judged OK, and makes the chain that of `sender`. -/
def PropagatesTo (w : Block) (sender receiver : Blockchain) : Prop :=
  ∃ msg b receiver' b', encodeBlock w = .ok msg ∧ decodeBlock msg = .ok b ∧
    b.transactionArray = w.transactionArray ∧ b.maxInd = numTransactionsPerBlock ∧
    receiver.checkBlockValidity b = .ok .ok ∧ receiver.addBlock b = .ok (receiver', b') ∧
    sender.SameHistory receiver'

/-- A block that is sent with `max_ind` 0 arrives with it. -/
theorem not_propagatesTo_of_maxInd {w : Block} (h : w.maxInd = 0) (sender receiver : Blockchain) :
    ¬ PropagatesTo w sender receiver := by
  rintro ⟨msg, b, receiver', b', hmsg, hb, -, hfull, -⟩
  have hzero : b.maxInd = 0 := ((encodeBlock_isEmpty hmsg h).decoded hb).1
  exact absurd (hzero.symm.trans hfull) (by decide)

namespace Thread

/-- What a mining step broadcasts has `max_ind` 0. -/
theorem Step.maxInd_mined {SHA1 : Bytes → Digest} {th th' : Thread} {w : Block}
    {effects : List Effect} (h : Step SHA1 th (.mine, effects) th')
    (hw : .broadcastBlock w ∈ effects) : w.maxInd = 0 := by
  cases h.change with
  | missed => cases hw
  | mined =>
      cases List.mem_singleton.1 hw
      rfl

/-! ## A mined block -/

/-- The table of digests, on the voter with the sample key. -/
theorem leadingZeros_sampleFinhash :
    leadingZeros Block.sampleFinhash.ptr publicKeySize = .ok 3 := by
  decide

theorem uniformRoot_sampleKey :
    Block.uniformRoot Block.sampleSHA1 Block.sampleKey = Block.sampleRoot := by
  decide

/-- A miner that mined a block of the votes `ts` on the constructed blockchain:
the moves `tr` fill the working block of `th`, and the mining loop makes it `w`. -/
structure MinedFirst (tail : GenesisTail) (ts : List Transaction)
    (tr : List (TransitionSystem.Move Thread (Input × List Effect))) (th : Thread) (w : Block) :
    Prop where
  run : (processingThread Block.sampleSHA1 tail).Run (.initial tail) tr th
  takes : Takes tr ts
  bc : th.bc = .new tail
  votes : th.newBlock.votes = ts
  loop : mineLoop Block.sampleSHA1 numMagicToTry th.newBlock = .ok (w, true)
  step : Step Block.sampleSHA1 th
    (.mine, [.broadcastBlock (Blockchain.numbered (minedBlock w (Blockchain.genesis tail)) 2)])
    ⟨appended (.new tail) (minedBlock w (Blockchain.genesis tail)), .new, false, .head⟩
  populated : w.Populated
  votes_mined : w.votes = ts
  magic : w.magic = 1
  finhash : w.finhash = Block.sampleFinhash.ptr

/-- Any eight new voters, the key of the first beginning with the sample key, make a
miner with room in its chain add a block of their votes. -/
theorem WellFormed.exists_mined (tail : GenesisTail) {th : Thread} (h : th.WellFormed)
    (hpoint : th.point = .head) (hnew : th.newBlock = .new) {head : Block}
    (hhead : th.bc.getHeadBlock = .ok head) (hnumber : UInt32.ofNat (th.bc.chainLength + 1) ≤ 5)
    {t : Transaction} {rest : List Transaction}
    (hkey : (CharPtr.ofString t.senderPublicKey).read publicKeySize = .ok Block.sampleKey)
    (hlen : (t :: rest).length = numTransactionsPerBlock)
    (hvoted : ∀ u ∈ t :: rest, u.senderPublicKey ∉ th.bc.voted)
    (hnodup : ((t :: rest).map (·.senderPublicKey)).Nodup) :
    ∃ tr th₁ w, (processingThread Block.sampleSHA1 tail).Run th tr th₁ ∧ Takes tr (t :: rest) ∧
      th₁.bc = th.bc ∧ th₁.newBlock.votes = t :: rest ∧
      Thread.mineLoop Block.sampleSHA1 numMagicToTry th₁.newBlock = .ok (w, true) ∧
      Step Block.sampleSHA1 th₁
        (.mine, [.broadcastBlock (Blockchain.numbered (minedBlock w head) (th.bc.chainLength + 1))])
        ⟨appended th.bc (minedBlock w head), .new, false, .head⟩ ∧
      w.Populated ∧ w.votes = t :: rest ∧ w.magic = 1 ∧ w.finhash = Block.sampleFinhash.ptr ∧
      ∀ m ∈ tr, ∀ u, m.label.1 = .transaction u → u ∈ t :: rest := by
  obtain ⟨tr, th₁, hrun, htakes, hbc, hvotes, hmagic, hpoint₁, honly⟩ :=
    h.exists_full Block.sampleSHA1 tail hpoint (List.cons_ne_nil t rest)
      (by rw [hnew, hlen]; rfl) hvoted (by rw [hnew]; exact hnodup)
  rw [hnew] at hvotes hmagic
  have hwell := (wellFormed_invariant Block.sampleSHA1 tail).preserved.run hrun h (by simp)
  have hpop := hwell.populated hpoint₁
  have hdata : th₁.newBlock.leafData = .ok Block.sampleKey := by
    rw [hpop.leafData hvotes, hkey]
  have hmagic₀ : th₁.newBlock.magic = 0 := hmagic
  have hfin : Block.sampleSHA1
      (Block.sampleRoot.bytes ++ Block.magicBytes (th₁.newBlock.magic + 1)) =
        Block.sampleFinhash := by
    rw [hmagic₀]
    decide
  have hloop := @mineLoop_first Block.sampleSHA1 th₁.newBlock _ 3 1023 hdata
    (by rw [uniformRoot_sampleKey]; decide)
    (by rw [uniformRoot_sampleKey, hfin]; exact leadingZeros_sampleFinhash)
    (Int32.le_refl _)
  rw [uniformRoot_sampleKey, hfin] at hloop
  have hstep := Step.of_mined hpoint₁ hloop (hbc ▸ hhead) hpop (hbc ▸ hnumber)
  rw [hbc] at hstep
  have hmagic₁ : th₁.newBlock.magic + 1 = 1 := by rw [hmagic₀]; rfl
  exact ⟨tr, th₁, _, hrun, htakes, hbc, hvotes, hloop, hstep, hpop, hvotes, hmagic₁, rfl, honly⟩

/-- Any eight new voters, the first with the sample key, make a miner on the
constructed blockchain add a block of their votes. -/
theorem exists_mined (tail : GenesisTail) {t : Transaction} {rest : List Transaction}
    (hkey : t.senderPublicKey = Block.sampleKey)
    (hlen : (t :: rest).length = numTransactionsPerBlock)
    (hnodup : ((t :: rest).map (·.senderPublicKey)).Nodup) :
    ∃ tr th w, MinedFirst tail (t :: rest) tr th w := by
  obtain ⟨tr, th, w, hrun, htakes, hbc, hvotes, hloop, hstep, hpop, hmined, hmagic, hfin, -⟩ :=
    (initial_wellFormed tail).exists_mined tail rfl rfl rfl (show UInt32.ofNat 2 ≤ 5 by decide)
      (by rw [hkey]; rfl) hlen (by simp [initial, Blockchain.new]) hnodup
  exact ⟨tr, th, w, hrun, htakes, hbc, hvotes, hloop, hstep, hpop, hmined, hmagic, hfin⟩

/-- Eight votes, the first by the voter with the sample key. -/
def sampleVotes (id : UInt8) : List Transaction :=
  [⟨Block.sampleKey, [89], 0⟩, .sample id, .sample (id + 1), .sample (id + 2), .sample (id + 3),
    .sample (id + 4), .sample (id + 5), .sample (id + 6)]

theorem exists_mined_sample (tail : GenesisTail) (id : UInt8)
    (hnodup : ((sampleVotes id).map (·.senderPublicKey)).Nodup) :
    ∃ tr th w, MinedFirst tail (sampleVotes id) tr th w :=
  exists_mined tail rfl rfl hnodup

/-- Eight other votes, the first key with the same 20 bytes. -/
def laterVotes : List Transaction :=
  ⟨Block.sampleKey ++ [1], [89], 0⟩ :: (List.range 7).map fun n => .sample (UInt8.ofNat (101 + n))

/-- A miner that takes no block mines two. -/
theorem exists_mined_twice (tail : GenesisTail) :
    ∃ tr th, (processingThread Block.sampleSHA1 tail).Run (.initial tail) tr th ∧
      (∀ m ∈ tr, ∀ b env, m.label.1 ≠ .block (some b) env) ∧ th.point = .head ∧
      th.newBlock = .new ∧ th.bc.nonGenesis.length = 2 := by
  obtain ⟨tr, th, w, h⟩ := exists_mined_sample tail 1 (by decide)
  have hrun := h.run.snoc h.step
  have hwell := (wellFormed_invariant Block.sampleSHA1 tail).preserved.run hrun
    (initial_wellFormed tail) (by simp)
  have hvoted : ∀ u ∈ laterVotes, u.senderPublicKey ∉
      (appended (.new tail) (minedBlock w (Blockchain.genesis tail))).voted := by
    have hkeys : (minedBlock w (Blockchain.genesis tail)).senders =
        (sampleVotes 1).map (·.senderPublicKey) := congrArg _ h.votes_mined
    change ∀ u ∈ laterVotes, u.senderPublicKey ∉
      ((∅ : Finset Bytes) ∪ (minedBlock w (Blockchain.genesis tail)).senders.toFinset)
    rw [hkeys]
    decide
  obtain ⟨tr', th', w', hrun', htakes, -, -, -, hstep, -⟩ :=
    hwell.exists_mined tail rfl rfl rfl (show UInt32.ofNat 3 ≤ 5 by decide) rfl rfl hvoted
      (by decide)
  refine ⟨_, _, (hrun.append hrun').snoc hstep, ?_, rfl, rfl, rfl⟩
  simp only [List.forall_mem_append, List.forall_mem_singleton]
  exact ⟨⟨⟨h.takes.noBlock, by simp⟩, htakes.noBlock⟩, by simp⟩

/-! ## No mined block propagates -/

/-- No mined block propagates, to any miner. -/
theorem Step.not_propagatesTo {SHA1 : Bytes → Digest} {th th' : Thread} {w : Block}
    {effects : List Effect} (h : Step SHA1 th (.mine, effects) th')
    (hw : .broadcastBlock w ∈ effects) (receiver : Blockchain) :
    ¬ PropagatesTo w th'.bc receiver :=
  not_propagatesTo_of_maxInd (h.maxInd_mined hw) th'.bc receiver

theorem not_propagatesTo_sample :
    ∃ th w th', (processingThread Block.sampleSHA1 Blockchain.sampleTail).Reachable th ∧
      Step Block.sampleSHA1 th (.mine, [.broadcastBlock w]) th' ∧
      ¬ PropagatesTo w th'.bc (.new Blockchain.sampleTail) := by
  obtain ⟨tr, th, w, h⟩ := exists_mined_sample Blockchain.sampleTail 1 (by decide)
  exact ⟨th, _, _, ⟨_, tr, rfl, h.run⟩, h.step,
    h.step.not_propagatesTo (List.mem_singleton_self _) _⟩

/-- A block of eight votes does not reach a miner on the same chain. -/
theorem mined_not_received :
    ¬ ∀ tail th effects th' w receiver,
      (processingThread Block.sampleSHA1 tail).Reachable th →
      Step Block.sampleSHA1 th (.mine, effects) th' → .broadcastBlock w ∈ effects →
      th.bc.SameChain receiver → PropagatesTo w th'.bc receiver := by
  intro h
  obtain ⟨tr, th, w, hmined⟩ := exists_mined_sample Blockchain.sampleTail 1 (by decide)
  have hw := List.mem_singleton_self
    (Effect.broadcastBlock (Blockchain.numbered
      (minedBlock w (Blockchain.genesis Blockchain.sampleTail)) 2))
  exact not_propagatesTo_of_maxInd (hmined.step.maxInd_mined hw) _ _
    (h _ _ _ _ _ _ ⟨_, tr, rfl, hmined.run⟩ hmined.step hw (Blockchain.SameChain.refl _))

end Thread

end OneVote
