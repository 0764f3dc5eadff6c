-- SUMMARY: One pass of the main loop as the source writes it, and what the working block makes sure of in every pass.
import OneVote.Numbering
import OneVote.Propagation

/-!
# Iterations

`new_trans` is declared without a value and assigned only if the quota is not
full. A pass of the loop is a run of one to three steps of the processing thread.
-/

namespace OneVote

/-- A pointer that is read: `none` was never assigned. -/
def readAssigned {α : Type} : Option α → Exec α
  | none => .error .unassigned
  | some a => .ok a

/-- What one pass of the loop takes from outside: the result of
`bq->pop_nonblocking()`, the surroundings of a repair, and the result of
`tq->pop()` if the pass comes to it. -/
structure Received where
  block : Option Block
  env : RepairEnv
  popped : Transaction

namespace Thread

/-- From `transaction* new_trans` to the mining loop: the thread, whether the
loop continues early, and the effects. -/
def intake (th : Thread) (popped : Transaction) : Exec (Thread × Bool × List Effect) := do
  let newTrans := if th.quotafull then none else some popped
  let known ←
    if th.quotafull then pure false
    else do
      let t ← readAssigned newTrans
      if t.senderPublicKey ∈ th.bc.voted then pure true else pure false
  if known then return (th, true, [])
  else if th.quotafull then return (th, false, [])
  else
    let t ← readAssigned newTrans
    let ts ← th.newBlock.entries th.newBlock.maxInd.toNat
    if ∃ u ∈ ts, u.senderPublicKey = t.senderPublicKey then return (th, false, [])
    else
      let b ← th.newBlock.setEntry th.newBlock.maxInd t
      let b := { b with maxInd := b.maxInd + 1 }
      return ({ th with
        newBlock := b
        quotafull := th.quotafull || b.maxInd = (numTransactionsPerBlock : Int) }, false,
        [.broadcastTransaction t])

/-- What follows the block of a pass; the thread stands behind it. -/
def afterReceive (SHA1 : Bytes → Digest) (th : Thread) (popped : Transaction) :
    Exec (Thread × List Effect) := do
  let (th, docontinue, effects) ← th.intake popped
  if docontinue then return ({ th with point := .head }, effects)
  else if th.quotafull then
    let (th, effects') ← ({ th with point := .mine } : Thread).mine SHA1
    return (th, effects ++ effects')
  else return ({ th with point := .head }, effects)

/-- One pass of the `while (true)` loop. -/
def iteration (SHA1 : Bytes → Digest) (th : Thread) (i : Received) :
    Exec (Thread × List Effect) := do
  match i.block with
  | none => ({ th with point := th.afterBlock } : Thread).afterReceive SHA1 i.popped
  | some b =>
      let (th, docontinue, effects) ← th.handleBlock b i.env
      if docontinue then return ({ th with point := .head }, effects)
      else
        let (th, effects') ←
          ({ th with point := th.afterBlock } : Thread).afterReceive SHA1 i.popped
        return (th, effects ++ effects')

/-! ## Passes are runs -/

theorem intake_of_quotafull {th : Thread} (h : th.quotafull = true) (popped : Transaction) :
    th.intake popped = .ok (th, false, []) := by
  unfold intake
  simp only [h, if_true]
  rfl

/-- With room in the working block, the pass takes the transaction as a step does. -/
theorem takeTransaction_eq {th : Thread} (h : th.quotafull = false) (t : Transaction) :
    th.takeTransaction t =
      (fun r => ({ r.1 with point := if r.1.quotafull then .mine else .head }, r.2.2)) <$>
        th.intake t := by
  unfold takeTransaction intake
  simp only [h, Bool.false_eq_true, if_false, readAssigned, Except.ok_bind, List.mem_map]
  by_cases hvoted : t.senderPublicKey ∈ th.bc.voted
  · simp only [hvoted, if_true, pure_bind, map_pure, h, Bool.false_eq_true, if_false]
  · simp only [hvoted, if_false, pure_bind, Bool.false_eq_true]
    cases th.newBlock.entries th.newBlock.maxInd.toNat with
    | error e => rfl
    | ok ts =>
        simp only [Except.ok_bind]
        split
        · simp only [map_pure, h, Bool.false_eq_true, if_false]
        · cases th.newBlock.setEntry th.newBlock.maxInd t with
          | error e => rfl
          | ok b => rfl

/-- The pass continues early only where it has changed nothing. -/
theorem intake_continue {th th' : Thread} {popped : Transaction} {effects : List Effect}
    (h : th.intake popped = .ok (th', true, effects)) : th.quotafull = false ∧ th' = th := by
  have hquota : th.quotafull = false := by
    cases hq : th.quotafull with
    | false => rfl
    | true => cases (intake_of_quotafull hq popped).symm.trans h
  refine ⟨hquota, ?_⟩
  unfold intake at h
  simp only [hquota, Bool.false_eq_true, if_false, readAssigned, Except.ok_bind, pure_bind] at h
  split at h
  · cases h
    rfl
  · obtain ⟨ts, -, h⟩ := Except.bind_eq_ok.1 h
    split at h
    · cases h
    · obtain ⟨b, -, h⟩ := Except.bind_eq_ok.1 h
      cases h

theorem mine_point {SHA1 : Bytes → Digest} {th th' : Thread} {effects : List Effect}
    (h : th.mine SHA1 = .ok (th', effects)) : th'.point = .head := by
  unfold Thread.mine at h
  obtain ⟨⟨b, found⟩, -, h⟩ := Except.bind_eq_ok.1 h
  dsimp only at h
  split at h
  · obtain ⟨head, -, h⟩ := Except.bind_eq_ok.1 h
    obtain ⟨⟨bc, b'⟩, -, h⟩ := Except.bind_eq_ok.1 h
    dsimp only at h
    split at h
    · cases h
    · cases h
      rfl
  · cases h
    rfl

variable {SHA1 : Bytes → Digest} {tail : GenesisTail}

theorem afterReceive_run {th th' : Thread} {popped : Transaction} {effects : List Effect}
    (hpoint : th.point = th.afterBlock) (h : th.afterReceive SHA1 popped = .ok (th', effects)) :
    ∃ tr, (processingThread SHA1 tail).Run th tr th' ∧ th'.point = .head ∧
      tr.flatMap (·.label.2) = effects := by
  obtain ⟨⟨th₁, docontinue, effects₁⟩, hintake, hrest⟩ := Except.bind_eq_ok.1 h
  dsimp only at hrest
  clear h
  cases hquota : th.quotafull with
  | true =>
      have hmining : th.point = .mine := by rw [hpoint, afterBlock, hquota]; rfl
      rw [intake_of_quotafull hquota] at hintake
      cases hintake
      rw [if_neg Bool.false_ne_true, if_pos hquota] at hrest
      obtain ⟨⟨th₂, effects₂⟩, hmine, hend⟩ := Except.bind_eq_ok.1 hrest
      cases hend
      rw [← hmining] at hmine
      exact ⟨_, .snoc .nil (Step.mine hmining hmine), mine_point hmine, by simp⟩
  | false =>
      have hpop : th.point = .pop := by rw [hpoint, afterBlock, hquota]; rfl
      have htake := takeTransaction_eq hquota popped
      rw [hintake] at htake
      have hstep := @Step.transaction SHA1 _ _ _ _ hpop htake
      cases docontinue with
      | true =>
          obtain ⟨-, rfl⟩ := intake_continue hintake
          rw [if_pos rfl] at hrest
          cases hrest
          rw [hquota] at hstep
          exact ⟨_, .snoc .nil hstep, rfl, by simp⟩
      | false =>
          rw [if_neg Bool.false_ne_true] at hrest
          split at hrest
          · rename_i hfull
            rw [if_pos hfull] at hstep
            obtain ⟨⟨th₂, effects₂⟩, hmine, hend⟩ := Except.bind_eq_ok.1 hrest
            cases hend
            exact ⟨_, .snoc (.snoc .nil hstep) (Step.mine rfl hmine), mine_point hmine, by simp⟩
          · rename_i hroom
            rw [if_neg hroom] at hstep
            cases hrest
            exact ⟨_, .snoc .nil hstep, rfl, by simp⟩

/-- A pass of the loop is a run of the thread's steps, from loop head to loop head. -/
theorem iteration_run {th th' : Thread} {i : Received} {effects : List Effect}
    (hpoint : th.point = .head) (h : th.iteration SHA1 i = .ok (th', effects)) :
    ∃ tr, (processingThread SHA1 tail).Run th tr th' ∧ th'.point = .head ∧
      tr.flatMap (·.label.2) = effects := by
  unfold iteration at h
  cases hblock : i.block with
  | none =>
      rw [hblock] at h
      obtain ⟨tr, hrun, hhead, heffects⟩ := afterReceive_run rfl h
      exact ⟨_, .cons (@Step.idle SHA1 th i.env hpoint) hrun, hhead, heffects⟩
  | some b =>
      rw [hblock] at h
      obtain ⟨⟨th₁, docontinue, effects₁⟩, hhandle, h⟩ := Except.bind_eq_ok.1 h
      dsimp only at h
      have hstep := @Step.block SHA1 _ _ _ _ _ _ hpoint hhandle
      cases docontinue with
      | true =>
          obtain ⟨rfl, rfl⟩ := Prod.mk.inj (Except.pure_eq_ok.1 h)
          exact ⟨_, .snoc .nil hstep, rfl, by simp⟩
      | false =>
          obtain ⟨⟨th₂, effects₂⟩, hafter, h⟩ := Except.bind_eq_ok.1 h
          obtain ⟨rfl, rfl⟩ := Prod.mk.inj (Except.pure_eq_ok.1 h)
          obtain ⟨tr, hrun, hhead, rfl⟩ := afterReceive_run rfl hafter
          exact ⟨_, .cons hstep hrun, hhead, rfl⟩

/-! ## What every pass can rely on -/

/-- What holds of the working block, the flag and the voters at every loop head. -/
structure LoopInvariant (th : Thread) : Prop where
  maxInd_nonneg : 0 ≤ th.newBlock.maxInd
  maxInd_le : th.newBlock.maxInd ≤ numTransactionsPerBlock
  quotafull_iff : th.quotafull = true ↔ th.newBlock.maxInd = numTransactionsPerBlock
  senders : ∃ ts, th.newBlock.entries th.newBlock.maxInd.toNat = .ok ts ∧
    (ts.map (·.senderPublicKey)).Nodup ∧ ∀ t ∈ ts, t.senderPublicKey ∉ th.bc.voted

theorem WellFormed.loopInvariant {th : Thread} (h : th.WellFormed) : th.LoopInvariant where
  maxInd_nonneg := by
    rw [h.filling.maxInd_eq]
    exact Int.natCast_nonneg _
  maxInd_le := by
    rw [h.filling.maxInd_eq]
    exact Int.ofNat_le.2 h.filling.length_le
  quotafull_iff := h.full_iff
  senders := ⟨_, h.filling.entries, h.filling.nodup,
    fun _ ht => h.fresh _ (List.mem_map_of_mem ht)⟩

/-- Taking a transaction reads nothing that was not assigned and writes no
entry behind the array. -/
theorem WellFormed.exists_intake {th : Thread} (h : th.WellFormed) (popped : Transaction) :
    ∃ r, th.intake popped = .ok r := by
  cases hquota : th.quotafull with
  | true => exact ⟨_, intake_of_quotafull hquota popped⟩
  | false =>
      have hlt : th.newBlock.votes.length < numTransactionsPerBlock := by
        refine lt_of_le_of_ne h.filling.length_le fun heq => ?_
        have hfull := h.full_iff.2 (by rw [h.filling.maxInd_eq, heq])
        rw [hquota] at hfull
        cases hfull
      obtain ⟨b, hb⟩ := h.filling.exists_setEntry hlt popped
      unfold intake
      simp only [hquota, Bool.false_eq_true, if_false, readAssigned, Except.ok_bind, pure_bind,
        h.filling.entries, hb]
      split
      · exact ⟨_, rfl⟩
      · split
        · exact ⟨_, rfl⟩
        · exact ⟨_, rfl⟩

end Thread

/-- The chain with `p` as the final hash of its newest block. -/
def Blockchain.withHeadHash (bc : Blockchain) (p : CharPtr) : Blockchain :=
  match bc.blocks with
  | [] => bc
  | head :: rest => { bc with blocks := { head with finhash := p } :: rest }

theorem Blockchain.getHeadBlock_withHeadHash {bc : Blockchain} {head : Block}
    (h : bc.getHeadBlock = .ok head) (p : CharPtr) :
    (bc.withHeadHash p).getHeadBlock = .ok { head with finhash := p } ∧
      (bc.withHeadHash p).voted = bc.voted := by
  obtain ⟨hlength, hhead⟩ := getHeadBlock_eq_ok.1 h
  unfold withHeadHash
  cases hblocks : bc.blocks with
  | nil =>
      rw [hblocks] at hhead
      cases hhead
  | cons head' rest =>
      rw [hblocks] at hhead
      cases hhead
      exact ⟨getHeadBlock_eq_ok.2 ⟨hlength, rfl⟩, rfl⟩

theorem Blockchain.withHeadHash_self {bc : Blockchain} {head : Block}
    (h : bc.getHeadBlock = .ok head) : bc.withHeadHash head.finhash = bc := by
  obtain ⟨-, hhead⟩ := getHeadBlock_eq_ok.1 h
  obtain ⟨blocks, chainLength, voted⟩ := bc
  cases blocks with
  | nil => cases hhead
  | cons head' rest =>
      cases hhead
      rfl

namespace Thread

/-- A mined block names the pointer that the head has, so the check compares a
hash with itself, whatever its bytes are. -/
theorem WellFormed.check_minedBlock {th : Thread} (h : th.WellFormed) (hpoint : th.point = .mine)
    {w head : Block} (hloop : Thread.mineLoop SHA1 numMagicToTry th.newBlock = .ok (w, true))
    (hhead : th.bc.getHeadBlock = .ok head) {p : CharPtr} (hp : p.IsHash) :
    (th.bc.withHeadHash p).checkBlockValidity
      (Thread.minedBlock w { head with finhash := p }) = .ok .ok := by
  obtain ⟨hpop, -, hnew⟩ := h.minedBlock hpoint hloop { head with finhash := p }
  obtain ⟨hhead', hvoted⟩ := Blockchain.getHeadBlock_withHeadHash hhead p
  refine Blockchain.checkBlockValidity_eq_ok.2 ⟨_, hhead', sameHash_refl hp, hpop, fun k hk => ?_⟩
  rw [hvoted]
  exact hnew k hk

/-- The loop invariant, and what follows from it: a pass takes its transaction
without reading what was not assigned or writing behind the array, and a block
that is about to be added would be judged OK. The check on it reads the final
hash of the head twice, whatever 20 bytes `p` it reads. -/
structure PassSafe (SHA1 : Bytes → Digest) (th : Thread) : Prop where
  invariant : th.LoopInvariant
  intake : ∀ popped, ∃ r, th.intake popped = .ok r
  mined : ∀ w, th.point = .mine → Thread.mineLoop SHA1 numMagicToTry th.newBlock = .ok (w, true) →
    ∃ head, th.bc.getHeadBlock = .ok head ∧
      (head.finhash.IsHash → th.bc.checkBlockValidity (minedBlock w head) = .ok .ok) ∧
      ∀ p : CharPtr, p.IsHash → (th.bc.withHeadHash p).checkBlockValidity
        (minedBlock w { head with finhash := p }) = .ok .ok

theorem workingBlock_sound {th : Thread}
    {tr : List (TransitionSystem.Move Thread (Input × List Effect))}
    (h : (processingThread SHA1 tail).Run (.initial tail) tr th) : th.PassSafe SHA1 := by
  have hwell := (wellFormed_invariant SHA1 tail).preserved.run h (initial_wellFormed tail) (by simp)
  have hshort := (short_invariant SHA1 tail).preserved.run h (initial_short tail) (by simp)
  refine ⟨hwell.loopInvariant, hwell.exists_intake, fun w hpoint hloop => ?_⟩
  obtain ⟨head, rest, hblocks⟩ := List.exists_cons_of_ne_nil hshort.nonempty
  have hhead : th.bc.getHeadBlock = .ok head :=
    Blockchain.getHeadBlock_eq_ok.2 ⟨hshort.chainLength_pos.ne', congrArg List.head? hblocks⟩
  refine ⟨head, hhead, fun hfin => ?_, fun p hp => hwell.check_minedBlock hpoint hloop hhead hp⟩
  rw [← Blockchain.withHeadHash_self hhead]
  exact hwell.check_minedBlock hpoint hloop hhead hfin

/-- Eight votes by different voters fill the working block, and a magic is found. -/
theorem workingBlock_sound_mined :
    ∃ (th : Thread) (w : Block), th.PassSafe Block.sampleSHA1 ∧ th.point = .mine ∧
      th.quotafull = true ∧ th.newBlock.votes = sampleVotes 1 ∧
      Thread.mineLoop Block.sampleSHA1 numMagicToTry th.newBlock = .ok (w, true) ∧
      th.bc.checkBlockValidity (minedBlock w (Blockchain.genesis Blockchain.sampleTail)) =
        .ok .ok := by
  obtain ⟨tr, th, w, h⟩ := exists_mined_sample Blockchain.sampleTail 1 (by decide)
  have hsafe := workingBlock_sound h.run
  have hbc := h.bc
  have hvotes := h.votes
  have hquota : th.quotafull = true := by
    rw [hsafe.invariant.quotafull_iff]
    have hwell := (wellFormed_invariant Block.sampleSHA1 Blockchain.sampleTail).preserved.run h.run
      (initial_wellFormed _) (by simp)
    rw [hwell.filling.maxInd_eq, hvotes]
    rfl
  have hpoint : th.point = .mine := by
    cases h.step with
    | mine hpoint => exact hpoint
  obtain ⟨head, hhead, hchecked, -⟩ := hsafe.mined w hpoint h.loop
  rw [hbc] at hhead
  cases hhead
  exact ⟨th, w, hsafe, hpoint, hquota, hvotes, h.loop, hchecked ⟨_, rfl, by decide⟩⟩

end Thread

end OneVote
