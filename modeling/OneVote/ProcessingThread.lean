-- SUMMARY: The processing thread: its main loop as a transition system, and what each of its steps can do.
import OneVote.Base.TransitionSystem
import OneVote.LeadingZeros
import OneVote.Repair

/-!
# Processing thread

One iteration of the main loop takes a block from `bq` if there is one, then
either takes a transaction from `tq` or tries to mine. The iteration is cut at
these three points, so that other threads can act in between. Blocks and
transactions arrive as inputs of the steps; what the thread pushes to `tq` and
hands to its client are effects.
-/

namespace OneVote

abbrev numMagicToTry : Nat := 1024

abbrev numLeadingZeros : Int32 := 3

/-- Where the thread stands in an iteration. -/
inductive Point
  /-- at the loop head -/
  | head
  /-- at `tq->pop()` -/
  | pop
  /-- at the mining loop -/
  | mine
  deriving DecidableEq, Repr

structure Thread where
  bc : Blockchain
  newBlock : Block
  quotafull : Bool
  point : Point

inductive Effect
  | broadcastBlock (b : Block)
  | broadcastTransaction (t : Transaction)
  /-- `tq->push(t)` -/
  | push (t : Transaction)
  deriving DecidableEq

/-- The transactions that go to `tq`, in order. -/
def pushes (effects : List Effect) : List Transaction :=
  effects.filterMap fun
    | .push t => some t
    | _ => none

@[simp] theorem pushes_nil : pushes [] = [] := rfl
@[simp] theorem pushes_broadcastBlock (b : Block) (effects : List Effect) :
    pushes (.broadcastBlock b :: effects) = pushes effects := rfl
@[simp] theorem pushes_broadcastTransaction (t : Transaction) (effects : List Effect) :
    pushes (.broadcastTransaction t :: effects) = pushes effects := rfl

@[simp] theorem pushes_append (effects effects' : List Effect) :
    pushes (effects ++ effects') = pushes effects ++ pushes effects' := List.filterMap_append

@[simp] theorem pushes_map_push (ts : List Transaction) : pushes (ts.map .push) = ts := by
  rw [pushes, List.filterMap_map]
  exact List.filterMap_some

/-- What a step takes from outside the thread. -/
inductive Input
  /-- the result of `bq->pop_nonblocking()`, and the surroundings of a repair -/
  | block (b : Option Block) (env : RepairEnv)
  /-- the result of `tq->pop()` -/
  | transaction (t : Transaction)
  | mine

namespace Thread

def initial (tail : GenesisTail) : Thread := ⟨.new tail, .new, false, .head⟩

/-- Where an iteration continues after the block was handled. -/
def afterBlock (th : Thread) : Point := if th.quotafull then .mine else .pop

/-- Hand the transactions of the working block back and start a new one. -/
def reset (th : Thread) : Exec (Thread × List Transaction) := do
  let ts ← th.newBlock.entries th.newBlock.maxInd.toNat
  return ({ th with quotafull := false, newBlock := .new }, ts)

/-- The `switch` on the validity of a received block: the state after it, the
flag `docontinue`, and the effects. -/
def handleBlock (th : Thread) (b : Block) (env : RepairEnv) :
    Exec (Thread × Bool × List Effect) := do
  match ← th.bc.checkBlockValidity b with
  | .ok =>
      -- the number is asserted on after the block was added
      let (bc, b) ← th.bc.addBlock b
      if 5 < b.blockNumber then
        .error (.assertion .acceptedNumber)
      else
        let (th, ts) ← { th with bc := bc }.reset
        return (th, false, .broadcastBlock b :: ts.map .push)
  | .prevBlockNonmatch =>
      let head ← th.bc.getHeadBlock
      if head.blockNumber < b.blockNumber then
        if 5 < b.blockNumber then
          .error (.assertion .repairNumber)
        else
          let (repaired, bc, pushed) ← th.bc.repairBlockchain b env
          if repaired then
            let (th, ts) ← { th with bc := bc }.reset
            return (th, false, pushed.map .push ++ .broadcastBlock b :: ts.map .push)
          else
            return ({ th with bc := bc }, true, pushed.map .push)
      else
        -- a block that is not higher: `continue` without a word
        return (th, true, [])
  | .transactionInvalid => return (th, true, [])

/-- From `tq->pop()`, which returned `t`, to the mining loop. -/
def takeTransaction (th : Thread) (t : Transaction) : Exec (Thread × List Effect) := do
  -- both `continue`s drop the transaction: it was popped, and nobody pushes it again
  if t.senderPublicKey ∈ th.bc.voted then
    return ({ th with point := .head }, [])
  else
    let ts ← th.newBlock.entries th.newBlock.maxInd.toNat
    if t.senderPublicKey ∈ ts.map (·.senderPublicKey) then
      return ({ th with point := .head }, [])
    else
      let b ← th.newBlock.setEntry th.newBlock.maxInd t
      let b := { b with maxInd := b.maxInd + 1 }
      let full := th.quotafull || b.maxInd = (numTransactionsPerBlock : Int)
      return ({ th with
        newBlock := b
        quotafull := full
        point := if full then .mine else .head }, [.broadcastTransaction t])

/-- The mining loop over the tries that remain: the block, and whether its last
magic was successful. -/
def mineLoop (SHA1 : Bytes → Digest) : Nat → Block → Exec (Block × Bool)
  | 0, b => .ok (b, false)
  | tries + 1, b => do
      let b ← { b with magic := b.magic + 1 }.calculateFinhash SHA1
      if numLeadingZeros ≤ (← leadingZeros b.finhash publicKeySize) then return (b, true)
      else mineLoop SHA1 tries b

/-- The `if (quotafull)` part of an iteration. -/
def mine (SHA1 : Bytes → Digest) (th : Thread) : Exec (Thread × List Effect) := do
  let (b, found) ← mineLoop SHA1 numMagicToTry th.newBlock
  if found then
    -- `max_ind` is 0 before the block is added, so that it is sent without votes
    let head ← th.bc.getHeadBlock
    let (bc, b) ← th.bc.addBlock { b with maxInd := 0, prevBlockSHA1 := head.finhash }
    if 5 < b.blockNumber then
      .error (.assertion .minedNumber)
    else
      return (⟨bc, .new, false, .head⟩, [.broadcastBlock b])
  else
    -- the next pass goes on from the magic that was tried last
    return ({ th with newBlock := b, point := .head }, [])

/-- One step of the thread. -/
inductive Step (SHA1 : Bytes → Digest) : Thread → Input × List Effect → Thread → Prop
  | idle {th : Thread} {env : RepairEnv} :
      th.point = .head →
      Step SHA1 th (.block none env, []) { th with point := th.afterBlock }
  | block {th th' : Thread} {b : Block} {env : RepairEnv} {docontinue : Bool}
      {effects : List Effect} :
      th.point = .head →
      th.handleBlock b env = .ok (th', docontinue, effects) →
      Step SHA1 th (.block (some b) env, effects)
        { th' with point := if docontinue then .head else th'.afterBlock }
  | transaction {th th' : Thread} {t : Transaction} {effects : List Effect} :
      th.point = .pop →
      th.takeTransaction t = .ok (th', effects) →
      Step SHA1 th (.transaction t, effects) th'
  | mine {th th' : Thread} {effects : List Effect} :
      th.point = .mine →
      th.mine SHA1 = .ok (th', effects) →
      Step SHA1 th (.mine, effects) th'

end Thread

/-- The processing thread from the constructed blockchain, with any inputs. -/
def processingThread (SHA1 : Bytes → Digest) (tail : GenesisTail) :
    TransitionSystem Thread (Input × List Effect) where
  init th := th = .initial tail
  step := Thread.Step SHA1

/-! ## What a mined block is -/

namespace Block

/-- The final hash is the hash of the Merkle root over the block's own
transactions, followed by its magic. -/
def HashMatches (SHA1 : Bytes → Digest) (b : Block) : Prop :=
  ∃ b' root, b.calculateMerkleRoot SHA1 = .ok (b', root) ∧
    b.finhash = (SHA1 (root.bytes ++ magicBytes b.magic)).ptr

/-- The final hash meets the mining target. -/
def MeetsTarget (b : Block) : Prop :=
  ∃ lz, leadingZeros b.finhash publicKeySize = .ok lz ∧ numLeadingZeros ≤ lz

theorem hashMatches_iff {SHA1 : Bytes → Digest} {b : Block} :
    b.HashMatches SHA1 ↔ ∃ data, b.leafData = .ok data ∧
      b.finhash = (SHA1 ((uniformRoot SHA1 data).bytes ++ magicBytes b.magic)).ptr := by
  unfold HashMatches
  rw [calculateMerkleRoot_eq]
  simp only [Except.map_eq_ok, Prod.mk.injEq]
  constructor
  · intro h
    rcases h with ⟨b', root, ⟨data, hdata, -, rfl⟩, hfin⟩
    exact ⟨data, hdata, hfin⟩
  · intro h
    rcases h with ⟨data, hdata, hfin⟩
    exact ⟨_, _, ⟨data, hdata, rfl, rfl⟩, hfin⟩

end Block

namespace Thread

/-- The mining loop changes the magic and the hashes only, and a success is a
block that hashes to its final hash and meets the target. -/
theorem mineLoop_spec {SHA1 : Bytes → Digest} {tries : Nat} {b b' : Block} {found : Bool}
    (h : mineLoop SHA1 tries b = .ok (b', found)) :
    (∃ magic merkleRoot finhash,
      b' = { b with magic := magic, merkleRoot := merkleRoot, finhash := finhash }) ∧
    (found = true → b'.HashMatches SHA1 ∧ b'.MeetsTarget) := by
  induction tries generalizing b with
  | zero =>
      obtain ⟨rfl, rfl⟩ := Prod.mk.inj (Except.ok.inj h)
      exact ⟨⟨_, _, _, rfl⟩, by simp⟩
  | succ tries ih =>
      rw [mineLoop] at h
      obtain ⟨b₁, hcalc, h⟩ := Except.bind_eq_ok.1 h
      obtain ⟨data, hdata, -, rfl⟩ := (Block.calculateFinhash_eq_ok SHA1).1 hcalc
      obtain ⟨lz, hlz, h⟩ := Except.bind_eq_ok.1 h
      split at h
      · rename_i htarget
        obtain ⟨rfl, rfl⟩ := Prod.mk.inj (Except.pure_eq_ok.1 h)
        refine ⟨⟨_, _, _, rfl⟩, fun _ => ⟨?_, lz, hlz, htarget⟩⟩
        exact Block.hashMatches_iff.2 ⟨data, hdata, rfl⟩
      · obtain ⟨⟨magic, root, fin, rfl⟩, hfound⟩ := ih h
        exact ⟨⟨_, _, _, rfl⟩, hfound⟩

/-! ## What a step can do

The constructors name every way in which a step can change the state. Later
invariants are proved by cases on them, never by unfolding the step. -/

/-- The chain after a block was added. -/
def appended (bc : Blockchain) (b : Block) : Blockchain :=
  ⟨Blockchain.numbered b (bc.chainLength + 1) :: bc.blocks, bc.chainLength + 1,
    bc.voted ∪ b.senders.toFinset⟩

/-- The block that mining adds, made from the working block `w` whose hash was
found on top of `head`. -/
def minedBlock (w head : Block) : Block := { w with maxInd := 0, prevBlockSHA1 := head.finhash }

theorem addBlock_of_populated (bc : Blockchain) {b : Block} (h : b.Populated) :
    bc.addBlock b = .ok (appended bc b, Blockchain.numbered b (bc.chainLength + 1)) :=
  Blockchain.addBlock_eq_ok.2 ⟨h, rfl, rfl⟩

/-- A block that is judged OK meets the assertion on its number, and then the
working block starts over. -/
theorem handleBlock_of_ok {th : Thread} {b : Block} (env : RepairEnv)
    (hcheck : th.bc.checkBlockValidity b = .ok .ok) :
    th.handleBlock b env =
      if 5 < UInt32.ofNat (th.bc.chainLength + 1) then .error (.assertion .acceptedNumber)
      else ({ th with bc := appended th.bc b } : Thread).reset >>= fun r =>
        .ok (r.1, false,
          .broadcastBlock (Blockchain.numbered b (th.bc.chainLength + 1)) :: r.2.map .push) := by
  obtain ⟨-, -, -, hpop, -⟩ := Blockchain.checkBlockValidity_eq_ok.1 hcheck
  unfold handleBlock
  rw [hcheck, Except.ok_bind, addBlock_of_populated th.bc hpop]
  rfl

/-- A working block whose hash was found meets the assertion on its number. -/
theorem mine_of_found {SHA1 : Bytes → Digest} {th : Thread} {w head : Block}
    (hloop : mineLoop SHA1 numMagicToTry th.newBlock = .ok (w, true))
    (hhead : th.bc.getHeadBlock = .ok head) (hpop : w.Populated) :
    th.mine SHA1 =
      if 5 < UInt32.ofNat (th.bc.chainLength + 1) then .error (.assertion .minedNumber)
      else .ok (⟨appended th.bc (minedBlock w head), .new, false, .head⟩,
        [.broadcastBlock (Blockchain.numbered (minedBlock w head) (th.bc.chainLength + 1))]) := by
  have hadd : th.bc.addBlock { w with maxInd := 0, prevBlockSHA1 := head.finhash } =
      .ok (appended th.bc (minedBlock w head),
        Blockchain.numbered (minedBlock w head) (th.bc.chainLength + 1)) :=
    addBlock_of_populated th.bc hpop
  unfold Thread.mine
  rw [hloop, Except.ok_bind]
  dsimp only
  rw [if_pos rfl, hhead, Except.ok_bind, hadd]
  rfl

/-- What the chain stores of a mined block hashes as the working block did. -/
theorem hashMatches_minedBlock {SHA1 : Bytes → Digest} {w : Block} (h : w.HashMatches SHA1)
    (head : Block) (n : Nat) :
    (Blockchain.numbered (minedBlock w head) n).HashMatches SHA1 := by
  rw [Block.hashMatches_iff] at h ⊢
  exact h

inductive Change (SHA1 : Bytes → Digest) (th : Thread) : Input × List Effect → Thread → Prop
  /-- no block was waiting -/
  | idle {env : RepairEnv} :
      th.point = .head → Change SHA1 th (.block none env, []) { th with point := th.afterBlock }
  /-- a block with known voters, or one that is not higher than the chain -/
  | ignored {b : Block} {env : RepairEnv} :
      th.point = .head →
      (th.bc.checkBlockValidity b = .ok .transactionInvalid ∨
        th.bc.checkBlockValidity b = .ok .prevBlockNonmatch ∧
          ∃ head, th.bc.getHeadBlock = .ok head ∧ b.blockNumber ≤ head.blockNumber) →
      Change SHA1 th (.block (some b) env, []) { th with point := .head }
  /-- a block was accepted -/
  | accepted {b : Block} {env : RepairEnv} {ts : List Transaction} :
      th.point = .head →
      th.bc.checkBlockValidity b = .ok .ok →
      UInt32.ofNat (th.bc.chainLength + 1) ≤ 5 →
      th.newBlock.entries th.newBlock.maxInd.toNat = .ok ts →
      Change SHA1 th
        (.block (some b) env,
          .broadcastBlock (Blockchain.numbered b (th.bc.chainLength + 1)) :: ts.map .push)
        ⟨appended th.bc b, .new, false, .pop⟩
  /-- a known block with a higher number truncated the chain -/
  | repaired {b head : Block} {env : RepairEnv} {it : Nat} {ts : List Transaction} :
      th.point = .head →
      th.bc.checkBlockValidity b = .ok .prevBlockNonmatch →
      th.bc.getHeadBlock = .ok head →
      head.blockNumber < b.blockNumber →
      b.blockNumber ≤ 5 →
      th.bc.checkIfBlockInChain b = .ok (some it) →
      (∀ c ∈ th.bc.blocks.take it, c.Removable) →
      th.newBlock.entries th.newBlock.maxInd.toNat = .ok ts →
      Change SHA1 th
        (.block (some b) env,
          ((th.bc.blocks.take it).flatMap (·.requeued)).map .push ++
            .broadcastBlock b :: ts.map .push)
        ⟨th.bc.truncated it, .new, false, .pop⟩
  /-- a transaction of a known voter was thrown out -/
  | discarded {t : Transaction} {ts : List Transaction} :
      th.point = .pop →
      (t.senderPublicKey ∈ th.bc.voted ∨
        th.newBlock.entries th.newBlock.maxInd.toNat = .ok ts ∧
          t.senderPublicKey ∈ ts.map (·.senderPublicKey)) →
      Change SHA1 th (.transaction t, []) { th with point := .head }
  /-- a transaction was added to the working block -/
  | taken {t : Transaction} {ts : List Transaction} {b : Block} :
      th.point = .pop →
      t.senderPublicKey ∉ th.bc.voted →
      th.newBlock.entries th.newBlock.maxInd.toNat = .ok ts →
      t.senderPublicKey ∉ ts.map (·.senderPublicKey) →
      th.newBlock.setEntry th.newBlock.maxInd t = .ok b →
      Change SHA1 th (.transaction t, [.broadcastTransaction t])
        { th with
          newBlock := { b with maxInd := b.maxInd + 1 }
          quotafull := th.quotafull || b.maxInd + 1 = (numTransactionsPerBlock : Int)
          point :=
            if th.quotafull || b.maxInd + 1 = (numTransactionsPerBlock : Int) then .mine
            else .head }
  /-- no magic was found -/
  | missed {magic : UInt64} {merkleRoot finhash : CharPtr} :
      th.point = .mine →
      Change SHA1 th (.mine, [])
        { th with
          newBlock :=
            { th.newBlock with magic := magic, merkleRoot := merkleRoot, finhash := finhash }
          point := .head }
  /-- a magic was found, and the working block was added -/
  | mined {w head : Block} :
      th.point = .mine →
      mineLoop SHA1 numMagicToTry th.newBlock = .ok (w, true) →
      th.bc.getHeadBlock = .ok head →
      w.Populated →
      UInt32.ofNat (th.bc.chainLength + 1) ≤ 5 →
      Change SHA1 th
        (.mine,
          [.broadcastBlock (Blockchain.numbered (minedBlock w head) (th.bc.chainLength + 1))])
        ⟨appended th.bc (minedBlock w head), .new, false, .head⟩

theorem reset_eq_ok {th th' : Thread} {ts : List Transaction} :
    th.reset = .ok (th', ts) ↔ th.newBlock.entries th.newBlock.maxInd.toNat = .ok ts ∧
      th' = { th with quotafull := false, newBlock := .new } := by
  unfold reset
  rw [Except.bind_eq_ok]
  simp only [Except.pure_eq_ok, Prod.mk.injEq]
  constructor
  · intro h
    rcases h with ⟨ts, hts, rfl, rfl⟩
    exact ⟨hts, rfl⟩
  · intro h
    rcases h with ⟨hts, rfl⟩
    exact ⟨ts, hts, rfl, rfl⟩

theorem Step.change_block {SHA1 : Bytes → Digest} {th th' : Thread} {b : Block} {env : RepairEnv}
    {docontinue : Bool} {effects : List Effect} (hpoint : th.point = .head)
    (h : th.handleBlock b env = .ok (th', docontinue, effects)) :
    Change SHA1 th (.block (some b) env, effects)
      { th' with point := if docontinue then .head else th'.afterBlock } := by
  unfold handleBlock at h
  obtain ⟨code, hcode, h⟩ := Except.bind_eq_ok.1 h
  cases code with
  | ok =>
      obtain ⟨⟨bc, b'⟩, hadd, h⟩ := Except.bind_eq_ok.1 h
      obtain ⟨-, rfl, rfl⟩ := Blockchain.addBlock_eq_ok.1 hadd
      dsimp only at h
      split at h
      · cases h
      rename_i hnumber
      obtain ⟨⟨th₁, ts⟩, hreset, h⟩ := Except.bind_eq_ok.1 h
      obtain ⟨hts, rfl⟩ := reset_eq_ok.1 hreset
      cases h
      exact .accepted hpoint hcode (UInt32.not_lt.1 hnumber) hts
  | prevBlockNonmatch =>
      obtain ⟨head, hhead, h⟩ := Except.bind_eq_ok.1 h
      split at h
      · rename_i hhigher
        split at h
        · cases h
        rename_i hnumber
        obtain ⟨⟨repaired, bc, pushed⟩, hrepair, h⟩ := Except.bind_eq_ok.1 h
        obtain ⟨-, it, hfound, hrem, rfl, rfl, rfl⟩ := Blockchain.repairBlockchain_eq_ok.1 hrepair
        dsimp only at h
        rw [if_pos rfl] at h
        obtain ⟨⟨th₁, ts⟩, hreset, h⟩ := Except.bind_eq_ok.1 h
        obtain ⟨hts, rfl⟩ := reset_eq_ok.1 hreset
        cases h
        exact .repaired hpoint hcode hhead hhigher (UInt32.not_lt.1 hnumber) hfound hrem hts
      · rename_i hhigher
        cases h
        exact .ignored hpoint (.inr ⟨hcode, head, hhead, UInt32.not_lt.1 hhigher⟩)
  | transactionInvalid =>
      cases h
      exact .ignored hpoint (.inl hcode)

theorem Step.change_transaction {SHA1 : Bytes → Digest} {th th' : Thread} {t : Transaction}
    {effects : List Effect} (hpoint : th.point = .pop)
    (h : th.takeTransaction t = .ok (th', effects)) :
    Change SHA1 th (.transaction t, effects) th' := by
  unfold takeTransaction at h
  split at h
  · rename_i hvoted
    cases h
    exact @Change.discarded SHA1 th t [] hpoint (.inl hvoted)
  · rename_i hvoted
    obtain ⟨ts, hts, h⟩ := Except.bind_eq_ok.1 h
    split at h
    · rename_i hmem
      cases h
      exact .discarded hpoint (.inr ⟨hts, hmem⟩)
    · rename_i hmem
      obtain ⟨b, hb, h⟩ := Except.bind_eq_ok.1 h
      cases h
      exact .taken hpoint hvoted hts hmem hb

theorem Step.change_mine {SHA1 : Bytes → Digest} {th th' : Thread} {effects : List Effect}
    (hpoint : th.point = .mine) (h : th.mine SHA1 = .ok (th', effects)) :
    Change SHA1 th (.mine, effects) th' := by
  unfold Thread.mine at h
  obtain ⟨⟨w, found⟩, hloop, h⟩ := Except.bind_eq_ok.1 h
  cases found with
  | false =>
      cases h
      obtain ⟨⟨magic, root, fin, rfl⟩, -⟩ := mineLoop_spec hloop
      exact .missed hpoint
  | true =>
      obtain ⟨head, hhead, h⟩ := Except.bind_eq_ok.1 h
      obtain ⟨⟨bc, b'⟩, hadd, h⟩ := Except.bind_eq_ok.1 h
      obtain ⟨hpop, rfl, rfl⟩ := Blockchain.addBlock_eq_ok.1 hadd
      dsimp only at h
      split at h
      · cases h
      rename_i hnumber
      cases h
      exact .mined hpoint hloop hhead hpop (UInt32.not_lt.1 hnumber)

theorem Step.change {SHA1 : Bytes → Digest} {th th' : Thread} {i : Input × List Effect}
    (h : Step SHA1 th i th') : Change SHA1 th i th' := by
  cases h with
  | idle hpoint => exact .idle hpoint
  | block hpoint hhandle => exact Step.change_block hpoint hhandle
  | transaction hpoint htake => exact Step.change_transaction hpoint htake
  | mine hpoint hmine => exact Step.change_mine hpoint hmine

/-- A block that the thread ignores is not judged OK. -/
theorem not_ok_of_ignored {th : Thread} {b : Block}
    (h : th.bc.checkBlockValidity b = .ok .transactionInvalid ∨
      th.bc.checkBlockValidity b = .ok .prevBlockNonmatch ∧
        ∃ head, th.bc.getHeadBlock = .ok head ∧ b.blockNumber ≤ head.blockNumber) :
    th.bc.checkBlockValidity b ≠ .ok .ok := by
  intro hok
  rcases h with hinvalid | ⟨hnonmatch, -⟩
  · cases hok.symm.trans hinvalid
  · cases hok.symm.trans hnonmatch

/-- The genesis block stays at the bottom. -/
theorem Change.getLast?_blocks {SHA1 : Bytes → Digest} {th th' : Thread} {i : Input × List Effect}
    {g : Block} (hs : Change SHA1 th i th') (h : th.bc.blocks.getLast? = some g) :
    th'.bc.blocks.getLast? = some g := by
  have happended : ∀ b, (appended th.bc b).blocks.getLast? = some g := by
    intro b
    unfold appended
    rw [List.getLast?_cons, h]
    rfl
  cases hs with
  | accepted => exact happended _
  | repaired _ _ _ _ _ hfound =>
      rwa [Blockchain.getLast?_truncated (Blockchain.lt_of_checkIfBlockInChain hfound)]
  | mined => exact happended _
  | _ => exact h

/-- A block that is judged OK is accepted while its number is at most 5. -/
theorem Step.of_accepted {SHA1 : Bytes → Digest} {th : Thread} {b : Block} {ts : List Transaction}
    (env : RepairEnv) (hpoint : th.point = .head) (hcheck : th.bc.checkBlockValidity b = .ok .ok)
    (hnumber : UInt32.ofNat (th.bc.chainLength + 1) ≤ 5)
    (hts : th.newBlock.entries th.newBlock.maxInd.toNat = .ok ts) :
    Step SHA1 th
      (.block (some b) env,
        .broadcastBlock (Blockchain.numbered b (th.bc.chainLength + 1)) :: ts.map .push)
      ⟨appended th.bc b, .new, false, .pop⟩ := by
  have hreset : ({ th with bc := appended th.bc b } : Thread).reset =
      .ok (⟨appended th.bc b, .new, false, th.point⟩, ts) := reset_eq_ok.2 ⟨hts, rfl⟩
  have hhandle : th.handleBlock b env =
      .ok (⟨appended th.bc b, .new, false, th.point⟩, false,
        .broadcastBlock (Blockchain.numbered b (th.bc.chainLength + 1)) :: ts.map .push) := by
    rw [handleBlock_of_ok env hcheck, if_neg (UInt32.not_lt.2 hnumber), hreset]
    rfl
  exact .block hpoint hhandle

/-- A known block that claims a higher number, at most 5, makes a repair return. -/
theorem handleBlock_of_repaired {th : Thread} {b head : Block} {it : Nat} {ts : List Transaction}
    (env : RepairEnv) (hfuel : 0 < env.fuel)
    (hcheck : th.bc.checkBlockValidity b = .ok .prevBlockNonmatch)
    (hhead : th.bc.getHeadBlock = .ok head) (hhigher : head.blockNumber < b.blockNumber)
    (hnumber : b.blockNumber ≤ 5) (hfound : th.bc.checkIfBlockInChain b = .ok (some it))
    (hrem : ∀ c ∈ th.bc.blocks.take it, c.Removable)
    (hts : th.newBlock.entries th.newBlock.maxInd.toNat = .ok ts) :
    th.handleBlock b env =
      .ok (⟨th.bc.truncated it, .new, false, th.point⟩, false,
        ((th.bc.blocks.take it).flatMap (·.requeued)).map .push ++
          .broadcastBlock b :: ts.map .push) := by
  have hrepair : th.bc.repairBlockchain b env =
      .ok (true, th.bc.truncated it, (th.bc.blocks.take it).flatMap (·.requeued)) :=
    Blockchain.repairBlockchain_eq_ok.2 ⟨hfuel, it, hfound, hrem, rfl, rfl, rfl⟩
  have hreset : ({ th with bc := th.bc.truncated it } : Thread).reset =
      .ok (⟨th.bc.truncated it, .new, false, th.point⟩, ts) := reset_eq_ok.2 ⟨hts, rfl⟩
  unfold handleBlock
  rw [hcheck, Except.ok_bind]
  dsimp only
  rw [hhead, Except.ok_bind, if_pos hhigher, if_neg (UInt32.not_lt.2 hnumber), hrepair,
    Except.ok_bind]
  dsimp only
  rw [if_pos rfl, hreset]
  rfl

theorem Step.of_repaired {SHA1 : Bytes → Digest} {th : Thread} {b head : Block} {it : Nat}
    {ts : List Transaction} (env : RepairEnv) (hfuel : 0 < env.fuel) (hpoint : th.point = .head)
    (hcheck : th.bc.checkBlockValidity b = .ok .prevBlockNonmatch)
    (hhead : th.bc.getHeadBlock = .ok head) (hhigher : head.blockNumber < b.blockNumber)
    (hnumber : b.blockNumber ≤ 5) (hfound : th.bc.checkIfBlockInChain b = .ok (some it))
    (hrem : ∀ c ∈ th.bc.blocks.take it, c.Removable)
    (hts : th.newBlock.entries th.newBlock.maxInd.toNat = .ok ts) :
    Step SHA1 th
      (.block (some b) env,
        ((th.bc.blocks.take it).flatMap (·.requeued)).map .push ++
          .broadcastBlock b :: ts.map .push)
      ⟨th.bc.truncated it, .new, false, .pop⟩ :=
  .block hpoint (handleBlock_of_repaired env hfuel hcheck hhead hhigher hnumber hfound hrem hts)

/-- A first magic that meets the target ends the mining loop. -/
theorem mineLoop_first {SHA1 : Bytes → Digest} {b : Block} {data : Bytes} {lz : Int32}
    (tries : Nat) (hdata : b.leafData = .ok data)
    (hbyte : (Block.uniformRoot SHA1 data).bytes[0]? ≠ some 0)
    (hlz : leadingZeros (SHA1 ((Block.uniformRoot SHA1 data).bytes ++
      Block.magicBytes (b.magic + 1))).ptr publicKeySize = .ok lz)
    (htarget : numLeadingZeros ≤ lz) :
    mineLoop SHA1 (tries + 1) b = .ok ({ b with
      magic := b.magic + 1
      merkleRoot := (Block.uniformRoot SHA1 data).ptr
      finhash := (SHA1 ((Block.uniformRoot SHA1 data).bytes ++
        Block.magicBytes (b.magic + 1))).ptr }, true) := by
  have hcalc := (@Block.calculateFinhash_eq_ok SHA1 { b with magic := b.magic + 1 } _).2
    ⟨data, hdata, hbyte, rfl⟩
  rw [mineLoop, hcalc, Except.ok_bind]
  dsimp only
  rw [hlz, Except.ok_bind, if_pos htarget]
  rfl

/-- A successful mining loop adds the working block while its number is at most 5. -/
theorem Step.of_mined {SHA1 : Bytes → Digest} {th : Thread} {w head : Block}
    (hpoint : th.point = .mine) (hloop : mineLoop SHA1 numMagicToTry th.newBlock = .ok (w, true))
    (hhead : th.bc.getHeadBlock = .ok head) (hpop : w.Populated)
    (hnumber : UInt32.ofNat (th.bc.chainLength + 1) ≤ 5) :
    Step SHA1 th
      (.mine, [.broadcastBlock (Blockchain.numbered (minedBlock w head) (th.bc.chainLength + 1))])
      ⟨appended th.bc (minedBlock w head), .new, false, .head⟩ := by
  apply Step.mine hpoint
  rw [mine_of_found hloop hhead hpop, if_neg (UInt32.not_lt.2 hnumber)]

/-! ## The first block

A run of one step, from the constructed blockchain, that accepts a block. -/

def firstAccepted (tail : GenesisTail) (b : Block) : Thread :=
  ⟨appended (.new tail) b, .new, false, .pop⟩

def firstMove (tail : GenesisTail) (b : Block) (env : RepairEnv) :
    TransitionSystem.Move Thread (Input × List Effect) :=
  ⟨.initial tail, (.block (some b) env, [.broadcastBlock (Blockchain.numbered b 2)]),
    firstAccepted tail b⟩

theorem run_firstAccepted (SHA1 : Bytes → Digest) {tail : GenesisTail} {b : Block} (env : RepairEnv)
    (hcheck : (Blockchain.new tail).checkBlockValidity b = .ok .ok) :
    (processingThread SHA1 tail).Run (.initial tail) [firstMove tail b env]
      (firstAccepted tail b) := by
  have hstep : Step SHA1 (.initial tail) (firstMove tail b env).label (firstAccepted tail b) :=
    @Step.of_accepted SHA1 (.initial tail) b [] env rfl hcheck (show UInt32.ofNat 2 ≤ 5 by decide)
      rfl
  exact TransitionSystem.Run.cons hstep .nil

theorem run_sampleFirst :
    (processingThread Block.sampleSHA1 Blockchain.sampleTail).Run (.initial Blockchain.sampleTail)
      [firstMove Blockchain.sampleTail Blockchain.sampleFirst .alone]
      (firstAccepted Blockchain.sampleTail Blockchain.sampleFirst) :=
  run_firstAccepted Block.sampleSHA1 .alone (by decide)

theorem reachable_firstAccepted (SHA1 : Bytes → Digest) {tail : GenesisTail} {b : Block}
    (hcheck : (Blockchain.new tail).checkBlockValidity b = .ok .ok) :
    (processingThread SHA1 tail).Reachable (firstAccepted tail b) :=
  ⟨_, _, rfl, run_firstAccepted SHA1 .alone hcheck⟩

end Thread

end OneVote
