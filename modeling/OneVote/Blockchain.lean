-- SUMMARY: The blockchain of one miner: validation, appending, lookup by hash, and removal of the newest blocks.
import OneVote.Base.Tally
import OneVote.Block

/-!
# Blockchain

`blocks_` is a list with the newest block first. A pointer into it is the block
it points to; the only field of a block in the chain that is ever written is
`block_number`, by the `add_block` that puts the block there.
-/

namespace OneVote

inductive BlockValidityCode
  | ok
  | prevBlockNonmatch
  | transactionInvalid
  deriving DecidableEq, Repr

structure Blockchain where
  /-- newest first -/
  blocks : List Block
  chainLength : Nat
  voted : Finset Bytes

/-- What the memory holds from the end of the text `STARTINGBLOCK` to the 20
bytes that are compared: two bytes of the 15-byte buffer that nothing writes,
and the five bytes behind the buffer. -/
abbrev GenesisTail := Vector UInt8 7

namespace Blockchain

/-- `STARTINGBLOCK` -/
def startingBlock : Bytes := [83, 84, 65, 82, 84, 73, 78, 71, 66, 76, 79, 67, 75]

def genesis (tail : GenesisTail) : Block :=
  { Block.new with blockNumber := 1, finhash := some (startingBlock ++ tail.toList) }

/-- The constructor. -/
def new (tail : GenesisTail) : Blockchain := ⟨[genesis tail], 1, ∅⟩

/-- The blocks above the genesis block. -/
def nonGenesis (bc : Blockchain) : List Block := bc.blocks.dropLast

/-! ## Operations -/

/-- The loop of `verify_transactions` over the entries that remain. -/
def verifyEntries (voted : Finset Bytes) : List (Option Transaction) → Exec Bool
  | [] => .ok true
  | none :: _ => .error .unassigned
  | some t :: rest =>
      if t.senderPublicKey ∈ voted then .ok false else verifyEntries voted rest

/-- `verify_transactions` -/
def verifyTransactions (bc : Blockchain) (b : Block) : Exec Bool :=
  verifyEntries bc.voted b.transactionArray.toList

/-- `get_head_block` -/
def getHeadBlock (bc : Blockchain) : Exec Block :=
  if bc.chainLength = 0 then .error (.assertion .emptyChain)
  else
    match bc.blocks with
    | [] => .error .outOfRange
    | b :: _ => .ok b

/-- `check_block_validity` -/
def checkBlockValidity (bc : Blockchain) (b : Block) : Exec BlockValidityCode := do
  let head ← bc.getHeadBlock
  if !(← sameHash b.prevBlockSHA1 head.finhash) then
    return .prevBlockNonmatch
  if !(← bc.verifyTransactions b) then
    return .transactionInvalid
  return .ok

/-- The position of the first block with the given hash. -/
def findHash (hash : CharPtr) : List Block → Exec (Option Nat)
  | [] => .ok none
  | c :: rest => do
      if ← sameHash c.finhash hash then return some 0
      else
        let it ← findHash hash rest
        return it.map (· + 1)

/-- `check_if_block_in_chain`: the iterator as a position, `none` for `end()`. -/
def checkIfBlockInChain (bc : Blockchain) (b : Block) : Exec (Option Nat) :=
  findHash b.finhash bc.blocks

/-- `get_block` by number: an `int`, which is compared as an `unsigned`. The
result `none` is `NULL`. -/
def getBlock (bc : Blockchain) (n : Int32) : Option Block :=
  bc.blocks.find? fun b => b.blockNumber = n.toUInt32

/-- The loop of `get_block` by hash. -/
def findBlock (hash : CharPtr) : List Block → Exec (Option Block)
  | [] => .ok none
  | c :: rest => do
      if ← sameHash c.finhash hash then return some c
      else findBlock hash rest

/-- `get_block` by hash. The result `none` is `NULL`. -/
def getBlockByHash (bc : Blockchain) (hash : CharPtr) : Exec (Option Block) :=
  findBlock hash bc.blocks

/-- `remove_transactions_from_set` -/
def removeTransactionsFromSet (bc : Blockchain) (b : Block) : Exec Blockchain := do
  let ts ← b.entries numTransactionsPerBlock
  return { bc with voted := ts.foldl (fun voted t => voted.erase t.senderPublicKey) bc.voted }

/-- `add_transactions_to_set` -/
def addTransactionsToSet (bc : Blockchain) (b : Block) : Exec Blockchain := do
  let ts ← b.entries numTransactionsPerBlock
  return { bc with voted := ts.foldl (fun voted t => insert t.senderPublicKey voted) bc.voted }

/-- `add_transactions_to_queue`: the transactions it pushes, in order. -/
def addTransactionsToQueue (b : Block) : Exec (List Transaction) := b.entries b.maxInd.toNat

/-- `add_block`: the chain after it, and the block with its number set. -/
def addBlock (bc : Blockchain) (b : Block) : Exec (Blockchain × Block) := do
  let bc := { bc with chainLength := bc.chainLength + 1 }
  let bc ← bc.addTransactionsToSet b
  let b := { b with blockNumber := UInt32.ofNat bc.chainLength }
  return ({ bc with blocks := b :: bc.blocks }, b)

/-- The removal loop of `repair_blockchain` for an iterator at position `it`:
the chain without its first `it` blocks, and the transactions pushed. -/
def removeBlocks : Nat → Blockchain → Exec (Blockchain × List Transaction)
  | 0, bc => .ok (bc, [])
  | it + 1, bc =>
      match bc.blocks with
      | [] => .error .outOfRange
      | firstBlock :: rest => do
          -- the set loses all eight voters, the queue gets `max_ind` of them
          let bc ← bc.removeTransactionsFromSet firstBlock
          let pushed ← addTransactionsToQueue firstBlock
          let (bc, pushed') ← removeBlocks it { bc with blocks := rest }
          return (bc, pushed ++ pushed')

/-! ## What the operations return -/

theorem verifyEntries_eq_true {voted : Finset Bytes} {l : List (Option Transaction)} :
    verifyEntries voted l = .ok true ↔
      ∀ t? ∈ l, ∃ t, t? = some t ∧ t.senderPublicKey ∉ voted := by
  induction l with
  | nil => simp [verifyEntries]
  | cons t? rest ih =>
      cases t? with
      | none => simp [verifyEntries]
      | some t =>
          by_cases hmem : t.senderPublicKey ∈ voted
          · simp [verifyEntries, hmem]
          · simp [verifyEntries, hmem, ih]

theorem verifyTransactions_eq_true {bc : Blockchain} {b : Block} :
    bc.verifyTransactions b = .ok true ↔ b.Populated ∧ ∀ k ∈ b.senders, k ∉ bc.voted := by
  unfold verifyTransactions
  rw [verifyEntries_eq_true]
  constructor
  · intro h
    refine ⟨fun t? ht => ?_, fun k hk => ?_⟩
    · obtain ⟨t, rfl, -⟩ := h t? ht
      rfl
    · simp only [Block.senders, Block.votes, List.mem_map, List.mem_filterMap, id_eq] at hk
      obtain ⟨t, ⟨t?, ht, rfl⟩, rfl⟩ := hk
      obtain ⟨u, hu, hnot⟩ := h _ ht
      cases hu
      exact hnot
  · rintro ⟨hpop, hnot⟩ t? ht
    obtain ⟨t, rfl⟩ := Option.isSome_iff_exists.1 (hpop t? ht)
    refine ⟨t, rfl, hnot _ ?_⟩
    simp only [Block.senders, Block.votes, List.mem_map, List.mem_filterMap, id_eq]
    exact ⟨t, ⟨_, ht, rfl⟩, rfl⟩

theorem getHeadBlock_eq_ok {bc : Blockchain} {head : Block} :
    bc.getHeadBlock = .ok head ↔ bc.chainLength ≠ 0 ∧ bc.blocks.head? = some head := by
  unfold getHeadBlock
  by_cases h0 : bc.chainLength = 0
  · simp [h0]
  · cases hbs : bc.blocks <;> simp [h0]

theorem checkBlockValidity_eq_ok {bc : Blockchain} {b : Block} :
    bc.checkBlockValidity b = .ok .ok ↔
      ∃ head, bc.getHeadBlock = .ok head ∧ sameHash b.prevBlockSHA1 head.finhash = .ok true ∧
        b.Populated ∧ ∀ k ∈ b.senders, k ∉ bc.voted := by
  unfold checkBlockValidity
  rw [Except.bind_eq_ok, ← verifyTransactions_eq_true]
  refine exists_congr fun head => and_congr_right fun _ => ?_
  rw [Except.bind_eq_ok]
  constructor
  · intro h
    rcases h with ⟨same, hsame, hrest⟩
    cases same with
    | false => cases hrest
    | true =>
        obtain ⟨fresh, hfresh, hrest⟩ := Except.bind_eq_ok.1 hrest
        cases fresh with
        | false => cases hrest
        | true => exact ⟨hsame, hfresh⟩
  · intro h
    rcases h with ⟨hsame, hfresh⟩
    exact ⟨true, hsame, by simp [hfresh, Except.ok_bind]; rfl⟩

theorem checkBlockValidity_eq_nonmatch {bc : Blockchain} {b : Block} :
    bc.checkBlockValidity b = .ok .prevBlockNonmatch ↔
      ∃ head, bc.getHeadBlock = .ok head ∧ sameHash b.prevBlockSHA1 head.finhash = .ok false := by
  unfold checkBlockValidity
  rw [Except.bind_eq_ok]
  refine exists_congr fun head => and_congr_right fun _ => ?_
  rw [Except.bind_eq_ok]
  constructor
  · intro h
    rcases h with ⟨same, hsame, hrest⟩
    cases same with
    | false => exact hsame
    | true =>
        obtain ⟨fresh, -, hrest⟩ := Except.bind_eq_ok.1 hrest
        cases fresh <;> cases hrest
  · intro hsame
    exact ⟨false, hsame, rfl⟩

theorem findHash_eq_some {hash : CharPtr} {bs : List Block} {it : Nat}
    (h : findHash hash bs = .ok (some it)) :
    ∃ c, bs[it]? = some c ∧ sameHash c.finhash hash = .ok true := by
  induction bs generalizing it with
  | nil => simp [findHash] at h
  | cons c rest ih =>
      rw [findHash] at h
      obtain ⟨same, hsame, hrest⟩ := Except.bind_eq_ok.1 h
      cases same with
      | true =>
          obtain rfl : 0 = it := by simpa [Except.pure_eq_ok] using hrest
          exact ⟨c, rfl, hsame⟩
      | false =>
          simp only [Bool.false_eq_true, if_false] at hrest
          obtain ⟨it?, hit, hrest⟩ := Except.bind_eq_ok.1 hrest
          rw [Except.pure_eq_ok] at hrest
          cases it? with
          | none => cases hrest
          | some i =>
              obtain rfl : i + 1 = it := by simpa using hrest
              exact ih hit

theorem lt_of_checkIfBlockInChain {bc : Blockchain} {b : Block} {it : Nat}
    (h : bc.checkIfBlockInChain b = .ok (some it)) : it < bc.blocks.length := by
  obtain ⟨c, hc, -⟩ := findHash_eq_some h
  exact (List.getElem?_eq_some_iff.1 hc).1

theorem addTransactionsToSet_eq_ok {bc bc' : Blockchain} {b : Block} :
    bc.addTransactionsToSet b = .ok bc' ↔
      b.Populated ∧ bc' = { bc with voted := bc.voted ∪ b.senders.toFinset } := by
  unfold addTransactionsToSet
  rw [Except.bind_eq_ok]
  simp only [Except.pure_eq_ok, Tally.foldl_insert_eq, Block.entries_all]
  constructor
  · intro h
    rcases h with ⟨ts, ⟨hpop, rfl⟩, rfl⟩
    exact ⟨hpop, rfl⟩
  · intro h
    rcases h with ⟨hpop, rfl⟩
    exact ⟨_, ⟨hpop, rfl⟩, rfl⟩

theorem removeTransactionsFromSet_eq_ok {bc bc' : Blockchain} {b : Block} :
    bc.removeTransactionsFromSet b = .ok bc' ↔
      b.Populated ∧ bc' = { bc with voted := bc.voted \ b.senders.toFinset } := by
  unfold removeTransactionsFromSet
  rw [Except.bind_eq_ok]
  simp only [Except.pure_eq_ok, Tally.foldl_erase_eq, Block.entries_all]
  constructor
  · intro h
    rcases h with ⟨ts, ⟨hpop, rfl⟩, rfl⟩
    exact ⟨hpop, rfl⟩
  · intro h
    rcases h with ⟨hpop, rfl⟩
    exact ⟨_, ⟨hpop, rfl⟩, rfl⟩

/-- The block as `add_block` leaves it in a chain of the given length. -/
def numbered (b : Block) (n : Nat) : Block := { b with blockNumber := UInt32.ofNat n }

@[simp] theorem numbered_senders (b : Block) (n : Nat) : (numbered b n).senders = b.senders := rfl

theorem addBlock_eq_ok {bc bc' : Blockchain} {b b' : Block} :
    bc.addBlock b = .ok (bc', b') ↔
      b.Populated ∧ b' = numbered b (bc.chainLength + 1) ∧
        bc' = ⟨b' :: bc.blocks, bc.chainLength + 1, bc.voted ∪ b.senders.toFinset⟩ := by
  unfold addBlock
  rw [Except.bind_eq_ok]
  simp only [addTransactionsToSet_eq_ok, Except.pure_eq_ok, Prod.mk.injEq]
  constructor
  · intro h
    rcases h with ⟨bc₁, ⟨hpop, rfl⟩, rfl, rfl⟩
    exact ⟨hpop, rfl, rfl⟩
  · intro h
    rcases h with ⟨hpop, rfl, rfl⟩
    exact ⟨_, ⟨hpop, rfl⟩, rfl, rfl⟩

/-! ## How the operations fail -/

theorem raises_verifyTransactions (bc : Blockchain) (b : Block) :
    (bc.verifyTransactions b).Raises Stop.IsAccess := by
  unfold verifyTransactions
  induction b.transactionArray.toList with
  | nil => exact Except.raises_ok _ _
  | cons t? rest ih =>
      cases t? with
      | none => exact Except.raises_error trivial
      | some t =>
          rw [verifyEntries]
          split
          · exact Except.raises_ok _ _
          · exact ih

theorem raises_checkIfBlockInChain (bc : Blockchain) (b : Block) :
    (bc.checkIfBlockInChain b).Raises Stop.IsAccess := by
  unfold checkIfBlockInChain
  induction bc.blocks with
  | nil => exact Except.raises_ok _ _
  | cons c rest ih =>
      rw [findHash]
      refine (raises_sameHash c.finhash b.finhash).bind fun same _ => ?_
      split
      · exact Except.raises_ok _ _
      · exact ih.bind fun it _ => Except.raises_ok _ _

theorem raises_addTransactionsToSet (bc : Blockchain) (b : Block) :
    (bc.addTransactionsToSet b).Raises Stop.IsAccess :=
  (b.raises_entries _).bind fun _ _ => Except.raises_ok _ _

theorem raises_removeBlocks (it : Nat) (bc : Blockchain) :
    (removeBlocks it bc).Raises Stop.IsAccess := by
  induction it generalizing bc with
  | zero => exact Except.raises_ok _ _
  | succ it ih =>
      rw [removeBlocks]
      split
      · exact Except.raises_error trivial
      · rename_i first rest _
        refine ((first.raises_entries _).bind fun _ _ => Except.raises_ok _ _).bind fun bc₁ _ => ?_
        refine (first.raises_entries _).bind fun pushed _ => ?_
        exact (ih _).bind fun _ _ => Except.raises_ok _ _

end Blockchain

namespace Block

/-- The votes that `add_transactions_to_queue` hands back for a block. -/
def requeued (b : Block) : List Transaction := b.votes.take b.maxInd.toNat

/-- A block whose removal from the chain is defined: all entries assigned, and
no entry read past the eighth. -/
def Removable (b : Block) : Prop := b.Populated ∧ b.maxInd ≤ numTransactionsPerBlock

instance (b : Block) : Decidable b.Removable :=
  inferInstanceAs (Decidable (b.Populated ∧ b.maxInd ≤ numTransactionsPerBlock))

theorem Populated.addTransactionsToQueue_eq_ok {b : Block} (h : b.Populated)
    {ts : List Transaction} : Blockchain.addTransactionsToQueue b = .ok ts ↔
      b.maxInd ≤ numTransactionsPerBlock ∧ ts = b.requeued := by
  unfold Blockchain.addTransactionsToQueue
  constructor
  · intro hts
    obtain ⟨hlen, htake⟩ := entries_eq_ok.1 hts
    have hle : b.maxInd.toNat ≤ numTransactionsPerBlock := by
      have hlen' := congrArg List.length htake
      rw [List.length_take, length_transactionArray, List.length_map] at hlen'
      omega
    refine ⟨Int.toNat_le.1 hle, ?_⟩
    have hsame := hts.symm.trans (h.entries_take hle)
    exact Except.ok.inj hsame
  · rintro ⟨hle, rfl⟩
    exact h.entries_take (Int.toNat_le.2 hle)

end Block

namespace Blockchain

/-- The chain after its `it` newest blocks were removed. The counter stays. -/
def truncated (bc : Blockchain) (it : Nat) : Blockchain :=
  { bc with
    blocks := bc.blocks.drop it
    voted := bc.voted \ ((bc.blocks.take it).map (·.senders)).flatten.toFinset }

theorem getLast?_truncated {bc : Blockchain} {it : Nat} (h : it < bc.blocks.length) :
    (bc.truncated it).blocks.getLast? = bc.blocks.getLast? := by
  unfold truncated
  rw [List.getLast?_drop, if_neg (by omega)]

theorem removeBlocks_eq_ok {it : Nat} {bc bc' : Blockchain} {pushed : List Transaction} :
    removeBlocks it bc = .ok (bc', pushed) ↔
      it ≤ bc.blocks.length ∧ (∀ b ∈ bc.blocks.take it, b.Removable) ∧
        bc' = bc.truncated it ∧ pushed = (bc.blocks.take it).flatMap (·.requeued) := by
  induction it generalizing bc bc' pushed with
  | zero =>
      have hsame : bc.truncated 0 = bc := by simp [truncated]
      simp [removeBlocks, hsame, eq_comm]
  | succ it ih =>
      rw [removeBlocks]
      cases hbs : bc.blocks with
      | nil => simp
      | cons first rest =>
          simp only [Except.bind_eq_ok, removeTransactionsFromSet_eq_ok]
          constructor
          · intro h
            rcases h with ⟨bc₁, ⟨hpop, rfl⟩, ts, hts, ⟨bc₂, ts'⟩, hrest, hret⟩
            obtain ⟨hmax, rfl⟩ := hpop.addTransactionsToQueue_eq_ok.1 hts
            obtain ⟨hlen, hrem, rfl, rfl⟩ := ih.1 hrest
            obtain ⟨rfl, rfl⟩ := Prod.mk.inj (Except.pure_eq_ok.1 hret)
            refine ⟨Nat.succ_le_succ hlen, ?_, ?_, rfl⟩
            · intro b hb
              rcases List.mem_cons.1 hb with rfl | hb
              · exact ⟨hpop, hmax⟩
              · exact hrem b hb
            · simp [truncated, hbs, sdiff_sdiff_left]
          · intro h
            rcases h with ⟨hlen, hrem, rfl, rfl⟩
            obtain ⟨hpop, hmax⟩ : first.Removable := hrem first (by simp)
            refine ⟨_, ⟨hpop, rfl⟩, first.requeued,
              hpop.addTransactionsToQueue_eq_ok.2 ⟨hmax, rfl⟩, _,
              ih.2 ⟨Nat.le_of_succ_le_succ hlen, fun b hb => hrem b (by simp [hb]), rfl, rfl⟩, ?_⟩
            simp [truncated, hbs, sdiff_sdiff_left, Except.pure_eq_ok]

end Blockchain

end OneVote
