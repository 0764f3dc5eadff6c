-- SUMMARY: The messages of the wire protocol and the translation of blocks and transactions to and from them.
import OneVote.Block

/-!
# Encoding

The protobuf accessors return what was set, so a message is the record of its
fields. `c_str()` of a field is the bytes of the field and a NUL.
-/

namespace OneVote

structure TransactionMsg where
  senderPublicKey : Bytes
  vote : Bytes
  timestamp : UInt64
  deriving DecidableEq

structure BlockMsg where
  blockNumber : UInt32
  prevBlockSHA1 : Bytes
  magic : Int64
  merkleRoot : Bytes
  transactionMsg : List TransactionMsg
  numTransactions : UInt32
  verifierPublicKey : Bytes
  finalHash : Bytes
  deriving DecidableEq

/-- `decode_transaction` -/
def decodeTransaction (m : TransactionMsg) : Transaction :=
  ⟨m.senderPublicKey, m.vote, m.timestamp⟩

/-- `encode_transaction` -/
def encodeTransaction (t : Transaction) : TransactionMsg := ⟨t.senderPublicKey, t.vote, t.timestamp⟩

/-- The loop of `decode_block` from entry `i` on. -/
def decodeEntries (b : Block) (i : Int) : List TransactionMsg → Exec Block
  | [] => .ok b
  | m :: rest => do
      let b ← b.setEntry i (decodeTransaction m)
      decodeEntries b (i + 1) rest

/-- `decode_block`. The pointers of the block lead into the message. -/
def decodeBlock (m : BlockMsg) : Exec Block :=
  decodeEntries
    { Block.new with
      blockNumber := m.blockNumber
      prevBlockSHA1 := CharPtr.ofString m.prevBlockSHA1
      magic := m.magic.toUInt64
      merkleRoot := CharPtr.ofString m.merkleRoot
      maxInd := m.numTransactions.toInt32.toInt
      verifierPublicKey := CharPtr.ofString m.verifierPublicKey
      finhash := CharPtr.ofString m.finalHash }
    0 m.transactionMsg

/-- A decoded block whose message is gone, as it is once the handler has returned.
The transactions were copied. -/
def Block.released (b : Block) : Block :=
  { b with
    prevBlockSHA1 := b.prevBlockSHA1.released
    merkleRoot := b.merkleRoot.released
    verifierPublicKey := b.verifierPublicKey.released
    finhash := b.finhash.released }

/-- `encode_block` -/
def encodeBlock (b : Block) : Exec BlockMsg := do
  let prevBlockSHA1 ← b.prevBlockSHA1.read publicKeySize
  let merkleRoot ← b.merkleRoot.read publicKeySize
  let verifierPublicKey ← b.verifierPublicKey.cString
  let finalHash ← b.finhash.read publicKeySize
  let ts ← b.entries b.maxInd.toNat
  return {
    blockNumber := b.blockNumber
    prevBlockSHA1 := prevBlockSHA1
    magic := b.magic.toInt64
    merkleRoot := merkleRoot
    transactionMsg := ts.map encodeTransaction
    numTransactions := UInt32.ofInt b.maxInd
    verifierPublicKey := verifierPublicKey
    finalHash := finalHash }

/-- What is read of the block, and the message it goes to. -/
theorem encodeBlock_eq_ok {b : Block} {m : BlockMsg} :
    encodeBlock b = .ok m ↔ b.prevBlockSHA1.read publicKeySize = .ok m.prevBlockSHA1 ∧
      b.merkleRoot.read publicKeySize = .ok m.merkleRoot ∧
      b.verifierPublicKey.cString = .ok m.verifierPublicKey ∧
      b.finhash.read publicKeySize = .ok m.finalHash ∧
      (∃ ts, b.entries b.maxInd.toNat = .ok ts ∧ m.transactionMsg = ts.map encodeTransaction) ∧
      m.blockNumber = b.blockNumber ∧ m.magic = b.magic.toInt64 ∧
      m.numTransactions = UInt32.ofInt b.maxInd := by
  simp only [encodeBlock, Except.bind_eq_ok, Except.pure_eq_ok]
  constructor
  · rintro ⟨prev, hprev, root, hroot, verifier, hverifier, hash, hhash, ts, hts, rfl⟩
    exact ⟨hprev, hroot, hverifier, hhash, ⟨ts, hts, rfl⟩, rfl, rfl, rfl⟩
  · rintro ⟨hprev, hroot, hverifier, hhash, ⟨ts, hts, hmsg⟩, hnumber, hmagic, hcount⟩
    refine ⟨_, hprev, _, hroot, _, hverifier, _, hhash, ts, hts, ?_⟩
    rw [← hmsg, ← hnumber, ← hmagic, ← hcount]

theorem encodeBlock_released (b : Block) : encodeBlock b.released = .error .outOfRange := by
  unfold encodeBlock Block.released
  dsimp only
  rw [CharPtr.read_released _ (by decide)]
  rfl

/-- The message of a sample block. -/
def BlockMsg.sample (id : UInt8) (prev hash : Bytes) (number : UInt32) : BlockMsg where
  blockNumber := number
  prevBlockSHA1 := prev
  magic := 1
  merkleRoot := List.replicate shaDigestLength 7
  transactionMsg := (Block.sample id prev hash number).votes.map encodeTransaction
  numTransactions := 8
  verifierPublicKey := [97]
  finalHash := hash

/-! ## Blocks sent without transactions -/

/-- A message without transactions, as `encode_block` makes it of a block with
`max_ind` 0. -/
def BlockMsg.IsEmpty (m : BlockMsg) : Prop := m.transactionMsg = [] ∧ m.numTransactions = 0

theorem encodeBlock_isEmpty {b : Block} {m : BlockMsg} (h : encodeBlock b = .ok m)
    (hmax : b.maxInd = 0) : m.IsEmpty := by
  obtain ⟨-, -, -, -, ⟨ts, hts, hmsg⟩, -, -, hcount⟩ := encodeBlock_eq_ok.1 h
  rw [hmax] at hts hcount
  obtain rfl : [] = ts := Except.ok.inj hts
  exact ⟨hmsg, hcount⟩

theorem BlockMsg.IsEmpty.decoded {m : BlockMsg} (h : m.IsEmpty) {b : Block}
    (hb : decodeBlock m = .ok b) : b.maxInd = 0 ∧ b.votes = [] ∧ ¬ b.Populated := by
  rw [decodeBlock, h.1, decodeEntries] at hb
  obtain rfl := Except.ok.inj hb
  refine ⟨?_, rfl, Block.not_populated_new⟩
  rw [h.2]
  rfl

end OneVote
