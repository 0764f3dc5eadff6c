-- SUMMARY: Blocks whose fields can all be read, the messages that decode to them, and chains that hold no others.
import OneVote.Encoding
import OneVote.Numbering

/-!
# Readable blocks

Reading a block needs eight assigned entries, a `max_ind` of at most 8, and 20
bytes behind each hash pointer. A block that a miner made itself has them; a
decoded block has them when the sizes in its message agree.
-/

namespace OneVote

/-! ## Reading hashes -/

theorem CharPtr.isHash_iff {p : CharPtr} : p.IsHash ↔ ∃ s, p.read publicKeySize = .ok s := by
  constructor
  · rintro ⟨bs, rfl, hlen⟩
    exact ⟨_, CharPtr.read_eq_ok.2 ⟨bs, rfl, hlen, rfl⟩⟩
  · rintro ⟨s, hs⟩
    obtain ⟨bs, rfl, hlen, -⟩ := CharPtr.read_eq_ok.1 hs
    exact ⟨bs, rfl, hlen⟩

/-- The NUL behind a string of 19 bytes is the 20th byte that can be read. -/
theorem CharPtr.isHash_ofString {s : Bytes} :
    (CharPtr.ofString s).IsHash ↔ publicKeySize ≤ s.length + 1 := by
  constructor
  · rintro ⟨bs, hbs, hlen⟩
    cases hbs
    simpa using hlen
  · intro hlen
    exact ⟨_, rfl, by simpa using hlen⟩

/-- Where the bytes can be read, the comparison is that of the first 20. -/
theorem sameHash_some {bs cs : Bytes} (hbs : publicKeySize ≤ bs.length)
    (hcs : publicKeySize ≤ cs.length) :
    sameHash (some bs) (some cs) =
      .ok (decide (bs.take publicKeySize = cs.take publicKeySize)) := by
  have hfrom : ∀ n i, i + n ≤ bs.length → i + n ≤ cs.length →
      sameHashFrom (some bs) (some cs) i n =
        .ok (decide ((bs.drop i).take n = (cs.drop i).take n)) := by
    intro n
    induction n with
    | zero => simp [sameHashFrom]
    | succ n ih =>
        intro i hib hic
        have hb : i < bs.length := by omega
        have hc : i < cs.length := by omega
        have hx : CharPtr.byte (some bs) i = .ok bs[i] :=
          CharPtr.byte_eq_ok.2 ⟨bs, rfl, List.getElem?_eq_getElem hb⟩
        have hy : CharPtr.byte (some cs) i = .ok cs[i] :=
          CharPtr.byte_eq_ok.2 ⟨cs, rfl, List.getElem?_eq_getElem hc⟩
        rw [sameHashFrom, hx, Except.ok_bind, hy, Except.ok_bind, ih (i + 1) (by omega) (by omega),
          List.drop_eq_getElem_cons hb, List.drop_eq_getElem_cons hc, List.take_succ_cons,
          List.take_succ_cons]
        by_cases hxy : bs[i] = cs[i]
        · simp [hxy]
        · rw [if_pos hxy]
          simp [hxy]
          rfl
  exact hfrom publicKeySize 0 (by omega) (by omega)

theorem exists_sameHash {a b : CharPtr} (ha : a.IsHash) (hb : b.IsHash) :
    ∃ same, sameHash a b = .ok same := by
  obtain ⟨bs, rfl, hbs⟩ := ha
  obtain ⟨cs, rfl, hcs⟩ := hb
  exact ⟨_, sameHash_some hbs hcs⟩

namespace Block

/-- What `encode_block` and the checks on a received block read can be read. -/
structure Readable (b : Block) : Prop where
  populated : b.Populated
  maxInd_le : b.maxInd ≤ numTransactionsPerBlock
  prevBlockSHA1 : b.prevBlockSHA1.IsHash
  merkleRoot : b.merkleRoot.IsHash
  verifierPublicKey : ∃ s, b.verifierPublicKey.cString = .ok s
  finhash : b.finhash.IsHash

theorem Readable.removable {b : Block} (h : b.Readable) : b.Removable := ⟨h.populated, h.maxInd_le⟩

/-- The number of a block is no pointer. -/
theorem readable_numbered {b : Block} {n : Nat} :
    (Blockchain.numbered b n).Readable ↔ b.Readable :=
  ⟨fun h => ⟨h.populated, h.maxInd_le, h.prevBlockSHA1, h.merkleRoot, h.verifierPublicKey,
      h.finhash⟩,
    fun h => ⟨h.populated, h.maxInd_le, h.prevBlockSHA1, h.merkleRoot, h.verifierPublicKey,
      h.finhash⟩⟩

theorem exists_encodeBlock {b : Block} (hprev : b.prevBlockSHA1.IsHash)
    (hroot : b.merkleRoot.IsHash) (hverifier : ∃ s, b.verifierPublicKey.cString = .ok s)
    (hhash : b.finhash.IsHash) (hts : ∃ ts, b.entries b.maxInd.toNat = .ok ts) :
    ∃ m, encodeBlock b = .ok m := by
  obtain ⟨prev, hprev⟩ := CharPtr.isHash_iff.1 hprev
  obtain ⟨root, hroot⟩ := CharPtr.isHash_iff.1 hroot
  obtain ⟨verifier, hverifier⟩ := hverifier
  obtain ⟨hash, hhash⟩ := CharPtr.isHash_iff.1 hhash
  obtain ⟨ts, hts⟩ := hts
  exact ⟨⟨b.blockNumber, prev, b.magic.toInt64, root, ts.map encodeTransaction,
    UInt32.ofInt b.maxInd, verifier, hash⟩,
    encodeBlock_eq_ok.2 ⟨hprev, hroot, hverifier, hhash, ⟨ts, hts, rfl⟩, rfl, rfl, rfl⟩⟩

theorem Readable.exists_encodeBlock {b : Block} (h : b.Readable) : ∃ m, encodeBlock b = .ok m :=
  Block.exists_encodeBlock h.prevBlockSHA1 h.merkleRoot h.verifierPublicKey h.finhash
    ⟨_, h.populated.entries_take (Int.toNat_le.2 h.maxInd_le)⟩

end Block

/-- An encoded block was read. -/
theorem readable_of_encodeBlock {b : Block} {m : BlockMsg} (hpop : b.Populated)
    (h : encodeBlock b = .ok m) : b.Readable := by
  obtain ⟨hprev, hroot, hverifier, hhash, ⟨ts, hts, -⟩, -⟩ := encodeBlock_eq_ok.1 h
  exact ⟨hpop, (hpop.addTransactionsToQueue_eq_ok.1 hts).1, CharPtr.isHash_iff.2 ⟨_, hprev⟩,
    CharPtr.isHash_iff.2 ⟨_, hroot⟩, ⟨_, hverifier⟩, CharPtr.isHash_iff.2 ⟨_, hhash⟩⟩

/-! ## Decoding -/

/-- Writing from entry `i` on succeeds while the entries last. -/
theorem decodeEntries_of_le {b : Block} {i : Nat} {ms : List TransactionMsg}
    (h : i + ms.length ≤ numTransactionsPerBlock) :
    ∃ arr : Vector (Option Transaction) numTransactionsPerBlock,
      decodeEntries b i ms = .ok { b with transactionArray := arr } ∧
        arr.toList = b.transactionArray.toList.take i ++
          ms.map (fun m => some (decodeTransaction m)) ++
            b.transactionArray.toList.drop (i + ms.length) := by
  induction ms generalizing b i with
  | nil => exact ⟨b.transactionArray, rfl, by simp⟩
  | cons m rest ih =>
      rw [List.length_cons] at h
      have hi : i < numTransactionsPerBlock := by omega
      have hset : b.setEntry i (decodeTransaction m) = .ok { b with
          transactionArray := b.transactionArray.set i (some (decodeTransaction m)) hi } :=
        Block.setEntry_eq_ok.2 ⟨Int.natCast_nonneg i, hi, _, Vector.toList_set hi, rfl⟩
      obtain ⟨arr, hdecode, harr⟩ := @ih { b with
        transactionArray := b.transactionArray.set i (some (decodeTransaction m)) hi } (i + 1)
        (by omega)
      refine ⟨arr, ?_, ?_⟩
      · rw [decodeEntries, hset]
        exact hdecode
      · have hlen : i < b.transactionArray.toList.length :=
          hi.trans_eq (Block.length_transactionArray b).symm
        have htake : (b.transactionArray.toList.set i (some (decodeTransaction m))).take (i + 1) =
            b.transactionArray.toList.take i ++ [some (decodeTransaction m)] := by
          rw [List.set_eq_take_append_cons_drop, if_pos hlen, List.append_cons]
          refine List.take_left' ?_
          rw [List.length_append, List.length_take, Nat.min_eq_left hlen.le]
          rfl
        rw [harr, Vector.toList_set, htake, List.drop_set_of_lt (by omega)]
        simp [Nat.add_comm, Nat.add_left_comm]

theorem decodeEntries_of_lt {b : Block} {i : Nat} {ms : List TransactionMsg}
    (hi : i ≤ numTransactionsPerBlock) (h : numTransactionsPerBlock < i + ms.length) :
    decodeEntries b i ms = .error .outOfRange := by
  induction ms generalizing b i with
  | nil => exact absurd h (Nat.not_lt.2 hi)
  | cons m rest ih =>
      rw [List.length_cons] at h
      rw [decodeEntries]
      cases hset : b.setEntry i (decodeTransaction m) with
      | error e =>
          unfold Block.setEntry at hset
          split at hset
          · cases hset
          · cases hset
            rfl
      | ok b' =>
          obtain ⟨-, hlt, -⟩ := Block.setEntry_eq_ok.1 hset
          have hnext : i + 1 ≤ numTransactionsPerBlock := hlt
          have hmore : numTransactionsPerBlock < i + 1 + rest.length := by omega
          exact ih hnext hmore

namespace BlockMsg

/-- The block that the message decodes to, with its transactions in `arr`. -/
def decoded (m : BlockMsg) (arr : Vector (Option Transaction) numTransactionsPerBlock) : Block :=
  { Block.new with
    blockNumber := m.blockNumber
    prevBlockSHA1 := CharPtr.ofString m.prevBlockSHA1
    magic := m.magic.toUInt64
    merkleRoot := CharPtr.ofString m.merkleRoot
    transactionArray := arr
    maxInd := m.numTransactions.toInt32.toInt
    verifierPublicKey := CharPtr.ofString m.verifierPublicKey
    finhash := CharPtr.ofString m.finalHash }

/-- The transactions of the message. -/
def votes (m : BlockMsg) : List Transaction := m.transactionMsg.map decodeTransaction

/-- Up to eight transactions fit into the array, the rest of which stays unassigned. -/
theorem exists_decoded {m : BlockMsg} (h : m.transactionMsg.length ≤ numTransactionsPerBlock) :
    ∃ arr, decodeBlock m = .ok (m.decoded arr) ∧ arr.toList = m.votes.map some ++
      List.replicate (numTransactionsPerBlock - m.transactionMsg.length) none := by
  obtain ⟨arr, hdecode, harr⟩ := @decodeEntries_of_le (m.decoded Block.new.transactionArray) 0
    m.transactionMsg (by omega)
  refine ⟨arr, hdecode, ?_⟩
  have hnew : (m.decoded Block.new.transactionArray).transactionArray.toList =
      List.replicate numTransactionsPerBlock none := rfl
  rw [harr, hnew, Nat.zero_add, List.drop_replicate, votes, List.map_map]
  rfl

theorem decodeBlock_eq_ok {m : BlockMsg} {b : Block} :
    decodeBlock m = .ok b ↔ m.transactionMsg.length ≤ numTransactionsPerBlock ∧
      ∃ arr, arr.toList = m.votes.map some ++
        List.replicate (numTransactionsPerBlock - m.transactionMsg.length) none ∧
          b = m.decoded arr := by
  by_cases hle : m.transactionMsg.length ≤ numTransactionsPerBlock
  · obtain ⟨arr, hdecode, harr⟩ := exists_decoded hle
    rw [hdecode]
    constructor
    · intro h
      cases h
      exact ⟨hle, arr, harr, rfl⟩
    · rintro ⟨-, arr', harr', rfl⟩
      rw [Vector.toList_inj.1 (harr'.trans harr.symm)]
  · have hstart : decodeBlock m =
        decodeEntries (m.decoded Block.new.transactionArray) (0 : Nat) m.transactionMsg := rfl
    rw [hstart, decodeEntries_of_lt (Nat.zero_le _) (by omega)]
    exact iff_of_false (by simp) fun h => hle h.1

/-- The sizes in a message agree: eight transactions, a number of transactions
that they cover, and hash fields that give 20 bytes with the NUL behind them. -/
structure WellSized (m : BlockMsg) : Prop where
  transactionMsg : m.transactionMsg.length = numTransactionsPerBlock
  numTransactions : m.numTransactions.toNat ≤ numTransactionsPerBlock
  prevBlockSHA1 : publicKeySize ≤ m.prevBlockSHA1.length + 1
  merkleRoot : publicKeySize ≤ m.merkleRoot.length + 1
  finalHash : publicKeySize ≤ m.finalHash.length + 1

theorem WellSized.exists_decodeBlock {m : BlockMsg} (h : m.WellSized) :
    ∃ b, decodeBlock m = .ok b := by
  obtain ⟨arr, hdecode, -⟩ := exists_decoded h.transactionMsg.le
  exact ⟨_, hdecode⟩

theorem toInt_toInt32 (n : UInt32) :
    n.toInt32.toInt = if n.toNat < 2 ^ 31 then (n.toNat : Int) else n.toNat - 2 ^ 32 := by
  have hcond := BitVec.toInt_eq_toNat_cond n.toBitVec
  have hint : n.toInt32.toInt = n.toBitVec.toInt := rfl
  have hnat : n.toNat = n.toBitVec.toNat := rfl
  rw [hint, hcond, hnat]
  split <;> split <;> omega

/-- As an `int` the number is in range when it is as an `unsigned`. -/
theorem numTransactions_le_iff (n : UInt32) :
    n.toNat ≤ numTransactionsPerBlock ↔
      0 ≤ n.toInt32.toInt ∧ n.toInt32.toInt ≤ numTransactionsPerBlock := by
  have hlt := n.toNat_lt
  have hmax : numTransactionsPerBlock = 8 := rfl
  rw [toInt_toInt32]
  split <;> omega

theorem populated_iff {m : BlockMsg} {b : Block} (hb : decodeBlock m = .ok b) :
    b.Populated ↔ m.transactionMsg.length = numTransactionsPerBlock := by
  obtain ⟨hle, arr, harr, rfl⟩ := decodeBlock_eq_ok.1 hb
  have hlist : (m.decoded arr).transactionArray.toList = m.votes.map some ++
      List.replicate (numTransactionsPerBlock - m.transactionMsg.length) none := harr
  unfold Block.Populated
  rw [hlist]
  simp only [List.forall_mem_append, List.mem_replicate]
  constructor
  · rintro ⟨-, hnone⟩
    by_contra hne
    exact absurd (hnone none ⟨by omega, rfl⟩) (by decide)
  · intro heq
    refine ⟨by simp, ?_⟩
    rintro t ⟨hne, -⟩
    exact absurd (by omega) hne

theorem decoded_votes {m : BlockMsg} {b : Block} (hb : decodeBlock m = .ok b) :
    b.votes = m.votes := by
  obtain ⟨-, arr, harr, rfl⟩ := decodeBlock_eq_ok.1 hb
  have hlist : (m.decoded arr).transactionArray.toList = m.votes.map some ++
      List.replicate (numTransactionsPerBlock - m.transactionMsg.length) none := harr
  unfold Block.votes
  rw [hlist]
  simp

/-- A decoded block can be read, and states no negative number, exactly when the
sizes in its message agree. -/
theorem wellSized_iff {m : BlockMsg} {b : Block} (hb : decodeBlock m = .ok b) :
    m.WellSized ↔ b.Readable ∧ 0 ≤ b.maxInd := by
  have hpop := populated_iff hb
  obtain ⟨-, arr, -, rfl⟩ := decodeBlock_eq_ok.1 hb
  constructor
  · intro h
    obtain ⟨hnonneg, hle⟩ := (numTransactions_le_iff _).1 h.numTransactions
    refine ⟨⟨hpop.2 h.transactionMsg, hle, ?_, ?_, ⟨_, if_pos (by simp)⟩, ?_⟩, hnonneg⟩
    · exact CharPtr.isHash_ofString.2 h.prevBlockSHA1
    · exact CharPtr.isHash_ofString.2 h.merkleRoot
    · exact CharPtr.isHash_ofString.2 h.finalHash
  · rintro ⟨h, hnonneg⟩
    exact ⟨hpop.1 h.populated, (numTransactions_le_iff _).2 ⟨hnonneg, h.maxInd_le⟩,
      CharPtr.isHash_ofString.1 h.prevBlockSHA1, CharPtr.isHash_ofString.1 h.merkleRoot,
      CharPtr.isHash_ofString.1 h.finhash⟩

end BlockMsg

/-! ## Chains of readable blocks -/

namespace Thread

variable {SHA1 : Bytes → Digest}

/-- A received block that is judged OK can be read. -/
def AcceptsReadable (m : TransitionSystem.Move Thread (Input × List Effect)) : Prop :=
  ∀ b env, m.label.1 = .block (some b) env → m.pre.bc.checkBlockValidity b = .ok .ok → b.Readable

/-- All hashes of the chain can be compared, and all blocks above the genesis
block can be read. -/
structure Legible (th : Thread) : Prop where
  finhash : ∀ b ∈ th.bc.blocks, b.finhash.IsHash
  readable : ∀ b ∈ th.bc.nonGenesis, b.Readable
  verifierPublicKey : th.newBlock.verifierPublicKey = Block.new.verifierPublicKey

theorem initial_legible (tail : GenesisTail) : (initial tail).Legible where
  finhash := by
    intro b hb
    cases List.mem_singleton.1 hb
    exact ⟨_, rfl, by simp [Blockchain.startingBlock]⟩
  readable := by
    intro b hb
    cases hb
  verifierPublicKey := rfl

theorem mineLoop_hashes {tries : Nat} {b w : Block} (h : mineLoop SHA1 tries b = .ok (w, true)) :
    w.merkleRoot.IsHash ∧ w.finhash.IsHash := by
  induction tries generalizing b with
  | zero => cases h
  | succ tries ih =>
      rw [mineLoop] at h
      obtain ⟨b', hcalc, h⟩ := Except.bind_eq_ok.1 h
      obtain ⟨data, -, -, rfl⟩ := (Block.calculateFinhash_eq_ok SHA1).1 hcalc
      obtain ⟨lz, -, h⟩ := Except.bind_eq_ok.1 h
      split at h
      · cases h
        exact ⟨Digest.isHash_ptr _, Digest.isHash_ptr _⟩
      · exact ih h

theorem Legible.appended {th : Thread} (h : th.Legible) (hne : th.bc.blocks ≠ []) {b : Block}
    (hb : b.Readable) (point : Point) :
    (⟨appended th.bc b, .new, false, point⟩ : Thread).Legible where
  finhash := by
    intro c hc
    rcases List.mem_cons.1 hc with rfl | hc
    · exact hb.finhash
    · exact h.finhash c hc
  readable := by
    intro c hc
    rw [Blockchain.nonGenesis_appended hne] at hc
    rcases List.mem_cons.1 hc with rfl | hc
    · exact Block.readable_numbered.2 hb
    · exact h.readable c hc
  verifierPublicKey := rfl

theorem Legible.minedBlock {th : Thread} (h : th.Legible) (hwell : th.WellFormed) {w head : Block}
    (hpoint : th.point = .mine) (hloop : mineLoop SHA1 numMagicToTry th.newBlock = .ok (w, true))
    (hhead : th.bc.getHeadBlock = .ok head) : (minedBlock w head).Readable := by
  obtain ⟨hroot, hfin⟩ := mineLoop_hashes hloop
  obtain ⟨hpop, -⟩ := hwell.mineLoop hpoint hloop
  obtain ⟨⟨magic, root, fin, rfl⟩, -⟩ := mineLoop_spec hloop
  have hmem := List.mem_of_mem_head? (Blockchain.getHeadBlock_eq_ok.1 hhead).2
  refine ⟨hpop, Int.natCast_nonneg _, h.finhash head hmem, hroot, ⟨[97], ?_⟩, hfin⟩
  exact congrArg CharPtr.cString h.verifierPublicKey

theorem Legible.change {th th' : Thread} {i : Input × List Effect} (h : th.Legible)
    (hwell : th.WellFormed) (hne : th.bc.blocks ≠ []) (hs : Change SHA1 th i th')
    (hread : AcceptsReadable ⟨th, i, th'⟩) : th'.Legible := by
  cases hs with
  | accepted _ hcheck => exact h.appended hne (hread _ _ rfl hcheck) _
  | repaired =>
      refine ⟨fun c hc => h.finhash c (List.mem_of_mem_drop hc), fun c hc => ?_, rfl⟩
      rw [Blockchain.nonGenesis_truncated] at hc
      exact h.readable c (List.mem_of_mem_drop hc)
  | taken _ _ _ _ hset =>
      obtain ⟨-, -, arr, -, rfl⟩ := Block.setEntry_eq_ok.1 hset
      exact ⟨h.finhash, h.readable, h.verifierPublicKey⟩
  | mined hpoint hloop hhead => exact h.appended hne (h.minedBlock hwell hpoint hloop hhead) _
  | _ => exact ⟨h.finhash, h.readable, h.verifierPublicKey⟩

/-- What holds of a thread that accepted readable blocks only. -/
structure Intact (th : Thread) : Prop where
  wellFormed : th.WellFormed
  short : th.Short
  legible : th.Legible

theorem initial_intact (tail : GenesisTail) : (initial tail).Intact :=
  ⟨initial_wellFormed tail, initial_short tail, initial_legible tail⟩

theorem intact_preserved (SHA1 : Bytes → Digest) (tail : GenesisTail) :
    (processingThread SHA1 tail).PreservedUnder AcceptsReadable Intact :=
  fun _ _ _ hstep hread h => ⟨h.wellFormed.change hstep.change, h.short.change hstep.change,
    h.legible.change h.wellFormed h.short.nonempty hstep.change hread⟩

end Thread

end OneVote
