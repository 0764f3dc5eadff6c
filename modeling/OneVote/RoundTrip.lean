-- SUMMARY: Encoding and decoding undo each other, on blocks that a message can carry and on messages that state their own sizes.
import OneVote.Readable

/-!
# Round trips

A hash is copied as 20 bytes, the key of the verifier as a C string, and the
first `max_ind` transactions field by field.
-/

namespace OneVote

theorem CharPtr.cString_ofString {s : Bytes} (h : 0 ∉ s) :
    (CharPtr.ofString s).cString = .ok s := by
  have htake : (s ++ [0]).takeWhile (· ≠ 0) = s := by
    rw [List.takeWhile_append_of_pos (by
      intro x hx
      simpa using fun h0 : x = 0 => h (h0 ▸ hx))]
    simp
  exact (if_pos (by simp)).trans (congrArg Except.ok htake)

theorem CharPtr.not_mem_of_cString {p : CharPtr} {s : Bytes} (h : p.cString = .ok s) : 0 ∉ s := by
  unfold CharPtr.cString at h
  cases p with
  | none => cases h
  | some bs =>
      dsimp only at h
      split at h
      · cases h
        intro hmem
        simpa using List.all_eq_true.1 List.all_takeWhile 0 hmem
      · cases h

/-- What was copied is read again from the copy. -/
theorem CharPtr.read_ofString {s : Bytes} {n : Nat} (h : s.length = n) :
    (CharPtr.ofString s).read n = .ok s := by
  subst h
  exact CharPtr.read_eq_ok.2 ⟨_, rfl, by simp, by simp⟩

theorem CharPtr.length_of_read {p : CharPtr} {s : Bytes} {n : Nat} (h : p.read n = .ok s) :
    s.length = n := by
  obtain ⟨bs, rfl, hlen, rfl⟩ := CharPtr.read_eq_ok.1 h
  rw [List.length_take, Nat.min_eq_left hlen]

namespace Block

/-- A message can carry the block: its first `max_ind` entries are assigned, it
has three hashes of 20 bytes, and the key of its verifier ends with a NUL. -/
structure FitsMessage (b : Block) : Prop where
  maxInd_nonneg : 0 ≤ b.maxInd
  maxInd_le : b.maxInd ≤ numTransactionsPerBlock
  assigned : ∀ i < b.maxInd.toNat, ∃ t, b.entry i = .ok t
  prevBlockSHA1 : b.prevBlockSHA1.IsHash
  merkleRoot : b.merkleRoot.IsHash
  verifierPublicKey : ∃ s, b.verifierPublicKey.cString = .ok s
  finhash : b.finhash.IsHash

/-- What a message keeps of a block. -/
structure SameContent (b b' : Block) : Prop where
  blockNumber : b'.blockNumber = b.blockNumber
  prevBlockSHA1 : b'.prevBlockSHA1.read publicKeySize = b.prevBlockSHA1.read publicKeySize
  magic : b'.magic = b.magic
  merkleRoot : b'.merkleRoot.read publicKeySize = b.merkleRoot.read publicKeySize
  maxInd : b'.maxInd = b.maxInd
  verifierPublicKey : b'.verifierPublicKey.cString = b.verifierPublicKey.cString
  finhash : b'.finhash.read publicKeySize = b.finhash.read publicKeySize
  transactions : ∀ i < b.maxInd.toNat, b'.entry i = b.entry i

theorem entry_congr {b b' : Block} {i : Nat}
    (h : b'.transactionArray.toList[i]? = b.transactionArray.toList[i]?) :
    b'.entry i = b.entry i := by
  rw [Vector.getElem?_toList, Vector.getElem?_toList] at h
  unfold entry
  rw [h]

theorem entry_eq_ok {b : Block} {i : Nat} {t : Transaction} :
    b.entry i = .ok t ↔ b.transactionArray.toList[i]? = some (some t) := by
  unfold entry
  rw [Vector.getElem?_toList]
  split <;> simp_all

/-- Entries that can be read one by one can be read in order. -/
theorem exists_entries {b : Block} {n : Nat} (h : ∀ i < n, ∃ t, b.entry i = .ok t) :
    ∃ ts, b.entries n = .ok ts := by
  simp only [entries_eq_ok]
  induction n with
  | zero => exact ⟨[], rfl, rfl⟩
  | succ n ih =>
      obtain ⟨ts, hlen, hts⟩ := ih fun i hi => h i (Nat.lt_succ_of_lt hi)
      obtain ⟨t, ht⟩ := h n n.lt_succ_self
      refine ⟨ts ++ [t], by simp [hlen], ?_⟩
      rw [List.take_add_one, hts, entry_eq_ok.1 ht, List.map_append]
      rfl

theorem Populated.exists_entry {b : Block} (h : b.Populated) {i : Nat}
    (hi : i < numTransactionsPerBlock) : ∃ t, b.entry i = .ok t := by
  have hlen : i < b.votes.length := h.length_votes.symm ▸ hi
  refine ⟨b.votes[i], entry_eq_ok.2 ?_⟩
  rw [populated_iff.1 h, List.getElem?_map, List.getElem?_eq_getElem hlen]
  rfl

/-- A message can carry every block that passes for a received one. -/
theorem Readable.fitsMessage {b : Block} (h : b.Readable) (hnonneg : 0 ≤ b.maxInd) :
    b.FitsMessage where
  maxInd_nonneg := hnonneg
  maxInd_le := h.maxInd_le
  assigned := fun _ hi => h.populated.exists_entry (hi.trans_le (Int.toNat_le.2 h.maxInd_le))
  prevBlockSHA1 := h.prevBlockSHA1
  merkleRoot := h.merkleRoot
  verifierPublicKey := h.verifierPublicKey
  finhash := h.finhash

end Block

/-! ## The number of transactions -/

theorem ofInt_toInt (n : UInt32) : UInt32.ofInt n.toInt32.toInt = n := by
  rw [← UInt32.toNat_inj, UInt32.ofInt, UInt32.toNat_ofNat', BlockMsg.toInt_toInt32]
  have hlt := n.toNat_lt
  split <;> omega

theorem toInt_ofInt {i : Int} (hnonneg : 0 ≤ i) (hle : i ≤ numTransactionsPerBlock) :
    (UInt32.ofInt i).toInt32.toInt = i := by
  have hmax : numTransactionsPerBlock = 8 := rfl
  have hnat : (UInt32.ofInt i).toNat = i.toNat := by
    rw [UInt32.ofInt, UInt32.toNat_ofNat']
    omega
  rw [BlockMsg.toInt_toInt32, hnat]
  split <;> omega

/-! ## Encoding -/

@[simp] theorem decodeTransaction_encodeTransaction (t : Transaction) :
    decodeTransaction (encodeTransaction t) = t := rfl

@[simp] theorem encodeTransaction_decodeTransaction (m : TransactionMsg) :
    encodeTransaction (decodeTransaction m) = m := rfl

/-- The entries below `n` of an array that starts with the first `n` of `b`. -/
theorem Block.SameContent.of_take {b : Block} {n : Nat} {ts : List Transaction}
    {arr : Vector (Option Transaction) numTransactionsPerBlock} {rest : List (Option Transaction)}
    (hts : b.entries n = .ok ts) (harr : arr.toList = ts.map some ++ rest) {i : Nat} (hi : i < n) :
    arr.toList[i]? = b.transactionArray.toList[i]? := by
  obtain ⟨hlen, htake⟩ := Block.entries_eq_ok.1 hts
  rw [harr, List.getElem?_append_left (by simpa [hlen] using hi), ← htake,
    List.getElem?_take_of_lt hi]

/-- A block that a message can carry comes back with the content it had. -/
theorem Block.FitsMessage.roundTrip {b : Block} (h : b.FitsMessage) :
    ∃ m b', encodeBlock b = .ok m ∧ decodeBlock m = .ok b' ∧ b.SameContent b' := by
  obtain ⟨m, hm⟩ := Block.exists_encodeBlock h.prevBlockSHA1 h.merkleRoot h.verifierPublicKey
    h.finhash (Block.exists_entries h.assigned)
  obtain ⟨hprev, hroot, hverifier, hhash, ⟨ts, hts, hmsg⟩, hnumber, hmagic, hcount⟩ :=
    encodeBlock_eq_ok.1 hm
  have hle : m.transactionMsg.length ≤ numTransactionsPerBlock := by
    rw [hmsg, List.length_map, (Block.entries_eq_ok.1 hts).1]
    exact Int.toNat_le.2 h.maxInd_le
  have hvotes : m.votes = ts := by
    rw [BlockMsg.votes, hmsg]
    simp [Function.comp_def]
  obtain ⟨arr, hdecode, harr⟩ := BlockMsg.exists_decoded hle
  rw [hvotes] at harr
  have hmax : (m.decoded arr).maxInd = b.maxInd := by
    change m.numTransactions.toInt32.toInt = b.maxInd
    rw [hcount]
    exact toInt_ofInt h.maxInd_nonneg h.maxInd_le
  have hword : (m.decoded arr).magic = b.magic := by
    change m.magic.toUInt64 = b.magic
    rw [hmagic]
    exact UInt64.toUInt64_toInt64 _
  exact ⟨m, m.decoded arr, hm, hdecode, {
    blockNumber := hnumber
    prevBlockSHA1 := (CharPtr.read_ofString (CharPtr.length_of_read hprev)).trans hprev.symm
    magic := hword
    merkleRoot := (CharPtr.read_ofString (CharPtr.length_of_read hroot)).trans hroot.symm
    maxInd := hmax
    verifierPublicKey :=
      (CharPtr.cString_ofString (CharPtr.not_mem_of_cString hverifier)).trans hverifier.symm
    finhash := (CharPtr.read_ofString (CharPtr.length_of_read hhash)).trans hhash.symm
    transactions := fun i hi => Block.entry_congr (Block.SameContent.of_take hts harr hi) }⟩

/-- A message that states its own sizes: hashes of 20 bytes, at most eight
transactions and their number, and a key without a NUL. -/
structure BlockMsg.Exact (m : BlockMsg) : Prop where
  prevBlockSHA1 : m.prevBlockSHA1.length = publicKeySize
  merkleRoot : m.merkleRoot.length = publicKeySize
  finalHash : m.finalHash.length = publicKeySize
  length_le : m.transactionMsg.length ≤ numTransactionsPerBlock
  numTransactions : m.numTransactions.toNat = m.transactionMsg.length
  verifierPublicKey : 0 ∉ m.verifierPublicKey

/-- Relaying a message does not change it. -/
theorem BlockMsg.Exact.roundTrip {m : BlockMsg} (h : m.Exact) :
    ∃ b, decodeBlock m = .ok b ∧ encodeBlock b = .ok m := by
  obtain ⟨arr, hdecode, harr⟩ := exists_decoded h.length_le
  have hlen : m.votes.length = m.transactionMsg.length := List.length_map _
  have hmax : m.numTransactions.toInt32.toInt.toNat = m.votes.length := by
    have hle := h.length_le
    have hcount := h.numTransactions
    have height : numTransactionsPerBlock = 8 := rfl
    rw [toInt_toInt32, hlen]
    split <;> omega
  have hts : (m.decoded arr).entries (m.decoded arr).maxInd.toNat = .ok m.votes := by
    refine Block.entries_eq_ok.2 ⟨hmax.symm, ?_⟩
    change arr.toList.take m.numTransactions.toInt32.toInt.toNat = _
    rw [hmax, harr, List.take_left' (List.length_map _)]
  have hmsg : m.transactionMsg = m.votes.map encodeTransaction := by
    simp [BlockMsg.votes, Function.comp_def]
  exact ⟨_, hdecode, encodeBlock_eq_ok.2 ⟨CharPtr.read_ofString h.prevBlockSHA1,
    CharPtr.read_ofString h.merkleRoot, CharPtr.cString_ofString h.verifierPublicKey,
    CharPtr.read_ofString h.finalHash, ⟨_, hts, hmsg⟩, rfl, (Int64.toInt64_toUInt64 _).symm,
    (ofInt_toInt _).symm⟩⟩

/-- Encoding a block and decoding the message keeps its content, and decoding a
message and encoding the block gives the message back. -/
theorem codec_roundTrip :
    (∀ b : Block, b.FitsMessage →
      ∃ m b', encodeBlock b = .ok m ∧ decodeBlock m = .ok b' ∧ b.SameContent b') ∧
    ∀ m : BlockMsg, m.Exact → ∃ b, decodeBlock m = .ok b ∧ encodeBlock b = .ok m :=
  ⟨fun _ h => h.roundTrip, fun _ h => h.roundTrip⟩

theorem sample_fitsMessage :
    (Block.sample 1 (Blockchain.sampleHash 100) (Blockchain.sampleHash 0) 2).FitsMessage :=
  Block.Readable.fitsMessage ⟨by decide, by decide, ⟨_, rfl, by decide⟩, ⟨_, rfl, by decide⟩,
    ⟨[97], rfl⟩, ⟨_, rfl, by decide⟩⟩ (by decide)

theorem sample_exact :
    (BlockMsg.sample 1 (Blockchain.sampleHash 100) (Blockchain.sampleHash 0) 2).Exact :=
  ⟨rfl, rfl, rfl, by decide, rfl, by decide⟩

/-- The final hash of the sample is 20 zero bytes. -/
theorem codec_roundTrip_sample :
    (∃ m b', encodeBlock (Block.sample 1 (Blockchain.sampleHash 100) (Blockchain.sampleHash 0) 2) =
        .ok m ∧ decodeBlock m = .ok b' ∧
      (Block.sample 1 (Blockchain.sampleHash 100) (Blockchain.sampleHash 0) 2).SameContent b') ∧
    ∃ b, decodeBlock (BlockMsg.sample 1 (Blockchain.sampleHash 100) (Blockchain.sampleHash 0) 2) =
        .ok b ∧
      encodeBlock b =
        .ok (BlockMsg.sample 1 (Blockchain.sampleHash 100) (Blockchain.sampleHash 0) 2) :=
  ⟨codec_roundTrip.1 _ sample_fitsMessage, codec_roundTrip.2 _ sample_exact⟩

end OneVote
