-- SUMMARY: Transactions and blocks, the Merkle root and the final hash of a block, and the comparison of hashes.
import Mathlib.Data.Vector.Basic
import OneVote.Memory

/-!
# Blocks

`SHA1` is a parameter: the function behind the OpenSSL call. The Merkle tree
and the final hash follow `processor.cpp`; the pointer that the leaf loop hands
to `SHA1` is read as the bytes of `sender_public_key`.
-/

namespace OneVote

abbrev numTransactionsPerBlock : Nat := 8

abbrev publicKeySize : Nat := 20

/-- The timestamp is a `double` that is only copied; it is kept as its bits. -/
structure Transaction where
  senderPublicKey : Bytes
  vote : Bytes
  timestamp : UInt64
  deriving DecidableEq

structure Block where
  blockNumber : UInt32
  prevBlockSHA1 : CharPtr
  magic : UInt64
  merkleRoot : CharPtr
  /-- `none` is an entry that was never assigned. -/
  transactionArray : Vector (Option Transaction) numTransactionsPerBlock
  maxInd : Int
  verifierPublicKey : CharPtr
  finhash : CharPtr
  deriving DecidableEq

/-- A vote by the voter whose 20-byte key repeats `id`, for concrete runs. -/
def Transaction.sample (id : UInt8) : Transaction := ⟨List.replicate publicKeySize id, [89], 0⟩

namespace Block

/-- The constructor. It leaves `block_number` unassigned; every block gets its
number before the number is read. -/
def new : Block where
  blockNumber := 0
  prevBlockSHA1 := none
  magic := 0
  merkleRoot := none
  transactionArray := Vector.replicate numTransactionsPerBlock none
  maxInd := 0
  verifierPublicKey := CharPtr.ofString [97]
  finhash := none

/-- A block as a peer may claim it, for concrete runs: eight votes by the voters
from `id` on, and the given hash fields and number. -/
def sample (id : UInt8) (prev hash : Bytes) (number : UInt32) : Block where
  blockNumber := number
  prevBlockSHA1 := CharPtr.ofString prev
  magic := 1
  merkleRoot := CharPtr.ofString (List.replicate shaDigestLength 7)
  transactionArray := #v[some (.sample id), some (.sample (id + 1)), some (.sample (id + 2)),
    some (.sample (id + 3)), some (.sample (id + 4)), some (.sample (id + 5)),
    some (.sample (id + 6)), some (.sample (id + 7))]
  maxInd := numTransactionsPerBlock
  verifierPublicKey := CharPtr.ofString [97]
  finhash := CharPtr.ofString hash

/-! ## Reading the transaction array -/

/-- The first `n` entries behind assigned pointers. -/
def readEntries : Nat → List (Option Transaction) → Exec (List Transaction)
  | 0, _ => .ok []
  | _ + 1, [] => .error .outOfRange
  | _ + 1, none :: _ => .error .unassigned
  | n + 1, some t :: rest => (t :: ·) <$> readEntries n rest

/-- `transaction_array[0]`, ..., `transaction_array[n - 1]`, in order. -/
def entries (b : Block) (n : Nat) : Exec (List Transaction) :=
  readEntries n b.transactionArray.toList

/-- `transaction_array[i]` -/
def entry (b : Block) (i : Nat) : Exec Transaction :=
  match b.transactionArray[i]? with
  | none => .error .outOfRange
  | some none => .error .unassigned
  | some (some t) => .ok t

/-- `transaction_array[i] = t` -/
def setEntry (b : Block) (i : Int) (t : Transaction) : Exec Block :=
  if h : 0 ≤ i ∧ i.toNat < numTransactionsPerBlock then
    .ok { b with transactionArray := b.transactionArray.set i.toNat (some t) h.2 }
  else .error .outOfRange

/-- The transactions behind the assigned entries, in order. -/
def votes (b : Block) : List Transaction := b.transactionArray.toList.filterMap id

def senders (b : Block) : List Bytes := b.votes.map (·.senderPublicKey)

/-- Who voted for whom, index by index. -/
def ballots (b : Block) : List (Bytes × Bytes) :=
  b.votes.map fun t => (t.senderPublicKey, t.vote)

/-- All eight entries are assigned. -/
def Populated (b : Block) : Prop := ∀ t ∈ b.transactionArray.toList, t.isSome

instance (b : Block) : Decidable b.Populated :=
  inferInstanceAs (Decidable (∀ t ∈ b.transactionArray.toList, t.isSome))

theorem readEntries_eq_ok {n : Nat} {l : List (Option Transaction)} {ts : List Transaction} :
    readEntries n l = .ok ts ↔ ts.length = n ∧ l.take n = ts.map some := by
  induction n generalizing l ts with
  | zero => cases ts <;> simp [readEntries]
  | succ n ih =>
      cases l with
      | nil => cases ts <;> simp [readEntries]
      | cons t? rest =>
          cases t? with
          | none => cases ts <;> simp [readEntries]
          | some t =>
              rw [readEntries, Except.map_eq_ok]
              cases ts with
              | nil => simp
              | cons u us => simp [ih, and_left_comm, and_comm]

theorem entries_eq_ok {b : Block} {n : Nat} {ts : List Transaction} :
    b.entries n = .ok ts ↔ ts.length = n ∧ b.transactionArray.toList.take n = ts.map some :=
  readEntries_eq_ok

theorem populated_iff {b : Block} :
    b.Populated ↔ b.transactionArray.toList = b.votes.map some := by
  have hall : ∀ l : List (Option Transaction),
      (∀ t ∈ l, t.isSome) ↔ l = (l.filterMap id).map some := by
    intro l
    induction l with
    | nil => simp
    | cons t? rest ih =>
        cases t? with
        | none =>
            simp only [List.mem_cons, forall_eq_or_imp, Option.isSome_none, Bool.false_eq_true,
              false_and, List.filterMap_cons, id_eq, false_iff]
            intro heq
            have hmem : none ∈ (rest.filterMap id).map some := heq ▸ List.mem_cons_self
            simp at hmem
        | some t => simpa using ih
  exact hall _

theorem raises_entries (b : Block) (n : Nat) : (b.entries n).Raises Stop.IsAccess := by
  have hread : ∀ (l : List (Option Transaction)) n, (readEntries n l).Raises Stop.IsAccess := by
    intro l
    induction l with
    | nil =>
        intro n
        cases n with
        | zero => exact Except.raises_ok _ _
        | succ n => exact Except.raises_error trivial
    | cons t? rest ih =>
        intro n
        cases n with
        | zero => exact Except.raises_ok _ _
        | succ n =>
            cases t? with
            | none => exact Except.raises_error trivial
            | some t => exact (ih n).map _
  exact hread _ n

theorem length_transactionArray (b : Block) :
    b.transactionArray.toList.length = numTransactionsPerBlock := by simp

theorem entries_all {b : Block} {ts : List Transaction} :
    b.entries numTransactionsPerBlock = .ok ts ↔ b.Populated ∧ ts = b.votes := by
  rw [entries_eq_ok, List.take_of_length_le (by simp), populated_iff]
  constructor
  · intro h
    rcases h with ⟨-, harr⟩
    have hts : ts = b.votes := by simp [votes, harr]
    exact ⟨hts ▸ harr, hts⟩
  · intro h
    rcases h with ⟨harr, rfl⟩
    refine ⟨?_, harr⟩
    have hlen := congrArg List.length harr
    simpa using hlen.symm

theorem Populated.entries {b : Block} (h : b.Populated) :
    b.entries numTransactionsPerBlock = .ok b.votes := entries_all.2 ⟨h, rfl⟩

theorem Populated.length_votes {b : Block} (h : b.Populated) :
    b.votes.length = numTransactionsPerBlock := (entries_eq_ok.1 h.entries).1

/-- Reading fewer entries of a populated block reads a prefix of its votes. -/
theorem Populated.entries_take {b : Block} (h : b.Populated) {n : Nat}
    (hn : n ≤ numTransactionsPerBlock) : b.entries n = .ok (b.votes.take n) := by
  rw [entries_eq_ok, populated_iff.1 h, List.length_take, h.length_votes]
  exact ⟨Nat.min_eq_left hn, List.map_take.symm⟩

theorem not_populated_new : ¬ new.Populated := by decide

/-! ## Merkle root and final hash -/

section Hashing

variable (SHA1 : Bytes → Digest)

/-- The bytes that the leaf loop hashes for every `i`: its index is 0 each time. -/
def leafData (b : Block) : Exec Bytes := do
  let t ← b.entry 0
  (CharPtr.ofString t.senderPublicKey).read publicKeySize

/-- One level of the tree: each pair of hashes is concatenated and hashed. -/
def nextLevel : List Digest → Exec (List Digest)
  | [] => .ok []
  | [_] => .error .outOfRange
  | h₁ :: h₂ :: rest => (SHA1 (h₁.bytes ++ h₂.bytes) :: ·) <$> nextLevel rest

/-- The `while (1)` loop over the levels, for at most `fuel` iterations. -/
def merkleLevels : Nat → List Digest → Exec Digest
  | 0, _ => .error .outOfFuel
  | fuel + 1, oldHashes => do
      match ← nextLevel SHA1 oldHashes with
      | [root] => return root
      | newHashes => merkleLevels fuel newHashes

/-- `calculate_merkle_root`: the block with its root set, and the root. -/
def calculateMerkleRoot (b : Block) : Exec (Block × Digest) := do
  let oldHashes ← (List.range numTransactionsPerBlock).mapM fun _ => SHA1 <$> b.leafData
  let root ← merkleLevels SHA1 numTransactionsPerBlock oldHashes
  return ({ b with merkleRoot := root.ptr }, root)

/-- The bytes of `magic` in memory, on a little-endian machine. -/
def magicBytes (magic : UInt64) : Bytes :=
  (List.range 8).map fun i => (magic >>> (8 * i).toUInt64).toUInt8

/-- `calculate_finhash` -/
def calculateFinhash (b : Block) : Exec Block := do
  let (b, root) ← b.calculateMerkleRoot SHA1
  -- the assertion is on the first byte of the root, not on the pointer to it
  if root.bytes[0]? = some 0 then
    .error (.assertion .merkleRootByte)
  else
    return { b with finhash := (SHA1 (root.bytes ++ magicBytes b.magic)).ptr }

/-! ### What the hashes depend on -/

/-- One level of a tree whose hashes at each level are all the same. -/
def pairUp (h : Digest) : Digest := SHA1 (h.bytes ++ h.bytes)

/-- The Merkle root over eight leaves with the same data. -/
def uniformRoot (data : Bytes) : Digest := pairUp SHA1 (pairUp SHA1 (pairUp SHA1 (SHA1 data)))

theorem Populated.leafData {b : Block} (h : b.Populated) {t : Transaction} {rest : List Transaction}
    (hvotes : b.votes = t :: rest) :
    b.leafData = (CharPtr.ofString t.senderPublicKey).read publicKeySize := by
  have hentry : b.transactionArray[0]? = some (some t) := by
    rw [← Vector.getElem?_toList, populated_iff.1 h, hvotes]
    rfl
  unfold Block.leafData
  rw [entry, hentry]
  rfl

theorem merkleLevels_uniform (h : Digest) :
    merkleLevels SHA1 numTransactionsPerBlock (List.replicate numTransactionsPerBlock h) =
      .ok (pairUp SHA1 (pairUp SHA1 (pairUp SHA1 h))) := rfl

theorem calculateMerkleRoot_eq (b : Block) :
    b.calculateMerkleRoot SHA1 =
      (fun data =>
        ({ b with merkleRoot := (uniformRoot SHA1 data).ptr }, uniformRoot SHA1 data)) <$>
          b.leafData := by
  unfold calculateMerkleRoot
  cases b.leafData with
  | error e => rfl
  | ok data =>
      have hleaves : ((List.range numTransactionsPerBlock).mapM fun _ =>
          (SHA1 <$> (.ok data : Exec Bytes))) =
            .ok (List.replicate numTransactionsPerBlock (SHA1 data)) := rfl
      rw [hleaves, Except.ok_bind, merkleLevels_uniform]
      rfl

theorem calculateFinhash_eq_ok {b b' : Block} :
    b.calculateFinhash SHA1 = .ok b' ↔
      ∃ data, b.leafData = .ok data ∧ (uniformRoot SHA1 data).bytes[0]? ≠ some 0 ∧
        b' = { b with
          merkleRoot := (uniformRoot SHA1 data).ptr
          finhash := (SHA1 ((uniformRoot SHA1 data).bytes ++ magicBytes b.magic)).ptr } := by
  unfold calculateFinhash
  rw [calculateMerkleRoot_eq, Except.bind_eq_ok]
  simp only [Except.map_eq_ok]
  constructor
  · intro h
    rcases h with ⟨⟨b₁, root⟩, ⟨data, hdata, heq⟩, hb'⟩
    obtain ⟨rfl, rfl⟩ := Prod.mk.inj heq
    refine ⟨data, hdata, ?_⟩
    dsimp only at hb'
    split at hb'
    · cases hb'
    · rename_i hbyte
      exact ⟨hbyte, (Except.pure_eq_ok.1 hb').symm⟩
  · intro h
    rcases h with ⟨data, hdata, hbyte, rfl⟩
    refine ⟨_, ⟨data, hdata, rfl⟩, ?_⟩
    simp only [if_neg hbyte]
    rfl

end Hashing

/-! ### A table of digests

The digests of the strings that one block hashes, for concrete runs. The first
voter of the block has the key 12442, and its first magic meets the target. -/

def sampleKey : Bytes := List.replicate 15 48 ++ [49, 50, 52, 52, 50]

def sampleLeaf : Digest where
  bytes := [151, 102, 237, 216, 169, 251, 20, 31, 111, 19, 167, 96, 80, 213, 5, 85, 88, 179, 182,
    251]
  length_eq := rfl

def sampleLevel₁ : Digest where
  bytes := [161, 166, 30, 244, 11, 106, 139, 170, 46, 177, 173, 19, 35, 49, 68, 228, 21, 66, 142, 2]
  length_eq := rfl

def sampleLevel₂ : Digest where
  bytes := [169, 154, 89, 42, 190, 55, 9, 147, 24, 18, 188, 201, 150, 54, 117, 86, 11, 248, 18, 207]
  length_eq := rfl

def sampleRoot : Digest where
  bytes := [179, 218, 251, 4, 37, 112, 106, 184, 135, 151, 187, 228, 163, 156, 186, 192, 145, 92,
    102, 150]
  length_eq := rfl

def sampleFinhash : Digest where
  bytes := [0, 10, 75, 169, 246, 180, 27, 123, 209, 158, 0, 161, 124, 249, 35, 84, 135, 163, 188, 2]
  length_eq := rfl

def sampleSHA1 (data : Bytes) : Digest :=
  if data = sampleKey then sampleLeaf
  else if data = sampleLeaf.bytes ++ sampleLeaf.bytes then sampleLevel₁
  else if data = sampleLevel₁.bytes ++ sampleLevel₁.bytes then sampleLevel₂
  else if data = sampleLevel₂.bytes ++ sampleLevel₂.bytes then sampleRoot
  else if data = sampleRoot.bytes ++ magicBytes 1 then sampleFinhash
  else ⟨List.replicate shaDigestLength 255, rfl⟩

end Block

/-! ## Comparing hashes -/

/-- The loop of `same_hash` from index `i` on, over the `n` bytes that remain. -/
def sameHashFrom (a b : CharPtr) (i : Nat) : Nat → Exec Bool
  | 0 => .ok true
  | n + 1 => do
      let x ← a.byte i
      let y ← b.byte i
      if x ≠ y then return false else sameHashFrom a b (i + 1) n

/-- `same_hash` -/
def sameHash (a b : CharPtr) : Exec Bool := sameHashFrom a b 0 publicKeySize

theorem sameHashFrom_eq_true {a b : CharPtr} {i n : Nat} :
    sameHashFrom a b i n = .ok true ↔
      ∀ j < n, ∃ x, a.byte (i + j) = .ok x ∧ b.byte (i + j) = .ok x := by
  induction n generalizing i with
  | zero => simp [sameHashFrom]
  | succ n ih =>
      rw [sameHashFrom, Except.bind_eq_ok]
      constructor
      · intro h
        rcases h with ⟨x, hx, hrest⟩
        obtain ⟨y, hy, hrest⟩ := Except.bind_eq_ok.1 hrest
        by_cases hxy : x = y
        · subst hxy
          rw [if_neg (by simp), ih] at hrest
          intro j hj
          cases j with
          | zero => exact ⟨x, hx, hy⟩
          | succ j =>
              obtain ⟨z, hz⟩ := hrest j (by omega)
              exact ⟨z, by simpa [Nat.add_comm, Nat.add_left_comm] using hz⟩
        · rw [if_pos hxy, Except.pure_eq_ok] at hrest
          cases hrest
      · intro h
        obtain ⟨x, hx, hy⟩ := h 0 (by omega)
        refine ⟨x, hx, Except.bind_eq_ok.2 ⟨x, hy, ?_⟩⟩
        rw [if_neg (by simp), ih]
        intro j hj
        obtain ⟨z, hz⟩ := h (j + 1) (by omega)
        exact ⟨z, by simpa [Nat.add_comm, Nat.add_left_comm] using hz⟩

theorem raises_sameHash (a b : CharPtr) : (sameHash a b).Raises Stop.IsAccess := by
  have hfrom : ∀ n i, (sameHashFrom a b i n).Raises Stop.IsAccess := by
    intro n
    induction n with
    | zero => exact fun i => Except.raises_ok _ _
    | succ n ih =>
        intro i
        rw [sameHashFrom]
        refine (CharPtr.raises_byte a i).bind fun x _ => ?_
        refine (CharPtr.raises_byte b i).bind fun y _ => ?_
        split
        · exact Except.raises_ok _ _
        · exact ih (i + 1)
  exact hfrom publicKeySize 0

theorem sameHash_symm {a b : CharPtr} (h : sameHash a b = .ok true) : sameHash b a = .ok true := by
  rw [sameHash, sameHashFrom_eq_true] at h ⊢
  intro j hj
  obtain ⟨x, hx, hy⟩ := h j hj
  exact ⟨x, hy, hx⟩

/-- The readable part of a hash pointer: at least 20 bytes. -/
def CharPtr.IsHash (p : CharPtr) : Prop := ∃ bs, p = some bs ∧ publicKeySize ≤ bs.length

theorem Digest.isHash_ptr (d : Digest) : d.ptr.IsHash := ⟨d.bytes, rfl, d.length_eq.ge⟩

theorem sameHash_refl {p : CharPtr} (h : p.IsHash) : sameHash p p = .ok true := by
  obtain ⟨bs, rfl, hlen⟩ := h
  unfold sameHash
  rw [sameHashFrom_eq_true]
  intro j hj
  have hj' : j < bs.length := by omega
  exact ⟨bs[j], by simp [CharPtr.byte_eq_ok, hj'], by simp [CharPtr.byte_eq_ok, hj']⟩

end OneVote
