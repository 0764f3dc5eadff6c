-- SUMMARY: What the Merkle root commits to: the tree to its leaves, and every leaf to the first voter.
import Mathlib.Data.Set.Function
import OneVote.Block

/-!
# Merkle root

The loop over the levels is injective in the leaves, as far as `SHA1` has no
collision on what it hashes. The loop over the leaves is not injective in the
transactions: it reads the first one each time. It reads 20 bytes of its key,
and of the memory behind a shorter key.
-/

namespace OneVote

namespace Block

variable (SHA1 : Bytes → Digest)

/-! ## The tree -/

/-- The strings that are hashed for the pairs of one level. -/
def levelInputs : List Digest → List Bytes
  | h₁ :: h₂ :: rest => (h₁.bytes ++ h₂.bytes) :: levelInputs rest
  | _ => []

/-- The strings that are hashed in the loop over the levels. -/
def treeInputs : Nat → List Digest → List Bytes
  | 0, _ => []
  | fuel + 1, oldHashes =>
      levelInputs oldHashes ++
        match nextLevel SHA1 oldHashes with
        | .error _ => []
        | .ok newHashes => if newHashes.length = 1 then [] else treeInputs fuel newHashes

variable {SHA1}

theorem length_nextLevel {hs l : List Digest} (h : nextLevel SHA1 hs = .ok l) :
    hs.length = 2 * l.length := by
  fun_induction nextLevel SHA1 hs generalizing l with
  | case1 => cases h; rfl
  | case2 => cases h
  | case3 h₁ h₂ rest ih =>
      obtain ⟨l', hl', rfl⟩ := Except.map_eq_ok.1 h
      have hlen := ih hl'
      simp only [List.length_cons]
      omega

/-- One level determines the level below it. -/
theorem nextLevel_injOn {S : Set Bytes} (hinj : Set.InjOn SHA1 S) {hs hs' l : List Digest}
    (hS : ∀ s ∈ levelInputs hs, s ∈ S) (hS' : ∀ s ∈ levelInputs hs', s ∈ S)
    (h : nextLevel SHA1 hs = .ok l) (h' : nextLevel SHA1 hs' = .ok l) : hs = hs' := by
  fun_induction nextLevel SHA1 hs generalizing hs' l with
  | case1 =>
      cases h
      have hlen := length_nextLevel h'
      exact (List.length_eq_zero_iff.1 hlen).symm
  | case2 => cases h
  | case3 h₁ h₂ rest ih =>
      obtain ⟨t, ht, rfl⟩ := Except.map_eq_ok.1 h
      match hs' with
      | [] => cases h'
      | [_] => cases h'
      | h₁' :: h₂' :: rest' =>
          obtain ⟨t', ht', heq⟩ := Except.map_eq_ok.1 h'
          obtain ⟨hhead, rfl⟩ := List.cons.inj heq
          rw [levelInputs, List.forall_mem_cons] at hS hS'
          obtain ⟨rfl, rfl⟩ := Digest.append_inj (hinj hS'.1 hS.1 hhead)
          rw [ih hS.2 hS'.2 ht ht']

/-- The loop over the levels stops at the first level with one hash. -/
theorem merkleLevels_succ_eq_ok {fuel : Nat} {hs : List Digest} {root : Digest} :
    merkleLevels SHA1 (fuel + 1) hs = .ok root ↔
      nextLevel SHA1 hs = .ok [root] ∨
        ∃ l, nextLevel SHA1 hs = .ok l ∧ l.length ≠ 1 ∧ merkleLevels SHA1 fuel l = .ok root := by
  rw [merkleLevels, Except.bind_eq_ok]
  constructor
  · rintro ⟨l, hl, h⟩
    split at h
    · cases h
      exact .inl hl
    · rename_i hne
      refine .inr ⟨l, hl, fun hone => ?_, h⟩
      obtain ⟨r, rfl⟩ := List.length_eq_one_iff.1 hone
      exact hne r rfl
  · rintro (hl | ⟨l, hl, hne, h⟩)
    · exact ⟨_, hl, rfl⟩
    · refine ⟨l, hl, ?_⟩
      split
      · exact absurd rfl hne
      · exact h

/-- Level by level, the root of a tree determines its leaves. -/
theorem merkleLevels_injOn {S : Set Bytes} (hinj : Set.InjOn SHA1 S) {fuel : Nat}
    {hs hs' : List Digest} {root : Digest} (hlen : hs.length = hs'.length)
    (hS : ∀ s ∈ treeInputs SHA1 fuel hs, s ∈ S) (hS' : ∀ s ∈ treeInputs SHA1 fuel hs', s ∈ S)
    (h : merkleLevels SHA1 fuel hs = .ok root) (h' : merkleLevels SHA1 fuel hs' = .ok root) :
    hs = hs' := by
  induction fuel generalizing hs hs' with
  | zero => cases h
  | succ fuel ih =>
      rw [treeInputs, List.forall_mem_append] at hS hS'
      have hlevels : ∀ l l', nextLevel SHA1 hs = .ok l → nextLevel SHA1 hs' = .ok l' →
          l.length = l'.length := by
        intro l l' hl hl'
        have hl₁ := length_nextLevel hl
        have hl₂ := length_nextLevel hl'
        omega
      rcases merkleLevels_succ_eq_ok.1 h with hl | ⟨l, hl, hne, hrest⟩
      · rcases merkleLevels_succ_eq_ok.1 h' with hl' | ⟨l', hl', hne', -⟩
        · exact nextLevel_injOn hinj hS.1 hS'.1 hl hl'
        · exact absurd (hlevels _ _ hl hl').symm hne'
      · rcases merkleLevels_succ_eq_ok.1 h' with hl' | ⟨l', hl', hne', hrest'⟩
        · exact absurd (hlevels _ _ hl hl') hne
        · have habove := hS.2
          have habove' := hS'.2
          simp only [hl, if_neg hne] at habove
          simp only [hl', if_neg hne'] at habove'
          obtain rfl := ih (hlevels _ _ hl hl') habove habove' hrest hrest'
          exact nextLevel_injOn hinj hS.1 hS'.1 hl hl'

/-! ## The leaves -/

/-- The 20 bytes that are read of a key, where `behind` is in memory behind its NUL. -/
def keyBytes (behind : Nat → UInt8) (key : Bytes) : Bytes :=
  (key ++ 0 :: (List.range publicKeySize).map behind).take publicKeySize

/-- `calculate_merkle_root` as it goes on behind the end of the first key. -/
def calculateMerkleRootIn (SHA1 : Bytes → Digest) (behind : Nat → UInt8) (b : Block) :
    Exec (Block × Digest) := do
  let oldHashes ← (List.range numTransactionsPerBlock).mapM fun _ => do
    let t ← b.entry 0
    return SHA1 (keyBytes behind t.senderPublicKey)
  let root ← merkleLevels SHA1 numTransactionsPerBlock oldHashes
  return ({ b with merkleRoot := root.ptr }, root)

theorem calculateMerkleRootIn_of_entry (SHA1 : Bytes → Digest) (behind : Nat → UInt8) {b : Block}
    {t : Transaction} (h : b.entry 0 = .ok t) :
    b.calculateMerkleRootIn SHA1 behind =
      .ok ({ b with merkleRoot := (uniformRoot SHA1 (keyBytes behind t.senderPublicKey)).ptr },
        uniformRoot SHA1 (keyBytes behind t.senderPublicKey)) := by
  unfold calculateMerkleRootIn
  rw [h]
  rfl

/-- Where the key has 20 bytes, its NUL included, it is the root of the model. -/
theorem calculateMerkleRootIn_eq (SHA1 : Bytes → Digest) (behind : Nat → UInt8) {b : Block}
    {t : Transaction} (h : b.entry 0 = .ok t)
    (hlen : publicKeySize ≤ t.senderPublicKey.length + 1) :
    b.calculateMerkleRootIn SHA1 behind = b.calculateMerkleRoot SHA1 := by
  have hdata : b.leafData = .ok (keyBytes behind t.senderPublicKey) := by
    unfold leafData
    rw [h, Except.ok_bind]
    refine CharPtr.read_eq_ok.2 ⟨_, rfl, by simpa using hlen, ?_⟩
    rw [keyBytes, List.append_cons, List.take_append_of_le_length (by simpa using hlen)]
  rw [calculateMerkleRootIn_of_entry SHA1 behind h, calculateMerkleRoot_eq, hdata]
  rfl

/-- The strings hashed in a call of `calculate_merkle_root`. -/
def RootHashes (SHA1 : Bytes → Digest) (behind : Nat → UInt8) (b : Block) (s : Bytes) : Prop :=
  ∃ t, b.entry 0 = .ok t ∧ (s = keyBytes behind t.senderPublicKey ∨
    s ∈ treeInputs SHA1 numTransactionsPerBlock
      (List.replicate numTransactionsPerBlock (SHA1 (keyBytes behind t.senderPublicKey))))

/-- Equal roots come from equal leaves. -/
theorem keyBytes_eq_of_root_eq {behind behind' : Nat → UInt8} {b c : Block} {t u : Transaction}
    (hinj : Set.InjOn SHA1 {s | b.RootHashes SHA1 behind s ∨ c.RootHashes SHA1 behind' s})
    (hb : b.entry 0 = .ok t) (hc : c.entry 0 = .ok u)
    (hroot : uniformRoot SHA1 (keyBytes behind t.senderPublicKey) =
      uniformRoot SHA1 (keyBytes behind' u.senderPublicKey)) :
    keyBytes behind t.senderPublicKey = keyBytes behind' u.senderPublicKey := by
  have hleaves := merkleLevels_injOn hinj (by simp)
    (fun s hs => .inl ⟨t, hb, .inr hs⟩) (fun s hs => .inr ⟨u, hc, .inr hs⟩)
    (merkleLevels_uniform SHA1 _)
    ((merkleLevels_uniform SHA1 _).trans (congrArg Except.ok hroot.symm))
  exact hinj (.inl ⟨t, hb, .inl rfl⟩) (.inr ⟨u, hc, .inl rfl⟩)
    (List.replicate_right_inj (by decide) |>.1 hleaves)

/-- Equal roots only for equal voters and votes at every index. -/
def CommitsToVotes (SHA1 : Bytes → Digest) (behind behind' : Nat → UInt8) (b c : Block) : Prop :=
  ∀ b' c' root root', b.calculateMerkleRootIn SHA1 behind = .ok (b', root) →
    c.calculateMerkleRootIn SHA1 behind' = .ok (c', root') → root = root' → b.ballots = c.ballots

/-- The same 20 bytes are read of the keys of the first voters. -/
def SameFirstKey (behind behind' : Nat → UInt8) (b c : Block) : Prop :=
  b.votes.head?.map (keyBytes behind ·.senderPublicKey) =
    c.votes.head?.map (keyBytes behind' ·.senderPublicKey)

theorem Populated.exists_first {b : Block} (h : b.Populated) :
    ∃ t, b.entry 0 = .ok t ∧ b.votes.head? = some t := by
  obtain ⟨t, rest, hvotes⟩ : ∃ t rest, b.votes = t :: rest := by
    refine List.exists_cons_of_length_pos ?_
    rw [h.length_votes]
    decide
  refine ⟨t, ?_, by rw [hvotes]; rfl⟩
  have hentry : b.transactionArray[0]? = some (some t) := by
    rw [← Vector.getElem?_toList, populated_iff.1 h, hvotes]
    rfl
  rw [entry, hentry]

theorem Populated.leafData_eq_ok {b : Block} (h : b.Populated) {data : Bytes} :
    b.leafData = .ok data ↔ ∃ t, b.votes.head? = some t ∧
      publicKeySize ≤ t.senderPublicKey.length + 1 ∧
      data = (t.senderPublicKey ++ [0]).take publicKeySize := by
  obtain ⟨t, ht, hhead⟩ := h.exists_first
  unfold Block.leafData
  rw [hhead, ht, Except.ok_bind, CharPtr.read_eq_ok]
  simp [CharPtr.ofString]

/-- The root of a full block commits to its votes against another block if the
votes are the same anyway, or the first voters differ in the bytes that are
hashed. -/
theorem commitsToVotes_iff {behind behind' : Nat → UInt8} {b c : Block} (hb : b.Populated)
    (hc : c.Populated)
    (hinj : Set.InjOn SHA1 {s | b.RootHashes SHA1 behind s ∨ c.RootHashes SHA1 behind' s}) :
    CommitsToVotes SHA1 behind behind' b c ↔
      b.ballots = c.ballots ∨ ¬ SameFirstKey behind behind' b c := by
  obtain ⟨t, ht, hbhead⟩ := hb.exists_first
  obtain ⟨u, hu, hchead⟩ := hc.exists_first
  have hbroot := calculateMerkleRootIn_of_entry SHA1 behind ht
  have hcroot := calculateMerkleRootIn_of_entry SHA1 behind' hu
  have hsame : SameFirstKey behind behind' b c ↔
      keyBytes behind t.senderPublicKey = keyBytes behind' u.senderPublicKey := by
    rw [SameFirstKey, hbhead, hchead]
    simp
  rw [hsame]
  constructor
  · intro h
    by_cases hkey : keyBytes behind t.senderPublicKey = keyBytes behind' u.senderPublicKey
    · exact .inl (h _ _ _ _ hbroot hcroot (by rw [hkey]))
    · exact .inr hkey
  · rintro (h | h)
    · exact fun _ _ _ _ _ _ _ => h
    · rintro b' c' root root' hroot hroot' rfl
      cases hbroot.symm.trans hroot
      have heq := (Prod.mk.inj (Except.ok.inj (hcroot.symm.trans hroot'))).2
      exact absurd (keyBytes_eq_of_root_eq hinj ht hu heq.symm) h

/-! ## Two blocks with one root -/

/-- A full block with the sample key first, and `id` as the vote of that key. -/
def sampleBallots (id : UInt8) : Block :=
  { sample id [] [] 2 with
    transactionArray := #v[some ⟨sampleKey, [id], 0⟩, some (.sample (id + 1)),
      some (.sample (id + 2)), some (.sample (id + 3)), some (.sample (id + 4)),
      some (.sample (id + 5)), some (.sample (id + 6)), some (.sample (id + 7))] }

def sampleRootInputs : List Bytes :=
  sampleKey :: treeInputs sampleSHA1 numTransactionsPerBlock
    (List.replicate numTransactionsPerBlock (sampleSHA1 sampleKey))

/-- The sample key has 20 bytes, whatever lies behind them. -/
theorem keyBytes_sampleKey (behind : Nat → UInt8) : keyBytes behind sampleKey = sampleKey := rfl

theorem sampleSHA1_injOn (id id' : UInt8) (behind behind' : Nat → UInt8) :
    Set.InjOn sampleSHA1 {s | (sampleBallots id).RootHashes sampleSHA1 behind s ∨
      (sampleBallots id').RootHashes sampleSHA1 behind' s} := by
  have hmem : ∀ id behind s, (sampleBallots id).RootHashes sampleSHA1 behind s →
      s ∈ sampleRootInputs := by
    rintro id behind s ⟨t, ht, hs⟩
    obtain rfl : ⟨sampleKey, [id], 0⟩ = t := Except.ok.inj ht
    rw [keyBytes_sampleKey] at hs
    exact List.mem_cons.2 hs
  have hinj : ∀ s ∈ sampleRootInputs, ∀ s' ∈ sampleRootInputs,
      sampleSHA1 s = sampleSHA1 s' → s = s' := by
    decide
  intro s hs s' hs' heq
  exact hinj s (hs.elim (hmem _ _ s) (hmem _ _ s)) s' (hs'.elim (hmem _ _ s') (hmem _ _ s')) heq

theorem commitsToVotes_sample :
    CommitsToVotes sampleSHA1 (fun _ => 0) (fun _ => 1) (sampleBallots 1) (sampleBallots 2) ↔
      (sampleBallots 1).ballots = (sampleBallots 2).ballots ∨
        ¬ SameFirstKey (fun _ => 0) (fun _ => 1) (sampleBallots 1) (sampleBallots 2) :=
  commitsToVotes_iff (by decide) (by decide) (sampleSHA1_injOn 1 2 _ _)

/-- The votes of the first voter differ, and so do the seven others, but the
roots are equal. -/
theorem sampleBallots_not_committed :
    ¬ ∀ (SHA1 : Bytes → Digest) behind behind' (b c : Block), b.Populated → c.Populated →
      Set.InjOn SHA1 {s | b.RootHashes SHA1 behind s ∨ c.RootHashes SHA1 behind' s} →
      CommitsToVotes SHA1 behind behind' b c := by
  intro h
  have hcommits := h sampleSHA1 (fun _ => 0) (fun _ => 0) (sampleBallots 1) (sampleBallots 2)
    (by decide) (by decide) (sampleSHA1_injOn 1 2 _ _)
  have heq := hcommits _ _ _ _ (calculateMerkleRootIn_of_entry sampleSHA1 _ rfl)
    (calculateMerkleRootIn_of_entry sampleSHA1 _ rfl) rfl
  exact absurd heq (by decide)

end Block

end OneVote
