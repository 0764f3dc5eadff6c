-- SUMMARY: Which requests for a block a miner can answer: on a chain of its own blocks, those that do not lead to the genesis hash.
import Mathlib.Data.List.Chain
import Mathlib.Data.List.ModifyLast
import OneVote.GenesisHash
import OneVote.Propagation

/-!
# Block requests

A request carries the hash of a block, or nothing to ask for the newest one. The
answer is encoded from the block in the chain. The genesis block has no previous
hash and no Merkle root to encode, and its hash is too short to be compared or
to be encoded as the previous hash of the next block. The hashes of a received
block are gone with the message that it came in.
-/

namespace OneVote

open TransitionSystem (Move)

/-- `GetBlock` for the given `block_hash`. The result `none` is `CANCELLED`. -/
def MinerService.getBlock (bc : Blockchain) (blockHash : Bytes) : Exec (Option BlockMsg) := do
  if blockHash = [] then
    let head ← bc.getHeadBlock
    return some (← encodeBlock head)
  else
    match ← bc.getBlockByHash (CharPtr.ofString blockHash) with
    | none => return none
    | some b => return some (← encodeBlock b)

/-- The 20 bytes of the block's hash are `hash`. -/
def Block.HasHash (b : Block) (hash : Bytes) : Prop := b.finhash.read publicKeySize = .ok hash

/-- What `encode_block` requires of a block. -/
structure Block.Encodable (b : Block) : Prop where
  prevBlockSHA1 : b.prevBlockSHA1.IsHash
  merkleRoot : b.merkleRoot.IsHash
  finhash : b.finhash.IsHash
  verifierPublicKey : b.verifierPublicKey ≠ none
  entries : ∃ ts, b.entries b.maxInd.toNat = .ok ts

namespace Blockchain

/-- The block is the newest, or one with the hash that is asked for. -/
def Requested (bc : Blockchain) (blockHash : Bytes) (b : Block) : Prop :=
  if blockHash = [] then bc.blocks.head? = some b else b ∈ bc.blocks ∧ b.HasHash blockHash

/-- The request is cancelled exactly when no block has its hash, and is otherwise
answered with a requested block that can be encoded. -/
def Answers (bc : Blockchain) (blockHash : Bytes) : Prop :=
  ∃ answer, MinerService.getBlock bc blockHash = .ok answer ∧
    (answer = none ↔ blockHash ≠ [] ∧ ∀ b ∈ bc.blocks, ¬ b.HasHash blockHash) ∧
    ∀ msg, answer = some msg →
      ∃ b, bc.Requested blockHash b ∧ b.Encodable ∧ encodeBlock b = .ok msg

/-- The genesis block is the newest block, or the hash that is asked for begins
with the text of its hash and no newer block has it. -/
def AsksForGenesis (bc : Blockchain) (blockHash : Bytes) : Prop :=
  if blockHash = [] then bc.nonGenesis = []
  else startingBlock <+: blockHash ∧ ∀ b ∈ bc.nonGenesis, ¬ b.HasHash blockHash

/-- The first block above the genesis block is asked for. -/
def AsksForFirst (bc : Blockchain) (blockHash : Bytes) : Prop :=
  ∃ newer first, bc.nonGenesis = newer ++ [first] ∧
    if blockHash = [] then newer = []
    else first.HasHash blockHash ∧ ∀ b ∈ newer, ¬ b.HasHash blockHash

end Blockchain

/-- Where a block of the chain comes from. -/
inductive Origin
  | mined
  | received
  deriving DecidableEq

/-- Where a block that the step adds comes from. -/
def Input.origin : Input → Origin
  | .mine => .mined
  | _ => .received

/-- The thread, and where the blocks above the genesis block come from. -/
structure Tracked where
  thread : Thread
  origins : List Origin

namespace Tracked

def initial (tail : GenesisTail) : Tracked := ⟨.initial tail, []⟩

/-- The origins in `bc`, which a step has made one block longer or cut back. -/
def originsAfter (s : Tracked) (i : Input) (bc : Blockchain) : List Origin :=
  if s.thread.bc.nonGenesis.length < bc.nonGenesis.length then i.origin :: s.origins
  else s.origins.drop (s.thread.bc.nonGenesis.length - bc.nonGenesis.length)

def Step (SHA1 : Bytes → Digest) (s : Tracked) (i : Input × List Effect) (s' : Tracked) : Prop :=
  Thread.Step SHA1 s.thread i s'.thread ∧ s'.origins = s.originsAfter i.1 s'.thread.bc

/-- The blocks as a request reads them, which comes when the handlers of the
received blocks have returned. The `prev_block_SHA1` of a mined block is the
pointer to the hash of the block below it, and of the genesis hash there is no
more than was written. -/
def readBlocks : List (Block × Origin) → List Block
  | [] => [genesisText]
  | (b, .received) :: rest => b.released :: readBlocks rest
  | (b, .mined) :: rest =>
      { b with prevBlockSHA1 := ((readBlocks rest).headD genesisText).finhash } :: readBlocks rest

def chain (s : Tracked) : Blockchain :=
  { s.thread.bc with blocks := readBlocks (s.thread.bc.nonGenesis.zip s.origins) }

/-- The request leads to the genesis hash: the genesis block is asked for, or a
first block that was mined on it. -/
def NeedsGenesis (s : Tracked) (blockHash : Bytes) : Prop :=
  s.thread.bc.AsksForGenesis blockHash ∨
    s.origins.getLast? = some .mined ∧ s.thread.bc.AsksForFirst blockHash

/-- Exactly the requests that lead to the genesis hash fail, among those with an
empty hash or one of 20 bytes. -/
def ServesOthers (s : Tracked) : Prop :=
  ∀ blockHash, blockHash = [] ∨ blockHash.length = publicKeySize →
    (s.chain.Answers blockHash ↔ ¬ s.NeedsGenesis blockHash)

/-- The step does not add a received block. -/
def AddsNone (m : Move Tracked (Input × List Effect)) : Prop :=
  ∀ b env, m.label.1 = .block (some b) env → m.pre.thread.bc.checkBlockValidity b ≠ .ok .ok

end Tracked

def tracked (SHA1 : Bytes → Digest) (tail : GenesisTail) :
    TransitionSystem Tracked (Input × List Effect) where
  init s := s = .initial tail
  step := Tracked.Step SHA1

namespace Blockchain

/-! ## Looking a block up -/

/-- Against 20 bytes the comparison decides whether the block has them. -/
theorem sameHash_hasHash {b : Block} {hash : Bytes} (hb : b.finhash.IsHash)
    (hhash : hash.length = publicKeySize) :
    ∃ same, sameHash b.finhash (CharPtr.ofString hash) = .ok same ∧
      (same = true ↔ b.HasHash hash) := by
  obtain ⟨bs, hbs, hlen⟩ := hb
  have hstring : (hash ++ [0]).take publicKeySize = hash := List.take_left' hhash
  refine ⟨_, by rw [hbs]; exact sameHash_some hlen (by simp [hhash]), ?_⟩
  rw [decide_eq_true_iff, hstring, Block.HasHash, hbs, CharPtr.read_eq_ok]
  constructor
  · intro heq
    exact ⟨bs, rfl, hlen, heq.symm⟩
  · rintro ⟨cs, hcs, -, heq⟩
    cases hcs
    exact heq.symm

/-- A block is found when one has the hash, and it is the newest that has it. -/
theorem findBlock_spec {hash : Bytes} (hhash : hash.length = publicKeySize) {bs : List Block}
    (h : ∀ b ∈ bs, b.finhash.IsHash) :
    ∃ found, findBlock (CharPtr.ofString hash) bs = .ok found ∧
      (found = none ↔ ∀ b ∈ bs, ¬ b.HasHash hash) ∧
      ∀ b, found = some b → ∃ newer older, bs = newer ++ b :: older ∧ b.HasHash hash ∧
        ∀ c ∈ newer, ¬ c.HasHash hash := by
  induction bs with
  | nil => exact ⟨none, rfl, by simp, by simp⟩
  | cons c rest ih =>
      obtain ⟨hfirst, hrest⟩ := List.forall_mem_cons.1 h
      obtain ⟨same, hsame, hiff⟩ := sameHash_hasHash hfirst hhash
      rw [findBlock, hsame, Except.ok_bind]
      cases same with
      | true =>
          have hhas := hiff.1 rfl
          refine ⟨some c, rfl, by simp [hhas], ?_⟩
          rintro b ⟨⟩
          exact ⟨[], rest, rfl, hhas, by simp⟩
      | false =>
          have hnot : ¬ c.HasHash hash := fun hhas => Bool.noConfusion (hiff.2 hhas)
          obtain ⟨found, hfound, hnone, hsome⟩ := ih hrest
          refine ⟨found, hfound, by simp [hnone, hnot], fun b hb => ?_⟩
          obtain ⟨newer, older, rfl, hhas, hnewer⟩ := hsome b hb
          exact ⟨c :: newer, older, rfl, hhas, List.forall_mem_cons.2 ⟨hnot, hnewer⟩⟩

/-- A later block is found only if no earlier one is. -/
theorem findBlock_append (hash : CharPtr) (bs cs : List Block) :
    findBlock hash (bs ++ cs) =
      findBlock hash bs >>= fun found =>
        if found.isSome then .ok found else findBlock hash cs := by
  induction bs with
  | nil => rfl
  | cons c rest ih =>
      rw [List.cons_append, findBlock, findBlock]
      cases sameHash c.finhash hash with
      | error e => rfl
      | ok same =>
          cases same with
          | true => rfl
          | false => exact ih

/-- The written genesis hash equals no hash that is asked for, and whether the
comparison ends depends on its text only. -/
theorem findBlock_genesisText {hash : Bytes} (hhash : hash.length = publicKeySize) :
    (startingBlock <+: hash →
        findBlock (CharPtr.ofString hash) [genesisText] = .error .outOfRange) ∧
      (¬ startingBlock <+: hash → findBlock (CharPtr.ofString hash) [genesisText] = .ok none) := by
  have hread : (CharPtr.ofString hash).IsHash := CharPtr.isHash_ofString.2 (by omega)
  rw [← CharPtr.namesGenesis_ofString]
  constructor
  · intro hnames
    rw [findBlock, (hnames.sameHash hread).2]
    rfl
  · intro hnames
    rw [findBlock, (sameHash_of_not_namesGenesis hnames hread).2]
    rfl

end Blockchain

theorem not_hasHash_genesisText (hash : Bytes) : ¬ genesisText.HasHash hash := by
  intro h
  obtain ⟨bs, hbs, hlen, -⟩ := CharPtr.read_eq_ok.1 h
  cases hbs
  exact absurd hlen (by decide)

theorem Block.Readable.encodable {b : Block} (h : b.Readable) : b.Encodable where
  prevBlockSHA1 := h.prevBlockSHA1
  merkleRoot := h.merkleRoot
  finhash := h.finhash
  verifierPublicKey := by
    rintro hnull
    obtain ⟨s, hs⟩ := h.verifierPublicKey
    rw [hnull] at hs
    cases hs
  entries := ⟨_, h.populated.entries_take (Int.toNat_le.2 h.maxInd_le)⟩

namespace Blockchain

/-! ## Answers -/

theorem getBlock_head {bc : Blockchain} {head : Block} (hhead : bc.getHeadBlock = .ok head) :
    MinerService.getBlock bc [] = some <$> encodeBlock head := by
  unfold MinerService.getBlock
  rw [if_pos rfl, hhead, Except.ok_bind]
  cases encodeBlock head <;> rfl

theorem getBlock_found {bc : Blockchain} {hash : Bytes} (hne : hash ≠ []) {b : Block}
    (hfound : bc.getBlockByHash (CharPtr.ofString hash) = .ok (some b)) :
    MinerService.getBlock bc hash = some <$> encodeBlock b := by
  unfold MinerService.getBlock
  rw [if_neg hne, hfound, Except.ok_bind]
  dsimp only
  cases encodeBlock b <;> rfl

/-- A request that selects a block is answered when the block can be encoded. -/
theorem answers_of_selected {bc : Blockchain} {hash : Bytes} {b : Block}
    (hselect : MinerService.getBlock bc hash = some <$> encodeBlock b) (hb : b.Readable)
    (hrequested : bc.Requested hash b) : bc.Answers hash := by
  obtain ⟨msg, hmsg⟩ := hb.exists_encodeBlock
  rw [hmsg] at hselect
  refine ⟨some msg, hselect, ?_, ?_⟩
  · refine iff_of_false (by simp) fun hnone => ?_
    rw [Requested, if_neg hnone.1] at hrequested
    exact hnone.2 b hrequested.1 hrequested.2
  · rintro _ ⟨⟩
    exact ⟨b, hrequested, hb.encodable, hmsg⟩

theorem not_answers_of_selected {bc : Blockchain} {hash : Bytes} {b : Block} {e : Stop}
    (hselect : MinerService.getBlock bc hash = some <$> encodeBlock b)
    (hfail : encodeBlock b = .error e) : ¬ bc.Answers hash := by
  rintro ⟨answer, hanswer, -⟩
  rw [hselect, hfail] at hanswer
  cases hanswer

/-- A hash that no block has is answered with `CANCELLED`. -/
theorem answers_of_missing {bc : Blockchain} {hash : Bytes} (hne : hash ≠ [])
    (hmissing : bc.getBlockByHash (CharPtr.ofString hash) = .ok none)
    (hnone : ∀ b ∈ bc.blocks, ¬ b.HasHash hash) : bc.Answers hash := by
  refine ⟨none, ?_, iff_of_true rfl ⟨hne, hnone⟩, by simp⟩
  unfold MinerService.getBlock
  rw [if_neg hne, hmissing]
  rfl

theorem not_answers_of_failed {bc : Blockchain} {hash : Bytes} {e : Stop} (hne : hash ≠ [])
    (hfail : bc.getBlockByHash (CharPtr.ofString hash) = .error e) : ¬ bc.Answers hash := by
  rintro ⟨answer, hanswer, -⟩
  unfold MinerService.getBlock at hanswer
  rw [if_neg hne, hfail] at hanswer
  cases hanswer

end Blockchain

namespace Tracked

/-! ## Chains of mined blocks -/

/-- The thread is intact and all blocks were mined here, each on the one below. -/
structure Own (s : Tracked) : Prop where
  intact : s.thread.Intact
  origins : s.origins = List.replicate s.thread.bc.nonGenesis.length .mined
  linked : s.thread.bc.nonGenesis.IsChain fun b c => b.prevBlockSHA1 = c.finhash

theorem initial_own (tail : GenesisTail) : (initial tail).Own where
  intact := Thread.initial_intact tail
  origins := rfl
  linked := .nil

theorem originsAfter_of_eq {s : Tracked} {i : Input} {bc : Blockchain}
    (h : bc.nonGenesis = s.thread.bc.nonGenesis) : s.originsAfter i bc = s.origins := by
  rw [originsAfter, h, if_neg (lt_irrefl _), Nat.sub_self, List.drop_zero]

theorem Own.step {SHA1 : Bytes → Digest} {s s' : Tracked} {i : Input × List Effect} (h : s.Own)
    (hs : s.Step SHA1 i s') (hadds : AddsNone ⟨s, i, s'⟩) : s'.Own := by
  obtain ⟨hstep, horigins⟩ := hs
  have hintact : s'.thread.Intact :=
    Thread.intact_preserved SHA1 Blockchain.sampleTail s.thread i s'.thread
      hstep (fun b env hb hcheck => absurd hcheck (hadds b env hb)) h.intact
  have hsame : s'.thread.bc = s.thread.bc → s'.Own := by
    intro hbc
    rw [originsAfter_of_eq (by rw [hbc])] at horigins
    exact ⟨hintact, by rw [horigins, hbc]; exact h.origins, by rw [hbc]; exact h.linked⟩
  obtain ⟨th', origins'⟩ := s'
  cases hstep.change with
  | accepted _ hcheck => exact absurd hcheck (hadds _ _ rfl)
  | @repaired _ _ _ it _ _ _ _ _ _ hfound =>
      have hdrop := Blockchain.nonGenesis_truncated s.thread.bc it
      refine ⟨hintact, ?_, ?_⟩
      · dsimp only at horigins ⊢
        rw [horigins, originsAfter, hdrop, List.length_drop, if_neg (by omega), h.origins,
          List.drop_replicate]
        congr 1
        omega
      · dsimp only
        rw [hdrop]
        exact h.linked.drop it
  | @mined w head _ hloop hhead =>
      -- the new block's `prev_block_SHA1` is the pointer to the hash of the head
      have hnew := Blockchain.nonGenesis_appended h.intact.short.nonempty
        (Thread.minedBlock w head)
      refine ⟨hintact, ?_, ?_⟩
      · dsimp only at horigins ⊢
        rw [horigins, originsAfter, hnew, List.length_cons, if_pos (Nat.lt_succ_self _), h.origins,
          List.replicate_succ]
        rfl
      · dsimp only
        rw [hnew, List.isChain_cons]
        refine ⟨fun c hc => ?_, h.linked⟩
        have hhead' : s.thread.bc.blocks.head? = some c := by
          rw [Blockchain.nonGenesis, List.head?_dropLast, Option.mem_def] at hc
          split at hc
          · exact hc
          · cases hc
        obtain rfl := Option.some.inj ((Blockchain.getHeadBlock_eq_ok.1 hhead).2.symm.trans hhead')
        rfl
  | _ => exact hsame rfl

/-- The first block with no more of the genesis hash than was written. -/
def first (b : Block) : Block := { b with prevBlockSHA1 := genesisText.finhash }

/-- Such blocks are read as they are, except for the first one. -/
theorem readBlocks_mined {bs : List Block}
    (h : bs.IsChain fun b c => b.prevBlockSHA1 = c.finhash) :
    readBlocks (bs.zip (List.replicate bs.length .mined)) =
      bs.modifyLast first ++ [genesisText] := by
  induction bs with
  | nil => rfl
  | cons b rest ih =>
      cases rest with
      | nil => rfl
      | cons c cs =>
          obtain ⟨hlink, hrest⟩ := List.isChain_cons_cons.1 h
          have hhead : ((readBlocks ((c :: cs).zip (List.replicate (c :: cs).length .mined))).headD
              genesisText).finhash = c.finhash := rfl
          have hlast : (b :: c :: cs).modifyLast first = b :: (c :: cs).modifyLast first :=
            List.modifyLast_append_of_right_ne_nil first [b] _ (List.cons_ne_nil c cs)
          rw [List.length_cons, List.replicate_succ, List.zip_cons_cons, readBlocks, hhead, ← hlink,
            ih hrest, hlast]
          rfl

/-- Below the blocks that are as they are lie the first one and the genesis block. -/
theorem Own.blocks_chain {s : Tracked} (h : s.Own) :
    s.thread.bc.nonGenesis = [] ∧ s.chain.blocks = [genesisText] ∨
      ∃ newer b, s.thread.bc.nonGenesis = newer ++ [b] ∧
        s.chain.blocks = newer ++ [first b, genesisText] := by
  have hread : s.chain.blocks = s.thread.bc.nonGenesis.modifyLast first ++ [genesisText] := by
    rw [← readBlocks_mined h.linked, ← h.origins]
    rfl
  rcases List.eq_nil_or_concat s.thread.bc.nonGenesis with hnil | ⟨newer, b, hconcat⟩
  · refine .inl ⟨hnil, ?_⟩
    rw [hread, hnil]
    rfl
  · rw [List.concat_eq_append] at hconcat
    refine .inr ⟨newer, b, hconcat, ?_⟩
    rw [hread, hconcat, List.modifyLast_concat]
    exact List.append_assoc _ _ _

theorem Own.needsGenesis_iff {s : Tracked} (h : s.Own) (hash : Bytes) :
    s.NeedsGenesis hash ↔ s.thread.bc.AsksForGenesis hash ∨ s.thread.bc.AsksForFirst hash := by
  refine or_congr_right (and_iff_right_of_imp ?_)
  rintro ⟨newer, b, hconcat, -⟩
  rw [h.origins, hconcat, List.length_append, List.length_singleton, List.replicate_succ']
  exact List.getLast?_concat

theorem getHeadBlock_chain {s : Tracked} (h : s.thread.Short) {head : Block}
    (hhead : s.chain.blocks.head? = some head) : s.chain.getHeadBlock = .ok head :=
  Blockchain.getHeadBlock_eq_ok.2 ⟨h.chainLength_pos.ne', hhead⟩

/-! ## Which requests are answered -/

/-- A selected first block cannot be encoded. -/
theorem not_answers_first {s : Tracked} {hash : Bytes} {b : Block}
    (hselect : MinerService.getBlock s.chain hash = some <$> encodeBlock (first b)) :
    ¬ s.chain.Answers hash :=
  Blockchain.not_answers_of_selected (e := .outOfRange) hselect rfl

/-- Asking for the newest block. -/
theorem answers_newest_iff {s : Tracked} (h : s.Own) :
    s.chain.Answers [] ↔ ¬ s.NeedsGenesis [] := by
  rw [h.needsGenesis_iff, Blockchain.AsksForGenesis, if_pos rfl]
  rcases h.blocks_chain with ⟨hnil, hchain⟩ | ⟨newer, b, hconcat, hchain⟩
  · have hselect :=
      Blockchain.getBlock_head (getHeadBlock_chain h.intact.short (by rw [hchain]; rfl))
    exact iff_of_false (Blockchain.not_answers_of_selected hselect rfl) (not_not_intro (.inl hnil))
  · cases newer with
    | nil =>
        have hselect :=
          Blockchain.getBlock_head (getHeadBlock_chain h.intact.short (by rw [hchain]; rfl))
        exact iff_of_false (not_answers_first hselect)
          (not_not_intro (.inr ⟨[], b, hconcat, by rw [if_pos rfl]⟩))
    | cons c rest =>
        have hc := h.intact.legible.readable c (by rw [hconcat]; exact List.mem_cons_self)
        have hhead : s.chain.blocks.head? = some c := by rw [hchain]; rfl
        refine iff_of_true (Blockchain.answers_of_selected
          (Blockchain.getBlock_head (getHeadBlock_chain h.intact.short hhead)) hc
          (by rwa [Blockchain.Requested, if_pos rfl])) ?_
        rintro (hnil | ⟨newer, first, hfirst, hnil⟩)
        · simp [hconcat] at hnil
        · rw [if_pos rfl] at hnil
          simp [hconcat, hnil] at hfirst

/-- Asking for a hash that no block above the genesis block has. -/
theorem answers_unknown_iff {s : Tracked} (h : s.Own) {hash : Bytes}
    (hlen : hash.length = publicKeySize)
    (hlookup : s.chain.getBlockByHash (CharPtr.ofString hash) =
      Blockchain.findBlock (CharPtr.ofString hash) [genesisText])
    (hnone : ∀ c ∈ s.thread.bc.nonGenesis, ¬ c.HasHash hash) :
    s.chain.Answers hash ↔ ¬ s.NeedsGenesis hash := by
  have hne : hash ≠ [] := List.ne_nil_of_length_pos (hlen ▸ Nat.succ_pos _)
  obtain ⟨hfails, hpasses⟩ := Blockchain.findBlock_genesisText hlen
  rw [h.needsGenesis_iff, Blockchain.AsksForGenesis, if_neg hne]
  by_cases htext : Blockchain.startingBlock <+: hash
  · exact iff_of_false (Blockchain.not_answers_of_failed hne (hlookup.trans (hfails htext)))
      (not_not_intro (.inl ⟨htext, hnone⟩))
  · refine iff_of_true (Blockchain.answers_of_missing hne (hlookup.trans (hpasses htext)) ?_) ?_
    · rcases h.blocks_chain with ⟨-, hchain⟩ | ⟨newer, b, hconcat, hchain⟩
      · rw [hchain]
        exact List.forall_mem_singleton.2 (not_hasHash_genesisText hash)
      · rw [hconcat, List.forall_mem_append, List.forall_mem_singleton] at hnone
        rw [hchain, List.forall_mem_append, List.forall_mem_cons, List.forall_mem_singleton]
        exact ⟨hnone.1, hnone.2, not_hasHash_genesisText hash⟩
    · rintro (hasks | ⟨newer, b, hconcat, hfirst⟩)
      · exact htext hasks.1
      · rw [if_neg hne] at hfirst
        exact hnone b (by simp [hconcat]) hfirst.1

/-- Asking for a hash. -/
theorem answers_hash_iff {s : Tracked} (h : s.Own) {hash : Bytes}
    (hlen : hash.length = publicKeySize) : s.chain.Answers hash ↔ ¬ s.NeedsGenesis hash := by
  have hne : hash ≠ [] := List.ne_nil_of_length_pos (hlen ▸ Nat.succ_pos _)
  rcases h.blocks_chain with ⟨hnil, hchain⟩ | ⟨newer, b, hconcat, hchain⟩
  · refine answers_unknown_iff h hlen ?_ (by simp [hnil])
    rw [Blockchain.getBlockByHash, hchain]
  · have hread : ∀ c ∈ newer ++ [b], c.Readable := by
      rw [← hconcat]
      exact h.intact.legible.readable
    obtain ⟨hnewer, hb⟩ := List.forall_mem_append.1 hread
    have hb := hb b (List.mem_singleton_self b)
    obtain ⟨found, hfound, hnone, hsome⟩ :=
      Blockchain.findBlock_spec hlen fun c hc => (hnewer c hc).finhash
    obtain ⟨same, hsame, hhas⟩ := Blockchain.sameHash_hasHash hb.finhash hlen
    have hlookup : s.chain.getBlockByHash (CharPtr.ofString hash) =
        if found.isSome then .ok found
        else if same then .ok (some (first b))
        else Blockchain.findBlock (CharPtr.ofString hash) [genesisText] := by
      have hfirst : sameHash (first b).finhash (CharPtr.ofString hash) = .ok same := hsame
      rw [Blockchain.getBlockByHash, hchain, Blockchain.findBlock_append, hfound, Except.ok_bind,
        Blockchain.findBlock, hfirst]
      rfl
    cases found with
    | some c =>
        -- a block above the first one
        obtain ⟨front, back, hsplit, hchas, -⟩ := hsome c rfl
        have hc : c ∈ newer := by simp [hsplit]
        have hrequested : s.chain.Requested hash c := by
          rw [Blockchain.Requested, if_neg hne, hchain]
          exact ⟨List.mem_append_left _ hc, hchas⟩
        refine iff_of_true (Blockchain.answers_of_selected
          (Blockchain.getBlock_found hne hlookup) (hnewer c hc) hrequested) ?_
        rw [h.needsGenesis_iff, Blockchain.AsksForGenesis, if_neg hne]
        rintro (⟨-, hno⟩ | ⟨newer', b', hconcat', hfirst⟩)
        · exact hno c (hconcat ▸ List.mem_append_left _ hc) hchas
        · obtain ⟨rfl, -⟩ := List.append_inj' (hconcat.symm.trans hconcat') rfl
          rw [if_neg hne] at hfirst
          exact hfirst.2 c hc hchas
    | none =>
        have hno := hnone.1 rfl
        cases same with
        | true =>
            -- the first block
            have hasks : s.thread.bc.AsksForFirst hash :=
              ⟨newer, b, hconcat, by rw [if_neg hne]; exact ⟨hhas.1 rfl, hno⟩⟩
            exact iff_of_false (not_answers_first (Blockchain.getBlock_found hne hlookup))
              (not_not_intro ((h.needsGenesis_iff hash).2 (.inr hasks)))
        | false =>
            refine answers_unknown_iff h hlen hlookup ?_
            rw [hconcat]
            exact List.forall_mem_append.2 ⟨hno, List.forall_mem_singleton.2
              fun hbhas => Bool.noConfusion (hhas.2 hbhas)⟩

theorem Own.servesOthers {s : Tracked} (h : s.Own) : s.ServesOthers := by
  rintro hash (rfl | hlen)
  · exact answers_newest_iff h
  · exact answers_hash_iff h hlen

/-! ## Runs -/

/-- A received block that was added is the newest, and cannot be encoded. -/
theorem addsNone_of_serves {SHA1 : Bytes → Digest} {s s' : Tracked} {i : Input × List Effect}
    (h : s.Own) (hs : s.Step SHA1 i s') (hserves : s'.ServesOthers) : AddsNone ⟨s, i, s'⟩ := by
  intro b env hb hcheck
  obtain ⟨hstep, horigins⟩ := hs
  obtain ⟨th', origins'⟩ := s'
  cases hstep.change with
  | ignored _ hbad =>
      cases hb
      exact Thread.not_ok_of_ignored hbad hcheck
  | repaired _ hbad =>
      cases hb
      cases hcheck.symm.trans hbad
  | @accepted b =>
      -- a request without a hash asks for it, and needs no genesis hash
      cases hb
      have hblocks := Blockchain.nonGenesis_appended h.intact.short.nonempty b
      obtain rfl : origins' = .received :: s.origins := by
        dsimp only at horigins
        rw [horigins, originsAfter, hblocks, List.length_cons, if_pos (Nat.lt_succ_self _)]
        rfl
      have hneeds : ¬ (⟨⟨Thread.appended s.thread.bc b, .new, false, .pop⟩,
          .received :: s.origins⟩ : Tracked).NeedsGenesis [] := by
        rintro (hasks | ⟨hmined, newer, first, hfirst, hnil⟩)
        · rw [Blockchain.AsksForGenesis, if_pos rfl] at hasks
          cases hblocks.symm.trans hasks
        · rw [if_pos rfl] at hnil
          rw [hnil] at hfirst
          have hrest := (List.cons.inj (hblocks.symm.trans hfirst)).2
          rw [h.origins, hrest] at hmined
          cases hmined
      have hhead : (chain ⟨⟨Thread.appended s.thread.bc b, .new, false, .pop⟩,
          .received :: s.origins⟩).blocks.head? =
            some (Blockchain.numbered b (s.thread.bc.chainLength + 1)).released := by
        unfold chain
        dsimp only
        rw [hblocks]
        rfl
      exact Blockchain.not_answers_of_selected
        (Blockchain.getBlock_head (getHeadBlock_chain (h.intact.short.change hstep.change) hhead))
        (encodeBlock_released _) ((hserves [] (.inl rfl)).2 hneeds)
  | _ => cases hb

/-- In every state of a run all requests are answered but those that lead to the
genesis hash, exactly when no received block gets into the chain. -/
theorem run_serves_iff {SHA1 : Bytes → Digest} {tail : GenesisTail} {s : Tracked}
    {tr : List (Move Tracked (Input × List Effect))}
    (h : (tracked SHA1 tail).Run (.initial tail) tr s) :
    ((Tracked.initial tail).ServesOthers ∧ ∀ m ∈ tr, m.post.ServesOthers) ↔
      ∀ m ∈ tr, AddsNone m := by
  have hinit := initial_own tail
  rw [and_iff_right hinit.servesOthers]
  exact TransitionSystem.Run.forall_post_iff_of (J := Own) (P := ServesOthers)
    (fun _ _ _ hstep hadds hown => hown.step hstep hadds) (fun _ hown => hown.servesOthers)
    (fun _ _ _ hstep hown => addsNone_of_serves hown hstep) h hinit

/-- Every run of the thread can be tracked. -/
theorem exists_tracked {SHA1 : Bytes → Digest} {tail : GenesisTail} {th : Thread}
    {tr : List (Move Thread (Input × List Effect))}
    (h : (processingThread SHA1 tail).Run (.initial tail) tr th) :
    ∃ tr' s, (tracked SHA1 tail).Run (.initial tail) tr' s ∧ s.thread = th ∧
      tr'.map (fun m => ⟨m.pre.thread, m.label, m.post.thread⟩) = tr := by
  induction h with
  | nil => exact ⟨[], _, .nil, rfl, rfl⟩
  | @snoc th th' tr i _ hstep ih =>
      obtain ⟨tr', s, hrun, rfl, rfl⟩ := ih
      have hs : (tracked SHA1 tail).step s i ⟨th', s.originsAfter i.1 th'.bc⟩ := ⟨hstep, rfl⟩
      exact ⟨_, _, hrun.snoc hs, rfl, by rw [List.map_append]; rfl⟩

/-- A miner that has mined two blocks. -/
theorem serves_mined_twice :
    ∃ tr s, (tracked Block.sampleSHA1 Blockchain.sampleTail).Run
        (.initial Blockchain.sampleTail) tr s ∧
      s.thread.bc.nonGenesis.length = 2 ∧ ∀ m ∈ tr, m.post.ServesOthers := by
  obtain ⟨tr₀, th, hrun₀, hblock, -, -, hlen⟩ :=
    Thread.exists_mined_twice Blockchain.sampleTail
  obtain ⟨tr, s, hrun, rfl, rfl⟩ := exists_tracked hrun₀
  refine ⟨tr, s, hrun, hlen, ((run_serves_iff hrun).2 fun m hm b env hb => ?_).2⟩
  exact absurd hb (hblock _ (List.mem_map_of_mem hm) b env)

/-- A miner on the constructed blockchain cannot answer with its newest block. -/
theorem genesis_not_served :
    ¬ ∃ SHA1, ∀ tail s blockHash, (tracked SHA1 tail).Reachable s →
      blockHash = [] ∨ blockHash.length = publicKeySize → s.chain.Answers blockHash := by
  rintro ⟨SHA1, h⟩
  have hselect : MinerService.getBlock (Tracked.initial Blockchain.sampleTail).chain [] =
      some <$> encodeBlock genesisText := Blockchain.getBlock_head rfl
  exact Blockchain.not_answers_of_selected hselect rfl
    (h Blockchain.sampleTail (.initial Blockchain.sampleTail) [] (.of_init rfl) (.inl rfl))

end Tracked

end OneVote
