-- SUMMARY: Elections whose keys begin alike: all mined blocks get one hash, and no step with a received block changes a chain.
import OneVote.FinalHash
import OneVote.Mining
import OneVote.MerkleRoot
import OneVote.Network
import OneVote.RoundTrip

/-!
# Keys that begin alike

The leaves of the Merkle tree are the first 20 bytes of the first voter's key.
All key files begin with the same line, which is longer. So every block of such
an election is hashed alike, and a mined block links to any other.
-/

namespace OneVote

open TransitionSystem (Move)

/-! ## Hashes that went over the wire -/

/-- A received hash compares as the hash that was sent. -/
theorem sameHash_received {p q : CharPtr} {s : Bytes} (hp : p.read publicKeySize = .ok s)
    (hq : q.IsHash) :
    sameHash (CharPtr.ofString s) q = sameHash p q ∧
      sameHash q (CharPtr.ofString s) = sameHash q p := by
  obtain ⟨bs, rfl, hlen, rfl⟩ := CharPtr.read_eq_ok.1 hp
  obtain ⟨cs, rfl, hlen'⟩ := hq
  have htake : (bs.take publicKeySize).length = publicKeySize := by
    rw [List.length_take, Nat.min_eq_left hlen]
  have hsame : (bs.take publicKeySize ++ [0]).take publicKeySize = bs.take publicKeySize := by
    rw [List.take_append_of_le_length htake.ge, List.take_take, Nat.min_self]
  have hlong : publicKeySize ≤ (bs.take publicKeySize ++ [0]).length := by
    rw [List.length_append, htake]
    exact Nat.le_succ _
  rw [CharPtr.ofString, sameHash_some hlong hlen', sameHash_some hlen hlen',
    sameHash_some hlen' hlong, sameHash_some hlen' hlen, hsame]
  exact ⟨rfl, rfl⟩

namespace Block

/-- A block that a miner made of votes whose keys begin with `P`: it is hashed
at the first try that hits, and lies on the genesis block as number 2 or on a
block hashed alike. -/
structure MinedAlike (SHA1 : Bytes → Digest) (P : Bytes) (tail : GenesisTail) (c : Block) :
    Prop where
  hashed : Thread.HashedFirst SHA1 P c
  meetsTarget : c.MeetsTarget
  link : c.prevBlockSHA1 = (Blockchain.genesis tail).finhash ∧ c.blockNumber = 2 ∨
    ∃ d, Thread.HashedFirst SHA1 P d ∧ c.prevBlockSHA1 = d.finhash

/-- The block as it arrives at another miner. -/
def ArrivesAs (c b : Block) : Prop := ∃ msg, encodeBlock c = .ok msg ∧ decodeBlock msg = .ok b

theorem ArrivesAs.number {c b : Block} (h : c.ArrivesAs b) : b.blockNumber = c.blockNumber := by
  obtain ⟨msg, hencode, hdecode⟩ := h
  obtain ⟨-, -, -, -, -, hnumber, -⟩ := encodeBlock_eq_ok.1 hencode
  obtain ⟨-, arr, -, rfl⟩ := BlockMsg.decodeBlock_eq_ok.1 hdecode
  exact hnumber

/-- A block that arrived links as the block that was sent. -/
theorem ArrivesAs.prevBlockSHA1 {c b : Block} (h : c.ArrivesAs b) {q : CharPtr} (hq : q.IsHash) :
    sameHash b.prevBlockSHA1 q = sameHash c.prevBlockSHA1 q := by
  obtain ⟨msg, hencode, hdecode⟩ := h
  obtain ⟨hprev, -⟩ := encodeBlock_eq_ok.1 hencode
  obtain ⟨-, arr, -, rfl⟩ := BlockMsg.decodeBlock_eq_ok.1 hdecode
  exact (sameHash_received hprev hq).1

theorem ArrivesAs.finhash {c b : Block} (h : c.ArrivesAs b) {q : CharPtr} (hq : q.IsHash) :
    sameHash q b.finhash = sameHash q c.finhash := by
  obtain ⟨msg, hencode, hdecode⟩ := h
  obtain ⟨-, -, -, hhash, -⟩ := encodeBlock_eq_ok.1 hencode
  obtain ⟨-, arr, -, rfl⟩ := BlockMsg.decodeBlock_eq_ok.1 hdecode
  exact (sameHash_received hhash hq).2

end Block

namespace Thread

variable {SHA1 : Bytes → Digest} {P : Bytes} {tail : GenesisTail} {th th' : Thread} {i : Input}
  {effects : List Effect}

theorem HashedFirst.isHash {data : Bytes} {b : Block} (h : HashedFirst SHA1 data b) :
    b.finhash.IsHash := by
  obtain ⟨k, -, hash⟩ := h
  rw [hash.finhash]
  exact Digest.isHash_ptr _

/-- A miner in an election whose keys begin with `P`, that has never left its
own chain. -/
structure Alone (SHA1 : Bytes → Digest) (P : Bytes) (tail : GenesisTail) (th : Thread) :
    Prop where
  counted : th.Counted
  searching : th.Searching SHA1
  short : th.Short
  aligned : th.bc.Aligned
  genesis : th.bc.blocks.getLast? = some (Blockchain.genesis tail)
  keys : ∀ t ∈ th.newBlock.votes, P <+: t.senderPublicKey
  mined : ∀ c ∈ th.bc.nonGenesis, c.MinedAlike SHA1 P tail

/-- The votes that the step takes have keys that begin with `P`. -/
def TakesPrefix (P : Bytes) (i : Input) : Prop := ∀ t ∈ i.taken, P <+: t.senderPublicKey

/-- A block that the step takes was mined alike and arrived without votes. -/
def TakesMined (SHA1 : Bytes → Digest) (P : Bytes) (tail : GenesisTail) (i : Input) : Prop :=
  ∀ b ∈ i.received, ¬ b.Populated ∧ ∃ c : Block, c.MinedAlike SHA1 P tail ∧ c.ArrivesAs b

theorem initial_alone (SHA1 : Bytes → Digest) (P : Bytes) (tail : GenesisTail) :
    (initial tail).Alone SHA1 P tail where
  counted := initial_counted tail
  searching := searching_of_magic rfl
  short := initial_short tail
  aligned := Blockchain.new_aligned tail
  genesis := rfl
  keys := by
    intro t ht
    cases ht
  mined := by
    intro c hc
    cases hc

/-- Eight keys that begin with `P` make leaves that read `P`. -/
theorem Alone.leafData (h : th.Alone SHA1 P tail) (hP : P.length = publicKeySize)
    (hpoint : th.point = .mine) : th.newBlock.leafData = .ok P := by
  have hpop := h.counted.wellFormed.populated hpoint
  obtain ⟨t, rest, hvotes⟩ : ∃ t rest, th.newBlock.votes = t :: rest := by
    apply List.exists_cons_of_length_pos
    rw [hpop.length_votes]
    decide
  obtain ⟨more, hkey⟩ := h.keys t (by rw [hvotes]; exact List.mem_cons_self)
  rw [hpop.leafData_eq_ok]
  refine ⟨t, by rw [hvotes]; rfl, ?_, ?_⟩
  · rw [← hkey, List.length_append, hP]
    omega
  · rw [← hkey, List.append_assoc, List.take_append_of_le_length hP.ge, ← hP, List.take_length]

/-! ## Received blocks -/

/-- A block on `older.length` others above genesis has the number for it. -/
theorem Alone.number_eq (h : th.Alone SHA1 P tail) {b : Block} {older : List Block}
    (hb : (b :: older) <:+ th.bc.nonGenesis) : b.blockNumber.toNat = older.length + 2 := by
  obtain ⟨newer, hsplit⟩ := hb
  have hblocks := Blockchain.blocks_eq h.genesis
  rw [← hsplit] at hblocks
  have hplace : th.bc.blocks.reverse[older.length + 1]? = some b := by
    rw [hblocks]
    simp
  exact h.aligned.numbers _ _ hplace

/-- A block that arrives from such an election never makes a repair return: it
links to a mined head, or is no higher, or is unknown to a new chain. -/
theorem Alone.not_repaired (h : th.Alone SHA1 P tail) {c b head : Block} {it : Nat}
    (hc : c.MinedAlike SHA1 P tail) (harrives : c.ArrivesAs b)
    (hcheck : th.bc.checkBlockValidity b = .ok .prevBlockNonmatch)
    (hhead : th.bc.getHeadBlock = .ok head) (hhigher : head.blockNumber < b.blockNumber)
    (hfound : th.bc.checkIfBlockInChain b = .ok (some it)) : False := by
  obtain ⟨head', hhead', hlink⟩ := Blockchain.checkBlockValidity_eq_nonmatch.1 hcheck
  cases hhead.symm.trans hhead'
  rcases Blockchain.getHeadBlock_cases h.genesis hhead with ⟨hnil, rfl⟩ | ⟨bs, hchain⟩
  · -- on the genesis block, the hash of the block is not in the chain
    obtain ⟨g, hg, hsame⟩ := Blockchain.findHash_eq_some hfound
    have hblocks := Blockchain.blocks_eq h.genesis
    rw [hnil, List.nil_append] at hblocks
    rw [hblocks] at hg
    obtain rfl := List.mem_singleton.1 (List.mem_of_getElem? hg)
    have hhash : (Blockchain.genesis tail).finhash.IsHash :=
      ⟨_, rfl, by simp [Blockchain.startingBlock]⟩
    rw [harrives.finhash hhash] at hsame
    exact hc.meetsTarget.not_genesis tail hsame
  · have hfirst := (h.mined head (hchain ▸ List.mem_cons_self)).hashed
    rcases hc.link with ⟨-, htwo⟩ | ⟨d, hd, hprev⟩
    · have hsuffix : (head :: bs) <:+ th.bc.nonGenesis := by rw [hchain]
      have hnumber := h.number_eq hsuffix
      rw [harrives.number, htwo, UInt32.lt_iff_toNat_lt, hnumber] at hhigher
      exact absurd hhigher (Nat.not_lt.2 (Nat.le_add_left 2 _))
    · obtain ⟨-, -, hfin⟩ := hd.unique hfirst
      rw [harrives.prevBlockSHA1 hfirst.isHash, hprev, hfin, sameHash_refl hfirst.isHash] at hlink
      cases hlink

/-- So the thread survives such a block only by ignoring it. -/
theorem Alone.ignores (h : th.Alone SHA1 P tail) {b : Block} {env : RepairEnv}
    (hi : TakesMined SHA1 P tail (.block (some b) env))
    (hs : Change SHA1 th (.block (some b) env, effects) th') :
    effects = [] ∧ th' = { th with point := .head } := by
  obtain ⟨hnot, c, hc, harrives⟩ := hi b (List.mem_singleton_self b)
  cases hs with
  | ignored => exact ⟨rfl, rfl⟩
  | accepted _ hcheck =>
      obtain ⟨-, -, -, hpop, -⟩ := Blockchain.checkBlockValidity_eq_ok.1 hcheck
      exact absurd hpop hnot
  | repaired _ hcheck hhead hhigher _ hfound =>
      exact (h.not_repaired hc harrives hcheck hhead hhigher hfound).elim

/-! ## Steps -/

/-- What a step adds to the chain and sends out: nothing, or a block mined alike. -/
def Grows (SHA1 : Bytes → Digest) (P : Bytes) (tail : GenesisTail) (th th' : Thread)
    (effects : List Effect) : Prop :=
  (th'.bc = th.bc ∧ ∀ c, .broadcastBlock c ∉ effects) ∨
    ∃ c : Block, c.MinedAlike SHA1 P tail ∧ th'.bc.blocks = c :: th.bc.blocks ∧
      effects = [.broadcastBlock c]

theorem Alone.keys_change (h : th.Alone SHA1 P tail) (hs : Change SHA1 th (i, effects) th')
    (hkeys : TakesPrefix P i) : ∀ t ∈ th'.newBlock.votes, P <+: t.senderPublicKey := by
  rcases hs.votes_cases h.counted.wellFormed with hsame | ⟨t, rfl, happend⟩ | hnil
  · rw [hsame]
    exact h.keys
  · rw [happend, List.forall_mem_append, List.forall_mem_singleton]
    exact ⟨h.keys, hkeys t (List.mem_singleton_self t)⟩
  · rw [hnil]
    intro t ht
    cases ht

theorem Alone.mine (h : th.Alone SHA1 P tail) (hP : P.length = publicKeySize)
    (hpoint : th.point = .mine) (hmine : th.mine SHA1 = .ok (th', effects)) :
    th'.Alone SHA1 P tail ∧ Grows SHA1 P tail th th' effects := by
  have hwell := h.counted.wellFormed
  have hchange := Step.change_mine hpoint hmine
  obtain ⟨hsearching, hfirst⟩ := h.searching.mine hwell hpoint hmine
  have hcounted := h.counted.change hchange
  have hshort := h.short.change hchange
  have hgenesis := hchange.getLast?_blocks h.genesis
  have hkeys := h.keys_change hchange (by simp [TakesPrefix, Input.taken])
  have hleaf := h.leafData hP hpoint
  rcases mine_eq_ok hmine with ⟨w, hloop, rfl, rfl⟩ | ⟨w, head, hloop, hhead, rfl, rfl⟩
  · exact ⟨⟨hcounted, hsearching, hshort, h.aligned, hgenesis, hkeys, h.mined⟩,
      .inl ⟨rfl, by simp⟩⟩
  · obtain ⟨-, hfound⟩ := mineLoop_spec hloop
    obtain ⟨-, htarget⟩ := hfound rfl
    obtain ⟨data, hdata, hashed⟩ := hfirst _ (List.mem_singleton_self _)
    obtain ⟨⟨magic, root, fin, hw⟩, -⟩ := mineLoop_spec hloop
    have hsame : w.leafData = .ok P := by
      rw [hw]
      exact hleaf
    obtain rfl : data = P := Except.ok.inj (hdata.symm.trans hsame)
    have hnew : (Blockchain.numbered (minedBlock w head) (th.bc.chainLength + 1)).MinedAlike
        SHA1 data tail := by
      refine ⟨hashed, htarget, ?_⟩
      -- the new block is the first above the genesis block, or stands on a mined one
      rcases Blockchain.getHeadBlock_cases h.genesis hhead with ⟨hnil, rfl⟩ | ⟨bs, hchain⟩
      · refine .inl ⟨rfl, ?_⟩
        have hblocks := Blockchain.blocks_eq h.genesis
        have hone : th.bc.chainLength = 1 := by rw [h.aligned.length, hblocks, hnil]; rfl
        rw [Blockchain.numbered, hone]
        rfl
      · exact .inr ⟨head, (h.mined head (hchain ▸ List.mem_cons_self)).hashed, rfl⟩
    have hlt : th.bc.chainLength < 5 := hshort.chainLength_le
    refine ⟨⟨hcounted, hsearching, hshort, h.aligned.appended hlt _, hgenesis, hkeys, ?_⟩,
      .inr ⟨_, hnew, rfl, rfl⟩⟩
    intro c hc
    rw [Blockchain.nonGenesis_appended h.short.nonempty] at hc
    rcases List.mem_cons.1 hc with rfl | hc
    · exact hnew
    · exact h.mined c hc

/-- A step that leaves the chain as it is. -/
theorem Alone.of_same_chain (h : th.Alone SHA1 P tail) (hs : Change SHA1 th (i, effects) th')
    (hkeys : TakesPrefix P i) (hi : i ≠ .mine) (hbc : th'.bc = th.bc)
    (heffects : ∀ c, .broadcastBlock c ∉ effects) :
    th'.Alone SHA1 P tail ∧ Grows SHA1 P tail th th' effects := by
  refine ⟨⟨h.counted.change hs, hs.searching hi h.counted.wellFormed h.searching,
    h.short.change hs, ?_, ?_, h.keys_change hs hkeys, ?_⟩, .inl ⟨hbc, heffects⟩⟩
  · rw [hbc]
    exact h.aligned
  · rw [hbc]
    exact h.genesis
  · rw [hbc]
    exact h.mined

theorem Alone.step (h : th.Alone SHA1 P tail) (hP : P.length = publicKeySize)
    (hs : Step SHA1 th (i, effects) th') (hkeys : TakesPrefix P i)
    (hi : TakesMined SHA1 P tail i) :
    th'.Alone SHA1 P tail ∧ Grows SHA1 P tail th th' effects := by
  have hchange := hs.change
  cases hs with
  | idle => exact h.of_same_chain hchange hkeys (by simp) rfl (by simp)
  | block =>
      obtain ⟨rfl, heq⟩ := h.ignores hi hchange
      exact h.of_same_chain hchange hkeys (by simp) (by rw [heq]) (by simp)
  | transaction =>
      apply h.of_same_chain hchange hkeys (by simp)
      · cases hchange <;> rfl
      · intro c
        cases hchange <;> simp
  | mine hpoint hmine => exact h.mine hP hpoint hmine

/-! ### A first block of such votes -/

/-- Eight votes whose keys begin with the sample key. -/
def alikeVotes : List Transaction :=
  ⟨Block.sampleKey, [89], 0⟩ ::
    (List.range 7).map fun n => ⟨Block.sampleKey ++ [UInt8.ofNat n], [89], 0⟩

/-- A run that takes these votes and nothing else, and mines a block of them. -/
theorem exists_alike_run (tail : GenesisTail) :
    ∃ tr th, (processingThread Block.sampleSHA1 tail).Run (.initial tail) tr th ∧
      (∀ m ∈ tr, TakesPrefix Block.sampleKey m.label.1) ∧
      (∀ m ∈ tr, ∀ b env, m.label.1 ≠ .block (some b) env) ∧ th.bc.nonGenesis.length = 1 := by
  have hnodup : (alikeVotes.map (·.senderPublicKey)).Nodup := by decide
  obtain ⟨tr, th, w, hrun, htakes, -, -, -, hstep, -, -, -, -, honly⟩ :=
    (initial_wellFormed tail).exists_mined tail rfl rfl rfl (show UInt32.ofNat 2 ≤ 5 by decide)
      rfl rfl (by simp [initial, Blockchain.new]) hnodup
  have halike : ∀ t ∈ alikeVotes, Block.sampleKey <+: t.senderPublicKey := by decide
  refine ⟨_, _, hrun.snoc hstep, List.forall_mem_append.2 ⟨?_, ?_⟩,
    List.forall_mem_append.2 ⟨htakes.noBlock, by simp⟩, rfl⟩
  · exact fun m hm t ht => halike t (honly m hm t (Input.mem_taken.1 ht))
  · simp [TakesPrefix, Input.taken]

end Thread

/-! ## Networks -/

namespace Network

variable {ι : Type*} {SHA1 : Bytes → Digest} {P : Bytes} {tail : GenesisTail}

/-- No miner has left its own chain, and only mined blocks are on the wire. -/
structure Isolated (SHA1 : Bytes → Digest) (P : Bytes) (tail : GenesisTail) (s : Network ι) :
    Prop where
  silent : s.Silent tail
  alone : ∀ j, (s.miners j).Alone SHA1 P tail
  wire : ∀ msg ∈ s.wire, ∃ c : Block, c.MinedAlike SHA1 P tail ∧ encodeBlock c = .ok msg

/-- The votes that the step takes have keys that begin with `P`. -/
def TakesPrefix (P : Bytes) (m : Move (Network ι) (ι × Input × List Effect)) : Prop :=
  Thread.TakesPrefix P m.label.2.1

/-- A received block changes nothing but where the thread stands. -/
def IgnoresBlocks (m : Move (Network ι) (ι × Input × List Effect)) : Prop :=
  m.label.2.1.received ≠ [] → m.label.2.2 = [] ∧ m.post.wire = m.pre.wire ∧
    ∀ j, (m.post.miners j).bc = (m.pre.miners j).bc ∧
      (m.post.miners j).newBlock = (m.pre.miners j).newBlock

/-- No chain loses a block. -/
def OnlyGrows (m : Move (Network ι) (ι × Input × List Effect)) : Prop :=
  ∀ j, (m.pre.miners j).bc.blocks <:+ (m.post.miners j).bc.blocks

theorem initial_isolated : (initial tail : Network ι).Isolated SHA1 P tail where
  silent := initial_silent tail
  alone := fun _ => Thread.initial_alone SHA1 P tail
  wire := by
    intro msg hmsg
    cases hmsg

theorem Isolated.takesMined {s : Network ι} (h : s.Isolated SHA1 P tail) {i : Input}
    (hi : s.Delivers i) : Thread.TakesMined SHA1 P tail i := by
  intro b hb
  obtain ⟨env, rfl⟩ := Input.mem_received.1 hb
  obtain ⟨msg, hmsg, hdecode⟩ := hi b env rfl
  obtain ⟨c, hc, hencode⟩ := h.wire msg hmsg
  obtain ⟨-, -, hnot⟩ := (h.silent.wire msg hmsg).decoded hdecode
  exact ⟨hnot, c, hc, msg, hencode, hdecode⟩

theorem mem_sent {effects : List Effect} {msg : BlockMsg} (h : msg ∈ sent effects) :
    ∃ c, .broadcastBlock c ∈ effects ∧ encodeBlock c = .ok msg := by
  obtain ⟨effect, heffect, hencode⟩ := List.mem_filterMap.1 h
  cases effect with
  | broadcastBlock c =>
      cases henc : encodeBlock c with
      | error e => simp [henc, Except.toOption] at hencode
      | ok msg' =>
          obtain rfl : msg' = msg := by simpa [henc, Except.toOption] using hencode
          exact ⟨c, heffect, henc⟩
  | broadcastTransaction t => cases hencode
  | push t => cases hencode

variable [DecidableEq ι]

theorem Step.isolated {s s' : Network ι} {i : ι × Input × List Effect} (hs : Step SHA1 s i s')
    (hP : P.length = publicKeySize) (hkeys : TakesPrefix P ⟨s, i, s'⟩)
    (h : s.Isolated SHA1 P tail) :
    s'.Isolated SHA1 P tail ∧ IgnoresBlocks ⟨s, i, s'⟩ ∧ OnlyGrows ⟨s, i, s'⟩ := by
  have hsilent := hs.silent h.silent
  cases hs with
  | @step j i effects th hdelivers hstep =>
      have htakes := h.takesMined hdelivers
      obtain ⟨halone, hgrows⟩ := (h.alone j).step hP hstep hkeys htakes
      refine ⟨⟨hsilent, forall_update h.alone halone, ?_⟩, ?_, ?_⟩
      · intro msg hmsg
        rcases List.mem_append.1 hmsg with hmsg | hmsg
        · exact h.wire msg hmsg
        · obtain ⟨c, hc, hencode⟩ := mem_sent hmsg
          rcases hgrows with ⟨-, hnone⟩ | ⟨c', hnew, -, rfl⟩
          · exact absurd hc (hnone c)
          · cases List.mem_singleton.1 hc
            exact ⟨c, hnew, hencode⟩
      · intro hreceived
        obtain ⟨b, hb⟩ := List.exists_mem_of_ne_nil _ hreceived
        obtain ⟨env, rfl⟩ := Input.mem_received.1 hb
        obtain ⟨rfl, rfl⟩ := (h.alone j).ignores htakes hstep.change
        refine ⟨rfl, List.append_nil _, fun k => ?_⟩
        by_cases hk : k = j
        · subst hk
          simp only [Function.update_self, and_self]
        · simp only [Function.update_of_ne hk, and_self]
      · intro k
        by_cases hk : k = j
        · subst hk
          simp only [Function.update_self]
          rcases hgrows with ⟨hbc, -⟩ | ⟨c, -, hblocks, -⟩
          · rw [hbc]
          · rw [hblocks]
            exact List.suffix_cons c _
        · simp only [Function.update_of_ne hk]
          exact List.suffix_refl _

/-- Mined blocks of two chains have the same magic and hashes. -/
def HashedAlike (s : Network ι) : Prop :=
  ∀ j k, ∀ b ∈ (s.miners j).bc.nonGenesis, ∀ c ∈ (s.miners k).bc.nonGenesis,
    b.magic = c.magic ∧ b.merkleRoot = c.merkleRoot ∧ b.finhash = c.finhash

/-- A block that lies on a mined block links to any mined block. -/
def LinksToAny (s : Network ι) : Prop :=
  ∀ j k b older, older ≠ [] → (b :: older) <:+ (s.miners j).bc.nonGenesis →
    ∀ c ∈ (s.miners k).bc.nonGenesis, sameHash b.prevBlockSHA1 c.finhash = .ok true

omit [DecidableEq ι] in
theorem Isolated.hashedAlike {s : Network ι} (h : s.Isolated SHA1 P tail) : s.HashedAlike :=
  fun j k b hb c hc => (((h.alone j).mined b hb).hashed).unique ((h.alone k).mined c hc).hashed

omit [DecidableEq ι] in
theorem Isolated.linksToAny {s : Network ι} (h : s.Isolated SHA1 P tail) : s.LinksToAny := by
  intro j k b older hne hb c hc
  have hfirst := ((h.alone k).mined c hc).hashed
  rcases ((h.alone j).mined b (hb.subset List.mem_cons_self)).link with ⟨-, htwo⟩ | ⟨d, hd, hprev⟩
  · -- only the first block above genesis is number 2
    have hnumber := (h.alone j).number_eq hb
    have hpos := List.length_pos_of_ne_nil hne
    rw [htwo] at hnumber
    change 2 = _ at hnumber
    omega
  · obtain ⟨-, -, hfin⟩ := hd.unique hfirst
    rw [hprev, hfin]
    exact sameHash_refl hfirst.isHash

/-- In an election whose keys all begin with the same 20 bytes, every miner works
alone: a step with a received block ignores it, the chain only grows, and all
mined blocks have one hash, so that any of them could lie under any other. -/
theorem run_isolated {s : Network ι} {tr : List (Move (Network ι) (ι × Input × List Effect))}
    (hrun : (network ι SHA1 tail).Run (.initial tail) tr s) (hP : P.length = publicKeySize)
    (hkeys : ∀ m ∈ tr, TakesPrefix P m) :
    (∀ m ∈ tr, IgnoresBlocks m ∧ OnlyGrows m) ∧ s.HashedAlike ∧ s.LinksToAny := by
  have hpres : (network ι SHA1 tail).PreservedUnder (TakesPrefix P)
      (Isolated SHA1 P tail) := fun _ _ _ hstep hm h => (Step.isolated hstep hP hm h).1
  have hmoves := hpres.moves hrun initial_isolated hkeys
  have hend := hpres.run hrun initial_isolated hkeys
  refine ⟨fun m hm => ?_, hend.hashedAlike, hend.linksToAny⟩
  exact (Step.isolated (hrun.step_of_mem m hm) hP (hkeys m hm) (hmoves m hm).1).2

/-- One of two miners takes eight such votes and mines them. -/
theorem exists_alike_run (tail : GenesisTail) :
    ∃ tr s, (network Bool Block.sampleSHA1 tail).Run (.initial tail) tr s ∧
      (s.miners false).bc.nonGenesis.length = 1 ∧ ∀ m ∈ tr, TakesPrefix Block.sampleKey m := by
  obtain ⟨tr, th, hrun, hkeys, hblock, hlen⟩ := Thread.exists_alike_run tail
  obtain ⟨tr', s', hrun', hminers, hlabels⟩ :=
    @exists_lifted Bool _ _ _ _ _ _ hrun hblock (.initial tail) false rfl
  refine ⟨tr', s', hrun', by rw [hminers, Function.update_self]; exact hlen, fun m' hm' => ?_⟩
  obtain ⟨m, hm, hlabel⟩ := hlabels m' hm'
  have hm := hkeys m hm
  unfold TakesPrefix
  rw [hlabel]
  exact hm

theorem run_isolated_first :
    ∃ tr s, (network Bool Block.sampleSHA1 Blockchain.sampleTail).Run
        (.initial Blockchain.sampleTail) tr s ∧
      (s.miners false).bc.nonGenesis.length = 1 ∧
      (∀ m ∈ tr, IgnoresBlocks m ∧ OnlyGrows m) ∧ s.HashedAlike ∧ s.LinksToAny := by
  obtain ⟨tr, s, hrun, hlen, hkeys⟩ := exists_alike_run Blockchain.sampleTail
  exact ⟨tr, s, hrun, hlen, run_isolated hrun rfl hkeys⟩

end Network

end OneVote
