-- SUMMARY: Which messages make a miner read or write out of range: all that are gone by then, and of the others those whose sizes do not agree.
import Mathlib.Data.Fintype.EquivFin
import OneVote.GenesisHash

/-!
# Message bounds

Nothing checks the sizes in a received message: the number of its transactions,
the number it states, and the lengths of its hash fields. They meet in
`decode_block`, in loops that end at `max_ind`, and in loops that end at 8. The
genesis hash, which is compared with two of these fields, is itself too short.
All this is about messages that are still there. The handler returns when it has
pushed the block, and the message is gone before the block is done with.
-/

namespace OneVote

open TransitionSystem (Move)

/-! ## Handling a readable block -/

/-- The stop is no undefined access, or it is one of the search for a parent,
which starts at an uninitialised pointer. -/
def RepairEnv.Excuses (env : RepairEnv) (e : Stop) : Prop :=
  e.IsAccess → ∃ i, getParentBlockFromNeighbor (env.stack i) env = .error e

namespace Blockchain

theorem exists_verifyEntries {voted : Finset Bytes} {l : List (Option Transaction)}
    (h : ∀ t ∈ l, t.isSome) : ∃ fresh, verifyEntries voted l = .ok fresh := by
  induction l with
  | nil => exact ⟨true, rfl⟩
  | cons t? rest ih =>
      obtain ⟨hfirst, hrest⟩ := List.forall_mem_cons.1 h
      obtain ⟨t, rfl⟩ := Option.isSome_iff_exists.1 hfirst
      rw [verifyEntries]
      split
      · exact ⟨false, rfl⟩
      · exact ih hrest

theorem exists_findHash {hash : CharPtr} {bs : List Block}
    (h : ∀ c ∈ bs, ∃ same, sameHash c.finhash hash = .ok same) :
    ∃ it?, findHash hash bs = .ok it? := by
  induction bs with
  | nil => exact ⟨none, rfl⟩
  | cons c rest ih =>
      obtain ⟨⟨same, hsame⟩, hrest⟩ := List.forall_mem_cons.1 h
      obtain ⟨it?, hit⟩ := ih hrest
      rw [findHash, hsame, hit]
      cases same <;> exact ⟨_, rfl⟩

/-- What handling the block reads of the chain can be read. -/
structure Comparable (bc : Blockchain) (b : Block) : Prop where
  head : ∃ head, bc.getHeadBlock = .ok head
  check : ∃ code, bc.checkBlockValidity b = .ok code
  search : (∃ head, bc.getHeadBlock = .ok head ∧ head.blockNumber < b.blockNumber) →
    b.blockNumber ≤ 5 → ∃ it?, bc.checkIfBlockInChain b = .ok it?
  removable : ∀ it, bc.checkIfBlockInChain b = .ok (some it) →
    ∀ c ∈ bc.blocks.take it, c.Removable

/-- The comparison with the head decides about the previous hash. -/
theorem exists_checkBlockValidity {bc : Blockchain} {b head : Block} {same : Bool}
    (hhead : bc.getHeadBlock = .ok head)
    (hsame : sameHash b.prevBlockSHA1 head.finhash = .ok same) (hpop : b.Populated) :
    ∃ code, bc.checkBlockValidity b = .ok code := by
  obtain ⟨fresh, hfresh⟩ : ∃ fresh, bc.verifyTransactions b = .ok fresh := exists_verifyEntries hpop
  unfold checkBlockValidity
  rw [hhead, Except.ok_bind, hsame, Except.ok_bind, hfresh]
  cases same with
  | false => exact ⟨_, rfl⟩
  | true => cases fresh <;> exact ⟨_, rfl⟩

theorem raises_ancestorWalk_of_search {bc : Blockchain} {b : Block} {it? : Option Nat}
    (hcheck : bc.checkIfBlockInChain b = .ok it?) (env : RepairEnv) (fuel i : Nat)
    (acc : List Block) : (bc.ancestorWalk env b fuel i acc).Raises env.Excuses := by
  induction fuel generalizing i acc with
  | zero => exact Except.raises_error False.elim
  | succ fuel ih =>
      rw [ancestorWalk, hcheck, Except.ok_bind]
      cases it? with
      | some it => exact Except.raises_ok _ _
      | none =>
          have hparent : (getParentBlockFromNeighbor (env.stack i) env).Raises env.Excuses :=
            fun e he _ => ⟨i, he⟩
          refine hparent.bind fun parent? _ => ?_
          cases parent? with
          | none => exact Except.raises_ok _ _
          | some parent => exact ih _ _

theorem Comparable.raises_repairBlockchain {bc : Blockchain} {b : Block} (h : bc.Comparable b)
    {it? : Option Nat} (hcheck : bc.checkIfBlockInChain b = .ok it?) (env : RepairEnv) :
    (bc.repairBlockchain b env).Raises env.Excuses := by
  refine (raises_ancestorWalk_of_search hcheck env _ _ _).bind fun w hw => ?_
  obtain ⟨-, it, hfound, rfl⟩ := ancestorWalk_eq_ok.1 hw
  have hit := lt_of_checkIfBlockInChain hfound
  dsimp only
  rw [removeBlocks_eq_ok.2 ⟨hit.le, h.removable it hfound, rfl, rfl⟩]
  exact Except.raises_ok _ _

end Blockchain

namespace Thread

theorem WellFormed.reset_eq_ok {th : Thread} (h : th.WellFormed) (bc : Blockchain) :
    ({ th with bc := bc } : Thread).reset =
      .ok (⟨bc, .new, false, th.point⟩, th.newBlock.votes) :=
  Thread.reset_eq_ok.2 ⟨h.filling.entries, rfl⟩

/-- A block that can be compared is handled without an undefined access. -/
theorem WellFormed.raises_handleBlock {th : Thread} (hwell : th.WellFormed) {bc : Blockchain}
    {b : Block} (h : bc.Comparable b) (hpop : b.Populated) (env : RepairEnv) :
    (({ th with bc := bc } : Thread).handleBlock b env).Raises env.Excuses := by
  obtain ⟨code, hcode⟩ := h.check
  unfold handleBlock
  rw [hcode, Except.ok_bind]
  cases code with
  | ok =>
      rw [addBlock_of_populated bc hpop, Except.ok_bind]
      dsimp only
      split
      · exact Except.raises_error False.elim
      · rw [hwell.reset_eq_ok]
        exact Except.raises_ok _ _
  | prevBlockNonmatch =>
      obtain ⟨head, hhead⟩ := h.head
      dsimp only
      rw [hhead, Except.ok_bind]
      split
      · rename_i hhigher
        split
        · exact Except.raises_error False.elim
        · rename_i hnumber
          obtain ⟨it?, hcheck⟩ := h.search ⟨head, hhead, hhigher⟩ (UInt32.not_lt.1 hnumber)
          refine (h.raises_repairBlockchain hcheck env).bind ?_
          rintro ⟨repaired, bc', pushed⟩ -
          dsimp only
          split
          · rw [hwell.reset_eq_ok]
            exact Except.raises_ok _ _
          · exact Except.raises_ok _ _
      · exact Except.raises_ok _ _
  | transactionInvalid => exact Except.raises_ok _ _

/-- The blocks above a found block can be removed. -/
theorem Intact.removable {th : Thread} (h : th.Intact) {bc : Blockchain}
    (hbc : bc.nonGenesis = th.bc.nonGenesis) {b : Block} {it : Nat}
    (hfound : bc.checkIfBlockInChain b = .ok (some it)) :
    ∀ c ∈ bc.blocks.take it, c.Removable := by
  intro c hc
  rw [← Blockchain.take_nonGenesis (Blockchain.lt_of_checkIfBlockInChain hfound), hbc] at hc
  exact (h.legible.readable c (List.mem_of_mem_take hc)).removable

theorem Intact.comparable {th : Thread} (h : th.Intact) {b : Block} (hb : b.Readable) :
    th.bc.Comparable b := by
  obtain ⟨head, hhead⟩ := h.short.exists_head
  have hmem := List.mem_of_mem_head? (Blockchain.getHeadBlock_eq_ok.1 hhead).2
  obtain ⟨same, hsame⟩ := exists_sameHash hb.prevBlockSHA1 (h.legible.finhash head hmem)
  exact ⟨⟨head, hhead⟩, Blockchain.exists_checkBlockValidity hhead hsame hb.populated,
    fun _ _ => Blockchain.exists_findHash fun c hc =>
      exists_sameHash (h.legible.finhash c hc) hb.finhash,
    fun _ => h.removable rfl⟩

/-- On the written chain as well, if the block does not name the genesis hash. -/
theorem Intact.comparable_written {th : Thread} (h : th.Intact) {b : Block} (hb : b.Readable)
    (hnames : ¬ b.NamesGenesis) : th.bc.written.Comparable b := by
  rw [Block.NamesGenesis, not_or] at hnames
  obtain ⟨hprev, hfin⟩ := hnames
  have hfinhash : ∀ c ∈ th.bc.nonGenesis, c.finhash.IsHash :=
    fun c hc => (h.legible.readable c hc).finhash
  have hpos : ∀ c ∈ th.bc.written.blocks, 1 ≤ c.blockNumber := by
    intro c hc
    rcases Blockchain.mem_blocks_written.1 hc with hc | rfl
    · exact h.short.number_pos c (List.mem_of_mem_dropLast hc)
    · exact show (1 : UInt32) ≤ 1 by decide
  obtain ⟨head, hhead⟩ := Blockchain.exists_head_written h.short.chainLength_pos
  have hmem := List.mem_of_mem_head? (Blockchain.getHeadBlock_eq_ok.1 hhead).2
  refine ⟨⟨head, hhead⟩, ?_, ?_, fun _ => h.removable (Blockchain.nonGenesis_written _)⟩
  · obtain ⟨same, hsame⟩ : ∃ same, sameHash b.prevBlockSHA1 head.finhash = .ok same := by
      rcases Blockchain.mem_blocks_written.1 hmem with hmem | rfl
      · exact exists_sameHash hb.prevBlockSHA1 (hfinhash head hmem)
      · exact ⟨false, (sameHash_of_not_namesGenesis hprev hb.prevBlockSHA1).1⟩
    exact Blockchain.exists_checkBlockValidity hhead hsame hb.populated
  · rintro ⟨head', hhead', hhigher⟩ hnumber
    cases hhead.symm.trans hhead'
    have hone : 1 < b.blockNumber := UInt32.lt_of_le_of_lt (hpos head hmem) hhigher
    have hfin' : ¬ b.finhash.NamesGenesis := fun hnames => hfin ⟨hnames, hone, hnumber⟩
    refine Blockchain.exists_findHash fun c hc => ?_
    rcases Blockchain.mem_blocks_written.1 hc with hc | rfl
    · exact exists_sameHash (hfinhash c hc) hb.finhash
    · exact ⟨false, (sameHash_of_not_namesGenesis hfin' hb.finhash).2⟩

/-- What is passed on of a received block is that block, with its number in the
chain or the number it came with. -/
theorem Change.readable_broadcast {SHA1 : Bytes → Digest} {th th' : Thread} {b c : Block}
    {env : RepairEnv} {effects : List Effect}
    (hs : Change SHA1 th (.block (some b) env, effects) th')
    (hb : b.Readable) (hc : .broadcastBlock c ∈ effects) : c.Readable := by
  cases hs with
  | ignored => cases hc
  | accepted =>
      obtain rfl : c = _ := by simpa using hc
      exact Block.readable_numbered.2 hb
  | repaired =>
      obtain rfl : c = b := by simpa using hc
      exact hb

/-! ## Deliveries -/

/-- The step takes no block, or one that was decoded from a message of the set. -/
def Receives (S : Set BlockMsg) (m : Move Thread (Input × List Effect)) : Prop :=
  ∀ b env, m.label.1 = .block (some b) env → ∃ msg ∈ S, decodeBlock msg = .ok b

/-- A miner to which messages of the set are delivered, whatever else happens,
decodes them within the transaction array, handles them without an undefined
access, and can encode what it passes on. -/
structure NoBadAccess (SHA1 : Bytes → Digest) (tail : GenesisTail) (S : Set BlockMsg) : Prop where
  decoded : ∀ msg ∈ S, ∃ b ts, decodeBlock msg = .ok b ∧ 0 ≤ b.maxInd ∧
    b.maxInd ≤ numTransactionsPerBlock ∧ b.entries b.maxInd.toNat = .ok ts
  handled : ∀ tr th, (processingThread SHA1 tail).Run (.initial tail) tr th →
    (∀ m ∈ tr, Receives S m) → th.point = .head →
    ∀ msg ∈ S, ∀ b, decodeBlock msg = .ok b → ∀ env, (th.handleBlock b env).Raises env.Excuses
  rebroadcast : ∀ tr th, (processingThread SHA1 tail).Run (.initial tail) tr th →
    (∀ m ∈ tr, Receives S m) → th.point = .head →
    ∀ msg ∈ S, ∀ b, decodeBlock msg = .ok b → ∀ env th' docontinue effects,
      th.handleBlock b env = .ok (th', docontinue, effects) →
      ∀ c, .broadcastBlock c ∈ effects → ∃ msg', encodeBlock c = .ok msg'

/-- Blocks that were decoded from well-sized messages leave the thread intact. -/
theorem intact_of_receives {SHA1 : Bytes → Digest} {tail : GenesisTail} {S : Set BlockMsg}
    (h : ∀ msg ∈ S, msg.WellSized) {th : Thread} {tr : List (Move Thread (Input × List Effect))}
    (hrun : (processingThread SHA1 tail).Run (.initial tail) tr th)
    (hreceives : ∀ m ∈ tr, Receives S m) : th.Intact := by
  refine (intact_preserved SHA1 tail).run hrun (initial_intact tail) fun m hm b env hb _ => ?_
  obtain ⟨msg, hmsg, hdecode⟩ := hreceives m hm b env hb
  exact ((BlockMsg.wellSized_iff hdecode).1 (h msg hmsg)).1

theorem noBadAccess_of_wellSized (SHA1 : Bytes → Digest) (tail : GenesisTail) {S : Set BlockMsg}
    (h : ∀ msg ∈ S, msg.WellSized) : NoBadAccess SHA1 tail S := by
  have hread : ∀ msg ∈ S, ∀ b, decodeBlock msg = .ok b → b.Readable ∧ 0 ≤ b.maxInd :=
    fun msg hmsg b hb => (BlockMsg.wellSized_iff hb).1 (h msg hmsg)
  constructor
  · intro msg hmsg
    obtain ⟨b, hb⟩ := (h msg hmsg).exists_decodeBlock
    obtain ⟨hb', hnonneg⟩ := hread msg hmsg b hb
    exact ⟨b, _, hb, hnonneg, hb'.maxInd_le,
      hb'.populated.entries_take (Int.toNat_le.2 hb'.maxInd_le)⟩
  · intro tr th hrun hreceives _ msg hmsg b hb env
    have hth := intact_of_receives h hrun hreceives
    have hb' := (hread msg hmsg b hb).1
    exact hth.wellFormed.raises_handleBlock (hth.comparable hb') hb'.populated env
  · intro tr th hrun hreceives hpoint msg hmsg b hb env th' docontinue effects hhandle c hc
    have hchange := @Step.change_block SHA1 th th' b env docontinue effects hpoint hhandle
    exact (hchange.readable_broadcast (hread msg hmsg b hb).1 hc).exists_encodeBlock

end Thread

/-! ## A state that meets the message

For any message there is a well-sized one whose block, once accepted, is the
block that the message names as its predecessor. -/

/-- Twenty bytes that a short hash field agrees with as far as it goes. -/
def padded (s : Bytes) : Bytes := (s ++ List.replicate publicKeySize 0).take publicKeySize

theorem length_padded (s : Bytes) : (padded s).length = publicKeySize := by
  simp [padded]

theorem byte_padded {s : Bytes} {j : Nat} {x : UInt8} (hj : j < publicKeySize)
    (h : (CharPtr.ofString s).byte j = .ok x) : (CharPtr.ofString (padded s)).byte j = .ok x := by
  obtain ⟨bs, hbs, hx⟩ := CharPtr.byte_eq_ok.1 h
  cases hbs
  refine CharPtr.byte_eq_ok.2 ⟨_, rfl, ?_⟩
  rw [List.getElem?_append_left (by rw [length_padded]; exact hj), padded,
    List.getElem?_take_of_lt hj]
  by_cases hs : j < s.length
  · rw [List.getElem?_append_left hs] at hx ⊢
    exact hx
  · rw [List.getElem?_append_right (Nat.le_of_not_lt hs)] at hx ⊢
    obtain ⟨hlt, hzero⟩ := List.getElem?_eq_some_iff.1 hx
    rw [List.length_singleton] at hlt
    rw [List.getElem?_replicate, if_pos (by omega)]
    simpa using hzero

theorem sameHashFrom_eq_false {a b : CharPtr} {i n : Nat}
    (h : sameHashFrom a b i n = .ok false) :
    ∃ j < i + n, ∃ x y, a.byte j = .ok x ∧ b.byte j = .ok y ∧ x ≠ y := by
  induction n generalizing i with
  | zero => cases h
  | succ n ih =>
      rw [sameHashFrom] at h
      obtain ⟨x, hx, h⟩ := Except.bind_eq_ok.1 h
      obtain ⟨y, hy, h⟩ := Except.bind_eq_ok.1 h
      split at h
      · rename_i hne
        exact ⟨i, by omega, x, y, hx, hy, hne⟩
      · obtain ⟨j, hj, hdiff⟩ := ih h
        exact ⟨j, by omega, hdiff⟩

/-- A comparison that returns finds no difference. -/
theorem sameHash_padded {s : Bytes} {same : Bool}
    (h : sameHash (CharPtr.ofString s) (CharPtr.ofString (padded s)) = .ok same) : same = true := by
  by_contra hsame
  obtain rfl := Bool.eq_false_of_not_eq_true hsame
  obtain ⟨j, hj, x, y, hx, hy, hne⟩ := sameHashFrom_eq_false h
  rw [Nat.zero_add] at hj
  rw [byte_padded hj hx] at hy
  exact hne (Except.ok.inj hy)

/-- A well-sized message on the genesis block, with the given final hash and
eight votes by one voter. -/
def BlockMsg.firstWith (tail : GenesisTail) (hash key : Bytes) : BlockMsg where
  blockNumber := 2
  prevBlockSHA1 := Blockchain.startingBlock ++ tail.toList
  magic := 0
  merkleRoot := List.replicate shaDigestLength 7
  transactionMsg := List.replicate numTransactionsPerBlock ⟨key, [89], 0⟩
  numTransactions := 8
  verifierPublicKey := [97]
  finalHash := hash

theorem BlockMsg.firstWith_wellSized (tail : GenesisTail) {hash : Bytes} (key : Bytes)
    (h : publicKeySize ≤ hash.length + 1) : (firstWith tail hash key).WellSized where
  transactionMsg := by simp [firstWith]
  numTransactions := show (8 : UInt32).toNat ≤ numTransactionsPerBlock by decide
  prevBlockSHA1 := by
    have hlen : (firstWith tail hash key).prevBlockSHA1.length = 20 := by
      simp [firstWith, Blockchain.startingBlock]
    rw [hlen]
    decide
  merkleRoot := by simp [firstWith]
  finalHash := h

namespace Thread

/-- A miner at the loop head whose newest block has the given hash and votes by
the voter `key` only. -/
theorem exists_head_with (SHA1 : Bytes → Digest) (tail : GenesisTail) {hash : Bytes}
    (hhash : publicKeySize ≤ hash.length + 1) (key : Bytes) :
    ∃ tr th head, (processingThread SHA1 tail).Run (.initial tail) tr th ∧
      (∀ m ∈ tr, Receives {msg | msg.WellSized} m) ∧ th.point = .head ∧
      th.bc.getHeadBlock = .ok head ∧ head.finhash = CharPtr.ofString hash ∧
      th.bc.chainLength = 2 ∧ (∀ k ∈ th.bc.voted, k = key) ∧ th.newBlock = .new := by
  have hsized := BlockMsg.firstWith_wellSized tail key hhash
  obtain ⟨b, hb⟩ := hsized.exists_decodeBlock
  have hpop := ((BlockMsg.wellSized_iff hb).1 hsized).1.populated
  have hsenders : b.senders = List.replicate numTransactionsPerBlock key := by
    rw [Block.senders, BlockMsg.decoded_votes hb]
    simp [BlockMsg.votes, BlockMsg.firstWith, decodeTransaction]
  obtain ⟨-, arr, -, hdecoded⟩ := BlockMsg.decodeBlock_eq_ok.1 hb
  have hprev : b.prevBlockSHA1 =
      CharPtr.ofString (Blockchain.startingBlock ++ tail.toList) := by rw [hdecoded]; rfl
  have hfin : b.finhash = CharPtr.ofString hash := by rw [hdecoded]; rfl
  have hcheck : (Blockchain.new tail).checkBlockValidity b = .ok .ok := by
    refine Blockchain.checkBlockValidity_eq_ok.2 ⟨Blockchain.genesis tail, rfl, ?_, hpop, ?_⟩
    · rw [hprev, sameHash, sameHashFrom_eq_true]
      intro j hj
      have hlt : 0 + j < (Blockchain.startingBlock ++ tail.toList).length := by
        simpa [Blockchain.startingBlock] using hj
      refine ⟨_, CharPtr.byte_eq_ok.2 ⟨_, rfl, ?_⟩, CharPtr.byte_eq_ok.2 ⟨_, rfl,
        List.getElem?_eq_getElem hlt⟩⟩
      rw [List.getElem?_append_left hlt]
      exact List.getElem?_eq_getElem hlt
    · intro k _ hk
      cases hk
  have htake : (firstAccepted tail b).takeTransaction ⟨key, [89], 0⟩ =
      .ok ({ firstAccepted tail b with point := .head }, []) := by
    refine if_pos ?_
    change key ∈ (∅ : Finset Bytes) ∪ b.senders.toFinset
    rw [hsenders]
    simp
  -- the block is accepted, and a vote of its voter brings the thread back to the loop head
  have hrun := (run_firstAccepted SHA1 .alone hcheck).snoc (.transaction rfl htake)
  refine ⟨_, _, Blockchain.numbered b 2, hrun, ?_, rfl, rfl, hfin, rfl, ?_, rfl⟩
  · simp only [List.singleton_append, List.forall_mem_cons, List.not_mem_nil, false_implies,
      implies_true, and_true]
    refine ⟨fun b' env hb' => ?_, fun b' env hb' => ?_⟩
    · cases hb'
      exact ⟨_, hsized, hb⟩
    · cases hb'
  · intro k hk
    change k ∈ (∅ : Finset Bytes) ∪ b.senders.toFinset at hk
    rw [hsenders] at hk
    simpa using hk

/-! ## Which messages are safe -/

/-- Without peers the search for a parent ends in its first assertion. -/
theorem not_isAccess_of_excuses_alone {e : Stop} (h : RepairEnv.alone.Excuses e) :
    ¬ e.IsAccess := by
  intro haccess
  obtain ⟨i, hi⟩ := h haccess
  obtain rfl : Stop.assertion .childBlock = e := Except.error.inj hi
  exact haccess

/-- A check of which no access fails has an answer. -/
theorem exists_ok_of_raises {α : Type} {x : Exec α} (h : x.Raises Stop.IsAccess)
    (hnot : x.Raises fun e => ¬ e.IsAccess) : ∃ a, x = .ok a := by
  cases x with
  | error e => exact absurd (h e rfl) (hnot e rfl)
  | ok a => exact ⟨a, rfl⟩

theorem verifyEntries_eq_false {voted : Finset Bytes} {l : List (Option Transaction)}
    (h : Blockchain.verifyEntries voted l = .ok false) :
    ∃ t, some t ∈ l ∧ t.senderPublicKey ∈ voted := by
  induction l with
  | nil => cases h
  | cons t? rest ih =>
      cases t? with
      | none => cases h
      | some t =>
          rw [Blockchain.verifyEntries] at h
          split at h
          · rename_i hmem
            exact ⟨t, List.mem_cons_self, hmem⟩
          · obtain ⟨u, hu, hmem⟩ := ih h
            exact ⟨u, List.mem_cons_of_mem _ hu, hmem⟩

/-- A block with new voters that is handled without an undefined access is judged
OK on top of a block that its predecessor hash agrees with as far as it goes. -/
theorem checkBlockValidity_of_handled {th : Thread} {b head : Block} {prev : Bytes}
    (hhead : th.bc.getHeadBlock = .ok head) (hprev : b.prevBlockSHA1 = CharPtr.ofString prev)
    (hfin : head.finhash = CharPtr.ofString (padded prev))
    (hnew : ∀ t, some t ∈ b.transactionArray.toList → t.senderPublicKey ∉ th.bc.voted)
    (hhandled : (th.handleBlock b .alone).Raises fun e => ¬ e.IsAccess) :
    th.bc.checkBlockValidity b = .ok .ok := by
  have hcheck : (th.bc.checkBlockValidity b).Raises fun e => ¬ e.IsAccess := by
    intro e he
    refine hhandled e ?_
    unfold handleBlock
    rw [he]
    rfl
  unfold Blockchain.checkBlockValidity at hcheck ⊢
  rw [hhead, Except.ok_bind] at hcheck ⊢
  obtain ⟨same, hsame⟩ := exists_ok_of_raises (raises_sameHash b.prevBlockSHA1 head.finhash)
    fun e he => hcheck e (by rw [he]; rfl)
  rw [hsame, Except.ok_bind] at hcheck ⊢
  rw [hprev, hfin] at hsame
  obtain rfl := sameHash_padded hsame
  obtain ⟨fresh, hfresh⟩ := exists_ok_of_raises (th.bc.raises_verifyTransactions b)
    fun e he => hcheck e (by simp [he, Except.error_bind])
  cases fresh with
  | false =>
      obtain ⟨t, ht, hvoted⟩ := verifyEntries_eq_false hfresh
      exact absurd hvoted (hnew t ht)
  | true =>
      simp [hfresh, Except.ok_bind]
      rfl

theorem wellSized_of_noBadAccess {SHA1 : Bytes → Digest} {tail : GenesisTail} {msg : BlockMsg}
    (h : NoBadAccess SHA1 tail (insert msg {m | m.WellSized})) : msg.WellSized := by
  obtain ⟨b, ts, hb, hnonneg, hle, -⟩ := h.decoded msg (Set.mem_insert _ _)
  -- a voter that is not among those of the message, so that its own are all new
  obtain ⟨key, hkey⟩ := Infinite.exists_notMem_finset b.senders.toFinset
  obtain ⟨tr, th, head, hrun, hsized, hpoint, hhead, hfin, hlength, hvoted, hblock⟩ :=
    @exists_head_with SHA1 tail (padded msg.prevBlockSHA1) (by rw [length_padded]; decide) key
  have hreceives : ∀ m ∈ tr, Receives (insert msg {m | m.WellSized}) m := by
    intro m hm b' env hb'
    obtain ⟨msg', hmsg', hdecode⟩ := hsized m hm b' env hb'
    exact ⟨msg', Set.mem_insert_of_mem _ hmsg', hdecode⟩
  have hmsg : msg ∈ insert msg {m : BlockMsg | m.WellSized} := Set.mem_insert _ _
  have hnew : ∀ t, some t ∈ b.transactionArray.toList → t.senderPublicKey ∉ th.bc.voted := by
    intro t ht hmem
    refine hkey ?_
    rw [← hvoted _ hmem, List.mem_toFinset]
    exact List.mem_map_of_mem (List.mem_filterMap.2 ⟨some t, ht, rfl⟩)
  obtain ⟨-, arr, -, hdecoded⟩ := BlockMsg.decodeBlock_eq_ok.1 hb
  have hprev : b.prevBlockSHA1 = CharPtr.ofString msg.prevBlockSHA1 := by rw [hdecoded]; rfl
  have hcheck := checkBlockValidity_of_handled hhead hprev hfin hnew
    ((h.handled tr th hrun hreceives hpoint msg hmsg b hb .alone).mono
      fun _ => not_isAccess_of_excuses_alone)
  obtain ⟨-, -, -, hpop, -⟩ := Blockchain.checkBlockValidity_eq_ok.1 hcheck
  have hstep := @Step.of_accepted SHA1 th b [] .alone hpoint hcheck
    (by rw [hlength]; exact (show UInt32.ofNat 3 ≤ 5 by decide)) (by rw [hblock]; rfl)
  -- the block was accepted, and what is passed on of it can be encoded
  generalize hafter : (⟨appended th.bc b, .new, false, .pop⟩ : Thread) = th' at hstep
  cases hstep with
  | block _ hhandle =>
      obtain ⟨msg', hencode⟩ := h.rebroadcast tr th hrun hreceives hpoint msg hmsg b hb _ _ _ _
        hhandle _ List.mem_cons_self
      have hreadable : (Blockchain.numbered b (th.bc.chainLength + 1)).Readable :=
        readable_of_encodeBlock hpop hencode
      exact (BlockMsg.wellSized_iff hb).2 ⟨Block.readable_numbered.1 hreadable, hnonneg⟩

/-- Delivered among messages whose sizes agree, and as long as they are there, the
message causes no bad access, and handling it reads no byte of the genesis hash
that was never written. -/
structure HarmlessWhileHeld (SHA1 : Bytes → Digest) (tail : GenesisTail) (msg : BlockMsg) :
    Prop where
  access : NoBadAccess SHA1 tail (insert msg {m | m.WellSized})
  written : ∀ tr th, (processingThread SHA1 tail).Run (.initial tail) tr th →
    (∀ m ∈ tr, Receives (insert msg {m | m.WellSized}) m) → th.point = .head →
    ∀ b, decodeBlock msg = .ok b → ∀ env,
      (({ th with bc := th.bc.written } : Thread).handleBlock b env).Raises env.Excuses

theorem harmlessWhileHeld_of_wellSized (SHA1 : Bytes → Digest) (tail : GenesisTail)
    {msg : BlockMsg} (hsized : msg.WellSized) (hnames : ¬ msg.NamesGenesis) :
    HarmlessWhileHeld SHA1 tail msg := by
  have hall : ∀ m ∈ insert msg {m : BlockMsg | m.WellSized}, m.WellSized := by
    rintro m (rfl | hm)
    · exact hsized
    · exact hm
  refine ⟨noBadAccess_of_wellSized SHA1 tail hall, fun tr th hrun hreceives _ b hb env => ?_⟩
  have hth := intact_of_receives hall hrun hreceives
  have hread := ((BlockMsg.wellSized_iff hb).1 hsized).1
  have hwritten := hth.comparable_written hread (mt (BlockMsg.namesGenesis_iff hb).2 hnames)
  exact hth.wellFormed.raises_handleBlock hwritten hread.populated env

/-- On the constructed chain a block that names the genesis hash is compared past
its end. -/
theorem handleBlock_of_namesGenesis {tail : GenesisTail} {b : Block} (hb : b.Readable)
    (hnames : b.NamesGenesis) :
    ({ initial tail with bc := (initial tail).bc.written } : Thread).handleBlock b
      { RepairEnv.alone with fuel := 1 } = .error .outOfRange := by
  have hhead : (initial tail).bc.written.getHeadBlock = .ok genesisText := rfl
  by_cases hprev : b.prevBlockSHA1.NamesGenesis
  · unfold handleBlock Blockchain.checkBlockValidity
    rw [hhead, Except.ok_bind, (hprev.sameHash hb.prevBlockSHA1).1]
    rfl
  · obtain ⟨hfin, hone, hfive⟩ := hnames.resolve_left hprev
    have hcheck : (initial tail).bc.written.checkBlockValidity b = .ok .prevBlockNonmatch :=
      Blockchain.checkBlockValidity_eq_nonmatch.2
        ⟨genesisText, hhead, (sameHash_of_not_namesGenesis hprev hb.prevBlockSHA1).1⟩
    have hsearch : (initial tail).bc.written.checkIfBlockInChain b = .error .outOfRange := by
      change Blockchain.findHash b.finhash [genesisText] = _
      rw [Blockchain.findHash, (hfin.sameHash hb.finhash).2]
      rfl
    unfold handleBlock
    rw [hcheck, Except.ok_bind]
    dsimp only
    rw [hhead, Except.ok_bind, if_pos (show genesisText.blockNumber < b.blockNumber from hone),
      if_neg (UInt32.not_lt.2 hfive), Blockchain.repairBlockchain, Blockchain.ancestorWalk, hsearch]
    rfl

theorem HarmlessWhileHeld.not_namesGenesis {SHA1 : Bytes → Digest} {tail : GenesisTail}
    {msg : BlockMsg} (h : HarmlessWhileHeld SHA1 tail msg) : ¬ msg.NamesGenesis := by
  intro hnames
  have hsized := wellSized_of_noBadAccess h.access
  obtain ⟨b, hb⟩ := hsized.exists_decodeBlock
  have hfail := @handleBlock_of_namesGenesis tail b ((BlockMsg.wellSized_iff hb).1 hsized).1
    ((BlockMsg.namesGenesis_iff hb).1 hnames)
  obtain ⟨i, hi⟩ := h.written [] _ .nil (by simp) rfl b hb _ _ hfail trivial
  cases hi

/-- The handler may return before the block is handled or after it, and either way
there is no bad access. -/
structure Harmless (SHA1 : Bytes → Digest) (tail : GenesisTail) (msg : BlockMsg) : Prop where
  held : HarmlessWhileHeld SHA1 tail msg
  released : ∀ tr th, (processingThread SHA1 tail).Run (.initial tail) tr th →
    (∀ m ∈ tr, Receives (insert msg {m | m.WellSized}) m) → th.point = .head →
    ∀ b, decodeBlock msg = .ok b → ∀ env, (th.handleBlock b.released env).Raises env.Excuses

/-- The first thing that is read of a block is its previous hash. -/
theorem handleBlock_released {th : Thread} {b head : Block} {prev : Bytes}
    (hhead : th.bc.getHeadBlock = .ok head) (hprev : b.prevBlockSHA1 = CharPtr.ofString prev)
    (hne : prev ≠ []) (env : RepairEnv) :
    th.handleBlock b.released env = .error .outOfRange := by
  have hbyte : b.released.prevBlockSHA1.byte 0 = .error .outOfRange := by
    rw [Block.released, hprev]
    exact CharPtr.byte_released hne
  have hsame : sameHash b.released.prevBlockSHA1 head.finhash = .error .outOfRange := by
    rw [sameHash, sameHashFrom, hbyte]
    rfl
  unfold handleBlock Blockchain.checkBlockValidity
  rw [hhead, Except.ok_bind, hsame]
  rfl

/-- No message is harmless, since it is gone when the handler has returned. As long
as it is there it does no harm exactly when its sizes agree and it does not name
the genesis hash. -/
theorem never_harmless (SHA1 : Bytes → Digest) (tail : GenesisTail) (msg : BlockMsg) :
    ¬ Harmless SHA1 tail msg ∧
      (HarmlessWhileHeld SHA1 tail msg ↔ msg.WellSized ∧ ¬ msg.NamesGenesis) := by
  refine ⟨fun h => ?_, fun h => ⟨wellSized_of_noBadAccess h.access, h.not_namesGenesis⟩,
    fun h => harmlessWhileHeld_of_wellSized SHA1 tail h.1 h.2⟩
  have hsized := wellSized_of_noBadAccess h.held.access
  obtain ⟨b, hb⟩ := hsized.exists_decodeBlock
  obtain ⟨-, arr, -, hdecoded⟩ := BlockMsg.decodeBlock_eq_ok.1 hb
  have hprev : b.prevBlockSHA1 = CharPtr.ofString msg.prevBlockSHA1 := by rw [hdecoded]; rfl
  have hne : msg.prevBlockSHA1 ≠ [] := by
    intro hnil
    have hlen := hsized.prevBlockSHA1
    rw [hnil] at hlen
    exact absurd hlen (by decide)
  have hfail := @handleBlock_released (initial tail) b (Blockchain.genesis tail) _ rfl hprev hne
    .alone
  exact not_isAccess_of_excuses_alone
    (h.released [] _ .nil (by simp) rfl b hb .alone _ hfail) trivial

/-- What a miner sends for its first block: no transactions. -/
def emptyFirst : BlockMsg :=
  { BlockMsg.sample 1 (Blockchain.startingBlock ++ Blockchain.sampleTail.toList)
      (Blockchain.sampleHash 101) 2 with
    transactionMsg := []
    numTransactions := 0 }

/-- The first entry is read before anything was assigned to it. -/
theorem emptyFirst_unassigned :
    ¬ ∃ SHA1, ∀ tail msg, Harmless SHA1 tail msg := by
  rintro ⟨SHA1, h⟩
  have hhandled := (h Blockchain.sampleTail emptyFirst).held.access.handled [] _ .nil (by simp) rfl
    emptyFirst (Set.mem_insert _ _) _ rfl .alone
  have hfail : (initial Blockchain.sampleTail).handleBlock
      (emptyFirst.decoded Block.new.transactionArray) .alone = .error .unassigned := by
    rfl
  exact not_isAccess_of_excuses_alone (hhandled _ hfail) trivial

end Thread

end OneVote
