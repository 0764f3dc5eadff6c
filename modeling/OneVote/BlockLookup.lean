-- SUMMARY: Looking a block up at the peers: the first peer in the list that has it answers, and the block that arrives has no votes and no hashes.
import OneVote.Assertions
import OneVote.BlockRequests
import OneVote.Counting

/-!
# Block lookup

`Client::getBlock` asks one peer of the list after the other. The request is the
20 bytes behind the pointer, the answer is encoded by the peer and decoded by
the client. The message is gone when the client returns the block. The chains
that answer are those of peers that take no blocks from each other.
-/

namespace OneVote

open PeerNetwork (pairLinks)

/-- `SinglePeerClient::GetBlock`. The call `stub_->GetBlock` returns a message,
or a status that is not OK. -/
def SinglePeerClient.getBlock (rpc : Bytes → Option BlockMsg) (blockHash : CharPtr) :
    Exec (Option Block) := do
  -- the hash is written to the output as a C string
  let _ ← blockHash.cString
  let hash ← blockHash.read publicKeySize
  match rpc hash with
  | none => return none
  -- the message is a local variable
  | some msg => return some (← decodeBlock msg).released

/-- `getBlock`, where `rpc` is the call at a peer with the given address. -/
def Client.getBlock (c : Client) (rpc : Bytes → Bytes → Option BlockMsg) (blockHash : CharPtr) :
    Exec (Option Block) :=
  c.peerClients.findSomeM? fun addr => SinglePeerClient.getBlock (rpc addr) blockHash

/-- What a call brings back from the handler. A handler that fails answers nothing. -/
def MinerService.answer (bc : Blockchain) (blockHash : Bytes) : Option BlockMsg :=
  (getBlock bc blockHash).toOption.join

/-! ## What a lookup can fail on -/

theorem raises_decodeBlock (msg : BlockMsg) : (decodeBlock msg).Raises Stop.IsAccess := by
  have hentries : ∀ (ms : List TransactionMsg) (b : Block) (i : Int),
      (decodeEntries b i ms).Raises Stop.IsAccess := by
    intro ms
    induction ms with
    | nil => exact fun b i => Except.raises_ok _ _
    | cons m ms ih =>
        intro b i
        rw [decodeEntries]
        refine Except.Raises.bind ?_ fun b' _ => ih b' (i + 1)
        unfold Block.setEntry
        split
        · exact Except.raises_ok _ _
        · exact Except.raises_error trivial
  exact hentries _ _ _

theorem Client.raises_getBlock (c : Client) (rpc : Bytes → Bytes → Option BlockMsg)
    (blockHash : CharPtr) : (c.getBlock rpc blockHash).Raises Stop.IsAccess := by
  refine Except.raises_findSomeM? (fun addr => ?_) _
  refine (CharPtr.raises_cString blockHash).bind fun _ _ => ?_
  refine (CharPtr.raises_read blockHash publicKeySize).bind fun hash _ => ?_
  cases rpc addr hash with
  | none => exact Except.raises_ok _ _
  | some msg => exact (raises_decodeBlock msg).bind fun b _ => Except.raises_ok _ _

/-- A lookup contains no assertion, whatever the peers answer: a supervised
thread can make its repairs with it. -/
theorem Outcome.Step.repair_of_client {SHA1 : Bytes → Digest} {th : Thread} {b : Block}
    {a : Assertion} (c : Client) (rpc : Bytes → Bytes → Option BlockMsg)
    (stack : Nat → Option Block) (fuel : Nat) (hpoint : th.point = .head)
    (hfails : th.handleBlock b ⟨c.getBlock rpc, stack, fuel⟩ = .error (.assertion a)) :
    Step SHA1 (.running th) (.block (some b) ⟨c.getBlock rpc, stack, fuel⟩, []) (.stopped a) :=
  .block hpoint (fun hash => (c.raises_getBlock rpc hash).mono fun _ => Stop.IsAccess.offPath)
    hfails

/-! ## What a lookup finds -/

/-- Asking for a hash that came in a message. -/
theorem SinglePeerClient.getBlock_ofString (rpc : Bytes → Option BlockMsg) {hash : Bytes}
    (hlen : hash.length = publicKeySize) :
    getBlock rpc (CharPtr.ofString hash) =
      match rpc hash with
      | none => .ok none
      | some msg => (some ·.released) <$> decodeBlock msg := by
  obtain ⟨s, hs⟩ : ∃ s, (CharPtr.ofString hash).cString = .ok s := ⟨_, if_pos (by simp)⟩
  unfold getBlock
  rw [hs, Except.ok_bind, CharPtr.read_ofString hlen, Except.ok_bind]
  cases rpc hash with
  | none => rfl
  | some msg =>
      dsimp only
      cases decodeBlock msg <;> rfl

namespace Blockchain

/-- No block above the genesis block has the hash. -/
def Lacks (bc : Blockchain) (hash : Bytes) : Prop := ∀ c ∈ bc.nonGenesis, ¬ c.HasHash hash

/-- The newest block that has the hash. -/
def Newest (bc : Blockchain) (hash : Bytes) (c : Block) : Prop :=
  ∃ newer older, bc.nonGenesis = newer ++ c :: older ∧ c.HasHash hash ∧
    ∀ d ∈ newer, ¬ d.HasHash hash

theorem Newest.mem {bc : Blockchain} {hash : Bytes} {c : Block} (h : bc.Newest hash c) :
    c ∈ bc.nonGenesis := by
  obtain ⟨newer, older, hchain, -⟩ := h
  rw [hchain]
  exact List.mem_append_right _ List.mem_cons_self

theorem Newest.hasHash {bc : Blockchain} {hash : Bytes} {c : Block} (h : bc.Newest hash c) :
    c.HasHash hash := by
  obtain ⟨newer, older, -, hhas, -⟩ := h
  exact hhas

theorem not_hasHash_genesis {hash : Bytes} (tail : GenesisTail)
    (hgenesis : ¬ startingBlock <+: hash) : ¬ (genesis tail).HasHash hash := by
  intro h
  obtain ⟨bs, hbs, -, rfl⟩ := CharPtr.read_eq_ok.1 h
  cases hbs
  apply hgenesis
  rw [List.take_append]
  exact List.prefix_append _ _

end Blockchain

namespace Thread

variable {SHA1 : Bytes → Digest} {tail : GenesisTail} {th th' : Thread} {i : Input}
  {effects : List Effect}

/-- A chain whose blocks can all be sent, and are sent without votes. -/
structure Serving (tail : GenesisTail) (th : Thread) : Prop where
  short : th.Short
  legible : th.Legible
  genesis : th.bc.blocks.getLast? = some (Blockchain.genesis tail)
  maxInd : ∀ c ∈ th.bc.nonGenesis, c.maxInd = 0

theorem initial_serving (tail : GenesisTail) : (initial tail).Serving tail where
  short := initial_short tail
  legible := initial_legible tail
  genesis := rfl
  maxInd := by
    intro c hc
    cases hc

theorem Serving.change (h : th.Serving tail) (hc : th.Counted) (hempty : TakesEmpty i)
    (hs : Change SHA1 th (i, effects) th') : th'.Serving tail where
  short := h.short.change hs
  legible := by
    obtain ⟨t, ht⟩ := hc.counts
    apply h.legible.change hc.wellFormed ht.nonempty hs
    intro b env hb hcheck
    obtain ⟨-, -, -, hpop, -⟩ := Blockchain.checkBlockValidity_eq_ok.1 hcheck
    exact absurd hpop (hempty b env hb).2
  genesis := hs.getLast?_blocks h.genesis
  maxInd := by
    obtain ⟨t, ht⟩ := hc.counts
    intro c hmem
    rcases hs.nonGenesis_cases hempty ht.nonempty with hsuffix | ⟨b, -, hb, hnew, -⟩
    · exact h.maxInd c (hsuffix.subset hmem)
    · rw [hnew] at hmem
      rcases List.mem_cons.1 hmem with rfl | hmem
      · exact hs.maxInd_broadcast hempty hb
      · exact h.maxInd c hmem

/-- What the lookup in the chain finds. -/
theorem Serving.getBlockByHash (h : th.Serving tail) {hash : Bytes}
    (hlen : hash.length = publicKeySize) (hgenesis : ¬ Blockchain.startingBlock <+: hash) :
    ∃ found, th.bc.getBlockByHash (CharPtr.ofString hash) = .ok found ∧
      (found = none ↔ th.bc.Lacks hash) ∧ ∀ c, found = some c → th.bc.Newest hash c := by
  have hblocks := Blockchain.blocks_eq h.genesis
  have hhash := h.legible.finhash
  rw [hblocks, List.forall_mem_append] at hhash
  obtain ⟨found, hfound, hnone, hsome⟩ := Blockchain.findBlock_spec hlen hhash.1
  obtain ⟨bottom, hbottom, hmissing, -⟩ := Blockchain.findBlock_spec hlen hhash.2
  have hnot := Blockchain.not_hasHash_genesis tail hgenesis
  obtain rfl : bottom = none := hmissing.2 (List.forall_mem_singleton.2 hnot)
  refine ⟨found, ?_, hnone, hsome⟩
  rw [Blockchain.getBlockByHash, hblocks, Blockchain.findBlock_append, hfound, Except.ok_bind,
    hbottom]
  cases found <;> rfl

/-- What a call at the peer brings back. -/
theorem Serving.answer (h : th.Serving tail) {hash : Bytes}
    (hlen : hash.length = publicKeySize) (hgenesis : ¬ Blockchain.startingBlock <+: hash) :
    MinerService.answer th.bc hash = none ∧ th.bc.Lacks hash ∨
      ∃ c msg, MinerService.answer th.bc hash = some msg ∧ encodeBlock c = .ok msg ∧
        th.bc.Newest hash c := by
  have hne : hash ≠ [] := List.ne_nil_of_length_pos (hlen ▸ Nat.succ_pos _)
  obtain ⟨found, hfound, hnone, hsome⟩ := h.getBlockByHash hlen hgenesis
  cases found with
  | none =>
      refine .inl ⟨?_, hnone.1 rfl⟩
      unfold MinerService.answer MinerService.getBlock
      rw [if_neg hne, hfound]
      rfl
  | some c =>
      have hnewest := hsome c rfl
      obtain ⟨msg, hmsg⟩ := (h.legible.readable c hnewest.mem).exists_encodeBlock
      refine .inr ⟨c, msg, ?_, hmsg, hnewest⟩
      unfold MinerService.answer
      rw [Blockchain.getBlock_found hne hfound, hmsg]
      rfl

/-- A block that is sent and has `max_ind` 0 arrives, without votes. -/
theorem exists_arrivesAs {c : Block} {msg : BlockMsg} (hencode : encodeBlock c = .ok msg)
    (hmax : c.maxInd = 0) : ∃ b, decodeBlock msg = .ok b ∧ c.ArrivesAs b ∧ b.votes = [] := by
  have hempty := encodeBlock_isEmpty hencode hmax
  have hfits : msg.transactionMsg.length ≤ numTransactionsPerBlock := by
    rw [hempty.1]
    exact Nat.zero_le _
  obtain ⟨arr, hdecode, -⟩ := BlockMsg.exists_decoded hfits
  exact ⟨_, hdecode, ⟨msg, hencode, hdecode⟩, (hempty.decoded hdecode).2.1⟩

/-- What a client gets that a peer with this chain answers: the newest block with
the hash, but without votes, and its hashes are gone with the message. -/
def Fetched (th : Thread) (hash : Bytes) (b : Block) : Prop :=
  ∃ c b', th.bc.Newest hash c ∧ c.ArrivesAs b' ∧ b = b'.released ∧ b.votes = []

theorem Serving.getBlock (h : th.Serving tail) {hash : Bytes} (hlen : hash.length = publicKeySize)
    (hgenesis : ¬ Blockchain.startingBlock <+: hash) {rpc : Bytes → Option BlockMsg}
    (hrpc : rpc hash = MinerService.answer th.bc hash) :
    ∃ answer, SinglePeerClient.getBlock rpc (CharPtr.ofString hash) = .ok answer ∧
      (answer = none ↔ th.bc.Lacks hash) ∧ ∀ b, answer = some b → th.Fetched hash b := by
  rw [SinglePeerClient.getBlock_ofString rpc hlen, hrpc]
  rcases h.answer hlen hgenesis with ⟨hnone, hlacks⟩ | ⟨c, msg, hmsg, hencode, hnewest⟩
  · rw [hnone]
    exact ⟨none, rfl, iff_of_true rfl hlacks, by simp⟩
  · obtain ⟨b, hdecode, harrives, hvotes⟩ := exists_arrivesAs hencode (h.maxInd c hnewest.mem)
    have hhas : ¬ th.bc.Lacks hash := fun hlacks => hlacks c hnewest.mem hnewest.hasHash
    rw [hmsg]
    dsimp only
    rw [hdecode]
    refine ⟨some b.released, rfl, iff_of_false (by simp) hhas, ?_⟩
    rintro _ ⟨⟩
    exact ⟨c, b, hnewest, harrives, rfl, hvotes⟩

end Thread

namespace Network

variable {ι : Type*} [DecidableEq ι] {SHA1 : Bytes → Digest} {tail : GenesisTail}

theorem serving_invariant (SHA1 : Bytes → Digest) (tail : GenesisTail) :
    (network ι SHA1 tail).Invariant
      fun s => s.Silent tail ∧ ∀ j, (s.miners j).Serving tail where
  init := by
    rintro s rfl
    exact ⟨initial_silent tail, fun _ => Thread.initial_serving tail⟩
  step := by
    rintro s label s' hstep ⟨hsilent, hserving⟩
    refine ⟨Step.silent hstep hsilent, ?_⟩
    cases hstep with
    | @step j i effects th hdelivers hthread =>
        exact forall_update hserving ((hserving j).change (hsilent.counted j)
          (hsilent.takesEmpty hdelivers) hthread.change)

end Network

namespace Election

variable {ι : Type*} [DecidableEq ι] {links : Links ι} {SHA1 : Bytes → Digest}
  {tail : GenesisTail}

theorem serving_of_reachable {s : Election ι} (hs : (election links SHA1 tail).Reachable s)
    (y : ι) : (s.peers y).thread.Serving tail := by
  obtain ⟨s₀, tr, rfl, hrun⟩ := hs
  obtain ⟨-, -, tr', wire, hnetwork, -⟩ := run_projects hrun
  obtain ⟨-, hserving⟩ := (Network.serving_invariant SHA1 tail).reachable ⟨_, tr', rfl, hnetwork⟩
  exact hserving y

theorem address_of_listed {s : Election ι} (hs : (election links SHA1 tail).Reachable s) {x : ι}
    {p : Bytes} (hp : p ∈ (s.lists.clients x).peerClients) : ∃ y, links.address y = p := by
  obtain ⟨s₀, tr, rfl, hrun⟩ := hs
  obtain ⟨⟨tr', hlists, -⟩, -⟩ := run_projects hrun
  have hclosed := (PeerNetwork.closed_invariant links).reachable ⟨_, tr', rfl, hlists⟩
  obtain ⟨y, -, hy⟩ := hclosed.listed x p hp
  exact ⟨y, hy⟩

/-- The calls at the peers of `up` are answered by their handlers, each in a state
of its own; the calls at the others fail. -/
structure AnsweredBy (links : Links ι) (seen : ι → Election ι) (up : ι → Prop)
    (rpc : Bytes → Bytes → Option BlockMsg) : Prop where
  reached : ∀ y, up y → ∀ hash,
    rpc (links.address y) hash = MinerService.answer ((seen y).peers y).thread.bc hash
  failed : ∀ y, ¬ up y → ∀ hash, rpc (links.address y) hash = none

/-- One peer of the list. -/
theorem AnsweredBy.exists_answer {seen : ι → Election ι} {up : ι → Prop}
    {rpc : Bytes → Bytes → Option BlockMsg} (h : AnsweredBy links seen up rpc)
    (hseen : ∀ y, (election links SHA1 tail).Reachable (seen y)) {hash : Bytes}
    (hlen : hash.length = publicKeySize) (hgenesis : ¬ Blockchain.startingBlock <+: hash) (y : ι) :
    ∃ answer, SinglePeerClient.getBlock (rpc (links.address y)) (CharPtr.ofString hash) =
        .ok answer ∧
      (answer = none ↔ (up y → ((seen y).peers y).thread.bc.Lacks hash)) ∧
      ∀ b, answer = some b → up y ∧ ((seen y).peers y).thread.Fetched hash b := by
  by_cases hup : up y
  · obtain ⟨answer, hget, hnone, hsome⟩ :=
      (serving_of_reachable (hseen y) y).getBlock hlen hgenesis (h.reached y hup hash)
    exact ⟨answer, hget, by simpa [hup] using hnone, fun b hb => ⟨hup, hsome b hb⟩⟩
  · rw [SinglePeerClient.getBlock_ofString _ hlen, h.failed y hup hash]
    exact ⟨none, rfl, by simp [hup], by simp⟩

/-- In any state of the whole system a lookup ends. It finds nothing exactly when
no peer of the list has the block and answers; otherwise it brings the newest
such block of the first peer that has one, without its votes and hashes. -/
theorem getBlock_fetches {seen : ι → Election ι}
    (hseen : ∀ y, (election links SHA1 tail).Reachable (seen y)) {s : Election ι}
    (hs : (election links SHA1 tail).Reachable s) (x : ι) {up : ι → Prop}
    {rpc : Bytes → Bytes → Option BlockMsg} (hrpc : AnsweredBy links seen up rpc) {hash : Bytes}
    (hlen : hash.length = publicKeySize) (hgenesis : ¬ Blockchain.startingBlock <+: hash) :
    ∃ answer, (s.lists.clients x).getBlock rpc (CharPtr.ofString hash) = .ok answer ∧
      (answer = none ↔ ∀ y, links.address y ∈ (s.lists.clients x).peerClients → up y →
        ((seen y).peers y).thread.bc.Lacks hash) ∧
      ∀ b, answer = some b → ∃ before y after,
        (s.lists.clients x).peerClients = before ++ links.address y :: after ∧
        (∀ z, links.address z ∈ before → up z → ((seen z).peers z).thread.bc.Lacks hash) ∧
        up y ∧ ((seen y).peers y).thread.Fetched hash b := by
  choose answers hget hnone hsome using hrpc.exists_answer hseen hlen hgenesis
  obtain ⟨ys, hys⟩ : (s.lists.clients x).peerClients ∈ Set.range (List.map links.address) := by
    rw [Set.range_list_map]
    exact fun p hp => address_of_listed hs hp
  have hmem : ∀ (zs : List ι) z, links.address z ∈ zs.map links.address ↔ z ∈ zs :=
    fun zs z => List.mem_map_of_injective links.injective
  refine ⟨ys.findSome? answers, ?_, ?_, ?_⟩
  · unfold Client.getBlock
    rw [← hys]
    exact Except.findSomeM?_map_eq_ok fun y _ => hget y
  · rw [List.findSome?_eq_none_iff, ← hys]
    simp only [hmem, hnone]
  · intro b hb
    obtain ⟨before, y, after, hsplit, hy, hbefore⟩ := List.findSome?_eq_some_iff.1 hb
    refine ⟨before.map links.address, y, after.map links.address, ?_, ?_, hsome y b hy⟩
    · rw [← hys, hsplit, List.map_append, List.map_cons]
    · intro z hz
      exact (hnone z).1 (hbefore z ((hmem before z).1 hz))

/-! ### A mined block -/

/-- The other peer adds this one to its list, and asks it for the block. -/
theorem getBlock_fetches_pair :
    ∃ s rpc b, (election pairLinks Block.sampleSHA1 Blockchain.sampleTail).Reachable s ∧
      (s.lists.clients true).getBlock rpc (CharPtr.ofString Block.sampleFinhash.bytes) =
        .ok (some b) ∧
      (s.peers false).thread.Fetched Block.sampleFinhash.bytes b := by
  obtain ⟨tr, s, w, hrun, hlists, htrue, hfin, -, hfalse⟩ := exists_mined_pair
  have hadd := @Step.access Bool _ Block.sampleSHA1 s true .addFirst _
    (.addFirst (by rw [hlists]; rfl))
  have hs : (election pairLinks Block.sampleSHA1 Blockchain.sampleTail).Reachable _ :=
    ⟨_, _, rfl, hrun.snoc hadd⟩
  let rpc : Bytes → Bytes → Option BlockMsg := fun addr =>
    if addr = pairLinks.address false then MinerService.answer (s.peers false).thread.bc
    else MinerService.answer (s.peers true).thread.bc
  have hanswers : AnsweredBy pairLinks (fun _ => { s with
      lists := (s.lists.addTo true (s.lists.clients true).firstPeer).goOn true .begun })
      (fun _ => True) rpc := by
    refine ⟨fun y _ hash => ?_, fun _ h => absurd trivial h⟩
    cases y with
    | false => exact congrFun (if_pos rfl) hash
    | true => exact congrFun (if_neg (by decide)) hash
  have hlen : Block.sampleFinhash.bytes.length = publicKeySize := Block.sampleFinhash.length_eq
  obtain ⟨answer, hget, hnone, hsome⟩ :=
    getBlock_fetches (fun _ => hs) hs true hanswers hlen (by decide)
  have hlist : (((s.lists.addTo true (s.lists.clients true).firstPeer).goOn true
      .begun).clients true).peerClients = [pairLinks.address false] := by
    rw [hlists]
    decide
  have hhas : ¬ (s.peers false).thread.bc.Lacks Block.sampleFinhash.bytes := by
    intro hlacks
    rw [hfalse] at hlacks
    refine hlacks (Blockchain.numbered w 2) List.mem_cons_self ?_
    change w.finhash.read publicKeySize = _
    rw [hfin]
    decide
  cases answer with
  | none => exact absurd (hnone.1 rfl false (by rw [hlist]; exact List.mem_cons_self) trivial) hhas
  | some b =>
      obtain ⟨before, y, after, hsplit, -, -, hfetched⟩ := hsome b rfl
      have hy : pairLinks.address y ∈ [pairLinks.address false] := by
        rw [← hlist, hsplit]
        exact List.mem_append_right _ List.mem_cons_self
      obtain rfl := pairLinks.injective (List.mem_singleton.1 hy)
      exact ⟨_, rpc, b, hs, hget, hfetched⟩

end Election

end OneVote
