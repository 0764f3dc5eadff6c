-- SUMMARY: What a peer does with a block of another peer: it reads what was never assigned, repairs without end, ignores the block, or pops blocks of its own.
import OneVote.BlockLookup
import OneVote.MessageBounds

/-!
# Reception

A mined block is sent without votes. If it continues the chain of the peer that
takes it, the check of its voters reads an entry that was never assigned, and
what happens then is open. If not, it is no higher than the chain, or starts a
repair, which returns only if the block is in the chain. Hash fields are read as
they were decoded.
-/

namespace OneVote

open PeerNetwork (pairLinks)

/-- What a thread does with a block without votes. -/
inductive Reaction
  /-- handling the block reads an entry that was never assigned -/
  | reads
  /-- the repair does not return -/
  | stops
  | ignores
  /-- the `it` newest blocks are popped -/
  | truncates (it : Nat)
  deriving DecidableEq, Repr

/-- A block as a peer gets it that was sent without votes. -/
structure Block.Bare (b : Block) : Prop where
  votes : b.votes = []
  blockNumber_le : b.blockNumber ≤ 5
  prevBlockSHA1 : b.prevBlockSHA1.IsHash
  finhash : b.finhash.IsHash

namespace Thread

variable {SHA1 : Bytes → Digest} {tail : GenesisTail} {th th' : Thread} {b head : Block}
  {env : RepairEnv} {effects : List Effect}

def reaction (th : Thread) (b : Block) : Exec Reaction := do
  let head ← th.bc.getHeadBlock
  if ← sameHash b.prevBlockSHA1 head.finhash then return .reads
  else if b.blockNumber ≤ head.blockNumber then return .ignores
  else
    match ← th.bc.checkIfBlockInChain b with
    | none => return .stops
    | some it => return .truncates it

/-- The effects of the reaction and the thread after it, if an after is known. -/
def react (th : Thread) (b : Block) : Reaction → Option (List Effect × Thread)
  | .reads | .stops => none
  | .ignores => some ([], { th with point := .head })
  | .truncates it =>
      some (.broadcastBlock b :: th.newBlock.votes.map .push,
        ⟨th.bc.truncated it, .new, false, .pop⟩)

/-- The thread meets the block with the reaction `r`. -/
def Meets (SHA1 : Bytes → Digest) (th : Thread) (b : Block) (r : Reaction) : Prop :=
  if r = .reads then ∀ env, th.handleBlock b env = .error .unassigned
  else ∀ env effects th', 0 < env.fuel →
    (Step SHA1 th (.block (some b) env, effects) th' ↔
      th.point = .head ∧ th.react b r = some (effects, th'))

/-! ## The four cases -/

/-- The first entry of a block without votes is read without a value. -/
theorem checkBlockValidity_of_linked (hb : b.Bare) (hhead : th.bc.getHeadBlock = .ok head)
    (hsame : sameHash b.prevBlockSHA1 head.finhash = .ok true) :
    th.bc.checkBlockValidity b = .error .unassigned := by
  obtain ⟨t?, rest, hentries⟩ : ∃ t? rest, b.transactionArray.toList = t? :: rest := by
    apply List.exists_cons_of_length_pos
    rw [Block.length_transactionArray]
    decide
  have hvotes := hb.votes
  unfold Block.votes at hvotes
  rw [hentries] at hvotes
  have hverify : th.bc.verifyTransactions b = .error .unassigned := by
    unfold Blockchain.verifyTransactions
    rw [hentries]
    cases t? with
    | none => rfl
    | some t => cases hvotes
  unfold Blockchain.checkBlockValidity
  rw [hhead, Except.ok_bind, hsame, Except.ok_bind, hverify]
  rfl

/-- A step that takes a block has judged it. -/
theorem Step.exists_checked (hs : Step SHA1 th (.block (some b) env, effects) th') :
    th.point = .head ∧ ∃ code, th.bc.checkBlockValidity b = .ok code := by
  cases hs with
  | block hpoint hhandle =>
      obtain ⟨code, hcode, -⟩ := Except.bind_eq_ok.1 hhandle
      exact ⟨hpoint, code, hcode⟩

theorem ignored_iff (hhead : th.bc.getHeadBlock = .ok head)
    (hsame : sameHash b.prevBlockSHA1 head.finhash = .ok false)
    (hlow : b.blockNumber ≤ head.blockNumber) :
    Step SHA1 th (.block (some b) env, effects) th' ↔
      th.point = .head ∧ th.react b .ignores = some (effects, th') := by
  have hcheck := Blockchain.checkBlockValidity_eq_nonmatch.2 ⟨head, hhead, hsame⟩
  constructor
  · intro hs
    refine ⟨hs.exists_checked.1, ?_⟩
    cases hs.change with
    | ignored => rfl
    | accepted _ hok => cases hcheck.symm.trans hok
    | repaired _ _ hhead' hhigher =>
        cases hhead.symm.trans hhead'
        exact absurd hhigher (UInt32.not_lt.2 hlow)
  · rintro ⟨hpoint, hreact⟩
    cases hreact
    refine @Step.block SHA1 th th b env true [] hpoint ?_
    unfold handleBlock
    rw [hcheck, Except.ok_bind]
    dsimp only
    rw [hhead, Except.ok_bind, if_neg (UInt32.not_lt.2 hlow)]
    rfl

theorem truncated_iff (hserving : th.Serving tail) (hw : th.WellFormed) (hfuel : 0 < env.fuel)
    (hb : b.Bare) (hhead : th.bc.getHeadBlock = .ok head)
    (hsame : sameHash b.prevBlockSHA1 head.finhash = .ok false)
    (hhigher : head.blockNumber < b.blockNumber) {it : Nat}
    (hfound : th.bc.checkIfBlockInChain b = .ok (some it)) :
    Step SHA1 th (.block (some b) env, effects) th' ↔
      th.point = .head ∧ th.react b (.truncates it) = some (effects, th') := by
  have hcheck := Blockchain.checkBlockValidity_eq_nonmatch.2 ⟨head, hhead, hsame⟩
  have hmem : ∀ c ∈ th.bc.blocks.take it, c ∈ th.bc.nonGenesis := by
    intro c hc
    rw [← Blockchain.take_nonGenesis (Blockchain.lt_of_checkIfBlockInChain hfound)] at hc
    exact List.mem_of_mem_take hc
  have hnone : (th.bc.blocks.take it).flatMap (·.requeued) = [] := by
    apply List.flatMap_eq_nil_iff.2
    intro c hc
    rw [Block.requeued, hserving.maxInd c (hmem c hc)]
    rfl
  constructor
  · intro hs
    refine ⟨hs.exists_checked.1, ?_⟩
    cases hs.change with
    | ignored _ hbad =>
        rcases hbad with hinvalid | ⟨-, head', hhead', hlow⟩
        · cases hcheck.symm.trans hinvalid
        · cases hhead.symm.trans hhead'
          exact absurd hhigher (UInt32.not_lt.2 hlow)
    | accepted _ hok => cases hcheck.symm.trans hok
    | repaired _ _ _ _ _ hfound' _ hts =>
        cases hfound.symm.trans hfound'
        cases hts.symm.trans hw.filling.entries
        rw [hnone]
        rfl
  · rintro ⟨hpoint, hreact⟩
    cases hreact
    have hstep := @Step.of_repaired SHA1 th b head it th.newBlock.votes env hfuel hpoint hcheck
      hhead hhigher hb.blockNumber_le hfound
      (fun c hc => (hserving.legible.readable c (hmem c hc)).removable) hw.filling.entries
    rwa [hnone] at hstep

theorem handleBlock_of_linked (hb : b.Bare) (hhead : th.bc.getHeadBlock = .ok head)
    (hsame : sameHash b.prevBlockSHA1 head.finhash = .ok true) (env : RepairEnv) :
    th.handleBlock b env = .error .unassigned := by
  unfold handleBlock
  rw [checkBlockValidity_of_linked hb hhead hsame]
  rfl

/-- The walk from an unknown block does not end. -/
theorem not_step_of_unknown (hhead : th.bc.getHeadBlock = .ok head)
    (hsame : sameHash b.prevBlockSHA1 head.finhash = .ok false)
    (hhigher : head.blockNumber < b.blockNumber)
    (hunknown : th.bc.checkIfBlockInChain b = .ok none) :
    ¬ Step SHA1 th (.block (some b) env, effects) th' := by
  intro hs
  have hcheck := Blockchain.checkBlockValidity_eq_nonmatch.2 ⟨head, hhead, hsame⟩
  cases hs.change with
  | ignored _ hbad =>
      rcases hbad with hinvalid | ⟨-, head', hhead', hlow⟩
      · cases hcheck.symm.trans hinvalid
      · cases hhead.symm.trans hhead'
        exact absurd hhigher (UInt32.not_lt.2 hlow)
  | accepted _ hok => cases hcheck.symm.trans hok
  | repaired _ _ _ _ _ hfound => cases hunknown.symm.trans hfound

/-- A block without votes meets with exactly the reaction. -/
theorem Serving.exists_reaction (h : th.Serving tail) (hw : th.WellFormed) (hb : b.Bare) :
    ∃ r, th.reaction b = .ok r ∧ ∀ SHA1, th.Meets SHA1 b r := by
  obtain ⟨head, hhead⟩ := h.short.exists_head
  have hmem := List.mem_of_mem_head? (Blockchain.getHeadBlock_eq_ok.1 hhead).2
  obtain ⟨same, hsame⟩ := exists_sameHash hb.prevBlockSHA1 (h.legible.finhash head hmem)
  obtain ⟨it?, hit⟩ : ∃ it?, th.bc.checkIfBlockInChain b = .ok it? :=
    Blockchain.exists_findHash fun c hc => exists_sameHash (h.legible.finhash c hc) hb.finhash
  unfold reaction
  rw [hhead, Except.ok_bind, hsame, Except.ok_bind]
  cases same with
  | true =>
      refine ⟨.reads, rfl, fun SHA1 => ?_⟩
      rw [Meets, if_pos rfl]
      exact handleBlock_of_linked hb hhead hsame
  | false =>
      rw [if_neg Bool.false_ne_true]
      by_cases hlow : b.blockNumber ≤ head.blockNumber
      · rw [if_pos hlow]
        refine ⟨.ignores, rfl, fun SHA1 => ?_⟩
        rw [Meets, if_neg (by decide)]
        exact fun env effects th' _ => ignored_iff hhead hsame hlow
      · rw [if_neg hlow, hit, Except.ok_bind]
        have hhigher := UInt32.not_le.1 hlow
        cases it? with
        | none =>
            refine ⟨.stops, rfl, fun SHA1 => ?_⟩
            rw [Meets, if_neg (by decide)]
            refine fun env effects th' _ => iff_of_false ?_ (by simp [react])
            exact not_step_of_unknown hhead hsame hhigher hit
        | some it =>
            refine ⟨.truncates it, rfl, fun SHA1 => ?_⟩
            rw [Meets, if_neg (by simp)]
            exact fun env effects th' hfuel =>
              truncated_iff h hw hfuel hb hhead hsame hhigher hit

/-- No block is broadcast with a number above 5. -/
theorem Change.blockNumber_broadcast {i : Input} (hs : Change SHA1 th (i, effects) th') {w : Block}
    (hw : .broadcastBlock w ∈ effects) : w.blockNumber ≤ 5 := by
  cases hs with
  | accepted _ _ hnumber =>
      simp only [List.mem_cons, List.mem_map, reduceCtorEq, and_false, exists_false, or_false,
        Effect.broadcastBlock.injEq] at hw
      rw [hw]
      exact hnumber
  | repaired _ _ _ _ hnumber =>
      simp only [List.mem_append, List.mem_map, List.mem_cons, reduceCtorEq, and_false,
        exists_false, false_or, or_false, Effect.broadcastBlock.injEq] at hw
      rwa [hw]
  | taken => simp at hw
  | mined _ _ _ _ hnumber =>
      cases List.mem_singleton.1 hw
      exact hnumber
  | _ => cases hw

end Thread

/-! ## The blocks on the wire -/

/-- A message of a block without votes, with full hashes and a number that passes
the assertions. -/
structure BlockMsg.Plain (m : BlockMsg) : Prop where
  isEmpty : m.IsEmpty
  blockNumber_le : m.blockNumber ≤ 5
  prevBlockSHA1 : m.prevBlockSHA1.length = publicKeySize
  finalHash : m.finalHash.length = publicKeySize

theorem encodeBlock_plain {w : Block} {m : BlockMsg} (h : encodeBlock w = .ok m)
    (hmax : w.maxInd = 0) (hnumber : w.blockNumber ≤ 5) : m.Plain := by
  obtain ⟨hprev, -, -, hfin, -, hnum, -⟩ := encodeBlock_eq_ok.1 h
  exact ⟨encodeBlock_isEmpty h hmax, by rwa [hnum], CharPtr.length_of_read hprev,
    CharPtr.length_of_read hfin⟩

theorem BlockMsg.Plain.bare {m : BlockMsg} (h : m.Plain) {b : Block} (hb : decodeBlock m = .ok b) :
    b.Bare := by
  have hvotes := (h.isEmpty.decoded hb).2.1
  obtain ⟨-, arr, -, rfl⟩ := BlockMsg.decodeBlock_eq_ok.1 hb
  exact ⟨hvotes, h.blockNumber_le,
    CharPtr.isHash_ofString.2 (h.prevBlockSHA1.ge.trans (Nat.le_succ _)),
    CharPtr.isHash_ofString.2 (h.finalHash.ge.trans (Nat.le_succ _))⟩

namespace Network

variable {ι : Type*} [DecidableEq ι] {SHA1 : Bytes → Digest} {tail : GenesisTail}

theorem exists_of_mem_sent {effects : List Effect} {msg : BlockMsg} (h : msg ∈ sent effects) :
    ∃ w, .broadcastBlock w ∈ effects ∧ encodeBlock w = .ok msg := by
  obtain ⟨e, he, hencode⟩ := List.mem_filterMap.1 h
  cases e with
  | broadcastBlock w =>
      refine ⟨w, he, ?_⟩
      cases hw : encodeBlock w with
      | error e => simp [hw, Except.toOption] at hencode
      | ok msg' =>
          simp only [hw, Except.toOption, Option.some.injEq] at hencode
          rw [hencode]
  | broadcastTransaction t => cases hencode
  | push t => cases hencode

/-- Every miner can serve its chain, and what went over the wire is plain. -/
structure Plain (tail : GenesisTail) (s : Network ι) : Prop where
  silent : s.Silent tail
  serving : ∀ j, (s.miners j).Serving tail
  wire : ∀ msg ∈ s.wire, msg.Plain

theorem plain_invariant (SHA1 : Bytes → Digest) (tail : GenesisTail) :
    (network ι SHA1 tail).Invariant (Plain tail) where
  init := by
    rintro s rfl
    refine ⟨initial_silent tail, fun _ => Thread.initial_serving tail, fun msg hmsg => ?_⟩
    cases hmsg
  step := by
    rintro s label s' hstep h
    obtain ⟨hsilent, hserving⟩ :=
      (serving_invariant SHA1 tail).step _ _ _ hstep ⟨h.silent, h.serving⟩
    refine ⟨hsilent, hserving, ?_⟩
    cases hstep with
    | @step j i effects th hdelivers hthread =>
        have hempty := h.silent.takesEmpty hdelivers
        refine List.forall_mem_append.2 ⟨h.wire, fun msg hmsg => ?_⟩
        obtain ⟨w, hw, hencode⟩ := exists_of_mem_sent hmsg
        exact encodeBlock_plain hencode (hthread.change.maxInd_broadcast hempty hw)
          (hthread.change.blockNumber_broadcast hw)

end Network

namespace Election

variable {ι : Type*} [DecidableEq ι] {links : Links ι} {SHA1 : Bytes → Digest}
  {tail : GenesisTail}

/-- In every state of the whole system, a peer meets a block that waits in its
`bq` with exactly the reaction: for one that continues its chain it reads an
entry that was never assigned, from an unknown one with a higher number it does
not return, it ignores one that is no higher, and for one that it has it pops
the newer blocks. -/
theorem run_reacts {s : Election ι} {tr : List (TransitionSystem.Move (Election ι) (Event ι))}
    (hrun : (election links SHA1 tail).Run (.initial links tail) tr s) (z : ι) {r : BlockRef}
    (hr : r ∈ (s.peers z).bq.queue) :
    ∃ reaction, (s.peers z).thread.reaction r.block = .ok reaction ∧
      (s.peers z).thread.Meets SHA1 r.block reaction := by
  obtain ⟨tr', wire, hwired, -⟩ := hrun.withHistory wireAfter []
  have hinit : (wired links SHA1 tail).init (.initial links tail, []) := ⟨rfl, rfl⟩
  obtain ⟨hhears, hplain⟩ := (network_invariant links (Network.plain_invariant SHA1 tail)).reachable
    ⟨_, tr', hinit, hwired⟩
  obtain ⟨msg, hmsg, -, hdecode⟩ := (hhears z).bq r hr
  obtain ⟨reaction, hreaction, hmeets⟩ := (hplain.serving z).exists_reaction
    (hplain.silent.counted z).wellFormed ((hplain.wire msg hmsg).bare hdecode)
  exact ⟨reaction, hreaction, hmeets SHA1⟩

/-- The first mined block of one of two peers arrives at the other, whose chain it continues. -/
theorem exists_arrived_pair :
    ∃ tr s b, (election pairLinks Block.sampleSHA1 Blockchain.sampleTail).Run
        (.initial pairLinks Blockchain.sampleTail) tr s ∧
      s.peers true = { Peer.initial Blockchain.sampleTail with bq := ⟨[.new b]⟩ } ∧
      sameHash b.prevBlockSHA1 (Blockchain.genesis Blockchain.sampleTail).finhash = .ok true := by
  obtain ⟨tr, s, w, hrun, hlists, htrue, -, hprev, hfalse⟩ := exists_mined_pair
  let c := Blockchain.numbered w 2
  have hserving := serving_of_reachable ⟨_, _, rfl, hrun⟩ false
  rw [hfalse] at hserving
  obtain ⟨msg, hencode⟩ := (hserving.legible.readable c List.mem_cons_self).exists_encodeBlock
  obtain ⟨b, hdecode, harrives, -⟩ :=
    Thread.exists_arrivesAs hencode (hserving.maxInd c List.mem_cons_self)
  have hadd := @Step.access Bool _ Block.sampleSHA1 s false .addFirst _
    (.addFirst (by rw [hlists]; rfl))
  let s₁ : Election Bool :=
    { s with lists := (s.lists.addTo false (s.lists.clients false).firstPeer).goOn false .begun }
  have hlist : (s₁.lists.clients false).peerClients = [pairLinks.address true] := by
    change (((s.lists.addTo false _).goOn false .begun).clients false).peerClients = _
    rw [hlists]
    decide
  have hpeer : s₁.peers false = s.peers false := rfl
  have hstart := @Step.start Bool _ Block.sampleSHA1 s₁ false (.broadcastBlock c) []
    (by rw [hpeer, hfalse]) trivial (by rw [hpeer, hfalse])
  rw [hlist] at hstart
  have haddress : (s₁.lists.clients true).myAddress = pairLinks.address true := by
    change (((s.lists.addTo false _).goOn false .begun).clients true).myAddress = _
    rw [hlists]
    decide
  have hdeliver := @Step.deliverBlock Bool _ Block.sampleSHA1
    (s₁.called false [pairLinks.address true]) false true c b msg [] []
    (by rw [peers_called_self, hpeer, hfalse])
    (by rw [peers_called_self, ← haddress]; rfl) hencode hdecode
  have hother : ((s₁.called false [pairLinks.address true]).called false []).peers true =
      .initial Blockchain.sampleTail := by
    rw [peers_called_of_ne (by decide), peers_called_of_ne (by decide)]
    exact htrue
  have hgenesis : (Blockchain.genesis Blockchain.sampleTail).finhash.IsHash :=
    ⟨_, rfl, by decide⟩
  refine ⟨_, _, b, ((hrun.snoc hadd).snoc hstart).snoc hdeliver, ?_, ?_⟩
  · change (set _ true _).peers true = _
    rw [peers_set_self, hother]
    rfl
  · rw [harrives.prevBlockSHA1 hgenesis]
    change sameHash w.prevBlockSHA1 _ = _
    rw [hprev]
    exact sameHash_refl hgenesis

/-- Handling the block reads an entry that was never assigned. -/
theorem run_reacts_pair :
    ∃ tr s b, (election pairLinks Block.sampleSHA1 Blockchain.sampleTail).Run
        (.initial pairLinks Blockchain.sampleTail) tr s ∧
      .new b ∈ (s.peers true).bq.queue ∧ (s.peers true).thread.reaction b = .ok .reads ∧
      ∀ env, (s.peers true).thread.handleBlock b env = .error .unassigned := by
  obtain ⟨tr, s, b, hrun, htrue, hlinked⟩ := exists_arrived_pair
  have hwaits : .new b ∈ (s.peers true).bq.queue := by
    rw [htrue]
    exact List.mem_singleton_self _
  obtain ⟨r, hr, hmeets⟩ := run_reacts hrun true hwaits
  have hreads : (s.peers true).thread.reaction b = .ok .reads := by
    rw [htrue]
    unfold Thread.reaction
    change sameHash b.prevBlockSHA1 _ >>= _ = _
    rw [hlinked]
    rfl
  rw [BlockRef.block_new] at hr hmeets
  obtain rfl := Except.ok.inj (hreads.symm.trans hr)
  rw [Thread.Meets, if_pos rfl] at hmeets
  exact ⟨tr, s, b, hrun, hwaits, hreads, hmeets⟩

end Election

end OneVote
