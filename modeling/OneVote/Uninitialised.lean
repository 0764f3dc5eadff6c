-- SUMMARY: Two miners that differ in memory that nothing was written to, and when they agree on all they decide.
import Mathlib.Data.Stream.Init
import OneVote.AlikePasses

/-!
# Uninitialised memory

Two miners process the same messages and transactions, pass by pass. They differ
in the bytes behind the text of the genesis hash, and in what the unassigned
entries of their blocks hold.
-/

namespace OneVote

/-- The memory of a miner, pass by pass. -/
abbrev Memory := Stream' PassMemory

def Memory.all (t? : Option Transaction) : Memory := Stream'.const ⟨Entries.all t?, Entries.all t?⟩

namespace Thread

/-- The two miners answer every question about their chains alike. -/
structure Agrees (th th' : Thread) : Prop where
  nonGenesis : th'.bc.nonGenesis = th.bc.nonGenesis
  finhash : th'.bc.blocks.map (·.finhash) = th.bc.blocks.map (·.finhash)
  checkBlockValidity : ∀ b, th'.bc.checkBlockValidity b = th.bc.checkBlockValidity b
  checkIfBlockInChain : ∀ b, th'.bc.checkIfBlockInChain b = th.bc.checkIfBlockInChain b
  getBlock : ∀ hash, MinerService.getBlock th'.bc hash = MinerService.getBlock th.bc hash

/-- The miners agree in every state that they reach, judge every block alike, and
stop, if they do, in the same pass and for the same reason. -/
def SameView (SHA1 : Bytes → Digest) : List Arrival → Memory → Memory → Thread → Thread → Prop
  | [], _, _, th, th' => th.Agrees th'
  | a :: rest, m, m', th, th' =>
      th.Agrees th' ∧ a.check m'.head th'.bc = a.check m.head th.bc ∧
        (th.pass SHA1 m.head a).Rel (SameView SHA1 rest m.tail m'.tail) (th'.pass SHA1 m'.head a)

/-- Every message of the run is one for which only filled entries are read. -/
def RunReadsAssigned (SHA1 : Bytes → Digest) : List Arrival → Memory → Thread → Prop
  | [], _, _ => True
  | a :: rest, m, th =>
      th.ReadsAssigned a ∧
        ∀ th', th.pass SHA1 m.head a = .ok th' → RunReadsAssigned SHA1 rest m.tail th'

end Thread

/-- Memory that nothing was written to does not show: the genesis blocks have the
same hash, and whatever the unassigned entries hold, two miners that process the
same arrivals see the same. -/
def MemoryIrrelevant (SHA1 : Bytes → Digest) (tail tail' : GenesisTail) (arrivals : List Arrival) :
    Prop :=
  sameHash (Blockchain.genesis tail).finhash (Blockchain.genesis tail').finhash = .ok true ∧
    ∀ entries entries' m m', Thread.SameView SHA1 arrivals m m' (.initialIn tail entries)
      (.initialIn tail' entries')

/-! ## Runs of two miners -/

namespace Thread

variable {SHA1 : Bytes → Digest} {tail : GenesisTail} {th th' : Thread}

theorem Alike.agrees (h : Alike tail th th') : th.Agrees th' where
  nonGenesis := h.bc.nonGenesis
  finhash := h.bc.finhash
  checkBlockValidity _ := h.bc.checkBlockValidity rfl fun _ => rfl
  checkIfBlockInChain _ := h.bc.checkIfBlockInChain rfl
  getBlock := h.bc.getBlock

/-- What a pass keeps, a run keeps. -/
theorem Alike.sameView {arrivals : List Arrival} {m m' : Memory} (h : Alike tail th th')
    (hread : RunReadsAssigned SHA1 arrivals m th) : SameView SHA1 arrivals m m' th th' := by
  induction arrivals generalizing m m' th th' with
  | nil => exact h.agrees
  | cons a rest ih =>
      -- the memory of the rest of the run may be any again
      obtain ⟨hfirst, hrest⟩ := hread
      refine ⟨h.agrees, h.check hfirst _ _, ?_⟩
      exact (h.pass hfirst _ _).imp fun th₁ th₁' hpass _ h₁ => ih h₁ (hrest th₁ hpass)

/-! ## What is known of runs -/

/-- In memory that holds nothing, handling a block is a step of the thread. -/
theorem receiveNext_proceeds (h : th.Counted) (hpoint : th.point = .head) {env : RepairEnv}
    (hfuel : 0 < env.fuel) {b? : Option Block} {docontinue : Bool} {effects : List Effect}
    (hreceive : th.receiveNext env b? = .ok (th', docontinue, effects)) :
    ∃ effects', Proceeds SHA1 th (.block b? env, effects')
      { th' with point := if docontinue then .head else th'.afterBlock } := by
  cases b? with
  | none =>
      cases hreceive
      exact ⟨_, .step (.idle hpoint)⟩
  | some b =>
      obtain ⟨it?, hover, hreceive⟩ := Except.bind_eq_ok.1 hreceive
      cases it? with
      | none => exact ⟨_, .step (.block hpoint hreceive)⟩
      | some it =>
          obtain ⟨hcode, ⟨head, hhead, hhigher⟩, hsmall, hfound, hmax⟩ := overrun_eq_some hover
          obtain ⟨⟨th₁, ts⟩, hreset, hreceive⟩ := Except.bind_eq_ok.1 hreceive
          obtain ⟨hts, rfl⟩ := reset_eq_ok.1 hreset
          cases hreceive
          exact ⟨_, @Proceeds.overruns SHA1 th b head env it [] ts hpoint hcode hhead hhigher hsmall
            ⟨hfuel, hfound, h.populated_above hfound, hmax⟩ hts⟩

/-- In memory that holds nothing a pass is a run of the thread's steps. -/
theorem pass_run {a : Arrival} (hcount : th.Counted) (hpoint : th.point = .head)
    (h : th.pass SHA1 ⟨.all none, .all none⟩ a = .ok th') :
    ∃ tr, (proceedingThread SHA1 tail).Run th tr th' ∧ th'.point = .head := by
  obtain ⟨b?, -, h⟩ := Except.bind_eq_ok.1 h
  have hsame : th.inMemory (Entries.all none) = th :=
    congrArg (fun b => { th with newBlock := b }) th.newBlock.inMemory_none
  rw [hsame] at h
  obtain ⟨⟨th₁, docontinue, effects⟩, hreceive, h⟩ := Except.bind_eq_ok.1 h
  obtain ⟨effects', hstep⟩ :=
    @receiveNext_proceeds SHA1 _ _ hcount hpoint _ (Nat.succ_pos _) _ _ _ hreceive
  obtain ⟨-, -, h⟩ := Except.bind_eq_ok.1 h
  cases docontinue with
  | true =>
      obtain rfl := Except.pure_eq_ok.1 h
      exact ⟨_, .snoc .nil hstep, rfl⟩
  | false =>
      rw [if_neg Bool.false_ne_true] at h
      obtain ⟨⟨th₂, effects₂⟩, hafter, h⟩ := Except.bind_eq_ok.1 h
      obtain ⟨-, -, h⟩ := Except.bind_eq_ok.1 h
      obtain rfl := Except.pure_eq_ok.1 h
      obtain ⟨tr, hrun, hhead, -⟩ := afterReceive_run rfl hafter
      exact ⟨_, .cons hstep (run_proceeds hrun), hhead⟩

/-- A run of the thread has come to a loop head like this one. -/
def Mirrored (SHA1 : Bytes → Digest) (tail : GenesisTail) (th : Thread) : Prop :=
  ∃ th₀ tr, (proceedingThread SHA1 tail).Run (.initial tail) tr th₀ ∧ th₀.point = .head ∧
    Alike tail th th₀

theorem initialIn_mirrored (SHA1 : Bytes → Digest) (tail : GenesisTail) (entries : Entries) :
    Mirrored SHA1 tail (.initialIn tail entries) :=
  ⟨.initial tail, [], .nil, rfl, initialIn_alike tail entries (.all none)⟩

/-- What a mirrored thread reads only where it was filled, it reads as the run does. -/
theorem Mirrored.pass (h : Mirrored SHA1 tail th) {a : Arrival} (hread : th.ReadsAssigned a)
    {p : PassMemory} (hpass : th.pass SHA1 p a = .ok th') : Mirrored SHA1 tail th' := by
  obtain ⟨th₀, tr, hrun, hpoint, halike⟩ := h
  have hcount := (counted_proceeds SHA1 tail).reachable ⟨_, tr, rfl, hrun⟩
  have hrel : (th.pass SHA1 p a).Rel (Alike tail) (th₀.pass SHA1 ⟨.all none, .all none⟩ a) :=
    halike.pass hread _ _
  rw [hpass] at hrel
  cases hpass₀ : th₀.pass SHA1 ⟨.all none, .all none⟩ a with
  | error e =>
      rw [hpass₀] at hrel
      cases hrel
  | ok th₁ =>
      rw [hpass₀] at hrel
      obtain ⟨tr', hrun', hhead⟩ := pass_run hcount hpoint hpass₀
      cases hrel with
      | ok halike' => exact ⟨th₁, _, hrun.append hrun', hhead, halike'⟩

/-- The thread after all arrivals. -/
def passes (SHA1 : Bytes → Digest) : List Arrival → Memory → Thread → Exec Thread
  | [], _, th => .ok th
  | a :: rest, m, th => th.pass SHA1 m.head a >>= passes SHA1 rest m.tail

theorem Mirrored.passes {arrivals : List Arrival} {m : Memory} (h : Mirrored SHA1 tail th)
    (hread : RunReadsAssigned SHA1 arrivals m th) (hpasses : passes SHA1 arrivals m th = .ok th') :
    Mirrored SHA1 tail th' := by
  induction arrivals generalizing m th with
  | nil =>
      cases hpasses
      exact h
  | cons a rest ih =>
      obtain ⟨hfirst, hrest⟩ := hread
      obtain ⟨th₁, hpass, hpasses⟩ := Except.bind_eq_ok.1 hpasses
      exact ih (h.pass hfirst hpass) (hrest th₁ hpass) hpasses

/-- A miner in any memory agrees with a run of the thread, if only filled entries
are read: what holds of its chain in all runs holds of the miner's. -/
theorem passes_agrees {arrivals : List Arrival} {m : Memory} {entries : Entries}
    (hread : RunReadsAssigned SHA1 arrivals m (.initialIn tail entries))
    (h : passes SHA1 arrivals m (.initialIn tail entries) = .ok th) :
    ∃ th₀ tr, (proceedingThread SHA1 tail).Run (.initial tail) tr th₀ ∧ th.Agrees th₀ := by
  obtain ⟨th₀, tr, hrun, -, halike⟩ := (initialIn_mirrored SHA1 tail entries).passes hread h
  exact ⟨th₀, tr, hrun, halike.agrees⟩

end Thread

/-! ## Memory that shows -/

namespace Block

theorem readEntries_append_none {ts : List Transaction} {n : Nat} (h : ts.length < n)
    (rest : List (Option Transaction)) :
    readEntries n (ts.map some ++ none :: rest) = .error .unassigned := by
  induction ts generalizing n with
  | nil =>
      cases n with
      | zero => cases h
      | succ n => rfl
  | cons t ts ih =>
      cases n with
      | zero => cases h
      | succ n =>
          rw [List.map_cons, List.cons_append, readEntries, ih (Nat.lt_of_succ_lt_succ h)]
          rfl

/-- Of a populated block too many entries may be read, but none that is unassigned. -/
theorem Populated.entries_ne_unassigned {b : Block} (h : b.Populated) (n : Nat) :
    b.entries n ≠ .error .unassigned := by
  have hread : ∀ (l : List (Option Transaction)) n, (∀ t? ∈ l, t?.isSome) →
      readEntries n l ≠ .error .unassigned := by
    intro l
    induction l with
    | nil => intro n _ hl; cases n <;> cases hl
    | cons t? rest ih =>
        intro n hall hl
        obtain ⟨hfirst, hrest⟩ := List.forall_mem_cons.1 hall
        obtain ⟨t, rfl⟩ := Option.isSome_iff_exists.1 hfirst
        cases n with
        | zero => cases hl
        | succ n =>
            rw [readEntries] at hl
            cases hread : readEntries n rest with
            | ok ts =>
                rw [hread] at hl
                cases hl
            | error e =>
                rw [hread] at hl
                cases hl
                exact ih n hrest hread
  exact hread _ n h

end Block

namespace Arrival

variable {a : Arrival} {m : BlockMsg} {b : Block}

/-- The fields of a decoded block can be encoded, so its entries decide. -/
theorem exists_encodeBlock_inMemory (hb : a.decode m = .ok b) :
    ∃ f : List Transaction → BlockMsg, ∀ entries, encodeBlock (b.inMemory entries) =
      f <$> (b.inMemory entries).entries b.maxInd.toNat := by
  obtain ⟨-, arr, -, rfl⟩ := decode_eq_ok.1 hb
  obtain ⟨prev, hprev⟩ := CharPtr.read_followedBy m.prevBlockSHA1 a.fields.prevBlockSHA1
  obtain ⟨root, hroot⟩ := CharPtr.read_followedBy m.merkleRoot a.fields.merkleRoot
  obtain ⟨hash, hhash⟩ := CharPtr.read_followedBy m.finalHash a.fields.finhash
  have hverifier : ∃ s, (CharPtr.ofString m.verifierPublicKey).cString = .ok s :=
    ⟨_, if_pos (by simp)⟩
  obtain ⟨verifier, hverifier⟩ := hverifier
  refine ⟨fun ts =>
    { blockNumber := m.blockNumber
      prevBlockSHA1 := prev
      magic := m.magic.toUInt64.toInt64
      merkleRoot := root
      transactionMsg := ts.map encodeTransaction
      numTransactions := UInt32.ofInt m.numTransactions.toInt32.toInt
      verifierPublicKey := verifier
      finalHash := hash }, fun entries => ?_⟩
  unfold encodeBlock
  dsimp only [Block.inMemory, Block.followedBy, BlockMsg.decoded]
  rw [hprev, Except.ok_bind, hroot, Except.ok_bind, hverifier, Except.ok_bind, hhash,
    Except.ok_bind]
  rfl

theorem encodeBlock_unassigned (hb : a.decode m = .ok b)
    (hmax : m.transactionMsg.length < min b.maxInd.toNat numTransactionsPerBlock) :
    encodeBlock (b.inMemory (.all none)) = .error .unassigned := by
  obtain ⟨f, hf⟩ := exists_encodeBlock_inMemory hb
  obtain ⟨k, hlist⟩ := toList_decode_of_lt hb (lt_min_iff.1 hmax).2
  have hlen : m.votes.length = m.transactionMsg.length := List.length_map _
  have hentries : b.entries b.maxInd.toNat = .error .unassigned := by
    unfold Block.entries
    rw [hlist]
    exact Block.readEntries_append_none (hlen.trans_lt (lt_min_iff.1 hmax).1) _
  rw [hf, Block.inMemory_none, hentries]
  rfl

theorem encodeBlock_ne_unassigned (hb : a.decode m = .ok b) (t : Transaction) :
    encodeBlock (b.inMemory (.all (some t))) ≠ .error .unassigned := by
  obtain ⟨f, hf⟩ := exists_encodeBlock_inMemory hb
  have hne := (Block.populated_inMemory_some b t).entries_ne_unassigned b.maxInd.toNat
  rw [hf]
  intro h
  cases hentries : (b.inMemory (.all (some t))).entries b.maxInd.toNat with
  | ok ts =>
      rw [hentries] at h
      cases h
  | error e =>
      rw [hentries] at h hne
      cases h
      exact hne rfl

end Arrival

namespace Thread

variable {SHA1 : Bytes → Digest} {tail : GenesisTail} {th th' : Thread}

/-- An entry that the check reads and the message does not fill decides whether
the check stops. -/
theorem checkBlockValidity_inMemory {a : Arrival} {m : BlockMsg} {b : Block}
    (hb : a.decode m = .ok b) (h : ¬ th.VerifiesAssigned m b) (t : Transaction) :
    th.bc.checkBlockValidity (b.inMemory (.all none)) = .error .unassigned ∧
      ∃ code, th.bc.checkBlockValidity (b.inMemory (.all (some t))) = .ok code := by
  simp only [VerifiesAssigned, not_or, not_not, not_exists, not_and, Nat.not_le] at h
  obtain ⟨hlt, ⟨head, hhead, hsame⟩, hnew⟩ := h
  refine ⟨?_, Blockchain.exists_checkBlockValidity hhead hsame
    (Block.populated_inMemory_some b t)⟩
  obtain ⟨n, hlist⟩ := Arrival.toList_decode_of_lt hb hlt
  unfold Blockchain.checkBlockValidity Blockchain.verifyTransactions
  rw [Block.inMemory_none, hhead, Except.ok_bind, hsame, Except.ok_bind, hlist,
    Blockchain.verifyEntries_append hnew]
  rfl

/-- A block that claims a higher number is sent, and the thread starts over. -/
theorem exists_receive {b : Block} {env : RepairEnv} (hclaims : th.ClaimsHigher b)
    (hpop : ∀ c ∈ th.bc.nonGenesis, c.Populated) (hfuel : 0 < env.fuel)
    (hts : ∃ ts, th.newBlock.entries th.newBlock.maxInd.toNat = .ok ts) :
    ∃ (bc : Blockchain) (pushed ts : List Transaction),
      th.receive b env = .ok (⟨bc, .new, false, th.point⟩, false,
        pushed.map .push ++ .broadcastBlock b :: ts.map .push) := by
  obtain ⟨hcode, ⟨head, hhead, hhigher⟩, hsmall, it, hfound⟩ := hclaims
  obtain ⟨ts, hts⟩ := hts
  have hover := overrun_of_found hcode hhead hhigher hsmall hfound
  unfold receive
  rw [hover, Except.ok_bind]
  by_cases hmax : ∃ c ∈ th.bc.blocks.take it, numTransactionsPerBlock < c.maxInd
  · have hreset : ({ th with bc := th.bc.truncated it } : Thread).reset =
        .ok (⟨th.bc.truncated it, .new, false, th.point⟩, ts) := reset_eq_ok.2 ⟨hts, rfl⟩
    refine ⟨th.bc.truncated it, [], ts, ?_⟩
    rw [if_pos hmax]
    dsimp only
    rw [hreset]
    rfl
  · have hrem : ∀ c ∈ th.bc.blocks.take it, c.Removable := by
      push Not at hmax
      intro c hc
      have hmem := hc
      rw [← Blockchain.take_nonGenesis (Blockchain.lt_of_checkIfBlockInChain hfound)] at hmem
      exact ⟨hpop c (List.mem_of_mem_take hmem), hmax c hc⟩
    rw [if_neg hmax]
    exact ⟨_, _, ts, handleBlock_of_repaired env hfuel hcode hhead hhigher hsmall hfound hrem hts⟩

/-- With a new working block the rest of the pass returns, and sends no block. -/
theorem exists_afterReceive (a : Arrival) (bc : Blockchain) (point : Point) (popped : Transaction) :
    ∃ r, (⟨bc, .new, false, point⟩ : Thread).afterReceive SHA1 popped = .ok r ∧
      a.sends r.2 = .ok () := by
  by_cases hvoted : popped.senderPublicKey ∈ bc.voted
  · refine ⟨(⟨bc, .new, false, .head⟩, []), ?_, rfl⟩
    unfold afterReceive intake
    simp [hvoted, readAssigned, Except.ok_bind]
    rfl
  · refine ⟨(⟨bc, { Block.new with
      transactionArray := Block.new.transactionArray.set 0 (some popped), maxInd := 1 },
      false, .head⟩, [.broadcastTransaction popped]), ?_, rfl⟩
    unfold afterReceive intake
    simp [hvoted, readAssigned, Except.ok_bind]
    rfl

/-- An entry that a broadcast reads and the message does not fill decides whether
the pass stops on it. -/
theorem pass_inMemory {a : Arrival} {m : BlockMsg} {b : Block} (hmsg : a.message = some m)
    (hb : a.decode m = .ok b) (h : ¬ th.SendsAssigned a.hasPeers m b)
    (hpop : ∀ c ∈ th.bc.nonGenesis, c.Populated)
    (hts : ∃ ts, th.newBlock.entries th.newBlock.maxInd.toNat = .ok ts) (t : Transaction)
    (p : PassMemory) :
    th.pass SHA1 { p with decoded := .all none } a = .error .unassigned ∧
      th.pass SHA1 { p with decoded := .all (some t) } a ≠ .error .unassigned := by
  simp only [SendsAssigned, not_or, not_not, Bool.not_eq_false, Nat.not_le] at h
  obtain ⟨hpeers, hclaims, hmax⟩ := h
  have hmemory : ∃ ts, (th.inMemory p.working).newBlock.entries
      (th.inMemory p.working).newBlock.maxInd.toNat = .ok ts := by
    obtain ⟨ts, hts⟩ := hts
    exact ⟨ts, Block.entries_inMemory hts p.working⟩
  -- up to the broadcast nothing is read that was not filled
  have hpass : ∀ entries, ∃ bc : Blockchain, th.pass SHA1 { p with decoded := entries } a =
      a.send (b.inMemory entries) >>= fun _ =>
        (⟨bc, .new, false, .pop⟩ : Thread).afterReceive SHA1 a.popped >>= fun r =>
          a.sends r.2 >>= fun _ => .ok r.1 := by
    intro entries
    obtain ⟨bc, pushed, ts, hreceive⟩ := @exists_receive (th.inMemory p.working)
      (b.inMemory entries) a.repairEnv (claimsHigher_inMemory.2 hclaims) hpop (Nat.succ_pos _)
      hmemory
    have hblock : a.block { p with decoded := entries } = .ok (some (b.inMemory entries)) := by
      unfold Arrival.block
      rw [hmsg]
      dsimp only
      rw [hb]
      rfl
    refine ⟨bc, ?_⟩
    unfold pass
    rw [hblock, Except.ok_bind, receiveNext, hreceive, Except.ok_bind]
    dsimp only
    rw [Arrival.sends_block]
    rfl
  have hsend : ∀ entries, a.send (b.inMemory entries) =
      (fun _ => ()) <$> encodeBlock (b.inMemory entries) := fun _ => if_pos hpeers
  constructor
  · obtain ⟨bc, hpass⟩ := hpass (.all none)
    rw [hpass, hsend, Arrival.encodeBlock_unassigned hb hmax]
    rfl
  · obtain ⟨bc, hpass⟩ := hpass (.all (some t))
    obtain ⟨r, hafter, hsends⟩ := @exists_afterReceive SHA1 a bc .pop a.popped
    have hencode := Arrival.encodeBlock_ne_unassigned hb t
    rw [hpass, hsend, hafter, Except.ok_bind, hsends]
    intro herror
    cases hencoded : encodeBlock (b.inMemory (.all (some t))) with
    | ok msg =>
        rw [hencoded] at herror
        cases herror
    | error e =>
        rw [hencoded] at herror hencode
        cases herror
        exact hencode rfl

/-- A pass that comes out alike whatever the unassigned entries hold reads none. -/
theorem Mirrored.readsAssigned {a : Arrival} (h : Mirrored SHA1 tail th) {t : Transaction}
    {R : Thread → Thread → Prop}
    (hcheck : a.check ⟨.all (some t), .all (some t)⟩ th.bc = a.check ⟨.all none, .all none⟩ th.bc)
    (hpass : (th.pass SHA1 ⟨.all none, .all none⟩ a).Rel R
      (th.pass SHA1 ⟨.all (some t), .all (some t)⟩ a)) : th.ReadsAssigned a := by
  obtain ⟨th₀, tr, hrun, -, halike⟩ := h
  obtain ⟨tally, htally⟩ := ((counted_proceeds SHA1 tail).reachable ⟨_, tr, rfl, hrun⟩).counts
  have hpop : ∀ c ∈ th.bc.nonGenesis, c.Populated := by
    rw [← halike.bc.nonGenesis]
    exact htally.populated
  obtain ⟨ts, hts, -⟩ := halike.newBlock.entries
  intro msg b hmsg hb
  constructor
  · -- the check would stop in one memory only
    by_contra hverify
    obtain ⟨hstops, code, hcode⟩ := checkBlockValidity_inMemory hb hverify t
    rw [Arrival.check_of_message hmsg hb, Arrival.check_of_message hmsg hb] at hcheck
    dsimp only at hcheck
    rw [hstops, hcode] at hcheck
    cases hcheck
  · -- the broadcast would
    by_contra hsend
    have hstops := (@pass_inMemory SHA1 _ _ _ _ hmsg hb hsend hpop ⟨ts, hts⟩ t
      ⟨.all none, .all none⟩).1
    have hgoes := (@pass_inMemory SHA1 _ _ _ _ hmsg hb hsend hpop ⟨ts, hts⟩ t
      ⟨.all none, .all (some t)⟩).2
    rw [hstops] at hpass
    cases hview : th.pass SHA1 ⟨.all (some t), .all (some t)⟩ a with
    | ok th' =>
        rw [hview] at hpass
        cases hpass
    | error e =>
        rw [hview] at hpass
        cases hpass
        exact hgoes hview

/-- A miner that sees the same in every memory reads only what was filled. -/
theorem Mirrored.runReadsAssigned {arrivals : List Arrival} (hmirrored : Mirrored SHA1 tail th)
    (h : ∀ m m', SameView SHA1 arrivals m m' th th) (m : Memory) :
    RunReadsAssigned SHA1 arrivals m th := by
  induction arrivals generalizing m th with
  | nil => trivial
  | cons a rest ih =>
      obtain ⟨-, hcheck, hpass⟩ := h (.all none) (.all (some (.sample 0)))
      have hread : th.ReadsAssigned a := hmirrored.readsAssigned hcheck hpass
      refine ⟨hread, fun th' hpass => ih (hmirrored.pass hread hpass) (fun n n' => ?_) m.tail⟩
      -- the memory of this pass is `m.head`, and that of the later ones is any
      obtain ⟨-, -, hrel⟩ := h (Stream'.cons m.head n) (Stream'.cons m.head n')
      rw [Stream'.head_cons, Stream'.head_cons, hpass] at hrel
      cases hrel with
      | ok hview => exact hview

end Thread

namespace Blockchain

theorem sameHash_genesis {tail tail' : GenesisTail} :
    sameHash (genesis tail).finhash (genesis tail').finhash = .ok true ↔ tail = tail' := by
  have hlen : ∀ t : GenesisTail, (startingBlock ++ t.toList).length = publicKeySize := by
    intro t
    simp [startingBlock]
  change sameHash (some (startingBlock ++ tail.toList)) (some (startingBlock ++ tail'.toList)) =
    _ ↔ _
  rw [sameHash_some (hlen tail).ge (hlen tail').ge, List.take_of_length_le (hlen tail).le,
    List.take_of_length_le (hlen tail').le]
  simp [Vector.toList_inj]

/-- Other bytes than those of `sampleTail` behind the text of the genesis hash. -/
def otherTail : GenesisTail := Vector.replicate 7 1

end Blockchain

/-- Memory does not show exactly if the bytes behind the genesis hash are the same
and no message of the run makes a miner read an entry that it does not fill. -/
theorem memoryIrrelevant_iff (SHA1 : Bytes → Digest) (tail tail' : GenesisTail)
    (arrivals : List Arrival) :
    MemoryIrrelevant SHA1 tail tail' arrivals ↔
      tail = tail' ∧ ∀ entries m,
        Thread.RunReadsAssigned SHA1 arrivals m (.initialIn tail entries) := by
  unfold MemoryIrrelevant
  rw [Blockchain.sameHash_genesis]
  constructor
  · rintro ⟨rfl, h⟩
    exact ⟨rfl, fun entries m =>
      (Thread.initialIn_mirrored SHA1 tail entries).runReadsAssigned (h entries entries) m⟩
  · rintro ⟨rfl, h⟩
    exact ⟨rfl, fun entries entries' m m' =>
      (Thread.initialIn_alike tail entries entries').sameView (h entries m)⟩

/-- One message on the constructed blockchain, with nothing behind its fields. -/
def Arrival.single (m : BlockMsg) (hasPeers : Bool) : Arrival :=
  ⟨some m, .all 0, .alone, hasPeers, .sample 1⟩

/-- An empty block that claims eight transactions and has the hash of the genesis block. -/
def Thread.emptyKnown : BlockMsg :=
  { BlockMsg.sample 1 (Blockchain.sampleHash 102)
      (Blockchain.startingBlock ++ Blockchain.sampleTail.toList) 3 with transactionMsg := [] }

theorem Thread.not_memoryIrrelevant_single {m : BlockMsg} {b : Block} {hasPeers : Bool}
    (hb : (Arrival.single m hasPeers).decode m = .ok b)
    (h : ¬ ((Thread.initial Blockchain.sampleTail).VerifiesAssigned m b ∧
      (Thread.initial Blockchain.sampleTail).SendsAssigned hasPeers m b)) :
    ¬ MemoryIrrelevant Block.sampleSHA1 Blockchain.sampleTail Blockchain.sampleTail
      [.single m hasPeers] := by
  rintro ⟨-, hview⟩
  have hread := ((Thread.initialIn_mirrored Block.sampleSHA1 Blockchain.sampleTail
    (.all none)).runReadsAssigned (hview _ _) (.all none)).1
  exact h (hread m b rfl hb)

/-- A block that links to one genesis block and not to the other; and, on genesis
blocks that are the same, an empty block, and one that is sent after a repair. -/
theorem memory_shown :
    ((Blockchain.new Blockchain.sampleTail).checkBlockValidity Blockchain.sampleFirst = .ok .ok ∧
      (Blockchain.new Blockchain.otherTail).checkBlockValidity Blockchain.sampleFirst =
        .ok .prevBlockNonmatch) ∧
    ¬ MemoryIrrelevant Block.sampleSHA1 Blockchain.sampleTail Blockchain.otherTail [] ∧
    ¬ MemoryIrrelevant Block.sampleSHA1 Blockchain.sampleTail Blockchain.sampleTail
      [.single Thread.emptyFirst false] ∧
    ¬ MemoryIrrelevant Block.sampleSHA1 Blockchain.sampleTail Blockchain.sampleTail
      [.single Thread.emptyKnown true] := by
  refine ⟨⟨by decide, by decide⟩, ?_, ?_, ?_⟩
  · rintro ⟨hsame, -⟩
    exact absurd hsame (by decide)
  · refine Thread.not_memoryIrrelevant_single rfl fun h => ?_
    rcases h.1 with hfull | hlinks | ⟨t, ht, -⟩
    · exact absurd hfull (by decide)
    · exact hlinks ⟨_, rfl, by decide⟩
    · cases ht
  · refine Thread.not_memoryIrrelevant_single rfl fun h => ?_
    rcases h.2 with hpeers | hlower | hmax
    · cases hpeers
    · exact hlower ⟨by decide, ⟨_, rfl, by decide⟩, by decide, 0, by decide⟩
    · exact absurd hmax (by decide)

end OneVote
