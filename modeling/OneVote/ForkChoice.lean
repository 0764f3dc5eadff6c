-- SUMMARY: When handling a block shortens the chain: exactly when a known block claims a higher number.
import OneVote.Voters

/-!
# Fork choice

A received block whose claimed number is higher than the head's goes to
`repair_blockchain`. A repair returns only for a block that is in the chain, and
it then takes away what stands above that block and adds nothing.
-/

namespace OneVote

/-! ## Repairs that read behind an entry

`add_transactions_to_queue` copies `max_ind` pointers of a removed block and
follows none. With a `max_ind` above 8 it copies what lies behind the entries as
well, and the removal goes on. The steps of the thread end there, so the results
of this module are about runs that may also go on. -/

/-- The repair against `b` finds it at position `it`, and a block above that
position has more than eight transactions by its `max_ind`. -/
def Blockchain.Overruns (bc : Blockchain) (b : Block) (env : RepairEnv) (it : Nat) : Prop :=
  0 < env.fuel ∧ bc.checkIfBlockInChain b = .ok (some it) ∧
    (∀ c ∈ bc.blocks.take it, c.Populated) ∧
    ∃ c ∈ bc.blocks.take it, numTransactionsPerBlock < c.maxInd

namespace Thread

/-- A step of the thread, or one that goes on behind the entries of a removed
block: it pushes `pushed`, whatever the copied pointers lead to. -/
inductive Proceeds (SHA1 : Bytes → Digest) (th : Thread) : Input × List Effect → Thread → Prop
  | step {i : Input × List Effect} {th' : Thread} : Step SHA1 th i th' → Proceeds SHA1 th i th'
  | overruns {b head : Block} {env : RepairEnv} {it : Nat} {pushed ts : List Transaction} :
      th.point = .head →
      th.bc.checkBlockValidity b = .ok .prevBlockNonmatch →
      th.bc.getHeadBlock = .ok head →
      head.blockNumber < b.blockNumber →
      b.blockNumber ≤ 5 →
      th.bc.Overruns b env it →
      th.newBlock.entries th.newBlock.maxInd.toNat = .ok ts →
      Proceeds SHA1 th
        (.block (some b) env, pushed.map .push ++ .broadcastBlock b :: ts.map .push)
        ⟨th.bc.truncated it, .new, false, .pop⟩

end Thread

/-- The processing thread, with the steps that go on behind an entry. -/
def proceedingThread (SHA1 : Bytes → Digest) (tail : GenesisTail) :
    TransitionSystem Thread (Input × List Effect) where
  init th := th = .initial tail
  step := Thread.Proceeds SHA1

namespace Thread

variable {SHA1 : Bytes → Digest} {tail : GenesisTail}

theorem run_proceeds {th th' : Thread}
    {tr : List (TransitionSystem.Move Thread (Input × List Effect))}
    (h : (processingThread SHA1 tail).Run th tr th') :
    (proceedingThread SHA1 tail).Run th tr th' := h.mono fun _ _ _ => Proceeds.step

theorem reachable_proceeds {th : Thread} (h : (processingThread SHA1 tail).Reachable th) :
    (proceedingThread SHA1 tail).Reachable th := by
  obtain ⟨th₀, tr, hinit, hrun⟩ := h
  exact ⟨th₀, tr, hinit, run_proceeds hrun⟩

theorem Counted.proceeds {th th' : Thread} {i : Input × List Effect} (h : th.Counted)
    (hs : Proceeds SHA1 th i th') : th'.Counted := by
  cases hs with
  | step hstep => exact h.change hstep.change
  | overruns _ _ _ _ _ hover =>
      obtain ⟨-, hfound, -⟩ := hover
      obtain ⟨t, ht⟩ := h.counts
      exact ⟨wellFormed_new _ (by decide),
        _, ht.truncated (Blockchain.lt_of_checkIfBlockInChain hfound)⟩

theorem counted_proceeds (SHA1 : Bytes → Digest) (tail : GenesisTail) :
    (proceedingThread SHA1 tail).Invariant Counted where
  init := by
    rintro th rfl
    exact initial_counted tail
  step := fun _ _ _ hs h => h.proceeds hs

/-! ## Claimed numbers -/

/-- Handling `b` goes through a repair that returns true. -/
def RepairsWith (th : Thread) (b : Block) (env : RepairEnv) : Prop :=
  th.bc.checkBlockValidity b = .ok .prevBlockNonmatch ∧
    (∃ head, th.bc.getHeadBlock = .ok head ∧ head.blockNumber < b.blockNumber) ∧
    b.blockNumber ≤ 5 ∧
    ((∃ bc' pushed, th.bc.repairBlockchain b env = .ok (true, bc', pushed)) ∨
      ∃ it, th.bc.Overruns b env it)

/-- Handling `b` never shortens the chain, and a successful repair lengthens it. -/
def KeepsLonger (SHA1 : Bytes → Digest) (th : Thread) (b : Block) : Prop :=
  ∀ env effects th', Proceeds SHA1 th (.block (some b) env, effects) th' →
    th.bc.blocks.length ≤ th'.bc.blocks.length ∧
      (th.RepairsWith b env → th.bc.blocks.length < th'.bc.blocks.length)

/-- `b` does not continue the head, claims a number above the head's and at most
5, and has the final hash of a block in the chain. -/
def ClaimsHigher (th : Thread) (b : Block) : Prop :=
  th.bc.checkBlockValidity b = .ok .prevBlockNonmatch ∧
    (∃ head, th.bc.getHeadBlock = .ok head ∧ head.blockNumber < b.blockNumber) ∧
    b.blockNumber ≤ 5 ∧
    ∃ it, th.bc.checkIfBlockInChain b = .ok (some it)

theorem claimsHigher_of_found {th : Thread} {b head : Block} {it : Nat}
    (hcheck : th.bc.checkBlockValidity b = .ok .prevBlockNonmatch)
    (hhead : th.bc.getHeadBlock = .ok head) (hhigher : head.blockNumber < b.blockNumber)
    (hnumber : b.blockNumber ≤ 5) (hfound : th.bc.checkIfBlockInChain b = .ok (some it)) :
    th.ClaimsHigher b := ⟨hcheck, ⟨head, hhead, hhigher⟩, hnumber, it, hfound⟩

/-- A block that is judged OK does not claim a higher number. -/
theorem not_claimsHigher_of_ok {th : Thread} {b : Block}
    (h : th.bc.checkBlockValidity b = .ok .ok) : ¬ th.ClaimsHigher b := by
  intro hclaims
  cases h.symm.trans hclaims.1

/-- A block that the thread ignores does not claim a higher number. -/
theorem not_claimsHigher_of_ignored {th : Thread} {b : Block}
    (h : th.bc.checkBlockValidity b = .ok .transactionInvalid ∨
      th.bc.checkBlockValidity b = .ok .prevBlockNonmatch ∧
        ∃ head, th.bc.getHeadBlock = .ok head ∧ b.blockNumber ≤ head.blockNumber) :
    ¬ th.ClaimsHigher b := by
  intro hclaims
  obtain ⟨hcheck, ⟨head, hhead, hhigher⟩, -⟩ := hclaims
  rcases h with hinvalid | ⟨-, head', hhead', hle⟩
  · cases hinvalid.symm.trans hcheck
  · cases hhead.symm.trans hhead'
    exact UInt32.not_lt.2 hle hhigher

/-- The blocks above a found block have all their entries. -/
theorem Counted.populated_above {th : Thread} (h : th.Counted) {b : Block} {it : Nat}
    (hfound : th.bc.checkIfBlockInChain b = .ok (some it)) :
    ∀ c ∈ th.bc.blocks.take it, c.Populated := by
  obtain ⟨t, ht⟩ := h.counts
  intro c hc
  rw [← Blockchain.take_nonGenesis (Blockchain.lt_of_checkIfBlockInChain hfound)] at hc
  exact ht.populated c (List.mem_of_mem_take hc)

/-- A block that claims a higher number makes a repair return, and the chain is
cut back to the block that it names. -/
theorem Counted.proceeds_of_claimsHigher {th : Thread} (h : th.Counted) (hpoint : th.point = .head)
    {b : Block} (hb : th.ClaimsHigher b) (env : RepairEnv) (hfuel : 0 < env.fuel) :
    ∃ it th' effects, it < th.bc.blocks.length ∧ th'.bc = th.bc.truncated it ∧
      th.RepairsWith b env ∧ Proceeds SHA1 th (.block (some b) env, effects) th' := by
  obtain ⟨hcheck, ⟨head, hhead, hhigher⟩, hnumber, it, hfound⟩ := hb
  have hpop := h.populated_above hfound
  have hlt := Blockchain.lt_of_checkIfBlockInChain hfound
  have hts := h.wellFormed.filling.entries
  by_cases hmax : ∀ c ∈ th.bc.blocks.take it, c.maxInd ≤ numTransactionsPerBlock
  · have hrem : ∀ c ∈ th.bc.blocks.take it, c.Removable := fun c hc => ⟨hpop c hc, hmax c hc⟩
    have hrepair := Blockchain.repairBlockchain_eq_ok.2 ⟨hfuel, it, hfound, hrem, rfl, rfl, rfl⟩
    exact ⟨it, _, _, hlt, rfl, ⟨hcheck, ⟨head, hhead, hhigher⟩, hnumber, .inl ⟨_, _, hrepair⟩⟩,
      .step (.of_repaired env hfuel hpoint hcheck hhead hhigher hnumber hfound hrem hts)⟩
  · -- a removed block is read past its entries
    push Not at hmax
    have hover : th.bc.Overruns b env it := ⟨hfuel, hfound, hpop, hmax⟩
    exact ⟨it, _, _, hlt, rfl, ⟨hcheck, ⟨head, hhead, hhigher⟩, hnumber, .inr ⟨it, hover⟩⟩,
      @Proceeds.overruns SHA1 th b head env it [] _ hpoint hcheck hhead hhigher hnumber hover hts⟩

theorem ClaimsHigher.of_repairsWith {th : Thread} {b : Block} {env : RepairEnv}
    (h : th.RepairsWith b env) : th.ClaimsHigher b := by
  obtain ⟨hcheck, hhigher, hnumber, ⟨bc', pushed, hrepair⟩ | ⟨it, -, hfound, -⟩⟩ := h
  · obtain ⟨-, it, hfound, -⟩ := Blockchain.repairBlockchain_eq_ok.1 hrepair
    exact ⟨hcheck, hhigher, hnumber, it, hfound⟩
  · exact ⟨hcheck, hhigher, hnumber, it, hfound⟩

/-- A block that does not claim a higher number leaves the chain as it is or one
block longer. -/
theorem length_le_of_not_claimsHigher {th th' : Thread} {b : Block} {env : RepairEnv}
    {effects : List Effect} (hb : ¬ th.ClaimsHigher b)
    (hs : Proceeds SHA1 th (.block (some b) env, effects) th') :
    th.bc.blocks.length ≤ th'.bc.blocks.length := by
  cases hs with
  | step hstep =>
      cases hstep.change with
      | ignored => exact le_rfl
      | accepted => exact Nat.le_succ _
      | repaired _ hcheck hhead hhigher hnumber hfound =>
          exact absurd (claimsHigher_of_found hcheck hhead hhigher hnumber hfound) hb
  | overruns _ hcheck hhead hhigher hnumber hover =>
      exact absurd (claimsHigher_of_found hcheck hhead hhigher hnumber hover.2.1) hb

/-- The longer chain wins exactly when no known block claims a higher number. -/
theorem keepsLonger_iff {th : Thread} (h : (proceedingThread SHA1 tail).Reachable th)
    (hpoint : th.point = .head) (b : Block) : th.KeepsLonger SHA1 b ↔ ¬ th.ClaimsHigher b := by
  constructor
  · intro hkeeps hb
    have hcounted := (counted_proceeds SHA1 tail).reachable h
    obtain ⟨it, th', effects, hit, hbc, hrepairs, hstep⟩ :=
      hcounted.proceeds_of_claimsHigher hpoint hb { RepairEnv.alone with fuel := 1 } Nat.one_pos
    have hlt := (hkeeps _ _ _ hstep).2 hrepairs
    rw [hbc, Blockchain.truncated, List.length_drop] at hlt
    omega
  · intro hb env effects th' hstep
    refine ⟨length_le_of_not_claimsHigher hb hstep, fun hrepairs => ?_⟩
    exact absurd (ClaimsHigher.of_repairsWith hrepairs) hb

/-- A block that continues the head does not claim a higher number. -/
theorem keepsLonger_initial :
    (initial Blockchain.sampleTail).KeepsLonger Block.sampleSHA1 Blockchain.sampleFirst :=
  (@keepsLonger_iff Block.sampleSHA1 Blockchain.sampleTail _ (.of_init rfl) rfl
    Blockchain.sampleFirst).2 (by
    intro h
    rcases h with ⟨hcheck, -⟩
    revert hcheck
    decide)

/-- A block that names the genesis block, with a higher number. -/
def renumberedGenesis : Block :=
  Block.sample 9 (Blockchain.sampleHash 103)
    (Blockchain.startingBlock ++ Blockchain.sampleTail.toList) 5

/-- A miner that accepted one block and is back at the loop head. -/
def firstIdle : Thread :=
  ⟨appended (.new Blockchain.sampleTail) Blockchain.sampleFirst, .new, false, .head⟩

/-- A transaction of a known voter brings the thread back to the loop head. -/
theorem reachable_firstIdle (SHA1 : Bytes → Digest) :
    (processingThread SHA1 Blockchain.sampleTail).Reachable firstIdle := by
  have hfirst : (processingThread SHA1 Blockchain.sampleTail).Reachable
      (firstAccepted Blockchain.sampleTail Blockchain.sampleFirst) :=
    reachable_firstAccepted SHA1 (by decide)
  have hdiscard : (firstAccepted Blockchain.sampleTail Blockchain.sampleFirst).takeTransaction
      (.sample 1) = .ok (firstIdle, []) := rfl
  exact hfirst.step (.transaction rfl hdiscard)

theorem step_renumberedGenesis (SHA1 : Bytes → Digest) :
    Step SHA1 firstIdle
      (.block (some renumberedGenesis) { RepairEnv.alone with fuel := 1 },
        (Blockchain.sampleFirst.votes.map .push) ++ [.broadcastBlock renumberedGenesis])
      ⟨firstIdle.bc.truncated 1, .new, false, .pop⟩ :=
  @Step.of_repaired SHA1 firstIdle renumberedGenesis _ 1 [] { RepairEnv.alone with fuel := 1 }
    Nat.one_pos rfl (by decide) rfl (by decide) (by decide) (by decide) (by decide) rfl

/-- The block erases the votes of an accepted block. -/
theorem renumberedGenesis_truncates :
    ¬ ∃ SHA1, ∀ tail th b, (proceedingThread SHA1 tail).Reachable th → th.point = .head →
      th.KeepsLonger SHA1 b := by
  intro h
  rcases h with ⟨SHA1, h⟩
  have hlen := (h _ _ _ (reachable_proceeds (reachable_firstIdle SHA1)) rfl _ _ _
    (.step (step_renumberedGenesis SHA1))).1
  exact absurd hlen (by decide)

end Thread

end OneVote
