-- SUMMARY: A miner with its transaction queue, and when it still holds a transaction of every voter it was sent.
import Mathlib.Data.Multiset.AddSub
import OneVote.ForkChoice
import OneVote.Propagation

/-!
# Miner

The processing thread together with `tq`, from which it pops and to which it and
the communications thread push. The queue hands out each element once, in any
order. Which voters were ever pushed is recorded beside it.
-/

namespace OneVote

open TransitionSystem (Move)

structure Miner where
  thread : Thread
  tq : Multiset Transaction
  /-- the voters of all transactions that were ever pushed -/
  pushed : List Bytes

/-- A step of one of the two threads. -/
inductive Action
  /-- `BroadcastTransaction` pushes a transaction -/
  | arrive (t : Transaction)
  | process (i : Input) (effects : List Effect)

namespace Miner

def initial (tail : GenesisTail) : Miner := ⟨.initial tail, 0, []⟩

/-- The queue and its record after pushes. -/
def push (s : Miner) (ts : List Transaction) : Miner :=
  { s with tq := s.tq + ts, pushed := ts.map (·.senderPublicKey) ++ s.pushed }

inductive Step (SHA1 : Bytes → Digest) : Miner → Action → Miner → Prop
  | arrive {s : Miner} {t : Transaction} : Step SHA1 s (.arrive t) (s.push [t])
  | pop {s : Miner} {rest : Multiset Transaction} {t : Transaction} {effects : List Effect}
      {th : Thread} :
      s.tq = t ::ₘ rest →
      Thread.Step SHA1 s.thread (.transaction t, effects) th →
      Step SHA1 s (.process (.transaction t) effects)
        (push { s with thread := th, tq := rest } (pushes effects))
  | other {s : Miner} {i : Input} {effects : List Effect} {th : Thread} :
      (∀ t, i ≠ .transaction t) →
      Thread.Step SHA1 s.thread (i, effects) th →
      Step SHA1 s (.process i effects) (push { s with thread := th } (pushes effects))

end Miner

def miner (SHA1 : Bytes → Digest) (tail : GenesisTail) : TransitionSystem Miner Action where
  init s := s = .initial tail
  step := Miner.Step SHA1

/-! ## The voters that a thread holds -/

namespace Thread

/-- The voter has a transaction in the first `max_ind` entries of the working
block, or in a block of the chain. -/
def Holds (th : Thread) (k : Bytes) : Prop :=
  (∃ ts, th.newBlock.entries th.newBlock.maxInd.toNat = .ok ts ∧
    ∃ t ∈ ts, t.senderPublicKey = k) ∨
  ∃ b ∈ th.bc.blocks, k ∈ b.senders

theorem WellFormed.holds_iff {th : Thread} (h : th.WellFormed) {k : Bytes} :
    th.Holds k ↔ k ∈ th.newBlock.senders ∨ ∃ b ∈ th.bc.blocks, k ∈ b.senders := by
  apply or_congr_left
  rw [h.filling.entries, Block.senders, List.mem_map]
  constructor
  · rintro ⟨ts, hts, hk⟩
    cases hts
    exact hk
  · intro hk
    exact ⟨_, rfl, hk⟩

/-- If handling the input makes a repair return, every block that it pops has
`max_ind` 8, so that all of its transactions are handed back. -/
def RequeuesAll (th : Thread) (i : Input) : Prop :=
  ∀ b env, i = .block (some b) env → th.ClaimsHigher b →
    ∀ it, th.bc.checkIfBlockInChain b = .ok (some it) →
      ∀ c ∈ th.bc.blocks.take it, c.maxInd = numTransactionsPerBlock

theorem requeued_eq_votes {b : Block} (hpop : b.Populated)
    (hmax : b.maxInd = numTransactionsPerBlock) : b.requeued = b.votes := by
  rw [Block.requeued, hmax, Int.toNat_natCast, List.take_of_length_le hpop.length_votes.le]

/-- A voter that the thread holds stays with it or goes back to the queue. -/
theorem Counted.holds_change {SHA1 : Bytes → Digest} {th th' : Thread} {i : Input}
    {effects : List Effect} (h : th.Counted) (hs : Change SHA1 th (i, effects) th')
    (hall : th.RequeuesAll i) {k : Bytes} (hk : th.Holds k) :
    th'.Holds k ∨ ∃ t ∈ pushes effects, t.senderPublicKey = k := by
  have h' := (h.change hs).wellFormed
  rw [h.wellFormed.holds_iff] at hk
  rw [h'.holds_iff]
  cases hs with
  | @accepted b env ts _ _ _ hts =>
      cases hts.symm.trans h.wellFormed.filling.entries
      rw [pushes_broadcastBlock, pushes_map_push, ← List.mem_map]
      rcases hk with hk | ⟨c, hc, hk⟩
      · exact .inr hk
      · exact .inl (.inr ⟨c, List.mem_cons_of_mem _ hc, hk⟩)
  | @repaired b head env it ts _ hcheck hhead hhigher hnumber hfound hrem hts =>
      cases hts.symm.trans h.wellFormed.filling.entries
      rw [pushes_append, pushes_broadcastBlock, pushes_map_push, pushes_map_push]
      have hclaims := claimsHigher_of_found hcheck hhead hhigher hnumber hfound
      rcases hk with hk | ⟨c, hc, hk⟩
      · obtain ⟨t, ht, rfl⟩ := List.mem_map.1 hk
        exact .inr ⟨t, List.mem_append_right _ ht, rfl⟩
      · -- a voter of a popped block goes back to the queue, if its whole block does
        rw [← List.take_append_drop it th.bc.blocks, List.mem_append] at hc
        rcases hc with hpopped | hkept
        · obtain ⟨t, ht, rfl⟩ := List.mem_map.1 hk
          have hrequeued : c.requeued = c.votes := requeued_eq_votes (hrem c hpopped).1
            (hall b env rfl hclaims it hfound c hpopped)
          refine .inr ⟨t, List.mem_append_left _ (List.mem_flatMap.2 ⟨c, hpopped, ?_⟩), rfl⟩
          rw [hrequeued]
          exact ht
        · exact .inl (.inr ⟨c, hkept, hk⟩)
  | taken _ _ hts hmem hset =>
      cases hts.symm.trans h.wellFormed.filling.entries
      refine .inl (hk.imp_left fun hk => ?_)
      rw [h.wellFormed.filling.senders_setEntry hmem hset]
      exact List.mem_append_left _ hk
  | @mined w head hpoint hloop =>
      obtain ⟨-, hvotes⟩ := h.wellFormed.mineLoop hpoint hloop
      -- the votes of the working block become those of the newest block
      rcases hk with hk | ⟨c, hc, hk⟩
      · refine .inl (.inr ⟨_, List.mem_cons_self, ?_⟩)
        change k ∈ w.votes.map _
        rw [hvotes]
        exact hk
      · exact .inl (.inr ⟨c, List.mem_cons_of_mem _ hc, hk⟩)
  | _ => exact .inl hk

/-- The voter of a popped transaction is held afterwards. -/
theorem Counted.holds_popped {SHA1 : Bytes → Digest} {th th' : Thread} {t : Transaction}
    {effects : List Effect} (h : th.Counted) (hs : Change SHA1 th (.transaction t, effects) th') :
    th'.Holds t.senderPublicKey := by
  have h' := (h.change hs).wellFormed
  rw [h'.holds_iff]
  cases hs with
  | discarded _ hknown =>
      rcases hknown with hvoted | ⟨hts, hmem⟩
      · obtain ⟨tally, ht⟩ := h.counts
        rw [ht.voted_eq, List.mem_toFinset, List.mem_flatMap] at hvoted
        obtain ⟨c, hc, hk⟩ := hvoted
        exact .inr ⟨c, List.mem_of_mem_dropLast hc, hk⟩
      · cases hts.symm.trans h.wellFormed.filling.entries
        exact .inl hmem
  | taken _ _ hts hmem hset =>
      cases hts.symm.trans h.wellFormed.filling.entries
      refine .inl ?_
      rw [h.wellFormed.filling.senders_setEntry hmem hset]
      exact List.mem_append_right _ (List.mem_singleton_self _)

end Thread

namespace Miner

/-! ## No voter is forgotten -/

/-- Every voter that was ever pushed still has a transaction in the queue, in
the working block, or in the chain. -/
def Keeps (s : Miner) : Prop :=
  ∀ k ∈ s.pushed, (∃ t ∈ s.tq, t.senderPublicKey = k) ∨ s.thread.Holds k

/-- The step of the processing thread, if it is one, requeues all. -/
def RequeuesAll (m : Move Miner Action) : Prop :=
  ∀ i effects, m.label = .process i effects → m.pre.thread.RequeuesAll i

/-- Pushed transactions are in the queue. -/
theorem keeps_push {s : Miner} {ts : List Transaction}
    (h : ∀ k ∈ s.pushed, (∃ t ∈ s.tq, t.senderPublicKey = k) ∨
      s.thread.Holds k ∨ ∃ t ∈ ts, t.senderPublicKey = k) : (s.push ts).Keeps := by
  intro k hk
  rcases List.mem_append.1 hk with hnew | hold
  · obtain ⟨t, ht, rfl⟩ := List.mem_map.1 hnew
    exact .inl ⟨t, Multiset.mem_add.2 (.inr ht), rfl⟩
  · rcases h k hold with ⟨t, ht, rfl⟩ | hheld | ⟨t, ht, rfl⟩
    · exact .inl ⟨t, Multiset.mem_add.2 (.inl ht), rfl⟩
    · exact .inr hheld
    · exact .inl ⟨t, Multiset.mem_add.2 (.inr ht), rfl⟩

theorem Step.counted {SHA1 : Bytes → Digest} {s s' : Miner} {a : Action} (h : Step SHA1 s a s')
    (hc : s.thread.Counted) : s'.thread.Counted := by
  cases h with
  | arrive => exact hc
  | pop _ hstep => exact hc.change hstep.change
  | other _ hstep => exact hc.change hstep.change

theorem Step.keeps {SHA1 : Bytes → Digest} {s s' : Miner} {a : Action} (h : Step SHA1 s a s')
    (hc : s.thread.Counted) (hall : RequeuesAll ⟨s, a, s'⟩) (hk : s.Keeps) : s'.Keeps := by
  cases h with
  | arrive =>
      apply keeps_push
      intro k hmem
      rcases hk k hmem with hqueue | hheld
      · exact .inl hqueue
      · exact .inr (.inl hheld)
  | pop hqueue hstep =>
      apply keeps_push
      intro k hmem
      rcases hk k hmem with ⟨u, hu, rfl⟩ | hheld
      · rw [hqueue, Multiset.mem_cons] at hu
        rcases hu with rfl | hu
        · exact .inr (.inl (hc.holds_popped hstep.change))
        · exact .inl ⟨u, hu, rfl⟩
      · exact .inr (hc.holds_change hstep.change (hall _ _ rfl) hheld)
  | other _ hstep =>
      apply keeps_push
      intro k hmem
      rcases hk k hmem with hqueue | hheld
      · exact .inl hqueue
      · exact .inr (hc.holds_change hstep.change (hall _ _ rfl) hheld)

/-- No voter is forgotten in a run whose repairs pop only blocks that hand all
their transactions back. -/
theorem keeps_of_requeuesAll {SHA1 : Bytes → Digest} {tail : GenesisTail} {s : Miner}
    {tr : List (Move Miner Action)} (h : (miner SHA1 tail).Run (.initial tail) tr s)
    (hall : ∀ m ∈ tr, RequeuesAll m) : ∀ m ∈ tr, m.post.Keeps := by
  have hpres : (miner SHA1 tail).PreservedUnder RequeuesAll
      fun s => s.thread.Counted ∧ s.Keeps := by
    rintro s a s' hstep hm ⟨hc, hk⟩
    exact ⟨Step.counted hstep hc, Step.keeps hstep hc hm hk⟩
  have hinit : (initial tail).thread.Counted ∧ (initial tail).Keeps :=
    ⟨Thread.initial_counted tail, by intro k hk; cases hk⟩
  intro m hm
  exact (hpres.moves h hinit hall m hm).2.2

/-- A block with a waiting voter is accepted, and a repair hands its votes back. -/
theorem keeps_requeued :
    ∃ tr s, (miner Block.sampleSHA1 Blockchain.sampleTail).Run
        (.initial Blockchain.sampleTail) tr s ∧
      s.thread.bc.blocks = [Blockchain.genesis Blockchain.sampleTail] ∧
      s.tq = Blockchain.sampleFirst.votes ∧ ∀ m ∈ tr, m.post.Keeps := by
  have haccept := @Thread.Step.of_accepted Block.sampleSHA1 (.initial Blockchain.sampleTail)
    Blockchain.sampleFirst [] .alone rfl (by decide) (by decide) rfl
  have hdiscard : Thread.Step Block.sampleSHA1
      (Thread.firstAccepted Blockchain.sampleTail Blockchain.sampleFirst)
      (.transaction (.sample 1), []) Thread.firstIdle := .transaction rfl rfl
  have hrun := TransitionSystem.Run.nil (L := miner Block.sampleSHA1 Blockchain.sampleTail)
      (s := .initial Blockchain.sampleTail)
    |>.snoc (@Step.arrive _ _ (.sample 1))
    |>.snoc (Step.other (by simp) haccept)
    |>.snoc (@Step.pop _ _ 0 _ _ _ rfl hdiscard)
    |>.snoc (Step.other (by simp) (Thread.step_renumberedGenesis Block.sampleSHA1))
  refine ⟨_, _, hrun, rfl, rfl, keeps_of_requeuesAll hrun ?_⟩
  simp only [List.forall_mem_append, List.forall_mem_singleton]
  refine ⟨⟨⟨⟨by simp, ?_⟩, ?_⟩, ?_⟩, ?_⟩
  · intro i effects hi
    cases hi
  · intro i effects hi b env hb hclaims
    cases hi
    cases hb
    exact absurd hclaims.1 (by decide)
  · intro i effects hi b env hb
    cases hi
    cases hb
  · intro i effects hi b env hb _ it hfound c hc
    cases hi
    cases hb
    have hone : Thread.firstIdle.bc.checkIfBlockInChain Thread.renumberedGenesis =
        .ok (some 1) := by decide
    cases hone.symm.trans hfound
    obtain rfl := List.mem_singleton.1 hc
    rfl

/-! ## A forgotten voter -/

/-- A run of the thread that takes transactions is a run of the miner to which
each of them arrives in time. -/
theorem exists_fed {SHA1 : Bytes → Digest} {tail : GenesisTail} {th th' : Thread}
    {tr : List (Move Thread (Input × List Effect))}
    (h : (processingThread SHA1 tail).Run th tr th') (hpush : ∀ m ∈ tr, pushes m.label.2 = [])
    (hblock : ∀ m ∈ tr, ∀ b env, m.label.1 ≠ .block (some b) env) :
    ∃ tr' pushed, (miner SHA1 tail).Run ⟨th, 0, []⟩ tr' ⟨th', 0, pushed⟩ ∧
      (∀ m ∈ tr, ∀ t, m.label.1 = .transaction t → t.senderPublicKey ∈ pushed) ∧
      ∀ m ∈ tr', ∀ b env effects, m.label ≠ .process (.block (some b) env) effects := by
  induction h with
  | nil => exact ⟨[], [], .nil, by simp, by simp⟩
  | @snoc th₁ th₂ tr i hrun hstep ih =>
      obtain ⟨i, effects⟩ := i
      simp only [List.forall_mem_append, List.forall_mem_singleton] at hpush hblock ⊢
      obtain ⟨tr', pushed, hrun', hpushed, hblock'⟩ := ih hpush.1 hblock.1
      have hnone : pushes effects = [] := hpush.2
      by_cases htake : ∃ t, i = .transaction t
      · obtain ⟨t, rfl⟩ := htake
        have harrive : (miner SHA1 tail).step ⟨th₁, 0, pushed⟩ (.arrive t)
            ⟨th₁, {t}, t.senderPublicKey :: pushed⟩ := .arrive
        have hpop : (miner SHA1 tail).step ⟨th₁, {t}, t.senderPublicKey :: pushed⟩
            (.process (.transaction t) effects) ⟨th₂, 0, t.senderPublicKey :: pushed⟩ := by
          have hpop := @Step.pop SHA1 ⟨th₁, {t}, t.senderPublicKey :: pushed⟩ 0 t effects th₂ rfl
            hstep
          rwa [hnone] at hpop
        refine ⟨_, _, (hrun'.snoc harrive).snoc hpop, ?_, ?_⟩
        · refine ⟨fun m hm u hu => List.mem_cons_of_mem _ (hpushed m hm u hu), ?_⟩
          intro u hu
          cases hu
          exact List.mem_cons_self
        · simp only [List.forall_mem_append, List.forall_mem_singleton]
          exact ⟨⟨hblock', by simp⟩, by simp⟩
      · have hother : (miner SHA1 tail).step ⟨th₁, 0, pushed⟩ (.process i effects)
            ⟨th₂, 0, pushed⟩ := by
          have hother := @Step.other SHA1 ⟨th₁, 0, pushed⟩ i effects th₂
            (fun t ht => htake ⟨t, ht⟩) hstep
          rwa [hnone] at hother
        refine ⟨_, _, hrun'.snoc hother, ⟨hpushed, fun t ht => absurd ⟨t, ht⟩ htake⟩, ?_⟩
        simp only [List.forall_mem_append, List.forall_mem_singleton]
        refine ⟨hblock', fun b env effects' hb => ?_⟩
        cases hb
        exact hblock.2 b env rfl

/-- The chain that a mined block and a repair back to genesis leave. -/
theorem truncated_appended_new (tail : GenesisTail) (b : Block) :
    (Thread.appended (.new tail) b).truncated 1 = ⟨[Blockchain.genesis tail], 2, ∅⟩ := by
  simp [Thread.appended, Blockchain.truncated, Blockchain.new]

/-- Taking a transaction into a new working block. -/
theorem takeTransaction_new {bc : Blockchain} {t : Transaction} (h : t.senderPublicKey ∉ bc.voted) :
    ∃ b, Thread.takeTransaction ⟨bc, .new, false, .pop⟩ t =
        .ok (⟨bc, b, false, .head⟩, [.broadcastTransaction t]) ∧
      b.entries b.maxInd.toNat = .ok [t] := by
  refine ⟨{ Block.new with
    transactionArray := #v[some t, none, none, none, none, none, none, none]
    maxInd := 1 }, ?_, rfl⟩
  unfold Thread.takeTransaction
  rw [if_neg h]
  rfl

/-- A block that names the genesis block makes a repair pop a mined block, which
hands nothing back. -/
theorem step_pop_mined {w : Block} (hpop : w.Populated)
    (hfin : w.finhash = Block.sampleFinhash.ptr) :
    Thread.Step Block.sampleSHA1
      ⟨Thread.appended (.new Blockchain.sampleTail)
        (Thread.minedBlock w (Blockchain.genesis Blockchain.sampleTail)), .new, false, .head⟩
      (.block (some Thread.renumberedGenesis) { RepairEnv.alone with fuel := 1 },
        [.broadcastBlock Thread.renumberedGenesis])
      ⟨⟨[Blockchain.genesis Blockchain.sampleTail], 2, ∅⟩, .new, false, .pop⟩ := by
  let mined := Thread.minedBlock w (Blockchain.genesis Blockchain.sampleTail)
  let chain := Thread.appended (.new Blockchain.sampleTail) mined
  have hcheck : chain.checkBlockValidity Thread.renumberedGenesis = .ok .prevBlockNonmatch := by
    refine Blockchain.checkBlockValidity_eq_nonmatch.2 ⟨_, rfl, ?_⟩
    change sameHash _ w.finhash = _
    rw [hfin]
    decide
  have hfound : chain.checkIfBlockInChain Thread.renumberedGenesis = .ok (some 1) := by
    change Blockchain.findHash _ [Blockchain.numbered mined 2, Blockchain.genesis _] = _
    rw [Blockchain.findHash]
    change (sameHash w.finhash _ >>= _) = _
    rw [hfin]
    decide
  have hrem : ∀ c ∈ chain.blocks.take 1, c.Removable := by
    intro c hc
    obtain rfl := List.mem_singleton.1 hc
    exact ⟨hpop, show (0 : Int) ≤ 8 by decide⟩
  have hrequeued : (chain.blocks.take 1).flatMap (·.requeued) = [] := rfl
  have hstep := @Thread.Step.of_repaired Block.sampleSHA1 ⟨chain, .new, false, .head⟩
    Thread.renumberedGenesis _ 1 [] { RepairEnv.alone with fuel := 1 } Nat.one_pos rfl hcheck rfl
    (show UInt32.ofNat 2 < 5 by decide) (show (5 : UInt32) ≤ 5 by decide) hfound hrem rfl
  rwa [hrequeued, truncated_appended_new] at hstep

/-- A mined block is popped by a repair, and its eight voters are forgotten. -/
theorem mined_voters_forgotten :
    ¬ ∀ tail tr s, (miner Block.sampleSHA1 tail).Run (.initial tail) tr s →
      (∀ m ∈ tr, ∀ b env effects, m.label = .process (.block (some b) env) effects →
        b.Populated) →
      s.thread.point = .head → s.Keeps := by
  intro h
  obtain ⟨tr, th, w, hfirst⟩ := Thread.exists_mined_sample Blockchain.sampleTail 1 (by decide)
  obtain ⟨tr', pushed, hrun', hpushed, hblock⟩ :=
    exists_fed hfirst.run hfirst.takes.pushes hfirst.takes.noBlock
  let mined := Thread.minedBlock w (Blockchain.genesis Blockchain.sampleTail)
  let chain := Thread.appended (.new Blockchain.sampleTail) mined
  let left : Blockchain := ⟨[Blockchain.genesis Blockchain.sampleTail], 2, ∅⟩
  have hmined : (miner Block.sampleSHA1 Blockchain.sampleTail).step ⟨th, 0, pushed⟩
      (.process .mine [.broadcastBlock (Blockchain.numbered mined 2)])
      ⟨⟨chain, .new, false, .head⟩, 0, pushed⟩ := .other (by simp) hfirst.step
  have hrepair : (miner Block.sampleSHA1 Blockchain.sampleTail).step
      ⟨⟨chain, .new, false, .head⟩, 0, pushed⟩
      (.process (.block (some Thread.renumberedGenesis) { RepairEnv.alone with fuel := 1 })
        [.broadcastBlock Thread.renumberedGenesis])
      ⟨⟨left, .new, false, .pop⟩, 0, pushed⟩ :=
    .other (by simp) (step_pop_mined hfirst.populated hfirst.finhash)
  -- another voter brings the thread back to the loop head
  obtain ⟨b, htake, hentries⟩ := @takeTransaction_new left (.sample 50)
    (Finset.notMem_empty _)
  have harrive : (miner Block.sampleSHA1 Blockchain.sampleTail).step
      ⟨⟨left, .new, false, .pop⟩, 0, pushed⟩ (.arrive (.sample 50))
      ⟨⟨left, .new, false, .pop⟩, {Transaction.sample 50},
        (Transaction.sample 50).senderPublicKey :: pushed⟩ := .arrive
  have hpopped : (miner Block.sampleSHA1 Blockchain.sampleTail).step
      ⟨⟨left, .new, false, .pop⟩, {Transaction.sample 50},
        (Transaction.sample 50).senderPublicKey :: pushed⟩
      (.process (.transaction (.sample 50)) [.broadcastTransaction (.sample 50)])
      ⟨⟨left, b, false, .head⟩, 0, (Transaction.sample 50).senderPublicKey :: pushed⟩ :=
    @Step.pop Block.sampleSHA1 ⟨⟨left, .new, false, .pop⟩, {Transaction.sample 50},
      (Transaction.sample 50).senderPublicKey :: pushed⟩ 0 (.sample 50) _ _ rfl
      (.transaction rfl htake)
  have hkeeps := h _ _ _ ((((hrun'.snoc hmined).snoc hrepair).snoc harrive).snoc hpopped)
    (by
      simp only [List.forall_mem_append, List.forall_mem_singleton]
      refine ⟨⟨⟨⟨fun m hm b env effects hb => absurd hb (hblock m hm b env effects), by simp⟩, ?_⟩,
        by simp⟩, by simp⟩
      intro b env effects hb
      cases hb
      decide)
    rfl
  have hkey : Block.sampleKey ∈ (Transaction.sample 50).senderPublicKey :: pushed := by
    obtain ⟨m, hm, htaken⟩ := hfirst.takes.taken ⟨Block.sampleKey, [89], 0⟩ List.mem_cons_self
    exact List.mem_cons_of_mem _ (hpushed m hm _ htaken)
  rcases hkeeps _ hkey with ⟨t, ht, -⟩ | ⟨ts, hts, t, ht, hk⟩ | ⟨c, hc, hk⟩
  · exact absurd ht (Multiset.notMem_zero t)
  · cases hts.symm.trans hentries
    obtain rfl := List.mem_singleton.1 ht
    revert hk
    decide
  · obtain rfl := List.mem_singleton.1 hc
    cases hk

end Miner

end OneVote
