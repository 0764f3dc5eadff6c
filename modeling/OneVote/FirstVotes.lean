-- SUMMARY: What a miner that works alone has recorded: the first vote of each voter among those it took, and of at most 40 voters.
import Mathlib.Data.Finset.Card
import OneVote.Base.Firsts
import OneVote.SharedPrefix

/-!
# First votes

The voters of the chain and of the working block are refused. So the chain,
oldest block first, and then the working block list the first vote of every
voter that the miner heard of, as long as no block from outside interferes.
-/

namespace OneVote

open TransitionSystem (Move)

namespace Thread

variable {SHA1 : Bytes → Digest} {th th' : Thread} {i : Input} {effects : List Effect}

/-- The two checks of `processing_thread` on a vote ask whether its voter is recorded. -/
theorem Counted.known_iff (hc : th.Counted) {k : Bytes} :
    k ∈ th.bc.voted ∨ k ∈ th.newBlock.senders ↔ k ∈ th.recorded.map (·.senderPublicKey) := by
  obtain ⟨t, ht⟩ := hc.counts
  rw [mem_voters_recorded, ht.voted_eq]
  simp only [List.mem_toFinset, List.mem_flatMap]

theorem length_recorded (hc : th.Counted) :
    th.recorded.length =
      numTransactionsPerBlock * th.bc.nonGenesis.length + th.newBlock.votes.length := by
  obtain ⟨t, ht⟩ := hc.counts
  have hlen : ∀ l : List Block, (∀ c ∈ l, c.Populated) →
      (l.flatMap (·.votes)).length = numTransactionsPerBlock * l.length := by
    intro l
    induction l with
    | nil => exact fun _ => rfl
    | cons c l ih =>
        intro hl
        rw [List.forall_mem_cons] at hl
        rw [List.flatMap_cons, List.length_append, hl.1.length_votes, ih hl.2, List.length_cons,
          Nat.mul_succ, Nat.add_comm]
  rw [recorded, List.length_append, hlen _ fun c hc => ht.populated c (List.mem_reverse.1 hc),
    List.length_reverse]

/-- A chain of at most four blocks above genesis, and a working block. -/
theorem Short.length_recorded_le (hshort : th.Short) (hc : th.Counted)
    (hlength : th.bc.blocks.length ≤ th.bc.chainLength) : th.recorded.length ≤ 40 := by
  have hle := hshort.chainLength_le
  have hwork := hc.wellFormed.filling.length_le
  have hmax : numTransactionsPerBlock = 8 := rfl
  rw [length_recorded hc, Blockchain.nonGenesis, List.length_dropLast, hmax]
  omega

/-- A step that ignores its block, if it takes one, records the vote that it
takes unless the voter is recorded. -/
theorem Change.recorded (hs : Change SHA1 th (i, effects) th') (hc : th.Counted)
    (hignores : i.received ≠ [] → th'.bc = th.bc ∧ th'.newBlock = th.newBlock) :
    th'.recorded = i.taken.foldl (Firsts.add (·.senderPublicKey)) th.recorded := by
  have hsame : i.received ≠ [] → th'.recorded = th.recorded := by
    intro hreceived
    obtain ⟨hbc, hblock⟩ := hignores hreceived
    rw [Thread.recorded, hbc, hblock]
    rfl
  cases hs with
  | idle => rfl
  | ignored => exact hsame (List.cons_ne_nil _ _)
  | accepted => exact hsame (List.cons_ne_nil _ _)
  | repaired => exact hsame (List.cons_ne_nil _ _)
  | @discarded t ts _ hknown =>
      have hmem : t.senderPublicKey ∈ th.recorded.map (·.senderPublicKey) := by
        apply hc.known_iff.1
        refine hknown.imp_right ?_
        rintro ⟨hts, hmem⟩
        cases hts.symm.trans hc.wellFormed.filling.entries
        exact hmem
      exact (Firsts.add_of_mem hmem).symm
  | @taken t ts b _ hvoted hts hmem hset =>
      cases hts.symm.trans hc.wellFormed.filling.entries
      obtain ⟨-, hvotes, -⟩ := hc.wellFormed.filling.setEntry hmem hset
      have hnew : t.senderPublicKey ∉ th.recorded.map (·.senderPublicKey) := by
        rw [← hc.known_iff, not_or]
        exact ⟨hvoted, hmem⟩
      refine Eq.trans ?_ (Firsts.add_of_not_mem hnew).symm
      rw [Thread.recorded, Thread.recorded, List.append_assoc]
      exact congrArg _ hvotes
  | missed => rfl
  | @mined w head hpoint hloop =>
      -- the votes move from the working block to the end of those in the chain
      obtain ⟨-, hvotes⟩ := hc.wellFormed.mineLoop hpoint hloop
      obtain ⟨t, ht⟩ := hc.counts
      have hmined : (Blockchain.numbered (minedBlock w head) (th.bc.chainLength + 1)).votes =
          th.newBlock.votes := hvotes
      rw [Thread.recorded, Blockchain.nonGenesis_appended ht.nonempty, List.reverse_cons,
        List.flatMap_append, List.flatMap_singleton, hmined]
      exact List.append_nil _

end Thread

namespace Network

variable {ι : Type*} [DecidableEq ι] {SHA1 : Bytes → Digest} {P : Bytes} {tail : GenesisTail}

/-- The votes that the miner `j` took from its queue, in order. -/
def takenBy (j : ι) (tr : List (Move (Network ι) (ι × Input × List Effect))) :
    List Transaction :=
  tr.flatMap fun m => if m.label.1 = j then m.label.2.1.taken else []

theorem Step.recorded {s s' : Network ι} {i : ι × Input × List Effect} (hs : Step SHA1 s i s')
    (hc : ∀ j, (s.miners j).Counted) (hignores : IgnoresBlocks ⟨s, i, s'⟩) (j : ι) :
    (s'.miners j).recorded =
      (takenBy j [⟨s, i, s'⟩]).foldl (Firsts.add (·.senderPublicKey)) (s.miners j).recorded := by
  cases hs with
  | @step k input effects th hdelivers hstep =>
      by_cases hk : k = j
      · subst hk
        simp only [takenBy, List.flatMap_singleton, if_true, Function.update_self]
        refine hstep.change.recorded (hc k) fun hreceived => ?_
        obtain ⟨-, -, hsame⟩ := hignores hreceived
        have hk := hsame k
        simp only [Function.update_self] at hk
        exact hk
      · simp only [takenBy, List.flatMap_singleton, if_neg hk, List.foldl_nil,
          Function.update_of_ne (Ne.symm hk)]

/-- In an election whose keys all begin with the same 20 bytes, a miner has
recorded the first vote of each voter among the votes it took, in that order;
what is recorded stays, and it is of at most 40 voters. -/
theorem recorded_first_votes {s : Network ι}
    {tr : List (Move (Network ι) (ι × Input × List Effect))}
    (hrun : (network ι SHA1 tail).Run (.initial tail) tr s) (hP : P.length = publicKeySize)
    (hkeys : ∀ m ∈ tr, TakesPrefix P m) (j : ι) :
    (s.miners j).recorded = Firsts.of (·.senderPublicKey) (takenBy j tr) ∧
      (∀ k, ((s.miners j).recorded.find? fun t => t.senderPublicKey = k) =
        (takenBy j tr).find? fun t => t.senderPublicKey = k) ∧
      (∀ m ∈ tr, (m.pre.miners j).recorded <+: (m.post.miners j).recorded) ∧
      ((takenBy j tr).map (·.senderPublicKey)).toFinset.card ≤ 40 := by
  have hpres : (network ι SHA1 tail).PreservedUnder (TakesPrefix P)
      (Isolated SHA1 P tail) := fun _ _ _ hstep hm h => (Step.isolated hstep hP hm h).1
  have hmove : ∀ m ∈ tr, (m.post.miners j).recorded =
      (takenBy j [m]).foldl (Firsts.add (·.senderPublicKey)) (m.pre.miners j).recorded := by
    intro m hm
    have hpre := (hpres.moves hrun initial_isolated hkeys m hm).1
    have hignores := (Step.isolated (hrun.step_of_mem m hm) hP (hkeys m hm) hpre).2.1
    exact Step.recorded (hrun.step_of_mem m hm) hpre.silent.counted hignores j
  have hfirst : (s.miners j).recorded = Firsts.of (·.senderPublicKey) (takenBy j tr) := by
    clear hkeys
    induction hrun with
    | nil => rfl
    | @snoc t u tr i hrun hstep ih =>
        rw [List.forall_mem_append, List.forall_mem_singleton] at hmove
        have hsplit : takenBy j (tr ++ [⟨t, i, u⟩]) = takenBy j tr ++ takenBy j [⟨t, i, u⟩] :=
          List.flatMap_append
        rw [hsplit, Firsts.of_append, ← ih hmove.1]
        exact hmove.2
  refine ⟨hfirst, fun k => hfirst ▸ Firsts.find?_of _ k, fun m hm => ?_, ?_⟩
  · rw [hmove m hm]
    exact Firsts.prefix_foldl _ _
  · have halone := (hpres.run hrun initial_isolated hkeys).alone j
    have hle := halone.short.length_recorded_le halone.counted halone.aligned.length.ge
    have hkeysEq : ((takenBy j tr).map (·.senderPublicKey)).toFinset =
        ((s.miners j).recorded.map (·.senderPublicKey)).toFinset := by
      ext k
      rw [List.mem_toFinset, List.mem_toFinset, hfirst, Firsts.mem_keys_of]
    rw [hkeysEq]
    refine (List.toFinset_card_le _).trans ?_
    rw [List.length_map]
    exact hle

/-- One of two miners takes eight such votes and mines them. -/
theorem recorded_first_votes_mined :
    ∃ tr s, (network Bool Block.sampleSHA1 Blockchain.sampleTail).Run
        (.initial Blockchain.sampleTail) tr s ∧
      (s.miners false).bc.nonGenesis.length = 1 ∧
      (s.miners false).recorded = Firsts.of (·.senderPublicKey) (takenBy false tr) ∧
      (∀ k, ((s.miners false).recorded.find? fun t => t.senderPublicKey = k) =
        (takenBy false tr).find? fun t => t.senderPublicKey = k) ∧
      (∀ m ∈ tr, (m.pre.miners false).recorded <+: (m.post.miners false).recorded) ∧
      ((takenBy false tr).map (·.senderPublicKey)).toFinset.card ≤ 40 := by
  obtain ⟨tr, s, hrun, hlen, hkeys⟩ := exists_alike_run Blockchain.sampleTail
  exact ⟨tr, s, hrun, hlen, recorded_first_votes hrun rfl hkeys false⟩

end Network

end OneVote
