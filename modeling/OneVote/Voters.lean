-- SUMMARY: The voters of a chain: the voted set mirrors the blocks, and a voter can only be repeated inside one block.
import Mathlib.Data.List.TakeDrop
import OneVote.WorkingBlock

/-!
# Voters

No voter stands in two blocks, because every block that is added has only new
voters. So the blocks above genesis are a tally, `voted` is the set of its keys,
and the removal of blocks takes exactly their own voters out of the set.
-/

namespace OneVote

namespace Blockchain

/-- The voters of the blocks above genesis are the sheets of `t`, and `voted` is
the set of its keys. -/
structure Counts (bc : Blockchain) (t : Tally Bytes) : Prop where
  nonempty : bc.blocks ≠ []
  populated : ∀ b ∈ bc.nonGenesis, b.Populated
  sheets : bc.nonGenesis.map (·.senders) = t.sheets
  voted : bc.voted = t.keys

theorem new_counts (tail : GenesisTail) : (new tail).Counts Tally.empty where
  nonempty := List.cons_ne_nil _ _
  populated := by
    intro b hb
    cases hb
  sheets := rfl
  voted := rfl

theorem blocks_eq {bc : Blockchain} {g : Block} (h : bc.blocks.getLast? = some g) :
    bc.blocks = bc.nonGenesis ++ [g] := by
  obtain ⟨rest, hrest⟩ := List.getLast?_eq_some_iff.1 h
  rw [nonGenesis, hrest, List.dropLast_concat]

/-- The head is the newest block above genesis, or genesis itself. -/
theorem getHeadBlock_cases {bc : Blockchain} {g head : Block} (h : bc.blocks.getLast? = some g)
    (hhead : bc.getHeadBlock = .ok head) :
    (bc.nonGenesis = [] ∧ head = g) ∨ ∃ bs, bc.nonGenesis = head :: bs := by
  obtain ⟨-, hhead⟩ := getHeadBlock_eq_ok.1 hhead
  rw [blocks_eq h] at hhead
  cases hbs : bc.nonGenesis with
  | nil =>
      rw [hbs] at hhead
      exact .inl ⟨rfl, (Option.some.inj hhead).symm⟩
  | cons b bs =>
      rw [hbs] at hhead
      obtain rfl := Option.some.inj hhead
      exact .inr ⟨bs, rfl⟩

theorem nonGenesis_appended {bc : Blockchain} (h : bc.blocks ≠ []) (b : Block) :
    (Thread.appended bc b).nonGenesis = numbered b (bc.chainLength + 1) :: bc.nonGenesis :=
  List.dropLast_cons_of_ne_nil h

theorem nonGenesis_truncated (bc : Blockchain) (it : Nat) :
    (bc.truncated it).nonGenesis = bc.nonGenesis.drop it :=
  List.dropLast_drop_eq_drop_dropLast bc.blocks it

theorem take_nonGenesis {bc : Blockchain} {it : Nat} (h : it < bc.blocks.length) :
    bc.nonGenesis.take it = bc.blocks.take it := by
  rw [nonGenesis, List.dropLast_eq_take, List.take_take, Nat.min_eq_left (by omega)]

theorem Counts.appended {bc : Blockchain} {t : Tally Bytes} (h : bc.Counts t) {b : Block}
    (hpop : b.Populated) (hnew : ∀ k ∈ b.senders, k ∉ bc.voted) :
    (Thread.appended bc b).Counts (t.add b.senders (h.voted ▸ hnew)) where
  nonempty := List.cons_ne_nil _ _
  populated := by
    intro c hc
    rw [nonGenesis_appended h.nonempty] at hc
    rcases List.mem_cons.1 hc with rfl | hc
    · exact hpop
    · exact h.populated c hc
  sheets := by
    rw [nonGenesis_appended h.nonempty, List.map_cons, h.sheets]
    rfl
  voted := by
    rw [Tally.keys_add, ← h.voted]
    rfl

theorem Counts.truncated {bc : Blockchain} {t : Tally Bytes} (h : bc.Counts t) {it : Nat}
    (hit : it < bc.blocks.length) : (bc.truncated it).Counts (t.discard it) where
  nonempty := by
    intro hnil
    have hlen := congrArg List.length hnil
    simp only [Blockchain.truncated, List.length_drop, List.length_nil] at hlen
    omega
  populated := by
    intro b hb
    rw [nonGenesis_truncated] at hb
    exact h.populated b (List.mem_of_mem_drop hb)
  sheets := by
    rw [nonGenesis_truncated, List.map_drop, h.sheets]
    rfl
  voted := by
    rw [Tally.keys_discard, ← h.voted, ← h.sheets, ← List.map_take, take_nonGenesis hit]
    rfl

/-- The set answers for the chain. -/
theorem Counts.voted_eq {bc : Blockchain} {t : Tally Bytes} (h : bc.Counts t) :
    bc.voted = (bc.nonGenesis.flatMap (·.senders)).toFinset := by
  rw [h.voted, Tally.keys, ← h.sheets, List.flatMap]

/-! ## Positions in the chain -/

/-- The voter at entry `k` of the block at position `i`. -/
def senderAt (bc : Blockchain) (i k : Nat) : Option Bytes := do
  let b ← bc.nonGenesis[i]?
  let t? ← b.transactionArray[k]?
  let t ← t?
  return t.senderPublicKey

/-- No voter stands at two positions of the chain. -/
def OnePersonOneVote (bc : Blockchain) : Prop :=
  ∀ i k i' k' key, bc.senderAt i k = some key → bc.senderAt i' k' = some key → i = i' ∧ k = k'

theorem Counts.senderAt_eq {bc : Blockchain} {t : Tally Bytes} (h : bc.Counts t) (i k : Nat) :
    bc.senderAt i k = t.at? i k := by
  rw [senderAt, Tally.at?, ← h.sheets, List.getElem?_map]
  cases hb : bc.nonGenesis[i]? with
  | none => rfl
  | some b =>
      have harr := Block.populated_iff.1 (h.populated b (List.mem_of_getElem? hb))
      have hget : b.transactionArray[k]? = (b.votes[k]?).map some := by
        rw [← Vector.getElem?_toList, harr, List.getElem?_map]
      simp only [Option.map_some, Option.bind_some, Option.bind_eq_bind, hget, Block.senders,
        List.getElem?_map]
      cases b.votes[k]? <;> rfl

theorem Counts.onePersonOneVote_iff {bc : Blockchain} {t : Tally Bytes} (h : bc.Counts t) :
    bc.OnePersonOneVote ↔ ∀ b ∈ bc.nonGenesis, b.senders.Nodup := by
  have hsheets : (∀ b ∈ bc.nonGenesis, b.senders.Nodup) ↔ ∀ l ∈ t.sheets, l.Nodup := by
    rw [← h.sheets, List.forall_mem_map]
  unfold OnePersonOneVote
  simp only [h.senderAt_eq]
  rw [hsheets, Tally.unique_iff]

theorem onePersonOneVote_new (tail : GenesisTail) : (new tail).OnePersonOneVote :=
  (new_counts tail).onePersonOneVote_iff.2 (by intro b hb; cases hb)

end Blockchain

namespace Thread

/-- The chain of the thread is counted, and its working block brings new voters. -/
structure Counted (th : Thread) : Prop where
  wellFormed : th.WellFormed
  counts : ∃ t, th.bc.Counts t

theorem initial_counted (tail : GenesisTail) : (initial tail).Counted :=
  ⟨initial_wellFormed tail, Tally.empty, Blockchain.new_counts tail⟩

/-- The mined block has the eight distinct new voters of the working block. -/
theorem WellFormed.minedBlock {SHA1 : Bytes → Digest} {th : Thread} {w : Block} (h : th.WellFormed)
    (hpoint : th.point = .mine)
    (hloop : Thread.mineLoop SHA1 numMagicToTry th.newBlock = .ok (w, true)) (head : Block) :
    (minedBlock w head).Populated ∧ (minedBlock w head).senders.Nodup ∧
      ∀ k ∈ (minedBlock w head).senders, k ∉ th.bc.voted := by
  obtain ⟨hpop, hvotes⟩ := h.mineLoop hpoint hloop
  have hsenders : (Thread.minedBlock w head).senders = th.newBlock.senders := by
    change w.votes.map (·.senderPublicKey) = _
    rw [hvotes]
    rfl
  rw [hsenders]
  exact ⟨hpop, h.filling.nodup, h.fresh⟩

theorem Counted.change {SHA1 : Bytes → Digest} {th th' : Thread} {i : Input × List Effect}
    (h : th.Counted) (hs : Change SHA1 th i th') : th'.Counted := by
  refine ⟨h.wellFormed.change hs, ?_⟩
  obtain ⟨t, ht⟩ := h.counts
  cases hs with
  | idle => exact ⟨t, ht⟩
  | ignored => exact ⟨t, ht⟩
  | accepted _ hcheck =>
      obtain ⟨-, -, -, hpop, hnew⟩ := Blockchain.checkBlockValidity_eq_ok.1 hcheck
      exact ⟨_, ht.appended hpop hnew⟩
  | repaired _ _ _ _ _ hfound =>
      exact ⟨_, ht.truncated (Blockchain.lt_of_checkIfBlockInChain hfound)⟩
  | discarded => exact ⟨t, ht⟩
  | taken => exact ⟨t, ht⟩
  | missed => exact ⟨t, ht⟩
  | mined hpoint hloop =>
      obtain ⟨hpop, -, hnew⟩ := h.wellFormed.minedBlock hpoint hloop _
      exact ⟨_, ht.appended hpop hnew⟩

theorem counted_invariant (SHA1 : Bytes → Digest) (tail : GenesisTail) :
    (processingThread SHA1 tail).Invariant Counted where
  init := by
    rintro th rfl
    exact initial_counted tail
  step := fun _ _ _ hstep h => h.change hstep.change

/-- In every reachable state the voted set is the set of the voters in the
chain, so that a received block is found valid exactly when its voters are new
to the chain. -/
theorem voted_mirrors_chain {SHA1 : Bytes → Digest} {tail : GenesisTail} {th : Thread}
    (h : (processingThread SHA1 tail).Reachable th) :
    th.bc.voted = (th.bc.nonGenesis.flatMap (·.senders)).toFinset ∧
      ∀ b, th.bc.verifyTransactions b = .ok true ↔
        b.Populated ∧ ∀ k ∈ b.senders, ∀ c ∈ th.bc.nonGenesis, k ∉ c.senders := by
  obtain ⟨t, ht⟩ := ((counted_invariant SHA1 tail).reachable h).counts
  refine ⟨ht.voted_eq, fun b => ?_⟩
  rw [Blockchain.verifyTransactions_eq_true, ht.voted_eq]
  simp only [List.mem_toFinset, List.mem_flatMap, not_exists, not_and]

theorem voted_mirrors_chain_first :
    (firstAccepted Blockchain.sampleTail Blockchain.sampleFirst).bc.voted =
        ((firstAccepted Blockchain.sampleTail Blockchain.sampleFirst).bc.nonGenesis.flatMap
          (·.senders)).toFinset ∧
      ∀ b, (firstAccepted Blockchain.sampleTail Blockchain.sampleFirst).bc.verifyTransactions b =
          .ok true ↔
        b.Populated ∧ ∀ k ∈ b.senders,
          ∀ c ∈ (firstAccepted Blockchain.sampleTail Blockchain.sampleFirst).bc.nonGenesis,
            k ∉ c.senders :=
  voted_mirrors_chain (reachable_firstAccepted Block.sampleSHA1 (by decide))

/-! ## One person, one vote -/

/-- If the step accepts a received block, that block has distinct voters. -/
def AcceptsDistinct (m : TransitionSystem.Move Thread (Input × List Effect)) : Prop :=
  ∀ b env, m.label.1 = .block (some b) env → m.pre.bc.checkBlockValidity b = .ok .ok →
    b.senders.Nodup

theorem Counted.onePersonOneVote_iff {SHA1 : Bytes → Digest} {th th' : Thread}
    {i : Input × List Effect} (h : th.Counted) (hone : th.bc.OnePersonOneVote)
    (hs : Change SHA1 th i th') :
    th'.bc.OnePersonOneVote ↔ AcceptsDistinct ⟨th, i, th'⟩ := by
  obtain ⟨t, ht⟩ := h.counts
  obtain ⟨t', ht'⟩ := (h.change hs).counts
  have hnodup : ∀ c ∈ th.bc.nonGenesis, c.senders.Nodup := ht.onePersonOneVote_iff.1 hone
  cases hs with
  | idle =>
      apply iff_of_true hone
      rintro b env hb
      cases hb
  | ignored _ hbad =>
      apply iff_of_true hone
      intro b env hb hok
      cases hb
      exact absurd hok (not_ok_of_ignored hbad)
  | @accepted b env ts _ hcheck =>
      rw [ht'.onePersonOneVote_iff, Blockchain.nonGenesis_appended ht.nonempty,
        List.forall_mem_cons]
      constructor
      · rintro ⟨hb, -⟩ b' env' heq -
        cases heq
        exact hb
      · intro hdistinct
        exact ⟨hdistinct b env rfl hcheck, hnodup⟩
  | repaired _ hcheck =>
      refine iff_of_true ?_ ?_
      · rw [ht'.onePersonOneVote_iff, Blockchain.nonGenesis_truncated]
        intro c hc
        exact hnodup c (List.mem_of_mem_drop hc)
      · intro b env hb hok
        cases hb
        cases hok.symm.trans hcheck
  | @mined w head hpoint hloop =>
      obtain ⟨-, hmined, -⟩ := h.wellFormed.minedBlock hpoint hloop head
      refine iff_of_true ?_ ?_
      · rw [ht'.onePersonOneVote_iff, Blockchain.nonGenesis_appended ht.nonempty,
          List.forall_mem_cons]
        exact ⟨hmined, hnodup⟩
      · intro b env hb
        cases hb
  | _ =>
      -- the chain is the same, and no block was received
      apply iff_of_true hone
      intro b env hb
      cases hb

/-- No voter ever stands in the chain twice exactly when no accepted block
repeats a voter. -/
theorem run_onePersonOneVote_iff {SHA1 : Bytes → Digest} {tail : GenesisTail} {th : Thread}
    {tr : List (TransitionSystem.Move Thread (Input × List Effect))}
    (h : (processingThread SHA1 tail).Run (.initial tail) tr th) :
    (∀ m ∈ tr, m.post.bc.OnePersonOneVote) ↔ ∀ m ∈ tr, AcceptsDistinct m := by
  refine TransitionSystem.Run.forall_post_iff (G := fun _ => True) (J := Counted)
    (P := fun th => th.bc.OnePersonOneVote) (counted_invariant SHA1 tail).preserved ?_ h
    (initial_counted tail) (Blockchain.onePersonOneVote_new tail) (by simp)
  intro th i th' hstep _ hcounted hone
  exact hcounted.onePersonOneVote_iff hone hstep.change

theorem onePersonOneVote_first :
    (firstAccepted Blockchain.sampleTail Blockchain.sampleFirst).bc.OnePersonOneVote := by
  refine (run_onePersonOneVote_iff run_sampleFirst).2 ?_ _ (List.mem_singleton_self _)
  simp only [List.mem_singleton, forall_eq]
  intro b env hb _
  cases hb
  decide

/-- A block whose eight votes are by one voter. -/
def repeatedVoter : Block :=
  { Blockchain.sampleFirst with
    transactionArray := Vector.replicate numTransactionsPerBlock (some (.sample 1)) }

/-- The block with one voter is accepted on the constructed blockchain. -/
theorem repeatedVoter_twice :
    ¬ ∃ SHA1, ∀ tail tr th, (processingThread SHA1 tail).Run (.initial tail) tr th →
      (∀ m ∈ tr, ∀ b env, m.label.1 = .block (some b) env → b.Populated) →
        th.bc.OnePersonOneVote := by
  intro h
  rcases h with ⟨SHA1, h⟩
  have hone := h Blockchain.sampleTail _ _
    (run_firstAccepted SHA1 (b := repeatedVoter) .alone (by decide)) (by
      simp only [List.mem_singleton, forall_eq]
      intro b env hb
      cases hb
      decide)
  have hsame := hone 0 0 0 1 (Transaction.sample 1).senderPublicKey rfl rfl
  cases hsame.2

end Thread

end OneVote
