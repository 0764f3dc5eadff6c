-- SUMMARY: Where the blocks of a chain come from: mined with proof of work, or received and accepted as they were.
import OneVote.Encoding
import OneVote.Voters

/-!
# Provenance

`check_block_validity` looks at the link and at the voters of a received block.
It computes no hash, so what a received block says about itself is kept.
-/

namespace OneVote

open TransitionSystem (Move)

namespace Thread

variable {SHA1 : Bytes → Digest}

/-- A mining step of the run made the block: its hash is that of its own
transactions and magic, and meets the target. -/
def MinedIn (SHA1 : Bytes → Digest) (tr : List (Move Thread (Input × List Effect)))
    (b : Block) : Prop :=
  b.HashMatches SHA1 ∧ b.MeetsTarget ∧
    ∃ m ∈ tr, m.label.1 = .mine ∧ .broadcastBlock b ∈ m.label.2

/-- A step of the run received the block and judged it OK. Only its number was
set since. -/
def ReceivedIn (tr : List (Move Thread (Input × List Effect))) (b : Block) : Prop :=
  ∃ m ∈ tr, ∃ c env n, m.label.1 = .block (some c) env ∧
    m.pre.bc.checkBlockValidity c = .ok .ok ∧ b = Blockchain.numbered c n

theorem MinedIn.mono {tr tr' : List (Move Thread (Input × List Effect))} {b : Block}
    (h : MinedIn SHA1 tr b) (hsub : tr ⊆ tr') : MinedIn SHA1 tr' b := by
  obtain ⟨hmatches, htarget, m, hm, hmined⟩ := h
  exact ⟨hmatches, htarget, m, hsub hm, hmined⟩

theorem ReceivedIn.mono {tr tr' : List (Move Thread (Input × List Effect))} {b : Block}
    (h : ReceivedIn tr b) (hsub : tr ⊆ tr') : ReceivedIn tr' b := by
  obtain ⟨m, hm, hreceived⟩ := h
  exact ⟨m, hsub hm, hreceived⟩

/-- A step adds at most one block: one that it received and judged OK, or one
that it mined. -/
theorem Change.mem_nonGenesis {th th' : Thread} {i : Input × List Effect} {b : Block}
    (hs : Change SHA1 th i th') (hne : th.bc.blocks ≠ []) (hb : b ∈ th'.bc.nonGenesis) :
    b ∈ th.bc.nonGenesis ∨ MinedIn SHA1 [⟨th, i, th'⟩] b ∨ ReceivedIn [⟨th, i, th'⟩] b := by
  cases hs with
  | @accepted c env ts _ hcheck =>
      rw [Blockchain.nonGenesis_appended hne] at hb
      rcases List.mem_cons.1 hb with rfl | hb
      · exact .inr (.inr ⟨_, List.mem_singleton_self _, c, env, _, rfl, hcheck, rfl⟩)
      · exact .inl hb
  | repaired =>
      rw [Blockchain.nonGenesis_truncated] at hb
      exact .inl (List.mem_of_mem_drop hb)
  | @mined w head _ hloop =>
      rw [Blockchain.nonGenesis_appended hne] at hb
      rcases List.mem_cons.1 hb with rfl | hb
      · obtain ⟨-, hfound⟩ := mineLoop_spec hloop
        obtain ⟨hmatches, htarget⟩ := hfound rfl
        exact .inr (.inl ⟨hashMatches_minedBlock hmatches head _, htarget, _,
          List.mem_singleton_self _, rfl, List.mem_singleton_self _⟩)
      · exact .inl hb
  | _ => exact .inl hb

/-- Every block above genesis was mined in the run, with proof of work, or
received in it and kept as it was. -/
theorem nonGenesis_provenance {tail : GenesisTail} {th : Thread}
    {tr : List (Move Thread (Input × List Effect))}
    (h : (processingThread SHA1 tail).Run (.initial tail) tr th) :
    ∀ b ∈ th.bc.nonGenesis, MinedIn SHA1 tr b ∨ ReceivedIn tr b := by
  induction h with
  | nil =>
      intro b hb
      cases hb
  | @snoc th th' tr i hrun hstep ih =>
      intro b hb
      have hcounted := (counted_invariant SHA1 tail).preserved.run hrun (initial_counted tail)
        (by simp)
      obtain ⟨t, ht⟩ := hcounted.counts
      rcases hstep.change.mem_nonGenesis ht.nonempty hb with hold | hmined | hreceived
      · rcases ih b hold with hmined | hreceived
        · exact .inl (hmined.mono (List.subset_append_left _ _))
        · exact .inr (hreceived.mono (List.subset_append_left _ _))
      · exact .inl (hmined.mono (List.subset_append_right _ _))
      · exact .inr (hreceived.mono (List.subset_append_right _ _))

theorem nonGenesis_provenance_first :
    MinedIn Block.sampleSHA1 [firstMove Blockchain.sampleTail Blockchain.sampleFirst .alone]
        (Blockchain.numbered Blockchain.sampleFirst 2) ∨
      ReceivedIn [firstMove Blockchain.sampleTail Blockchain.sampleFirst .alone]
        (Blockchain.numbered Blockchain.sampleFirst 2) :=
  nonGenesis_provenance (run_firstAccepted Block.sampleSHA1 .alone (by decide)) _
    (List.mem_singleton_self _)

/-- A message with eight transactions puts a block into the chain whose final
hash does not start with zeros. -/
theorem sampleFirst_unmined :
    ¬ ∃ SHA1, ∀ tail tr th, (processingThread SHA1 tail).Run (.initial tail) tr th →
      (∀ m ∈ tr, ∀ b env, m.label.1 = .block (some b) env →
        ∃ msg, msg.transactionMsg.length = numTransactionsPerBlock ∧ decodeBlock msg = .ok b) →
      ∀ b ∈ th.bc.nonGenesis, b.HashMatches SHA1 ∧ b.MeetsTarget := by
  intro h
  rcases h with ⟨SHA1, h⟩
  have hall := h Blockchain.sampleTail _ _
    (run_firstAccepted SHA1 (b := Blockchain.sampleFirst) .alone (by decide)) (by
      simp only [List.mem_singleton, forall_eq]
      intro b env hb
      cases hb
      exact ⟨BlockMsg.sample 1 (Blockchain.startingBlock ++ Blockchain.sampleTail.toList)
        (Blockchain.sampleHash 101) 2, rfl, rfl⟩)
  obtain ⟨-, lz, hlz, hle⟩ := hall _ (List.mem_singleton_self _)
  have hzero :
      leadingZeros (CharPtr.ofString (Blockchain.sampleHash 101)) publicKeySize = .ok 0 := by
    decide
  obtain rfl := Except.ok.inj (hzero.symm.trans hlz)
  exact absurd hle (by decide)

end Thread

end OneVote
