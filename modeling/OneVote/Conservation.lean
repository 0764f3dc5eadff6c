-- SUMMARY: The account of a processing thread's votes: what came in is recorded, handed back, thrown out or lost.
import Mathlib.Tactic.Abel
import OneVote.Base.Balance
import OneVote.Miner
import OneVote.Mining

/-!
# Conservation

Votes come in one by one from `tq` and by eights in accepted blocks. A reset
hands those of the working block back, and a repair hands back the first
`max_ind` votes of each block that it pops. The account counts each vote as
often as it occurs.
-/

namespace OneVote

open TransitionSystem (Move)

namespace Thread

/-! ## The entries of the account -/

/-- The votes of the received block, if it got into the chain. -/
def adopted (m : Move Thread (Input × List Effect)) : List Transaction :=
  if m.pre.bc.blocks.length < m.post.bc.blocks.length then
    m.label.1.received.flatMap (·.votes)
  else []

/-- The blocks that a repair popped. -/
def popped (m : Move Thread (Input × List Effect)) : List Block :=
  m.pre.bc.blocks.take (m.pre.bc.blocks.length - m.post.bc.blocks.length)

/-- The votes of the popped blocks that the repair did not hand back. -/
def lost (m : Move Thread (Input × List Effect)) : List Transaction :=
  (popped m).flatMap fun b => b.votes.drop b.maxInd.toNat

/-- The transaction that was taken from `tq` and thrown out. -/
def thrownOut (m : Move Thread (Input × List Effect)) : List Transaction :=
  match m.label.1 with
  | .transaction t => if m.label.2 = [] then [t] else []
  | _ => []

def votesIn (m : Move Thread (Input × List Effect)) : Multiset Transaction :=
  m.label.1.taken + adopted m

def votesOut (m : Move Thread (Input × List Effect)) : Multiset Transaction :=
  pushes m.label.2 + thrownOut m + lost m

/-- The votes of the chain and of the working block. -/
def stock (th : Thread) : Multiset Transaction :=
  th.bc.nonGenesis.flatMap (·.votes) + th.newBlock.votes

theorem stock_eq (th : Thread) : th.stock = th.recorded := by
  have hperm : (th.bc.nonGenesis.reverse.flatMap (·.votes)).Perm
      (th.bc.nonGenesis.flatMap (·.votes)) := (List.reverse_perm _).flatMap_right _
  exact (Multiset.coe_eq_coe.2 (hperm.append_right _)).symm

variable {SHA1 : Bytes → Digest} {tail : GenesisTail} {th th' : Thread} {i : Input}
  {effects : List Effect}

theorem stock_appended (h : th.bc.blocks ≠ []) (b : Block) (q : Bool) (p : Point) :
    (⟨appended th.bc b, .new, q, p⟩ : Thread).stock =
      b.votes + (th.bc.nonGenesis.flatMap (·.votes) : Multiset Transaction) := by
  unfold stock
  rw [Blockchain.nonGenesis_appended h, List.flatMap_cons]
  exact add_zero _

/-- The votes of blocks are handed back up to `max_ind`, and lost from there on. -/
theorem requeued_add_dropped (bs : List Block) :
    (bs.flatMap (·.requeued) : Multiset Transaction) +
      bs.flatMap (fun b => b.votes.drop b.maxInd.toNat) = bs.flatMap (·.votes) := by
  induction bs with
  | nil => rfl
  | cons b bs ih =>
      have hb : (b.requeued : Multiset Transaction) + b.votes.drop b.maxInd.toNat = b.votes :=
        congrArg _ (List.take_append_drop _ _)
      simp only [List.flatMap_cons, ← Multiset.coe_add]
      rw [← hb, ← ih, add_add_add_comm]

theorem adopted_of_le {m : Move Thread (Input × List Effect)}
    (h : m.post.bc.blocks.length ≤ m.pre.bc.blocks.length) : adopted m = [] :=
  if_neg (Nat.not_lt.2 h)

theorem lost_of_le {m : Move Thread (Input × List Effect)}
    (h : m.pre.bc.blocks.length ≤ m.post.bc.blocks.length) : lost m = [] := by
  unfold lost popped
  rw [Nat.sub_eq_zero_of_le h]
  rfl

/-! ## Every step balances -/

/-- A step that leaves the chain as it is. -/
theorem balance_of_same_chain (hbc : th'.bc = th.bc)
    (hvotes : (th'.newBlock.votes : Multiset Transaction) +
      ↑(pushes effects ++ thrownOut ⟨th, (i, effects), th'⟩) = th.newBlock.votes + i.taken) :
    th'.stock + votesOut ⟨th, (i, effects), th'⟩ =
      th.stock + votesIn ⟨th, (i, effects), th'⟩ := by
  have hin : adopted ⟨th, (i, effects), th'⟩ = [] :=
    adopted_of_le (show th'.bc.blocks.length ≤ th.bc.blocks.length from by rw [hbc])
  have hout : lost ⟨th, (i, effects), th'⟩ = [] :=
    lost_of_le (show th.bc.blocks.length ≤ th'.bc.blocks.length from by rw [hbc])
  unfold votesIn votesOut stock
  rw [hin, hout, hbc, Multiset.coe_nil, add_zero, add_zero, add_assoc, add_assoc, Multiset.coe_add,
    hvotes]

/-- A step that puts a block on the chain and starts over. -/
theorem balance_of_appended (hne : th.bc.blocks ≠ []) {b : Block} {p : Point}
    (hquiet : thrownOut ⟨th, (i, effects), ⟨appended th.bc b, .new, false, p⟩⟩ = [])
    (hvotes : (b.votes : Multiset Transaction) + pushes effects =
      th.newBlock.votes + (↑i.taken + ↑(i.received.flatMap (·.votes)))) :
    (⟨appended th.bc b, .new, false, p⟩ : Thread).stock +
        votesOut ⟨th, (i, effects), ⟨appended th.bc b, .new, false, p⟩⟩ =
      th.stock + votesIn ⟨th, (i, effects), ⟨appended th.bc b, .new, false, p⟩⟩ := by
  have hlt : th.bc.blocks.length < (appended th.bc b).blocks.length := Nat.lt_succ_self _
  have hin : adopted ⟨th, (i, effects), ⟨appended th.bc b, .new, false, p⟩⟩ =
      i.received.flatMap (·.votes) := if_pos hlt
  have hout : lost ⟨th, (i, effects), ⟨appended th.bc b, .new, false, p⟩⟩ = [] :=
    lost_of_le hlt.le
  unfold votesIn votesOut
  rw [stock_appended hne, hin, hout, hquiet, Multiset.coe_nil, add_zero, add_zero]
  calc (b.votes : Multiset Transaction) + th.bc.nonGenesis.flatMap (·.votes) + pushes effects
      = th.bc.nonGenesis.flatMap (·.votes) + (b.votes + pushes effects) := by
        rw [add_comm (b.votes : Multiset Transaction), add_assoc]
    _ = th.stock + (↑i.taken + ↑(i.received.flatMap (·.votes))) := by
        rw [hvotes, ← add_assoc]
        rfl

/-- A repair that pops the `it` newest blocks and hands `ts` back. -/
theorem balance_of_truncated {it : Nat} (hit : it < th.bc.blocks.length)
    (hpushes : pushes effects = (th.bc.blocks.take it).flatMap (·.requeued) ++ th.newBlock.votes)
    (htaken : i.taken = [])
    (hquiet : thrownOut ⟨th, (i, effects), ⟨th.bc.truncated it, .new, false, .pop⟩⟩ = []) :
    (⟨th.bc.truncated it, .new, false, .pop⟩ : Thread).stock +
        votesOut ⟨th, (i, effects), ⟨th.bc.truncated it, .new, false, .pop⟩⟩ =
      th.stock + votesIn ⟨th, (i, effects), ⟨th.bc.truncated it, .new, false, .pop⟩⟩ := by
  have hlen : (th.bc.truncated it).blocks.length = th.bc.blocks.length - it := List.length_drop
  have hin : adopted ⟨th, (i, effects), ⟨th.bc.truncated it, .new, false, .pop⟩⟩ = [] :=
    adopted_of_le (hlen ▸ Nat.sub_le _ _)
  have hpopped : popped ⟨th, (i, effects), ⟨th.bc.truncated it, .new, false, .pop⟩⟩ =
      th.bc.blocks.take it := by
    unfold popped
    rw [hlen, Nat.sub_sub_self hit.le]
  have hchain : (th.bc.nonGenesis.flatMap (·.votes) : Multiset Transaction) =
      (th.bc.blocks.take it).flatMap (·.votes) +
        (th.bc.truncated it).nonGenesis.flatMap (·.votes) := by
    rw [Blockchain.nonGenesis_truncated, ← Blockchain.take_nonGenesis hit, Multiset.coe_add,
      ← List.flatMap_append, List.take_append_drop]
  unfold votesIn votesOut lost stock
  rw [hpushes, hin, hquiet, hpopped, htaken, hchain, ← requeued_add_dropped (th.bc.blocks.take it)]
  simp only [← Multiset.coe_add, Multiset.coe_nil, add_zero]
  change _ + 0 + _ = _
  abel

theorem Change.balance (hs : Change SHA1 th (i, effects) th') (h : th.Counted) :
    th'.stock + votesOut ⟨th, (i, effects), th'⟩ = th.stock + votesIn ⟨th, (i, effects), th'⟩ := by
  obtain ⟨tally, htally⟩ := h.counts
  cases hs with
  | idle => exact balance_of_same_chain rfl rfl
  | ignored => exact balance_of_same_chain rfl rfl
  | missed => exact balance_of_same_chain rfl rfl
  | discarded => exact balance_of_same_chain rfl rfl
  | @taken t ts b _ _ hts hmem hset =>
      cases hts.symm.trans h.wellFormed.filling.entries
      obtain ⟨-, hvotes, -⟩ := h.wellFormed.filling.setEntry hmem hset
      refine balance_of_same_chain rfl ?_
      change (b.votes : Multiset Transaction) + 0 = _
      rw [hvotes, add_zero]
      exact (Multiset.coe_add _ _).symm
  | @accepted b env ts _ _ _ hts =>
      cases hts.symm.trans h.wellFormed.filling.entries
      refine balance_of_appended htally.nonempty rfl ?_
      rw [pushes_broadcastBlock, pushes_map_push, add_comm]
      change _ = (th.newBlock.votes : Multiset Transaction) + (0 + ↑([b].flatMap (·.votes)))
      rw [zero_add, List.flatMap_singleton]
  | @mined w head hpoint hloop =>
      obtain ⟨-, hvotes⟩ := h.wellFormed.mineLoop hpoint hloop
      refine balance_of_appended htally.nonempty rfl ?_
      change (w.votes : Multiset Transaction) + 0 = th.newBlock.votes + (0 + 0)
      rw [hvotes, zero_add]
  | @repaired b head env it ts _ _ _ _ _ hfound _ hts =>
      cases hts.symm.trans h.wellFormed.filling.entries
      refine balance_of_truncated (Blockchain.lt_of_checkIfBlockInChain hfound) ?_ rfl rfl
      rw [pushes_append, pushes_map_push, pushes_broadcastBlock, pushes_map_push]

theorem balances (SHA1 : Bytes → Digest) (tail : GenesisTail) :
    (processingThread SHA1 tail).Balances Counted stock votesIn votesOut :=
  fun _ _ _ hstep h => hstep.change.balance h

theorem stock_initial (tail : GenesisTail) : (initial tail).stock = 0 := rfl

/-! ## What is lost -/

/-- Votes are lost only where a received block names a block of the chain. -/
theorem Change.exists_of_lost (hs : Change SHA1 th (i, effects) th')
    (hlost : lost ⟨th, (i, effects), th'⟩ ≠ []) :
    ∃ b env it, i = .block (some b) env ∧ th.bc.checkIfBlockInChain b = .ok (some it) := by
  cases hs with
  | @repaired b head env it ts _ _ _ _ _ hfound => exact ⟨b, env, it, rfl, hfound⟩
  | accepted => exact absurd (lost_of_le (Nat.le_succ _)) hlost
  | mined => exact absurd (lost_of_le (Nat.le_succ _)) hlost
  | _ => exact absurd (lost_of_le le_rfl) hlost

/-- A mined block has `max_ind` 0, so a repair hands none of its votes back. -/
theorem Change.maxInd_of_mines {c : Block} (hs : Change SHA1 th (i, effects) th')
    (hmines : MinesBlock ⟨th, (i, effects), th'⟩ c) : c.maxInd = 0 := by
  obtain ⟨hi, hc⟩ := hmines
  cases hs with
  | mined =>
      cases List.mem_singleton.1 hc
      rfl
  | missed => cases hc
  | _ => cases hi

theorem lost_of_popped {m : Move Thread (Input × List Effect)} {c : Block} (hc : c ∈ popped m)
    (hmax : c.maxInd = 0) : c.votes ⊆ lost m := by
  intro t ht
  refine List.mem_flatMap.2 ⟨c, hc, ?_⟩
  rwa [hmax]

/-- Every vote that came in is recorded, handed back, thrown out or lost, each
as often as it came. Votes are lost in repairs only, and there those of every
popped block that the thread had mined. -/
theorem run_accounted {tr : List (Move Thread (Input × List Effect))}
    (hrun : (processingThread SHA1 tail).Run (.initial tail) tr th) :
    (th.recorded : Multiset Transaction) + (tr.map votesOut).sum = (tr.map votesIn).sum ∧
      (∀ m ∈ tr, lost m ≠ [] → ∃ b env it, m.label.1 = .block (some b) env ∧
        m.pre.bc.checkIfBlockInChain b = .ok (some it)) ∧
      ∀ m ∈ tr, ∀ m' ∈ tr, ∀ c ∈ popped m', MinesBlock m c → c.votes ⊆ lost m' := by
  have hstep : ∀ m ∈ tr, Change SHA1 m.pre (m.label.1, m.label.2) m.post :=
    fun m hm => (hrun.step_of_mem m hm).change
  refine ⟨?_, fun m hm hlost => (hstep m hm).exists_of_lost hlost, ?_⟩
  · have hbal := (balances SHA1 tail).run (counted_invariant SHA1 tail).preserved hrun
      (initial_counted tail)
    rwa [stock_initial, zero_add, stock_eq] at hbal
  · intro m hm m' _ c hc hmines
    exact lost_of_popped hc ((hstep m hm).maxInd_of_mines hmines)

/-- A miner takes eight votes, mines them, and loses them in a repair. -/
theorem run_accounted_popped :
    ∃ tr th, (processingThread Block.sampleSHA1 Blockchain.sampleTail).Run
        (.initial Blockchain.sampleTail) tr th ∧
      th.recorded = [] ∧ (∃ m ∈ tr, lost m = sampleVotes 1) ∧
      (th.recorded : Multiset Transaction) + (tr.map votesOut).sum = (tr.map votesIn).sum ∧
      (∀ m ∈ tr, lost m ≠ [] → ∃ b env it, m.label.1 = .block (some b) env ∧
        m.pre.bc.checkIfBlockInChain b = .ok (some it)) ∧
      ∀ m ∈ tr, ∀ m' ∈ tr, ∀ c ∈ popped m', MinesBlock m c → c.votes ⊆ lost m' := by
  obtain ⟨tr, th, w, h⟩ := exists_mined_sample Blockchain.sampleTail 1 (by decide)
  have hrun := (h.run.snoc h.step).snoc (Miner.step_pop_mined h.populated h.finhash)
  refine ⟨_, _, hrun, rfl, ⟨_, List.mem_append_right _ (List.mem_singleton_self _), ?_⟩,
    run_accounted hrun⟩
  have hlost : ((Blockchain.numbered (minedBlock w (Blockchain.genesis Blockchain.sampleTail))
      2).votes.drop 0) ++ [] = w.votes := List.append_nil _
  exact hlost.trans h.votes_mined

end Thread

end OneVote
