-- SUMMARY: Which received blocks a miner passes on, and when the block that it passes on is not a new one.
import OneVote.ForkChoice

/-!
# Rebroadcast

A received block is passed on when it was accepted and when a repair against it
returned true. Nothing else remembers which blocks were passed on before.
-/

namespace OneVote

open TransitionSystem (Move)

namespace Blockchain

/-- A block of the chain has the final hash of `b`. -/
def Knows (bc : Blockchain) (b : Block) : Prop :=
  ∃ c ∈ bc.blocks, sameHash c.finhash b.finhash = .ok true

theorem knows_of_checkIfBlockInChain {bc : Blockchain} {b : Block} {it : Nat}
    (h : bc.checkIfBlockInChain b = .ok (some it)) : bc.Knows b := by
  obtain ⟨c, hc, hsame⟩ := findHash_eq_some h
  exact ⟨c, List.mem_of_getElem? hc, hsame⟩

end Blockchain

namespace Thread

/-- What the step broadcasts of a received block is new to the chain, and is its
head afterwards. -/
def BroadcastsAdopted (m : Move Thread (Input × List Effect)) : Prop :=
  ∀ b env c, m.label.1 = .block (some b) env → .broadcastBlock c ∈ m.label.2 →
    ¬ m.pre.bc.Knows b ∧ m.post.bc.blocks.head? = some c

/-- The received block does not claim a higher number than the chain while it is
in it, and is not judged OK while a block with its final hash is in the chain. -/
def NotKnownAgain (m : Move Thread (Input × List Effect)) : Prop :=
  ∀ b env, m.label.1 = .block (some b) env → ¬ m.pre.ClaimsHigher b ∧
    (m.pre.bc.checkBlockValidity b = .ok .ok → ¬ m.pre.bc.Knows b)

/-- A repair that returns passes on a block that the chain has. -/
theorem broadcastsAdopted_iff_of_found {th th' : Thread} {b head : Block} {env : RepairEnv}
    {it : Nat} {effects : List Effect} (hbroadcast : .broadcastBlock b ∈ effects)
    (hcheck : th.bc.checkBlockValidity b = .ok .prevBlockNonmatch)
    (hhead : th.bc.getHeadBlock = .ok head) (hhigher : head.blockNumber < b.blockNumber)
    (hnumber : b.blockNumber ≤ 5) (hfound : th.bc.checkIfBlockInChain b = .ok (some it)) :
    BroadcastsAdopted ⟨th, (.block (some b) env, effects), th'⟩ ↔
      NotKnownAgain ⟨th, (.block (some b) env, effects), th'⟩ := by
  have hclaims := claimsHigher_of_found hcheck hhead hhigher hnumber hfound
  constructor
  · intro hadopts
    have hnew := (hadopts b env b rfl hbroadcast).1
    exact absurd (Blockchain.knows_of_checkIfBlockInChain hfound) hnew
  · intro hnew
    exact absurd hclaims (hnew b env rfl).1

theorem Change.broadcastsAdopted_iff {SHA1 : Bytes → Digest} {th th' : Thread}
    {i : Input × List Effect} (hs : Change SHA1 th i th') :
    BroadcastsAdopted ⟨th, i, th'⟩ ↔ NotKnownAgain ⟨th, i, th'⟩ := by
  cases hs with
  | ignored _ hbad =>
      constructor
      · rintro - b env hb
        cases hb
        exact ⟨not_claimsHigher_of_ignored hbad, fun hok => absurd hok (not_ok_of_ignored hbad)⟩
      · rintro - b env c - hc
        cases hc
  | @accepted b env ts _ hcheck =>
      constructor
      · intro hadopts b' env' hb
        cases hb
        have hunknown := (hadopts b env _ rfl List.mem_cons_self).1
        exact ⟨not_claimsHigher_of_ok hcheck, fun _ => hunknown⟩
      · intro hnew b' env' c hb hc
        cases hb
        refine ⟨(hnew b env rfl).2 hcheck, ?_⟩
        have hc' : c = Blockchain.numbered b (th.bc.chainLength + 1) := by simpa using hc
        rw [hc']
        rfl
  | repaired _ hcheck hhead hhigher hnumber hfound =>
      exact broadcastsAdopted_iff_of_found (List.mem_append_right _ List.mem_cons_self) hcheck
        hhead hhigher hnumber hfound
  | _ =>
      -- no block was received
      constructor
      · rintro - b env hb
        cases hb
      · rintro - b env c hb
        cases hb

theorem Proceeds.broadcastsAdopted_iff {SHA1 : Bytes → Digest} {th th' : Thread}
    {i : Input × List Effect} (hs : Proceeds SHA1 th i th') :
    BroadcastsAdopted ⟨th, i, th'⟩ ↔ NotKnownAgain ⟨th, i, th'⟩ := by
  cases hs with
  | step hstep => exact hstep.change.broadcastsAdopted_iff
  | overruns _ hcheck hhead hhigher hnumber hover =>
      exact broadcastsAdopted_iff_of_found (List.mem_append_right _ List.mem_cons_self) hcheck
        hhead hhigher hnumber hover.2.1

/-- A run passes on new blocks only, exactly when no received block is one that
the chain knows and that is accepted or makes a repair return. -/
theorem run_broadcastsAdopted_iff {SHA1 : Bytes → Digest} {tail : GenesisTail} {th : Thread}
    {tr : List (Move Thread (Input × List Effect))}
    (h : (proceedingThread SHA1 tail).Run (.initial tail) tr th) :
    (∀ m ∈ tr, BroadcastsAdopted m) ↔ ∀ m ∈ tr, NotKnownAgain m :=
  forall₂_congr fun m hm => Proceeds.broadcastsAdopted_iff (h.step_of_mem m hm)

theorem broadcastsAdopted_first :
    BroadcastsAdopted (firstMove Blockchain.sampleTail Blockchain.sampleFirst .alone) := by
  refine (run_broadcastsAdopted_iff (run_proceeds run_sampleFirst)).2 ?_ _
    (List.mem_singleton_self _)
  simp only [List.mem_singleton, forall_eq]
  intro b env hb
  cases hb
  refine ⟨fun hclaims => absurd hclaims.1 (by decide), ?_⟩
  rintro - ⟨c, hc, hsame⟩
  obtain rfl := List.mem_singleton.1 hc
  revert hsame
  decide

/-- A block that names the genesis block is passed on. -/
theorem renumberedGenesis_passed_on :
    ¬ ∃ SHA1, ∀ tail tr th, (proceedingThread SHA1 tail).Run (.initial tail) tr th →
      ∀ m ∈ tr, BroadcastsAdopted m := by
  intro h
  rcases h with ⟨SHA1, h⟩
  obtain ⟨th, tr, rfl, hrun⟩ := reachable_firstIdle SHA1
  have hadopts := h _ _ _ (run_proceeds (hrun.snoc (step_renumberedGenesis SHA1))) _
    (List.mem_append_right _ (List.mem_singleton_self _))
  obtain ⟨-, hhead⟩ := hadopts _ _ renumberedGenesis rfl
    (List.mem_append_right _ (List.mem_singleton_self _))
  revert hhead
  decide

end Thread

end OneVote
