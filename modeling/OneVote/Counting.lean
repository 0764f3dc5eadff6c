-- SUMMARY: The count of an election: at every peer a voter counts once, and a choice gets at most the voters who cast it, or exactly these.
import OneVote.Flooding

/-!
# Counting

The result of an election can be read off at any peer, from its chain and its
working block. Whatever the schedule and the keys, such a count favours nobody;
where every vote gets through, it is exact.
-/

namespace OneVote

open TransitionSystem (Move)
open PeerNetwork (pairLinks)

namespace Thread

variable {SHA1 : Bytes → Digest} {th th' : Thread} {i : Input} {effects : List Effect}

/-- A thread that has recorded every voter at most once. -/
structure CountsOnce (th : Thread) : Prop where
  counted : th.Counted
  short : th.Short
  oneVote : th.bc.OnePersonOneVote
  length_le : th.bc.blocks.length ≤ th.bc.chainLength

theorem initial_countsOnce (tail : GenesisTail) : (initial tail).CountsOnce where
  counted := initial_counted tail
  short := initial_short tail
  oneVote := Blockchain.onePersonOneVote_new tail
  length_le := le_rfl

theorem Change.length_blocks_le (hs : Change SHA1 th (i, effects) th')
    (h : th.bc.blocks.length ≤ th.bc.chainLength) :
    th'.bc.blocks.length ≤ th'.bc.chainLength := by
  cases hs with
  | accepted => exact Nat.succ_le_succ h
  | mined => exact Nat.succ_le_succ h
  | @repaired b head env it ts =>
      change (th.bc.blocks.drop it).length ≤ th.bc.chainLength
      rw [List.length_drop]
      exact (Nat.sub_le _ _).trans h
  | _ => exact h

/-- A block without votes is not accepted, so a voter cannot get in by one. -/
theorem CountsOnce.change (h : th.CountsOnce) (hempty : TakesEmpty i)
    (hs : Change SHA1 th (i, effects) th') : th'.CountsOnce where
  counted := h.counted.change hs
  short := h.short.change hs
  oneVote := by
    apply (h.counted.onePersonOneVote_iff h.oneVote hs).2
    intro b env hb hcheck
    obtain ⟨-, -, -, hpop, -⟩ := Blockchain.checkBlockValidity_eq_ok.1 hcheck
    exact absurd hpop (hempty b env hb).2
  length_le := hs.length_blocks_le h.length_le

/-- The sheets of the tally have no voter twice, nor two of them a voter in
common, and the working block has none of their voters. -/
theorem CountsOnce.nodup_recorded (h : th.CountsOnce) :
    (th.recorded.map (·.senderPublicKey)).Nodup := by
  obtain ⟨t, ht⟩ := h.counted.counts
  have hdisjoint : th.bc.nonGenesis.Pairwise fun c d => List.Disjoint c.senders d.senders := by
    rw [← List.pairwise_map (R := List.Disjoint), ht.sheets]
    exact t.disjoint
  have hchain : (th.bc.nonGenesis.flatMap (·.senders)).Nodup :=
    List.nodup_flatMap.2 ⟨ht.onePersonOneVote_iff.1 h.oneVote, hdisjoint⟩
  have hfresh : ∀ k ∈ th.bc.nonGenesis.flatMap (·.senders), k ∉ th.newBlock.senders := by
    intro k hk hmem
    apply h.counted.wellFormed.fresh k hmem
    rw [ht.voted_eq]
    exact List.mem_toFinset.2 hk
  have hperm : (th.recorded.map (·.senderPublicKey)).Perm
      (th.bc.nonGenesis.flatMap (·.senders) ++ th.newBlock.senders) := by
    rw [recorded, List.map_append, List.map_flatMap]
    exact ((List.reverse_perm _).flatMap_right _).append_right _
  rw [hperm.nodup_iff]
  exact hchain.append h.counted.wellFormed.filling.nodup hfresh

/-- The votes that are recorded for a choice come from as many voters. -/
theorem CountsOnce.countP_vote (h : th.CountsOnce) (v : Bytes) :
    th.recorded.countP (fun t => t.vote = v) =
      ((th.recorded.filter fun t => t.vote = v).map (·.senderPublicKey)).toFinset.card := by
  have hsub : ((th.recorded.filter fun t => t.vote = v).map (·.senderPublicKey)).Nodup :=
    h.nodup_recorded.sublist (List.filter_sublist.map _)
  rw [List.toFinset_card_of_nodup hsub, List.length_map, List.countP_eq_length_filter]

end Thread

namespace Network

variable {ι : Type*} [DecidableEq ι] {SHA1 : Bytes → Digest} {tail : GenesisTail}

theorem countsOnce_invariant (SHA1 : Bytes → Digest) (tail : GenesisTail) :
    (network ι SHA1 tail).Invariant
      fun s => s.Silent tail ∧ ∀ j, (s.miners j).CountsOnce where
  init := by
    rintro s rfl
    exact ⟨initial_silent tail, fun _ => Thread.initial_countsOnce tail⟩
  step := by
    rintro s label s' hstep ⟨hsilent, hcounts⟩
    refine ⟨Step.silent hstep hsilent, ?_⟩
    cases hstep with
    | @step j i effects th hdelivers hthread =>
        exact forall_update hcounts
          ((hcounts j).change (hsilent.takesEmpty hdelivers) hthread.change)

end Network

namespace Election

variable {ι : Type*} [DecidableEq ι] {links : Links ι} {SHA1 : Bytes → Digest}
  {tail : GenesisTail}

theorem countsOnce_of_run {s : Election ι} {tr : List (Move (Election ι) (Event ι))}
    (hrun : (election links SHA1 tail).Run (.initial links tail) tr s) (z : ι) :
    (s.peers z).thread.CountsOnce := by
  obtain ⟨-, -, tr', wire, hnetwork, -⟩ := run_projects hrun
  obtain ⟨-, hcounts⟩ := (Network.countsOnce_invariant SHA1 tail).reachable ⟨_, tr', rfl, hnetwork⟩
  exact hcounts z

/-- In every run of the whole system, each peer has recorded at most one vote of
each voter and at most 40 votes, and no more votes for a choice than different
voters cast for it. -/
theorem run_counts {s : Election ι} {tr : List (Move (Election ι) (Event ι))}
    (hrun : (election links SHA1 tail).Run (.initial links tail) tr s) (z : ι) :
    ((s.peers z).thread.recorded.map (·.senderPublicKey)).Nodup ∧
      (s.peers z).thread.recorded.length ≤ 40 ∧
      ∀ v, (s.peers z).thread.recorded.countP (fun t => t.vote = v) ≤
        (((castIn tr).filter fun t => t.vote = v).map (·.senderPublicKey)).toFinset.card := by
  have hz := countsOnce_of_run hrun z
  refine ⟨hz.nodup_recorded, hz.short.length_recorded_le hz.counted hz.length_le, fun v => ?_⟩
  rw [hz.countP_vote]
  apply Finset.card_le_card
  intro k hk
  obtain ⟨t, ht, rfl⟩ := List.mem_map.1 (List.mem_toFinset.1 hk)
  obtain ⟨hmem, hvote⟩ := List.mem_filter.1 ht
  have hcast := mem_castIn_of_recorded hrun z hmem
  exact List.mem_toFinset.2 (List.mem_map_of_mem (List.mem_filter.2 ⟨hcast, hvote⟩))

/-- One of two peers takes a vote. -/
theorem run_counts_first :
    ∃ tr s, (election pairLinks Block.sampleSHA1 Blockchain.sampleTail).Run
        (.initial pairLinks Blockchain.sampleTail) tr s ∧
      (s.peers false).todo = [.broadcastTransaction sampleVote] ∧
      ((s.peers false).thread.recorded.map (·.senderPublicKey)).Nodup ∧
      (s.peers false).thread.recorded.length ≤ 40 ∧
      ∀ v, (s.peers false).thread.recorded.countP (fun t => t.vote = v) ≤
        (((castIn tr).filter fun t => t.vote = v).map (·.senderPublicKey)).toFinset.card := by
  obtain ⟨tr, s, hrun, htodo, -⟩ := exists_first_vote
  exact ⟨tr, s, hrun, htodo, run_counts hrun false⟩

/-! ## The result -/

/-- At most eleven linked peers, with keys that begin alike, where calls get through
and no vote is overtaken, and voters who do not change their minds: once everything
is settled, each peer counts for every choice exactly the voters who cast it. -/
theorem run_elects [Fintype ι] (hcard : Fintype.card ι ≤ maxPeers + 1) {P : Bytes}
    (hP : P.length = publicKeySize) {s : Election ι} {tr : List (Move (Election ι) (Event ι))}
    (hrun : (election links SHA1 tail).Run (.initial links tail) tr s)
    (hcast : ∀ t ∈ castIn tr, P <+: t.senderPublicKey) (hthrough : ∀ m ∈ tr, GetsThrough m)
    (hsettled : s.Settled)
    (hchoice : ∀ t ∈ castIn tr, ∀ u ∈ castIn tr, t.senderPublicKey = u.senderPublicKey →
      t.vote = u.vote) (x : ι) (v : Bytes) :
    (s.peers x).thread.recorded.countP (fun t => t.vote = v) =
      (((castIn tr).filter fun t => t.vote = v).map (·.senderPublicKey)).toFinset.card := by
  rw [(countsOnce_of_run hrun x).countP_vote]
  congr 1
  ext k
  simp only [List.mem_toFinset, List.mem_map, List.mem_filter, decide_eq_true_eq]
  constructor
  · rintro ⟨t, ⟨ht, hvote⟩, rfl⟩
    exact ⟨t, ⟨mem_castIn_of_recorded hrun x ht, hvote⟩, rfl⟩
  · rintro ⟨t, ⟨ht, hvote⟩, rfl⟩
    have hvoter := mem_voters_of_settled hcard hP hrun hcast hthrough hsettled x ht
    obtain ⟨u, hu, hkey⟩ := List.mem_map.1 hvoter
    -- the vote that was recorded may be another one of the voter
    have hsame := hchoice u (mem_castIn_of_recorded hrun x hu) t ht hkey
    exact ⟨u, ⟨hu, hsame.trans hvote⟩, hkey⟩

/-- Two peers count the one vote that was cast. -/
theorem run_elects_pair :
    ∃ tr s, (election pairLinks Block.sampleSHA1 Blockchain.sampleTail).Run
        (.initial pairLinks Blockchain.sampleTail) tr s ∧ s.Settled ∧
      ∀ x, (s.peers x).thread.recorded.countP (fun t => t.vote = sampleVote.vote) = 1 := by
  obtain ⟨tr, s, hrun, hcast, hthrough, hsettled⟩ := exists_flooded_run
  refine ⟨tr, s, hrun, hsettled, fun x => ?_⟩
  have hcount := @run_elects _ _ _ _ _ _ (by decide) Block.sampleKey rfl _ _ hrun
    (by rw [hcast]; simp [sampleVote]) hthrough hsettled (by rw [hcast]; simp) x sampleVote.vote
  rw [hcount, hcast]
  rfl

end Election

end OneVote
