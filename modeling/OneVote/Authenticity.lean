-- SUMMARY: No vote is invented or altered: whatever a peer holds, passes on or records was cast in a voting booth.
import OneVote.Election
import OneVote.Gossip
import OneVote.VoteOrigins

/-!
# Authenticity

A vote is copied from message to queue, from queue to block and from block to
queue. No step makes a new one, and no block carries one to another peer.
-/

namespace OneVote

open TransitionSystem (Move)
open PeerNetwork (pairLinks)

namespace Thread

variable {SHA1 : Bytes → Digest} {th th' : Thread} {i : Input} {effects : List Effect}

/-- What a step records, it took or had recorded. -/
theorem Change.mem_recorded (hs : Change SHA1 th (i, effects) th') (hc : th.Counted)
    (hempty : TakesEmpty i) {t : Transaction} (ht : t ∈ th'.recorded) :
    t ∈ i.taken ∨ t ∈ th.recorded := by
  obtain ⟨tally, htally⟩ := hc.counts
  obtain ⟨tally', htally'⟩ := (hc.change hs).counts
  rcases Thread.mem_recorded.1 ht with ⟨c, hmem, ht⟩ | ht
  · rcases hs.mem_chain htally.nonempty hmem with hold | ⟨b, hb, n, rfl⟩ | ⟨-, hvotes⟩
    · exact .inr (Thread.mem_recorded.2 (.inl ⟨c, hold, ht⟩))
    · obtain ⟨env, rfl⟩ := Input.mem_received.1 hb
      exact absurd (htally'.populated _ hmem) (hempty b env rfl).2
    · exact .inr (Thread.mem_recorded.2 (.inr (hvotes ▸ ht)))
  · rcases hs.votes_cases hc.wellFormed with hsame | ⟨u, rfl, happend⟩ | hnil
    · exact .inr (Thread.mem_recorded.2 (.inr (hsame ▸ ht)))
    · rw [happend] at ht
      rcases List.mem_append.1 ht with ht | ht
      · exact .inr (Thread.mem_recorded.2 (.inr ht))
      · exact .inl ht
    · rw [hnil] at ht
      cases ht

/-- What a step pushes or announces, it took or had recorded. -/
theorem Change.mem_effects (hs : Change SHA1 th (i, effects) th') (hc : th.Counted)
    {t : Transaction} (ht : t ∈ pushes effects ++ announced effects) :
    t ∈ i.taken ∨ t ∈ th.recorded := by
  have hentries : ∀ ts, th.newBlock.entries th.newBlock.maxInd.toNat = .ok ts →
      t ∈ ts → t ∈ th.recorded := by
    intro ts hts ht
    cases hts.symm.trans hc.wellFormed.filling.entries
    exact Thread.mem_recorded.2 (.inr ht)
  cases hs with
  | @accepted b env ts _ _ _ hts =>
      refine .inr (hentries ts hts ?_)
      simpa using ht
  | @repaired b head env it ts _ _ _ _ _ hfound hrem hts =>
      rw [pushes_append, announced_append] at ht
      simp only [pushes_map_push, pushes_broadcastBlock, announced_map_push,
        announced_broadcastBlock, List.append_nil, List.mem_append] at ht
      rcases ht with ht | ht
      · obtain ⟨c, hmem, ht⟩ := List.mem_flatMap.1 ht
        have hlt := Blockchain.lt_of_checkIfBlockInChain hfound
        rw [← Blockchain.take_nonGenesis hlt] at hmem
        exact .inr (Thread.mem_recorded.2
          (.inl ⟨c, List.mem_of_mem_take hmem, Block.mem_of_requeued ht⟩))
      · exact .inr (hentries ts hts ht)
  | taken => exact .inl ht
  | mined => cases ht
  | _ => cases ht

end Thread

namespace Peer

/-- All votes at the peer have the property: those that wait, those that it has
still to push or to broadcast, and those that it recorded. -/
structure HoldsOnly (Q : Transaction → Prop) (p : Peer) : Prop where
  tq : ∀ t ∈ p.tq.queue, Q t
  todo : ∀ t ∈ pushes p.todo ++ announced p.todo, Q t
  recorded : ∀ t ∈ p.thread.recorded, Q t

theorem initial_holdsOnly (Q : Transaction → Prop) (tail : GenesisTail) :
    (initial tail).HoldsOnly Q where
  tq := by
    intro t ht
    cases ht
  todo := by
    intro t ht
    cases ht
  recorded := by
    intro t ht
    cases ht

end Peer

namespace Election

variable {ι : Type*} [DecidableEq ι] {links : Links ι} {SHA1 : Bytes → Digest}
  {tail : GenesisTail}

/-- The votes that were cast in a run. -/
def Event.cast? : Event ι → Option Transaction
  | .submit _ t => some t
  | _ => none

def castIn (tr : List (Move (Election ι) (Event ι))) : List Transaction :=
  tr.filterMap fun m => m.label.cast?

omit [DecidableEq ι] in
theorem castIn_append (tr tr' : List (Move (Election ι) (Event ι))) :
    castIn (tr ++ tr') = castIn tr ++ castIn tr' := List.filterMap_append

omit [DecidableEq ι] in
theorem castIn_cons (m : Move (Election ι) (Event ι)) (tr : List (Move (Election ι) (Event ι))) :
    castIn (m :: tr) = m.label.cast?.toList ++ castIn tr := by
  unfold castIn
  cases h : m.label.cast? <;> simp [h]

omit [DecidableEq ι] in
theorem castIn_eq_nil {tr : List (Move (Election ι) (Event ι))}
    (h : ∀ m ∈ tr, m.label.cast? = none) : castIn tr = [] :=
  List.filterMap_eq_nil_iff.2 h

/-- One step, where no vote is on the wire. -/
theorem Step.holdsOnly {s s' : Election ι} {e : Event ι} {wire : List BlockMsg}
    {Q : Transaction → Prop} (hs : Step SHA1 s e s') (hears : ∀ z, (s.peers z).Hears wire)
    (hsilent : (network (s, wire)).Silent tail) (hcast : ∀ t, e.cast? = some t → Q t)
    (h : ∀ z, (s.peers z).HoldsOnly Q) : ∀ z, (s'.peers z).HoldsOnly Q := by
  have hcalled : ∀ x ps z, ((s.called x ps).peers z).HoldsOnly Q :=
    fun x ps => forall_set h ⟨(h x).tq, (h x).todo, (h x).recorded⟩
  have hpush : ∀ (q : SynchronizedQueue Transaction) t, (∀ u ∈ q.queue, Q u) → Q t →
      ∀ u ∈ (q.push t).queue, Q u := by
    intro q t hq ht u hu
    rcases List.mem_append.1 hu with hu | hu
    · exact hq u hu
    · rw [List.mem_singleton.1 hu]
      exact ht
  cases hs with
  | @submit y t =>
      rw [decodeTransaction_encodeTransaction]
      exact forall_set h ⟨hpush _ t (h y).tq (hcast t rfl), (h y).todo, (h y).recorded⟩
  | @process x i effects n htodo hstep =>
      obtain ⟨hdelivers, hthread⟩ := node_delivers hears hstep
      have hchange := hthread.change
      have hcounted : (s.peers x).thread.Counted := hsilent.counted x
      have htaken : ∀ t, t ∈ i.taken → Q t := fun t ht =>
        (h x).tq t (mem_tq_of_taken hstep ht)
      have hkept : ∀ t, t ∈ i.taken ∨ t ∈ (s.peers x).thread.recorded → Q t :=
        fun t ht => ht.elim (htaken t) ((h x).recorded t)
      -- a received block has no votes, so all that the step touches was in `tq` or recorded
      refine forall_set h ⟨?_, fun t ht => hkept t (hchange.mem_effects hcounted ht),
        fun t ht => hkept t (hchange.mem_recorded hcounted (hsilent.takesEmpty hdelivers) ht)⟩
      intro t ht
      rcases tq_cases hstep with ⟨-, hsame⟩ | ⟨u, -, -, htail⟩
      · dsimp only at ht
        rw [hsame] at ht
        exact (h x).tq t ht
      · dsimp only at ht
        rw [htail] at ht
        exact (h x).tq t (List.mem_of_mem_tail ht)
  | @handBack x t rest htodo =>
      have htodos := (h x).todo
      rw [htodo] at htodos
      refine forall_set h ⟨hpush _ t (h x).tq (htodos t (by simp [pushes])), fun u hu => ?_,
        (h x).recorded⟩
      exact htodos u (List.mem_cons_of_mem _ hu)
  | start => exact hcalled _ _
  | @deliverBlock x y b b' msg rest ps =>
      exact forall_set (hcalled x ps) ⟨(hcalled x ps y).tq, (hcalled x ps y).todo,
        (hcalled x ps y).recorded⟩
  | @deliverTransaction x y t rest ps htodo =>
      -- what arrives at `y` was waiting to be sent at `x`
      have ht : Q t := (h x).todo t (by rw [htodo]; simp)
      rw [decodeTransaction_encodeTransaction]
      exact forall_set (hcalled x ps) ⟨hpush _ t (hcalled x ps y).tq ht, (hcalled x ps y).todo,
        (hcalled x ps y).recorded⟩
  | fail => exact hcalled _ _
  | @finish x e rest htodo hbroadcast =>
      have htodos := (h x).todo
      rw [htodo, pushes_of_isBroadcast hbroadcast] at htodos
      refine forall_set h ⟨(h x).tq, fun u hu => htodos u ?_, (h x).recorded⟩
      rcases List.mem_append.1 hu with hu | hu
      · exact List.mem_append_left _ hu
      · refine List.mem_append_right _ ?_
        cases e with
        | broadcastBlock b => exact hu
        | broadcastTransaction t => exact List.mem_cons_of_mem _ hu
        | push t => exact hbroadcast.elim
  | access => exact h

/-- What the wire says, and what went over it: no votes. -/
structure Quiet (tail : GenesisTail) (s : Election ι × List BlockMsg) : Prop where
  hears : ∀ z, (s.1.peers z).Hears s.2
  silent : (network s).Silent tail

theorem quiet_invariant (links : Links ι) (SHA1 : Bytes → Digest) (tail : GenesisTail) :
    (wired links SHA1 tail).Invariant (Quiet tail) := by
  have hnetwork := network_invariant links (Network.silent_invariant SHA1 tail)
  refine ⟨fun s hs => ?_, fun s e s' hstep h => ?_⟩
  · obtain ⟨hhears, hsilent⟩ := hnetwork.init s hs
    exact ⟨hhears, hsilent⟩
  · obtain ⟨hhears, hsilent⟩ := hnetwork.step s e s' hstep ⟨h.hears, h.silent⟩
    exact ⟨hhears, hsilent⟩

/-- If the step casts a vote, it has the property. -/
def CastsOnly (Q : Transaction → Prop) (m : Move (Election ι) (Event ι)) : Prop :=
  ∀ t, m.label.cast? = some t → Q t

/-- What every vote that is cast has, every vote in the system has. -/
theorem run_holdsOnly {Q : Transaction → Prop} {s : Election ι}
    {tr : List (Move (Election ι) (Event ι))}
    (hrun : (election links SHA1 tail).Run (.initial links tail) tr s)
    (hcast : ∀ t ∈ castIn tr, Q t) :
    ∃ wire, Quiet tail (s, wire) ∧ ∀ z, (s.peers z).HoldsOnly Q := by
  have hpres : (wired links SHA1 tail).PreservedUnder
      (fun m => CastsOnly Q ⟨m.pre.1, m.label, m.post.1⟩)
      fun s => Quiet tail s ∧ ∀ z, (s.1.peers z).HoldsOnly Q := by
    rintro ⟨s, wire⟩ e ⟨s', wire'⟩ ⟨hstep, hwire⟩ hcast ⟨hquiet, hholds⟩
    exact ⟨(quiet_invariant links SHA1 tail).step _ _ _ ⟨hstep, hwire⟩ hquiet,
      hstep.holdsOnly hquiet.hears hquiet.silent hcast hholds⟩
  refine hrun.post_withHistory hpres ⟨(quiet_invariant links SHA1 tail).init _ ⟨rfl, rfl⟩,
    fun z => Peer.initial_holdsOnly Q tail⟩ fun m hm t ht => ?_
  exact hcast t (List.mem_filterMap.2 ⟨m, hm, ht⟩)

end Election

namespace Network

variable {ι : Type*} [DecidableEq ι] {SHA1 : Bytes → Digest} {tail : GenesisTail}

/-- Every block of a chain above genesis was mined by the miner that has it. -/
theorem mined_by_owner {s : Network ι} {tr : List (Move (Network ι) (ι × Input × List Effect))}
    (hrun : (network ι SHA1 tail).Run (.initial tail) tr s) :
    ∀ j, ∀ c ∈ (s.miners j).bc.nonGenesis,
      ∃ m ∈ tr, ∃ effects, m.label = (j, .mine, effects) ∧ .broadcastBlock c ∈ effects := by
  induction hrun with
  | nil =>
      intro j c hc
      cases hc
  | @snoc s s' tr i hrun hstep ih =>
      have hsilent := (silent_invariant SHA1 tail).preserved.run hrun (initial_silent tail)
        (by simp)
      intro j c hc
      have hold : c ∈ (s.miners j).bc.nonGenesis → ∃ m ∈ tr ++ [⟨s, i, s'⟩],
          ∃ effects, m.label = (j, .mine, effects) ∧ .broadcastBlock c ∈ effects := by
        intro hc
        obtain ⟨m, hm, hmine⟩ := ih j c hc
        exact ⟨m, List.mem_append_left _ hm, hmine⟩
      cases hstep with
      | @step k i effects th hdelivers hthread =>
          dsimp only at hc
          by_cases hk : j = k
          · subst hk
            rw [Function.update_self] at hc
            rcases hthread.change.nonGenesis_cases (hsilent.takesEmpty hdelivers)
              (hsilent.nonempty j) with hsuffix | ⟨b, rfl, hbroadcast, hnew, -⟩
            · exact hold (hsuffix.subset hc)
            · rw [hnew] at hc
              rcases List.mem_cons.1 hc with rfl | hc
              · exact ⟨_, List.mem_append_right _ (List.mem_singleton_self _), effects, rfl,
                  hbroadcast⟩
              · exact hold hc
          · rw [Function.update_of_ne hk] at hc
            exact hold hc

end Network

namespace Election

variable {ι : Type*} [DecidableEq ι] {links : Links ι} {SHA1 : Bytes → Digest}
  {tail : GenesisTail}

/-- In every run of the whole system, whatever waits in a `tq`, is passed on, or
is recorded was cast in the run, unaltered; the blocks that wait in a `bq` have no
votes; and a chain holds nothing but what its own peer mined. -/
theorem run_authentic {s : Election ι} {tr : List (Move (Election ι) (Event ι))}
    (hrun : (election links SHA1 tail).Run (.initial links tail) tr s) (z : ι) :
    (s.peers z).HoldsOnly (· ∈ castIn tr) ∧ (∀ r ∈ (s.peers z).bq.queue, r.block.votes = []) ∧
      ∀ c ∈ (s.peers z).thread.bc.nonGenesis,
        ∃ m ∈ tr, ∃ effects, m.label = .process z .mine effects ∧ .broadcastBlock c ∈ effects := by
  obtain ⟨wire, hquiet, hholds⟩ := @run_holdsOnly _ _ links SHA1 tail (· ∈ castIn tr) _ _ hrun
    fun t ht => ht
  refine ⟨hholds z, fun r hr => ?_, fun c hc => ?_⟩
  · obtain ⟨msg, -, hempty, hdecode⟩ := (hquiet.hears z).bq r hr
    exact (hempty.decoded hdecode).2.1
  · obtain ⟨-, -, tr', wire', hnetwork, hlabels⟩ := run_projects hrun
    obtain ⟨m', hm', effects, hlabel, hbroadcast⟩ := Network.mined_by_owner hnetwork z c hc
    have hmem : m'.label ∈ tr.filterMap fun m => m.label.thread? :=
      hlabels ▸ List.mem_map_of_mem hm'
    obtain ⟨m, hm, hthread⟩ := List.mem_filterMap.1 hmem
    rw [hlabel] at hthread
    refine ⟨m, hm, effects, ?_, hbroadcast⟩
    cases hevent : m.label with
    | process x i effects' =>
        rw [hevent] at hthread
        cases hthread
        rfl
    | _ =>
        rw [hevent] at hthread
        cases hthread

/-- One of two peers takes eight votes and mines them. -/
theorem run_authentic_mined :
    ∃ tr s, (election pairLinks Block.sampleSHA1 Blockchain.sampleTail).Run
        (.initial pairLinks Blockchain.sampleTail) tr s ∧
      (s.peers false).thread.bc.nonGenesis.length = 1 ∧
      (s.peers false).HoldsOnly (· ∈ castIn tr) ∧
      (∀ r ∈ (s.peers false).bq.queue, r.block.votes = []) ∧
      ∀ c ∈ (s.peers false).thread.bc.nonGenesis, ∃ m ∈ tr, ∃ effects,
        m.label = .process false .mine effects ∧ .broadcastBlock c ∈ effects := by
  obtain ⟨tr, s, w, hrun, -, -, -, -, hfalse⟩ := exists_mined_pair
  exact ⟨tr, s, hrun, by rw [hfalse]; rfl, run_authentic hrun false⟩

end Election

end OneVote
