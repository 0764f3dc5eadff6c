-- SUMMARY: The flood ends: with fewer voters than fill a block, every peer comes to rest after a bounded number of steps.
import Mathlib.Algebra.BigOperators.Group.Finset.Basic
import Mathlib.Data.Finset.Card
import OneVote.Base.Measure
import OneVote.Flooding

/-!
# Quiescence

A peer passes a vote on when it records the voter, and it records a voter once.
So the calls that a vote sets off come to an end. Without a full block nobody
mines, and a thread that finds nothing in `tq` waits.
-/

namespace OneVote

open TransitionSystem (Move)

/-! ## One peer -/

namespace Thread

theorem WellFormed.not_full_of_lt {th : Thread} (h : th.WellFormed)
    (hlt : th.newBlock.votes.length < numTransactionsPerBlock) : th.quotafull = false := by
  apply Bool.eq_false_iff.2
  intro hfull
  have hmax := h.full_iff.1 hfull
  rw [h.filling.maxInd_eq] at hmax
  omega

/-- The voters of the working block are distinct. -/
theorem Counted.length_votes_le {th : Thread} (h : th.Counted) {K : Finset Bytes}
    (hK : ∀ t ∈ th.recorded, t.senderPublicKey ∈ K) : th.newBlock.votes.length ≤ K.card := by
  have hsub : th.newBlock.senders.toFinset ⊆ K := by
    intro k hk
    obtain ⟨t, ht, rfl⟩ := List.mem_map.1 (List.mem_toFinset.1 hk)
    exact hK t (Thread.mem_recorded.2 (.inr ht))
  have hcard := Finset.card_le_card hsub
  rw [List.toFinset_card_of_nodup h.wellFormed.filling.nodup, Block.senders,
    List.length_map] at hcard
  exact hcard

/-- A thread at `tq->pop()` can deal with whatever it gets. -/
theorem WellFormed.exists_takeTransaction {th : Thread} (h : th.WellFormed)
    (hlt : th.newBlock.votes.length < numTransactionsPerBlock) (t : Transaction) :
    ∃ th' effects, th.takeTransaction t = .ok (th', effects) := by
  obtain ⟨b, hb⟩ := h.filling.exists_setEntry hlt t
  unfold takeTransaction
  simp only [h.filling.entries, Except.ok_bind, hb]
  split
  · exact ⟨_, _, rfl⟩
  · split
    · exact ⟨_, _, rfl⟩
    · exact ⟨_, _, rfl⟩

end Thread

namespace Peer

/-- There are no blocks about, and nothing to do but to pass votes on. -/
structure Blockless (p : Peer) : Prop where
  bq : p.bq.queue = []
  todo : ∀ e ∈ p.todo, ∃ t, e = .broadcastTransaction t

theorem initial_blockless (tail : GenesisTail) : (initial tail).Blockless where
  bq := rfl
  todo := by
    intro e he
    cases he

variable {SHA1 : Bytes → Digest} {p : Peer} {K : Finset Bytes} {i : Input} {effects : List Effect}
  {n : Node}

/-- All that a step of the thread can do at such a peer. -/
theorem Blockless.process_cases (h : p.Blockless) (hc : p.thread.Counted)
    (hK : p.HoldsOnly fun t => t.senderPublicKey ∈ K) (hfew : K.card < numTransactionsPerBlock)
    (hstep : Node.Step SHA1 p.node (.process i effects) n) :
    n.bq = p.bq ∧ n.thread.newBlock.votes.length ≤ K.card ∧
      ((p.thread.point = .head ∧ n.thread.point = .pop ∧ n.tq = p.tq ∧ effects = [] ∧
          n.thread.newBlock = p.thread.newBlock) ∨
        p.thread.point = .pop ∧ n.thread.point = .head ∧ p.tq.queue ≠ [] ∧
          n.tq = ⟨p.tq.queue.tail⟩ ∧
          (effects = [] ∧ n.thread.newBlock = p.thread.newBlock ∨
            ∃ t, effects = [.broadcastTransaction t] ∧
              n.thread.newBlock.votes = p.thread.newBlock.votes ++ [t])) := by
  have hle := hc.length_votes_le hK.recorded
  have hfull := hc.wellFormed.not_full_of_lt (hle.trans_lt hfew)
  cases hstep with
  | @takeBlock r? b? env effects bq th hpending hpop hb hthread =>
      have hnone : p.bq.popNonblocking = (none, p.bq) :=
        SynchronizedQueue.popNonblocking_empty h.bq
      -- no block waits, so the thread goes on to `tq`
      cases hnone.symm.trans hpop
      cases hb
      cases hthread with
      | idle hpoint =>
          refine ⟨rfl, hle, .inl ⟨hpoint, ?_, rfl, rfl, rfl⟩⟩
          change p.thread.afterBlock = .pop
          rw [Thread.afterBlock, hfull]
          rfl
  | @takeTransaction t effects tq th hpending hpop hthread =>
      obtain ⟨hback, rfl⟩ := SynchronizedQueue.pop_eq_some.1 hpop
      have hne : p.tq.queue ≠ [] := by
        intro hnil
        rw [Peer.node, hnil] at hback
        cases hback
      have hchange := hthread.change
      have hc' := hc.change hchange
      have hle' : th.newBlock.votes.length ≤ K.card := hc'.length_votes_le fun u hu => by
        rcases hchange.mem_recorded hc (by rintro b env ⟨⟩) hu with hu | hu
        · rw [List.mem_singleton.1 hu]
          exact hK.tq t (List.mem_of_getLast? hback)
        · exact hK.recorded u hu
      refine ⟨rfl, hle', .inr ?_⟩
      have hfull' := hc'.wellFormed.not_full_of_lt (hle'.trans_lt hfew)
      cases hchange with
      | discarded hpoint => exact ⟨hpoint, rfl, hne, rfl, .inl ⟨rfl, rfl⟩⟩
      | taken hpoint _ hts hmem hset =>
          cases hts.symm.trans hc.wellFormed.filling.entries
          obtain ⟨-, hvotes, -⟩ := hc.wellFormed.filling.setEntry hmem hset
          exact ⟨hpoint, if_neg (Bool.eq_false_iff.1 hfull'), hne, rfl, .inr ⟨t, rfl, hvotes⟩⟩
  | mine hpending hthread =>
      -- with fewer than eight voters the working block is never full
      cases hthread with
      | mine hpoint =>
          have hquota := hc.wellFormed.full hpoint
          rw [hfull] at hquota
          cases hquota

/-- Such a peer goes on while a vote waits. -/
theorem Blockless.exists_process (h : p.Blockless) (hc : p.thread.Counted)
    (hK : p.HoldsOnly fun t => t.senderPublicKey ∈ K) (hfew : K.card < numTransactionsPerBlock)
    (hne : p.tq.queue ≠ []) (htodo : p.todo = []) :
    ∃ i effects n, Node.Step SHA1 p.node (.process i effects) n := by
  have hle := hc.length_votes_le hK.recorded
  have hpending : p.node.pending = [] := by
    rw [Peer.node, htodo]
    rfl
  cases hpoint : p.thread.point with
  | head =>
      exact ⟨_, _, _, .takeBlock hpending (SynchronizedQueue.popNonblocking_empty h.bq) rfl
        (@Thread.Step.idle SHA1 p.thread .alone hpoint)⟩
  | pop =>
      obtain ⟨th, effects, htake⟩ :=
        hc.wellFormed.exists_takeTransaction (hle.trans_lt hfew) (p.tq.queue.getLast hne)
      have hpop : p.node.tq.pop = some (p.tq.queue.getLast hne, ⟨p.tq.queue.tail⟩) :=
        SynchronizedQueue.pop_eq_some.2 ⟨List.getLast?_eq_some_getLast hne, rfl⟩
      exact ⟨_, _, _, .takeTransaction hpending hpop (.transaction hpoint htake)⟩
  | mine =>
      have hquota := hc.wellFormed.full hpoint
      rw [hc.wellFormed.not_full_of_lt (hle.trans_lt hfew)] at hquota
      cases hquota

/-- What one broadcast can set off: it begins and ends, and each of its calls is
made, and wakes a thread that takes what was pushed. -/
def broadcastWork : Nat := 3 * maxPeers + 2

/-- What the broadcasts of a peer can still set off. -/
def callsWork : Option (List Bytes) → List Effect → Nat
  | none, todo => broadcastWork * todo.length
  | some ps, todo => broadcastWork * todo.tail.length + 3 * ps.length + 1

/-- What the voters that the thread has not recorded can set off, of `k` voters. -/
def votersWork (k : Nat) (th : Thread) : Nat :=
  broadcastWork * (k - th.newBlock.votes.length) + if th.point = .head then 1 else 0

/-- A bound on the steps to come that a peer is the cause of. -/
def work (k : Nat) (p : Peer) : Nat :=
  votersWork k p.thread + callsWork p.calls p.todo + 2 * p.tq.queue.length

/-- The peer with these calls to make. -/
def calling (p : Peer) (ps : List Bytes) : Peer := { p with calls := some ps }

/-- A step of the thread leaves less work. -/
theorem Blockless.work_lt (h : p.Blockless) (hc : p.thread.Counted)
    (hK : p.HoldsOnly fun t => t.senderPublicKey ∈ K) (hfew : K.card < numTransactionsPerBlock)
    (hstep : Node.Step SHA1 p.node (.process i effects) n) :
    (⟨n.thread, n.bq, n.tq, effects, none⟩ : Peer).work K.card < p.work K.card := by
  obtain ⟨-, hle, hcases⟩ := h.process_cases hc hK hfew hstep
  rcases hcases with ⟨hpoint, hpoint', htq, rfl, hblock⟩ | ⟨hpoint, hpoint', hne, htq, hcase⟩
  · simp only [work, votersWork, callsWork, hblock, htq, hpoint, hpoint', reduceCtorEq, if_true,
      if_false, List.length_nil, Nat.mul_zero]
    omega
  · have hpos := List.length_pos_of_ne_nil hne
    rcases hcase with ⟨rfl, hblock⟩ | ⟨t, rfl, hvotes⟩
    · simp only [work, votersWork, callsWork, hblock, htq, hpoint, hpoint', reduceCtorEq, if_true,
        if_false, List.length_nil, List.length_tail, Nat.mul_zero]
      omega
    · -- one voter less can be recorded, which pays for the broadcast
      rw [hvotes, List.length_append, List.length_singleton] at hle
      have hsub : K.card - p.thread.newBlock.votes.length =
          K.card - (p.thread.newBlock.votes.length + 1) + 1 := by omega
      simp only [work, votersWork, callsWork, hsub, hvotes, htq, hpoint, hpoint', reduceCtorEq,
        if_true, if_false, List.length_append, List.length_singleton, List.length_tail,
        Nat.mul_add, Nat.mul_one]
      omega

/-- A call is over. -/
theorem work_calling {q : Bytes} {ps : List Bytes} (hcalls : p.calls = some (q :: ps)) (k : Nat) :
    (p.calling ps).work k + 3 = p.work k := by
  simp only [work, calling, callsWork, hcalls, List.length_cons]
  omega

/-- A broadcast of at most `maxPeers` calls begins. -/
theorem work_start_lt {e : Effect} {rest : List Effect} {ps : List Bytes}
    (htodo : p.todo = e :: rest) (hcalls : p.calls = none) (hlen : ps.length ≤ maxPeers)
    (k : Nat) : (p.calling ps).work k < p.work k := by
  have hwork : broadcastWork = 3 * maxPeers + 2 := rfl
  simp only [work, calling, callsWork, hcalls, htodo, List.length_cons, List.tail_cons,
    Nat.mul_succ]
  omega

/-- A broadcast is over. -/
theorem work_finish_lt {e : Effect} {rest : List Effect} (htodo : p.todo = e :: rest)
    (hcalls : p.calls = some []) (k : Nat) :
    ({ p with todo := rest, calls := none } : Peer).work k < p.work k := by
  simp only [work, callsWork, hcalls, htodo, List.tail_cons, List.length_nil]
  omega

theorem work_push (p : Peer) (t : Transaction) (k : Nat) : (p.push t).work k = p.work k + 2 := by
  have hlen : (p.push t).tq.queue.length = p.tq.queue.length + 1 := List.length_append
  unfold work
  rw [hlen]
  exact (Nat.add_assoc _ _ _).symm

end Peer

/-! ## The system -/

namespace Election

open PeerNetwork (pairLinks Joined Roomy)

/-- The event is one that a vote sets off: nobody casts a new vote, and no peer
looks for others. -/
def Event.IsWork {ι : Type*} : Event ι → Prop
  | .submit _ _ | .access _ _ => False
  | _ => True

variable {ι : Type*} [DecidableEq ι] {links : Links ι} {SHA1 : Bytes → Digest}
  {tail : GenesisTail} {K : Finset Bytes} {s s' : Election ι} {e : Event ι}

/-- The calls under way are calls of peers. -/
def CallsPeers (links : Links ι) (p : Peer) : Prop :=
  ∀ ps, p.calls = some ps → ∀ q ∈ ps, ∃ y, links.address y = q

/-- An election of the voters `K`, in which no block is mined. -/
structure Winding (links : Links ι) (tail : GenesisTail) (K : Finset Bytes)
    (s : Election ι × List BlockMsg) : Prop where
  quiet : Quiet tail s
  holds : ∀ z, (s.1.peers z).HoldsOnly fun t => t.senderPublicKey ∈ K
  blockless : ∀ z, (s.1.peers z).Blockless
  called : ∀ z, CallsPeers links (s.1.peers z)
  closed : s.1.lists.Closed links
  proper : ∀ z, (s.1.lists.clients z).Proper

theorem initial_winding : Winding links tail K (initial links tail, []) where
  quiet := ⟨fun _ => Peer.initial_hears tail [], Network.initial_silent tail⟩
  holds := fun _ => Peer.initial_holdsOnly _ tail
  blockless := fun _ => Peer.initial_blockless tail
  called := by
    intro z ps hps
    cases hps
  closed := PeerNetwork.initial_separated links _
  proper := (proper_invariant links).init _ rfl

/-- What a step leaves of the blocks and the calls. -/
theorem Winding.step_peers {wire : List BlockMsg} (h : Winding links tail K (s, wire))
    (hfew : K.card < numTransactionsPerBlock) (hs : Step SHA1 s e s') :
    (∀ z, (s'.peers z).Blockless) ∧ ∀ z, CallsPeers links (s'.peers z) := by
  have hrest : ∀ {x e rest}, (s.peers x).todo = e :: rest →
      ∀ e' ∈ rest, ∃ t, e' = .broadcastTransaction t := by
    intro x e rest htodo e' he'
    apply (h.blockless x).todo
    rw [htodo]
    exact List.mem_cons_of_mem _ he'
  have hcalled : ∀ x ps, (∀ q ∈ ps, ∃ y, links.address y = q) →
      (∀ z, ((s.called x ps).peers z).Blockless) ∧
        ∀ z, CallsPeers links ((s.called x ps).peers z) := by
    intro x ps hps
    refine ⟨forall_set h.blockless ⟨(h.blockless x).bq, (h.blockless x).todo⟩,
      forall_set h.called fun qs hqs => ?_⟩
    cases hqs
    exact hps
  have hlater : ∀ {x q ps}, (s.peers x).calls = some (q :: ps) →
      ∀ q' ∈ ps, ∃ y, links.address y = q' :=
    fun hcalls q' hq' => h.called _ _ hcalls q' (List.mem_cons_of_mem _ hq')
  cases hs with
  | @submit y t =>
      exact ⟨forall_set h.blockless ⟨(h.blockless y).bq, (h.blockless y).todo⟩,
        forall_set h.called (h.called y)⟩
  | @process x i effects n htodo hstep =>
      obtain ⟨hbq, -, hcases⟩ := (h.blockless x).process_cases (h.quiet.silent.counted x)
        (h.holds x) hfew hstep
      refine ⟨forall_set h.blockless ⟨?_, ?_⟩, forall_set h.called ?_⟩
      · exact (congrArg SynchronizedQueue.queue hbq).trans (h.blockless x).bq
      · rcases hcases with ⟨-, -, -, rfl, -⟩ | ⟨-, -, -, -, ⟨rfl, -⟩ | ⟨t, rfl, -⟩⟩
        · simp
        · simp
        · simp
      · intro ps hps
        cases hps
  | @handBack x t rest htodo =>
      obtain ⟨u, hu⟩ := (h.blockless x).todo (.push t) (by rw [htodo]; exact List.mem_cons_self)
      cases hu
  | start =>
      exact hcalled _ _ fun q hq => (h.closed.listed _ q hq).imp fun _ hy => hy.2
  | @deliverBlock x y b b' msg rest ps htodo =>
      obtain ⟨u, hu⟩ := (h.blockless x).todo (.broadcastBlock b)
        (by rw [htodo]; exact List.mem_cons_self)
      cases hu
  | @deliverTransaction x y t rest ps htodo hcalls =>
      obtain ⟨hblockless, hcall⟩ := hcalled x ps (hlater hcalls)
      exact ⟨forall_set hblockless ⟨(hblockless y).bq, (hblockless y).todo⟩,
        forall_set hcall (hcall y)⟩
  | fail hcalls => exact hcalled _ _ (hlater hcalls)
  | @finish x e rest htodo =>
      refine ⟨forall_set h.blockless ⟨(h.blockless x).bq, hrest htodo⟩, forall_set h.called ?_⟩
      intro ps hps
      cases hps
  | access => exact ⟨h.blockless, h.called⟩

theorem Winding.step {wire : List BlockMsg} (h : Winding links tail K (s, wire))
    (hfew : K.card < numTransactionsPerBlock) (hs : Step SHA1 s e s')
    (hcast : ∀ t, e.cast? = some t → t.senderPublicKey ∈ K) :
    Winding links tail K (s', wireAfter wire e) := by
  obtain ⟨hblockless, hcalled⟩ := h.step_peers hfew hs
  have hquiet := (quiet_invariant links SHA1 tail).step (s, wire) e (s', wireAfter wire e)
    ⟨hs, rfl⟩ h.quiet
  have hholds := hs.holdsOnly h.quiet.hears h.quiet.silent hcast h.holds
  cases hs with
  | access haccess =>
      exact ⟨hquiet, hholds, hblockless, hcalled,
        (PeerNetwork.closed_invariant links).step _ _ _ haccess h.closed,
        (proper_invariant links).step _ _ _ haccess h.proper⟩
  | _ => exact ⟨hquiet, hholds, hblockless, hcalled, h.closed, h.proper⟩

/-- All the work that is left. -/
def work [Fintype ι] (k : Nat) (s : Election ι) : Nat := ∑ z, (s.peers z).work k

theorem work_set [Fintype ι] (k : Nat) (s : Election ι) (x : ι) (p : Peer) :
    (s.set x p).work k + (s.peers x).work k = s.work k + p.work k := by
  have hnew := Finset.add_sum_erase Finset.univ (fun z => ((s.set x p).peers z).work k)
    (Finset.mem_univ x)
  have hold := Finset.add_sum_erase Finset.univ (fun z => (s.peers z).work k) (Finset.mem_univ x)
  have hsame : ∑ z ∈ Finset.univ.erase x, ((s.set x p).peers z).work k =
      ∑ z ∈ Finset.univ.erase x, (s.peers z).work k :=
    Finset.sum_congr rfl fun z hz => by rw [peers_set_of_ne (Finset.ne_of_mem_erase hz)]
  rw [hsame] at hnew
  simp only [peers_set_self] at hnew
  unfold work
  omega

/-- Whatever a vote sets off leaves less work. -/
theorem Winding.work_lt [Fintype ι] {wire : List BlockMsg} (h : Winding links tail K (s, wire))
    (hfew : K.card < numTransactionsPerBlock) (hs : Step SHA1 s e s') (he : e.IsWork) :
    s'.work K.card < s.work K.card := by
  have hset : ∀ x p, p.work K.card < (s.peers x).work K.card →
      (s.set x p).work K.card < s.work K.card := by
    intro x p hlt
    have hsum := work_set K.card s x p
    omega
  cases hs with
  | submit => exact he.elim
  | @process x i effects n htodo hstep =>
      exact hset x _ ((h.blockless x).work_lt (h.quiet.silent.counted x) (h.holds x) hfew hstep)
  | @handBack x t rest htodo =>
      obtain ⟨u, hu⟩ := (h.blockless x).todo (.push t) (by rw [htodo]; exact List.mem_cons_self)
      cases hu
  | @start x e rest htodo hbroadcast hcalls =>
      exact hset x _ (Peer.work_start_lt htodo hcalls (h.proper x).length_le _)
  | @deliverBlock x y b b' msg rest ps htodo =>
      obtain ⟨u, hu⟩ := (h.blockless x).todo (.broadcastBlock b)
        (by rw [htodo]; exact List.mem_cons_self)
      cases hu
  | @deliverTransaction x y t rest ps htodo hcalls =>
      have hcall := Peer.work_calling hcalls K.card
      have hsum := work_set K.card s x ((s.peers x).calling ps)
      have hpush := work_set K.card (s.called x ps) y (((s.called x ps).peers y).push t)
      rw [Peer.work_push] at hpush
      rw [decodeTransaction_encodeTransaction]
      change (s.called x ps).work _ + _ = _ at hsum
      change ((s.called x ps).pushTransaction y t).work _ + _ = _ at hpush
      omega
  | @fail x p ps hcalls =>
      have hcall := Peer.work_calling hcalls K.card
      exact hset x ((s.peers x).calling ps) (by omega)
  | @finish x e rest htodo hbroadcast hcalls =>
      exact hset x _ (Peer.work_finish_lt htodo hcalls _)
  | access => exact he.elim

/-- While a vote waits or a call is left, the system can go on, and no call has to fail. -/
theorem Winding.exists_step {wire : List BlockMsg} (h : Winding links tail K (s, wire))
    (hfew : K.card < numTransactionsPerBlock) (hnot : ¬ s.Settled) :
    ∃ e s', Step SHA1 s e s' ∧ e.IsWork ∧ ∀ x, e ≠ .fail x := by
  obtain ⟨z, hz⟩ := not_forall.1 hnot
  cases htodo : (s.peers z).todo with
  | nil =>
      have hne : (s.peers z).tq.queue ≠ [] := fun hnil => hz ⟨htodo, hnil⟩
      obtain ⟨i, effects, n, hstep⟩ : ∃ i effects n,
          Node.Step SHA1 (s.peers z).node (.process i effects) n :=
        (h.blockless z).exists_process (h.quiet.silent.counted z) (h.holds z) hfew hne htodo
      exact ⟨_, _, .process htodo hstep, trivial, by simp⟩
  | cons e rest =>
      obtain ⟨t, rfl⟩ := (h.blockless z).todo e (by rw [htodo]; exact List.mem_cons_self)
      cases hcalls : (s.peers z).calls with
      | none => exact ⟨_, _, .start htodo trivial hcalls, trivial, by simp⟩
      | some ps =>
          cases ps with
          | nil => exact ⟨_, _, .finish htodo trivial hcalls, trivial, by simp⟩
          | cons q ps =>
              obtain ⟨y, hy⟩ := h.called z _ hcalls q List.mem_cons_self
              rw [← hy, ← (h.closed.addressed y).1] at hcalls
              exact ⟨_, _, .deliverTransaction htodo hcalls, trivial, by simp⟩

/-! ## Runs -/

/-- The step is one that a vote sets off, and no call fails. -/
def Works (m : Move (Election ι) (Event ι)) : Prop := m.label.IsWork ∧ ∀ x, m.label ≠ .fail x

theorem winding_preserved (hfew : K.card < numTransactionsPerBlock) :
    (election links SHA1 tail).PreservedUnder (CastsOnly fun t => t.senderPublicKey ∈ K)
      fun s => ∃ wire, Winding links tail K (s, wire) := by
  rintro s e s' hs hcast ⟨wire, h⟩
  exact ⟨_, h.step hfew hs hcast⟩

theorem winding_preserved_work (hfew : K.card < numTransactionsPerBlock) :
    (election links SHA1 tail).PreservedUnder (fun m => m.label.IsWork)
      fun s => ∃ wire, Winding links tail K (s, wire) := by
  intro s e s' hs he
  apply winding_preserved hfew s e s' hs
  intro t ht
  cases e with
  | submit => exact he.elim
  | _ => cases ht

theorem work_decreases [Fintype ι] (hfew : K.card < numTransactionsPerBlock) :
    (election links SHA1 tail).Decreases (fun m => m.label.IsWork)
      (fun s => ∃ wire, Winding links tail K (s, wire)) (work K.card) := by
  rintro s e s' hs he ⟨wire, h⟩
  exact h.work_lt hfew hs he

/-- In an election with fewer voters than fill a block, what the votes set off
ends, whatever the schedule: the number of steps is bounded, and unless all is
settled there is another step. So all can be settled without a failed call. -/
theorem run_quiesces [Fintype ι] {tr₀ tr : List (Move (Election ι) (Event ι))}
    {s t : Election ι} (hrun₀ : (election links SHA1 tail).Run (.initial links tail) tr₀ s)
    (hfew : ((castIn tr₀).map (·.senderPublicKey)).toFinset.card < numTransactionsPerBlock)
    (hrun : (election links SHA1 tail).Run s tr t) (hwork : ∀ m ∈ tr, m.label.IsWork) :
    tr.length ≤ s.work ((castIn tr₀).map (·.senderPublicKey)).toFinset.card ∧
      (t.Settled ∨ ∃ e u, Step SHA1 t e u ∧ e.IsWork ∧ ∀ x, e ≠ .fail x) ∧
      ∃ tr' u, (election links SHA1 tail).Run t tr' u ∧ (∀ m ∈ tr', Works m) ∧ u.Settled := by
  have hcast : ∀ m ∈ tr₀, CastsOnly
      (fun t => t.senderPublicKey ∈ ((castIn tr₀).map (·.senderPublicKey)).toFinset) m := by
    intro m hm t ht
    have hmem : t ∈ castIn tr₀ := List.mem_filterMap.2 ⟨m, hm, ht⟩
    exact List.mem_toFinset.2 (List.mem_map_of_mem hmem)
  have hpres := @winding_preserved_work _ _ links SHA1 tail _ hfew
  have hdec := @work_decreases _ _ links SHA1 tail _ _ hfew
  have hs := (winding_preserved hfew).run hrun₀ ⟨[], initial_winding⟩ hcast
  have ht := hpres.run hrun hs hwork
  refine ⟨(Nat.le_add_right _ _).trans (hdec.length_add_le hpres hrun hs hwork), ?_, ?_⟩
  · obtain ⟨wire, hwinding⟩ := ht
    by_cases hsettled : t.Settled
    · exact .inl hsettled
    · exact .inr (hwinding.exists_step hfew hsettled)
  · have hworks : (election links SHA1 tail).Decreases Works
        (fun s => ∃ wire, Winding links tail _ (s, wire)) (work _) :=
      fun s e s' hs hm hJ => hdec s e s' hs hm.1 hJ
    refine hworks.exists_run (fun s e s' hs hm hJ => hpres s e s' hs hm.1 hJ) ?_ ht
    rintro u ⟨wire, hu⟩ hnot
    obtain ⟨e, v, hstep, he, hfail⟩ := hu.exists_step hfew hnot
    exact ⟨e, v, hstep, he, hfail⟩

/-- The first of two peers has taken a vote, and begins to tell the peers of its list. -/
theorem run_quiesces_first :
    ∃ tr₀ s t, (election pairLinks Block.sampleSHA1 Blockchain.sampleTail).Run
        (.initial pairLinks Blockchain.sampleTail) tr₀ s ∧
      castIn tr₀ = [sampleVote] ∧ ¬ t.Settled ∧
      [(⟨s, .start false, t⟩ : Move (Election Bool) (Event Bool))].length ≤
        s.work ((castIn tr₀).map (·.senderPublicKey)).toFinset.card ∧
      (t.Settled ∨ ∃ e u, Step Block.sampleSHA1 t e u ∧ e.IsWork ∧ ∀ x, e ≠ .fail x) ∧
      ∃ tr' u, (election pairLinks Block.sampleSHA1 Blockchain.sampleTail).Run t tr' u ∧
        (∀ m ∈ tr', Works m) ∧ u.Settled := by
  obtain ⟨tr₀, s, hrun, htodo, hcalls, m, tr, rfl, hsubmit, hlabels⟩ := exists_first_vote
  have hcast : castIn (m :: tr) = [sampleVote] := by
    have hnil : castIn tr = [] := castIn_eq_nil fun m hm => by
      obtain ⟨i, effects, hlabel⟩ := hlabels m hm
      rw [hlabel]
      rfl
    rw [castIn_cons, hnil, hsubmit]
    rfl
  have hstart : Step Block.sampleSHA1 s (.start false)
      (s.called false (s.lists.clients false).peerClients) := .start htodo trivial hcalls
  refine ⟨_, s, _, hrun, hcast, fun hsettled => ?_, run_quiesces hrun ?_ (.snoc .nil hstart) ?_⟩
  · have hnil := (hsettled false).1
    rw [peers_called_self] at hnil
    cases htodo.symm.trans hnil
  · rw [hcast]
    decide
  · intro m hm
    rw [List.mem_singleton.1 hm]
    trivial

end Election

end OneVote
