-- SUMMARY: When flooding reaches everyone: every vote cast anywhere is recorded by every peer once nothing is left to do.
import OneVote.Authenticity
import OneVote.Connectivity
import OneVote.FirstVotes

/-!
# Flooding

A peer tells every peer of its list what it records for the first time. A queue
keeps only the vote that was pushed last. So a vote that is not overtaken in a
queue is recorded by all peers that the lists connect.
-/

namespace OneVote

open TransitionSystem (Move)

namespace Peer

/-- The voters that the peer has recorded. -/
def voters (p : Peer) : List Bytes := p.thread.recorded.map (·.senderPublicKey)

/-- The vote that `tq` hands out next is by the voter. -/
def IsNext (p : Peer) (k : Bytes) : Prop :=
  ∃ t, p.tq.queue.getLast? = some t ∧ t.senderPublicKey = k

/-- The peer has recorded the voter, or takes a vote by the voter next. -/
def HasVoter (p : Peer) (k : Bytes) : Prop := k ∈ p.voters ∨ p.IsNext k

/-- The voters of the votes that are broadcast, in order. -/
def told (effects : List Effect) : List Bytes := (announced effects).map (·.senderPublicKey)

/-- The peer has still to send a vote by the voter to the address: in a broadcast
that is to come, or in the one under way if that has not called the address. -/
def Owes (p : Peer) (addr : Bytes) (k : Bytes) : Prop :=
  match p.calls with
  | none => k ∈ told p.todo
  | some ps => addr ∈ ps ∧ k ∈ told p.todo ∨ k ∈ told p.todo.tail

/-- No waiting vote will be lost: its voter is recorded or next. -/
def Keeps (p : Peer) : Prop := ∀ t ∈ p.tq.queue, p.HasVoter t.senderPublicKey

/-- Pushing the vote overtakes none by a voter who is not recorded. -/
def Admits (p : Peer) (t : Transaction) : Prop :=
  ∀ k, p.IsNext k → k = t.senderPublicKey ∨ k ∈ p.voters

/-- The peer with one more vote in `tq`. -/
def push (p : Peer) (t : Transaction) : Peer := { p with tq := p.tq.push t }

theorem admits_of_empty {p : Peer} (h : p.tq = .empty) (t : Transaction) : p.Admits t := by
  rintro k ⟨u, hu, -⟩
  rw [h] at hu
  cases hu

theorem isNext_push (p : Peer) (t : Transaction) : (p.push t).IsNext t.senderPublicKey :=
  ⟨t, List.getLast?_concat, rfl⟩

theorem HasVoter.push {p : Peer} {t : Transaction} (hadmits : p.Admits t) {k : Bytes}
    (h : p.HasVoter k) : (p.push t).HasVoter k := by
  rcases h with hrecorded | hnext
  · exact .inl hrecorded
  · rcases hadmits k hnext with rfl | hrecorded
    · exact .inr (p.isNext_push t)
    · exact .inl hrecorded

theorem Keeps.push {p : Peer} {t : Transaction} (hadmits : p.Admits t) (h : p.Keeps) :
    (p.push t).Keeps := by
  intro u hu
  rcases List.mem_append.1 hu with hu | hu
  · exact (h u hu).push hadmits
  · rw [List.mem_singleton.1 hu]
    exact .inr (p.isNext_push t)

theorem told_cons (e : Effect) (rest : List Effect) : told (e :: rest) = told [e] ++ told rest := by
  have hsplit : announced (e :: rest) = announced [e] ++ announced rest := announced_append [e] rest
  rw [told, hsplit, List.map_append]
  rfl

theorem not_owes_of_todo {p : Peer} (h : p.todo = []) (addr k : Bytes) : ¬ p.Owes addr k := by
  unfold Owes
  rw [h]
  cases p.calls <;> simp [told]

/-- A broadcast begins with all the peers of the list to call. -/
theorem Owes.start {p : Peer} {addr k : Bytes} (h : p.Owes addr k) (hcalls : p.calls = none)
    {ps : List Bytes} (hmem : addr ∈ ps) : ({ p with calls := some ps } : Peer).Owes addr k := by
  unfold Owes at h
  rw [hcalls] at h
  exact .inl ⟨hmem, h⟩

/-- After a call of another address, or for a block, as much is left to tell. -/
theorem Owes.called {p : Peer} {addr k q : Bytes} {ps : List Bytes} {e : Effect}
    {rest : List Effect} (h : p.Owes addr k) (htodo : p.todo = e :: rest)
    (hcalls : p.calls = some (q :: ps)) :
    ({ p with calls := some ps } : Peer).Owes addr k ∨ addr = q ∧ k ∈ told [e] := by
  unfold Owes at h ⊢
  rw [hcalls] at h
  rcases h with ⟨haddr, hk⟩ | hk
  · rcases List.mem_cons.1 haddr with rfl | hps
    · rw [htodo, told_cons, List.mem_append] at hk
      rcases hk with hk | hk
      · exact .inr ⟨rfl, hk⟩
      · exact .inl (.inr (by rwa [htodo]))
    · exact .inl (.inl ⟨hps, hk⟩)
  · exact .inl (.inr hk)

/-- A broadcast that has called everyone is over. -/
theorem Owes.finish {p : Peer} {addr k : Bytes} {e : Effect} {rest : List Effect}
    (h : p.Owes addr k) (htodo : p.todo = e :: rest) (hcalls : p.calls = some []) :
    ({ p with todo := rest, calls := none } : Peer).Owes addr k := by
  unfold Owes at h
  rw [hcalls, htodo] at h
  exact h.resolve_left fun hnil => List.not_mem_nil hnil.1

/-- What a step of the thread at a peer leaves of its voters and its queue. -/
structure Processed (p p' : Peer) : Prop where
  noPush : pushes p'.todo = []
  keepsVoters : ∀ k, p.HasVoter k → p'.HasVoter k
  keeps : p'.Keeps
  announced : ∀ k ∈ p'.voters, k ∈ p.voters ∨ ∀ addr, p'.Owes addr k

end Peer

/-! ## One step of a thread -/

namespace Thread

variable {SHA1 : Bytes → Digest} {th th' : Thread} {i : Input} {effects : List Effect}

/-- The voters after a step are those before it and the voter that it took. -/
theorem Change.mem_voters (hs : Change SHA1 th (i, effects) th') (hc : th.Counted)
    (hignores : i.received ≠ [] → th'.bc = th.bc ∧ th'.newBlock = th.newBlock) {k : Bytes} :
    k ∈ th'.recorded.map (·.senderPublicKey) ↔ k ∈ th.recorded.map (·.senderPublicKey) ∨
      k ∈ i.taken.map (·.senderPublicKey) := by
  rw [hs.recorded hc hignores, Firsts.mem_keys_foldl]

/-- A voter recorded for the first time is announced. -/
theorem Change.announces (hs : Change SHA1 th (i, effects) th') (hc : th.Counted)
    (hignores : i.received ≠ [] → th'.bc = th.bc ∧ th'.newBlock = th.newBlock) {k : Bytes}
    (hk : k ∈ th'.recorded.map (·.senderPublicKey)) :
    k ∈ th.recorded.map (·.senderPublicKey) ∨ k ∈ (announced effects).map (·.senderPublicKey) := by
  rcases (hs.mem_voters hc hignores).1 hk with hold | htaken
  · exact .inl hold
  · cases hs with
    | @discarded t ts _ hknown =>
        rw [List.mem_singleton.1 htaken]
        refine .inl (hc.known_iff.1 (hknown.imp_right ?_))
        rintro ⟨hts, hmem⟩
        cases hts.symm.trans hc.wellFormed.filling.entries
        exact hmem
    | taken => exact .inr htaken
    | _ => cases htaken

theorem Change.pushes_eq_nil (hs : Change SHA1 th (i, effects) th') (hi : i.received = []) :
    pushes effects = [] := by
  cases hs with
  | accepted => cases hi
  | repaired => cases hi
  | _ => rfl

end Thread

/-! ## The flood -/

namespace PeerNetwork

variable {ι : Type*} [DecidableEq ι] {links : Links ι}

/-- One of the two is the first peer of the other. -/
def Joined (links : Links ι) (x y : ι) : Prop := links.first x = y ∨ links.first y = x

omit [DecidableEq ι] in
/-- After a call of both, each is in the list of the other. -/
theorem Linked.mem_of_joined {s : PeerNetwork ι} (h : s.Linked links) {x y : ι}
    (hxy : Joined links x y) (hrounds : ∀ z, 0 < s.rounds z) :
    links.address y ∈ (s.clients x).peerClients := by
  rcases hxy with rfl | rfl
  · refine (h.progress x).first.resolve_left fun hidle => ?_
    exact Nat.pos_iff_ne_zero.1 (hrounds x) hidle.2
  · exact (h.progress y).registered (hrounds y)

/-- What holds of the lists of a network that is never full. -/
structure Roomy (links : Links ι) (s : PeerNetwork ι) : Prop where
  closed : s.Closed links
  proper : ∀ x, (s.clients x).Proper
  linked : s.Linked links

theorem roomy_invariant [Fintype ι] (hcard : Fintype.card ι ≤ maxPeers + 1) :
    (peerNetwork links).Invariant (Roomy links) where
  init := by
    rintro s rfl
    exact ⟨initial_separated links _, (proper_invariant links).init _ rfl,
      fun x => ⟨rfl, rfl⟩, fun x => initial_progress links x⟩
  step := by
    intro s a s' hstep h
    have hadmits : AdmitsFirst links ⟨s, a, s'⟩ := fun x =>
      ⟨fun _ => h.closed.hasRoomFor hcard (h.proper x) (links.first_ne x),
        fun _ => h.closed.hasRoomFor hcard (h.proper _) (links.first_ne x).symm⟩
    exact ⟨(closed_invariant links).step _ _ _ hstep h.closed,
      (proper_invariant links).step _ _ _ hstep h.proper,
      linked_preserved links _ _ _ hstep hadmits h.linked⟩

end PeerNetwork

namespace Election

open PeerNetwork (pairLinks Joined Roomy)

variable {ι : Type*} [DecidableEq ι] {links : Links ι} {SHA1 : Bytes → Digest} {P : Bytes}
  {tail : GenesisTail} {s s' : Election ι} {e : Event ι}

/-- A vote that the event pushes to the `tq` of a peer. -/
def Event.arrives? : Event ι → Option (ι × Transaction)
  | .submit y t => some (y, t)
  | .deliverTransaction _ y t => some (y, t)
  | _ => none

/-- No call fails, no vote is overtaken in a queue, and no broadcast begins
before every peer has completed a call of `bootstrapPeers`. -/
structure GetsThrough (m : Move (Election ι) (Event ι)) : Prop where
  fail : ∀ x, m.label ≠ .fail x
  arrives : ∀ y t, m.label.arrives? = some (y, t) → (m.pre.peers y).Admits t
  start : ∀ x, m.label = .start x → ∀ z, 0 < m.pre.lists.rounds z

/-- Every peer has still to tell its neighbours of the voters that it recorded,
or they have heard of them. -/
def Told (links : Links ι) (s : Election ι) : Prop :=
  ∀ x y, Joined links x y → ∀ k ∈ (s.peers x).voters,
    (s.peers x).Owes (links.address y) k ∨ (s.peers y).HasVoter k

/-- A change of one peer that keeps its voters. -/
theorem hasVoter_set {x : ι} {p : Peer} (hkeeps : ∀ k, (s.peers x).HasVoter k → p.HasVoter k) :
    ∀ y k, (s.peers y).HasVoter k → ((s.set x p).peers y).HasVoter k := by
  intro y k hy
  by_cases hx : y = x
  · subst hx
    rw [peers_set_self]
    exact hkeeps k hy
  · rwa [peers_set_of_ne hx]

/-- A change of one peer that keeps its voters, and that tells or owes what it records. -/
theorem Told.set (h : s.Told links) {x : ι} {p : Peer}
    (hkeeps : ∀ k, (s.peers x).HasVoter k → p.HasVoter k)
    (hnew : ∀ y, Joined links x y → ∀ k ∈ p.voters,
      p.Owes (links.address y) k ∨ (s.peers y).HasVoter k) : (s.set x p).Told links := by
  have hmono := hasVoter_set hkeeps
  intro u y huy k hk
  by_cases hu : u = x
  · subst hu
    rw [peers_set_self] at hk ⊢
    exact (hnew y huy k hk).imp_right (hmono y k)
  · rw [peers_set_of_ne hu] at hk ⊢
    exact (h u y huy k hk).imp_right (hmono y k)

/-- It does not matter whether the call is over before the vote is in the queue. -/
theorem called_pushTransaction (s : Election ι) (x y : ι) (ps : List Bytes) (t : Transaction) :
    (s.called x ps).pushTransaction y t = (s.pushTransaction y t).called x ps := by
  unfold called pushTransaction set
  by_cases h : x = y
  · subst h
    simp only [Function.update_self, Function.update_idem]
  · simp only [Function.update_of_ne h, Function.update_of_ne (Ne.symm h),
      Function.update_comm h]

theorem Told.pushTransaction (h : s.Told links) {y : ι} {t : Transaction}
    (hadmits : (s.peers y).Admits t) : (s.pushTransaction y t).Told links :=
  h.set (fun _ hk => hk.push hadmits) (h y)

/-- The call that delivered the vote is over. -/
theorem Told.called (h : s.Told links) {x y : ι} {t : Transaction} {rest : List Effect}
    {ps : List Bytes} (htodo : (s.peers x).todo = .broadcastTransaction t :: rest)
    (hcalls : (s.peers x).calls = some (links.address y :: ps))
    (hnext : (s.peers y).HasVoter t.senderPublicKey) : (s.called x ps).Told links := by
  refine h.set (fun _ hk => hk) fun z hz k hk => ?_
  rcases h x z hz k hk with howes | hheard
  · rcases howes.called htodo hcalls with howes | ⟨haddr, htold⟩
    · exact .inl howes
    · obtain rfl := links.injective haddr
      rw [List.mem_singleton.1 htold]
      exact .inr hnext
  · exact .inr hheard

/-! ### The steps of an election -/

/-- An election whose keys begin with `P`, in which the flood goes on. -/
structure Spreading (links : Links ι) (SHA1 : Bytes → Digest) (P : Bytes) (tail : GenesisTail)
    (s : Election ι × List BlockMsg) : Prop where
  hears : ∀ z, (s.1.peers z).Hears s.2
  isolated : (network s).Isolated SHA1 P tail
  keys : ∀ z, (s.1.peers z).HoldsOnly fun t => P <+: t.senderPublicKey
  lists : s.1.lists.Roomy links
  noPush : ∀ z, pushes (s.1.peers z).todo = []
  keeps : ∀ z, (s.1.peers z).Keeps
  told : s.1.Told links

omit [DecidableEq ι] in
theorem initial_spreading (hlists : (PeerNetwork.initial links).Roomy links) :
    Spreading links SHA1 P tail (initial links tail, []) where
  hears := fun _ => Peer.initial_hears tail []
  isolated := Network.initial_isolated
  keys := fun _ => Peer.initial_holdsOnly _ tail
  lists := hlists
  noPush := fun _ => rfl
  keeps := by
    intro z t ht
    cases ht
  told := by
    intro x y _ k hk
    cases hk

omit [DecidableEq ι] in
theorem Spreading.processed {wire : List BlockMsg} (h : Spreading links SHA1 P tail (s, wire))
    {x : ι} {i : Input} {effects : List Effect} {n : Node}
    (hstep : Node.Step SHA1 (s.peers x).node (.process i effects) n) :
    (s.peers x).Processed ⟨n.thread, n.bq, n.tq, effects, none⟩ := by
  obtain ⟨hdelivers, hthread⟩ := node_delivers h.hears hstep
  have halone : (s.peers x).thread.Alone SHA1 P tail := h.isolated.alone x
  have hchange := hthread.change
  have hignored : i.received ≠ [] → effects = [] ∧ n.thread.bc = (s.peers x).thread.bc ∧
      n.thread.newBlock = (s.peers x).thread.newBlock := by
    intro hreceived
    obtain ⟨b, hb⟩ := List.exists_mem_of_ne_nil _ hreceived
    obtain ⟨env, rfl⟩ := Input.mem_received.1 hb
    obtain ⟨heffects, hn⟩ := halone.ignores (h.isolated.takesMined hdelivers) hchange
    rw [hn]
    exact ⟨heffects, rfl, rfl⟩
  have hsame := fun hreceived => (hignored hreceived).2
  -- the vote at the back of `tq` is either still there or was just recorded
  have hvoters : ∀ k, (s.peers x).HasVoter k →
      (⟨n.thread, n.bq, n.tq, effects, none⟩ : Peer).HasVoter k := by
    rintro k (hrecorded | ⟨t, hback, hkey⟩)
    · exact .inl ((hchange.mem_voters halone.counted hsame).2 (.inl hrecorded))
    · rcases tq_cases hstep with ⟨-, htq⟩ | ⟨u, rfl, hback', -⟩
      · refine .inr ⟨t, ?_, hkey⟩
        change n.tq.queue.getLast? = some t
        rw [htq]
        exact hback
      · cases hback.symm.trans hback'
        exact .inl ((hchange.mem_voters halone.counted hsame).2
          (.inr (List.mem_singleton.2 hkey.symm)))
  refine ⟨?_, hvoters, fun t ht => hvoters _ (h.keeps x t ?_), fun k hk => ?_⟩
  · by_cases hreceived : i.received = []
    · exact hchange.pushes_eq_nil hreceived
    · rw [(hignored hreceived).1]
      rfl
  · rcases tq_cases hstep with ⟨-, htq⟩ | ⟨u, -, -, htq⟩
    · dsimp only at ht
      rw [htq] at ht
      exact ht
    · dsimp only at ht
      rw [htq] at ht
      exact List.mem_of_mem_tail ht
  · exact (hchange.announces halone.counted hsame hk).imp_right fun hannounced _ => hannounced

/-- The threads of such an election stay isolated. -/
theorem Spreading.isolated_step {wire : List BlockMsg}
    (h : Spreading links SHA1 P tail (s, wire)) (hs : Step SHA1 s e s')
    (hP : P.length = publicKeySize) :
    (network (s', wireAfter wire e)).Isolated SHA1 P tail := by
  rcases hs.threads_cases h.hears with ⟨-, hsame⟩ | ⟨label, hlabel, hnext⟩
  · rw [hsame]
    exact h.isolated
  · cases hs with
    | @process x i effects n htodo hstep =>
        cases hlabel
        refine (Network.Step.isolated hnext hP (fun t ht => ?_) h.isolated).1
        exact (h.keys x).tq t (mem_tq_of_taken hstep ht)
    | _ => cases hlabel

theorem Step.roomy [Fintype ι] (hcard : Fintype.card ι ≤ maxPeers + 1) (hs : Step SHA1 s e s')
    (h : s.lists.Roomy links) : s'.lists.Roomy links := by
  cases hs with
  | access haccess => exact (PeerNetwork.roomy_invariant hcard).step _ _ _ haccess h
  | _ => exact h

/-- What every step does to the queues and to what the peers have to tell. -/
theorem Spreading.flood_step {wire : List BlockMsg} (h : Spreading links SHA1 P tail (s, wire))
    (hs : Step SHA1 s e s') (hg : GetsThrough ⟨s, e, s'⟩) :
    (∀ z, pushes (s'.peers z).todo = []) ∧ (∀ z, (s'.peers z).Keeps) ∧ s'.Told links := by
  have hcalled : ∀ (u : Election ι) x ps, (∀ z, pushes (u.peers z).todo = []) →
      (∀ z, (u.peers z).Keeps) → (∀ z, pushes ((u.called x ps).peers z).todo = []) ∧
        ∀ z, ((u.called x ps).peers z).Keeps :=
    fun u x ps hu hu' => ⟨forall_set (P := fun p => pushes p.todo = []) hu (hu x),
      forall_set hu' (hu' x)⟩
  have harrived : ∀ y t, (s.peers y).Admits t →
      (∀ z, pushes ((s.pushTransaction y t).peers z).todo = []) ∧
        (∀ z, ((s.pushTransaction y t).peers z).Keeps) ∧
          (s.pushTransaction y t).Told links :=
    fun y t hadmits => ⟨forall_set (P := fun p => pushes p.todo = []) h.noPush (h.noPush y),
      forall_set h.keeps ((h.keeps y).push hadmits), h.told.pushTransaction hadmits⟩
  cases hs with
  | @submit y t =>
      rw [decodeTransaction_encodeTransaction]
      exact harrived y t (hg.arrives y t rfl)
  | @process x i effects n htodo hstep =>
      -- a new voter is announced, and nothing else is left to do
      have hp := h.processed hstep
      refine ⟨forall_set (P := fun p => pushes p.todo = []) h.noPush hp.noPush,
        forall_set h.keeps hp.keeps, h.told.set hp.keepsVoters fun y hy k hk => ?_⟩
      rcases hp.announced k hk with hold | howes
      · refine (h.told x y hy k hold).imp_left fun howes => ?_
        exact absurd howes (Peer.not_owes_of_todo htodo _ _)
      · exact .inl (howes _)
  | @handBack x t rest htodo =>
      -- no vote is ever handed back in such an election
      have hnone := h.noPush x
      dsimp only at hnone
      rw [htodo] at hnone
      cases hnone
  | @start x e rest htodo hbroadcast hcalls =>
      -- the calls go to the whole list, which has every peer that is joined to this one
      obtain ⟨hpush, hkeeps⟩ := hcalled s x (s.lists.clients x).peerClients h.noPush h.keeps
      refine ⟨hpush, hkeeps, h.told.set (fun _ hk => hk) fun y hy k hk => ?_⟩
      refine (h.told x y hy k hk).imp_left fun howes => ?_
      exact howes.start hcalls (h.lists.linked.mem_of_joined hy (hg.start x rfl))
  | @deliverBlock x y b b' msg rest ps htodo hcalls =>
      -- a block tells nobody of a voter
      obtain ⟨hpush, hkeeps⟩ := hcalled s x ps h.noPush h.keeps
      have htold : (s.called x ps).Told links := by
        refine h.told.set (fun _ hk => hk) fun z hz k hk => ?_
        refine (h.told x z hz k hk).imp_left fun howes => ?_
        refine (howes.called htodo hcalls).resolve_right ?_
        rintro ⟨-, htold⟩
        cases htold
      exact ⟨forall_set (P := fun p => pushes p.todo = []) hpush (hpush y),
        forall_set hkeeps (hkeeps y), htold.set (fun _ hk => hk) (htold y)⟩
  | @deliverTransaction x y t rest ps htodo hcalls =>
      have hadmits := hg.arrives y t rfl
      rw [decodeTransaction_encodeTransaction, called_pushTransaction]
      obtain ⟨hpush, hkeeps, htold⟩ := harrived y t hadmits
      obtain ⟨hpush', hkeeps'⟩ := hcalled _ x ps hpush hkeeps
      have hsame : ((s.pushTransaction y t).peers x).todo = (s.peers x).todo ∧
          ((s.pushTransaction y t).peers x).calls = (s.peers x).calls := by
        by_cases hx : x = y
        · subst hx
          rw [peers_pushTransaction_self]
          exact ⟨rfl, rfl⟩
        · rw [peers_pushTransaction_of_ne hx]
          exact ⟨rfl, rfl⟩
      refine ⟨hpush', hkeeps', htold.called (y := y) (hsame.1.trans htodo) (hsame.2.trans ?_) ?_⟩
      · rw [hcalls, (h.lists.linked.addressed y).1]
      · rw [peers_pushTransaction_self]
        exact .inr ((s.peers y).isNext_push t)
  | fail => exact absurd rfl (hg.fail _)
  | @finish x e rest htodo hbroadcast hcalls =>
      have hrest : pushes rest = [] := by
        have hnone := h.noPush x
        rwa [htodo, pushes_of_isBroadcast hbroadcast] at hnone
      refine ⟨forall_set (P := fun p => pushes p.todo = []) h.noPush hrest,
        forall_set h.keeps (h.keeps x), h.told.set (fun _ hk => hk) fun y hy k hk => ?_⟩
      exact (h.told x y hy k hk).imp_left fun howes => howes.finish htodo hcalls
  | access => exact ⟨h.noPush, h.keeps, h.told⟩

/-- Whom a peer has heard of, it does not forget. -/
theorem Spreading.hasVoter_step {wire : List BlockMsg}
    (h : Spreading links SHA1 P tail (s, wire)) (hs : Step SHA1 s e s')
    (hg : GetsThrough ⟨s, e, s'⟩) :
    ∀ z k, (s.peers z).HasVoter k → (s'.peers z).HasVoter k := by
  have harrived : ∀ y t, (s.peers y).Admits t →
      ∀ z k, (s.peers z).HasVoter k → ((s.pushTransaction y t).peers z).HasVoter k :=
    fun y t hadmits => hasVoter_set fun _ hk => hk.push hadmits
  have hcalled : ∀ (u : Election ι) x ps z k, (u.peers z).HasVoter k →
      ((u.called x ps).peers z).HasVoter k := fun u x ps => hasVoter_set fun _ hk => hk
  have hpushed : ∀ (u : Election ι) y b z k, (u.peers z).HasVoter k →
      ((u.pushBlock y b).peers z).HasVoter k := fun u y b => hasVoter_set fun _ hk => hk
  cases hs with
  | @submit y t =>
      rw [decodeTransaction_encodeTransaction]
      exact harrived y t (hg.arrives y t rfl)
  | process htodo hstep => exact hasVoter_set (h.processed hstep).keepsVoters
  | @handBack x t rest htodo =>
      have hnone := h.noPush x
      dsimp only at hnone
      rw [htodo] at hnone
      cases hnone
  | start => exact hcalled s _ _
  | @deliverBlock x y b b' msg rest ps =>
      intro z k hk
      exact hpushed _ y b' z k (hcalled s x ps z k hk)
  | @deliverTransaction x y t rest ps =>
      rw [decodeTransaction_encodeTransaction, called_pushTransaction]
      intro z k hk
      exact hcalled _ x ps z k (harrived y t (hg.arrives y t rfl) z k hk)
  | fail => exact hcalled s _ _
  | finish => exact hasVoter_set fun _ hk => hk
  | access => exact fun _ _ hk => hk

/-- If the step casts a vote, its key begins with `P`. -/
abbrev CastsPrefix (P : Bytes) : Move (Election ι) (Event ι) → Prop :=
  CastsOnly fun t => P <+: t.senderPublicKey

theorem spreading_preserved [Fintype ι] (hcard : Fintype.card ι ≤ maxPeers + 1)
    (hP : P.length = publicKeySize) :
    (wired links SHA1 tail).PreservedUnder (fun m =>
        CastsPrefix P ⟨m.pre.1, m.label, m.post.1⟩ ∧ GetsThrough ⟨m.pre.1, m.label, m.post.1⟩)
      (Spreading links SHA1 P tail) := by
  rintro ⟨s, wire⟩ e ⟨s', wire'⟩ ⟨hs, rfl⟩ ⟨hcast, hg⟩ h
  obtain ⟨hpush, hkeeps, htold⟩ := h.flood_step hs hg
  exact ⟨hs.hears h.hears, h.isolated_step hs hP,
    hs.holdsOnly h.hears h.isolated.silent hcast h.keys, hs.roomy hcard h.lists, hpush, hkeeps,
    htold⟩

/-! ### Runs -/

/-- Nothing waits in a `tq`, and no peer has anything left to do. -/
def Settled (s : Election ι) : Prop := ∀ z, (s.peers z).todo = [] ∧ (s.peers z).tq.queue = []

omit [DecidableEq ι] in
theorem Settled.mem_voters (h : s.Settled) {z : ι} {k : Bytes} (hk : (s.peers z).HasVoter k) :
    k ∈ (s.peers z).voters := by
  refine hk.resolve_right ?_
  rintro ⟨t, ht, -⟩
  rw [(h z).2] at ht
  cases ht

omit [DecidableEq ι] in
/-- What is recorded anywhere is recorded everywhere. -/
theorem Told.spread (h : s.Told links) (hsettled : s.Settled) {x y : ι} {k : Bytes}
    (hk : k ∈ (s.peers x).voters) : k ∈ (s.peers y).voters := by
  have hpath : Relation.ReflTransGen (Joined links) x y := links.linked x y
  induction hpath with
  | refl => exact hk
  | @tail b c _ hjoined ih =>
      rcases h b c hjoined k ih with howes | hheard
      · exact absurd howes (Peer.not_owes_of_todo (hsettled b).1 _ _)
      · exact hsettled.mem_voters hheard

theorem run_spreading [Fintype ι] (hcard : Fintype.card ι ≤ maxPeers + 1)
    (hP : P.length = publicKeySize) {tr : List (Move (Election ι) (Event ι))}
    (hrun : (election links SHA1 tail).Run (.initial links tail) tr s)
    (hcast : ∀ m ∈ tr, CastsPrefix P m) (hthrough : ∀ m ∈ tr, GetsThrough m) :
    ∃ wire, Spreading links SHA1 P tail (s, wire) := by
  have hpres := @spreading_preserved _ _ links SHA1 P tail _ hcard hP
  exact hrun.post_withHistory (G := fun m => CastsPrefix P m ∧ GetsThrough m) hpres
    (initial_spreading ((PeerNetwork.roomy_invariant hcard).init _ rfl))
    fun m hm => ⟨hcast m hm, hthrough m hm⟩

/-- A vote that was cast somewhere has been heard of there. -/
theorem hasVoter_of_cast [Fintype ι] (hcard : Fintype.card ι ≤ maxPeers + 1)
    (hP : P.length = publicKeySize) {tr : List (Move (Election ι) (Event ι))}
    (hrun : (election links SHA1 tail).Run (.initial links tail) tr s)
    (hcast : ∀ m ∈ tr, CastsPrefix P m) (hthrough : ∀ m ∈ tr, GetsThrough m) :
    ∀ t ∈ castIn tr, ∃ y, (s.peers y).HasVoter t.senderPublicKey := by
  induction hrun with
  | nil => simp [castIn]
  | @snoc u v tr e hrun hstep ih =>
      rw [List.forall_mem_append, List.forall_mem_singleton] at hcast hthrough
      obtain ⟨wire, hu⟩ := run_spreading hcard hP hrun hcast.1 hthrough.1
      intro t ht
      rw [castIn_append, List.mem_append] at ht
      rcases ht with ht | ht
      · obtain ⟨y, hy⟩ := ih hcast.1 hthrough.1 t ht
        exact ⟨y, hu.hasVoter_step hstep hthrough.2 y _ hy⟩
      · cases hstep with
        | @submit y t' =>
            obtain rfl : t = t' := by simpa [castIn, Event.cast?] using ht
            rw [decodeTransaction_encodeTransaction]
            refine ⟨y, ?_⟩
            rw [peers_pushTransaction_self]
            exact .inr ((u.peers y).isNext_push t)
        | _ => cases ht

/-- The voters that a peer has recorded, once everything is settled. -/
theorem mem_voters_of_settled [Fintype ι] (hcard : Fintype.card ι ≤ maxPeers + 1)
    (hP : P.length = publicKeySize) {tr : List (Move (Election ι) (Event ι))}
    (hrun : (election links SHA1 tail).Run (.initial links tail) tr s)
    (hcast : ∀ t ∈ castIn tr, P <+: t.senderPublicKey) (hthrough : ∀ m ∈ tr, GetsThrough m)
    (hsettled : s.Settled) (x : ι) {t : Transaction} (ht : t ∈ castIn tr) :
    t.senderPublicKey ∈ (s.peers x).voters := by
  have hcasts : ∀ m ∈ tr, CastsPrefix P m := fun m hm t ht =>
    hcast t (List.mem_filterMap.2 ⟨m, hm, ht⟩)
  obtain ⟨wire, hspreading⟩ := run_spreading hcard hP hrun hcasts hthrough
  obtain ⟨y, hy⟩ := hasVoter_of_cast hcard hP hrun hcasts hthrough t ht
  exact hspreading.told.spread hsettled (hsettled.mem_voters hy)

/-- What a peer has recorded was cast. -/
theorem mem_castIn_of_recorded {tr : List (Move (Election ι) (Event ι))}
    (hrun : (election links SHA1 tail).Run (.initial links tail) tr s) (x : ι) {t : Transaction}
    (ht : t ∈ (s.peers x).thread.recorded) : t ∈ castIn tr := by
  obtain ⟨-, -, hholds⟩ := @run_holdsOnly _ _ links SHA1 tail (· ∈ castIn tr) _ _ hrun
    fun t ht => ht
  exact (hholds x).recorded t ht

/-- At most eleven linked peers, with keys that begin alike, where calls get through
and no vote is overtaken: once everything is settled, all peers have recorded the
same voters, which are those who cast a vote, and nothing but votes that were cast. -/
theorem run_floods [Fintype ι] (hcard : Fintype.card ι ≤ maxPeers + 1)
    (hP : P.length = publicKeySize) {tr : List (Move (Election ι) (Event ι))}
    (hrun : (election links SHA1 tail).Run (.initial links tail) tr s)
    (hcast : ∀ t ∈ castIn tr, P <+: t.senderPublicKey) (hthrough : ∀ m ∈ tr, GetsThrough m)
    (hsettled : s.Settled) (x : ι) :
    (∀ t ∈ (s.peers x).thread.recorded, t ∈ castIn tr) ∧
      ∀ k, k ∈ (s.peers x).voters ↔ ∃ t ∈ castIn tr, t.senderPublicKey = k := by
  refine ⟨fun t ht => mem_castIn_of_recorded hrun x ht, fun k => ⟨fun hk => ?_, ?_⟩⟩
  · obtain ⟨t, ht, rfl⟩ := List.mem_map.1 hk
    exact ⟨t, mem_castIn_of_recorded hrun x ht, rfl⟩
  · rintro ⟨t, ht, rfl⟩
    exact mem_voters_of_settled hcard hP hrun hcast hthrough hsettled x ht

/-! ### A vote that reaches both of two peers -/

/-- After a call of both, each of two peers has the other in its list, and no one else. -/
theorem list_of_pair {n : PeerNetwork Bool} (h : n.Roomy pairLinks)
    (hrounds : ∀ z, 0 < n.rounds z) (x : Bool) :
    (n.clients x).peerClients = [(n.clients (!x)).myAddress] := by
  have hmem := h.linked.mem_of_joined (.inl rfl : Joined _ x (!x)) hrounds
  have honly : ∀ p, p ∈ (n.clients x).peerClients ↔ p ∈ [pairLinks.address (!x)] := by
    intro p
    rw [List.mem_singleton]
    refine ⟨fun hp => ?_, fun hp => hp ▸ hmem⟩
    obtain ⟨y, -, rfl⟩ := h.closed.listed x p hp
    by_cases hy : y = x
    · subst hy
      rw [← (h.closed.addressed y).1] at hp
      exact absurd hp (h.proper y).not_own
    · rw [Bool.eq_not_of_ne hy]
  have hperm := (List.perm_ext_iff_of_nodup (h.proper x).nodup (List.nodup_singleton _)).2 honly
  rw [(h.closed.addressed (!x)).1]
  exact List.perm_singleton.1 hperm

/-- The two peers of a pair can get to know each other before anything else happens. -/
theorem exists_bootstrapped (SHA1 : Bytes → Digest) (tail : GenesisTail) :
    ∃ tr s, (election pairLinks SHA1 tail).Run (.initial pairLinks tail)
        tr s ∧ (∀ m ∈ tr, ∃ x a, m.label = .access x a) ∧ (∀ z, s.peers z = .initial tail) ∧
      (∀ z, 0 < s.lists.rounds z) ∧
      ∀ x, (s.lists.clients x).peerClients = [(s.lists.clients (!x)).myAddress] := by
  have hinit := PeerNetwork.initial_separated pairLinks fun _ => ()
  obtain ⟨tr, n, hrun, hrounds⟩ := PeerNetwork.Closed.exists_rounds hinit 1
  have haccess : ∀ n a n', (peerNetwork pairLinks).step n a n' →
      (election pairLinks SHA1 tail).step ⟨fun _ => .initial tail, n⟩
        (.access a.1 a.2) ⟨fun _ => .initial tail, n'⟩ := fun _ _ _ hstep => .access hstep
  have hinv : (peerNetwork pairLinks).Invariant
      (Roomy pairLinks) := PeerNetwork.roomy_invariant (by decide)
  have hroomy := hinv.preserved.run hrun (hinv.init _ rfl) (by simp)
  let f : PeerNetwork Bool → Election Bool := fun n => ⟨fun _ => .initial tail, n⟩
  let g : Bool × Access Bool → Event Bool := fun a => .access a.1 a.2
  exact ⟨_, f n, TransitionSystem.Run.map (f := f) (g := g) haccess hrun,
    List.forall_mem_map.2 fun m _ => ⟨_, _, rfl⟩, fun _ => rfl, hrounds,
    list_of_pair hroomy hrounds⟩

/-- No vote is cast, and the step disturbs nothing. -/
def PassesOn (m : Move (Election ι) (Event ι)) : Prop := GetsThrough m ∧ m.label.cast? = none

omit [DecidableEq ι] in
theorem passesOn_of_process {m : Move (Election ι) (Event ι)}
    (h : ∃ x i effects, m.label = .process x i effects) : PassesOn m := by
  obtain ⟨x, i, effects, hlabel⟩ := h
  unfold PassesOn
  rw [hlabel]
  refine ⟨⟨fun x h => ?_, fun y t h => ?_, fun x h => ?_⟩, rfl⟩
  · cases hlabel.symm.trans h
  · rw [hlabel] at h
    cases h
  · cases hlabel.symm.trans h

/-- A peer with one peer in its list tells it of a vote. -/
theorem exists_told {x y : ι} {t : Transaction} (hxy : x ≠ y)
    (htodo : (s.peers x).todo = [.broadcastTransaction t]) (hcalls : (s.peers x).calls = none)
    (hlist : (s.lists.clients x).peerClients = [(s.lists.clients y).myAddress])
    (hempty : (s.peers y).tq = .empty) (hrounds : ∀ z, 0 < s.lists.rounds z) :
    ∃ tr s', (election links SHA1 tail).Run s tr s' ∧ (∀ m ∈ tr, PassesOn m) ∧
      s'.lists = s.lists ∧ s'.peers x = { s.peers x with todo := [] } ∧
      s'.peers y = { s.peers y with tq := ⟨[t]⟩ } := by
  have hyx := hxy.symm
  have hstart : Step SHA1 s (.start x) (s.called x [(s.lists.clients y).myAddress]) :=
    hlist ▸ .start htodo trivial hcalls
  let s₁ := s.called x [(s.lists.clients y).myAddress]
  have hdeliver : Step SHA1 s₁ (.deliverTransaction x y t) ((s₁.called x []).pushTransaction y
      (decodeTransaction (encodeTransaction t))) := by
    refine @Step.deliverTransaction ι _ SHA1 s₁ x y t [] [] ?_ ?_
    · rw [peers_called_self, htodo]
    · rw [peers_called_self]
      rfl
  rw [decodeTransaction_encodeTransaction] at hdeliver
  let s₂ := (s₁.called x []).pushTransaction y t
  have hpeer : s₂.peers x = { s.peers x with calls := some [] } := by
    rw [peers_pushTransaction_of_ne hxy, peers_called_self, peers_called_self]
  have hother : s₂.peers y = { s.peers y with tq := ⟨[t]⟩ } := by
    rw [peers_pushTransaction_self, peers_called_of_ne hyx, peers_called_of_ne hyx, hempty]
    rfl
  have hfinish : Step SHA1 s₂ (.finish x)
      (s₂.set x { s₂.peers x with todo := [], calls := none }) := by
    refine .finish (e := .broadcastTransaction t) ?_ trivial ?_
    · rw [hpeer, htodo]
    · rw [hpeer]
  refine ⟨_, _, .snoc (.snoc (.snoc .nil hstart) hdeliver) hfinish, ?_, rfl, ?_, ?_⟩
  · simp only [List.nil_append, List.cons_append, List.forall_mem_cons, List.not_mem_nil,
      false_imp_iff, implies_true, and_true]
    refine ⟨⟨⟨by simp, by simp [Event.arrives?], fun _ _ => hrounds⟩, rfl⟩,
      ⟨⟨by simp, ?_, by simp⟩, rfl⟩, ⟨⟨by simp, by simp [Event.arrives?], by simp⟩, rfl⟩⟩
    intro z u hu
    cases hu
    rw [peers_called_of_ne hyx]
    exact Peer.admits_of_empty hempty t
  · rw [peers_set_self, hpeer, ← hcalls]
  · rw [peers_set_of_ne hyx, hother]

/-- A peer with one peer in its list takes a new vote and tells that peer of it. -/
theorem exists_passed {x y : ι} {t : Transaction} {th th' : Thread} (hxy : x ≠ y)
    (hpeer : s.peers x = ⟨th, .empty, ⟨[t]⟩, [], none⟩) (hpoint : th.point = .head)
    (hquota : th.quotafull = false)
    (htake : ({ th with point := .pop } : Thread).takeTransaction t =
      .ok (th', [.broadcastTransaction t]))
    (hlist : (s.lists.clients x).peerClients = [(s.lists.clients y).myAddress])
    (hempty : (s.peers y).tq = .empty) (hrounds : ∀ z, 0 < s.lists.rounds z) :
    ∃ tr s', (election links SHA1 tail).Run s tr s' ∧ (∀ m ∈ tr, PassesOn m) ∧
      s'.lists = s.lists ∧ s'.peers x = ⟨th', .empty, .empty, [], none⟩ ∧
      s'.peers y = { s.peers y with tq := ⟨[t]⟩ } := by
  obtain ⟨tr, hrun, hlabels⟩ := exists_processed links SHA1 tail hpeer hpoint hquota htake
  let s₁ := s.set x ⟨th', .empty, .empty, [.broadcastTransaction t], none⟩
  have hself : s₁.peers x = ⟨th', .empty, .empty, [.broadcastTransaction t], none⟩ :=
    peers_set_self _ _ _
  have hother : s₁.peers y = s.peers y := peers_set_of_ne hxy.symm _
  obtain ⟨tr', s', hrun', hpasses, hlists, hx, hy⟩ := @exists_told _ _ links SHA1 tail s₁ x y t
    hxy (by rw [hself]) (by rw [hself]) hlist (by rw [hother, hempty]) hrounds
  rw [hself] at hx
  rw [hother] at hy
  refine ⟨_, s', hrun.append hrun', List.forall_mem_append.2 ⟨fun m hm => ?_, hpasses⟩, hlists,
    hx, hy⟩
  obtain ⟨i, effects, hlabel⟩ := hlabels m hm
  exact passesOn_of_process ⟨x, i, effects, hlabel⟩

/-- A vote is cast at one of two peers, which know each other, and reaches the other. -/
theorem exists_flooded_run :
    ∃ tr s, (election pairLinks Block.sampleSHA1 Blockchain.sampleTail).Run
        (.initial pairLinks Blockchain.sampleTail) tr s ∧
      castIn tr = [sampleVote] ∧ (∀ m ∈ tr, GetsThrough m) ∧ s.Settled := by
  obtain ⟨tr₀, s₀, hrun₀, haccess, hpeers, hrounds, hlist⟩ :=
    exists_bootstrapped Block.sampleSHA1 Blockchain.sampleTail
  obtain ⟨th, htake, hpoint, hquota, hagain⟩ := exists_took_sampleVote
  have hsubmit := @Step.submit Bool _ Block.sampleSHA1 s₀ false sampleVote
  rw [decodeTransaction_encodeTransaction] at hsubmit
  have hone : (s₀.pushTransaction false sampleVote).peers false =
      ⟨.initial Blockchain.sampleTail, .empty, ⟨[sampleVote]⟩, [], none⟩ := by
    rw [peers_pushTransaction_self, hpeers]
    rfl
  have htwo : (s₀.pushTransaction false sampleVote).peers true =
      .initial Blockchain.sampleTail := by
    rw [peers_pushTransaction_of_ne (by decide), hpeers]
  obtain ⟨tr₁, s₁, hrun₁, hpasses₁, hlists₁, hone₁, htwo₁⟩ :=
    @exists_passed _ _ pairLinks Block.sampleSHA1 Blockchain.sampleTail _ false true
      _ _ _ (by decide) hone rfl rfl htake (hlist false) (by rw [htwo]; rfl) hrounds
  rw [htwo] at htwo₁
  obtain ⟨tr₂, s₂, hrun₂, hpasses₂, -, htwo₂, hone₂⟩ :=
    @exists_passed _ _ pairLinks Block.sampleSHA1 Blockchain.sampleTail _ true false
      _ _ _ (by decide) htwo₁ rfl rfl htake (hlists₁ ▸ hlist true) (by rw [hone₁])
      (hlists₁ ▸ hrounds)
  rw [hone₁] at hone₂
  -- the vote has come back, and is discarded
  obtain ⟨tr₃, hrun₃, hlabels₃⟩ := exists_processed pairLinks Block.sampleSHA1
    Blockchain.sampleTail hone₂ hpoint hquota hagain
  have hpasses₃ : ∀ m ∈ tr₃, PassesOn m := by
    intro m hm
    obtain ⟨i, effects, hlabel⟩ := hlabels₃ m hm
    exact passesOn_of_process ⟨false, i, effects, hlabel⟩
  have hpasses := List.forall_mem_append.2 ⟨List.forall_mem_append.2 ⟨hpasses₁, hpasses₂⟩, hpasses₃⟩
  refine ⟨_, _, hrun₀.append (.cons hsubmit ((hrun₁.append hrun₂).append hrun₃)), ?_,
    List.forall_mem_append.2 ⟨fun m hm => ?_, List.forall_mem_cons.2 ⟨?_, fun m hm =>
      (hpasses m hm).1⟩⟩, fun z => ?_⟩
  · have hnil₀ : castIn tr₀ = [] := castIn_eq_nil fun m hm => by
      obtain ⟨x, a, hlabel⟩ := haccess m hm
      rw [hlabel]
      rfl
    have hnil := castIn_eq_nil fun m hm => (hpasses m hm).2
    rw [castIn_append, castIn_cons, hnil₀, hnil]
    rfl
  · obtain ⟨x, a, hlabel⟩ := haccess m hm
    exact ⟨by simp [hlabel], by simp [hlabel, Event.arrives?], by simp [hlabel]⟩
  · refine ⟨by simp, fun y t harrives => ?_, by simp⟩
    cases harrives
    exact Peer.admits_of_empty (by rw [hpeers]; rfl) sampleVote
  · cases z with
    | false =>
        rw [peers_set_self]
        exact ⟨rfl, rfl⟩
    | true =>
        rw [peers_set_of_ne (by decide), htwo₂]
        exact ⟨rfl, rfl⟩

/-- One of two peers tells the other of a vote. -/
theorem run_floods_pair :
    ∃ tr s, (election pairLinks Block.sampleSHA1 Blockchain.sampleTail).Run
        (.initial pairLinks Blockchain.sampleTail) tr s ∧
      castIn tr = [sampleVote] ∧ (∀ t ∈ (s.peers true).thread.recorded, t ∈ castIn tr) ∧
      ∀ k, k ∈ (s.peers true).voters ↔ ∃ t ∈ castIn tr, t.senderPublicKey = k := by
  obtain ⟨tr, s, hrun, hcast, hthrough, hsettled⟩ := exists_flooded_run
  refine ⟨tr, s, hrun, hcast, @run_floods _ _ _ _ Block.sampleKey _ _ _ (by decide) rfl _ hrun ?_
    hthrough hsettled true⟩
  rw [hcast]
  simp [sampleVote]

end Election

end OneVote
