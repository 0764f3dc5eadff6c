-- SUMMARY: The whole system: peers with their threads, queues and peer lists, the calls between them, and the votes that booths cast.
import OneVote.Base.Simulation
import OneVote.Connectivity
import OneVote.Network
import OneVote.Queues
import OneVote.RoundTrip
import OneVote.VoteOrigins

/-!
# Elections

A peer runs the processing thread and the server. What the thread has to do
after a step it does one by one: it pushes to its own `tq`, and a broadcast calls
the peers of its list, as the list was when the broadcast began, one after the
other. A call reaches the handler of the called peer or fails. What peers answer
to `getBlock` is left open.
-/

namespace OneVote

open TransitionSystem (Move Simulation)

structure Peer where
  thread : Thread
  bq : SynchronizedQueue BlockRef
  tq : SynchronizedQueue Transaction
  /-- what the thread has still to do before it goes on -/
  todo : List Effect
  /-- the peers that the broadcast under way has still to call -/
  calls : Option (List Bytes)

namespace Peer

def initial (tail : GenesisTail) : Peer := ⟨.initial tail, .empty, .empty, [], none⟩

/-- The peer without the calls that it makes. -/
def node (p : Peer) : Node := ⟨p.thread, p.bq, p.tq, pushes p.todo⟩

/-- What the peer received, and what it is about to send, is on the wire and
has no votes. -/
structure Hears (wire : List BlockMsg) (p : Peer) : Prop where
  bq : ∀ r ∈ p.bq.queue, ∃ msg ∈ wire, msg.IsEmpty ∧ decodeBlock msg = .ok r.block
  todo : ∀ b msg, .broadcastBlock b ∈ p.todo → encodeBlock b = .ok msg → msg ∈ wire ∧ msg.IsEmpty

theorem initial_hears (tail : GenesisTail) (wire : List BlockMsg) : (initial tail).Hears wire where
  bq := by
    intro r hr
    cases hr
  todo := by
    intro b msg hb
    cases hb

theorem Hears.mono {p : Peer} {wire wire' : List BlockMsg} (h : p.Hears wire)
    (hsub : wire ⊆ wire') : p.Hears wire' where
  bq r hr := by
    obtain ⟨msg, hmsg, hdecode⟩ := h.bq r hr
    exact ⟨msg, hsub hmsg, hdecode⟩
  todo b msg hb hencode := (h.todo b msg hb hencode).imp_left (@hsub msg)

variable {SHA1 : Bytes → Digest} {wire : List BlockMsg} {p : Peer}

/-- What a pointer that `bq` hands out leads to was decoded from an empty message. -/
theorem Hears.handed (h : p.Hears wire) {r : BlockRef} {bq : SynchronizedQueue BlockRef}
    (hpop : p.bq.popNonblocking = (some r, bq)) :
    ∃ msg ∈ wire, msg.IsEmpty ∧ decodeBlock msg = .ok r.block := by
  obtain ⟨hne, -⟩ := SynchronizedQueue.popNonblocking_eq_some hpop
  rw [SynchronizedQueue.popNonblocking_nonempty hne] at hpop
  exact h.bq r (List.mem_of_getLast? (Prod.mk.inj hpop).1)

/-- A step of a thread in its node is one in the network, and takes no votes. -/
theorem Hears.delivers (h : p.Hears wire) {i : Input} {effects : List Effect} {n : Node}
    (hstep : Node.Step SHA1 p.node (.process i effects) n) :
    (∀ b env, i = .block (some b) env → ∃ msg ∈ wire, msg.IsEmpty ∧ decodeBlock msg = .ok b) ∧
      Thread.Step SHA1 p.thread (i, effects) n.thread := by
  cases hstep with
  | @takeBlock r? b? env effects bq th hpending hpop hb hthread =>
      refine ⟨fun c env' hc => ?_, hthread⟩
      cases hc
      cases r? with
      | none => cases hb
      | some r =>
          cases hb
          exact h.handed hpop
  | takeTransaction hpending hpop hthread =>
      refine ⟨fun c env' hc => ?_, hthread⟩
      cases hc
  | mine hpending hthread =>
      refine ⟨fun c env' hc => ?_, hthread⟩
      cases hc

/-- What a peer that hears only empty messages keeps in `bq`, and what it is
about to send. -/
theorem Hears.process (h : p.Hears wire) {i : Input} {effects : List Effect} {n : Node}
    (hstep : Node.Step SHA1 p.node (.process i effects) n)
    (hsent : ∀ b msg, .broadcastBlock b ∈ effects → encodeBlock b = .ok msg → msg ∈ wire) :
    (⟨n.thread, n.bq, n.tq, effects, none⟩ : Peer).Hears wire where
  bq := by
    cases hstep with
    | @takeBlock r? b? env effects bq th hpending hpop hb hthread =>
        intro c hc
        refine h.bq c ?_
        cases r? with
        | none =>
            rw [Thread.settle, SynchronizedQueue.popNonblocking_eq_none hpop] at hc
            cases hc
        | some r =>
            obtain ⟨msg, -, hempty, hdecode⟩ := h.handed hpop
            have hnot : p.thread.bc.checkBlockValidity r.block ≠ .ok .ok := by
              intro hok
              obtain ⟨-, -, -, hpop, -⟩ := Blockchain.checkBlockValidity_eq_ok.1 hok
              exact (hempty.decoded hdecode).2.2 hpop
            have hsettle : p.node.thread.settle (some r) bq = bq :=
              Thread.settle_of_not_ok hpop hnot
            obtain ⟨-, rfl⟩ := SynchronizedQueue.popNonblocking_eq_some hpop
            rw [hsettle] at hc
            exact List.mem_of_mem_tail hc
    | takeTransaction => exact h.bq
    | mine => exact h.bq
  todo := by
    intro b msg hb hencode
    obtain ⟨hdelivers, hthread⟩ := h.delivers hstep
    refine ⟨hsent b msg hb hencode, encodeBlock_isEmpty hencode ?_⟩
    refine hthread.change.maxInd_broadcast (fun c env hc => ?_) hb
    obtain ⟨msg, -, hempty, hdecode⟩ := hdelivers c env hc
    exact ⟨(hempty.decoded hdecode).1, (hempty.decoded hdecode).2.2⟩

end Peer

/-- The effect is a call of `BroadcastBlock` or of `BroadcastTransaction`. -/
def Effect.IsBroadcast : Effect → Prop
  | .broadcastBlock _ | .broadcastTransaction _ => True
  | .push _ => False

theorem pushes_of_isBroadcast {e : Effect} (h : e.IsBroadcast) (effects : List Effect) :
    pushes (e :: effects) = pushes effects := by
  cases e with
  | broadcastBlock b => rfl
  | broadcastTransaction t => rfl
  | push t => exact h.elim

structure Election (ι : Type*) where
  peers : ι → Peer
  lists : PeerNetwork ι

namespace Election

inductive Event (ι : Type*)
  /-- a voting booth sends a vote to a peer of its own list -/
  | submit (y : ι) (t : Transaction)
  | process (x : ι) (i : Input) (effects : List Effect)
  /-- the thread pushes a transaction back -/
  | handBack (x : ι)
  /-- a broadcast begins to iterate over the list -/
  | start (x : ι)
  | deliverBlock (x y : ι) (b : Block)
  | deliverTransaction (x y : ι) (t : Transaction)
  /-- a call returns with a status that is not OK, and nothing was pushed -/
  | fail (x : ι)
  | finish (x : ι)
  /-- a step of `bootstrapPeers` -/
  | access (x : ι) (a : Access ι)

variable {ι : Type*} [DecidableEq ι]

def initial (links : Links ι) (tail : GenesisTail) : Election ι :=
  ⟨fun _ => .initial tail, .initial links⟩

def set (s : Election ι) (x : ι) (p : Peer) : Election ι :=
  { s with peers := Function.update s.peers x p }

/-- The call under way at `x` is over, and `ps` are still to be called. -/
def called (s : Election ι) (x : ι) (ps : List Bytes) : Election ι :=
  s.set x { s.peers x with calls := some ps }

def pushBlock (s : Election ι) (y : ι) (b : Block) : Election ι :=
  s.set y { s.peers y with bq := (s.peers y).bq.push (.new b) }

def pushTransaction (s : Election ι) (y : ι) (t : Transaction) : Election ι :=
  s.set y { s.peers y with tq := (s.peers y).tq.push t }

inductive Step (SHA1 : Bytes → Digest) : Election ι → Event ι → Election ι → Prop
  | submit {s : Election ι} {y : ι} {t : Transaction} :
      Step SHA1 s (.submit y t) (s.pushTransaction y (decodeTransaction (encodeTransaction t)))
  | process {s : Election ι} {x : ι} {i : Input} {effects : List Effect} {n : Node} :
      (s.peers x).todo = [] →
      Node.Step SHA1 (s.peers x).node (.process i effects) n →
      Step SHA1 s (.process x i effects) (s.set x ⟨n.thread, n.bq, n.tq, effects, none⟩)
  | handBack {s : Election ι} {x : ι} {t : Transaction} {rest : List Effect} :
      (s.peers x).todo = .push t :: rest →
      Step SHA1 s (.handBack x)
        (s.set x { s.peers x with tq := (s.peers x).tq.push t, todo := rest })
  | start {s : Election ι} {x : ι} {e : Effect} {rest : List Effect} :
      (s.peers x).todo = e :: rest → e.IsBroadcast → (s.peers x).calls = none →
      Step SHA1 s (.start x) (s.called x (s.lists.clients x).peerClients)
  | deliverBlock {s : Election ι} {x y : ι} {b b' : Block} {msg : BlockMsg} {rest : List Effect}
      {ps : List Bytes} :
      (s.peers x).todo = .broadcastBlock b :: rest →
      (s.peers x).calls = some ((s.lists.clients y).myAddress :: ps) →
      encodeBlock b = .ok msg → decodeBlock msg = .ok b' →
      Step SHA1 s (.deliverBlock x y b') ((s.called x ps).pushBlock y b')
  | deliverTransaction {s : Election ι} {x y : ι} {t : Transaction} {rest : List Effect}
      {ps : List Bytes} :
      (s.peers x).todo = .broadcastTransaction t :: rest →
      (s.peers x).calls = some ((s.lists.clients y).myAddress :: ps) →
      Step SHA1 s (.deliverTransaction x y t)
        ((s.called x ps).pushTransaction y (decodeTransaction (encodeTransaction t)))
  | fail {s : Election ι} {x : ι} {p : Bytes} {ps : List Bytes} :
      (s.peers x).calls = some (p :: ps) → Step SHA1 s (.fail x) (s.called x ps)
  | finish {s : Election ι} {x : ι} {e : Effect} {rest : List Effect} :
      (s.peers x).todo = e :: rest → e.IsBroadcast → (s.peers x).calls = some [] →
      Step SHA1 s (.finish x) (s.set x { s.peers x with todo := rest, calls := none })
  | access {s : Election ι} {x : ι} {a : Access ι} {lists : PeerNetwork ι} :
      PeerNetwork.Step s.lists (x, a) lists →
      Step SHA1 s (.access x a) { s with lists := lists }

end Election

def election {ι : Type*} [DecidableEq ι] (links : Links ι) (SHA1 : Bytes → Digest)
    (tail : GenesisTail) : TransitionSystem (Election ι) (Election.Event ι) where
  init s := s = .initial links tail
  step := Election.Step SHA1

namespace Election

variable {ι : Type*} [DecidableEq ι] {SHA1 : Bytes → Digest} {s s' : Election ι} {e : Event ι}

@[simp] theorem peers_set_self (s : Election ι) (x : ι) (p : Peer) :
    (s.set x p).peers x = p := Function.update_self _ _ _

theorem peers_set_of_ne {s : Election ι} {x z : ι} (h : z ≠ x) (p : Peer) :
    (s.set x p).peers z = s.peers z := Function.update_of_ne h _ _

@[simp] theorem peers_called_self (s : Election ι) (x : ι) (ps : List Bytes) :
    (s.called x ps).peers x = { s.peers x with calls := some ps } := peers_set_self _ _ _

theorem peers_called_of_ne {s : Election ι} {x z : ι} (h : z ≠ x) (ps : List Bytes) :
    (s.called x ps).peers z = s.peers z := peers_set_of_ne h _

@[simp] theorem peers_pushTransaction_self (s : Election ι) (y : ι) (t : Transaction) :
    (s.pushTransaction y t).peers y = { s.peers y with tq := (s.peers y).tq.push t } :=
  peers_set_self _ _ _

theorem peers_pushTransaction_of_ne {s : Election ι} {y z : ι} (h : z ≠ y) (t : Transaction) :
    (s.pushTransaction y t).peers z = s.peers z := peers_set_of_ne h _

/-! ## The peer lists -/

/-- The access to a peer list that an event is. -/
def Event.access? : Event ι → Option (ι × Access ι)
  | .access x a => some (x, a)
  | _ => none

theorem lists_simulation (links : Links ι) (SHA1 : Bytes → Digest) (tail : GenesisTail) :
    Simulation (election links SHA1 tail) (peerNetwork links) (fun _ => True) (·.lists)
      fun m => m.label.access? where
  init := by
    rintro s rfl
    rfl
  quiet := by
    intro s e t hstep _ hg
    cases hstep with
    | access => cases hg
    | _ => rfl
  seen := by
    intro s e t j hstep _ hg
    cases hstep with
    | access h =>
        cases hg
        exact h
    | _ => cases hg

/-! ## One peer with its queues -/

/-- What an event is for the peer `z`. -/
def Event.node? (z : ι) : Event ι → Option Node.Event
  | .submit y t => if y = z then some (.receiveTransaction t) else none
  | .process x i effects => if x = z then some (.process i effects) else none
  | .handBack x => if x = z then some .handBack else none
  | .deliverBlock _ y b => if y = z then some (.receiveBlock b) else none
  | .deliverTransaction _ y t => if y = z then some (.receiveTransaction t) else none
  | _ => none

theorem node_called (s : Election ι) (x z : ι) (ps : List Bytes) :
    ((s.called x ps).peers z).node = (s.peers z).node := by
  by_cases h : z = x
  · subst h
    rw [peers_called_self]
    rfl
  · rw [peers_called_of_ne h]

theorem node_pushBlock_self (s : Election ι) (y : ι) (b : Block) :
    ((s.pushBlock y b).peers y).node =
      { (s.peers y).node with bq := (s.peers y).node.bq.push (.new b) } := by
  unfold pushBlock
  rw [peers_set_self]
  rfl

theorem node_pushTransaction_self (s : Election ι) (y : ι) (t : Transaction) :
    ((s.pushTransaction y t).peers y).node =
      { (s.peers y).node with tq := (s.peers y).node.tq.push t } := by
  rw [peers_pushTransaction_self]
  rfl

/-- What a step does at the peer `z`: what the event says, or nothing. -/
theorem Step.node_cases (hs : Step SHA1 s e s') (z : ι) :
    e.node? z = none ∧ (s'.peers z).node = (s.peers z).node ∨
      ∃ event, e.node? z = some event ∧
        Node.Step SHA1 (s.peers z).node event (s'.peers z).node := by
  cases hs with
  | @submit y t =>
      by_cases h : y = z
      · subst h
        refine .inr ⟨.receiveTransaction t, if_pos rfl, ?_⟩
        rw [node_pushTransaction_self, decodeTransaction_encodeTransaction]
        exact .receiveTransaction
      · refine .inl ⟨if_neg h, ?_⟩
        rw [peers_pushTransaction_of_ne (Ne.symm h)]
  | @process x i effects n htodo hstep =>
      by_cases h : x = z
      · subst h
        refine .inr ⟨.process i effects, if_pos rfl, ?_⟩
        rw [peers_set_self]
        cases hstep with
        | takeBlock hpending hpop hb hthread => exact .takeBlock hpending hpop hb hthread
        | takeTransaction hpending hpop hthread => exact .takeTransaction hpending hpop hthread
        | mine hpending hthread => exact .mine hpending hthread
      · refine .inl ⟨if_neg h, ?_⟩
        rw [peers_set_of_ne (Ne.symm h)]
  | @handBack x t rest htodo =>
      by_cases h : x = z
      · subst h
        refine .inr ⟨.handBack, if_pos rfl, ?_⟩
        have hpending : (s.peers x).node.pending = t :: pushes rest := by
          rw [Peer.node, htodo]
          rfl
        rw [peers_set_self]
        exact .handBack hpending
      · refine .inl ⟨if_neg h, ?_⟩
        rw [peers_set_of_ne (Ne.symm h)]
  | start => exact .inl ⟨rfl, node_called s _ z _⟩
  | @deliverBlock x y b b' msg rest ps htodo hcalls hencode hdecode =>
      by_cases h : y = z
      · subst h
        refine .inr ⟨.receiveBlock b', if_pos rfl, ?_⟩
        rw [node_pushBlock_self, node_called]
        exact .receiveBlock
      · refine .inl ⟨if_neg h, ?_⟩
        rw [pushBlock, peers_set_of_ne (Ne.symm h), node_called]
  | @deliverTransaction x y t rest ps htodo hcalls =>
      by_cases h : y = z
      · subst h
        refine .inr ⟨.receiveTransaction t, if_pos rfl, ?_⟩
        rw [node_pushTransaction_self, node_called, decodeTransaction_encodeTransaction]
        exact .receiveTransaction
      · refine .inl ⟨if_neg h, ?_⟩
        rw [peers_pushTransaction_of_ne (Ne.symm h), node_called]
  | fail => exact .inl ⟨rfl, node_called s _ z _⟩
  | @finish x e rest htodo hbroadcast hcalls =>
      -- of what is left to do, the queues see only the pushes
      refine .inl ⟨rfl, ?_⟩
      by_cases h : z = x
      · subst h
        rw [peers_set_self]
        unfold Peer.node
        rw [htodo, pushes_of_isBroadcast hbroadcast]
      · rw [peers_set_of_ne h]
  | access => exact .inl ⟨rfl, rfl⟩

theorem node_simulation (links : Links ι) (SHA1 : Bytes → Digest) (tail : GenesisTail) (z : ι) :
    Simulation (election links SHA1 tail) (node SHA1 tail) (fun _ => True)
      (fun s => (s.peers z).node) fun m => m.label.node? z where
  init := by
    rintro s rfl
    rfl
  quiet := by
    intro s e t hstep _ hg
    rcases Step.node_cases hstep z with ⟨-, hsame⟩ | ⟨event, hevent, -⟩
    · exact hsame
    · cases hg.symm.trans hevent
  seen := by
    intro s e t j hstep _ hg
    rcases Step.node_cases hstep z with ⟨hnone, -⟩ | ⟨event, hevent, hnode⟩
    · cases hg.symm.trans hnone
    · cases hg.symm.trans hevent
      exact hnode

/-! ## The threads and the blocks between them -/

/-- The step of a thread that an event is. -/
def Event.thread? : Event ι → Option (ι × Input × List Effect)
  | .process x i effects => some (x, i, effects)
  | _ => none

/-- The messages of all blocks that were to be broadcast. -/
def wireAfter (wire : List BlockMsg) : Event ι → List BlockMsg
  | .process _ _ effects => wire ++ Network.sent effects
  | _ => wire

/-- The threads, with the messages on the wire. -/
def network (s : Election ι × List BlockMsg) : Network ι := ⟨fun x => (s.1.peers x).thread, s.2⟩

/-- What holds of every peer before the step, and of the one that it changes
after it, holds of every peer after it. -/
theorem forall_set {P : Peer → Prop} {s : Election ι} {x : ι} {p : Peer}
    (h : ∀ z, P (s.peers z)) (hp : P p) : ∀ z, P ((s.set x p).peers z) := by
  intro z
  by_cases hz : z = x
  · subst hz
    rwa [peers_set_self]
  · rw [peers_set_of_ne hz]
    exact h z

theorem mem_sent_of_encode {effects : List Effect} {b : Block} {msg : BlockMsg}
    (hb : .broadcastBlock b ∈ effects) (hencode : encodeBlock b = .ok msg) :
    msg ∈ Network.sent effects := by
  refine List.mem_filterMap.2 ⟨_, hb, ?_⟩
  simp [hencode, Except.toOption]

omit [DecidableEq ι] in
/-- A step of a thread in its node is one in the network. -/
theorem node_delivers {wire : List BlockMsg} (h : ∀ z, (s.peers z).Hears wire) {x : ι} {i : Input}
    {effects : List Effect} {n : Node}
    (hstep : Node.Step SHA1 (s.peers x).node (.process i effects) n) :
    (network (s, wire)).Delivers i ∧
      Thread.Step SHA1 (s.peers x).thread (i, effects) n.thread := by
  obtain ⟨hdelivers, hthread⟩ := (h x).delivers hstep
  refine ⟨fun b env hb => ?_, hthread⟩
  obtain ⟨msg, hmsg, -, hdecode⟩ := hdelivers b env hb
  exact ⟨msg, hmsg, hdecode⟩

theorem Step.hears {wire : List BlockMsg} (hs : Step SHA1 s e s')
    (h : ∀ z, (s.peers z).Hears wire) : ∀ z, (s'.peers z).Hears (wireAfter wire e) := by
  have hcalled : ∀ x ps z, ((s.called x ps).peers z).Hears wire :=
    fun x ps => forall_set h ⟨(h x).bq, (h x).todo⟩
  cases hs with
  | @submit y t => exact forall_set h ⟨(h y).bq, (h y).todo⟩
  | @process x i effects n htodo hstep =>
      have hmono : ∀ z, (s.peers z).Hears (wire ++ Network.sent effects) :=
        fun z => (h z).mono (List.subset_append_left _ _)
      exact forall_set hmono ((hmono x).process hstep fun b msg hb hencode =>
        List.mem_append_right _ (mem_sent_of_encode hb hencode))
  | @handBack x t rest htodo =>
      refine forall_set h ⟨(h x).bq, fun b msg hb => (h x).todo b msg ?_⟩
      rw [htodo]
      exact List.mem_cons_of_mem _ hb
  | start => exact hcalled _ _
  | @deliverBlock x y b b' msg rest ps htodo hcalls hencode hdecode =>
      obtain ⟨hmsg, hempty⟩ := (h x).todo b msg (by rw [htodo]; exact List.mem_cons_self) hencode
      refine forall_set (hcalled x ps) ⟨fun c hc => ?_, (hcalled x ps y).todo⟩
      rcases List.mem_append.1 hc with hc | hc
      · exact (hcalled x ps y).bq c hc
      · rw [List.mem_singleton.1 hc]
        exact ⟨msg, hmsg, hempty, hdecode⟩
  | @deliverTransaction x y t rest ps =>
      exact forall_set (hcalled x ps) ⟨(hcalled x ps y).bq, (hcalled x ps y).todo⟩
  | fail => exact hcalled _ _
  | @finish x e rest htodo =>
      refine forall_set h ⟨(h x).bq, fun b msg hb => (h x).todo b msg ?_⟩
      rw [htodo]
      exact List.mem_cons_of_mem _ hb
  | access => exact h

/-- The threads after a change of one peer. -/
theorem threads_set (s : Election ι) (x : ι) (p : Peer) :
    (fun z => ((s.set x p).peers z).thread) =
      Function.update (fun z => (s.peers z).thread) x p.thread := by
  funext z
  by_cases hz : z = x
  · subst hz
    rw [peers_set_self, Function.update_self]
  · rw [peers_set_of_ne hz, Function.update_of_ne hz]

/-- A change of one peer that leaves its thread alone. -/
theorem threads_set_of_eq {s : Election ι} {x : ι} {p : Peer}
    (h : p.thread = (s.peers x).thread) :
    (fun z => ((s.set x p).peers z).thread) = fun z => (s.peers z).thread := by
  rw [threads_set, h]
  exact Function.update_eq_self x _

/-- A thread takes the vote that its `tq` hands out, or leaves `tq` alone. -/
theorem tq_cases {n n' : Node} {i : Input} {effects : List Effect}
    (hstep : Node.Step SHA1 n (.process i effects) n') :
    i.taken = [] ∧ n'.tq = n.tq ∨
      ∃ t, i = .transaction t ∧ n.tq.queue.getLast? = some t ∧ n'.tq = ⟨n.tq.queue.tail⟩ := by
  cases hstep with
  | takeBlock => exact .inl ⟨rfl, rfl⟩
  | @takeTransaction t effects tq th hpending hpop =>
      obtain ⟨hback, rfl⟩ := SynchronizedQueue.pop_eq_some.1 hpop
      exact .inr ⟨t, rfl, hback, rfl⟩
  | mine => exact .inl ⟨rfl, rfl⟩

theorem mem_tq_of_taken {n n' : Node} {i : Input} {effects : List Effect}
    (hstep : Node.Step SHA1 n (.process i effects) n') {t : Transaction} (ht : t ∈ i.taken) :
    t ∈ n.tq.queue := by
  rcases tq_cases hstep with ⟨hnil, -⟩ | ⟨u, rfl, hback, -⟩
  · rw [hnil] at ht
    cases ht
  · rw [List.mem_singleton.1 ht]
    exact List.mem_of_getLast? hback

/-- What a step does to the threads: one step of one thread, or nothing. -/
theorem Step.threads_cases {wire : List BlockMsg} (hs : Step SHA1 s e s')
    (h : ∀ z, (s.peers z).Hears wire) :
    e.thread? = none ∧ network (s', wireAfter wire e) = network (s, wire) ∨
      ∃ label, e.thread? = some label ∧
        Network.Step SHA1 (network (s, wire)) label (network (s', wireAfter wire e)) := by
  have hsame : ∀ u : Election ι, (fun z => (u.peers z).thread) = (fun z => (s.peers z).thread) →
      network (u, wire) = network (s, wire) := by
    intro u hu
    unfold network
    rw [hu]
  have hcalled : ∀ x ps, (fun z => ((s.called x ps).peers z).thread) =
      fun z => (s.peers z).thread := fun x ps => threads_set_of_eq rfl
  cases hs with
  | submit => exact .inl ⟨rfl, hsame _ (threads_set_of_eq rfl)⟩
  | @process x i effects n htodo hstep =>
      -- the block that the thread takes was sent by some thread before
      obtain ⟨hdelivers, hthread⟩ := node_delivers h hstep
      refine .inr ⟨(x, i, effects), rfl, ?_⟩
      have hnext := Network.Step.step hdelivers hthread
      have hthreads := threads_set s x ⟨n.thread, n.bq, n.tq, effects, none⟩
      unfold network wireAfter
      rw [hthreads]
      exact hnext
  | handBack => exact .inl ⟨rfl, hsame _ (threads_set_of_eq rfl)⟩
  | start => exact .inl ⟨rfl, hsame _ (hcalled _ _)⟩
  | @deliverBlock x y b b' msg rest ps =>
      have hpush : (fun z => (((s.called x ps).pushBlock y b').peers z).thread) =
          fun z => ((s.called x ps).peers z).thread := threads_set_of_eq rfl
      exact .inl ⟨rfl, hsame _ (hpush.trans (hcalled x ps))⟩
  | @deliverTransaction x y t rest ps =>
      have hpush : (fun z => (((s.called x ps).pushTransaction y
          (decodeTransaction (encodeTransaction t))).peers z).thread) =
            fun z => ((s.called x ps).peers z).thread := threads_set_of_eq rfl
      exact .inl ⟨rfl, hsame _ (hpush.trans (hcalled x ps))⟩
  | fail => exact .inl ⟨rfl, hsame _ (hcalled _ _)⟩
  | finish => exact .inl ⟨rfl, hsame _ (threads_set_of_eq rfl)⟩
  | access => exact .inl ⟨rfl, rfl⟩

/-- The system with the record of what was to be broadcast. -/
abbrev wired (links : Links ι) (SHA1 : Bytes → Digest) (tail : GenesisTail) :
    TransitionSystem (Election ι × List BlockMsg) (Event ι) :=
  (election links SHA1 tail).withHistory wireAfter []

theorem hears_invariant (links : Links ι) (SHA1 : Bytes → Digest) (tail : GenesisTail) :
    (wired links SHA1 tail).Invariant fun s => ∀ z, (s.1.peers z).Hears s.2 where
  init := by
    rintro ⟨s, wire⟩ ⟨rfl, rfl⟩ z
    exact Peer.initial_hears tail []
  step := by
    rintro ⟨s, wire⟩ e ⟨s', wire'⟩ ⟨hstep, rfl⟩ h
    exact Step.hears hstep h

/-- An invariant of the network of threads, together with what the peers hear of it. -/
theorem network_invariant {P : Network ι → Prop} {tail : GenesisTail} (links : Links ι)
    (hP : (OneVote.network ι SHA1 tail).Invariant P) :
    (wired links SHA1 tail).Invariant
      fun s => (∀ z, (s.1.peers z).Hears s.2) ∧ P (network s) where
  init := by
    rintro ⟨s, wire⟩ ⟨rfl, rfl⟩
    exact ⟨fun z => Peer.initial_hears tail [], hP.init _ rfl⟩
  step := by
    rintro ⟨s, wire⟩ e ⟨s', wire'⟩ ⟨hstep, rfl⟩ ⟨hhears, h⟩
    refine ⟨hstep.hears hhears, ?_⟩
    rcases hstep.threads_cases hhears with ⟨-, hsame⟩ | ⟨label, -, hnext⟩
    · rwa [hsame]
    · exact hP.step _ _ _ hnext h

theorem network_simulation (links : Links ι) (SHA1 : Bytes → Digest) (tail : GenesisTail) :
    Simulation (wired links SHA1 tail) (OneVote.network ι SHA1 tail)
      (fun s => ∀ z, (s.1.peers z).Hears s.2) network fun m => m.label.thread? where
  init := by
    rintro ⟨s, wire⟩ ⟨rfl, rfl⟩
    rfl
  quiet := by
    rintro ⟨s, wire⟩ e ⟨s', wire'⟩ ⟨hstep, rfl⟩ h hg
    rcases Step.threads_cases hstep h with ⟨-, hsame⟩ | ⟨label, hlabel, -⟩
    · exact hsame
    · cases hg.symm.trans hlabel
  seen := by
    rintro ⟨s, wire⟩ e ⟨s', wire'⟩ j ⟨hstep, rfl⟩ h hg
    rcases Step.threads_cases hstep h with ⟨hnone, -⟩ | ⟨label, hlabel, hnext⟩
    · cases hg.symm.trans hnone
    · cases hg.symm.trans hlabel
      exact hnext

/-! ## Runs -/

/-- A run of the whole system is a run of the peer lists, a run of each peer
with its queues, and a run of the threads and the blocks between them. What
holds of all runs of the parts holds of all runs of the whole. -/
theorem run_projects {links : Links ι} {tail : GenesisTail} {s : Election ι}
    {tr : List (Move (Election ι) (Event ι))}
    (hrun : (election links SHA1 tail).Run (.initial links tail) tr s) :
    (∃ tr', (peerNetwork links).Run (.initial links) tr' s.lists ∧
        tr'.map (·.label) = tr.filterMap fun m => m.label.access?) ∧
      (∀ z, ∃ tr', (node SHA1 tail).Run (.initial tail) tr' (s.peers z).node ∧
        tr'.map (·.label) = tr.filterMap fun m => m.label.node? z) ∧
      ∃ tr' wire, (OneVote.network ι SHA1 tail).Run (.initial tail) tr' (network (s, wire)) ∧
        tr'.map (·.label) = tr.filterMap fun m => m.label.thread? := by
  refine ⟨⟨_, (lists_simulation links SHA1 tail).run (fun _ _ _ _ _ _ => trivial) hrun trivial,
    TransitionSystem.labels_image tr⟩, fun z => ⟨_, (node_simulation links SHA1 tail z).run
      (fun _ _ _ _ _ _ => trivial) hrun trivial, TransitionSystem.labels_image tr⟩, ?_⟩
  obtain ⟨tr', wire, hwired, rfl⟩ := hrun.withHistory wireAfter []
  refine ⟨_, wire, (network_simulation links SHA1 tail).run
    (hears_invariant links SHA1 tail).preserved hwired fun z => Peer.initial_hears tail [], ?_⟩
  rw [TransitionSystem.labels_image, List.filterMap_map]
  rfl

/-! ### A first vote -/

open PeerNetwork (pairLinks)

theorem set_set (s : Election ι) (x : ι) (p p' : Peer) : (s.set x p).set x p' = s.set x p' := by
  unfold set
  rw [Function.update_idem]

/-- A peer at the loop head, with one vote in `tq`, takes it in two steps. -/
theorem exists_processed (links : Links ι) (SHA1 : Bytes → Digest) (tail : GenesisTail)
    {s : Election ι} {x : ι} {th th' : Thread} {t : Transaction} {effects : List Effect}
    (hpeer : s.peers x = ⟨th, .empty, ⟨[t]⟩, [], none⟩) (hpoint : th.point = .head)
    (hquota : th.quotafull = false)
    (htake : ({ th with point := .pop } : Thread).takeTransaction t = .ok (th', effects)) :
    ∃ tr, (election links SHA1 tail).Run s tr (s.set x ⟨th', .empty, .empty, effects, none⟩) ∧
      ∀ m ∈ tr, ∃ i effects, m.label = .process x i effects := by
  have hnode : (s.peers x).node = ⟨th, .empty, ⟨[t]⟩, []⟩ := by rw [hpeer]; rfl
  have hidle : Thread.Step SHA1 th (.block none .alone, []) { th with point := .pop } := by
    have hafter : th.afterBlock = .pop := by rw [Thread.afterBlock, hquota]; rfl
    rw [← hafter]
    exact .idle hpoint
  have htaken : Node.Step SHA1 ⟨th, .empty, ⟨[t]⟩, []⟩ (.process (.block none .alone) [])
      ⟨{ th with point := .pop }, .empty, ⟨[t]⟩, []⟩ := .takeBlock rfl rfl rfl hidle
  rw [← hnode] at htaken
  have hfirst : Step SHA1 s (.process x (.block none .alone) [])
      (s.set x ⟨{ th with point := .pop }, .empty, ⟨[t]⟩, [], none⟩) :=
    .process (by rw [hpeer]) htaken
  have hsecond : Step SHA1 (s.set x ⟨{ th with point := .pop }, .empty, ⟨[t]⟩, [], none⟩)
      (.process x (.transaction t) effects) (s.set x ⟨th', .empty, .empty, effects, none⟩) := by
    have htaken : Node.Step SHA1 ⟨{ th with point := .pop }, .empty, ⟨[t]⟩, []⟩
        (.process (.transaction t) effects) ⟨th', .empty, .empty, pushes effects⟩ :=
      .takeTransaction rfl rfl (.transaction rfl htake)
    rw [← set_set s x ⟨{ th with point := .pop }, .empty, ⟨[t]⟩, [], none⟩
      ⟨th', .empty, .empty, effects, none⟩]
    refine @Step.process ι _ SHA1 _ x _ effects ⟨th', .empty, .empty, pushes effects⟩ ?_ ?_
    · rw [peers_set_self]
    · rw [peers_set_self]
      exact htaken
  exact ⟨_, .snoc (.snoc .nil hfirst) hsecond, by simp⟩

/-! ### A peer by itself -/

/-- The broadcasts of a peer that knows no other are over at once. -/
theorem exists_announced (links : Links ι) (SHA1 : Bytes → Digest) (tail : GenesisTail)
    {s : Election ι} {x : ι} {th : Thread} {effects : List Effect}
    (hpeer : s.peers x = ⟨th, .empty, .empty, effects, none⟩)
    (hlist : (s.lists.clients x).peerClients = []) (hpush : pushes effects = []) :
    ∃ tr, (election links SHA1 tail).Run s tr (s.set x ⟨th, .empty, .empty, [], none⟩) := by
  induction effects generalizing s with
  | nil =>
      rw [← hpeer, set, Function.update_eq_self]
      exact ⟨[], .nil⟩
  | cons e rest ih =>
      have hbroadcast : e.IsBroadcast := by
        cases e with
        | push t => cases hpush
        | _ => trivial
      have htodo : (s.peers x).todo = e :: rest := by rw [hpeer]
      have hstart := @Step.start ι _ SHA1 s x e rest htodo hbroadcast (by rw [hpeer])
      rw [hlist] at hstart
      have hfinish := @Step.finish ι _ SHA1 (s.called x []) x e rest
        (by rw [peers_called_self]; exact htodo) hbroadcast (by rw [peers_called_self])
      rw [peers_called_self, hpeer, called, set_set] at hfinish
      rw [pushes_of_isBroadcast hbroadcast] at hpush
      obtain ⟨tr, hrun⟩ := @ih (s.set x ⟨th, .empty, .empty, rest, none⟩) (peers_set_self _ _ _)
        hlist hpush
      rw [set_set] at hrun
      exact ⟨_, .cons hstart (.cons hfinish hrun)⟩

/-- One step of the thread, after which no vote waits, and the broadcasts that it leads to. -/
theorem exists_processed_alone (links : Links ι) {tail : GenesisTail} {s : Election ι} {x : ι}
    {th th' : Thread} {tq : SynchronizedQueue Transaction} {i : Input} {effects : List Effect}
    (hpeer : s.peers x = ⟨th, .empty, tq, [], none⟩)
    (hlist : (s.lists.clients x).peerClients = []) (hpush : pushes effects = [])
    (hstep : Node.Step SHA1 ⟨th, .empty, tq, []⟩ (.process i effects) ⟨th', .empty, .empty, []⟩) :
    ∃ tr, (election links SHA1 tail).Run s tr (s.set x ⟨th', .empty, .empty, [], none⟩) := by
  have hnode : (s.peers x).node = ⟨th, .empty, tq, []⟩ := by rw [hpeer]; rfl
  have hprocess := @Step.process ι _ SHA1 s x i effects ⟨th', .empty, .empty, []⟩
    (by rw [hpeer]) (by rwa [hnode])
  obtain ⟨tr, hrun⟩ := @exists_announced ι _ links SHA1 tail
    (s.set x ⟨th', .empty, .empty, effects, none⟩) x th' effects (peers_set_self _ _ _) hlist hpush
  rw [set_set] at hrun
  exact ⟨_, .cons hprocess hrun⟩

/-- A run of the thread without blocks is a run of the peer, to which each
transaction arrives in time. -/
theorem exists_lifted (links : Links ι) {tail : GenesisTail} {th th' : Thread}
    {tr : List (Move Thread (Input × List Effect))}
    (h : (processingThread SHA1 tail).Run th tr th')
    (hblock : ∀ m ∈ tr, ∀ b env, m.label.1 ≠ .block (some b) env)
    (hpush : ∀ m ∈ tr, pushes m.label.2 = []) {s : Election ι} {x : ι}
    (hpeer : s.peers x = ⟨th, .empty, .empty, [], none⟩)
    (hlist : (s.lists.clients x).peerClients = []) :
    ∃ tr', (election links SHA1 tail).Run s tr' (s.set x ⟨th', .empty, .empty, [], none⟩) := by
  induction h with
  | nil =>
      rw [← hpeer, set, Function.update_eq_self]
      exact ⟨[], .nil⟩
  | @snoc th₁ th₂ tr i hrun hstep ih =>
      obtain ⟨i, effects⟩ := i
      simp only [List.forall_mem_append, List.forall_mem_singleton] at hblock hpush
      obtain ⟨tr₁, hrun₁⟩ := ih hblock.1 hpush.1
      obtain ⟨tr₂, hrun₂⟩ : ∃ tr, (election links SHA1 tail).Run
          (s.set x ⟨th₁, .empty, .empty, [], none⟩) tr
          (s.set x ⟨th₂, .empty, .empty, [], none⟩) := by
        rw [← set_set s x ⟨th₁, .empty, .empty, [], none⟩ ⟨th₂, .empty, .empty, [], none⟩]
        have hself := peers_set_self s x ⟨th₁, .empty, .empty, [], none⟩
        have hnone : pushes effects = [] := hpush.2
        cases i with
        | block b env =>
            cases b with
            | some b => exact absurd rfl (hblock.2 b env)
            | none =>
                have hnode := Node.Step.takeBlock (n := ⟨th₁, .empty, .empty, []⟩) rfl rfl rfl hstep
                rw [hnone] at hnode
                exact exists_processed_alone links hself hlist hnone hnode
        | transaction t =>
            have hsubmit := @Step.submit ι _ SHA1 (s.set x ⟨th₁, .empty, .empty, [], none⟩) x t
            rw [decodeTransaction_encodeTransaction, pushTransaction, hself, set_set] at hsubmit
            have hnode := Node.Step.takeTransaction (n := ⟨th₁, .empty, ⟨[t]⟩, []⟩) rfl rfl hstep
            rw [hnone] at hnode
            obtain ⟨tr, hrun⟩ := @exists_processed_alone ι _ SHA1 links tail
              (s.set x ⟨th₁, .empty, ⟨[t]⟩, [], none⟩) x th₁ th₂ ⟨[t]⟩ (.transaction t) effects
              (peers_set_self _ _ _) hlist hnone hnode
            rw [set_set] at hrun ⊢
            exact ⟨_, .cons hsubmit hrun⟩
        | mine =>
            have hnode := Node.Step.mine (n := ⟨th₁, .empty, .empty, []⟩) rfl hstep
            rw [hnone] at hnode
            exact exists_processed_alone links hself hlist hnone hnode
      exact ⟨_, hrun₁.append hrun₂⟩

def sampleVote : Transaction := ⟨Block.sampleKey, [89], 0⟩

/-- The thread takes the vote, and discards it when it comes again. -/
theorem exists_took_sampleVote :
    ∃ th : Thread, ({ Thread.initial Blockchain.sampleTail with point := .pop } :
        Thread).takeTransaction sampleVote = .ok (th, [.broadcastTransaction sampleVote]) ∧
      th.point = .head ∧ th.quotafull = false ∧
        ({ th with point := .pop } : Thread).takeTransaction sampleVote = .ok (th, []) :=
  ⟨_, rfl, rfl, rfl, rfl⟩

/-- One of two peers takes a vote. -/
theorem exists_first_vote :
    ∃ tr s, (election pairLinks Block.sampleSHA1 Blockchain.sampleTail).Run
        (.initial pairLinks Blockchain.sampleTail) tr s ∧
      (s.peers false).todo = [.broadcastTransaction sampleVote] ∧ (s.peers false).calls = none ∧
      ∃ m tr', tr = m :: tr' ∧ m.label = .submit false sampleVote ∧
        ∀ m ∈ tr', ∃ i effects, m.label = .process false i effects := by
  obtain ⟨th, htake, -⟩ := exists_took_sampleVote
  have hsubmit := @Step.submit Bool _ Block.sampleSHA1 (initial pairLinks Blockchain.sampleTail)
    false sampleVote
  rw [decodeTransaction_encodeTransaction] at hsubmit
  obtain ⟨tr, hrun, hlabels⟩ := exists_processed pairLinks Block.sampleSHA1 Blockchain.sampleTail
    (s := (initial pairLinks Blockchain.sampleTail).pushTransaction false sampleVote)
    (x := false) (peers_pushTransaction_self _ _ _) rfl rfl htake
  refine ⟨_, _, .cons hsubmit hrun, ?_, ?_, _, tr, rfl, rfl, hlabels⟩
  · rw [peers_set_self]
  · rw [peers_set_self]

/-- One of two peers has mined eight votes, and is about to broadcast the block. -/
theorem exists_mined_pair :
    ∃ tr s w, (election pairLinks Block.sampleSHA1 Blockchain.sampleTail).Run
        (.initial pairLinks Blockchain.sampleTail) tr s ∧
      s.lists = .initial pairLinks ∧ s.peers true = .initial Blockchain.sampleTail ∧
      w.finhash = Block.sampleFinhash.ptr ∧
      w.prevBlockSHA1 = (Blockchain.genesis Blockchain.sampleTail).finhash ∧
      s.peers false = ⟨⟨Thread.appended (.new Blockchain.sampleTail) w, .new, false, .head⟩,
        .empty, .empty, [.broadcastBlock (Blockchain.numbered w 2)], none⟩ := by
  obtain ⟨tr, th, w, h⟩ := Thread.exists_mined_sample Blockchain.sampleTail 1 (by decide)
  obtain ⟨tr', hrun⟩ := exists_lifted pairLinks h.run h.takes.noBlock h.takes.pushes
    (s := initial pairLinks Blockchain.sampleTail) (x := false) rfl rfl
  let t := (initial pairLinks Blockchain.sampleTail).set false ⟨th, .empty, .empty, [], none⟩
  have hself : t.peers false = ⟨th, .empty, .empty, [], none⟩ := peers_set_self _ _ _
  have hmine := @Step.process Bool _ Block.sampleSHA1 t false .mine _ _ (by rw [hself])
    (by rw [hself]; exact .mine rfl h.step)
  refine ⟨_, _, Thread.minedBlock w (Blockchain.genesis Blockchain.sampleTail), hrun.snoc hmine,
    rfl, ?_, h.finhash, rfl, peers_set_self _ _ _⟩
  rw [peers_set_of_ne (by decide), peers_set_of_ne (by decide)]
  rfl

theorem run_projects_first :
    ∃ tr s, (election pairLinks Block.sampleSHA1 Blockchain.sampleTail).Run
        (.initial pairLinks Blockchain.sampleTail) tr s ∧
      (s.peers false).todo = [.broadcastTransaction sampleVote] ∧
      (∃ tr', (peerNetwork pairLinks).Run (.initial pairLinks) tr' s.lists ∧
        tr'.map (·.label) = tr.filterMap fun m => m.label.access?) ∧
      (∀ z, ∃ tr', (node Block.sampleSHA1 Blockchain.sampleTail).Run
          (.initial Blockchain.sampleTail) tr' (s.peers z).node ∧
        tr'.map (·.label) = tr.filterMap fun m => m.label.node? z) ∧
      ∃ tr' wire, (OneVote.network Bool Block.sampleSHA1 Blockchain.sampleTail).Run
          (.initial Blockchain.sampleTail) tr' (network (s, wire)) ∧
        tr'.map (·.label) = tr.filterMap fun m => m.label.thread? := by
  obtain ⟨tr, s, hrun, htodo, -⟩ := exists_first_vote
  exact ⟨tr, s, hrun, htodo, run_projects hrun⟩

end Election

end OneVote
