-- SUMMARY: The peer list of one client among arbitrary peers: what holds of it in every interleaving of its three sources.
import OneVote.Bootstrap

/-!
# Peer lists

Addresses reach a client through direct calls, through requests that it serves,
and through its calls of `bootstrapPeers`, whose responses can be anything. Each
call of `addNewPeer` is one step, and any of the others can come in between.
-/

namespace OneVote

open TransitionSystem (Move)

/-- A client among arbitrary peers, with its call of `bootstrapPeers`. -/
structure OpenClient where
  client : Client
  phase : Phase

/-- One access to the list of the client. -/
inductive OpenAccess
  /-- a call of `addNewPeer` from elsewhere -/
  | direct (addr : Bytes)
  /-- a request that the client serves, from the given address -/
  | getAddr (addr : Bytes)
  | addFirst
  | list
  /-- the next peer is asked, and this is what it answers -/
  | respond (response : List Bytes)
  | answered
  | asked
  | check
  | add
  | done

namespace OpenClient

def initial (myAddress firstPeer : Bytes) : OpenClient := ⟨⟨myAddress, firstPeer, []⟩, .idle⟩

inductive Step : OpenClient → OpenAccess → OpenClient → Prop
  | direct {s : OpenClient} {addr : Bytes} :
      Step s (.direct addr) { s with client := s.client.addNewPeer addr }
  | getAddr {s : OpenClient} {req : AddrRequest} {addr : Bytes} :
      Step s (.getAddr addr) { s with client := (MinerService.getAddr s.client req addr).2 }
  | addFirst {s : OpenClient} :
      s.phase = .idle →
      Step s .addFirst ⟨s.client.addNewPeer s.client.firstPeer, .begun⟩
  | list {s : OpenClient} :
      s.phase = .begun → Step s .list { s with phase := .asking s.client.peerClients [] }
  | respond {s : OpenClient} {peer : Bytes} {response peers newPeers : List Bytes} :
      s.phase = .asking (peer :: peers) newPeers →
      Step s (.respond response) { s with phase := .waiting peer response peers newPeers }
  | answered {s : OpenClient} {peer : Bytes} {response peers newPeers : List Bytes} :
      s.phase = .waiting peer response peers newPeers →
      Step s .answered
        ⟨s.client, .asking peers (response.foldl (fun newPeers p => p :: newPeers) newPeers)⟩
  | asked {s : OpenClient} {newPeers : List Bytes} :
      s.phase = .asking [] newPeers → Step s .asked { s with phase := .adding newPeers }
  | check {s : OpenClient} {peer : Bytes} {newPeers : List Bytes} :
      s.phase = .adding (peer :: newPeers) → s.client.peerClients.length < maxPeers →
      Step s .check { s with phase := .pushing peer newPeers }
  | add {s : OpenClient} {peer : Bytes} {newPeers : List Bytes} :
      s.phase = .pushing peer newPeers →
      Step s .add ⟨s.client.addNewPeer peer, .adding newPeers⟩
  | done {s : OpenClient} {newPeers : List Bytes} :
      s.phase = .adding newPeers →
      newPeers = [] ∨ maxPeers ≤ s.client.peerClients.length →
      Step s .done { s with phase := .idle }

/-- Whatever the access, the client is unchanged or `addNewPeer` was called. -/
theorem Step.client_cases {s s' : OpenClient} {a : OpenAccess} (h : Step s a s') :
    s'.client = s.client ∨ ∃ addr, s'.client = s.client.addNewPeer addr := by
  cases h with
  | direct => exact .inr ⟨_, rfl⟩
  | getAddr => exact .inr ⟨_, rfl⟩
  | addFirst => exact .inr ⟨_, rfl⟩
  | add => exact .inr ⟨_, rfl⟩
  | _ => exact .inl rfl

theorem Step.proper {s s' : OpenClient} {a : OpenAccess} (h : Step s a s')
    (hs : s.client.Proper) : s'.client.Proper := by
  rcases h.client_cases with heq | ⟨addr, heq⟩
  · rwa [heq]
  · rw [heq]
    exact hs.addNewPeer addr

theorem Step.subset {s s' : OpenClient} {a : OpenAccess} (h : Step s a s') :
    s.client.peerClients ⊆ s'.client.peerClients := by
  rcases h.client_cases with heq | ⟨addr, heq⟩
  · rw [heq]
    exact List.Subset.refl _
  · rw [heq]
    exact s.client.subset_addNewPeer addr

theorem Step.settled {s s' : OpenClient} {a : OpenAccess} (h : Step s a s') {addr : Bytes}
    (hs : s.client.Settled addr) : s'.client.Settled addr := by
  rcases h.client_cases with heq | ⟨p, heq⟩
  · rwa [heq]
  · rw [heq]
    exact hs.addNewPeer p

end OpenClient

/-- A new client among arbitrary peers. -/
def openClient (myAddress firstPeer : Bytes) : TransitionSystem OpenClient OpenAccess where
  init s := s = .initial myAddress firstPeer
  step := OpenClient.Step

namespace OpenClient

variable {myAddress firstPeer : Bytes}

theorem proper_invariant (myAddress firstPeer : Bytes) :
    (openClient myAddress firstPeer).Invariant fun s => s.client.Proper where
  init := by
    rintro s rfl
    exact ⟨Nat.zero_le _, List.not_mem_nil, List.nodup_nil, List.not_mem_nil⟩
  step := fun _ _ _ h => h.proper

/-- In every run the list keeps the invariants named at `addNewPeer`, loses no
entry, and settles the address of every request that was served. -/
theorem run_peerClients {s : OpenClient} {tr : List (Move OpenClient OpenAccess)}
    (h : (openClient myAddress firstPeer).Run (.initial myAddress firstPeer) tr s) :
    s.client.Proper ∧ (∀ m ∈ tr, m.pre.client.peerClients ⊆ s.client.peerClients) ∧
      ∀ m ∈ tr, ∀ addr, m.label = .getAddr addr → s.client.Settled addr := by
  induction h with
  | nil => exact ⟨(proper_invariant myAddress firstPeer).init _ rfl, by simp, by simp⟩
  | @snoc s s' tr i hrun hstep ih =>
      obtain ⟨hproper, hsubset, hsettled⟩ := ih
      simp only [List.forall_mem_append, List.forall_mem_singleton]
      refine ⟨hstep.proper hproper, ⟨fun m hm => List.Subset.trans (hsubset m hm) hstep.subset,
        hstep.subset⟩, fun m hm addr hi => hstep.settled (hsettled m hm addr hi), ?_⟩
      rintro addr rfl
      cases hstep with
      | getAddr => exact hproper.settled_addNewPeer addr

/-- A call of `bootstrapPeers` during which the client serves two requests. The peer
that it asks answers with the client itself and with repeated addresses. -/
theorem run_peerClients_served :
    ∃ tr s, (openClient [0] [1]).Run (.initial [0] [1]) tr s ∧
      s.client.peerClients = [[3], [2], [1]] ∧
      s.client.Proper ∧ (∀ m ∈ tr, m.pre.client.peerClients ⊆ s.client.peerClients) ∧
      ∀ m ∈ tr, ∀ addr, m.label = .getAddr addr → s.client.Settled addr := by
  have hrun := TransitionSystem.Run.nil (L := openClient [0] [1]) (s := .initial [0] [1])
    |>.snoc (Step.addFirst rfl)
    |>.snoc (Step.list rfl)
    |>.snoc (@Step.getAddr _ SinglePeerClient.addrRequest [2])
    |>.snoc (@Step.respond _ [1] [[0], [3], [1], [3]] [] [] rfl)
    |>.snoc (Step.answered rfl)
    |>.snoc (@Step.getAddr _ SinglePeerClient.addrRequest [2])
    |>.snoc (Step.asked rfl)
    |>.snoc (@Step.check _ [3] [[1], [3], [0]] rfl (by decide))
    |>.snoc (Step.add rfl)
    |>.snoc (@Step.check _ [1] [[3], [0]] rfl (by decide))
    |>.snoc (Step.add rfl)
    |>.snoc (@Step.check _ [3] [[0]] rfl (by decide))
    |>.snoc (Step.add rfl)
    |>.snoc (@Step.check _ [0] [] rfl (by decide))
    |>.snoc (Step.add rfl)
    |>.snoc (Step.done rfl (.inl rfl))
  exact ⟨_, _, hrun, by decide, run_peerClients hrun⟩

/-! ## A call without interruptions -/

/-- Asking the peers collects their responses. -/
theorem run_collect (respond : Bytes → List Bytes) (c : Client) (peers newPeers : List Bytes) :
    ∃ tr, (openClient myAddress firstPeer).Run ⟨c, .asking peers newPeers⟩ tr
      ⟨c, .asking [] (Client.collect respond peers newPeers)⟩ := by
  induction peers generalizing newPeers with
  | nil => exact ⟨[], .nil⟩
  | cons p peers ih =>
      obtain ⟨tr, hrun⟩ := ih ((respond p).foldl (fun newPeers p => p :: newPeers) newPeers)
      have hrespond : Step ⟨c, .asking (p :: peers) newPeers⟩ (.respond (respond p))
          ⟨c, .waiting p (respond p) peers newPeers⟩ := .respond rfl
      have hanswered : Step ⟨c, .waiting p (respond p) peers newPeers⟩ .answered
          ⟨c, .asking peers ((respond p).foldl (fun newPeers p => p :: newPeers) newPeers)⟩ :=
        .answered rfl
      exact ⟨_, .cons hrespond (.cons hanswered hrun)⟩

/-- Adding goes on until the list is full or nothing is left. -/
theorem run_addPeers (newPeers : List Bytes) (c : Client) :
    ∃ tr, (openClient myAddress firstPeer).Run ⟨c, .adding newPeers⟩ tr
      ⟨Client.addPeers newPeers c, .idle⟩ := by
  induction newPeers generalizing c with
  | nil => exact ⟨_, .snoc .nil (Step.done rfl (.inl rfl))⟩
  | cons p newPeers ih =>
      rw [Client.addPeers]
      split
      · rename_i hfull
        exact ⟨_, .snoc .nil (Step.done rfl (.inr hfull))⟩
      · rename_i hroom
        obtain ⟨tr, hrun⟩ := ih (c.addNewPeer p)
        have hcheck : Step ⟨c, .adding (p :: newPeers)⟩ .check ⟨c, .pushing p newPeers⟩ :=
          .check rfl (Nat.not_le.1 hroom)
        have hadd : Step ⟨c, .pushing p newPeers⟩ .add ⟨c.addNewPeer p, .adding newPeers⟩ :=
          .add rfl
        exact ⟨_, .cons hcheck (.cons hadd hrun)⟩

/-- A call on its own is a run of its accesses. -/
theorem run_bootstrapPeers (respond : Bytes → List Bytes) (c : Client) :
    ∃ tr, (openClient myAddress firstPeer).Run ⟨c, .idle⟩ tr
      ⟨(c.bootstrapPeers respond).1, .idle⟩ := by
  obtain ⟨tr, hcollect⟩ := @run_collect myAddress firstPeer respond (c.addNewPeer c.firstPeer)
    c.asked []
  obtain ⟨tr', hadd⟩ := @run_addPeers myAddress firstPeer (Client.collect respond c.asked [])
    (c.addNewPeer c.firstPeer)
  have hfirst : Step ⟨c, .idle⟩ .addFirst ⟨c.addNewPeer c.firstPeer, .begun⟩ := .addFirst rfl
  have hlist : Step ⟨c.addNewPeer c.firstPeer, .begun⟩ .list
      ⟨c.addNewPeer c.firstPeer, .asking c.asked []⟩ := .list rfl
  have hasked : Step ⟨c.addNewPeer c.firstPeer, .asking [] (Client.collect respond c.asked [])⟩
      .asked ⟨c.addNewPeer c.firstPeer, .adding (Client.collect respond c.asked [])⟩ := .asked rfl
  exact ⟨_, .cons hfirst (.cons hlist (hcollect.append (.cons hasked hadd)))⟩

/-! ## A miner of a network -/

/-- What one miner of the network looks like to itself. -/
def view {ι : Type*} (s : PeerNetwork ι) (j : ι) : OpenClient := ⟨s.clients j, s.phases j⟩

section Network

variable {ι : Type*} [DecidableEq ι] {s s' : PeerNetwork ι}

theorem view_goOn (s : PeerNetwork ι) (x : ι) (phase : Phase) :
    view (s.goOn x phase) x = { view s x with phase := phase } := by
  unfold view
  rw [PeerNetwork.phases_goOn]
  rfl

theorem view_goOn_of_ne (s : PeerNetwork ι) {x j : ι} (hj : j ≠ x) (phase : Phase) :
    view (s.goOn x phase) j = view s j := by
  unfold view
  rw [PeerNetwork.phases_goOn_of_ne s hj]
  rfl

theorem view_addTo (s : PeerNetwork ι) (y : ι) (addr : Bytes) :
    view (s.addTo y addr) y = { view s y with client := (s.clients y).addNewPeer addr } := by
  unfold view
  rw [PeerNetwork.clients_addTo_self]
  rfl

theorem view_addTo_of_ne (s : PeerNetwork ι) {y j : ι} (hj : j ≠ y) (addr : Bytes) :
    view (s.addTo y addr) j = view s j := by
  have hclient : (s.addTo y addr).clients j = s.clients j := Function.update_of_ne hj _ _
  unfold view
  rw [hclient]
  rfl

/-- A request that another miner makes at `y` is served by `y` only. -/
theorem run_view_other {x j : ι} {a : Access ι} (h : PeerNetwork.Step s (x, a) s') (hj : j ≠ x) :
    ∃ tr, (openClient myAddress firstPeer).Run (view s j) tr (view s' j) := by
  cases h with
  | addFirst =>
      rw [view_goOn_of_ne _ hj, view_addTo_of_ne _ hj]
      exact ⟨[], .nil⟩
  | @register _ y =>
      rw [view_goOn_of_ne _ hj]
      by_cases hy : j = y
      · subst hy
        rw [view_addTo]
        exact ⟨_, .snoc .nil (@Step.getAddr (view s j) SinglePeerClient.addrRequest _)⟩
      · rw [view_addTo_of_ne _ hy]
        exact ⟨[], .nil⟩
  | add =>
      rw [view_goOn_of_ne _ hj, view_addTo_of_ne _ hj]
      exact ⟨[], .nil⟩
  | done =>
      have hview : view (s.finish x) j = view (s.goOn x .idle) j := rfl
      rw [hview, view_goOn_of_ne _ hj]
      exact ⟨[], .nil⟩
  | _ =>
      rw [view_goOn_of_ne _ hj]
      exact ⟨[], .nil⟩

theorem run_view_self {x : ι} {a : Access ι} (h : PeerNetwork.Step s (x, a) s') :
    ∃ tr, (openClient myAddress firstPeer).Run (view s x) tr (view s' x) := by
  cases h with
  | addFirst hphase =>
      rw [view_goOn, view_addTo]
      exact ⟨_, .snoc .nil (@Step.addFirst (view s x) hphase)⟩
  | list hphase =>
      rw [view_goOn]
      exact ⟨_, .snoc .nil (@Step.list (view s x) hphase)⟩
  | respond hphase =>
      rw [view_goOn]
      exact ⟨_, .snoc .nil (@Step.respond (view s x) _ _ _ _ hphase)⟩
  | @register _ y _ _ _ hphase =>
      rw [view_goOn]
      by_cases hy : x = y
      · subst hy
        rw [view_addTo]
        have hserved : Step (view s x) (.getAddr (s.clients x).myAddress)
            ⟨(s.clients x).addNewPeer (s.clients x).myAddress, s.phases x⟩ :=
          @Step.getAddr (view s x) SinglePeerClient.addrRequest _
        exact ⟨_, .snoc (.snoc .nil hserved) (@Step.answered ⟨_, s.phases x⟩ _ _ _ _ hphase)⟩
      · rw [view_addTo_of_ne _ hy]
        exact ⟨_, .snoc .nil (@Step.answered (view s x) _ _ _ _ hphase)⟩
  | asked hphase =>
      rw [view_goOn]
      exact ⟨_, .snoc .nil (@Step.asked (view s x) _ hphase)⟩
  | check hphase hroom =>
      rw [view_goOn]
      exact ⟨_, .snoc .nil (@Step.check (view s x) _ _ hphase hroom)⟩
  | add hphase =>
      rw [view_goOn, view_addTo]
      exact ⟨_, .snoc .nil (@Step.add (view s x) _ _ hphase)⟩
  | done hphase hend =>
      have hview : view (s.finish x) x = view (s.goOn x .idle) x := rfl
      rw [hview, view_goOn]
      exact ⟨_, .snoc .nil (@Step.done (view s x) _ hphase hend)⟩

/-- What happens to one miner of a network is a run among arbitrary peers. -/
theorem run_view {links : Links ι} {tr : List (Move (PeerNetwork ι) (ι × Access ι))}
    (h : (peerNetwork links).Run s tr s') (j : ι) :
    ∃ tr', (openClient myAddress firstPeer).Run (view s j) tr' (view s' j) := by
  induction h with
  | nil => exact ⟨[], .nil⟩
  | @snoc t u tr a _ hstep ih =>
      obtain ⟨tr₁, hrun₁⟩ := ih
      obtain ⟨x, a⟩ := a
      by_cases hj : j = x
      · subst hj
        obtain ⟨tr₂, hrun₂⟩ := @run_view_self myAddress firstPeer _ _ _ _ _ _ hstep
        exact ⟨_, hrun₁.append hrun₂⟩
      · obtain ⟨tr₂, hrun₂⟩ := @run_view_other myAddress firstPeer _ _ _ _ _ _ _ hstep hj
        exact ⟨_, hrun₁.append hrun₂⟩

end Network

end OpenClient

end OneVote
