-- SUMMARY: Voting booths: they ask for addresses as peers do, leave no trace in any list, and send their vote to each peer that they found.
import Mathlib.Data.Sum.Basic
import OneVote.Base.Simulation
import OneVote.Connectivity

/-!
# Voting booths

A booth is a client too, but not one that others could call: its own address is
`NOT_AN_IP_TOKEN`. It calls `bootstrapPeers` once, sends its vote to the peers of
its list, and is done.
-/

namespace OneVote

open TransitionSystem (Move Simulation)

/-! ## Known addresses -/

namespace PeerNetwork

variable {ν : Type*} [DecidableEq ν] {A : Bytes → Prop}

/-- All addresses that anyone knows have the property. -/
structure Within (A : Bytes → Prop) (s : PeerNetwork ν) : Prop where
  first : ∀ v, A (s.clients v).firstPeer
  own : ∀ v, A (s.clients v).myAddress ∨ (s.clients v).myAddress = notAnIpToken
  listed : ∀ v, ∀ p ∈ (s.clients v).peerClients, A p
  held : ∀ v, ∀ p ∈ (s.phases v).addresses, A p

theorem Within.goOn {s : PeerNetwork ν} (h : s.Within A) {x : ν} {phase : Phase}
    (hheld : ∀ p ∈ phase.addresses, A p) : (s.goOn x phase).Within A where
  first := h.first
  own := h.own
  listed := h.listed
  held := by
    intro v p hp
    by_cases hv : v = x
    · subst hv
      rw [phases_goOn] at hp
      exact hheld p hp
    · rw [phases_goOn_of_ne s hv] at hp
      exact h.held v p hp

theorem Within.addTo {s : PeerNetwork ν} (h : s.Within A) {y : ν} {addr : Bytes}
    (haddr : A addr ∨ addr = notAnIpToken) : (s.addTo y addr).Within A where
  first := by
    intro v
    rcases clients_addTo s y v addr with hv | hv
    · rw [hv]
      exact h.first v
    · rw [hv, Client.firstPeer_addNewPeer]
      exact h.first v
  own := by
    intro v
    rcases clients_addTo s y v addr with hv | hv
    · rw [hv]
      exact h.own v
    · rw [hv, Client.myAddress_addNewPeer]
      exact h.own v
  listed := by
    intro v p hp
    rcases clients_addTo s y v addr with hv | hv
    · rw [hv] at hp
      exact h.listed v p hp
    · rw [hv] at hp
      rcases (s.clients v).addNewPeer_cases addr with hsame | ⟨-, -, htoken, -, hnew⟩
      · rw [hsame] at hp
        exact h.listed v p hp
      · rw [hnew] at hp
        rcases List.mem_cons.1 hp with rfl | hp
        · exact haddr.resolve_right htoken
        · exact h.listed v p hp
  held := h.held

theorem Step.within {s s' : PeerNetwork ν} {a : ν × Access ν} (hs : Step s a s')
    (h : s.Within A) : s'.Within A := by
  have hheld := h.held a.1
  cases hs with
  | @addFirst x => exact (h.addTo (.inl (h.first x))).goOn (by simp [Phase.addresses])
  | @list x => exact h.goOn (by simpa [Phase.addresses] using h.listed x)
  | @respond x y peers newPeers hphase =>
      rw [hphase] at hheld
      refine h.goOn fun p hp => ?_
      simp only [Phase.addresses, Client.getPeersList, List.mem_cons, List.mem_append,
        List.mem_reverse] at hp
      rcases hp with rfl | ((hp | hp) | hp)
      · exact hheld _ (by simp [Phase.addresses])
      · exact h.listed y p hp
      · exact hheld p (by simp [Phase.addresses, hp])
      · exact hheld p (by simp [Phase.addresses, hp])
  | @register x y response peers newPeers hphase =>
      rw [hphase] at hheld
      refine (h.addTo (h.own x)).goOn fun p hp => hheld p ?_
      simp only [Phase.addresses, List.foldl_flip_cons_eq_append', List.mem_append,
        List.mem_cons, List.mem_reverse] at hp ⊢
      tauto
  | asked hphase =>
      rw [hphase] at hheld
      exact h.goOn hheld
  | check hphase =>
      rw [hphase] at hheld
      exact h.goOn hheld
  | add hphase =>
      rw [hphase] at hheld
      obtain ⟨hpeer, hrest⟩ := List.forall_mem_cons.1 hheld
      exact (h.addTo (.inl hpeer)).goOn hrest
  | @done x =>
      have hidle : (s.goOn x .idle).Within A := h.goOn (by simp [Phase.addresses])
      exact ⟨hidle.first, hidle.own, hidle.listed, hidle.held⟩

theorem Step.fixed {s s' : PeerNetwork ν} {a : ν × Access ν} (hs : Step s a s') (v : ν) :
    (s'.clients v).myAddress = (s.clients v).myAddress ∧
      (s'.clients v).firstPeer = (s.clients v).firstPeer := by
  rcases hs.clients_cases v with hv | ⟨addr, hv⟩
  · rw [hv]
    exact ⟨rfl, rfl⟩
  · rw [hv]
    exact ⟨Client.myAddress_addNewPeer _ _, Client.firstPeer_addNewPeer _ _⟩

theorem clients_addTo_of_ne {s : PeerNetwork ν} {y v : ν} (h : v ≠ y) (addr : Bytes) :
    (s.addTo y addr).clients v = s.clients v := Function.update_of_ne h _ _

/-- The token is never added. -/
theorem addTo_token (s : PeerNetwork ν) (y : ν) : s.addTo y notAnIpToken = s := by
  have hsame : (s.clients y).addNewPeer notAnIpToken = s.clients y := if_pos (.inr (.inr rfl))
  unfold PeerNetwork.addTo
  rw [hsame, Function.update_eq_self]

end PeerNetwork

/-! ## Peers and booths -/

/-- The client that a booth makes. -/
def Client.booth (firstPeer : Bytes) : Client := ⟨notAnIpToken, firstPeer, []⟩

structure Polls (ι β : Type*) where
  network : PeerNetwork (ι ⊕ β)
  /-- the peers that a booth has still to send its vote to, once it has begun -/
  sending : β → Option (List Bytes)

namespace Polls

inductive Event (ι β : Type*)
  /-- a step of `bootstrapPeers`, of a peer or a booth -/
  | access (x : ι ⊕ β) (a : Access (ι ⊕ β))
  /-- the booth begins to iterate over its list -/
  | cast (b : β)
  | deliver (b : β) (y : ι ⊕ β)
  /-- a call returns with a status that is not OK -/
  | fail (b : β)

variable {ι β : Type*} [DecidableEq ι] [DecidableEq β]

/-- Peers that are linked, and booths that are started with the address of one of them. -/
def initial (links : Links ι) (entry : β → ι) : Polls ι β where
  network :=
    { clients := Sum.elim (PeerNetwork.initial links).clients fun b =>
        .booth (links.address (entry b))
      phases := fun _ => .idle
      rounds := fun _ => 0 }
  sending _ := none

/-- The booth has still to send its vote to `ps`. -/
def sends (s : Polls ι β) (b : β) (ps : List Bytes) : Polls ι β :=
  { s with sending := Function.update s.sending b (some ps) }

inductive Step : Polls ι β → Event ι β → Polls ι β → Prop
  | access {s : Polls ι β} {x : ι ⊕ β} {a : Access (ι ⊕ β)} {n : PeerNetwork (ι ⊕ β)} :
      (∀ b, x = .inr b → s.network.rounds (.inr b) = 0) →
      PeerNetwork.Step s.network (x, a) n →
      Step s (.access x a) { s with network := n }
  | cast {s : Polls ι β} {b : β} :
      s.network.rounds (.inr b) = 1 → s.sending b = none →
      Step s (.cast b) (s.sends b (s.network.clients (.inr b)).peerClients)
  | deliver {s : Polls ι β} {b : β} {y : ι ⊕ β} {ps : List Bytes} :
      s.sending b = some ((s.network.clients y).myAddress :: ps) →
      Step s (.deliver b y) (s.sends b ps)
  | fail {s : Polls ι β} {b : β} {p : Bytes} {ps : List Bytes} :
      s.sending b = some (p :: ps) → Step s (.fail b) (s.sends b ps)

end Polls

def polls {ι β : Type*} [DecidableEq ι] [DecidableEq β] (links : Links ι) (entry : β → ι) :
    TransitionSystem (Polls ι β) (Polls.Event ι β) where
  init s := s = .initial links entry
  step := Polls.Step

namespace Polls

variable {ι β : Type*} [DecidableEq ι] [DecidableEq β] {links : Links ι} {entry : β → ι}
  {s s' : Polls ι β} {e : Event ι β}

omit [DecidableEq ι] in
@[simp] theorem sending_sends_self (s : Polls ι β) (b : β) (ps : List Bytes) :
    (s.sends b ps).sending b = some ps := Function.update_self _ _ _

omit [DecidableEq ι] in
theorem sending_sends_of_ne {b c : β} (h : c ≠ b) (ps : List Bytes) :
    (s.sends b ps).sending c = s.sending c := Function.update_of_ne h _ _

/-! ## The peers do not notice the booths -/

/-- The network as the peers see it. -/
def peersOf (n : PeerNetwork (ι ⊕ β)) : PeerNetwork ι where
  clients x := n.clients (.inl x)
  phases x := n.phases (.inl x)
  rounds x := n.rounds (.inl x)

theorem peersOf_goOn (n : PeerNetwork (ι ⊕ β)) (x : ι) (phase : Phase) :
    peersOf (n.goOn (.inl x) phase) = (peersOf n).goOn x phase := by
  unfold peersOf PeerNetwork.goOn
  congr 1
  exact Function.update_comp_eq_of_injective n.phases Sum.inl_injective x phase

theorem peersOf_goOn_booth (n : PeerNetwork (ι ⊕ β)) (b : β) (phase : Phase) :
    peersOf (n.goOn (.inr b) phase) = peersOf n := by
  unfold peersOf PeerNetwork.goOn
  congr 1

theorem peersOf_addTo (n : PeerNetwork (ι ⊕ β)) (y : ι) (addr : Bytes) :
    peersOf (n.addTo (.inl y) addr) = (peersOf n).addTo y addr := by
  unfold peersOf PeerNetwork.addTo
  congr 1
  exact Function.update_comp_eq_of_injective n.clients Sum.inl_injective y _

theorem peersOf_addTo_booth (n : PeerNetwork (ι ⊕ β)) (b : β) (addr : Bytes) :
    peersOf (n.addTo (.inr b) addr) = peersOf n := by
  unfold peersOf PeerNetwork.addTo
  congr 1

theorem peersOf_finish (n : PeerNetwork (ι ⊕ β)) (x : ι) :
    peersOf (n.finish (.inl x)) = (peersOf n).finish x := by
  have hgoOn := peersOf_goOn n x .idle
  have hrounds : (fun y => Function.update n.rounds (.inl x) (n.rounds (.inl x) + 1) (.inl y)) =
      Function.update (fun y => n.rounds (.inl y)) x (n.rounds (.inl x) + 1) :=
    Function.update_comp_eq_of_injective n.rounds Sum.inl_injective x _
  unfold PeerNetwork.finish
  rw [← hgoOn]
  unfold peersOf
  exact congrArg _ hrounds

theorem peersOf_finish_booth (n : PeerNetwork (ι ⊕ β)) (b : β) :
    peersOf (n.finish (.inr b)) = peersOf n := peersOf_goOn_booth n b .idle

/-- Whoever is known is a peer, and everyone keeps the addresses it was started with. -/
structure Known (links : Links ι) (entry : β → ι) (s : Polls ι β) : Prop where
  within : s.network.Within fun p => ∃ y, links.address y = p
  peers : ∀ x, (s.network.clients (.inl x)).myAddress = links.address x
  booths : ∀ b, (s.network.clients (.inr b)).myAddress = notAnIpToken ∧
    (s.network.clients (.inr b)).firstPeer = links.address (entry b)
  sending : ∀ b ps, s.sending b = some ps → ∀ p ∈ ps, ∃ y, links.address y = p

omit [DecidableEq ι] in
theorem Known.sending_sends (h : s.Known links entry) {b : β} {ps : List Bytes}
    (hps : ∀ p ∈ ps, ∃ y, links.address y = p) :
    ∀ c qs, (s.sends b ps).sending c = some qs → ∀ p ∈ qs, ∃ y, links.address y = p := by
  intro c qs hqs
  by_cases hc : c = b
  · subst hc
    rw [sending_sends_self] at hqs
    cases hqs
    exact hps
  · rw [sending_sends_of_ne hc] at hqs
    exact h.sending c qs hqs

theorem known_invariant (links : Links ι) (entry : β → ι) :
    (polls links entry).Invariant (Known links entry) where
  init := by
    rintro s rfl
    refine ⟨⟨?_, ?_, ?_, ?_⟩, fun _ => rfl, fun _ => ⟨rfl, rfl⟩, ?_⟩
    · rintro (x | b)
      · exact ⟨links.first x, rfl⟩
      · exact ⟨entry b, rfl⟩
    · rintro (x | b)
      · exact .inl ⟨x, rfl⟩
      · exact .inr rfl
    · rintro (x | b) p hp
      · cases hp
      · cases hp
    · intro v p hp
      cases hp
    · intro b ps hps
      cases hps
  step := by
    intro s e s' hs h
    cases hs with
    | access _ haccess =>
        refine ⟨haccess.within h.within, fun x => ?_, fun b => ?_, h.sending⟩
        · exact (haccess.fixed _).1.trans (h.peers x)
        · exact ⟨(haccess.fixed _).1.trans (h.booths b).1, (haccess.fixed _).2.trans (h.booths b).2⟩
    | cast => exact ⟨h.within, h.peers, h.booths, h.sending_sends (h.within.listed _)⟩
    | deliver hsending =>
        exact ⟨h.within, h.peers, h.booths, h.sending_sends fun p hp =>
          h.sending _ _ hsending p (List.mem_cons_of_mem _ hp)⟩
    | fail hsending =>
        exact ⟨h.within, h.peers, h.booths, h.sending_sends fun p hp =>
          h.sending _ _ hsending p (List.mem_cons_of_mem _ hp)⟩

omit [DecidableEq ι] [DecidableEq β] in
/-- The address of nobody else is known, so a call reaches a peer. -/
theorem Known.eq_inl (h : s.Known links entry) {y : ι ⊕ β}
    (hy : ∃ z, links.address z = (s.network.clients y).myAddress) : ∃ z, y = .inl z := by
  cases y with
  | inl z => exact ⟨z, rfl⟩
  | inr b =>
      obtain ⟨z, hz⟩ := hy
      rw [(h.booths b).1] at hz
      exact absurd hz (links.ne_token z)

/-- The access as one among peers. -/
def forPeers : Access (ι ⊕ β) → Option (Access ι)
  | .addFirst => some .addFirst
  | .list => some .list
  | .respond (.inl y) => some (.respond y)
  | .respond (.inr _) => none
  | .register (.inl y) => some (.register y)
  | .register (.inr _) => none
  | .asked => some .asked
  | .check => some .check
  | .add => some .add
  | .done => some .done

/-- What an event is for the peers. -/
def Event.peer? : Event ι β → Option (ι × Access ι)
  | .access (.inl x) a => (forPeers a).map fun a => (x, a)
  | _ => none

/-- What the call of a booth does to the peers: nothing. -/
theorem Known.booth_access (h : s.Known links entry) {b : β} {a : Access (ι ⊕ β)}
    {n : PeerNetwork (ι ⊕ β)} (hs : PeerNetwork.Step s.network (.inr b, a) n) :
    peersOf n = peersOf s.network := by
  cases hs with
  | addFirst => rw [peersOf_goOn_booth, peersOf_addTo_booth]
  | register =>
      rw [(h.booths b).1, PeerNetwork.addTo_token, peersOf_goOn_booth]
  | add => rw [peersOf_goOn_booth, peersOf_addTo_booth]
  | done => exact peersOf_finish_booth _ b
  | _ => exact peersOf_goOn_booth _ b _

/-- What the call of a peer does: what it would do without booths. -/
theorem Known.peer_access (h : s.Known links entry) {x : ι} {a : Access (ι ⊕ β)}
    {n : PeerNetwork (ι ⊕ β)} (hs : PeerNetwork.Step s.network (.inl x, a) n) :
    ∃ a', forPeers a = some a' ∧
      PeerNetwork.Step (peersOf s.network) (x, a') (peersOf n) := by
  have hheld := h.within.held (.inl x)
  cases hs with
  | addFirst hphase =>
      rw [peersOf_goOn, peersOf_addTo]
      exact ⟨_, rfl, .addFirst hphase⟩
  | list hphase =>
      rw [peersOf_goOn]
      exact ⟨_, rfl, .list hphase⟩
  | @respond _ y peers newPeers hphase =>
      rw [hphase] at hheld
      obtain ⟨z, rfl⟩ := h.eq_inl (y := y) (hheld _ (by simp [Phase.addresses]))
      rw [peersOf_goOn]
      exact ⟨_, rfl, .respond (s := peersOf s.network) (y := z) hphase⟩
  | @register _ y response peers newPeers hphase =>
      rw [hphase] at hheld
      obtain ⟨z, rfl⟩ := h.eq_inl (y := y) (hheld _ (by simp [Phase.addresses]))
      rw [peersOf_goOn, peersOf_addTo]
      exact ⟨_, rfl, .register (s := peersOf s.network) (y := z) hphase⟩
  | asked hphase =>
      rw [peersOf_goOn]
      exact ⟨_, rfl, .asked hphase⟩
  | check hphase hroom =>
      rw [peersOf_goOn]
      exact ⟨_, rfl, .check hphase hroom⟩
  | add hphase =>
      rw [peersOf_goOn, peersOf_addTo]
      exact ⟨_, rfl, .add hphase⟩
  | done hphase hdone =>
      rw [peersOf_finish]
      exact ⟨_, rfl, .done hphase hdone⟩

theorem peers_simulation (links : Links ι) (entry : β → ι) :
    Simulation (polls links entry) (peerNetwork links) (Known links entry)
      (fun s => peersOf s.network) fun m => m.label.peer? where
  init := by
    rintro s rfl
    rfl
  quiet := by
    intro s e s' hs h hg
    cases hs with
    | @access x a n hrounds haccess =>
        cases x with
        | inl x =>
            obtain ⟨a', ha, -⟩ := h.peer_access haccess
            simp [Event.peer?, ha] at hg
        | inr b => exact h.booth_access haccess
    | _ => rfl
  seen := by
    intro s e s' j hs h hg
    cases hs with
    | @access x a n hrounds haccess =>
        cases x with
        | inl x =>
            obtain ⟨a', ha, hstep⟩ := h.peer_access haccess
            obtain rfl : (x, a') = j := by simpa [Event.peer?, ha] using hg
            exact hstep
        | inr b => cases hg
    | _ => cases hg

/-! ## Whom a booth calls -/

/-- The addresses that the booth has sent its vote to, in order. -/
def calledBy (b : β) (tr : List (Move (Polls ι β) (Event ι β))) : List Bytes :=
  tr.filterMap fun m =>
    match m.label with
    | .deliver c y => if c = b then some (m.pre.network.clients y).myAddress else none
    | _ => none

/-- Nobody but the booth changes its list. -/
theorem Known.clients_booth (h : s.Known links entry) {v : ι ⊕ β} {b : β} {a : Access (ι ⊕ β)}
    {n : PeerNetwork (ι ⊕ β)} (hs : PeerNetwork.Step s.network (v, a) n) (hv : v ≠ .inr b) :
    n.clients (.inr b) = s.network.clients (.inr b) := by
  have hheld := h.within.held v
  cases hs with
  | addFirst => exact PeerNetwork.clients_addTo_of_ne hv.symm _
  | @register _ y response peers newPeers hphase =>
      rw [hphase] at hheld
      obtain ⟨z, rfl⟩ := h.eq_inl (y := y) (hheld _ (by simp [Phase.addresses]))
      have hne : (.inr b : ι ⊕ β) ≠ .inl z := Sum.inr_ne_inl
      exact PeerNetwork.clients_addTo_of_ne hne (s.network.clients v).myAddress
  | add => exact PeerNetwork.clients_addTo_of_ne hv.symm _
  | _ => rfl

/-- What the booth has found, and whom it has sent its vote to in the run. -/
structure Reports (links : Links ι) (entry : β → ι) (b : β)
    (tr : List (Move (Polls ι β) (Event ι β))) (s : Polls ι β) : Prop where
  proper : (s.network.clients (.inr b)).Proper
  first : s.network.phases (.inr b) = .idle ∧ s.network.rounds (.inr b) = 0 ∧
      (s.network.clients (.inr b)).peerClients = [] ∨
    links.address (entry b) ∈ (s.network.clients (.inr b)).peerClients
  begun : ∀ ps, s.sending b = some ps → s.network.rounds (.inr b) = 1
  silent : s.sending b = none → calledBy b tr = []
  sent : ∀ ps, s.sending b = some ps →
    List.Sublist (calledBy b tr ++ ps) (s.network.clients (.inr b)).peerClients ∧
      ((∀ m ∈ tr, m.label ≠ .fail b) →
        calledBy b tr ++ ps = (s.network.clients (.inr b)).peerClients)

omit [DecidableEq ι] in
theorem calledBy_snoc (b : β) (tr : List (Move (Polls ι β) (Event ι β)))
    (m : Move (Polls ι β) (Event ι β)) (h : ∀ y, m.label ≠ .deliver b y) :
    calledBy b (tr ++ [m]) = calledBy b tr := by
  have hnil : calledBy b [m] = [] := by
    unfold calledBy
    cases hlabel : m.label with
    | deliver c y =>
        have hc : c ≠ b := fun hc => h y (hc ▸ hlabel)
        simp [hlabel, hc]
    | _ => simp [hlabel]
  have happend : calledBy b (tr ++ [m]) = calledBy b tr ++ calledBy b [m] := List.filterMap_append
  rw [happend, hnil, List.append_nil]

/-- The own steps of a booth before it casts its vote. -/
theorem Reports.access_self {tr : List (Move (Polls ι β) (Event ι β))} {b : β}
    (h : Reports links entry b tr s) (hk : s.Known links entry) {a : Access (ι ⊕ β)}
    {n : PeerNetwork (ι ⊕ β)} (hs : PeerNetwork.Step s.network (.inr b, a) n) :
    (n.clients (.inr b)).Proper ∧ links.address (entry b) ∈ (n.clients (.inr b)).peerClients := by
  have hown : links.address (entry b) ≠ (s.network.clients (.inr b)).myAddress := by
    rw [(hk.booths b).1]
    exact links.ne_token _
  have hmem : s.network.phases (.inr b) ≠ .idle →
      links.address (entry b) ∈ (s.network.clients (.inr b)).peerClients :=
    fun hphase => h.first.resolve_left fun hidle => hphase hidle.1
  constructor
  · rcases hs.clients_cases (.inr b) with hv | ⟨addr, hv⟩
    · rw [hv]
      exact h.proper
    · rw [hv]
      exact h.proper.addNewPeer addr
  · cases hs with
    | addFirst hphase =>
        have hroom : (s.network.clients (.inr b)).HasRoomFor (links.address (entry b)) := by
          rcases h.first with ⟨-, -, hnil⟩ | hmem
          · refine .inl ?_
            rw [hnil]
            exact Nat.zero_lt_succ _
          · exact .inr hmem
        change _ ∈ ((s.network.addTo (.inr b) (s.network.clients (.inr b)).firstPeer).clients
          (.inr b)).peerClients
        rw [PeerNetwork.clients_addTo_self, (hk.booths b).2]
        exact hroom.mem_addNewPeer hown (links.ne_token _)
    | list hphase => exact hmem (by simp [hphase])
    | respond hphase => exact hmem (by simp [hphase])
    | register hphase =>
        exact (PeerNetwork.Step.register hphase).subset (.inr b) (hmem (by simp [hphase]))
    | asked hphase => exact hmem (by simp [hphase])
    | check hphase => exact hmem (by simp [hphase])
    | add hphase => exact (PeerNetwork.Step.add hphase).subset (.inr b) (hmem (by simp [hphase]))
    | done hphase => exact hmem (by simp [hphase])

omit [DecidableEq ι] in
/-- A step that is none of the booth. -/
theorem Reports.other {tr : List (Move (Polls ι β) (Event ι β))} {b : β}
    (h : Reports links entry b tr s) (hdeliver : ∀ y, e ≠ .deliver b y)
    (hclient : s'.network.clients (.inr b) = s.network.clients (.inr b))
    (hphase : s'.network.phases (.inr b) = s.network.phases (.inr b))
    (hrounds : s'.network.rounds (.inr b) = s.network.rounds (.inr b))
    (hsending : s'.sending b = s.sending b) : Reports links entry b (tr ++ [⟨s, e, s'⟩]) s' := by
  have hcalled : calledBy b (tr ++ [⟨s, e, s'⟩]) = calledBy b tr := calledBy_snoc b tr _ hdeliver
  constructor
  · rw [hclient]
    exact h.proper
  · rw [hclient, hphase, hrounds]
    exact h.first
  · rw [hsending, hrounds]
    exact h.begun
  · rw [hsending, hcalled]
    exact h.silent
  · intro ps hps
    rw [hsending] at hps
    rw [hclient, hcalled]
    refine (h.sent ps hps).imp_right fun hall hfail => hall fun m hm => ?_
    exact hfail m (List.mem_append_left _ hm)

theorem Reports.step {tr : List (Move (Polls ι β) (Event ι β))} {b : β}
    (h : Reports links entry b tr s) (hk : s.Known links entry) (hs : Step s e s') :
    Reports links entry b (tr ++ [⟨s, e, s'⟩]) s' := by
  cases hs with
  | @access v a n hrounds haccess =>
      by_cases hv : v = .inr b
      · subst hv
        -- a booth bootstraps once, before it sends anything
        have hzero := hrounds b rfl
        have hnone : s.sending b = none := by
          cases hsending : s.sending b with
          | none => rfl
          | some ps => exact absurd (h.begun ps hsending) (by omega)
        obtain ⟨hproper, hmem⟩ := h.access_self hk haccess
        have hcalled := calledBy_snoc b tr ⟨s, .access (.inr b) a, { s with network := n }⟩
          (by simp)
        refine ⟨hproper, .inr hmem, fun ps hps => ?_, fun _ => ?_, fun ps hps => ?_⟩
        · cases hnone.symm.trans hps
        · rw [hcalled]
          exact h.silent hnone
        · cases hnone.symm.trans hps
      · obtain ⟨hphase, hround⟩ := haccess.others (Ne.symm hv)
        exact h.other (by simp) (hk.clients_booth haccess hv) hphase hround rfl
  | @cast c hone hnone =>
      by_cases hc : b = c
      · subst hc
        have hcalled := calledBy_snoc b tr ⟨s, .cast b, s.sends b
          (s.network.clients (.inr b)).peerClients⟩ (by simp)
        have hnil : calledBy b tr = [] := h.silent hnone
        refine ⟨h.proper, h.first, fun _ _ => hone, fun hnot => ?_, fun ps hps => ?_⟩
        · rw [sending_sends_self] at hnot
          cases hnot
        · rw [sending_sends_self] at hps
          cases hps
          rw [hcalled, hnil]
          exact ⟨List.Sublist.refl _, fun _ => rfl⟩
      · exact h.other (by simp) rfl rfl rfl (sending_sends_of_ne hc _)
  | @deliver c y ps hsending =>
      by_cases hc : b = c
      · subst hc
        have hcalled : calledBy b (tr ++ [⟨s, .deliver b y, s.sends b ps⟩]) =
            calledBy b tr ++ [(s.network.clients y).myAddress] := by
          unfold calledBy
          rw [List.filterMap_append]
          simp
        obtain ⟨hsub, hall⟩ := h.sent _ hsending
        refine ⟨h.proper, h.first, fun _ _ => h.begun _ hsending, fun hnot => ?_,
          fun qs hqs => ?_⟩
        · rw [sending_sends_self] at hnot
          cases hnot
        · rw [sending_sends_self] at hqs
          cases hqs
          -- the peer moves from the calls that are left to those that were made
          rw [hcalled, List.append_assoc]
          exact ⟨hsub, fun hfail => hall fun m hm => hfail m (List.mem_append_left _ hm)⟩
      · exact h.other (by simp [Ne.symm hc]) rfl rfl rfl (sending_sends_of_ne hc _)
  | @fail c p ps hsending =>
      by_cases hc : b = c
      · subst hc
        -- a failed call is skipped, so that what was called is a sublist of the list
        have hcalled := calledBy_snoc b tr ⟨s, .fail b, s.sends b ps⟩ (by simp)
        obtain ⟨hsub, -⟩ := h.sent _ hsending
        refine ⟨h.proper, h.first, fun _ _ => h.begun _ hsending, fun hnot => ?_,
          fun qs hqs => ?_⟩
        · rw [sending_sends_self] at hnot
          cases hnot
        · rw [sending_sends_self] at hqs
          cases hqs
          rw [hcalled]
          refine ⟨?_, fun hfail => absurd rfl (hfail _ (List.mem_append_right _
            (List.mem_singleton_self _)))⟩
          exact ((List.Sublist.refl _).append (List.sublist_cons_self _ _)).trans hsub
      · exact h.other (by simp) rfl rfl rfl (sending_sends_of_ne hc _)

theorem run_reports {tr : List (Move (Polls ι β) (Event ι β))}
    (hrun : (polls links entry).Run (.initial links entry) tr s) (b : β) :
    Reports links entry b tr s := by
  induction hrun with
  | nil =>
      refine ⟨⟨Nat.zero_le _, List.not_mem_nil, List.nodup_nil, List.not_mem_nil⟩,
        .inl ⟨rfl, rfl, rfl⟩, ?_, fun _ => rfl, ?_⟩
      · intro ps hps
        cases hps
      · intro ps hps
        cases hps
  | snoc hrun hstep ih =>
      have hinv := known_invariant links entry
      exact ih.step (hinv.preserved.run hrun (hinv.init _ rfl) (by simp)) hstep

/-- Among any peers and any booths, under any schedule, the peers find each other
as if there were no booths. A booth sends its vote to peers only, to at most
`MAX_PEERS`, and to none twice; when it is done and no call failed, to all it
found, the one that it was started with among them. -/
theorem run_polls {tr : List (Move (Polls ι β) (Event ι β))}
    (hrun : (polls links entry).Run (.initial links entry) tr s) :
    (∃ tr', (peerNetwork links).Run (.initial links) tr' (peersOf s.network) ∧
        tr'.map (·.label) = tr.filterMap fun m => m.label.peer?) ∧
      ∀ b, (calledBy b tr).Nodup ∧ (calledBy b tr).length ≤ maxPeers ∧
        (∀ p ∈ calledBy b tr, ∃ y, links.address y = p) ∧
        (s.sending b = some [] → (∀ m ∈ tr, m.label ≠ .fail b) →
          links.address (entry b) ∈ calledBy b tr ∧
            calledBy b tr = (s.network.clients (.inr b)).peerClients) := by
  have hinv := known_invariant links entry
  refine ⟨⟨_, (peers_simulation links entry).run hinv.preserved hrun (hinv.init _ rfl),
    TransitionSystem.labels_image tr⟩, fun b => ?_⟩
  have hk := hinv.preserved.run hrun (hinv.init _ rfl) (by simp)
  have h := run_reports hrun b
  have hsub : List.Sublist (calledBy b tr) (s.network.clients (.inr b)).peerClients := by
    cases hsending : s.sending b with
    | none =>
        rw [h.silent hsending]
        exact List.nil_sublist _
    | some ps => exact (List.sublist_append_left _ ps).trans (h.sent ps hsending).1
  refine ⟨hsub.nodup h.proper.nodup, Nat.le_trans hsub.length_le h.proper.length_le,
    fun p hp => hk.within.listed _ p (hsub.subset hp), fun hdone hfail => ?_⟩
  have hall := (h.sent [] hdone).2 hfail
  rw [List.append_nil] at hall
  refine ⟨hall ▸ h.first.resolve_left fun hidle => ?_, hall⟩
  have hone := h.begun [] hdone
  omega

open PeerNetwork (pairLinks)

/-- A booth asks one of two peers, finds no other, and sends it its vote. -/
theorem exists_polled :
    ∃ tr s, (polls pairLinks fun _ : Unit => false).Run (.initial pairLinks fun _ => false) tr s ∧
      s.sending () = some [] ∧ ∀ m ∈ tr, m.label ≠ .fail () := by
  let b : Bool ⊕ Unit := .inr ()
  let n₀ := (initial pairLinks fun _ : Unit => false).network
  let n₁ := (n₀.addTo b [48]).goOn b .begun
  let n₂ := n₁.goOn b (.asking [[48]] [])
  let n₃ := n₂.goOn b (.waiting [48] [] [] [])
  let n₄ := (n₃.addTo (.inl false) (n₃.clients b).myAddress).goOn b (.asking [] [])
  let n₅ := n₄.goOn b (.adding [])
  let n₆ := n₅.finish b
  let f : PeerNetwork (Bool ⊕ Unit) → Polls Bool Unit := fun n => ⟨n, fun _ => none⟩
  have h₁ : Step (f n₀) (.access b .addFirst) (f n₁) := .access (fun _ _ => rfl) (.addFirst rfl)
  have h₂ : Step (f n₁) (.access b .list) (f n₂) := .access (fun _ _ => rfl) (.list rfl)
  have h₃ : Step (f n₂) (.access b (.respond (.inl false))) (f n₃) :=
    .access (fun _ _ => rfl) (.respond rfl)
  have h₄ : Step (f n₃) (.access b (.register (.inl false))) (f n₄) :=
    .access (fun _ _ => rfl) (@PeerNetwork.Step.register _ _ n₃ b (.inl false) [] [] [] rfl)
  have h₅ : Step (f n₄) (.access b .asked) (f n₅) := .access (fun _ _ => rfl) (.asked rfl)
  have h₆ : Step (f n₅) (.access b .done) (f n₆) := .access (fun _ _ => rfl) (.done rfl (.inl rfl))
  have h₇ : Step (f n₆) (.cast ()) ((f n₆).sends () [[48]]) := .cast rfl rfl
  have h₈ : Step ((f n₆).sends () [[48]]) (.deliver () (.inl false))
      (((f n₆).sends () [[48]]).sends () []) := .deliver rfl
  refine ⟨_, _, .snoc (.snoc (.snoc (.snoc (.snoc (.snoc (.snoc (.snoc .nil h₁) h₂) h₃) h₄) h₅)
    h₆) h₇) h₈, rfl, by simp⟩

theorem run_polls_one :
    ∃ tr s, (polls pairLinks fun _ : Unit => false).Run (.initial pairLinks fun _ => false) tr s ∧
      s.sending () = some [] ∧
      (∃ tr', (peerNetwork pairLinks).Run (.initial pairLinks) tr' (peersOf s.network) ∧
        tr'.map (·.label) = tr.filterMap fun m => m.label.peer?) ∧
      ∀ b, (calledBy b tr).Nodup ∧ (calledBy b tr).length ≤ maxPeers ∧
        (∀ p ∈ calledBy b tr, ∃ y, pairLinks.address y = p) ∧
        (s.sending b = some [] → (∀ m ∈ tr, m.label ≠ .fail b) →
          pairLinks.address false ∈ calledBy b tr ∧
            calledBy b tr = (s.network.clients (.inr b)).peerClients) := by
  obtain ⟨tr, s, hrun, hdone, -⟩ := exists_polled
  exact ⟨tr, s, hrun, hdone, run_polls hrun⟩

end Polls

end OneVote
