-- SUMMARY: The peer list of a client, and miners that fill theirs by asking their peers for addresses.
import Mathlib.Logic.Function.Basic
import Mathlib.Logic.Relation
import OneVote.Base.TransitionSystem
import OneVote.Memory

/-!
# Peers

`bootstrapPeers` asks every peer for its list and adds what it is told. The peer
adds the address of the one that asked. Other threads push to the same list in
between, so the call is cut at every access to it. A push goes to the front of
the list, where an iteration that has begun does not see it.
-/

namespace OneVote

open TransitionSystem (Move)

/-- `MAX_PEERS` -/
abbrev maxPeers : Nat := 10

/-- `NOT_AN_IP_TOKEN` -/
def notAnIpToken : Bytes := [100, 117, 109, 109, 121]

structure Client where
  myAddress : Bytes
  firstPeer : Bytes
  /-- the addresses of `peer_clients_`, front first -/
  peerClients : List Bytes
  deriving DecidableEq

namespace Client

/-- `addNewPeer` -/
def addNewPeer (c : Client) (addr : Bytes) : Client :=
  -- a full list drops the address without a word
  if maxPeers ≤ c.peerClients.length ∨ addr = c.myAddress ∨ addr = notAnIpToken then c
  else if c.peerClients.any (· = addr) then c
  else { c with peerClients := addr :: c.peerClients }

/-- `getPeersList`, which pushes each address to the front of a new list. -/
def getPeersList (c : Client) : List Bytes := c.peerClients.reverse

/-- There is room for the address, or it is in the list already. -/
def HasRoomFor (c : Client) (addr : Bytes) : Prop :=
  c.peerClients.length < maxPeers ∨ addr ∈ c.peerClients

/-- What `addNewPeer` can do: nothing, or a new address in front. -/
theorem addNewPeer_cases (c : Client) (addr : Bytes) :
    c.addNewPeer addr = c ∨ c.peerClients.length < maxPeers ∧ addr ≠ c.myAddress ∧
      addr ≠ notAnIpToken ∧ addr ∉ c.peerClients ∧
        c.addNewPeer addr = { c with peerClients := addr :: c.peerClients } := by
  unfold addNewPeer
  split
  · exact .inl rfl
  · rename_i hok
    rw [not_or, not_or] at hok
    obtain ⟨hroom, hown, htoken⟩ := hok
    split
    · exact .inl rfl
    · rename_i hnew
      exact .inr ⟨Nat.not_le.1 hroom, hown, htoken, by simpa using hnew, rfl⟩

@[simp] theorem myAddress_addNewPeer (c : Client) (addr : Bytes) :
    (c.addNewPeer addr).myAddress = c.myAddress := by
  rcases c.addNewPeer_cases addr with h | ⟨-, -, -, -, h⟩ <;> rw [h]

@[simp] theorem firstPeer_addNewPeer (c : Client) (addr : Bytes) :
    (c.addNewPeer addr).firstPeer = c.firstPeer := by
  rcases c.addNewPeer_cases addr with h | ⟨-, -, -, -, h⟩ <;> rw [h]

theorem subset_addNewPeer (c : Client) (addr : Bytes) :
    c.peerClients ⊆ (c.addNewPeer addr).peerClients := by
  rcases c.addNewPeer_cases addr with h | ⟨-, -, -, -, h⟩
  · rw [h]
    exact List.Subset.refl _
  · rw [h]
    exact List.subset_cons_self _ _

theorem mem_of_mem_addNewPeer {c : Client} {addr p : Bytes}
    (hp : p ∈ (c.addNewPeer addr).peerClients) : p ∈ c.peerClients ∨ p = addr := by
  rcases c.addNewPeer_cases addr with h | ⟨-, -, -, -, h⟩
  · rw [h] at hp
    exact .inl hp
  · rw [h] at hp
    exact (List.mem_cons.1 hp).symm

theorem peerClients_addNewPeer {c : Client} {addr : Bytes} (hroom : c.peerClients.length < maxPeers)
    (hown : addr ≠ c.myAddress) (htoken : addr ≠ notAnIpToken) (hnew : addr ∉ c.peerClients) :
    (c.addNewPeer addr).peerClients = addr :: c.peerClients := by
  unfold addNewPeer
  rw [if_neg (by simp [hown, htoken, hroom]), if_neg (by simpa using hnew)]

/-- An address for which there is room is in the list afterwards. -/
theorem HasRoomFor.mem_addNewPeer {c : Client} {addr : Bytes} (h : c.HasRoomFor addr)
    (hown : addr ≠ c.myAddress) (htoken : addr ≠ notAnIpToken) :
    addr ∈ (c.addNewPeer addr).peerClients := by
  by_cases hmem : addr ∈ c.peerClients
  · exact c.subset_addNewPeer addr hmem
  · rw [peerClients_addNewPeer (h.resolve_right hmem) hown htoken hmem]
    exact List.mem_cons_self

/-- The invariants that the comment on `addNewPeer` names. -/
structure Proper (c : Client) : Prop where
  length_le : c.peerClients.length ≤ maxPeers
  not_own : c.myAddress ∉ c.peerClients
  nodup : c.peerClients.Nodup
  not_token : notAnIpToken ∉ c.peerClients

theorem Proper.addNewPeer {c : Client} (hc : c.Proper) (addr : Bytes) :
    (c.addNewPeer addr).Proper := by
  rcases c.addNewPeer_cases addr with h | ⟨hroom, hown, htoken, hnew, h⟩
  · rwa [h]
  · rw [h]
    refine ⟨hroom, ?_, List.nodup_cons.2 ⟨hnew, hc.nodup⟩, ?_⟩
    · exact List.not_mem_cons_of_ne_of_not_mem (Ne.symm hown) hc.not_own
    · exact List.not_mem_cons_of_ne_of_not_mem (Ne.symm htoken) hc.not_token

/-- A full list stays as it is. -/
theorem addNewPeer_of_full {c : Client} (h : maxPeers ≤ c.peerClients.length) (addr : Bytes) :
    c.addNewPeer addr = c :=
  if_pos (.inl h)

end Client

/-! ## A network of clients -/

/-- Where a call of `bootstrapPeers` stands. -/
inductive Phase
  /-- there is no call -/
  | idle
  /-- `first_peer_` was added -/
  | begun
  /-- `peers` are still to be asked -/
  | asking (peers newPeers : List Bytes)
  /-- the peer that is being asked has written its list to the response -/
  | waiting (peer : Bytes) (response peers newPeers : List Bytes)
  /-- `newPeers` are still to be added -/
  | adding (newPeers : List Bytes)
  /-- the size was checked, and `peer` is added next -/
  | pushing (peer : Bytes) (newPeers : List Bytes)

/-- The peers that the call has not asked yet, once it has begun to ask. -/
def Phase.toAsk : Phase → Option (List Bytes)
  | .idle | .begun => none
  | .asking peers _ => some peers
  | .waiting peer _ peers _ => some (peer :: peers)
  | .adding _ | .pushing _ _ => some []

/-- The addresses that the call holds. -/
def Phase.addresses : Phase → List Bytes
  | .idle | .begun => []
  | .asking peers newPeers => peers ++ newPeers
  | .waiting peer response peers newPeers => peer :: (response ++ peers ++ newPeers)
  | .adding newPeers => newPeers
  | .pushing peer newPeers => peer :: newPeers

structure PeerNetwork (ι : Type*) where
  clients : ι → Client
  phases : ι → Phase
  /-- how many calls of `bootstrapPeers` have returned -/
  rounds : ι → Nat

/-- One access of a call to a list of peers. -/
inductive Access (ι : Type*)
  | addFirst
  | list
  /-- `GetAddr` at the given miner, up to the response -/
  | respond (y : ι)
  /-- the rest of `GetAddr` -/
  | register (y : ι)
  | asked
  | check
  | add
  | done

/-- Miners with distinct addresses. Each is started with the address of another
as its first peer, and these links connect them all. -/
structure Links (ι : Type*) where
  address : ι → Bytes
  first : ι → ι
  injective : Function.Injective address
  ne_token : ∀ x, address x ≠ notAnIpToken
  first_ne : ∀ x, first x ≠ x
  linked : ∀ x y, Relation.ReflTransGen (fun a b => first a = b ∨ first b = a) x y

namespace PeerNetwork

variable {ι : Type*} [DecidableEq ι]

def initial (links : Links ι) : PeerNetwork ι where
  clients x := ⟨links.address x, links.address (links.first x), []⟩
  phases _ := .idle
  rounds _ := 0

/-- The call at `x` goes on with the given phase. -/
def goOn (s : PeerNetwork ι) (x : ι) (phase : Phase) : PeerNetwork ι :=
  { s with phases := Function.update s.phases x phase }

/-- The address is added to the list of `y`. -/
def addTo (s : PeerNetwork ι) (y : ι) (addr : Bytes) : PeerNetwork ι :=
  { s with clients := Function.update s.clients y ((s.clients y).addNewPeer addr) }

/-- The call at `x` returns. -/
def finish (s : PeerNetwork ι) (x : ι) : PeerNetwork ι :=
  { s.goOn x .idle with rounds := Function.update s.rounds x (s.rounds x + 1) }

inductive Step : PeerNetwork ι → ι × Access ι → PeerNetwork ι → Prop
  | addFirst {s : PeerNetwork ι} {x : ι} :
      s.phases x = .idle →
      Step s (x, .addFirst) ((s.addTo x (s.clients x).firstPeer).goOn x .begun)
  | list {s : PeerNetwork ι} {x : ι} :
      s.phases x = .begun →
      Step s (x, .list) (s.goOn x (.asking (s.clients x).peerClients []))
  | respond {s : PeerNetwork ι} {x y : ι} {peers newPeers : List Bytes} :
      s.phases x = .asking ((s.clients y).myAddress :: peers) newPeers →
      Step s (x, .respond y)
        (s.goOn x (.waiting (s.clients y).myAddress (s.clients y).getPeersList peers newPeers))
  | register {s : PeerNetwork ι} {x y : ι} {response peers newPeers : List Bytes} :
      s.phases x = .waiting (s.clients y).myAddress response peers newPeers →
      Step s (x, .register y)
        ((s.addTo y (s.clients x).myAddress).goOn x
          (.asking peers (response.foldl (fun newPeers p => p :: newPeers) newPeers)))
  | asked {s : PeerNetwork ι} {x : ι} {newPeers : List Bytes} :
      s.phases x = .asking [] newPeers → Step s (x, .asked) (s.goOn x (.adding newPeers))
  | check {s : PeerNetwork ι} {x : ι} {peer : Bytes} {newPeers : List Bytes} :
      s.phases x = .adding (peer :: newPeers) →
      (s.clients x).peerClients.length < maxPeers →
      Step s (x, .check) (s.goOn x (.pushing peer newPeers))
  | add {s : PeerNetwork ι} {x : ι} {peer : Bytes} {newPeers : List Bytes} :
      s.phases x = .pushing peer newPeers →
      Step s (x, .add) ((s.addTo x peer).goOn x (.adding newPeers))
  | done {s : PeerNetwork ι} {x : ι} {newPeers : List Bytes} :
      s.phases x = .adding newPeers →
      newPeers = [] ∨ maxPeers ≤ (s.clients x).peerClients.length →
      Step s (x, .done) (s.finish x)

/-! ## What a step changes -/

theorem clients_addTo (s : PeerNetwork ι) (y j : ι) (addr : Bytes) :
    (s.addTo y addr).clients j = s.clients j ∨
      (s.addTo y addr).clients j = (s.clients j).addNewPeer addr := by
  by_cases hj : j = y
  · subst hj
    exact .inr (Function.update_self _ _ _)
  · exact .inl (Function.update_of_ne hj _ _)

/-- A list changes by addresses that are added to it. -/
theorem Step.clients_cases {s s' : PeerNetwork ι} {a : ι × Access ι} (hs : Step s a s') (j : ι) :
    s'.clients j = s.clients j ∨ ∃ addr, s'.clients j = (s.clients j).addNewPeer addr := by
  cases hs with
  | addFirst => exact (clients_addTo s _ j _).imp_right fun h => ⟨_, h⟩
  | register => exact (clients_addTo s _ j _).imp_right fun h => ⟨_, h⟩
  | add => exact (clients_addTo s _ j _).imp_right fun h => ⟨_, h⟩
  | _ => exact .inl rfl

theorem Step.subset {s s' : PeerNetwork ι} {a : ι × Access ι} (hs : Step s a s') (j : ι) :
    (s.clients j).peerClients ⊆ (s'.clients j).peerClients := by
  rcases hs.clients_cases j with h | ⟨addr, h⟩
  · rw [h]
    exact List.Subset.refl _
  · rw [h]
    exact Client.subset_addNewPeer _ _

/-- The miners keep the addresses that they were started with. -/
def Addressed (links : Links ι) (s : PeerNetwork ι) : Prop :=
  ∀ x, (s.clients x).myAddress = links.address x ∧
    (s.clients x).firstPeer = links.address (links.first x)

theorem Step.addressed {links : Links ι} {s s' : PeerNetwork ι} {a : ι × Access ι}
    (hs : Step s a s') (h : s.Addressed links) : s'.Addressed links := by
  intro x
  rcases hs.clients_cases x with hx | ⟨addr, hx⟩
  · rw [hx]
    exact h x
  · rw [hx, Client.myAddress_addNewPeer, Client.firstPeer_addNewPeer]
    exact h x

@[simp] theorem phases_goOn (s : PeerNetwork ι) (x : ι) (phase : Phase) :
    (s.goOn x phase).phases x = phase := Function.update_self _ _ _

theorem phases_goOn_of_ne (s : PeerNetwork ι) {x j : ι} (hj : j ≠ x) (phase : Phase) :
    (s.goOn x phase).phases j = s.phases j := Function.update_of_ne hj _ _

theorem clients_addTo_self (s : PeerNetwork ι) (y : ι) (addr : Bytes) :
    (s.addTo y addr).clients y = (s.clients y).addNewPeer addr := Function.update_self _ _ _

/-- Only the call at the miner of the step goes on. -/
theorem Step.others {s s' : PeerNetwork ι} {x : ι} {a : Access ι} (hs : Step s (x, a) s') {j : ι}
    (hj : j ≠ x) : s'.phases j = s.phases j ∧ s'.rounds j = s.rounds j := by
  cases hs with
  | done => exact ⟨phases_goOn_of_ne s hj _, Function.update_of_ne hj _ _⟩
  | _ => exact ⟨phases_goOn_of_ne _ hj _, rfl⟩

end PeerNetwork

def peerNetwork {ι : Type*} [DecidableEq ι] (links : Links ι) :
    TransitionSystem (PeerNetwork ι) (ι × Access ι) where
  init s := s = .initial links
  step := PeerNetwork.Step

/-- No list is too long, and none names a miner twice or the miner itself. -/
theorem proper_invariant {ι : Type*} [DecidableEq ι] (links : Links ι) :
    (peerNetwork links).Invariant fun s => ∀ x, (s.clients x).Proper where
  init := by
    rintro s rfl x
    exact ⟨Nat.zero_le _, List.not_mem_nil, List.nodup_nil, List.not_mem_nil⟩
  step := by
    intro s a s' hs h x
    rcases hs.clients_cases x with hx | ⟨addr, hx⟩
    · rw [hx]
      exact h x
    · rw [hx]
      exact (h x).addNewPeer addr

end OneVote
