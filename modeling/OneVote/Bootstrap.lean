-- SUMMARY: One call of bootstrapPeers on its own: it takes all it is told up to ten peers, however many one peer tells.
import OneVote.Peers

/-!
# Bootstrapping

`bootstrapPeers` without other threads in between. The peers of the client are
asked for their lists, and what they answer is added as long as there is room.
-/

namespace OneVote

/-- `MAX_SECOND_DEGREE_FROM_PEER` -/
abbrev maxSecondDegreeFromPeer : Nat := 2

structure AddrRequest where
  numRequested : UInt32

/-- What `SinglePeerClient::GetAddr` sends. -/
def SinglePeerClient.addrRequest : AddrRequest := ⟨maxSecondDegreeFromPeer.toUInt32⟩

/-- `GetAddr` at the server of client `c`, for a caller with the address
`addr`: the response, and the client afterwards. -/
def MinerService.getAddr (c : Client) (_ : AddrRequest) (addr : Bytes) : List Bytes × Client :=
  -- `num_requested` is not read
  (c.getPeersList, c.addNewPeer addr)

namespace Client

/-- The loops that collect the responses: each address goes to the front. -/
def collect (respond : Bytes → List Bytes) (peers newPeers : List Bytes) : List Bytes :=
  peers.foldl
    (fun newPeers peer => (respond peer).foldl (fun newPeers p => p :: newPeers) newPeers) newPeers

/-- The loop that adds what was collected, up to its `break`. -/
def addPeers : List Bytes → Client → Client
  | [], c => c
  | p :: newPeers, c =>
      if maxPeers ≤ c.peerClients.length then c else addPeers newPeers (c.addNewPeer p)

/-- `bootstrapPeers`, where `respond` are the responses of the peers: the client
afterwards, and the result. -/
def bootstrapPeers (respond : Bytes → List Bytes) (c : Client) : Client × Nat :=
  let c := c.addNewPeer c.firstPeer
  let c := addPeers (collect respond c.peerClients []) c
  (c, c.peerClients.length)

/-! ## Adding -/

/-- What every call of `addNewPeer` keeps, the loop keeps. -/
theorem addPeers_preserves {P : Client → Prop} (hadd : ∀ c p, P c → P (c.addNewPeer p))
    {c : Client} (hc : P c) (newPeers : List Bytes) : P (addPeers newPeers c) := by
  induction newPeers generalizing c with
  | nil => exact hc
  | cons p newPeers ih =>
      rw [addPeers]
      split
      · exact hc
      · exact ih (hadd c p hc)

theorem Proper.addPeers {c : Client} (hc : c.Proper) (newPeers : List Bytes) :
    (addPeers newPeers c).Proper :=
  addPeers_preserves (fun _ p hc => hc.addNewPeer p) hc newPeers

theorem mem_of_mem_addPeers {newPeers : List Bytes} {c : Client} {a : Bytes}
    (ha : a ∈ (addPeers newPeers c).peerClients) : a ∈ c.peerClients ∨ a ∈ newPeers := by
  induction newPeers generalizing c with
  | nil => exact .inl ha
  | cons p newPeers ih =>
      rw [addPeers] at ha
      split at ha
      · exact .inl ha
      · rcases ih ha with ha | ha
        · rcases mem_of_mem_addNewPeer ha with ha | rfl
          · exact .inl ha
          · exact .inr List.mem_cons_self
        · exact .inr (List.mem_cons_of_mem _ ha)

@[simp] theorem myAddress_addPeers (newPeers : List Bytes) (c : Client) :
    (addPeers newPeers c).myAddress = c.myAddress :=
  addPeers_preserves (fun c' p hsame => (c'.myAddress_addNewPeer p).trans hsame) rfl newPeers

/-- An address that a call was made for: it is listed, or there is no room for
it, or the client does not list it. -/
def Settled (c : Client) (a : Bytes) : Prop :=
  a ∈ c.peerClients ∨ c.peerClients.length = maxPeers ∨ a = c.myAddress ∨ a = notAnIpToken

theorem Proper.settled_of_full {c : Client} (hc : c.Proper)
    (hfull : maxPeers ≤ c.peerClients.length) (a : Bytes) : c.Settled a :=
  .inr (.inl (Nat.le_antisymm hc.length_le hfull))

theorem Proper.settled_addNewPeer {c : Client} (hc : c.Proper) (a : Bytes) :
    (c.addNewPeer a).Settled a := by
  by_cases hown : a = c.myAddress
  · exact .inr (.inr (.inl (by rwa [myAddress_addNewPeer])))
  by_cases htoken : a = notAnIpToken
  · exact .inr (.inr (.inr htoken))
  by_cases hroom : c.HasRoomFor a
  · exact .inl (hroom.mem_addNewPeer hown htoken)
  · have hfull : maxPeers ≤ c.peerClients.length := Nat.not_lt.1 fun h => hroom (.inl h)
    rw [addNewPeer_of_full hfull]
    exact hc.settled_of_full hfull a

theorem Settled.addNewPeer {c : Client} {a : Bytes} (h : c.Settled a) (p : Bytes) :
    (c.addNewPeer p).Settled a := by
  rcases h with hmem | hfull | hown | htoken
  · exact .inl (c.subset_addNewPeer p hmem)
  · rw [addNewPeer_of_full (Nat.le_of_eq hfull.symm)]
    exact .inr (.inl hfull)
  · exact .inr (.inr (.inl (by rwa [myAddress_addNewPeer])))
  · exact .inr (.inr (.inr htoken))

theorem Settled.addPeers {c : Client} {a : Bytes} (h : c.Settled a) (newPeers : List Bytes) :
    (Client.addPeers newPeers c).Settled a :=
  @addPeers_preserves (·.Settled a) (fun _ p hc => hc.addNewPeer p) c h newPeers

/-- The `break` leaves no candidate unsettled: it is taken when the list is full. -/
theorem Proper.settled_addPeers {c : Client} (hc : c.Proper) {newPeers : List Bytes} {a : Bytes}
    (ha : a ∈ newPeers) : (Client.addPeers newPeers c).Settled a := by
  induction newPeers generalizing c with
  | nil => cases ha
  | cons p newPeers ih =>
      rw [Client.addPeers]
      split
      · rename_i hfull
        exact hc.settled_of_full hfull a
      · rcases List.mem_cons.1 ha with rfl | ha
        · exact (hc.settled_addNewPeer a).addPeers newPeers
        · exact ih (hc.addNewPeer p) ha

/-- What is added stands in front, without repetition. -/
theorem addPeers_eq_append (newPeers : List Bytes) (c : Client) :
    ∃ added, (addPeers newPeers c).peerClients = added ++ c.peerClients ∧ added.Nodup ∧
      ∀ a ∈ added, a ∉ c.peerClients := by
  induction newPeers generalizing c with
  | nil => exact ⟨[], rfl, List.nodup_nil, by simp⟩
  | cons p newPeers ih =>
      rw [addPeers]
      split
      · exact ⟨[], rfl, List.nodup_nil, by simp⟩
      · obtain ⟨added, heq, hnodup, hnew⟩ := ih (c.addNewPeer p)
        rcases c.addNewPeer_cases p with hsame | ⟨-, -, -, hp, hpush⟩
        · rw [hsame] at heq hnew ⊢
          exact ⟨added, heq, hnodup, hnew⟩
        · rw [hpush] at heq hnew ⊢
          simp only [List.mem_cons, not_or] at hnew
          refine ⟨added ++ [p], by rw [heq, List.append_assoc]; rfl, ?_, ?_⟩
          · rw [List.nodup_append]
            refine ⟨hnodup, by simp, ?_⟩
            simp only [List.mem_singleton]
            rintro a ha b rfl
            exact (hnew a ha).1
          · simp only [List.mem_append, List.mem_singleton]
            rintro a (ha | rfl)
            · exact (hnew a ha).2
            · exact hp

/-! ## Collecting -/

theorem mem_collect {respond : Bytes → List Bytes} {peers newPeers : List Bytes} {a : Bytes} :
    a ∈ collect respond peers newPeers ↔ a ∈ newPeers ∨ ∃ p ∈ peers, a ∈ respond p := by
  unfold collect
  induction peers generalizing newPeers with
  | nil => simp
  | cons p peers ih =>
      rw [List.foldl_cons, ih, List.foldl_flip_cons_eq_append']
      simp only [List.mem_append, List.mem_reverse, List.exists_mem_cons_iff]
      tauto

/-! ## What a call takes -/

/-- The peers that a call asks: those connected after `first_peer_` was tried. -/
def asked (c : Client) : List Bytes := (c.addNewPeer c.firstPeer).peerClients

/-- The address is the first peer, or a peer reported it. -/
def Candidate (c : Client) (respond : Bytes → List Bytes) (a : Bytes) : Prop :=
  a = c.firstPeer ∨ ∃ p ∈ c.asked, a ∈ respond p

theorem settled_bootstrapPeers {c : Client} (hc : c.Proper) {respond : Bytes → List Bytes}
    {a : Bytes} (ha : c.Candidate respond a) : (c.bootstrapPeers respond).1.Settled a := by
  rcases ha with rfl | hreported
  · exact (hc.settled_addNewPeer c.firstPeer).addPeers _
  · exact (hc.addNewPeer c.firstPeer).settled_addPeers (mem_collect.2 (.inr hreported))

theorem mem_of_mem_bootstrapPeers {c : Client} {respond : Bytes → List Bytes} {a : Bytes}
    (ha : a ∈ (c.bootstrapPeers respond).1.peerClients) :
    a ∈ c.asked ∨ ∃ p ∈ c.asked, a ∈ respond p := by
  rcases mem_of_mem_addPeers ha with ha | ha
  · exact .inl ha
  · exact .inr ((mem_collect.1 ha).resolve_left List.not_mem_nil)

theorem Proper.bootstrapPeers {c : Client} (hc : c.Proper) (respond : Bytes → List Bytes) :
    (c.bootstrapPeers respond).1.Proper := (hc.addNewPeer c.firstPeer).addPeers _

@[simp] theorem myAddress_bootstrapPeers (c : Client) (respond : Bytes → List Bytes) :
    (c.bootstrapPeers respond).1.myAddress = c.myAddress := by
  simp [bootstrapPeers]

/-- A call fills the list or takes every candidate that the client may list, and
takes nothing else. -/
theorem bootstrapPeers_complete {c : Client} (hc : c.Proper) (respond : Bytes → List Bytes) :
    ((c.bootstrapPeers respond).1.peerClients.length = maxPeers ∨
      ∀ a, c.Candidate respond a →
        a ∈ (c.bootstrapPeers respond).1.peerClients ∨ a = c.myAddress ∨ a = notAnIpToken) ∧
    ∀ a ∈ (c.bootstrapPeers respond).1.peerClients, a ∈ c.peerClients ∨ c.Candidate respond a := by
  constructor
  · by_cases hfull : (c.bootstrapPeers respond).1.peerClients.length = maxPeers
    · exact .inl hfull
    · refine .inr fun a ha => ?_
      have hsettled := settled_bootstrapPeers hc ha
      rw [Settled, myAddress_bootstrapPeers] at hsettled
      exact hsettled.imp_right fun h => h.resolve_left hfull
  · intro a ha
    rcases mem_of_mem_bootstrapPeers ha with ha | hreported
    · exact (mem_of_mem_addNewPeer ha).imp_right .inl
    · exact .inr (.inr hreported)

/-- A new client with the first peer `[1]`, which reports itself, the client,
the token and one more peer. -/
theorem bootstrapPeers_complete_sample :
    (((⟨[0], [1], []⟩ : Client).bootstrapPeers
        fun _ => [[1], [0], notAnIpToken, [2]]).1.peerClients.length = maxPeers ∨
      ∀ a, (⟨[0], [1], []⟩ : Client).Candidate (fun _ => [[1], [0], notAnIpToken, [2]]) a →
        a ∈ ((⟨[0], [1], []⟩ : Client).bootstrapPeers
          fun _ => [[1], [0], notAnIpToken, [2]]).1.peerClients ∨ a = [0] ∨ a = notAnIpToken) ∧
    ∀ a ∈ ((⟨[0], [1], []⟩ : Client).bootstrapPeers
        fun _ => [[1], [0], notAnIpToken, [2]]).1.peerClients,
      a ∈ [] ∨ (⟨[0], [1], []⟩ : Client).Candidate (fun _ => [[1], [0], notAnIpToken, [2]]) a :=
  bootstrapPeers_complete ⟨by decide, by decide, by decide, by decide⟩ _

/-! ## What one peer can add -/

/-- The responses of peers that run this server, with the lists of `peers`. -/
def serverResponses (c : Client) (peers : Bytes → Client) (p : Bytes) : List Bytes :=
  (MinerService.getAddr (peers p) SinglePeerClient.addrRequest c.myAddress).1

/-- The addresses that a call added to those it asked, and that `p` reported. -/
def takenFrom (c : Client) (peers : Bytes → Client) (p : Bytes) : List Bytes :=
  (c.bootstrapPeers (c.serverResponses peers)).1.peerClients.filter fun a =>
    !c.asked.any (· = a) && (c.serverResponses peers p).any (· = a)

/-- No response is longer than the request says, no peer adds more addresses than
that, and none fills the list alone when more slots are free. -/
structure LimitRespected (c : Client) (peers : Bytes → Client) : Prop where
  response : ∀ p ∈ c.asked,
    (c.serverResponses peers p).length ≤ SinglePeerClient.addrRequest.numRequested.toNat
  taken : ∀ p ∈ c.asked, (c.takenFrom peers p).length ≤ maxSecondDegreeFromPeer
  notFilled : ∀ p ∈ c.asked, maxSecondDegreeFromPeer < maxPeers - c.asked.length →
    ¬ ((c.bootstrapPeers (c.serverResponses peers)).1.peerClients.length = maxPeers ∧
      ∀ a ∈ (c.bootstrapPeers (c.serverResponses peers)).1.peerClients,
        a ∉ c.asked → a ∈ c.serverResponses peers p)

/-- The list after a call is the list that was asked, behind new addresses. -/
theorem exists_added (c : Client) (peers : Bytes → Client) :
    ∃ added, (c.bootstrapPeers (c.serverResponses peers)).1.peerClients = added ++ c.asked ∧
      added.Nodup ∧ (∀ a ∈ added, a ∉ c.asked) ∧
      ∀ p, c.takenFrom peers p = added.filter fun a => (c.serverResponses peers p).any (· = a) := by
  obtain ⟨added, heq, hnodup, hnew⟩ := addPeers_eq_append
    (collect (c.serverResponses peers) c.asked []) (c.addNewPeer c.firstPeer)
  refine ⟨added, heq, hnodup, hnew, fun p => ?_⟩
  have hfilter : c.takenFrom peers p = (added ++ c.asked).filter fun a =>
      !c.asked.any (· = a) && (c.serverResponses peers p).any (· = a) :=
    congrArg (List.filter _) heq
  have hold : c.asked.filter (fun a =>
      !c.asked.any (· = a) && (c.serverResponses peers p).any (· = a)) = [] := by
    rw [List.filter_eq_nil_iff]
    intro a ha
    have hany : c.asked.any (· = a) = true := by simpa using ha
    rw [hany]
    exact Bool.false_ne_true
  rw [hfilter, List.filter_append, hold, List.append_nil]
  refine List.filter_congr fun a ha => ?_
  have hnot : a ∉ c.asked := hnew a ha
  have hany : c.asked.any (· = a) = false := by
    rw [Bool.eq_false_iff]
    simpa using hnot
  rw [hany]
  rfl

theorem length_takenFrom_le (c : Client) (peers : Bytes → Client) (p : Bytes) :
    (c.takenFrom peers p).length ≤ (c.serverResponses peers p).length := by
  obtain ⟨added, -, hnodup, -, htaken⟩ := c.exists_added peers
  rw [htaken]
  refine List.Nodup.length_le_of_subset (hnodup.filter _) fun a ha => ?_
  simpa using (List.mem_filter.1 ha).2

theorem length_serverResponses (c : Client) (peers : Bytes → Client) (p : Bytes) :
    (c.serverResponses peers p).length = (peers p).peerClients.length := List.length_reverse

/-- The server does not look at the request: the limit holds exactly if no peer
that is asked has more addresses to report. -/
theorem limitRespected_iff (c : Client) (peers : Bytes → Client) :
    c.LimitRespected peers ↔
      ∀ p ∈ c.asked, (peers p).peerClients.length ≤ maxSecondDegreeFromPeer := by
  have hlimit : SinglePeerClient.addrRequest.numRequested.toNat = maxSecondDegreeFromPeer := rfl
  constructor
  · intro h p hp
    have hresponse := h.response p hp
    rwa [length_serverResponses, hlimit] at hresponse
  · intro h
    have hresponse : ∀ p ∈ c.asked,
        (c.serverResponses peers p).length ≤ maxSecondDegreeFromPeer := by
      intro p hp
      rw [length_serverResponses]
      exact h p hp
    refine ⟨hresponse, fun p hp => ?_, ?_⟩
    · exact Nat.le_trans (c.length_takenFrom_le peers p) (hresponse p hp)
    rintro p hp hfree ⟨hfull, hall⟩
    obtain ⟨added, heq, hnodup, hnew, -⟩ := c.exists_added peers
    have hadded : added.length ≤ (c.serverResponses peers p).length := by
      refine List.Nodup.length_le_of_subset hnodup fun a ha => hall a ?_ (hnew a ha)
      rw [heq]
      exact List.mem_append_left _ ha
    have hlen := congrArg List.length heq
    have hle := hresponse p hp
    rw [List.length_append] at hlen
    omega

/-- The peers of a network in which `[1]` lists three addresses. -/
def samplePeers (p : Bytes) : Client := ⟨p, [1], if p = [1] then [[2], [3], [4]] else []⟩

/-- A new client asks for two addresses, and gets and takes three. -/
theorem samplePeers_limit_exceeded :
    ¬ ∀ (c : Client) (peers : Bytes → Client), c.Proper → (∀ p, (peers p).Proper) →
      c.LimitRespected peers := by
  intro h
  have hpeers : ∀ p, (samplePeers p).Proper := by
    intro p
    by_cases hp : p = [1]
    · subst hp
      exact ⟨by decide, by decide, by decide, by decide⟩
    · have hempty : (samplePeers p).peerClients = [] := if_neg hp
      exact ⟨by simp [hempty], by simp [hempty], by simp [hempty], by simp [hempty]⟩
  have hlimit := (h ⟨[0], [1], []⟩ samplePeers ⟨by decide, by decide, by decide, by decide⟩
    hpeers).taken [1] (by decide)
  exact absurd hlimit (by decide)

end Client

end OneVote
