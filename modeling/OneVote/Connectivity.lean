-- SUMMARY: When the peer lists connect all miners: as long as no miner and its first peer refuse each other for want of room.
import Mathlib.Data.Fintype.Card
import OneVote.Peers

/-!
# Connectivity

A flooded message goes from a miner to those in its list. A miner adds its first
peer, and asking it makes the first peer add the miner, so the links that the
miners were started with are kept in both directions. A list that is full refuses
both.
-/

namespace OneVote

open TransitionSystem (Move)

namespace PeerNetwork

variable {ι : Type*} [DecidableEq ι] {links : Links ι}

/-- `y` is in the list of `x`. -/
def Knows (s : PeerNetwork ι) (x y : ι) : Prop :=
  (s.clients y).myAddress ∈ (s.clients x).peerClients

/-- What any miner floods can reach every other. -/
def StronglyConnected (s : PeerNetwork ι) : Prop := ∀ x y, Relation.ReflTransGen s.Knows x y

/-- Where a miner adds its first peer, and where the first peer adds the miner,
there is room. -/
def AdmitsFirst (links : Links ι) (m : Move (PeerNetwork ι) (ι × Access ι)) : Prop :=
  ∀ x, (m.label = (x, .addFirst) →
      (m.pre.clients x).HasRoomFor (links.address (links.first x))) ∧
    (m.label = (x, .register (links.first x)) →
      (m.pre.clients (links.first x)).HasRoomFor (links.address x))

/-! ## What a call achieves -/

/-- How far `x` and its first peer know each other. -/
structure Progress (links : Links ι) (s : PeerNetwork ι) (x : ι) : Prop where
  first : s.phases x = .idle ∧ s.rounds x = 0 ∨
    links.address (links.first x) ∈ (s.clients x).peerClients
  asked : ∀ peers, (s.phases x).toAsk = some peers → links.address (links.first x) ∈ peers ∨
    links.address x ∈ (s.clients (links.first x)).peerClients
  registered : 0 < s.rounds x → links.address x ∈ (s.clients (links.first x)).peerClients

omit [DecidableEq ι] in
theorem initial_progress (links : Links ι) (x : ι) : (initial links).Progress links x where
  first := .inl ⟨rfl, rfl⟩
  asked := by
    intro peers h
    cases h
  registered := fun h => absurd h (Nat.lt_irrefl 0)

/-- The calls of other miners only make the lists longer. -/
theorem Progress.other {s s' : PeerNetwork ι} {x w : ι} {a : Access ι} (h : s.Progress links x)
    (hs : Step s (w, a) s') (hx : x ≠ w) : s'.Progress links x := by
  obtain ⟨hphase, hround⟩ := hs.others hx
  constructor
  · rw [hphase, hround]
    exact h.first.imp_right fun hmem => hs.subset x hmem
  · intro peers hpeers
    rw [hphase] at hpeers
    exact (h.asked peers hpeers).imp_right fun hmem => hs.subset _ hmem
  · intro hpos
    rw [hround] at hpos
    exact hs.subset _ (h.registered hpos)

/-- A step of the call before it returns. -/
theorem Progress.goOn {s s' : PeerNetwork ι} {x : ι} {a : Access ι} (h : s.Progress links x)
    (hs : Step s (x, a) s') (hrounds : s'.rounds x = s.rounds x)
    (hfirst : links.address (links.first x) ∈ (s'.clients x).peerClients)
    (hasked : ∀ peers, (s'.phases x).toAsk = some peers → links.address (links.first x) ∈ peers ∨
      links.address x ∈ (s'.clients (links.first x)).peerClients) : s'.Progress links x where
  first := .inr hfirst
  asked := hasked
  registered := by
    intro hpos
    rw [hrounds] at hpos
    exact hs.subset _ (h.registered hpos)

omit [DecidableEq ι] in
/-- A call that has begun has added the first peer. -/
theorem Progress.mem_first {s : PeerNetwork ι} {x : ι} (h : s.Progress links x)
    (hphase : s.phases x ≠ .idle) : links.address (links.first x) ∈ (s.clients x).peerClients :=
  h.first.resolve_left fun hidle => hphase hidle.1

theorem Progress.step {s s' : PeerNetwork ι} {x : ι} {a : Access ι} (h : s.Progress links x)
    (haddr : s.Addressed links) (hs : Step s (x, a) s')
    (hadmits : AdmitsFirst links ⟨s, (x, a), s'⟩) :
    s'.Progress links x := by
  have hne : links.address (links.first x) ≠ links.address x :=
    fun heq => links.first_ne x (links.injective heq)
  have hgrow := hs.subset
  cases hs with
  | addFirst hphase =>
      have hroom := (hadmits x).1 rfl
      refine h.goOn (.addFirst hphase) rfl ?_ (by simp [Phase.toAsk])
      change _ ∈ ((s.addTo x (s.clients x).firstPeer).clients x).peerClients
      rw [clients_addTo_self, (haddr x).2]
      exact hroom.mem_addNewPeer ((haddr x).1 ▸ hne) (links.ne_token _)
  | list hphase =>
      have hmem := h.mem_first (by simp [hphase])
      refine h.goOn (.list hphase) rfl hmem fun peers hpeers => .inl ?_
      rw [phases_goOn] at hpeers
      cases hpeers
      exact hmem
  | respond hphase =>
      refine h.goOn (.respond hphase) rfl (h.mem_first (by simp [hphase])) fun peers hpeers => ?_
      rw [phases_goOn] at hpeers
      cases hpeers
      exact h.asked _ (by rw [hphase]; rfl)
  | @register _ y _ _ _ hphase =>
      refine h.goOn (.register hphase) rfl (hgrow x (h.mem_first (by simp [hphase])))
        fun peers' hpeers => ?_
      rw [phases_goOn] at hpeers
      cases hpeers
      rcases h.asked _ (by rw [hphase]; rfl) with hmem | hmem
      · rcases List.mem_cons.1 hmem with heq | hmem
        · obtain rfl : links.first x = y := links.injective (heq.trans (haddr y).1)
          have hroom := (hadmits x).2 rfl
          refine .inr ?_
          change _ ∈ ((s.addTo (links.first x) (s.clients x).myAddress).clients _).peerClients
          rw [clients_addTo_self, (haddr x).1]
          exact hroom.mem_addNewPeer ((haddr (links.first x)).1 ▸ hne.symm) (links.ne_token _)
        · exact .inl hmem
      · exact .inr (hgrow _ hmem)
  | asked hphase =>
      refine h.goOn (.asked hphase) rfl (h.mem_first (by simp [hphase])) fun peers hpeers => ?_
      rw [phases_goOn] at hpeers
      exact h.asked peers (by rw [hphase]; exact hpeers)
  | check hphase hroom =>
      refine h.goOn (.check hphase hroom) rfl (h.mem_first (by simp [hphase]))
        fun peers hpeers => ?_
      rw [phases_goOn] at hpeers
      exact h.asked peers (by rw [hphase]; exact hpeers)
  | add hphase =>
      refine h.goOn (.add hphase) rfl (hgrow x (h.mem_first (by simp [hphase])))
        fun peers hpeers => ?_
      rw [phases_goOn] at hpeers
      exact (h.asked peers (by rw [hphase]; exact hpeers)).imp_right fun hmem => hgrow _ hmem
  | done hphase =>
      -- the call has asked its first peer
      have hmem := h.mem_first (by simp [hphase])
      have hregistered := (h.asked [] (by rw [hphase]; rfl)).resolve_left List.not_mem_nil
      refine ⟨.inr hmem, fun peers hpeers => ?_, fun _ => hregistered⟩
      change ((s.goOn x .idle).phases x).toAsk = some peers at hpeers
      rw [phases_goOn] at hpeers
      cases hpeers

/-! ## Runs -/

/-- The miners know their addresses, and each has progressed with its first peer. -/
structure Linked (links : Links ι) (s : PeerNetwork ι) : Prop where
  addressed : s.Addressed links
  progress : ∀ x, s.Progress links x

theorem linked_preserved (links : Links ι) :
    (peerNetwork links).PreservedUnder (AdmitsFirst links) (Linked links) := by
  rintro s ⟨w, a⟩ s' hs hadmits h
  refine ⟨hs.addressed h.addressed, fun x => ?_⟩
  by_cases hx : x = w
  · subst hx
    exact (h.progress x).step h.addressed hs hadmits
  · exact (h.progress x).other hs hx

omit [DecidableEq ι] in
/-- After one call of each miner the links are kept in both directions. -/
theorem Linked.stronglyConnected {s : PeerNetwork ι} (h : s.Linked links)
    (hrounds : ∀ x, 0 < s.rounds x) : s.StronglyConnected := by
  have hknows : ∀ a b, links.first a = b ∨ links.first b = a → s.Knows a b := by
    intro a b hab
    unfold Knows
    rw [(h.addressed b).1]
    rcases hab with rfl | rfl
    · refine (h.progress a).first.resolve_left fun hidle => ?_
      exact Nat.pos_iff_ne_zero.1 (hrounds a) hidle.2
    · exact (h.progress b).registered (hrounds b)
  exact fun x y => Relation.ReflTransGen.mono hknows x y (links.linked x y)

/-- Once every miner has called `bootstrapPeers` twice, the lists connect all
miners, in every run in which no first peer is refused and none refuses. -/
theorem run_stronglyConnected {s : PeerNetwork ι}
    {tr : List (Move (PeerNetwork ι) (ι × Access ι))}
    (h : (peerNetwork links).Run (.initial links) tr s) (hadmits : ∀ m ∈ tr, AdmitsFirst links m)
    (hrounds : ∀ x, 2 ≤ s.rounds x) : s.StronglyConnected := by
  have hinit : (initial links).Linked links :=
    ⟨fun x => ⟨rfl, rfl⟩, fun x => initial_progress links x⟩
  have hlinked := (linked_preserved links).run h hinit hadmits
  exact hlinked.stronglyConnected fun x => Nat.lt_of_lt_of_le Nat.zero_lt_two (hrounds x)

/-! ## Sides that do not meet -/

/-- Whatever a miner has in its list or in a call is the address of a miner on
its own side. -/
structure Separated {κ : Type*} (links : Links ι) (side : ι → κ) (s : PeerNetwork ι) : Prop where
  addressed : s.Addressed links
  listed : ∀ x, ∀ p ∈ (s.clients x).peerClients, ∃ y, side y = side x ∧ links.address y = p
  held : ∀ x, ∀ p ∈ (s.phases x).addresses, ∃ y, side y = side x ∧ links.address y = p

omit [DecidableEq ι] in
theorem initial_separated {κ : Type*} (links : Links ι) (side : ι → κ) :
    (initial links).Separated links side where
  addressed := fun x => ⟨rfl, rfl⟩
  listed := by
    intro x p hp
    cases hp
  held := by
    intro x p hp
    cases hp

/-- A call with the given phase holds addresses of its own side only. -/
theorem Separated.goOn {κ : Type*} {side : ι → κ} {s : PeerNetwork ι} (h : s.Separated links side)
    {x : ι} {phase : Phase}
    (hheld : ∀ p ∈ phase.addresses, ∃ y, side y = side x ∧ links.address y = p) :
    (s.goOn x phase).Separated links side where
  addressed := h.addressed
  listed := h.listed
  held := by
    intro j p hp
    by_cases hj : j = x
    · subst hj
      rw [phases_goOn] at hp
      exact hheld p hp
    · rw [phases_goOn_of_ne s hj] at hp
      exact h.held j p hp

/-- An address of its own side is added to the list of a miner. -/
theorem Separated.addTo {κ : Type*} {side : ι → κ} {s : PeerNetwork ι} (h : s.Separated links side)
    {y : ι} {addr : Bytes} (haddr : ∃ w, side w = side y ∧ links.address w = addr) :
    (s.addTo y addr).Separated links side where
  addressed := by
    intro j
    rcases clients_addTo s y j addr with hj | hj
    · rw [hj]
      exact h.addressed j
    · rw [hj, Client.myAddress_addNewPeer, Client.firstPeer_addNewPeer]
      exact h.addressed j
  listed := by
    intro j p hp
    by_cases hj : j = y
    · subst hj
      rw [clients_addTo_self] at hp
      rcases Client.mem_of_mem_addNewPeer hp with hp | rfl
      · exact h.listed j p hp
      · exact haddr
    · have hsame : (s.addTo y addr).clients j = s.clients j := Function.update_of_ne hj _ _
      rw [hsame] at hp
      exact h.listed j p hp
  held := h.held

theorem addTo_of_full {s : PeerNetwork ι} {y : ι} (h : maxPeers ≤ (s.clients y).peerClients.length)
    (addr : Bytes) : s.addTo y addr = s := by
  unfold PeerNetwork.addTo
  rw [Client.addNewPeer_of_full h, Function.update_eq_self]

/-- Sides stay apart as long as first peers are on the same side, or are refused. -/
theorem Step.separated {κ : Type*} {side : ι → κ} {s s' : PeerNetwork ι} {x : ι} {a : Access ι}
    (hs : Step s (x, a) s') (h : s.Separated links side)
    (hfirst : side (links.first x) = side x ∨ maxPeers ≤ (s.clients x).peerClients.length) :
    s'.Separated links side := by
  have hheld := h.held x
  cases hs with
  | addFirst =>
      refine Separated.goOn ?_ (by simp [Phase.addresses])
      rcases hfirst with hside | hfull
      · exact h.addTo ⟨links.first x, hside, (h.addressed x).2.symm⟩
      · rwa [addTo_of_full hfull]
  | list => exact h.goOn (by simpa [Phase.addresses] using h.listed x)
  | @respond _ y _ _ hphase =>
      rw [hphase] at hheld
      simp only [Phase.addresses, List.cons_append, List.mem_cons, List.mem_append] at hheld
      -- the list that is answered with belongs to a miner on the same side
      obtain ⟨w, hw, haddress⟩ := hheld _ (.inl rfl)
      obtain rfl : w = y := links.injective (haddress.trans (h.addressed y).1)
      refine h.goOn fun p hp => ?_
      simp only [Phase.addresses, Client.getPeersList, List.mem_cons, List.mem_append,
        List.mem_reverse] at hp
      rcases hp with rfl | ((hp | hp) | hp)
      · exact hheld _ (.inl rfl)
      · obtain ⟨v, hv, hp⟩ := h.listed w p hp
        exact ⟨v, hv.trans hw, hp⟩
      · exact hheld p (.inr (.inl hp))
      · exact hheld p (.inr (.inr hp))
  | @register _ y response _ _ hphase =>
      rw [hphase] at hheld
      simp only [Phase.addresses, List.mem_cons, List.mem_append] at hheld
      obtain ⟨w, hw, haddress⟩ := hheld _ (.inl rfl)
      obtain rfl : w = y := links.injective (haddress.trans (h.addressed y).1)
      refine (h.addTo ⟨x, hw.symm, (h.addressed x).1.symm⟩).goOn fun p hp => hheld p ?_
      simp only [Phase.addresses, List.foldl_flip_cons_eq_append', List.mem_append,
        List.mem_reverse] at hp
      tauto
  | asked hphase =>
      rw [hphase] at hheld
      exact h.goOn hheld
  | check hphase =>
      rw [hphase] at hheld
      exact h.goOn hheld
  | add hphase =>
      rw [hphase] at hheld
      obtain ⟨hpeer, hrest⟩ := List.forall_mem_cons.1 hheld
      exact (h.addTo hpeer).goOn hrest
  | done =>
      have hidle : (s.goOn x .idle).Separated links side := h.goOn (by simp [Phase.addresses])
      exact ⟨hidle.addressed, hidle.listed, hidle.held⟩

omit [DecidableEq ι] in
theorem Separated.not_stronglyConnected {κ : Type*} {side : ι → κ} {s : PeerNetwork ι}
    (h : s.Separated links side) {x y : ι} (hxy : side x ≠ side y) : ¬ s.StronglyConnected := by
  have hside : ∀ z, Relation.ReflTransGen s.Knows x z → side x = side z := by
    intro z hz
    induction hz with
    | refl => rfl
    | @tail b c _ hknows ih =>
        obtain ⟨w, hw, haddress⟩ := h.listed b _ hknows
        obtain rfl : w = c := links.injective (haddress.trans (h.addressed c).1)
        exact ih.trans hw.symm
  exact fun hconnected => hxy (hside y (hconnected x y))

/-! ## Calls can always return

No peer can keep a call from returning: in any state each call can go on by
itself until it returns. -/

/-- All addresses that are known are those of miners. -/
abbrev Closed (links : Links ι) (s : PeerNetwork ι) : Prop := s.Separated links fun _ => ()

theorem closed_invariant (links : Links ι) : (peerNetwork links).Invariant (Closed links) where
  init := by
    rintro s rfl
    exact initial_separated links _
  step := fun _ _ _ hs h => hs.separated h (.inl rfl)

/-- The miner `x` can complete the call it is in, or else a new one. -/
def CanReturn (links : Links ι) (s : PeerNetwork ι) (x : ι) : Prop :=
  ∃ tr s', (peerNetwork links).Run s tr s' ∧ s.rounds x < s'.rounds x

theorem CanReturn.of_step {s s' : PeerNetwork ι} {x : ι} {a : Access ι} (hs : Step s (x, a) s')
    (hrounds : s'.rounds x = s.rounds x) (h : s'.CanReturn links x) : s.CanReturn links x := by
  obtain ⟨tr, t, hrun, hlt⟩ := h
  exact ⟨_, t, .cons hs hrun, hrounds ▸ hlt⟩

theorem canReturn_of_adding {s : PeerNetwork ι} {x : ι} {newPeers : List Bytes}
    (hphase : s.phases x = .adding newPeers) : s.CanReturn links x := by
  have hdone : ∀ s : PeerNetwork ι, s.rounds x < (s.finish x).rounds x := by
    intro s
    change s.rounds x < Function.update s.rounds x (s.rounds x + 1) x
    rw [Function.update_self]
    exact Nat.lt_succ_self _
  induction newPeers generalizing s with
  | nil => exact ⟨_, _, .snoc .nil (.done hphase (.inl rfl)), hdone s⟩
  | cons p rest ih =>
      by_cases hfull : maxPeers ≤ (s.clients x).peerClients.length
      · exact ⟨_, _, .snoc .nil (.done hphase (.inr hfull)), hdone s⟩
      · refine .of_step (.check hphase (Nat.not_le.1 hfull)) rfl ?_
        exact .of_step (.add (phases_goOn s x _)) rfl (ih (phases_goOn _ x _))

/-- Asking the peers that remain, each of which is a miner. -/
theorem canReturn_of_asking {s : PeerNetwork ι} {x : ι} {peers newPeers : List Bytes}
    (haddr : s.Addressed links) (hphase : s.phases x = .asking peers newPeers)
    (hpeers : ∀ p ∈ peers, ∃ y, links.address y = p) : s.CanReturn links x := by
  induction peers generalizing s newPeers with
  | nil => exact .of_step (.asked hphase) rfl (canReturn_of_adding (phases_goOn s x _))
  | cons p rest ih =>
      obtain ⟨⟨y, rfl⟩, hrest⟩ := List.forall_mem_cons.1 hpeers
      rw [← (haddr y).1] at hphase
      have hrespond := Step.respond hphase
      have hregister := Step.register (phases_goOn s x (.waiting (s.clients y).myAddress
        (s.clients y).getPeersList rest newPeers))
      refine .of_step hrespond rfl (.of_step hregister rfl ?_)
      exact ih (hregister.addressed (hrespond.addressed haddr)) (phases_goOn _ x _) hrest

theorem canReturn_of_begun {s : PeerNetwork ι} (h : s.Closed links) {x : ι}
    (hphase : s.phases x = .begun) : s.CanReturn links x := by
  refine .of_step (.list hphase) rfl (canReturn_of_asking h.addressed (phases_goOn s x _) ?_)
  exact fun p hp => (h.listed x p hp).imp fun _ hy => hy.2

theorem Closed.canReturn {s : PeerNetwork ι} (h : s.Closed links) (x : ι) :
    s.CanReturn links x := by
  have hheld : ∀ p ∈ (s.phases x).addresses, ∃ y, links.address y = p :=
    fun p hp => (h.held x p hp).imp fun _ hy => hy.2
  cases hphase : s.phases x with
  | idle =>
      have hfirst := Step.addFirst hphase
      exact .of_step hfirst rfl
        (canReturn_of_begun ((closed_invariant links).step _ _ _ hfirst h) (phases_goOn _ x _))
  | begun => exact canReturn_of_begun h hphase
  | asking peers newPeers =>
      rw [hphase] at hheld
      exact canReturn_of_asking h.addressed hphase fun p hp => hheld p (List.mem_append_left _ hp)
  | waiting peer response peers newPeers =>
      rw [hphase] at hheld
      obtain ⟨⟨y, rfl⟩, hrest⟩ := List.forall_mem_cons.1 hheld
      rw [← (h.addressed y).1] at hphase
      have hregister := Step.register hphase
      refine .of_step hregister rfl (canReturn_of_asking (hregister.addressed h.addressed)
        (phases_goOn _ x _) fun p hp => hrest p ?_)
      exact List.mem_append_left _ (List.mem_append_right _ hp)
  | adding newPeers => exact canReturn_of_adding hphase
  | pushing peer newPeers =>
      exact .of_step (.add hphase) rfl (canReturn_of_adding (phases_goOn _ x _))

theorem rounds_le (links : Links ι) (x : ι) (n : Nat) :
    (peerNetwork links).PreservedUnder (fun _ => True) fun s => n ≤ s.rounds x := by
  rintro s ⟨w, a⟩ s' hs - hn
  by_cases hx : x = w
  · subst hx
    cases hs with
    | done =>
        change n ≤ Function.update s.rounds x (s.rounds x + 1) x
        rw [Function.update_self]
        exact Nat.le_succ_of_le hn
    | _ => exact hn
  · rw [(hs.others hx).2]
    exact hn

/-- Any number of calls can be completed at every miner of a finite network. -/
theorem Closed.exists_rounds [Fintype ι] {s : PeerNetwork ι} (h : s.Closed links) (n : Nat) :
    ∃ tr s', (peerNetwork links).Run s tr s' ∧ ∀ x, n ≤ s'.rounds x := by
  have hlist : ∀ (n : Nat) (l : List ι) (s : PeerNetwork ι), s.Closed links →
      (∀ x, n ≤ s.rounds x) →
        ∃ tr s', (peerNetwork links).Run s tr s' ∧ (∀ x, n ≤ s'.rounds x) ∧
          ∀ x ∈ l, n + 1 ≤ s'.rounds x := by
    intro n l
    induction l with
    | nil => exact fun s _ hn => ⟨[], s, .nil, hn, by simp⟩
    | cons x rest ih =>
        intro s hs hn
        obtain ⟨tr, t, hrun, hlt⟩ := hs.canReturn x
        have ht := (closed_invariant links).preserved.run hrun hs (by simp)
        obtain ⟨tr', u, hrun', hn', hrest⟩ :=
          ih t ht fun y => (rounds_le links y n).run hrun (hn y) (by simp)
        refine ⟨_, u, hrun.append hrun', hn', List.forall_mem_cons.2 ⟨?_, hrest⟩⟩
        exact (rounds_le links x (n + 1)).run hrun' (Nat.lt_of_le_of_lt (hn x) hlt) (by simp)
  induction n with
  | zero => exact ⟨[], s, .nil, fun x => Nat.zero_le _⟩
  | succ n ih =>
      obtain ⟨tr, t, hrun, hn⟩ := ih
      have ht := (closed_invariant links).preserved.run hrun h (by simp)
      obtain ⟨tr', u, hrun', -, hall⟩ := hlist n Finset.univ.toList t ht hn
      exact ⟨_, u, hrun.append hrun', fun x => hall x (Finset.mem_toList.2 (Finset.mem_univ x))⟩

/-! ## Networks that are never full -/

omit [DecidableEq ι] in
/-- Among eleven miners a list has room for every other one. -/
theorem Closed.hasRoomFor [Fintype ι] (hcard : Fintype.card ι ≤ maxPeers + 1) {s : PeerNetwork ι}
    (h : s.Closed links) {x y : ι} (hproper : (s.clients x).Proper) (hxy : y ≠ x) :
    (s.clients x).HasRoomFor (links.address y) := by
  by_contra hfull
  rw [Client.HasRoomFor, not_or, Nat.not_lt] at hfull
  have hother : links.address x ≠ links.address y := fun heq => hxy (links.injective heq).symm
  have hown : links.address x ∉ (s.clients x).peerClients := (h.addressed x).1 ▸ hproper.not_own
  have hnodup : (links.address x :: links.address y :: (s.clients x).peerClients).Nodup :=
    List.nodup_cons.2 ⟨List.not_mem_cons_of_ne_of_not_mem hother hown,
      List.nodup_cons.2 ⟨hfull.2, hproper.nodup⟩⟩
  have hmember : ∀ z, links.address z ∈ Finset.univ.toList.map links.address :=
    fun z => List.mem_map_of_mem (Finset.mem_toList.2 (Finset.mem_univ z))
  have hsub : links.address x :: links.address y :: (s.clients x).peerClients ⊆
      Finset.univ.toList.map links.address := by
    refine List.cons_subset.2 ⟨hmember x, List.cons_subset.2 ⟨hmember y, fun p hp => ?_⟩⟩
    obtain ⟨z, -, rfl⟩ := h.listed x p hp
    exact hmember z
  have hlen := (List.subperm_of_subset hnodup hsub).length_le
  rw [List.length_cons, List.length_cons, List.length_map, Finset.length_toList,
    Finset.card_univ] at hlen
  exact absurd (hlen.trans hcard) (by omega)

theorem admitsFirst_of_card [Fintype ι] (hcard : Fintype.card ι ≤ maxPeers + 1)
    {s : PeerNetwork ι} {tr : List (Move (PeerNetwork ι) (ι × Access ι))}
    (h : (peerNetwork links).Run (.initial links) tr s) : ∀ m ∈ tr, AdmitsFirst links m := by
  intro m hm x
  have hclosed := ((closed_invariant links).preserved.moves h (initial_separated links _)
    (by simp) m hm).1
  have hproper := ((proper_invariant links).preserved.moves h
    ((proper_invariant links).init _ rfl) (by simp) m hm).1
  exact ⟨fun _ => hclosed.hasRoomFor hcard (hproper x) (links.first_ne x),
    fun _ => hclosed.hasRoomFor hcard (hproper _) (links.first_ne x).symm⟩

/-- Two miners, each the first peer of the other. -/
def pairLinks : Links Bool where
  address x := if x then [49] else [48]
  first := not
  injective := by decide
  ne_token := by decide
  first_ne := by decide
  linked := by
    intro x y
    by_cases hxy : x = y
    · exact hxy ▸ .refl
    · exact .single (.inl (by revert x y; decide))

/-- Both miners of the pair complete two calls. -/
theorem pair_stronglyConnected :
    ∃ tr s, (peerNetwork pairLinks).Run (.initial pairLinks) tr s ∧ (∀ x, 2 ≤ s.rounds x) ∧
      s.StronglyConnected := by
  obtain ⟨tr, s, hrun, hrounds⟩ := Closed.exists_rounds (initial_separated pairLinks _) 2
  exact ⟨tr, s, hrun, hrounds,
    run_stronglyConnected hrun (admitsFirst_of_card (by decide) hrun) hrounds⟩

/-! ## A hub that is full before it calls -/

/-- The miners `leaves` have asked the hub, the newest first, and no other miner
has made a step. -/
structure Filled (links : Links ι) (hub : ι) (leaves : List ι) (s : PeerNetwork ι) : Prop where
  addressed : s.Addressed links
  list : (s.clients hub).peerClients = leaves.map links.address
  untouched : ∀ x, x ∉ leaves → s.phases x = .idle ∧ (x ≠ hub → (s.clients x).peerClients = [])

/-- A leaf adds the hub and asks it, and the hub adds the leaf. -/
theorem Filled.cons {hub x : ι} {leaves : List ι} {s : PeerNetwork ι}
    (h : s.Filled links hub leaves) (hx : x ∉ leaves) (hfirst : links.first x = hub)
    (hroom : leaves.length < maxPeers) :
    ∃ tr s', (peerNetwork links).Run s tr s' ∧ (∀ m ∈ tr, m.label.1 = x) ∧
      s'.Filled links hub (x :: leaves) := by
  have hne : hub ≠ x := hfirst ▸ links.first_ne x
  have haddress : links.address x ≠ links.address hub := fun heq => hne (links.injective heq).symm
  obtain ⟨hidle, hempty⟩ := h.untouched x hx
  -- the hub is the only peer of the leaf
  let s₁ := (s.addTo x (s.clients x).firstPeer).goOn x .begun
  have step₁ : Step s (x, .addFirst) s₁ := .addFirst hidle
  have hhub₁ : s₁.clients hub = s.clients hub := Function.update_of_ne hne _ _
  have hlist₁ : (s₁.clients x).peerClients = [(s.clients hub).myAddress] := by
    change ((s.addTo x (s.clients x).firstPeer).clients x).peerClients = _
    rw [clients_addTo_self, (h.addressed x).2, hfirst, (h.addressed hub).1,
      Client.peerClients_addNewPeer, hempty hne.symm]
    · rw [hempty hne.symm]
      decide
    · rw [(h.addressed x).1]
      exact haddress.symm
    · exact links.ne_token hub
    · rw [hempty hne.symm]
      exact List.not_mem_nil
  have step₂ : Step s₁ (x, .list) (s₁.goOn x (.asking (s₁.clients x).peerClients [])) :=
    .list (phases_goOn _ x _)
  rw [hlist₁, ← hhub₁] at step₂
  -- the hub answers with its list and adds the leaf in a second access
  have step₃ := @Step.respond ι _ (s₁.goOn x (.asking [(s₁.clients hub).myAddress] [])) x hub [] []
    (phases_goOn s₁ x _)
  have step₄ := Step.register (phases_goOn (s₁.goOn x (.asking [(s₁.clients hub).myAddress] [])) x
    (.waiting (s₁.clients hub).myAddress (s₁.clients hub).getPeersList [] []))
  refine ⟨_, _, .snoc (.snoc (.snoc (.snoc .nil step₁) step₂) step₃) step₄, by simp, ?_, ?_, ?_⟩
  · exact step₄.addressed (step₃.addressed (step₂.addressed (step₁.addressed h.addressed)))
  · change ((s₁.addTo hub (s₁.clients x).myAddress).clients hub).peerClients = _
    rw [clients_addTo_self, hhub₁, (step₁.addressed h.addressed x).1,
      Client.peerClients_addNewPeer, h.list]
    · rfl
    · rw [h.list, List.length_map]
      exact hroom
    · rw [(h.addressed hub).1]
      exact haddress
    · exact links.ne_token x
    · rw [h.list]
      exact fun hmem => hx ((List.mem_map_of_injective links.injective).1 hmem)
  · intro y hy
    rw [List.mem_cons, not_or] at hy
    obtain ⟨hyx, hy⟩ := hy
    obtain ⟨hphase, hlist⟩ := h.untouched y hy
    refine ⟨?_, fun hyhub => ?_⟩
    · exact (step₄.others hyx).1.trans ((step₃.others hyx).1.trans
        ((step₂.others hyx).1.trans ((step₁.others hyx).1.trans hphase)))
    · have hsame : (s₁.addTo hub (s₁.clients x).myAddress).clients y = s.clients y :=
        (Function.update_of_ne hyhub _ _).trans (Function.update_of_ne hyx _ _)
      exact (congrArg Client.peerClients hsame).trans (hlist hyhub)

theorem exists_filled {hub : ι} {leaves : List ι} (hnodup : leaves.Nodup)
    (hfirst : ∀ x ∈ leaves, links.first x = hub) (hlen : leaves.length ≤ maxPeers) :
    ∃ tr s, (peerNetwork links).Run (.initial links) tr s ∧ (∀ m ∈ tr, m.label.1 ∈ leaves) ∧
      s.Filled links hub leaves := by
  induction leaves with
  | nil => exact ⟨[], _, .nil, by simp, fun x => ⟨rfl, rfl⟩, rfl, fun x _ => ⟨rfl, fun _ => rfl⟩⟩
  | cons x rest ih =>
      obtain ⟨hx, hrest⟩ := List.nodup_cons.1 hnodup
      obtain ⟨hhub, hfirst⟩ := List.forall_mem_cons.1 hfirst
      obtain ⟨tr, s, hrun, hleaves, hs⟩ := ih hrest hfirst (Nat.le_of_succ_le hlen)
      obtain ⟨tr', s', hrun', hleaf, hs'⟩ := hs.cons hx hhub hlen
      refine ⟨_, s', hrun.append hrun', List.forall_mem_append.2 ⟨?_, ?_⟩, hs'⟩
      · exact fun m hm => List.mem_cons_of_mem _ (hleaves m hm)
      · exact fun m hm => hleaf m hm ▸ List.mem_cons_self

/-- A full hub never adds its first peer, so what is on its side stays there. -/
theorem separated_preserved {κ : Type*} {side : ι → κ} {hub : ι}
    (hside : ∀ x, x ≠ hub → side (links.first x) = side x) :
    (peerNetwork links).PreservedUnder (fun _ => True) fun s =>
      s.Separated links side ∧ maxPeers ≤ (s.clients hub).peerClients.length := by
  rintro s ⟨x, a⟩ s' hs - ⟨h, hfull⟩
  constructor
  · refine hs.separated h ?_
    by_cases hx : x = hub
    · exact .inr (hx ▸ hfull)
    · exact .inl (hside x hx)
  · rcases hs.clients_cases hub with hhub | ⟨addr, hhub⟩
    · rwa [hhub]
    · rwa [hhub, Client.addNewPeer_of_full hfull]

/-- The hub 0 with the leaves 1 to 10, and beside it the pair of 11 and 12, to
which the hub's first peer belongs. -/
def hubFirst (x : Fin 13) : Fin 13 := if x = 0 ∨ x = 12 then 11 else if x = 11 then 12 else 0

def hubLinks : Links (Fin 13) where
  address x := [UInt8.ofNat (x + 65)]
  first := hubFirst
  injective := by decide
  ne_token := by decide
  first_ne := by decide
  linked := by
    have hnear : ∀ x, hubFirst x = 11 ∨ ∃ y, hubFirst x = y ∧ hubFirst y = 11 := by decide
    have hto : ∀ x, Relation.ReflTransGen (fun a b => hubFirst a = b ∨ hubFirst b = a) x 11 := by
      intro x
      rcases hnear x with hx | ⟨y, hx, hy⟩
      · exact .single (.inl hx)
      · exact .head (.inl hx) (.single (.inl hy))
    have hsymm : Std.Symm fun a b => hubFirst a = b ∨ hubFirst b = a := ⟨fun _ _ => Or.symm⟩
    exact fun x y => (hto x).trans (symm (hto y))

/-- Ten leaves ask the hub before its first call. -/
theorem hub_not_connected :
    ¬ ∀ (ι : Type) [Fintype ι] [DecidableEq ι] (links : Links ι) tr s,
      (peerNetwork links).Run (.initial links) tr s → (∀ x, 2 ≤ s.rounds x) →
        s.StronglyConnected := by
  intro h
  let leaves : List (Fin 13) := [1, 2, 3, 4, 5, 6, 7, 8, 9, 10]
  let side : Fin 13 → Bool := fun x => x < 11
  obtain ⟨tr, s, hrun, hleaves, hs⟩ := @exists_filled _ _ hubLinks 0 leaves (by decide) (by decide)
    (by decide)
  have hsep : s.Separated hubLinks side := by
    have hpres : (peerNetwork hubLinks).PreservedUnder (fun m => m.label.1 ∈ leaves)
        fun s => s.Separated hubLinks side := by
      rintro s ⟨x, a⟩ s' hs hx hsep
      have hfirst : ∀ x ∈ leaves, side (hubFirst x) = side x := by decide
      exact hs.separated hsep (.inl (hfirst x hx))
    exact hpres.run hrun (initial_separated _ _) hleaves
  have hfull : maxPeers ≤ (s.clients 0).peerClients.length := by
    rw [hs.list]
    decide
  have hclosed := (closed_invariant hubLinks).preserved.run hrun (initial_separated _ _) (by simp)
  obtain ⟨tr', s', hrun', hrounds⟩ := Closed.exists_rounds hclosed 2
  have hpres := @separated_preserved _ _ hubLinks Bool side 0 (by decide)
  obtain ⟨hsep', -⟩ := hpres.run hrun' ⟨hsep, hfull⟩ (by simp)
  have hside : side 0 ≠ side 11 := by decide
  exact hsep'.not_stronglyConnected hside (h _ hubLinks _ _ (hrun.append hrun') hrounds)

end PeerNetwork

end OneVote
