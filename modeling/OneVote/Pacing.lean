-- SUMMARY: The processing thread in its own order: two calls of bootstrapPeers, then passes, with one more call before every fiftieth.
import OneVote.Bootstrap
import OneVote.Election

/-!
# The order of the processing thread

In the whole system `bootstrapPeers` is called at any time. In the code it is the
processing thread that calls it, and that thread does one thing after the other:
no call comes in the middle of a pass, and no broadcast before the second call.
-/

namespace OneVote

open TransitionSystem (Move Simulation)

/-- `BOOTSTRAP_RETRY` -/
abbrev bootstrapRetry : Nat := 50

/-- Where the processing thread is in its function. -/
inductive Turn
  /-- in the loop before the main one, `i` calls of `bootstrapPeers` made -/
  | starting (i : Nat)
  /-- at the head of the main loop -/
  | looping
  /-- in the call of `bootstrapPeers` in the main loop -/
  | retrying
  /-- at the loop that empties `peerq` -/
  | draining
  /-- at `bq->pop_nonblocking()` -/
  | receiving
  /-- in the rest of the pass -/
  | working
  deriving DecidableEq, Repr

/-- The thread calls `bootstrapPeers`. -/
def Turn.Bootstraps : Turn → Prop
  | .starting _ | .retrying => True
  | _ => False

structure Pace where
  turn : Turn
  loopCounter : Nat
  peerq : SynchronizedQueue Bytes

namespace Pace

def initial : Pace := ⟨.starting 0, 0, .empty⟩

/-- `++loop_counter`, and whether a call is due. -/
def count (p : Pace) : Pace :=
  { p with
    loopCounter := p.loopCounter + 1
    turn := if (p.loopCounter + 1) % bootstrapRetry = 0 then .retrying else .draining }

/-- `bootstrapPeers` returns. -/
def returned (p : Pace) : Option Pace :=
  match p.turn with
  | .starting i => some { p with turn := if i + 1 < 2 then .starting (i + 1) else .looping }
  | .retrying => some { p with turn := .draining, loopCounter := 0 }
  | _ => none

/-- With `rounds` calls returned and `n` passes begun, the thread is where its
counter says. -/
def OnTime (p : Pace) (rounds n : Nat) : Prop :=
  match p.turn with
  | .starting i => i < 2 ∧ rounds = i ∧ n = 0 ∧ p.loopCounter = 0
  | .looping | .working => rounds = 2 + n / bootstrapRetry ∧ p.loopCounter = n % bootstrapRetry
  | .retrying => rounds = 2 + n / bootstrapRetry ∧ (n + 1) % bootstrapRetry = 0
  | .draining | .receiving =>
      rounds = 2 + (n + 1) / bootstrapRetry ∧ p.loopCounter = (n + 1) % bootstrapRetry

theorem OnTime.count {p : Pace} {rounds n : Nat} (h : p.OnTime rounds n)
    (hturn : p.turn = .looping) : p.count.OnTime rounds n := by
  obtain ⟨turn, loopCounter, peerq⟩ := p
  cases hturn
  obtain ⟨hrounds, hcounter⟩ : rounds = 2 + n / 50 ∧ loopCounter = n % 50 := h
  by_cases hdue : (loopCounter + 1) % 50 = 0
  · have hcount : Pace.count ⟨.looping, loopCounter, peerq⟩ =
        ⟨.retrying, loopCounter + 1, peerq⟩ := by
      rw [Pace.count, if_pos hdue]
    have hontime : rounds = 2 + n / 50 ∧ (n + 1) % 50 = 0 := by omega
    rw [hcount]
    exact hontime
  · have hcount : Pace.count ⟨.looping, loopCounter, peerq⟩ =
        ⟨.draining, loopCounter + 1, peerq⟩ := by
      rw [Pace.count, if_neg hdue]
    have hontime : rounds = 2 + (n + 1) / 50 ∧ loopCounter + 1 = (n + 1) % 50 := by omega
    rw [hcount]
    exact hontime

theorem OnTime.returned {p p' : Pace} {rounds n : Nat} (h : p.OnTime rounds n)
    (hreturned : p.returned = some p') : p'.OnTime (rounds + 1) n := by
  obtain ⟨turn, loopCounter, peerq⟩ := p
  cases turn with
  | starting i =>
      obtain ⟨hi, rfl, rfl, rfl⟩ : i < 2 ∧ rounds = i ∧ n = 0 ∧ loopCounter = 0 := h
      cases hreturned
      by_cases hnext : rounds + 1 < 2
      · rw [if_pos hnext]
        exact ⟨hnext, rfl, rfl, rfl⟩
      · have hlast : rounds + 1 = 2 := by omega
        rw [if_neg hnext]
        exact ⟨hlast, rfl⟩
  | retrying =>
      have hdue : rounds = 2 + n / 50 ∧ (n + 1) % 50 = 0 := h
      have hontime : rounds + 1 = 2 + (n + 1) / 50 ∧ 0 = (n + 1) % 50 := by omega
      cases hreturned
      exact hontime
  | _ => cases hreturned

theorem OnTime.drained {p : Pace} {rounds n : Nat} (h : p.OnTime rounds n)
    (hturn : p.turn = .draining) (peerq : SynchronizedQueue Bytes) :
    ({ p with turn := .receiving, peerq := peerq } : Pace).OnTime rounds n := by
  unfold OnTime at h
  rw [hturn] at h
  exact h

theorem OnTime.received {p : Pace} {rounds n : Nat} (h : p.OnTime rounds n)
    (hturn : p.turn = .receiving) :
    ({ p with turn := .working } : Pace).OnTime rounds (n + 1) := by
  unfold OnTime at h
  rw [hturn] at h
  exact h

theorem OnTime.again {p : Pace} {rounds n : Nat} (h : p.OnTime rounds n)
    (hturn : p.turn = .working) : ({ p with turn := .looping } : Pace).OnTime rounds n := by
  unfold OnTime at h
  rw [hturn] at h
  exact h

theorem peerq_of_returned {p p' : Pace} (h : p.returned = some p') : p'.peerq = p.peerq := by
  unfold returned at h
  split at h
  · cases h
    rfl
  · cases h
    rfl
  · cases h

end Pace

/-! ## The system with threads in order -/

structure Paced (ι : Type*) where
  election : Election ι
  paces : ι → Pace

/-- The thread that makes the step after it has taken from `bq`. -/
def Election.Event.worker? {ι : Type*} : Election.Event ι → Option ι
  | .submit _ _ | .access _ _ | .process _ (.block _ _) _ => none
  | .process x _ _ | .handBack x | .start x | .deliverBlock x _ _ | .deliverTransaction x _ _
  | .fail x | .finish x => some x

inductive Tick (ι : Type*)
  | event (e : Election.Event ι)
  | count (x : ι)
  /-- an address of `peerq` is added -/
  | addPeer (x : ι) (addr : Bytes)
  /-- `peerq` is empty -/
  | noPeer (x : ι)
  /-- the pass is over -/
  | again (x : ι)

/-- The passes at `x` that the step begins: one when the thread takes from `bq`. -/
def Tick.passes {ι : Type*} [DecidableEq ι] (x : ι) : Tick ι → Nat
  | .event (.process y (.block _ _) _) => if y = x then 1 else 0
  | _ => 0

/-- The step of the whole system that it is, if any. -/
def Tick.event? {ι : Type*} : Tick ι → Option (Election.Event ι)
  | .event e => some e
  | _ => none

namespace Paced

variable {ι : Type*} [DecidableEq ι]

def initial (links : Links ι) (tail : GenesisTail) : Paced ι :=
  ⟨.initial links tail, fun _ => .initial⟩

/-- The thread of `x` goes on at another place. -/
def goOn (s : Paced ι) (x : ι) (pace : Pace) : Paced ι :=
  { s with paces := Function.update s.paces x pace }

inductive Step (SHA1 : Bytes → Digest) : Paced ι → Tick ι → Paced ι → Prop
  | submit {s : Paced ι} {y : ι} {t : Transaction} {el : Election ι} :
      Election.Step SHA1 s.election (.submit y t) el →
      Step SHA1 s (.event (.submit y t)) { s with election := el }
  | bootstrap {s : Paced ι} {x : ι} {a : Access ι} {el : Election ι} :
      (s.paces x).turn.Bootstraps → a ≠ .done →
      Election.Step SHA1 s.election (.access x a) el →
      Step SHA1 s (.event (.access x a)) { s with election := el }
  | returned {s : Paced ι} {x : ι} {el : Election ι} {pace : Pace} :
      (s.paces x).returned = some pace →
      Election.Step SHA1 s.election (.access x .done) el →
      Step SHA1 s (.event (.access x .done)) (({ s with election := el } : Paced ι).goOn x pace)
  | count {s : Paced ι} {x : ι} :
      (s.paces x).turn = .looping → Step SHA1 s (.count x) (s.goOn x (s.paces x).count)
  | addPeer {s : Paced ι} {x : ι} {addr : Bytes} {peerq : SynchronizedQueue Bytes} :
      (s.paces x).turn = .draining → (s.paces x).peerq.popNonblocking = (some addr, peerq) →
      Step SHA1 s (.addPeer x addr)
        (({ s with election := { s.election with lists := s.election.lists.addTo x addr } } :
          Paced ι).goOn x { s.paces x with peerq := peerq })
  | noPeer {s : Paced ι} {x : ι} {peerq : SynchronizedQueue Bytes} :
      (s.paces x).turn = .draining → (s.paces x).peerq.popNonblocking = (none, peerq) →
      Step SHA1 s (.noPeer x) (s.goOn x { s.paces x with turn := .receiving, peerq := peerq })
  | receive {s : Paced ι} {x : ι} {b : Option Block} {env : RepairEnv} {effects : List Effect}
      {el : Election ι} :
      (s.paces x).turn = .receiving →
      Election.Step SHA1 s.election (.process x (.block b env) effects) el →
      Step SHA1 s (.event (.process x (.block b env) effects))
        (({ s with election := el } : Paced ι).goOn x { s.paces x with turn := .working })
  | work {s : Paced ι} {e : Election.Event ι} {x : ι} {el : Election ι} :
      e.worker? = some x → (s.paces x).turn = .working →
      Election.Step SHA1 s.election e el →
      Step SHA1 s (.event e) { s with election := el }
  | again {s : Paced ι} {x : ι} :
      (s.paces x).turn = .working → (s.election.peers x).thread.point = .head →
      (s.election.peers x).todo = [] →
      Step SHA1 s (.again x) (s.goOn x { s.paces x with turn := .looping })

end Paced

def paced {ι : Type*} [DecidableEq ι] (links : Links ι) (SHA1 : Bytes → Digest)
    (tail : GenesisTail) : TransitionSystem (Paced ι) (Tick ι) where
  init s := s = .initial links tail
  step := Paced.Step SHA1

/-! ## First peers -/

namespace PeerNetwork

variable {ι : Type*} [DecidableEq ι] {links : Links ι} {s s' : PeerNetwork ι} {x : ι}
  {a : Access ι}

theorem Step.rounds_eq (hs : Step s (x, a) s') (ha : a ≠ .done) : s'.rounds = s.rounds := by
  cases hs with
  | done => exact absurd rfl ha
  | _ => rfl

theorem Step.of_done (hs : Step s (x, .done) s') :
    s'.rounds x = s.rounds x + 1 ∧ s'.phases x = .idle := by
  cases hs
  exact ⟨Function.update_self _ _ _, phases_goOn s x .idle⟩

/-- A miner that has begun to call has its first peer in its list, or a full list. -/
structure FirstSettled (links : Links ι) (s : PeerNetwork ι) : Prop where
  addressed : s.Addressed links
  proper : ∀ x, (s.clients x).Proper
  settled : ∀ x, s.phases x = .idle ∧ s.rounds x = 0 ∨
    (s.clients x).Settled (links.address (links.first x))

theorem Step.settled (hs : Step s (x, a) s') {y : ι} {addr : Bytes}
    (h : (s.clients y).Settled addr) : (s'.clients y).Settled addr := by
  rcases hs.clients_cases y with hy | ⟨p, hy⟩
  · rwa [hy]
  · rw [hy]
    exact h.addNewPeer p

/-- A call begins with the first peer. -/
theorem Step.clients_of_idle (hs : Step s (x, a) s') (hphase : s.phases x = .idle) :
    s'.clients x = (s.clients x).addNewPeer (s.clients x).firstPeer := by
  cases hs with
  | addFirst => exact clients_addTo_self s x _
  | list hbegun => cases hphase.symm.trans hbegun
  | respond hbegun => cases hphase.symm.trans hbegun
  | register hbegun => cases hphase.symm.trans hbegun
  | asked hbegun => cases hphase.symm.trans hbegun
  | check hbegun => cases hphase.symm.trans hbegun
  | add hbegun => cases hphase.symm.trans hbegun
  | done hbegun => cases hphase.symm.trans hbegun

theorem FirstSettled.step (h : s.FirstSettled links) (hs : Step s (x, a) s') :
    s'.FirstSettled links where
  addressed := hs.addressed h.addressed
  proper := (proper_invariant links).step _ _ _ hs h.proper
  settled := by
    intro y
    rcases h.settled y with ⟨hphase, hrounds⟩ | hsettled
    · by_cases hy : y = x
      · subst hy
        have hadd := (h.proper y).settled_addNewPeer (s.clients y).firstPeer
        rw [← hs.clients_of_idle hphase, (h.addressed y).2] at hadd
        exact .inr hadd
      · obtain ⟨hphase', hrounds'⟩ := hs.others hy
        exact .inl ⟨hphase'.trans hphase, hrounds'.trans hrounds⟩
    · exact .inr (hs.settled hsettled)

theorem firstSettled_invariant (links : Links ι) :
    (peerNetwork links).Invariant (FirstSettled links) where
  init := by
    rintro s rfl
    exact ⟨fun x => ⟨rfl, rfl⟩, (proper_invariant links).init _ rfl, fun x => .inl ⟨rfl, rfl⟩⟩
  step := by
    rintro s ⟨x, a⟩ s' hs h
    exact h.step hs

omit [DecidableEq ι] in
/-- After a call the list is full, or it has the first peer. -/
theorem FirstSettled.mem_or_full (h : s.FirstSettled links) (hrounds : 0 < s.rounds x) :
    links.address (links.first x) ∈ (s.clients x).peerClients ∨
      (s.clients x).peerClients.length = maxPeers := by
  have hpos : ¬ (s.phases x = .idle ∧ s.rounds x = 0) :=
    fun hidle => Nat.pos_iff_ne_zero.1 hrounds hidle.2
  rcases (h.settled x).resolve_left hpos with hmem | hfull | hown | htoken
  · exact .inl hmem
  · exact .inr hfull
  · rw [(h.addressed x).1] at hown
    exact absurd (links.injective hown) (links.first_ne x)
  · exact absurd htoken (links.ne_token _)

end PeerNetwork

/-! ## Steps -/

namespace Election

variable {ι : Type*} [DecidableEq ι] {SHA1 : Bytes → Digest} {s s' : Election ι} {e : Event ι}

theorem Step.lists_eq (hs : Step SHA1 s e s') (he : e.access? = none) : s'.lists = s.lists := by
  cases hs with
  | access => cases he
  | _ => rfl

omit [DecidableEq ι] in
theorem Event.access?_of_worker {x : ι} (h : e.worker? = some x) : e.access? = none := by
  cases e with
  | access => cases h
  | _ => rfl

end Election

namespace Paced

variable {ι : Type*} [DecidableEq ι] {links : Links ι} {SHA1 : Bytes → Digest}
  {tail : GenesisTail} {s s' : Paced ι} {x z : ι} {l : Tick ι} {n : Nat}

@[simp] theorem paces_goOn_self (s : Paced ι) (x : ι) (pace : Pace) :
    (s.goOn x pace).paces x = pace := Function.update_self _ _ _

theorem paces_goOn_of_ne (h : z ≠ x) (pace : Pace) : (s.goOn x pace).paces z = s.paces z :=
  Function.update_of_ne h _ _

/-- The thread of `z` keeps to its order, with `n` passes begun. -/
structure Ordered (s : Paced ι) (z : ι) (n : Nat) : Prop where
  peerq : (s.paces z).peerq = .empty
  onTime : (s.paces z).OnTime (s.election.lists.rounds z) n
  idle : ¬ (s.paces z).turn.Bootstraps → s.election.lists.phases z = .idle

omit [DecidableEq ι] in
theorem initial_ordered (links : Links ι) (tail : GenesisTail) (z : ι) :
    (initial links tail).Ordered z 0 where
  peerq := rfl
  onTime := ⟨Nat.zero_lt_two, rfl, rfl, rfl⟩
  idle := fun _ => rfl

omit [DecidableEq ι] in
/-- Nothing ever pushes to `peerq`. -/
theorem Ordered.not_popped (h : s.Ordered z n) (addr : Bytes) (peerq : SynchronizedQueue Bytes) :
    (s.paces z).peerq.popNonblocking ≠ (some addr, peerq) := by
  intro hpop
  rw [h.peerq] at hpop
  cases hpop

omit [DecidableEq ι] in
/-- Nothing that the thread of `z` reads has changed. -/
theorem Ordered.congr (h : s.Ordered z n) (hpace : s'.paces z = s.paces z)
    (hrounds : s'.election.lists.rounds z = s.election.lists.rounds z)
    (hphase : s'.election.lists.phases z = s.election.lists.phases z) : s'.Ordered z n where
  peerq := by rw [hpace, h.peerq]
  onTime := by
    rw [hpace, hrounds]
    exact h.onTime
  idle := by
    rw [hpace, hphase]
    exact h.idle

/-- One thread goes on, and no list changes. -/
theorem Ordered.goOn (h : s.Ordered z n) {el : Election ι} (hlists : el.lists = s.election.lists)
    {pace : Pace} {n' : Nat} (hother : z ≠ x → n' = n)
    (hpeerq : z = x → pace.peerq = .empty)
    (honTime : z = x → pace.OnTime (s.election.lists.rounds z) n')
    (hidle : z = x → ¬ pace.turn.Bootstraps → s.election.lists.phases z = .idle) :
    (({ s with election := el } : Paced ι).goOn x pace).Ordered z n' := by
  have hrounds : el.lists.rounds z = s.election.lists.rounds z := by rw [hlists]
  have hphase : el.lists.phases z = s.election.lists.phases z := by rw [hlists]
  by_cases hz : z = x
  · subst hz
    have hpace := paces_goOn_self ({ s with election := el } : Paced ι) z pace
    constructor
    · rw [hpace]
      exact hpeerq rfl
    · rw [hpace]
      exact hrounds ▸ honTime rfl
    · rw [hpace]
      exact fun hturn => hphase.trans (hidle rfl hturn)
  · rw [hother hz]
    exact h.congr (paces_goOn_of_ne hz _) hrounds hphase

theorem passes_of_worker {e : Election.Event ι} (h : e.worker? = some x) (z : ι) :
    (Tick.event e).passes z = 0 := by
  cases e with
  | process y i effects =>
      cases i with
      | block => cases h
      | _ => rfl
  | _ => rfl

/-- A step keeps every thread in its order. -/
theorem Step.ordered (hs : Step SHA1 s l s') (h : s.Ordered z n) :
    s'.Ordered z (n + l.passes z) := by
  cases hs with
  | submit hstep =>
      have hlists := hstep.lists_eq rfl
      exact h.congr rfl (by rw [hlists]) (by rw [hlists])
  | @bootstrap x a el hturn ha hstep =>
      cases hstep with
      | access hstep =>
          have hrounds := hstep.rounds_eq ha
          by_cases hz : z = x
          · subst hz
            exact ⟨h.peerq, by rw [hrounds]; exact h.onTime, fun hnot => absurd hturn hnot⟩
          · exact h.congr rfl (by rw [hrounds]) (hstep.others hz).1
  | @returned x el pace hreturned hstep =>
      cases hstep with
      | access hstep =>
          by_cases hz : z = x
          · subst hz
            obtain ⟨hrounds, hphase⟩ := hstep.of_done
            -- the call that returned is the one that the pace was waiting for
            have honTime := h.onTime.returned hreturned
            rw [← hrounds] at honTime
            refine ⟨?_, ?_, fun _ => hphase⟩
            · rw [paces_goOn_self, Pace.peerq_of_returned hreturned, h.peerq]
            · rwa [paces_goOn_self]
          · obtain ⟨hphase, hrounds⟩ := hstep.others hz
            exact h.congr (paces_goOn_of_ne hz _) hrounds hphase
  | @count x hturn =>
      refine h.goOn rfl (fun _ => rfl) ?_ ?_ ?_
      · rintro rfl
        exact h.peerq
      · rintro rfl
        exact h.onTime.count hturn
      · rintro rfl -
        exact h.idle (by rw [hturn]; exact id)
  | @addPeer x addr peerq hturn hpop =>
      -- nobody pushes to `peerq`
      by_cases hz : z = x
      · subst hz
        exact absurd hpop (h.not_popped _ _)
      · exact h.congr (paces_goOn_of_ne hz _) rfl rfl
  | @noPeer x peerq hturn hpop =>
      refine h.goOn rfl (fun _ => rfl) ?_ ?_ ?_
      · rintro rfl
        rw [h.peerq] at hpop
        cases hpop
        rfl
      · rintro rfl
        exact h.onTime.drained hturn peerq
      · rintro rfl -
        exact h.idle (by rw [hturn]; exact id)
  | @receive x b env effects el hturn hstep =>
      -- only here a pass begins
      refine h.goOn (hstep.lists_eq rfl) ?_ ?_ ?_ ?_
      · intro hz
        change n + (if x = z then 1 else 0) = n
        rw [if_neg (Ne.symm hz), Nat.add_zero]
      · rintro rfl
        exact h.peerq
      · rintro rfl
        change Pace.OnTime _ _ (n + if z = z then 1 else 0)
        rw [if_pos rfl]
        exact h.onTime.received hturn
      · rintro rfl -
        exact h.idle (by rw [hturn]; exact id)
  | work hworker hturn hstep =>
      have hlists := hstep.lists_eq (Election.Event.access?_of_worker hworker)
      rw [passes_of_worker hworker]
      exact h.congr rfl (by rw [hlists]) (by rw [hlists])
  | @again x hturn hpoint htodo =>
      refine h.goOn rfl (fun _ => rfl) ?_ ?_ ?_
      · rintro rfl
        exact h.peerq
      · rintro rfl
        exact h.onTime.again hturn
      · rintro rfl -
        exact h.idle (by rw [hturn]; exact id)

/-! ## Runs -/

/-- The passes that the thread of `x` has begun. -/
def passes (x : ι) : List (Move (Paced ι) (Tick ι)) → Nat
  | [] => 0
  | m :: tr => m.label.passes x + passes x tr

theorem passes_snoc (x : ι) (tr : List (Move (Paced ι) (Tick ι))) (m : Move (Paced ι) (Tick ι)) :
    passes x (tr ++ [m]) = passes x tr + m.label.passes x := by
  induction tr with
  | nil => exact Nat.add_comm _ _
  | cons m' tr ih =>
      rw [List.cons_append, passes, ih, passes, Nat.add_assoc]

theorem run_ordered {tr : List (Move (Paced ι) (Tick ι))}
    (hrun : (paced links SHA1 tail).Run (.initial links tail) tr s) (z : ι) :
    s.Ordered z (passes z tr) := by
  induction hrun with
  | nil => exact initial_ordered links tail z
  | snoc _ hstep ih =>
      rw [passes_snoc]
      exact hstep.ordered ih

def InOrder (s : Paced ι) : Prop := ∀ z, ∃ n, s.Ordered z n

theorem inOrder_invariant (links : Links ι) (SHA1 : Bytes → Digest) (tail : GenesisTail) :
    (paced links SHA1 tail).Invariant InOrder where
  init := by
    rintro s rfl z
    exact ⟨0, initial_ordered links tail z⟩
  step := by
    intro s l s' hstep h z
    obtain ⟨n, hn⟩ := h z
    exact ⟨_, hstep.ordered hn⟩

/-- Threads in their order do nothing that threads without an order cannot do. -/
theorem election_simulation (links : Links ι) (SHA1 : Bytes → Digest) (tail : GenesisTail) :
    Simulation (paced links SHA1 tail) (OneVote.election links SHA1 tail) InOrder (·.election)
      fun m => m.label.event? where
  init := by
    rintro s rfl
    rfl
  quiet := by
    intro s l s' hstep h hg
    cases hstep with
    | @addPeer x _ _ _ hpop =>
        obtain ⟨n, hx⟩ := h x
        exact absurd hpop (hx.not_popped _ _)
    | count => rfl
    | noPeer => rfl
    | again => rfl
    | _ => cases hg
  seen := by
    intro s l s' e hstep h hg
    cases hstep with
    | submit hstep => exact Option.some.inj hg ▸ hstep
    | bootstrap _ _ hstep => exact Option.some.inj hg ▸ hstep
    | returned _ hstep => exact Option.some.inj hg ▸ hstep
    | receive _ hstep => exact Option.some.inj hg ▸ hstep
    | work _ _ hstep => exact Option.some.inj hg ▸ hstep
    | _ => cases hg

theorem run_election {tr : List (Move (Paced ι) (Tick ι))}
    (hrun : (paced links SHA1 tail).Run (.initial links tail) tr s) :
    ∃ tr', (OneVote.election links SHA1 tail).Run (.initial links tail) tr' s.election ∧
      tr'.map (·.label) = tr.filterMap fun m => m.label.event? :=
  ⟨_, (election_simulation links SHA1 tail).run (inOrder_invariant links SHA1 tail).preserved hrun
    fun z => ⟨0, initial_ordered links tail z⟩, TransitionSystem.labels_image tr⟩

theorem run_firstSettled {tr : List (Move (Paced ι) (Tick ι))}
    (hrun : (paced links SHA1 tail).Run (.initial links tail) tr s) :
    s.election.lists.FirstSettled links := by
  obtain ⟨tr', helection, -⟩ := run_election hrun
  obtain ⟨⟨tr'', hlists, -⟩, -⟩ := Election.run_projects helection
  exact (PeerNetwork.firstSettled_invariant links).reachable ⟨_, tr'', rfl, hlists⟩

theorem rounds_of_received {tr : List (Move (Paced ι) (Tick ι))}
    (hrun : (paced links SHA1 tail).Run (.initial links tail) tr s) {b : Option Block}
    {env : RepairEnv} {effects : List Effect}
    (hstep : Step SHA1 s (.event (.process x (.block b env) effects)) s') :
    s.election.lists.rounds x = 2 + (passes x tr + 1) / bootstrapRetry ∧
      s.election.lists.phases x = .idle := by
  obtain ⟨-, honTime, hidle⟩ := run_ordered hrun x
  cases hstep with
  | receive hturn =>
      unfold Pace.OnTime at honTime
      rw [hturn] at honTime hidle
      exact ⟨honTime.1, hidle id⟩
  | work hworker => cases hworker

/-- A broadcast that begins in the order of the thread goes to a list that two
calls of `bootstrapPeers` have filled. -/
theorem calls_of_start {tr : List (Move (Paced ι) (Tick ι))}
    (hrun : (paced links SHA1 tail).Run (.initial links tail) tr s)
    (hstep : Step SHA1 s (.event (.start x)) s') :
    ∃ ps, (s'.election.peers x).calls = some ps ∧ ps.length ≤ maxPeers ∧ ps.Nodup ∧
      links.address x ∉ ps ∧
        (links.address (links.first x) ∈ ps ∨ ps.length = maxPeers) := by
  have hsettled := run_firstSettled hrun
  have honTime := (run_ordered hrun x).onTime
  cases hstep with
  | @work y _ el hworker hturn hstep =>
      cases hworker
      have hrounds : 0 < s.election.lists.rounds x := by
        unfold Pace.OnTime at honTime
        rw [hturn] at honTime
        rw [honTime.1]
        exact Nat.add_pos_left Nat.zero_lt_two _
      have hproper := hsettled.proper x
      cases hstep with
      | start htodo hbroadcast hcalls =>
          refine ⟨(s.election.lists.clients x).peerClients, ?_, hproper.length_le, hproper.nodup,
            ?_, hsettled.mem_or_full hrounds⟩
          · change ((s.election.called x _).peers x).calls = _
            rw [Election.peers_called_self]
          · rw [← (hsettled.addressed x).1]
            exact hproper.not_own

theorem ne_addPeer_of_step {tr : List (Move (Paced ι) (Tick ι))}
    (hrun : (paced links SHA1 tail).Run (.initial links tail) tr s) (hstep : Step SHA1 s l s')
    (addr : Bytes) : l ≠ .addPeer x addr := by
  rintro rfl
  cases hstep with
  | addPeer _ hpop => exact (run_ordered hrun x).not_popped _ _ hpop

/-- With every thread in its order, a run is a run of the whole system, nothing is
popped from `peerq`, the `n`-th pass begins when exactly `2 + n / 50` calls of
`bootstrapPeers` have returned and none is under way, and each broadcast calls at
least one peer, at most ten, none of them twice and not the peer itself: the first
peer, unless ten others have filled the list. -/
theorem run_paced {tr : List (Move (Paced ι) (Tick ι))}
    (hrun : (paced links SHA1 tail).Run (.initial links tail) tr s) :
    (∃ tr', (OneVote.election links SHA1 tail).Run (.initial links tail) tr' s.election ∧
        tr'.map (·.label) = tr.filterMap fun m => m.label.event?) ∧
      (∀ x addr, ∀ m ∈ tr, m.label ≠ .addPeer x addr) ∧
      (∀ x before m after b env effects, tr = before ++ m :: after →
        m.label = .event (.process x (.block b env) effects) →
          m.pre.election.lists.rounds x = 2 + (passes x before + 1) / bootstrapRetry ∧
            m.pre.election.lists.phases x = .idle) ∧
      ∀ x, ∀ m ∈ tr, m.label = .event (.start x) →
        ∃ ps, (m.post.election.peers x).calls = some ps ∧ ps.length ≤ maxPeers ∧ ps.Nodup ∧
          links.address x ∉ ps ∧
            (links.address (links.first x) ∈ ps ∨ ps.length = maxPeers) := by
  refine ⟨run_election hrun, ?_, ?_, ?_⟩
  · rintro x addr ⟨s₁, l, s₂⟩ hm
    obtain ⟨before, after, rfl⟩ := List.append_of_mem hm
    exact ne_addPeer_of_step hrun.before (hrun.step_of_mem ⟨s₁, l, s₂⟩ hm) addr
  · rintro x before ⟨s₁, l, s₂⟩ after b env effects rfl hlabel
    have hstep := hrun.step_of_mem ⟨s₁, l, s₂⟩ (by simp)
    cases hlabel
    exact rounds_of_received hrun.before hstep
  · rintro x ⟨s₁, l, s₂⟩ hm hlabel
    obtain ⟨before, after, rfl⟩ := List.append_of_mem hm
    have hstep := hrun.step_of_mem ⟨s₁, l, s₂⟩ hm
    cases hlabel
    exact calls_of_start hrun.before hstep

/-! ### A first pass -/

open PeerNetwork (pairLinks)

/-- The lists of a pair, of which one peer makes its calls. -/
def pairAt (phase : Phase) (list other : List Bytes) (rounds : Nat) : PeerNetwork Bool where
  clients x := if x then ⟨[49], [48], other⟩ else ⟨[48], [49], list⟩
  phases x := if x then .idle else phase
  rounds x := if x then 0 else rounds

theorem eq_pairAt {n : PeerNetwork Bool} {phase : Phase} {list other : List Bytes} {rounds : Nat}
    (hclients : n.clients false = ⟨[48], [49], list⟩ ∧ n.clients true = ⟨[49], [48], other⟩)
    (hphases : n.phases false = phase ∧ n.phases true = .idle)
    (hrounds : n.rounds false = rounds ∧ n.rounds true = 0) :
    n = pairAt phase list other rounds := by
  have hext : ∀ {α : Type} {f g : Bool → α}, f false = g false ∧ f true = g true → f = g := by
    intro α f g h
    funext x
    cases x
    · exact h.1
    · exact h.2
  obtain ⟨clients, phases, rounds'⟩ := n
  cases hext (g := (pairAt phase list other rounds).clients) hclients
  cases hext (g := (pairAt phase list other rounds).phases) hphases
  cases hext (g := (pairAt phase list other rounds).rounds) hrounds
  rfl

/-- One peer of a pair makes the accesses of a call, and the call returns. -/
theorem exists_called {paces : Bool → Pace} {pace : Pace} {peers : Bool → Peer}
    {n n' n'' : PeerNetwork Bool} {tr : List (Move (PeerNetwork Bool) (Bool × Access Bool))}
    (hturn : (paces false).turn.Bootstraps) (hreturned : (paces false).returned = some pace)
    (hrun : (peerNetwork pairLinks).Run n tr n')
    (haccess : ∀ m ∈ tr, m.label.1 = false ∧ m.label.2 ≠ .done)
    (hphase : n'.phases false = .adding []) (hfinish : n'.finish false = n'') :
    ∃ tr', (paced pairLinks SHA1 tail).Run ⟨⟨peers, n⟩, paces⟩ tr'
      ⟨⟨peers, n''⟩, Function.update paces false pace⟩ := by
  have hlast : Step SHA1 ⟨⟨peers, n'⟩, paces⟩ (.event (.access false .done))
      ⟨⟨peers, n''⟩, Function.update paces false pace⟩ :=
    hfinish ▸ .returned hreturned (.access (.done hphase (.inl rfl)))
  have hcall : ∃ tr', (paced pairLinks SHA1 tail).Run ⟨⟨peers, n⟩, paces⟩ tr'
      ⟨⟨peers, n'⟩, paces⟩ := by
    clear hlast hphase hfinish
    induction hrun with
    | nil => exact ⟨[], .nil⟩
    | @snoc n₁ n₂ tr a _ hstep ih =>
        obtain ⟨y, a⟩ := a
        rw [List.forall_mem_append, List.forall_mem_singleton] at haccess
        obtain ⟨hbefore, rfl, ha⟩ := haccess
        obtain ⟨tr', hrun'⟩ := ih hbefore
        have hnext : Step SHA1 ⟨⟨peers, n₁⟩, paces⟩ (.event (.access false a))
            ⟨⟨peers, n₂⟩, paces⟩ := .bootstrap hturn ha (.access hstep)
        exact ⟨_, hrun'.snoc hnext⟩
  obtain ⟨tr', hrun'⟩ := hcall
  exact ⟨_, hrun'.snoc hlast⟩

/-- The pair where one peer is at the given place, after its two calls. -/
def calledTwice (tail : GenesisTail) (pace : Pace) : Paced Bool :=
  ⟨⟨fun _ => .initial tail, pairAt .idle [[49]] [[48]] 2⟩,
    Function.update (fun _ => .initial) false pace⟩

theorem exists_calledTwice (SHA1 : Bytes → Digest) (tail : GenesisTail) :
    ∃ tr, (paced pairLinks SHA1 tail).Run (.initial pairLinks tail) tr
      (calledTwice tail ⟨.looping, 0, .empty⟩) := by
  have hone := TransitionSystem.Run.nil (L := peerNetwork pairLinks) (s := .initial pairLinks)
    |>.snoc (PeerNetwork.Step.addFirst (x := false) rfl)
    |>.snoc (PeerNetwork.Step.list (x := false) rfl)
    |>.snoc (PeerNetwork.Step.respond (x := false) (y := true) rfl)
    |>.snoc (PeerNetwork.Step.register (x := false) (y := true) rfl)
    |>.snoc (PeerNetwork.Step.asked (x := false) rfl)
  -- the second call is told of the peer that makes it
  have htwo := TransitionSystem.Run.nil (L := peerNetwork pairLinks)
      (s := pairAt .idle [[49]] [[48]] 1)
    |>.snoc (PeerNetwork.Step.addFirst (x := false) rfl)
    |>.snoc (PeerNetwork.Step.list (x := false) rfl)
    |>.snoc (PeerNetwork.Step.respond (x := false) (y := true) rfl)
    |>.snoc (PeerNetwork.Step.register (x := false) (y := true) rfl)
    |>.snoc (PeerNetwork.Step.asked (x := false) rfl)
    |>.snoc (PeerNetwork.Step.check (x := false) rfl (by decide))
    |>.snoc (PeerNetwork.Step.add (x := false) rfl)
  obtain ⟨tr, hrun⟩ := @exists_called SHA1 tail (fun _ => .initial) _ (fun _ => .initial tail)
    _ _ (pairAt .idle [[49]] [[48]] 1) _ trivial rfl hone (by simp) rfl
    (eq_pairAt ⟨rfl, rfl⟩ ⟨rfl, rfl⟩ ⟨rfl, rfl⟩)
  obtain ⟨tr', hrun'⟩ := @exists_called SHA1 tail
    (Function.update (fun _ => .initial) false ⟨.starting 1, 0, .empty⟩) _
    (fun _ => .initial tail) _ _ (pairAt .idle [[49]] [[48]] 2) _ trivial rfl htwo (by simp) rfl
    (eq_pairAt ⟨rfl, rfl⟩ ⟨rfl, rfl⟩ ⟨rfl, rfl⟩)
  rw [Function.update_idem] at hrun'
  exact ⟨_, hrun.append hrun'⟩

/-- In its first pass, one peer of a pair takes a vote and tells the other of it. -/
theorem run_paced_pair :
    ∃ tr s, (paced pairLinks Block.sampleSHA1 Blockchain.sampleTail).Run
        (.initial pairLinks Blockchain.sampleTail) tr s ∧
      ∃ ps, (s.election.peers false).calls = some ps ∧ ps.length ≤ maxPeers ∧ ps.Nodup ∧
        pairLinks.address false ∉ ps ∧
          (pairLinks.address true ∈ ps ∨ ps.length = maxPeers) := by
  obtain ⟨tr, hrun⟩ := exists_calledTwice Block.sampleSHA1 Blockchain.sampleTail
  obtain ⟨th, htake, -⟩ := Election.exists_took_sampleVote
  have hrun := hrun
    |>.snoc (Step.count (x := false) rfl)
    |>.snoc (Step.noPeer (x := false) rfl rfl)
    |>.snoc (@Step.submit Bool _ _ _ false Election.sampleVote _ .submit)
    |>.snoc (@Step.receive Bool _ Block.sampleSHA1 _ false none .alone [] _ rfl
      (.process rfl (.takeBlock rfl rfl rfl (.idle rfl))))
    |>.snoc (@Step.work Bool _ _ _ (.process false (.transaction Election.sampleVote)
      [.broadcastTransaction Election.sampleVote]) false _ rfl rfl
      (.process rfl (.takeTransaction rfl rfl (.transaction rfl htake))))
    |>.snoc (@Step.work Bool _ _ _ (.start false) false _ rfl rfl
      (.start (e := .broadcastTransaction Election.sampleVote) rfl trivial rfl))
  exact ⟨_, _, hrun,
    (run_paced hrun).2.2.2 false _ (List.mem_append_right _ (List.mem_singleton_self _)) rfl⟩

end Paced

end OneVote
