-- SUMMARY: What the queues hand out: always the element pushed last, so that all but the last of a burst of votes or blocks are never handled.
import OneVote.Base.Latest
import OneVote.Queues
import OneVote.VoteOrigins

/-!
# Last pushed

`pop` and `pop_nonblocking` return the back of the queue and remove the front.
The front only counts: what the queue hands out is what was pushed last.
-/

namespace OneVote

open TransitionSystem (Move)

namespace SynchronizedQueue

variable {α : Type*}

/-- The back of the queue is what was pushed last. -/
def Tracks (q : SynchronizedQueue α) (us : List (Use α)) : Prop :=
  q.queue ≠ [] → q.queue.getLast? = Use.latest none us

theorem empty_tracks : (empty : SynchronizedQueue α).Tracks [] := fun h => absurd rfl h

theorem push_tracks (q : SynchronizedQueue α) (us : List (Use α)) (x : α) :
    (q.push x).Tracks (us ++ [.put x]) := by
  intro _
  rw [Use.latest_put]
  exact List.getLast?_concat

/-- A removal leaves the back where it is, until the queue is empty. -/
theorem Tracks.remove {q : SynchronizedQueue α} {us : List (Use α)} (h : q.Tracks us) {x : α}
    (hx : q.queue.getLast? = some x) :
    Use.latest none us = some x ∧
      (⟨q.queue.tail⟩ : SynchronizedQueue α).Tracks (us ++ [.take]) := by
  have hne : q.queue ≠ [] := by
    intro hnil
    simp [hnil] at hx
  refine ⟨(h hne).symm.trans hx, ?_⟩
  intro htail
  rw [Use.latest_take, ← h hne]
  obtain ⟨y, rest, hq⟩ := List.exists_cons_of_ne_nil hne
  simp only [hq, List.tail_cons] at htail ⊢
  rw [List.getLast?_cons, List.getLast?_eq_some_getLast htail]
  rfl

/-- What a call does to the elements. -/
def uses {τ : Type*} (m : Move (Usage α) (τ × Call α)) : List (Use α) :=
  match m.label.2 with
  | .push t => [.put t]
  | .pop | .popNonblocking => if m.pre.q.queue = [] then [] else [.take]

/-- The history of a queue: what it held back to what was pushed last, and what
it handed out so far. -/
structure Follows (q : SynchronizedQueue α) (handed : List α) (us : List (Use α)) : Prop where
  tracks : q.Tracks us
  handed : handed = Use.handouts none us

theorem empty_follows : (empty : SynchronizedQueue α).Follows [] [] := ⟨empty_tracks, rfl⟩

theorem Follows.push {q : SynchronizedQueue α} {handed : List α} {us : List (Use α)}
    (h : q.Follows handed us) (x : α) : (q.push x).Follows handed (us ++ [.put x]) where
  tracks := push_tracks q us x
  handed := h.handed.trans (Use.handouts_put none us x).symm

theorem Follows.remove {q : SynchronizedQueue α} {handed : List α} {us : List (Use α)}
    (h : q.Follows handed us) {x : α} (hx : q.queue.getLast? = some x) :
    (⟨q.queue.tail⟩ : SynchronizedQueue α).Follows (handed ++ [x]) (us ++ [.take]) where
  tracks := (h.tracks.remove hx).2
  handed := by
    rw [Use.handouts_take, (h.tracks.remove hx).1, ← h.handed]
    rfl

theorem Follows.pop {q q' : SynchronizedQueue α} {handed : List α} {us : List (Use α)} {x : α}
    (h : q.Follows handed us) (hpop : q.pop = some (x, q')) :
    q'.Follows (handed ++ [x]) (us ++ [.take]) := by
  obtain ⟨hx, rfl⟩ := pop_eq_some.1 hpop
  exact h.remove hx

theorem Follows.popNonblocking {q q' : SynchronizedQueue α} {handed : List α} {us : List (Use α)}
    {x : α} (h : q.Follows handed us) (hpop : q.popNonblocking = (some x, q')) :
    q'.Follows (handed ++ [x]) (us ++ [.take]) := by
  obtain ⟨hne, rfl⟩ := popNonblocking_eq_some hpop
  rw [popNonblocking_nonempty hne] at hpop
  exact h.remove (Prod.mk.inj hpop).1

theorem Usage.Step.follows {τ : Type*} {u v : Usage α} {i : τ × Call α} (hs : Usage.Step u i v)
    {us : List (Use α)} (h : u.q.Follows u.returned us) :
    v.q.Follows v.returned (us ++ uses ⟨u, i, v⟩) := by
  cases hs with
  | @push thread t => exact h.push t
  | @pop thread ret q hpop =>
      have hne : u.q.queue ≠ [] := by
        intro hnil
        simp [SynchronizedQueue.pop, hnil] at hpop
      have huses : uses (⟨u, (thread, .pop), ⟨q, u.pushed, u.returned ++ [ret]⟩⟩ :
          Move (Usage α) (τ × Call α)) = [.take] := if_neg hne
      rw [huses]
      exact h.pop hpop
  | @popNonblocking thread ret q hpop =>
      by_cases hempty : u.q.queue = []
      · rw [popNonblocking_empty hempty] at hpop
        obtain ⟨rfl, rfl⟩ := hpop
        simpa [uses, hempty] using h
      · obtain ⟨x, hx⟩ : ∃ x, u.q.queue.getLast? = some x :=
          ⟨_, List.getLast?_eq_some_getLast hempty⟩
        rw [popNonblocking_nonempty hempty, hx] at hpop
        obtain ⟨rfl, rfl⟩ := hpop
        simpa [uses, hempty] using h.remove hx

/-- Over any run of any threads, the calls return what was pushed last, again
and again; an element is returned exactly when a removal follows its push
before the next push. -/
theorem run_returned {τ : Type*} {v : Usage α} {tr : List (Move (Usage α) (τ × Call α))}
    (hrun : (threads τ α).Run ⟨empty, [], []⟩ tr v) :
    v.returned = Use.handouts none (tr.flatMap uses) ∧
      ∀ x, x ∈ v.returned ↔ x ∈ Use.survivors (tr.flatMap uses) := by
  have hfollows : ∀ {u : Usage α} {tr : List (Move (Usage α) (τ × Call α))} {v : Usage α},
      (threads τ α).Run u tr v → u = ⟨empty, [], []⟩ →
        v.q.Follows v.returned (tr.flatMap uses) := by
    intro u tr v hrun hu
    induction hrun with
    | nil =>
        subst hu
        exact empty_follows
    | snoc _ hstep ih =>
        rw [List.flatMap_append, List.flatMap_singleton]
        exact hstep.follows ih
  have hhanded := (hfollows hrun rfl).handed
  refine ⟨hhanded, fun x => ?_⟩
  rw [hhanded, Use.mem_handouts]
  simp

/-- Two pushes and two removals: the second element twice, the first never. -/
theorem run_returned_burst :
    ∃ tr v, (threads Unit Nat).Run ⟨empty, [], []⟩ tr v ∧ v.returned = [2, 2] ∧
      v.returned = Use.handouts none (tr.flatMap uses) ∧
      ∀ x, x ∈ v.returned ↔ x ∈ Use.survivors (tr.flatMap uses) := by
  have hpush₁ : (threads Unit Nat).step ⟨empty, [], []⟩ ((), .push 1) ⟨⟨[1]⟩, [1], []⟩ :=
    Usage.Step.push
  have hpush₂ : (threads Unit Nat).step ⟨⟨[1]⟩, [1], []⟩ ((), .push 2) ⟨⟨[1, 2]⟩, [1, 2], []⟩ :=
    Usage.Step.push
  have hpop₁ : (threads Unit Nat).step ⟨⟨[1, 2]⟩, [1, 2], []⟩ ((), .pop) ⟨⟨[2]⟩, [1, 2], [2]⟩ :=
    Usage.Step.pop rfl
  have hpop₂ : (threads Unit Nat).step ⟨⟨[2]⟩, [1, 2], [2]⟩ ((), .pop) ⟨empty, [1, 2], [2, 2]⟩ :=
    Usage.Step.pop rfl
  have hrun := (((TransitionSystem.Run.nil.snoc hpush₁).snoc hpush₂).snoc hpop₁).snoc hpop₂
  exact ⟨_, _, hrun, rfl, run_returned hrun⟩

end SynchronizedQueue

/-! ## The queues of a node -/

namespace SynchronizedQueue

variable {α β : Type*}

/-- The queue as it is seen through a function on its elements. -/
def map (f : α → β) (q : SynchronizedQueue α) : SynchronizedQueue β := ⟨q.queue.map f⟩

@[simp] theorem map_empty (f : α → β) : (empty : SynchronizedQueue α).map f = empty := rfl

theorem map_push (f : α → β) (q : SynchronizedQueue α) (x : α) :
    (q.push x).map f = (q.map f).push (f x) := congrArg mk List.map_append

theorem map_popNonblocking {f : α → β} {q q' : SynchronizedQueue α} {x : α}
    (h : q.popNonblocking = (some x, q')) :
    (q.map f).popNonblocking = (some (f x), q'.map f) := by
  obtain ⟨hne, rfl⟩ := popNonblocking_eq_some h
  rw [popNonblocking_nonempty hne] at h
  have hback : q.queue.getLast? = some x := (Prod.mk.inj h).1
  have hne' : (q.map f).queue ≠ [] := List.map_eq_nil_iff.not.2 hne
  rw [popNonblocking_nonempty hne']
  simp only [map, List.getLast?_map, hback, Option.map_some, List.map_tail]

end SynchronizedQueue

namespace Node

open SynchronizedQueue

def taken (m : Move Node Event) : List Transaction :=
  match m.label with
  | .process i _ => i.taken
  | _ => []

/-- The block that the thread was handed a pointer to, as it was decoded. -/
def received (m : Move Node Event) : List Block :=
  match m.label with
  | .process (.block (some _) _) _ => (m.pre.bq.queue.getLast?.map (·.decoded)).toList
  | _ => []

def mined (m : Move Node Event) : List Block :=
  match m.label with
  | .process i effects => i.minedWith effects
  | _ => []

/-- What a move does to `tq`. -/
def tqUses (m : Move Node Event) : List (Use Transaction) :=
  match m.label with
  | .receiveBlock _ => []
  | .receiveTransaction t => [.put t]
  | .handBack => m.pre.pending.head?.toList.map .put
  | .process i _ => i.taken.map fun _ => .take

/-- What a move does to `bq`. -/
def bqUses (m : Move Node Event) : List (Use Block) :=
  match m.label with
  | .receiveBlock b => [.put b]
  | .process i _ => i.received.map fun _ => .take
  | _ => []

variable {SHA1 : Bytes → Digest}

theorem Step.counted_thread {n n' : Node} {e : Event} (hs : Step SHA1 n e n')
    (h : n.thread.Counted) : n'.thread.Counted := by
  cases hs with
  | takeBlock _ _ _ hstep => exact h.change hstep.change
  | takeTransaction _ _ hstep => exact h.change hstep.change
  | mine _ hstep => exact h.change hstep.change
  | _ => exact h

theorem counted_thread_invariant (SHA1 : Bytes → Digest) (tail : GenesisTail) :
    (node SHA1 tail).Invariant fun n => n.thread.Counted where
  init := by
    rintro n rfl
    exact Thread.initial_counted tail
  step := fun _ _ _ hstep h => Step.counted_thread hstep h

/-- The pointer that the thread is handed leads to the block that the move names. -/
theorem received_takeBlock {n n' : Node} {r : BlockRef} {env : RepairEnv} {effects : List Effect}
    {bq : SynchronizedQueue BlockRef} (hpop : n.bq.popNonblocking = (some r, bq)) :
    received ⟨n, .process (.block (some r.block) env) effects, n'⟩ = [r.decoded] := by
  obtain ⟨hne, -⟩ := popNonblocking_eq_some hpop
  rw [popNonblocking_nonempty hne] at hpop
  have hback : n.bq.queue.getLast? = some r := (Prod.mk.inj hpop).1
  simp [received, hback]

theorem Step.tq_follows {n n' : Node} {e : Event} (hs : Step SHA1 n e n')
    {handed : List Transaction} {us : List (Use Transaction)} (h : n.tq.Follows handed us) :
    n'.tq.Follows (handed ++ taken ⟨n, e, n'⟩) (us ++ tqUses ⟨n, e, n'⟩) := by
  cases hs with
  | receiveBlock => simpa [taken, tqUses] using h
  | @receiveTransaction t => simpa [taken, tqUses] using h.push t
  | @handBack t rest hpending => simpa [taken, tqUses, hpending] using h.push t
  | takeBlock => simpa [taken, tqUses, Input.taken] using h
  | takeTransaction _ hpop _ => exact h.pop hpop
  | mine => simpa [taken, tqUses, Input.taken] using h

theorem Step.bq_follows {n n' : Node} {e : Event} (hs : Step SHA1 n e n')
    {handed : List Block} {us : List (Use Block)}
    (h : (n.bq.map BlockRef.decoded).Follows handed us) :
    (n'.bq.map BlockRef.decoded).Follows (handed ++ received ⟨n, e, n'⟩)
      (us ++ bqUses ⟨n, e, n'⟩) := by
  cases hs with
  | @receiveBlock b =>
      rw [map_push]
      simpa [received, bqUses] using h.push b
  | @takeBlock r? b? env effects bq th hpending hpop hb =>
      subst hb
      have hsettled : (n.thread.settle r? bq).map BlockRef.decoded = bq.map BlockRef.decoded :=
        congrArg SynchronizedQueue.mk (Thread.decoded_settle n.thread r? bq)
      rw [hsettled]
      cases r? with
      | none =>
          by_cases hne : n.bq.queue = []
          · rw [popNonblocking_empty hne] at hpop
            obtain ⟨-, rfl⟩ := Prod.mk.inj hpop
            simpa [received, bqUses, Input.received] using h
          · rw [popNonblocking_nonempty hne] at hpop
            exact absurd (List.getLast?_eq_none_iff.1 (Prod.mk.inj hpop).1) hne
      | some r =>
          rw [Option.map_some, received_takeBlock hpop]
          exact h.popNonblocking (map_popNonblocking hpop)
  | receiveTransaction => simpa [received, bqUses] using h
  | handBack => simpa [received, bqUses] using h
  | takeTransaction => simpa [received, bqUses, Input.received] using h
  | mine => simpa [received, bqUses, Input.received] using h

theorem Step.stores {n n' : Node} {e : Event} (hs : Step SHA1 n e n') {ts : List Transaction}
    {bs ms : List Block} (h : n.thread.Stores ts bs ms) (hc : n.thread.Counted) :
    n'.thread.Stores (ts ++ taken ⟨n, e, n'⟩) (bs ++ received ⟨n, e, n'⟩)
      (ms ++ mined ⟨n, e, n'⟩) := by
  cases hs with
  | @takeBlock r? b? env effects bq th hpending hpop hb hstep =>
      subst hb
      have hstores := h.change hc hstep.change
      cases r? with
      | none => exact hstores
      | some r =>
          rw [Option.map_some, received_takeBlock hpop]
          refine hstores.renumber fun b hmem => ?_
          rcases List.mem_append.1 hmem with hmem | hmem
          · exact ⟨b, List.mem_append_left _ hmem, _, rfl⟩
          · rw [List.mem_singleton.1 hmem]
            exact ⟨r.decoded, List.mem_append_right _ (List.mem_singleton_self _), _, rfl⟩
  | takeTransaction _ _ hstep => exact h.change hc hstep.change
  | mine _ hstep => exact h.change hc hstep.change
  | receiveBlock => simpa [taken, received, mined] using h
  | receiveTransaction => simpa [taken, received, mined] using h
  | handBack => simpa [taken, received, mined] using h

theorem run_follows {tail : GenesisTail} {n : Node} {tr : List (Move Node Event)}
    (hrun : (node SHA1 tail).Run (.initial tail) tr n) :
    n.tq.Follows (tr.flatMap taken) (tr.flatMap tqUses) ∧
      (n.bq.map BlockRef.decoded).Follows (tr.flatMap received) (tr.flatMap bqUses) ∧
      n.thread.Stores (tr.flatMap taken) (tr.flatMap received) (tr.flatMap mined) := by
  induction hrun with
  | nil =>
      exact ⟨empty_follows, empty_follows, Thread.initial_stores tail⟩
  | snoc hrun hstep ih =>
      obtain ⟨htq, hbq, hstores⟩ := ih
      have hcounted := (counted_thread_invariant SHA1 tail).preserved.run hrun
        (Thread.initial_counted tail) (by simp)
      simp only [List.flatMap_append, List.flatMap_singleton]
      exact ⟨Step.tq_follows hstep htq, Step.bq_follows hstep hbq,
        Step.stores hstep hstores hcounted⟩

/-- In every run of a miner the thread handles what arrived last, again and
again. A vote that is followed by another push to `tq` before the thread asks
for a transaction gets into no block that this miner works on or mines, and a
block that is followed by another one before the thread asks for a block does
not get into its chain, unless they arrive again. -/
theorem run_recorded {tail : GenesisTail} {n : Node} {tr : List (Move Node Event)}
    (hrun : (node SHA1 tail).Run (.initial tail) tr n) :
    (tr.flatMap taken = Use.handouts none (tr.flatMap tqUses) ∧
        tr.flatMap received = Use.handouts none (tr.flatMap bqUses)) ∧
      (∀ t ∈ n.thread.newBlock.votes, t ∈ Use.survivors (tr.flatMap tqUses)) ∧
      ∀ c ∈ n.thread.bc.nonGenesis,
        (∃ b ∈ Use.survivors (tr.flatMap bqUses), ∃ k, c = Blockchain.numbered b k) ∨
          c ∈ tr.flatMap mined ∧ ∀ t ∈ c.votes, t ∈ Use.survivors (tr.flatMap tqUses) := by
  obtain ⟨htq, hbq, hstores⟩ := run_follows hrun
  have hts : tr.flatMap taken ⊆ Use.survivors (tr.flatMap tqUses) := by
    intro t ht
    rw [htq.handed, Use.mem_handouts] at ht
    simpa using ht
  have hbs : tr.flatMap received ⊆ Use.survivors (tr.flatMap bqUses) := by
    intro b hb
    rw [hbq.handed, Use.mem_handouts] at hb
    simpa using hb
  have hall := hstores.mono hts hbs (List.Subset.refl _)
  exact ⟨⟨htq.handed, hbq.handed⟩, hall.votes, hall.chain⟩

/-- Two votes arrive before the thread asks for one: it takes the second. -/
theorem run_recorded_burst :
    ∃ tr n,
      (node Block.sampleSHA1 Blockchain.sampleTail).Run (.initial Blockchain.sampleTail) tr n ∧
      n.thread.newBlock.votes = [.sample 2] ∧
      (tr.flatMap taken = Use.handouts none (tr.flatMap tqUses) ∧
        tr.flatMap received = Use.handouts none (tr.flatMap bqUses)) ∧
      (∀ t ∈ n.thread.newBlock.votes, t ∈ Use.survivors (tr.flatMap tqUses)) ∧
      ∀ c ∈ n.thread.bc.nonGenesis,
        (∃ b ∈ Use.survivors (tr.flatMap bqUses), ∃ k, c = Blockchain.numbered b k) ∨
          c ∈ tr.flatMap mined ∧ ∀ t ∈ c.votes, t ∈ Use.survivors (tr.flatMap tqUses) := by
  let first : Node := .initial Blockchain.sampleTail
  have hone : (node Block.sampleSHA1 Blockchain.sampleTail).step first
      (.receiveTransaction (.sample 1)) { first with tq := first.tq.push (.sample 1) } :=
    Step.receiveTransaction
  let second : Node := { first with tq := first.tq.push (.sample 1) }
  have htwo : (node Block.sampleSHA1 Blockchain.sampleTail).step second
      (.receiveTransaction (.sample 2)) { second with tq := second.tq.push (.sample 2) } :=
    Step.receiveTransaction
  have hidle : (node Block.sampleSHA1 Blockchain.sampleTail).step
      { second with tq := second.tq.push (.sample 2) } (.process (.block none .alone) [])
      ⟨{ Thread.initial Blockchain.sampleTail with point := .pop }, .empty,
        second.tq.push (.sample 2), []⟩ := .takeBlock rfl rfl rfl (.idle rfl)
  have hvotes : ∃ b, Thread.takeTransaction
      { Thread.initial Blockchain.sampleTail with point := .pop } (.sample 2) =
        .ok (⟨.new Blockchain.sampleTail, b, false, .head⟩,
          [.broadcastTransaction (.sample 2)]) ∧ b.votes = [.sample 2] := ⟨_, rfl, rfl⟩
  obtain ⟨b, htake, hb⟩ := hvotes
  have hpop : (node Block.sampleSHA1 Blockchain.sampleTail).step
      ⟨{ Thread.initial Blockchain.sampleTail with point := .pop }, .empty,
        second.tq.push (.sample 2), []⟩
      (.process (.transaction (.sample 2)) [.broadcastTransaction (.sample 2)])
      ⟨⟨.new Blockchain.sampleTail, b, false, .head⟩, .empty, ⟨[.sample 2]⟩, []⟩ :=
    .takeTransaction rfl rfl (.transaction rfl htake)
  have hrun := (((TransitionSystem.Run.nil.snoc hone).snoc htwo).snoc hidle).snoc hpop
  exact ⟨_, _, hrun, hb, run_recorded hrun⟩

end Node

end OneVote
