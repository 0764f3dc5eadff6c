-- SUMMARY: The processing thread with its two queues and the server handlers, and when it waits for a vote while blocks wait for it.
import Mathlib.Data.List.ModifyLast
import OneVote.ForkChoice
import OneVote.SynchronizedQueue

/-!
# Queues

The handlers of the server push to `bq` and `tq` at any time. The processing
thread asks `bq` without blocking and then waits on `tq`, as long as its working
block is not full. What `bq` holds are pointers: a block that is handed out
again has the number that `add_block` gave it.
-/

namespace OneVote

open TransitionSystem (Move)

/-- What a pointer in `bq` leads to: the block as it was decoded, and its
`block_number`, the only field that is written later. -/
structure BlockRef where
  decoded : Block
  blockNumber : UInt32

namespace BlockRef

/-- A pointer to a block that was decoded just now. -/
def new (b : Block) : BlockRef := ⟨b, b.blockNumber⟩

/-- The block as it is read now. -/
def block (r : BlockRef) : Block := { r.decoded with blockNumber := r.blockNumber }

@[simp] theorem block_new (b : Block) : (new b).block = b := rfl

@[simp] theorem decoded_new (b : Block) : (new b).decoded = b := rfl

end BlockRef

namespace Thread

/-- The `block_number` of a block that the thread has handled. -/
def numberAfter (th : Thread) (b : Block) : UInt32 :=
  if th.bc.checkBlockValidity b = .ok .ok then UInt32.ofNat (th.bc.chainLength + 1)
  else b.blockNumber

/-- `bq` after the thread handled what it handed out. The pointer was the back
of the queue, and it still is unless it was the only one. -/
def settle (th : Thread) (r? : Option BlockRef) (bq : SynchronizedQueue BlockRef) :
    SynchronizedQueue BlockRef :=
  match r? with
  | none => bq
  | some r => ⟨bq.queue.modifyLast fun last => { last with blockNumber := th.numberAfter r.block }⟩

end Thread

structure Node where
  thread : Thread
  bq : SynchronizedQueue BlockRef
  tq : SynchronizedQueue Transaction
  /-- what the thread has still to push to `tq` before it goes on -/
  pending : List Transaction

namespace Node

inductive Event
  /-- `BroadcastBlock` pushes the decoded block -/
  | receiveBlock (b : Block)
  /-- `BroadcastTransaction` pushes the decoded transaction -/
  | receiveTransaction (t : Transaction)
  /-- the thread pushes a transaction back -/
  | handBack
  | process (i : Input) (effects : List Effect)

def initial (tail : GenesisTail) : Node := ⟨.initial tail, .empty, .empty, []⟩

inductive Step (SHA1 : Bytes → Digest) : Node → Event → Node → Prop
  | receiveBlock {n : Node} {b : Block} :
      Step SHA1 n (.receiveBlock b) { n with bq := n.bq.push (.new b) }
  | receiveTransaction {n : Node} {t : Transaction} :
      Step SHA1 n (.receiveTransaction t) { n with tq := n.tq.push t }
  | handBack {n : Node} {t : Transaction} {rest : List Transaction} :
      n.pending = t :: rest →
      Step SHA1 n .handBack { n with tq := n.tq.push t, pending := rest }
  | takeBlock {n : Node} {r? : Option BlockRef} {b? : Option Block} {env : RepairEnv}
      {effects : List Effect} {bq : SynchronizedQueue BlockRef} {th : Thread} :
      n.pending = [] →
      n.bq.popNonblocking = (r?, bq) →
      b? = r?.map (·.block) →
      Thread.Step SHA1 n.thread (.block b? env, effects) th →
      Step SHA1 n (.process (.block b? env) effects)
        ⟨th, n.thread.settle r? bq, n.tq, pushes effects⟩
  | takeTransaction {n : Node} {t : Transaction} {effects : List Effect}
      {tq : SynchronizedQueue Transaction} {th : Thread} :
      n.pending = [] →
      n.tq.pop = some (t, tq) →
      Thread.Step SHA1 n.thread (.transaction t, effects) th →
      Step SHA1 n (.process (.transaction t) effects) ⟨th, n.bq, tq, pushes effects⟩
  | mine {n : Node} {effects : List Effect} {th : Thread} :
      n.pending = [] →
      Thread.Step SHA1 n.thread (.mine, effects) th →
      Step SHA1 n (.process .mine effects) ⟨th, n.bq, n.tq, pushes effects⟩

/-- The thread is done with `bq` for this pass and cannot get past `tq->pop()`:
it is blocked there, or on the way there with an empty `tq`. -/
def Waits (n : Node) : Prop := n.thread.point = .pop ∧ n.pending = [] ∧ n.tq.pop = none

/-- It waits for a transaction while a block waits in `bq`. -/
def Stuck (n : Node) : Prop := n.Waits ∧ n.bq.queue ≠ []

end Node

def node (SHA1 : Bytes → Digest) (tail : GenesisTail) : TransitionSystem Node Node.Event where
  init n := n = .initial tail
  step := Node.Step SHA1

/-! ## The block behind a pointer -/

namespace Thread

/-- A block of the chain is not judged OK again while it is there, so that
`add_block` never writes to a block of the chain. -/
theorem Counted.not_ok_of_mem_chain {th : Thread} (h : th.Counted) {c b : Block}
    (hc : c ∈ th.bc.nonGenesis) (hb : b.transactionArray = c.transactionArray) :
    th.bc.checkBlockValidity b ≠ .ok .ok := by
  intro hok
  obtain ⟨-, -, -, hpop, hnew⟩ := Blockchain.checkBlockValidity_eq_ok.1 hok
  obtain ⟨t, ht⟩ := h.counts
  have hsenders : b.senders = c.senders := by rw [Block.senders, Block.votes, hb]; rfl
  obtain ⟨k, hk⟩ : ∃ k, k ∈ b.senders := by
    refine List.exists_mem_of_length_pos ?_
    rw [Block.senders, List.length_map, hpop.length_votes]
    decide
  refine hnew k hk ?_
  rw [ht.voted_eq, List.mem_toFinset, List.mem_flatMap]
  exact ⟨c, hc, hsenders ▸ hk⟩

/-- What overwrites a number leaves the decoded blocks as they are. -/
theorem decoded_settle (th : Thread) (r? : Option BlockRef) (bq : SynchronizedQueue BlockRef) :
    (th.settle r? bq).queue.map (·.decoded) = bq.queue.map (·.decoded) := by
  cases r? with
  | none => rfl
  | some r =>
      unfold settle
      dsimp only
      rcases List.eq_nil_or_concat bq.queue with hnil | ⟨rest, last, hconcat⟩
      · rw [hnil]
        rfl
      · rw [hconcat, List.concat_eq_append, List.modifyLast_concat, List.map_append,
          List.map_append]
        rfl

theorem settle_eq_nil_iff {th : Thread} {r? : Option BlockRef} {bq : SynchronizedQueue BlockRef} :
    (th.settle r? bq).queue = [] ↔ bq.queue = [] := by
  have hmap := decoded_settle th r? bq
  rw [← List.map_eq_nil_iff (f := BlockRef.decoded), hmap, List.map_eq_nil_iff]

/-- A block that is not accepted keeps its number. -/
theorem settle_of_not_ok {th : Thread} {q bq : SynchronizedQueue BlockRef} {r : BlockRef}
    (hpop : q.popNonblocking = (some r, bq)) (h : th.bc.checkBlockValidity r.block ≠ .ok .ok) :
    th.settle (some r) bq = bq := by
  obtain ⟨hne, rfl⟩ := SynchronizedQueue.popNonblocking_eq_some hpop
  rw [SynchronizedQueue.popNonblocking_nonempty hne] at hpop
  have hback : q.queue.getLast? = some r := (Prod.mk.inj hpop).1
  unfold settle
  dsimp only
  rcases List.eq_nil_or_concat q.queue.tail with hnil | ⟨rest, last, hconcat⟩
  · rw [hnil]
    rfl
  · obtain ⟨first, queue, hqueue⟩ := List.exists_cons_of_ne_nil hne
    rw [List.concat_eq_append] at hconcat
    have hlast : last = r := by
      rw [hqueue, List.tail_cons] at hconcat
      rw [hqueue, hconcat, ← List.cons_append, List.getLast?_concat] at hback
      exact Option.some.inj hback
    rw [hconcat, List.modifyLast_concat, hlast, numberAfter, if_neg h]
    rfl

end Thread

/-! ## Starting over -/

namespace Thread

/-- Handling the block makes the thread start over: it is judged OK, or it makes
a repair return. -/
def StartsOver (th : Thread) (b : Block) : Prop :=
  th.bc.checkBlockValidity b = .ok .ok ∨ th.ClaimsHigher b

/-- Starting over hands a transaction back to `tq`, from the working block or
from a block that a repair pops. -/
def HandsBack (th : Thread) (b : Block) : Prop :=
  0 < th.newBlock.maxInd ∨ th.ClaimsHigher b ∧
    ∃ it, th.bc.checkIfBlockInChain b = .ok (some it) ∧ ∃ c ∈ th.bc.blocks.take it, 0 < c.maxInd

theorem requeued_eq_nil_iff {c : Block} (h : c.Removable) : c.requeued = [] ↔ c.maxInd ≤ 0 := by
  rw [← List.length_eq_zero_iff, Block.requeued, List.length_take, h.1.length_votes]
  change min c.maxInd.toNat 8 = 0 ↔ _
  omega

theorem votes_eq_nil_iff {b : Block} (h : b.Filling) : b.votes = [] ↔ b.maxInd ≤ 0 := by
  rw [← List.length_eq_zero_iff, h.maxInd_eq]
  omega

/-- Where a handled block leaves the thread, and whether it hands anything back. -/
theorem Change.startsOver {SHA1 : Bytes → Digest} {th th' : Thread} {b : Block} {env : RepairEnv}
    {effects : List Effect} (hs : Change SHA1 th (.block (some b) env, effects) th')
    (hw : th.WellFormed) :
    (th'.point = .pop ↔ th.StartsOver b) ∧
      (th.StartsOver b → (pushes effects = [] ↔ ¬ th.HandsBack b)) := by
  cases hs with
  | ignored _ hbad =>
      have hnot : ¬ th.StartsOver b := by
        intro hover
        rcases hover with hok | hclaims
        · exact not_ok_of_ignored hbad hok
        · exact not_claimsHigher_of_ignored hbad hclaims
      exact ⟨iff_of_false (by simp) hnot, fun hover => absurd hover hnot⟩
  | accepted _ hcheck _ hts =>
      cases hts.symm.trans hw.filling.entries
      refine ⟨iff_of_true rfl (.inl hcheck), fun _ => ?_⟩
      have hnot := not_claimsHigher_of_ok hcheck
      rw [pushes_broadcastBlock, pushes_map_push, votes_eq_nil_iff hw.filling, HandsBack]
      simp only [hnot, false_and, or_false, not_lt]
  | @repaired _ head _ it ts _ hcheck hhead hhigher hnumber hfound hrem hts =>
      cases hts.symm.trans hw.filling.entries
      have hclaims := claimsHigher_of_found hcheck hhead hhigher hnumber hfound
      refine ⟨iff_of_true rfl (.inr hclaims), fun _ => ?_⟩
      have hpopped : (th.bc.blocks.take it).flatMap (·.requeued) = [] ↔
          ∀ c ∈ th.bc.blocks.take it, c.maxInd ≤ 0 := by
        rw [List.flatMap_eq_nil_iff]
        exact forall₂_congr fun c hc => requeued_eq_nil_iff (hrem c hc)
      rw [pushes_append, pushes_broadcastBlock, pushes_map_push, pushes_map_push,
        List.append_eq_nil_iff, hpopped, votes_eq_nil_iff hw.filling, HandsBack]
      simp only [hclaims, hfound, true_and, Except.ok.injEq, Option.some.injEq, exists_eq_left',
        not_or, not_exists, not_and, not_lt]
      exact and_comm

/-- The thread waits for a transaction only on the way from a block. -/
theorem Change.point_ne_pop {SHA1 : Bytes → Digest} {th th' : Thread} {i : Input}
    {effects : List Effect} (hs : Change SHA1 th (i, effects) th')
    (hi : ∀ b env, i ≠ .block b env) :
    th'.point ≠ .pop := by
  cases hs with
  | taken => split <;> simp
  | discarded => simp
  | missed => simp
  | mined => simp
  | _ => exact absurd rfl (hi _ _)

end Thread

namespace Node

variable {SHA1 : Bytes → Digest}

/-- No block arrives while the thread waits, and a block that makes the thread
start over is the last one in `bq`, unless `tq` holds a transaction or the thread
hands one back. -/
def KeepsUp (m : Move Node Event) : Prop :=
  match m.label with
  | .receiveBlock _ => ¬ m.pre.Waits
  | .process (.block (some b) _) _ => m.pre.thread.StartsOver b →
      m.pre.bq.queue.length = 1 ∨ m.pre.tq.queue ≠ [] ∨ m.pre.thread.HandsBack b
  | _ => True

theorem waits_iff {n : Node} :
    n.Waits ↔ n.thread.point = .pop ∧ n.pending = [] ∧ n.tq.queue = [] := by
  simp [Waits, SynchronizedQueue.pop]

theorem not_stuck_of_point {n : Node} (h : n.thread.point ≠ .pop) : ¬ n.Stuck :=
  fun hstuck => h hstuck.1.1

theorem push_ne_nil {α : Type*} (q : SynchronizedQueue α) (x : α) : (q.push x).queue ≠ [] := by
  simp [SynchronizedQueue.push]

theorem Step.stuck_iff {n n' : Node} {e : Event} (hs : Step SHA1 n e n')
    (hw : n.thread.WellFormed) : ¬ n'.Stuck ↔ KeepsUp ⟨n, e, n'⟩ := by
  cases hs with
  | @receiveBlock b =>
      apply not_congr
      exact and_iff_left (push_ne_nil n.bq (.new b))
  | @receiveTransaction t =>
      apply iff_of_true _ trivial
      intro hstuck
      exact push_ne_nil n.tq t (waits_iff.1 hstuck.1).2.2
  | @handBack t rest =>
      apply iff_of_true _ trivial
      intro hstuck
      exact push_ne_nil n.tq t (waits_iff.1 hstuck.1).2.2
  | @takeBlock r? b? env effects bq th hpending hpop hb hstep =>
      subst hb
      cases r? with
      | none =>
          have hbq := SynchronizedQueue.popNonblocking_eq_none hpop
          exact iff_of_true (fun hstuck => hstuck.2 hbq) trivial
      | some r =>
          -- after the pop the front is gone: `bq` is empty exactly if it had one pointer
          obtain ⟨hne, rfl⟩ := SynchronizedQueue.popNonblocking_eq_some hpop
          obtain ⟨hpoint, hpushes⟩ := hstep.change.startsOver hw
          have hlast : n.bq.queue.tail = [] ↔ n.bq.queue.length = 1 := by
            obtain ⟨x, rest, hqueue⟩ := List.exists_cons_of_ne_nil hne
            simp [hqueue]
          simp only [Stuck, waits_iff, KeepsUp, Option.map_some, hpoint, Ne,
            Thread.settle_eq_nil_iff, hlast]
          constructor
          · intro hnot hover
            by_contra hbehind
            rw [not_or, not_or, not_not] at hbehind
            obtain ⟨hmore, htq, hback⟩ := hbehind
            exact hnot ⟨⟨hover, (hpushes hover).2 hback, htq⟩, hmore⟩
          · rintro hkeeps ⟨⟨hover, hnone, htq⟩, hmore⟩
            rcases hkeeps hover with hone | hvote | hback
            · exact hmore hone
            · exact hvote htq
            · exact (hpushes hover).1 hnone hback
  | takeTransaction hpending hpop hstep =>
      exact iff_of_true (not_stuck_of_point (hstep.change.point_ne_pop (by simp))) trivial
  | mine hpending hstep =>
      exact iff_of_true (not_stuck_of_point (hstep.change.point_ne_pop (by simp))) trivial

theorem Step.wellFormed {n n' : Node} {e : Event} (hs : Step SHA1 n e n')
    (hw : n.thread.WellFormed) : n'.thread.WellFormed := by
  cases hs with
  | takeBlock _ _ _ hstep => exact hw.change hstep.change
  | takeTransaction _ _ hstep => exact hw.change hstep.change
  | mine _ hstep => exact hw.change hstep.change
  | _ => exact hw

/-- The thread never waits for a transaction while a block waits for it, exactly
when every step of the run keeps up. -/
theorem run_not_stuck_iff {tail : GenesisTail} {n : Node} {tr : List (Move Node Event)}
    (h : (node SHA1 tail).Run (.initial tail) tr n) :
    (∀ m ∈ tr, ¬ m.post.Stuck) ↔ ∀ m ∈ tr, KeepsUp m := by
  have hpres : (node SHA1 tail).PreservedUnder (fun _ => True) fun n => n.thread.WellFormed :=
    fun _ _ _ hstep _ hw => Step.wellFormed hstep hw
  have hmoves := hpres.moves h (Thread.initial_wellFormed tail) (by simp)
  exact forall₂_congr fun m hm => Step.stuck_iff (h.step_of_mem m hm) (hmoves m hm).1

/-- A block arrives while the thread is at the loop head, and is accepted. -/
theorem not_stuck_first :
    ∃ tr n,
      (node Block.sampleSHA1 Blockchain.sampleTail).Run (.initial Blockchain.sampleTail) tr n ∧
      n.thread = Thread.firstAccepted Blockchain.sampleTail Blockchain.sampleFirst ∧
      ∀ m ∈ tr, ¬ m.post.Stuck := by
  have haccept := @Thread.Step.of_accepted Block.sampleSHA1 (.initial Blockchain.sampleTail)
    Blockchain.sampleFirst [] .alone rfl (by decide) (by decide) rfl
  have harrive : (node Block.sampleSHA1 Blockchain.sampleTail).step (.initial Blockchain.sampleTail)
      (.receiveBlock Blockchain.sampleFirst) _ := .receiveBlock
  have hrun := (TransitionSystem.Run.nil.snoc harrive).snoc (.takeBlock rfl rfl rfl haccept)
  refine ⟨_, _, hrun, rfl, (run_not_stuck_iff hrun).2 ?_⟩
  simp only [List.forall_mem_append, List.forall_mem_singleton, List.not_mem_nil, false_implies,
    implies_true, true_and]
  refine ⟨fun hwaits => ?_, fun _ => .inl rfl⟩
  cases hwaits.1

/-- The thread finds `bq` empty and waits for a transaction; then a block arrives. -/
theorem idle_stuck :
    ¬ ∃ SHA1, ∀ tail n, (node SHA1 tail).Reachable n → ¬ n.Stuck := by
  intro h
  rcases h with ⟨SHA1, h⟩
  have hidle : (node SHA1 Blockchain.sampleTail).step (.initial Blockchain.sampleTail)
      (.process (.block none .alone) [])
      ⟨{ Thread.initial Blockchain.sampleTail with point := .pop }, .empty, .empty, []⟩ :=
    .takeBlock rfl rfl rfl (.idle rfl)
  have harrive : (node SHA1 Blockchain.sampleTail).step
      ⟨{ Thread.initial Blockchain.sampleTail with point := .pop }, .empty, .empty, []⟩
      (.receiveBlock Blockchain.sampleFirst) _ := .receiveBlock
  have hreach := (TransitionSystem.Reachable.of_init rfl).step hidle |>.step harrive
  exact h _ _ hreach ⟨⟨rfl, rfl, rfl⟩, push_ne_nil _ _⟩

end Node

end OneVote
