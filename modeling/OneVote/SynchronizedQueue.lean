-- SUMMARY: The thread-safe queue between the communications and the processing thread, and when it behaves as a FIFO.
import OneVote.Base.History
import OneVote.Base.TransitionSystem

/-!
# Synchronized queue

Every operation holds `lock_` from its first access to `queue_` to its last, so
an interleaving of threads is a sequence of calls. The removals read
`queue_.back()` and then call `queue_.pop()`, which removes the front.
-/

namespace OneVote

/-- `queue_`, front first. -/
structure SynchronizedQueue (α : Type*) where
  queue : List α

namespace SynchronizedQueue

variable {α : Type*}

def empty : SynchronizedQueue α := ⟨[]⟩

def push (q : SynchronizedQueue α) (t : α) : SynchronizedQueue α := ⟨q.queue ++ [t]⟩

/-- `pop`; `none` while the caller waits on `cv_`. -/
def pop (q : SynchronizedQueue α) : Option (α × SynchronizedQueue α) :=
  -- the back is returned, the front is removed
  q.queue.getLast?.map fun ret => (ret, ⟨q.queue.tail⟩)

/-- `pop_nonblocking`; the result `none` is `NULL`. -/
def popNonblocking (q : SynchronizedQueue α) : Option α × SynchronizedQueue α :=
  if q.queue.length = 0 then (none, q) else (q.queue.getLast?, ⟨q.queue.tail⟩)

theorem pop_eq_some {q q' : SynchronizedQueue α} {x : α} :
    q.pop = some (x, q') ↔ q.queue.getLast? = some x ∧ q' = ⟨q.queue.tail⟩ := by
  simp only [pop, Option.map_eq_some_iff, Prod.mk.injEq]
  constructor
  · intro h
    rcases h with ⟨y, hy, rfl, rfl⟩
    exact ⟨hy, rfl⟩
  · intro h
    rcases h with ⟨hx, rfl⟩
    exact ⟨x, hx, rfl, rfl⟩

theorem popNonblocking_empty {q : SynchronizedQueue α} (h : q.queue = []) :
    q.popNonblocking = (none, q) := by
  simp [popNonblocking, h]

theorem popNonblocking_nonempty {q : SynchronizedQueue α} (h : q.queue ≠ []) :
    q.popNonblocking = (q.queue.getLast?, ⟨q.queue.tail⟩) := by
  simp [popNonblocking, h]

theorem popNonblocking_eq_none {q q' : SynchronizedQueue α}
    (h : q.popNonblocking = (none, q')) : q'.queue = [] := by
  by_cases hne : q.queue = []
  · rw [popNonblocking_empty hne] at h
    cases h
    exact hne
  · rw [popNonblocking_nonempty hne] at h
    exact absurd (List.getLast?_eq_none_iff.1 (Prod.mk.inj h).1) hne

theorem popNonblocking_eq_some {q q' : SynchronizedQueue α} {x : α}
    (h : q.popNonblocking = (some x, q')) : q.queue ≠ [] ∧ q' = ⟨q.queue.tail⟩ := by
  by_cases hne : q.queue = []
  · rw [popNonblocking_empty hne] at h
    cases h
  · rw [popNonblocking_nonempty hne] at h
    exact ⟨hne, (Prod.mk.inj h).2.symm⟩

/-! ## Threads using one queue -/

inductive Call (α : Type*)
  | push (t : α)
  | pop
  | popNonblocking

/-- The queue together with what was pushed and what was returned so far. -/
structure Usage (α : Type*) where
  q : SynchronizedQueue α
  pushed : List α
  returned : List α

/-- One call by the thread in the label. A `pop` on an empty queue does not
complete, so it has no step. -/
inductive Usage.Step {τ : Type*} : Usage α → τ × Call α → Usage α → Prop
  | push {u : Usage α} {thread : τ} {t : α} :
      Usage.Step u (thread, .push t) { u with q := u.q.push t, pushed := u.pushed ++ [t] }
  | pop {u : Usage α} {thread : τ} {ret : α} {q : SynchronizedQueue α} :
      u.q.pop = some (ret, q) →
      Usage.Step u (thread, .pop) { u with q := q, returned := u.returned ++ [ret] }
  | popNonblocking {u : Usage α} {thread : τ} {ret : Option α} {q : SynchronizedQueue α} :
      u.q.popNonblocking = (ret, q) →
      Usage.Step u (thread, .popNonblocking) { u with q := q, returned := u.returned ++ ret.toList }

/-- Any number of threads `τ` calling one queue, from the empty queue. -/
def threads (τ α : Type*) : TransitionSystem (Usage α) (τ × Call α) where
  init u := u = ⟨empty, [], []⟩
  step := Usage.Step

/-- The elements returned, followed by the contents from front to back, are the
elements pushed. -/
def Usage.IsFifo (u : Usage α) : Prop := u.returned ++ u.q.queue = u.pushed

/-- A removal finds the same element at the back of the queue, which it
returns, as at the front, which it removes. On an empty queue there is neither. -/
def BackIsFront {τ : Type*} (m : TransitionSystem.Move (Usage α) (τ × Call α)) : Prop :=
  match m.label.2 with
  | .push _ => True
  | .pop | .popNonblocking => m.pre.q.queue.getLast? = m.pre.q.queue.head?

def Usage.history (u : Usage α) : History α := ⟨u.pushed, u.returned, u.q.queue⟩

/-- A removal that returns the back and removes the front, as both `pop` and
`pop_nonblocking` do on a nonempty queue. -/
theorem Usage.remove_isFifo {u : Usage α} {x : α} (hb : u.history.Balanced)
    (hx : u.q.queue.getLast? = some x) :
    (u.history.take x).Balanced ∧
      ((u.history.take x).Fifo ↔ u.history.Fifo ∧ u.q.queue.getLast? = u.q.queue.head?) := by
  cases hq : u.q.queue with
  | nil => simp [hq] at hx
  | cons y rest =>
      have hheld : u.history.held = y :: rest := hq
      refine ⟨hb.take (by simp [hheld]) x, ?_⟩
      rw [History.fifo_take hb hheld, ← hq, hx, hq]
      simp

/-- What a call does to the history: it stays balanced, and it is FIFO after
the call exactly when it was before and the call does not go wrong. -/
theorem Usage.Step.history {τ : Type*} {u v : Usage α} {i : τ × Call α}
    (h : Usage.Step u i v) (hb : u.history.Balanced) :
    v.history.Balanced ∧ (v.IsFifo ↔ u.IsFifo ∧ BackIsFront ⟨u, i, v⟩) := by
  cases h with
  | @push thread t =>
      refine ⟨hb.push t, ?_⟩
      have hiff : (u.history.push t).Fifo ↔ u.history.Fifo := History.fifo_push
      exact hiff.trans (and_iff_left trivial).symm
  | @pop thread ret q hpop =>
      obtain ⟨hret, rfl⟩ := pop_eq_some.1 hpop
      exact Usage.remove_isFifo hb hret
  | @popNonblocking thread ret q hpop =>
      by_cases hne : u.q.queue = []
      · rw [popNonblocking_empty hne] at hpop
        obtain ⟨rfl, rfl⟩ := hpop
        refine ⟨by simpa [Usage.history] using hb, ?_⟩
        simp [Usage.IsFifo, BackIsFront, hne]
      · rw [popNonblocking_nonempty hne] at hpop
        obtain ⟨rfl, rfl⟩ := hpop
        obtain ⟨x, hx⟩ : ∃ x, u.q.queue.getLast? = some x :=
          ⟨_, List.getLast?_eq_some_getLast hne⟩
        have hrem := Usage.remove_isFifo hb hx
        simpa [Usage.history, Usage.IsFifo, BackIsFront, History.take, History.Fifo, hx] using hrem

/-- A run of calls is FIFO exactly when every removal in it finds the same
element at the back as at the front. -/
theorem run_isFifo_iff {τ : Type*} {tr : List (TransitionSystem.Move (Usage α) (τ × Call α))}
    {u v : Usage α} (hinit : (threads τ α).init u) (hrun : (threads τ α).Run u tr v) :
    v.IsFifo ↔ ∀ m ∈ tr, BackIsFront m := by
  have hpres : (threads τ α).PreservedUnder (fun _ => True) fun u => u.history.Balanced :=
    fun _ _ _ hstep _ hb => (hstep.history hb).1
  have hu : u = ⟨empty, [], []⟩ := hinit
  subst hu
  exact hrun.post_iff hpres (fun _ _ _ hstep hb => (hstep.history hb).2)
    History.empty_balanced History.empty_fifo

/-- Two threads share the queue, which holds two elements at most, and then equal
ones: the law holds. -/
theorem run_isFifo_iff_shared :
    ∃ tr v, (threads Bool Nat).Run ⟨empty, [], []⟩ tr v ∧ v.pushed = [1, 2, 2] ∧ v.IsFifo ∧
      (v.IsFifo ↔ ∀ m ∈ tr, BackIsFront m) := by
  have hrun := TransitionSystem.Run.nil (L := threads Bool Nat) (s := ⟨empty, [], []⟩)
    |>.snoc (@Usage.Step.push Nat Bool _ false 1)
    |>.snoc (@Usage.Step.pop Nat Bool _ true 1 _ rfl)
    |>.snoc (@Usage.Step.push Nat Bool _ false 2)
    |>.snoc (@Usage.Step.push Nat Bool _ true 2)
    |>.snoc (@Usage.Step.popNonblocking Nat Bool _ true (some 2) _ rfl)
    |>.snoc (@Usage.Step.pop Nat Bool _ false 2 _ rfl)
    |>.snoc (@Usage.Step.popNonblocking Nat Bool _ true none _ rfl)
  exact ⟨_, _, hrun, rfl, rfl, run_isFifo_iff rfl hrun⟩

/-- After pushing 1 and 2 a `pop` returns 2 and removes 1. -/
theorem run_not_isFifo :
    ¬ ∀ tr v, (threads Bool Nat).Run ⟨empty, [], []⟩ tr v → v.IsFifo := by
  intro h
  have hpush₁ : (threads Bool Nat).step ⟨empty, [], []⟩ (false, .push 1) ⟨⟨[1]⟩, [1], []⟩ :=
    Usage.Step.push
  have hpush₂ : (threads Bool Nat).step ⟨⟨[1]⟩, [1], []⟩ (false, .push 2) ⟨⟨[1, 2]⟩, [1, 2], []⟩ :=
    Usage.Step.push
  have hpop : (threads Bool Nat).step ⟨⟨[1, 2]⟩, [1, 2], []⟩ (true, .pop) ⟨⟨[2]⟩, [1, 2], [2]⟩ :=
    Usage.Step.pop rfl
  have hfifo : [2] ++ [2] = [1, 2] := h _ _ (.snoc (.snoc (.snoc .nil hpush₁) hpush₂) hpop)
  exact absurd hfifo (by decide)

end SynchronizedQueue

end OneVote
