-- SUMMARY: The thread-safe queue statement by statement under its mutex and condition variable, and that it acts as the atomic queue.
import Mathlib.Data.Finset.Basic
import Mathlib.Logic.Function.Basic
import OneVote.Base.Simulation
import OneVote.SynchronizedQueue

/-!
# Locks of the queue

Any number of threads call one queue. Each statement of `push`, `pop` and
`pop_nonblocking` is a step of its own, so the threads interleave between any
two statements. `pthread_cond_wait` gives the lock back and falls asleep in one
step, and takes the lock again before it returns.
-/

namespace OneVote

open TransitionSystem (Move)

namespace SynchronizedQueue

/-- Where a thread is: the statement it executes next. -/
inductive Point (α : Type*)
  /-- in no function of the queue -/
  | outside
  /-- `push`, at `pthread_mutex_lock` -/
  | pushLock (t : α)
  /-- at `queue_.push(t)` -/
  | pushBody (t : α)
  /-- at `pthread_cond_signal` -/
  | signal
  /-- `pop`, at `pthread_mutex_lock` -/
  | popLock
  /-- at the condition of the `while` -/
  | popWhile
  /-- in `pthread_cond_wait`, asleep -/
  | asleep
  /-- in `pthread_cond_wait`, woken, to take the lock again -/
  | woken
  /-- `pop_nonblocking`, at `pthread_mutex_lock` -/
  | tryLock
  /-- at the condition of the `if` -/
  | tryIf
  /-- at `ret = queue_.back()`, of `pop` when `blocking` -/
  | back (blocking : Bool)
  /-- at `queue_.pop()` -/
  | popFront (blocking : Bool) (ret : α)
  /-- at `pthread_mutex_unlock`, to return `ret` -/
  | unlock (ret : Option α)

namespace Point

variable {α : Type*}

/-- The first statement of a function. -/
def entry : Call α → Point α
  | .push t => .pushLock t
  | .pop => .popLock
  | .popNonblocking => .tryLock

/-- The statement behind `pthread_mutex_lock`, and behind `pthread_cond_wait`. -/
def locked : Point α → Option (Point α)
  | .pushLock t => some (.pushBody t)
  | .popLock | .woken => some .popWhile
  | .tryLock => some .tryIf
  | _ => none

/-- Between taking the lock and giving it back. -/
def Inside : Point α → Prop
  | .pushBody _ | .signal | .popWhile | .tryIf | .back _ | .popFront _ _ | .unlock _ => True
  | .outside | .pushLock _ | .popLock | .asleep | .woken | .tryLock => False

/-- The function that reads the back of the queue. -/
def taking (blocking : Bool) : Call α := if blocking then .pop else .popNonblocking

/-- The call that the thread is in, until the statement that does its work. -/
def pending : Point α → Option (Call α)
  | .pushLock t | .pushBody t => some (.push t)
  | .popLock | .popWhile | .asleep | .woken => some .pop
  | .tryLock | .tryIf => some .popNonblocking
  | .back blocking | .popFront blocking _ => some (taking blocking)
  | .outside | .signal | .unlock _ => none

/-- What the call is about to return. -/
def result : Point α → Option α
  | .unlock ret => ret
  | _ => none

/-- The queue that a thread expects at this statement. -/
def Expects (queue : List α) : Point α → Prop
  | .back _ => queue ≠ []
  | .popFront _ ret => queue.getLast? = some ret
  | _ => True

theorem expects_of_not_inside {p : Point α} (h : ¬ p.Inside) (queue : List α) :
    p.Expects queue := by
  cases p with
  | back => exact absurd trivial h
  | popFront => exact absurd trivial h
  | _ => trivial

theorem locked_inside {p p' : Point α} (h : p.locked = some p') : ¬ p.Inside ∧ p'.Inside := by
  cases p <;> simp only [locked, Option.some.injEq, reduceCtorEq] at h <;> subst h <;>
    exact ⟨id, trivial⟩

theorem locked_pending {p p' : Point α} (h : p.locked = some p') : p'.pending = p.pending := by
  cases p <;> simp only [locked, Option.some.injEq, reduceCtorEq] at h <;> subst h <;> rfl

theorem entry_not_inside (c : Call α) : ¬ (entry c).Inside := by
  cases c <;> exact id

theorem pending_entry (c : Call α) : (entry c).pending = some c := by
  cases c <;> rfl

end Point

/-- The queue with its lock and the threads in it, and what was pushed and
returned so far. -/
structure Locked (τ α : Type*) where
  queue : List α
  /-- the owner of `lock_` -/
  lock : Option τ
  point : τ → Point α
  pushed : List α
  returned : List α

namespace Locked

variable {τ α : Type*}

inductive Action (α : Type*)
  /-- the thread calls a function of the queue -/
  | call (c : Call α)
  /-- it executes its next statement -/
  | next
  /-- it wakes up without a signal -/
  | spurious

/-- `init`, before any call. -/
def initial : Locked τ α := ⟨[], none, fun _ => .outside, [], []⟩

/-- No thread is asleep in `pthread_cond_wait`. -/
def NobodySleeps (s : Locked τ α) : Prop := ∀ th, s.point th ≠ .asleep

section Steps

variable [DecidableEq τ]

def goto (s : Locked τ α) (th : τ) (p : Point α) : Locked τ α :=
  { s with point := Function.update s.point th p }

/-- What `pthread_cond_signal` does to the sleepers in `ws`. -/
def wake (s : Locked τ α) (ws : Finset τ) : Locked τ α :=
  { s with point := fun th => if th ∈ ws then .woken else s.point th }

inductive Step : Locked τ α → τ × Action α → Locked τ α → Prop
  | call {s : Locked τ α} {th : τ} (c : Call α) :
      s.point th = .outside → Step s (th, .call c) (s.goto th (.entry c))
  | lock {s : Locked τ α} {th : τ} {p : Point α} :
      (s.point th).locked = some p → s.lock = none →
      Step s (th, .next) ({ s with lock := some th }.goto th p)
  | push {s : Locked τ α} {th : τ} {t : α} :
      s.point th = .pushBody t →
      Step s (th, .next)
        ({ s with queue := s.queue ++ [t], pushed := s.pushed ++ [t] }.goto th .signal)
  /-- at least one sleeper is woken, if there is one -/
  | signal {s : Locked τ α} {th : τ} (ws : Finset τ) :
      s.point th = .signal → (∀ w ∈ ws, s.point w = .asleep) → (ws = ∅ → s.NobodySleeps) →
      Step s (th, .next) ((s.wake ws).goto th (.unlock none))
  | wait {s : Locked τ α} {th : τ} :
      s.point th = .popWhile → s.queue.length = 0 →
      Step s (th, .next) ({ s with lock := none }.goto th .asleep)
  | leave {s : Locked τ α} {th : τ} :
      s.point th = .popWhile → s.queue.length ≠ 0 → Step s (th, .next) (s.goto th (.back true))
  | refuse {s : Locked τ α} {th : τ} :
      s.point th = .tryIf → s.queue.length = 0 → Step s (th, .next) (s.goto th (.unlock none))
  | grant {s : Locked τ α} {th : τ} :
      s.point th = .tryIf → s.queue.length ≠ 0 → Step s (th, .next) (s.goto th (.back false))
  | back {s : Locked τ α} {th : τ} {blocking : Bool} {ret : α} :
      s.point th = .back blocking → s.queue.getLast? = some ret →
      Step s (th, .next) (s.goto th (.popFront blocking ret))
  | popFront {s : Locked τ α} {th : τ} {blocking : Bool} {ret : α} :
      s.point th = .popFront blocking ret → s.queue ≠ [] →
      Step s (th, .next) ({ s with queue := s.queue.tail }.goto th (.unlock (some ret)))
  | unlock {s : Locked τ α} {th : τ} {ret : Option α} :
      s.point th = .unlock ret →
      Step s (th, .next)
        ({ s with lock := none, returned := s.returned ++ ret.toList }.goto th .outside)
  | spurious {s : Locked τ α} {th : τ} :
      s.point th = .asleep → Step s (th, .spurious) (s.goto th .woken)

end Steps

end Locked

/-- Any set of threads `τ` on one queue, statement by statement. -/
def lockedThreads (τ α : Type*) [DecidableEq τ] :
    TransitionSystem (Locked τ α) (τ × Locked.Action α) where
  init s := s = .initial
  step := Locked.Step

namespace Locked

variable {τ α : Type*}

/-! ## Mutual exclusion -/

/-- The owner of `lock_` is the thread between lock and unlock, and the queue is
as that thread expects it. -/
structure Consistent (s : Locked τ α) : Prop where
  owner : ∀ th, (s.point th).Inside ↔ s.lock = some th
  expects : ∀ th, (s.point th).Expects s.queue

theorem initial_consistent : (initial : Locked τ α).Consistent where
  owner th := by simp [initial, Point.Inside]
  expects th := trivial

theorem Consistent.alone {s : Locked τ α} (h : s.Consistent) {th : τ} (hth : (s.point th).Inside)
    {u : τ} (hu : u ≠ th) : ¬ (s.point u).Inside := by
  intro hinside
  have hlock : some th = some u := ((h.owner th).1 hth).symm.trans ((h.owner u).1 hinside)
  exact hu (Option.some.inj hlock).symm

variable [DecidableEq τ]

@[simp] theorem queue_goto (s : Locked τ α) (th : τ) (p : Point α) :
    (s.goto th p).queue = s.queue := rfl

@[simp] theorem lock_goto (s : Locked τ α) (th : τ) (p : Point α) :
    (s.goto th p).lock = s.lock := rfl

@[simp] theorem pushed_goto (s : Locked τ α) (th : τ) (p : Point α) :
    (s.goto th p).pushed = s.pushed := rfl

@[simp] theorem returned_goto (s : Locked τ α) (th : τ) (p : Point α) :
    (s.goto th p).returned = s.returned := rfl

@[simp] theorem point_goto (s : Locked τ α) (th : τ) (p : Point α) :
    (s.goto th p).point th = p := Function.update_self _ _ _

theorem point_goto_of_ne {s : Locked τ α} {th u : τ} {p : Point α} (h : u ≠ th) :
    (s.goto th p).point u = s.point u := Function.update_of_ne h _ _

@[simp] theorem queue_wake (s : Locked τ α) (ws : Finset τ) : (s.wake ws).queue = s.queue := rfl

@[simp] theorem lock_wake (s : Locked τ α) (ws : Finset τ) : (s.wake ws).lock = s.lock := rfl

theorem point_wake (s : Locked τ α) (ws : Finset τ) (u : τ) :
    (s.wake ws).point u = if u ∈ ws then .woken else s.point u := rfl

/-- The thread that signals is not asleep. -/
theorem point_wake_signal {s : Locked τ α} {th : τ} {ws : Finset τ} (hp : s.point th = .signal)
    (hws : ∀ w ∈ ws, s.point w = .asleep) : (s.wake ws).point th = .signal := by
  have hnot : th ∉ ws := by
    intro hmem
    cases hp.symm.trans (hws th hmem)
  rw [point_wake, if_neg hnot, hp]

/-- A thread that has the lock, or takes it, changes the queue and goes on. -/
theorem consistent_of_alone {s : Locked τ α} {th : τ} {p : Point α}
    (halone : ∀ u, u ≠ th → ¬ (s.point u).Inside)
    (howner : p.Inside ∧ s.lock = some th ∨ ¬ p.Inside ∧ s.lock = none)
    (hexpects : p.Expects s.queue) : (s.goto th p).Consistent where
  owner u := by
    by_cases hu : u = th
    · subst hu
      rw [point_goto, lock_goto]
      rcases howner with ⟨hin, hlock⟩ | ⟨hout, hlock⟩
      · exact iff_of_true hin hlock
      · exact iff_of_false hout (by simp [hlock])
    · rw [point_goto_of_ne hu, lock_goto]
      refine iff_of_false (halone u hu) ?_
      rcases howner with ⟨-, hlock⟩ | ⟨-, hlock⟩
      · rw [hlock]
        exact fun heq => hu (Option.some.inj heq).symm
      · simp [hlock]
  expects u := by
    by_cases hu : u = th
    · subst hu
      rwa [point_goto]
    · rw [point_goto_of_ne hu]
      exact Point.expects_of_not_inside (halone u hu) _

/-- A thread moves between two statements without the lock. -/
theorem Consistent.goto_outside {s : Locked τ α} (h : s.Consistent) {th : τ} {p : Point α}
    (hth : ¬ (s.point th).Inside) (hp : ¬ p.Inside) : (s.goto th p).Consistent where
  owner u := by
    by_cases hu : u = th
    · subst hu
      rw [point_goto, lock_goto, ← h.owner u]
      exact iff_of_false hp hth
    · rw [point_goto_of_ne hu]
      exact h.owner u
  expects u := by
    by_cases hu : u = th
    · subst hu
      rw [point_goto]
      exact Point.expects_of_not_inside hp _
    · rw [point_goto_of_ne hu]
      exact h.expects u

theorem Consistent.wake {s : Locked τ α} (h : s.Consistent) {ws : Finset τ}
    (hws : ∀ w ∈ ws, s.point w = .asleep) : (s.wake ws).Consistent where
  owner u := by
    rw [lock_wake, ← h.owner u, point_wake]
    by_cases hu : u ∈ ws
    · simp [hu, hws u hu, Point.Inside]
    · simp [hu]
  expects u := by
    rw [point_wake]
    by_cases hu : u ∈ ws
    · simp [hu, Point.Expects]
    · simpa [hu] using h.expects u

theorem Consistent.step {s t : Locked τ α} {i : τ × Action α} (hs : Step s i t)
    (h : s.Consistent) : t.Consistent := by
  -- a thread that stands between lock and unlock owns the lock, alone
  have owns : ∀ {th p}, s.point th = p → p.Inside →
      s.lock = some th ∧ ∀ u, u ≠ th → ¬ (s.point u).Inside := by
    rintro th p rfl hin
    exact ⟨(h.owner th).1 hin, fun u hu => h.alone hin hu⟩
  cases hs with
  | call c hp => exact h.goto_outside (by simp [hp, Point.Inside]) (Point.entry_not_inside c)
  | @lock th p hp hfree =>
      have halone : ∀ u, u ≠ th → ¬ (s.point u).Inside := by
        intro u _
        rw [h.owner u, hfree]
        simp
      have hexpects : p.Expects s.queue := by
        cases hpoint : s.point th <;> rw [hpoint] at hp <;> cases hp <;> trivial
      exact consistent_of_alone (s := { s with lock := some th }) halone
        (.inl ⟨(Point.locked_inside hp).2, rfl⟩) hexpects
  | @push th t hp =>
      obtain ⟨hlock, halone⟩ := owns hp trivial
      exact consistent_of_alone
        (s := { s with queue := s.queue ++ [t], pushed := s.pushed ++ [t] }) halone
        (.inl ⟨trivial, hlock⟩) trivial
  | @signal th ws hp hws _ =>
      have hinside : ((s.wake ws).point th).Inside := by
        rw [point_wake_signal hp hws]
        trivial
      have hwake := h.wake hws
      exact consistent_of_alone (fun u hu => hwake.alone hinside hu)
        (.inl ⟨trivial, (owns hp trivial).1⟩) trivial
  | @wait th hp _ =>
      exact consistent_of_alone (s := { s with lock := none }) (owns hp trivial).2
        (.inr ⟨id, rfl⟩) trivial
  | leave hp hlen =>
      obtain ⟨hlock, halone⟩ := owns hp trivial
      exact consistent_of_alone halone (.inl ⟨trivial, hlock⟩) (by
        intro hnil
        simp [hnil] at hlen)
  | refuse hp _ =>
      obtain ⟨hlock, halone⟩ := owns hp trivial
      exact consistent_of_alone halone (.inl ⟨trivial, hlock⟩) trivial
  | grant hp hlen =>
      obtain ⟨hlock, halone⟩ := owns hp trivial
      exact consistent_of_alone halone (.inl ⟨trivial, hlock⟩) (by
        intro hnil
        simp [hnil] at hlen)
  | back hp hret =>
      obtain ⟨hlock, halone⟩ := owns hp trivial
      exact consistent_of_alone halone (.inl ⟨trivial, hlock⟩) hret
  | popFront hp _ =>
      obtain ⟨hlock, halone⟩ := owns hp trivial
      exact consistent_of_alone (s := { s with queue := s.queue.tail }) halone
        (.inl ⟨trivial, hlock⟩) trivial
  | @unlock th ret hp =>
      exact consistent_of_alone
        (s := { s with lock := none, returned := s.returned ++ ret.toList }) (owns hp trivial).2
        (.inr ⟨id, rfl⟩) trivial
  | spurious hp => exact h.goto_outside (by simp [hp, Point.Inside]) id

theorem consistent_invariant : (lockedThreads τ α).Invariant Consistent where
  init s hs := by
    subst hs
    exact initial_consistent
  step _ _ _ hstep hs := hs.step hstep

/-! ## A push

One call of `push` from its lock to its end, while nobody sleeps. -/

/-- Statements of calls that have begun, without spurious wake-ups. -/
def OnlyNext (m : Move (Locked τ α) (τ × Action α)) : Prop := m.label.2 = .next

/-! ## The atomic queue

The statement that changes `queue_`, or finds it empty in `pop_nonblocking`, is
the one at which a call takes effect. -/

/-- The call that takes effect in a move. -/
def takesEffect (m : Move (Locked τ α) (τ × Action α)) : Option (τ × Call α) :=
  match m.label, m.pre.point m.label.1 with
  | (th, .next), .pushBody t => some (th, .push t)
  | (th, .next), .tryIf =>
      if m.pre.queue.length = 0 then some (th, .popNonblocking) else none
  | (th, .next), .popFront blocking _ => some (th, Point.taking blocking)
  | _, _ => none

/-- What the owner of the lock is about to return. -/
def returning (s : Locked τ α) : List α :=
  match s.lock with
  | none => []
  | some th => (s.point th).result.toList

/-- The atomic queue at this moment. -/
def usage (s : Locked τ α) : Usage α := ⟨⟨s.queue⟩, s.pushed, s.returned ++ s.returning⟩

omit [DecidableEq τ] in
theorem returning_of_free {s : Locked τ α} (h : s.lock = none) : s.returning = [] := by
  simp [returning, h]

omit [DecidableEq τ] in
theorem returning_of_owner {s : Locked τ α} {th : τ} (h : s.lock = some th) :
    s.returning = (s.point th).result.toList := by
  simp [returning, h]

theorem returning_goto_of_owner {s : Locked τ α} {th : τ} (h : s.lock = some th) (p : Point α) :
    (s.goto th p).returning = p.result.toList := by
  rw [returning_of_owner (s := s.goto th p) h, point_goto]

/-- What a thread outside the lock does leaves the atomic queue alone. -/
theorem usage_goto {s : Locked τ α} {th : τ} (h : s.lock ≠ some th) (p : Point α) :
    (s.goto th p).usage = s.usage := by
  have hreturning : (s.goto th p).returning = s.returning := by
    unfold returning
    rw [lock_goto]
    cases hlock : s.lock with
    | none => rfl
    | some u =>
        have hu : u ≠ th := by
          rintro rfl
          exact h hlock
        simp only [point_goto_of_ne hu]
  unfold usage
  rw [hreturning]
  rfl

/-- A statement of the lock owner that touches nothing but its own position. -/
theorem usage_goto_of_owner {s : Locked τ α} {th : τ} {p : Point α} (h : s.lock = some th)
    (hresult : (s.point th).result = none) (hp : p.result = none) :
    (s.goto th p).usage = s.usage := by
  unfold usage
  rw [returning_goto_of_owner h, returning_of_owner h, hresult, hp]
  rfl

theorem usage_wake {s : Locked τ α} {ws : Finset τ} (hws : ∀ w ∈ ws, s.point w = .asleep) :
    (s.wake ws).usage = s.usage := by
  have hreturning : (s.wake ws).returning = s.returning := by
    unfold returning Locked.wake
    cases s.lock with
    | none => rfl
    | some u =>
        by_cases hu : u ∈ ws
        · simp [hu, hws u hu, Point.result]
        · simp [hu]
  unfold usage
  rw [hreturning]
  rfl

/-- What the thread returns was at the back, and leaves with the front. -/
theorem Consistent.takes {s : Locked τ α} (h : s.Consistent) {th : τ} {blocking : Bool} {ret : α}
    (hp : s.point th = .popFront blocking ret) :
    Usage.Step s.usage (th, Point.taking blocking)
      ({ s with queue := s.queue.tail }.goto th (.unlock (some ret))).usage := by
  have hlock : s.lock = some th := (h.owner th).1 (by simp [hp, Point.Inside])
  have hret : s.queue.getLast? = some ret := by simpa [hp, Point.Expects] using h.expects th
  have hpop : s.usage.q.pop = some (ret, ⟨s.queue.tail⟩) := pop_eq_some.2 ⟨hret, rfl⟩
  have hnone : s.returning = [] := by rw [returning_of_owner hlock, hp]; rfl
  have hpost : ({ s with queue := s.queue.tail }.goto th (.unlock (some ret))).usage =
      { s.usage with q := ⟨s.queue.tail⟩, returned := s.usage.returned ++ [ret] } := by
    unfold usage
    rw [returning_goto_of_owner (s := { s with queue := s.queue.tail }) hlock, hnone]
    simp [Point.result]
  rw [hpost]
  cases blocking with
  | true => exact .pop hpop
  | false =>
      have hne : s.queue ≠ [] := by
        intro hnil
        simp [hnil] at hret
      have htry : s.usage.q.popNonblocking = (some ret, ⟨s.queue.tail⟩) := by
        rw [popNonblocking_nonempty hne, ← hret]
        rfl
      exact .popNonblocking htry

/-- Each statement acts as one call on the atomic queue, or as none. -/
theorem Step.acts {s t : Locked τ α} {i : τ × Action α} (hs : Step s i t) (h : s.Consistent) :
    takesEffect ⟨s, i, t⟩ = none ∧ t.usage = s.usage ∨
      ∃ c, takesEffect ⟨s, i, t⟩ = some c ∧ Usage.Step s.usage c t.usage := by
  have owns : ∀ {th p}, s.point th = p → p.Inside → s.lock = some th := by
    rintro th p rfl hin
    exact (h.owner th).1 hin
  have idles : ∀ {th p}, s.point th = p → ¬ p.Inside → s.lock ≠ some th := by
    rintro th p rfl hout hlock
    exact hout ((h.owner th).2 hlock)
  cases hs with
  | @call th c hp => exact .inl ⟨by simp [takesEffect], usage_goto (idles hp id) _⟩
  | @lock th p hp hfree =>
      -- while the lock is free no call has a result to return
      have hnone : s.returning = [] := returning_of_free hfree
      have hresult : p.result = none := by
        cases hpoint : s.point th <;> rw [hpoint] at hp <;> cases hp <;> rfl
      refine .inl ⟨?_, ?_⟩
      · cases hpoint : s.point th <;> rw [hpoint] at hp <;> cases hp <;> simp [takesEffect, hpoint]
      · unfold usage
        rw [returning_goto_of_owner (s := { s with lock := some th }) rfl, hnone, hresult]
        rfl
  | @push th x hp =>
      -- here `push` takes effect
      have hlock := owns hp trivial
      have hnone : s.returning = [] := by rw [returning_of_owner hlock, hp]; rfl
      have hpost : ({ s with queue := s.queue ++ [x], pushed := s.pushed ++ [x] }.goto th
          .signal).usage =
            { s.usage with q := s.usage.q.push x, pushed := s.usage.pushed ++ [x] } := by
        unfold usage
        rw [returning_goto_of_owner (s := { s with
          queue := s.queue ++ [x], pushed := s.pushed ++ [x] }) hlock, hnone]
        rfl
      refine .inr ⟨(th, .push x), by simp [takesEffect, hp], ?_⟩
      rw [hpost]
      exact .push
  | @signal th ws hp hws _ =>
      have hlock : (s.wake ws).lock = some th := owns hp trivial
      have hresult : ((s.wake ws).point th).result = none := by
        rw [point_wake_signal hp hws]
        rfl
      exact .inl ⟨by simp [takesEffect, hp],
        (usage_goto_of_owner hlock hresult rfl).trans (usage_wake hws)⟩
  | @wait th hp _ =>
      have hnone : s.returning = [] := by rw [returning_of_owner (owns hp trivial), hp]; rfl
      have hfree : ({ s with lock := none }.goto th .asleep).returning = [] :=
        returning_of_free rfl
      refine .inl ⟨by simp [takesEffect, hp], ?_⟩
      unfold usage
      rw [hnone, hfree]
      rfl
  | leave hp _ =>
      exact .inl ⟨by simp [takesEffect, hp],
        usage_goto_of_owner (owns hp trivial) (by rw [hp]; rfl) rfl⟩
  | @refuse th hp hlen =>
      -- the call that finds the queue empty takes effect without a change
      have hnil : s.queue = [] := List.length_eq_zero_iff.1 hlen
      have hsame := usage_goto_of_owner (p := .unlock none) (owns hp trivial) (by rw [hp]; rfl) rfl
      refine .inr ⟨(th, .popNonblocking), by simp [takesEffect, hp, hlen], ?_⟩
      rw [hsame]
      have hnone : s.usage.q.popNonblocking = (none, s.usage.q) := popNonblocking_empty hnil
      have hstep : Usage.Step s.usage (th, .popNonblocking) _ := .popNonblocking hnone
      simpa using hstep
  | grant hp hlen =>
      exact .inl ⟨by simp [takesEffect, hp, hlen],
        usage_goto_of_owner (owns hp trivial) (by rw [hp]; rfl) rfl⟩
  | back hp _ =>
      exact .inl ⟨by simp [takesEffect, hp],
        usage_goto_of_owner (owns hp trivial) (by rw [hp]; rfl) rfl⟩
  | @popFront th blocking ret hp _ =>
      exact .inr ⟨(th, Point.taking blocking), by simp [takesEffect, hp], h.takes hp⟩
  | @unlock th ret hp =>
      -- the result was counted as returned when the element was taken
      have hnow : s.returning = ret.toList := by rw [returning_of_owner (owns hp trivial), hp]; rfl
      have hfree : ({ s with lock := none, returned := s.returned ++ ret.toList }.goto th
          .outside).returning = [] := returning_of_free rfl
      refine .inl ⟨by simp [takesEffect, hp], ?_⟩
      unfold usage
      rw [hnow, hfree]
      simp
  | spurious hp => exact .inl ⟨by simp [takesEffect], usage_goto (idles hp id) _⟩

theorem simulation :
    TransitionSystem.Simulation (lockedThreads τ α) (threads τ α) Consistent usage takesEffect where
  init s hs := by
    subst hs
    rfl
  quiet s i t hstep hs hnone := by
    rcases hstep.acts hs with ⟨-, hsame⟩ | ⟨c, hsome, -⟩
    · exact hsame
    · cases hnone.symm.trans hsome
  seen s i t j hstep hs hsome := by
    rcases hstep.acts hs with ⟨hnone, -⟩ | ⟨c, hcall, hact⟩
    · cases hnone.symm.trans hsome
    · cases hcall.symm.trans hsome
      exact hact

/-- The call that `th` begins in a move. -/
def begins (th : τ) (m : Move (Locked τ α) (τ × Action α)) : Option (Call α) :=
  match m.label with
  | (u, .call c) => if u = th then some c else none
  | _ => none

/-- The calls of `th` in a list of calls by all threads. -/
def callsOf (th : τ) (cs : List (τ × Call α)) : List (Call α) :=
  cs.filterMap fun c => if c.1 = th then some c.2 else none

theorem pending_wake {s : Locked τ α} {ws : Finset τ} (hws : ∀ w ∈ ws, s.point w = .asleep)
    (th : τ) : ((s.wake ws).point th).pending = (s.point th).pending := by
  rw [point_wake]
  by_cases hth : th ∈ ws
  · rw [if_pos hth, hws th hth]
    rfl
  · rw [if_neg hth]

omit [DecidableEq τ] in
theorem fst_takesEffect {m : Move (Locked τ α) (τ × Action α)} {c : τ × Call α}
    (h : takesEffect m = some c) : c.1 = m.label.1 := by
  obtain ⟨s, ⟨th, a⟩, t⟩ := m
  unfold takesEffect at h
  dsimp only at h
  split at h
  · cases h
    rename_i heq _
    cases heq
    rfl
  · rename_i heq _
    split at h
    · cases h
      cases heq
      rfl
    · cases h
  · cases h
    rename_i heq _
    cases heq
    rfl
  · cases h

theorem Step.pending_other {s t : Locked τ α} {i : τ × Action α} (hs : Step s i t) {th : τ}
    (h : th ≠ i.1) : (t.point th).pending = (s.point th).pending := by
  cases hs with
  | signal ws _ hws _ => rw [point_goto_of_ne h, pending_wake hws]
  | _ => rw [point_goto_of_ne h]

theorem Step.pending_self {s t : Locked τ α} {i : τ × Action α} (hs : Step s i t) :
    (s.point i.1).pending.toList ++ (begins i.1 ⟨s, i, t⟩).toList =
      callsOf i.1 (takesEffect ⟨s, i, t⟩).toList ++ (t.point i.1).pending.toList := by
  cases hs with
  | @call th c hp =>
      rw [point_goto, Point.pending_entry]
      simp [begins, callsOf, takesEffect, hp, Point.pending]
  | @lock th p hp _ =>
      rw [point_goto, Point.locked_pending hp]
      cases hpoint : s.point th <;> rw [hpoint] at hp <;> cases hp <;>
        simp [begins, callsOf, takesEffect, hpoint]
  | refuse hp hlen | grant hp hlen =>
      simp [begins, callsOf, takesEffect, hp, hlen, Point.pending, Point.taking]
  | wait hp _ | leave hp _ | signal _ hp _ _ | push hp | back hp _ | popFront hp _ | unlock hp
    | spurious hp =>
      simp [begins, callsOf, takesEffect, hp, Point.pending, Point.taking]

/-- A call stays pending from its begin to the statement at which it takes effect. -/
theorem Step.pending {s t : Locked τ α} {i : τ × Action α} (hs : Step s i t) (th : τ) :
    (s.point th).pending.toList ++ (begins th ⟨s, i, t⟩).toList =
      callsOf th (takesEffect ⟨s, i, t⟩).toList ++ (t.point th).pending.toList := by
  by_cases h : th = i.1
  · subst h
    exact hs.pending_self
  · have hbegins : begins th ⟨s, i, t⟩ = none := by
      obtain ⟨u, a⟩ := i
      cases a <;> simp [begins, Ne.symm h]
    have hcalls : callsOf th (takesEffect ⟨s, i, t⟩).toList = [] := by
      cases hc : takesEffect ⟨s, i, t⟩ with
      | none => rfl
      | some c => simp [callsOf, fst_takesEffect hc, Ne.symm h]
    rw [hs.pending_other h, hbegins, hcalls]
    simp

theorem callsOf_append (th : τ) (cs ds : List (τ × Call α)) :
    callsOf th (cs ++ ds) = callsOf th cs ++ callsOf th ds := List.filterMap_append

theorem calls_run {s t : Locked τ α} {tr : List (Move (Locked τ α) (τ × Action α))}
    (hrun : (lockedThreads τ α).Run s tr t) (th : τ) :
    (s.point th).pending.toList ++ tr.filterMap (begins th) =
      callsOf th (tr.filterMap takesEffect) ++ (t.point th).pending.toList := by
  induction hrun with
  | nil => simp [callsOf]
  | @snoc t u tr i _ hstep ih =>
      have hlast := hstep.pending th
      rw [List.filterMap_append, List.filterMap_append, callsOf_append,
        TransitionSystem.filterMap_single, TransitionSystem.filterMap_single,
        ← List.append_assoc, ih, List.append_assoc, hlast, List.append_assoc]

/-- Every run of statements is a run of atomic calls: each call takes effect at
one statement between its begin and its end, the calls of one thread in the
order in which it makes them, and what is returned is what the atomic calls return. -/
theorem run_atomic {t : Locked τ α} {tr : List (Move (Locked τ α) (τ × Action α))}
    (hrun : (lockedThreads τ α).Run initial tr t) :
    (threads τ α).Run ⟨empty, [], []⟩ (TransitionSystem.image usage takesEffect tr) t.usage ∧
      (∀ th, tr.filterMap (begins th) =
        callsOf th (tr.filterMap takesEffect) ++ (t.point th).pending.toList) ∧
      (t.lock = none → t.usage = ⟨⟨t.queue⟩, t.pushed, t.returned⟩) := by
  refine ⟨simulation.run consistent_invariant.preserved hrun initial_consistent, ?_, ?_⟩
  · intro th
    simpa [initial, Point.pending] using calls_run hrun th
  · intro hfree
    unfold usage
    rw [returning_of_free hfree, List.append_nil]

/-- A thread falls asleep on the empty queue; another pushes, and wakes it. -/
theorem exists_handed : ∃ tr s tr' t, (lockedThreads Bool Nat).Run initial tr s ∧
    s.point true = .asleep ∧ (lockedThreads Bool Nat).Run s tr' t ∧ (∀ m ∈ tr', OnlyNext m) ∧
    tr'.length = 9 ∧ t.queue = [] ∧ t.returned = [7] := by
  have hasleep := TransitionSystem.Run.nil (L := lockedThreads Bool Nat) (s := initial)
    |>.snoc (@Step.call Bool Nat _ _ true .pop rfl)
    |>.snoc (@Step.lock Bool Nat _ _ true .popWhile rfl rfl)
    |>.snoc (@Step.wait Bool Nat _ _ true rfl rfl)
    |>.snoc (@Step.call Bool Nat _ _ false (.push 7) rfl)
  generalize hs : @goto Bool Nat _ _ false (.entry (.push 7)) = s at hasleep
  have hfalse : s.point false = .pushLock 7 := by
    rw [← hs]
    rfl
  have htrue : s.point true = .asleep := by
    rw [← hs]
    rfl
  have hfree : s.lock = none := by
    rw [← hs]
    rfl
  have hqueue : s.queue = [] ∧ s.returned = [] := by
    rw [← hs]
    exact ⟨rfl, rfl⟩
  have hhanded := TransitionSystem.Run.nil (L := lockedThreads Bool Nat) (s := s)
    |>.snoc (@Step.lock Bool Nat _ _ false (.pushBody 7) (by rw [hfalse]; rfl) hfree)
    |>.snoc (@Step.push Bool Nat _ _ false 7 rfl)
    |>.snoc (@Step.signal Bool Nat _ _ false {true} rfl
      (by intro w hw; rw [Finset.mem_singleton.1 hw]; exact htrue) (by simp))
    |>.snoc (@Step.unlock Bool Nat _ _ false none rfl)
    |>.snoc (@Step.lock Bool Nat _ _ true .popWhile rfl rfl)
    |>.snoc (@Step.leave Bool Nat _ _ true rfl (by simp [wake]))
    |>.snoc (@Step.back Bool Nat _ _ true true 7 rfl (by simp [wake, hqueue]))
    |>.snoc (@Step.popFront Bool Nat _ _ true true 7 rfl (by simp [wake]))
    |>.snoc (@Step.unlock Bool Nat _ _ true (some 7) rfl)
  refine ⟨_, _, _, _, hasleep, htrue, hhanded, by simp [OnlyNext], rfl, ?_, ?_⟩
  · simp [wake, hqueue]
  · simp [wake, hqueue]

/-- An element is handed to a thread that was asleep in `pop`. -/
theorem run_atomic_handed :
    ∃ tr t, (lockedThreads Bool Nat).Run initial tr t ∧ t.returned = [7] ∧
      (threads Bool Nat).Run ⟨empty, [], []⟩ (TransitionSystem.image usage takesEffect tr) t.usage ∧
      (∀ th, tr.filterMap (begins th) =
        callsOf th (tr.filterMap takesEffect) ++ (t.point th).pending.toList) ∧
      (t.lock = none → t.usage = ⟨⟨t.queue⟩, t.pushed, t.returned⟩) := by
  obtain ⟨tr, s, tr', t, hasleep, -, hhanded, -, -, -, hreturned⟩ := exists_handed
  exact ⟨_, t, hasleep.append hhanded, hreturned, run_atomic (hasleep.append hhanded)⟩

end Locked

end SynchronizedQueue

end OneVote
