-- SUMMARY: No deadlock, no lost wake-up and no endless schedule among the threads on one queue.
import Mathlib.Algebra.Order.BigOperators.Group.Finset
import Mathlib.Data.Fintype.Card
import OneVote.Base.Measure
import OneVote.QueueLocks

/-!
# Progress on the queue

A sleeper may leave an element to others only while there are enough others:
threads in `pop` on their way to the queue, or a thread that is about to signal.
Counting them needs the threads to be finitely many.
-/

namespace OneVote

open TransitionSystem (Move)

namespace SynchronizedQueue

namespace Point

variable {α : Type*}

/-- In `pop` on the way to an element, or about to wake a sleeper. -/
def attends : Point α → Bool
  | .signal | .woken | .popWhile => true
  | .back blocking | .popFront blocking _ => blocking
  | _ => false

/-- At least the statements that lie ahead of the thread, and of the sleepers that
its signal may wake. -/
def rank (threads : Nat) : Point α → Nat
  | .outside | .asleep => 0
  | .unlock _ => 1
  | .popFront _ _ => 2
  | .back _ => 3
  | .popWhile | .tryIf => 4
  | .popLock | .tryLock | .woken => 5
  | .signal => 5 * threads + 2
  | .pushBody _ => 5 * threads + 3
  | .pushLock _ => 5 * threads + 4

end Point

namespace Locked

variable {τ α : Type*} [DecidableEq τ] [Fintype τ]

/-! ## Attendants -/

def attendants (s : Locked τ α) : Finset τ := Finset.univ.filter fun th => (s.point th).attends

/-- While a thread is asleep, each element in the queue is attended to. -/
def Attended (s : Locked τ α) : Prop :=
  ∀ th, s.point th = .asleep → s.queue.length ≤ s.attendants.card

omit [DecidableEq τ] in
@[simp] theorem mem_attendants {s : Locked τ α} {th : τ} :
    th ∈ s.attendants ↔ (s.point th).attends = true := by
  simp [attendants]

theorem attendants_goto (s : Locked τ α) (th : τ) (p : Point α) :
    (s.goto th p).attendants =
      if p.attends then insert th s.attendants else s.attendants.erase th := by
  ext u
  by_cases hu : u = th
  · subst hu
    cases hp : p.attends <;> simp [hp]
  · cases hp : p.attends <;> simp [point_goto_of_ne hu, hu]

theorem subset_attendants_goto {s : Locked τ α} {th : τ} {p : Point α}
    (h : (s.point th).attends = true → p.attends = true) :
    s.attendants ⊆ (s.goto th p).attendants := by
  intro u hu
  by_cases heq : u = th
  · subst heq
    simpa using h (mem_attendants.1 hu)
  · simpa [point_goto_of_ne heq] using hu

theorem subset_attendants_wake (s : Locked τ α) (ws : Finset τ) :
    s.attendants ∪ ws ⊆ (s.wake ws).attendants := by
  intro u hu
  rw [mem_attendants, point_wake]
  by_cases hw : u ∈ ws
  · rw [if_pos hw]
    rfl
  · simpa [hw] using hu

omit [Fintype τ] in
theorem asleep_of_goto {s : Locked τ α} {th u : τ} {p : Point α} (hp : p ≠ .asleep)
    (h : (s.goto th p).point u = .asleep) : s.point u = .asleep := by
  by_cases hu : u = th
  · subst hu
    rw [point_goto] at h
    exact absurd h hp
  · rwa [point_goto_of_ne hu] at h

/-- The thread goes on, the queue grows no longer and no attendant leaves. -/
theorem Attended.goto {s : Locked τ α} (h : s.Attended) {th : τ} {p : Point α} (hp : p ≠ .asleep)
    (hattends : (s.point th).attends = true → p.attends = true) : (s.goto th p).Attended := by
  intro u hu
  have hle := h u (asleep_of_goto hp hu)
  exact hle.trans (Finset.card_le_card (subset_attendants_goto hattends))

theorem Step.attended {s t : Locked τ α} {i : τ × Action α} (hs : Step s i t) (h : s.Attended) :
    t.Attended := by
  cases hs with
  | call c hp => exact h.goto (by cases c <;> simp [Point.entry]) (by simp [hp, Point.attends])
  | @lock th p hp _ =>
      have hne : p ≠ .asleep := by
        rintro rfl
        exact (Point.locked_inside hp).2
      refine Attended.goto (s := { s with lock := some th }) h hne ?_
      cases hpoint : s.point th <;> rw [hpoint] at hp <;> cases hp <;> simp [Point.attends]
  | @push th x hp =>
      -- one element more, and the caller attends to it until it has signalled
      intro u hu
      have hle := h u (asleep_of_goto (by simp) hu)
      have hnot : th ∉ s.attendants := by simp [hp, Point.attends]
      have hinsert : ({ s with queue := s.queue ++ [x], pushed := s.pushed ++ [x] }.goto th
          .signal).attendants = insert th s.attendants := attendants_goto _ _ _
      rw [hinsert, Finset.card_insert_of_notMem hnot, queue_goto, List.length_append]
      simpa using hle
  | @signal th ws hp hws hall =>
      -- the caller stops attending, but somebody still sleeps, so that one was woken
      intro u hu
      have hasleep : (s.wake ws).point u = .asleep := asleep_of_goto (by simp) hu
      have hu' : s.point u = .asleep ∧ u ∉ ws := by
        rw [point_wake] at hasleep
        split at hasleep
        · cases hasleep
        · exact ⟨hasleep, ‹_›⟩
      have hws₁ : 1 ≤ ws.card := by
        rw [Nat.one_le_iff_ne_zero, Ne, Finset.card_eq_zero]
        exact fun hempty => hall hempty u hu'.1
      have hdisjoint : Disjoint s.attendants ws := by
        rw [Finset.disjoint_right]
        intro w hw
        simp [hws w hw, Point.attends]
      have hwoken := Finset.card_le_card (subset_attendants_wake s ws)
      rw [Finset.card_union_of_disjoint hdisjoint] at hwoken
      have hleft := Finset.pred_card_le_card_erase (s := (s.wake ws).attendants) (a := th)
      have herase : ((s.wake ws).goto th (.unlock none)).attendants =
          (s.wake ws).attendants.erase th := attendants_goto _ _ _
      have hle := h u hu'.1
      rw [herase, queue_goto, queue_wake]
      omega
  | @wait th _ hlen =>
      intro u _
      simp [hlen]
  | leave hp _ => exact h.goto (by simp) fun _ => rfl
  | refuse hp _ => exact h.goto (by simp) (by simp [hp, Point.attends])
  | grant hp _ => exact h.goto (by simp) (by simp [hp, Point.attends])
  | back hp _ => exact h.goto (by simp) (by simp [hp, Point.attends])
  | @popFront th blocking ret hp hne =>
      -- one element and one attendant less
      intro u hu
      have hle := h u (asleep_of_goto (by simp) hu)
      have hleft := Finset.pred_card_le_card_erase (s := s.attendants) (a := th)
      have herase : ({ s with queue := s.queue.tail }.goto th
          (.unlock (some ret))).attendants = s.attendants.erase th := attendants_goto _ _ _
      rw [herase, queue_goto, List.length_tail]
      omega
  | @unlock th ret hp =>
      exact Attended.goto (s := { s with lock := none, returned := s.returned ++ ret.toList }) h
        (by simp) (by simp [hp, Point.attends])
  | spurious hp => exact h.goto (by simp) fun _ => rfl

theorem attended_invariant : (lockedThreads τ α).Invariant Attended where
  init s hs := by
    subst hs
    intro th hth
    cases hth
  step _ _ _ hstep hs := hstep.attended hs

/-! ## Progress -/

/-- The statements that are left, if every sleeper were woken once more. -/
def work (s : Locked τ α) : Nat := ∑ th, (s.point th).rank (Fintype.card τ)

theorem work_goto (s : Locked τ α) (th : τ) (p : Point α) :
    (s.goto th p).work + (s.point th).rank (Fintype.card τ) =
      s.work + p.rank (Fintype.card τ) := by
  have hrest : ∑ u ∈ Finset.univ.erase th, ((s.goto th p).point u).rank (Fintype.card τ) =
      ∑ u ∈ Finset.univ.erase th, (s.point u).rank (Fintype.card τ) := by
    refine Finset.sum_congr rfl fun u hu => ?_
    rw [point_goto_of_ne (Finset.ne_of_mem_erase hu)]
  unfold work
  rw [← Finset.add_sum_erase _ _ (Finset.mem_univ th),
    ← Finset.add_sum_erase _ _ (Finset.mem_univ th), hrest, point_goto]
  omega

theorem work_wake {s : Locked τ α} {ws : Finset τ} (hws : ∀ w ∈ ws, s.point w = .asleep) :
    (s.wake ws).work ≤ s.work + 5 * Fintype.card τ := by
  have hone : ∀ u, ((s.wake ws).point u).rank (Fintype.card τ) ≤
      (s.point u).rank (Fintype.card τ) + 5 := by
    intro u
    rw [point_wake]
    by_cases hu : u ∈ ws
    · simp [hu, hws u hu, Point.rank]
    · simp [hu]
  calc (s.wake ws).work ≤ ∑ u, ((s.point u).rank (Fintype.card τ) + 5) :=
        Finset.sum_le_sum fun u _ => hone u
    _ = s.work + 5 * Fintype.card τ := by
        rw [Finset.sum_add_distrib, Finset.sum_const_nat fun _ _ => rfl, Finset.card_univ,
          Nat.mul_comm 5]
        rfl

theorem work_goto_lt {s s' : Locked τ α} {th : τ} {p : Point α} (hsame : s'.point = s.point)
    (hrank : p.rank (Fintype.card τ) < (s.point th).rank (Fintype.card τ)) :
    (s'.goto th p).work < s.work := by
  have hgoto := work_goto s' th p
  have hwork : s'.work = s.work := by
    unfold work
    rw [hsame]
  rw [hsame, hwork] at hgoto
  omega

theorem Step.work_lt {s t : Locked τ α} {th : τ} (hs : Step s (th, .next) t) :
    t.work < s.work := by
  cases hs with
  | @lock _ p hp _ =>
      refine work_goto_lt rfl ?_
      cases hpoint : s.point th <;> rw [hpoint] at hp <;> cases hp <;> simp [Point.rank]
  | @signal _ ws hp hws _ =>
      have hgoto := work_goto (s.wake ws) th (.unlock none)
      have hwake := work_wake hws
      rw [point_wake_signal hp hws] at hgoto
      simp only [Point.rank] at hgoto
      omega
  | push hp => exact work_goto_lt rfl (by simp [hp, Point.rank])
  | wait hp _ => exact work_goto_lt rfl (by simp [hp, Point.rank])
  | leave hp _ => exact work_goto_lt rfl (by simp [hp, Point.rank])
  | refuse hp _ => exact work_goto_lt rfl (by simp [hp, Point.rank])
  | grant hp _ => exact work_goto_lt rfl (by simp [hp, Point.rank])
  | back hp _ => exact work_goto_lt rfl (by simp [hp, Point.rank])
  | popFront hp _ => exact work_goto_lt rfl (by simp [hp, Point.rank])
  | unlock hp => exact work_goto_lt rfl (by simp [hp, Point.rank])

omit [DecidableEq τ] in
theorem work_le (s : Locked τ α) : s.work ≤ Fintype.card τ * (5 * Fintype.card τ + 4) := by
  have hone : ∀ th, (s.point th).rank (Fintype.card τ) ≤ 5 * Fintype.card τ + 4 := by
    intro th
    have hpos : 0 < Fintype.card τ := Fintype.card_pos_iff.2 ⟨th⟩
    cases s.point th <;> simp only [Point.rank] <;> omega
  calc s.work ≤ ∑ _th : τ, (5 * Fintype.card τ + 4) := Finset.sum_le_sum fun th _ => hone th
    _ = Fintype.card τ * (5 * Fintype.card τ + 4) := by
        rw [Finset.sum_const_nat fun _ _ => rfl, Finset.card_univ]

theorem work_decreases : (lockedThreads τ α).Decreases OnlyNext (fun _ => True) work := by
  rintro s ⟨th, a⟩ t hstep hnext -
  obtain rfl : a = .next := hnext
  exact Step.work_lt hstep

/-- The thread can execute its next statement. -/
def Ready (s : Locked τ α) (th : τ) : Prop := ∃ t, Step s (th, .next) t

omit [Fintype τ] in
theorem Consistent.ready_of_inside {s : Locked τ α} (h : s.Consistent) {th : τ}
    (hth : (s.point th).Inside) : s.Ready th := by
  cases hp : s.point th with
  | pushBody t => exact ⟨_, .push hp⟩
  | signal =>
      by_cases hsleep : s.NobodySleeps
      · exact ⟨_, .signal ∅ hp (by simp) fun _ => hsleep⟩
      · obtain ⟨u, hu⟩ : ∃ u, s.point u = .asleep := by
          by_contra hno
          exact hsleep fun u hu => hno ⟨u, hu⟩
        exact ⟨_, .signal {u} hp (by simpa using hu) (by simp)⟩
  | popWhile =>
      by_cases hlen : s.queue.length = 0
      · exact ⟨_, .wait hp hlen⟩
      · exact ⟨_, .leave hp hlen⟩
  | tryIf =>
      by_cases hlen : s.queue.length = 0
      · exact ⟨_, .refuse hp hlen⟩
      · exact ⟨_, .grant hp hlen⟩
  | back blocking =>
      have hne : s.queue ≠ [] := by simpa [hp, Point.Expects] using h.expects th
      exact ⟨_, .back hp (List.getLast?_eq_some_getLast hne)⟩
  | popFront blocking ret =>
      have hret : s.queue.getLast? = some ret := by simpa [hp, Point.Expects] using h.expects th
      refine ⟨_, .popFront hp ?_⟩
      intro hnil
      simp [hnil] at hret
  | unlock ret => exact ⟨_, .unlock hp⟩
  | _ => simp [hp, Point.Inside] at hth

/-- Every thread is outside, or asleep with nothing to wake up for. -/
def Settled (s : Locked τ α) : Prop :=
  s.lock = none ∧ ∀ th, s.point th = .outside ∨ s.point th = .asleep ∧ s.queue = []

theorem settled_of_not_ready {s : Locked τ α} (h : s.Consistent) (ha : s.Attended)
    (hnot : ∀ th, ¬ s.Ready th) : s.Settled := by
  have hfree : s.lock = none := by
    cases hlock : s.lock with
    | none => rfl
    | some th => exact absurd (h.ready_of_inside ((h.owner th).2 hlock)) (hnot th)
  have hlocked : ∀ th, (s.point th).locked = none := by
    intro th
    cases hp : (s.point th).locked with
    | none => rfl
    | some p => exact absurd ⟨_, .lock hp hfree⟩ (hnot th)
  have hpoint : ∀ th, s.point th = .outside ∨ s.point th = .asleep := by
    intro th
    have hout : ¬ (s.point th).Inside := by simp [h.owner th, hfree]
    have hnone := hlocked th
    cases hp : s.point th with
    | outside => exact .inl rfl
    | asleep => exact .inr rfl
    | pushLock | popLock | woken | tryLock => simp [hp, Point.locked] at hnone
    | _ => simp [hp, Point.Inside] at hout
  refine ⟨hfree, fun th => ?_⟩
  rcases hpoint th with hout | hasleep
  · exact .inl hout
  · have hempty : s.attendants = ∅ := by
      ext u
      rcases hpoint u with hu | hu <;> simp [hu, Point.attends]
    have hle := ha th hasleep
    rw [hempty, Finset.card_empty, Nat.le_zero, List.length_eq_zero_iff] at hle
    exact .inr ⟨hasleep, hle⟩

/-- From any reachable state, the calls that have begun come to an end within a
bounded number of statements, whatever the schedule. When no statement is left
to execute, nobody holds the lock and nobody sleeps over an element. -/
theorem run_settles {s t : Locked τ α} {tr : List (Move (Locked τ α) (τ × Action α))}
    (hs : (lockedThreads τ α).Reachable s) (hrun : (lockedThreads τ α).Run s tr t)
    (hnext : ∀ m ∈ tr, OnlyNext m) :
    tr.length ≤ Fintype.card τ * (5 * Fintype.card τ + 4) ∧ ((∃ th, t.Ready th) ∨ t.Settled) := by
  have hcons := consistent_invariant.reachable hs
  have hatt := attended_invariant.reachable hs
  have hlen := work_decreases.length_add_le (fun _ _ _ _ _ _ => trivial) hrun trivial hnext
  have hwork := work_le s
  refine ⟨by omega, ?_⟩
  by_cases hready : ∃ th, t.Ready th
  · exact .inl hready
  · exact .inr (settled_of_not_ready (consistent_invariant.preserved.run hrun hcons (by simp))
      (attended_invariant.preserved.run hrun hatt (by simp)) fun th hth => hready ⟨th, hth⟩)

/-- One thread sleeps and another is about to push; both calls come to an end. -/
theorem run_settles_handed :
    ∃ s tr t, s.point true = .asleep ∧ (lockedThreads Bool Nat).Run s tr t ∧ tr.length = 9 ∧
      t.returned = [7] ∧ tr.length ≤ Fintype.card Bool * (5 * Fintype.card Bool + 4) ∧
      ((∃ th, t.Ready th) ∨ t.Settled) := by
  obtain ⟨tr, s, tr', t, hasleep, htrue, hhanded, hnext, hlen, -, hreturned⟩ := exists_handed
  exact ⟨s, tr', t, htrue, hhanded, hlen, hreturned,
    run_settles ⟨_, tr, rfl, hasleep⟩ hhanded hnext⟩

end Locked

end SynchronizedQueue

end OneVote
