-- SUMMARY: Forward simulations between labelled transition systems, and the runs and invariants they carry over.
import OneVote.Base.TransitionSystem

/-!
# Simulations

A step of the lower system stands for one step of the upper system, or for
none: then it changes nothing that the upper system sees. A run of the lower
system stands for the run of the moves that do stand for something.
-/

namespace TransitionSystem

variable {σ σ' ι ι' : Type*}

theorem filterMap_single {κ β : Type*} (g : κ → Option β) (a : κ) :
    [a].filterMap g = (g a).toList := by
  cases h : g a <;> simp [h]

/-- `g` names the step of `A` that a move of `L` stands for, from states in `J`. -/
structure Simulation (L : TransitionSystem σ ι) (A : TransitionSystem σ' ι') (J : σ → Prop)
    (f : σ → σ') (g : Move σ ι → Option ι') : Prop where
  init : ∀ s, L.init s → A.init (f s)
  quiet : ∀ s i t, L.step s i t → J s → g ⟨s, i, t⟩ = none → f t = f s
  seen : ∀ s i t j, L.step s i t → J s → g ⟨s, i, t⟩ = some j → A.step (f s) j (f t)

/-- The upper moves that the moves of a run stand for, in order. -/
def image (f : σ → σ') (g : Move σ ι → Option ι') (tr : List (Move σ ι)) : List (Move σ' ι') :=
  tr.filterMap fun m => (g m).map fun j => ⟨f m.pre, j, f m.post⟩

section Images

variable {f : σ → σ'} {g : Move σ ι → Option ι'}

theorem image_append (tr tr' : List (Move σ ι)) :
    image f g (tr ++ tr') = image f g tr ++ image f g tr' :=
  List.filterMap_append

theorem image_quiet {m : Move σ ι} (h : g m = none) : image f g [m] = [] := by
  simp [image, h]

theorem image_seen {m : Move σ ι} {j : ι'} (h : g m = some j) :
    image f g [m] = [⟨f m.pre, j, f m.post⟩] := by
  simp [image, h]

/-- The labels of the upper run are the names of the lower moves. -/
theorem labels_image (tr : List (Move σ ι)) :
    (image f g tr).map (·.label) = tr.filterMap g := by
  induction tr with
  | nil => rfl
  | cons m tr ih =>
      have hsplit : image f g (m :: tr) = image f g [m] ++ image f g tr := image_append [m] tr
      rw [hsplit, List.map_append, ih]
      cases h : g m with
      | none => rw [image_quiet h, List.filterMap_cons_none h, List.map_nil, List.nil_append]
      | some j =>
          rw [image_seen h, List.filterMap_cons_some h]
          rfl

end Images

namespace Simulation

variable {L : TransitionSystem σ ι} {A : TransitionSystem σ' ι'} {J : σ → Prop} {f : σ → σ'}
  {g : Move σ ι → Option ι'}

theorem run (h : Simulation L A J f g) (hJ : L.PreservedUnder (fun _ => True) J) {s t : σ}
    {tr : List (Move σ ι)} (hrun : L.Run s tr t) (hs : J s) :
    A.Run (f s) (image f g tr) (f t) := by
  induction hrun with
  | nil => exact .nil
  | @snoc t u tr i hrun hstep ih =>
      have ht : J t := hJ.run hrun hs (by simp)
      rw [image_append]
      cases hg : g ⟨t, i, u⟩ with
      | none =>
          rw [image_quiet hg, List.append_nil, h.quiet t i u hstep ht hg]
          exact ih
      | some j =>
          rw [image_seen hg]
          exact .snoc ih (h.seen t i u j hstep ht hg)

end Simulation

/-! ## History variables

A simulation may need to see what a run did before. Then the lower system is run
together with a record of its labels, which no step depends on. -/

/-- The system with a record that `record` updates at every step. -/
def withHistory {η : Type*} (L : TransitionSystem σ ι) (record : η → ι → η) (h₀ : η) :
    TransitionSystem (σ × η) ι where
  init s := L.init s.1 ∧ s.2 = h₀
  step s i t := L.step s.1 i t.1 ∧ t.2 = record s.2 i

/-- Every run has a record. -/
theorem Run.withHistory {η : Type*} {L : TransitionSystem σ ι} (record : η → ι → η) (h₀ : η)
    {s t : σ} {tr : List (Move σ ι)} (hrun : L.Run s tr t) :
    ∃ tr' h, (L.withHistory record h₀).Run (s, h₀) tr' (t, h) ∧
      tr'.map (fun m => ⟨m.pre.1, m.label, m.post.1⟩) = tr := by
  induction hrun with
  | nil => exact ⟨[], h₀, .nil, rfl⟩
  | @snoc t u tr i _ hstep ih =>
      obtain ⟨tr', h, hrun', rfl⟩ := ih
      have hnext : (L.withHistory record h₀).step (t, h) i (u, record h i) := ⟨hstep, rfl⟩
      exact ⟨_, _, hrun'.snoc hnext, List.map_append⟩

/-- What the system preserves together with its record, under a guard that does
not see the record, holds at the end of a run with some record. -/
theorem Run.post_withHistory {η : Type*} {L : TransitionSystem σ ι} {record : η → ι → η} {h₀ : η}
    {G : Move σ ι → Prop} {P : σ × η → Prop}
    (hP : (L.withHistory record h₀).PreservedUnder
      (fun m => G ⟨m.pre.1, m.label, m.post.1⟩) P)
    {s t : σ} {tr : List (Move σ ι)} (hrun : L.Run s tr t) (hs : P (s, h₀)) (hG : ∀ m ∈ tr, G m) :
    ∃ h, P (t, h) := by
  obtain ⟨tr', h, hrun', rfl⟩ := hrun.withHistory record h₀
  exact ⟨h, hP.run hrun' hs (List.forall_mem_map.1 hG)⟩

end TransitionSystem
