-- SUMMARY: Labelled transition systems: runs with their moves, reachable states, invariant and run rules, projections.
import Mathlib.Data.List.Basic

/-!
# Labelled transition systems

A system is a set of initial states and a labelled step relation. A run keeps
the moves it made, so that a statement can speak about every step of a run and
about every state it passes through.
-/

structure TransitionSystem (σ ι : Type*) where
  init : σ → Prop
  step : σ → ι → σ → Prop

namespace TransitionSystem

/-- One step of a run: the state before, the label, and the state after. -/
structure Move (σ ι : Type*) where
  pre : σ
  label : ι
  post : σ

variable {σ ι : Type*}

/-- `L.Run s tr t`: the moves `tr`, in order, lead from `s` to `t`. -/
inductive Run (L : TransitionSystem σ ι) : σ → List (Move σ ι) → σ → Prop
  | nil {s : σ} : Run L s [] s
  | snoc {s t u : σ} {tr : List (Move σ ι)} {i : ι} :
      Run L s tr t → L.step t i u → Run L s (tr ++ [⟨t, i, u⟩]) u

def Reachable (L : TransitionSystem σ ι) (s : σ) : Prop :=
  ∃ s₀ tr, L.init s₀ ∧ L.Run s₀ tr s

variable {L : TransitionSystem σ ι}

/-! ## Building runs -/

theorem Run.append {s t u : σ} {tr tr' : List (Move σ ι)}
    (h : L.Run s tr t) (h' : L.Run t tr' u) : L.Run s (tr ++ tr') u := by
  induction h' with
  | nil => simpa using h
  | snoc _ hstep ih =>
      rw [← List.append_assoc]
      exact .snoc ih hstep

theorem Run.cons {s t u : σ} {tr : List (Move σ ι)} {i : ι}
    (h : L.step s i t) (h' : L.Run t tr u) : L.Run s (⟨s, i, t⟩ :: tr) u := by
  have hone : L.Run s [⟨s, i, t⟩] t := .snoc .nil h
  exact hone.append h'

theorem Reachable.of_init {s : σ} (h : L.init s) : L.Reachable s :=
  ⟨s, [], h, .nil⟩

theorem Reachable.step {s t : σ} {i : ι} (h : L.Reachable s) (hs : L.step s i t) :
    L.Reachable t := by
  obtain ⟨s₀, tr, h₀, hrun⟩ := h
  exact ⟨s₀, _, h₀, .snoc hrun hs⟩

theorem Run.step_of_mem {s t : σ} {tr : List (Move σ ι)} (h : L.Run s tr t) :
    ∀ m ∈ tr, L.step m.pre m.label m.post := by
  induction h with
  | nil => simp
  | snoc _ hstep ih =>
      simp only [List.forall_mem_append, List.forall_mem_singleton]
      exact ⟨ih, hstep⟩

/-- The moves before a move lead to the state before it. -/
theorem Run.before {s t : σ} {tr tr' : List (Move σ ι)} {m : Move σ ι}
    (h : L.Run s (tr ++ m :: tr') t) : L.Run s tr m.pre := by
  generalize heq : tr ++ m :: tr' = all at h
  induction h generalizing tr' with
  | nil => simp at heq
  | @snoc t u tr₀ i hrun _ ih =>
      rcases List.eq_nil_or_concat tr' with rfl | ⟨tr'', last, rfl⟩
      · obtain ⟨rfl, hm⟩ := List.append_inj' heq rfl
        cases hm
        exact hrun
      · rw [List.concat_eq_append, ← List.cons_append, ← List.append_assoc] at heq
        exact ih (List.append_inj' heq rfl).1

/-- A system with more steps has every run. -/
theorem Run.mono {L' : TransitionSystem σ ι} (hstep : ∀ s i t, L.step s i t → L'.step s i t)
    {s t : σ} {tr : List (Move σ ι)} (h : L.Run s tr t) : L'.Run s tr t := by
  induction h with
  | nil => exact .nil
  | snoc _ hs ih => exact .snoc ih (hstep _ _ _ hs)

/-- A map that takes steps to steps takes runs to runs. -/
theorem Run.map {σ' ι' : Type*} {L' : TransitionSystem σ' ι'} {f : σ → σ'} {g : ι → ι'}
    (hstep : ∀ s i t, L.step s i t → L'.step (f s) (g i) (f t)) {s t : σ} {tr : List (Move σ ι)}
    (h : L.Run s tr t) : L'.Run (f s) (tr.map fun m => ⟨f m.pre, g m.label, f m.post⟩) (f t) := by
  induction h with
  | nil => exact .nil
  | snoc _ hs ih =>
      rw [List.map_append]
      exact .snoc ih (hstep _ _ _ hs)

/-! ## Rules about runs

The rules are relative to a guard `G` on moves: the assumption a group of
results makes about every step of the run, such as well-formed input. -/

/-- `P` survives every step whose move meets the guard. -/
def PreservedUnder (L : TransitionSystem σ ι) (G : Move σ ι → Prop) (P : σ → Prop) : Prop :=
  ∀ s i t, L.step s i t → G ⟨s, i, t⟩ → P s → P t

theorem PreservedUnder.run {G : Move σ ι → Prop} {P : σ → Prop} (h : L.PreservedUnder G P)
    {s t : σ} {tr : List (Move σ ι)} (hrun : L.Run s tr t) (hs : P s) (hG : ∀ m ∈ tr, G m) :
    P t := by
  induction hrun with
  | nil => exact hs
  | @snoc t u tr i _ hstep ih =>
      simp only [List.mem_append, List.mem_singleton] at hG
      exact h t i u hstep (hG _ (.inr rfl)) (ih fun m hm => hG m (.inl hm))

/-- A preserved property holds before and after every move of the run. -/
theorem PreservedUnder.moves {G : Move σ ι → Prop} {P : σ → Prop} (h : L.PreservedUnder G P)
    {s t : σ} {tr : List (Move σ ι)} (hrun : L.Run s tr t) (hs : P s) (hG : ∀ m ∈ tr, G m) :
    ∀ m ∈ tr, P m.pre ∧ P m.post := by
  induction hrun with
  | nil => simp
  | @snoc t u tr i hrun hstep ih =>
      simp only [List.mem_append, List.mem_singleton] at hG ⊢
      have ht : P t := h.run hrun hs fun m hm => hG m (.inl hm)
      rintro m (hm | rfl)
      · exact ih (fun m hm => hG m (.inl hm)) m hm
      · exact ⟨ht, h t i u hstep (hG _ (.inr rfl)) ht⟩

/-- A property that every step keeps exactly when the move meets `C`, and that
no step repairs, holds at the end of a run exactly when every move meets `C`. -/
theorem Run.post_iff {C : Move σ ι → Prop} {J P : σ → Prop}
    (hJ : L.PreservedUnder (fun _ => True) J)
    (hC : ∀ s i t, L.step s i t → J s → (P t ↔ P s ∧ C ⟨s, i, t⟩))
    {s t : σ} {tr : List (Move σ ι)} (hrun : L.Run s tr t) (hs : J s) (hP : P s) :
    P t ↔ ∀ m ∈ tr, C m := by
  induction hrun with
  | nil => simpa using hP
  | @snoc t u tr i hrun hstep ih =>
      have ht : J t := hJ.run hrun hs (by simp)
      rw [hC t i u hstep ht, ih]
      simp only [List.mem_append, List.mem_singleton]
      constructor
      · rintro ⟨hall, hlast⟩ m (hm | rfl)
        · exact hall m hm
        · exact hlast
      · intro h
        exact ⟨fun m hm => h m (.inl hm), h _ (.inr rfl)⟩

/-- A property that every step establishes exactly when the move meets `C`
holds in every state of a run exactly when every move meets `C`. -/
theorem Run.forall_post_iff {G C : Move σ ι → Prop} {J P : σ → Prop}
    (hJ : L.PreservedUnder G J)
    (hC : ∀ s i t, L.step s i t → G ⟨s, i, t⟩ → J s → P s → (P t ↔ C ⟨s, i, t⟩))
    {s t : σ} {tr : List (Move σ ι)} (hrun : L.Run s tr t) (hs : J s) (hP : P s)
    (hG : ∀ m ∈ tr, G m) :
    (∀ m ∈ tr, P m.post) ↔ ∀ m ∈ tr, C m := by
  have key : J t ∧ ((∀ m ∈ tr, P m.post) → P t) ∧
      ((∀ m ∈ tr, P m.post) ↔ ∀ m ∈ tr, C m) := by
    induction hrun with
    | nil => exact ⟨hs, fun _ => hP, by simp⟩
    | @snoc t u tr i hrun hstep ih =>
        simp only [List.mem_append, List.mem_singleton] at hG ⊢
        obtain ⟨hJt, hPt, hiff⟩ := ih fun m hm => hG m (.inl hm)
        have hGu : G ⟨t, i, u⟩ := hG _ (.inr rfl)
        refine ⟨hJ t i u hstep hGu hJt, fun h => h _ (.inr rfl), ?_, ?_⟩
        · intro h m hm
          have hall : ∀ m ∈ tr, P m.post := fun m hm => h m (.inl hm)
          rcases hm with hm | rfl
          · exact hiff.1 hall m hm
          · exact (hC t i u hstep hGu hJt (hPt hall)).1 (h _ (.inr rfl))
        · intro h m hm
          have hall : ∀ m ∈ tr, P m.post := hiff.2 fun m hm => h m (.inl hm)
          rcases hm with hm | rfl
          · exact hall m hm
          · exact (hC t i u hstep hGu hJt (hPt hall)).2 (h _ (.inr rfl))
  exact key.2.2

/-- If a property follows from an invariant that survives exactly the moves that
meet `C`, and no other move leaves the property true, it holds in every state of
a run exactly when every move meets `C`. -/
theorem Run.forall_post_iff_of {C : Move σ ι → Prop} {J P : σ → Prop}
    (hJ : L.PreservedUnder C J) (hP : ∀ s, J s → P s)
    (hC : ∀ s i t, L.step s i t → J s → P t → C ⟨s, i, t⟩)
    {s t : σ} {tr : List (Move σ ι)} (hrun : L.Run s tr t) (hs : J s) :
    (∀ m ∈ tr, P m.post) ↔ ∀ m ∈ tr, C m := by
  refine ⟨fun h => ?_, fun h m hm => hP _ (hJ.moves hrun hs h m hm).2⟩
  induction hrun with
  | nil => simp
  | @snoc t u tr i hrun hstep ih =>
      rw [List.forall_mem_append] at h ⊢
      have hall := ih h.1
      have hlast : P u := h.2 ⟨t, i, u⟩ (List.mem_singleton_self _)
      exact ⟨hall, List.forall_mem_singleton.2 (hC t i u hstep (hJ.run hrun hs hall) hlast)⟩

/-! ## Invariants of reachable states -/

structure Invariant (L : TransitionSystem σ ι) (P : σ → Prop) : Prop where
  init : ∀ s, L.init s → P s
  step : ∀ s i t, L.step s i t → P s → P t

theorem Invariant.preserved {P : σ → Prop} (h : L.Invariant P) :
    L.PreservedUnder (fun _ => True) P :=
  fun s i t hstep _ hs => h.step s i t hstep hs

theorem Invariant.reachable {P : σ → Prop} (h : L.Invariant P) {s : σ} (hs : L.Reachable s) :
    P s := by
  obtain ⟨s₀, tr, h₀, hrun⟩ := hs
  exact h.preserved.run hrun (h.init s₀ h₀) (by simp)

end TransitionSystem
