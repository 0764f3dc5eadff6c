-- SUMMARY: Measures that every step of a transition system decreases: runs are short, and a system that can go on comes to its end.
import OneVote.Base.TransitionSystem

/-!
# Measures

If every step that meets the guard decreases a number, runs of such steps are no
longer than that number. If moreover there is such a step wherever a goal is not
reached, some run reaches it.
-/

namespace TransitionSystem

variable {σ ι : Type*} {L : TransitionSystem σ ι} {G : Move σ ι → Prop} {J : σ → Prop}
  {μ : σ → Nat}

/-- Every move that meets the guard decreases `μ`, from states in `J`. -/
def Decreases (L : TransitionSystem σ ι) (G : Move σ ι → Prop) (J : σ → Prop) (μ : σ → Nat) :
    Prop :=
  ∀ s i t, L.step s i t → G ⟨s, i, t⟩ → J s → μ t < μ s

theorem Decreases.length_add_le (h : L.Decreases G J μ) (hJ : L.PreservedUnder G J) {s t : σ}
    {tr : List (Move σ ι)} (hrun : L.Run s tr t) (hs : J s) (hG : ∀ m ∈ tr, G m) :
    tr.length + μ t ≤ μ s := by
  induction hrun with
  | nil => simp
  | @snoc t u tr i hrun hstep ih =>
      rw [List.forall_mem_append, List.forall_mem_singleton] at hG
      have hle := ih hG.1
      have hlt := h t i u hstep hG.2 (hJ.run hrun hs hG.1)
      rw [List.length_append, List.length_singleton]
      omega

/-- A system that can go on until it reaches `P` does reach it. -/
theorem Decreases.exists_run (h : L.Decreases G J μ) (hJ : L.PreservedUnder G J) {P : σ → Prop}
    (hnext : ∀ s, J s → ¬ P s → ∃ i t, L.step s i t ∧ G ⟨s, i, t⟩) {s : σ} (hs : J s) :
    ∃ tr t, L.Run s tr t ∧ (∀ m ∈ tr, G m) ∧ P t := by
  induction hμ : μ s using Nat.strongRecOn generalizing s with
  | _ n ih =>
      by_cases hP : P s
      · exact ⟨[], s, .nil, by simp, hP⟩
      · obtain ⟨i, t, hstep, hG⟩ := hnext s hs hP
        have hlt : μ t < n := hμ ▸ h s i t hstep hG hs
        obtain ⟨tr, u, hrun, hmoves, hu⟩ := ih (μ t) hlt (hJ s i t hstep hG hs) rfl
        exact ⟨_, u, .cons hstep hrun, List.forall_mem_cons.2 ⟨hG, hmoves⟩, hu⟩

end TransitionSystem
