-- SUMMARY: Balances of transition systems: what enters in a run is held at its end or has left.
import Mathlib.Algebra.BigOperators.Group.Multiset.Basic
import OneVote.Base.TransitionSystem

/-!
# Balances

A state holds a stock. If every step changes the stock by what enters and what
leaves in it, so does every run.
-/

namespace TransitionSystem

variable {σ ι α : Type*} {L : TransitionSystem σ ι} {J : σ → Prop} {stock : σ → Multiset α}
  {enters leaves : Move σ ι → Multiset α}

/-- Every step from a state in `J` balances. -/
def Balances (L : TransitionSystem σ ι) (J : σ → Prop) (stock : σ → Multiset α)
    (enters leaves : Move σ ι → Multiset α) : Prop :=
  ∀ s i t, L.step s i t → J s → stock t + leaves ⟨s, i, t⟩ = stock s + enters ⟨s, i, t⟩

theorem Balances.run (h : L.Balances J stock enters leaves)
    (hJ : L.PreservedUnder (fun _ => True) J) {s t : σ} {tr : List (Move σ ι)}
    (hrun : L.Run s tr t) (hs : J s) :
    stock t + (tr.map leaves).sum = stock s + (tr.map enters).sum := by
  induction hrun with
  | nil => rfl
  | @snoc t u tr i hrun hstep ih =>
      have hlast := h t i u hstep (hJ.run hrun hs (by simp))
      simp only [List.map_append, List.sum_append, List.map_singleton, List.sum_singleton]
      calc stock u + ((tr.map leaves).sum + leaves ⟨t, i, u⟩)
          = stock u + leaves ⟨t, i, u⟩ + (tr.map leaves).sum := by
            rw [add_comm (tr.map leaves).sum, add_assoc]
        _ = stock t + (tr.map leaves).sum + enters ⟨t, i, u⟩ := by rw [hlast, add_right_comm]
        _ = stock s + ((tr.map enters).sum + enters ⟨t, i, u⟩) := by rw [ih, add_assoc]

end TransitionSystem
