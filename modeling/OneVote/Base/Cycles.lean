-- SUMMARY: Endless paths of a relation: there is one along every cycle, and one that stays in a finite set closes a cycle.
import Mathlib.Data.Fintype.Pigeonhole
import Mathlib.Data.Set.Finite.Basic
import Mathlib.Logic.Relation
import Mathlib.Order.Monotone.Basic

/-!
# Cycles

A relation that is followed from element to element either comes to an element
without a successor or goes on for ever. Among finitely many elements it goes on
only around a cycle.
-/

namespace Relation

variable {α : Type*} {r : α → α → Prop} {x : α}

/-- What lies on a cycle has a successor that lies on a cycle. -/
theorem TransGen.exists_next (h : TransGen r x x) : ∃ y, r x y ∧ TransGen r y y := by
  obtain ⟨y, hxy, hyx⟩ := TransGen.head'_iff.1 h
  exact ⟨y, hxy, TransGen.tail' hyx hxy⟩

theorem TransGen.exists_path (h : TransGen r x x) :
    ∃ f : ℕ → α, f 0 = x ∧ ∀ i, r (f i) (f (i + 1)) := by
  choose next hnext hcycle using fun y : {y // TransGen r y y} => y.2.exists_next
  let g : {y // TransGen r y y} → {y // TransGen r y y} := fun y => ⟨next y, hcycle y⟩
  refine ⟨fun i => (g^[i] ⟨x, h⟩).1, rfl, fun i => ?_⟩
  dsimp only
  rw [Function.iterate_succ_apply']
  exact hnext _

/-- A path in a finite set comes back to where it was. -/
theorem exists_cycle_of_path {f : ℕ → α} (h : ∀ i, r (f i) (f (i + 1))) {s : Set α}
    (hs : s.Finite) (hmem : ∀ i, f i ∈ s) : ∃ y, TransGen r y y := by
  have := hs.to_subtype
  let g : ℕ → s := fun i => ⟨f i, hmem i⟩
  have hcycle : ∀ i j, i < j → f i = f j → ∃ y, TransGen r y y := by
    intro i j hlt hsame
    have hpath : TransGen r (f i) (f j) :=
      Nat.rel_of_forall_rel_succ_of_lt (TransGen r) (fun n => .single (h n)) hlt
    rw [← hsame] at hpath
    exact ⟨f i, hpath⟩
  obtain ⟨i, j, hne, heq⟩ := Finite.exists_ne_map_eq_of_infinite g
  have hsame : f i = f j := congrArg Subtype.val heq
  rcases lt_or_gt_of_ne hne with hlt | hlt
  · exact hcycle i j hlt hsame
  · exact hcycle j i hlt hsame.symm

end Relation
