-- SUMMARY: Histories of a container: what was put in, what was handed out, what is held, and the FIFO law between them.
import Mathlib.Data.List.Basic

/-!
# Histories of a container

The container appends at the back and removes at the front. Which element a
removal *hands out* is left open, so the law also speaks about containers that
hand out another element than the one they remove.
-/

structure History (α : Type*) where
  pushed : List α
  returned : List α
  held : List α

namespace History

variable {α : Type*}

/-- No loss, no duplication, no overtaking: what was handed out, followed by
what is held, is what was put in. -/
def Fifo (h : History α) : Prop := h.returned ++ h.held = h.pushed

/-- What is held is what remains of the input after one removal for each
element handed out, whatever was handed out. -/
structure Balanced (h : History α) : Prop where
  held_eq : h.held = h.pushed.drop h.returned.length
  length_le : h.returned.length ≤ h.pushed.length

def push (h : History α) (x : α) : History α :=
  { h with pushed := h.pushed ++ [x], held := h.held ++ [x] }

/-- Hand out `x` and remove the front. -/
def take (h : History α) (x : α) : History α :=
  { h with returned := h.returned ++ [x], held := h.held.tail }

def empty : History α := ⟨[], [], []⟩

theorem empty_fifo : (empty : History α).Fifo := rfl

theorem empty_balanced : (empty : History α).Balanced := ⟨rfl, Nat.le_refl _⟩

/-! ## Pushing -/

theorem Balanced.push {h : History α} (hb : h.Balanced) (x : α) : (h.push x).Balanced where
  held_eq := by
    simp only [History.push]
    rw [List.drop_append_of_le_length hb.length_le, hb.held_eq]
  length_le := by
    have hle := hb.length_le
    simp only [History.push, List.length_append, List.length_singleton]
    omega

theorem fifo_push {h : History α} {x : α} : (h.push x).Fifo ↔ h.Fifo := by
  unfold Fifo
  simp only [History.push]
  rw [← List.append_assoc, List.append_left_inj]

/-! ## Removing -/

theorem Balanced.take {h : History α} (hb : h.Balanced) (hne : h.held ≠ []) (x : α) :
    (h.take x).Balanced where
  held_eq := by
    simp only [History.take, List.length_append, List.length_singleton]
    rw [hb.held_eq, List.tail_drop]
  length_le := by
    rw [hb.held_eq, Ne, List.drop_eq_nil_iff] at hne
    simp only [History.take, List.length_append, List.length_singleton]
    omega

theorem Balanced.fifo_iff {h : History α} (hb : h.Balanced) :
    h.Fifo ↔ h.returned = h.pushed.take h.returned.length := by
  unfold Fifo
  rw [hb.held_eq]
  constructor
  · intro heq
    have htake := congrArg (List.take h.returned.length) heq
    simpa using htake
  · intro heq
    conv_lhs => rw [heq]
    rw [List.length_take, Nat.min_eq_left hb.length_le, List.take_append_drop]

/-- A removal keeps the law exactly when it hands out the front. -/
theorem fifo_take {h : History α} (hb : h.Balanced) {x y : α} {rest : List α}
    (hheld : h.held = y :: rest) : (h.take x).Fifo ↔ h.Fifo ∧ x = y := by
  have hdrop : h.pushed.drop h.returned.length = y :: rest := hb.held_eq.symm.trans hheld
  have hne : h.held ≠ [] := by simp [hheld]
  have hget : h.pushed.take (h.returned.length + 1) =
      h.pushed.take h.returned.length ++ [y] := by
    rw [List.take_add_one, ← List.head?_drop, hdrop]
    rfl
  rw [(hb.take hne x).fifo_iff, hb.fifo_iff]
  simp only [History.take, List.length_append, List.length_singleton]
  rw [hget]
  constructor
  · intro heq
    obtain ⟨hret, hlast⟩ := List.append_inj' heq rfl
    exact ⟨hret, by simpa using hlast⟩
  · rintro ⟨hret, rfl⟩
    rw [← hret]

end History
