-- SUMMARY: Containers that hand out what was put in last: what a history of uses hands out, and what it never hands out.
import Mathlib.Data.List.Basic

/-!
# The latest element

A container hands out, at each removal, the element that was put in last, and
keeps it. An element is handed out only while no other one was put in after it.
-/

inductive Use (α : Type*)
  | put (x : α)
  | take

namespace Use

variable {α : Type*}

def latest : Option α → List (Use α) → Option α
  | x?, [] => x?
  | _, .put x :: us => latest (some x) us
  | x?, .take :: us => latest x? us

/-- What the removals hand out, in order, from the latest element `x?` on. -/
def handouts : Option α → List (Use α) → List α
  | _, [] => []
  | _, .put x :: us => handouts (some x) us
  | x?, .take :: us => x?.toList ++ handouts x? us

/-- The next use is a removal. -/
def TakesNext : List (Use α) → Prop
  | .take :: _ => True
  | _ => False

instance (us : List (Use α)) : Decidable (TakesNext us) :=
  match us with
  | .take :: _ => .isTrue trivial
  | .put _ :: _ => .isFalse id
  | [] => .isFalse id

/-- What is put in and is still the latest element at the next use, a removal. -/
def survivors : List (Use α) → List α
  | [] => []
  | .put x :: us => if TakesNext us then x :: survivors us else survivors us
  | .take :: us => survivors us

/-! ## Uses at the end of a history -/

theorem latest_put (x? : Option α) (us : List (Use α)) (x : α) :
    latest x? (us ++ [.put x]) = some x := by
  induction us generalizing x? with
  | nil => rfl
  | cons u us ih => cases u <;> exact ih _

theorem latest_take (x? : Option α) (us : List (Use α)) :
    latest x? (us ++ [.take]) = latest x? us := by
  induction us generalizing x? with
  | nil => rfl
  | cons u us ih => cases u <;> exact ih _

theorem handouts_put (x? : Option α) (us : List (Use α)) (x : α) :
    handouts x? (us ++ [.put x]) = handouts x? us := by
  induction us generalizing x? with
  | nil => rfl
  | cons u us ih =>
      cases u with
      | put y => exact ih _
      | take => exact congrArg (x?.toList ++ ·) (ih _)

theorem handouts_take (x? : Option α) (us : List (Use α)) :
    handouts x? (us ++ [.take]) = handouts x? us ++ (latest x? us).toList := by
  induction us generalizing x? with
  | nil => simp [handouts, latest]
  | cons u us ih =>
      cases u with
      | put y => exact ih _
      | take =>
          rw [List.cons_append, handouts, handouts, ih, List.append_assoc]
          rfl

/-! ## What is handed out -/

theorem survivors_put (x : α) (us : List (Use α)) (y : α) :
    y ∈ survivors (.put x :: us) ↔ y ∈ survivors us ∨ x = y ∧ TakesNext us := by
  rw [survivors]
  split
  · rename_i hnext
    simp only [hnext, and_true, List.mem_cons]
    constructor
    · rintro (rfl | hy)
      · exact .inr rfl
      · exact .inl hy
    · rintro (hy | rfl)
      · exact .inr hy
      · exact .inl rfl
  · rename_i hnext
    simp [hnext]

/-- What is handed out is exactly what survives, and the element that was there
before, when a removal comes first. -/
theorem mem_handouts {x? : Option α} {us : List (Use α)} {y : α} :
    y ∈ handouts x? us ↔ y ∈ survivors us ∨ x? = some y ∧ TakesNext us := by
  induction us generalizing x? with
  | nil => simp [handouts, survivors, TakesNext]
  | cons u us ih =>
      cases u with
      | put x =>
          rw [handouts, ih, survivors_put]
          simp [TakesNext]
      | take =>
          rw [handouts, List.mem_append, ih, survivors]
          simp only [Option.mem_toList, TakesNext, and_true]
          tauto

end Use
