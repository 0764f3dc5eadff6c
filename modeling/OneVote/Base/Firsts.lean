-- SUMMARY: Lists in which only the first entry of each key counts.
import Mathlib.Data.List.Induction
import Mathlib.Data.List.Basic

/-!
# First entries

A register that takes entries one by one and refuses those whose key it has
already. What it holds is the first entry of each key, in order of arrival.
-/

namespace Firsts

variable {α κ : Type*} [DecidableEq κ] (key : α → κ)

/-- Take one more entry, unless its key is there. -/
def add (register : List α) (x : α) : List α :=
  if key x ∈ register.map key then register else register ++ [x]

/-- What a register holds after the entries `xs`. -/
def of (xs : List α) : List α := xs.foldl (add key) []

variable {key}

theorem add_of_mem {register : List α} {x : α} (h : key x ∈ register.map key) :
    add key register x = register := if_pos h

theorem add_of_not_mem {register : List α} {x : α} (h : key x ∉ register.map key) :
    add key register x = register ++ [x] := if_neg h

theorem prefix_add (register : List α) (x : α) : register <+: add key register x := by
  unfold add
  split
  · exact List.prefix_refl _
  · exact List.prefix_append _ _

theorem of_append (xs ys : List α) : of key (xs ++ ys) = ys.foldl (add key) (of key xs) :=
  List.foldl_append

theorem prefix_foldl (register ys : List α) : register <+: ys.foldl (add key) register := by
  induction ys generalizing register with
  | nil => exact List.prefix_refl _
  | cons y ys ih => exact (prefix_add register y).trans (ih _)

theorem mem_keys_add {register : List α} {x : α} {k : κ} :
    k ∈ (add key register x).map key ↔ k ∈ register.map key ∨ k = key x := by
  unfold add
  split
  · rename_i hmem
    exact (or_iff_left_of_imp fun hk => hk ▸ hmem).symm
  · rw [List.map_append, List.mem_append, List.map_singleton, List.mem_singleton]

/-- Every key that comes is in the register afterwards. -/
theorem mem_keys_foldl {register ys : List α} {k : κ} :
    k ∈ (ys.foldl (add key) register).map key ↔ k ∈ register.map key ∨ k ∈ ys.map key := by
  induction ys generalizing register with
  | nil => simp
  | cons y ys ih =>
      rw [List.foldl_cons, ih, mem_keys_add, List.map_cons, List.mem_cons, or_assoc]

theorem mem_keys_of {xs : List α} {k : κ} : k ∈ (of key xs).map key ↔ k ∈ xs.map key := by
  rw [of, mem_keys_foldl, List.map_nil, List.mem_nil_iff, false_or]

theorem find?_add (register : List α) (x : α) (k : κ) :
    (add key register x).find? (fun y => key y = k) =
      (register.find? fun y => key y = k).or (if key x = k then some x else none) := by
  unfold add
  split
  · rename_i hmem
    by_cases hk : key x = k
    · -- an entry with this key stands in the register
      obtain ⟨y, hy, hkey⟩ := List.mem_map.1 hmem
      have hsome : (register.find? fun y => key y = k).isSome :=
        List.find?_isSome.2 ⟨y, hy, by simp [hkey, hk]⟩
      rw [Option.or_of_isSome hsome]
    · rw [if_neg hk, Option.or_none]
  · rw [List.find?_append]
    by_cases hk : key x = k <;> simp [hk]

/-- The register answers for a key with the first entry that came with it. -/
theorem find?_of (xs : List α) (k : κ) :
    (of key xs).find? (fun y => key y = k) = xs.find? fun y => key y = k := by
  induction xs using List.reverseRecOn with
  | nil => rfl
  | append_singleton xs x ih =>
      rw [of_append, List.foldl_cons, List.foldl_nil, find?_add, ih, List.find?_append]
      by_cases hk : key x = k <;> simp [hk]

end Firsts
