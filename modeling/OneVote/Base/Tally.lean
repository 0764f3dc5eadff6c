-- SUMMARY: Stacks of sheets with no key on two sheets, and the set of all keys kept beside such a stack.
import Mathlib.Data.Finset.Basic
import Mathlib.Data.Finset.Lattice.Lemmas
import Mathlib.Data.List.Nodup

/-!
# Tallies

A tally is a stack of sheets, newest first, on which no key stands on two
sheets. A set of the keys kept beside the stack can be maintained sheet by
sheet: a removed sheet takes exactly its own keys with it. What a single sheet
repeats is its own affair.
-/

@[ext] structure Tally (κ : Type*) where
  sheets : List (List κ)
  disjoint : sheets.Pairwise List.Disjoint

namespace Tally

variable {κ : Type*} [DecidableEq κ]

def empty : Tally κ := ⟨[], .nil⟩

def keys (t : Tally κ) : Finset κ := t.sheets.flatten.toFinset

theorem mem_keys {t : Tally κ} {k : κ} : k ∈ t.keys ↔ ∃ l ∈ t.sheets, k ∈ l := by
  simp [keys]

/-- Put a sheet of new keys on top. -/
def add (t : Tally κ) (l : List κ) (h : ∀ k ∈ l, k ∉ t.keys) : Tally κ where
  sheets := l :: t.sheets
  disjoint := by
    refine List.pairwise_cons.2 ⟨fun l' hl' k hk hk' => ?_, t.disjoint⟩
    exact h k hk (mem_keys.2 ⟨l', hl', hk'⟩)

/-- Take the `n` newest sheets away. -/
def discard (t : Tally κ) (n : Nat) : Tally κ where
  sheets := t.sheets.drop n
  disjoint := t.disjoint.sublist (List.drop_sublist n t.sheets)

theorem keys_add (t : Tally κ) (l : List κ) (h : ∀ k ∈ l, k ∉ t.keys) :
    (t.add l h).keys = t.keys ∪ l.toFinset := by
  simp only [keys, add, List.flatten_cons, List.toFinset_append, Finset.union_comm]

theorem keys_discard (t : Tally κ) (n : Nat) :
    (t.discard n).keys = t.keys \ (t.sheets.take n).flatten.toFinset := by
  have hpair : (t.sheets.take n ++ t.sheets.drop n).Pairwise List.Disjoint := by
    rw [List.take_append_drop]
    exact t.disjoint
  obtain ⟨-, -, hcross⟩ := List.pairwise_append.1 hpair
  ext k
  have hmem : (∃ l ∈ t.sheets, k ∈ l) ↔
      (∃ l ∈ t.sheets.take n, k ∈ l) ∨ ∃ l ∈ t.sheets.drop n, k ∈ l := by
    conv_lhs => rw [← List.take_append_drop n t.sheets]
    simp only [List.mem_append, or_and_right, exists_or]
  simp only [mem_keys, Finset.mem_sdiff, List.mem_toFinset, List.mem_flatten, discard, hmem]
  constructor
  · intro h
    rcases h with ⟨l, hl, hk⟩
    refine ⟨.inr ⟨l, hl, hk⟩, ?_⟩
    intro h
    rcases h with ⟨l', hl', hk'⟩
    exact hcross l' hl' l hl hk' hk
  · intro h
    rcases h with ⟨htaken | hkept, hnot⟩
    · exact absurd htaken hnot
    · exact hkept

/-! ## Positions

A position is a sheet and a place on it. -/

section Positions

omit [DecidableEq κ]

def at? (t : Tally κ) (i j : Nat) : Option κ := t.sheets[i]?.bind (·[j]?)

theorem at?_eq_some {t : Tally κ} {i j : Nat} {k : κ} :
    t.at? i j = some k ↔ ∃ l, t.sheets[i]? = some l ∧ l[j]? = some k := by
  simp [at?, Option.bind_eq_some_iff]

/-- Two positions of one key are on one sheet. -/
theorem sheet_unique {t : Tally κ} {i j i' j' : Nat} {k : κ} (h : t.at? i j = some k)
    (h' : t.at? i' j' = some k) : i = i' := by
  obtain ⟨l, hl, hk⟩ := at?_eq_some.1 h
  obtain ⟨l', hl', hk'⟩ := at?_eq_some.1 h'
  obtain ⟨hi, rfl⟩ := List.getElem?_eq_some_iff.1 hl
  obtain ⟨hi', rfl⟩ := List.getElem?_eq_some_iff.1 hl'
  have hmem := List.mem_of_getElem? hk
  have hmem' := List.mem_of_getElem? hk'
  have hpair := List.pairwise_iff_getElem.1 t.disjoint
  rcases Nat.lt_trichotomy i i' with hlt | heq | hlt
  · exact absurd hmem' (hpair i i' hi hi' hlt hmem)
  · exact heq
  · exact absurd hmem (hpair i' i hi' hi hlt hmem')

/-- Every key has one position exactly when no sheet repeats a key. -/
theorem unique_iff (t : Tally κ) :
    (∀ i j i' j' k, t.at? i j = some k → t.at? i' j' = some k → i = i' ∧ j = j') ↔
      ∀ l ∈ t.sheets, l.Nodup := by
  constructor
  · intro h l hl
    obtain ⟨i, hi⟩ := List.getElem?_of_mem hl
    rw [List.nodup_iff_getElem?_ne_getElem?]
    intro j j' hjj' hj' heq
    obtain ⟨k, hk'⟩ : ∃ k, l[j']? = some k := ⟨l[j'], List.getElem?_eq_getElem hj'⟩
    have hk : l[j]? = some k := heq.trans hk'
    have hsame := h i j i j' k (at?_eq_some.2 ⟨l, hi, hk⟩) (at?_eq_some.2 ⟨l, hi, hk'⟩)
    exact Nat.ne_of_lt hjj' hsame.2
  · intro h i j i' j' k hk hk'
    obtain rfl : i = i' := sheet_unique hk hk'
    obtain ⟨l, hl, hj⟩ := at?_eq_some.1 hk
    obtain ⟨l', hl', hj'⟩ := at?_eq_some.1 hk'
    obtain rfl : l = l' := Option.some.inj (hl.symm.trans hl')
    have hnodup : l.Nodup := h l (List.mem_of_getElem? hl)
    have hlt : j < l.length := (List.getElem?_eq_some_iff.1 hj).1
    exact ⟨rfl, (List.getElem?_inj hlt hnodup).1 (hj.trans hj'.symm)⟩

end Positions

/-! ## Sets updated one key at a time -/

theorem foldl_insert_eq {α : Type*} (f : α → κ) (l : List α) (s : Finset κ) :
    l.foldl (fun s a => insert (f a) s) s = s ∪ (l.map f).toFinset := by
  induction l generalizing s with
  | nil => simp
  | cons a l ih =>
      rw [List.foldl_cons, ih]
      simp only [List.map_cons, List.toFinset_cons, Finset.insert_union, Finset.union_insert]

theorem foldl_erase_eq {α : Type*} (f : α → κ) (l : List α) (s : Finset κ) :
    l.foldl (fun s a => s.erase (f a)) s = s \ (l.map f).toFinset := by
  induction l generalizing s with
  | nil => simp
  | cons a l ih =>
      rw [List.foldl_cons, ih]
      ext k
      simp only [Finset.mem_sdiff, Finset.mem_erase, List.map_cons, List.toFinset_cons,
        Finset.mem_insert, not_or]
      tauto

end Tally
