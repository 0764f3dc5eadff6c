-- SUMMARY: Rules for computations in `Except`: inversion, the errors that one can raise, and pairs that end alike.
import Mathlib.Data.List.Basic

universe u v w

namespace Except

variable {ε : Type u} {α β : Type v}

theorem bind_eq_ok {x : Except ε α} {f : α → Except ε β} {b : β} :
    x >>= f = .ok b ↔ ∃ a, x = .ok a ∧ f a = .ok b := by
  cases x with
  | error e => simp [bind, Except.bind]
  | ok a => simp [bind, Except.bind]

theorem pure_eq_ok {a b : α} : (pure a : Except ε α) = .ok b ↔ a = b := by
  simp [pure, Except.pure]

theorem map_eq_ok {f : α → β} {x : Except ε α} {b : β} :
    f <$> x = .ok b ↔ ∃ a, x = .ok a ∧ f a = b := by
  cases x with
  | error e => simp [Functor.map, Except.map]
  | ok a => simp [Functor.map, Except.map]

theorem ok_bind (a : α) (f : α → Except ε β) : (.ok a : Except ε α) >>= f = f a := rfl

theorem error_bind (e : ε) (f : α → Except ε β) : (.error e : Except ε α) >>= f = .error e := rfl

/-- A search in which no step fails is a search for the first answer. -/
theorem findSomeM?_map_eq_ok {γ : Type w} {f : α → Except ε (Option β)} {h : γ → α}
    {g : γ → Option β} {l : List γ} (hstep : ∀ a ∈ l, f (h a) = .ok (g a)) :
    (l.map h).findSomeM? f = .ok (l.findSome? g) := by
  induction l with
  | nil => rfl
  | cons a l ih =>
      obtain ⟨ha, hl⟩ := List.forall_mem_cons.1 hstep
      rw [List.map_cons, List.findSomeM?_cons, ha, ok_bind, List.findSome?_cons]
      cases g a with
      | none => exact ih hl
      | some b => rfl

/-! ## Errors -/

/-- Every error of the computation satisfies `P`. -/
def Raises (P : ε → Prop) (x : Except ε α) : Prop := ∀ e, x = .error e → P e

theorem raises_ok (P : ε → Prop) (a : α) : (.ok a : Except ε α).Raises P := by
  intro e h
  cases h

theorem raises_error {P : ε → Prop} {e : ε} (h : P e) : (.error e : Except ε α).Raises P := by
  intro e' h'
  cases h'
  exact h

theorem raises_error_iff {P : ε → Prop} {e : ε} : (.error e : Except ε α).Raises P ↔ P e :=
  ⟨fun h => h e rfl, raises_error⟩

theorem Raises.bind {P : ε → Prop} {x : Except ε α} {f : α → Except ε β} (hx : x.Raises P)
    (hf : ∀ a, x = .ok a → (f a).Raises P) : (x >>= f).Raises P := by
  cases x with
  | error e => exact raises_error (hx e rfl)
  | ok a => exact hf a rfl

theorem Raises.map {P : ε → Prop} {x : Except ε α} (hx : x.Raises P) (f : α → β) :
    (f <$> x).Raises P := by
  cases x with
  | error e => exact raises_error (hx e rfl)
  | ok a => exact raises_ok P (f a)

theorem raises_foldlM {P : ε → Prop} {f : β → α → Except ε β} (h : ∀ b a, (f b a).Raises P)
    (l : List α) (b : β) : (l.foldlM f b).Raises P := by
  induction l generalizing b with
  | nil => exact raises_ok P b
  | cons a rest ih =>
      rw [List.foldlM_cons]
      exact (h b a).bind fun b _ => ih b

theorem raises_findSomeM? {P : ε → Prop} {γ : Type w} {f : γ → Except ε (Option β)}
    (h : ∀ a, (f a).Raises P) (l : List γ) : (l.findSomeM? f).Raises P := by
  induction l with
  | nil => exact raises_ok P none
  | cons a l ih =>
      rw [List.findSomeM?_cons]
      refine (h a).bind fun found _ => ?_
      cases found with
      | none => exact ih
      | some b => exact raises_ok P (some b)

theorem Raises.mono {P Q : ε → Prop} {x : Except ε α} (hx : x.Raises P) (h : ∀ e, P e → Q e) :
    x.Raises Q :=
  fun e he => h e (hx e he)

/-! ## Pairs of computations -/

/-- Both computations stop with the same error, or both return, with related
results. -/
inductive Rel {α : Type v} {β : Type w} (R : α → β → Prop) : Except ε α → Except ε β → Prop
  | error (e : ε) : Rel R (.error e) (.error e)
  | ok {a : α} {b : β} : R a b → Rel R (.ok a) (.ok b)

section Rel

variable {γ δ : Type v}

theorem Rel.refl {R : α → α → Prop} (h : ∀ a, R a a) (x : Except ε α) : x.Rel R x := by
  cases x with
  | error e => exact .error e
  | ok a => exact .ok (h a)

theorem Rel.bind {R : α → γ → Prop} {S : β → δ → Prop} {x : Except ε α} {y : Except ε γ}
    {f : α → Except ε β} {g : γ → Except ε δ} (hxy : x.Rel R y)
    (hfg : ∀ a c, R a c → (f a).Rel S (g c)) : (x >>= f).Rel S (y >>= g) := by
  cases hxy with
  | error e => exact .error e
  | ok hR => exact hfg _ _ hR

/-- Two continuations of one computation. -/
theorem Rel.bind_same {S : β → δ → Prop} (x : Except ε α) {f : α → Except ε β}
    {g : α → Except ε δ} (hfg : ∀ a, x = .ok a → (f a).Rel S (g a)) :
    (x >>= f).Rel S (x >>= g) := by
  cases x with
  | error e => exact .error e
  | ok a => exact hfg a rfl

theorem Rel.eq {x y : Except ε α} (hxy : x.Rel Eq y) : x = y := by
  cases hxy with
  | error e => rfl
  | ok hR => rw [hR]

/-- What the results are may add to how they are related. -/
theorem Rel.imp {R S : α → γ → Prop} {x : Except ε α} {y : Except ε γ} (hxy : x.Rel R y)
    (h : ∀ a c, x = .ok a → y = .ok c → R a c → S a c) : x.Rel S y := by
  cases hxy with
  | error e => exact .error e
  | ok hR => exact .ok (h _ _ rfl rfl hR)

end Rel

end Except
