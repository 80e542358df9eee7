/-
  Simulation of one fallible computation by another.

  `Follows E R x y`: `x` ends as `y` does, with results that `R` relates or with the same error,
  or it fails with an error that `E` allows. `Follows.bind` is the rule for sequencing, `Follows.mapM`
  the one for a list. With no error allowed and equality for `R` it is equality (`Follows.eq`).
-/
import Mathlib

namespace Simulation

universe u

variable {ε : Type*} {α β α' β' : Type u}

inductive Follows (E : ε → Prop) (R : α → β → Prop) : Except ε α → Except ε β → Prop
  | ok {a : α} {b : β} : R a b → Follows E R (.ok a) (.ok b)
  | same (e : ε) : Follows E R (.error e) (.error e)
  | failed {e : ε} {y : Except ε β} : E e → Follows E R (.error e) y

variable {E : ε → Prop} {R : α → β → Prop} {S : α' → β' → Prop}

theorem Follows.refl (E : ε → Prop) (x : Except ε α) : Follows E Eq x x := by
  cases x with
  | error e => exact .same e
  | ok a => exact .ok rfl

theorem Follows.bind {x : Except ε α} {y : Except ε β} (h : Follows E R x y)
    {f : α → Except ε α'} {g : β → Except ε β'}
    (hfg : ∀ a b, R a b → Follows E S (f a) (g b)) : Follows E S (x >>= f) (y >>= g) := by
  cases h with
  | ok hab => exact hfg _ _ hab
  | same e => exact .same e
  | failed he => exact .failed he

theorem Follows.mapM {γ : Type*} {l : List γ} {f g : γ → Except ε α}
    (h : ∀ a ∈ l, Follows E Eq (f a) (g a)) : Follows E Eq (l.mapM f) (l.mapM g) := by
  induction l with
  | nil => exact .refl E _
  | cons a l ih =>
    rw [List.mapM_cons, List.mapM_cons]
    refine (h a List.mem_cons_self).bind ?_
    rintro b _ rfl
    refine (ih fun a ha => h a (List.mem_cons_of_mem _ ha)).bind ?_
    rintro bs _ rfl
    exact .refl E _

theorem Follows.eq {x y : Except ε α} (h : Follows (fun _ => False) Eq x y) : x = y := by
  cases h with
  | ok hab => rw [hab]
  | same e => rfl
  | failed he => exact he.elim

/-- A result that follows another one is that one, or an allowed error. -/
theorem Follows.eq_or_failed {x y : Except ε α} (h : Follows E Eq x y) :
    x = y ∨ ∃ e, E e ∧ x = .error e := by
  cases h with
  | ok hab => exact Or.inl (by rw [hab])
  | same e => exact Or.inl rfl
  | failed he => exact Or.inr ⟨_, he, rfl⟩

end Simulation
