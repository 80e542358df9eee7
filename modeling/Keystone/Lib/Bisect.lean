/-
  Bisection over an index range with a predicate that is true on an initial part of it.

  `lastTrue p` is the loop "`while (lo + 1 < hi)`: move `lo` up on a hit, `hi` down on a miss";
  `firstFalse p` is the half-interval loop of `std::upper_bound`. The specifications say which
  index each of them returns: the last hit, and the first miss.
-/
import Mathlib

namespace Bisect

/-- The last index in `[lo, hi)` at which `p` holds; `fuel` bounds the turns. -/
def lastTrue (p : Nat → Prop) [DecidablePred p] : Nat → Nat → Nat → Nat
  | 0, lo, _ => lo
  | fuel + 1, lo, hi =>
    if lo + 1 < hi then
      let mid := lo + (hi - lo) / 2
      if p mid then lastTrue p fuel mid hi else lastTrue p fuel lo mid
    else lo

/-- The first index of `[first, first + len)` at which `p` fails, or its end. -/
def firstFalse (p : Nat → Prop) [DecidablePred p] : Nat → Nat → Nat → Nat
  | 0, first, _ => first
  | fuel + 1, first, len =>
    if 0 < len then
      let half := len / 2
      let mid := first + half
      if p mid then firstFalse p fuel (mid + 1) (len - half - 1) else firstFalse p fuel first half
    else first

variable {p : Nat → Prop} [DecidablePred p]

/-- `p` holds on an initial part of `[0, n)`. -/
def Initial (p : Nat → Prop) (n : Nat) : Prop := ∀ i j, i ≤ j → j < n → p j → p i

theorem lastTrue_lt {fuel lo hi : Nat} (h : lo < hi) : lastTrue p fuel lo hi < hi := by
  induction fuel generalizing lo hi with
  | zero => exact h
  | succ fuel ih =>
    rw [lastTrue]
    split
    · dsimp only
      split
      · exact ih (by omega)
      · exact (ih (by omega)).trans (by omega)
    · exact h

theorem lastTrue_spec {n : Nat} (hp : Initial p n) {fuel lo hi : Nat} (hf : hi - lo ≤ fuel)
    (hlt : lo < hi) (hn : hi ≤ n) (hlo : p lo) (hhi : ∀ i, hi ≤ i → i < n → ¬ p i) :
    lastTrue p fuel lo hi < n ∧ p (lastTrue p fuel lo hi) ∧
      ∀ i, lastTrue p fuel lo hi < i → i < n → ¬ p i := by
  induction fuel generalizing lo hi with
  | zero => omega
  | succ fuel ih =>
    rw [lastTrue]
    by_cases h : lo + 1 < hi
    · rw [if_pos h]
      dsimp only
      by_cases hm : p (lo + (hi - lo) / 2)
      · rw [if_pos hm]
        exact ih (by omega) (by omega) hn hm hhi
      · rw [if_neg hm]
        refine ih (by omega) (by omega) (by omega) hlo fun i hi1 hi2 hpi => ?_
        exact hm (hp _ i hi1 hi2 hpi)
    · rw [if_neg h]
      exact ⟨by omega, hlo, fun i hi1 hi2 => hhi i (by omega) hi2⟩

theorem firstFalse_spec {n : Nat} (hp : Initial p n) {fuel first len : Nat} (hf : len ≤ fuel)
    (hn : first + len ≤ n) (hlo : ∀ i, i < first → p i)
    (hhi : ∀ i, first + len ≤ i → i < n → ¬ p i) :
    firstFalse p fuel first len ≤ n ∧ (∀ i, i < firstFalse p fuel first len → p i) ∧
      ∀ i, firstFalse p fuel first len ≤ i → i < n → ¬ p i := by
  induction fuel generalizing first len with
  | zero =>
    have : len = 0 := by omega
    subst this
    exact ⟨hn, hlo, hhi⟩
  | succ fuel ih =>
    rw [firstFalse]
    by_cases h : 0 < len
    · rw [if_pos h]
      dsimp only
      by_cases hm : p (first + len / 2)
      · rw [if_pos hm]
        refine ih (by omega) (by omega) (fun i hi => ?_) (fun i hi1 hi2 => hhi i (by omega) hi2)
        exact hp i (first + len / 2) (by omega) (by omega) hm
      · rw [if_neg hm]
        refine ih (by omega) (by omega) hlo fun i hi1 hi2 hpi => ?_
        exact hm (hp _ i hi1 hi2 hpi)
    · rw [if_neg h]
      have : len = 0 := by omega
      subst this
      exact ⟨hn, hlo, hhi⟩

end Bisect
