/-
  Threads asleep on a condition variable.

  A monitor has a shared state and a set of threads asleep, each waiting for a condition of its
  own on the state. A section under the lock changes the state and notifies none, one or all of
  the threads asleep; which one `notify_one` wakes is open. A thread may also wake up for no
  reason. `Silent` says that no thread sleeps through its condition; the rules say what a section
  must do to keep it.
-/
import Mathlib

namespace Monitor

/-- What a section does before it leaves. -/
inductive Signal where
  | none
  | one
  | all
  deriving DecidableEq

/-- No thread sleeps through its condition. -/
def Silent {σ τ : Type*} (cond : τ → σ → Prop) (s : σ) (asleep : Finset τ) : Prop :=
  ∀ t ∈ asleep, ¬ cond t s

variable {σ τ : Type*} {cond : τ → σ → Prop} {s s' : σ} {asleep asleep' : Finset τ}

theorem Silent.mono (h : Silent cond s asleep) (hsub : asleep' ⊆ asleep) : Silent cond s asleep' :=
  fun t ht => h t (hsub ht)

/-- A section that makes no condition true needs to notify nobody. -/
theorem Silent.quiet (h : Silent cond s asleep) (hs : ∀ t ∈ asleep, cond t s' → cond t s) :
    Silent cond s' asleep := fun t ht hc => h t ht (hs t ht hc)

variable [DecidableEq τ] {woken : Option τ}

/-- A thread falls asleep. -/
theorem Silent.insert (h : Silent cond s asleep) {t : τ} (ht : ¬ cond t s) :
    Silent cond s (insert t asleep) := by
  intro u hu
  rcases Finset.mem_insert.1 hu with rfl | hu
  · exact ht
  · exact h u hu

/-- The threads that sleep on; `woken` is the one that `notify_one` picks, if there is any. -/
def notify (asleep : Finset τ) (woken : Option τ) : Signal → Option (Finset τ)
  | .none => some asleep
  | .one =>
    match woken with
    | Option.none => if asleep = ∅ then some ∅ else Option.none
    | some t => if t ∈ asleep then some (asleep.erase t) else Option.none
  | .all => some ∅

theorem notify_one_inv (h : notify asleep woken .one = some asleep') :
    (asleep = ∅ ∧ asleep' = ∅) ∨ ∃ t ∈ asleep, asleep' = asleep.erase t := by
  simp only [notify] at h
  split at h
  · split at h
    · rename_i he
      exact Or.inl ⟨he, (Option.some.inj h).symm⟩
    · exact absurd h (by simp)
  · split at h
    · rename_i t ht
      exact Or.inr ⟨t, ht, (Option.some.inj h).symm⟩
    · exact absurd h (by simp)

theorem notify_subset {signal : Signal} (h : notify asleep woken signal = some asleep') :
    asleep' ⊆ asleep := by
  cases signal with
  | none => exact (Option.some.inj h) ▸ Finset.Subset.refl _
  | one =>
    rcases notify_one_inv h with ⟨-, rfl⟩ | ⟨t, -, rfl⟩
    · exact Finset.empty_subset _
    · exact Finset.erase_subset t asleep
  | all => exact (Option.some.inj h) ▸ Finset.empty_subset _

/-- Some choice of the thread to wake is possible. -/
theorem exists_notify (asleep : Finset τ) (signal : Signal) :
    ∃ woken asleep', notify asleep woken signal = some asleep' := by
  cases signal with
  | none => exact ⟨Option.none, asleep, rfl⟩
  | one =>
    rcases asleep.eq_empty_or_nonempty with he | ⟨t, ht⟩
    · exact ⟨Option.none, ∅, if_pos he⟩
    · exact ⟨some t, asleep.erase t, if_pos ht⟩
  | all => exact ⟨Option.none, ∅, rfl⟩

/-- A section that notifies all may make any condition true. -/
theorem silent_all (h : notify asleep woken .all = some asleep') : Silent cond s asleep' := by
  obtain rfl := Option.some.inj h
  exact fun t ht => absurd ht (Finset.notMem_empty t)

/-- A section that notifies one may do so where no other thread is asleep than the one it means. -/
theorem silent_one {t : τ} (hone : asleep ⊆ {t}) (h : notify asleep woken .one = some asleep') :
    Silent cond s asleep' := by
  have hempty : asleep' = ∅ := by
    rcases notify_one_inv h with ⟨-, rfl⟩ | ⟨u, hu, rfl⟩
    · rfl
    · obtain rfl := Finset.mem_singleton.1 (hone hu)
      rw [Finset.Subset.antisymm hone (Finset.singleton_subset_iff.2 hu), Finset.erase_singleton]
  rw [hempty]
  exact fun t ht => absurd ht (Finset.notMem_empty t)

end Monitor
