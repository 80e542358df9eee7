/-
  Runs of a partial step function.

  `run step` takes a sequence of events from a state; `Meets step P` says that every step of the
  sequence meets `P`, a condition on the state before it. `run_trace` carries an invariant of the
  state and of the events so far through a whole run, `run_invariant` one of the state alone;
  `run_simulates` is the rule for a simulation by a step relation, `run_projects` for one by
  a part of the state;
  `run_invariant_iff` is for a condition that is also necessary for the next step. `count` is the
  number of steps of one kind, and `count_le` bounds it by a weight that they use up.
  `Inevitable` says that whatever events of a kind are taken, a state is reached; it is shown by a
  measure (`inevitable_of_measure`) and refuted by an invariant (`not_inevitable`).
-/
import Mathlib

namespace Steps

variable {σ ε : Type*}

/-- The whole sequence of steps; `none` if one of them cannot be taken. -/
def run (step : σ → ε → Option σ) : σ → List ε → Option σ
  | s, [] => some s
  | s, ev :: evs => (step s ev).bind fun s => run step s evs

/-- Every step of the run meets `P`. -/
def Meets (step : σ → ε → Option σ) (P : σ → ε → Prop) : σ → List ε → Prop
  | _, [] => True
  | s, ev :: evs => P s ev ∧ ∀ s', step s ev = some s' → Meets step P s' evs

instance decidableMeets (step : σ → ε → Option σ) (P : σ → ε → Prop)
    [∀ s ev, Decidable (P s ev)] : (s : σ) → (evs : List ε) → Decidable (Meets step P s evs)
  | _, [] => isTrue trivial
  | s, ev :: evs =>
    have : Decidable (∀ s', step s ev = some s' → Meets step P s' evs) :=
      match h : step s ev with
      | none => isTrue fun s' hs' => by simp at hs'
      | some s₁ =>
        have := decidableMeets step P s₁ evs
        decidable_of_iff (Meets step P s₁ evs)
          ⟨fun hm s' hs' => Option.some.inj hs' ▸ hm, fun hm => hm s₁ rfl⟩
    inferInstanceAs (Decidable (_ ∧ _))

variable {step : σ → ε → Option σ} {P Q : σ → ε → Prop} {s s' : σ} {evs evs' : List ε}

theorem run_append : run step s (evs ++ evs') = (run step s evs).bind fun s => run step s evs' := by
  induction evs generalizing s with
  | nil => rfl
  | cons ev evs ih =>
    show (step s ev).bind (fun s => run step s (evs ++ evs')) = _
    simp only [ih, run, Option.bind_assoc]

theorem Meets.of_forall (h : ∀ s ev, P s ev) : Meets step P s evs := by
  induction evs generalizing s with
  | nil => trivial
  | cons ev evs ih => exact ⟨h s ev, fun s' _ => ih⟩

/-- A condition on the events alone. -/
theorem Meets.of_mem {Q : ε → Prop} (h : ∀ ev ∈ evs, Q ev) :
    Meets step (fun _ ev => Q ev) s evs := by
  induction evs generalizing s with
  | nil => trivial
  | cons ev evs ih =>
    exact ⟨h ev List.mem_cons_self, fun s' _ => ih fun ev' h' => h ev' (List.mem_cons_of_mem ev h')⟩

theorem Meets.forall_mem {Q : ε → Prop} (h : Meets step (fun _ ev => Q ev) s evs)
    (hrun : run step s evs = some s') : ∀ ev ∈ evs, Q ev := by
  induction evs generalizing s with
  | nil => simp
  | cons ev evs ih =>
    obtain ⟨s₁, h1, hrest⟩ := Option.bind_eq_some_iff.1 hrun
    exact List.forall_mem_cons.2 ⟨h.1, ih (h.2 s₁ h1) hrest⟩

theorem Meets.and (hP : Meets step P s evs) (hQ : Meets step Q s evs) :
    Meets step (fun s ev => P s ev ∧ Q s ev) s evs := by
  induction evs generalizing s with
  | nil => trivial
  | cons ev evs ih => exact ⟨⟨hP.1, hQ.1⟩, fun s' h => ih (hP.2 s' h) (hQ.2 s' h)⟩

/-- The two parts of a run. -/
theorem Meets.split (h : Meets step P s (evs ++ evs')) :
    Meets step P s evs ∧ ∀ s', run step s evs = some s' → Meets step P s' evs' := by
  induction evs generalizing s with
  | nil => exact ⟨trivial, fun s' hrun => Option.some.inj hrun ▸ h⟩
  | cons ev evs ih =>
    refine ⟨⟨h.1, fun s₁ h1 => (ih (h.2 s₁ h1)).1⟩, fun s' hrun => ?_⟩
    obtain ⟨s₁, h1, hrest⟩ := Option.bind_eq_some_iff.1 hrun
    exact (ih (h.2 s₁ h1)).2 s' hrest

theorem Meets.append (h : Meets step P s evs)
    (h' : ∀ s', run step s evs = some s' → Meets step P s' evs') : Meets step P s (evs ++ evs') := by
  induction evs generalizing s with
  | nil => exact h' s rfl
  | cons ev evs ih =>
    refine ⟨h.1, fun s₁ h1 => ih (h.2 s₁ h1) fun s' hrun => h' s' ?_⟩
    rw [run, h1]
    exact hrun

/-- What every step that meets `P` keeps, of the state and of the events so far, a whole run
    keeps. -/
theorem run_trace {I : σ → List ε → Prop}
    (hstep : ∀ s past ev s', I s past → P s ev → step s ev = some s' → I s' (past ++ [ev]))
    {past : List ε} (hI : I s past) (hP : Meets step P s evs) (hrun : run step s evs = some s') :
    I s' (past ++ evs) := by
  induction evs generalizing s past with
  | nil =>
    rw [List.append_nil]
    exact Option.some.inj hrun ▸ hI
  | cons ev evs ih =>
    obtain ⟨s₁, h1, hrest⟩ := Option.bind_eq_some_iff.1 hrun
    have h := ih (hstep s past ev s₁ hI hP.1 h1) (hP.2 s₁ h1) hrest
    rwa [List.append_assoc] at h

theorem run_invariant {I : σ → Prop}
    (hstep : ∀ s ev s', I s → P s ev → step s ev = some s' → I s') (hI : I s)
    (hP : Meets step P s evs) (hrun : run step s evs = some s') : I s' :=
  @run_trace σ ε step P s s' evs (fun s _ => I s) (fun s _ ev s' => hstep s ev s') [] hI hP hrun

/-- The runs of a step relation. -/
def Leads {τ : Type*} (R : τ → ε → τ → Prop) : τ → List ε → τ → Prop
  | t, [], t' => t' = t
  | t, ev :: evs, t' => ∃ t₁, R t ev t₁ ∧ Leads R t₁ evs t'

/-- If every step that meets `P` is followed by one of `R`, so is a whole run. -/
theorem run_simulates {τ : Type*} {R : τ → ε → τ → Prop} {I : σ → τ → Prop}
    (hstep : ∀ s t ev s', I s t → P s ev → step s ev = some s' → ∃ t', R t ev t' ∧ I s' t') {t : τ}
    (hI : I s t) (hP : Meets step P s evs) (hrun : run step s evs = some s') :
    ∃ t', Leads R t evs t' ∧ I s' t' := by
  induction evs generalizing s t with
  | nil => exact ⟨t, rfl, Option.some.inj hrun ▸ hI⟩
  | cons ev evs ih =>
    obtain ⟨s₁, h1, hrest⟩ := Option.bind_eq_some_iff.1 hrun
    obtain ⟨t₁, hR, hI₁⟩ := hstep s t ev s₁ hI hP.1 h1
    obtain ⟨t', hl, hI'⟩ := ih hI₁ (hP.2 s₁ h1) hrest
    exact ⟨t', ⟨t₁, hR, hl⟩, hI'⟩

/-- If every step is one of another machine on a part of the state, or leaves that part as it is,
    then a run is a run of that machine. -/
theorem run_projects {τ δ : Type*} {step' : τ → δ → Option τ} (f : σ → τ)
    (hstep : ∀ s ev s', step s ev = some s' → f s' = f s ∨ ∃ ev', step' (f s) ev' = some (f s'))
    (hrun : run step s evs = some s') : ∃ evs', run step' (f s) evs' = some (f s') := by
  induction evs generalizing s with
  | nil => exact ⟨[], Option.some.inj hrun ▸ rfl⟩
  | cons ev evs ih =>
    obtain ⟨s₁, h1, hrest⟩ := Option.bind_eq_some_iff.1 hrun
    obtain ⟨evs', hevs⟩ := ih hrest
    rcases hstep s ev s₁ h1 with he | ⟨ev', hev⟩
    · exact ⟨evs', he ▸ hevs⟩
    · exact ⟨ev' :: evs', by rw [run, hev, Option.bind_some, hevs]⟩

/-- If a step that meets `P` keeps the invariant, which gives `J`, and any other step loses `J`,
    then `J` holds in every state of a run exactly if every step of the run meets `P`. -/
theorem run_invariant_iff {I J : σ → Prop} (hJ : ∀ s, I s → J s)
    (hkeep : ∀ s ev s', I s → step s ev = some s' → P s ev → I s')
    (hlose : ∀ s ev s', I s → step s ev = some s' → J s' → P s ev) (hI : I s)
    (hrun : run step s evs = some s') :
    (∀ past rest t, evs = past ++ rest → run step s past = some t → J t) ↔ Meets step P s evs := by
  induction evs generalizing s with
  | nil =>
    refine iff_of_true (fun past rest t hsplit ht => ?_) trivial
    obtain ⟨rfl, -⟩ := List.append_eq_nil_iff.1 hsplit.symm
    exact Option.some.inj ht ▸ hJ s hI
  | cons ev evs ih =>
    obtain ⟨s₁, h1, hrest⟩ := Option.bind_eq_some_iff.1 hrun
    have hone : run step s [ev] = some s₁ := by rw [run, h1]; rfl
    constructor
    · intro h
      have hP : P s ev := hlose s ev s₁ hI h1 (h [ev] evs s₁ rfl hone)
      refine ⟨hP, fun s₂ h2 => ?_⟩
      obtain rfl := Option.some.inj (h1.symm.trans h2)
      refine (ih (hkeep s ev s₁ hI h1 hP) hrest).1 fun past rest t hsplit ht => ?_
      refine h (ev :: past) rest t (congrArg (ev :: ·) hsplit) ?_
      rw [run, h1]
      exact ht
    · rintro ⟨hP, hM⟩ past rest t hsplit ht
      cases past with
      | nil => exact Option.some.inj ht ▸ hJ s hI
      | cons e past =>
        obtain ⟨rfl, htail⟩ := List.cons.inj hsplit
        rw [run, h1] at ht
        exact (ih (hkeep s _ s₁ hI h1 hP) hrest).2 (hM s₁ h1) past rest t htail ht

/-- How many of the steps are of the kind `c`. -/
def count (step : σ → ε → Option σ) (c : σ → ε → Bool) : σ → List ε → Nat
  | _, [] => 0
  | s, ev :: evs =>
    match step s ev with
    | none => 0
    | some s' => (if c s ev then 1 else 0) + count step c s' evs

/-- If the steps of the kind `c` lower a bound and no other step raises it, there are at most as
    many of them as the bound at the start. -/
theorem count_le_of {c : σ → ε → Bool} {I : σ → Nat → Prop}
    (hstep : ∀ s n ev s', I s n → P s ev → step s ev = some s' →
      ∃ n', I s' n' ∧ n' + (if c s ev then 1 else 0) ≤ n) {n : Nat}
    (hI : I s n) (hP : Meets step P s evs) : count step c s evs ≤ n := by
  induction evs generalizing s n with
  | nil => exact Nat.zero_le _
  | cons ev evs ih =>
    rw [count]
    cases hs : step s ev with
    | none => exact Nat.zero_le _
    | some s' =>
      obtain ⟨n', hI', hw⟩ := hstep s n ev s' hI hP.1 hs
      have hrest := ih hI' (hP.2 s' hs)
      simp only
      omega

/-- The rule for a bound that the state gives. -/
theorem count_le {c : σ → ε → Bool} {I : σ → Prop} (weight : σ → Nat)
    (hstep : ∀ s ev s', I s → P s ev → step s ev = some s' →
      I s' ∧ weight s' + (if c s ev then 1 else 0) ≤ weight s)
    (hI : I s) (hP : Meets step P s evs) : count step c s evs ≤ weight s := by
  refine count_le_of (I := fun s n => I s ∧ n = weight s) (fun s n ev s' h hPs hs => ?_)
    ⟨hI, rfl⟩ hP
  obtain ⟨hI', hw⟩ := hstep s ev s' h.1 hPs hs
  exact ⟨weight s', ⟨hI', rfl⟩, h.2 ▸ hw⟩

/-- Every sequence of events of `E` comes to a state with `Q`: it holds here, or some event of `E`
    can be taken and all that can lead to such a state again. -/
inductive Inevitable (step : σ → ε → Option σ) (E : ε → Prop) (Q : σ → Prop) : σ → Prop
  | here {s : σ} : Q s → Inevitable step E Q s
  | later {s : σ} : (∃ ev s', E ev ∧ step s ev = some s') →
      (∀ ev s', E ev → step s ev = some s' → Inevitable step E Q s') → Inevitable step E Q s

section Inevitable

variable {E : ε → Prop} {Q R I : σ → Prop}

theorem Inevitable.trans (h : Inevitable step E Q s) (hQ : ∀ t, Q t → Inevitable step E R t) :
    Inevitable step E R s := by
  induction h with
  | here h => exact hQ _ h
  | later hcan _ ih => exact .later hcan ih

theorem inevitable_of_measure (m : σ → Nat)
    (hcan : ∀ s, I s → ∃ ev s', E ev ∧ step s ev = some s')
    (hstep : ∀ s ev s', I s → E ev → step s ev = some s' → Q s' ∨ I s' ∧ m s' < m s) (hI : I s) :
    Inevitable step E Q s := by
  induction hm : m s using Nat.strong_induction_on generalizing s with
  | _ n ih =>
    refine .later (hcan s hI) fun ev s' hev hs => ?_
    rcases hstep s ev s' hI hev hs with hQ | ⟨hI', hlt⟩
    · exact .here hQ
    · exact ih (m s') (hm ▸ hlt) hI' rfl

theorem not_inevitable (hQ : ∀ s, I s → ¬ Q s)
    (hstep : ∀ s ev s', I s → E ev → step s ev = some s' → I s') (hI : I s) :
    ¬ Inevitable step E Q s := by
  intro h
  induction h with
  | here h => exact hQ _ hI h
  | later hcan _ ih =>
    obtain ⟨ev, s', hev, hs⟩ := hcan
    exact ih ev s' hev hs (hstep _ ev s' hI hev hs)

end Inevitable

end Steps
