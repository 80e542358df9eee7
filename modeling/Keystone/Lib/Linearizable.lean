/-
  Linearizability by linearization points.

  A trace is a list of marks: an operation is called, takes effect, returns. What callers see of
  it, the history, leaves out where an operation takes effect. A history is linearizable if some
  order of its operations is a run of the sequential object that gives the same responses and
  does not contradict real time; operations that have not returned may be in it or not.

  `Pointed.linearizable`: if each operation takes effect once, after it was called and before it
  returns, and the effects in their order are a run of the sequential object, then the history
  is linearizable, by that order.
-/
import Mathlib

namespace Linearizable

/-- What callers see: operation `id` is called, or returns. -/
inductive Act (ι ω ρ : Type*) where
  | call (id : ι) (op : ω)
  | ret (id : ι) (res : ρ)

/-- A trace also shows when an operation takes effect, and with which response. -/
inductive Mark (ι ω ρ : Type*) where
  | call (id : ι) (op : ω)
  | point (id : ι) (res : ρ)
  | ret (id : ι) (res : ρ)

variable {ι ω ρ σ : Type*}

def Mark.act : Mark ι ω ρ → Option (Act ι ω ρ)
  | call id op => some (.call id op)
  | point _ _ => none
  | ret id res => some (.ret id res)

/-- The history of a trace. -/
def history (t : List (Mark ι ω ρ)) : List (Act ι ω ρ) := t.filterMap Mark.act

/-- An operation with its response. -/
structure Done (ι ω ρ : Type*) where
  id : ι
  op : ω
  res : ρ

/-- A run of the sequential object `spec` from `s` to `s'`. -/
def Legal (spec : σ → ω → ρ → σ → Prop) : σ → List (Done ι ω ρ) → σ → Prop
  | s, [], s' => s = s'
  | s, d :: ds, s' => ∃ s₁, spec s d.op d.res s₁ ∧ Legal spec s₁ ds s'

theorem Legal.concat {spec : σ → ω → ρ → σ → Prop} {s s₁ s' : σ} {ds : List (Done ι ω ρ)}
    {d : Done ι ω ρ} (h : Legal spec s ds s₁) (hd : spec s₁ d.op d.res s') :
    Legal spec s (ds ++ [d]) s' := by
  induction ds generalizing s with
  | nil =>
    obtain rfl := h
    exact ⟨s', hd, rfl⟩
  | cons d₀ ds ih =>
    obtain ⟨s₂, h₂, hrest⟩ := h
    exact ⟨s₂, h₂, ih hrest⟩

/-- `order` is a sequential run with the calls and responses of the history `h`, and an operation
    that returned before another was called comes before it. -/
structure IsLinearization (spec : σ → ω → ρ → σ → Prop) (init : σ) (h : List (Act ι ω ρ))
    (order : List (Done ι ω ρ)) : Prop where
  legal : ∃ s, Legal spec init order s
  once : (order.map Done.id).Nodup
  called : ∀ d ∈ order, .call d.id d.op ∈ h
  complete : ∀ id res, .ret id res ∈ h → ∃ d ∈ order, d.id = id ∧ d.res = res
  realTime : ∀ d ∈ order, ∀ e ∈ order, [Act.ret d.id d.res, .call e.id e.op].Sublist h →
    [d, e].Sublist order

/-- Some order of the operations is a linearization. -/
def IsLinearizable (spec : σ → ω → ρ → σ → Prop) (init : σ) (h : List (Act ι ω ρ)) : Prop :=
  ∃ order, IsLinearization spec init h order

/-! ## Points -/

/-- The trace keeps the rules: an operation is called once, takes effect at most once, after it
    was called and as the object in its present state may, and returns what it had as its
    effect. `s` is the state of the object after the effects so far. -/
inductive Pointed (spec : σ → ω → ρ → σ → Prop) (init : σ) : List (Mark ι ω ρ) → σ → Prop
  | nil : Pointed spec init [] init
  | call {t : List (Mark ι ω ρ)} {s : σ} {id : ι} {op : ω} (h : Pointed spec init t s)
      (hnew : ∀ op', .call id op' ∉ t) : Pointed spec init (t ++ [.call id op]) s
  | point {t : List (Mark ι ω ρ)} {s s' : σ} {id : ι} {op : ω} {res : ρ}
      (h : Pointed spec init t s) (hcall : .call id op ∈ t) (hnew : ∀ r, .point id r ∉ t)
      (heff : spec s op res s') : Pointed spec init (t ++ [.point id res]) s'
  | ret {t : List (Mark ι ω ρ)} {s : σ} {id : ι} {res : ρ} (h : Pointed spec init t s)
      (hpoint : .point id res ∈ t) : Pointed spec init (t ++ [.ret id res]) s

theorem mem_history {t : List (Mark ι ω ρ)} :
    (∀ id op, Act.call id op ∈ history t ↔ .call id op ∈ t) ∧
      ∀ id res, Act.ret id res ∈ history t ↔ .ret id res ∈ t := by
  refine ⟨fun id op => ⟨fun h => ?_, fun h => List.mem_filterMap.2 ⟨_, h, rfl⟩⟩,
    fun id res => ⟨fun h => ?_, fun h => List.mem_filterMap.2 ⟨_, h, rfl⟩⟩⟩ <;>
  · obtain ⟨m, hm, he⟩ := List.mem_filterMap.1 h
    cases m <;> simp only [Mark.act, Option.some.injEq, reduceCtorEq] at he
    cases he
    exact hm

theorem history_concat (t : List (Mark ι ω ρ)) (m : Mark ι ω ρ) :
    history (t ++ [m]) = history t ++ m.act.toList := by
  rw [history, List.filterMap_append]
  cases m <;> rfl

theorem sublist_concat {α : Type*} {x y z : α} {l : List α} (h : [x, y].Sublist (l ++ [z])) :
    [x, y].Sublist l ∨ (x ∈ l ∧ y = z) := by
  obtain ⟨l₁, l₂, he, h₁, h₂⟩ := List.sublist_append_iff.1 h
  rcases List.sublist_singleton.1 h₂ with rfl | rfl
  · rw [List.append_nil] at he
    exact Or.inl (he ▸ h₁)
  · obtain ⟨rfl, hyz⟩ := List.append_inj' (show [x] ++ [y] = l₁ ++ [z] from he) rfl
    exact Or.inr ⟨h₁.subset List.mem_cons_self, List.singleton_inj.1 hyz⟩

/-- The order of the points, with what ties it to the trace. -/
structure Ordered (spec : σ → ω → ρ → σ → Prop) (init : σ) (t : List (Mark ι ω ρ)) (s : σ)
    (order : List (Done ι ω ρ)) : Prop where
  legal : Legal spec init order s
  once : (order.map Done.id).Nodup
  called : ∀ d ∈ order, .call d.id d.op ∈ t
  points : ∀ id res, .point id res ∈ t ↔ ∃ d ∈ order, d.id = id ∧ d.res = res
  returned : ∀ id res, .ret id res ∈ t → .point id res ∈ t
  realTime : ∀ d ∈ order, ∀ e ∈ order, [Act.ret d.id d.res, .call e.id e.op].Sublist (history t) →
    [d, e].Sublist order

namespace Ordered

variable {spec : σ → ω → ρ → σ → Prop} {init s s' : σ} {t : List (Mark ι ω ρ)}
  {order : List (Done ι ω ρ)} {id : ι} {op : ω} {res : ρ}

theorem call (h : Ordered spec init t s order) (hnew : ∀ op', .call id op' ∉ t) :
    Ordered spec init (t ++ [.call id op]) s order where
  legal := h.legal
  once := h.once
  called d hd := List.mem_append_left _ (h.called d hd)
  points id' res' := by simp [h.points id' res']
  returned id' res' hm := by
    simp only [List.mem_append, List.mem_singleton, reduceCtorEq, or_false] at hm ⊢
    exact h.returned id' res' hm
  realTime d hd e he hsub := by
    rw [history_concat] at hsub
    rcases sublist_concat hsub with hsub | ⟨-, heq⟩
    · exact h.realTime d hd e he hsub
    · -- what is in the order was called before
      obtain ⟨rfl, -⟩ := Act.call.inj heq
      exact absurd (h.called e he) (hnew e.op)

theorem point (h : Ordered spec init t s order) (hcall : .call id op ∈ t)
    (hnew : ∀ r, .point id r ∉ t) (heff : spec s op res s') :
    Ordered spec init (t ++ [.point id res]) s' (order ++ [⟨id, op, res⟩]) where
  legal := h.legal.concat heff
  once := by
    rw [List.map_append, List.map_singleton, List.nodup_append_comm, List.singleton_append,
      List.nodup_cons]
    refine ⟨fun hmem => ?_, h.once⟩
    obtain ⟨d, hd, hid⟩ := List.mem_map.1 hmem
    exact hnew d.res ((h.points _ _).2 ⟨d, hd, hid, rfl⟩)
  called d hd := by
    refine List.mem_append_left _ ?_
    rcases List.mem_append.1 hd with hd | hd
    · exact h.called d hd
    · rw [List.mem_singleton.1 hd]
      exact hcall
  points id' res' := by
    simp only [List.mem_append, h.points id' res', List.mem_singleton, Mark.point.injEq, or_and_right,
      exists_or, exists_eq_left]
    refine or_congr Iff.rfl ⟨fun he => ⟨he.1.symm, he.2.symm⟩, fun he => ⟨he.1.symm, he.2.symm⟩⟩
  returned id' res' hm := by
    simp only [List.mem_append, List.mem_singleton, reduceCtorEq, or_false] at hm
    exact List.mem_append_left _ (h.returned id' res' hm)
  realTime d hd e he hsub := by
    rw [history_concat, Mark.act, Option.toList_none, List.append_nil] at hsub
    have hret : Mark.ret d.id d.res ∈ t :=
      (mem_history.2 d.id d.res).1 (hsub.subset List.mem_cons_self)
    -- what has returned took effect before
    have hd' : d ∈ order := by
      refine (List.mem_append.1 hd).resolve_right fun hlast => ?_
      rw [List.mem_singleton.1 hlast] at hret
      exact hnew res (h.returned id res hret)
    rcases List.mem_append.1 he with he | he
    · exact (h.realTime d hd' e he hsub).trans (List.sublist_append_left _ _)
    · rw [List.mem_singleton.1 he]
      exact (List.singleton_sublist.2 hd').append (List.Sublist.refl [_])

theorem ret (h : Ordered spec init t s order) (hpoint : .point id res ∈ t) :
    Ordered spec init (t ++ [.ret id res]) s order where
  legal := h.legal
  once := h.once
  called d hd := List.mem_append_left _ (h.called d hd)
  points id' res' := by simp [h.points id' res']
  returned id' res' hm := by
    refine List.mem_append_left _ ?_
    rcases List.mem_append.1 hm with hm | hm
    · exact h.returned id' res' hm
    · obtain ⟨rfl, rfl⟩ := Mark.ret.inj (List.mem_singleton.1 hm)
      exact hpoint
  realTime d hd e he hsub := by
    rw [history_concat] at hsub
    rcases sublist_concat hsub with hsub | ⟨-, heq⟩
    · exact h.realTime d hd e he hsub
    · cases heq

end Ordered

/-- **Linearization points give a linearization.** -/
theorem Pointed.linearizable {spec : σ → ω → ρ → σ → Prop} {init s : σ} {t : List (Mark ι ω ρ)}
    (h : Pointed spec init t s) : IsLinearizable spec init (history t) := by
  have hord : ∃ order, Ordered spec init t s order := by
    induction h with
    | nil => exact ⟨[], rfl, List.nodup_nil, by simp, by simp, by simp, by simp⟩
    | call _ hnew ih =>
      obtain ⟨order, ho⟩ := ih
      exact ⟨order, ho.call hnew⟩
    | point _ hcall hnew heff ih =>
      obtain ⟨order, ho⟩ := ih
      exact ⟨_, ho.point hcall hnew heff⟩
    | ret _ hpoint ih =>
      obtain ⟨order, ho⟩ := ih
      exact ⟨order, ho.ret hpoint⟩
  obtain ⟨order, ho⟩ := hord
  refine ⟨order, ⟨s, ho.legal⟩, ho.once, fun d hd => ?_, fun id res hret => ?_, ho.realTime⟩
  · exact (mem_history.1 d.id d.op).2 (ho.called d hd)
  · exact (ho.points id res).1 (ho.returned id res ((mem_history.2 id res).1 hret))

end Linearizable
