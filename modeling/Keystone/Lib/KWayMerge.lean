/-
  Merging sorted sources through a priority queue.

  A priority queue is known by its contents up to order: `push` adds an element, `pop` takes
  out one that no other is ranked above. Nothing is said about ties, so every result holds for
  whatever choice the implementation makes among equals.

  A source is its current item and the items behind it. `merge` pops a source, yields its item
  and pushes what is left of it.

  * `merge_perm`: every item of every source is yielded exactly once.
  * `merge_sorted`: the items come out in order, if each source is in order.
-/
import Mathlib

namespace KWayMerge

/-- `less x y`: `y` is ranked above `x`. -/
structure PriorityQueue (σ : Type*) (less : σ → σ → Prop) where
  push : List σ → σ → List σ
  pop : List σ → Option (σ × List σ)
  push_perm : ∀ h x, (push h x).Perm (x :: h)
  pop_nil : pop [] = none
  pop_cons : ∀ h, h ≠ [] →
    ∃ x h', pop h = some (x, h') ∧ h.Perm (x :: h') ∧ ∀ y ∈ h', ¬ less x y

/-! ## A queue kept as a plain list -/

section ListQueue

variable {σ : Type*} {less : σ → σ → Prop} [DecidableRel less]

/-- Take out an element that no other is ranked above, the first of them. -/
def popList (less : σ → σ → Prop) [DecidableRel less] : List σ → Option (σ × List σ)
  | [] => none
  | x :: l =>
    match popList less l with
    | none => some (x, [])
    | some (y, l') => if less x y then some (y, x :: l') else some (x, y :: l')

theorem popList_spec (hasym : ∀ x y, less x y → ¬ less y x)
    (htrans : ∀ x y z, ¬ less x y → ¬ less y z → ¬ less x z) (h : List σ) (hne : h ≠ []) :
    ∃ x h', popList less h = some (x, h') ∧ h.Perm (x :: h') ∧ ∀ y ∈ h', ¬ less x y := by
  induction h with
  | nil => exact absurd rfl hne
  | cons x l ih =>
    cases l with
    | nil => exact ⟨x, [], rfl, List.Perm.refl _, by simp⟩
    | cons z l =>
      obtain ⟨y, l', hp, hperm, hmax⟩ := ih (by simp)
      rw [popList, hp]
      dsimp only
      by_cases hxy : less x y
      · rw [if_pos hxy]
        refine ⟨y, x :: l', rfl, (hperm.cons x).trans (List.Perm.swap y x l'), fun w hw => ?_⟩
        rcases List.mem_cons.1 hw with rfl | hw
        · exact hasym w y hxy
        · exact hmax w hw
      · rw [if_neg hxy]
        refine ⟨x, y :: l', rfl, hperm.cons x, fun w hw => ?_⟩
        rcases List.mem_cons.1 hw with rfl | hw
        · exact hxy
        · exact htrans x y w hxy (hmax w hw)

/-- The plain list as a priority queue. -/
def listQueue (hasym : ∀ x y, less x y → ¬ less y x)
    (htrans : ∀ x y z, ¬ less x y → ¬ less y z → ¬ less x z) : PriorityQueue σ less where
  push h x := x :: h
  pop := popList less
  push_perm _ _ := List.Perm.refl _
  pop_nil := rfl
  pop_cons := popList_spec hasym htrans

end ListQueue

/-! ## Merging -/

variable {α : Type*} {before : α → α → Prop}

/-- The ranking of sources: the one whose item comes first is on top. -/
def Lower (before : α → α → Prop) (x y : α × List α) : Prop := before y.1 x.1

/-- A source, if it has an item. -/
def source : List α → Option (α × List α)
  | [] => none
  | a :: l => some (a, l)

/-- The queue with all sources that have an item. -/
def start (pq : PriorityQueue (α × List α) (Lower before)) (sources : List (List α)) :
    List (α × List α) :=
  (sources.filterMap source).foldl pq.push []

/-- Pop a source, take its item, push what is left. -/
def step (pq : PriorityQueue (α × List α) (Lower before)) (heap : List (α × List α)) :
    Option (α × List (α × List α)) :=
  match pq.pop heap with
  | none => none
  | some ((a, l), h) =>
    match source l with
    | none => some (a, h)
    | some src => some (a, pq.push h src)

/-- The items in the order they are yielded; `fuel` bounds their number. -/
def merge (pq : PriorityQueue (α × List α) (Lower before)) : Nat → List (α × List α) → List α
  | 0, _ => []
  | fuel + 1, heap =>
    match step pq heap with
    | none => []
    | some (a, h) => a :: merge pq fuel h

/-- All items in a queue. -/
def items (heap : List (α × List α)) : List α := heap.flatMap fun src => src.1 :: src.2

theorem items_perm {h h' : List (α × List α)} (hp : h.Perm h') : (items h).Perm (items h') :=
  hp.flatMap_right _

section Spec

variable (pq : PriorityQueue (α × List α) (Lower before))

theorem step_nil : step pq [] = none := by
  rw [step, pq.pop_nil]

/-- One step takes out an item that no other item of a source's front comes before. -/
theorem step_spec {heap : List (α × List α)} (hne : heap ≠ []) :
    ∃ a h, step pq heap = some (a, h) ∧ (items heap).Perm (a :: items h) ∧
      ∃ l h', heap.Perm ((a, l) :: h') ∧ (∀ y ∈ h', ¬ before y.1 a) ∧
        h.Perm ((source l).toList ++ h') := by
  obtain ⟨⟨a, l⟩, h', hpop, hperm, hmax⟩ := pq.pop_cons heap hne
  have hitems : (items heap).Perm (a :: (l ++ items h')) := items_perm hperm
  rw [step, hpop]
  cases l with
  | nil =>
    exact ⟨a, h', rfl, hitems, [], h', hperm, hmax, List.Perm.refl _⟩
  | cons b l =>
    refine ⟨a, pq.push h' (b, l), rfl, hitems.trans (List.Perm.cons a ?_), b :: l, h', hperm, hmax,
      pq.push_perm _ _⟩
    exact (items_perm (pq.push_perm h' (b, l))).symm

theorem merge_perm {fuel : Nat} {heap : List (α × List α)} (hf : (items heap).length ≤ fuel) :
    (merge pq fuel heap).Perm (items heap) := by
  induction fuel generalizing heap with
  | zero =>
    have : items heap = [] := List.length_eq_zero_iff.1 (by omega)
    rw [this]
    exact List.Perm.refl _
  | succ fuel ih =>
    cases heap with
    | nil => rw [merge, step_nil pq]; exact List.Perm.refl _
    | cons src heap =>
      obtain ⟨a, h, hstep, hperm, -⟩ := step_spec pq (List.cons_ne_nil src heap)
      rw [merge, hstep]
      have hlen := hperm.length_eq
      rw [List.length_cons] at hlen
      exact (List.Perm.cons a (ih (by omega))).trans hperm.symm

/-- All items in the order they are yielded. -/
def mergeAll (pq : PriorityQueue (α × List α) (Lower before)) (heap : List (α × List α)) : List α :=
  merge pq (items heap).length heap

theorem mergeAll_nil : mergeAll pq [] = [] := rfl

theorem mergeAll_cons {heap h : List (α × List α)} {a : α} (hs : step pq heap = some (a, h)) :
    mergeAll pq heap = a :: mergeAll pq h ∧ (items heap).length = (items h).length + 1 := by
  have hne : heap ≠ [] := by
    rintro rfl
    rw [step_nil pq] at hs
    simp at hs
  obtain ⟨a', h', hs', hperm, -⟩ := step_spec pq hne
  obtain ⟨rfl, rfl⟩ : a' = a ∧ h' = h := by simpa [hs] using hs'.symm
  have hlen := hperm.length_eq
  rw [List.length_cons] at hlen
  refine ⟨?_, hlen⟩
  rw [mergeAll, hlen, merge, hs]
  rfl

theorem step_eq_none {heap : List (α × List α)} (hs : step pq heap = none) : heap = [] := by
  by_contra hne
  obtain ⟨a, h, hs', -⟩ := step_spec pq hne
  rw [hs] at hs'
  simp at hs'

/-- Every source of the queue is in order. -/
def SourcesSorted (before : α → α → Prop) (heap : List (α × List α)) : Prop :=
  ∀ src ∈ heap, (src.1 :: src.2).Pairwise fun a b => ¬ before b a

theorem merge_sorted (htrans : ∀ a b c, ¬ before b a → ¬ before c b → ¬ before c a)
    {fuel : Nat} {heap : List (α × List α)} (hf : (items heap).length ≤ fuel)
    (hs : SourcesSorted before heap) :
    (merge pq fuel heap).Pairwise fun a b => ¬ before b a := by
  induction fuel generalizing heap with
  | zero => exact List.Pairwise.nil
  | succ fuel ih =>
    cases heap with
    | nil => rw [merge, step_nil pq]; exact List.Pairwise.nil
    | cons src heap =>
      obtain ⟨a, h, hstep, hperm, l, h', hheap, hmax, hh⟩ :=
        step_spec pq (List.cons_ne_nil src heap)
      have hlen := hperm.length_eq
      rw [List.length_cons] at hlen
      have hal : (a :: l).Pairwise fun a b => ¬ before b a :=
        hs (a, l) (hheap.mem_iff.2 (by simp))
      have hs' : SourcesSorted before h := by
        intro y hy
        rcases List.mem_append.1 (hh.mem_iff.1 hy) with hy | hy
        · cases l with
          | nil => simp [source] at hy
          | cons b l =>
            obtain rfl : y = (b, l) := by simpa [source] using hy
            exact (List.pairwise_cons.1 hal).2
        · exact hs y (hheap.mem_iff.2 (List.mem_cons_of_mem _ hy))
      rw [merge, hstep, List.pairwise_cons]
      refine ⟨fun b hb => ?_, ih (by omega) hs'⟩
      -- what is yielded later is behind the item of some source in the new queue
      rw [(merge_perm pq (by omega : (items h).length ≤ fuel)).mem_iff, items,
        List.mem_flatMap] at hb
      obtain ⟨y, hy, hby⟩ := hb
      have hfront : ¬ before y.1 a := by
        rcases List.mem_append.1 (hh.mem_iff.1 hy) with hy | hy
        · cases l with
          | nil => simp [source] at hy
          | cons c l =>
            obtain rfl : y = (c, l) := by simpa [source] using hy
            exact (List.pairwise_cons.1 hal).1 c (by simp)
        · exact hmax y hy
      rcases List.mem_cons.1 hby with rfl | hby
      · exact hfront
      · exact htrans a y.1 b hfront ((List.pairwise_cons.1 (hs' y hy)).1 b hby)

theorem start_perm (sources : List (List α)) :
    (start pq sources).Perm (sources.filterMap source) := by
  have h : ∀ (srcs : List (α × List α)) (heap : List (α × List α)),
      (srcs.foldl pq.push heap).Perm (srcs ++ heap) := by
    intro srcs
    induction srcs with
    | nil => intro heap; exact List.Perm.refl _
    | cons src srcs ih =>
      intro heap
      rw [List.foldl_cons]
      exact (ih _).trans (((pq.push_perm heap src).append_left srcs).trans List.perm_middle)
  have := h (sources.filterMap source) []
  rwa [List.append_nil] at this

theorem items_start (sources : List (List α)) :
    (items (start pq sources)).Perm sources.flatten := by
  refine (items_perm (start_perm pq sources)).trans ?_
  induction sources with
  | nil => exact List.Perm.refl _
  | cons l sources ih =>
    cases l with
    | nil =>
      rw [List.filterMap_cons_none rfl, List.flatten_cons, List.nil_append]
      exact ih
    | cons a l =>
      rw [List.filterMap_cons_some (show source (a :: l) = some (a, l) from rfl),
        List.flatten_cons]
      exact List.Perm.append_left (a :: l) ih

theorem sourcesSorted_start {sources : List (List α)}
    (hs : ∀ l ∈ sources, l.Pairwise fun a b => ¬ before b a) :
    SourcesSorted before (start pq sources) := by
  intro src hsrc
  obtain ⟨l, hl, hsl⟩ := List.mem_filterMap.1 ((start_perm pq sources).mem_iff.1 hsrc)
  cases l with
  | nil => simp [source] at hsl
  | cons a l =>
    obtain rfl : (a, l) = src := by simpa [source] using hsl
    exact hs (a :: l) hl

end Spec

end KWayMerge
