/-
  Skip lists over an arena of nodes.

  Node 0 is the head; node `x` points at level `i` to `fwd s x i`. A search descends from the
  top level, going right while the next item is `less`; an insertion links a new node of a
  given height behind the nodes where the search left each level.

  `Wf s ids` says that `s` represents the nodes `ids` in this order: the level-`i` list runs
  through exactly those of height above `i`, so every level is a sublist of the one below it.
  With a predicate that holds on an initial part of the list,

  * `search_spec`: the search ends in front of the first item that is not `less`;
  * `insert_wf`: the insertion puts the new node there, whatever its height.
-/
import Mathlib

namespace SkipList

variable {α : Type*}

structure Node (α : Type*) where
  item : α
  forward : List (Option Nat)

/-- The arena and the number of levels in use. -/
structure Skip (α : Type*) where
  nodes : List (Node α)
  height : Nat

/-- The pointer of node `x` at level `i`. -/
def fwd (s : Skip α) (x i : Nat) : Option Nat := (s.nodes[x]?.bind fun n => n.forward[i]?).join

def itemAt (s : Skip α) (x : Nat) : Option α := s.nodes[x]?.map Node.item

def heightOf (s : Skip α) (x : Nat) : Nat := (s.nodes[x]?.map fun n => n.forward.length).getD 0

/-- A list with `maxHeight` levels and no items; `a` fills the head's unused item. -/
def empty (a : α) (maxHeight : Nat) : Skip α := ⟨[⟨a, List.replicate maxHeight none⟩], 1⟩

/-- Go right at level `i` while the next item is `less`. -/
def walk (s : Skip α) (less : α → Bool) (i : Nat) : Nat → Nat → Nat
  | 0, x => x
  | fuel + 1, x =>
    match fwd s x i with
    | none => x
    | some y => if (itemAt s y).any less then walk s less i fuel y else x

/-- Descend from level `i - 1` to level 0; the nodes where each level was left, level 0
    first. -/
def descend (s : Skip α) (less : α → Bool) : Nat → Nat → List Nat
  | 0, _ => []
  | i + 1, x =>
    let x' := walk s less i s.nodes.length x
    descend s less i x' ++ [x']

/-- The array `update` of an insertion; levels not in use keep the head. -/
def update (s : Skip α) (less : α → Bool) (i : Nat) : Nat := (descend s less s.height 0).getD i 0

/-- The first node that is not `less`. -/
def search (s : Skip α) (less : α → Bool) : Option Nat := fwd s (update s less 0) 0

def setFwd (s : Skip α) (x i : Nat) (p : Option Nat) : Skip α :=
  { s with nodes := s.nodes.modify x fun n => { n with forward := n.forward.set i p } }

/-- Splice node `id` in behind `u` at level `i`. -/
def link (s : Skip α) (id u i : Nat) : Skip α :=
  setFwd (setFwd s id i (fwd s u i)) u i (some id)

def insert (s : Skip α) (less : α → Bool) (a : α) (lvl : Nat) : Skip α :=
  let u := update s less
  let id := s.nodes.length
  let s' : Skip α := ⟨s.nodes ++ [⟨a, List.replicate lvl none⟩], max s.height lvl⟩
  (List.range lvl).foldl (fun s i => link s id (u i) i) s'

/-- The items from node `x` on along level 0. -/
def itemsFrom (s : Skip α) : Nat → Option Nat → List α
  | 0, _ => []
  | _, none => []
  | fuel + 1, some x =>
    match itemAt s x with
    | none => []
    | some a => a :: itemsFrom s fuel (fwd s x 0)

/-- All items. -/
def toList (s : Skip α) : List α := itemsFrom s s.nodes.length (fwd s 0 0)

/-- The nodes from `x` on along level `i`. -/
def nodesFrom (s : Skip α) (i : Nat) : Nat → Option Nat → List Nat
  | 0, _ => []
  | _, none => []
  | fuel + 1, some x => x :: nodesFrom s i fuel (fwd s x i)

/-- The level-`i` list. -/
def levelNodes (s : Skip α) (i : Nat) : List Nat := nodesFrom s i s.nodes.length (fwd s 0 i)

/-- Go along level 0 while the item is as `p` says. -/
def skipWhile (s : Skip α) (p : α → Bool) : Nat → Option Nat → Option Nat
  | 0, x => x
  | _, none => none
  | fuel + 1, some x => if (itemAt s x).any p then skipWhile s p fuel (fwd s x 0) else some x

/-! ## Level lists -/

/-- The level-`i` pointers from `x` on run through exactly `l`. -/
def Chain (s : Skip α) (i : Nat) : Nat → List Nat → Prop
  | x, [] => fwd s x i = none
  | x, y :: l => fwd s x i = some y ∧ Chain s i y l

theorem Chain.tail {s : Skip α} {i x y : Nat} {l r : List Nat} (h : Chain s i x (l ++ y :: r)) :
    Chain s i y r := by
  induction l generalizing x with
  | nil => exact h.2
  | cons z l ih => exact ih h.2

theorem Chain.congr {s s' : Skip α} {i x : Nat} {l : List Nat} (h : Chain s i x l)
    (he : ∀ y ∈ x :: l, fwd s' y i = fwd s y i) : Chain s' i x l := by
  induction l generalizing x with
  | nil => exact (he x (by simp)).trans h
  | cons y l ih =>
    exact ⟨(he x (by simp)).trans h.1, ih h.2 fun z hz => he z (List.mem_cons_of_mem x hz)⟩

theorem getLastD_mem_cons (l : List Nat) (x : Nat) : l.getLastD x ∈ x :: l := by
  cases l with
  | nil => simp
  | cons y l =>
    rw [List.getLastD_eq_getLast?, List.getLast?_eq_some_getLast (by simp)]
    exact List.mem_cons_of_mem x (List.getLast_mem _)

/-- A walk along a level goes through its `less` part. -/
theorem walk_chain {s : Skip α} {less : α → Bool} {i x : Nat} {l r : List Nat}
    (h : Chain s i x (l ++ r)) (hl : ∀ y ∈ l, (itemAt s y).any less = true)
    (hr : ∀ y ∈ r, (itemAt s y).any less = false) {fuel : Nat} (hf : l.length < fuel) :
    walk s less i fuel x = l.getLastD x ∧ Chain s i (l.getLastD x) r := by
  induction l generalizing x fuel with
  | nil =>
    obtain ⟨f, rfl⟩ : ∃ f, fuel = f + 1 := ⟨fuel - 1, by simp at hf; omega⟩
    refine ⟨?_, h⟩
    cases r with
    | nil =>
      have hn : fwd s x i = none := h
      simp [walk, hn]
    | cons y r =>
      have hn : fwd s x i = some y := h.1
      simp [walk, hn, hr y (by simp)]
  | cons y l ih =>
    obtain ⟨f, rfl⟩ : ∃ f, fuel = f + 1 := ⟨fuel - 1, by simp at hf; omega⟩
    have hn : fwd s x i = some y := h.1
    obtain ⟨h1, h2⟩ := ih h.2 (fun z hz => hl z (List.mem_cons_of_mem y hz))
      (by simp at hf; omega : l.length < f)
    have hd : (y :: l).getLastD x = l.getLastD y := by cases l <;> rfl
    rw [walk, hn]
    simp only [hl y (by simp), if_true]
    rw [hd]
    exact ⟨h1, h2⟩

/-- Splicing a node into a level. -/
theorem Chain.splice {s s' : Skip α} {i x id : Nat} {l r : List Nat}
    (h : Chain s i x (l ++ r)) (hnd : (x :: (l ++ r)).Nodup)
    (hu : fwd s' (l.getLastD x) i = some id) (hid : fwd s' id i = fwd s (l.getLastD x) i)
    (he : ∀ y ∈ x :: (l ++ r), y ≠ l.getLastD x → fwd s' y i = fwd s y i) :
    Chain s' i x (l ++ id :: r) := by
  induction l generalizing x with
  | nil =>
    refine ⟨hu, ?_⟩
    rw [List.nil_append, List.nodup_cons] at hnd
    cases r with
    | nil => exact hid.trans h
    | cons y r =>
      refine ⟨hid.trans h.1, Chain.congr h.2 fun z hz => he z (List.mem_cons_of_mem x hz) ?_⟩
      rintro rfl
      exact hnd.1 hz
  | cons y l ih =>
    have hd : (y :: l).getLastD x = l.getLastD y := by cases l <;> rfl
    rw [hd] at hu hid he
    rw [List.cons_append, List.nodup_cons] at hnd
    refine ⟨?_, ih h.2 hnd.2 hu hid fun z hz => he z (List.mem_cons_of_mem x hz)⟩
    rw [he x (by simp), h.1]
    rintro rfl
    have hm := getLastD_mem_cons l y
    apply hnd.1
    rcases List.mem_cons.1 hm with hm | hm
    · rw [hm]
      exact List.mem_cons_self ..
    · exact List.mem_cons_of_mem y (List.mem_append_left r hm)

/-! ## The represented list -/

/-- `s` represents the nodes `ids`, in this order, with levels `0 .. maxHeight - 1`. -/
structure Wf (s : Skip α) (maxHeight : Nat) (ids : List Nat) : Prop where
  nodup : ids.Nodup
  pos : ∀ y ∈ ids, 0 < y
  lt : ∀ y ∈ ids, y < s.nodes.length
  count : ids.length < s.nodes.length
  heights : ∀ y ∈ ids, 1 ≤ heightOf s y ∧ heightOf s y ≤ s.height
  height : 1 ≤ s.height ∧ s.height ≤ maxHeight
  head : heightOf s 0 = maxHeight
  chain : ∀ i, i < maxHeight → Chain s i 0 (ids.filter fun y => i < heightOf s y)

theorem wf_empty (a : α) {maxHeight : Nat} (h : 1 ≤ maxHeight) :
    Wf (empty a maxHeight) maxHeight [] where
  nodup := List.nodup_nil
  pos := by simp
  lt := by simp
  count := by simp [empty]
  heights := by simp
  height := ⟨le_rfl, h⟩
  head := by simp [heightOf, empty]
  chain i hi := by simp [Chain, fwd, empty, hi]

/-- The last node of `l` on level `i`, or the head. -/
def lastAt (s : Skip α) (l : List Nat) (i : Nat) : Nat :=
  (l.filter fun y => i < heightOf s y).getLastD 0

section Search

variable {s : Skip α} {maxHeight : Nat} {less : α → Bool} {l r : List Nat}

theorem lastAt_of_height_le (hw : Wf s maxHeight (l ++ r)) {i : Nat} (hi : s.height ≤ i) :
    lastAt s l i = 0 := by
  have : (l.filter fun y => i < heightOf s y) = [] := by
    rw [List.filter_eq_nil_iff]
    intro y hy
    have := (hw.heights y (List.mem_append_left r hy)).2
    simp only [decide_eq_true_eq]
    omega
  rw [lastAt, this]
  rfl

/-- The part of the level-`i` list behind the last node of `l` that is on level `i + 1`. -/
theorem chain_from_lastAt (hw : Wf s maxHeight (l ++ r)) {i : Nat} (hi : i < maxHeight) :
    ∃ q, Chain s i (lastAt s l (i + 1)) (q ++ r.filter fun y => i < heightOf s y) ∧
      (∀ y ∈ q, y ∈ l) ∧ q.getLastD (lastAt s l (i + 1)) = lastAt s l i ∧
      q.length ≤ (l ++ r).length := by
  have hch := hw.chain i hi
  rw [List.filter_append] at hch
  have hsub : (l.filter fun y => i + 1 < heightOf s y) =
      (l.filter fun y => i < heightOf s y).filter fun y => i + 1 < heightOf s y := by
    rw [List.filter_filter]
    refine List.filter_congr fun y _ => ?_
    by_cases h : i + 1 < heightOf s y
    · simp [h, show i < heightOf s y by omega]
    · simp [h]
  have hlen : (l.filter fun y => i < heightOf s y).length ≤ (l ++ r).length := by
    have := List.length_filter_le (fun y => decide (i < heightOf s y)) l
    rw [List.length_append]
    omega
  unfold lastAt
  rw [hsub]
  generalize hq : (l.filter fun y => decide (i < heightOf s y)) = p at hch hlen ⊢
  have hpl : ∀ y ∈ p, y ∈ l := fun y hy => (List.mem_filter.1 (hq ▸ hy)).1
  rcases List.eq_nil_or_concat' (p.filter fun y => decide (i + 1 < heightOf s y)) with h0 | ⟨t, x, hx⟩
  · rw [h0]
    exact ⟨p, hch, hpl, rfl, hlen⟩
  · have hmem : x ∈ p := (List.mem_filter.1 (show x ∈ p.filter _ by rw [hx]; simp)).1
    obtain ⟨a, b, rfl⟩ := List.append_of_mem hmem
    have hlast : (t ++ [x]).getLastD 0 = x := by
      rw [List.getLastD_eq_getLast?, List.getLast?_append]
      rfl
    rw [hx, hlast]
    refine ⟨b, ?_, fun y hy => hpl y (by simp [hy]), ?_, ?_⟩
    · rw [List.append_assoc, List.cons_append] at hch
      exact hch.tail
    · rw [List.getLastD_eq_getLast?, List.getLastD_eq_getLast?, List.getLast?_append,
        List.getLast?_cons]
      cases b.getLast? <;> rfl
    · rw [List.length_append, List.length_cons] at hlen
      omega

/-- The descent leaves level `i` at the last node of `l` on that level. -/
theorem descend_spec (hw : Wf s maxHeight (l ++ r))
    (hl : ∀ y ∈ l, (itemAt s y).any less = true) (hr : ∀ y ∈ r, (itemAt s y).any less = false)
    {i : Nat} (hi : i ≤ maxHeight) :
    descend s less i (lastAt s l i) = (List.range i).map (lastAt s l) := by
  induction i with
  | zero => rfl
  | succ i ih =>
    obtain ⟨q, hch, hql, hlast, hlen⟩ := chain_from_lastAt hw (show i < maxHeight by omega)
    have hcount := hw.count
    obtain ⟨hwalk, -⟩ := walk_chain hch (fun y hy => hl y (hql y hy))
      (fun y hy => hr y (List.mem_filter.1 hy).1)
      (show q.length < s.nodes.length by omega)
    rw [descend, hwalk, hlast, ih (by omega), List.range_succ, List.map_append]
    rfl

theorem update_spec (hw : Wf s maxHeight (l ++ r))
    (hl : ∀ y ∈ l, (itemAt s y).any less = true) (hr : ∀ y ∈ r, (itemAt s y).any less = false)
    (i : Nat) : update s less i = lastAt s l i := by
  have h := descend_spec hw hl hr hw.height.2
  rw [lastAt_of_height_le hw le_rfl] at h
  rw [update, h]
  by_cases hi : i < s.height
  · simp [hi]
  · rw [lastAt_of_height_le hw (by omega), List.getD_eq_default]
    simp
    omega

theorem lastAt_zero_chain (hw : Wf s maxHeight (l ++ r)) {i : Nat} (hi : i < maxHeight) :
    Chain s i (lastAt s l i) (r.filter fun y => i < heightOf s y) := by
  have hch := hw.chain i hi
  rw [List.filter_append] at hch
  unfold lastAt
  generalize (l.filter fun y => decide (i < heightOf s y)) = p at hch ⊢
  rcases List.eq_nil_or_concat' p with rfl | ⟨t, x, rfl⟩
  · exact hch
  · rw [List.append_assoc, List.singleton_append] at hch
    have : (t ++ [x]).getLastD 0 = x := by
      rw [List.getLastD_eq_getLast?, List.getLast?_append]
      rfl
    rw [this]
    exact hch.tail

theorem filter_zero (hw : Wf s maxHeight (l ++ r)) :
    (r.filter fun y => decide (0 < heightOf s y)) = r := by
  rw [List.filter_eq_self]
  intro y hy
  have := (hw.heights y (List.mem_append_right l hy)).1
  simp only [decide_eq_true_eq]
  omega

/-- **The search ends in front of the first item that is not `less`.** -/
theorem search_spec (hw : Wf s maxHeight (l ++ r))
    (hl : ∀ y ∈ l, (itemAt s y).any less = true) (hr : ∀ y ∈ r, (itemAt s y).any less = false) :
    search s less = r.head? := by
  have h := lastAt_zero_chain hw (show 0 < maxHeight by have := hw.height; omega)
  rw [filter_zero hw] at h
  rw [search, update_spec hw hl hr]
  cases r with
  | nil => exact h
  | cons y r => exact h.1

/-- On level 0 a node points to the next one. -/
theorem fwd_zero {y : Nat} (hw : Wf s maxHeight (l ++ y :: r)) : fwd s y 0 = r.head? := by
  have hw' : Wf s maxHeight ((l ++ [y]) ++ r) := by simpa using hw
  have h := lastAt_zero_chain hw' (show 0 < maxHeight by have := hw.height; omega)
  rw [filter_zero hw'] at h
  have hy1 := (hw.heights y (by simp)).1
  have hlast : lastAt s (l ++ [y]) 0 = y := by
    rw [lastAt, List.filter_append, List.getLastD_eq_getLast?, List.getLast?_append,
      List.filter_cons_of_pos (by simp; omega)]
    rfl
  rw [hlast] at h
  cases r with
  | nil => exact h
  | cons z r => exact h.1

theorem fwd_head (hw : Wf s maxHeight l) : fwd s 0 0 = l.head? := by
  have hch := hw.chain 0 (by have := hw.height; omega)
  have hw' : Wf s maxHeight ([] ++ l) := hw
  rw [filter_zero hw'] at hch
  cases l with
  | nil => exact hch
  | cons y l => exact hch.1

theorem Wf.itemAt_isSome (hw : Wf s maxHeight l) {y : Nat} (hy : y ∈ l) :
    ∃ a, itemAt s y = some a := by
  simp [itemAt, List.getElem?_eq_getElem (hw.lt y hy)]

/-- The items of a suffix of the list, read along level 0. -/
theorem itemsFrom_spec (hw : Wf s maxHeight (l ++ r)) {fuel : Nat} (hf : r.length < fuel) :
    (itemsFrom s fuel r.head?).map some = r.map (itemAt s) := by
  induction r generalizing l fuel with
  | nil =>
    cases fuel with
    | zero => rfl
    | succ fuel => rfl
  | cons y r ih =>
    obtain ⟨f, rfl⟩ : ∃ f, fuel = f + 1 := ⟨fuel - 1, by simp at hf; omega⟩
    have hw' : Wf s maxHeight ((l ++ [y]) ++ r) := by simpa using hw
    obtain ⟨a, ha⟩ := hw.itemAt_isSome (show y ∈ l ++ y :: r by simp)
    rw [List.head?_cons, itemsFrom, ha]
    simp only [fwd_zero hw, List.map_cons, ha]
    rw [ih hw' (by simp at hf; omega)]

/-- Skipping along level 0 is `dropWhile`. -/
theorem skipWhile_spec (hw : Wf s maxHeight (l ++ r)) (p : α → Bool) {fuel : Nat}
    (hf : r.length ≤ fuel) :
    skipWhile s p fuel r.head? = (r.dropWhile fun y => (itemAt s y).any p).head? := by
  induction r generalizing l fuel with
  | nil => cases fuel <;> rfl
  | cons y r ih =>
    obtain ⟨f, rfl⟩ : ∃ f, fuel = f + 1 := ⟨fuel - 1, by simp at hf; omega⟩
    have hw' : Wf s maxHeight ((l ++ [y]) ++ r) := by simpa using hw
    rw [List.head?_cons, skipWhile, List.dropWhile_cons]
    split
    · rw [fwd_zero hw, ih hw' (by simp at hf; omega)]
    · rfl

/-- The items behind a skip. -/
theorem map_dropWhile_any {q : List α} (h : r.map (itemAt s) = q.map some) (p : α → Bool) :
    (r.dropWhile fun y => (itemAt s y).any p).map (itemAt s) = (q.dropWhile p).map some := by
  induction r generalizing q with
  | nil =>
    obtain rfl : q = [] := by simpa using h.symm
    rfl
  | cons y r ih =>
    cases q with
    | nil => simp at h
    | cons a q =>
      simp only [List.map_cons, List.cons.injEq] at h
      rw [List.dropWhile_cons, List.dropWhile_cons, h.1, Option.any_some]
      split
      · exact ih h.2
      · rw [List.map_cons, List.map_cons, h.1, h.2]

/-- Following the pointers of a level. -/
theorem nodesFrom_chain {i x : Nat} (h : Chain s i x l) {fuel : Nat} (hf : l.length ≤ fuel) :
    nodesFrom s i fuel (fwd s x i) = l := by
  induction l generalizing x fuel with
  | nil =>
    have hn : fwd s x i = none := h
    rw [hn]
    cases fuel <;> rfl
  | cons y l ih =>
    obtain ⟨f, rfl⟩ : ∃ f, fuel = f + 1 := ⟨fuel - 1, by simp at hf; omega⟩
    rw [h.1, nodesFrom, ih h.2 (by simp at hf; omega)]

/-- **The level lists**: level `i` has the nodes of height above `i`, in their order. -/
theorem levelNodes_eq (hw : Wf s maxHeight l) (i : Nat) :
    levelNodes s i = l.filter fun y => i < heightOf s y := by
  by_cases hi : i < maxHeight
  · have hlen := List.length_filter_le (fun y => decide (i < heightOf s y)) l
    have hcount := hw.count
    exact nodesFrom_chain (hw.chain i hi) (by omega)
  · -- no node, the head included, has a pointer up there
    have hnone : fwd s 0 i = none := by
      have hhead := hw.head
      unfold heightOf at hhead
      unfold fwd
      cases hn : s.nodes[0]? with
      | none => rfl
      | some n =>
        have hlen : n.forward.length = maxHeight := by simpa [hn] using hhead
        simp [List.getElem?_eq_none (show n.forward.length ≤ i by omega)]
    have hempty : (l.filter fun y => decide (i < heightOf s y)) = [] := by
      rw [List.filter_eq_nil_iff]
      intro y hy
      have h1 := (hw.heights y hy).2
      have h2 := hw.height.2
      simp only [decide_eq_true_eq]
      omega
    rw [levelNodes, hnone, hempty]
    cases s.nodes.length <;> rfl

theorem levelNodes_succ_sublist (hw : Wf s maxHeight l) (i : Nat) :
    (levelNodes s (i + 1)).Sublist (levelNodes s i) := by
  rw [levelNodes_eq hw, levelNodes_eq hw]
  refine List.monotone_filter_right l fun y hy => ?_
  simp only [decide_eq_true_eq] at hy ⊢
  omega

end Search

/-! ## Insertion -/

@[simp] theorem setFwd_length (s : Skip α) (x i : Nat) (p : Option Nat) :
    (setFwd s x i p).nodes.length = s.nodes.length := by
  simp [setFwd]

@[simp] theorem setFwd_height (s : Skip α) (x i : Nat) (p : Option Nat) :
    (setFwd s x i p).height = s.height := rfl

@[simp] theorem itemAt_setFwd (s : Skip α) (x i : Nat) (p : Option Nat) (y : Nat) :
    itemAt (setFwd s x i p) y = itemAt s y := by
  simp only [itemAt, setFwd, List.getElem?_modify]
  cases s.nodes[y]? <;> simp
  split <;> rfl

@[simp] theorem heightOf_setFwd (s : Skip α) (x i : Nat) (p : Option Nat) (y : Nat) :
    heightOf (setFwd s x i p) y = heightOf s y := by
  simp only [heightOf, setFwd, List.getElem?_modify]
  cases s.nodes[y]? <;> simp
  split <;> simp

theorem fwd_setFwd (s : Skip α) {x i : Nat} (p : Option Nat) (h : i < heightOf s x) (y j : Nat) :
    fwd (setFwd s x i p) y j = if y = x ∧ j = i then p else fwd s y j := by
  unfold heightOf at h
  simp only [fwd, setFwd, List.getElem?_modify]
  cases hy : s.nodes[y]? with
  | none =>
    have hne : ¬ (y = x ∧ j = i) := by
      rintro ⟨rfl, -⟩
      simp [hy] at h
    simp [hne]
  | some n =>
    by_cases hyx : x = y
    · subst hyx
      have hlen : i < n.forward.length := by simpa [hy] using h
      by_cases hji : i = j
      · subst hji
        simp [hlen]
      · simp [hji, Ne.symm hji]
    · simp [hyx, Ne.symm hyx]

/-- All links of an insertion: the new node takes over the pointers of `u i`, which then
    point to it. -/
theorem foldl_link {s : Skip α} {id n : Nat} {u : Nat → Nat} (hid : n ≤ heightOf s id)
    (hu : ∀ i, i < n → i < heightOf s (u i) ∧ u i ≠ id) :
    let s' := (List.range n).foldl (fun s i => link s id (u i) i) s
    s'.nodes.length = s.nodes.length ∧ s'.height = s.height ∧
    (∀ y, itemAt s' y = itemAt s y) ∧ (∀ y, heightOf s' y = heightOf s y) ∧
    ∀ y i, fwd s' y i =
      if i < n ∧ y = u i then some id else if i < n ∧ y = id then fwd s (u i) i else fwd s y i := by
  induction n with
  | zero => simp
  | succ n ih =>
    obtain ⟨h1, h2, h3, h4, h5⟩ := ih (by omega) fun i hi => hu i (by omega)
    simp only [List.range_succ, List.foldl_append, List.foldl_cons, List.foldl_nil]
    generalize (List.range n).foldl (fun s i => link s id (u i) i) s = t at h1 h2 h3 h4 h5 ⊢
    obtain ⟨hun, hne⟩ := hu n (by omega)
    unfold link
    refine ⟨by simp [h1], by simp [h2], fun y => by simp [h3], fun y => by simp [h4], ?_⟩
    intro y i
    rw [fwd_setFwd _ _ (by simpa [h4] using hun), fwd_setFwd _ _ (by rw [h4]; omega), h5, h5]
    have hn1 : ¬ n < n := by omega
    by_cases hin : i = n
    · subst hin
      by_cases hyu : y = u i
      · simp [hyu]
      · by_cases hyid : y = id
        · simp [hyid, Ne.symm hne]
        · simp [hyu, hyid]
    · have hlt : i < n + 1 ↔ i < n := by omega
      simp [hin, hlt]

section Insert

variable {s : Skip α} {maxHeight : Nat} {less : α → Bool} {l r : List Nat}

theorem lastAt_lt (hw : Wf s maxHeight (l ++ r)) (i : Nat) : lastAt s l i < s.nodes.length := by
  have hcount := hw.count
  rcases List.mem_cons.1 (getLastD_mem_cons (l.filter fun y => i < heightOf s y) 0) with h | h
  · rw [lastAt, h]
    omega
  · exact hw.lt _ (List.mem_append_left r (List.mem_filter.1 h).1)

theorem lt_heightOf_lastAt (hw : Wf s maxHeight (l ++ r)) {i : Nat} (hi : i < maxHeight) :
    i < heightOf s (lastAt s l i) := by
  rcases List.mem_cons.1 (getLastD_mem_cons (l.filter fun y => i < heightOf s y) 0) with h | h
  · rw [lastAt, h, hw.head]
    exact hi
  · exact of_decide_eq_true (List.mem_filter.1 h).2

/-- What an insertion does to the arena: the new node is the last one, and only the pointers
    of the nodes where the search left a level change. -/
theorem insert_fields (hw : Wf s maxHeight (l ++ r))
    (hl : ∀ y ∈ l, (itemAt s y).any less = true) (hr : ∀ y ∈ r, (itemAt s y).any less = false)
    (a : α) {lvl : Nat} (hmax : lvl ≤ maxHeight) :
    (insert s less a lvl).nodes.length = s.nodes.length + 1 ∧
    (insert s less a lvl).height = max s.height lvl ∧
    itemAt (insert s less a lvl) s.nodes.length = some a ∧
    heightOf (insert s less a lvl) s.nodes.length = lvl ∧
    (∀ y, y < s.nodes.length → itemAt (insert s less a lvl) y = itemAt s y ∧
      heightOf (insert s less a lvl) y = heightOf s y) ∧
    (∀ i, i < lvl → fwd (insert s less a lvl) (lastAt s l i) i = some s.nodes.length ∧
      fwd (insert s less a lvl) s.nodes.length i = fwd s (lastAt s l i) i) ∧
    ∀ y i, y < s.nodes.length → (i < lvl → y ≠ lastAt s l i) →
      fwd (insert s less a lvl) y i = fwd s y i := by
  have hu := fun i => update_spec hw hl hr i
  -- the arena with the new node, not linked yet
  let s1 : Skip α := ⟨s.nodes ++ [⟨a, List.replicate lvl none⟩], max s.height lvl⟩
  have hold : ∀ y, y < s.nodes.length → s1.nodes[y]? = s.nodes[y]? := fun y hy =>
    List.getElem?_append_left hy
  have hnew : s1.nodes[s.nodes.length]? = some ⟨a, List.replicate lvl none⟩ := by
    simp [s1]
  have hh1 : ∀ y, y < s.nodes.length → heightOf s1 y = heightOf s y := fun y hy => by
    rw [heightOf, heightOf, hold y hy]
  have hf1 : ∀ y i, y < s.nodes.length → fwd s1 y i = fwd s y i := fun y i hy => by
    rw [fwd, fwd, hold y hy]
  have hhid : heightOf s1 s.nodes.length = lvl := by simp [heightOf, hnew]
  have hne : ∀ i, lastAt s l i ≠ s.nodes.length := fun i => (lastAt_lt hw i).ne
  have hfold := foldl_link (u := update s less) (show lvl ≤ heightOf s1 s.nodes.length by rw [hhid])
    (fun i hi => by
      rw [hu, hh1 _ (lastAt_lt hw i)]
      exact ⟨lt_heightOf_lastAt hw (by omega), hne i⟩)
  have hins : insert s less a lvl =
      (List.range lvl).foldl (fun t i => link t s.nodes.length (update s less i) i) s1 := rfl
  rw [hins]
  generalize (List.range lvl).foldl (fun t i => link t s.nodes.length (update s less i) i) s1 = s'
    at hfold
  obtain ⟨hlen, hheight, hitem, hhts, hfwd⟩ := hfold
  simp only [hu] at hfwd
  refine ⟨by rw [hlen]; simp [s1], hheight, ?_, by rw [hhts, hhid], ?_, ?_, ?_⟩
  · rw [hitem, itemAt, hnew]
    rfl
  · intro y hy
    rw [hitem, hhts, hh1 y hy, itemAt, hold y hy]
    exact ⟨rfl, rfl⟩
  · intro i hi
    refine ⟨by rw [hfwd, if_pos ⟨hi, rfl⟩], ?_⟩
    rw [hfwd, if_neg (fun h => hne i h.2.symm), if_pos ⟨hi, rfl⟩, hf1 _ _ (lastAt_lt hw i)]
  · intro y i hy hyu
    rw [hfwd, if_neg (fun h => hyu h.1 h.2), if_neg (fun h => by have := h.2; omega), hf1 y i hy]

/-- One level list of the new arena. -/
theorem insert_chain (hw : Wf s maxHeight (l ++ r))
    (hl : ∀ y ∈ l, (itemAt s y).any less = true) (hr : ∀ y ∈ r, (itemAt s y).any less = false)
    (a : α) {lvl : Nat} (hmax : lvl ≤ maxHeight) {i : Nat} (hi : i < maxHeight) :
    Chain (insert s less a lvl) i 0 ((l ++ s.nodes.length :: r).filter fun y =>
      i < heightOf (insert s less a lvl) y) := by
  obtain ⟨-, -, -, hid, hsame, hlink, hrest⟩ := insert_fields hw hl hr a hmax
  generalize insert s less a lvl = s' at hid hsame hlink hrest ⊢
  have hcount := hw.count
  have hch := hw.chain i hi
  have hfl : (l.filter fun y => decide (i < heightOf s' y)) =
      l.filter fun y => decide (i < heightOf s y) :=
    List.filter_congr fun y hy => by rw [(hsame y (hw.lt y (List.mem_append_left r hy))).2]
  have hfr : (r.filter fun y => decide (i < heightOf s' y)) =
      r.filter fun y => decide (i < heightOf s y) :=
    List.filter_congr fun y hy => by rw [(hsame y (hw.lt y (List.mem_append_right l hy))).2]
  have hold : ∀ y ∈ 0 :: ((l ++ r).filter fun y => decide (i < heightOf s y)),
      y < s.nodes.length := by
    intro y hy
    rcases List.mem_cons.1 hy with rfl | hy
    · omega
    · exact hw.lt y (List.mem_filter.1 hy).1
  rw [List.filter_append, hfl]
  by_cases hil : i < lvl
  · rw [List.filter_cons_of_pos (by rw [hid]; simpa using hil), hfr]
    rw [List.filter_append] at hch hold
    refine Chain.splice hch ?_ (hlink i hil).1 (hlink i hil).2
      fun y hy hne => hrest y i (hold y hy) fun _ => hne
    rw [List.nodup_cons, ← List.filter_append]
    refine ⟨fun h => ?_, hw.nodup.filter _⟩
    have := hw.pos 0 (List.mem_filter.1 h).1
    omega
  · rw [List.filter_cons_of_neg (by rw [hid]; simpa using hil), hfr, ← List.filter_append]
    exact hch.congr fun y hy => hrest y i (hold y hy) fun h => absurd h hil

/-- **Insertion.** The new node stands between the `less` part and the rest. -/
theorem insert_wf (hw : Wf s maxHeight (l ++ r))
    (hl : ∀ y ∈ l, (itemAt s y).any less = true) (hr : ∀ y ∈ r, (itemAt s y).any less = false)
    (a : α) {lvl : Nat} (hlvl : 1 ≤ lvl) (hmax : lvl ≤ maxHeight) :
    Wf (insert s less a lvl) maxHeight (l ++ s.nodes.length :: r) := by
  obtain ⟨hlen, hheight, -, hid, hsame, -, -⟩ := insert_fields hw hl hr a hmax
  have hcount := hw.count
  have hnotin : s.nodes.length ∉ l ++ r := fun h => by have := hw.lt _ h; omega
  have hmem : ∀ y ∈ l ++ s.nodes.length :: r, y = s.nodes.length ∨ y ∈ l ++ r := by
    intro y hy
    simp only [List.mem_append, List.mem_cons] at hy ⊢
    tauto
  refine ⟨List.nodup_middle.2 (List.nodup_cons.2 ⟨hnotin, hw.nodup⟩), ?_, ?_, ?_, ?_, ?_, ?_,
    fun i hi => insert_chain hw hl hr a hmax hi⟩
  · intro y hy
    rcases hmem y hy with rfl | hy
    · omega
    · exact hw.pos y hy
  · intro y hy
    rw [hlen]
    rcases hmem y hy with rfl | hy
    · omega
    · exact Nat.lt_succ_of_lt (hw.lt y hy)
  · rw [hlen, List.length_append, List.length_cons]
    rw [List.length_append] at hcount
    omega
  · intro y hy
    rw [hheight]
    rcases hmem y hy with rfl | hy
    · rw [hid]
      exact ⟨hlvl, le_max_right _ _⟩
    · rw [(hsame y (hw.lt y hy)).2]
      exact ⟨(hw.heights y hy).1, le_trans (hw.heights y hy).2 (le_max_left _ _)⟩
  · rw [hheight]
    exact ⟨le_trans hw.height.1 (le_max_left _ _), max_le hw.height.2 hmax⟩
  · rw [(hsame 0 (by omega)).2]
    exact hw.head

end Insert

/-! ## The list of items -/

/-- `s` holds the items `items` in this order. -/
def Holds (s : Skip α) (maxHeight : Nat) (items : List α) : Prop :=
  ∃ ids, Wf s maxHeight ids ∧ ids.map (itemAt s) = items.map some

theorem holds_empty (a : α) {maxHeight : Nat} (h : 1 ≤ maxHeight) :
    Holds (empty a maxHeight) maxHeight [] :=
  ⟨[], wf_empty a h, rfl⟩

section Items

variable {s : Skip α} {maxHeight : Nat} {less : α → Bool} {p q : List α}

theorem any_of_map_eq {ids : List Nat} {items : List α} {b : Bool}
    (h : ids.map (itemAt s) = items.map some) (hb : ∀ a ∈ items, less a = b) :
    ∀ y ∈ ids, (itemAt s y).any less = b := by
  intro y hy
  have hm : itemAt s y ∈ items.map some := h ▸ List.mem_map_of_mem hy
  obtain ⟨a, ha, hay⟩ := List.mem_map.1 hm
  rw [← hay]
  exact hb a ha

/-- The nodes split where the items do. -/
theorem Holds.split (h : Holds s maxHeight (p ++ q)) (hp : ∀ a ∈ p, less a = true)
    (hq : ∀ a ∈ q, less a = false) :
    ∃ l r, Wf s maxHeight (l ++ r) ∧ l.map (itemAt s) = p.map some ∧
      r.map (itemAt s) = q.map some ∧ (∀ y ∈ l, (itemAt s y).any less = true) ∧
      ∀ y ∈ r, (itemAt s y).any less = false := by
  obtain ⟨ids, hw, hm⟩ := h
  rw [List.map_append] at hm
  obtain ⟨l, r, rfl, hl, hr⟩ := List.map_eq_append_iff.1 hm
  exact ⟨l, r, hw, hl, hr, any_of_map_eq hl hp, any_of_map_eq hr hq⟩

theorem Holds.insert (h : Holds s maxHeight (p ++ q)) (hp : ∀ a ∈ p, less a = true)
    (hq : ∀ a ∈ q, less a = false) (a : α) {lvl : Nat} (hlvl : 1 ≤ lvl) (hmax : lvl ≤ maxHeight) :
    Holds (insert s less a lvl) maxHeight (p ++ a :: q) := by
  obtain ⟨l, r, hw, hl, hr, hll, hrr⟩ := h.split hp hq
  obtain ⟨-, -, hitem, -, hsame, -, -⟩ := insert_fields hw hll hrr a hmax
  refine ⟨l ++ s.nodes.length :: r, insert_wf hw hll hrr a hlvl hmax, ?_⟩
  have hkeep : ∀ y ∈ l ++ r, itemAt (SkipList.insert s less a lvl) y = itemAt s y :=
    fun y hy => (hsame y (hw.lt y hy)).1
  rw [List.map_append, List.map_cons, List.map_append, List.map_cons, hitem, ← hl, ← hr]
  congr 1
  · exact List.map_congr_left fun y hy => hkeep y (List.mem_append_left r hy)
  · congr 1
    exact List.map_congr_left fun y hy => hkeep y (List.mem_append_right l hy)

/-- The item the search stops at. -/
theorem Holds.item_search (h : Holds s maxHeight (p ++ q)) (hp : ∀ a ∈ p, less a = true)
    (hq : ∀ a ∈ q, less a = false) : (search s less).bind (itemAt s) = q.head? := by
  obtain ⟨l, r, hw, -, hr, hll, hrr⟩ := h.split hp hq
  rw [search_spec hw hll hrr]
  cases r with
  | nil =>
    cases q with
    | nil => rfl
    | cons a q => simp at hr
  | cons y r =>
    cases q with
    | nil => simp at hr
    | cons a q =>
      simp only [List.map_cons, List.cons.injEq] at hr
      exact hr.1

/-- The items from the search on. -/
theorem Holds.itemsFrom_search (h : Holds s maxHeight (p ++ q)) (hp : ∀ a ∈ p, less a = true)
    (hq : ∀ a ∈ q, less a = false) : itemsFrom s s.nodes.length (search s less) = q := by
  obtain ⟨l, r, hw, -, hr, hll, hrr⟩ := h.split hp hq
  have hcount := hw.count
  rw [List.length_append] at hcount
  rw [search_spec hw hll hrr]
  have := itemsFrom_spec hw (show r.length < s.nodes.length by omega)
  rw [hr] at this
  exact List.map_injective_iff.2 (Option.some_injective _) this

/-- All items. -/
theorem Holds.toList (h : Holds s maxHeight q) : SkipList.toList s = q := by
  obtain ⟨ids, hw, hm⟩ := h
  have hw' : Wf s maxHeight ([] ++ ids) := hw
  rw [SkipList.toList, fwd_head hw]
  have := itemsFrom_spec hw' hw.count
  rw [hm] at this
  exact List.map_injective_iff.2 (Option.some_injective _) this

/-- The level lists of a list of items: each a sublist of the one below, all items on level
    0. -/
theorem Holds.levels (h : Holds s maxHeight q) :
    (∀ i, (levelNodes s (i + 1)).Sublist (levelNodes s i)) ∧
      (levelNodes s 0).map (itemAt s) = q.map some := by
  obtain ⟨ids, hw, hm⟩ := h
  have hw' : Wf s maxHeight ([] ++ ids) := hw
  refine ⟨levelNodes_succ_sublist hw, ?_⟩
  rw [levelNodes_eq hw, filter_zero hw', hm]

end Items

end SkipList
