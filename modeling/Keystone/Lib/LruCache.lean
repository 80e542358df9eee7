/-
  A cache that drops its least recently used blocks.

  `lru` is a linked list with the block used last in front; each node has an identity of its own,
  which a splice leaves as it is. `map` leads from a key to the identity of its node.

  `Wf` says that map and list agree and that the bytes are counted, `Holds R` that every block is
  related by `R` to its key. Both critical sections of a lookup keep them (`touch_spec`,
  `insert_spec`), and the block they return is related to the key that was asked for. The second
  one also restores the limit (`insert_bytes`), and both keep the list in the order of use
  (`Recent.touch`, `Recent.insert`).
-/
import Mathlib

namespace LruCache

/-- A node of the list. -/
structure Node (κ β : Type*) where
  key : κ
  block : β
  size : Nat

/-- `fresh` is an identity that no node has had. -/
structure Cache (κ β : Type*) where
  capacity : Nat
  currentBytes : Nat := 0
  lru : List (Nat × Node κ β) := []
  map : List (κ × Nat) := []
  fresh : Nat := 0

namespace Cache

variable {κ β : Type*}

section Operations

variable [DecidableEq κ] (c : Cache κ β)

/-- The node the map has for a key. -/
def find (key : κ) : Option Nat := (c.map.find? fun p => p.1 = key).map Prod.snd

def deref (id : Nat) : Option (Node κ β) := (c.lru.find? fun p => p.1 = id).map Prod.snd

/-- Moves a node to the front. -/
def splice (id : Nat) : Cache κ β :=
  { c with lru := c.lru.filter (·.1 = id) ++ c.lru.filter fun p => !decide (p.1 = id) }

/-- The block of a key, which then is the one used last; `none` if the map has no such key. -/
def touch (key : κ) : Option (β × Cache κ β) :=
  (c.find key).bind fun id => (c.deref id).map fun node => (node.block, c.splice id)

def push (key : κ) (block : β) (size : Nat) : Cache κ β :=
  { c with
    lru := (c.fresh, ⟨key, block, size⟩) :: c.lru
    map := (key, c.fresh) :: c.map
    currentBytes := c.currentBytes + size
    fresh := c.fresh + 1 }

/-- Drops the block used longest ago. -/
def popBack : Cache κ β :=
  match c.lru.getLast? with
  | none => c
  | some (_, node) =>
    { c with
      currentBytes := c.currentBytes - node.size
      map := c.map.filter fun p => p.1 ≠ node.key
      lru := c.lru.dropLast }

/-- Drops blocks until the rest fits; the length of the list bounds the turns. -/
def evict : Nat → Cache κ β → Cache κ β
  | 0, c => c
  | fuel + 1, c =>
    if c.capacity < c.currentBytes ∧ ¬ c.lru.isEmpty then evict fuel c.popBack else c

/-- A block for a key: the one that is there already, or the new one. -/
def insert (key : κ) (block : β) (size : Nat) : β × Cache κ β :=
  match c.touch key with
  | some r => r
  | none => (block, evict (c.lru.length + 1) (c.push key block size))

end Operations

/-- Map and list agree, and the bytes of the blocks are counted. -/
structure Wf (c : Cache κ β) : Prop where
  ids : (c.lru.map Prod.fst).Nodup
  keys : (c.lru.map fun p => p.2.key).Nodup
  below : ∀ p ∈ c.lru, p.1 < c.fresh
  map : ∀ key id, (key, id) ∈ c.map ↔ ∃ node, (id, node) ∈ c.lru ∧ node.key = key
  bytes : c.currentBytes = (c.lru.map fun p => p.2.size).sum

/-- Every block is related to its key. -/
def Holds (R : κ → β → Prop) (c : Cache κ β) : Prop := ∀ p ∈ c.lru, R p.2.key p.2.block

theorem wf_empty (capacity : Nat) : Wf (⟨capacity, 0, [], [], 0⟩ : Cache κ β) := by
  constructor <;> simp

theorem Holds.mono {R R' : κ → β → Prop} {c : Cache κ β} (h : Holds R c)
    (hR : ∀ key block, R key block → R' key block) : Holds R' c :=
  fun p hp => hR _ _ (h p hp)

variable {R : κ → β → Prop} {c c' : Cache κ β}

/-- Well-formedness does not depend on the order of use. -/
theorem Wf.perm (h : Wf c) (hp : c'.lru.Perm c.lru) (hmap : c'.map = c.map)
    (hfresh : c'.fresh = c.fresh) (hbytes : c'.currentBytes = c.currentBytes) : Wf c' where
  ids := (hp.map _).nodup_iff.2 h.ids
  keys := (hp.map _).nodup_iff.2 h.keys
  below := fun p hmem => hfresh ▸ h.below p (hp.mem_iff.1 hmem)
  map := fun key id => by
    rw [hmap, h.map]
    exact exists_congr fun node => and_congr_left' hp.mem_iff.symm
  bytes := by
    rw [hbytes, h.bytes]
    exact ((hp.map _).sum_nat).symm

theorem splice_perm (c : Cache κ β) (id : Nat) : (c.splice id).lru.Perm c.lru :=
  List.filter_append_perm _ _

theorem Wf.push (h : Wf c) {key : κ} (hnew : ∀ p ∈ c.lru, p.2.key ≠ key) (block : β) (size : Nat) :
    Wf (c.push key block size) := by
  constructor
  · refine List.nodup_cons.2 ⟨fun hmem => ?_, h.ids⟩
    obtain ⟨p, hp, he⟩ := List.mem_map.1 hmem
    exact absurd (h.below p hp) (by simp only at he; omega)
  · refine List.nodup_cons.2 ⟨fun hmem => ?_, h.keys⟩
    obtain ⟨p, hp, he⟩ := List.mem_map.1 hmem
    exact hnew p hp he
  · intro p hp
    rcases List.mem_cons.1 hp with rfl | hp
    · exact Nat.lt_succ_self _
    · exact Nat.lt_succ_of_lt (h.below p hp)
  · intro k id
    simp only [Cache.push, List.mem_cons, Prod.mk.injEq, h.map]
    constructor
    · rintro (⟨rfl, rfl⟩ | ⟨node, hn, hk⟩)
      · exact ⟨_, Or.inl ⟨rfl, rfl⟩, rfl⟩
      · exact ⟨node, Or.inr hn, hk⟩
    · rintro ⟨node, ⟨rfl, rfl⟩ | hn, hk⟩
      · exact Or.inl ⟨hk.symm, rfl⟩
      · exact Or.inr ⟨node, hn, hk⟩
  · simp only [Cache.push, List.map_cons, List.sum_cons, h.bytes]
    omega

/-- An empty cache has no bytes. -/
theorem Wf.bytes_nil (h : Wf c) (hempty : c.lru = []) : c.currentBytes ≤ c.capacity := by
  rw [h.bytes, hempty]
  exact Nat.zero_le _

variable [DecidableEq κ]

/-- What the map has for a key is the node of that key. -/
theorem find_eq_some (h : Wf c) {key : κ} {id : Nat} :
    c.find key = some id ↔ ∃ node, (id, node) ∈ c.lru ∧ node.key = key := by
  rw [← h.map]
  constructor
  · intro hf
    obtain ⟨⟨key', id'⟩, hfind, rfl⟩ := Option.map_eq_some_iff.1 hf
    obtain rfl : key' = key := by simpa using List.find?_some hfind
    exact List.mem_of_find?_eq_some hfind
  · intro hmem
    obtain ⟨⟨key', id'⟩, hq⟩ : ∃ q, c.map.find? (fun q => q.1 = key) = some q :=
      Option.isSome_iff_exists.1 (List.find?_isSome.2 ⟨_, hmem, by simp⟩)
    obtain rfl : key' = key := by simpa using List.find?_some hq
    -- both lead to a node of that key, and there is one
    obtain ⟨node, hn, hk⟩ := (h.map _ _).1 hmem
    obtain ⟨node', hn', hk'⟩ := (h.map _ _).1 (List.mem_of_find?_eq_some hq)
    obtain ⟨rfl, -⟩ := Prod.mk.inj (List.inj_on_of_nodup_map h.keys hn hn' (hk.trans hk'.symm))
    rw [find, hq]
    rfl

/-- What `touch` finds: the node of that key. No node the map leads to is gone. -/
theorem touch_eq_some (h : Wf c) {key : κ} {block : β} (ht : c.touch key = some (block, c')) :
    ∃ p ∈ c.lru, p.2.key = key ∧ p.2.block = block ∧ c' = c.splice p.1 := by
  unfold touch at ht
  obtain ⟨id, hid, ht⟩ := Option.bind_eq_some_iff.1 ht
  obtain ⟨node, hnode, ht⟩ := Option.map_eq_some_iff.1 ht
  obtain ⟨rfl, rfl⟩ := Prod.mk.inj ht
  obtain ⟨⟨id', node⟩, hfind, rfl⟩ := Option.map_eq_some_iff.1 hnode
  obtain rfl : id' = id := by simpa using List.find?_some hfind
  obtain ⟨node', hn, hk⟩ := (find_eq_some h).1 hid
  -- the two nodes of that identity are one
  obtain ⟨-, rfl⟩ := Prod.mk.inj
    (List.inj_on_of_nodup_map h.ids hn (List.mem_of_find?_eq_some hfind) rfl)
  exact ⟨(id', node'), hn, hk, rfl, rfl⟩

theorem touch_eq_none (h : Wf c) {key : κ} (ht : c.touch key = none) :
    ∀ p ∈ c.lru, p.2.key ≠ key := by
  intro p hp hk
  have hfind : c.find key = some p.1 := (find_eq_some h).2 ⟨p.2, hp, hk⟩
  obtain ⟨x, hx⟩ : ∃ x, c.lru.find? (fun x => x.1 = p.1) = some x :=
    Option.isSome_iff_exists.1 (List.find?_isSome.2 ⟨p, hp, by simp⟩)
  simp [touch, deref, hfind, hx] at ht

/-- **The first critical section** of a lookup. -/
theorem touch_spec (h : Wf c) (hR : Holds R c) {key : κ} {block : β}
    (ht : c.touch key = some (block, c')) : Wf c' ∧ Holds R c' ∧ R key block := by
  obtain ⟨p, hp, rfl, rfl, rfl⟩ := touch_eq_some h ht
  have hperm := c.splice_perm p.1
  exact ⟨h.perm hperm rfl rfl rfl, fun q hq => hR q (hperm.mem_iff.1 hq), hR p hp⟩

theorem Wf.popBack (h : Wf c) : Wf c.popBack := by
  unfold Cache.popBack
  split
  · exact h
  · rename_i id₀ node₀ hlast
    have hsplit : c.lru = c.lru.dropLast ++ [(id₀, node₀)] := by
      obtain ⟨ys, hys⟩ := List.getLast?_eq_some_iff.1 hlast
      rw [hys, List.dropLast_concat]
    have hsub : c.lru.dropLast.Sublist c.lru := List.dropLast_sublist _
    have hkeys := h.keys
    rw [hsplit, List.map_append, List.nodup_append] at hkeys
    have hother : ∀ p ∈ c.lru.dropLast, p.2.key ≠ node₀.key := fun p hp =>
      hkeys.2.2 _ (List.mem_map_of_mem hp) _ (List.mem_singleton.2 rfl)
    constructor
    · exact h.ids.sublist (hsub.map _)
    · exact h.keys.sublist (hsub.map _)
    · exact fun p hp => h.below p (hsub.subset hp)
    · intro key id
      rw [List.mem_filter, h.map, decide_eq_true_eq]
      constructor
      · rintro ⟨⟨node, hn, rfl⟩, hne⟩
        rw [hsplit, List.mem_append, List.mem_singleton] at hn
        rcases hn with hn | he
        · exact ⟨node, hn, rfl⟩
        · obtain ⟨-, rfl⟩ := Prod.mk.inj he
          exact absurd rfl hne
      · rintro ⟨node, hn, rfl⟩
        exact ⟨⟨node, hsub.subset hn, rfl⟩, hother _ hn⟩
    · have hsum := congrArg (fun l => (l.map fun p : Nat × Node κ β => p.2.size).sum) hsplit
      simp only [List.map_append, List.sum_append, List.map_cons, List.map_nil, List.sum_cons,
        List.sum_nil] at hsum
      show c.currentBytes - node₀.size = (c.lru.dropLast.map fun p => p.2.size).sum
      rw [h.bytes]
      omega

theorem popBack_prefix (c : Cache κ β) : c.popBack.lru <+: c.lru := by
  unfold popBack
  split
  · exact List.prefix_rfl
  · exact List.dropLast_prefix _

theorem evict_spec (h : Wf c) (fuel : Nat) : Wf (evict fuel c) ∧ (evict fuel c).lru <+: c.lru := by
  induction fuel generalizing c with
  | zero => exact ⟨h, List.prefix_rfl⟩
  | succ fuel ih =>
    unfold evict
    split
    · obtain ⟨hw, hpre⟩ := ih h.popBack
      exact ⟨hw, hpre.trans c.popBack_prefix⟩
    · exact ⟨h, List.prefix_rfl⟩

/-- No critical section makes a block of its own. -/
theorem mem_touch (h : Wf c) {key : κ} {block : β} (ht : c.touch key = some (block, c'))
    {p : Nat × Node κ β} (hp : p ∈ c'.lru) : p ∈ c.lru := by
  obtain ⟨q, -, -, -, rfl⟩ := touch_eq_some h ht
  exact (c.splice_perm q.1).mem_iff.1 hp

theorem mem_insert (h : Wf c) {key : κ} {block : β} {size : Nat} {p : Nat × Node κ β}
    (hp : p ∈ (c.insert key block size).2.lru) : p ∈ c.lru ∨ p.2 = ⟨key, block, size⟩ := by
  unfold insert at hp
  split at hp
  · rename_i r ht
    obtain ⟨block', c₁⟩ := r
    exact Or.inl (mem_touch h ht hp)
  · rename_i ht
    have hw := h.push (touch_eq_none h ht) block size
    rcases List.mem_cons.1 ((evict_spec hw _).2.subset hp) with rfl | hp
    · exact Or.inr rfl
    · exact Or.inl hp

/-- **The second critical section** of a lookup, after the block was loaded. -/
theorem insert_spec (h : Wf c) (hR : Holds R c) {key : κ} {block : β} (hblock : R key block)
    (size : Nat) : Wf (c.insert key block size).2 ∧ Holds R (c.insert key block size).2 ∧
      R key (c.insert key block size).1 := by
  unfold insert
  split
  · rename_i r ht
    exact touch_spec h hR ht
  · rename_i ht
    obtain ⟨hw, hpre⟩ := evict_spec (h.push (touch_eq_none h ht) block size) (c.lru.length + 1)
    refine ⟨hw, fun p hp => ?_, hblock⟩
    rcases List.mem_cons.1 (hpre.subset hp) with rfl | hp
    · exact hblock
    · exact hR p hp

/-! ## The limit -/

@[simp] theorem capacity_popBack (c : Cache κ β) : c.popBack.capacity = c.capacity := by
  unfold popBack
  split <;> rfl

@[simp] theorem capacity_evict (fuel : Nat) (c : Cache κ β) :
    (evict fuel c).capacity = c.capacity := by
  induction fuel generalizing c with
  | zero => rfl
  | succ fuel ih =>
    unfold evict
    split
    · rw [ih, capacity_popBack]
    · rfl

theorem bytes_popBack_le (c : Cache κ β) : c.popBack.currentBytes ≤ c.currentBytes := by
  unfold popBack
  split
  · exact le_rfl
  · exact Nat.sub_le _ _

theorem bytes_evict_le (fuel : Nat) (c : Cache κ β) :
    (evict fuel c).currentBytes ≤ c.currentBytes := by
  induction fuel generalizing c with
  | zero => exact le_rfl
  | succ fuel ih =>
    unfold evict
    split
    · exact (ih _).trans c.bytes_popBack_le
    · exact le_rfl

/-- With a turn for every block the loop ends at the limit. -/
theorem evict_fits (h : Wf c) {fuel : Nat} (hfuel : c.lru.length ≤ fuel) :
    (evict fuel c).currentBytes ≤ c.capacity := by
  induction fuel generalizing c with
  | zero => exact h.bytes_nil (List.length_eq_zero_iff.1 (Nat.le_zero.1 hfuel))
  | succ fuel ih =>
    unfold evict
    split
    · rename_i hover
      rw [← capacity_popBack c]
      refine ih h.popBack ?_
      have hne : c.lru ≠ [] := by simpa using hover.2
      have hlen : c.popBack.lru.length = c.lru.length - 1 := by
        simp [popBack, List.getLast?_eq_some_getLast hne]
      have := List.length_pos_iff.2 hne
      omega
    · rename_i hnot
      by_cases hempty : c.lru.isEmpty
      · exact h.bytes_nil (List.isEmpty_iff.1 hempty)
      · by_contra hlt
        exact hnot ⟨by omega, hempty⟩

/-- The limit holds after the first critical section if it held before. -/
theorem touch_bytes (h : Wf c) {key : κ} {block : β} (ht : c.touch key = some (block, c')) :
    c'.currentBytes = c.currentBytes ∧ c'.capacity = c.capacity := by
  obtain ⟨p, -, -, -, rfl⟩ := touch_eq_some h ht
  exact ⟨rfl, rfl⟩

/-- The second critical section restores the limit, and adds at most the new block. -/
theorem insert_bytes (h : Wf c) (hfits : c.currentBytes ≤ c.capacity) (key : κ) (block : β)
    (size : Nat) : (c.insert key block size).2.currentBytes ≤ (c.insert key block size).2.capacity ∧
      (c.insert key block size).2.capacity = c.capacity ∧
      (c.insert key block size).2.currentBytes ≤ c.currentBytes + size := by
  unfold insert
  split
  · rename_i r ht
    obtain ⟨block', c₁⟩ := r
    obtain ⟨hb, hc⟩ := touch_bytes h ht
    rw [hb, hc]
    exact ⟨hfits, rfl, Nat.le_add_right _ _⟩
  · rename_i ht
    have hw := h.push (touch_eq_none h ht) block size
    refine ⟨?_, capacity_evict _ _, bytes_evict_le _ _⟩
    rw [capacity_evict]
    exact evict_fits hw le_rfl

/-! ## The order of use -/

/-- `log` has the keys that were used, the last one first: the blocks stand in the order in which
    their keys come up there first. -/
structure Recent (log : List κ) (c : Cache κ β) : Prop where
  used : ∀ p ∈ c.lru, p.2.key ∈ log
  ordered : c.lru.Pairwise fun p q => log.idxOf p.2.key < log.idxOf q.2.key

theorem recent_nil {capacity : Nat} : Recent [] (⟨capacity, 0, [], [], 0⟩ : Cache κ β) :=
  ⟨by simp, List.Pairwise.nil⟩

theorem Recent.of_prefix {log : List κ} (h : Recent log c) (hp : c'.lru <+: c.lru) :
    Recent log c' :=
  ⟨fun p hmem => h.used p (hp.subset hmem), h.ordered.sublist hp.sublist⟩

/-- The block used now goes to the front, the others keep their order. -/
theorem Recent.front {log : List κ} (h : Recent log c) {p : Nat × Node κ β}
    {rest : List (Nat × Node κ β)} (hlru : c'.lru = p :: rest) (hsub : rest.Sublist c.lru)
    (hne : ∀ q ∈ rest, q.2.key ≠ p.2.key) : Recent (p.2.key :: log) c' := by
  have hlater : ∀ q ∈ rest, (p.2.key :: log).idxOf q.2.key = log.idxOf q.2.key + 1 :=
    fun q hq => List.idxOf_cons_ne _ (hne q hq).symm
  constructor
  · intro q hq
    rw [hlru] at hq
    rcases List.mem_cons.1 hq with rfl | hq
    · exact List.mem_cons_self
    · exact List.mem_cons_of_mem _ (h.used q (hsub.subset hq))
  · rw [hlru, List.pairwise_cons]
    constructor
    · intro q hq
      rw [List.idxOf_cons_self, hlater q hq]
      exact Nat.succ_pos _
    · refine (h.ordered.sublist hsub).imp_of_mem fun {q r} hq hr hlt => ?_
      rw [hlater q hq, hlater r hr]
      exact Nat.succ_lt_succ hlt

theorem Recent.touch {log : List κ} (hr : Recent log c) (h : Wf c) {key : κ} {block : β}
    (ht : c.touch key = some (block, c')) : Recent (key :: log) c' := by
  obtain ⟨p, hp, rfl, -, rfl⟩ := touch_eq_some h ht
  have hone : c.lru.filter (fun q => q.1 = p.1) = [p] := by
    refine List.perm_singleton.1 ((List.perm_ext_iff_of_nodup ?_ (List.nodup_singleton p)).2 ?_)
    · exact (List.Nodup.of_map _ h.ids).filter _
    · intro q
      rw [List.mem_filter, decide_eq_true_eq, List.mem_singleton]
      constructor
      · rintro ⟨hq, he⟩
        exact List.inj_on_of_nodup_map h.ids hq hp he
      · rintro rfl
        exact ⟨hp, rfl⟩
  have hlru : (c.splice p.1).lru = p :: c.lru.filter fun q => !decide (q.1 = p.1) := by
    rw [splice, hone]
    rfl
  refine hr.front hlru List.filter_sublist ?_
  intro q hq he
  obtain ⟨hq, hne⟩ := List.mem_filter.1 hq
  rw [List.inj_on_of_nodup_map h.keys hq hp he] at hne
  simp at hne

theorem Recent.insert {log : List κ} (hr : Recent log c) (h : Wf c) (key : κ) (block : β)
    (size : Nat) : Recent (key :: log) (c.insert key block size).2 := by
  unfold Cache.insert
  split
  · rename_i r ht
    obtain ⟨block', c₁⟩ := r
    exact hr.touch h ht
  · rename_i ht
    have hw := h.push (touch_eq_none h ht) block size
    refine Recent.of_prefix ?_ (evict_spec hw _).2
    exact hr.front (p := (c.fresh, ⟨key, block, size⟩)) rfl (List.Sublist.refl _)
      (touch_eq_none h ht)

end Cache

end LruCache
