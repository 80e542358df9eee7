/-
  Concurrent calls of `BlockCache::get_or_load`.

  Any number of calls with any keys and any loaders. A call is its first critical section, the
  load, which holds no lock, and its second critical section; a run is any interleaving of these.
  A loader returns any bytes or throws. A block is memory, and 64-bit addresses are all there
  are: a load that would need more than that next to the blocks that are there throws.

  `loads`, `touched` and `returned` record what has happened: what each loader call produced for
  its key, the keys used by critical sections, the last one first, and the blocks returned.

  `get_or_load_invariant`: in every state of every run, map and list agree, the bytes are counted
  without wrapping and within the capacity, the list is in the order of use, and what was
  returned for a key was loaded for that key.
-/
import Keystone.BlockCache

namespace Keystone

open LruCache

/-! ## The calls -/

/-- Where a call stands after its first critical section. -/
inductive LookupPc where
  | missed
  | loaded (block : Bytes)
  | ended

/-- A call of `get_or_load` that has not found its block. -/
structure Lookup where
  key : CacheKey
  pc : LookupPc

/-- The bytes of the block a call has loaded and not yet handed over. -/
def Lookup.bytes (call : Lookup) : Nat :=
  match call.pc with
  | .loaded block => block.length
  | _ => 0

/-- The cache, the calls and what has happened so far. -/
structure Lookups where
  cache : Cache CacheKey Bytes
  calls : List Lookup := []
  loads : List (CacheKey × Bytes) := []
  touched : List CacheKey := []
  returned : List (CacheKey × Bytes) := []

inductive LookupEvent where
  /-- A call begins: its first critical section. -/
  | find (key : CacheKey)
  /-- The loader of call `i` returns. -/
  | load (i : Nat) (raw : Bytes)
  /-- The loader of call `i` throws, and so does the call. -/
  | throws (i : Nat)
  /-- The second critical section of call `i`. -/
  | insert (i : Nat)

namespace Lookups

/-- `BlockCache(capacity_bytes)`. -/
def start (capacity : Nat) : Lookups := { cache := { capacity := capacity } }

def inFlight (s : Lookups) : Nat := (s.calls.map Lookup.bytes).sum

def setPc (s : Lookups) (i : Nat) (key : CacheKey) (pc : LookupPc) : Lookups :=
  { s with calls := s.calls.set i ⟨key, pc⟩ }

/-- A critical section that found or made the block of a key, and returns it. -/
def answer (s : Lookups) (key : CacheKey) (block : Bytes) (cache : Cache CacheKey Bytes) :
    Lookups :=
  { s with
    cache := cache
    touched := key :: s.touched
    returned := (key, block) :: s.returned }

def find (s : Lookups) (key : CacheKey) : Lookups :=
  match s.cache.touch key with
  | some (block, cache) => s.answer key block cache
  | none => { s with calls := s.calls ++ [⟨key, .missed⟩] }

def load (s : Lookups) (i : Nat) (raw : Bytes) : Option Lookups :=
  match s.calls[i]? with
  | some ⟨key, .missed⟩ =>
    if (s.cache.lru.map fun p => p.2.size).sum + s.inFlight + raw.length < 2 ^ 64 then
      some { s.setPc i key (.loaded raw) with loads := (key, raw) :: s.loads }
    else none
  | _ => none

def throws (s : Lookups) (i : Nat) : Option Lookups :=
  match s.calls[i]? with
  | some ⟨key, .missed⟩ => some (s.setPc i key .ended)
  | _ => none

def insert (s : Lookups) (i : Nat) : Option Lookups :=
  match s.calls[i]? with
  | some ⟨key, .loaded block⟩ =>
    let (block, cache) := s.cache.insert key block block.length
    some ((s.setPc i key .ended).answer key block cache)
  | _ => none

def step (s : Lookups) : LookupEvent → Option Lookups
  | .find key => some (s.find key)
  | .load i raw => s.load i raw
  | .throws i => s.throws i
  | .insert i => s.insert i

/-! ## The invariant -/

/-- What every critical section leaves behind. -/
structure Consistent (capacity : Nat) (s : Lookups) : Prop where
  wf : s.cache.Wf
  limit : s.cache.capacity = capacity
  sizes : ∀ p ∈ s.cache.lru, p.2.size = p.2.block.length
  fits : s.cache.currentBytes ≤ s.cache.capacity
  recent : s.cache.Recent s.touched
  produced : s.cache.Holds fun key block => (key, block) ∈ s.loads
  loaded : ∀ call ∈ s.calls, ∀ block, call.pc = .loaded block → (call.key, block) ∈ s.loads
  returned : ∀ r ∈ s.returned, r ∈ s.loads
  memory : s.cache.currentBytes + s.inFlight < 2 ^ 64

theorem consistent_start (capacity : Nat) : (start capacity).Consistent capacity where
  wf := Cache.wf_empty capacity
  limit := rfl
  sizes := by simp [start]
  fits := Nat.zero_le _
  recent := Cache.recent_nil
  produced := by simp [start, Cache.Holds]
  loaded := by simp [start]
  returned := by simp [start]
  memory := by simp [start, inFlight]

/-- What replacing one call does to a sum over the calls. -/
theorem sum_set {calls : List Lookup} {i : Nat} {call : Lookup} (h : calls[i]? = some call)
    (call' : Lookup) : ((calls.set i call').map Lookup.bytes).sum + call.bytes =
      (calls.map Lookup.bytes).sum + call'.bytes := by
  induction calls generalizing i with
  | nil => simp at h
  | cons c calls ih =>
    cases i with
    | zero =>
      obtain rfl := Option.some.inj h
      simp only [List.set_cons_zero, List.map_cons, List.sum_cons]
      omega
    | succ i =>
      have := ih (i := i) h
      simp only [List.set_cons_succ, List.map_cons, List.sum_cons]
      omega

variable {capacity : Nat} {s s' : Lookups} {i : Nat} {key : CacheKey}

theorem Consistent.find (h : s.Consistent capacity) (key : CacheKey) : (s.find key).Consistent capacity := by
  unfold Lookups.find
  split
  · rename_i block cache ht
    obtain ⟨hwf, hproduced, hblock⟩ := Cache.touch_spec h.wf h.produced ht
    obtain ⟨hbytes, hcap⟩ := Cache.touch_bytes h.wf ht
    exact {
      wf := hwf
      limit := hcap.trans h.limit
      sizes := fun p hp => h.sizes p (Cache.mem_touch h.wf ht hp)
      fits := by
        show cache.currentBytes ≤ cache.capacity
        rw [hbytes, hcap]
        exact h.fits
      recent := h.recent.touch h.wf ht
      produced := hproduced
      loaded := h.loaded
      returned := List.forall_mem_cons.2 ⟨hblock, h.returned⟩
      memory := by
        show cache.currentBytes + s.inFlight < 2 ^ 64
        rw [hbytes]
        exact h.memory }
  · refine { h with loaded := ?_, memory := ?_ }
    · intro call hcall block hpc
      rcases List.mem_append.1 hcall with hcall | hcall
      · exact h.loaded call hcall block hpc
      · rw [List.mem_singleton.1 hcall] at hpc
        cases hpc
    · have := h.memory
      simpa [inFlight, Lookup.bytes] using this

/-- A call that is set to a block it has loaded, or to none. -/
theorem Consistent.setPc_loaded (h : s.Consistent capacity) {pc : LookupPc} {loads : List (CacheKey × Bytes)}
    (hloads : s.loads ⊆ loads) (hpc : ∀ block, pc = .loaded block → (key, block) ∈ loads) :
    ∀ call ∈ (s.setPc i key pc).calls, ∀ block, call.pc = .loaded block →
      (call.key, block) ∈ loads := by
  intro call hcall block hb
  rcases List.mem_or_eq_of_mem_set hcall with hcall | rfl
  · exact hloads (h.loaded call hcall block hb)
  · exact hpc block hb

theorem Consistent.load (h : s.Consistent capacity) {raw : Bytes} (hs : s.load i raw = some s') :
    s'.Consistent capacity := by
  unfold Lookups.load at hs
  split at hs
  · rename_i key hcall
    split at hs
    · rename_i hmem
      obtain rfl := Option.some.inj hs
      have hsub : s.loads ⊆ (key, raw) :: s.loads := List.subset_cons_self _ _
      have hsum := sum_set hcall ⟨key, .loaded raw⟩
      refine { h with
        produced := h.produced.mono fun _ _ hb => hsub hb
        loaded := h.setPc_loaded hsub ?_
        returned := fun r hr => hsub (h.returned r hr)
        memory := ?_ }
      · rintro block hb
        obtain rfl := LookupPc.loaded.inj hb
        exact List.mem_cons_self
      · rw [← h.wf.bytes] at hmem
        simp only [inFlight, setPc, Lookup.bytes] at hmem hsum ⊢
        omega
    · simp at hs
  · simp at hs

theorem Consistent.throws (h : s.Consistent capacity) (hs : s.throws i = some s') : s'.Consistent capacity := by
  unfold Lookups.throws at hs
  split at hs
  · rename_i key hcall
    obtain rfl := Option.some.inj hs
    have hsum := sum_set hcall ⟨key, .ended⟩
    refine { h with
      loaded := h.setPc_loaded (List.Subset.refl _) fun _ hb => by cases hb
      memory := ?_ }
    have := h.memory
    simp only [inFlight, setPc, Lookup.bytes] at this hsum ⊢
    omega
  · simp at hs

theorem Consistent.insert (h : s.Consistent capacity) (hs : s.insert i = some s') : s'.Consistent capacity := by
  unfold Lookups.insert at hs
  split at hs
  · rename_i key block hcall
    obtain rfl := Option.some.inj hs
    have hblock : (key, block) ∈ s.loads := h.loaded _ (List.mem_of_getElem? hcall) block rfl
    obtain ⟨hwf, hproduced, hanswer⟩ := Cache.insert_spec h.wf h.produced hblock block.length
    obtain ⟨hfits, hcap, hbytes⟩ := Cache.insert_bytes h.wf h.fits key block block.length
    have hsum := sum_set hcall ⟨key, .ended⟩
    exact {
      wf := hwf
      limit := hcap.trans h.limit
      sizes := fun p hp => by
        rcases Cache.mem_insert h.wf hp with hp | hp
        · exact h.sizes p hp
        · rw [hp]
      fits := hfits
      recent := h.recent.insert h.wf key block block.length
      produced := hproduced
      loaded := h.setPc_loaded (List.Subset.refl _) fun _ hb => by cases hb
      returned := List.forall_mem_cons.2 ⟨hanswer, h.returned⟩
      memory := by
        -- the block moves from the call into the cache, or is dropped
        show (s.cache.insert key block block.length).2.currentBytes +
          (s.setPc i key .ended).inFlight < 2 ^ 64
        have := h.memory
        simp only [inFlight, setPc, Lookup.bytes] at this hsum ⊢
        omega }
  · simp at hs

theorem Consistent.step (h : s.Consistent capacity) {ev : LookupEvent} (hs : s.step ev = some s') :
    s'.Consistent capacity := by
  cases ev with
  | find key => exact Option.some.inj hs ▸ h.find key
  | load i raw => exact h.load hs
  | throws i => exact h.throws hs
  | insert i => exact h.insert hs

theorem consistent_run {evs : List LookupEvent}
    (hrun : Steps.run Lookups.step (Lookups.start capacity) evs = some s) :
    s.Consistent capacity :=
  Steps.run_invariant (fun _ _ _ h _ hs => h.step hs) (consistent_start capacity)
    (Steps.Meets.of_forall fun _ _ => trivial) hrun

end Lookups

/-- **The representation invariant of the block cache**, after every critical section of any
    interleaving of any calls. -/
theorem get_or_load_invariant {capacity : Nat} {evs : List LookupEvent} {s : Lookups}
    (hrun : Steps.run Lookups.step (Lookups.start capacity) evs = some s) :
    (s.cache.lru.map fun p => p.2.key).Nodup ∧
    (∀ key id, s.cache.find key = some id ↔ ∃ node, (id, node) ∈ s.cache.lru ∧ node.key = key) ∧
    s.cache.currentBytes = (s.cache.lru.map fun p => p.2.block.length).sum ∧
    s.cache.currentBytes ≤ capacity ∧
    (∀ call ∈ s.calls, s.cache.currentBytes + call.bytes < 2 ^ 64) ∧
    (s.cache.lru.Pairwise fun p q =>
      s.touched.idxOf p.2.key < s.touched.idxOf q.2.key) ∧
    ∀ r ∈ s.returned, r ∈ s.loads := by
  have h := Lookups.consistent_run hrun
  refine ⟨h.wf.keys, fun key id => Cache.find_eq_some h.wf, ?_, h.limit ▸ h.fits, fun call hcall => ?_,
    h.recent.ordered, h.returned⟩
  · rw [h.wf.bytes]
    exact congrArg List.sum (List.map_congr_left h.sizes)
  · have hle : call.bytes ≤ s.inFlight := List.single_le_sum (by simp) _ (List.mem_map_of_mem hcall)
    have := h.memory
    omega

/-- Two calls load the same block and the second one drops its copy; a block over the capacity
    drops everything, itself included. -/
def racingLookups : List LookupEvent :=
  [.find ⟨1, 0⟩, .find ⟨1, 0⟩, .load 0 [1], .load 1 [2], .insert 0, .insert 1, .find ⟨1, 8⟩,
    .load 2 [3, 4, 5], .insert 2]

theorem get_or_load_invariant_race : ∃ s,
    Steps.run Lookups.step (Lookups.start 2) racingLookups = some s ∧
    s.returned = [(⟨1, 8⟩, [3, 4, 5]), (⟨1, 0⟩, [1]), (⟨1, 0⟩, [1])] ∧ s.cache.currentBytes = 0 ∧
    ∀ r ∈ s.returned, r ∈ s.loads :=
  ⟨_, rfl, rfl, rfl, (@get_or_load_invariant 2 racingLookups _ rfl).2.2.2.2.2.2⟩

end Keystone
