/-
  Reference counts on two levels.

  Objects hold parts, and both are shared: an object lives while something refers to it, a part
  while an object or a copy refers to it. `Heap` is what such a program has, the counters;
  `Sound refs copies` relates them to the references that are really there, which no operation
  looks at.

  An object whose last reference goes away gives up its parts one at a time: they are `dying` until
  `drop` takes one of them, and other operations may come in between. Every operation keeps the
  counters right (`Sound.make` to `Sound.drop`). Hence an object lives exactly as long as
  something refers to it (`Sound.alive`), and `drop` destroys a part exactly if no reference to it
  is left (`Sound.drop`).
-/
import Mathlib

namespace RefCount

/-! ## Counters -/

section Counters

variable {α : Type*} [DecidableEq α] {uses : α → Nat} {refs refs' : List α} {a : α}

def retain (uses : α → Nat) (a : α) : α → Nat := Function.update uses a (uses a + 1)

def release (uses : α → Nat) (a : α) : α → Nat := Function.update uses a (uses a - 1)

def retainAll (uses : α → Nat) (as : List α) : α → Nat := as.foldl retain uses

/-- The counters say how many references there are. -/
def Counts (uses : α → Nat) (refs : List α) : Prop := ∀ a, uses a = refs.count a

theorem Counts.perm (h : Counts uses refs) (hp : refs.Perm refs') : Counts uses refs' := fun a =>
  (h a).trans (hp.count_eq a)

theorem Counts.retain (h : Counts uses refs) (a : α) : Counts (retain uses a) (a :: refs) := by
  intro b
  rcases eq_or_ne b a with rfl | hb
  · rw [RefCount.retain, Function.update_self, List.count_cons_self, h b]
  · rw [RefCount.retain, Function.update_of_ne hb, List.count_cons_of_ne hb.symm, h b]

theorem Counts.retainAll (h : Counts uses refs) (as : List α) :
    Counts (retainAll uses as) (as ++ refs) := by
  induction as generalizing uses refs with
  | nil => exact h
  | cons a as ih => exact (ih (h.retain a)).perm List.perm_middle

theorem Counts.release (h : Counts uses (a :: refs)) : Counts (release uses a) refs := by
  intro b
  rcases eq_or_ne b a with rfl | hb
  · rw [RefCount.release, Function.update_self, h b, List.count_cons_self, Nat.add_sub_cancel]
  · rw [RefCount.release, Function.update_of_ne hb, h b, List.count_cons_of_ne hb.symm]

theorem Counts.eq_zero_iff (h : Counts uses refs) : uses a = 0 ↔ a ∉ refs := by
  rw [h a, List.count_eq_zero]

end Counters

/-! ## Objects and their parts -/

/-- The objects that live, each with its identity, and the counters. `fresh` is an identity that
    no object has had; `dying` are references to parts that are about to be given up. -/
structure Heap (α β : Type*) where
  objects : List (Nat × β) := []
  fresh : Nat := 0
  uses : Nat → Nat := fun _ => 0
  partUses : α → Nat := fun _ => 0
  dying : List α := []

namespace Heap

variable {α β : Type*} [DecidableEq α] (parts : β → List α)

section Operations

variable (h : Heap α β)

/-- A new object, with one reference to it and one of it to each of its parts. -/
def make (b : β) : Heap α β :=
  { h with
    objects := (h.fresh, b) :: h.objects
    fresh := h.fresh + 1
    uses := retain h.uses h.fresh
    partUses := retainAll h.partUses (parts b) }

/-- One more reference to an object. -/
def share (id : Nat) : Heap α β := { h with uses := retain h.uses id }

/-- A reference to an object goes away. -/
def release (id : Nat) : Heap α β :=
  let uses := RefCount.release h.uses id
  if uses id = 0 then
    { h with
      uses := uses
      objects := h.objects.filter fun o => !decide (o.1 = id)
      dying := h.dying ++ (h.objects.filter fun o => decide (o.1 = id)).flatMap (parts ·.2) }
  else { h with uses := uses }

/-- A reference passes from an object to a new one. -/
def replace (id : Nat) (b : β) : Heap α β := (h.make parts b).release parts id

/-- References to parts that belong to no object. -/
def copy (as : List α) : Heap α β := { h with partUses := retainAll h.partUses as }

/-- The end of such references. -/
def discard (as : List α) : Heap α β := { h with dying := h.dying ++ as }

/-- Gives up a reference to a part; the flag says that the part is destroyed. -/
def drop (a : α) : Option (Heap α β × Bool) :=
  if a ∈ h.dying then
    let partUses := RefCount.release h.partUses a
    some ({ h with partUses := partUses, dying := h.dying.erase a }, partUses a = 0)
  else none

/-- All references to parts. -/
def live (copies : List α) : List α := h.objects.flatMap (parts ·.2) ++ copies ++ h.dying

end Operations

/-- The counters are right for the references `refs` to objects and `copies` to parts, and exactly
    the objects that are referred to live. -/
structure Sound (h : Heap α β) (refs : List Nat) (copies : List α) : Prop where
  uses : Counts h.uses refs
  partUses : Counts h.partUses (h.live parts copies)
  ids : (h.objects.map Prod.fst).Nodup
  below : ∀ o ∈ h.objects, o.1 < h.fresh
  alive : ∀ id, id ∈ refs ↔ id ∈ h.objects.map Prod.fst

variable {parts} {h h' : Heap α β} {refs refs' : List Nat} {copies copies' : List α} {id : Nat}

theorem live_make (h : Heap α β) (parts : β → List α) (copies : List α) (b : β) :
    (h.make parts b).live parts copies = parts b ++ h.live parts copies := by
  simp only [live, make, List.flatMap_cons, List.append_assoc]

theorem live_copy (h : Heap α β) (parts : β → List α) (copies as : List α) :
    ((h.copy as).live parts (as ++ copies)).Perm (as ++ h.live parts copies) := by
  simp only [live, copy, List.append_assoc]
  exact List.perm_append_comm_assoc _ _ _

theorem live_discard (h : Heap α β) (parts : β → List α) (copies as : List α) :
    ((h.discard as).live parts copies).Perm (h.live parts (as ++ copies)) := by
  refine List.perm_iff_count.2 fun a => ?_
  simp only [live, discard, List.count_append]
  omega

/-- The parts of an object that is released pass from it to `dying`. -/
theorem live_release (h : Heap α β) (parts : β → List α) (copies : List α) (id : Nat) :
    ((h.release parts id).live parts copies).Perm (h.live parts copies) := by
  unfold release
  dsimp only
  split
  · have hsplit := (List.filter_append_perm (fun o => decide (o.1 = id)) h.objects).flatMap_right
      (parts ·.2)
    refine List.perm_iff_count.2 fun a => ?_
    have hcount := hsplit.count_eq a
    simp only [List.flatMap_append, List.count_append] at hcount
    simp only [live, List.count_append]
    omega
  · exact List.Perm.refl _

omit [DecidableEq α] in
theorem release_objects (id : Nat) : ∀ o ∈ (h.release parts id).objects, o ∈ h.objects := by
  intro o ho
  unfold release at ho
  dsimp only at ho
  split at ho
  · exact (List.mem_filter.1 ho).1
  · exact ho

theorem replace_objects (id : Nat) (b : β) :
    ∀ o ∈ (h.replace parts id b).objects, o ∈ h.objects ∨ o.2 = b := by
  intro o ho
  rcases List.mem_cons.1 (release_objects id o ho) with rfl | ho
  · exact Or.inr rfl
  · exact Or.inl ho

theorem live_replace (h : Heap α β) (parts : β → List α) (copies : List α) (id : Nat) (b : β) :
    ((h.replace parts id b).live parts copies).Perm (parts b ++ h.live parts copies) :=
  live_make h parts copies b ▸ live_release (h.make parts b) parts copies id

theorem drop_inv {a : α} {dead : Bool} (hd : h.drop a = some (h', dead)) :
    a ∈ h.dying ∧ dead = decide (RefCount.release h.partUses a a = 0) ∧ h' = { h with
      partUses := RefCount.release h.partUses a
      dying := h.dying.erase a } := by
  unfold drop at hd
  split at hd
  · rename_i ha
    obtain ⟨rfl, rfl⟩ := Prod.mk.inj (Option.some.inj hd)
    exact ⟨ha, rfl, rfl⟩
  · simp at hd

theorem live_drop (parts : β → List α) (copies : List α) {a : α} {dead : Bool}
    (hd : h.drop a = some (h', dead)) :
    (h.live parts copies).Perm (a :: h'.live parts copies) := by
  obtain ⟨ha, -, rfl⟩ := drop_inv hd
  have hperm : (h.objects.flatMap (parts ·.2) ++ copies ++ h.dying).Perm _ :=
    (List.perm_cons_erase ha).append_left _
  exact hperm.trans List.perm_middle

namespace Sound

theorem empty : ({} : Heap α β).Sound parts [] [] :=
  ⟨fun _ => rfl, fun _ => rfl, List.nodup_nil, fun _ ho => absurd ho List.not_mem_nil,
    fun _ => Iff.rfl⟩

theorem perm (hs : h.Sound parts refs copies) (hr : refs.Perm refs') (hc : copies.Perm copies') :
    h.Sound parts refs' copies' where
  uses := hs.uses.perm hr
  partUses := hs.partUses.perm ((hc.append_left _).append_right _)
  ids := hs.ids
  below := hs.below
  alive id := (hr.mem_iff (a := id)).symm.trans (hs.alive id)

/-- An identity is of one object. -/
theorem unique (hs : h.Sound parts refs copies) {b b' : β} (hb : (id, b) ∈ h.objects)
    (hb' : (id, b') ∈ h.objects) : b = b' :=
  (Prod.mk.inj (List.inj_on_of_nodup_map hs.ids hb hb' rfl)).2

theorem mem_refs (hs : h.Sound parts refs copies) {b : β} (hb : (id, b) ∈ h.objects) : id ∈ refs :=
  (hs.alive id).2 (List.mem_map_of_mem hb)

theorem make (hs : h.Sound parts refs copies) (b : β) :
    (h.make parts b).Sound parts (h.fresh :: refs) copies where
  uses := hs.uses.retain h.fresh
  partUses := by
    rw [live_make]
    exact hs.partUses.retainAll (parts b)
  ids := by
    refine List.nodup_cons.2 ⟨fun hmem => ?_, hs.ids⟩
    obtain ⟨o, ho, he⟩ := List.mem_map.1 hmem
    exact (hs.below o ho).ne he
  below := List.forall_mem_cons.2
    ⟨Nat.lt_succ_self h.fresh, fun o ho => Nat.lt_succ_of_lt (hs.below o ho)⟩
  alive id := by
    show _ ↔ id ∈ h.fresh :: h.objects.map Prod.fst
    rw [List.mem_cons, List.mem_cons, hs.alive id]

theorem share (hs : h.Sound parts refs copies) (hid : id ∈ refs) :
    (h.share id).Sound parts (id :: refs) copies where
  uses := hs.uses.retain id
  partUses := hs.partUses
  ids := hs.ids
  below := hs.below
  alive id' := by
    rw [List.mem_cons, show (h.share id).objects = h.objects from rfl, ← hs.alive id']
    exact or_iff_right_of_imp fun he => he ▸ hid

theorem release (hs : h.Sound parts (id :: refs) copies) :
    (h.release parts id).Sound parts refs copies := by
  have huses : Counts (RefCount.release h.uses id) refs := hs.uses.release
  have hparts : Counts h.partUses ((h.release parts id).live parts copies) :=
    hs.partUses.perm (live_release h parts copies id).symm
  unfold Heap.release at hparts ⊢
  dsimp only at hparts ⊢
  split at hparts
  · rename_i hzero
    have hgone : id ∉ refs := huses.eq_zero_iff.1 hzero
    rw [if_pos hzero]
    refine ⟨huses, hparts, hs.ids.sublist (List.filter_sublist.map _),
      fun o ho => hs.below o (List.mem_filter.1 ho).1, fun id' => ?_⟩
    have hfilter : id' ∈ (h.objects.filter fun o => !decide (o.1 = id)).map Prod.fst ↔
        id' ∈ h.objects.map Prod.fst ∧ id' ≠ id := by
      simp only [List.mem_map, List.mem_filter, Bool.not_eq_true', decide_eq_false_iff_not]
      exact ⟨fun ⟨o, ho, he⟩ => ⟨⟨o, ho.1, he⟩, he ▸ ho.2⟩,
        fun ⟨⟨o, ho, he⟩, hne⟩ => ⟨o, ⟨ho, he ▸ hne⟩, he⟩⟩
    rw [hfilter, ← hs.alive id', List.mem_cons]
    refine ⟨fun hid => ⟨Or.inr hid, fun he => hgone (he ▸ hid)⟩, fun hid => ?_⟩
    exact hid.1.resolve_left hid.2
  · rename_i hpos
    have hleft : id ∈ refs := not_not.1 (mt huses.eq_zero_iff.2 hpos)
    rw [if_neg hpos]
    refine ⟨huses, hparts, hs.ids, hs.below, fun id' => ?_⟩
    rw [← hs.alive id', List.mem_cons]
    exact (or_iff_right_of_imp fun he => he ▸ hleft).symm

/-- What is still referred to survives a release. -/
theorem mem_release (hs : h.Sound parts (id :: refs) copies) {o : Nat × β} (href : o.1 ∈ refs) :
    o ∈ (h.release parts id).objects ↔ o ∈ h.objects := by
  refine ⟨release_objects id o, fun ho => ?_⟩
  obtain ⟨o', ho', he⟩ := List.mem_map.1 ((hs.release.alive o.1).1 href)
  have hsame : o' = o := List.inj_on_of_nodup_map hs.ids (release_objects id o' ho') ho he
  exact hsame ▸ ho'

theorem replace (hs : h.Sound parts (id :: refs) copies) (b : β) :
    (h.replace parts id b).Sound parts (h.fresh :: refs) copies :=
  ((hs.make b).perm (List.Perm.swap id h.fresh refs) (List.Perm.refl _)).release

theorem new_mem_replace (hs : h.Sound parts (id :: refs) copies) (b : β) :
    (h.fresh, b) ∈ (h.replace parts id b).objects :=
  (((hs.make b).perm (List.Perm.swap id h.fresh refs) (List.Perm.refl _)).mem_release
    List.mem_cons_self).2 List.mem_cons_self

theorem mem_replace (hs : h.Sound parts (id :: refs) copies) (b : β) {o : Nat × β}
    (href : o.1 ∈ refs) : o ∈ (h.replace parts id b).objects ↔ o ∈ h.objects := by
  have hold : o.1 < h.fresh := by
    obtain ⟨o', ho', he⟩ := List.mem_map.1 ((hs.alive o.1).1 (List.mem_cons_of_mem id href))
    exact he ▸ hs.below o' ho'
  have hne : o ≠ (h.fresh, b) := fun he => hold.ne (congrArg Prod.fst he)
  refine Iff.trans (((hs.make b).perm (List.Perm.swap id h.fresh refs)
    (List.Perm.refl _)).mem_release (List.mem_cons_of_mem _ href)) ?_
  exact List.mem_cons.trans (or_iff_right hne)

theorem copy (hs : h.Sound parts refs copies) (as : List α) :
    (h.copy as).Sound parts refs (as ++ copies) :=
  ⟨hs.uses, (hs.partUses.retainAll as).perm (live_copy h parts copies as).symm, hs.ids, hs.below,
    hs.alive⟩

theorem discard {as : List α} (hs : h.Sound parts refs (as ++ copies)) :
    (h.discard as).Sound parts refs copies :=
  ⟨hs.uses, hs.partUses.perm (live_discard h parts copies as).symm, hs.ids, hs.below, hs.alive⟩

/-- **A part is destroyed exactly if no reference to it is left.** -/
theorem drop (hs : h.Sound parts refs copies) {a : α} {dead : Bool}
    (hd : h.drop a = some (h', dead)) :
    h'.Sound parts refs copies ∧ (dead = true ↔ a ∉ h'.live parts copies) := by
  have hlive := live_drop parts copies hd
  obtain ⟨-, rfl, rfl⟩ := drop_inv hd
  have hparts := (hs.partUses.perm hlive).release
  exact ⟨⟨hs.uses, hparts, hs.ids, hs.below, hs.alive⟩, decide_eq_true_iff.trans hparts.eq_zero_iff⟩

end Sound

end Heap

end RefCount
