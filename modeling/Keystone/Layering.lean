/-
  The order of ages and of key ranges in a version, and what a pick makes of it.

  In a layered version every entry of a key in a lower level, or in a later file of L0, is at
  least as new as one below it. `Placed` is what the commit of a round needs to keep that: the
  files outside the round lie wholly above or below it in age, and beside it in key range. Both
  are stated over an order of age: `NotOlder`, or `Covers` where a crash has left copies.

  * `placed_pick`: a picked round is placed, if no file of the output level lies within the
    hull of its inputs.
  * `hullClear_pick`: which the pick makes sure of, unless the range of L0 was lost.
  * `overlapClosed_iff`: exactly when it does, for files of which only the key ranges are known.
-/
import Keystone.LiveFile

namespace Keystone

/-- No entry of `ys` is newer than one of `xs` of its key. -/
def NotOlder (xs ys : List Entry) : Prop :=
  ∀ x ∈ xs, ∀ y ∈ ys, x.key = y.key → y.seq ≤ x.seq

instance (xs ys : List Entry) : Decidable (NotOlder xs ys) :=
  inferInstanceAs (Decidable (∀ x ∈ xs, ∀ y ∈ ys, _))

/-- An entry of `ys` that is newer than one of `xs` of its key is in `xs` too. -/
def Covers (xs ys : List Entry) : Prop :=
  ∀ x ∈ xs, ∀ y ∈ ys, x.key = y.key → y.seq ≤ x.seq ∨ y ∈ xs

theorem NotOlder.covers {xs ys : List Entry} (h : NotOlder xs ys) : Covers xs ys :=
  fun x hx y hy hk => Or.inl (h x hx y hy hk)

/-- An order of age between entry lists: it is decided entry by entry on the right, and says
    nothing of lists without a common key. -/
structure AgeOrder (R : List Entry → List Entry → Prop) : Prop where
  of_keys_ne : ∀ {xs ys}, (∀ x ∈ xs, ∀ y ∈ ys, x.key ≠ y.key) → R xs ys
  of_mem : ∀ {xs ys}, (∀ y ∈ ys, ∃ zs, y ∈ zs ∧ R xs zs) → R xs ys

theorem ageOrder_notOlder : AgeOrder NotOlder where
  of_keys_ne := fun h x hx y hy hk => absurd hk (h x hx y hy)
  of_mem := by
    intro xs ys h x hx y hy hk
    obtain ⟨zs, hz, hR⟩ := h y hy
    exact hR x hx y hz hk

theorem ageOrder_covers : AgeOrder Covers where
  of_keys_ne := fun h x hx y hy hk => absurd hk (h x hx y hy)
  of_mem := by
    intro xs ys h x hx y hy hk
    obtain ⟨zs, hz, hR⟩ := h y hy
    exact hR x hx y hz hk

namespace Version

/-- Later files of L0 are above earlier ones, and levels above those behind them. -/
structure LayeredBy (R : List Entry → List Entry → Prop) (ver : Version) : Prop where
  l0 : (ver.files 0).Pairwise fun f g => R g.contents f.contents
  levels : ∀ i j, i < j → ∀ f ∈ ver.files i, ∀ g ∈ ver.files j, R f.contents g.contents

theorem LayeredBy.imp {R S : List Entry → List Entry → Prop} {ver : Version} (h : ver.LayeredBy R)
    (hRS : ∀ {xs ys}, R xs ys → S xs ys) : ver.LayeredBy S :=
  ⟨h.l0.imp hRS, fun i j hij f hf g hg => hRS (h.levels i j hij f hf g hg)⟩

/-- Later files of L0, and lower-numbered levels, hold the newer entries of each key. -/
def Layered (ver : Version) : Prop := ver.LayeredBy NotOlder

/-- The levels from 1 on are sorted and disjoint in key range. -/
def Disjoint (ver : Version) : Prop :=
  ∀ l, 1 ≤ l → (ver.files l).Pairwise fun f g => f.largestKey < g.smallestKey

end Version

/-- Two files with no key in between. -/
def FileMeta.Apart (f g : FileMeta) : Prop :=
  f.largestKey < g.smallestKey ∨ g.largestKey < f.smallestKey

theorem FileMeta.Apart.key_ne {f g : FileMeta} (h : f.Apart g) (hf : f.Ok) (hg : g.Ok) {x y : Entry}
    (hx : x ∈ f.contents) (hy : y ∈ g.contents) : x.key ≠ y.key := by
  obtain ⟨hx1, hx2⟩ := hf.key_mem hx
  obtain ⟨hy1, hy2⟩ := hg.key_mem hy
  rcases h with h | h
  · exact ne_of_lt (lt_of_le_of_lt hx2 (lt_of_lt_of_le h hy1))
  · exact ne_of_gt (lt_of_le_of_lt hy2 (lt_of_lt_of_le h hx1))

theorem FileMeta.Ok.range_le {f : FileMeta} (h : f.Ok) : f.smallestKey ≤ f.largestKey := by
  obtain ⟨e, he⟩ := List.exists_mem_of_ne_nil _ h.ne_nil
  exact le_trans (h.key_mem he).1 (h.key_mem he).2

theorem AgeOrder.of_apart {R : List Entry → List Entry → Prop} (hR : AgeOrder R) {f g : FileMeta}
    (h : f.Apart g) (hf : f.Ok) (hg : g.Ok) : R f.contents g.contents :=
  hR.of_keys_ne fun _ hx _ hy => h.key_ne hf hg hx hy

instance : Std.Symm FileMeta.Apart := ⟨fun _ _ h => h.symm⟩

theorem pairwise_apart {files : List FileMeta}
    (h : files.Pairwise fun f g => f.largestKey < g.smallestKey) {f g : FileMeta}
    (hf : f ∈ files) (hg : g ∈ files) (hne : f ≠ g) : f.Apart g := by
  have hp : files.Pairwise FileMeta.Apart := h.imp Or.inl
  exact hp.forall hf hg hne

/-- No file of the output level that stays lies within the hull of the inputs. -/
def HullClear (ver : Version) (job : CompactionJob) : Prop :=
  ∀ g ∈ ver.files job.outputLevel, g ∉ job.inputs →
    (∀ f ∈ job.inputs, g.largestKey < f.smallestKey) ∨
      (∀ f ∈ job.inputs, f.largestKey < g.smallestKey)

/-! ## The shape of a picked round -/

section Pick

variable {ver : Version} {opts : Options} {force : Bool}

theorem maxPopulatedLevel_spec {l : Level} (h : ver.maxPopulatedLevel < l) : ver.files l = [] := by
  by_contra hne
  have hmem : l ∈ (List.finRange kMaxLevels).reverse := by simp
  have hdec : (List.finRange kMaxLevels).reverse.Pairwise (· > ·) := by decide
  unfold Version.maxPopulatedLevel at h
  cases hm : (List.finRange kMaxLevels).reverse.find? fun l => decide (ver.files l ≠ []) with
  | none => exact absurd (List.find?_eq_none.1 hm l hmem) (by simpa using hne)
  | some m =>
    rw [hm, Option.getD_some] at h
    obtain ⟨-, as, bs, hsplit, has⟩ := List.find?_eq_some_iff_append.1 hm
    rw [hsplit] at hmem hdec
    rcases List.mem_append.1 hmem with hl | hl
    · simpa [hne] using has l hl
    · rcases List.mem_cons.1 hl with rfl | hl
      · exact lt_irrefl _ h
      · exact lt_asymm h ((List.pairwise_cons.1 (List.pairwise_append.1 hdec).2.1).1 l hl)

/-- The round of an overfull level: its parameters. -/
theorem overflowLevels_succ {level next : Level} (h : (level, next) ∈ overflowLevels) :
    1 ≤ level ∧ level < next ∧ ∀ l : Level, l < next → l ≤ level := by
  revert level next
  decide

variable (hlevel : ∀ l, ∀ f ∈ ver.files l, f.level = l)
include hlevel

/-- Above the output level: a file that stays is in a level above the input, or beside it. -/
theorem above_pick {i : Level} {f h : FileMeta} (hf : f ∈ ver.files i)
    (hout : f ∉ (pickCompaction opts force ver).inputs)
    (hin : h ∈ (pickCompaction opts force ver).inputs)
    (hlt : i < (pickCompaction opts force ver).outputLevel) :
    i < h.level ∨ (1 ≤ i ∧ h ∈ ver.files i) := by
  rcases pickCompaction_cases opts force ver with
    ⟨-, hj⟩ | ⟨-, hj⟩ | ⟨level, next, pick, hl, hpick, hj⟩ | hj
  · rw [hj, forcedJob] at hout
    refine absurd (Version.mem_allFiles.2 ⟨i, hf⟩) ?_
    split at hout <;> exact hout
  · rw [hj] at hout hlt
    -- only L0 is above level 1, and all of it is merged
    obtain rfl : i = 0 := (by decide : ∀ i : Level, i < 1 → i = 0) i hlt
    exact absurd (List.mem_append_left _ hf) hout
  · obtain ⟨h1, -, hle⟩ := overflowLevels_succ hl
    rw [hj] at hin hlt
    have hi := hle i hlt
    rcases List.mem_cons.1 hin with rfl | hin
    · rcases lt_or_eq_of_le hi with hi | rfl
      · exact Or.inl (by rwa [hlevel level h hpick])
      · exact Or.inr ⟨h1, hpick⟩
    · refine Or.inl ?_
      rw [hlevel next h (List.mem_filter.1 hin).1]
      exact hlt
  · rw [hj] at hin
    simp at hin

/-- Below the output level: a file that stays is below every input. -/
theorem below_pick {i : Level} {f h : FileMeta} (hf : f ∈ ver.files i)
    (hout : f ∉ (pickCompaction opts force ver).inputs)
    (hin : h ∈ (pickCompaction opts force ver).inputs)
    (hlt : (pickCompaction opts force ver).outputLevel < i) : h.level < i := by
  rcases pickCompaction_cases opts force ver with
    ⟨-, hj⟩ | ⟨-, hj⟩ | ⟨level, next, pick, hl, hpick, hj⟩ | hj
  · rw [hj, forcedJob] at hout
    refine absurd (Version.mem_allFiles.2 ⟨i, hf⟩) ?_
    split at hout <;> exact hout
  · rw [hj] at hin hlt
    have hlt : (1 : Level) < i := hlt
    rcases List.mem_append.1 hin with hin | hin
    · rw [hlevel 0 h hin]
      exact lt_trans (by decide) hlt
    · rw [hlevel 1 h (List.mem_filter.1 hin).1]
      exact hlt
  · obtain ⟨-, hnext, -⟩ := overflowLevels_succ hl
    rw [hj] at hin hlt
    have hlt : next < i := hlt
    rcases List.mem_cons.1 hin with rfl | hin
    · rw [hlevel level h hpick]
      exact lt_trans hnext hlt
    · rw [hlevel next h (List.mem_filter.1 hin).1]
      exact hlt
  · rw [hj] at hin
    simp at hin

omit hlevel in
/-- Below a bottommost round there is nothing else. -/
theorem bottommost_pick {i : Level} {f : FileMeta}
    (hb : (pickCompaction opts force ver).isBottommost = true)
    (hlt : (pickCompaction opts force ver).outputLevel < i) (hf : f ∈ ver.files i) :
    f ∈ (pickCompaction opts force ver).inputs := by
  have hempty : ∀ o : Level, ver.maxPopulatedLevel ≤ o → o < i → False := fun o hmax ho => by
    rw [maxPopulatedLevel_spec (lt_of_le_of_lt hmax ho)] at hf
    simp at hf
  rcases pickCompaction_cases opts force ver with
    ⟨-, hj⟩ | ⟨-, hj⟩ | ⟨level, next, pick, hl, hpick, hj⟩ | hj
  · rw [hj, forcedJob]
    split <;> exact Version.mem_allFiles.2 ⟨i, hf⟩
  · rw [hj] at hb hlt
    have hb : (decide (ver.maxPopulatedLevel ≤ 1) || decide (ver.maxPopulatedLevel = 0)) = true := hb
    rw [Bool.or_eq_true, decide_eq_true_eq, decide_eq_true_eq] at hb
    refine (hempty 1 ?_ hlt).elim
    rcases hb with hb | hb
    · exact hb
    · rw [hb]
      decide
  · rw [hj] at hb hlt
    exact (hempty next (of_decide_eq_true hb) hlt).elim
  · rw [hj] at hb
    simp at hb

end Pick

/-! ## Placed rounds -/

/-- Where the files outside a round are: those of the levels in front of its output level are
    above it and those behind are below, nothing of its keys is in its output level (from 1 on:
    L0 may get files meanwhile), and below a bottommost round there is nothing at all. -/
structure PlacedBy (R : List Entry → List Entry → Prop) (ver : Version) (job : CompactionJob) :
    Prop where
  above : ∀ i < job.outputLevel, ∀ f ∈ ver.files i, f ∉ job.inputs → ∀ h ∈ job.inputs,
    R f.contents h.contents
  below : ∀ i, job.outputLevel < i → ∀ f ∈ ver.files i, f ∉ job.inputs → ∀ h ∈ job.inputs,
    R h.contents f.contents
  hull : 1 ≤ job.outputLevel → HullClear ver job
  bottom : job.isBottommost = true → ∀ i, job.outputLevel < i → ∀ f ∈ ver.files i, f ∈ job.inputs

/-- Above the round nothing is older, below it nothing newer. -/
def Placed (ver : Version) (job : CompactionJob) : Prop := PlacedBy NotOlder ver job

section Placed

variable {R : List Entry → List Entry → Prop} (hR : AgeOrder R)
include hR

/-- **A picked round is placed**, if the hull of its inputs is clear. -/
theorem placed_pick {ver : Version} {opts : Options} {force : Bool}
    (hlevel : ∀ l, ∀ f ∈ ver.files l, f.level = l) (hok : ∀ f ∈ ver.allFiles, f.Ok)
    (hlay : ver.LayeredBy R) (hdis : ver.Disjoint)
    (hull : HullClear ver (pickCompaction opts force ver)) :
    PlacedBy R ver (pickCompaction opts force ver) where
  above := by
    intro i hi f hf hout h hin
    have hh := pickCompaction_inputs opts force ver h hin
    obtain ⟨l, hl⟩ := Version.mem_allFiles.1 hh
    rcases above_pick hlevel hf hout hin hi with hlt | ⟨h1, hmem⟩
    · rw [hlevel l h hl] at hlt
      exact hlay.levels i l hlt f hf h hl
    · have hne : f ≠ h := fun e => hout (e ▸ hin)
      exact hR.of_apart (pairwise_apart (hdis i h1) hf hmem hne)
        (hok f (Version.mem_allFiles.2 ⟨i, hf⟩)) (hok h hh)
  below := by
    intro i hi f hf hout h hin
    obtain ⟨l, hl⟩ := Version.mem_allFiles.1 (pickCompaction_inputs opts force ver h hin)
    have hlt := below_pick hlevel hf hout hin hi
    rw [hlevel l h hl] at hlt
    exact hlay.levels l i hlt h hl f hf
  hull := fun _ => hull
  bottom := fun hb i hi f hf => bottommost_pick hb hi hf

/-- What lies outside a bottommost round is above what it merges. -/
theorem PlacedBy.outside {ver : Version} {job : CompactionJob} (h : PlacedBy R ver job)
    (hull : HullClear ver job) (hok : ∀ f ∈ ver.allFiles, f.Ok)
    (hin : ∀ f ∈ job.inputs, f ∈ ver.allFiles)
    (hb : job.isBottommost = true) {f g : FileMeta} (hf : f ∈ ver.allFiles) (hout : f ∉ job.inputs)
    (hg : g ∈ job.inputs) : R f.contents g.contents := by
  obtain ⟨i, hi⟩ := Version.mem_allFiles.1 hf
  rcases lt_trichotomy i job.outputLevel with hlt | rfl | hlt
  · exact h.above i hlt f hi hout g hg
  · have hap : f.Apart g := (hull f hi hout).imp (fun h => h g hg) fun h => h g hg
    exact hR.of_apart hap (hok f hf) (hok g (hin g hg))
  · exact absurd (h.bottom hb i hlt f hi) hout

end Placed

/-! ## The hull of a picked round -/

/-- The range of L0 is not lost: if a file of L0 begins with the empty key, so does the last. -/
def L0RangeKept (ver : Version) : Prop :=
  (∃ f ∈ ver.files 0, f.smallestKey = []) → ∃ f ∈ (ver.files 0).getLast?, f.smallestKey = []

instance (ver : Version) : Decidable (L0RangeKept ver) := inferInstanceAs (Decidable (_ → _))

theorem l0Range_concat (files : List FileMeta) (f : FileMeta) :
    l0Range (files ++ [f]) = widenRange (l0Range files) f := by
  simp [l0Range]

theorem nil_le_bytes (b : Bytes) : ([] : Bytes) ≤ b := by
  cases b with
  | nil => exact le_rfl
  | cons x b => exact le_of_lt (List.nil_lt_cons x b)

theorem le_l0Range_snd (files : List FileMeta) :
    ∀ f ∈ files, f.largestKey ≤ (l0Range files).2 := by
  induction files using List.reverseRecOn with
  | nil => simp
  | append_singleton files g ih =>
    intro f hf
    rw [l0Range_concat]
    have hwiden : (l0Range files).2 ≤ (widenRange (l0Range files) g).2 ∧
        g.largestKey ≤ (widenRange (l0Range files) g).2 := by
      unfold widenRange
      by_cases hc : (l0Range files).2 = [] ∨ g.largestKey > (l0Range files).2
      · simp only [if_pos hc, le_refl, and_true]
        rcases hc with hc | hc
        · rw [hc]
          exact nil_le_bytes _
        · exact le_of_lt hc
      · simp only [if_neg hc, le_refl, true_and]
        exact not_lt.1 (not_or.1 hc).2
    rcases List.mem_append.1 hf with hf | hf
    · exact le_trans (ih f hf) hwiden.1
    · rw [List.mem_singleton.1 hf]
      exact hwiden.2

/-- The files of L0 behind the last one that begins with the empty key. -/
def l0Tail (files : List FileMeta) : List FileMeta := files.rtakeWhile fun f => f.smallestKey ≠ []

theorem mem_of_mem_l0Tail {files : List FileMeta} {f : FileMeta} (h : f ∈ l0Tail files) : f ∈ files :=
  (List.rtakeWhile_suffix _ _).subset h

/-- `range_min` starts over behind a file that begins with the empty key: it is the minimum of
    the files behind the last such file. -/
theorem l0Range_fst (files : List FileMeta) :
    ((l0Range files).1 = [] ↔ l0Tail files = []) ∧
      ∀ k, k < (l0Range files).1 ↔ l0Tail files ≠ [] ∧ ∀ f ∈ l0Tail files, k < f.smallestKey := by
  induction files using List.reverseRecOn with
  | nil =>
    refine ⟨iff_of_true rfl rfl, fun k => iff_of_false ?_ fun h => h.1 rfl⟩
    exact not_lt.2 (nil_le_bytes k)
  | append_singleton files g ih =>
    obtain ⟨h1, h2⟩ := ih
    rw [l0Range_concat]
    unfold widenRange
    by_cases hg : g.smallestKey = []
    · have htail : l0Tail (files ++ [g]) = [] := List.rtakeWhile_concat_neg _ _ _ (by simp [hg])
      have hmin : (if (l0Range files).1 = [] ∨ g.smallestKey < (l0Range files).1 then g.smallestKey
          else (l0Range files).1) = [] := by
        rw [hg]
        by_cases hr : (l0Range files).1 = []
        · rw [if_pos (Or.inl hr)]
        · rw [if_pos (Or.inr (lt_of_le_of_ne (nil_le_bytes _) (Ne.symm hr)))]
      rw [htail, hmin]
      exact ⟨iff_of_true rfl rfl, fun k => iff_of_false (not_lt.2 (nil_le_bytes k)) fun h => h.1 rfl⟩
    · have htail : l0Tail (files ++ [g]) = l0Tail files ++ [g] :=
        List.rtakeWhile_concat_pos _ _ _ (by simp [hg])
      have hne : l0Tail files ++ [g] ≠ [] := by simp
      rw [htail]
      by_cases hr : (l0Range files).1 = []
      · rw [if_pos (Or.inl hr), h1.1 hr]
        exact ⟨iff_of_false hg (by simp), fun k => by simp⟩
      · refine ⟨iff_of_false ?_ hne, fun k => ?_⟩
        · split
          · exact hg
          · exact hr
        · have hall : k < (l0Range files).1 ↔ ∀ f ∈ l0Tail files, k < f.smallestKey :=
            (h2 k).trans (and_iff_right (mt h1.2 hr))
          rw [List.forall_mem_append, List.forall_mem_singleton, ← hall, and_iff_right hne]
          split
          · rename_i hc
            have hlt := hc.resolve_left hr
            exact ⟨fun hk => ⟨lt_trans hk hlt, hk⟩, fun h => h.2⟩
          · rename_i hc
            exact ⟨fun hk => ⟨hk, lt_of_lt_of_le hk (not_lt.1 (not_or.1 hc).2)⟩, fun h => h.1⟩

theorem l0Range_fst_le {ver : Version} (h : L0RangeKept ver) :
    ∀ f ∈ ver.files 0, (l0Range (ver.files 0)).1 ≤ f.smallestKey := by
  intro f hf
  rw [← not_lt, (l0Range_fst (ver.files 0)).2]
  rintro ⟨hne, hlt⟩
  by_cases hempty : ∃ f ∈ ver.files 0, f.smallestKey = []
  · obtain ⟨g, hg, hk⟩ := h hempty
    obtain ⟨files, hfiles⟩ := List.getLast?_eq_some_iff.1 (Option.mem_def.1 hg)
    refine hne ?_
    rw [hfiles]
    exact List.rtakeWhile_concat_neg _ _ _ (by simp [hk])
  · have hall : l0Tail (ver.files 0) = ver.files 0 :=
      List.rtakeWhile_eq_self_iff.2 fun g hg => decide_eq_true fun hk => hempty ⟨g, hg, hk⟩
    exact lt_irrefl _ (hlt f (hall.symm ▸ hf))

theorem not_overlaps {f : FileMeta} {lo hi : Bytes} (h : ¬ f.overlaps lo hi = true) :
    f.largestKey < lo ∨ hi < f.smallestKey := by
  simpa [FileMeta.overlaps, or_iff_not_imp_left] using h

theorem overlaps_le {f : FileMeta} {lo hi : Bytes} (h : f.overlaps lo hi = true) :
    lo ≤ f.largestKey ∧ f.smallestKey ≤ hi := by
  simpa [FileMeta.overlaps] using h

/-- The files of a disjoint level that do not overlap a range leave the hull of that range and
    of those that do overlap it clear. -/
theorem hull_of_overlaps {level upper : List FileMeta} {lo hi : Bytes} {g : FileMeta}
    (hrange : g.smallestKey ≤ g.largestKey)
    (hdis : level.Pairwise fun f g => f.largestKey < g.smallestKey)
    (hlow : g.largestKey < lo → ∀ f ∈ upper, g.largestKey < f.smallestKey)
    (hhigh : ∀ f ∈ upper, f.largestKey ≤ hi) (hg : g ∈ level)
    (hout : g ∉ level.filter fun f => f.overlaps lo hi) :
    (∀ f ∈ upper ++ level.filter fun f => f.overlaps lo hi, g.largestKey < f.smallestKey) ∨
      (∀ f ∈ upper ++ level.filter fun f => f.overlaps lo hi, f.largestKey < g.smallestKey) := by
  have hno : ¬ g.overlaps lo hi = true := fun h => hout (List.mem_filter.2 ⟨hg, h⟩)
  have hsame : ∀ f ∈ level.filter (fun f => f.overlaps lo hi),
      g.Apart f ∧ lo ≤ f.largestKey ∧ f.smallestKey ≤ hi := by
    intro f hf
    obtain ⟨hmem, hov⟩ := List.mem_filter.1 hf
    exact ⟨pairwise_apart hdis hg hmem fun e => hno (e ▸ hov), overlaps_le hov⟩
  rcases not_overlaps hno with hlt | hlt
  · refine Or.inl fun f hf => ?_
    rcases List.mem_append.1 hf with hf | hf
    · exact hlow hlt f hf
    · obtain ⟨hap, hlo, -⟩ := hsame f hf
      refine hap.resolve_right fun h => ?_
      exact absurd (lt_of_le_of_lt hlo h) (not_lt.2 (le_trans hrange (le_of_lt hlt)))
  · refine Or.inr fun f hf => ?_
    rcases List.mem_append.1 hf with hf | hf
    · exact lt_of_le_of_lt (hhigh f hf) hlt
    · obtain ⟨hap, -, hhi⟩ := hsame f hf
      refine hap.resolve_left fun h => ?_
      exact absurd (lt_of_lt_of_le h hhi) (not_lt.2 (le_trans (le_of_lt hlt) hrange))

section Hull

variable {ver : Version} (hrange : ∀ f ∈ ver.allFiles, f.smallestKey ≤ f.largestKey)
  (hdis : ver.Disjoint)
include hrange hdis

/-- The round of an overfull level leaves its hull clear. -/
theorem hullClear_moveJob {level next : Level} {pick : FileMeta} (hl : (level, next) ∈ overflowLevels) :
    HullClear ver (moveJob ver next pick) := by
  obtain ⟨h1, hnext, -⟩ := overflowLevels_succ hl
  intro g hg hout
  have hlow : g.largestKey < pick.smallestKey → ∀ f ∈ [pick], g.largestKey < f.smallestKey :=
    fun hlt f hf => List.mem_singleton.1 hf ▸ hlt
  exact hull_of_overlaps (hrange g (Version.mem_allFiles.2 ⟨_, hg⟩))
    (hdis next (le_trans h1 (le_of_lt hnext))) hlow (by simp) hg
    fun h => hout (List.mem_cons_of_mem pick h)

/-- A round of L0 does so unless a file of L1 that lies before `range_min` does not lie before
    all of L0. -/
theorem hullClear_l0Job
    (h : ∀ g ∈ ver.files 1, g ∉ ver.files 0 → g.largestKey < (l0Range (ver.files 0)).1 →
      ∀ f ∈ ver.files 0, g.largestKey < f.smallestKey) : HullClear ver (l0Job ver) := by
  intro g hg hout
  exact hull_of_overlaps (hrange g (Version.mem_allFiles.2 ⟨_, hg⟩)) (hdis 1 le_rfl)
    (h g hg fun h0 => hout (List.mem_append_left _ h0)) (le_l0Range_snd _) hg
    fun h => hout (List.mem_append_right _ h)

/-- **The hull of a picked round is clear**, if a round of L0 does not lose its range. -/
theorem hullClear_pick {opts : Options} {force : Bool}
    (hkept : force = false → opts.compactionTrigger.toNat ≤ (ver.files 0).length →
      L0RangeKept ver) :
    HullClear ver (pickCompaction opts force ver) := by
  rcases pickCompaction_cases opts force ver with
    ⟨-, hj⟩ | ⟨hforce, hj⟩ | ⟨level, next, pick, hl, hpick, hj⟩ | hj
  · intro g hg hout
    rw [hj, forcedJob] at hout
    refine absurd (Version.mem_allFiles.2 ⟨_, hg⟩) ?_
    split at hout <;> exact hout
  · rw [hj]
    exact hullClear_l0Job hrange hdis fun g _ _ hlt f hf =>
      lt_of_lt_of_le hlt (l0Range_fst_le (hkept hforce.1 hforce.2) f hf)
  · rw [hj]
    exact hullClear_moveJob hrange hdis hl
  · rw [hj]
    intro g _ _
    simp

end Hull

/-! ## Overlap closure -/

/-- The key range of a file is that of its entries. -/
structure FileMeta.TrueRange (fm : FileMeta) : Prop where
  bounds : ∀ e ∈ fm.contents, fm.smallestKey ≤ e.key ∧ e.key ≤ fm.largestKey
  smallest : ∃ e ∈ fm.contents, e.key = fm.smallestKey
  largest : ∃ e ∈ fm.contents, e.key = fm.largestKey

instance (fm : FileMeta) : Decidable fm.TrueRange :=
  decidable_of_iff ((∀ e ∈ fm.contents, fm.smallestKey ≤ e.key ∧ e.key ≤ fm.largestKey) ∧
    (∃ e ∈ fm.contents, e.key = fm.smallestKey) ∧ ∃ e ∈ fm.contents, e.key = fm.largestKey)
    ⟨fun h => ⟨h.1, h.2.1, h.2.2⟩, fun h => ⟨h.bounds, h.smallest, h.largest⟩⟩

theorem FileMeta.TrueRange.le {fm : FileMeta} (h : fm.TrueRange) : fm.smallestKey ≤ fm.largestKey := by
  obtain ⟨e, he, hk⟩ := h.smallest
  exact hk ▸ (h.bounds e he).2

/-- The files of the output level that stay lie beside the hull of the inputs, and below a
    bottommost round no other file has a key of the inputs. -/
structure OverlapClosed (ver : Version) (job : CompactionJob) : Prop where
  hull : HullClear ver job
  bottom : job.isBottommost = true → ∀ l, job.outputLevel ≤ l → ∀ g ∈ ver.files l, g ∉ job.inputs →
    ∀ f ∈ job.inputs, ∀ x ∈ g.contents, ∀ y ∈ f.contents, x.key ≠ y.key

/-- No file of L1 lies before all files of L0 behind the last one that begins with the empty
    key, if there is one and it is not the last. -/
def L0RangeHarmless (ver : Version) : Prop :=
  (∃ f ∈ ver.files 0, f.smallestKey = []) → l0Tail (ver.files 0) ≠ [] →
    ∀ g ∈ ver.files 1, g ∉ ver.files 0 → ∃ f ∈ l0Tail (ver.files 0), f.smallestKey ≤ g.largestKey

instance (ver : Version) : Decidable (L0RangeHarmless ver) :=
  inferInstanceAs (Decidable (_ → _ → ∀ g ∈ ver.files 1, _ → _))

instance (ver : Version) (job : CompactionJob) : Decidable (HullClear ver job) :=
  inferInstanceAs (Decidable (∀ g ∈ ver.files job.outputLevel, _ → _))

instance (ver : Version) : Decidable ver.Disjoint :=
  inferInstanceAs (Decidable (∀ l, 1 ≤ l → _))

section Closure

variable {ver : Version} {opts : Options} (hrange : ∀ f ∈ ver.allFiles, f.TrueRange)
  (hdis : ver.Disjoint)
include hrange

theorem hullClear_l0Job_iff (hdis : ver.Disjoint) :
    HullClear ver (l0Job ver) ↔ L0RangeHarmless ver := by
  have hle : ∀ f ∈ ver.allFiles, f.smallestKey ≤ f.largestKey := fun f hf => (hrange f hf).le
  have hle0 : ∀ f ∈ ver.files 0, f.smallestKey ≤ f.largestKey :=
    fun f hf => hle f (Version.mem_allFiles.2 ⟨0, hf⟩)
  constructor
  · rintro hull ⟨f₀, hf₀, hk₀⟩ hne g hg hg0
    by_contra hno
    have hlt : ∀ f ∈ l0Tail (ver.files 0), g.largestKey < f.smallestKey :=
      fun f hf => not_le.1 fun h => hno ⟨f, hf, h⟩
    have hmin : g.largestKey < (l0Range (ver.files 0)).1 := (l0Range_fst _).2 _ |>.2 ⟨hne, hlt⟩
    -- the pick passes over `g`, which lies behind the empty key and before the tail
    have hout : g ∉ (l0Job ver).inputs := by
      intro hin
      rcases List.mem_append.1 hin with h | h
      · exact hg0 h
      · exact absurd (overlaps_le (List.mem_filter.1 h).2).1 (not_le.2 hmin)
    rcases hull g hg hout with h | h
    · have := h f₀ (List.mem_append_left _ hf₀)
      rw [hk₀] at this
      exact absurd this (not_lt.2 (nil_le_bytes _))
    · obtain ⟨f, hf⟩ := List.exists_mem_of_ne_nil _ hne
      have hf0 := mem_of_mem_l0Tail hf
      have h1 := h f (List.mem_append_left _ hf0)
      have h2 := hle g (Version.mem_allFiles.2 ⟨_, hg⟩)
      exact absurd (lt_of_lt_of_le (lt_of_le_of_lt h2 (hlt f hf)) (hle0 f hf0)) (not_lt.2 (le_of_lt h1))
  · intro h
    refine hullClear_l0Job hle hdis fun g hg hg0 hmin f hf => ?_
    obtain ⟨hne, hlt⟩ := ((l0Range_fst _).2 _).1 hmin
    by_cases hempty : ∃ f ∈ ver.files 0, f.smallestKey = []
    · obtain ⟨f', hf', hk⟩ := h hempty hne g hg hg0
      exact absurd (hlt f' hf') (not_lt.2 hk)
    · have hall : l0Tail (ver.files 0) = ver.files 0 :=
        List.rtakeWhile_eq_self_iff.2 fun f hf => decide_eq_true fun hk => hempty ⟨f, hf, hk⟩
      exact hlt f (hall.symm ▸ hf)

theorem bottom_of_hull (hull : HullClear ver (pickCompaction opts false ver)) :
    OverlapClosed ver (pickCompaction opts false ver) where
  hull := hull
  bottom := by
    intro hb l hl g hg hout f hf x hx y hy
    have hx' := (hrange g (Version.mem_allFiles.2 ⟨l, hg⟩)).bounds x hx
    have hy' := (hrange f (pickCompaction_inputs opts false ver f hf)).bounds y hy
    rcases eq_or_lt_of_le hl with rfl | hlt
    · rcases hull g hg hout with h | h
      · exact ne_of_lt (lt_of_le_of_lt hx'.2 (lt_of_lt_of_le (h f hf) hy'.1))
      · exact ne_of_gt (lt_of_le_of_lt hy'.2 (lt_of_lt_of_le (h f hf) hx'.1))
    · exact absurd (bottommost_pick hb hlt hg) hout

include hdis

/-- **When a pick is closed under overlap**: always, but for a round of L0 in which a file that
    begins with the empty key makes `range_min` start over behind a file of L1. -/
theorem overlapClosed_iff : OverlapClosed ver (pickCompaction opts false ver) ↔
    (opts.compactionTrigger.toNat ≤ (ver.files 0).length → L0RangeHarmless ver) := by
  by_cases htrigger : opts.compactionTrigger.toNat ≤ (ver.files 0).length
  · have hj : pickCompaction opts false ver = l0Job ver := by simp [pickCompaction, htrigger]
    refine ⟨fun h _ => (hullClear_l0Job_iff hrange hdis).1 (hj ▸ h.hull), fun h => ?_⟩
    refine bottom_of_hull hrange ?_
    rw [hj]
    exact (hullClear_l0Job_iff hrange hdis).2 (h htrigger)
  · refine iff_of_true (bottom_of_hull hrange ?_) fun h => absurd h htrigger
    exact hullClear_pick (fun f hf => (hrange f hf).le) hdis fun _ h => absurd h htrigger

end Closure

/-- A file with the entries `es`. -/
def fileOf (number : Nat) (level : Level) (es : List Entry) : FileMeta :=
  ⟨number, level, headKey es, lastKey es, tableOf es⟩

/-- A version with files in L0 and L1 only. -/
def twoLevels (l0 l1 : List FileMeta) : Version :=
  ⟨fun l => if l = 0 then l0 else if l = 1 then l1 else []⟩

/-- A file of L0 that begins with the empty key and holds a deletion of `1`. -/
def emptyKeyFile : FileMeta := fileOf 2 0 [⟨[], [1], false, 3⟩, ⟨[1], [], true, 4⟩]

/-- A file of L0 that lies behind it. -/
def laterFile : FileMeta := fileOf 3 0 [⟨[7], [1], false, 5⟩]

/-- A file of L1 between the two, with a value of `1`. -/
def lowerFile : FileMeta := fileOf 1 1 [⟨[1], [1], false, 1⟩, ⟨[2], [1], false, 2⟩]

theorem overlapClosed_iff_last : OverlapClosed (twoLevels [laterFile, emptyKeyFile] [lowerFile])
    (pickCompaction { compactionTrigger := 2 } false
      (twoLevels [laterFile, emptyKeyFile] [lowerFile])) :=
  (overlapClosed_iff (by decide +kernel) (by decide +kernel)).2 fun _ => by decide +kernel

/-- In the other order the file of L1 is passed over: it lies within the hull of the inputs, and
    the bottommost round drops the deletion of a key that the file still has. -/
theorem overlap_missed : ∃ ver job, job = pickCompaction { compactionTrigger := 2 } false ver ∧
    (∀ f ∈ ver.allFiles, f.TrueRange) ∧ ver.Disjoint ∧ job.inputs ≠ [] ∧ ¬ HullClear ver job ∧
    job.isBottommost = true ∧ ∃ g ∈ ver.files job.outputLevel, g ∉ job.inputs ∧
      ∃ f ∈ job.inputs, ∃ x ∈ g.contents, ∃ y ∈ f.contents, x.key = y.key :=
  ⟨twoLevels [emptyKeyFile, laterFile] [lowerFile], _, rfl, by decide +kernel⟩

end Keystone
