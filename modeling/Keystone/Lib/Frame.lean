/-
  Logs of self-delimiting records.

  A log is a list of symbols; `dec` takes one record off its front or refuses. `records dec`
  reads until `dec` refuses, as a recovery scan does. Nothing is assumed about what is in
  the log: the rules say what the scan returns in terms of what `dec` does.

  * `records_cons`, `records_stop`: one step of the scan.
  * `records_append`: records that `dec` takes back exactly are read in order, and the scan
    goes on with whatever follows them.
  * `records_torn`: a strict prefix of one further record adds nothing.
  * `Extends.refusesTorn`: a decoder that does not look beyond the record it takes, and takes the
    encoding of `a` back, refuses every strict prefix of it.
  * `prefix_flatMap`: a log cut anywhere is whole records followed by a torn one.
  * `records_uncut`: the scan of a log cut at `c` returns the records that end at or before `c`.
  * `records_split`: where `dec` accepts only what `enc` writes, any log is the encoding of its
    records followed by something that `dec` refuses.
-/
import Mathlib

namespace Frame

variable {α β : Type*}

/-- The scan with a bound on the number of records, and what it leaves unread. -/
def scan (dec : List β → Option (α × List β)) : Nat → List β → List α × List β
  | 0, bs => ([], bs)
  | fuel + 1, bs =>
    match dec bs with
    | none => ([], bs)
    | some (a, rest) => (a :: (scan dec fuel rest).1, (scan dec fuel rest).2)

/-- A decoder that takes at least one symbol off. -/
def Consumes (dec : List β → Option (α × List β)) : Prop :=
  ∀ bs a rest, dec bs = some (a, rest) → rest.length < bs.length

/-- The records of a log. Every record takes a symbol, so its length bounds their number. -/
def records (dec : List β → Option (α × List β)) (bs : List β) : List α :=
  (scan dec (bs.length + 1) bs).1

section Scan

variable {dec : List β → Option (α × List β)}

/-- More fuel than the log has symbols changes nothing. -/
theorem scan_fuel (hc : Consumes dec) {f g : Nat} {bs : List β} (hf : bs.length < f)
    (hg : bs.length < g) : scan dec f bs = scan dec g bs := by
  induction f generalizing g bs with
  | zero => omega
  | succ f ih =>
    cases g with
    | zero => omega
    | succ g =>
      cases h : dec bs with
      | none => simp [scan, h]
      | some p =>
        obtain ⟨a, rest⟩ := p
        have hlt := hc bs a rest h
        have e : scan dec f rest = scan dec g rest := ih (by omega) (by omega)
        simp [scan, h, e]

theorem records_stop {bs : List β} (h : dec bs = none) : records dec bs = [] := by
  simp [records, scan, h]

theorem records_cons (hc : Consumes dec) {bs rest : List β} {a : α}
    (h : dec bs = some (a, rest)) : records dec bs = a :: records dec rest := by
  have hlt := hc bs a rest h
  have e : scan dec bs.length rest = scan dec (rest.length + 1) rest :=
    scan_fuel hc hlt (by omega)
  simp [records, scan, h, e]

theorem forall_mem_records (hc : Consumes dec) {P : α → Prop}
    (h : ∀ bs a rest, dec bs = some (a, rest) → P a) {bs : List β} : ∀ a ∈ records dec bs, P a := by
  induction hn : bs.length using Nat.strong_induction_on generalizing bs with
  | _ n ih =>
    cases hd : dec bs with
    | none => simp [records_stop hd]
    | some p =>
      obtain ⟨a, rest⟩ := p
      rw [records_cons hc hd, List.forall_mem_cons]
      exact ⟨h bs a rest hd, ih rest.length (hn ▸ hc bs a rest hd) rfl⟩

end Scan

/-! ## Logs written by an encoder -/

section Encoder

variable {dec : List β → Option (α × List β)} {enc : α → List β}

/-- `dec` takes the encoding of `a` off the front of any log. -/
def TakesBack (dec : List β → Option (α × List β)) (enc : α → List β) (a : α) : Prop :=
  ∀ rest, dec (enc a ++ rest) = some (a, rest)

/-- `dec` refuses every strict prefix of the encoding of `a` at the end of a log. -/
def RefusesTorn (dec : List β → Option (α × List β)) (enc : α → List β) (a : α) : Prop :=
  ∀ t, t <+: enc a → t ≠ enc a → dec t = none

/-- What `dec` takes off does not depend on what follows. -/
def Extends (dec : List β → Option (α × List β)) : Prop :=
  ∀ bs a rest, dec bs = some (a, rest) → ∀ tail, dec (bs ++ tail) = some (a, rest ++ tail)

theorem Extends.refusesTorn (hx : Extends dec) {a : α} (h : TakesBack dec enc a) :
    RefusesTorn dec enc a := by
  rintro t ⟨u, hu⟩ hne
  by_contra hd
  obtain ⟨⟨b, rest⟩, hb⟩ := Option.ne_none_iff_exists'.1 hd
  -- the whole encoding would be taken with the cut part left over
  have hext := hx t b rest hb u
  have hall := h []
  rw [List.append_nil, ← hu, hext] at hall
  have hnil : rest ++ u = [] := (Prod.mk.inj (Option.some.inj hall)).2
  rw [(List.append_eq_nil_iff.1 hnil).2, List.append_nil] at hu
  exact hne hu

theorem records_append (hc : Consumes dec) {as : List α} (h : ∀ a ∈ as, TakesBack dec enc a)
    (tail : List β) : records dec (as.flatMap enc ++ tail) = as ++ records dec tail := by
  induction as with
  | nil => rfl
  | cons a as ih =>
    have ha := h a (List.mem_cons_self ..) (as.flatMap enc ++ tail)
    rw [List.flatMap_cons, List.append_assoc, records_cons hc ha,
      ih (fun b hb => h b (List.mem_cons_of_mem a hb)), List.cons_append]

theorem records_flatMap (hc : Consumes dec) {as : List α} (h : ∀ a ∈ as, TakesBack dec enc a)
    (hnil : dec [] = none) : records dec (as.flatMap enc) = as := by
  have := records_append hc h []
  rwa [records_stop hnil, List.append_nil, List.append_nil] at this

/-- A torn record at the end of a log is not read. -/
theorem records_torn (hc : Consumes dec) {as : List α} (h : ∀ a ∈ as, TakesBack dec enc a)
    {a : α} (ha : RefusesTorn dec enc a) {t : List β} (ht : t <+: enc a) (hne : t ≠ enc a) :
    records dec (as.flatMap enc ++ t) = as := by
  rw [records_append hc h, records_stop (ha t ht hne), List.append_nil]

/-- A prefix of a concatenation of encodings is some whole encodings followed by a strict
    prefix of the next one (or by nothing). -/
theorem prefix_flatMap {as : List α} {p : List β} (hp : p <+: as.flatMap enc) :
    ∃ done rest t, as = done ++ rest ∧ p = done.flatMap enc ++ t ∧
      (t = [] ∨ ∃ a l, rest = a :: l ∧ t <+: enc a ∧ t ≠ enc a) := by
  induction as generalizing p with
  | nil =>
    have : p = [] := by simpa using hp
    exact ⟨[], [], [], rfl, by simpa using this, Or.inl rfl⟩
  | cons a as ih =>
    rw [List.flatMap_cons] at hp
    rcases List.prefix_or_prefix_of_prefix hp (List.prefix_append (enc a) _) with h | ⟨q, rfl⟩
    · by_cases he : p = enc a
      · exact ⟨[a], as, [], rfl, by simp [he], Or.inl rfl⟩
      · exact ⟨[], a :: as, p, rfl, rfl, Or.inr ⟨a, as, rfl, h, he⟩⟩
    · obtain ⟨done, rest, t, e1, e2, e3⟩ := ih ((List.prefix_append_right_inj (enc a)).1 hp)
      refine ⟨a :: done, rest, t, by simp [e1], ?_, e3⟩
      rw [List.flatMap_cons, List.append_assoc, e2]

/-- The records that lie wholly in the first `c` symbols of their encoding. -/
def uncut (enc : α → List β) : Nat → List α → List α
  | _, [] => []
  | c, a :: as => if (enc a).length ≤ c then a :: uncut enc (c - (enc a).length) as else []

theorem records_uncut (hc : Consumes dec) {as : List α} (h : ∀ a ∈ as, TakesBack dec enc a)
    (ht : ∀ a ∈ as, RefusesTorn dec enc a) (hnil : dec [] = none) (c : Nat) :
    records dec ((as.flatMap enc).take c) = uncut enc c as := by
  induction as generalizing c with
  | nil =>
    rw [List.flatMap_nil, List.take_nil]
    exact records_stop hnil
  | cons a as ih =>
    have ha := List.mem_cons_self (a := a) (l := as)
    rw [List.flatMap_cons, List.take_append, uncut]
    split
    · rename_i hle
      rw [List.take_of_length_le hle, records_cons hc (h a ha _),
        ih (fun b hb => h b (List.mem_cons_of_mem a hb)) fun b hb => ht b (List.mem_cons_of_mem a hb)]
    · -- the cut is inside the first record
      rename_i hlt
      have hz : c - (enc a).length = 0 := by omega
      rw [hz, List.take_zero, List.append_nil]
      refine records_stop (ht a ha _ (List.take_prefix _ _) fun he => ?_)
      have := congrArg List.length he
      rw [List.length_take] at this
      omega

/-- `dec` accepts only encodings. -/
def Reencodes (dec : List β → Option (α × List β)) (enc : α → List β) : Prop :=
  ∀ bs a rest, dec bs = some (a, rest) → bs = enc a ++ rest

theorem Reencodes.extends (he : Reencodes dec enc)
    (h : ∀ bs a rest, dec bs = some (a, rest) → TakesBack dec enc a) : Extends dec := by
  intro bs a rest hb tail
  rw [he bs a rest hb, List.append_assoc]
  exact h bs a rest hb _

theorem records_split (hc : Consumes dec) (he : Reencodes dec enc) (bs : List β) :
    ∃ rest, bs = (records dec bs).flatMap enc ++ rest ∧ dec rest = none := by
  induction hn : bs.length using Nat.strong_induction_on generalizing bs with
  | _ n ih =>
    cases h : dec bs with
    | none => exact ⟨bs, by rw [records_stop h]; rfl, h⟩
    | some p =>
      obtain ⟨a, rest⟩ := p
      obtain ⟨rest', hr, hd⟩ := ih rest.length (hn ▸ hc bs a rest h) rest rfl
      refine ⟨rest', ?_, hd⟩
      rw [records_cons hc h, List.flatMap_cons, List.append_assoc, ← hr]
      exact he bs a rest h

end Encoder

end Frame
