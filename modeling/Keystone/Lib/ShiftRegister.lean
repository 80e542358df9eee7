/-
  Shift registers with linear feedback, as a reflected CRC uses them.

  `shiftIn poly c b` takes one message bit: the register moves down by one place, and `poly` is
  added if the bit that falls out and the message bit differ. `feed` takes a whole message.

  Everything rests on two facts. The register is linear (`feed_xor`): two messages and two
  registers differ by what their difference feeds. And a register whose polynomial has its top
  bit set shows there whether it was added, so a small register after a step was small before
  it (`shiftIn_lt`).

  * `feed_injective`: messages of at most the register's width are told apart.
  * `feed_register_injective`: a common message never brings two registers together.
  * `feed_burst`: so a change confined to as many bits as the register has is always seen.
  * `iterate_step_xor`: feeding the bits of a word is adding the word and shifting.
  * `iterate_step_split`: the steps of a word are those of its low bits and a shift of the rest,
    which is what a table of the low bits' steps is for.
-/
import Mathlib

namespace ShiftRegister

variable {w : Nat} {poly : BitVec w}

/-- One message bit. -/
def shiftIn (poly c : BitVec w) (b : Bool) : BitVec w :=
  if xor (c.getLsbD 0) b then poly ^^^ (c >>> 1) else c >>> 1

/-- A whole message, first bit first. -/
def feed (poly c : BitVec w) (bits : List Bool) : BitVec w := bits.foldl (shiftIn poly) c

/-- One place down without a message. -/
def step (poly c : BitVec w) : BitVec w := shiftIn poly c false

theorem feed_append (c : BitVec w) (x y : List Bool) :
    feed poly c (x ++ y) = feed poly (feed poly c x) y :=
  List.foldl_append

/-! ## Linearity -/

theorem shiftIn_xor (a c : BitVec w) (x y : Bool) :
    shiftIn poly (a ^^^ c) (xor x y) = shiftIn poly a x ^^^ shiftIn poly c y := by
  unfold shiftIn
  have hbit : xor ((a ^^^ c).getLsbD 0) (xor x y) =
      xor (xor (a.getLsbD 0) x) (xor (c.getLsbD 0) y) := by
    rw [BitVec.getLsbD_xor]
    cases a.getLsbD 0 <;> cases c.getLsbD 0 <;> cases x <;> cases y <;> rfl
  have hpoly : poly ^^^ (a >>> 1) ^^^ (poly ^^^ (c >>> 1)) = (a >>> 1) ^^^ (c >>> 1) := by
    rw [BitVec.xor_comm poly (a >>> 1), BitVec.xor_assoc, ← BitVec.xor_assoc poly,
      BitVec.xor_self, BitVec.zero_xor]
  rw [hbit, BitVec.ushiftRight_xor_distrib]
  cases xor (a.getLsbD 0) x <;> cases xor (c.getLsbD 0) y
  · rfl
  · simp only [Bool.false_xor, if_true, Bool.false_eq_true, if_false]
    ac_rfl
  · simp only [Bool.xor_false, if_true, Bool.false_eq_true, if_false]
    ac_rfl
  · simp [hpoly]

theorem feed_xor {x y : List Bool} (h : x.length = y.length) (a c : BitVec w) :
    feed poly (a ^^^ c) (List.zipWith xor x y) = feed poly a x ^^^ feed poly c y := by
  induction x generalizing y a c with
  | nil =>
    obtain rfl := List.length_eq_zero_iff.1 h.symm
    rfl
  | cons b x ih =>
    cases y with
    | nil => simp at h
    | cons b' y =>
      simp only [feed, List.zipWith_cons_cons, List.foldl_cons] at ih ⊢
      rw [shiftIn_xor]
      exact ih (by simpa using h) _ _

@[simp] theorem feed_zeros (n : Nat) : feed poly 0#w (List.replicate n false) = 0#w := by
  induction n with
  | zero => rfl
  | succ n ih =>
    have hstep : shiftIn poly 0#w false = 0#w := by simp [shiftIn]
    rw [List.replicate_succ, feed, List.foldl_cons, hstep]
    exact ih

/-! ## What a register tells about the message -/

section Feedback

variable (hp : poly.msb = true)

include hp

/-- If the top places are clear after a step, `poly` was not added. -/
theorem shiftIn_lt {c : BitVec w} {b : Bool} {k : Nat} (hk : k < w)
    (h : (shiftIn poly c b).toNat < 2 ^ k) : c.getLsbD 0 = b ∧ c.toNat < 2 ^ (k + 1) := by
  have hmsb : (shiftIn poly c b).msb = false := by
    rw [BitVec.msb_eq_false_iff_two_mul_lt]
    calc 2 * (shiftIn poly c b).toNat < 2 * 2 ^ k := by omega
      _ = 2 ^ (k + 1) := by rw [Nat.pow_succ']
      _ ≤ 2 ^ w := Nat.pow_le_pow_right (by omega) hk
  unfold shiftIn at h hmsb
  split at h
  · rename_i hx
    rw [if_pos hx, BitVec.msb_xor, hp] at hmsb
    have : (c >>> 1).msb = false := by
      rw [BitVec.msb_ushiftRight]
      rfl
    simp [this] at hmsb
  · rename_i hx
    refine ⟨by simpa using hx, ?_⟩
    rw [BitVec.toNat_ushiftRight, Nat.shiftRight_eq_div_pow] at h
    rw [Nat.pow_succ]
    omega

/-- Only zeros leave a register small that began at zero and was not shifted through. -/
theorem feed_zero_lt {d : List Bool} {k : Nat} (hd : d.length + k ≤ w)
    (h : (feed poly 0#w d).toNat < 2 ^ k) : ∀ b ∈ d, b = false := by
  -- from the last bit to the first: each step back makes room for one more place
  induction d using List.reverseRecOn generalizing k with
  | nil => simp
  | append_singleton d b ih =>
    rw [List.length_append, List.length_singleton] at hd
    rw [feed_append] at h
    obtain ⟨hb, hlt⟩ := shiftIn_lt hp (by omega) h
    have hzero := ih (by omega) hlt
    have hstart : feed poly 0#w d = 0#w := by
      rw [List.eq_replicate_of_mem hzero]
      exact feed_zeros _
    rw [hstart] at hb
    intro b' hb'
    rcases List.mem_append.1 hb' with hb' | hb'
    · exact hzero b' hb'
    · rw [List.mem_singleton.1 hb', ← hb]
      simp

theorem feed_injective {x y : List Bool} (hlen : x.length = y.length) (hw : x.length ≤ w)
    {c : BitVec w} (h : feed poly c x = feed poly c y) : x = y := by
  have hdiff := @feed_xor w poly x y hlen c c
  rw [h, BitVec.xor_self, BitVec.xor_self] at hdiff
  have hzero := feed_zero_lt hp (d := List.zipWith xor x y) (k := 0) (by simp [← hlen, hw])
    (by rw [hdiff]; simp)
  refine List.ext_getElem hlen fun i hx hy => ?_
  have hi : i < (List.zipWith xor x y).length := by simp [hx, hy]
  have := hzero _ (List.getElem_mem hi)
  simpa using this

theorem shiftIn_injective (b : Bool) : Function.Injective fun c => shiftIn poly c b := by
  intro c c' h
  have hw : 0 < w := by
    by_contra h0
    obtain rfl : w = 0 := by omega
    simp [BitVec.of_length_zero] at hp
  have hdiff := @shiftIn_xor w poly c c' b b
  rw [show shiftIn poly c b = shiftIn poly c' b from h, BitVec.xor_self, Bool.xor_self] at hdiff
  obtain ⟨hbit, hlt⟩ := shiftIn_lt hp (k := 0) hw (by rw [hdiff]; simp)
  have hzero : c ^^^ c' = 0#w := by
    have hmod : (c ^^^ c').toNat % 2 = 0 := by
      rw [BitVec.getLsbD, Nat.testBit_zero] at hbit
      simpa using hbit
    apply BitVec.eq_of_toNat_eq
    rw [BitVec.toNat_ofNat, Nat.zero_mod]
    omega
  exact BitVec.xor_eq_zero_iff.1 hzero

theorem feed_register_injective (m : List Bool) : Function.Injective fun c => feed poly c m := by
  induction m with
  | nil => exact fun _ _ h => h
  | cons b m ih => exact fun c c' h => shiftIn_injective hp b (ih h)

/-- **Bursts are seen**: two messages that agree outside a stretch no longer than the register
    leave it equal only if they agree there too. -/
theorem feed_burst {pre x y suf : List Bool} (hlen : x.length = y.length) (hw : x.length ≤ w)
    {c : BitVec w} (h : feed poly c (pre ++ x ++ suf) = feed poly c (pre ++ y ++ suf)) : x = y := by
  rw [feed_append, feed_append, feed_append _ (pre ++ y), feed_append _ pre y] at h
  exact feed_injective hp hlen hw (feed_register_injective hp suf h)

end Feedback

/-! ## Words -/

/-- The lowest `n` bits of a word, least significant first. -/
def lowBits (n : Nat) (y : BitVec w) : List Bool := (List.range n).map y.getLsbD

theorem step_xor (c z : BitVec w) :
    step poly (c ^^^ z) = shiftIn poly c (z.getLsbD 0) ^^^ (z >>> 1) := by
  have h := @shiftIn_xor w poly c z (z.getLsbD 0) (z.getLsbD 0)
  have hz : shiftIn poly z (z.getLsbD 0) = z >>> 1 := by simp [shiftIn]
  rwa [Bool.xor_self, hz] at h

theorem iterate_step_xor (c y : BitVec w) (n : Nat) :
    (step poly)^[n] (c ^^^ y) = feed poly c (lowBits n y) ^^^ (y >>> n) := by
  induction n with
  | zero => simp [feed, lowBits]
  | succ n ih =>
    have hbit : (y >>> n).getLsbD 0 = y.getLsbD n := by simp
    have hbits : lowBits (n + 1) y = lowBits n y ++ [y.getLsbD n] := by
      rw [lowBits, List.range_succ, List.map_append]
      rfl
    rw [Function.iterate_succ_apply', ih, step_xor, hbit, hbits, feed_append, BitVec.shiftRight_add]
    rfl

/-- A word that is zero in its lowest `n` places is only moved by `n` steps. -/
theorem iterate_step_xor_high {y : BitVec w} {n : Nat} (h : ∀ i < n, y.getLsbD i = false)
    (c : BitVec w) : (step poly)^[n] (c ^^^ y) = (step poly)^[n] c ^^^ (y >>> n) := by
  have hbits : lowBits n y = lowBits n 0#w :=
    List.map_congr_left fun i hi => by simp [h i (List.mem_range.1 hi)]
  have hc := @iterate_step_xor w poly c 0#w n
  rw [BitVec.xor_zero, BitVec.zero_ushiftRight, BitVec.xor_zero] at hc
  rw [iterate_step_xor, hbits, hc]

/-- `n` steps: those of the lowest `n` bits, and the rest moved down. -/
theorem iterate_step_split (x : BitVec w) (n : Nat) :
    (step poly)^[n] x = (step poly)^[n] ((x.setWidth n).setWidth w) ^^^ (x >>> n) := by
  generalize hlow : (x.setWidth n).setWidth w = low
  have hclear : ∀ i < n, (low ^^^ x).getLsbD i = false := by
    intro i hi
    subst hlow
    by_cases hw : i < w
    · simp [hi, hw]
    · simp [hw, BitVec.getLsbD_of_ge x i (by omega)]
  have hshift : low >>> n = 0#w := by
    subst hlow
    apply BitVec.eq_of_getLsbD_eq
    intro i _
    simp [BitVec.getLsbD_ushiftRight]
  calc (step poly)^[n] x = (step poly)^[n] (low ^^^ (low ^^^ x)) := by
        rw [← BitVec.xor_assoc, BitVec.xor_self, BitVec.zero_xor]
    _ = (step poly)^[n] low ^^^ (x >>> n) := by
        rw [iterate_step_xor_high hclear, BitVec.ushiftRight_xor_distrib, hshift, BitVec.zero_xor]

end ShiftRegister
