/-
  Little-endian integers of a fixed number of bytes, over `Nat`.

  `putLe n v` is the low `n` bytes of `v`, least significant first, each byte taken by a
  shift; `getLe n bs` joins the first `n` bytes of `bs` with shifts and ors. The round
  trips: `getLe_putLe` (decode after encode, modulo `256^n`) and `putLe_getLe` (encode
  after decode, on exactly `n` bytes).
-/
import Mathlib

namespace LittleEndian

/-- The low `n` bytes of `v`, least significant first. -/
def putLe : Nat → Nat → List UInt8
  | 0, _ => []
  | n + 1, v => UInt8.ofNat v :: putLe n (v >>> 8)

/-- The integer of the first `n` bytes; a missing byte reads as zero. -/
def getLe : Nat → List UInt8 → Nat
  | 0, _ => 0
  | _ + 1, [] => 0
  | n + 1, b :: bs => b.toNat ||| (getLe n bs <<< 8)

@[simp] theorem putLe_length (n v : Nat) : (putLe n v).length = n := by
  induction n generalizing v with
  | zero => rfl
  | succ n ih => simp [putLe, ih]

/-- One byte below a shifted value: the or is a sum. -/
theorem byte_or_shift (b : UInt8) (v : Nat) : b.toNat ||| (v <<< 8) = v * 256 + b.toNat := by
  have hb : b.toNat < 2 ^ 8 := b.toNat_lt
  rw [Nat.or_comm, ← Nat.shiftLeft_add_eq_or_of_lt hb, Nat.shiftLeft_eq]

theorem getLe_lt (n : Nat) (bs : List UInt8) : getLe n bs < 256 ^ n := by
  induction n generalizing bs with
  | zero => simp [getLe]
  | succ n ih =>
    cases bs with
    | nil => simp [getLe]
    | cons b bs =>
      have hb := b.toNat_lt
      have := ih bs
      rw [getLe, byte_or_shift, Nat.pow_succ]
      omega

/-- Decode after encode is reduction modulo `256^n`; what follows is not read. -/
theorem getLe_putLe (n v : Nat) (r : List UInt8) :
    getLe n (putLe n v ++ r) = v % 256 ^ n := by
  induction n generalizing v with
  | zero => simp [getLe, Nat.mod_one]
  | succ n ih =>
    have hb : (UInt8.ofNat v).toNat = v % 256 := UInt8.toNat_ofNat'
    have hp : 256 ^ (n + 1) = 256 * 256 ^ n := Nat.pow_succ'
    have hs : v >>> 8 = v / 256 := Nat.shiftRight_eq_div_pow v 8
    rw [putLe, List.cons_append, getLe, ih, byte_or_shift, hb, hs, hp, Nat.mod_mul]
    omega

theorem getLe_putLe_of_lt {n v : Nat} (h : v < 256 ^ n) (r : List UInt8) :
    getLe n (putLe n v ++ r) = v := by
  rw [getLe_putLe, Nat.mod_eq_of_lt h]

/-- Encode after decode gives the bytes back. -/
theorem putLe_getLe (bs : List UInt8) : putLe bs.length (getLe bs.length bs) = bs := by
  induction bs with
  | nil => rfl
  | cons b bs ih =>
    have hb := b.toNat_lt
    rw [List.length_cons, getLe, byte_or_shift, putLe, Nat.shiftRight_eq_div_pow]
    have hq : (getLe bs.length bs * 256 + b.toNat) / 2 ^ 8 = getLe bs.length bs := by omega
    have hr : UInt8.ofNat (getLe bs.length bs * 256 + b.toNat) = b := by
      apply UInt8.toNat_inj.1
      rw [UInt8.toNat_ofNat']
      omega
    rw [hq, hr, ih]

theorem getLe_take (n : Nat) (bs : List UInt8) : getLe n (bs.take n) = getLe n bs := by
  induction n generalizing bs with
  | zero => rfl
  | succ n ih =>
    cases bs with
    | nil => rfl
    | cons b bs => rw [List.take_succ_cons, getLe, getLe, ih]

/-- Encode after decode gives the bytes that were read. -/
theorem putLe_getLe_take {n : Nat} {bs : List UInt8} (h : n ≤ bs.length) :
    putLe n (getLe n bs) = bs.take n := by
  have hlen : (bs.take n).length = n := List.length_take_of_le h
  have hput := putLe_getLe (bs.take n)
  rwa [hlen, getLe_take] at hput

end LittleEndian
