-- SUMMARY: The number of leading zero hex digits of a buffer, as the mining loop measures it.
import Mathlib.Algebra.Group.Nat.Defs
import OneVote.Memory

namespace OneVote

/-- The loop of `leading_zeros` from index `i` on, over the `n` bytes that
remain, with the digits counted so far: an `int`, which wraps around. -/
def leadingZerosFrom (buf : CharPtr) (lz : Int32) (i : Nat) : Nat → Exec Int32
  | 0 => .ok lz
  | n + 1 => do
      let x ← buf.byte i
      if x = 0 then leadingZerosFrom buf (lz + 2) (i + 1) n
      else if x >>> 4 = 0 then return lz + 1
      else return lz

/-- `leading_zeros`. The index is an `int` too. Once it wraps around, it is above
the length as a `size_t`, and the loop ends. -/
def leadingZeros (buf : CharPtr) (n : Nat) : Exec Int32 :=
  leadingZerosFrom buf 0 0 (min n (2 ^ 31))

/-- Two leading zero digits are a leading zero byte. -/
theorem leadingZeros_first {buf : CharPtr} {n : Nat} {lz : Int32} (h : leadingZeros buf n = .ok lz)
    (hlz : 2 ≤ lz) : buf.byte 0 = .ok 0 := by
  unfold leadingZeros at h
  generalize min n (2 ^ 31) = n at h
  cases n with
  | zero =>
      obtain rfl : 0 = lz := Except.ok.inj h
      exact absurd hlz (by decide)
  | succ n =>
      rw [leadingZerosFrom, Except.bind_eq_ok] at h
      obtain ⟨x, hx, h⟩ := h
      by_cases hx0 : x = 0
      · rw [hx, hx0]
      · rw [if_neg hx0] at h
        split at h
        · obtain rfl : 1 = lz := Except.pure_eq_ok.1 h
          exact absurd hlz (by decide)
        · obtain rfl : 0 = lz := Except.pure_eq_ok.1 h
          exact absurd hlz (by decide)

/-! ## Hex digits -/

/-- The digits of a buffer, the high nibble of each byte first. -/
def hexDigits (bs : Bytes) : List Nat :=
  bs.flatMap fun x => [x.toNat / 16, x.toNat % 16]

/-- The length of the longest prefix of zeros. -/
def zeroPrefixLength (ds : List Nat) : Nat := (ds.takeWhile (· = 0)).length

theorem length_hexDigits (bs : Bytes) : (hexDigits bs).length = 2 * bs.length := by
  induction bs with
  | nil => rfl
  | cons x bs ih =>
      rw [hexDigits, List.flatMap_cons, List.length_append, ← hexDigits, ih]
      simp only [List.length_cons, List.length_nil]
      omega

/-- A prefix is all zero exactly up to that length. -/
theorem le_zeroPrefixLength_iff {ds : List Nat} {k : Nat} :
    k ≤ zeroPrefixLength ds ↔ k ≤ ds.length ∧ ∀ d ∈ ds.take k, d = 0 := by
  unfold zeroPrefixLength
  induction ds generalizing k with
  | nil => simp
  | cons d ds ih =>
      cases k with
      | zero => simp
      | succ k =>
          by_cases hd : d = 0
          · simp [hd, ih]
          · simp [hd]

theorem zeroPrefixLength_cons_zero (ds : List Nat) :
    zeroPrefixLength (0 :: ds) = zeroPrefixLength ds + 1 := by
  simp [zeroPrefixLength]

theorem zeroPrefixLength_cons_of_ne {d : Nat} (hd : d ≠ 0) (ds : List Nat) :
    zeroPrefixLength (d :: ds) = 0 := by
  simp [zeroPrefixLength, hd]

theorem hexDigits_cons (x : UInt8) (bs : Bytes) :
    hexDigits (x :: bs) = x.toNat / 16 :: x.toNat % 16 :: hexDigits bs := rfl

theorem shiftRight_eq_zero_iff (x : UInt8) : x >>> 4 = 0 ↔ x.toNat / 16 = 0 := by
  rw [← UInt8.toNat_inj, UInt8.toNat_shiftRight]
  simp [Nat.shiftRight_eq_div_pow]

/-- The loop adds the zero prefix of the digits from index `i` on. -/
theorem leadingZerosFrom_eq (before bs rest : Bytes) (lz : Int32) :
    leadingZerosFrom (some (before ++ bs ++ rest)) lz before.length bs.length =
      .ok (lz + Int32.ofNat (zeroPrefixLength (hexDigits bs))) := by
  induction bs generalizing before lz with
  | nil => exact congrArg Except.ok (Int32.add_zero lz).symm
  | cons x bs ih =>
      have hbyte : CharPtr.byte (some (before ++ (x :: bs) ++ rest)) before.length = .ok x := by
        simp [CharPtr.byte_eq_ok]
      have hmove : before ++ (x :: bs) ++ rest = before ++ [x] ++ bs ++ rest := by simp
      rw [List.length_cons, leadingZerosFrom, hbyte, Except.ok_bind, hexDigits_cons]
      by_cases hx : x = 0
      · -- both digits are zero, and the count goes on with the next byte
        have hnext := ih (before ++ [x]) (lz + 2)
        rw [List.length_append, List.length_singleton] at hnext
        rw [if_pos hx, hmove, hnext, hx]
        simp only [UInt8.toNat_zero, Nat.zero_div, Nat.zero_mod, zeroPrefixLength_cons_zero]
        rw [Nat.add_assoc, Int32.ofNat_add, Int32.add_assoc, Int32.add_comm 2]
        rfl
      · have hdigits : x.toNat ≠ 0 := fun h => hx (UInt8.toNat_inj.1 h)
        rw [if_neg hx]
        by_cases hhigh : x.toNat / 16 = 0
        · -- the low digit ends the prefix
          have hlow : x.toNat % 16 ≠ 0 := by omega
          rw [if_pos ((shiftRight_eq_zero_iff x).2 hhigh), hhigh, zeroPrefixLength_cons_zero,
            zeroPrefixLength_cons_of_ne hlow]
          rfl
        · rw [if_neg (mt (shiftRight_eq_zero_iff x).1 hhigh), zeroPrefixLength_cons_of_ne hhigh]
          exact congrArg Except.ok (Int32.add_zero lz).symm

theorem leadingZeros_eq {bs : Bytes} (h : bs.length ≤ 2 ^ 31) (rest : Bytes) :
    leadingZeros (some (bs ++ rest)) bs.length =
      .ok (Int32.ofNat (zeroPrefixLength (hexDigits bs))) := by
  have hfrom := leadingZerosFrom_eq [] bs rest 0
  rw [Int32.zero_add] at hfrom
  rw [leadingZeros, Nat.min_eq_left h]
  exact hfrom

theorem zeroPrefixLength_hexDigits_le (bs : Bytes) :
    zeroPrefixLength (hexDigits bs) ≤ 2 * bs.length := by
  rw [← length_hexDigits]
  exact (le_zeroPrefixLength_iff.1 (Nat.le_refl _)).1

/-- `leading_zeros` counts the leading zero digits of up to `2 ^ 30 - 1` bytes,
and a target is met exactly if the buffer has that many digits and they are
zero. -/
theorem leadingZeros_hexDigits {bs : Bytes} (h : bs.length < 2 ^ 30) (rest : Bytes) :
    ∃ lz, leadingZeros (some (bs ++ rest)) bs.length = .ok lz ∧
      lz.toInt = zeroPrefixLength (hexDigits bs) ∧
      ∀ k : Nat, k ≤ lz.toInt ↔ k ≤ 2 * bs.length ∧ ∀ d ∈ (hexDigits bs).take k, d = 0 := by
  have hle := zeroPrefixLength_hexDigits_le bs
  have hcount : (Int32.ofNat (zeroPrefixLength (hexDigits bs))).toInt =
      zeroPrefixLength (hexDigits bs) := Int32.toInt_ofNat_of_lt (by omega)
  refine ⟨_, leadingZeros_eq (by omega) rest, hcount, fun k => ?_⟩
  rw [hcount, Int.ofNat_le, le_zeroPrefixLength_iff, length_hexDigits]

example : leadingZeros (some [0, 0x0f, 0]) 3 = .ok 3 := by decide

theorem leadingZeros_hexDigits_sample :
    ∃ lz, leadingZeros (some ([0, 0x0f, 0] ++ [])) 3 = .ok lz ∧
      lz.toInt = zeroPrefixLength (hexDigits [0, 0x0f, 0]) ∧
      ∀ k : Nat, k ≤ lz.toInt ↔ k ≤ 6 ∧ ∀ d ∈ (hexDigits [0, 0x0f, 0]).take k, d = 0 :=
  @leadingZeros_hexDigits [0, 0x0f, 0] (by decide) []

theorem zeroPrefixLength_replicate (n : Nat) :
    zeroPrefixLength (hexDigits (List.replicate n 0)) = 2 * n := by
  induction n with
  | zero => rfl
  | succ n ih =>
      rw [List.replicate_succ, hexDigits_cons, UInt8.toNat_zero, Nat.zero_div, Nat.zero_mod,
        zeroPrefixLength_cons_zero, zeroPrefixLength_cons_zero, ih]
      omega

/-- `2 ^ 30` zero bytes have `2 ^ 31` zero digits, which an `int` cannot count. -/
theorem leadingZeros_overflows :
    ¬ ∀ bs rest : Bytes, ∃ lz, leadingZeros (some (bs ++ rest)) bs.length = .ok lz ∧
      lz.toInt = zeroPrefixLength (hexDigits bs) := by
  intro h
  obtain ⟨lz, hlz, hcount⟩ := h (List.replicate (2 ^ 30) 0) []
  have heq := @leadingZeros_eq (List.replicate (2 ^ 30) 0)
    (by rw [List.length_replicate]; decide) []
  obtain rfl := Except.ok.inj (hlz.symm.trans heq)
  have hle :=
    Int32.toInt_le (Int32.ofNat (zeroPrefixLength (hexDigits (List.replicate (2 ^ 30) 0))))
  rw [hcount, zeroPrefixLength_replicate] at hle
  exact absurd hle (by decide)

end OneVote
