-- SUMMARY: Calls that may stop, C pointers to bytes, and SHA-1 digests.
import OneVote.Base.Except

/-!
# Memory

A call of the program either returns or stops. It stops on a failed `assert`
and on an access that C++ leaves undefined. A `char*` is the bytes that can be
read from it. A pointer into a message reads the bytes of that message; what is
left of it when the message is gone is said where it matters.
-/

namespace OneVote

abbrev Bytes := List UInt8

/-- The `assert` statements on the modelled paths, in source order. -/
inductive Assertion
  /-- `data_to_hash[0] != 0` in `calculate_finhash` -/
  | merkleRootByte
  /-- `b` in `get_parent_block_from_neighbor` -/
  | childBlock
  /-- `b->prev_block_SHA1[0] != 0` in `get_parent_block_from_neighbor` -/
  | childPrevByte
  /-- `b->finhash[0] != 0` in `get_parent_block_from_neighbor` -/
  | childFinhashByte
  /-- the `assert(false)` on a parent that no peer supplies -/
  | parentMissing
  /-- the `assert(false)` of `get_head_block` on `chain_length == 0` -/
  | emptyChain
  /-- `block_number > 5` after a received block was added -/
  | acceptedNumber
  /-- `block_number > 5` before a repair -/
  | repairNumber
  /-- `block_number > 5` after a mined block was added -/
  | minedNumber
  deriving DecidableEq, Repr

/-- Why a call does not return. -/
inductive Stop
  | assertion (a : Assertion)
  | nullPointer
  | outOfRange
  /-- A pointer is read that was never assigned. -/
  | unassigned
  /-- A loop is still running after the iterations it was given. -/
  | outOfFuel
  deriving DecidableEq, Repr

/-- An access that C++ leaves undefined. -/
def Stop.IsAccess : Stop → Prop
  | .nullPointer | .outOfRange | .unassigned => True
  | .assertion _ | .outOfFuel => False

abbrev Exec := Except Stop

/-! ## Pointers -/

/-- A `char*`: `none` is `NULL`, otherwise the bytes readable from the pointer. -/
abbrev CharPtr := Option Bytes

namespace CharPtr

/-- `p[i]` -/
def byte (p : CharPtr) (i : Nat) : Exec UInt8 :=
  match p with
  | none => .error .nullPointer
  | some bs =>
    match bs[i]? with
    | none => .error .outOfRange
    | some x => .ok x

/-- A copy of `n` bytes, as `memcpy` and `std::string(p, n)` make it. -/
def read (p : CharPtr) (n : Nat) : Exec Bytes :=
  match p with
  | none => .error .nullPointer
  | some bs => if n ≤ bs.length then .ok (bs.take n) else .error .outOfRange

/-- The bytes before the terminating NUL, as `std::string(p)` copies them. -/
def cString (p : CharPtr) : Exec Bytes :=
  match p with
  | none => .error .nullPointer
  | some bs => if 0 ∈ bs then .ok (bs.takeWhile (· ≠ 0)) else .error .outOfRange

/-- `s.c_str()`: the bytes of the string and the NUL behind them. -/
def ofString (s : Bytes) : CharPtr := some (s ++ [0])

/-- What is left of `c_str()` of a field when the message is gone: nothing. Only
the string of an empty field is not part of the message. -/
def released (p : CharPtr) : CharPtr := if p = ofString [] then p else some []

theorem raises_byte (p : CharPtr) (i : Nat) : (p.byte i).Raises Stop.IsAccess := by
  unfold byte
  cases p with
  | none => exact Except.raises_error trivial
  | some bs =>
      dsimp only
      split
      · exact Except.raises_error trivial
      · exact Except.raises_ok _ _

theorem byte_eq_ok {p : CharPtr} {i : Nat} {x : UInt8} :
    p.byte i = .ok x ↔ ∃ bs, p = some bs ∧ bs[i]? = some x := by
  unfold byte
  cases p with
  | none => simp
  | some bs => cases h : bs[i]? <;> simp [h]

theorem raises_cString (p : CharPtr) : p.cString.Raises Stop.IsAccess := by
  unfold cString
  cases p with
  | none => exact Except.raises_error trivial
  | some bs =>
      dsimp only
      split
      · exact Except.raises_ok _ _
      · exact Except.raises_error trivial

theorem raises_read (p : CharPtr) (n : Nat) : (p.read n).Raises Stop.IsAccess := by
  unfold read
  cases p with
  | none => exact Except.raises_error trivial
  | some bs =>
      dsimp only
      split
      · exact Except.raises_ok _ _
      · exact Except.raises_error trivial

theorem read_eq_ok {p : CharPtr} {n : Nat} {s : Bytes} :
    p.read n = .ok s ↔ ∃ bs, p = some bs ∧ n ≤ bs.length ∧ s = bs.take n := by
  unfold read
  cases p with
  | none => simp
  | some bs => by_cases h : n ≤ bs.length <;> simp [h, eq_comm]

/-- No hash can be copied from it. -/
theorem read_released (p : CharPtr) {n : Nat} (h : 1 < n) :
    p.released.read n = .error .outOfRange := by
  unfold released
  split
  · rename_i hempty
    rw [hempty]
    exact if_neg (Nat.not_le.2 h)
  · exact if_neg (Nat.not_le.2 (Nat.zero_lt_of_lt h))

/-- Not even the first byte of a string is left. -/
theorem byte_released {s : Bytes} (h : s ≠ []) :
    (ofString s).released.byte 0 = .error .outOfRange := by
  have hne : ofString s ≠ ofString [] := by
    intro heq
    exact h (List.append_cancel_right (Option.some.inj heq))
  rw [released, if_neg hne]
  rfl

end CharPtr

/-! ## Digests -/

/-- `SHA_DIGEST_LENGTH` -/
abbrev shaDigestLength : Nat := 20

/-- What `SHA1` writes to its output buffer. -/
@[ext] structure Digest where
  bytes : Bytes
  length_eq : bytes.length = shaDigestLength
  deriving DecidableEq

/-- The pointer to a freshly allocated buffer that holds the digest. -/
def Digest.ptr (d : Digest) : CharPtr := some d.bytes

theorem Digest.append_inj {a b c d : Digest} (h : a.bytes ++ b.bytes = c.bytes ++ d.bytes) :
    a = c ∧ b = d := by
  have hlen : a.bytes.length = c.bytes.length := a.length_eq.trans c.length_eq.symm
  obtain ⟨h₁, h₂⟩ := List.append_inj h hlen
  exact ⟨Digest.ext h₁, Digest.ext h₂⟩

end OneVote
