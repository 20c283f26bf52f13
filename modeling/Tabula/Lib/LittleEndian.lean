import Mathlib.Tactic.Ring
import Mathlib.Tactic.NormNum

/-!
# Little-endian integers

Fixed-width little-endian integers as lists of bytes, and the two laws a file
format needs of them: a number that fits its width is read back
(`LittleEndian.leValue_leBytes_of_lt`), and a field of the right width is the
encoding of the number it holds (`LittleEndian.leBytes_leValue`). A number that
does not fit is written modulo the width, which is what a narrowing cast
followed by a write does.

The file also has the two list facts by which a concatenation of fields is cut
back into them.
-/

namespace LittleEndian

/-! ### Fields -/

/-- The `w` bytes of `n`, least significant first; what does not fit is cut off. -/
def leBytes : ℕ → ℕ → List UInt8
  | 0, _ => []
  | w + 1, n => UInt8.ofNat n :: leBytes w (n / 256)

/-- The number a field of bytes holds. -/
def leValue : List UInt8 → ℕ
  | [] => 0
  | b :: bs => b.toNat + 256 * leValue bs

@[simp] theorem length_leBytes (w n : ℕ) : (leBytes w n).length = w := by
  induction w generalizing n with
  | zero => rfl
  | succ w ih => simp [leBytes, ih]

/-- **Reading back a field** gives the number modulo the width. -/
theorem leValue_leBytes (w n : ℕ) : leValue (leBytes w n) = n % 256 ^ w := by
  induction w generalizing n with
  | zero => simp [leBytes, leValue, Nat.mod_one]
  | succ w ih =>
    have hmod : n % 256 ^ (w + 1) = n % 256 + 256 * (n / 256 % 256 ^ w) := by
      rw [pow_succ', Nat.mod_mul]
    rw [leBytes, leValue, ih, hmod]
    simp [UInt8.toNat_ofNat']

theorem leValue_leBytes_of_lt {w n : ℕ} (h : n < 256 ^ w) : leValue (leBytes w n) = n := by
  rw [leValue_leBytes, Nat.mod_eq_of_lt h]

theorem leValue_lt (bs : List UInt8) : leValue bs < 256 ^ bs.length := by
  induction bs with
  | nil => simp [leValue]
  | cons b bs ih =>
    have hb : b.toNat < 256 := b.toNat_lt
    rw [leValue, List.length_cons, pow_succ]
    omega

/-- **A field is the encoding of the number it holds.** -/
theorem leBytes_leValue (bs : List UInt8) : leBytes bs.length (leValue bs) = bs := by
  induction bs with
  | nil => rfl
  | cons b bs ih =>
    have hb : b.toNat < 256 := b.toNat_lt
    have hdiv : (b.toNat + 256 * leValue bs) / 256 = leValue bs := by omega
    have hmod : (b.toNat + 256 * leValue bs) % 256 = b.toNat := by omega
    rw [List.length_cons, leValue, leBytes, hdiv, ih]
    refine congrArg (· :: bs) ?_
    rw [← UInt8.toNat_inj, UInt8.toNat_ofNat']
    exact hmod

/-! ### Cutting a concatenation -/

/-- What is left behind a leading part. -/
theorem drop_append_length {α : Type*} {a : List α} {n : ℕ} (h : a.length = n) (b : List α) :
    (a ++ b).drop n = b := by
  rw [← h, List.drop_left]

/-- The leading part itself. -/
theorem take_append_length {α : Type*} {a : List α} {n : ℕ} (h : a.length = n) (b : List α) :
    (a ++ b).take n = a := by
  rw [← h, List.take_left]

end LittleEndian
