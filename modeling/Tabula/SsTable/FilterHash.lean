import Tabula.Bloom
import Mathlib.Data.Fintype.EquivFin

/-!
# Which bits a filter is asked for

A filter that is read from a file has whatever `k` and `m` the file says, and
`may_contain` divides by `m` and indexes into the bits. It panics for no key exactly
when it makes no probe, or has at least one bit and all the bits it says it has
(`Tabula.BloomFilter.mayContain_ne_none_iff`).

That every other filter panics for some key rests on a fact about FNV-1a: each of the
`2 ^ 64` values is the hash of some key (`Tabula.BloomFilter.exists_fnv1a_eq`). A step
takes in a byte and multiplies by an odd prime, so it is a permutation of the values,
and the values that are reached are closed under its inverse as well. Going back and
forth with different bytes changes the lowest byte of a value at will, and multiplying
such a change back and forth carries it into the next byte.
-/

namespace Tabula

namespace BloomFilter

/-! ### Values of the hash -/

/-- The multiplier of FNV-1a. -/
def fnvPrime : UInt64 := 1099511628211

/-- Its inverse modulo `2 ^ 64`. -/
def fnvInverse : UInt64 := 14886173955864302971

theorem fnvInverse_mul_fnvPrime : fnvInverse * fnvPrime = 1 := by decide

/-- Some key has this hash. -/
def IsHash (h : UInt64) : Prop := ∃ key, fnv1a key = h

namespace IsHash

variable {h h' : UInt64}

theorem step (hh : IsHash h) (byte : UInt8) : IsHash ((h ^^^ byte.toUInt64) * fnvPrime) := by
  obtain ⟨key, rfl⟩ := hh
  exact ⟨key ++ [byte], by rw [fnv1a, List.foldl_append]; rfl⟩

theorem mul (hh : IsHash h) : IsHash (h * fnvPrime) := by simpa using hh.step 0

theorem mul_inverse_cancel (h : UInt64) : h * fnvInverse * fnvPrime = h := by
  rw [UInt64.mul_assoc, fnvInverse_mul_fnvPrime, UInt64.mul_one]

theorem mul_cancel_inverse (h : UInt64) : h * fnvPrime * fnvInverse = h := by
  rw [UInt64.mul_assoc, UInt64.mul_comm fnvPrime, fnvInverse_mul_fnvPrime, UInt64.mul_one]

/-- The hashes are closed under the inverse of a step, as there are finitely many. -/
theorem mul_inverse (hh : IsHash h) : IsHash (h * fnvInverse) := by
  have hfinite : Finite UInt64 :=
    Finite.of_injective UInt64.toFin fun _ _ => UInt64.toFin_inj.mp
  let f : {h // IsHash h} → {h // IsHash h} := fun x => ⟨x.1 * fnvPrime, x.2.mul⟩
  have hinj : Function.Injective f := by
    intro x y hxy
    have hmul : x.1 * fnvPrime = y.1 * fnvPrime := congrArg Subtype.val hxy
    refine Subtype.ext ?_
    rw [← mul_cancel_inverse x.1, hmul, mul_cancel_inverse]
  obtain ⟨⟨x, hx⟩, hfx⟩ := Finite.surjective_of_injective hinj ⟨h, hh⟩
  have hmul : x * fnvPrime = h := congrArg Subtype.val hfx
  rwa [← hmul, mul_cancel_inverse]

/-- **The lowest byte is free.** -/
theorem of_div_eq (hh : IsHash h) (heq : h'.toNat / 256 = h.toNat / 256) : IsHash h' := by
  have hsmall : (h ^^^ h').toNat < 256 := by
    refine (Nat.div_eq_zero_iff_lt (by norm_num)).mp ?_
    calc (h ^^^ h').toNat / 256 = (h.toNat ^^^ h'.toNat) >>> 8 := by
          rw [UInt64.toNat_xor, Nat.shiftRight_eq_div_pow]
      _ = 0 := by
          rw [Nat.shiftRight_xor_distrib, Nat.shiftRight_eq_div_pow, Nat.shiftRight_eq_div_pow, heq,
            Nat.xor_self]
  have hbyte : ((h ^^^ h').toUInt8).toUInt64 = h ^^^ h' := by
    rw [← UInt64.toNat_inj, UInt8.toNat_toUInt64, UInt64.toNat_toUInt8]
    exact Nat.mod_eq_of_lt hsmall
  have hxor : h ^^^ ((h ^^^ h').toUInt8).toUInt64 = h' := by
    rw [hbyte, ← UInt64.xor_assoc, UInt64.xor_self, UInt64.zero_xor]
  have hstep := (hh.step ((h ^^^ h').toUInt8)).mul_inverse
  rwa [hxor, mul_cancel_inverse] at hstep

theorem add_low (hh : IsHash h) {d : UInt64} (hd : h.toNat % 256 + d.toNat < 256) :
    IsHash (h + d) := by
  have hlt := h.toNat_lt
  refine hh.of_div_eq ?_
  rw [UInt64.toNat_add, Nat.mod_eq_of_lt (by omega)]
  omega

theorem sub_low (hh : IsHash h) {d : UInt64} (hd : d.toNat ≤ h.toNat % 256) : IsHash (h - d) := by
  refine hh.of_div_eq ?_
  rw [UInt64.toNat_sub_of_le _ _ (by rw [UInt64.le_iff_toNat_le]; omega)]
  omega

theorem toNat_mul_inverse_mod (h : UInt64) :
    (h * fnvInverse).toNat % 256 = h.toNat % 256 * 123 % 256 := by
  have hinverse : fnvInverse.toNat = 14886173955864302971 := rfl
  rw [UInt64.toNat_mul, hinverse]
  omega

/-- **The next block of 256 values**: to change the last bit of a value and multiply adds the
multiplier or takes it away, and between the two the lowest byte has crossed a border. -/
theorem add_128 (hh : IsHash h) (hlow : h.toNat % 256 = 179) : IsHash (h + 128) := by
  have hone : (1 : UInt64).toNat = 1 := rfl
  have h128 : (128 : UInt64).toNat = 128 := rfl
  have hprime : fnvPrime.toNat = 1099511628211 := rfl
  have hlt := h.toNat_lt
  have hdown : IsHash (h - fnvPrime) := by
    have hmul := (hh.mul_inverse.sub_low (d := 1)
      (by rw [toNat_mul_inverse_mod, hlow, hone])).mul
    rwa [UInt64.sub_mul, mul_inverse_cancel, UInt64.one_mul] at hmul
  have hzero : (h - fnvPrime).toNat % 256 = 0 := by
    rw [UInt64.toNat_sub, hprime]
    omega
  have hmid : IsHash (h - fnvPrime + 128) := hdown.add_low (by rw [hzero, h128]; norm_num)
  have hmidlow : (h - fnvPrime + 128).toNat % 256 = 128 := by
    rw [UInt64.toNat_add, h128]
    omega
  have hmul := (hmid.mul_inverse.add_low (d := 1)
    (by rw [toNat_mul_inverse_mod, hmidlow, hone]; decide)).mul
  rw [UInt64.add_mul, mul_inverse_cancel, UInt64.one_mul] at hmul
  have hsum : h - fnvPrime + 128 + fnvPrime = h + 128 := by
    rw [UInt64.add_assoc, UInt64.add_comm 128, ← UInt64.add_assoc, UInt64.sub_add_cancel]
  rwa [hsum] at hmul

/-- All the values of a block, from any one of the block before. -/
theorem next_block {n : ℕ} (hn : n < 2 ^ 56) (hh : ∀ h : UInt64, h.toNat / 256 = n → IsHash h)
    (hh' : h'.toNat / 256 = (n + 1) % 2 ^ 56) : IsHash h' := by
  have hw : (UInt64.ofNat (256 * n + 179)).toNat = 256 * n + 179 := by
    rw [UInt64.toNat_ofNat']
    omega
  have h128 : (128 : UInt64).toNat = 128 := rfl
  have hnext := (hh (UInt64.ofNat (256 * n + 179)) (by omega)).add_128 (by omega)
  refine hnext.of_div_eq ?_
  rw [UInt64.toNat_add, hw, h128, hh']
  omega

end IsHash

/-- **Every value is the hash of some key.** -/
theorem exists_fnv1a_eq (h : UInt64) : ∃ key, fnv1a key = h := by
  have hstart : IsHash 14695981039346656037 := ⟨[], rfl⟩
  have hbase : (14695981039346656037 : UInt64).toNat = 14695981039346656037 := rfl
  -- block after block, from that of the offset basis around to the one before it
  have hblocks : ∀ (j : ℕ) (h : UInt64),
      h.toNat / 256 = (14695981039346656037 / 256 + j) % 2 ^ 56 → IsHash h := by
    intro j
    induction j with
    | zero =>
      intro h hh
      refine hstart.of_div_eq ?_
      rw [hh, hbase]
      norm_num
    | succ j ih =>
      intro h hh
      refine IsHash.next_block (Nat.mod_lt _ (by norm_num)) ih ?_
      rw [hh]
      omega
  have hlt := h.toNat_lt
  exact hblocks (h.toNat / 256 + 2 ^ 56 - 14695981039346656037 / 256) h (by omega)

/-! ### Filters from a file -/

/-- **A filter answers for every key exactly when it has the bits it says it has.** -/
theorem mayContain_ne_none_iff {f : BloomFilter} (hm : f.m < 2 ^ 64) :
    (∀ key, f.mayContain key ≠ none) ↔ f.Probes := by
  constructor
  · intro h
    by_contra hprobes
    obtain ⟨hk, hbits⟩ := not_or.mp hprobes
    obtain ⟨k, hk⟩ := Nat.exists_eq_succ_of_ne_zero hk
    obtain ⟨key, hkey⟩ := exists_fnv1a_eq (UInt64.ofNat (8 * f.bits.length))
    refine h key ?_
    -- the first probe is at the hash itself
    rw [mayContain, hk, List.range_succ_eq_map, mayContainLoop, position]
    split
    · rfl
    · rename_i hm0
      have hlt : 8 * f.bits.length < f.m := by
        by_contra hle
        exact hbits ⟨by omega, by omega⟩
      have hpos : (fnv1a key + UInt64.ofNat 0 * djb2 key).toNat % f.m = 8 * f.bits.length := by
        have hzero : UInt64.ofNat 0 * djb2 key = 0 := UInt64.zero_mul
        rw [hkey, hzero, UInt64.add_zero, UInt64.toNat_ofNat',
          Nat.mod_eq_of_lt (lt_trans hlt hm), Nat.mod_eq_of_lt hlt]
      have hnone : testBit f.bits (8 * f.bits.length) = none := by
        rw [testBit, List.getElem?_eq_none (by omega)]
        rfl
      rw [hpos]
      simp [hnone]
  · intro h key hnone
    obtain ⟨b, hb⟩ := mayContain_isSome h key
    rw [hb] at hnone
    exact Option.some_ne_none b hnone

end BloomFilter

end Tabula
