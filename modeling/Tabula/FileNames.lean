import Tabula.FileSystem
import Mathlib.Data.Char

/-!
# The names of SSTables

An SSTable's level and age are read off its name: `l0_{nanos}.sst` for a flushed
MemTable (`Lsm::next_sstable_path`), `l1_{nanos}.sst` for the output of a
compaction, with `nanos` the reading of the clock in decimal. `discover_levels`
takes the level from between the `l` and the first `_`, and the age from the order
of the names.

Names are compared character by character, so their order is that of the clock
readings only as long as these have equally many digits
(`Tabula.FileName.l0Name_lt`).
-/

namespace Tabula

namespace FileName

/-- `format!("l0_{unique_suffix}.sst")`. -/
def l0Name (now : ℕ) : List Char := 'l' :: '0' :: '_' :: (Nat.toDigits 10 now ++ Path.sst)

/-- `format!("l1_{unique_suffix}.sst")`. -/
def l1Name (now : ℕ) : List Char := 'l' :: '1' :: '_' :: (Nat.toDigits 10 now ++ Path.sst)

/-- `str::parse::<usize>`: decimal digits, with at most a `+` before them, of a
number of 64 bits. -/
def parseUsize (s : List Char) : Option ℕ :=
  let digits := if s.head? = some '+' then s.tail else s
  if digits = [] ∨ digits.all Char.isDigit = false then none
  else
    let n := Nat.ofDigitChars 10 digits 0
    if n < 2 ^ 64 then some n else none

/-- The level `discover_levels` files a name under; `none` when it skips it. -/
def levelOf (name : List Char) : Option ℕ :=
  if Path.sst <:+ name then
    match name with
    | 'l' :: rest => parseUsize (rest.takeWhile (· ≠ '_'))
    | _ => none
  else none

theorem suffix_l0Name (now : ℕ) : Path.sst <:+ l0Name now :=
  ⟨'l' :: '0' :: '_' :: Nat.toDigits 10 now, by simp [l0Name]⟩

theorem suffix_l1Name (now : ℕ) : Path.sst <:+ l1Name now :=
  ⟨'l' :: '1' :: '_' :: Nat.toDigits 10 now, by simp [l1Name]⟩

@[simp] theorem levelOf_l0Name (now : ℕ) : levelOf (l0Name now) = some 0 := by
  unfold levelOf
  rw [if_pos (suffix_l0Name now)]
  change parseUsize ('0' :: '_' :: (Nat.toDigits 10 now ++ Path.sst) |>.takeWhile (· ≠ '_')) = _
  rw [List.takeWhile_cons_of_pos (by decide), List.takeWhile_cons_of_neg (by decide)]
  rfl

@[simp] theorem levelOf_l1Name (now : ℕ) : levelOf (l1Name now) = some 1 := by
  unfold levelOf
  rw [if_pos (suffix_l1Name now)]
  change parseUsize ('1' :: '_' :: (Nat.toDigits 10 now ++ Path.sst) |>.takeWhile (· ≠ '_')) = _
  rw [List.takeWhile_cons_of_pos (by decide), List.takeWhile_cons_of_neg (by decide)]
  rfl

/-- Only `.sst` files are filed. -/
theorem suffix_of_levelOf {name : List Char} {n : ℕ} (h : levelOf name = some n) :
    Path.sst <:+ name := by
  by_contra hs
  unfold levelOf at h
  rw [if_neg hs] at h
  exact absurd h.symm (Option.some_ne_none n)

/-! ### The order of names -/

/-- Two readings of the clock that are written with equally many digits. -/
def SameDigits (a b : ℕ) : Prop := (Nat.toDigits 10 a).length = (Nat.toDigits 10 b).length

instance (a b : ℕ) : Decidable (SameDigits a b) :=
  inferInstanceAs (Decidable ((Nat.toDigits 10 a).length = (Nat.toDigits 10 b).length))

theorem toDigits_inj {a b : ℕ} (h : Nat.toDigits 10 a = Nat.toDigits 10 b) : a = b := by
  rw [← Nat.ofDigitChars_ten_toDigits (n := a), h, Nat.ofDigitChars_ten_toDigits]

theorem append_lt_append {xs ys zs ws : List Char} (h : xs < ys) (hlen : xs.length = ys.length) :
    xs ++ zs < ys ++ ws := by
  induction xs generalizing ys with
  | nil =>
    obtain rfl := List.length_eq_zero_iff.mp hlen.symm
    exact absurd h (lt_irrefl _)
  | cons x xs ih =>
    cases ys with
    | nil => simp at hlen
    | cons y ys =>
      rw [List.cons_append, List.cons_append]
      rcases List.cons_lt_cons_iff.mp h with hxy | ⟨rfl, hlt⟩
      · exact List.cons_lt_cons_iff.mpr (Or.inl hxy)
      · exact List.cons_lt_cons_iff.mpr (Or.inr ⟨rfl, ih hlt (by simpa using hlen)⟩)

theorem append_lt_append_left {ys zs : List Char} (xs : List Char) (h : ys < zs) :
    xs ++ ys < xs ++ zs := by
  induction xs with
  | nil => exact h
  | cons x xs ih => exact List.cons_lt_cons_iff.mpr (Or.inr ⟨rfl, ih⟩)

theorem digitChar_lt {a b : ℕ} (h : a < b) (hb : b < 10) : a.digitChar < b.digitChar := by
  have ha := Nat.toNat_digitChar_of_lt_ten (h.trans hb)
  have hb := Nat.toNat_digitChar_of_lt_ten hb
  rw [Char.lt_def, UInt32.lt_iff_toNat_lt]
  change a.digitChar.toNat < b.digitChar.toNat
  omega

/-- **Decimals of one length are ordered as their numbers.** The induction is on
the number of digits. -/
theorem toDigits_lt {a b : ℕ} (hd : SameDigits a b) (h : a < b) :
    Nat.toDigits 10 a < Nat.toDigits 10 b := by
  induction b using Nat.strong_induction_on generalizing a with
  | _ b ih =>
    rcases Nat.lt_or_ge b 10 with hb | hb
    · rw [Nat.toDigits_of_lt_base hb, Nat.toDigits_of_lt_base (h.trans hb)]
      exact List.cons_lt_cons_iff.mpr (Or.inl (digitChar_lt h hb))
    · have ha : 10 ≤ a := by
        by_contra hlt
        have hone : (Nat.toDigits 10 b).length ≤ 1 := by
          rw [← hd, Nat.toDigits_of_lt_base (not_le.mp hlt)]
          rfl
        exact absurd ((Nat.length_toDigits_le_iff (by norm_num) Nat.one_pos).mp hone) (by omega)
      have hd' : SameDigits (a / 10) (b / 10) := by
        have hlen := hd
        rw [SameDigits, Nat.toDigits_of_base_le (by norm_num) ha,
          Nat.toDigits_of_base_le (by norm_num) hb, List.length_append, List.length_append] at hlen
        simpa [SameDigits] using hlen
      rw [Nat.toDigits_of_base_le (by norm_num) ha, Nat.toDigits_of_base_le (by norm_num) hb]
      rcases Nat.lt_or_ge (a / 10) (b / 10) with hlt | hge
      · exact append_lt_append (ih (b / 10) (by omega) hd' hlt) hd'
      · obtain hq : a / 10 = b / 10 := by omega
        rw [hq]
        refine append_lt_append_left _ (List.cons_lt_cons_iff.mpr (Or.inl (digitChar_lt ?_ ?_)))
        · omega
        · omega

/-- The names of one level are in the order of the clock readings. -/
theorem levelName_lt (c : Char) {a b : ℕ} (hd : SameDigits a b) (h : a < b) :
    'l' :: c :: '_' :: (Nat.toDigits 10 a ++ Path.sst) <
      'l' :: c :: '_' :: (Nat.toDigits 10 b ++ Path.sst) := by
  have hdigits := @append_lt_append _ _ Path.sst Path.sst (toDigits_lt hd h) hd
  exact List.cons_lt_cons_iff.mpr (Or.inr ⟨rfl, List.cons_lt_cons_iff.mpr (Or.inr ⟨rfl,
    List.cons_lt_cons_iff.mpr (Or.inr ⟨rfl, hdigits⟩)⟩)⟩)

/-- **Flushed files are named in the order of their clock readings**, when these
have equally many digits. -/
theorem l0Name_lt {a b : ℕ} (hd : SameDigits a b) (h : a < b) : l0Name a < l0Name b :=
  levelName_lt '0' hd h

/-- So are the outputs of compactions. -/
theorem l1Name_lt {a b : ℕ} (hd : SameDigits a b) (h : a < b) : l1Name a < l1Name b :=
  levelName_lt '1' hd h

/-- A temporary file has the name of its SSTable up to the extension. -/
theorem fileStem_append_sst {dir stem : List Char} (h : stem ≠ []) :
    Path.fileStem ⟨dir, stem ++ Path.sst⟩ = stem := by
  simp [Path.fileStem, Path.sst, h]

/-- The temporary files of flushes and of compactions have different names. -/
theorem tmp_l0Name_ne_tmp_l1Name (a b : ℕ) (dir dir' : List Char) :
    Path.tmp ⟨dir, l0Name a⟩ ≠ Path.tmp ⟨dir', l1Name b⟩ := by
  intro h
  have hstem (c : Char) (n : ℕ) (d : List Char) :
      Path.fileStem ⟨d, 'l' :: c :: '_' :: (Nat.toDigits 10 n ++ Path.sst)⟩ =
        'l' :: c :: '_' :: Nat.toDigits 10 n :=
    @fileStem_append_sst d ('l' :: c :: '_' :: Nat.toDigits 10 n) (List.cons_ne_nil _ _)
  have hname := congrArg Path.name h
  simp only [Path.tmp, Path.withExtension, l0Name, l1Name, hstem] at hname
  simp at hname

theorem l0Name_inj {a b : ℕ} (h : l0Name a = l0Name b) : a = b := by
  simp only [l0Name, List.cons.injEq, true_and] at h
  exact toDigits_inj (List.append_cancel_right h)

theorem l1Name_inj {a b : ℕ} (h : l1Name a = l1Name b) : a = b := by
  simp only [l1Name, List.cons.injEq, true_and] at h
  exact toDigits_inj (List.append_cancel_right h)

end FileName

end Tabula
