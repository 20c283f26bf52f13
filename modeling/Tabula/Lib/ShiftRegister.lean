import Mathlib.Logic.Function.Iterate
import Mathlib.Tactic.Common

/-!
# Linear feedback shift registers

The register behind a cyclic redundancy check, in its reflected form: a step
shifts the register by one place to the right and adds a feedback word when a bit
falls out (`ShiftRegister.step`). A digit of `d` bits is taken in by adding it to
the low end and stepping `d` times (`ShiftRegister.feed`).

A step is linear over exclusive or, and injective when the feedback word has its
highest bit set. Digits that together fit the register therefore enter it as one
word (`ShiftRegister.foldl_feed`), and this gives the guarantee such a check is
used for: two messages that differ within as many digits as the register holds
never leave it in the same state (`ShiftRegister.eq_of_foldl_feed_eq`).
-/

namespace ShiftRegister

variable {w d : ℕ} (p : BitVec w)

/-! ### Steps -/

/-- One step with the feedback word `p`. -/
def step (x : BitVec w) : BitVec w := x >>> 1 ^^^ if x.getLsbD 0 then p else 0

theorem step_xor (x y : BitVec w) : step p (x ^^^ y) = step p x ^^^ step p y := by
  have hfeedback : ∀ a b : Bool, (if a ^^ b then p else 0) =
      (if a then p else 0) ^^^ (if b then p else 0) := by
    intro a b
    cases a <;> cases b <;> simp
  rw [step, step, step, BitVec.getLsbD_xor, hfeedback, BitVec.ushiftRight_xor_distrib]
  ac_rfl

theorem iterate_step_xor (n : ℕ) (x y : BitVec w) :
    (step p)^[n] (x ^^^ y) = (step p)^[n] x ^^^ (step p)^[n] y := by
  induction n generalizing x y with
  | zero => rfl
  | succ n ih => rw [Function.iterate_succ_apply, step_xor, ih]; rfl

variable {p}

/-- **With the highest bit in the feedback, no two states step to the same**: the bit that
fell out can be seen. -/
theorem step_injective (hp : p.getLsbD (w - 1) = true) : Function.Injective (step p) := by
  intro x y h
  have hlow : x.getLsbD 0 = y.getLsbD 0 := by
    have htop := congrArg (fun z => z.getLsbD (w - 1)) h
    have hzero : ∀ z : BitVec w, (z >>> 1).getLsbD (w - 1) = false := fun z => by
      rw [BitVec.getLsbD_ushiftRight]
      exact BitVec.getLsbD_of_ge z _ (by omega)
    cases hx : x.getLsbD 0 <;> cases hy : y.getLsbD 0 <;> simp [step, hx, hy, hzero, hp] at htop ⊢
  have hhigh : x >>> 1 = y >>> 1 := by
    rw [step, step, hlow] at h
    exact (BitVec.xor_left_inj _).mp h
  refine BitVec.eq_of_getLsbD_eq fun i _ => ?_
  cases i with
  | zero => exact hlow
  | succ i =>
    have hbit := congrArg (fun z => z.getLsbD i) hhigh
    simpa [Nat.add_comm] using hbit

variable (p) in
/-- A register that is clear at its low end is only shifted. -/
theorem iterate_step_of_clear {n : ℕ} {x : BitVec w} (h : ∀ i < n, x.getLsbD i = false) :
    (step p)^[n] x = x >>> n := by
  induction n with
  | zero => simp
  | succ n ih =>
    have hlow : (x >>> n).getLsbD 0 = false := by
      rw [BitVec.getLsbD_ushiftRight]
      exact h n (Nat.lt_succ_self n)
    rw [Function.iterate_succ_apply', ih fun i hi => h i (Nat.lt_succ_of_lt hi), step, hlow,
      BitVec.shiftRight_add]
    simp

/-! ### Digits -/

variable (p) in
/-- Take in one digit. -/
def feed (x : BitVec w) (b : BitVec d) : BitVec w := (step p)^[d] (x ^^^ b.setWidth w)

/-- Digits as one word, the first one lowest. -/
def word : List (BitVec d) → BitVec w
  | [] => 0
  | b :: bs => b.setWidth w ^^^ word bs <<< d

theorem getLsbD_word_of_le {bs : List (BitVec d)} {i : ℕ} (h : d * bs.length ≤ i) :
    (word bs : BitVec w).getLsbD i = false := by
  induction bs generalizing i with
  | nil => simp [word]
  | cons b bs ih =>
    rw [List.length_cons, Nat.mul_succ] at h
    have hb : b.getLsbD i = false := BitVec.getLsbD_of_ge b i (by omega)
    have hbs : (word bs : BitVec w).getLsbD (i - d) = false := ih (by omega)
    simp [word, hb, hbs]

/-- A word that does not fill the register can be shifted up and down again. -/
theorem shiftLeft_word_shiftRight {bs : List (BitVec d)} (h : d * bs.length + d ≤ w) :
    ((word bs : BitVec w) <<< d) >>> d = word bs := by
  refine BitVec.eq_of_getLsbD_eq fun i hi => ?_
  by_cases hlt : d + i < w
  · have hup : ¬d + i < d := by omega
    simp [hlt, hup, BitVec.getLsbD_eq_getElem hi]
  · rw [getLsbD_word_of_le (by omega)]
    simp [hlt]

variable (p) in
/-- **Digits that fit the register enter it as one word.** -/
theorem foldl_feed {bs : List (BitVec d)} (h : d * bs.length ≤ w) (x : BitVec w) :
    bs.foldl (feed p) x = (step p)^[d * bs.length] (x ^^^ word bs) := by
  induction bs generalizing x with
  | nil => simp [word]
  | cons b bs ih =>
    rw [List.length_cons, Nat.mul_succ] at h
    -- the steps of the first digit only move the others into place
    have hrest : (word bs : BitVec w) = (step p)^[d] (word bs <<< d) := by
      rw [iterate_step_of_clear p fun i hi => by simp [hi], shiftLeft_word_shiftRight h]
    calc (b :: bs).foldl (feed p) x
        = (step p)^[d * bs.length] (feed p x b ^^^ word bs) := ih (by omega) _
      _ = (step p)^[d * bs.length] ((step p)^[d] (x ^^^ word (b :: bs))) := by
          rw [feed, word, ← BitVec.xor_assoc, iterate_step_xor p d _ (word bs <<< d), ← hrest]
      _ = (step p)^[d * (b :: bs).length] (x ^^^ word (b :: bs)) := by
          rw [List.length_cons, Nat.mul_succ, Function.iterate_add_apply]

/-- A word shows its digits. -/
theorem eq_of_word_eq {bs bs' : List (BitVec d)} (hlen : bs.length = bs'.length)
    (hw : d * bs.length ≤ w) (h : (word bs : BitVec w) = word bs') : bs = bs' := by
  induction bs generalizing bs' with
  | nil => exact (List.length_eq_zero_iff.mp hlen.symm).symm
  | cons b bs ih =>
    cases bs' with
    | nil => simp at hlen
    | cons b' bs' =>
      rw [List.length_cons, List.length_cons, Nat.succ_inj] at hlen
      rw [List.length_cons, Nat.mul_succ] at hw
      have hb : b = b' := by
        refine BitVec.eq_of_getLsbD_eq fun i hi => ?_
        have hbit := congrArg (fun z => z.getLsbD i) h
        simpa [word, hi, show i < w by omega] using hbit
      subst hb
      have hshift : (word bs : BitVec w) <<< d = word bs' <<< d := (BitVec.xor_right_inj _).mp h
      refine congrArg (b :: ·) (ih hlen (by omega) ?_)
      rw [← shiftLeft_word_shiftRight hw, hshift, shiftLeft_word_shiftRight (hlen ▸ hw)]

/-! ### Bursts -/

theorem foldl_feed_injective (hp : p.getLsbD (w - 1) = true) (bs : List (BitVec d)) :
    Function.Injective fun x => bs.foldl (feed p) x := by
  induction bs with
  | nil => exact Function.injective_id
  | cons b bs ih =>
    intro x y h
    have hfeed := (step_injective hp).iterate d (ih h)
    exact (BitVec.xor_left_inj _).mp hfeed

/-- **A burst that fits the register is always seen**: the state tells the digits of any one
window apart, whatever the register was before and whatever follows. -/
theorem eq_of_foldl_feed_eq (hp : p.getLsbD (w - 1) = true) {bs bs' : List (BitVec d)}
    (hlen : bs.length = bs'.length) (hw : d * bs.length ≤ w) {x : BitVec w}
    (post : List (BitVec d))
    (h : (bs ++ post).foldl (feed p) x = (bs' ++ post).foldl (feed p) x) : bs = bs' := by
  rw [List.foldl_append, List.foldl_append] at h
  have hwindow := foldl_feed_injective hp post h
  rw [foldl_feed p hw, foldl_feed p (hlen ▸ hw), ← hlen] at hwindow
  exact eq_of_word_eq hlen hw
    ((BitVec.xor_right_inj _).mp ((step_injective hp).iterate _ hwindow))

end ShiftRegister
