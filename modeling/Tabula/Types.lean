import Tabula.Lib.SortedTable
import Tabula.Lib.LittleEndian

/-!
# Keys, values and the tombstone

The byte strings the store handles (`src/types.rs`), and what the Rust code may
do besides returning: `Tabula.Fault` separates an `Err` from a panic, so that a
function that slices out of range or overflows is visibly different from one
that reports an error.
-/

namespace Tabula

/-- `Vec<u8>`. -/
abbrev Bytes := List UInt8

/-- Bytes are ordered as numbers; byte strings are then ordered
lexicographically, as `Vec<u8>` is. -/
instance instLinearOrderByte : LinearOrder UInt8 where
  le_refl := UInt8.le_refl
  le_trans _ _ _ := UInt8.le_trans
  le_antisymm _ _ := UInt8.le_antisymm
  le_total := UInt8.le_total
  lt_iff_le_not_ge a b := by
    simp only [UInt8.lt_iff_toNat_lt, UInt8.le_iff_toNat_le]
    omega
  toDecidableLE := inferInstance
  toDecidableLT := inferInstance
  toDecidableEq := inferInstance

abbrev Key := Bytes

abbrev Value := Bytes

/-- One key with its raw value, as MemTables and SSTables hold them. -/
abbrev Record := Key × Value

/-- The sentinel a deletion is stored as: the bytes of `__TOMBSTONE__`. -/
def tombstone : Value := [95, 95, 84, 79, 77, 66, 83, 84, 79, 78, 69, 95, 95]

/-- `types::is_tombstone`. -/
def isTombstone (value : Value) : Bool := value == tombstone

@[simp] theorem isTombstone_tombstone : isTombstone tombstone = true := rfl

theorem isTombstone_iff {v : Value} : isTombstone v = true ↔ v = tombstone := by
  rw [isTombstone, beq_iff_eq]

/-- What a reader makes of a raw value: a tombstone means absent. -/
def visible (raw : Option Value) : Option Value := raw.filter fun v => !isTombstone v

@[simp] theorem visible_none : visible none = none := rfl

theorem visible_some (v : Value) : visible (some v) = if isTombstone v then none else some v := by
  rw [visible, Option.filter_some]
  cases isTombstone v <;> rfl

theorem visible_of_not_tombstone {v : Value} (h : isTombstone v = false) :
    visible (some v) = some v := by
  rw [visible_some, h]
  rfl

@[simp] theorem visible_tombstone : visible (some tombstone) = none := rfl

@[simp] theorem visible_visible (raw : Option Value) : visible (visible raw) = visible raw := by
  rw [visible, visible, Option.filter_filter]
  simp

/-- Raw values that read the same are the same: there is one tombstone only. -/
theorem visible_some_inj {v w : Value} : visible (some v) = visible (some w) ↔ v = w := by
  constructor
  · intro h
    rw [visible_some, visible_some] at h
    cases hv : isTombstone v <;> cases hw : isTombstone w <;> simp [hv, hw] at h
    · exact h
    · rw [isTombstone_iff.mp hv, isTombstone_iff.mp hw]
  · rintro rfl
    rfl

/-! ### Errors and panics -/

/-- How a Rust function can fail to return `Ok`: with its error, or by a panic. -/
inductive Fault (ε : Type) where
  /-- The function returned `Err`. -/
  | err : ε → Fault ε
  /-- The function panicked. -/
  | panic : Fault ε
  deriving DecidableEq, Repr

/-- The two results of a Rust function, and the panic. -/
abbrev Res (ε : Type) := Except (Fault ε)

/-- `.map_err(..)`: the caller's error in place of the callee's. A panic stays a
panic. -/
def mapErr {ε ε' α : Type} (f : ε → ε') : Res ε α → Res ε' α
  | .ok a => .ok a
  | .error (.err e) => .error (.err (f e))
  | .error .panic => .error .panic

@[simp] theorem mapErr_ok {ε ε' α : Type} (f : ε → ε') (a : α) :
    mapErr f (.ok a : Res ε α) = .ok a := rfl

@[simp] theorem ok_bind {ε α β : Type} (a : α) (f : α → Res ε β) :
    ((.ok a : Res ε α) >>= f) = f a := rfl

@[simp] theorem error_bind {ε α β : Type} (e : Fault ε) (f : α → Res ε β) :
    ((.error e : Res ε α) >>= f) = .error e := rfl

/-- A sequence that returned `Ok` did so in both its halves. -/
theorem bind_eq_ok {ε α β : Type} {x : Res ε α} {f : α → Res ε β} {b : β} :
    (x >>= f) = .ok b ↔ ∃ a, x = .ok a ∧ f a = .ok b := by
  cases x <;> simp

/-- A step that can only panic. -/
def orPanic {ε α : Type} : Option α → Res ε α
  | some a => .ok a
  | none => .error .panic

@[simp] theorem orPanic_some {ε α : Type} (a : α) : (orPanic (some a) : Res ε α) = .ok a := rfl

/-- `&b[i..j]`, which panics when the range is not one of `b`. -/
def slice {ε : Type} (b : Bytes) (i j : ℕ) : Res ε Bytes :=
  if i ≤ j ∧ j ≤ b.length then .ok ((b.drop i).take (j - i)) else .error .panic

theorem slice_ok {ε : Type} {b : Bytes} {i j : ℕ} (h : i ≤ j) (hb : j ≤ b.length) :
    (slice b i j : Res ε Bytes) = .ok ((b.drop i).take (j - i)) := by
  rw [slice, if_pos ⟨h, hb⟩]

/-- An addition of 64-bit `usize`s, which panics on overflow. -/
def usizeAdd {ε : Type} (a b : ℕ) : Res ε ℕ :=
  if a + b < 2 ^ 64 then .ok (a + b) else .error .panic

theorem usizeAdd_ok {ε : Type} {a b : ℕ} (h : a + b < 2 ^ 64) :
    (usizeAdd a b : Res ε ℕ) = .ok (a + b) := by
  rw [usizeAdd, if_pos h]

/-! ### Sizes -/

/-- A byte string whose length fits the 32-bit length fields of the formats. -/
def Short (b : Bytes) : Prop := b.length < 2 ^ 32

instance (b : Bytes) : Decidable (Short b) := inferInstanceAs (Decidable (b.length < 2 ^ 32))

theorem short_tombstone : Short tombstone := by decide

/-- A record whose key and value both fit. -/
def ShortRecord (r : Record) : Prop := Short r.1 ∧ Short r.2

instance (r : Record) : Decidable (ShortRecord r) :=
  inferInstanceAs (Decidable (Short r.1 ∧ Short r.2))

/-- The 32-bit length field of a short byte string holds its length. -/
theorem leValue_length {b : Bytes} (h : Short b) :
    LittleEndian.leValue (LittleEndian.leBytes 4 b.length) = b.length :=
  LittleEndian.leValue_leBytes_of_lt (lt_of_lt_of_eq h (by norm_num))

end Tabula
