import Tabula.Types
import Mathlib.Tactic.IntervalCases

/-!
# The Bloom filter

`src/bloom.rs`. The shape of a filter – how many bits and how many probes – comes
out of floating-point arithmetic in `BloomFilter::new`; all the store relies on
is that the probes stay inside the bits, so the shape is a parameter that carries
this as a field (`Tabula.BloomSizing`). Everything else is the source: two 64-bit
hashes combined by double hashing, modulo `2 ^ 64`, and a division by `m` and an
index into `bits` that can panic on a filter read from a damaged file.

The result the SSTables need is `Tabula.BloomFilter.insert_spec`: a key that was
inserted is never reported absent, because bits are only ever turned on.
-/

namespace Tabula

open LittleEndian

structure BloomFilter where
  bits : Bytes
  k : ℕ
  m : ℕ
  deriving DecidableEq, Repr

/-- What `BloomFilter::new` computes from the expected number of keys: `m` and
`k`, with no probe into an empty filter. Both are 64-bit numbers, and the bit
array is one that can be allocated. -/
structure BloomSizing where
  /-- The number `m` of bits for an expected number of keys. -/
  m : ℕ → ℕ
  /-- The number `k` of probes. -/
  k : ℕ → ℕ
  probes : ∀ n, k n = 0 ∨ 1 ≤ m n
  m_lt : ∀ n, m n < 2 ^ 64
  k_lt : ∀ n, k n < 2 ^ 64

/-- The sizing for a false positive rate of one percent in integers: `9.585058378`
bits and 7 probes for every key. It is what the floating-point formula gives for
every count below 77341. -/
def BloomSizing.percent : BloomSizing where
  m n := min ((9585058378 * n + 999999999) / 1000000000) (2 ^ 64 - 1)
  k n := if n = 0 then 0 else 7
  probes n := by
    split
    · exact Or.inl rfl
    · right
      omega
  m_lt n := by omega
  k_lt n := by
    split <;> norm_num

namespace BloomFilter

/-- `BloomFilter::new`. -/
def new (S : BloomSizing) (expectedKeys : ℕ) : BloomFilter where
  bits := List.replicate ((S.m expectedKeys + 7) / 8) 0
  k := S.k expectedKeys
  m := S.m expectedKeys

def fnv1a (key : Key) : UInt64 :=
  key.foldl (fun hash byte => (hash ^^^ byte.toUInt64) * 1099511628211) 14695981039346656037

def djb2 (key : Key) : UInt64 :=
  key.foldl (fun hash byte => (hash <<< 5) + hash + byte.toUInt64) 5381

/-- The bit the `i`-th probe for a key looks at; a filter of no bits panics on
the division. -/
def position (f : BloomFilter) (key : Key) (i : ℕ) : Option ℕ :=
  let combined := fnv1a key + UInt64.ofNat i * djb2 key
  if f.m = 0 then none else some (combined.toNat % f.m)

/-- `bits[pos / 8] & (1 << (pos % 8)) != 0`. -/
def testBit (bits : Bytes) (pos : ℕ) : Option Bool :=
  bits[pos / 8]?.map fun byte => byte &&& (1 <<< UInt8.ofNat (pos % 8)) != 0

/-- `bits[pos / 8] |= 1 << (pos % 8)`. -/
def setBit (bits : Bytes) (pos : ℕ) : Option Bytes :=
  bits[pos / 8]?.map fun byte => bits.set (pos / 8) (byte ||| 1 <<< UInt8.ofNat (pos % 8))

/-- The loop of `insert` over the probes of a key. -/
def insertLoop (f : BloomFilter) (key : Key) : List ℕ → Bytes → Option Bytes
  | [], bits => some bits
  | i :: is, bits => do
      let pos ← f.position key i
      let bits' ← setBit bits pos
      insertLoop f key is bits'

def insert (f : BloomFilter) (key : Key) : Option BloomFilter := do
  let bits ← f.insertLoop key (List.range f.k) f.bits
  return { f with bits := bits }

/-- The loop of `may_contain`, which returns at the first clear bit. -/
def mayContainLoop (f : BloomFilter) (key : Key) : List ℕ → Option Bool
  | [] => some true
  | i :: is => do
      let pos ← f.position key i
      let isSet ← testBit f.bits pos
      if isSet then mayContainLoop f key is else return false

def mayContain (f : BloomFilter) (key : Key) : Option Bool := f.mayContainLoop key (List.range f.k)

/-- `to_bytes`: `[k: 8B][m: 8B][bits]`. -/
def toBytes (f : BloomFilter) : Bytes := leBytes 8 f.k ++ leBytes 8 f.m ++ f.bits

/-- `from_bytes`, which panics on fewer than 16 bytes. -/
def fromBytes {ε : Type} (bytes : Bytes) : Res ε BloomFilter := do
  let k ← slice bytes 0 8
  let m ← slice bytes 8 16
  let bits ← slice bytes 16 bytes.length
  return { bits := bits, k := leValue k, m := leValue m }

/-! ### Bits -/

theorem or_and_distrib (a b c : UInt8) : (a ||| b) &&& c = a &&& c ||| b &&& c := by
  refine UInt8.toBitVec_inj.mp ?_
  ext i hi
  simp [Bool.and_or_distrib_right]

theorem one_shiftLeft_ne_zero {n : ℕ} (h : n < 8) : (1 : UInt8) <<< UInt8.ofNat n ≠ 0 := by
  interval_cases n <;> decide

theorem testBit_eq_some_true {bits : Bytes} {pos : ℕ} :
    testBit bits pos = some true ↔
      ∃ byte, bits[pos / 8]? = some byte ∧ byte &&& (1 <<< UInt8.ofNat (pos % 8)) ≠ 0 := by
  rw [testBit, Option.map_eq_some_iff]
  simp

/-- **Setting a bit sets it and clears none**, and leaves the array as long as it
was. -/
theorem testBit_setBit {bits bits' : Bytes} {pos : ℕ} (h : setBit bits pos = some bits') :
    bits'.length = bits.length ∧ testBit bits' pos = some true ∧
      ∀ q, testBit bits q = some true → testBit bits' q = some true := by
  obtain ⟨byte, hbyte, rfl⟩ := Option.map_eq_some_iff.mp h
  obtain ⟨hlt, -⟩ := List.getElem?_eq_some_iff.mp hbyte
  refine ⟨List.length_set, ?_, fun q hq => ?_⟩
  · refine testBit_eq_some_true.mpr ⟨_, List.getElem?_set_self hlt, ?_⟩
    rw [or_and_distrib, UInt8.and_self, ne_eq, UInt8.or_eq_zero_iff]
    exact fun hz => one_shiftLeft_ne_zero (Nat.mod_lt _ (by norm_num)) hz.2
  · obtain ⟨c, hc, hset⟩ := testBit_eq_some_true.mp hq
    by_cases hqp : q / 8 = pos / 8
    · rw [hqp, hbyte] at hc
      obtain rfl := Option.some.inj hc
      refine testBit_eq_some_true.mpr ⟨_, by rw [hqp]; exact List.getElem?_set_self hlt, ?_⟩
      rw [or_and_distrib, ne_eq, UInt8.or_eq_zero_iff]
      exact fun hz => hset hz.1
    · exact testBit_eq_some_true.mpr ⟨c, by rw [List.getElem?_set_ne (Ne.symm hqp)]; exact hc, hset⟩

theorem setBit_isSome {bits : Bytes} {pos : ℕ} (h : pos / 8 < bits.length) :
    ∃ bits', setBit bits pos = some bits' := by
  rw [setBit, List.getElem?_eq_getElem h]
  exact ⟨_, rfl⟩

/-! ### Probes -/

/-- The filter probes within its bits. -/
def Sound (f : BloomFilter) : Prop := f.k = 0 ∨ (1 ≤ f.m ∧ f.bits.length = (f.m + 7) / 8)

theorem sound_new (S : BloomSizing) (n : ℕ) : (new S n).Sound :=
  (S.probes n).imp id fun h => ⟨h, by simp [new]⟩

theorem position_of_pos {f : BloomFilter} (h : 1 ≤ f.m) (key : Key) (i : ℕ) :
    ∃ pos, f.position key i = some pos ∧ pos < f.m := by
  refine ⟨_, by rw [position, if_neg (by omega)], Nat.mod_lt _ (by omega)⟩

theorem mayContainLoop_eq_true {f : BloomFilter} {key : Key} {is : List ℕ} :
    f.mayContainLoop key is = some true ↔
      ∀ i ∈ is, ∃ pos, f.position key i = some pos ∧ testBit f.bits pos = some true := by
  induction is with
  | nil => simp [mayContainLoop]
  | cons i is ih =>
    rw [List.forall_mem_cons, ← ih, mayContainLoop]
    cases hp : f.position key i with
    | none => simp
    | some pos =>
      cases ht : testBit f.bits pos with
      | none => simp [ht]
      | some b => cases b <;> simp [ht]

/-- No probes, or at least one bit, and all the bits there should be. -/
def Probes (f : BloomFilter) : Prop := f.k = 0 ∨ (1 ≤ f.m ∧ f.m ≤ 8 * f.bits.length)

theorem Sound.probes {f : BloomFilter} (h : f.Sound) : f.Probes :=
  h.imp id fun ⟨hm, hlen⟩ => ⟨hm, by omega⟩

/-- **Looking up a key never panics** in a filter that probes within its bits. -/
theorem mayContain_isSome {f : BloomFilter} (hf : f.Probes) (key : Key) :
    ∃ b, f.mayContain key = some b := by
  have hloop : ∀ is : List ℕ, 1 ≤ f.m → f.m ≤ 8 * f.bits.length →
      ∃ b, f.mayContainLoop key is = some b := by
    intro is hm hlen
    induction is with
    | nil => exact ⟨true, rfl⟩
    | cons i is ih =>
      obtain ⟨pos, hpos, hlt⟩ := position_of_pos hm key i
      obtain ⟨byte, hbyte⟩ : ∃ byte, f.bits[pos / 8]? = some byte :=
        ⟨_, List.getElem?_eq_getElem (by omega)⟩
      obtain ⟨b, hb⟩ := ih
      rw [mayContainLoop]
      simp only [hpos, testBit, hbyte, Option.map_some, Option.bind_eq_bind, Option.bind_some, hb]
      split
      · exact ⟨b, rfl⟩
      · exact ⟨false, rfl⟩
  rcases hf with hk | ⟨hm, hlen⟩
  · exact ⟨true, by rw [mayContain, hk, List.range_zero, mayContainLoop]⟩
  · exact hloop _ hm hlen

/-- The invariant of the insertion loop: no bit is lost, and every probe of the
loop so far finds its bit set. -/
theorem insertLoop_spec {f : BloomFilter} (hm : 1 ≤ f.m) (key : Key) (is : List ℕ) (bits : Bytes)
    (hlen : bits.length = (f.m + 7) / 8) :
    ∃ bits', f.insertLoop key is bits = some bits' ∧ bits'.length = bits.length ∧
      (∀ q, testBit bits q = some true → testBit bits' q = some true) ∧
      ∀ i ∈ is, ∃ pos, f.position key i = some pos ∧ testBit bits' pos = some true := by
  induction is generalizing bits with
  | nil => exact ⟨bits, rfl, rfl, fun _ h => h, by simp⟩
  | cons i is ih =>
    obtain ⟨pos, hpos, hlt⟩ := position_of_pos hm key i
    have hbyte : pos / 8 < bits.length := by omega
    obtain ⟨bits₁, hset⟩ := setBit_isSome hbyte
    obtain ⟨hlen₁, hbit₁, hmono₁⟩ := testBit_setBit hset
    obtain ⟨bits₂, hloop, hlen₂, hmono₂, hall⟩ := ih bits₁ (by rw [hlen₁]; exact hlen)
    refine ⟨bits₂, by simp [insertLoop, hpos, hset, hloop], by omega,
      fun q hq => hmono₂ q (hmono₁ q hq), ?_⟩
    rw [List.forall_mem_cons]
    exact ⟨⟨pos, hpos, hmono₂ pos hbit₁⟩, hall⟩

/-- **Insertion never panics, adds its key, and loses none.** -/
theorem insert_spec {f : BloomFilter} (hf : f.Sound) (key : Key) :
    ∃ f', f.insert key = some f' ∧ f'.Sound ∧ f'.k = f.k ∧ f'.m = f.m ∧
      f'.bits.length = f.bits.length ∧ f'.mayContain key = some true ∧
      ∀ key', f.mayContain key' = some true → f'.mayContain key' = some true := by
  rcases hf with hk | ⟨hm, hlen⟩
  · have hrange : List.range f.k = [] := by rw [hk, List.range_zero]
    exact ⟨f, by simp [insert, hrange, insertLoop], Or.inl hk, rfl, rfl, rfl,
      by rw [mayContain, hrange, mayContainLoop], fun _ h => h⟩
  · obtain ⟨bits, hloop, hbits, hmono, hall⟩ := insertLoop_spec hm key (List.range f.k) f.bits hlen
    refine ⟨{ f with bits := bits }, by simp [insert, hloop], Or.inr ⟨hm, hbits.trans hlen⟩, rfl,
      rfl, hbits, mayContainLoop_eq_true.mpr hall, fun key' h => ?_⟩
    refine mayContainLoop_eq_true.mpr fun i hi => ?_
    obtain ⟨pos, hpos, hbit⟩ := mayContainLoop_eq_true.mp h i hi
    exact ⟨pos, hpos, hmono pos hbit⟩

/-! ### Storage -/

theorem length_toBytes (f : BloomFilter) : f.toBytes.length = 16 + f.bits.length := by
  simp [toBytes]
  omega

/-- **A filter read back from its bytes is the filter that was written.** -/
theorem fromBytes_toBytes {ε : Type} {f : BloomFilter} (hk : f.k < 2 ^ 64) (hm : f.m < 2 ^ 64) :
    (fromBytes f.toBytes : Res ε BloomFilter) = .ok f := by
  have hlen := f.length_toBytes
  have h1 : (slice f.toBytes 0 8 : Res ε Bytes) = .ok (leBytes 8 f.k) := by
    rw [slice_ok (by omega) (by omega), List.drop_zero, toBytes, List.append_assoc,
      take_append_length (by simp)]
  have h2 : (slice f.toBytes 8 16 : Res ε Bytes) = .ok (leBytes 8 f.m) := by
    rw [slice_ok (by omega) (by omega), toBytes, List.append_assoc, drop_append_length (by simp),
      take_append_length (by simp)]
  have h3 : (slice f.toBytes 16 f.toBytes.length : Res ε Bytes) = .ok f.bits := by
    rw [slice_ok (by omega) (by omega), hlen, toBytes, drop_append_length (by simp),
      Nat.add_sub_cancel_left, List.take_length]
  rw [fromBytes, h1, ok_bind, h2, ok_bind, h3, ok_bind,
    leValue_leBytes_of_lt (lt_of_lt_of_eq hk (by norm_num)),
    leValue_leBytes_of_lt (lt_of_lt_of_eq hm (by norm_num))]
  rfl

/-! ### Sequences of insertions -/

/-- One `insert` for each key, in order. -/
def insertAll (f : BloomFilter) (keys : List Key) : Option BloomFilter := keys.foldlM insert f

/-- No probes, or as many zeroed bytes as hold the bits. -/
def Zeroed (f : BloomFilter) : Prop :=
  f.k = 0 ∨ (1 ≤ f.m ∧ f.bits = List.replicate ((f.m + 7) / 8) 0)

theorem Zeroed.sound {f : BloomFilter} (h : f.Zeroed) : f.Sound :=
  h.imp id fun ⟨hm, hbits⟩ => ⟨hm, by rw [hbits, List.length_replicate]⟩

/-- A sequence of insertions keeps the shape and the keys that were in, and adds its own. -/
theorem insertAll_spec {f : BloomFilter} (hf : f.Sound) (keys : List Key) :
    ∃ f', f.insertAll keys = some f' ∧ f'.k = f.k ∧ f'.m = f.m ∧
      (∀ key, f.mayContain key = some true → f'.mayContain key = some true) ∧
      ∀ key ∈ keys, f'.mayContain key = some true := by
  induction keys generalizing f with
  | nil => exact ⟨f, rfl, rfl, rfl, fun _ h => h, List.forall_mem_nil _⟩
  | cons key keys ih =>
    obtain ⟨f₁, hinsert, hsound, hk₁, hm₁, -, hnew, hold⟩ := insert_spec hf key
    obtain ⟨f₂, hall, hk₂, hm₂, hkeep, hadd⟩ := ih hsound
    refine ⟨f₂, ?_, hk₂.trans hk₁, hm₂.trans hm₁, fun key' h => hkeep key' (hold key' h),
      List.forall_mem_cons.mpr ⟨hkeep key hnew, hadd⟩⟩
    rw [insertAll, List.foldlM_cons, hinsert]
    exact hall

/-- **No false negatives, before or after storage**: whatever is inserted into a new filter, no
insertion leaves the bits, every key is found, and it is found in the filter that is read back,
which is the one that was written. -/
theorem mayContain_insertAll {ε : Type} {f : BloomFilter} (hf : f.Zeroed) (hk : f.k < 2 ^ 64)
    (hm : f.m < 2 ^ 64) (keys : List Key) :
    ∃ f' g, f.insertAll keys = some f' ∧ (∀ key ∈ keys, f'.mayContain key = some true) ∧
      (fromBytes f'.toBytes : Res ε BloomFilter) = .ok g ∧ g = f' ∧
      ∀ key ∈ keys, g.mayContain key = some true := by
  obtain ⟨f', hall, hk', hm', -, hadd⟩ := insertAll_spec hf.sound keys
  exact ⟨f', f', hall, hadd, fromBytes_toBytes (by omega) (by omega), rfl, hadd⟩

/-- A filter of ten bits, and one key twice. -/
theorem mayContain_insertAll_ten :
    ∃ f' g, insertAll ⟨[0, 0], 3, 10⟩ [[1], [2, 3], [1]] = some f' ∧
      (∀ key ∈ [[1], [2, 3], [1]], f'.mayContain key = some true) ∧
      (fromBytes f'.toBytes : Res Unit BloomFilter) = .ok g ∧ g = f' ∧
      ∀ key ∈ [[1], [2, 3], [1]], g.mayContain key = some true :=
  mayContain_insertAll (Or.inr ⟨by decide, rfl⟩) (by decide) (by decide) _

end BloomFilter

end Tabula
