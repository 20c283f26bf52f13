import Tabula.SsTable.RoundTrip
import Tabula.Wal.Entry
import Mathlib.Data.List.Induction

/-!
# The MemTable

`src/memtable.rs`: the ordered map of raw values that takes the writes. The
`BTreeMap` is a strictly sorted list of records, and that it is sorted is a field,
so that a MemTable is always fit to be flushed. A deletion is stored as the
tombstone and is a record like any other.
-/

namespace Tabula

open SortedTable

structure MemTable where
  /-- The entries of the `BTreeMap`, in its order. -/
  data : List Record
  sorted : StrictSorted data

namespace MemTable

@[ext] theorem ext {m m' : MemTable} (h : m.data = m'.data) : m = m' := by
  cases m
  cases m'
  congr

instance : DecidableEq MemTable := fun m m' =>
  decidable_of_iff (m.data = m'.data) ⟨ext, fun h => congrArg data h⟩

def new : MemTable := ⟨[], List.Pairwise.nil⟩

/-- `get`: the raw value, a tombstone included. -/
def get (mem : MemTable) (key : Key) : Option Value := lookup key mem.data

def set (mem : MemTable) (key : Key) (value : Value) : MemTable :=
  ⟨insert key value mem.data, mem.sorted.insert key value⟩

def delete (mem : MemTable) (key : Key) : MemTable := mem.set key tombstone

/-- `size_bytes`. The sum is that of allocated buffers, so it cannot overflow. -/
def sizeBytes (mem : MemTable) : ℕ := (mem.data.map fun r => r.1.length + r.2.length).sum

/-- The bytes `flush` writes: every record, tombstones included. -/
def flushBytes (S : BloomSizing) (mem : MemTable) : Option Bytes :=
  sstableBytes S mem.data.length mem.data

/-- `BTreeMap::range` from an included bound to an excluded one, which panics when the first
is above the second. -/
def range (data : List Record) (start end' : Key) : Option (List Record) :=
  if end' < start then none
  else some (data.filter fun r => decide (start ≤ r.1) && decide (r.1 < end'))

/-- `scan`, followed to its end; tombstones are hidden. -/
def scan (mem : MemTable) (start end' : Key) : Option (List Record) :=
  (range mem.data start end').map fun rs => rs.filter fun r => !isTombstone r.2

/-! ### Lookups -/

@[simp] theorem get_new (key : Key) : new.get key = none := rfl

theorem get_set (mem : MemTable) (key key' : Key) (value : Value) :
    (mem.set key value).get key' = if key = key' then some value else mem.get key' := by
  have h := lookup_insert key key' value mem.data
  by_cases hk : key = key'
  · rwa [if_pos hk] at h ⊢
  · rwa [if_neg hk] at h ⊢

theorem get_delete (mem : MemTable) (key key' : Key) :
    (mem.delete key).get key' = if key = key' then some tombstone else mem.get key' :=
  mem.get_set key key' tombstone

theorem set_data_ne_nil (mem : MemTable) (key : Key) (value : Value) :
    (mem.set key value).data ≠ [] := insert_ne_nil key value mem.data

/-! ### Applying log entries -/

/-- What `Lsm::open` does with one entry of the log, and `set` and `delete` with
the write they have just logged. -/
def apply (mem : MemTable) : WalEntry → MemTable
  | .put key value => mem.set key value
  | .delete key => mem.delete key

/-- The entries of a log, applied in order. -/
def applyAll (mem : MemTable) (entries : List WalEntry) : MemTable := entries.foldl apply mem

theorem get_apply (mem : MemTable) (e : WalEntry) (key : Key) :
    (mem.apply e).get key = if e.key = key then some e.raw else mem.get key := by
  cases e with
  | put k v => exact mem.get_set k key v
  | delete k => exact mem.get_delete k key

theorem apply_data_ne_nil (mem : MemTable) (e : WalEntry) : (mem.apply e).data ≠ [] := by
  cases e with
  | put k v => exact mem.set_data_ne_nil k v
  | delete k => exact mem.set_data_ne_nil k tombstone

@[simp] theorem applyAll_nil (mem : MemTable) : mem.applyAll [] = mem := rfl

theorem applyAll_append (mem : MemTable) (es es' : List WalEntry) :
    mem.applyAll (es ++ es') = (mem.applyAll es).applyAll es' := List.foldl_append

theorem applyAll_concat (mem : MemTable) (es : List WalEntry) (e : WalEntry) :
    mem.applyAll (es ++ [e]) = (mem.applyAll es).apply e := by
  rw [applyAll_append]
  rfl

theorem get_apply_ne_none {mem : MemTable} {e : WalEntry} {key : Key} :
    (mem.apply e).get key ≠ none ↔ e.key = key ∨ mem.get key ≠ none := by
  rw [get_apply]
  split <;> simp_all

/-- The keys of a log, applied, are those of its entries. -/
theorem get_applyAll_ne_none {mem : MemTable} {es : List WalEntry} {key : Key} :
    (mem.applyAll es).get key ≠ none ↔ (∃ e ∈ es, e.key = key) ∨ mem.get key ≠ none := by
  induction es generalizing mem with
  | nil => simp
  | cons e es ih =>
    have happly : mem.applyAll (e :: es) = (mem.apply e).applyAll es := rfl
    rw [happly, ih, get_apply_ne_none, List.exists_mem_cons_iff, or_left_comm, or_assoc]

/-- MemTables with the same answers are the same. -/
theorem eq_of_get_eq {mem mem' : MemTable} (h : ∀ key, mem.get key = mem'.get key) : mem = mem' :=
  ext (eq_of_lookup_eq mem.sorted mem'.sorted h)

/-- Writes to different keys change places, and so do equal writes. -/
theorem apply_comm (mem : MemTable) {e e' : WalEntry} (h : e.key = e'.key → e.raw = e'.raw) :
    (mem.apply e).apply e' = (mem.apply e').apply e := by
  refine eq_of_get_eq fun key => ?_
  simp only [get_apply]
  by_cases hk : e.key = key <;> by_cases hk' : e'.key = key
  · simp [hk, hk', h (hk.trans hk'.symm)]
  · simp [hk, hk']
  · simp [hk, hk']
  · simp [hk, hk']

/-- A write moves to the front of those it changes places with. -/
theorem applyAll_move (mem : MemTable) {pre : List WalEntry} {e : WalEntry}
    (h : ∀ x ∈ pre, x.key = e.key → x.raw = e.raw) (post : List WalEntry) :
    mem.applyAll (pre ++ e :: post) = (mem.apply e).applyAll (pre ++ post) := by
  induction pre generalizing mem with
  | nil => rfl
  | cons x pre ih =>
    calc mem.applyAll (x :: (pre ++ e :: post))
        = ((mem.apply x).apply e).applyAll (pre ++ post) :=
          ih _ fun y hy => h y (List.mem_cons_of_mem _ hy)
      _ = ((mem.apply e).apply x).applyAll (pre ++ post) := by
          rw [mem.apply_comm (h x List.mem_cons_self)]

/-! ### Scans -/

/-- The last value that was written to a key, if it was written to. -/
def latest (es : List WalEntry) (key : Key) : Option Value :=
  (es.reverse.find? fun e => e.key = key).map WalEntry.raw

theorem get_applyAll_new (es : List WalEntry) (key : Key) :
    (new.applyAll es).get key = latest es key := by
  induction es using List.reverseRecOn with
  | nil => rfl
  | append_singleton es e ih =>
    rw [applyAll_concat, get_apply, ih, latest, latest, List.reverse_append,
      List.reverse_singleton, List.singleton_append, List.find?_cons]
    by_cases hkey : e.key = key <;> simp [hkey]

/-- **What a scan of the writes should yield**: in the order of the keys, every key between the
bounds that has a value and is not deleted. -/
structure Scanned (es : List WalEntry) (start end' : Key) (rs : List Record) : Prop where
  sorted : StrictSorted rs
  mem_iff : ∀ k v, (k, v) ∈ rs ↔
    (start ≤ k ∧ k < end') ∧ latest es k = some v ∧ isTombstone v = false
  empty : end' ≤ start → rs = []

/-- **A scan is total and exact, unless its bounds are reversed**: then it panics. -/
theorem scan_iff (es : List WalEntry) (start end' : Key) :
    (∃ rs, (new.applyAll es).scan start end' = some rs ∧ Scanned es start end' rs) ↔
      start ≤ end' := by
  constructor
  · rintro ⟨rs, hscan, -⟩
    by_contra hlt
    rw [scan, range, if_pos (not_le.mp hlt)] at hscan
    simp at hscan
  · intro hle
    have hsorted := (new.applyAll es).sorted
    refine ⟨_, by rw [scan, range, if_neg (not_lt.mpr hle)]; rfl,
      (hsorted.filter _).filter _, fun k v => ?_, fun hge => ?_⟩
    · rw [List.mem_filter, List.mem_filter, ← lookup_eq_some_iff hsorted, ← get_applyAll_new, get]
      simp only [Bool.and_eq_true, decide_eq_true_eq, Bool.not_eq_true']
      tauto
    · refine List.eq_nil_iff_forall_not_mem.mpr fun r hr => ?_
      obtain ⟨hrange, -⟩ := List.mem_filter.mp hr
      obtain ⟨-, hbounds⟩ := List.mem_filter.mp hrange
      simp only [Bool.and_eq_true, decide_eq_true_eq] at hbounds
      exact absurd (lt_of_lt_of_le hbounds.2 hge) (not_lt.mpr hbounds.1)

/-- **A scan with reversed bounds panics.** -/
theorem not_scan : ¬∀ (es : List WalEntry) (start end' : Key),
    ∃ rs, (new.applyAll es).scan start end' = some rs ∧ Scanned es start end' rs := by
  intro h
  obtain ⟨rs, hscan, -⟩ := h [.put [97] [1]] [98] [97]
  rw [show (new.applyAll [.put [97] [1]]).scan [98] [97] = none by decide] at hscan
  exact Option.some_ne_none rs hscan.symm

/-! ### Sizes, and what a flush leaves in the file -/

/-- Every record fits the length fields. -/
def IsShort (mem : MemTable) : Prop := ∀ r ∈ mem.data, ShortRecord r

theorem isShort_new : new.IsShort := List.forall_mem_nil _

theorem IsShort.apply {mem : MemTable} (h : mem.IsShort) {e : WalEntry} (he : e.IsShort) :
    (mem.apply e).IsShort := by
  intro r hr
  cases e with
  | put k v =>
    rcases mem_insert hr with rfl | hr
    · exact he
    · exact h r hr
  | delete k =>
    rcases mem_insert hr with rfl | hr
    · exact ⟨he, short_tombstone⟩
    · exact h r hr

/-- **A flush never panics.** -/
theorem exists_flushBytes (S : BloomSizing) (mem : MemTable) :
    ∃ bytes, mem.flushBytes S = some bytes := sstableBytes_isSome S _ _

/-- **Its file stores the MemTable** as long as the records are short and the file is one
a file system can hold. -/
theorem stores_flushBytes {S : BloomSizing} {mem : MemTable} (h : mem.IsShort) {bytes : Bytes}
    (hb : mem.flushBytes S = some bytes) (hlen : bytes.length < 2 ^ 63) :
    Stores bytes mem.data := stores_sstableBytes hb mem.sorted h hlen

end MemTable

end Tabula
