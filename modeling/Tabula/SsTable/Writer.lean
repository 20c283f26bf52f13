import Tabula.Bloom

/-!
# Writing an SSTable

`src/sstable/writer.rs`: the bytes `SsTableWriter::new`, `add` and `finish` put
into a file. The four sections follow each other – data, Bloom filter, sparse
index, footer – and the writer keeps the running offset of the data section, the
bytes since the last checkpoint of the index, and the filter.

Only the bytes are modelled here; where they go (a temporary file that is renamed
at the end) is the business of `Tabula.FileSystem`.
-/

namespace Tabula

open LittleEndian SortedTable

/-- `SsTableError`. -/
inductive SsTableError where
  | io : SsTableError
  deriving DecidableEq, Repr

structure SsTableWriter where
  /-- What has been written through the buffer so far. -/
  written : Bytes
  /-- The sparse index: a key and the offset of its record. -/
  index : List (Key × ℕ)
  bytesSinceLastIndex : ℕ
  offset : ℕ
  filter : BloomFilter

/-- `[key_len: 4B][key][val_len: 4B][val]`, the lengths narrowed to 32 bits. -/
def encodeRecord (key : Key) (value : Value) : Bytes :=
  leBytes 4 key.length ++ (key ++ (leBytes 4 value.length ++ value))

/-- `[key_len: 4B][key][offset: 8B]`. -/
def encodeIndexEntry (entry : Key × ℕ) : Bytes :=
  leBytes 4 entry.1.length ++ (entry.1 ++ leBytes 8 entry.2)

namespace SsTableWriter

def new (S : BloomSizing) (expectedKeys : ℕ) : SsTableWriter where
  written := []
  index := []
  bytesSinceLastIndex := 0
  offset := 0
  filter := BloomFilter.new S expectedKeys

/-- `add`: a checkpoint when the index is empty or 4096 bytes have gone by, then
the record. -/
def add (w : SsTableWriter) (key : Key) (value : Value) : Option SsTableWriter := do
  let checkpoint := w.index.isEmpty || decide (4096 ≤ w.bytesSinceLastIndex)
  let recordBuf := encodeRecord key value
  let filter ← w.filter.insert key
  return {
    written := w.written ++ recordBuf
    index := if checkpoint then w.index ++ [(key, w.offset)] else w.index
    bytesSinceLastIndex := (if checkpoint then 0 else w.bytesSinceLastIndex) + recordBuf.length
    offset := w.offset + recordBuf.length
    filter := filter }

/-- The footer, always the last 32 bytes of the file. -/
def encodeFooter (filterOffset filterLen indexOffset indexLen : ℕ) : Bytes :=
  leBytes 8 filterOffset ++ (leBytes 8 filterLen ++ (leBytes 8 indexOffset ++ leBytes 8 indexLen))

/-- `finish`: the file up to the rename. -/
def finish (w : SsTableWriter) : Bytes :=
  let filterOffset := w.offset
  let filterBytes := w.filter.toBytes
  let filterLen := filterBytes.length
  let indexOffset := filterOffset + filterLen
  let indexBytes := (w.index.map encodeIndexEntry).flatten
  let indexLen := (w.index.map fun entry => 4 + entry.1.length + 8).sum
  w.written ++ (filterBytes ++
    (indexBytes ++ encodeFooter filterOffset filterLen indexOffset indexLen))

/-- One `add` for each record, in order. -/
def addAll (w : SsTableWriter) (records : List Record) : Option SsTableWriter :=
  records.foldlM (fun w r => w.add r.1 r.2) w

end SsTableWriter

/-- The whole file for a list of records. -/
def sstableBytes (S : BloomSizing) (expectedKeys : ℕ) (records : List Record) : Option Bytes :=
  ((SsTableWriter.new S expectedKeys).addAll records).map SsTableWriter.finish

/-! ### Sizes of the sections -/

theorem length_encodeRecord (key : Key) (value : Value) :
    (encodeRecord key value).length = 8 + key.length + value.length := by
  simp [encodeRecord]
  omega

theorem length_encodeIndexEntry (entry : Key × ℕ) :
    (encodeIndexEntry entry).length = 4 + entry.1.length + 8 := by
  simp [encodeIndexEntry]
  omega

@[simp] theorem length_encodeFooter (a b c d : ℕ) :
    (SsTableWriter.encodeFooter a b c d).length = 32 := by
  simp [SsTableWriter.encodeFooter]

/-- The index length in the footer is the length of the index section. -/
theorem length_index_section (index : List (Key × ℕ)) :
    ((index.map encodeIndexEntry).flatten).length =
      (index.map fun entry => 4 + entry.1.length + 8).sum := by
  rw [List.length_flatten, List.map_map]
  refine congrArg List.sum (List.map_congr_left fun entry _ => ?_)
  exact length_encodeIndexEntry entry

/-- The data section of a list of records. -/
def dataSection (records : List Record) : Bytes :=
  (records.map fun r => encodeRecord r.1 r.2).flatten

@[simp] theorem dataSection_nil : dataSection [] = [] := rfl

@[simp] theorem dataSection_cons (r : Record) (records : List Record) :
    dataSection (r :: records) = encodeRecord r.1 r.2 ++ dataSection records := rfl

@[simp] theorem dataSection_append (records records' : List Record) :
    dataSection (records ++ records') = dataSection records ++ dataSection records' := by
  simp [dataSection]

/-! ### The invariant of the writer -/

/-- A checkpoint of the index is the start of one of the records. -/
def IsCheckpoint (records : List Record) (entry : Key × ℕ) : Prop :=
  ∃ pre value post, records = pre ++ (entry.1, value) :: post ∧
    entry.2 = (dataSection pre).length

theorem IsCheckpoint.append {records : List Record} {entry : Key × ℕ}
    (h : IsCheckpoint records entry) (records' : List Record) :
    IsCheckpoint (records ++ records') entry := by
  obtain ⟨pre, value, post, rfl, hoff⟩ := h
  exact ⟨pre, value, post ++ records', by simp, hoff⟩

/-- **What a writer holds after its `add`s**: the data section and its length,
an index of checkpoints in order that opens with the first record, and a filter
that contains every key. -/
structure SsTableWriter.Holds (w : SsTableWriter) (records : List Record) : Prop where
  written : w.written = dataSection records
  offset : w.offset = (dataSection records).length
  checkpoints : ∀ entry ∈ w.index, IsCheckpoint records entry
  sorted : StrictSorted w.index
  head : w.index.head?.map Prod.fst = records.head?.map Prod.fst
  filter : w.filter.Sound
  contains : ∀ r ∈ records, w.filter.mayContain r.1 = some true

/-- The part of the filter `add` leaves alone. -/
def SsTableWriter.SameShape (w w' : SsTableWriter) : Prop :=
  w'.filter.k = w.filter.k ∧ w'.filter.m = w.filter.m

namespace SsTableWriter

theorem holds_new (S : BloomSizing) (n : ℕ) : (new S n).Holds [] where
  written := rfl
  offset := rfl
  checkpoints := by simp [new]
  sorted := List.Pairwise.nil
  head := rfl
  filter := BloomFilter.sound_new S n
  contains := by simp

/-- What `add` does to the offset, the index and the counter, with a checkpoint and
without one. -/
theorem add_cases {w w' : SsTableWriter} {key : Key} {value : Value}
    (h : w.add key value = some w') :
    w'.offset = w.offset + (encodeRecord key value).length ∧
      ((w.index = [] ∨ 4096 ≤ w.bytesSinceLastIndex) ∧ w'.index = w.index ++ [(key, w.offset)] ∧
          w'.bytesSinceLastIndex = (encodeRecord key value).length ∨
        (w.index ≠ [] ∧ w.bytesSinceLastIndex < 4096) ∧ w'.index = w.index ∧
          w'.bytesSinceLastIndex = w.bytesSinceLastIndex + (encodeRecord key value).length) := by
  simp only [add, Option.bind_eq_bind, Option.bind_eq_some_iff, Option.pure_def,
    Option.some.injEq] at h
  obtain ⟨filter, -, rfl⟩ := h
  refine ⟨rfl, ?_⟩
  by_cases hcp : w.index = [] ∨ 4096 ≤ w.bytesSinceLastIndex
  · exact Or.inl ⟨hcp, by simp [hcp], by simp [hcp]⟩
  · refine Or.inr ⟨?_, by simp [hcp], by simp [hcp]⟩
    rw [not_or, not_le] at hcp
    exact hcp

/-- **`add` never panics**, and keeps the invariant for a key above all others. -/
theorem Holds.add {w : SsTableWriter} {records : List Record} (h : w.Holds records)
    {key : Key} {value : Value} (hkey : ∀ r ∈ records, r.1 < key) :
    ∃ w', w.add key value = some w' ∧ w'.Holds (records ++ [(key, value)]) ∧ w.SameShape w' := by
  obtain ⟨filter, hins, hsound, hk, hm, -, hnew, hold⟩ := BloomFilter.insert_spec h.filter key
  obtain ⟨w', hadd, hwritten, rfl⟩ : ∃ w', w.add key value = some w' ∧
      w'.written = w.written ++ encodeRecord key value ∧ w'.filter = filter :=
    ⟨_, by rw [SsTableWriter.add, hins]; rfl, rfl, rfl⟩
  obtain ⟨hoffset, hindex⟩ := add_cases hadd
  refine ⟨w', hadd, ?_, hk, hm⟩
  have hcheckpoint : ∀ entry ∈ w.index, IsCheckpoint (records ++ [(key, value)]) entry :=
    fun entry he => (h.checkpoints entry he).append _
  have hbelow : ∀ entry ∈ w.index, entry.1 < key := by
    intro entry he
    obtain ⟨pre, v, post, rfl, -⟩ := h.checkpoints entry he
    exact hkey (entry.1, v) (by simp)
  have hfirst : (records ++ [(key, value)]).head?.map Prod.fst =
      (records.head?.map Prod.fst).or (some key) := by
    cases records <;> rfl
  constructor
  · simp [hwritten, h.written]
  · simp [hoffset, h.offset]
  · rcases hindex with ⟨-, hindex, -⟩ | ⟨-, hindex, -⟩
    · -- the index grows by the new record
      rw [hindex]
      intro entry he
      rcases List.mem_append.mp he with he | he
      · exact hcheckpoint entry he
      · rw [List.mem_singleton.mp he]
        exact ⟨records, value, [], rfl, h.offset⟩
    · rw [hindex]
      exact hcheckpoint
  · rcases hindex with ⟨-, hindex, -⟩ | ⟨-, hindex, -⟩
    · rw [hindex]
      refine List.pairwise_append.mpr
        ⟨h.sorted, List.pairwise_singleton _ _, fun entry he x hx => ?_⟩
      rw [List.mem_singleton.mp hx]
      exact hbelow entry he
    · rw [hindex]
      exact h.sorted
  · rcases hindex with ⟨-, hindex, -⟩ | ⟨⟨hne, -⟩, hindex, -⟩
    · rw [hfirst, ← h.head, hindex]
      cases w.index <;> rfl
    · -- the index has its first entry already
      obtain ⟨entry, index, hcons⟩ := List.exists_cons_of_ne_nil hne
      rw [hfirst, ← h.head, hindex, hcons]
      rfl
  · exact hsound
  · intro r hr
    rcases List.mem_append.mp hr with hr | hr
    · exact hold r.1 (h.contains r hr)
    · rw [List.mem_singleton.mp hr]
      exact hnew

theorem Holds.addAll {w : SsTableWriter} {records : List Record} (h : w.Holds records)
    {more : List Record} (hs : StrictSorted (records ++ more)) :
    ∃ w', w.addAll more = some w' ∧ w'.Holds (records ++ more) ∧ w.SameShape w' := by
  induction more generalizing w records with
  | nil => exact ⟨w, rfl, by simpa using h, rfl, rfl⟩
  | cons r more ih =>
    have hlt : ∀ s ∈ records, s.1 < r.1 := fun s hm =>
      (List.pairwise_append.mp hs).2.2 s hm r List.mem_cons_self
    obtain ⟨w₁, hadd, h₁, hk₁, hm₁⟩ := h.add hlt
    obtain ⟨w₂, hall, h₂, hk₂, hm₂⟩ := ih h₁ (by simpa using hs)
    refine ⟨w₂, ?_, by simpa using h₂, hk₂.trans hk₁, hm₂.trans hm₁⟩
    rw [SsTableWriter.addAll, List.foldlM_cons, hadd]
    exact hall

/-- `add` never panics, whatever the order of the keys: all it needs is the filter. -/
theorem addAll_isSome {w : SsTableWriter} (h : w.filter.Sound) (records : List Record) :
    ∃ w', w.addAll records = some w' := by
  induction records generalizing w with
  | nil => exact ⟨w, rfl⟩
  | cons r records ih =>
    obtain ⟨filter, hins, hsound, -⟩ := BloomFilter.insert_spec h r.1
    obtain ⟨w₁, hadd, hfilter⟩ : ∃ w₁, w.add r.1 r.2 = some w₁ ∧ w₁.filter = filter :=
      ⟨_, by rw [add, hins]; rfl, rfl⟩
    obtain ⟨w', hw'⟩ := ih (w := w₁) (hfilter ▸ hsound)
    refine ⟨w', ?_⟩
    rw [addAll, List.foldlM_cons, hadd]
    exact hw'

end SsTableWriter

/-- **The writer never panics.** -/
theorem sstableBytes_isSome (S : BloomSizing) (n : ℕ) (records : List Record) :
    ∃ bytes, sstableBytes S n records = some bytes := by
  obtain ⟨w, hw⟩ := (SsTableWriter.new S n).addAll_isSome (BloomFilter.sound_new S n) records
  exact ⟨w.finish, by rw [sstableBytes, hw]; rfl⟩

/-- The writer that has written the bytes of an SSTable. -/
theorem exists_holds_of_sstableBytes {S : BloomSizing} {n : ℕ} {records : List Record}
    {bytes : Bytes} (h : sstableBytes S n records = some bytes) (hs : StrictSorted records) :
    ∃ w : SsTableWriter, w.finish = bytes ∧ w.Holds records ∧
      (SsTableWriter.new S n).SameShape w := by
  obtain ⟨w, hw, hholds, hshape⟩ :=
    (SsTableWriter.holds_new S n).addAll (by simpa using hs : StrictSorted ([] ++ records))
  rw [List.nil_append] at hholds
  rw [sstableBytes, hw, Option.map_some, Option.some.injEq] at h
  exact ⟨w, h, hholds, hshape⟩

end Tabula
