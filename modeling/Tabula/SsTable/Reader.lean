import Tabula.SsTable.Writer

/-!
# Reading an SSTable

`src/sstable/reader.rs`: `SsTableReader::open`, the point lookup `get_raw` and
the iterator, on the bytes of the file. A read past the end of the file is an
`Err` of `read_exact`, a slice past the end of a buffer is a panic; the iterator
turns a failed read into the end of the data.

Which buffers there are and which offsets can be sought is not up to the program,
so `open` and `get_raw` are defined within `Tabula.SsTableReader.Limits`
(`openWithin`, `getRawWithin`). Outside of what is said about damaged files they are
the widest there can be, `Limits.most`; then a buffer for a record is always given.

`get_raw` and the iterator read a record by the same four `read_exact`s. An offset
never exceeds the length of the file by the time it is added to, so the additions
cannot overflow and are written on natural numbers.
-/

namespace Tabula

open LittleEndian SortedTable

structure SsTableReader where
  file : Bytes
  /-- The sparse index: a key and the offset of its record. -/
  index : List (Key × ℕ)
  /-- Where the data section ends: the filter offset of the footer. -/
  dataEnd : ℕ
  filter : BloomFilter

namespace SsTableReader

/-! ### The operations on the file -/

/-- `read_exact` of `n` bytes with the cursor at `pos`; reading nothing always
succeeds. -/
def readExact (file : Bytes) (pos n : ℕ) : Option Bytes :=
  let buf := (file.drop pos).take n
  if buf.length = n then some buf else none

/-- `.map_err(|_| SsTableError::Io)?`. -/
def orIo {α : Type} : Option α → Res SsTableError α
  | some a => .ok a
  | none => .error (.err .io)

/-- **What the allocator and the file system give.** -/
structure Limits where
  /-- The lengths of which there are buffers. -/
  gives : ℕ → Bool
  /-- The offsets that can be sought. -/
  seeks : ℕ → Bool
  /-- No buffer is longer than `isize::MAX`. -/
  gives_lt : ∀ n, gives n = true → n < 2 ^ 63
  /-- Offsets are signed 64-bit numbers. -/
  seeks_lt : ∀ pos, seeks pos = true → pos < 2 ^ 63

/-- Whatever can be asked for is given. -/
def Limits.most : Limits where
  gives n := decide (n < 2 ^ 63)
  seeks pos := decide (pos < 2 ^ 63)
  gives_lt _ := of_decide_eq_true
  seeks_lt _ := of_decide_eq_true

/-- `seek(SeekFrom::Start(pos))`, which is an `Err` at an offset the file system does not
know. -/
def seekStart (L : Limits) (pos : ℕ) : Res SsTableError Unit :=
  if L.seeks pos then .ok () else .error (.err .io)

/-- `vec![0u8; n]`. It does not return where there is no such buffer: past `isize::MAX` bytes
it panics, and below that the process is aborted. Both are `panic` here. -/
def vecZeroed (L : Limits) (n : ℕ) : Res SsTableError Unit :=
  if L.gives n then .ok () else .error .panic

theorem gives_most {n : ℕ} (h : n < 2 ^ 63) : Limits.most.gives n = true := decide_eq_true h

theorem seeks_most {pos : ℕ} (h : pos < 2 ^ 63) : Limits.most.seeks pos = true := decide_eq_true h

theorem seekStart_most {pos : ℕ} (h : pos < 2 ^ 63) : seekStart .most pos = .ok () :=
  if_pos (seeks_most h)

theorem vecZeroed_most {n : ℕ} (h : n < 2 ^ 63) : vecZeroed .most n = .ok () :=
  if_pos (gives_most h)

/-- The four reads of one record at `pos`, each into a buffer of its length: the record and
its length. -/
def readRecordWithin (L : Limits) (file : Bytes) (pos : ℕ) : Res SsTableError (Record × ℕ) := do
  let keyLenBuf ← orIo (readExact file pos 4)
  let keyLen := leValue keyLenBuf
  vecZeroed L keyLen
  let key ← orIo (readExact file (pos + 4) keyLen)
  let valLenBuf ← orIo (readExact file (pos + 4 + keyLen) 4)
  let valLen := leValue valLenBuf
  vecZeroed L valLen
  let val ← orIo (readExact file (pos + 4 + keyLen + 4) valLen)
  return ((key, val), 4 + keyLen + 4 + valLen)

/-- With all buffers there are, a record is read or it is not there. -/
def readRecord (file : Bytes) (pos : ℕ) : Option (Record × ℕ) :=
  (readRecordWithin .most file pos).toOption

theorem orIo_eq_ok {α : Type} {o : Option α} {a : α} : orIo o = .ok a ↔ o = some a := by
  cases o <;> simp [orIo]

/-- What is read is as long as asked for. -/
theorem length_readExact {file buf : Bytes} {pos n : ℕ} (h : readExact file pos n = some buf) :
    buf.length = n := by
  rw [readExact] at h
  split at h
  · rename_i hlen
    rw [← Option.some.inj h]
    exact hlen
  · simp at h

/-- A length field has 32 bits. -/
theorem leValue_readExact_lt {file buf : Bytes} {pos : ℕ} (h : readExact file pos 4 = some buf) :
    leValue buf < 2 ^ 32 := by
  have hlt := leValue_lt buf
  rw [length_readExact h] at hlt
  exact lt_of_lt_of_eq hlt (by norm_num)

/-- So there is a buffer for what it announces. -/
theorem readRecord_eq (file : Bytes) (pos : ℕ) : readRecord file pos = do
    let keyLenBuf ← readExact file pos 4
    let keyLen := leValue keyLenBuf
    let key ← readExact file (pos + 4) keyLen
    let valLenBuf ← readExact file (pos + 4 + keyLen) 4
    let valLen := leValue valLenBuf
    let val ← readExact file (pos + 4 + keyLen + 4) valLen
    return ((key, val), 4 + keyLen + 4 + valLen) := by
  rw [readRecord, readRecordWithin]
  cases hk : readExact file pos 4 with
  | none => rfl
  | some keyLenBuf =>
    have hlt := leValue_readExact_lt hk
    simp only [orIo, ok_bind, Option.bind_eq_bind, Option.bind_some,
      vecZeroed_most (show leValue keyLenBuf < 2 ^ 63 by omega)]
    cases readExact file (pos + 4) (leValue keyLenBuf) with
    | none => rfl
    | some key =>
      simp only [ok_bind, Option.bind_some]
      cases hv : readExact file (pos + 4 + leValue keyLenBuf) 4 with
      | none => rfl
      | some valLenBuf =>
        have hlt := leValue_readExact_lt hv
        simp only [ok_bind, Option.bind_some,
          vecZeroed_most (show leValue valLenBuf < 2 ^ 63 by omega)]
        cases readExact file (pos + 4 + leValue keyLenBuf + 4) (leValue valLenBuf) <;> rfl

theorem readWithin_most {file : Bytes} {pos : ℕ} {x : Record × ℕ} :
    readRecordWithin .most file pos = .ok x ↔ readRecord file pos = some x := by
  rw [readRecord]
  cases readRecordWithin .most file pos <;> simp [Except.toOption]

/-- A record takes at least its two length fields. -/
theorem le_of_readRecordWithin {L : Limits} {file : Bytes} {pos : ℕ} {r : Record} {n : ℕ}
    (h : readRecordWithin L file pos = .ok (r, n)) : 8 ≤ n := by
  obtain ⟨_, -, h⟩ := bind_eq_ok.mp h
  obtain ⟨_, -, h⟩ := bind_eq_ok.mp h
  obtain ⟨_, -, h⟩ := bind_eq_ok.mp h
  obtain ⟨_, -, h⟩ := bind_eq_ok.mp h
  obtain ⟨_, -, h⟩ := bind_eq_ok.mp h
  obtain ⟨_, -, h⟩ := bind_eq_ok.mp h
  obtain ⟨-, rfl⟩ := Prod.mk.inj (Except.ok.inj h)
  omega

theorem le_of_readRecord {file : Bytes} {pos : ℕ} {r : Record} {n : ℕ}
    (h : readRecord file pos = some (r, n)) : 8 ≤ n :=
  le_of_readRecordWithin (readWithin_most.mpr h)

/-- The length fields have 32 bits, so what they announce fits into them. -/
theorem short_of_readRecordWithin {L : Limits} {file : Bytes} {pos : ℕ} {r : Record} {n : ℕ}
    (h : readRecordWithin L file pos = .ok (r, n)) : ShortRecord r := by
  obtain ⟨keyLen, hk, h⟩ := bind_eq_ok.mp h
  obtain ⟨-, -, h⟩ := bind_eq_ok.mp h
  obtain ⟨key, hkey, h⟩ := bind_eq_ok.mp h
  obtain ⟨valLen, hv, h⟩ := bind_eq_ok.mp h
  obtain ⟨-, -, h⟩ := bind_eq_ok.mp h
  obtain ⟨val, hval, h⟩ := bind_eq_ok.mp h
  obtain ⟨rfl, -⟩ := Prod.mk.inj (Except.ok.inj h)
  refine ⟨?_, ?_⟩
  · rw [Short, length_readExact (orIo_eq_ok.mp hkey)]
    exact leValue_readExact_lt (orIo_eq_ok.mp hk)
  · rw [Short, length_readExact (orIo_eq_ok.mp hval)]
    exact leValue_readExact_lt (orIo_eq_ok.mp hv)

theorem short_of_readRecord {file : Bytes} {pos : ℕ} {r : Record} {n : ℕ}
    (h : readRecord file pos = some (r, n)) : ShortRecord r :=
  short_of_readRecordWithin (readWithin_most.mpr h)

/-! ### Opening -/

/-- The loop of `open` over what is left of the index block. -/
def parseIndex (rest : Bytes) : Res SsTableError (List (Key × ℕ)) :=
  if rest = [] then .ok []
  else do
    let keyLenBuf ← slice rest 0 4
    let keyLen := leValue keyLenBuf
    let key ← slice rest 4 (4 + keyLen)
    let offset ← slice rest (4 + keyLen) (4 + keyLen + 8)
    let index ← parseIndex (rest.drop (4 + keyLen + 8))
    return (key, leValue offset) :: index
termination_by rest.length
decreasing_by
  rename_i h
  have := List.length_pos_iff.mpr h
  rw [List.length_drop]
  omega

/-- `SsTableReader::open`, on the contents of the file. -/
def openWithin (L : Limits) (file : Bytes) : Res SsTableError SsTableReader :=
  -- `seek(SeekFrom::End(-32))` fails on a file of fewer than 32 bytes
  if file.length < 32 then .error (.err .io)
  else do
    let footer ← orIo (readExact file (file.length - 32) 32)
    let filterOffset := leValue (footer.take 8)
    let filterLen := leValue ((footer.drop 8).take 8)
    let indexOffset := leValue ((footer.drop 16).take 8)
    let indexLen := leValue ((footer.drop 24).take 8)
    seekStart L filterOffset
    vecZeroed L filterLen
    let filterBytes ← orIo (readExact file filterOffset filterLen)
    let filter ← BloomFilter.fromBytes filterBytes
    seekStart L indexOffset
    vecZeroed L indexLen
    let indexBytes ← orIo (readExact file indexOffset indexLen)
    let index ← parseIndex indexBytes
    return { file := file, index := index, dataEnd := filterOffset, filter := filter }

def «open» (file : Bytes) : Res SsTableError SsTableReader := openWithin .most file

/-! ### Iterating -/

/-- The records `SsTableIter` yields from `pos` on: up to the end of the data
section, or to the first read that fails. -/
def iterFrom (file : Bytes) (dataEnd pos : ℕ) : List Record :=
  if dataEnd ≤ pos then []
  else
    match _h : readRecord file pos with
    | none => []
    | some (r, n) => r :: iterFrom file dataEnd (pos + n)
termination_by dataEnd - pos
decreasing_by
  have := le_of_readRecord _h
  omega

theorem iterFrom_of_read {file : Bytes} {dataEnd pos : ℕ} {r : Record} {n : ℕ}
    (hpos : pos < dataEnd) (h : readRecord file pos = some (r, n)) :
    iterFrom file dataEnd pos = r :: iterFrom file dataEnd (pos + n) := by
  rw [iterFrom, if_neg (not_le.mpr hpos)]
  split
  · rename_i hnone
    simp [h] at hnone
  · rename_i hsome
    rw [h, Option.some.injEq, Prod.mk.injEq] at hsome
    rw [hsome.1, hsome.2]

theorem short_of_mem_iterFrom {file : Bytes} {dataEnd pos : ℕ} {r : Record}
    (h : r ∈ iterFrom file dataEnd pos) : ShortRecord r := by
  fun_induction iterFrom file dataEnd pos with
  | case1 => simp at h
  | case2 => simp at h
  | case3 pos hpos r' n hread ih =>
    rcases List.mem_cons.mp h with rfl | h
    · exact short_of_readRecord hread
    · exact ih h

/-- `iter`, followed to its end. -/
def iter (reader : SsTableReader) : List Record := iterFrom reader.file reader.dataEnd 0

/-! ### Point lookup -/

/-- The loop of the standard library's `binary_search_by`, which halves the
window `[base, base + size)`. -/
def searchLoop (index : List (Key × ℕ)) (key : Key) (base size : ℕ) : ℕ :=
  if size ≤ 1 then base
  else
    let half := size / 2
    let mid := base + half
    let base' := index[mid]?.elim base fun entry => if key < entry.1 then base else mid
    searchLoop index key base' (size - half)
termination_by size
decreasing_by omega

/-- `index.binary_search_by(|entry| entry.0.as_slice().cmp(key))`: the position of
the key, or the position where it would be inserted. -/
def binarySearch (index : List (Key × ℕ)) (key : Key) : Except ℕ ℕ :=
  let base := searchLoop index key 0 index.length
  match index[base]? with
  | none => .error 0
  | some entry =>
      if entry.1 = key then .ok base
      else if entry.1 < key then .error (base + 1)
      else .error base

/-- The forward scan of `get_raw`, with the offsets of the records that it reads. -/
def scanWithin (L : Limits) (file : Bytes) (dataEnd : ℕ) (key : Key) (pos : ℕ) :
    Res SsTableError (Option Value) × List ℕ :=
  if dataEnd ≤ pos then (.ok none, [])
  else
    match _h : readRecordWithin L file pos with
    | .error fault => (.error fault, [pos])
    | .ok (r, n) =>
        if r.1 = key then (.ok (some r.2), [pos])
        else if key < r.1 then (.ok none, [pos])
        else
          let rest := scanWithin L file dataEnd key (pos + n)
          (rest.1, pos :: rest.2)
termination_by dataEnd - pos
decreasing_by
  have := le_of_readRecordWithin _h
  omega

theorem scanWithin_of_read {L : Limits} {file : Bytes} {dataEnd pos : ℕ} {r : Record} {n : ℕ}
    (key : Key) (hpos : pos < dataEnd) (h : readRecordWithin L file pos = .ok (r, n)) :
    scanWithin L file dataEnd key pos =
      if r.1 = key then (.ok (some r.2), [pos])
      else if key < r.1 then (.ok none, [pos])
      else ((scanWithin L file dataEnd key (pos + n)).1,
        pos :: (scanWithin L file dataEnd key (pos + n)).2) := by
  rw [scanWithin, if_neg (not_le.mpr hpos)]
  split
  · rename_i herror
    simp [h] at herror
  · rename_i hok
    rw [h, Except.ok.injEq, Prod.mk.injEq] at hok
    rw [hok.1, hok.2]

def scanReads (file : Bytes) (dataEnd : ℕ) (key : Key) (pos : ℕ) :
    Res SsTableError (Option Value) × List ℕ := scanWithin .most file dataEnd key pos

/-- What it finds. -/
def scanFrom (file : Bytes) (dataEnd : ℕ) (key : Key) (pos : ℕ) : Res SsTableError (Option Value) :=
  (scanReads file dataEnd key pos).1

theorem scanFrom_of_end {file : Bytes} {dataEnd pos : ℕ} (key : Key) (hpos : dataEnd ≤ pos) :
    scanFrom file dataEnd key pos = .ok none := by
  rw [scanFrom, scanReads, scanWithin, if_pos hpos]

theorem scanFrom_of_read {file : Bytes} {dataEnd pos : ℕ} {r : Record} {n : ℕ} (key : Key)
    (hpos : pos < dataEnd) (h : readRecord file pos = some (r, n)) :
    scanFrom file dataEnd key pos =
      if r.1 = key then .ok (some r.2)
      else if key < r.1 then .ok none
      else scanFrom file dataEnd key (pos + n) := by
  rw [scanFrom, scanReads, scanWithin_of_read key hpos (readWithin_most.mpr h)]
  split_ifs <;> rfl

/-- `self.index[i].1`. -/
def offsetAt (reader : SsTableReader) (i : ℕ) : Res SsTableError ℕ :=
  orPanic (reader.index[i]?.map Prod.snd)

/-- `get_raw` up to its loop: where the scan begins, if there is one. -/
def scanStart (L : Limits) (reader : SsTableReader) (key : Key) : Res SsTableError (Option ℕ) := do
  let mayContain ← orPanic (reader.filter.mayContain key)
  if mayContain then
    match binarySearch reader.index key with
    | .ok pos => do
        let startOffset ← reader.offsetAt pos
        seekStart L startOffset
        return some startOffset
    | .error 0 => return none
    | .error (insertionPoint + 1) => do
        let startOffset ← reader.offsetAt insertionPoint
        seekStart L startOffset
        return some startOffset
  else return none

/-- The scan from there. -/
def readsFrom (L : Limits) (reader : SsTableReader) (key : Key) :
    Res SsTableError (Option ℕ) → Res SsTableError (Option Value) × List ℕ
  | .error fault => (.error fault, [])
  | .ok none => (.ok none, [])
  | .ok (some pos) => scanWithin L reader.file reader.dataEnd key pos

/-- **The raw record of a key**, with the offsets of the records that have been read. A
tombstone is returned as such. -/
def getRawWithin (L : Limits) (reader : SsTableReader) (key : Key) :
    Res SsTableError (Option Value) × List ℕ :=
  reader.readsFrom L key (reader.scanStart L key)

def getRawReads (reader : SsTableReader) (key : Key) : Res SsTableError (Option Value) × List ℕ :=
  reader.getRawWithin .most key

/-- `SsTableReader::get_raw`. -/
def getRaw (reader : SsTableReader) (key : Key) : Res SsTableError (Option Value) :=
  (reader.getRawReads key).1

/-- **A checkpoint that a lookup scans from**: the entry that the binary search has found, or
the one before the place where it would be. -/
def StartsAt (index : List (Key × ℕ)) (key : Key) (entry : Key × ℕ) : Prop :=
  ∃ i, (binarySearch index key = .ok i ∨ binarySearch index key = .error (i + 1)) ∧
    index[i]? = some entry

/-- Wherever the binary search ends, the entry that `get_raw` looks up next is there, also in
an index that is not sorted. -/
theorem binarySearch_lt (index : List (Key × ℕ)) (key : Key) :
    (∀ pos, binarySearch index key = .ok pos → pos < index.length) ∧
      ∀ pos, binarySearch index key = .error (pos + 1) → pos < index.length := by
  rw [binarySearch]
  cases hentry : index[searchLoop index key 0 index.length]? with
  | none => simp
  | some entry =>
    obtain ⟨hlt, -⟩ := List.getElem?_eq_some_iff.mp hentry
    simp only
    split_ifs
    · simpa using hlt
    · simpa using hlt
    · simp
      omega

/-- **How a lookup can begin**: in the filter it panics or ends, in the index it ends, or it
seeks a checkpoint. -/
theorem scanStart_cases (L : Limits) (reader : SsTableReader) (key : Key) :
    (reader.filter.mayContain key = none ∧ reader.scanStart L key = .error .panic) ∨
      (reader.filter.mayContain key = some false ∧ reader.scanStart L key = .ok none) ∨
      (reader.filter.mayContain key = some true ∧ (∀ entry, ¬StartsAt reader.index key entry) ∧
        reader.scanStart L key = .ok none) ∨
      ∃ entry, reader.filter.mayContain key = some true ∧ StartsAt reader.index key entry ∧
        reader.scanStart L key =
          if L.seeks entry.2 then .ok (some entry.2) else .error (.err .io) := by
  obtain ⟨hfound, hbefore⟩ := binarySearch_lt reader.index key
  have hentry : ∀ i, i < reader.index.length → ∃ entry, reader.index[i]? = some entry ∧
      (do
        let startOffset ← reader.offsetAt i
        seekStart L startOffset
        return some startOffset) =
          if L.seeks entry.2 then .ok (some entry.2) else .error (.err .io) := by
    intro i hi
    refine ⟨_, List.getElem?_eq_getElem hi, ?_⟩
    rw [offsetAt, List.getElem?_eq_getElem hi, Option.map_some, orPanic_some, ok_bind, seekStart]
    split_ifs <;> rfl
  rw [scanStart]
  cases hfilter : reader.filter.mayContain key with
  | none => exact Or.inl ⟨rfl, rfl⟩
  | some b =>
    rw [orPanic_some, ok_bind]
    cases b with
    | false => exact Or.inr (Or.inl ⟨rfl, rfl⟩)
    | true =>
      rw [if_pos rfl]
      cases hsearch : binarySearch reader.index key with
      | ok i =>
        obtain ⟨entry, hi, heq⟩ := hentry i (hfound i hsearch)
        exact Or.inr (Or.inr (Or.inr ⟨entry, rfl, ⟨i, Or.inl hsearch, hi⟩, heq⟩))
      | error i =>
        cases i with
        | zero =>
          refine Or.inr (Or.inr (Or.inl ⟨rfl, ?_, rfl⟩))
          rintro entry ⟨i, hi, -⟩
          simp [hsearch] at hi
        | succ i =>
          obtain ⟨entry, hi, heq⟩ := hentry i (hbefore i hsearch)
          exact Or.inr (Or.inr (Or.inr ⟨entry, rfl, ⟨i, Or.inr hsearch, hi⟩, heq⟩))

/-- `get`: a tombstone is hidden. -/
def get (reader : SsTableReader) (key : Key) : Res SsTableError (Option Value) := do
  let raw ← reader.getRaw key
  return visible raw

end SsTableReader

/-- **The bytes are an SSTable of the records**: they open, iterate to exactly the
records, and answer every point lookup as the list does. -/
structure Stores (bytes : Bytes) (records : List Record) : Prop where
  sorted : StrictSorted records
  readable : ∃ reader, SsTableReader.open bytes = .ok reader ∧ reader.iter = records ∧
    ∀ key, reader.getRaw key = .ok (lookup key records)

/-- A file has no records that do not fit its length fields. -/
theorem Stores.short {bytes : Bytes} {records : List Record} (h : Stores bytes records) :
    ∀ r ∈ records, ShortRecord r := by
  obtain ⟨reader, -, rfl, -⟩ := h.readable
  exact fun r hr => SsTableReader.short_of_mem_iterFrom hr

end Tabula
