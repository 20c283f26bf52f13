import Tabula.SsTable.Reader

/-!
# What is written is read back

The writer and the reader of an SSTable agree: for records in strictly ascending
key order, short enough for the length fields, in a file of fewer than `2 ^ 63`
bytes – the length no file system offset can reach – the bytes the writer
produces are an SSTable of exactly these records
(`Tabula.stores_sstableBytes`).

The point lookup is where the four sections meet. The filter does not reject a
key that is there; the binary search over the checkpoints finds a record at or
before the key; and from the start of any record whose predecessors are all below
the key, the forward scan answers as the whole list does
(`Tabula.SsTableReader.scanFrom_eq_lookup`).
-/

namespace Tabula

open LittleEndian SortedTable

namespace SsTableReader

/-! ### Reads inside the file -/

theorem readExact_mid {file f : Bytes} {pos n : ℕ} (a c : Bytes) (h : file = a ++ (f ++ c))
    (hpos : a.length = pos) (hn : f.length = n) : readExact file pos n = some f := by
  have hbuf : (file.drop pos).take n = f := by
    rw [h, drop_append_length hpos, take_append_length hn]
  rw [readExact, hbuf]
  exact if_pos hn

theorem readRecord_mid {file : Bytes} {key : Key} {value : Value} {pos : ℕ} (a c : Bytes)
    (hshort : ShortRecord (key, value)) (h : file = a ++ (encodeRecord key value ++ c))
    (hpos : a.length = pos) :
    readRecord file pos = some ((key, value), (encodeRecord key value).length) := by
  have h1 : readExact file pos 4 = some (leBytes 4 key.length) :=
    readExact_mid a (key ++ (leBytes 4 value.length ++ value) ++ c)
      (by simp [h, encodeRecord]) hpos (by simp)
  have h2 : readExact file (pos + 4) key.length = some key :=
    readExact_mid (a ++ leBytes 4 key.length) (leBytes 4 value.length ++ value ++ c)
      (by simp [h, encodeRecord]) (by simp [hpos]) rfl
  have h3 : readExact file (pos + 4 + key.length) 4 = some (leBytes 4 value.length) :=
    readExact_mid (a ++ leBytes 4 key.length ++ key) (value ++ c)
      (by simp [h, encodeRecord]) (by simp [hpos]; omega) (by simp)
  have h4 : readExact file (pos + 4 + key.length + 4) value.length = some value :=
    readExact_mid (a ++ leBytes 4 key.length ++ key ++ leBytes 4 value.length) c
      (by simp [h, encodeRecord]) (by simp [hpos]; omega) rfl
  have hk : leValue (leBytes 4 key.length) = key.length := leValue_length hshort.1
  have hv : leValue (leBytes 4 value.length) = value.length := leValue_length hshort.2
  simp [readRecord_eq, h1, hk, h2, h3, hv, h4, length_encodeRecord]
  omega

/-! ### The two loops over the data section -/

/-- **The iterator yields the records of the data section.** -/
theorem iterFrom_dataSection {records : List Record} (hshort : ∀ r ∈ records, ShortRecord r)
    {file : Bytes} {pos dataEnd : ℕ} (a c : Bytes) (h : file = a ++ (dataSection records ++ c))
    (hpos : a.length = pos) (hend : dataEnd = pos + (dataSection records).length) :
    iterFrom file dataEnd pos = records := by
  induction records generalizing a pos with
  | nil =>
    rw [iterFrom, if_pos (by rw [hend, dataSection_nil, List.length_nil, Nat.add_zero])]
  | cons r records ih =>
    have hlen := length_encodeRecord r.1 r.2
    have hread : readRecord file pos = some (r, (encodeRecord r.1 r.2).length) :=
      readRecord_mid a (dataSection records ++ c) (hshort r List.mem_cons_self) (by simp [h]) hpos
    rw [dataSection_cons, List.length_append] at hend
    rw [iterFrom_of_read (by omega) hread, ih (fun s hs => hshort s (List.mem_cons_of_mem _ hs))
      (a ++ encodeRecord r.1 r.2) (by simp [h]) (by simp [hpos]) (by omega)]

/-- **From the start of a record the scan answers as the records from there on
do.** -/
theorem scanFrom_dataSection {records : List Record} (hshort : ∀ r ∈ records, ShortRecord r)
    (hs : StrictSorted records) (key : Key) {file : Bytes} {pos dataEnd : ℕ} (a c : Bytes)
    (h : file = a ++ (dataSection records ++ c)) (hpos : a.length = pos)
    (hend : dataEnd = pos + (dataSection records).length) :
    scanFrom file dataEnd key pos = .ok (lookup key records) := by
  induction records generalizing a pos with
  | nil =>
    rw [scanFrom_of_end key (by rw [hend, dataSection_nil, List.length_nil, Nat.add_zero]),
      lookup_nil]
  | cons r records ih =>
    have hlen := length_encodeRecord r.1 r.2
    have hread : readRecord file pos = some (r, (encodeRecord r.1 r.2).length) :=
      readRecord_mid a (dataSection records ++ c) (hshort r List.mem_cons_self) (by simp [h]) hpos
    rw [dataSection_cons, List.length_append] at hend
    rw [scanFrom_of_read key (by omega) hread]
    by_cases hk : r.1 = key
    · rw [if_pos hk, lookup_cons, if_pos hk]
    · rw [if_neg hk]
      by_cases hlt : key < r.1
      · -- the early stop: behind a greater key there is no record of this one
        rw [if_pos hlt, lookup_eq_none_of_lt_head hs hlt]
      · rw [if_neg hlt, lookup_cons_of_ne hk,
          ih (fun s hs' => hshort s (List.mem_cons_of_mem _ hs')) hs.tail
            (a ++ encodeRecord r.1 r.2) (by simp [h]) (by simp [hpos]) (by omega)]

/-- **From a record whose predecessors are below the key, the scan answers as the
whole list does.** -/
theorem scanFrom_eq_lookup {pre records : List Record}
    (hshort : ∀ r ∈ pre ++ records, ShortRecord r) (hs : StrictSorted (pre ++ records)) {key : Key}
    (hpre : ∀ r ∈ pre, r.1 < key) {file : Bytes} (c : Bytes)
    (h : file = dataSection (pre ++ records) ++ c) :
    scanFrom file (dataSection (pre ++ records)).length key (dataSection pre).length =
      .ok (lookup key (pre ++ records)) := by
  have hnone : lookup key pre = none :=
    lookup_eq_none_iff.mpr fun r hr => ne_of_lt (hpre r hr)
  rw [lookup_append, hnone, Option.none_or]
  exact scanFrom_dataSection (fun r hr => hshort r (List.mem_append_right _ hr))
    (List.pairwise_append.mp hs).2.1 key (dataSection pre) c (by simp [h]) rfl (by simp)

/-! ### The sparse index -/

theorem parseIndex_encode {index : List (Key × ℕ)} (hkey : ∀ e ∈ index, Short e.1)
    (hoff : ∀ e ∈ index, e.2 < 2 ^ 64) :
    parseIndex (index.map encodeIndexEntry).flatten = .ok index := by
  induction index with
  | nil => rw [List.map_nil, List.flatten_nil, parseIndex, if_pos rfl]
  | cons e index ih =>
    have ih := ih (fun x hx => hkey x (List.mem_cons_of_mem _ hx))
      fun x hx => hoff x (List.mem_cons_of_mem _ hx)
    have hlen := length_encodeIndexEntry e
    rw [List.map_cons, List.flatten_cons]
    generalize hrest : (index.map encodeIndexEntry).flatten = rest at ih ⊢
    -- the three fields of the first entry, as the parser slices them
    have hlen' : (encodeIndexEntry e ++ rest).length = 4 + e.1.length + 8 + rest.length := by
      rw [List.length_append, hlen]
    have h1 : (slice (encodeIndexEntry e ++ rest) 0 4 : Res SsTableError Bytes) =
        .ok (leBytes 4 e.1.length) := by
      rw [slice_ok (by omega) (by omega), List.drop_zero, encodeIndexEntry, List.append_assoc,
        take_append_length (by simp)]
    have h2 : (slice (encodeIndexEntry e ++ rest) 4 (4 + e.1.length) : Res SsTableError Bytes) =
        .ok e.1 := by
      rw [slice_ok (by omega) (by omega), encodeIndexEntry, List.append_assoc,
        drop_append_length (by simp), List.append_assoc, take_append_length (by omega)]
    have h3 : (slice (encodeIndexEntry e ++ rest) (4 + e.1.length) (4 + e.1.length + 8) :
        Res SsTableError Bytes) = .ok (leBytes 8 e.2) := by
      rw [slice_ok (by omega) (by omega), encodeIndexEntry, ← List.append_assoc, List.append_assoc,
        drop_append_length (by simp), take_append_length (by simp)]
    have hne : encodeIndexEntry e ++ rest ≠ [] := by
      intro he
      rw [he, List.length_nil] at hlen'
      omega
    rw [parseIndex, if_neg hne, h1, ok_bind, leValue_length (hkey e List.mem_cons_self)]
    dsimp only
    rw [h2, ok_bind, h3, ok_bind, drop_append_length hlen, ih, ok_bind,
      leValue_leBytes_of_lt (lt_of_lt_of_eq (hoff e List.mem_cons_self) (by norm_num))]
    rfl

/-- The invariant of the binary search: nothing from the window's end on is at or
below the key, and its start is, unless it is the first position. -/
theorem searchLoop_spec {index : List (Key × ℕ)} (hs : StrictSorted index) (key : Key)
    {base size : ℕ} (hsize : 0 < size) (hlen : base + size ≤ index.length)
    (hhigh : ∀ j e, base + size ≤ j → index[j]? = some e → key < e.1)
    (hlow : base = 0 ∨ ∃ e, index[base]? = some e ∧ e.1 ≤ key) :
    searchLoop index key base size < index.length ∧
      (∀ j e, searchLoop index key base size < j → index[j]? = some e → key < e.1) ∧
      (searchLoop index key base size = 0 ∨
        ∃ e, index[searchLoop index key base size]? = some e ∧ e.1 ≤ key) := by
  induction size using Nat.strong_induction_on generalizing base with
  | _ size ih =>
    rw [searchLoop]
    split
    · rename_i h1
      exact ⟨by omega, fun j e hj => hhigh j e (by omega), hlow⟩
    · rename_i h1
      have hmid : base + size / 2 < index.length := by omega
      obtain ⟨entry, hentry⟩ : ∃ entry, index[base + size / 2]? = some entry :=
        ⟨_, List.getElem?_eq_getElem hmid⟩
      simp only [hentry, Option.elim_some]
      by_cases hlt : key < entry.1
      · -- the middle is above the key, and so is everything behind it
        rw [if_pos hlt]
        refine ih (size - size / 2) (by omega) (by omega) (by omega) (fun j e hj he => ?_) hlow
        rcases eq_or_lt_of_le (show base + size / 2 ≤ j by omega) with rfl | hmj
        · rw [hentry] at he
          rwa [← Option.some.inj he]
        · obtain ⟨hj', rfl⟩ := List.getElem?_eq_some_iff.mp he
          obtain ⟨hm', rfl⟩ := List.getElem?_eq_some_iff.mp hentry
          exact lt_trans hlt (List.pairwise_iff_getElem.mp hs _ _ hm' hj' hmj)
      · -- the middle is at or below the key: the window starts there
        rw [if_neg hlt]
        exact ih (size - size / 2) (by omega) (by omega) (by omega)
          (fun j e hj => hhigh j e (by omega)) (Or.inr ⟨entry, hentry, not_lt.mp hlt⟩)

/-- **What the binary search says about a sorted index**: a hit is the key; a miss
at `0` is below the first entry; any other miss lies right behind an entry below
the key. -/
theorem binarySearch_spec {index : List (Key × ℕ)} (hs : StrictSorted index) (key : Key) :
    match binarySearch index key with
    | .ok pos => ∃ e, index[pos]? = some e ∧ e.1 = key
    | .error 0 => ∀ e, index.head? = some e → key < e.1
    | .error (i + 1) => ∃ e, index[i]? = some e ∧ e.1 < key := by
  rw [binarySearch]
  rcases Nat.eq_zero_or_pos index.length with h0 | hpos
  · rw [List.length_eq_zero_iff.mp h0]
    simp
  · obtain ⟨hlt, -, hlow⟩ := searchLoop_spec hs key hpos (by omega)
      (fun j e hj he => by
        obtain ⟨hj', -⟩ := List.getElem?_eq_some_iff.mp he
        omega) (Or.inl rfl)
    generalize searchLoop index key 0 index.length = base at hlt hlow ⊢
    obtain ⟨entry, hentry⟩ : ∃ entry, index[base]? = some entry :=
      ⟨_, List.getElem?_eq_getElem hlt⟩
    simp only [hentry]
    by_cases hk : entry.1 = key
    · rw [if_pos hk]
      exact ⟨entry, hentry, hk⟩
    · rw [if_neg hk]
      by_cases hbelow : entry.1 < key
      · rw [if_pos hbelow]
        exact ⟨entry, hentry, hbelow⟩
      · rw [if_neg hbelow]
        -- only the first position can be above the key
        have habove : key < entry.1 := lt_of_le_of_ne (not_lt.mp hbelow) (Ne.symm hk)
        rcases hlow with rfl | ⟨e, he, hle⟩
        · intro e he
          rw [List.head?_eq_getElem?, hentry] at he
          rwa [← Option.some.inj he]
        · rw [hentry] at he
          rw [← Option.some.inj he] at hle
          exact absurd habove (not_lt.mpr hle)

namespace StartsAt

variable {index : List (Key × ℕ)} {key : Key} {entry : Key × ℕ} (h : StartsAt index key entry)

include h

theorem mem : entry ∈ index := by
  obtain ⟨i, -, hi⟩ := h
  exact List.mem_of_getElem? hi

theorem le (hs : StrictSorted index) : entry.1 ≤ key := by
  obtain ⟨i, hfound, hi⟩ := h
  have hsearch := binarySearch_spec hs key
  rcases hfound with hfound | hfound <;> rw [hfound] at hsearch <;>
    obtain ⟨entry', hentry, hkey⟩ := hsearch <;> rw [hi] at hentry <;>
    obtain rfl := Option.some.inj hentry
  · exact le_of_eq hkey
  · exact le_of_lt hkey

end StartsAt

/-! ### Point lookups -/

/-- **From a checkpoint at or below the key the scan answers as the whole list
does.** -/
theorem scanFrom_checkpoint {records : List Record} (hshort : ∀ r ∈ records, ShortRecord r)
    (hs : StrictSorted records) {entry : Key × ℕ} (he : IsCheckpoint records entry) {key : Key}
    (hle : entry.1 ≤ key) (c : Bytes) :
    scanFrom (dataSection records ++ c) (dataSection records).length key entry.2 =
      .ok (lookup key records) := by
  obtain ⟨pre, value, post, rfl, hoff⟩ := he
  rw [hoff]
  refine scanFrom_eq_lookup hshort hs (fun r hr => lt_of_lt_of_le ?_ hle) c rfl
  exact (List.pairwise_append.mp hs).2.2 r hr _ List.mem_cons_self

/-- The reader of a file that begins with what the writer has written. -/
def ofWriter (w : SsTableWriter) (file : Bytes) : SsTableReader where
  file := file
  index := w.index
  dataEnd := w.offset
  filter := w.filter

/-- **Filter, binary search and bounded scan together answer as the list of
records does.** -/
theorem getRaw_eq_lookup {w : SsTableWriter} {records : List Record} (hw : w.Holds records)
    (hshort : ∀ r ∈ records, ShortRecord r) (hs : StrictSorted records) {c : Bytes}
    (hlen : (dataSection records ++ c).length < 2 ^ 63) (key : Key) :
    (ofWriter w (dataSection records ++ c)).getRaw key = .ok (lookup key records) := by
  have hoff : ∀ entry, IsCheckpoint records entry → entry.2 < 2 ^ 63 := by
    rintro entry ⟨pre, value, post, rfl, hoff⟩
    rw [hoff]
    simp only [List.length_append, dataSection_append] at hlen
    omega
  obtain ⟨b, hb⟩ := BloomFilter.mayContain_isSome hw.filter.probes key
  have hsearch := binarySearch_spec hw.sorted key
  rw [getRaw, getRawReads, getRawWithin]
  rcases scanStart_cases .most (ofWriter w (dataSection records ++ c)) key with
    ⟨hnone, -⟩ | ⟨hfalse, hstart⟩ | ⟨-, hno, hstart⟩ | ⟨entry, -, hfound, hstart⟩
  · exact absurd (hb.symm.trans hnone) (Option.some_ne_none b)
  · -- the filter contains every key, so this one is not there
    have hnone : lookup key records = none := by
      refine lookup_eq_none_iff.mpr fun r hr hk => ?_
      have hin := hw.contains r hr
      rw [hk, show w.filter.mayContain key = some false from hfalse] at hin
      simp at hin
    rw [hstart, hnone]
    rfl
  · -- the key is below the first checkpoint, which is the first record
    have hnone : lookup key records = none := by
      match hfound : binarySearch w.index key, hsearch with
      | .ok pos, ⟨entry, hentry, _⟩ => exact absurd ⟨pos, Or.inl hfound, hentry⟩ (hno entry)
      | .error (i + 1), ⟨entry, hentry, _⟩ => exact absurd ⟨i, Or.inr hfound, hentry⟩ (hno entry)
      | .error 0, hmiss =>
        have hhead := hw.head
        cases records with
        | nil => rfl
        | cons r records =>
          cases hi : w.index.head? with
          | none =>
            rw [hi] at hhead
            simp at hhead
          | some entry =>
            rw [hi] at hhead
            simp only [Option.map_some, List.head?_cons, Option.some.injEq] at hhead
            exact lookup_eq_none_of_lt_head hs (hhead ▸ hmiss entry hi)
    rw [hstart, hnone]
    rfl
  · -- a checkpoint at or below the key is a good place to start
    have hfound : StartsAt w.index key entry := hfound
    have hcp := hw.checkpoints entry hfound.mem
    have hle := hfound.le hw.sorted
    rw [hstart, if_pos (seeks_most (hoff entry hcp))]
    change scanFrom (dataSection records ++ c) w.offset key entry.2 = _
    rw [hw.offset, scanFrom_checkpoint hshort hs hcp hle]

/-! ### Opening -/

theorem length_finish (w : SsTableWriter) :
    w.finish.length = w.written.length + (w.filter.toBytes.length +
      ((w.index.map encodeIndexEntry).flatten.length + 32)) := by
  simp [SsTableWriter.finish]

/-- The four numbers of the footer are read back. -/
theorem encodeFooter_fields {a b c d : ℕ} (ha : a < 2 ^ 63) (hb : b < 2 ^ 63) (hc : c < 2 ^ 63)
    (hd : d < 2 ^ 63) :
    leValue ((SsTableWriter.encodeFooter a b c d).take 8) = a ∧
      leValue (((SsTableWriter.encodeFooter a b c d).drop 8).take 8) = b ∧
      leValue (((SsTableWriter.encodeFooter a b c d).drop 16).take 8) = c ∧
      leValue (((SsTableWriter.encodeFooter a b c d).drop 24).take 8) = d := by
  have hval : ∀ n, n < 2 ^ 63 → leValue (leBytes 8 n) = n := fun n hn =>
    leValue_leBytes_of_lt (lt_trans hn (by norm_num))
  refine ⟨?_, ?_, ?_, ?_⟩
  · rw [SsTableWriter.encodeFooter, take_append_length (by simp), hval a ha]
  · rw [SsTableWriter.encodeFooter, drop_append_length (by simp), take_append_length (by simp),
      hval b hb]
  · rw [SsTableWriter.encodeFooter, ← List.append_assoc, drop_append_length (by simp),
      take_append_length (by simp), hval c hc]
  · rw [SsTableWriter.encodeFooter, ← List.append_assoc, ← List.append_assoc,
      drop_append_length (by simp), List.take_of_length_le (by simp), hval d hd]

/-- **`open` finds the four sections `finish` wrote.** -/
theorem open_finish {w : SsTableWriter} {records : List Record} (hw : w.Holds records)
    (hshort : ∀ r ∈ records, ShortRecord r) (hk : w.filter.k < 2 ^ 64) (hm : w.filter.m < 2 ^ 64)
    (hlen : w.finish.length < 2 ^ 63) :
    SsTableReader.open w.finish = .ok (ofWriter w w.finish) := by
  have hsize := length_finish w
  have hoffset : w.written.length = w.offset := by rw [hw.written, hw.offset]
  have hindexLen := length_index_section w.index
  have hfile : w.finish = w.written ++ (w.filter.toBytes ++
      ((w.index.map encodeIndexEntry).flatten ++ SsTableWriter.encodeFooter w.offset
        w.filter.toBytes.length (w.offset + w.filter.toBytes.length)
        (w.index.map fun entry => 4 + entry.1.length + 8).sum)) := rfl
  -- a checkpoint is in the data section, so its offset fits the eight bytes
  have hindex : parseIndex (w.index.map encodeIndexEntry).flatten = .ok w.index := by
    refine parseIndex_encode (fun entry he => ?_) fun entry he => ?_
    · obtain ⟨pre, value, post, rfl, -⟩ := hw.checkpoints entry he
      exact (hshort (entry.1, value) (by simp)).1
    · obtain ⟨pre, value, post, rfl, hoff⟩ := hw.checkpoints entry he
      have hle : entry.2 ≤ w.offset := by
        rw [hoff, hw.offset]
        simp
      omega
  rw [hindexLen] at hsize
  generalize hil : (w.index.map fun entry => 4 + entry.1.length + 8).sum = indexLen
    at hsize hfile hindexLen
  generalize hfl : w.filter.toBytes.length = filterLen at hsize hfile
  generalize hfooter : SsTableWriter.encodeFooter w.offset filterLen (w.offset + filterLen)
    indexLen = footer at hfile
  have hfooterLen : footer.length = 32 := by rw [← hfooter, length_encodeFooter]
  -- the three reads, each of a section that starts where those before it end
  have h1 : readExact w.finish (w.finish.length - 32) 32 = some footer := by
    refine readExact_mid (w.written ++ (w.filter.toBytes ++
      (w.index.map encodeIndexEntry).flatten)) [] (by simp [hfile]) ?_ hfooterLen
    simp only [List.length_append, hfl, hindexLen]
    omega
  have h2 : readExact w.finish w.offset filterLen = some w.filter.toBytes :=
    readExact_mid w.written _ hfile hoffset hfl
  have h3 : readExact w.finish (w.offset + filterLen) indexLen =
      some (w.index.map encodeIndexEntry).flatten :=
    readExact_mid (w.written ++ w.filter.toBytes) footer (by rw [hfile, List.append_assoc])
      (by rw [List.length_append, hoffset, hfl]) hindexLen
  obtain ⟨hf1, hf2, hf3, hf4⟩ := encodeFooter_fields (a := w.offset) (b := filterLen)
    (c := w.offset + filterLen) (d := indexLen) (by omega) (by omega) (by omega) (by omega)
  rw [hfooter] at hf1 hf2 hf3 hf4
  rw [SsTableReader.open, openWithin, if_neg (by omega), h1]
  simp only [orIo, ok_bind, hf1, hf2, hf3, hf4, seekStart_most (show w.offset < 2 ^ 63 by omega),
    seekStart_most (show w.offset + filterLen < 2 ^ 63 by omega),
    vecZeroed_most (show filterLen < 2 ^ 63 by omega),
    vecZeroed_most (show indexLen < 2 ^ 63 by omega), h2, h3, BloomFilter.fromBytes_toBytes hk hm,
    hindex]
  rfl

/-! ### Records of any length -/

/-- What opening keeps of the file: its bytes, and where the footer says the data ends. -/
theorem of_open {file : Bytes} {reader : SsTableReader} (h : SsTableReader.open file = .ok reader) :
    reader.file = file ∧ reader.dataEnd = leValue ((file.drop (file.length - 32)).take 8) := by
  unfold SsTableReader.open openWithin at h
  split at h
  · simp at h
  · rename_i hlen
    obtain ⟨footer, hfooter, h⟩ := bind_eq_ok.mp h
    obtain ⟨-, -, h⟩ := bind_eq_ok.mp h
    obtain ⟨-, -, h⟩ := bind_eq_ok.mp h
    obtain ⟨_, -, h⟩ := bind_eq_ok.mp h
    obtain ⟨_, -, h⟩ := bind_eq_ok.mp h
    obtain ⟨-, -, h⟩ := bind_eq_ok.mp h
    obtain ⟨-, -, h⟩ := bind_eq_ok.mp h
    obtain ⟨_, -, h⟩ := bind_eq_ok.mp h
    obtain ⟨_, -, h⟩ := bind_eq_ok.mp h
    obtain rfl := Except.ok.inj h
    refine ⟨rfl, ?_⟩
    have hf : footer = (file.drop (file.length - 32)).take 32 := by
      rw [readExact] at hfooter
      split at hfooter
      · exact (Except.ok.inj hfooter).symm
      · simp [orIo] at hfooter
    rw [hf, List.take_take]
    rfl

theorem exists_readExact {file : Bytes} {pos n : ℕ} (h : pos + n ≤ file.length) :
    ∃ buf, readExact file pos n = some buf := by
  refine ⟨(file.drop pos).take n, if_pos ?_⟩
  rw [List.length_take, List.length_drop]
  omega

/-- **The first record of a file is always read**, however long it is: what its
length fields have lost, they have only lost from the end. -/
theorem exists_readRecord {file : Bytes} {key : Key} {value : Value} {c : Bytes}
    (h : file = encodeRecord key value ++ c) : ∃ r, readRecord file 0 = some r := by
  have hfile : file.length = 8 + key.length + value.length + c.length := by
    rw [h, List.length_append, length_encodeRecord]
  have h1 : readExact file 0 4 = some (leBytes 4 key.length) :=
    readExact_mid [] (key ++ (leBytes 4 value.length ++ value) ++ c) (by simp [h, encodeRecord]) rfl
      (by simp)
  have hkey : leValue (leBytes 4 key.length) = key.length % 2 ^ 32 := leValue_leBytes 4 _
  have hmod := Nat.mod_add_div key.length (2 ^ 32)
  generalize key.length % 2 ^ 32 = keyLen at hkey hmod
  obtain ⟨k, h2⟩ := exists_readExact (by omega : 4 + keyLen ≤ file.length)
  obtain ⟨v, h3⟩ := exists_readExact (by omega : 4 + keyLen + 4 ≤ file.length)
  have hv := leValue_lt v
  rw [length_readExact h3] at hv
  have hfits : 4 + keyLen + 4 + leValue v ≤ file.length := by
    rcases Nat.eq_zero_or_pos (key.length / 2 ^ 32) with hzero | hpos
    · -- a key of its true length, with the value's length field behind it
      rw [hzero, Nat.mul_zero, Nat.add_zero] at hmod
      subst hmod
      have : readExact file (4 + key.length) 4 = some (leBytes 4 value.length) :=
        readExact_mid (leBytes 4 key.length ++ key) (value ++ c) (by simp [h, encodeRecord])
          (by simp) (by simp)
      rw [h3, Option.some.injEq] at this
      rw [this, leValue_leBytes]
      have := Nat.mod_le value.length (256 ^ 4)
      omega
    · -- the key field has lost a multiple of `2 ^ 32` bytes, more than the rest can ask for
      omega
  obtain ⟨w, h4⟩ := exists_readExact hfits
  exact ⟨((k, w), 4 + keyLen + 4 + leValue v), by simp [readRecord_eq, h1, hkey, h2, h3, h4]⟩

end SsTableReader

/-- **What is written is read back.** -/
theorem stores_sstableBytes {S : BloomSizing} {n : ℕ} {records : List Record} {bytes : Bytes}
    (h : sstableBytes S n records = some bytes) (hs : StrictSorted records)
    (hshort : ∀ r ∈ records, ShortRecord r) (hlen : bytes.length < 2 ^ 63) :
    Stores bytes records := by
  obtain ⟨w, rfl, hholds, hk, hm⟩ := exists_holds_of_sstableBytes h hs
  obtain ⟨c, hc⟩ : ∃ c, w.finish = dataSection records ++ c := ⟨_, by
    rw [← hholds.written]
    rfl⟩
  refine ⟨hs, _, SsTableReader.open_finish hholds hshort (by rw [hk]; exact S.k_lt n)
    (by rw [hm]; exact S.m_lt n) hlen, ?_, fun key => ?_⟩
  · exact SsTableReader.iterFrom_dataSection hshort [] c hc rfl (by
      rw [Nat.zero_add]
      exact hholds.offset)
  · rw [hc]
    exact SsTableReader.getRaw_eq_lookup hholds hshort hs (hc ▸ hlen) key

/-- **A file that was written with records has some when it is read**, whatever their
length. -/
theorem iter_ne_nil_of_written {S : BloomSizing} {n : ℕ} {records : List Record} {bytes : Bytes}
    (h : sstableBytes S n records = some bytes) (hs : StrictSorted records) (hne : records ≠ [])
    (hlen : bytes.length < 2 ^ 63) {reader : SsTableReader}
    (hopen : SsTableReader.open bytes = .ok reader) : reader.iter ≠ [] := by
  obtain ⟨w, rfl, hholds, -⟩ := exists_holds_of_sstableBytes h hs
  obtain ⟨hfile, hend⟩ := SsTableReader.of_open hopen
  obtain ⟨r, rest, rfl⟩ := List.exists_cons_of_ne_nil hne
  have hsplit : w.finish = encodeRecord r.1 r.2 ++ (dataSection rest ++ (w.filter.toBytes ++
      ((w.index.map encodeIndexEntry).flatten ++ SsTableWriter.encodeFooter w.offset
        w.filter.toBytes.length (w.offset + w.filter.toBytes.length)
        (w.index.map fun entry => 4 + entry.1.length + 8).sum))) := by
    rw [← List.append_assoc, ← dataSection_cons, ← hholds.written]
    rfl
  have hoffset : w.offset = (encodeRecord r.1 r.2).length + (dataSection rest).length := by
    rw [hholds.offset, dataSection_cons, List.length_append]
  have hdata : reader.dataEnd = w.offset := by
    have hsize := SsTableReader.length_finish w
    have hle : w.written.length = w.offset := by rw [hholds.written, hholds.offset]
    have hfooter : w.finish = (w.written ++ (w.filter.toBytes ++
        (w.index.map encodeIndexEntry).flatten)) ++ SsTableWriter.encodeFooter w.offset
        w.filter.toBytes.length (w.offset + w.filter.toBytes.length)
        (w.index.map fun entry => 4 + entry.1.length + 8).sum := by
      simp [SsTableWriter.finish]
    rw [hend, hfooter, drop_append_length, SsTableWriter.encodeFooter, take_append_length (by simp),
      leValue_leBytes_of_lt (lt_trans (show w.offset < 2 ^ 63 by omega) (by norm_num))]
    simp only [List.length_append, length_encodeFooter]
    omega
  -- the data section is not empty, so the iterator reads at least the first record
  obtain ⟨⟨r', m⟩, hread⟩ := SsTableReader.exists_readRecord hsplit
  have hpos := length_encodeRecord r.1 r.2
  rw [SsTableReader.iter, hfile, hdata, SsTableReader.iterFrom_of_read (by omega) hread]
  exact List.cons_ne_nil _ _

/-- **An SSTable gives back what was written into it**, whatever the shape of the filter:
the iterator exactly the records, and both point lookups what a search of the list would
find. The writer does not panic, and the only file that cannot be read is one that no file
system can hold. -/
theorem sstable_roundTrip (S : BloomSizing) (n : ℕ) (records : List Record)
    (hs : StrictSorted records) (hshort : ∀ r ∈ records, ShortRecord r) :
    ∃ bytes, sstableBytes S n records = some bytes ∧ (bytes.length < 2 ^ 63 →
      ∃ reader, SsTableReader.open bytes = .ok reader ∧ reader.iter = records ∧
        ∀ key, reader.getRaw key = .ok (lookup key records) ∧
          reader.get key = .ok (visible (lookup key records))) := by
  obtain ⟨bytes, hbytes⟩ := sstableBytes_isSome S n records
  refine ⟨bytes, hbytes, fun hlen => ?_⟩
  obtain ⟨-, reader, hopen, hiter, hget⟩ := stores_sstableBytes hbytes hs hshort hlen
  refine ⟨reader, hopen, hiter, fun key => ⟨hget key, ?_⟩⟩
  rw [SsTableReader.get, hget]
  rfl

/-- Two records, one of them a tombstone under the empty key. -/
theorem sstable_roundTrip_two : ∃ bytes reader,
    sstableBytes .percent 5 [([], tombstone), ([1], [])] = some bytes ∧
      SsTableReader.open bytes = .ok reader ∧ reader.iter = [([], tombstone), ([1], [])] ∧
      reader.getRaw [] = .ok (some tombstone) ∧ reader.get [] = .ok none ∧
      reader.getRaw [2] = .ok none := by
  obtain ⟨bytes, hbytes, h⟩ := sstable_roundTrip .percent 5 [([], tombstone), ([1], [])]
    (by decide) (by decide)
  have hlen : ∀ bytes ∈ sstableBytes .percent 5 [([], tombstone), ([1], [])],
      bytes.length < 2 ^ 63 := by decide +kernel
  obtain ⟨reader, hopen, hiter, hget⟩ := h (hlen bytes hbytes)
  exact ⟨bytes, reader, hbytes, hopen, hiter, (hget []).1, (hget []).2, (hget [2]).1⟩

end Tabula
