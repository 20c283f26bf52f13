import Tabula.SsTable.RoundTrip

/-!
# The sparse index

`SsTableWriter::add` makes a record a checkpoint of the index once 4096 bytes have
been written since the last one. The counter it keeps for this is what lies between
the last checkpoint and the running offset, and this is the whole invariant
(`Tabula.SsTableWriter.Spaced`): checkpoints are at least 4096 bytes apart, and no
record starts 4096 bytes or more behind the checkpoint before it, however long the
records are.

On the side of the reader the checkpoints cut the data section into blocks
(`Tabula.blockStarts`). The records that `Tabula.SsTableReader.getRawReads` has read
are a first part of one block, with at most the first record of the next behind it
(`Tabula.sparseIndex_spacing`).
-/

namespace Tabula

open SortedTable

/-- The checkpoint an offset belongs to: the last one at or before it. -/
def NearestCheckpoint (index : List (Key × ℕ)) (pos : ℕ) (entry : Key × ℕ) : Prop :=
  entry ∈ index ∧ entry.2 ≤ pos ∧ ∀ e ∈ index, e.2 ≤ pos → e.2 ≤ entry.2

namespace SsTableWriter

/-! ### The distances the writer keeps -/

/-- **The distances in the index**: the counter is what lies behind the last
checkpoint, checkpoints are 4096 bytes apart, and records are close to one. -/
structure Spaced (w : SsTableWriter) (records : List Record) : Prop where
  offset : w.offset = (dataSection records).length
  empty : w.index = [] → w.offset = 0
  first : ∀ entry ∈ w.index.head?, entry.2 = 0
  last : ∀ entry ∈ w.index.getLast?, entry.2 + w.bytesSinceLastIndex = w.offset
  apart : w.index.Pairwise fun e e' => e.2 + 4096 ≤ e'.2
  near : ∀ pre r post, records = pre ++ r :: post →
    ∃ entry, NearestCheckpoint w.index (dataSection pre).length entry ∧
      (dataSection pre).length < entry.2 + 4096

theorem spaced_new (S : BloomSizing) (n : ℕ) : (new S n).Spaced [] where
  offset := rfl
  empty _ := rfl
  first := by simp [new]
  last := by simp [new]
  apart := List.Pairwise.nil
  near pre r post h := by simp at h

/-- No checkpoint lies behind the running offset. -/
theorem Spaced.le_offset {w : SsTableWriter} {records : List Record} (h : w.Spaced records)
    {entry : Key × ℕ} (he : entry ∈ w.index) : entry.2 + w.bytesSinceLastIndex ≤ w.offset := by
  obtain ⟨index, last, hindex⟩ := List.eq_nil_or_concat w.index |>.resolve_left
    (List.ne_nil_of_mem he)
  rw [List.concat_eq_append] at hindex
  have hlast : last.2 + w.bytesSinceLastIndex = w.offset := h.last last (by simp [hindex])
  have hapart := h.apart
  rw [hindex] at he hapart
  rcases List.mem_append.mp he with he | he
  · have := (List.pairwise_append.mp hapart).2.2 entry he last (List.mem_singleton_self _)
    omega
  · rw [List.mem_singleton.mp he, hlast]

/-- A record of the longer list is the new one or one of those before. -/
theorem eq_or_of_append_singleton {records pre post : List Record} {r s : Record}
    (h : records ++ [r] = pre ++ s :: post) :
    pre = records ∨ ∃ post', records = pre ++ s :: post' := by
  rcases List.eq_nil_or_concat post with rfl | ⟨post', t, rfl⟩
  · exact Or.inl (List.append_inj_left' h rfl).symm
  · refine Or.inr ⟨post', ?_⟩
    rw [List.concat_eq_append, ← List.cons_append, ← List.append_assoc] at h
    exact List.append_inj_left' h rfl

/-- A record that is a checkpoint lies 4096 bytes behind the last one, or is the very
first. -/
theorem Spaced.checkpoint {w w' : SsTableWriter} {records : List Record} (h : w.Spaced records)
    {key : Key} {value : Value} (hcp : w.index = [] ∨ 4096 ≤ w.bytesSinceLastIndex)
    (hoffset : w'.offset = w.offset + (encodeRecord key value).length)
    (hindex : w'.index = w.index ++ [(key, w.offset)])
    (hsince : w'.bytesSinceLastIndex = (encodeRecord key value).length) :
    w'.Spaced (records ++ [(key, value)]) := by
  have hbehind : ∀ e ∈ w.index, e.2 + 4096 ≤ w.offset := by
    intro e he
    have hle := h.le_offset he
    rcases hcp with hnil | hfar
    · rw [hnil] at he
      simp at he
    · omega
  constructor
  · simp [hoffset, h.offset]
  · intro hnil
    simp [hindex] at hnil
  · intro entry he
    cases hw : w.index with
    | nil =>
      rw [hindex, hw] at he
      obtain rfl : (key, w.offset) = entry := by simpa using he
      exact h.empty hw
    | cons e index =>
      rw [hindex, hw] at he
      exact h.first entry (by rw [hw]; simpa using he)
  · intro entry he
    obtain rfl : (key, w.offset) = entry := by simpa [hindex] using he
    rw [hsince, hoffset]
  · rw [hindex]
    refine List.pairwise_append.mpr ⟨h.apart, List.pairwise_singleton _ _, ?_⟩
    intro e he x hx
    rw [List.mem_singleton.mp hx]
    exact hbehind e he
  · intro pre r post heq
    rcases eq_or_of_append_singleton heq with rfl | ⟨post', hold⟩
    · refine ⟨(key, w.offset), ⟨by simp [hindex], h.offset.le, ?_⟩, ?_⟩
      · intro e he hle
        rw [h.offset]
        exact hle
      · rw [← h.offset]
        show w.offset < w.offset + 4096
        omega
    · -- an earlier record starts before the new checkpoint
      obtain ⟨entry, ⟨hmem, hle, hmax⟩, hnear⟩ := h.near pre r post' hold
      have hstart : (dataSection pre).length < w.offset := by
        have hlen := length_encodeRecord r.1 r.2
        rw [h.offset, hold, dataSection_append, dataSection_cons, List.length_append,
          List.length_append]
        omega
      refine ⟨entry, ⟨by rw [hindex]; exact List.mem_append_left _ hmem, hle, ?_⟩, hnear⟩
      intro e he hpos
      rw [hindex] at he
      rcases List.mem_append.mp he with he | he
      · exact hmax e he hpos
      · rw [List.mem_singleton.mp he] at hpos
        exact absurd hpos (not_le.mpr hstart)

/-- A record that is none is less than 4096 bytes behind the last one. -/
theorem Spaced.between {w w' : SsTableWriter} {records : List Record} (h : w.Spaced records)
    {key : Key} {value : Value} (hne : w.index ≠ []) (hlt : w.bytesSinceLastIndex < 4096)
    (hoffset : w'.offset = w.offset + (encodeRecord key value).length)
    (hindex : w'.index = w.index)
    (hsince : w'.bytesSinceLastIndex = w.bytesSinceLastIndex + (encodeRecord key value).length) :
    w'.Spaced (records ++ [(key, value)]) := by
  constructor
  · simp [hoffset, h.offset]
  · intro hnil
    exact absurd (hindex ▸ hnil) hne
  · rw [hindex]
    exact h.first
  · intro entry he
    rw [hindex] at he
    have hlast := h.last entry he
    omega
  · rw [hindex]
    exact h.apart
  · rw [hindex]
    intro pre r post heq
    rcases eq_or_of_append_singleton heq with rfl | ⟨post', hold⟩
    · obtain ⟨index, last, hlast⟩ := (List.eq_nil_or_concat w.index).resolve_left hne
      have hsum := h.last last (by simp [hlast])
      have hoff := h.offset
      refine ⟨last, ⟨by simp [hlast], by omega, ?_⟩, by omega⟩
      intro e he _
      have hle := h.le_offset he
      omega
    · exact h.near pre r post' hold

/-- **One `add` keeps the distances.** -/
theorem Spaced.add {w w' : SsTableWriter} {records : List Record} (h : w.Spaced records)
    {key : Key} {value : Value} (hadd : w.add key value = some w') :
    w'.Spaced (records ++ [(key, value)]) := by
  obtain ⟨hoffset, ⟨hcp, hindex, hsince⟩ | ⟨⟨hne, hlt⟩, hindex, hsince⟩⟩ := add_cases hadd
  · exact h.checkpoint hcp hoffset hindex hsince
  · exact h.between hne hlt hoffset hindex hsince

theorem Spaced.addAll {w w' : SsTableWriter} {records : List Record} (h : w.Spaced records)
    {more : List Record} (hadd : w.addAll more = some w') : w'.Spaced (records ++ more) := by
  induction more generalizing w records with
  | nil =>
    obtain rfl : w = w' := by simpa [SsTableWriter.addAll] using hadd
    simpa using h
  | cons r more ih =>
    rw [SsTableWriter.addAll, List.foldlM_cons] at hadd
    obtain ⟨w₁, h₁, hadd⟩ := Option.bind_eq_some_iff.mp hadd
    simpa using ih (h.add h₁) hadd

/-- The first record is a checkpoint. -/
theorem Spaced.head {w : SsTableWriter} {records : List Record} (h : w.Spaced records)
    (hne : records ≠ []) : (w.index.map Prod.snd).head? = some 0 := by
  obtain ⟨r, rest, rfl⟩ := List.exists_cons_of_ne_nil hne
  obtain ⟨entry, ⟨hmem, -⟩, -⟩ := h.near [] r rest rfl
  obtain ⟨e, index, hindex⟩ := List.exists_cons_of_ne_nil (List.ne_nil_of_mem hmem)
  have hzero := h.first e (by simp [hindex])
  simp [hindex, hzero]

end SsTableWriter

/-! ### The blocks of the data section -/

/-- The offsets at which the records start, the first of them at `pos`. -/
def recordStarts (pos : ℕ) : List Record → List ℕ
  | [] => []
  | r :: records => pos :: recordStarts (pos + (encodeRecord r.1 r.2).length) records

/-- The block of the checkpoint `i`: the records that start there or behind it, and
before the checkpoint `i + 1` if there is one. -/
def blockStarts (index : List (Key × ℕ)) (records : List Record) (i : ℕ) : List ℕ :=
  (recordStarts 0 records).filter fun p =>
    (index[i]?.any fun entry => entry.2 ≤ p) && index[i + 1]?.all fun entry => p < entry.2

@[simp] theorem recordStarts_append (pos : ℕ) (records records' : List Record) :
    recordStarts pos (records ++ records') =
      recordStarts pos records ++ recordStarts (pos + (dataSection records).length) records' := by
  induction records generalizing pos with
  | nil => simp [recordStarts]
  | cons r records ih => simp [recordStarts, ih, Nat.add_assoc]

/-- Records start inside the bytes they take. -/
theorem bounds_of_mem_recordStarts {pos p : ℕ} {records : List Record}
    (h : p ∈ recordStarts pos records) : pos ≤ p ∧ p < pos + (dataSection records).length := by
  induction records generalizing pos with
  | nil => simp [recordStarts] at h
  | cons r records ih =>
    have hlen := length_encodeRecord r.1 r.2
    rw [dataSection_cons, List.length_append]
    rcases List.mem_cons.mp h with rfl | h
    · omega
    · have := ih h
      omega

/-- A block of which the checkpoint and the next one are known. -/
theorem blockStarts_eq {index : List (Key × ℕ)} {i : ℕ} {entry : Key × ℕ}
    {pre block post : List Record} (hentry : index[i]? = some entry)
    (hstart : entry.2 = (dataSection pre).length)
    (hnext : index[i + 1]? = none ∧ post = [] ∨
      ∃ next, index[i + 1]? = some next ∧ next.2 = (dataSection (pre ++ block)).length) :
    blockStarts index (pre ++ (block ++ post)) i = recordStarts (dataSection pre).length block := by
  have hpre : ∀ (p) (next : Bool), p ∈ recordStarts 0 pre →
      ¬((some entry).any (fun entry => entry.2 ≤ p) && next) = true := by
    intro p next hp
    obtain ⟨-, hlt⟩ := bounds_of_mem_recordStarts hp
    rw [Nat.zero_add, ← hstart] at hlt
    simp [hlt]
  have hblock : ∀ p ∈ recordStarts (dataSection pre).length block, entry.2 ≤ p ∧
      p < (dataSection pre).length + (dataSection block).length := by
    intro p hp
    rw [hstart]
    exact bounds_of_mem_recordStarts hp
  rw [blockStarts, recordStarts_append, recordStarts_append, Nat.zero_add, List.filter_append,
    List.filter_append, hentry, List.filter_eq_nil_iff.mpr fun p => hpre p _, List.nil_append]
  rcases hnext with ⟨hnone, rfl⟩ | ⟨next, hsome, hend⟩
  · rw [hnone, show recordStarts _ ([] : List Record) = [] from rfl, List.filter_nil,
      List.append_nil]
    refine List.filter_eq_self.mpr fun p hp => ?_
    simp [(hblock p hp).1]
  · rw [dataSection_append, List.length_append] at hend
    have hpost : ∀ p ∈ recordStarts ((dataSection pre).length + (dataSection block).length) post,
        next.2 ≤ p := by
      intro p hp
      rw [hend]
      exact (bounds_of_mem_recordStarts hp).1
    rw [hsome, List.filter_eq_self.mpr fun p hp => ?_, List.filter_eq_nil_iff.mpr fun p hp => ?_,
      List.append_nil]
    · simp [hpost p hp]
    · simp [hend, hblock p hp]

namespace SsTableReader

/-! ### The reads of a lookup stay in one block -/

theorem scanReads_of_read {file : Bytes} {dataEnd pos : ℕ} {r : Record} {n : ℕ} {key : Key}
    (hpos : pos < dataEnd) (h : readRecord file pos = some (r, n)) :
    (scanReads file dataEnd key pos).2 =
      if r.1 < key then pos :: (scanReads file dataEnd key (pos + n)).2 else [pos] := by
  rw [scanReads, scanWithin_of_read key hpos (readWithin_most.mpr h)]
  rcases lt_trichotomy r.1 key with hlt | heq | hgt
  · rw [if_neg (ne_of_lt hlt), if_neg (lt_asymm hlt), if_pos hlt]
    rfl
  · rw [if_pos heq, if_neg (not_lt.mpr heq.ge)]
  · rw [if_neg (ne_of_gt hgt), if_pos hgt, if_neg (lt_asymm hgt)]

/-- **A scan in front of a record above the key reads no further than this record.** -/
theorem scanReads_dataSection {block post : List Record} {key : Key}
    (hshort : ∀ r ∈ block ++ post, ShortRecord r) (hpost : ∀ r ∈ post.head?, key < r.1)
    {file : Bytes} {pos dataEnd : ℕ} (a c : Bytes)
    (h : file = a ++ (dataSection (block ++ post) ++ c)) (hpos : a.length = pos)
    (hend : dataEnd = pos + (dataSection (block ++ post)).length) :
    (scanReads file dataEnd key pos).2 <+: recordStarts pos (block ++ post.take 1) := by
  induction block generalizing a pos with
  | nil =>
    cases post with
    | nil =>
      rw [scanReads, scanWithin, if_pos (by simp [hend])]
      exact List.nil_prefix
    | cons r post =>
      have hlen := length_encodeRecord r.1 r.2
      have hread : readRecord file pos = some (r, (encodeRecord r.1 r.2).length) :=
        readRecord_mid a (dataSection post ++ c) (hshort r List.mem_cons_self) (by simp [h]) hpos
      rw [List.nil_append, dataSection_cons, List.length_append] at hend
      rw [scanReads_of_read (by omega) hread, if_neg (lt_asymm (hpost r rfl))]
      exact List.prefix_rfl
  | cons r block ih =>
    have hlen := length_encodeRecord r.1 r.2
    have hread : readRecord file pos = some (r, (encodeRecord r.1 r.2).length) :=
      readRecord_mid a (dataSection (block ++ post) ++ c) (hshort r List.mem_cons_self)
        (by simp [h]) hpos
    rw [List.cons_append, dataSection_cons, List.length_append] at hend
    rw [scanReads_of_read (by omega) hread, List.cons_append, recordStarts]
    split
    · refine List.cons_prefix_cons.mpr ⟨rfl, ?_⟩
      exact ih (fun s hs => hshort s (List.mem_cons_of_mem _ hs)) (a ++ encodeRecord r.1 r.2)
        (by simp [h]) (by simp [hpos]) (by omega)
    · exact List.cons_prefix_cons.mpr ⟨rfl, List.nil_prefix⟩

/-- Behind the entry the search has found there is no checkpoint at or below the
key. -/
theorem lt_of_binarySearch {index : List (Key × ℕ)} (hs : StrictSorted index) {key : Key} {i : ℕ}
    (h : binarySearch index key = .ok i ∨ binarySearch index key = .error (i + 1))
    {next : Key × ℕ} (hnext : index[i + 1]? = some next) : key < next.1 := by
  obtain ⟨hi, -⟩ := List.getElem?_eq_some_iff.mp hnext
  obtain ⟨-, habove, hlow⟩ := searchLoop_spec hs key (show 0 < index.length by omega)
    (show 0 + index.length ≤ index.length by omega) (fun j e hj he => by
      obtain ⟨hj', -⟩ := List.getElem?_eq_some_iff.mp he
      omega) (Or.inl rfl)
  rw [binarySearch] at h
  generalize searchLoop index key 0 index.length = base at habove hlow h
  have hbase : base = i := by
    split at h
    · simp at h
    · rename_i entry hentry
      split at h
      · simpa using h
      · rename_i hne
        split at h
        · simpa using h
        · -- a miss that is no hit and not behind its entry is at the first position
          rename_i hnlt
          obtain rfl : base = i + 1 := by simpa using h
          rcases hlow with hzero | ⟨e, he, hle⟩
          · omega
          · rw [hentry] at he
            obtain rfl := Option.some.inj he
            exact absurd (lt_of_le_of_ne hle hne) hnlt
  exact habove (i + 1) next (by omega) hnext

/-- **The block of a checkpoint ends at the next one**, or with the data. -/
theorem exists_block {w : SsTableWriter} {records : List Record} (hw : w.Holds records)
    (hspaced : w.Spaced records) {i : ℕ} {entry : Key × ℕ} (hentry : w.index[i]? = some entry) :
    ∃ pre block post, records = pre ++ (block ++ post) ∧ entry.2 = (dataSection pre).length ∧
      (w.index[i + 1]? = none ∧ post = [] ∨
        ∃ next value post', w.index[i + 1]? = some next ∧ post = (next.1, value) :: post' ∧
          next.2 = (dataSection (pre ++ block)).length) := by
  obtain ⟨pre, value, tail, hrecords, hstart⟩ :=
    hw.checkpoints entry (List.mem_of_getElem? hentry)
  cases hi : w.index[i + 1]? with
  | none => exact ⟨pre, _, [], by simpa using hrecords, hstart, Or.inl ⟨rfl, rfl⟩⟩
  | some next =>
    obtain ⟨pre', value', post', hrecords', hoff⟩ :=
      hw.checkpoints next (List.mem_of_getElem? hi)
    have hbefore : (dataSection pre).length < (dataSection pre').length := by
      obtain ⟨hi₁, he₁⟩ := List.getElem?_eq_some_iff.mp hentry
      obtain ⟨hi₂, he₂⟩ := List.getElem?_eq_some_iff.mp hi
      have hapart := List.pairwise_iff_getElem.mp hspaced.apart i (i + 1) hi₁ hi₂ (by omega)
      rw [he₁, he₂] at hapart
      omega
    rcases List.append_eq_append_iff.mp (hrecords.symm.trans hrecords') with
      ⟨block, rfl, -⟩ | ⟨back, rfl, -⟩
    · exact ⟨pre, block, _, by simpa using hrecords', hstart,
        Or.inr ⟨next, value', post', rfl, rfl, hoff⟩⟩
    · simp at hbefore

/-- A scan from the checkpoint `i`, when the next one is above the key. -/
theorem scanReads_checkpoint {w : SsTableWriter} {records : List Record} (hw : w.Holds records)
    (hspaced : w.Spaced records) (hshort : ∀ r ∈ records, ShortRecord r) {c : Bytes} {key : Key}
    {i : ℕ} {entry : Key × ℕ} (hentry : w.index[i]? = some entry)
    (hnext : ∀ next, w.index[i + 1]? = some next → key < next.1) :
    (scanReads (dataSection records ++ c) w.offset key entry.2).2 <+:
      blockStarts w.index records i ++ (w.index[i + 1]?.map Prod.snd).toList := by
  obtain ⟨pre, block, post, rfl, hstart, hends⟩ := exists_block hw hspaced hentry
  have hscan : (∀ r ∈ post.head?, key < r.1) →
      (scanReads (dataSection (pre ++ (block ++ post)) ++ c) w.offset key entry.2).2 <+:
        recordStarts (dataSection pre).length block ++
          recordStarts (dataSection (pre ++ block)).length (post.take 1) := fun hpost => by
    rw [hstart, dataSection_append pre block, List.length_append, ← recordStarts_append]
    exact scanReads_dataSection (fun r hr => hshort r (List.mem_append_right _ hr)) hpost
      (dataSection pre) c (by simp) rfl (by simp [hw.offset])
  rcases hends with ⟨hnone, rfl⟩ | ⟨next, value, post', hsome, rfl, hoff⟩
  · rw [blockStarts_eq hentry hstart (Or.inl ⟨hnone, rfl⟩), hnone]
    exact hscan (by simp)
  · rw [blockStarts_eq hentry hstart (Or.inr ⟨next, hsome, hoff⟩), hsome, Option.map_some, hoff]
    refine hscan fun r hr => ?_
    obtain rfl : (next.1, value) = r := by simpa using hr
    exact hnext next hsome

/-- **A lookup reads a first part of one block, and at most one record more**: the one
the next block begins with. -/
theorem getRawReads_block {w : SsTableWriter} {records : List Record} (hw : w.Holds records)
    (hspaced : w.Spaced records) (hshort : ∀ r ∈ records, ShortRecord r) {c : Bytes} (key : Key) :
    ∃ i, ((ofWriter w (dataSection records ++ c)).getRawReads key).2 <+:
      blockStarts w.index records i ++ (w.index[i + 1]?.map Prod.snd).toList := by
  rw [getRawReads, getRawWithin]
  rcases scanStart_cases .most (ofWriter w (dataSection records ++ c)) key with
    ⟨-, hstart⟩ | ⟨-, hstart⟩ | ⟨-, -, hstart⟩ | ⟨entry, -, ⟨i, hfound, hentry⟩, hstart⟩
  · rw [hstart]
    exact ⟨0, List.nil_prefix⟩
  · rw [hstart]
    exact ⟨0, List.nil_prefix⟩
  · rw [hstart]
    exact ⟨0, List.nil_prefix⟩
  · refine ⟨i, ?_⟩
    rw [hstart]
    split_ifs
    · exact scanReads_checkpoint hw hspaced hshort hentry fun next =>
        lt_of_binarySearch hw.sorted hfound
    · exact List.nil_prefix

end SsTableReader

/-- **The sparse index is evenly spaced, and a lookup reads one block.** The writer's
checkpoints ascend from offset 0 in steps of at least 4096 bytes, each is the start of
a record, and every record starts less than 4096 bytes behind the one before it. In
the file as the reader opens it, the records a lookup reads are a first part of the
block of one checkpoint, followed by at most the first record of the next. -/
theorem sparseIndex_spacing (S : BloomSizing) (n : ℕ) {records : List Record} (hne : records ≠ [])
    (hs : StrictSorted records) (hshort : ∀ r ∈ records, ShortRecord r) :
    ∃ w, (SsTableWriter.new S n).addAll records = some w ∧
      (w.index.map Prod.snd).Pairwise (· < ·) ∧
      (w.index.map Prod.snd).head? = some 0 ∧
      (∀ entry ∈ w.index, IsCheckpoint records entry) ∧
      (w.index.map Prod.snd).IsChain (fun a b => a + 4096 ≤ b) ∧
      (∀ pre r post, records = pre ++ r :: post →
        ∃ entry, NearestCheckpoint w.index (dataSection pre).length entry ∧
          (dataSection pre).length < entry.2 + 4096) ∧
      (w.finish.length < 2 ^ 63 → ∃ reader, SsTableReader.open w.finish = .ok reader ∧
        reader.index = w.index ∧ ∀ key, (reader.getRawReads key).1 = reader.getRaw key ∧
          ∃ i, (reader.getRawReads key).2 <+:
            blockStarts w.index records i ++ (w.index[i + 1]?.map Prod.snd).toList) := by
  obtain ⟨w, hadd, hw, hk, hm⟩ :=
    (SsTableWriter.holds_new S n).addAll (by simpa using hs : StrictSorted ([] ++ records))
  have hspaced := (SsTableWriter.spaced_new S n).addAll hadd
  rw [List.nil_append] at hw hspaced
  have happart : (w.index.map Prod.snd).Pairwise fun a b => a + 4096 ≤ b :=
    List.pairwise_map.mpr hspaced.apart
  refine ⟨w, hadd, happart.imp fun h => by omega, hspaced.head hne, hw.checkpoints,
    happart.isChain, hspaced.near, fun hlen => ?_⟩
  obtain ⟨c, hc⟩ : ∃ c, w.finish = dataSection records ++ c := ⟨_, by
    rw [← hw.written]
    rfl⟩
  refine ⟨_, SsTableReader.open_finish hw hshort (by rw [hk]; exact S.k_lt n)
    (by rw [hm]; exact S.m_lt n) hlen, rfl, fun key => ⟨rfl, ?_⟩⟩
  rw [hc]
  exact SsTableReader.getRawReads_block hw hspaced hshort key

/-- Two blocks, the first of which is one record of more than 4096 bytes. -/
theorem sparseIndex_spacing_two : ∃ w reader,
    (SsTableWriter.new .percent 5).addAll [([1], List.replicate 4096 7), ([2], []), ([3], [8])] =
        some w ∧
      w.index = [([1], 0), ([2], 4105)] ∧ SsTableReader.open w.finish = .ok reader ∧
      ∃ i, (reader.getRawReads [2]).2 <+:
        blockStarts w.index [([1], List.replicate 4096 7), ([2], []), ([3], [8])] i ++
          (w.index[i + 1]?.map Prod.snd).toList := by
  obtain ⟨w, hadd, -, -, -, -, -, hread⟩ := sparseIndex_spacing .percent 5
    (show [(([1], List.replicate 4096 7) : Record), ([2], []), ([3], [8])] ≠ [] from
      List.cons_ne_nil _ _) (by decide) (by decide +kernel)
  have hindex : ((SsTableWriter.new .percent 5).addAll
      [([1], List.replicate 4096 7), ([2], []), ([3], [8])]).map (fun w => w.index) =
        some [([1], 0), ([2], 4105)] := by decide +kernel
  have hlength : ((SsTableWriter.new .percent 5).addAll
      [([1], List.replicate 4096 7), ([2], []), ([3], [8])]).map
        (fun w => decide (w.finish.length < 2 ^ 63)) = some true := by decide +kernel
  rw [hadd, Option.map_some, Option.some.injEq] at hindex hlength
  obtain ⟨reader, hopen, -, hkeys⟩ := hread (of_decide_eq_true hlength)
  exact ⟨w, reader, hadd, hindex, hopen, (hkeys [2]).2⟩

end Tabula
