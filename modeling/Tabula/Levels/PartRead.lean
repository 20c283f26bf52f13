import Tabula.Levels.Runs

/-!
# Inputs that are read in part

`SsTableIter::next` (`src/sstable/reader.rs`) returns `None` at the end of the data
section, and by the `.ok()?` behind each of its reads also where a read fails. None
of its callers can tell the two apart, so a merge takes what it got of a file for the
whole of it: `Tabula.mergeSstables_error_iff` lists the ways out of a merge with an
`Err`, and an iterator that stops early (`Tabula.SsTableReader.StopsEarly`) is not
among them. After such a merge `compact` deletes its inputs all the same, with
the records no iterator has yielded.
-/

namespace Tabula

open SortedTable LittleEndian

/-! ### Where an iterator stops -/

/-- How far a record moves the position of an iterator. -/
def recordLen (r : Record) : ℕ := 4 + r.1.length + 4 + r.2.length

/-- The position of an iterator that has yielded these records. -/
def posAfter (rs : List Record) : ℕ := (rs.map recordLen).sum

@[simp] theorem posAfter_nil : posAfter [] = 0 := rfl

@[simp] theorem posAfter_cons (r : Record) (rs : List Record) :
    posAfter (r :: rs) = recordLen r + posAfter rs := by
  rw [posAfter, List.map_cons, List.sum_cons]
  rfl

namespace SsTableReader

theorem readExact_length {file buf : Bytes} {pos n : ℕ} (h : readExact file pos n = some buf) :
    buf.length = n := by
  rw [readExact] at h
  split at h
  · rename_i hlen
    rw [← Option.some.inj h, hlen]
  · simp at h

/-- The position moves by the length of the record that was read. -/
theorem readRecord_length {file : Bytes} {pos : ℕ} {r : Record} {n : ℕ}
    (h : readRecord file pos = some (r, n)) : n = recordLen r := by
  simp only [readRecord_eq, Option.bind_eq_bind, Option.bind_eq_some_iff, Option.pure_def,
    Option.some.injEq, Prod.mk.injEq] at h
  obtain ⟨keyLenBuf, -, key, hkey, valLenBuf, -, val, hval, rfl, rfl⟩ := h
  rw [recordLen, readExact_length hkey, readExact_length hval]

/-- Left alone, an iterator stops at the end of the data section or where a record
cannot be read. -/
theorem iterFrom_stop (file : Bytes) (dataEnd pos : ℕ) :
    dataEnd ≤ pos + posAfter (iterFrom file dataEnd pos) ∨
      readRecord file (pos + posAfter (iterFrom file dataEnd pos)) = none := by
  fun_induction iterFrom file dataEnd pos with
  | case1 pos hend => exact Or.inl (by simpa using hend)
  | case2 pos hend hread => exact Or.inr (by simpa using hread)
  | case3 pos hend r n hread ih =>
    rw [posAfter_cons, ← readRecord_length hread, ← Nat.add_assoc]
    exact ih

/-- Before each record it yields, it is inside the data section. -/
theorem posAfter_take_lt {file : Bytes} {dataEnd pos n : ℕ}
    (hn : n < (iterFrom file dataEnd pos).length) :
    pos + posAfter ((iterFrom file dataEnd pos).take n) < dataEnd := by
  fun_induction iterFrom file dataEnd pos generalizing n with
  | case1 => simp at hn
  | case2 => simp at hn
  | case3 pos hend r m hread ih =>
    cases n with
    | zero => simpa using hend
    | succ n =>
      rw [List.take_succ_cons, posAfter_cons, ← readRecord_length hread, ← Nat.add_assoc]
      exact ih (by simpa using hn)

/-- The iterator has returned `None` after these records, and its position is still
before `data_end`. -/
def StopsEarly (reader : SsTableReader) (yielded : List Record) : Prop :=
  posAfter yielded < reader.dataEnd

/-- **A pass stops early** when one of its reads fails, or when the file itself breaks
off or has a wrong length in its data section. -/
theorem stopsEarly_iff {io : PassIo} {reader : SsTableReader} {t : List Record}
    (h : iterPass io reader = .ok t) :
    reader.StopsEarly t ↔ (∃ n ∈ io.cut, n < reader.iter.length) ∨
      posAfter reader.iter < reader.dataEnd ∧
        readRecord reader.file (posAfter reader.iter) = none := by
  have hiter : posAfter reader.iter < reader.dataEnd →
      readRecord reader.file (posAfter reader.iter) = none := by
    intro hlt
    rcases iterFrom_stop reader.file reader.dataEnd 0 with hend | hnone
    · rw [Nat.zero_add] at hend
      exact absurd hlt (not_lt.mpr hend)
    · rw [Nat.zero_add] at hnone
      exact hnone
  rw [iterPass] at h
  split at h
  · obtain rfl := Except.ok.inj h
    cases hcut : io.cut with
    | none => simpa [StopsEarly] using hiter
    | some n =>
      by_cases hn : n < reader.iter.length
      · have hlt := posAfter_take_lt hn
        rw [Nat.zero_add] at hlt
        exact iff_of_true hlt (Or.inl ⟨n, rfl, hn⟩)
      · -- the read that would fail is never made
        simpa [StopsEarly, List.take_of_length_le (not_lt.mp hn), hn] using hiter
  · simp at h

end SsTableReader

/-- The iterator of some input stops early, in the counting or in the merging pass. -/
def MergeIo.PartlyRead (io : MergeIo) (readers : List SsTableReader) : Prop :=
  ∃ i reader t, readers[i]? = some reader ∧
    (iterPass (io.count i) reader = .ok t ∨ iterPass (io.pass i) reader = .ok t) ∧
    reader.StopsEarly t

/-! ### When a merge fails -/

/-- What the passes of a merge yield when every `iter()` succeeds. -/
def yields (io : ℕ → PassIo) : List SsTableReader → List (List Record)
  | [] => []
  | reader :: readers =>
      (io 0).cut.elim reader.iter reader.iter.take :: yields (fun i => io (i + 1)) readers

theorem passes_of_seek {io : ℕ → PassIo} {readers : List SsTableReader}
    (h : ∀ i < readers.length, (io i).seek = true) :
    passes io readers = .ok (yields io readers) := by
  induction readers generalizing io with
  | nil => rfl
  | cons reader readers ih =>
    have hrest : passes (fun i => io (i + 1)) readers =
        .ok (yields (fun i => io (i + 1)) readers) :=
      ih fun i hi => h (i + 1) (by simpa using hi)
    rw [passes, iterPass, if_pos (h 0 (by simp)), ok_bind, hrest]
    rfl

theorem passes_of_not_seek {io : ℕ → PassIo} {readers : List SsTableReader} {i : ℕ}
    (hi : i < readers.length) (h : (io i).seek = false) :
    passes io readers = .error (.err .io) := by
  induction readers generalizing io i with
  | nil => simp at hi
  | cons reader readers ih =>
    rw [passes, iterPass]
    split
    · rename_i hseek
      cases i with
      | zero => simp [h] at hseek
      | succ i =>
        have hrest : passes (fun i => io (i + 1)) readers = .error (.err .io) :=
          ih (i := i) (by simpa using hi) h
        rw [ok_bind, hrest]
        rfl
    · rfl

/-- **The ways out of a merge with an `Err`**, other than by what an iterator yields. -/
inductive MergeIo.Fails (S : BloomSizing) (H : MergeHeap) (io : MergeIo)
    (readers : List SsTableReader) : Prop where
  /-- `iter()` cannot seek, in the counting pass. -/
  | countSeek {i : ℕ} (hi : i < readers.length) (h : (io.count i).seek = false)
  /-- The temporary file cannot be created. -/
  | create (h : io.create = false)
  /-- `iter()` cannot seek, in the merging pass. -/
  | passSeek {i : ℕ} (hi : i < readers.length) (h : (io.pass i).seek = false)
  /-- A write fails. -/
  | write {n : ℕ} (h : io.write = some n)
  /-- The file is larger than a file can be. -/
  | size (h : ∀ bytes ∈ sstableBytes S ((yields io.count readers).map List.length).sum
      (merge H (yields io.pass readers)), 2 ^ 63 ≤ bytes.length)
  /-- The rename fails. -/
  | rename (h : io.rename = false)

theorem mergeSstables_of_fails {S : BloomSizing} {H : MergeHeap} {io : MergeIo}
    {readers : List SsTableReader} (h : io.Fails S H readers) (fs : Fs) (outputPath : Path) :
    ∃ e, (mergeSstables S H io fs readers outputPath).1 = .error (.err e) := by
  by_cases hcount : ∀ i < readers.length, (io.count i).seek = true
  · by_cases hcreate : io.create = true
    · by_cases hpass : ∀ i < readers.length, (io.pass i).seek = true
      · obtain ⟨bytes, hbytes⟩ := sstableBytes_isSome S
          ((yields io.count readers).map List.length).sum (merge H (yields io.pass readers))
        simp only [mergeSstables, passes_of_seek hcount, passes_of_seek hpass, mapErr_ok, hcreate,
          if_true, hbytes]
        split
        · exact ⟨_, rfl⟩
        · rename_i hstop
          obtain ⟨hwrite, hlen⟩ := MergeIo.stop_eq_none.mp hstop
          -- everything before the rename has gone well
          have hrename : io.rename = false := by
            cases h with
            | countSeek hi h => simp [hcount _ hi] at h
            | create h => simp [hcreate] at h
            | passSeek hi h => simp [hpass _ hi] at h
            | write h => simp [hwrite] at h
            | size h => exact absurd hlen (not_lt.mpr (h bytes hbytes))
            | rename h => exact h
          exact ⟨_, by simp only [hrename]; rfl⟩
      · push Not at hpass
        obtain ⟨i, hi, hseek⟩ := hpass
        simp only [mergeSstables, passes_of_seek hcount, mapErr_ok, hcreate, if_true,
          passes_of_not_seek hi (Bool.eq_false_iff.mpr hseek)]
        exact ⟨_, rfl⟩
    · simp only [mergeSstables, passes_of_seek hcount, mapErr_ok, hcreate]
      exact ⟨_, rfl⟩
  · push Not at hcount
    obtain ⟨i, hi, hseek⟩ := hcount
    simp only [mergeSstables, passes_of_not_seek hi (Bool.eq_false_iff.mpr hseek)]
    exact ⟨_, rfl⟩

theorem mergeSstables_of_not_fails {S : BloomSizing} {H : MergeHeap} {io : MergeIo}
    {readers : List SsTableReader} (h : ¬io.Fails S H readers) (fs : Fs) (outputPath : Path) :
    (mergeSstables S H io fs readers outputPath).1 = .ok () := by
  have hcount : ∀ i < readers.length, (io.count i).seek = true := fun i hi =>
    Bool.of_not_eq_false fun hf => h (.countSeek hi hf)
  have hpass : ∀ i < readers.length, (io.pass i).seek = true := fun i hi =>
    Bool.of_not_eq_false fun hf => h (.passSeek hi hf)
  have hcreate : io.create = true := Bool.of_not_eq_false fun hf => h (.create hf)
  have hrename : io.rename = true := Bool.of_not_eq_false fun hf => h (.rename hf)
  have hwrite : io.write = none := Option.eq_none_iff_forall_ne_some.mpr fun _ hn => h (.write hn)
  obtain ⟨bytes, hbytes⟩ := sstableBytes_isSome S ((yields io.count readers).map List.length).sum
    (merge H (yields io.pass readers))
  have hlen : bytes.length < 2 ^ 63 := by
    by_contra hlen
    refine h (.size fun bytes' hbytes' => ?_)
    obtain rfl : bytes = bytes' := Option.some.inj (hbytes.symm.trans hbytes')
    exact not_lt.mp hlen
  simp only [mergeSstables, passes_of_seek hcount, passes_of_seek hpass, mapErr_ok, hcreate,
    if_true, hbytes, MergeIo.stop_eq_none.mpr ⟨hwrite, hlen⟩, hrename]

/-- **When a merge returns `Err`**: what its iterators yield has no say in it. -/
theorem mergeSstables_error_iff {S : BloomSizing} {H : MergeHeap} {io : MergeIo}
    {readers : List SsTableReader} (fs : Fs) (outputPath : Path) :
    (∃ e, (mergeSstables S H io fs readers outputPath).1 = .error (.err e)) ↔
      io.Fails S H readers := by
  refine ⟨fun ⟨e, he⟩ => ?_, fun h => mergeSstables_of_fails h fs outputPath⟩
  by_contra h
  rw [mergeSstables_of_not_fails h] at he
  simp at he

/-- A merge that fails deletes nothing. -/
theorem mergeSstables_keeps {S : BloomSizing} {H : MergeHeap} {io : MergeIo} {fs : Fs}
    {readers : List SsTableReader} {outputPath : Path} {e : Fault CompactionError}
    (h : (mergeSstables S H io fs readers outputPath).1 = .error e) {q : Path} (hq : fs q ≠ none) :
    (mergeSstables S H io fs readers outputPath).2 q ≠ none := by
  have hwrite : ∀ {fs : Fs} (bytes : Bytes), fs q ≠ none →
      fs.write outputPath.tmp bytes q ≠ none := by
    intro fs bytes hq
    by_cases htmp : q = outputPath.tmp
    · rw [htmp, Fs.write_self]
      exact Option.some_ne_none bytes
    · rwa [Fs.write_of_ne htmp]
  unfold mergeSstables at h ⊢
  split
  · exact hq
  · simp only at h ⊢
    split
    · split
      · exact hwrite _ hq
      · split
        · exact hwrite _ hq
        · split
          · exact hwrite _ (hwrite _ hq)
          · split
            · simp_all
            · exact hwrite _ (hwrite _ hq)
    · exact hq

/-! ### Compactions -/

namespace LevelManager

/-- **A compaction comes to its merge**: its inputs are open and have their key ranges. -/
structure ComesToMerge (io : CompactIo) (fs : Fs) (lm : LevelManager) (oldest : Path)
    (l0Readers : List SsTableReader) (split : SplitL1) : Prop where
  oldest : lm.l0.head? = some oldest
  openL0 : openAll io.openL0 fs lm.l0 = .ok l0Readers
  split : ∃ l0Range, combineRanges io.rangeL0 none l0Readers = .ok (some l0Range) ∧
    splitL1 io.openL1 io.rangeL1 fs l0Range lm.l1 = .ok split

theorem openInput_ne_none {ok : Bool} {fs : Fs} {p : Path} {reader : SsTableReader}
    (h : openInput ok fs p = .ok reader) : fs p ≠ none := by
  intro hnone
  rw [openInput, Fs.openSst, hnone] at h
  cases ok <;> simp [mapErr] at h

theorem openAll_ne_none {ok : ℕ → Bool} {fs : Fs} {ps : List Path} {readers : List SsTableReader}
    (h : openAll ok fs ps = .ok readers) : ∀ p ∈ ps, fs p ≠ none := by
  induction ps generalizing ok readers with
  | nil => simp
  | cons p ps ih =>
    obtain ⟨reader, hopen, h⟩ := bind_eq_ok.mp h
    obtain ⟨rest, hrest, -⟩ := bind_eq_ok.mp h
    exact List.forall_mem_cons.mpr ⟨openInput_ne_none hopen, ih hrest⟩

theorem splitL1_ne_none {ok : ℕ → Bool} {io : ℕ → PassIo} {fs : Fs} {l0Range : KeyRange}
    {ps : List Path} {split : SplitL1} (h : splitL1 ok io fs l0Range ps = .ok split) :
    ∀ p ∈ split.overlapping.map Prod.fst, fs p ≠ none := by
  induction ps generalizing ok io split with
  | nil =>
    obtain rfl := Except.ok.inj h
    simp
  | cons p ps ih =>
    obtain ⟨reader, hopen, h⟩ := bind_eq_ok.mp h
    obtain ⟨range, -, h⟩ := bind_eq_ok.mp h
    obtain ⟨rest, hrest, h⟩ := bind_eq_ok.mp h
    have hrest : ∀ q ∈ rest.overlapping.map Prod.fst, fs q ≠ none := ih hrest
    split at h <;> obtain rfl := Except.ok.inj h
    · exact List.forall_mem_cons.mpr ⟨openInput_ne_none hopen, hrest⟩
    · exact hrest

/-- The files a merge reads were there when it began. -/
theorem ComesToMerge.inputs_ne_none {io : CompactIo} {fs : Fs} {lm : LevelManager} {oldest : Path}
    {l0Readers : List SsTableReader} {split : SplitL1}
    (h : ComesToMerge io fs lm oldest l0Readers split) :
    ∀ p ∈ lm.l0 ++ split.overlapping.map Prod.fst, fs p ≠ none := by
  obtain ⟨l0Range, -, hsplit⟩ := h.split
  intro p hp
  rcases List.mem_append.mp hp with hp | hp
  · exact openAll_ne_none h.openL0 p hp
  · exact splitL1_ne_none hsplit p hp

/-- From there on a compaction fails when its merge fails, and has changed no other file. -/
theorem ComesToMerge.compact_of_error {io : CompactIo} {fs fs' : Fs} {lm : LevelManager}
    {oldest : Path} {l0Readers : List SsTableReader} {split : SplitL1}
    (h : ComesToMerge io fs lm oldest l0Readers split) {S : BloomSizing} {H : MergeHeap} {now : ℕ}
    {e : Fault CompactionError} (hmerge : mergeSstables S H io.merge fs
      (l0Readers ++ split.overlapping.map Prod.snd) (outputPath now oldest) = (.error e, fs')) :
    compact S H io now fs lm = (.error e, ⟨[] :: [] :: lm.deeper⟩, fs') := by
  obtain ⟨l0Range, hrange, hsplit⟩ := h.split
  obtain ⟨newer, hl0⟩ : ∃ newer, lm.l0 = oldest :: newer := by
    have hhead := h.oldest
    cases hl0 : lm.l0 with
    | nil => simp [hl0] at hhead
    | cons p newer =>
      rw [hl0] at hhead
      exact ⟨newer, by rw [Option.some.inj hhead]⟩
  have hopen := h.openL0
  rw [hl0] at hopen
  unfold compact
  simp only [hl0, hopen, hrange, ok_bind, orPanic_some, hsplit, hmerge]

/-- What becomes of the files of a merge that is refused: it returns an `Err`, and there is
nothing new under the name of its output. -/
def Refused (S : BloomSizing) (H : MergeHeap) (io : MergeIo) (fs : Fs)
    (readers : List SsTableReader) (outputPath : Path) : Prop :=
  (∃ e, (mergeSstables S H io fs readers outputPath).1 = .error (.err e)) ∧
    (mergeSstables S H io fs readers outputPath).2 outputPath = fs outputPath

theorem refused_iff {S : BloomSizing} {H : MergeHeap} {io : MergeIo} {fs : Fs}
    {readers : List SsTableReader} {out : Path} (hout : out ≠ out.tmp) :
    Refused S H io fs readers out ↔ io.Fails S H readers := by
  refine ⟨fun h => (mergeSstables_error_iff fs out).mp h.1, fun h => ?_⟩
  obtain ⟨e, he⟩ := (mergeSstables_error_iff fs out).mpr h
  have hframe := mergeSstables_frame (Prod.mk.eta (p := mergeSstables S H io fs readers out)).symm
    hout fun hok => absurd (he.symm.trans hok) (by simp)
  exact ⟨⟨e, he⟩, hframe⟩

/-- **A merge of inputs that are read in part fails only when something else of it does.**
For every merge, and for every compaction that comes to its merge with every input it has:
the merge is refused, and no input deleted, exactly in the cases of `Tabula.MergeIo.Fails`,
and that an iterator has stopped early is none of them. -/
theorem mergeSstables_partlyRead_iff (S : BloomSizing) (H : MergeHeap) :
    (∀ (io : MergeIo) (fs : Fs) (readers : List SsTableReader) (out : Path), out ≠ out.tmp →
      ((io.PartlyRead readers → Refused S H io fs readers out) ↔
        (io.PartlyRead readers → io.Fails S H readers))) ∧
    ∀ (io : CompactIo) (now : ℕ) (fs : Fs) (lm : LevelManager) (oldest : Path)
      (l0Readers : List SsTableReader) (split : SplitL1),
      ComesToMerge io fs lm oldest l0Readers split →
      ((io.merge.PartlyRead (l0Readers ++ split.overlapping.map Prod.snd) →
          Refused S H io.merge fs (l0Readers ++ split.overlapping.map Prod.snd)
            (outputPath now oldest) ∧
          ∀ p ∈ lm.l0 ++ split.overlapping.map Prod.fst, (compact S H io now fs lm).2.2 p ≠ none) ↔
        (io.merge.PartlyRead (l0Readers ++ split.overlapping.map Prod.snd) →
          io.merge.Fails S H (l0Readers ++ split.overlapping.map Prod.snd))) := by
  refine ⟨fun io fs readers out hout => ?_, fun io now fs lm oldest l0Readers split hcome => ?_⟩
  · exact imp_congr_right fun _ => refused_iff hout
  · have hout : outputPath now oldest ≠ (outputPath now oldest).tmp :=
      (named_outputPath now oldest).ne_tmp _
    refine imp_congr_right fun _ => ⟨fun h => (refused_iff hout).mp h.1, fun h => ?_⟩
    obtain ⟨e, he⟩ := mergeSstables_of_fails h fs (outputPath now oldest)
    refine ⟨(refused_iff hout).mpr h, fun p hp => ?_⟩
    rw [hcome.compact_of_error (Prod.ext he rfl)]
    exact mergeSstables_keeps he (hcome.inputs_ne_none p hp)

/-- A file of one record, alone in L0. -/
theorem exists_comesToMerge (merge : MergeIo) :
    ∃ reader : SsTableReader, reader.iter = [([1], [8])] ∧
      ComesToMerge { CompactIo.whole with merge := merge }
        (Fs.write (fun _ => none) ⟨[], FileName.l0Name 1⟩ (Disk.finished [([1], [8])]))
        ⟨[[⟨[], FileName.l0Name 1⟩]]⟩ ⟨[], FileName.l0Name 1⟩ [reader] ⟨[], []⟩ := by
  have hstored : Fs.Stored (Fs.write (fun _ => none) ⟨[], FileName.l0Name 1⟩
      (Disk.finished [([1], [8])])) ⟨[], FileName.l0Name 1⟩ [([1], [8])] :=
    ⟨_, Fs.write_self _ _ _, Disk.stores_finished (by decide) (by decide) (by decide +kernel)⟩
  obtain ⟨reader, hopen, hiter, -⟩ := hstored.exists_reader
  have hrange : keyRange .whole reader = .ok ([1], [1]) := keyRange_whole (by rw [hiter]; rfl)
  refine ⟨reader, hiter, rfl, ?_, ([1], [1]), ?_, rfl⟩
  · simp only [l0_mk, openAll, openInput, CompactIo.whole, if_true, hopen, mapErr_ok, ok_bind]
    rfl
  · simp only [combineRanges, CompactIo.whole, hrange, ok_bind]
    rfl

/-- Its merging pass yields nothing. -/
def cutMerge : MergeIo := { MergeIo.whole with pass := fun _ => ⟨true, some 0⟩ }

theorem partlyRead_cut {io : MergeIo} (hpass : io.pass 0 = ⟨true, some 0⟩) {reader : SsTableReader}
    (hiter : reader.iter = [([1], [8])]) : io.PartlyRead [reader] := by
  refine ⟨0, reader, [], rfl, Or.inr (by rw [hpass]; rfl), ?_⟩
  have hlt := SsTableReader.posAfter_take_lt (n := 0)
    (show 0 < (SsTableReader.iterFrom reader.file reader.dataEnd 0).length by
      rw [show SsTableReader.iterFrom reader.file reader.dataEnd 0 = _ from hiter]
      exact Nat.one_pos)
  simpa [SsTableReader.StopsEarly] using hlt

/-- When the temporary file cannot be created either, all is well. -/
theorem mergeSstables_partlyRead_iff_create : ∃ reader : SsTableReader,
    reader.iter = [([1], [8])] ∧
      Refused .percent (.argmin _) { cutMerge with create := false } (fun _ => none) [reader]
        ⟨[], FileName.l1Name 2⟩ ∧
      (compact .percent (.argmin _)
        { CompactIo.whole with merge := { cutMerge with create := false } } 2
        (Fs.write (fun _ => none) ⟨[], FileName.l0Name 1⟩ (Disk.finished [([1], [8])]))
        ⟨[[⟨[], FileName.l0Name 1⟩]]⟩).2.2 ⟨[], FileName.l0Name 1⟩ ≠ none := by
  obtain ⟨reader, hiter, hcome⟩ := exists_comesToMerge { cutMerge with create := false }
  have hpart : MergeIo.PartlyRead { cutMerge with create := false } [reader] :=
    partlyRead_cut rfl hiter
  obtain ⟨hmerge, hcompact⟩ := mergeSstables_partlyRead_iff .percent (.argmin _)
  exact ⟨reader, hiter, (hmerge _ _ _ _ (by decide)).mpr (fun _ => .create rfl) hpart,
    ((hcompact _ 2 _ _ _ _ _ hcome).mpr (fun _ => .create rfl) hpart).2 _ List.mem_cons_self⟩

/-- **A merge succeeds on an input it has not read**: the only record of the only file
is lost to a read that fails, the merge returns `Ok`, and the file is deleted. -/
theorem not_mergeSstables_partlyRead :
    ¬∀ (S : BloomSizing) (H : MergeHeap) (io : CompactIo) (now : ℕ) (fs : Fs) (lm : LevelManager)
      (oldest : Path) (l0Readers : List SsTableReader) (split : SplitL1),
      ComesToMerge io fs lm oldest l0Readers split →
      io.merge.PartlyRead (l0Readers ++ split.overlapping.map Prod.snd) →
        Refused S H io.merge fs (l0Readers ++ split.overlapping.map Prod.snd)
          (outputPath now oldest) ∧
        ∀ p ∈ lm.l0 ++ split.overlapping.map Prod.fst,
          (compact S H io now fs lm).2.2 p ≠ none := by
  intro h
  obtain ⟨reader, hiter, hcome⟩ := exists_comesToMerge cutMerge
  obtain ⟨⟨⟨e, he⟩, -⟩, -⟩ := h .percent (.argmin _) _ 2 _ _ _ _ _ hcome
    (partlyRead_cut rfl hiter)
  rw [mergeSstables_of_not_fails] at he
  · simp at he
  · rintro (⟨-, h⟩ | h | ⟨-, h⟩ | h | h | h)
    · simp [cutMerge, MergeIo.whole, PassIo.whole] at h
    · simp [cutMerge, MergeIo.whole] at h
    · simp [cutMerge] at h
    · simp [cutMerge, MergeIo.whole] at h
    · -- the file is the one of no records, with a filter for the one record counted
      have hcount : yields cutMerge.count [reader] = [[([1], [8])]] := by
        simp [yields, cutMerge, MergeIo.whole, PassIo.whole, hiter]
      have hpass : yields cutMerge.pass [reader] = [[]] := by simp [yields, cutMerge]
      have hlen : ∃ bytes ∈ sstableBytes .percent 1 (merge (.argmin _) [[]]),
          bytes.length < 2 ^ 63 := by
        decide +kernel
      obtain ⟨bytes, hbytes, hlen⟩ := hlen
      simp only [List.map_nil, List.append_nil, hcount, hpass] at h
      exact absurd hlen (not_lt.mpr (h bytes hbytes))
    · simp [cutMerge, MergeIo.whole] at h

end LevelManager

end Tabula
