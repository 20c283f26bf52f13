import Tabula.Compaction.Merge
import Tabula.FileSystem

/-!
# Merging files

`merge_sstables` of `src/compaction.rs` around its loop: a first pass over every
input to count the records, the writer on the temporary file, a second pass that
is merged, and the rename. What the operating system makes of every file operation
is an argument: a *script* that says which of them fail (`Tabula.MergeIo`). A read
that fails in the middle of a pass is not an `Err` – the iterator ends there – so
a pass may also be cut short.

The readers keep the file they opened, whatever happens to its name; and they are
all read before the rename.
-/

namespace Tabula

open SortedTable

inductive CompactionError where
  | io : CompactionError
  | emptySsTable : CompactionError
  deriving DecidableEq, Repr

/-- `From<SsTableError> for CompactionError`. -/
def CompactionError.ofSsTableError (_ : SsTableError) : CompactionError := .io

/-! ### Scripts -/

/-- How a pass over one reader goes. -/
structure PassIo where
  /-- Whether `iter()` can seek to the start. -/
  seek : Bool
  /-- How many records are read before a read fails, if one does. -/
  cut : Option ℕ

/-- A pass in which nothing fails. -/
def PassIo.whole : PassIo := ⟨true, none⟩

/-- How the file operations of one merge go. -/
structure MergeIo where
  /-- The counting pass over each reader. -/
  count : ℕ → PassIo
  /-- Whether the temporary file can be created. -/
  create : Bool
  /-- The merging pass over each reader. -/
  pass : ℕ → PassIo
  /-- How many bytes are in the file when a write fails, if one does. -/
  write : Option ℕ
  rename : Bool

/-- A merge in which nothing fails. -/
def MergeIo.whole : MergeIo := ⟨fun _ => .whole, true, fun _ => .whole, none, true⟩

/-- No read of a merge is cut short. -/
structure MergeIo.ReadsComplete (io : MergeIo) : Prop where
  count : ∀ i, (io.count i).cut = none
  pass : ∀ i, (io.pass i).cut = none

/-- Where the writing of a file stops, if it does: at a write that fails, or at the
largest size a file can have. -/
def MergeIo.stop (io : MergeIo) (bytes : Bytes) : Option ℕ :=
  io.write.or (if bytes.length < 2 ^ 63 then none else some (2 ^ 63 - 1))

/-! ### The merge of files -/

/-- `reader.iter()?`, followed to its end. -/
def iterPass (io : PassIo) (reader : SsTableReader) : Res SsTableError (List Record) :=
  if io.seek then .ok (io.cut.elim reader.iter reader.iter.take) else .error (.err .io)

/-- One pass over every reader. -/
def passes (io : ℕ → PassIo) : List SsTableReader → Res SsTableError (List (List Record))
  | [] => .ok []
  | reader :: readers => do
      let t ← iterPass (io 0) reader
      let ts ← passes (fun i => io (i + 1)) readers
      return t :: ts

/-- `merge_sstables`, and the files it leaves. -/
def mergeSstables (S : BloomSizing) (H : MergeHeap) (io : MergeIo) (fs : Fs)
    (readers : List SsTableReader) (outputPath : Path) : Res CompactionError Unit × Fs :=
  match mapErr .ofSsTableError (passes io.count readers) with
  | .error e => (.error e, fs)
  | .ok counted =>
      let expectedKeys := (counted.map List.length).sum
      if io.create then
        let fs := fs.write outputPath.tmp []
        match mapErr .ofSsTableError (passes io.pass readers) with
        | .error e => (.error e, fs)
        | .ok iters =>
            match sstableBytes S expectedKeys (merge H iters) with
            | none => (.error .panic, fs)
            | some bytes =>
                match io.stop bytes with
                | some n => (.error (.err .io), fs.write outputPath.tmp (bytes.take n))
                | none =>
                    let fs := fs.write outputPath.tmp bytes
                    if io.rename then (.ok (), fs.rename outputPath.tmp outputPath)
                    else (.error (.err .io), fs)
      else (.error (.err .io), fs)

/-! ### What a merge does -/

theorem mapErr_eq_ok {ε ε' α : Type} {f : ε → ε'} {x : Res ε α} {a : α} :
    mapErr f x = .ok a ↔ x = .ok a := by
  rcases x with (e | -) | b <;> simp [mapErr]

theorem MergeIo.stop_eq_none {io : MergeIo} {bytes : Bytes} :
    io.stop bytes = none ↔ io.write = none ∧ bytes.length < 2 ^ 63 := by
  rw [MergeIo.stop, Option.or_eq_none_iff]
  split <;> simp_all

/-- A pass that succeeds and is not cut short yields every record. -/
theorem iterPass_eq_ok {io : PassIo} (hio : io.cut = none) {reader : SsTableReader}
    {t : List Record} (h : iterPass io reader = .ok t) : t = reader.iter := by
  rw [iterPass] at h
  split at h
  · rw [hio] at h
    simpa using h.symm
  · simp at h

theorem passes_eq_ok {io : ℕ → PassIo} (hio : ∀ i, (io i).cut = none)
    {readers : List SsTableReader} {ts : List (List Record)} (h : passes io readers = .ok ts) :
    ts = readers.map SsTableReader.iter := by
  induction readers generalizing io ts with
  | nil => simpa [passes] using h.symm
  | cons reader readers ih =>
    obtain ⟨t, ht, h⟩ := bind_eq_ok.mp h
    obtain ⟨us, hus, h⟩ := bind_eq_ok.mp h
    obtain rfl : t :: us = ts := by simpa [pure, Except.pure] using h
    rw [iterPass_eq_ok (hio 0) ht, ih (fun i => hio (i + 1)) hus, List.map_cons]

/-- A pass yields the first records of its file, all of them or not. -/
theorem exists_of_mem_passes {io : ℕ → PassIo} {readers : List SsTableReader}
    {ts : List (List Record)} (h : passes io readers = .ok ts) {t : List Record} (ht : t ∈ ts) :
    ∃ reader ∈ readers, t <+: reader.iter := by
  induction readers generalizing io ts with
  | nil =>
    obtain rfl : [] = ts := by simpa [passes] using h
    simp at ht
  | cons reader readers ih =>
    obtain ⟨u, hu, h⟩ := bind_eq_ok.mp h
    obtain ⟨us, hus, h⟩ := bind_eq_ok.mp h
    obtain rfl : u :: us = ts := by simpa [pure, Except.pure] using h
    rcases List.mem_cons.mp ht with rfl | ht
    · refine ⟨reader, List.mem_cons_self, ?_⟩
      rw [iterPass] at hu
      split at hu
      · obtain rfl := Except.ok.inj hu
        cases (io 0).cut with
        | none => exact List.prefix_rfl
        | some n => exact List.take_prefix n _
      · simp at hu
    · obtain ⟨other, hother, hprefix⟩ := ih hus ht
      exact ⟨other, List.mem_cons_of_mem _ hother, hprefix⟩

theorem passes_whole (readers : List SsTableReader) :
    passes (fun _ => .whole) readers = .ok (readers.map SsTableReader.iter) := by
  induction readers with
  | nil => rfl
  | cons reader readers ih =>
    rw [passes, ih]
    rfl

/-- **A merge that returns `Ok` has put the file under its name**: the merged
records of what the passes yielded. -/
theorem mergeSstables_eq_ok {S : BloomSizing} {H : MergeHeap} {io : MergeIo} {fs fs' : Fs}
    {readers : List SsTableReader} {outputPath : Path}
    (h : mergeSstables S H io fs readers outputPath = (.ok (), fs')) :
    ∃ n iters bytes, passes io.pass readers = .ok iters ∧
      sstableBytes S n (merge H iters) = some bytes ∧ bytes.length < 2 ^ 63 ∧
      fs' = Fs.rename ((fs.write outputPath.tmp []).write outputPath.tmp bytes)
        outputPath.tmp outputPath := by
  unfold mergeSstables at h
  split at h
  · simp at h
  · rename_i counted hcount
    split at h
    · simp only at h
      split at h
      · simp at h
      · rename_i iters hiters
        split at h
        · simp at h
        · rename_i bytes hbytes
          split at h
          · simp at h
          · rename_i hstop
            split at h
            · exact ⟨_, iters, bytes, mapErr_eq_ok.mp hiters, hbytes,
                (MergeIo.stop_eq_none.mp hstop).2, (Prod.mk.inj h).2.symm⟩
            · simp at h
    · simp at h

/-- Only the temporary file and, on success, the output are touched. -/
theorem mergeSstables_frame {S : BloomSizing} {H : MergeHeap} {io : MergeIo} {fs fs' : Fs}
    {readers : List SsTableReader} {outputPath : Path} {res : Res CompactionError Unit}
    (h : mergeSstables S H io fs readers outputPath = (res, fs')) {q : Path}
    (hq : q ≠ outputPath.tmp) (hout : res = .ok () → q ≠ outputPath) : fs' q = fs q := by
  unfold mergeSstables at h
  split at h
  · rw [← (Prod.mk.inj h).2]
  · split at h
    · simp only at h
      split at h
      · rw [← (Prod.mk.inj h).2, Fs.write_of_ne hq]
      · split at h
        · rw [← (Prod.mk.inj h).2, Fs.write_of_ne hq]
        · split at h
          · rw [← (Prod.mk.inj h).2, Fs.write_of_ne hq, Fs.write_of_ne hq]
          · split at h
            · obtain ⟨hres, rfl⟩ := Prod.mk.inj h
              rw [Fs.rename_of_ne hq (hout hres.symm), Fs.write_of_ne hq, Fs.write_of_ne hq]
            · rw [← (Prod.mk.inj h).2, Fs.write_of_ne hq, Fs.write_of_ne hq]
    · rw [← (Prod.mk.inj h).2]

/-- With nothing failing, the merge returns `Ok` if its file is one a file system
can hold. -/
theorem mergeSstables_whole {S : BloomSizing} {H : MergeHeap} (fs : Fs)
    {readers : List SsTableReader} (outputPath : Path) {bytes : Bytes}
    (hbytes : sstableBytes S ((readers.map SsTableReader.iter).map List.length).sum
      (merge H (readers.map SsTableReader.iter)) = some bytes)
    (hlen : bytes.length < 2 ^ 63) :
    (mergeSstables S H .whole fs readers outputPath).1 = .ok () := by
  have hstop : MergeIo.whole.stop bytes = none := MergeIo.stop_eq_none.mpr ⟨rfl, hlen⟩
  have hcount : passes MergeIo.whole.count readers = _ := passes_whole readers
  have hpass : passes MergeIo.whole.pass readers = _ := passes_whole readers
  have hcreate : MergeIo.whole.create = true := rfl
  have hrename : MergeIo.whole.rename = true := rfl
  unfold mergeSstables
  simp only [hcount, hpass, mapErr_ok, hcreate, hbytes, hstop, hrename, if_true]

/-! ### The merged file -/

/-- The file a merge finishes can be held by a file system. -/
def MergeFits (S : BloomSizing) (H : MergeHeap) (readers : List SsTableReader) : Prop :=
  ∀ bytes ∈ sstableBytes S ((readers.map SsTableReader.iter).map List.length).sum
    (merge H (readers.map SsTableReader.iter)), bytes.length < 2 ^ 63

/-- The record a key has in the first reader that holds the key. -/
def FirstIn (readers : List SsTableReader) (key : Key) (value : Value) : Prop :=
  ∃ before reader after, readers = before ++ reader :: after ∧ (key, value) ∈ reader.iter ∧
    ∀ other ∈ before, ∀ r ∈ other.iter, r.1 ≠ key

theorem firstIn_iff {readers : List SsTableReader} (hs : ∀ r ∈ readers, StrictSorted r.iter)
    {key : Key} {value : Value} :
    FirstIn readers key value ↔ firstHit (readers.map SsTableReader.iter) key = some value := by
  rw [firstHit, List.findSome?_map, List.findSome?_eq_some_iff, FirstIn]
  constructor
  · rintro ⟨before, reader, after, rfl, hmem, hbefore⟩
    have hreader := hs reader (List.mem_append_right _ List.mem_cons_self)
    exact ⟨before, reader, after, rfl, (lookup_eq_some_iff hreader).mpr hmem,
      fun other hother => lookup_eq_none_iff.mpr (hbefore other hother)⟩
  · rintro ⟨before, reader, after, rfl, hlookup, hbefore⟩
    exact ⟨before, reader, after, rfl, mem_of_lookup hlookup,
      fun other hother => lookup_eq_none_iff.mp (hbefore other hother)⟩

/-- **The merge is exact**, for every heap: it returns `Ok` when nothing fails; and after
an `Ok` the output is a sorted table of the records that the first reader with their key
has, tombstones left out. -/
theorem mergeSstables_exact (S : BloomSizing) (H : MergeHeap) (fs : Fs)
    (readers : List SsTableReader) (outputPath : Path) (hs : ∀ r ∈ readers, StrictSorted r.iter) :
    (MergeFits S H readers → (mergeSstables S H .whole fs readers outputPath).1 = .ok ()) ∧
      ∀ (io : MergeIo) (fs' : Fs), io.ReadsComplete →
        mergeSstables S H io fs readers outputPath = (.ok (), fs') →
        ∃ out, fs'.openSst outputPath = .ok out ∧ StrictSorted out.iter ∧
          ∀ key value, (key, value) ∈ out.iter ↔
            isTombstone value = false ∧ FirstIn readers key value := by
  have hiters : ∀ t ∈ readers.map SsTableReader.iter, StrictSorted t := by
    intro t ht
    obtain ⟨reader, hr, rfl⟩ := List.mem_map.mp ht
    exact hs reader hr
  refine ⟨fun hfits => ?_, fun io fs' hio hmerge => ?_⟩
  · obtain ⟨bytes, hbytes⟩ := sstableBytes_isSome S
      ((readers.map SsTableReader.iter).map List.length).sum
      (merge H (readers.map SsTableReader.iter))
    exact mergeSstables_whole fs outputPath hbytes (hfits bytes hbytes)
  · obtain ⟨n, iters, bytes, hpass, hbytes, hlen, rfl⟩ := mergeSstables_eq_ok hmerge
    obtain rfl := passes_eq_ok hio.pass hpass
    -- what was read from a file fits the length fields of the next
    have hshort : ∀ r ∈ merge H (readers.map SsTableReader.iter), ShortRecord r := by
      intro r hr
      obtain ⟨t, ht, hr⟩ := exists_of_mem_merge H hiters hr
      obtain ⟨reader, -, rfl⟩ := List.mem_map.mp ht
      exact SsTableReader.short_of_mem_iterFrom hr
    have hstored : Fs.Stored (Fs.rename ((fs.write outputPath.tmp []).write outputPath.tmp bytes)
        outputPath.tmp outputPath) outputPath (merge H (readers.map SsTableReader.iter)) :=
      ⟨bytes, Fs.rename_written _ _ _ _,
        stores_sstableBytes hbytes (merge_sorted H hiters) hshort hlen⟩
    obtain ⟨out, hopen, hiter, -⟩ := hstored.exists_reader
    refine ⟨out, hopen, hiter ▸ merge_sorted H hiters, fun key value => ?_⟩
    rw [hiter, mem_merge_iff H hiters, firstIn_iff hs]

/-- Two tables that share their keys: the first one overwrites one value and deletes the
other. -/
theorem mergeSstables_exact_two : ∃ (a b out : SsTableReader) (fs' : Fs),
    a.iter = [([1], [8]), ([2], tombstone)] ∧ b.iter = [([1], [9]), ([2], [7])] ∧
      mergeSstables .percent (.argmin _) .whole (fun _ => none) [a, b] ⟨[], Path.sst⟩ =
        (.ok (), fs') ∧
      fs'.openSst ⟨[], Path.sst⟩ = .ok out ∧ ([1], [8]) ∈ out.iter ∧ ∀ v, ([2], v) ∉ out.iter := by
  have hread : ∀ rs : List Record, StrictSorted rs → (∀ r ∈ rs, ShortRecord r) →
      (∀ bytes ∈ sstableBytes .percent 2 rs, bytes.length < 2 ^ 63) →
      ∃ reader : SsTableReader, reader.iter = rs := by
    intro rs hs hshort hlen
    obtain ⟨bytes, hbytes⟩ := sstableBytes_isSome .percent 2 rs
    obtain ⟨-, reader, -, hiter, -⟩ := stores_sstableBytes hbytes hs hshort (hlen bytes hbytes)
    exact ⟨reader, hiter⟩
  obtain ⟨a, ha⟩ := hread [([1], [8]), ([2], tombstone)] (by decide) (by decide) (by decide +kernel)
  obtain ⟨b, hb⟩ := hread [([1], [9]), ([2], [7])] (by decide) (by decide) (by decide +kernel)
  have hs : ∀ r ∈ [a, b], StrictSorted r.iter := by
    intro r hr
    rcases List.mem_pair.mp hr with rfl | rfl
    · rw [ha]
      decide
    · rw [hb]
      decide
  have hiters : [a, b].map SsTableReader.iter =
      [[([1], [8]), ([2], tombstone)], [([1], [9]), ([2], [7])]] := by
    rw [List.map_cons, List.map_cons, List.map_nil, ha, hb]
  obtain ⟨hok, hexact⟩ := mergeSstables_exact .percent (.argmin _) (fun _ => none) [a, b]
    ⟨[], Path.sst⟩ hs
  have hok := hok (by
    rw [MergeFits, hiters]
    decide +kernel)
  obtain ⟨out, hopen, -, hmem⟩ := hexact .whole _ ⟨fun _ => rfl, fun _ => rfl⟩ (Prod.ext hok rfl)
  refine ⟨a, b, out, _, ha, hb, Prod.ext hok rfl, hopen, ?_, fun v hv => ?_⟩
  · rw [hmem, firstIn_iff hs, hiters]
    decide
  · rw [hmem, firstIn_iff hs, hiters] at hv
    obtain ⟨hlive, hfirst⟩ := hv
    obtain rfl : tombstone = v := Option.some.inj hfirst
    exact absurd hlive (by decide)

end Tabula
