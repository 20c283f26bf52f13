import Tabula.SsTable.RoundTrip
import Mathlib.Logic.Function.Basic

/-!
# Paths and files

The part of the file system the store stands on: files by path, and the three
operations that change one – writing it, renaming it, removing it. A path is a
directory and a file name; the store only ever builds paths from a directory and
a name, and never looks into the directory's own path.

An SSTable is written under its name with the extension replaced by `tmp` and
renamed at the end, and every SSTable has the extension `sst`. So the temporary
file of one SSTable is never another SSTable (`Tabula.Path.not_named_tmp`).
-/

namespace Tabula

/-- `PathBuf`: the directory and the file name. -/
structure Path where
  parent : List Char
  name : List Char
  deriving DecidableEq, Repr

namespace Path

/-- The extension of an SSTable, as `discover_levels` looks for it. -/
def sst : List Char := ['.', 's', 's', 't']

/-- `with_file_name`. -/
def withFileName (p : Path) (name : List Char) : Path := ⟨p.parent, name⟩

/-- `file_stem`: the name up to its last dot; the whole name when there is no dot
behind its first character. -/
def fileStem (p : Path) : List Char :=
  let stem := (p.name.reverse.dropWhile (· ≠ '.')).tail.reverse
  if stem = [] then p.name else stem

/-- `with_extension`. -/
def withExtension (p : Path) (extension : List Char) : Path :=
  ⟨p.parent, p.fileStem ++ '.' :: extension⟩

/-- Where `SsTableWriter` writes before it renames. -/
def tmp (p : Path) : Path := p.withExtension ['t', 'm', 'p']

/-- The name ends with `.sst`. -/
def NamedSst (p : Path) : Prop := sst <:+ p.name

instance (p : Path) : Decidable p.NamedSst := inferInstanceAs (Decidable (sst <:+ p.name))

theorem not_named_tmp (p : Path) : ¬p.tmp.NamedSst := by
  rintro ⟨stem, h⟩
  have h := congrArg (List.take 4 ·.reverse) h
  simp [tmp, withExtension, sst] at h

/-- The temporary file of a path is no SSTable. -/
theorem NamedSst.ne_tmp {p : Path} (h : p.NamedSst) (q : Path) : p ≠ q.tmp := by
  rintro rfl
  exact q.not_named_tmp h

end Path

/-- The contents of every file there is. -/
abbrev Fs := Path → Option Bytes

namespace Fs

/-- The file of a path is created, or replaced. -/
def write (fs : Fs) (p : Path) (bytes : Bytes) : Fs := Function.update fs p (some bytes)

/-- `fs::remove_file`. -/
def remove (fs : Fs) (p : Path) : Fs := Function.update fs p none

/-- `fs::rename`, over whatever the new name had. -/
def rename (fs : Fs) (old new : Path) : Fs :=
  if old = new then fs else Fs.remove (Function.update fs new (fs old)) old

@[simp] theorem write_self (fs : Fs) (p : Path) (bytes : Bytes) :
    fs.write p bytes p = some bytes := Function.update_self ..

theorem write_of_ne {p q : Path} (h : q ≠ p) (fs : Fs) (bytes : Bytes) :
    fs.write p bytes q = fs q := Function.update_of_ne h ..

@[simp] theorem remove_self (fs : Fs) (p : Path) : fs.remove p p = none :=
  Function.update_self ..

theorem remove_of_ne {p q : Path} (h : q ≠ p) (fs : Fs) : fs.remove p q = fs q :=
  Function.update_of_ne h ..

theorem rename_new {old new : Path} (h : old ≠ new) (fs : Fs) :
    fs.rename old new new = fs old := by
  rw [rename, if_neg h, remove_of_ne (Ne.symm h), Function.update_self]

/-- A finished file is found under the name it is renamed to, also when that is its own. -/
theorem rename_written (fs : Fs) (old new : Path) (bytes : Bytes) :
    (fs.write old bytes).rename old new new = some bytes := by
  by_cases h : old = new
  · rw [h, rename, if_pos rfl, write_self]
  · rw [rename_new h, write_self]

theorem rename_old {old new : Path} (h : old ≠ new) (fs : Fs) : fs.rename old new old = none := by
  rw [rename, if_neg h, remove_self]

theorem rename_of_ne {old new q : Path} (ho : q ≠ old) (hn : q ≠ new) (fs : Fs) :
    fs.rename old new q = fs q := by
  rw [rename]
  split
  · rfl
  · rw [remove_of_ne ho, Function.update_of_ne hn]

/-! ### SSTable files -/

/-- `SsTableReader::open` of a path. -/
def openSst (fs : Fs) (p : Path) : Res SsTableError SsTableReader :=
  match fs p with
  | none => .error (.err .io)
  | some bytes => SsTableReader.open bytes

/-- The records a file yields when it is read from its start. -/
def records (fs : Fs) (p : Path) : List Record :=
  match fs.openSst p with
  | .ok reader => reader.iter
  | .error _ => []

/-- What has been read fits the length fields. -/
theorem short_of_mem_records {fs : Fs} {p : Path} {r : Record} (hr : r ∈ fs.records p) :
    ShortRecord r := by
  rw [records] at hr
  split at hr
  · exact SsTableReader.short_of_mem_iterFrom hr
  · simp at hr

theorem records_of_missing {fs : Fs} {p : Path} (h : fs p = none) : fs.records p = [] := by
  rw [records, openSst, h]

/-- A file that yields records can be opened. -/
theorem exists_reader_of_records {fs : Fs} {p : Path} (h : fs.records p ≠ []) :
    ∃ reader, fs.openSst p = .ok reader ∧ reader.iter = fs.records p := by
  rw [records] at h
  cases hopen : fs.openSst p with
  | error e =>
    rw [hopen] at h
    exact absurd rfl h
  | ok reader => exact ⟨reader, rfl, by rw [records, hopen]⟩

/-- **The file is there and completely written**: it has every byte that the writer writes
for some records. -/
def Written (S : BloomSizing) (fs : Fs) (p : Path) : Prop :=
  ∃ n records bytes, sstableBytes S n records = some bytes ∧ fs p = some bytes

theorem Written.congr {S : BloomSizing} {fs fs' : Fs} {p : Path} (h : fs.Written S p)
    (hp : fs' p = fs p) : fs'.Written S p := by
  obtain ⟨n, records, bytes, hbytes, hfs⟩ := h
  exact ⟨n, records, bytes, hbytes, hp.trans hfs⟩

theorem Written.ne_none {S : BloomSizing} {fs : Fs} {p : Path} (h : fs.Written S p) :
    fs p ≠ none := by
  obtain ⟨-, -, bytes, -, hfs⟩ := h
  rw [hfs]
  exact Option.some_ne_none bytes

/-- The file is there and is an SSTable of the records. -/
def Stored (fs : Fs) (p : Path) (rs : List Record) : Prop :=
  ∃ bytes, fs p = some bytes ∧ Stores bytes rs

/-- The file is there and is an SSTable. -/
def Complete (fs : Fs) (p : Path) : Prop := fs.Stored p (fs.records p)

/-- A file the writer has written, of a size a file can have. -/
theorem stored_of_written {fs : Fs} {p : Path} {S : BloomSizing} {n : ℕ} {rs : List Record}
    (h : fs p = sstableBytes S n rs) (hs : SortedTable.StrictSorted rs)
    (hshort : ∀ r ∈ rs, ShortRecord r)
    (hlen : ∀ bytes ∈ sstableBytes S n rs, bytes.length < 2 ^ 63) :
    fs.Stored p rs := by
  obtain ⟨bytes, hb⟩ := sstableBytes_isSome S n rs
  exact ⟨bytes, h.trans hb, stores_sstableBytes hb hs hshort (hlen bytes hb)⟩

theorem Stored.exists_reader {fs : Fs} {p : Path} {rs : List Record} (h : fs.Stored p rs) :
    ∃ reader, fs.openSst p = .ok reader ∧ reader.iter = rs ∧
      ∀ key, reader.getRaw key = .ok (SortedTable.lookup key rs) := by
  obtain ⟨bytes, hb, -, reader, hopen, hiter, hget⟩ := h
  exact ⟨reader, by simp only [openSst, hb, hopen], hiter, hget⟩

theorem Stored.records_eq {fs : Fs} {p : Path} {rs : List Record} (h : fs.Stored p rs) :
    fs.records p = rs := by
  obtain ⟨reader, hopen, hiter, -⟩ := h.exists_reader
  rw [records, hopen]
  exact hiter

theorem Stored.ne_none {fs : Fs} {p : Path} {rs : List Record} (h : fs.Stored p rs) :
    fs p ≠ none := by
  obtain ⟨bytes, hp, -⟩ := h
  rw [hp]
  exact Option.some_ne_none bytes

theorem Stored.complete {fs : Fs} {p : Path} {rs : List Record} (h : fs.Stored p rs) :
    fs.Complete p := by rwa [Complete, h.records_eq]

theorem Stored.sorted {fs : Fs} {p : Path} {rs : List Record} (h : fs.Stored p rs) :
    SortedTable.StrictSorted rs := by
  obtain ⟨bytes, -, hs⟩ := h
  exact hs.sorted

theorem Stored.short {fs : Fs} {p : Path} {rs : List Record} (h : fs.Stored p rs) :
    ∀ r ∈ rs, ShortRecord r := by
  obtain ⟨bytes, -, hs⟩ := h
  exact hs.short

/-- Only the bytes under the path matter. -/
theorem records_congr {fs fs' : Fs} {p : Path} (h : fs' p = fs p) :
    fs'.records p = fs.records p := by
  rw [records, records, openSst, openSst, h]

theorem Stored.congr {fs fs' : Fs} {p : Path} {rs : List Record} (hp : fs.Stored p rs)
    (h : fs' p = fs p) : fs'.Stored p rs := by
  obtain ⟨bytes, hb, hs⟩ := hp
  exact ⟨bytes, h.trans hb, hs⟩

theorem Complete.congr {fs fs' : Fs} {p : Path} (hp : fs.Complete p) (h : fs' p = fs p) :
    fs'.Complete p := (Stored.congr hp h).complete

end Fs

end Tabula
