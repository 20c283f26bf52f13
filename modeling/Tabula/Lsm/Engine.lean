import Tabula.Lib.Runs
import Tabula.Lsm.Open

/-!
# The store as threads see it

`Lsm` (`src/lsm.rs`) in the hands of any number of threads. A call of `set`,
`delete` or `get` goes through a handful of sections, each under a lock of its own,
and between two sections of one thread any other thread may run. A step of
`Tabula.Step` is one such section, or one operation on a file of a flush, which
holds the WAL lock from the swap of the MemTable to the truncate of the log; the
locks that are held for one section only do not appear.

The other steps are a compaction, by the background thread, under the levels lock; a
restart, which is a crash and the `Lsm::open` after it; and the ways in which an
append or a flush fails.

What has happened is recorded as a list of events, which no step looks at. The log
file is kept apart from the other files: its name is no SSTable's.
-/

namespace Tabula

/-- What a store is opened with. -/
structure Config where
  dir : List Char
  sizing : BloomSizing
  heap : MergeHeap
  /-- `flush_threshold`. -/
  threshold : ℕ

/-- A store in the directory of the process. -/
def Config.ofThreshold (threshold : ℕ) : Config := ⟨[], .percent, .argmin _, threshold⟩

/-- `next_sstable_path` at a reading of the clock. -/
def Config.nextSstablePath (cfg : Config) (now : ℕ) : Path := ⟨cfg.dir, FileName.l0Name now⟩

/-- What a thread calls: `set` and `delete` are the `write` of the entry they log. -/
inductive Op where
  | write (e : WalEntry) : Op
  | get (key : Key) : Op
  deriving DecidableEq

/-- A MemTable that a flush has swapped out, and where it goes. -/
structure Swapped where
  path : Path
  old : MemTable
  /-- How many MemTables were swapped out before it. -/
  age : ℕ
  deriving DecidableEq

/-- Where a thread is in `flush_memtable`. -/
inductive Flush where
  | start : Flush
  /-- It has its path and waits for the WAL lock. -/
  | named (path : Path) : Flush
  /-- It holds the WAL lock, up to the truncate. -/
  | swapped (w : Swapped) : Flush
  /-- The temporary file exists. -/
  | writing (w : Swapped) : Flush
  /-- The temporary file is complete. -/
  | written (w : Swapped) : Flush
  | renamed (w : Swapped) : Flush
  /-- The WAL lock is free again; the file is not in L0 yet. -/
  | truncated (w : Swapped) : Flush
  deriving DecidableEq

/-- The MemTable a thread has swapped out, until its file is in L0. -/
@[simp] def Flush.out : Flush → Option Swapped
  | start | named _ => none
  | swapped w | writing w | written w | renamed w | truncated w => some w

/-- The same, as long as the thread holds the WAL lock. -/
@[simp] def Flush.held : Flush → Option Swapped
  | start | named _ | truncated _ => none
  | swapped w | writing w | written w | renamed w => some w

/-- Where a thread is. -/
inductive Pc where
  | idle : Pc
  /-- In `set` or `delete`, before the append. -/
  | logging (e : WalEntry) : Pc
  /-- In `set` or `delete`, between the append and the MemTable. -/
  | logged (e : WalEntry) : Pc
  | flushing (e : WalEntry) (f : Flush) : Pc
  /-- In `get`, before the MemTable. -/
  | reading (key : Key) : Pc
  /-- In `get`, between the MemTable and the levels. -/
  | missed (key : Key) : Pc
  deriving DecidableEq

@[simp] def Pc.out : Pc → Option Swapped
  | idle | logging _ | logged _ | reading _ | missed _ => none
  | flushing _ f => f.out

@[simp] def Pc.held : Pc → Option Swapped
  | idle | logging _ | logged _ | reading _ | missed _ => none
  | flushing _ f => f.held

theorem Pc.out_of_held {pc : Pc} {w : Swapped} (h : pc.held = some w) : pc.out = some w := by
  cases pc with
  | flushing e f => cases f <;> simp_all
  | _ => simp at h

/-- Where a call begins. -/
def Op.begin : Op → Pc
  | write e => .logging e
  | get key => .reading key

inductive Event (T : Type) where
  | called (t : T) (op : Op) : Event T
  | appended (t : T) (e : WalEntry) : Event T
  | inserted (t : T) (e : WalEntry) : Event T
  /-- A flush has taken its path. -/
  | clock (t : T) (now : ℕ) : Event T
  | swapped (t : T) : Event T
  | truncated (t : T) : Event T
  | published (t : T) (w : Swapped) : Event T
  /-- `set` or `delete` has returned `Ok`. -/
  | acked (t : T) (e : WalEntry) : Event T
  /-- `set` or `delete` has returned `Err`. -/
  | failed (t : T) (e : WalEntry) : Event T
  /-- `get` has returned. -/
  | answered (t : T) (key : Key) (answer : Res LsmError (Option Value)) : Event T
  | compacted : Event T
  | restarted : Event T
  deriving DecidableEq

/-- The store and its threads. -/
structure Sys (T : Type) where
  wal : Bytes
  fs : Fs
  mem : MemTable
  levels : LevelManager
  /-- The flush that holds the WAL lock. -/
  lock : Option T
  pc : T → Pc
  hist : List (Event T)

/-- What can happen next. -/
inductive Act (T : Type) where
  | call (t : T) (op : Op) : Act T
  | append (t : T) : Act T
  | insert (t : T) : Act T
  | name (t : T) (now : ℕ) : Act T
  | swap (t : T) : Act T
  | create (t : T) : Act T
  | write (t : T) (n : ℕ) : Act T
  | finish (t : T) : Act T
  | rename (t : T) : Act T
  | truncate (t : T) : Act T
  | publish (t : T) : Act T
  | look (t : T) : Act T
  | search (t : T) : Act T
  | compact (io : CompactIo) (now : ℕ) : Act T
  | restart (listing : List Path) : Act T
  | appendFails (t : T) (n : ℕ) : Act T
  | flushFails (t : T) : Act T
  | truncateFails (t : T) : Act T

namespace Sys

variable {T : Type}

/-- `Lsm::open` of an empty directory. -/
def init : Sys T := ⟨[], fun _ => none, .new, ⟨[[], []]⟩, none, fun _ => .idle, []⟩

/-- How many MemTables were swapped out. -/
def swaps (hist : List (Event T)) : ℕ := hist.countP fun
  | .swapped _ => true
  | _ => false

variable [DecidableEq T] (s : Sys T) (t : T)

def goto (pc : Pc) : Sys T := { s with pc := Function.update s.pc t pc }

/-! ### The sections of a call -/

def call (op : Op) : Sys T :=
  { s.goto t op.begin with hist := s.hist ++ [.called t op] }

/-- `wal.append(..)?` under the WAL lock. -/
def append (e : WalEntry) : Sys T :=
  { s.goto t (.logged e) with
    wal := Wal.append s.wal e
    hist := s.hist ++ [.appended t e] }

/-- The write to the MemTable when `needs_flush` comes out false, and the return. -/
def insert (e : WalEntry) : Sys T :=
  { s.goto t .idle with
    mem := s.mem.apply e
    hist := s.hist ++ [.inserted t e, .acked t e] }

/-- The write to the MemTable when `needs_flush` comes out true. -/
def fill (e : WalEntry) : Sys T :=
  { s.goto t (.flushing e .start) with
    mem := s.mem.apply e
    hist := s.hist ++ [.inserted t e] }

/-- `next_sstable_path()`. -/
def name (cfg : Config) (e : WalEntry) (now : ℕ) : Sys T :=
  { s.goto t (.flushing e (.named (cfg.nextSstablePath now))) with
    hist := s.hist ++ [.clock t now] }

/-- `wal.lock()` and `mem::replace(&mut *mem, MemTable::new())`. -/
def swap (e : WalEntry) (p : Path) : Sys T :=
  { s.goto t (.flushing e (.swapped ⟨p, s.mem, swaps s.hist⟩)) with
    lock := some t
    mem := .new
    hist := s.hist ++ [.swapped t] }

/-- `SsTableWriter::new`, which creates the temporary file. -/
def create (e : WalEntry) (w : Swapped) : Sys T :=
  { s.goto t (.flushing e (.writing w)) with fs := s.fs.write w.path.tmp [] }

/-- The temporary file, with some of its bytes written. -/
def write (e : WalEntry) (w : Swapped) (bytes : Bytes) : Sys T :=
  { s.goto t (.flushing e (.writing w)) with fs := s.fs.write w.path.tmp bytes }

/-- The temporary file, complete. -/
def finish (e : WalEntry) (w : Swapped) (bytes : Bytes) : Sys T :=
  { s.goto t (.flushing e (.written w)) with fs := s.fs.write w.path.tmp bytes }

/-- `fs::rename` at the end of `SsTableWriter::finish`. -/
def rename (e : WalEntry) (w : Swapped) : Sys T :=
  { s.goto t (.flushing e (.renamed w)) with fs := s.fs.rename w.path.tmp w.path }

/-- `wal.truncate()?` and `drop(wal)`. -/
def truncate (e : WalEntry) (w : Swapped) : Sys T :=
  { s.goto t (.flushing e (.truncated w)) with
    wal := Wal.truncate s.wal
    lock := none
    hist := s.hist ++ [.truncated t] }

/-- `add_l0_file` under the levels lock, and the return. -/
def publish (e : WalEntry) (w : Swapped) : Sys T :=
  { s.goto t .idle with
    levels := s.levels.addL0File w.path
    hist := s.hist ++ [.published t w, .acked t e] }

/-- The return of `get`. -/
def answer (key : Key) (r : Res LsmError (Option Value)) : Sys T :=
  { s.goto t .idle with hist := s.hist ++ [.answered t key r] }

/-! ### The other steps -/

/-- One compaction by the background thread, whatever it returns. -/
def compact (cfg : Config) (io : CompactIo) (now : ℕ) : Sys T :=
  let (_, levels, fs) := s.levels.compact cfg.sizing cfg.heap io now s.fs
  { s with levels := levels, fs := fs, hist := s.hist ++ [.compacted] }

/-- A crash, and what `Lsm::open` finds. -/
def restart (mem : MemTable) (levels : LevelManager) : Sys T :=
  { s with
    mem := mem
    levels := levels
    lock := none
    pc := fun _ => .idle
    hist := s.hist ++ [.restarted] }

/-- An append that returns `Err` with `n` bytes of the entry in the file. -/
def appendFails (e : WalEntry) (n : ℕ) : Sys T :=
  { s.goto t .idle with wal := Wal.appendTorn s.wal e n, hist := s.hist ++ [.failed t e] }

/-- A `?` of `flush_memtable` between the swap and the truncate: the swapped-out
MemTable is dropped. -/
def flushFails (e : WalEntry) : Sys T :=
  { s.goto t .idle with lock := none, hist := s.hist ++ [.failed t e] }

/-- `truncate` returns `Err` from its `seek`, after `set_len(0)`. -/
def truncateFails (e : WalEntry) : Sys T :=
  { s.goto t .idle with
    wal := Wal.truncate s.wal
    lock := none
    hist := s.hist ++ [.truncated t, .failed t e] }

end Sys

/-! ### Steps -/

variable {T : Type} [DecidableEq T]

/-- **One step**: what has to hold before it, and the state after it. -/
inductive Step (cfg : Config) (s : Sys T) : Act T → Sys T → Prop
  | call {t op} (h : s.pc t = .idle) : Step cfg s (.call t op) (s.call t op)
  | append {t e} (h : s.pc t = .logging e) (hlock : s.lock = none) :
      Step cfg s (.append t) (s.append t e)
  | insert {t e} (h : s.pc t = .logged e) (hsize : (s.mem.apply e).sizeBytes < cfg.threshold) :
      Step cfg s (.insert t) (s.insert t e)
  | fill {t e} (h : s.pc t = .logged e) (hsize : cfg.threshold ≤ (s.mem.apply e).sizeBytes) :
      Step cfg s (.insert t) (s.fill t e)
  | name {t e now} (h : s.pc t = .flushing e .start) : Step cfg s (.name t now) (s.name t cfg e now)
  | swap {t e p} (h : s.pc t = .flushing e (.named p)) (hlock : s.lock = none) :
      Step cfg s (.swap t) (s.swap t e p)
  | create {t e w} (h : s.pc t = .flushing e (.swapped w)) :
      Step cfg s (.create t) (s.create t e w)
  | write {t e w n bytes} (h : s.pc t = .flushing e (.writing w))
      (hbytes : w.old.flushBytes cfg.sizing = some bytes) :
      Step cfg s (.write t n) (s.write t e w (bytes.take n))
  | finish {t e w bytes} (h : s.pc t = .flushing e (.writing w))
      (hbytes : w.old.flushBytes cfg.sizing = some bytes) (hlen : bytes.length < 2 ^ 63) :
      Step cfg s (.finish t) (s.finish t e w bytes)
  | rename {t e w} (h : s.pc t = .flushing e (.written w)) :
      Step cfg s (.rename t) (s.rename t e w)
  | truncate {t e w} (h : s.pc t = .flushing e (.renamed w)) :
      Step cfg s (.truncate t) (s.truncate t e w)
  | publish {t e w} (h : s.pc t = .flushing e (.truncated w)) :
      Step cfg s (.publish t) (s.publish t e w)
  | hit {t key value} (h : s.pc t = .reading key) (hget : s.mem.get key = some value) :
      Step cfg s (.look t) (s.answer t key (.ok (visible (some value))))
  | miss {t key} (h : s.pc t = .reading key) (hget : s.mem.get key = none) :
      Step cfg s (.look t) (s.goto t (.missed key))
  | search {t key} (h : s.pc t = .missed key) :
      Step cfg s (.search t) (s.answer t key (searchLevels s.fs s.levels key))
  | compact {io now} : Step cfg s (.compact io now) (s.compact cfg io now)
  | restart {listing mem levels} (hl : s.fs.Lists cfg.dir listing)
      (hopen : Lsm.open (some s.wal) listing = .ok (mem, levels)) :
      Step cfg s (.restart listing) (s.restart mem levels)
  | appendFails {t e n} (h : s.pc t = .logging e) (hlock : s.lock = none)
      (hn : n < e.encode.length) : Step cfg s (.appendFails t n) (s.appendFails t e n)
  | flushFails {t e f} (h : s.pc t = .flushing e f) (hheld : f.held ≠ none) :
      Step cfg s (.flushFails t) (s.flushFails t e)
  | truncateFails {t e w} (h : s.pc t = .flushing e (.renamed w)) :
      Step cfg s (.truncateFails t) (s.truncateFails t e)

/-- The record only grows. -/
theorem Step.hist_grows {cfg : Config} {s s' : Sys T} {a : Act T} (h : Step cfg s a s') :
    s.hist <+: s'.hist := by
  cases h with
  | create | write | finish | rename | miss => exact List.prefix_rfl
  | call | append | insert | fill | name | swap | truncate | publish | hit | search | compact
  | restart | appendFails | flushFails | truncateFails => exact List.prefix_append _ _

/-- What has been called is on record. -/
theorem Step.called_mem {cfg : Config} {s s' : Sys T} {t : T} {op : Op}
    (h : Step cfg s (.call t op) s') : .called t op ∈ s'.hist := by
  cases h with
  | call => exact List.mem_append_right _ (List.mem_singleton_self _)

/-- What a `get` returns, it has from the MemTable or from the levels. -/
theorem Step.answered {cfg : Config} {s s' : Sys T} {a : Act T} {t : T} {key : Key}
    {r : Res LsmError (Option Value)} (h : Step cfg s a s')
    (hr : s'.hist = s.hist ++ [.answered t key r]) :
    (s.pc t = .reading key ∧ ∃ value, s.mem.get key = some value ∧ r = .ok (visible (some value))) ∨
      (a = .search t ∧ s.pc t = .missed key ∧ r = searchLevels s.fs s.levels key) := by
  cases h with
  | create | write | finish | rename | miss => simp [Sys.create, Sys.write, Sys.finish, Sys.rename,
      Sys.goto] at hr
  | @hit t' key' value hpc hget =>
    obtain ⟨rfl, rfl, rfl⟩ : t' = t ∧ key' = key ∧ _ = r := by simpa [Sys.answer] using hr
    exact Or.inl ⟨hpc, value, hget, rfl⟩
  | @search t' key' hpc =>
    obtain ⟨rfl, rfl, rfl⟩ : t' = t ∧ key' = key ∧ _ = r := by simpa [Sys.answer] using hr
    exact Or.inr ⟨rfl, hpc, rfl⟩
  | call | append | insert | fill | name | swap | truncate | publish | compact | restart
  | appendFails | flushFails | truncateFails =>
    simp [Sys.call, Sys.append, Sys.insert, Sys.fill, Sys.name, Sys.swap, Sys.truncate, Sys.publish,
      Sys.compact, Sys.restart, Sys.appendFails, Sys.flushFails, Sys.truncateFails] at hr

/-- A step that answers a `get` puts nothing else on record. -/
theorem Step.eq_nil_of_answered {cfg : Config} {s s' : Sys T} {a : Act T} {t : T} {key : Key}
    {r : Res LsmError (Option Value)} {evs evs' : List (Event T)} (h : Step cfg s a s')
    (hr : s'.hist = s.hist ++ (evs ++ .answered t key r :: evs')) : evs = [] ∧ evs' = [] := by
  have hone : ∀ {new : List (Event T)},
      s.hist ++ new = s.hist ++ (evs ++ .answered t key r :: evs') →
      new.length = 1 → evs = [] ∧ evs' = [] := by
    intro new hnew hlen
    rw [List.append_cancel_left hnew, List.length_append, List.length_cons] at hlen
    exact ⟨List.eq_nil_of_length_eq_zero (by omega), List.eq_nil_of_length_eq_zero (by omega)⟩
  cases h with
  | create | write | finish | rename | miss => simp [Sys.create, Sys.write, Sys.finish, Sys.rename,
      Sys.goto] at hr
  | call | append | fill | name | swap | truncate | hit | search | compact | restart | appendFails
  | flushFails => exact hone hr rfl
  | insert | publish | truncateFails =>
    have hm : .answered t key r ∈ evs ++ .answered t key r :: evs' :=
      List.mem_append_right _ List.mem_cons_self
    rw [← List.append_cancel_left hr] at hm
    simp at hm

/-- A write is acknowledged behind its insert, or behind the publication of a file. -/
theorem Step.eq_of_acked {cfg : Config} {s s' : Sys T} {a : Act T} {t : T} {e : WalEntry}
    {evs evs' : List (Event T)} (h : Step cfg s a s')
    (hr : s'.hist = s.hist ++ (evs ++ .acked t e :: evs')) :
    (s.pc t = .logged e ∧ evs = [.inserted t e]) ∨
      ∃ w, s.pc t = .flushing e (.truncated w) ∧ evs = [.published t w] := by
  have htwo : ∀ {ev ev' : Event T}, s.hist ++ [ev, ev'] = s.hist ++ (evs ++ .acked t e :: evs') →
      (∀ t e, ev ≠ .acked t e) → evs = [ev] ∧ ev' = .acked t e := by
    intro ev ev' hnew hne
    have hnew := List.append_cancel_left hnew
    rcases evs with - | ⟨ev₁, - | ⟨ev₂, evs⟩⟩
    · exact absurd (List.cons.inj hnew).1 (hne t e)
    · obtain ⟨rfl, hrest⟩ := List.cons.inj hnew
      exact ⟨rfl, (List.cons.inj hrest).1⟩
    · simpa using congrArg List.length hnew
  have hnone : ∀ {new : List (Event T)},
      s.hist ++ new = s.hist ++ (evs ++ .acked t e :: evs') → .acked t e ∈ new := by
    intro new hnew
    rw [List.append_cancel_left hnew]
    exact List.mem_append_right _ List.mem_cons_self
  cases h with
  | create | write | finish | rename | miss => simp [Sys.create, Sys.write, Sys.finish, Sys.rename,
      Sys.goto] at hr
  | insert hpc =>
    obtain ⟨rfl, hacked⟩ := htwo hr (by simp)
    obtain ⟨rfl, rfl⟩ := Event.acked.inj hacked
    exact Or.inl ⟨hpc, rfl⟩
  | publish hpc =>
    obtain ⟨rfl, hacked⟩ := htwo hr (by simp)
    obtain ⟨rfl, rfl⟩ := Event.acked.inj hacked
    exact Or.inr ⟨_, hpc, rfl⟩
  | call | append | fill | name | swap | truncate | hit | search | compact | restart | appendFails
  | flushFails | truncateFails => simpa using hnone hr

namespace Act

/-- No I/O fails, and there is no compaction. -/
def Succeeds : Act T → Prop
  | compact _ _ | appendFails _ _ | flushFails _ | truncateFails _ => False
  | _ => True

/-- Nor is there a crash: `set`, `delete`, `get` and `flush_memtable` only. -/
def Serves : Act T → Prop
  | compact _ _ | appendFails _ _ | flushFails _ | truncateFails _ | restart _ => False
  | _ => True

/-- No append leaves a part of its entry behind. -/
def Whole : Act T → Prop
  | appendFails _ n => n = 0
  | _ => True

omit [DecidableEq T] in
theorem Succeeds.whole {a : Act T} (h : a.Succeeds) : a.Whole := by
  cases a with
  | appendFails => exact h.elim
  | _ => trivial

omit [DecidableEq T] in
theorem Serves.succeeds {a : Act T} (h : a.Serves) : a.Succeeds := by
  cases a <;> trivial

/-- **What is written fits the length fields.** -/
def Fits : Act T → Prop
  | call _ (.write e) => e.IsShort
  | _ => True

instance : (a : Act T) → Decidable a.Fits
  | .call _ (.write e) => inferInstanceAs (Decidable e.IsShort)
  | .call _ (.get _) | .append _ | .insert _ | .name _ _ | .swap _ | .create _ | .write _ _
  | .finish _ | .rename _ | .truncate _ | .publish _ | .look _ | .search _ | .compact _ _
  | .restart _ | .appendFails _ _ | .flushFails _ | .truncateFails _ => .isTrue trivial

end Act

/-! ### Schedules -/

namespace Sys

/-- The steps of threads, computed: a schedule can be run to see where it leads. -/
def next (cfg : Config) (s : Sys T) : Act T → Option (Sys T)
  | .call t op => if s.pc t = .idle then some (s.call t op) else none
  | .append t =>
      match s.pc t, s.lock with
      | .logging e, none => some (s.append t e)
      | _, _ => none
  | .insert t =>
      match s.pc t with
      | .logged e =>
          if (s.mem.apply e).sizeBytes < cfg.threshold then some (s.insert t e)
          else some (s.fill t e)
      | _ => none
  | .name t now =>
      match s.pc t with
      | .flushing e .start => some (s.name t cfg e now)
      | _ => none
  | .swap t =>
      match s.pc t, s.lock with
      | .flushing e (.named p), none => some (s.swap t e p)
      | _, _ => none
  | .create t =>
      match s.pc t with
      | .flushing e (.swapped w) => some (s.create t e w)
      | _ => none
  | .write t n =>
      match s.pc t with
      | .flushing e (.writing w) =>
          (w.old.flushBytes cfg.sizing).map fun bytes => s.write t e w (bytes.take n)
      | _ => none
  | .finish t =>
      match s.pc t with
      | .flushing e (.writing w) =>
          (w.old.flushBytes cfg.sizing).bind fun bytes =>
            if bytes.length < 2 ^ 63 then some (s.finish t e w bytes) else none
      | _ => none
  | .rename t =>
      match s.pc t with
      | .flushing e (.written w) => some (s.rename t e w)
      | _ => none
  | .truncate t =>
      match s.pc t with
      | .flushing e (.renamed w) => some (s.truncate t e w)
      | _ => none
  | .publish t =>
      match s.pc t with
      | .flushing e (.truncated w) => some (s.publish t e w)
      | _ => none
  | .look t =>
      match s.pc t with
      | .reading key =>
          match s.mem.get key with
          | some value => some (s.answer t key (.ok (visible (some value))))
          | none => some (s.goto t (.missed key))
      | _ => none
  | .search t =>
      match s.pc t with
      | .missed key => some (s.answer t key (searchLevels s.fs s.levels key))
      | _ => none
  | _ => none

theorem step_of_next {cfg : Config} {s s' : Sys T} {a : Act T} (h : s.next cfg a = some s') :
    Step cfg s a s' ∧ a.Serves := by
  refine ⟨?_, by cases a <;> trivial⟩
  -- what `next` tests for an action is what the step of that action asks for
  cases a with
  | call t op =>
    simp only [next] at h
    split at h
    · rename_i hpc
      obtain rfl := Option.some.inj h
      exact .call hpc
    · simp at h
  | append t =>
    simp only [next] at h
    split at h
    · rename_i hpc hlock
      obtain rfl := Option.some.inj h
      exact .append hpc hlock
    · simp at h
  | insert t =>
    simp only [next] at h
    split at h
    · rename_i hpc
      split at h
      · rename_i hsize
        obtain rfl := Option.some.inj h
        exact .insert hpc hsize
      · rename_i hsize
        obtain rfl := Option.some.inj h
        exact .fill hpc (not_lt.mp hsize)
    · simp at h
  | name t now =>
    simp only [next] at h
    split at h
    · rename_i hpc
      obtain rfl := Option.some.inj h
      exact .name hpc
    · simp at h
  | swap t =>
    simp only [next] at h
    split at h
    · rename_i hpc hlock
      obtain rfl := Option.some.inj h
      exact .swap hpc hlock
    · simp at h
  | create t =>
    simp only [next] at h
    split at h
    · rename_i hpc
      obtain rfl := Option.some.inj h
      exact .create hpc
    · simp at h
  | write t n =>
    simp only [next] at h
    split at h
    · rename_i hpc
      obtain ⟨bytes, hbytes, rfl⟩ := Option.map_eq_some_iff.mp h
      exact .write hpc hbytes
    · simp at h
  | finish t =>
    simp only [next] at h
    split at h
    · rename_i hpc
      obtain ⟨bytes, hbytes, h⟩ := Option.bind_eq_some_iff.mp h
      split at h
      · rename_i hlen
        obtain rfl := Option.some.inj h
        exact .finish hpc hbytes hlen
      · simp at h
    · simp at h
  | rename t =>
    simp only [next] at h
    split at h
    · rename_i hpc
      obtain rfl := Option.some.inj h
      exact .rename hpc
    · simp at h
  | truncate t =>
    simp only [next] at h
    split at h
    · rename_i hpc
      obtain rfl := Option.some.inj h
      exact .truncate hpc
    · simp at h
  | publish t =>
    simp only [next] at h
    split at h
    · rename_i hpc
      obtain rfl := Option.some.inj h
      exact .publish hpc
    · simp at h
  | look t =>
    simp only [next] at h
    split at h
    · rename_i hpc
      split at h
      · rename_i hget
        obtain rfl := Option.some.inj h
        exact .hit hpc hget
      · rename_i hget
        obtain rfl := Option.some.inj h
        exact .miss hpc hget
    · simp at h
  | search t =>
    simp only [next] at h
    split at h
    · rename_i hpc
      obtain rfl := Option.some.inj h
      exact .search hpc
    · simp at h
  | compact | restart | appendFails | flushFails | truncateFails => simp [next] at h

/-- A schedule, step by step, as far as its steps meet a condition. -/
def nexts (cfg : Config) (G : Sys T → Act T → Prop) [∀ s a, Decidable (G s a)] (s : Sys T)
    (as : List (Act T)) : Option (Sys T) :=
  as.foldlM (fun s a => if G s a then s.next cfg a else none) s

/-- **A schedule that can be computed is a run.** -/
theorem run_of_nexts {cfg : Config} {G : Sys T → Act T → Prop} [∀ s a, Decidable (G s a)]
    {s s' : Sys T} {as : List (Act T)} (h : s.nexts cfg G as = some s') :
    Runs.Run (Runs.Guarded (Step cfg) fun s a => a.Serves ∧ G s a) s as s' := by
  induction as generalizing s with
  | nil =>
    obtain rfl := Option.some.inj h
    exact .nil
  | cons a as ih =>
    rw [nexts, List.foldlM_cons] at h
    obtain ⟨s₁, h₁, h⟩ := Option.bind_eq_some_iff.mp h
    split at h₁
    · rename_i hG
      obtain ⟨hs, ha⟩ := step_of_next h₁
      exact (Runs.Run.single ⟨hs, ha, hG⟩).trans (ih h)
    · simp at h₁

/-- A schedule that leads to a state with a property. -/
theorem exists_of_nexts (cfg : Config) (G : Sys T → Act T → Prop) [∀ s a, Decidable (G s a)]
    (s : Sys T) (as : List (Act T)) (P : Sys T → Prop) [DecidablePred P]
    (h : (s.nexts cfg G as).any (fun s' => decide (P s')) = true) :
    ∃ s', Runs.Run (Runs.Guarded (Step cfg) fun s a => a.Serves ∧ G s a) s as s' ∧ P s' := by
  cases hs : s.nexts cfg G as with
  | none =>
    rw [hs, Option.any_none] at h
    exact absurd h Bool.false_ne_true
  | some s' =>
    rw [hs, Option.any_some] at h
    exact ⟨s', run_of_nexts hs, of_decide_eq_true h⟩

end Sys

end Tabula
