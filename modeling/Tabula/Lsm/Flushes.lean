import Tabula.Lsm.Engine

/-!
# What flushes leave on disk

Three facts about every run, which all results about the threads are built from.

* The log file is the entries appended since the last truncate (`Tabula.Sys.Logged`).
* The WAL lock is held by the one flush between its swap and its truncate
  (`Tabula.Sys.Locked`).
* Every `.sst` file is a flushed MemTable, complete, and so is every file of L0; what
  all swapped-out MemTables have in common, all these files have
  (`Tabula.Sys.Flushed`). This does not depend on the clock: a flush that takes the
  path of another one replaces its file by a complete one.
-/

namespace Tabula

open SortedTable

variable {T : Type} {cfg : Config}

/-- What a step makes of the threads: one is moved, the others stay. -/
theorem forall_goto [DecidableEq T] {s : Sys T} {P : T → Pc → Prop} {t : T} {pc : Pc} (ht : P t pc)
    (hother : ∀ t', t' ≠ t → P t' (s.pc t')) : ∀ t', P t' ((s.goto t pc).pc t') :=
  (Function.forall_update_iff s.pc P).mpr ⟨ht, hother⟩

/-! ### The log -/

/-- What an event makes of the entries in the log. -/
def Event.logs (es : List WalEntry) : Event T → List WalEntry
  | appended _ e => es ++ [e]
  | truncated _ => []
  | _ => es

namespace Sys

/-- The entries in the log: those appended since the last truncate. -/
def log (hist : List (Event T)) : List WalEntry := hist.foldl Event.logs []

@[simp] theorem log_append (hist evs : List (Event T)) :
    log (hist ++ evs) = evs.foldl Event.logs (log hist) := List.foldl_append

/-- **The log file holds these entries**, one after the other. -/
def Logged (s : Sys T) : Prop := s.wal = Wal.encodeAll (log s.hist)

variable [DecidableEq T] {s s' : Sys T} {a : Act T}

/-- Only an append and a truncate change the log. -/
theorem log_step_whole (hs : Step cfg s a s') (ha : a.Whole) (happend : ∀ t, a ≠ .append t)
    (htruncate : ∀ t, a ≠ .truncate t ∧ a ≠ .truncateFails t) :
    log s'.hist = log s.hist ∧ s'.wal = s.wal := by
  cases hs with
  | append => exact absurd rfl (happend _)
  | truncate => exact absurd rfl (htruncate _).1
  | truncateFails => exact absurd rfl (htruncate _).2
  | create | write | finish | rename | miss => exact ⟨rfl, rfl⟩
  | call | insert | fill | name | swap | publish | hit | search | restart | compact | flushFails =>
    exact ⟨(log_append _ _).trans rfl, rfl⟩
  | appendFails =>
    obtain rfl := ha
    exact ⟨(log_append _ _).trans rfl, List.append_nil _⟩

theorem log_step (hs : Step cfg s a s') (ha : a.Succeeds) (happend : ∀ t, a ≠ .append t)
    (htruncate : ∀ t, a ≠ .truncate t) : log s'.hist = log s.hist ∧ s'.wal = s.wal := by
  refine log_step_whole hs ha.whole happend fun t => ⟨htruncate t, ?_⟩
  rintro rfl
  exact ha

theorem Logged.step (h : s.Logged) (hs : Step cfg s a s') (ha : a.Whole) : s'.Logged := by
  have hsame := log_step_whole hs ha
  cases hs with
  | @append t e hpc hlock =>
    have hlog : log (s.append t e).hist = log s.hist ++ [e] := log_append _ _
    rw [Logged, hlog, ← Wal.append_encodeAll, ← h]
    rfl
  | @truncate t e w hpc =>
    have hlog : log (s.truncate t e w).hist = [] := log_append _ _
    rw [Logged, hlog]
    rfl
  | @truncateFails t e w hpc =>
    have hlog : log (s.truncateFails t e).hist = [] := log_append _ _
    rw [Logged, hlog]
    rfl
  | _ =>
    obtain ⟨hlog, hwal⟩ := hsame (by simp) (by simp)
    rw [Logged, hlog, hwal, h]

end Sys

/-! ### The WAL lock -/

/-- **The WAL lock is held from a swap to its truncate**, and at no other time. -/
def Sys.Locked (s : Sys T) : Prop := ∀ t, (s.pc t).held ≠ none ↔ s.lock = some t

namespace Sys.Locked

/-- Two threads that hold the lock are one. -/
theorem eq_of_held {s : Sys T} (h : s.Locked) {t t' : T} (ht : (s.pc t).held ≠ none)
    (ht' : (s.pc t').held ≠ none) : t = t' :=
  Option.some.inj (((h t).mp ht).symm.trans ((h t').mp ht'))

theorem held_eq_none {s : Sys T} (h : s.Locked) (hlock : s.lock = none) (t : T) :
    (s.pc t).held = none := by
  by_contra hheld
  rw [(h t).mp hheld] at hlock
  simp at hlock

variable [DecidableEq T] {s s' : Sys T} {a : Act T}

theorem goto (h : s.Locked) {t : T} {pc : Pc} (hpc : pc.held ≠ none ↔ (s.pc t).held ≠ none) :
    (s.goto t pc).Locked :=
  forall_goto (P := fun t' x => Pc.held x ≠ none ↔ s.lock = some t') (hpc.trans (h t))
    fun t' _ => h t'

/-- When nobody holds the lock, the thread that moves is the only one that may. -/
theorem held_goto (h : s.Locked) (hlock : s.lock = none) {t : T} {pc : Pc} {P : Swapped → Prop}
    (hpc : ∀ w, pc.held = some w → P w) : ∀ t' w, ((s.goto t pc).pc t').held = some w → P w :=
  forall_goto (P := fun _ x => ∀ w, Pc.held x = some w → P w) hpc fun t' _ w hw => by
    rw [h.held_eq_none hlock t'] at hw
    simp at hw

/-- The lock changes hands: to or from the thread that makes the step. -/
theorem exchange (h : s.Locked) {t : T} {pc : Pc} (lock : Option T)
    (hpc : pc.held ≠ none ↔ lock = some t) (hold : ∀ t', t' ≠ t → s.lock ≠ some t')
    (hnew : ∀ t', t' ≠ t → lock ≠ some t') : Sys.Locked { s.goto t pc with lock := lock } :=
  forall_goto (P := fun t' x => Pc.held x ≠ none ↔ lock = some t') hpc fun t' ht =>
    iff_of_false (fun hheld => hold t' ht ((h t').mp hheld)) (hnew t' ht)

theorem step (h : s.Locked) (hs : Step cfg s a s') : s'.Locked := by
  cases hs with
  | swap hpc hlock => exact h.exchange (some _) (by simp) (by simp [hlock]) (by simp [eq_comm])
  | @truncate t _ _ hpc | @truncateFails t _ _ hpc =>
    have hmine : s.lock = some t := (h t).mp (by simp [hpc])
    exact h.exchange none (by simp) (by simp [hmine, eq_comm]) (by simp)
  | @flushFails t _ _ hpc hheld =>
    have hmine : s.lock = some t := (h t).mp (by simpa [hpc] using hheld)
    exact h.exchange none (by simp) (by simp [hmine, eq_comm]) (by simp)
  | restart => exact fun t => by simp [Sys.restart]
  | compact => exact h
  | @call t op hpc => exact h.goto (by cases op <;> simp [hpc, Op.begin])
  | append hpc | insert hpc | fill hpc | name hpc | create hpc | write hpc | finish hpc
  | rename hpc | publish hpc | hit hpc | miss hpc | search hpc | appendFails hpc =>
    exact h.goto (by simp [hpc])

end Sys.Locked

/-! ### Complete files -/

/-- The file is what a flush of the MemTable writes. -/
def Config.Holds (cfg : Config) (fs : Fs) (p : Path) (mem : MemTable) : Prop :=
  ∃ bytes, mem.flushBytes cfg.sizing = some bytes ∧ bytes.length < 2 ^ 63 ∧ fs p = some bytes

theorem Config.Holds.stored {fs : Fs} {p : Path} {mem : MemTable} (h : cfg.Holds fs p mem)
    (hshort : mem.IsShort) : fs.Stored p mem.data := by
  obtain ⟨bytes, hb, hlen, hp⟩ := h
  exact ⟨bytes, hp, MemTable.stores_flushBytes hshort hb hlen⟩

theorem Config.Holds.ne_none {fs : Fs} {p : Path} {mem : MemTable} (h : cfg.Holds fs p mem) :
    fs p ≠ none := by
  obtain ⟨bytes, -, -, hp⟩ := h
  simp [hp]

theorem Config.Holds.congr {fs fs' : Fs} {p q : Path} {mem : MemTable} (h : cfg.Holds fs p mem)
    (hq : fs' q = fs p) : cfg.Holds fs' q mem := by
  obtain ⟨bytes, hb, hlen, hp⟩ := h
  exact ⟨bytes, hb, hlen, hq.trans hp⟩

theorem Config.named_nextSstablePath (cfg : Config) (now : ℕ) :
    (cfg.nextSstablePath now).NamedSst := FileName.suffix_l0Name now

theorem Config.nextSstablePath_inj (cfg : Config) {now now' : ℕ}
    (h : cfg.nextSstablePath now = cfg.nextSstablePath now') : now = now' :=
  FileName.l0Name_inj (congrArg Path.name h)

theorem Config.levelOf_nextSstablePath (cfg : Config) (now : ℕ) :
    FileName.levelOf (cfg.nextSstablePath now).name = some 0 := FileName.levelOf_l0Name now

theorem Config.named_l1 (cfg : Config) (now : ℕ) :
    Path.NamedSst ⟨cfg.dir, FileName.l1Name now⟩ := FileName.suffix_l1Name now

/-- A path of a flush is no path of a compaction. -/
theorem Config.nextSstablePath_ne_l1 (cfg : Config) (now now' : ℕ) (dir : List Char) :
    cfg.nextSstablePath now ≠ ⟨dir, FileName.l1Name now'⟩ := by
  intro h
  have hlevel := congrArg (fun p : Path => FileName.levelOf p.name) h
  simp [Config.nextSstablePath] at hlevel

/-- What is true of a flush on its way, where `Q` is true of every MemTable that is
swapped out. -/
def Flush.Sound (cfg : Config) (Q : MemTable → Prop) (fs : Fs) : Flush → Prop
  | start => True
  | named p => ∃ now, p = cfg.nextSstablePath now
  | swapped w | writing w => (∃ now, w.path = cfg.nextSstablePath now) ∧ Q w.old
  | written w => (∃ now, w.path = cfg.nextSstablePath now) ∧ Q w.old ∧
      cfg.Holds fs w.path.tmp w.old
  | renamed w | truncated w =>
      (∃ now, w.path = cfg.nextSstablePath now) ∧ Q w.old ∧ fs w.path ≠ none

def Pc.Sound (cfg : Config) (Q : MemTable → Prop) (fs : Fs) : Pc → Prop
  | flushing _ f => f.Sound cfg Q fs
  | _ => True

theorem Pc.Sound.exists_path {Q : MemTable → Prop} {fs : Fs} {pc : Pc} (h : pc.Sound cfg Q fs)
    {w : Swapped} (hw : pc.out = some w) : ∃ now, w.path = cfg.nextSstablePath now := by
  cases pc with
  | flushing e f =>
    cases f with
    | start | named p => simp at hw
    | _ =>
      obtain rfl := Option.some.inj hw
      exact h.1
  | _ => simp at hw

/-- Only the file of the flush and its temporary file matter. -/
theorem Pc.Sound.congr {Q : MemTable → Prop} {fs fs' : Fs} {pc : Pc} (h : pc.Sound cfg Q fs)
    (htmp : ∀ w, pc.held = some w → fs' w.path.tmp = fs w.path.tmp)
    (hfile : ∀ w, pc.out = some w → fs w.path ≠ none → fs' w.path ≠ none) :
    pc.Sound cfg Q fs' := by
  cases pc with
  | flushing e f =>
    cases f with
    | written w => exact ⟨h.1, h.2.1, h.2.2.congr (htmp w rfl)⟩
    | renamed w | truncated w => exact ⟨h.1, h.2.1, hfile w rfl h.2.2⟩
    | _ => exact h
  | _ => trivial

/-- **Every `.sst` file is a complete flush** of a MemTable with the property, under a
name of L0 in the directory. -/
def Config.Stocked (cfg : Config) (Q : MemTable → Prop) (fs : Fs) : Prop :=
  ∀ p : Path, p.NamedSst → fs p ≠ none →
    (∃ now, p = cfg.nextSstablePath now) ∧ ∃ mem, Q mem ∧ cfg.Holds fs p mem

theorem Config.Stocked.congr {Q : MemTable → Prop} {fs fs' : Fs} (h : cfg.Stocked Q fs)
    (hfs : ∀ p : Path, p.NamedSst → fs' p = fs p) : cfg.Stocked Q fs' := by
  intro p hp hne
  rw [hfs p hp] at hne
  obtain ⟨hnow, mem, hQ, hholds⟩ := h p hp hne
  exact ⟨hnow, mem, hQ, hholds.congr (hfs p hp)⟩

/-- After a restart the levels track such files, in L0. -/
theorem Config.Stocked.discoverLevels {Q : MemTable → Prop} {fs : Fs} (h : cfg.Stocked Q fs)
    {listing : List Path} (hl : fs.Lists cfg.dir listing) :
    (∀ p ∈ (discoverLevels listing).l0, p.NamedSst ∧ fs p ≠ none) ∧
      ((discoverLevels listing).levels.drop 1).flatten = [] := by
  refine ⟨fun p hp => ?_, flatten_drop_discoverLevels hl fun p _ hne m hm => ?_⟩
  · obtain ⟨-, hne, hlevel⟩ := (mem_level_iff hl 0 p).mp hp
    exact ⟨FileName.suffix_of_levelOf hlevel, hne⟩
  · obtain ⟨⟨now, rfl⟩, -⟩ := h p (FileName.suffix_of_levelOf hm) hne
    rw [cfg.levelOf_nextSstablePath] at hm
    obtain rfl := Option.some.inj hm
    exact Nat.one_pos

/-- **A search of such files is the first hit**, the last file of L0 first. -/
theorem Config.Stocked.searchLevels_eq {Q : MemTable → Prop} {fs : Fs} {lm : LevelManager}
    (h : cfg.Stocked Q fs) (hQ : ∀ mem, Q mem → mem.IsShort)
    (hl0 : ∀ p ∈ lm.l0, p.NamedSst ∧ fs p ≠ none) (hflat : (lm.levels.drop 1).flatten = [])
    (key : Key) :
    searchLevels fs lm key = .ok (visible (firstHit (lm.l0.reverse.map fs.records) key)) := by
  have horder : lm.readOrder = lm.l0.reverse := by
    rw [LevelManager.readOrder, hflat, List.append_nil]
  rw [Tabula.searchLevels_eq ?_ key, horder]
  intro p hp
  rw [horder] at hp
  obtain ⟨hnamed, hne⟩ := hl0 p (List.mem_reverse.mp hp)
  obtain ⟨-, mem, hmem, hholds⟩ := h p hnamed hne
  exact (hholds.stored (hQ mem hmem)).complete

/-- What is true of the flushes on their way. -/
def Sys.Staged (cfg : Config) (Q : MemTable → Prop) (s : Sys T) : Prop :=
  ∀ t, (s.pc t).Sound cfg Q s.fs

namespace Sys.Staged

variable [DecidableEq T] {Q : MemTable → Prop} {s s' : Sys T} {a : Act T}

theorem goto (h : s.Staged cfg Q) {t : T} {pc : Pc} (hpc : pc.Sound cfg Q s.fs) :
    ∀ t', ((s.goto t pc).pc t').Sound cfg Q s.fs :=
  forall_goto (P := fun _ x => Pc.Sound cfg Q s.fs x) hpc fun t' _ => h t'

/-- The holder of the WAL lock changes files, and no `.sst` file goes away. -/
theorem goto_held (h : s.Staged cfg Q) (hlock : s.Locked) {t : T} (ht : (s.pc t).held ≠ none)
    {pc : Pc} {fs' : Fs} (hpc : pc.Sound cfg Q fs')
    (hfs : ∀ p : Path, p.NamedSst → s.fs p ≠ none → fs' p ≠ none) :
    ∀ t', ((s.goto t pc).pc t').Sound cfg Q fs' :=
  forall_goto (P := fun _ x => Pc.Sound cfg Q fs' x) hpc fun t' hne =>
    (h t').congr
      (fun w hw => absurd (hlock.eq_of_held (hw.trans_ne (Option.some_ne_none w)) ht) hne)
      fun w hw hfile => by
        obtain ⟨now, hnow⟩ := (h t').exists_path hw
        exact hfs _ (hnow ▸ cfg.named_nextSstablePath now) hfile

/-- A temporary file is written. -/
theorem writeTmp (h : s.Staged cfg Q) (hlock : s.Locked) {t : T} (ht : (s.pc t).held ≠ none)
    {pc : Pc} {p : Path} {bytes : Bytes} (hpc : pc.Sound cfg Q (s.fs.write p.tmp bytes)) :
    Staged cfg Q { s.goto t pc with fs := s.fs.write p.tmp bytes } :=
  h.goto_held hlock ht hpc fun _ hq hne =>
    (Fs.write_of_ne (hq.ne_tmp p) s.fs bytes).trans_ne hne

/-- **What a rename does**: the SSTable is there, complete, and the others are as they were. -/
theorem rename (h : s.Staged cfg Q) {t : T} {e : WalEntry} {w : Swapped}
    (hpc : s.pc t = .flushing e (.written w)) :
    (w.path.NamedSst ∧ Q w.old ∧ cfg.Holds (s.rename t e w).fs w.path w.old) ∧
      ∀ p : Path, p.NamedSst → p ≠ w.path → (s.rename t e w).fs p = s.fs p := by
  have hsound := h t
  rw [hpc] at hsound
  obtain ⟨⟨now, hnow⟩, hQ, hholds⟩ := hsound
  have hnamed : w.path.NamedSst := hnow ▸ cfg.named_nextSstablePath now
  exact ⟨⟨hnamed, hQ, hholds.congr (Fs.rename_new (hnamed.ne_tmp _).symm s.fs)⟩,
    fun p hp hne => Fs.rename_of_ne (hp.ne_tmp _) hne s.fs⟩

/-- **One step**: it is enough that every MemTable swapped out has the property, and that
a compaction keeps away from the files of the flushes. -/
theorem step (h : s.Staged cfg Q) (hlock : s.Locked) (hs : Step cfg s a s')
    (hQ : ∀ t, a = .swap t → Q s.mem)
    (hcompact : ∀ io now, a = .compact io now → ∀ t w, (s.pc t).out = some w →
      s'.fs w.path = s.fs w.path ∧ s'.fs w.path.tmp = s.fs w.path.tmp) : s'.Staged cfg Q := by
  cases hs with
  | @call t op hpc => exact h.goto (by cases op <;> trivial)
  | append | insert | fill | publish | hit | miss | search | appendFails | flushFails
  | truncateFails => exact h.goto trivial
  | name hpc => exact h.goto ⟨_, rfl⟩
  | @swap t e p hpc hfree =>
    have hp := h t
    rw [hpc] at hp
    exact h.goto ⟨hp, hQ t rfl⟩
  | @create t e w hpc =>
    have hw := h t
    rw [hpc] at hw
    exact h.writeTmp hlock (by simp [hpc]) hw
  | @write t e w n bytes hpc =>
    have hw := h t
    rw [hpc] at hw
    exact h.writeTmp hlock (by simp [hpc]) hw
  | @finish t e w bytes hpc hbytes hlen =>
    have hw := h t
    rw [hpc] at hw
    exact h.writeTmp hlock (by simp [hpc])
      ⟨hw.1, hw.2, bytes, hbytes, hlen, Fs.write_self _ _ _⟩
  | @rename t e w hpc =>
    obtain ⟨⟨-, hQw, hnew⟩, hfs⟩ := h.rename hpc
    have hw := h t
    rw [hpc] at hw
    refine h.goto_held hlock (by simp [hpc]) ⟨hw.1, hQw, hnew.ne_none⟩ fun q hq hne => ?_
    by_cases hqw : q = w.path
    · exact hqw ▸ hnew.ne_none
    · exact (hfs q hq hqw).trans_ne hne
  | @truncate t e w hpc =>
    have hw := h t
    rw [hpc] at hw
    exact h.goto hw
  | compact =>
    have hsame := hcompact _ _ rfl
    refine fun t => (h t).congr (fun w hw => (hsame t w ?_).2) fun w hw =>
      (hsame t w hw).1.trans_ne
    exact Pc.out_of_held hw
  | restart => exact fun _ => trivial

end Sys.Staged

/-- What is true of a run without compactions: the files are complete, and the levels
track such files only, in L0. -/
structure Sys.Flushed (cfg : Config) (Q : MemTable → Prop) (s : Sys T) : Prop where
  staged : s.Staged cfg Q
  stocked : cfg.Stocked Q s.fs
  l0 : ∀ p ∈ s.levels.l0, p.NamedSst ∧ s.fs p ≠ none
  flat : (s.levels.levels.drop 1).flatten = []

namespace Sys.Flushed

variable {Q : MemTable → Prop}

theorem init : Flushed cfg Q (Sys.init : Sys T) :=
  ⟨fun _ => trivial, fun p _ h => absurd rfl h, by simp [Sys.init], rfl⟩

variable [DecidableEq T] {s s' : Sys T} {a : Act T}

omit [DecidableEq T] in
/-- The SSTables are as they were, and so are the lists. -/
theorem of_same (h : Flushed cfg Q s) (hstaged : s'.Staged cfg Q)
    (hsst : ∀ p : Path, p.NamedSst → s'.fs p = s.fs p) (hlevels : s'.levels = s.levels) :
    Flushed cfg Q s' := by
  refine ⟨hstaged, h.stocked.congr hsst, fun p hp => ?_, by rw [hlevels]; exact h.flat⟩
  rw [hlevels] at hp
  obtain ⟨hnamed, hne⟩ := h.l0 p hp
  exact ⟨hnamed, (hsst p hnamed).trans_ne hne⟩

/-- **One step**: it is enough that every MemTable swapped out has the property. -/
theorem step (h : Flushed cfg Q s) (hlock : s.Locked) (hs : Step cfg s a s') (ha : a.Succeeds)
    (hQ : ∀ t, a = .swap t → Q s.mem) : Flushed cfg Q s' := by
  have hstaged : s'.Staged cfg Q := h.staged.step hlock hs hQ (by
    rintro io now rfl
    exact ha.elim)
  cases hs with
  | call | append | insert | fill | name | swap | truncate | hit | miss | search =>
    exact h.of_same hstaged (fun _ _ => rfl) rfl
  | @create t e w | @write t e w | @finish t e w =>
    exact h.of_same hstaged (fun p hp => Fs.write_of_ne (hp.ne_tmp w.path) s.fs _) rfl
  | @rename t e w hpc =>
    obtain ⟨⟨-, hQw, hnew⟩, hsame⟩ := h.staged.rename hpc
    have hw := h.staged t
    rw [hpc] at hw
    refine ⟨hstaged, fun q hq hne => ?_, fun q hq => ?_, h.flat⟩
    · by_cases hqw : q = w.path
      · exact hqw ▸ ⟨hw.1, w.old, hQw, hnew⟩
      · have hfs := hsame q hq hqw
        obtain ⟨hpath, mem, hmem, hholds⟩ := h.stocked q hq (hfs.symm.trans_ne hne)
        exact ⟨hpath, mem, hmem, hholds.congr hfs⟩
    · obtain ⟨hnamed, hne⟩ := h.l0 q hq
      refine ⟨hnamed, ?_⟩
      by_cases hqw : q = w.path
      · exact hqw ▸ hnew.ne_none
      · exact (hsame q hnamed hqw).trans_ne hne
  | @publish t e w hpc =>
    have hw := h.staged t
    rw [hpc] at hw
    obtain ⟨⟨now, hnow⟩, -, hne⟩ := hw
    refine ⟨hstaged, h.stocked, fun q hq => ?_, ?_⟩
    · simp only [Sys.publish, LevelManager.l0_addL0File, List.mem_append, List.mem_singleton] at hq
      rcases hq with hq | rfl
      · exact h.l0 q hq
      · exact ⟨hnow ▸ cfg.named_nextSstablePath now, hne⟩
    · exact (congrArg List.flatten (s.levels.drop_addL0File w.path)).trans h.flat
  | restart hl hopen =>
    obtain ⟨es, -, -, rfl⟩ := Lsm.open_eq_ok.mp hopen
    obtain ⟨hl0, hflat⟩ := h.stocked.discoverLevels hl
    exact ⟨hstaged, h.stocked, hl0, hflat⟩
  | compact | appendFails | flushFails | truncateFails => exact ha.elim

end Sys.Flushed

end Tabula
