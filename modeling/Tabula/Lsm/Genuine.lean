import Tabula.Lsm.Atomicity
import Tabula.Lsm.OneValue

/-!
# Nothing is made up

What a `get` returns was given to a `set` of that key, before the `get` returned, whatever
has come in between: any threads, flushes and compactions, operations on files that have
failed, crashes (`Tabula.Process.genuine_of_run`). And a `get` does return: every file it
comes by is there and can be read.

A record goes from the log to a MemTable, from there to a file, through any number of
merges from file to file, and after a crash from the log to a MemTable again. All along it
is the record of one write (`Tabula.RecordOf`), which is the invariant
(`Tabula.Sys.Vouched`). A merge that has stopped early, or one whose output is read beside
its inputs, can bring an old value back, but not one of another key, and none that was never
written.

The log is different: an append that has failed in the middle leaves bytes that a later one
goes on behind, and what they say together is not for the writer to decide. So an append
that fails is to leave nothing.
-/

namespace Tabula

open SortedTable

variable {T : Type} {cfg : Config} {W : List WalEntry}

/-- The record is that of one of the writes. -/
def RecordOf (W : List WalEntry) (r : Record) : Prop := ∃ e ∈ W, e.key = r.1 ∧ e.raw = r.2

/-- One of the writes, and it fits the length fields. -/
def WalEntry.OneOf (W : List WalEntry) (e : WalEntry) : Prop := e.IsShort ∧ e ∈ W

/-- Every record of the MemTable is that of one of the writes. -/
def MemTable.MadeOf (W : List WalEntry) (mem : MemTable) : Prop :=
  mem.IsShort ∧ ∀ r ∈ mem.data, RecordOf W r

theorem MemTable.MadeOf.apply {mem : MemTable} (h : mem.MadeOf W) {e : WalEntry}
    (he : e.OneOf W) : (mem.apply e).MadeOf W := by
  refine ⟨h.1.apply he.1, fun r hr => ?_⟩
  have hr : r ∈ insert e.key e.raw mem.data := by
    cases e <;> exact hr
  rcases mem_insert hr with rfl | hr
  · exact ⟨e, he.2, rfl, rfl⟩
  · exact h.2 r hr

theorem carried_oneOf (W : List WalEntry) : Carried (WalEntry.OneOf W) (MemTable.MadeOf W) :=
  ⟨⟨MemTable.isShort_new, List.forall_mem_nil _⟩, fun hmem he => hmem.apply he, fun he => he.1⟩

/-- A value that can be seen was put. -/
theorem RecordOf.put_mem {k : Key} {raw v : Value} (h : RecordOf W (k, raw))
    (hv : visible (some raw) = some v) : .put k v ∈ W := by
  obtain ⟨e, he, rfl, rfl⟩ := h
  rw [visible_some] at hv
  split at hv
  · simp at hv
  · obtain rfl := Option.some.inj hv
    cases e with
    | put k v => exact he
    | delete k => rename_i hnot; exact absurd isTombstone_tombstone hnot

namespace LevelManager

/-- **A compaction makes no record up**, whatever comes of it. -/
theorem forall_records_compact {S : BloomSizing} {H : MergeHeap} {io : CompactIo} {now : ℕ}
    {fs : Fs} {lm : LevelManager} {P : Record → Prop}
    (hs : ∀ p ∈ lm.l0 ++ lm.l1, StrictSorted (fs.records p))
    (hP : ∀ p : Path, p.NamedSst → ∀ r ∈ fs.records p, P r)
    (hnamed : ∀ p ∈ lm.l0 ++ lm.l1, p.NamedSst) {q : Path} (hq : q.NamedSst) :
    ∀ r ∈ Fs.records (compact S H io now fs lm).2.2 q, P r := by
  rcases records_compact_cases hs hq with hsame | hnone | ⟨iters, hread, hmerge⟩
  · rw [hsame]
    exact hP q hq
  · rw [hnone]
    exact List.forall_mem_nil _
  · intro r hr
    rw [hmerge] at hr
    obtain ⟨t, ht, hr⟩ := exists_of_mem_merge H (fun t ht => (hread t ht).1) hr
    obtain ⟨-, p, hp, hpre⟩ := hread t ht
    exact hP p (hnamed p hp) r (hpre.subset hr)

/-- What the files say, one of them says. -/
theorem exists_of_find {fs : Fs} {lm : LevelManager} {k : Key} {raw : Value}
    (h : lm.find fs k = some raw) : ∃ p ∈ lm.readOrder, (k, raw) ∈ fs.records p := by
  obtain ⟨t, ht, hlookup⟩ := exists_of_firstHit h
  obtain ⟨p, hp, rfl⟩ := List.mem_map.mp ht
  exact ⟨p, hp, mem_of_lookup hlookup⟩

end LevelManager

/-! ### The invariant -/

namespace Sys

/-- **Every record there is, is that of a write that has been called**: in the log, in the
MemTable, in the MemTables of flushes and in the files. -/
structure Vouched (cfg : Config) (W : List WalEntry) (s : Sys T) : Prop where
  housed : Housed cfg s
  intact : Intact cfg s
  logged : s.Logged
  carries : s.Carries (WalEntry.OneOf W) (MemTable.MadeOf W)
  staged : s.Staged cfg (MemTable.MadeOf W)
  files : ∀ p : Path, p.NamedSst → ∀ r ∈ s.fs.records p, RecordOf W r

namespace Vouched

theorem init : Vouched cfg W (Sys.init : Sys T) where
  housed := .init
  intact := .init
  logged := rfl
  carries := .init (carried_oneOf W)
  staged _ := trivial
  files p _ := by
    rw [Fs.records_of_missing rfl]
    exact List.forall_mem_nil _

variable [DecidableEq T] {s s' : Sys T} {a : Act T}

/-- The files after one step. -/
theorem files_step (h : Vouched cfg W s) (hs : Step cfg s a s') {p : Path} (hp : p.NamedSst) :
    ∀ r ∈ s'.fs.records p, RecordOf W r := by
  have hsame : s'.fs p = s.fs p → ∀ r ∈ s'.fs.records p, RecordOf W r := by
    intro hfs
    rw [Fs.records_congr hfs]
    exact h.files p hp
  cases hs with
  | call | append | insert | fill | name | swap | truncate | publish | hit | miss | search | restart
  | appendFails | flushFails | truncateFails => exact hsame rfl
  | @create t e w | @write t e w | @finish t e w =>
    exact hsame (Fs.write_of_ne (hp.ne_tmp w.path) s.fs _)
  | @rename t e w hpc =>
    obtain ⟨⟨-, hmade, hnew⟩, hfs⟩ := h.staged.rename hpc
    by_cases hw : p = w.path
    · subst hw
      rw [(hnew.stored hmade.1).records_eq]
      exact hmade.2
    · exact hsame (hfs p hp hw)
  | compact =>
    exact LevelManager.forall_records_compact
      (fun q hq => Fs.Stored.sorted (h.intact.complete h.housed hq)) h.files
      (fun q hq => (h.housed.tracked hq).1) hp

/-- **One step**, when what is called is one of the writes. -/
theorem step (h : Vouched cfg W s) (hs : Step cfg s a s') (hdistinct : s.Distinct cfg a)
    (hwhole : a.Whole) (hcall : ∀ t e, a = .call t (.write e) → e.OneOf W) :
    Vouched cfg W s' where
  housed := by
    refine h.housed.step hs ?_ ?_
    · rintro t now rfl
      exact hdistinct
    · rintro io now rfl
      exact hdistinct
  intact := h.intact.step h.housed hs fun _ _ => h.carries.mem.1
  logged := h.logged.step hs hwhole
  carries := h.carries.step (carried_oneOf W) h.logged hs hwhole hcall
  staged := h.staged.step h.housed.locked hs (fun _ _ => h.carries.mem) (h.housed.compact_staged hs)
  files _ hp := h.files_step hs hp

omit [DecidableEq T] in
/-- **What the tracked files answer was written.** -/
theorem searchLevels_eq (h : Vouched cfg W s) (k : Key) :
    ∃ answer, searchLevels s.fs s.levels k = .ok answer ∧ ∀ v ∈ answer, .put k v ∈ W := by
  refine ⟨_, h.intact.searchLevels_eq h.housed k, fun v hv => ?_⟩
  cases hfind : s.levels.find s.fs k with
  | none => simp [hfind] at hv
  | some raw =>
    rw [hfind] at hv
    obtain ⟨p, hp, hr⟩ := LevelManager.exists_of_find hfind
    exact (h.files p (h.housed.tracked (h.housed.mem_readOrder hp)).1 _ hr).put_mem hv

omit [DecidableEq T] in
/-- What a `get` would return at this moment was written. -/
theorem get_eq (h : Vouched cfg W s) (k : Key) :
    ∃ answer, Lsm.get s.fs s.mem s.levels k = .ok answer ∧ ∀ v ∈ answer, .put k v ∈ W := by
  rw [Lsm.get]
  cases hget : s.mem.get k with
  | none => exact h.searchLevels_eq k
  | some raw => exact ⟨_, rfl, fun v hv => (h.carries.mem.2 _ (mem_of_lookup hget)).put_mem hv⟩

/-- **What a `get` returns was written.** -/
theorem answered (h : Vouched cfg W s) (hs : Step cfg s a s') {t : T} {k : Key}
    {r : Res LsmError (Option Value)} (hr : s'.hist = s.hist ++ [.answered t k r]) :
    ∃ answer, r = .ok answer ∧ ∀ v ∈ answer, .put k v ∈ W := by
  rcases hs.answered hr with ⟨-, raw, hget, rfl⟩ | ⟨-, -, rfl⟩
  · exact ⟨_, rfl, fun v hv => (h.carries.mem.2 _ (mem_of_lookup hget)).put_mem hv⟩
  · exact h.searchLevels_eq k

end Vouched

variable [DecidableEq T] {s : Sys T} {as : List (Act T)}

/-- What holds in every run in which no path is used twice, what is written fits the length
fields and no append leaves a part of its entry behind. -/
theorem vouched_of_run (hrun : Runs.Run (Runs.Guarded (Step cfg) fun s a =>
      s.Distinct cfg a ∧ a.Fits ∧ a.Whole) Sys.init as s) (hW : writes s.hist ⊆ W) :
    Vouched cfg W s := by
  refine hrun.invariant (I := fun s => writes s.hist ⊆ W → Vouched cfg W s) (fun _ => .init) ?_ hW
  rintro s a s' h ⟨hs, hdistinct, hfits, hwhole⟩ hW
  refine (h fun e he => hW (writes_grows hs he)).step hs hdistinct hwhole ?_
  rintro t e rfl
  exact ⟨hfits, hW (List.mem_filterMap.mpr ⟨_, hs.called_mem, rfl⟩)⟩

omit [DecidableEq T] in
theorem mem_writes {hist : List (Event T)} {e : WalEntry} :
    e ∈ writes hist ↔ ∃ t, .called t (.write e) ∈ hist := by
  constructor
  · intro he
    obtain ⟨ev, hev, hwrite⟩ := List.mem_filterMap.mp he
    cases ev with
    | called t op =>
      cases op with
      | write e =>
        obtain rfl := Option.some.inj hwrite
        exact ⟨t, hev⟩
      | get => simp [Event.write] at hwrite
    | _ => simp [Event.write] at hwrite
  · rintro ⟨t, hev⟩
    exact List.mem_filterMap.mpr ⟨_, hev, rfl⟩

/-- **What a `get` returns was put before**, in every run of the store. -/
theorem put_mem_of_answered (hrun : Runs.Run (Runs.Guarded (Step cfg) fun s a =>
      s.Distinct cfg a ∧ a.Fits ∧ a.Whole) Sys.init as s) {before after : List (Event T)}
    {t : T} {k : Key} {r : Res LsmError (Option Value)}
    (hhist : s.hist = before ++ .answered t k r :: after) :
    ∃ answer, r = .ok answer ∧ ∀ v ∈ answer, .put k v ∈ writes before := by
  obtain ⟨bs, s₁, b, s₂, evs, evs', hrun, hs, hnew, rfl⟩ :=
    hrun.exists_of_mem_record rfl (fun _ _ _ hs => hs.1.hist_grows) hhist
  obtain ⟨rfl, rfl⟩ := hs.1.eq_nil_of_answered hnew
  rw [List.append_nil]
  exact (vouched_of_run hrun (List.Subset.refl _)).answered hs.1 hnew

end Sys

/-! ### Panics -/

/-- A compaction is through, but for letting go of the lock. -/
def Background.done : Background → Bool
  | compacting _ _ _ (.ret _) => true
  | _ => false

instance : (a : Act T) → Decidable a.Whole
  | .appendFails _ n => inferInstanceAs (Decidable (n = 0))
  | .call _ _ | .append _ | .insert _ | .name _ _ | .swap _ | .create _ | .write _ _ | .finish _
  | .rename _ | .truncate _ | .publish _ | .look _ | .search _ | .compact _ _ | .restart _
  | .flushFails _ | .truncateFails _ => .isTrue trivial

namespace Process

/-- **What a thread logs fits the length fields, and an append that fails has written
nothing.** -/
def Act.Neat (a : Act T) : Prop := ∀ b ∈ a.own, b.Fits ∧ b.Whole

instance (a : Act T) : Decidable a.Neat :=
  inferInstanceAs (Decidable (∀ b ∈ a.own, b.Fits ∧ b.Whole))

variable [DecidableEq T] {as : List (Act T)} {f : Process T}

/-- In every run the directory can be listed, in the middle of a compaction too. -/
theorem exists_lists_of_run {G : Process T → Act T → Prop} (hG : ∀ f a, G f a → f.Distinct cfg a)
    (hrun : Runs.Run (Runs.Guarded (Step cfg) G) init as f) :
    ∃ listing, f.sys.fs.Lists cfg.dir listing := by
  obtain ⟨bs, s, hrun, -, h⟩ := matches_of_run (hrun.mono fun _ _ _ hs => ⟨hs.1, hG _ _ hs.2⟩)
  cases hb : f.background with
  | compacting io cuts now p =>
    obtain ⟨hreach, hnew, -⟩ := h.compacting io cuts now p hb
    obtain ⟨io', -, hfs⟩ := LevelManager.exists_script_of_reaches hreach
    have hstep : Tabula.Step cfg s (.compact io' now) _ := .compact
    have hfs : (s.compact cfg io' now).fs = f.sys.fs := hfs
    exact hfs ▸ Sys.exists_lists_of_run (hrun.snoc ⟨hstep, hnew⟩)
  | waiting | polling | due | exited | panicked =>
    have hsys := h.sys_eq (by rw [hb]; exact id)
    exact hsys ▸ Sys.exists_lists_of_run hrun

/-- The state of the store that the process is on its way from, and what holds there. -/
theorem exists_vouched (hrun : Runs.Run (Runs.Guarded (Step cfg) fun f a =>
      f.Distinct cfg a ∧ a.Neat) init as f) :
    ∃ bs s, Runs.Run (Runs.Guarded (Tabula.Step cfg) fun s a =>
      s.Distinct cfg a ∧ a.Fits ∧ a.Whole) Sys.init bs s ∧ Matches cfg f s ∧
        s.Vouched cfg (Sys.writes f.sys.hist) := by
  obtain ⟨bs, s, hrun, h⟩ := matches_of_run_of (P := fun a => a.Fits ∧ a.Whole) (fun a ha => by
    cases a <;> first | exact ⟨trivial, trivial⟩ | simp [Tabula.Act.beside] at ha) hrun
  have hhist : f.sys.hist = s.hist := by rw [h.sys]
  exact ⟨bs, s, hrun, h, Sys.vouched_of_run hrun (by rw [hhist]; exact List.Subset.refl _)⟩

/-- A run whose steps are neat. -/
theorem run_neat (hrun : Runs.Run (Runs.Guarded (Step cfg) fun f a => f.Distinct cfg a) init as f)
    (hneat : ∀ a ∈ as, a.Neat) :
    Runs.Run (Runs.Guarded (Step cfg) fun f a => f.Distinct cfg a ∧ a.Neat) init as f :=
  hrun.guarded_mem.mono fun _ a _ hs => ⟨hs.1.1, hs.1.2, hneat a hs.2⟩

/-- **What a `get` returns was given to a `set` before**, and it does return: in every run of
the process, with any failures, crashes and compactions, in which no path is used twice and
what is logged is logged whole. -/
theorem genuine_of_run (hrun : Runs.Run (Runs.Guarded (Step cfg) fun f a =>
      f.Distinct cfg a ∧ a.Neat) init as f) {before after : List (Event T)} {t : T} {k : Key}
    {r : Res LsmError (Option Value)} (hhist : f.sys.hist = before ++ .answered t k r :: after) :
    ∃ answer, r = .ok answer ∧
      ∀ v, answer = some v → ∃ t', .called t' (.write (.put k v)) ∈ before := by
  obtain ⟨bs, s, hrun, h, -⟩ := exists_vouched hrun
  rw [h.sys] at hhist
  obtain ⟨answer, rfl, hput⟩ := Sys.put_mem_of_answered hrun hhist
  refine ⟨answer, rfl, fun v hv => ?_⟩
  exact Sys.mem_writes.mp (hput v hv)

/-- A value is read after the file that held it has been merged with three others. -/
theorem genuine_of_run_merged : ∃ before : List (Event Bool), .compacted ∈ before ∧
    ∃ answer : Option Value, (.ok (some [1]) : Res LsmError (Option Value)) = .ok answer ∧
      ∀ v, answer = some v → ∃ t', .called t' (.write (.put [3] v)) ∈ before := by
  let as : List (Act Bool) :=
    Act.flush false 1 1 ++ Act.flush false 2 2 ++ Act.flush false 3 3 ++ Act.flush false 4 4 ++
      [.wake, .check, .compact .whole [] 6] ++ List.replicate 11 .work ++
      [.finish, .thread (.call true (.get [3])), .thread (.look true), .lock true, .read true,
        .answer true]
  obtain ⟨f, hrun, hcompacted, hhist⟩ := exists_of_nexts (.ofThreshold 1) as
    (fun f => .compacted ∈ f.sys.hist.dropLast ∧
      f.sys.hist = f.sys.hist.dropLast ++ .answered true [3] (.ok (some [1])) :: [])
    (by decide +kernel)
  exact ⟨_, hcompacted, genuine_of_run (run_neat hrun (by decide)) hhist⟩

end Process

end Tabula
