import Tabula.Lsm.MidCompaction

/-!
# The process with crashes at any moment

What a crash leaves is known of every moment now, and what a restart makes of it
(`Tabula.Process.readsBack_of_run`). A crash in the middle of a compaction is one that the store
survives (`Tabula.Sys.Survives`) if no key has lost its cover and if the files that are found in
L1 have no range in common. That is so before the rename, at the end of the compaction, and all
the time if there was nothing in L1 that it merges. After it everything is as after other
crashes.

In the store of `Tabula.Step` a compaction is one step. So a compaction that is cut short and
the restart after it are taken together here (`Tabula.Sys.Advances`).
-/

namespace Tabula

open SortedTable

variable {T : Type} [DecidableEq T] {cfg : Config}

namespace Sys

/-- **The store goes on as before** after a restart that finds these files. -/
structure Survives (s : Sys T) (listing : List Path) : Prop where
  covered : ∀ k v, ¬s.Bared k v
  disjoint : LevelManager.RangesDisjoint s.fs (discoverLevels listing).l1

/-- **A step that meets the condition**, or a compaction that is cut short by a crash that the
store survives. -/
inductive Advances (cfg : Config) (P : Sys T → Act T → Prop) (s : Sys T) : Act T → Sys T → Prop
  | step {a : Act T} {s' : Sys T} (hs : Step cfg s a s') (htended : s.Tended cfg P a) :
      Advances cfg P s a s'
  | cut {io : CompactIo} {now : ℕ} {listing : List Path} {mem : MemTable} {levels : LevelManager}
      (htimely : s.Timely cfg now) (hstops : CompactIo.whole.Stops io)
      (hsurvives : (s.cut cfg io now).Survives listing)
      (hl : (s.compact cfg io now).fs.Lists cfg.dir listing)
      (hopen : Lsm.open (some s.wal) listing = .ok (mem, levels)) :
      Advances cfg P s (.restart listing) ((s.compact cfg io now).restart mem levels)

variable {s s' : Sys T} {a : Act T} {P : Sys T → Act T → Prop}

theorem tended_mono {Q : Sys T → Act T → Prop} (hPQ : P s a → Q s a) (h : s.Tended cfg P a) :
    s.Tended cfg Q a := by
  cases a with
  | compact => exact h
  | _ => exact hPQ h

/-- A weaker condition will do. -/
theorem Advances.mono {Q : Sys T → Act T → Prop} (h : Advances cfg P s a s')
    (hPQ : P s a → Q s a) : Advances cfg Q s a s' := by
  cases h with
  | step hs htended => exact .step hs (tended_mono hPQ htended)
  | cut htimely hstops hsurvives hl hopen => exact .cut htimely hstops hsurvives hl hopen

/-- It is one step of the store, or two. -/
theorem Advances.exists_run (h : Advances cfg P s a s') (hdistinct : P s a → s.Distinct cfg a) :
    ∃ bs, Runs.Run (Runs.Guarded (Step cfg) fun s a => s.Distinct cfg a) s bs s' := by
  cases h with
  | step hs htended =>
    refine ⟨[a], Runs.Run.single ⟨hs, ?_⟩⟩
    cases a with
    | compact => exact htended.2.1.notMem
    | _ => exact hdistinct htended
  | cut htimely _ _ hl hopen =>
    exact ⟨_, (Runs.Run.single ⟨.compact, htimely.notMem⟩).snoc ⟨.restart hl hopen, trivial⟩⟩

theorem housed_of_advances (hdistinct : ∀ s a, P s a → s.Distinct cfg a) {as : List (Act T)}
    (hrun : Runs.Run (Advances cfg P) Sys.init as s) : Housed cfg s := by
  suffices h : ∃ bs, Runs.Run (Runs.Guarded (Step cfg) fun s a => s.Distinct cfg a)
      Sys.init bs s by
    obtain ⟨bs, hrun⟩ := h
    exact .of_run hrun
  induction hrun with
  | nil => exact ⟨[], .nil⟩
  | snoc _ hs ih =>
    obtain ⟨bs, hrun⟩ := ih
    obtain ⟨bs', hrun'⟩ := hs.exists_run (hdistinct _ _)
    exact ⟨bs ++ bs', hrun.trans hrun'⟩

namespace Durable

/-- **After a crash that is survived** everything is as after other crashes. -/
theorem cut (h : Durable cfg s) {io : CompactIo} {now : ℕ} {listing : List Path} {mem : MemTable}
    {levels : LevelManager} (htimely : s.Timely cfg now) (hstops : CompactIo.whole.Stops io)
    (hsurvives : (s.cut cfg io now).Survives listing)
    (hl : (s.compact cfg io now).fs.Lists cfg.dir listing)
    (hopen : Lsm.open (some s.wal) listing = .ok (mem, levels)) :
    Durable cfg ((s.compact cfg io now).restart mem levels) := by
  have hcompact : Step cfg s (.compact io now) (s.compact cfg io now) := .compact
  have hrestart : Step cfg (s.compact cfg io now) (.restart listing)
      ((s.compact cfg io now).restart mem levels) := .restart hl hopen
  have hhoused : Housed cfg (s.compact cfg io now) := h.housed_compact htimely
  have hintact : Intact cfg (s.compact cfg io now) := h.intact_compact
  have hlogged := h.logged.step hcompact trivial
  have hcarries := h.carries.step carried_isShort h.logged hcompact trivial (by simp)
  have hbalanced : ((s.compact cfg io now).restart mem levels).Balanced :=
    .restart hlogged hcarries.log hopen
  have hshelves := Config.shelves_discoverLevels hhoused.inPlace hl
  obtain ⟨es, -, -, rfl⟩ := Lsm.open_eq_ok.mp hopen
  refine ⟨hhoused.step hrestart (by simp) (by simp), hintact.step hhoused hrestart (by simp),
    hlogged.step hrestart trivial,
    hcarries.step carried_isShort hlogged hrestart trivial (by simp), hbalanced,
    hsurvives.disjoint, [], ⟨?_, ?_, ?_, ?_, ?_⟩, fun k => ?_, by simp [Sys.restart]⟩
  · rw [List.append_nil]
    exact hshelves
  · simp [Sys.restart]
  · simp [Sys.restart]
  · simp [Sys.restart]
  · simp [Sys.restart]
  · have hread := (h.readsBack_cut htimely hstops hl k).covered (hsurvives.covered k)
    have hget := h.getAfterRestart_of_shelves hhoused hintact hshelves hl k
    have hlog : log ((s.compact cfg io now).restart mem (discoverLevels listing)).hist =
        log s.hist := (log_append _ _).trans (log_append _ _)
    have hmap : map ((s.compact cfg io now).restart mem (discoverLevels listing)).hist =
        map s.hist := (map_congr (completed_step hrestart (by simp))).trans
      (map_congr (completed_step hcompact (by simp)))
    rw [hlog, hmap, shelved, List.append_nil]
    exact Except.ok.inj (hget.symm.trans hread)

theorem advance (h : Durable cfg s) (hs : Advances cfg Disciplined s a s') : Durable cfg s' := by
  cases hs with
  | step hs htended => exact h.step hs htended
  | cut htimely hstops hsurvives hl hopen => exact h.cut htimely hstops hsurvives hl hopen

theorem of_run {as : List (Act T)} (hrun : Runs.Run (Advances cfg Disciplined) Sys.init as s) :
    Durable cfg s :=
  hrun.invariant .init fun _ _ _ h hs => h.advance hs

/-! ### What is survived -/

section Survives

variable (h : Durable cfg s) {io : CompactIo} {now : ℕ} {listing : List Path}
  (htimely : s.Timely cfg now) (hl : (s.compact cfg io now).fs.Lists cfg.dir listing)

include h htimely hl

theorem survives_of_same (hfs : ∀ p : Path, p.NamedSst → (s.compact cfg io now).fs p = s.fs p) :
    (s.cut cfg io now).Survives listing := by
  obtain ⟨landed, hr⟩ := h.recovers
  refine ⟨fun k v hb => ?_, ?_⟩
  · obtain ⟨p, hp, hnone⟩ := hb.removed
    have htracked := h.housed.tracked (LevelManager.mem_of_l0 hp)
    exact absurd hnone ((hfs p htracked.1).trans_ne htracked.2)
  · rw [(hr.lined.shelves.congr hfs).discoverLevels_eq (h.housed_compact htimely).inPlace hl]
    exact h.disjoint.congr fun p hp => hfs p (h.housed.tracked (LevelManager.mem_of_l1 hp)).1

/-- Behind the rename: the L1 files that have been merged must be gone. -/
theorem survives_of_renamed (hstops : CompactIo.whole.Stops io) {oldest : Path}
    (ho : s.levels.l0.head? = some oldest)
    (hok : (s.levels.compact cfg.sizing cfg.heap io now s.fs).1 = .ok ())
    (hgone : ∀ p ∈ s.levels.overlapping s.fs, (s.compact cfg io now).fs p = none) :
    (s.cut cfg io now).Survives listing := by
  obtain ⟨landed, hr⟩ := h.recovers
  have hcut := h.cutShort htimely hstops ho hok hr.lined
  refine ⟨fun k v hb => ?_, ?_⟩
  · obtain ⟨p, hp, hv⟩ := hb.left
    have hold := hcut.compacted.lookup_of_tracked hcut.sound hcut.fresh
      (LevelManager.mem_of_l1 hp) hv
    -- what is there of L1 has not been merged, and no file of L0 has its keys
    have hu : p ∈ s.levels.untouched s.fs := by
      refine List.mem_filter.mpr ⟨hp, ?_⟩
      by_contra hmeets
      have hmem : p ∈ s.levels.overlapping s.fs := List.mem_filter.mpr ⟨hp, by simpa using hmeets⟩
      rw [show (s.cut cfg io now).fs.records p = [] from
        Fs.records_of_missing (hgone p hmem), lookup_nil] at hv
      exact absurd hv.symm (Option.some_ne_none v)
    have hlog : (MemTable.new.applyAll (log s.hist)).get k = none := hb.logged
    have hrecovered := hr.recovered k
    rw [shelved, find_append, LevelManager.find_two, hlog, hcut.firstHit_landed hr.lined hb,
      hcut.sound.firstHit_l1 hp hold] at hrecovered
    rw [show firstHit (s.levels.l0.reverse.map s.fs.records) k = none from
      newestL0_eq_none_iff.mpr (hcut.sound.of_untouched hu hold).1] at hrecovered
    exact hb.stale hrecovered
  · have hl1 : s.levels.l1.filter (fun p => ((s.compact cfg io now).fs p).isSome) =
        s.levels.untouched s.fs := by
      refine List.filter_congr fun p hp => ?_
      cases hmeets : s.levels.meetsL0 s.fs p with
      | true =>
        rw [hgone p (List.mem_filter.mpr ⟨hp, hmeets⟩)]
        rfl
      | false =>
        have hmem := LevelManager.mem_of_l1 hp
        rw [hcut.compacted.untouched_kept hcut.sound.toUsable
          (List.mem_filter.mpr ⟨hp, by simp [hmeets]⟩) fun he => hcut.fresh (he ▸ hmem)]
        exact Option.isSome_iff_ne_none.mpr (h.housed.tracked hmem).2
    have hio := hstops.reads CompactIo.readsComplete_whole
    rw [(hcut.shelves hr.lined htimely).discoverLevels_eq (h.housed_compact htimely).inPlace hl,
      LevelManager.l1_mk, hl1, ← hcut.output]
    exact LevelManager.rangesDisjoint_compact hio.rangeL0 hio.rangeL1
      (fun p hp => hcut.sound.sorted hp) ho (compact_eq_ok hok)
      (fun p hp => hcut.sound.named p (LevelManager.mem_of_l1 hp)) h.disjoint fun hu =>
        hcut.fresh (LevelManager.mem_of_l1 (LevelManager.mem_of_untouched hu))

/-- **A compaction that has not renamed its output, or has deleted what it has merged of L1, can
be cut short.** -/
theorem survives_cut (hstops : CompactIo.whole.Stops io)
    (hclear : (s.compact cfg io now).fs ⟨cfg.dir, FileName.l1Name now⟩ = none ∨
      ∀ p ∈ s.levels.overlapping s.fs, (s.compact cfg io now).fs p = none) :
    (s.cut cfg io now).Survives listing := by
  rcases h.housed.compact_cases io now with hfs | ⟨oldest, ho, hok⟩
  · exact h.survives_of_same htimely hl hfs
  · refine h.survives_of_renamed htimely hl hstops ho hok (hclear.resolve_left fun hnone => ?_)
    obtain ⟨landed, hr⟩ := h.recovers
    exact (h.cutShort htimely hstops ho hok hr.lined).stored.ne_none hnone

end Survives

end Durable

end Sys

/-! ### The process -/

namespace Process

variable {P : Sys T → Tabula.Act T → Prop} {f f' : Process T} {a : Act T}

/-- The compactions that start are such that nobody will notice them, and a crash that cuts one
short is survived. -/
def Weathered (cfg : Config) (P : Sys T → Tabula.Act T → Prop) (f : Process T) : Act T → Prop
  | .crash listing => (f.background.Writes → f.sys.Survives listing) ∧ P f.sys (.restart listing)
  | a => f.Tended cfg P a

omit [DecidableEq T] in
theorem Tended.weathered (h : f.Tended cfg P a) : f.Weathered cfg P a := by
  cases a with
  | crash => exact ⟨fun hwrites => absurd hwrites h.1, h.2⟩
  | _ => exact h

namespace Attends

variable {s : Sys T} (h : Attends cfg f s)

include h

omit [DecidableEq T] in
/-- The files are those of a compaction that has stopped. -/
theorem exists_script {io : CompactIo} {cuts : List ℕ} {now : ℕ}
    {p : FileProg (Res CompactionError Unit × LevelManager)}
    (hb : f.background = .compacting io cuts now p) : ∃ io, s.Timely cfg now ∧
      CompactIo.whole.Stops io ∧ f.sys = s.cut cfg io now := by
  obtain ⟨hreach, -, -⟩ := h.toMatches.compacting io cuts now p hb
  obtain ⟨rfl, htimely⟩ := h.timely io cuts now p hb
  obtain ⟨io', hstops, hfs⟩ := LevelManager.exists_script_of_reaches hreach
  refine ⟨io', htimely, hstops, ?_⟩
  rw [h.toMatches.sys, ← hfs]
  rfl

omit [DecidableEq T] in
theorem exists_cut (hwrites : f.background.Writes) : ∃ io now, s.Timely cfg now ∧
    CompactIo.whole.Stops io ∧ f.sys = s.cut cfg io now := by
  cases hb : f.background with
  | compacting io cuts now p =>
    obtain ⟨io', hcut⟩ := h.exists_script hb
    exact ⟨io', now, hcut⟩
  | waiting | polling | due | exited | panicked =>
    rw [hb] at hwrites
    exact hwrites.elim

/-- **One step** is none of the store, or one that meets the condition, or a compaction that is
cut short and survived. -/
theorem step_weathered (hhoused : s.Housed cfg) (hP : Blind P) (hs : Step cfg f a f')
    (hweathered : f.Weathered cfg P a) :
    ∃ bs s', Runs.Run (Sys.Advances cfg P) s bs s' ∧ Attends cfg f' s' := by
  by_cases hcut : f.background.Writes ∧ ∃ listing, a = .crash listing
  · obtain ⟨hwrites, listing, rfl⟩ := hcut
    obtain ⟨io, now, htimely, hstops, hsys⟩ := h.exists_cut hwrites
    have hsurvives := hweathered.1 hwrites
    cases hs with
    | @crash _ mem levels hl hopen =>
      rw [hsys] at hsurvives hl hopen
      refine ⟨_, _, Runs.Run.single (.cut htimely hstops hsurvives hl hopen), ?_⟩
      have hsame : f.interrupted.restart mem levels =
          (s.compact cfg io now).restart mem levels := by
        rw [interrupted, if_pos hwrites, hsys]
        rfl
      rw [hsame]
      exact ⟨⟨rfl, fun _ => rfl, fun _ _ _ _ hp => by simp at hp, fun _ _ hp => by simp at hp⟩,
        by simp⟩
  · have htended : f.Tended cfg P a := by
      cases a with
      | crash listing => exact ⟨fun hwrites => hcut ⟨hwrites, listing, rfl⟩, hweathered.2⟩
      | _ => exact hweathered
    obtain ⟨bs, s', hrun, h'⟩ := h.step hhoused hP hs htended
    exact ⟨bs, s', hrun.mono fun _ _ _ hs => .step hs.1 hs.2, h'⟩

end Attends

theorem exists_advances (hP : Blind P) (hdistinct : ∀ s a, P s a → s.Distinct cfg a)
    {as : List (Act T)}
    (hrun : Runs.Run (Runs.Guarded (Step cfg) fun f a => f.Weathered cfg P a) init as f) :
    ∃ bs s, Runs.Run (Sys.Advances cfg P) Sys.init bs s ∧ Attends cfg f s := by
  induction hrun with
  | nil => exact ⟨[], Sys.init, .nil, .init, by simp [init]⟩
  | @snoc as f a f' _ hs ih =>
    obtain ⟨bs, s, hrun, h⟩ := ih
    obtain ⟨bs', s', hrun', h'⟩ :=
      h.step_weathered (Sys.housed_of_advances hdistinct hrun) hP hs.1 hs.2
    exact ⟨bs ++ bs', s', hrun.trans hrun', h'⟩

section Run

variable {as : List (Act T)}
  (hrun : Runs.Run (Runs.Guarded (Step cfg) fun f a => f.Weathered cfg Sys.Disciplined a) init as f)

include hrun

theorem exists_disciplined : ∃ bs s, Runs.Run (Sys.Advances cfg Sys.Disciplined) Sys.init bs s ∧
    Attends cfg f s := by
  refine exists_advances ?_ (fun s a h => h.distinct) hrun
  intro s fs a h
  cases a <;> exact ⟨h.lives, h.ticks, h.swaps, h.publishes, h.settles, h.turn, h.fits⟩

theorem durable_of_run (hquiet : ¬f.background.Writes) : Sys.Durable cfg f.sys := by
  obtain ⟨bs, s, hrun, h⟩ := exists_disciplined hrun
  rw [h.toMatches.sys_eq hquiet]
  exact .of_run hrun

/-- **Wherever the process dies**, with any number of clients, a restart finds what has been
written, but for a key that has lost its cover: of that it finds what an old file of L1 says. -/
theorem readsBack_of_run {listing : List Path} (hl : f.sys.fs.Lists cfg.dir listing) (k : Key) :
    f.sys.ReadsBack listing k := by
  by_cases hwrites : f.background.Writes
  · obtain ⟨bs, s, hrun, h⟩ := exists_disciplined hrun
    obtain ⟨io, now, htimely, hstops, hsys⟩ := h.exists_cut hwrites
    rw [hsys] at hl ⊢
    exact (Sys.Durable.of_run hrun).readsBack_cut htimely hstops hl k
  · have hdurable := durable_of_run hrun hwrites
    exact Sys.readsBack_of_present
      (fun p hp => (hdurable.housed.tracked (LevelManager.mem_of_l0 hp)).2)
      (hdurable.getAfterRestart_eq hl k)

/-- The directory can be listed. -/
theorem exists_lists : ∃ listing, f.sys.fs.Lists cfg.dir listing := by
  by_cases hwrites : f.background.Writes
  · obtain ⟨bs, s, hrun, h⟩ := exists_disciplined hrun
    obtain ⟨io, now, htimely, -, hsys⟩ := h.exists_cut hwrites
    have hhoused : Sys.Housed cfg (s.compact cfg io now) :=
      (Sys.Durable.of_run hrun).housed_compact htimely
    rw [hsys]
    exact hhoused.exists_lists
  · exact (durable_of_run hrun hwrites).housed.exists_lists

end Run

/-- Two keys are overwritten above a merged file, and the process dies when the next compaction
has deleted all of L0 but its newest file. A restart brings the old value of one of them back. -/
theorem readsBack_of_run_bared : ∃ (f : Process Bool) (listing : List Path),
    (f.sys.fs.Lists [] listing ∧ f.sys.Bared [1] [1] ∧
      Sys.map f.sys.hist [1] = some [9] ∧ Sys.map f.sys.hist [4] = some [8]) ∧
      getAfterRestart (some f.sys.wal) f.sys.fs listing [1] = .ok (some [1]) ∧
      getAfterRestart (some f.sys.wal) f.sys.fs listing [4] = .ok (some [8]) := by
  let overwrite (t : Bool) (k v : UInt8) (now : ℕ) : List (Act Bool) :=
    [.thread (.call t (.write (.put [k] [v])))] ++ (Act.flush t k now).tail
  obtain ⟨_, f, hrun, hbared, hcovered, h₁, h₄⟩ := exists_of_compactions
    (P := Sys.Disciplined) (.ofThreshold 1)
    [(Act.flush false 1 1 ++ Act.flush false 2 2 ++ Act.flush false 3 3 ++ Act.flush false 4 4 ++
      [.wake, .check], [], 1),
    (List.replicate 11 .work ++ [.finish] ++ overwrite true 1 9 5 ++ Act.flush false 2 6 ++
      Act.flush false 3 7 ++ overwrite true 4 8 8 ++ [.wake, .check], [1], 2)]
    (List.replicate 11 .work)
    (fun f => f.sys.Bared [1] [1] ∧
      (¬∀ p ∈ f.sys.levels.l0, lookup [4] (f.sys.fs.records p) = none) ∧
      Sys.map f.sys.hist [1] = some [9] ∧ Sys.map f.sys.hist [4] = some [8])
    (by decide +kernel)
  have hrun := hrun.mono fun _ _ _ hs => And.imp_right Tended.weathered hs
  obtain ⟨listing, hl⟩ := exists_lists hrun
  refine ⟨f, listing, ⟨hl, hbared, h₁, h₄⟩, (readsBack_of_run hrun hl [1]).bared [1] hbared, ?_⟩
  exact h₄ ▸ (readsBack_of_run hrun hl [4]).covered fun _ hb => hcovered hb.bare

end Process

end Tabula
