import Tabula.Lsm.Tended

/-!
# One client and the whole process

With one client the process is a map, and stays one through compactions and crashes
(`Tabula.Process.servesMap_of_run`): every `get` of a run is answered what was written last,
while the background thread compacts at any time and file by file, and what a crash leaves
between two compactions is recovered.

The store of `Tabula.Sys.refinesMap_of_run` has no compactions. Here they are, with the
condition under which nobody notices them. The invariant (`Tabula.Sys.Upheld`) is that of a
store whose compactions are not seen, with the lists in the order of the directory and L1
files whose ranges are disjoint; a restart finds the lists as they were and keeps all three.
-/

namespace Tabula

variable {cfg : Config}

namespace Sys

/-- **The condition for one client**: nothing fails, the clock ticks, and what is written fits
the length fields. -/
structure Steady (s : Sys Unit) (a : Act Unit) : Prop where
  lives : a.Lives
  ticks : s.Ticks a
  fits : a.Fits

instance (s : Sys Unit) (a : Act Unit) : Decidable (s.Steady a) :=
  decidable_of_iff (a.Lives ∧ s.Ticks a ∧ a.Fits) ⟨fun h => ⟨h.1, h.2.1, h.2.2⟩,
    fun h => ⟨h.1, h.2, h.3⟩⟩

theorem Steady.distinct {s : Sys Unit} {a : Act Unit} (h : s.Steady a) : s.Distinct cfg a := by
  cases a with
  | name t now =>
    intro hm
    obtain ⟨c, hc, rfl⟩ := List.mem_map.mp hm
    exact lt_irrefl _ (h.ticks c hc).1
  | compact => exact h.lives.elim
  | _ => trivial

variable {s s' : Sys Unit} {a : Act Unit}

/-! ### The invariant -/

/-- **A restart finds the lists as they were.** -/
theorem Mirrored.restart (h : Mirrored cfg s) (hsturdy : Sturdy cfg s) {listing : List Path}
    {mem : MemTable} {levels : LevelManager} (hl : s.fs.Lists cfg.dir listing)
    (hopen : Lsm.open (some s.wal) listing = .ok (mem, levels)) :
    Mirrored cfg (s.restart mem levels) ∧ levels.l1 = s.levels.l1 := by
  rw [hsturdy.open_eq h.shelves hl] at hopen
  obtain ⟨rfl, rfl⟩ := Prod.mk.inj (Except.ok.inj hopen)
  have hstock : (s.restart (MemTable.new.applyAll (log s.hist))
      ⟨[s.stock, s.levels.l1]⟩).stock = s.stock := List.append_nil _
  refine ⟨⟨?_, by simp [Sys.restart]⟩, rfl⟩
  rw [hstock]
  exact h.shelves

/-- What a `get` has not found in the MemTable is not there. -/
theorem get_of_missed_step (hs : Step cfg s a s') (ha : a.Serves) (key : Key)
    (hpc : s'.pc () = .missed key) : s'.mem.get key = none := by
  by_cases hquiet : a.Quiet
  · exact (quiet_step hs ha.succeeds.whole hquiet).missed key hpc
  · cases hs with
    | append | rename | truncate | publish => simp [Sys.append, Sys.rename, Sys.truncate,
        Sys.publish, goto] at hpc
    | compact | restart | flushFails | truncateFails | appendFails => exact ha.elim
    | call | insert | fill | name | swap | create | write | finish | hit | miss | search =>
      exact absurd trivial hquiet

/-- What holds in every run that meets the condition. -/
structure Upheld (cfg : Config) (s : Sys Unit) : Prop where
  sheltered : Sheltered cfg s
  mirrored : Mirrored cfg s
  disjoint : LevelManager.RangesDisjoint s.fs s.levels.l1
  missed : ∀ key, s.pc () = .missed key → s.mem.get key = none

namespace Upheld

theorem init : Upheld cfg Sys.init := ⟨.init, .init, List.Pairwise.nil, by simp [Sys.init]⟩

/-- The compaction that comes is seen neither by readers nor after a restart. -/
theorem compact (h : Upheld cfg s) {now : ℕ} (htimely : s.Timely cfg now)
    (hok : (s.levels.compact cfg.sizing cfg.heap .whole now s.fs).1 = .ok ()) :
    Upheld cfg (s.compact cfg .whole now) where
  sheltered := h.sheltered.step .compact
    (h.sheltered.unseen_of_ok h.mirrored h.disjoint hok htimely.agree htimely.clock) trivial trivial
  mirrored := h.mirrored.compact h.sheltered.housed hok htimely.clock
  disjoint := rangesDisjoint_compact h.sheltered.housed htimely hok h.sheltered.intact h.disjoint
  missed := h.missed

/-- The process dies and comes back. -/
theorem restart (h : Upheld cfg s) {listing : List Path} {mem : MemTable} {levels : LevelManager}
    (hl : s.fs.Lists cfg.dir listing)
    (hopen : Lsm.open (some s.wal) listing = .ok (mem, levels)) :
    Upheld cfg (s.restart mem levels) := by
  obtain ⟨hmirrored, hl1⟩ := h.mirrored.restart h.sheltered.sturdy hl hopen
  refine ⟨h.sheltered.step (.restart hl hopen) trivial trivial trivial, hmirrored, ?_,
    by simp [Sys.restart]⟩
  change LevelManager.RangesDisjoint s.fs levels.l1
  rw [hl1]
  exact h.disjoint

/-- **One step.** -/
theorem step (h : Upheld cfg s) (hs : Step cfg s a s') (htended : s.Tended cfg Steady a) :
    Upheld cfg s' := by
  have hserves : a.Serves → s.Steady a → (∀ listing, a ≠ .restart listing) → s.Harmless cfg a →
      Upheld cfg s' := fun ha hsteady hrestart hharmless =>
    have hc := completes_of_serves ha hsteady.ticks
    { sheltered := h.sheltered.step hs hharmless hsteady.ticks hsteady.fits
      mirrored := h.mirrored.step h.sheltered.housed hs hc.1 hc.2
      disjoint := rangesDisjoint_step h.sheltered.housed h.sheltered.intact h.disjoint hs htended
        hrestart
      missed := get_of_missed_step hs ha }
  cases a with
  | compact io now =>
    obtain ⟨rfl, htimely, hok⟩ := htended
    cases hs
    exact h.compact htimely hok
  | restart listing =>
    cases hs with
    | restart hl hopen => exact h.restart hl hopen
  | appendFails | flushFails | truncateFails => exact htended.lives.elim
  | _ => exact hserves trivial htended (by simp) trivial

theorem of_run {as : List (Act Unit)}
    (hrun : Runs.Run (Runs.Guarded (Step cfg) fun s a => s.Tended cfg Steady a) Sys.init as s) :
    Upheld cfg s :=
  hrun.invariant .init fun _ _ _ h hs => h.step hs.1 hs.2

/-- **A `get` is answered what was written last.** -/
theorem answered (h : Upheld cfg s) (hs : Step cfg s a s') {t : Unit} {k : Key}
    {r : Res LsmError (Option Value)} (hr : s'.hist = s.hist ++ [.answered t k r]) :
    r = .ok (map s.hist k) := by
  rcases hs.answered hr with ⟨hpc, value, hget, rfl⟩ | ⟨rfl, hpc, rfl⟩
  · have hview : (s.pc ()).view s.mem = s.mem := by
      rw [show s.pc () = .reading k from hpc]
      rfl
    rw [← h.sheltered.get_eq hview k, Lsm.get, hget]
  · have hview : (s.pc ()).view s.mem = s.mem := by
      rw [show s.pc () = .missed k from hpc]
      rfl
    rw [← h.sheltered.get_eq hview k, Lsm.get, h.missed k hpc]

end Upheld

/-- All answers of a run. -/
theorem eq_map_of_answered {as : List (Act Unit)}
    (hrun : Runs.Run (Runs.Guarded (Step cfg) fun s a => s.Tended cfg Steady a) Sys.init as s)
    {before after : List (Event Unit)} {t : Unit} {k : Key} {r : Res LsmError (Option Value)}
    (hhist : s.hist = before ++ .answered t k r :: after) : r = .ok (map before k) := by
  obtain ⟨bs, s₁, b, s₂, evs, evs', hrun, hs, hnew, rfl⟩ :=
    hrun.exists_of_mem_record rfl (fun _ _ _ hs => hs.1.hist_grows) hhist
  obtain ⟨rfl, rfl⟩ := hs.1.eq_nil_of_answered hnew
  rw [List.append_nil]
  exact (Upheld.of_run hrun).answered hs.1 hnew

end Sys

/-! ### The process -/

namespace Process

/-- **The process serves a map**: every `get` was answered what was written last before, and
so would be all those after a crash, unless that cuts a compaction short. -/
structure ServesMap (cfg : Config) (f : Process Unit) : Prop where
  answers : ∀ before after t k r, f.sys.hist = before ++ .answered t k r :: after →
    r = .ok (Sys.map before k)
  reopened : ¬f.background.Writes → ∀ listing, f.sys.fs.Lists cfg.dir listing → ∀ k,
    getAfterRestart (some f.sys.wal) f.sys.fs listing k = .ok (Sys.map f.sys.hist k)

theorem blind_steady : Blind (T := Unit) Sys.Steady := by
  intro s fs a h
  cases a <;> exact ⟨h.lives, h.ticks, h.fits⟩

variable {as : List (Act Unit)} {f : Process Unit}
  (hrun : Runs.Run (Runs.Guarded (Step cfg) fun f a => f.Tended cfg Sys.Steady a) init as f)

include hrun

theorem upheld_of_run (hquiet : ¬f.background.Writes) : Sys.Upheld cfg f.sys := by
  obtain ⟨bs, s, hrun, h⟩ := exists_tended blind_steady (fun s a h => h.distinct) hrun
  rw [h.toMatches.sys_eq hquiet]
  exact .of_run hrun

/-- **With one client the process is a map**, with compactions and crashes in between. -/
theorem servesMap_of_run : f.ServesMap cfg where
  answers before after t k r hanswered := by
    obtain ⟨bs, s, hrun, h⟩ := exists_tended blind_steady (fun s a h => h.distinct) hrun
    have hhist : f.sys.hist = s.hist := by rw [h.toMatches.sys]
    exact Sys.eq_map_of_answered hrun (hhist.symm.trans hanswered)
  reopened hquiet listing hl k := (upheld_of_run hrun hquiet).sheltered.getAfterRestart_eq hl k

theorem exists_crash (hquiet : ¬f.background.Writes) : ∃ listing, Runs.Guarded (Step cfg)
    (fun f a => f.Tended cfg Sys.Steady a) f (.crash listing)
      (f.reborn ⟨[f.sys.stock, f.sys.levels.l1]⟩) := by
  have h := upheld_of_run hrun hquiet
  obtain ⟨listing, hl⟩ := h.sheltered.housed.exists_lists
  exact ⟨listing, crash_of_open hquiet hl (h.sheltered.sturdy.open_eq h.mirrored.shelves hl)
    ⟨trivial, trivial, trivial⟩⟩

omit hrun

/-- A key is overwritten after a compaction has merged it, the process dies in the flush, and the
`get` after the restart finds the new value. -/
theorem servesMap_of_run_overwritten : ∃ f : Process Unit,
    (f.sys.levels.l1 ≠ [] ∧ .answered () [3] (.ok (some [9])) ∈ f.sys.hist) ∧
      f.ServesMap (.ofThreshold 1) := by
  let gets : List (Act Unit) := [.thread (.call () (.get [3])), .thread (.look ())]
  obtain ⟨_, f, hrun, hquiet, hrest⟩ := exists_of_compactions (P := Sys.Steady) (.ofThreshold 1)
    [(Act.flush () 1 1 ++ Act.flush () 2 2 ++ Act.flush () 3 3 ++ Act.flush () 4 4 ++
      [.wake, .check], [], 6)]
    (List.replicate 5 .work ++ [.thread (.call () (.write (.put [3] [9]))), .thread (.append ())] ++
      List.replicate 6 .work ++ [.finish, .thread (.insert ()), .thread (.name () 7),
      .thread (.swap ()), .thread (.create ())])
    (fun f => ¬f.background.Writes ∧
      (Runs.follow (next (.ofThreshold 1)) (Meets Sys.Steady)
        (f.reborn ⟨[f.sys.stock, f.sys.levels.l1]⟩) gets).any (fun f => decide
          (f.sys.levels.l1 ≠ [] ∧ .answered () [3] (.ok (some [9])) ∈ f.sys.hist)) = true)
    (by decide +kernel)
  obtain ⟨listing, hcrash⟩ := exists_crash hrun hquiet
  obtain ⟨f', hrun', hf'⟩ := Runs.exists_of_follow step_of_next _ _ gets _ hrest
  refine ⟨f', hf', servesMap_of_run ((hrun.snoc hcrash).trans (hrun'.mono ?_))⟩
  exact fun _ _ _ hs => ⟨hs.1, hs.2.tended⟩

end Process

end Tabula
