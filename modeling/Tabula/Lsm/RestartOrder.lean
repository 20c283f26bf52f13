import Tabula.Lsm.L0Order

/-!
# The order in which a restart finds the files

A flush takes its name from the clock before it waits for the WAL lock, and it swaps the
MemTable out once it has the lock. Nobody says that the lock is handed on in the order of
the names: a flush that has read the clock first may swap last. Its file then has the
newest records and the oldest name, and `discover_levels`, which has nothing but the
names, puts it below the files it should hide.

The MemTables that have been swapped out are those whose files have been added to L0 and
those on their way there (`Tabula.Sys.SwappedOut`). As long as every flush swaps before
the waiting flushes with later names, they can be listed by age, and this is the list by
name as well (`Tabula.Sys.Queued`).
-/

namespace Tabula

open SortedTable

variable {T : Type} {cfg : Config}

/-- The path of a flush that waits for the WAL lock. -/
@[simp] def Pc.queued : Pc → Option Path
  | flushing _ (.named p) => some p
  | flushing _ .start | flushing _ (.swapped _) | flushing _ (.writing _) | flushing _ (.written _)
  | flushing _ (.renamed _) | flushing _ (.truncated _) | idle | logging _ | logged _ | reading _
  | missed _ => none

namespace Sys

/-- The MemTable has been swapped out: its file is on its way, or has been added to L0. -/
def SwappedOut (s : Sys T) (w : Swapped) : Prop :=
  w ∈ publications s.hist ∨ ∃ t, (s.pc t).out = some w

theorem swappedOut_iff_of_idle {s : Sys T} (hidle : ∀ t, s.pc t = .idle) (w : Swapped) :
    s.SwappedOut w ↔ w ∈ publications s.hist := by
  simp [SwappedOut, hidle]

variable [DecidableEq T] {s s' : Sys T} {a : Act T}

/-- A thread moves on, and keeps what it has swapped out. -/
theorem swappedOut_goto {t : T} {pc : Pc} (hpc : pc.out = (s.pc t).out)
    (hpcs : s'.pc = Function.update s.pc t pc)
    (hpublications : publications s'.hist = publications s.hist) (w : Swapped) :
    s'.SwappedOut w ↔ s.SwappedOut w := by
  have hout : ∀ t', (s'.pc t').out = (s.pc t').out := by
    rw [hpcs]
    exact forall_goto (P := fun t' x => Pc.out x = (s.pc t').out) hpc fun _ _ => rfl
  simp only [SwappedOut, hpublications, hout]

/-- Only a swap swaps out. -/
theorem swappedOut_step (hs : Step cfg s a s') (ha : a.Serves) (hswap : ∀ t, a ≠ .swap t)
    (w : Swapped) : s'.SwappedOut w ↔ s.SwappedOut w := by
  have hpublications := publications_step hs
  cases hs with
  | @call t op hpc =>
    exact swappedOut_goto (by cases op <;> simp [hpc, Op.begin]) rfl (hpublications (by simp)) w
  | append hpc | insert hpc | fill hpc | name hpc | create hpc | write hpc | finish hpc
  | rename hpc | truncate hpc | hit hpc | miss hpc | search hpc =>
    exact swappedOut_goto (by simp [hpc]) rfl (hpublications (by simp)) w
  | swap => exact absurd rfl (hswap _)
  | @publish t e w' hpc =>
    have hnew : publications (s.publish t e w').hist = publications s.hist ++ [w'] :=
      publications_append _ _
    rw [SwappedOut, SwappedOut, hnew, List.mem_append, List.mem_singleton, or_assoc]
    refine or_congr_right ⟨?_, ?_⟩
    · rintro (rfl | ⟨t', ht'⟩)
      · exact ⟨t, by simp [hpc]⟩
      · exact ⟨t', out_goto (by simp) t' w ht'⟩
    · rintro ⟨t', ht'⟩
      by_cases ht : t' = t
      · subst ht
        rw [hpc] at ht'
        exact Or.inl (Option.some.inj ht').symm
      · exact Or.inr ⟨t', by simpa [publish, goto, ht] using ht'⟩
  | compact | restart | appendFails | flushFails | truncateFails => exact ha.elim

/-- A swap swaps out the MemTable there is. -/
theorem swappedOut_swap {t : T} {e : WalEntry} {p : Path} (hpc : s.pc t = .flushing e (.named p))
    (w : Swapped) :
    (s.swap t e p).SwappedOut w ↔ s.SwappedOut w ∨ w = ⟨p, s.mem, swaps s.hist⟩ := by
  have hsame : publications (s.swap t e p).hist = publications s.hist :=
    (publications_append _ _).trans (List.append_nil _)
  rw [SwappedOut, SwappedOut, hsame, or_assoc]
  refine or_congr_right ⟨?_, ?_⟩
  · rintro ⟨t', ht'⟩
    by_cases ht : t' = t
    · subst ht
      exact Or.inr (by simpa [swap, goto, eq_comm] using ht')
    · exact Or.inl ⟨t', by simpa [swap, goto, ht] using ht'⟩
  · rintro (⟨t', ht'⟩ | rfl)
    · have ht : t' ≠ t := by
        rintro rfl
        simp [hpc] at ht'
      exact ⟨t', by simpa [swap, goto, ht] using ht'⟩
    · exact ⟨t, by simp [swap, goto]⟩

/-- **The MemTables in the order of their swaps**: their names are in order, and come before
those of the flushes that wait. -/
structure Queued (s : Sys T) (ws : List Swapped) : Prop where
  ages : ws.map Swapped.age = List.range (swaps s.hist)
  mem : ∀ w, w ∈ ws ↔ s.SwappedOut w
  names : NameSorted (ws.map Swapped.path)
  queue : ∀ t p, (s.pc t).queued = some p → ∀ w ∈ ws, w.path.name < p.name

omit [DecidableEq T] in
theorem Queued.init : Queued (Sys.init : Sys T) [] :=
  ⟨rfl, by simp [SwappedOut, publications, Sys.init], List.Pairwise.nil, by simp⟩

/-- **A flush swaps before the waiting flushes with later names.** -/
def SwapsInTurn (s : Sys T) : Act T → Prop
  | .swap t => ∀ p ∈ (s.pc t).queued, ∀ t', t' ≠ t → ∀ q ∈ (s.pc t').queued, p.name < q.name
  | _ => True

instance [Fintype T] (s : Sys T) : (a : Act T) → Decidable (s.SwapsInTurn a)
  | .swap t => inferInstanceAs (Decidable (∀ p ∈ (s.pc t).queued, ∀ t', t' ≠ t →
      ∀ q ∈ (s.pc t').queued, p.name < q.name))
  | .call _ _ | .append _ | .insert _ | .name _ _ | .create _ | .write _ _ | .finish _ | .rename _
  | .truncate _ | .publish _ | .look _ | .search _ | .compact _ _ | .restart _ | .appendFails _ _
  | .flushFails _ | .truncateFails _ => .isTrue trivial

/-- A step that swaps out nothing, and takes no name. -/
theorem Queued.of_same {ws : List Swapped} (h : s.Queued ws)
    (hswapped : ∀ w, s'.SwappedOut w ↔ s.SwappedOut w) (hswaps : swaps s'.hist = swaps s.hist)
    {t : T} {pc : Pc} (hpcs : s'.pc = Function.update s.pc t pc) (hpc : pc.queued = none) :
    s'.Queued ws := by
  refine ⟨by rw [hswaps]; exact h.ages, fun w => (h.mem w).trans (hswapped w).symm, h.names, ?_⟩
  rw [hpcs]
  refine forall_goto (P := fun _ x => ∀ p, Pc.queued x = some p → ∀ w ∈ ws, w.path.name < p.name)
    ?_ fun t' _ => h.queue t'
  rintro p hp
  rw [hpc] at hp
  exact absurd hp.symm (Option.some_ne_none p)

omit [DecidableEq T] in
/-- What has been swapped out has the name of a reading. -/
theorem Named.exists_reading (h : Named cfg s) {w : Swapped} (hw : s.SwappedOut w) :
    ∃ t now, (t, now) ∈ clocks s.hist ∧ w.path = cfg.nextSstablePath now := by
  rcases hw with hw | ⟨t, ht⟩
  · exact h.published w hw
  · obtain ⟨now, hown, hpath⟩ := (h.pc t).exists_own ht
    exact ⟨t, now, hown.1, hpath⟩

/-- A flush takes a name: its reading is later than all those before it. -/
theorem Queued.name {ws : List Swapped} (h : s.Queued ws) (hnamed : Named cfg s) {t : T}
    {e : WalEntry} {now : ℕ} (hswapped : ∀ w, (s.name t cfg e now).SwappedOut w ↔ s.SwappedOut w)
    (hticks : s.Ticks (.name t now)) : (s.name t cfg e now).Queued ws := by
  have hages : swaps (s.name t cfg e now).hist = swaps s.hist := List.countP_append
  refine ⟨by rw [hages]; exact h.ages, fun w => (h.mem w).trans (hswapped w).symm, h.names, ?_⟩
  refine forall_goto (P := fun _ x => ∀ p, Pc.queued x = some p → ∀ w ∈ ws, w.path.name < p.name)
    ?_ fun t' _ => h.queue t'
  rintro p hp w hw
  obtain rfl := Option.some.inj hp
  obtain ⟨t', now', hm, hpath⟩ := hnamed.exists_reading ((h.mem w).mp hw)
  obtain ⟨hlt, hdigits⟩ := hticks _ hm
  rw [hpath]
  exact FileName.l0Name_lt hdigits hlt

/-- A flush swaps: its MemTable is the last one, and so is its name. -/
theorem Queued.swap {ws : List Swapped} (h : s.Queued ws) {t : T} {e : WalEntry} {p : Path}
    (hpc : s.pc t = .flushing e (.named p)) (hturn : s.SwapsInTurn (.swap t)) :
    (s.swap t e p).Queued (ws ++ [⟨p, s.mem, swaps s.hist⟩]) := by
  have hnext : swaps (s.swap t e p).hist = swaps s.hist + 1 := List.countP_append
  have hp : (s.pc t).queued = some p := by simp [hpc]
  refine ⟨?_, fun w => ?_, ?_, ?_⟩
  · rw [hnext, List.range_succ, List.map_append, h.ages]
    rfl
  · rw [List.mem_append, List.mem_singleton, h.mem, swappedOut_swap hpc]
  · rw [List.map_append, NameSorted, List.pairwise_append]
    refine ⟨h.names, List.pairwise_singleton _ _, fun q hq q' hq' => ?_⟩
    obtain ⟨w, hw, rfl⟩ := List.mem_map.mp hq
    rw [List.mem_singleton.mp hq']
    exact h.queue t p hp w hw
  · refine forall_goto (P := fun (_ : T) x => ∀ q, Pc.queued x = some q →
      ∀ w ∈ ws ++ [⟨p, s.mem, swaps s.hist⟩], w.path.name < q.name) ?_ fun t' ht q hq w hw => ?_
    · rintro q hq
      exact absurd hq.symm (Option.some_ne_none q)
    · rcases List.mem_append.mp hw with hw | hw
      · exact h.queue t' q hq w hw
      · -- those that still wait have later names than the one that swaps
        rw [List.mem_singleton.mp hw]
        exact hturn p hp t' ht q hq

/-- One step. -/
theorem Queued.step {ws : List Swapped} (h : s.Queued ws) (hnamed : Named cfg s)
    (hs : Step cfg s a s') (ha : a.Serves) (hticks : s.Ticks a) (hturn : s.SwapsInTurn a) :
    ∃ ws', s'.Queued ws' := by
  have hswapped := swappedOut_step hs ha
  have hswaps := swaps_step hs
  cases hs with
  | call | append | insert | fill | create | write | finish | rename | truncate | publish | hit
  | miss | search =>
    refine ⟨ws, h.of_same (hswapped (by simp)) (hswaps (by simp)) rfl ?_⟩
    first | rfl | (rename_i op _; cases op <;> rfl)
  | name => exact ⟨ws, h.name hnamed (hswapped (by simp)) hticks⟩
  | swap hpc => exact ⟨_, h.swap hpc hturn⟩
  | compact | restart | appendFails | flushFails | truncateFails => exact ha.elim

theorem SwappedOut.step {w : Swapped} (hw : s.SwappedOut w) (hs : Step cfg s a s')
    (ha : a.Serves) : s'.SwappedOut w := by
  by_cases hswap : ∃ t, a = .swap t
  · obtain ⟨t, rfl⟩ := hswap
    cases hs with
    | swap hpc => exact (swappedOut_swap hpc w).mpr (Or.inl hw)
  · exact (swappedOut_step hs ha (fun t he => hswap ⟨t, he⟩) w).mpr hw

/-! ### Files -/

/-- **The files are those of the MemTables that have been swapped out**, as they were
written once they are in L0. -/
structure Filed (cfg : Config) (s : Sys T) : Prop where
  file : ∀ p : Path, p.NamedSst → s.fs p ≠ none → ∃ w, s.SwappedOut w ∧ p = w.path
  holds : ∀ w ∈ publications s.hist, cfg.Holds s.fs w.path w.old

omit [DecidableEq T] in
theorem Filed.init : Filed cfg (Sys.init : Sys T) :=
  ⟨fun _ _ h => absurd rfl h, by simp [Sys.init, publications]⟩

/-- An SSTable appears by the rename of a flush. -/
theorem file_step (hs : Step cfg s a s') (ha : a.Serves) {p : Path} (hp : p.NamedSst)
    (hne : s'.fs p ≠ none) : s.fs p ≠ none ∨ ∃ t w, (s.pc t).out = some w ∧ p = w.path := by
  cases hs with
  | @create t e w | @write t e w | @finish t e w =>
    exact Or.inl ((Fs.write_of_ne (hp.ne_tmp w.path) s.fs _).symm.trans_ne hne)
  | @rename t e w hpc =>
    by_cases hpw : p = w.path
    · exact Or.inr ⟨t, w, by simp [hpc], hpw⟩
    · exact Or.inl ((Fs.rename_of_ne (hp.ne_tmp w.path) hpw s.fs).symm.trans_ne hne)
  | call | append | insert | fill | name | swap | truncate | publish | hit | miss | search =>
    exact Or.inl hne
  | compact | restart | appendFails | flushFails | truncateFails => exact ha.elim

/-- One step. -/
theorem Filed.step (h : Filed cfg s) (hnamed : Named cfg s) (hs : Step cfg s a s')
    (ha : a.Serves) : Filed cfg s' := by
  refine ⟨fun p hp hne => ?_, fun w hw => ?_⟩
  · rcases file_step hs ha hp hne with hfile | ⟨t, w, hw, rfl⟩
    · obtain ⟨w, hw, rfl⟩ := h.file p hp hfile
      exact ⟨w, hw.step hs ha, rfl⟩
    · exact ⟨w, SwappedOut.step (Or.inr ⟨t, hw⟩) hs ha, rfl⟩
  · have hkept : w ∈ publications s.hist → cfg.Holds s'.fs w.path w.old := by
      intro hw
      obtain ⟨-, now, -, hpath⟩ := hnamed.published w hw
      have hholds := h.holds w hw
      refine hholds.congr ?_
      rw [hpath] at hholds ⊢
      exact hnamed.fs_step hs (by rintro io now' rfl; exact ha.elim) hholds.ne_none
    by_cases hpublish : ∃ t, a = .publish t
    · -- the file that is added has been renamed to its path, complete
      obtain ⟨t, rfl⟩ := hpublish
      cases hs with
      | @publish t e w' hpc =>
        have hw' := hnamed.pc t
        rw [hpc] at hw'
        obtain ⟨-, -, -, hholds⟩ := hw'
        have hnew : publications (s.publish t e w').hist = publications s.hist ++ [w'] :=
          publications_append _ _
        rw [hnew, List.mem_append, List.mem_singleton] at hw
        rcases hw with hw | rfl
        · exact hkept hw
        · exact hholds
    · rw [publications_step hs fun t he => hpublish ⟨t, he⟩] at hw
      exact hkept hw

/-! ### After the run -/

/-- What holds in every such run. -/
structure Chronicled (cfg : Config) (s : Sys T) : Prop where
  locked : s.Locked
  staged : s.Staged cfg fun _ => True
  named : Named cfg s
  filed : Filed cfg s
  queued : ∃ ws, s.Queued ws

theorem Chronicled.step (h : Chronicled cfg s) (hs : Step cfg s a s') (ha : a.Serves)
    (hticks : s.Ticks a) (hturn : s.SwapsInTurn a) : Chronicled cfg s' where
  locked := h.locked.step hs
  staged := h.staged.step h.locked hs (fun _ _ => trivial) (by
    rintro io now rfl
    exact ha.elim)
  named := h.named.step h.staged hs (by
    rintro t now rfl t' hm
    exact lt_irrefl _ (hticks _ hm).1) (by
    rintro io now rfl
    exact ha.elim)
  filed := h.filed.step h.named hs ha
  queued := by
    obtain ⟨ws, hws⟩ := h.queued
    exact hws.step h.named hs ha hticks hturn

omit [DecidableEq T] in
/-- Every `.sst` file is one of a MemTable that has been swapped out, and belongs to L0. -/
theorem Chronicled.file_mem (h : Chronicled cfg s) {ws : List Swapped} (hws : s.Queued ws)
    {p : Path} (hp : p.NamedSst) (hne : s.fs p ≠ none) :
    p ∈ ws.map Swapped.path ∧ p.parent = cfg.dir ∧ FileName.levelOf p.name = some 0 := by
  obtain ⟨w, hw, rfl⟩ := h.filed.file p hp hne
  obtain ⟨-, now, -, hpath⟩ := h.named.exists_reading hw
  refine ⟨List.mem_map_of_mem ((hws.mem w).mpr hw), ?_, ?_⟩
  · rw [hpath]
    rfl
  · rw [hpath, cfg.levelOf_nextSstablePath]

omit [DecidableEq T] in
/-- `discover_levels` finds these files and no others, in the order of the swaps. -/
theorem Chronicled.discoverLevels_eq (h : Chronicled cfg s) {ws : List Swapped}
    (hws : s.Queued ws) (hholds : ∀ w ∈ ws, cfg.Holds s.fs w.path w.old) {listing : List Path}
    (hl : s.fs.Lists cfg.dir listing) : (discoverLevels listing).l0 = ws.map Swapped.path ∧
      ((discoverLevels listing).levels.drop 1).flatten = [] := by
  constructor
  · refine level_eq hl hws.names fun p => ⟨fun hp => ?_, fun ⟨_, hne, hlevel⟩ =>
      (h.file_mem hws (FileName.suffix_of_levelOf hlevel) hne).1⟩
    obtain ⟨w, hw, rfl⟩ := List.mem_map.mp hp
    obtain ⟨-, now, -, hpath⟩ := h.named.exists_reading ((hws.mem w).mp hw)
    have hne := (hholds w hw).ne_none
    obtain ⟨-, hdir, hlevel⟩ := h.file_mem hws (hpath ▸ cfg.named_nextSstablePath now) hne
    exact ⟨hdir, hne, hlevel⟩
  · refine flatten_drop_discoverLevels hl fun p _ hne m hm => ?_
    obtain ⟨-, -, hlevel⟩ := h.file_mem hws (FileName.suffix_of_levelOf hm) hne
    obtain rfl := Option.some.inj (hm.symm.trans hlevel)
    exact Nat.one_pos

/-- A search of flushed files is one of the MemTables, the last one first. -/
theorem searchLevels_of_holds {fs : Fs} {lm : LevelManager} {ws : List Swapped}
    (hl0 : lm.l0 = ws.map Swapped.path) (hflat : (lm.levels.drop 1).flatten = [])
    (hholds : ∀ w ∈ ws, cfg.Holds fs w.path w.old) (hshort : ∀ w ∈ ws, w.old.IsShort) (key : Key) :
    searchLevels fs lm key =
      .ok (visible (firstHit (ws.reverse.map fun w => w.old.data) key)) := by
  have hstored : ∀ w ∈ ws.reverse, fs.Stored w.path w.old.data := fun w hw =>
    (hholds w (List.mem_reverse.mp hw)).stored (hshort w (List.mem_reverse.mp hw))
  have horder : lm.readOrder = ws.reverse.map Swapped.path := by
    rw [LevelManager.readOrder, hflat, List.append_nil, hl0, List.map_reverse]
  have hcomplete : ∀ p ∈ lm.readOrder, fs.Complete p := by
    rw [horder]
    intro p hp
    obtain ⟨w, hw, rfl⟩ := List.mem_map.mp hp
    exact (hstored w hw).complete
  have hrecords : (ws.reverse.map Swapped.path).map fs.records =
      ws.reverse.map fun w => w.old.data := by
    rw [List.map_map]
    exact List.map_congr_left fun w hw => (hstored w hw).records_eq
  rw [searchLevels_eq hcomplete, horder, hrecords]

/-- **The recovered L0 is in the order of its data**: the files of all MemTables, in the
order in which they were swapped out, so that a search finds the newest record. -/
structure RestartsInOrder (cfg : Config) (s : Sys T) (listing : List Path) (ws : List Swapped) :
    Prop where
  ages : ws.map Swapped.age = List.range (swaps s.hist)
  published : ∀ w, w ∈ ws ↔ w ∈ publications s.hist
  holds : ∀ w ∈ ws, cfg.Holds s.fs w.path w.old
  l0 : (discoverLevels listing).l0 = ws.map Swapped.path
  search : (∀ w ∈ ws, w.old.IsShort) → ∀ key,
    searchLevels s.fs (discoverLevels listing) key =
      .ok (visible (firstHit (ws.reverse.map fun w => w.old.data) key))

/-- **A restart sees L0 in the order in which the data was written**, in every run whose
steps meet the condition. -/
theorem restartsInOrder_of_run {as : List (Act T)} {s : Sys T}
    (hrun : Runs.Run (Runs.Guarded (Step cfg) fun s a => a.Serves ∧ s.Ticks a ∧ s.SwapsInTurn a)
      Sys.init as s) (hidle : ∀ t, s.pc t = .idle) {listing : List Path}
    (hl : s.fs.Lists cfg.dir listing) : ∃ ws, s.RestartsInOrder cfg listing ws := by
  have h : Chronicled cfg s := hrun.invariant
    ⟨by simp [Locked, Sys.init], fun _ => trivial, .init, .init, [], .init⟩
    fun _ _ _ h hs => h.step hs.1 hs.2.1 hs.2.2.1 hs.2.2.2
  obtain ⟨ws, hws⟩ := h.queued
  have hpublished : ∀ w, w ∈ ws ↔ w ∈ publications s.hist := fun w =>
    (hws.mem w).trans (swappedOut_iff_of_idle hidle w)
  have hholds : ∀ w ∈ ws, cfg.Holds s.fs w.path w.old := fun w hw =>
    h.filed.holds w ((hpublished w).mp hw)
  obtain ⟨hl0, hflat⟩ := h.discoverLevels_eq hws hholds hl
  exact ⟨ws, hws.ages, hpublished, hholds, hl0, fun hshort key =>
    searchLevels_of_holds hl0 hflat hholds hshort key⟩

/-- Two flushes that overlap: the second swaps after the first, and adds its file to L0
before it. -/
theorem restartsInOrder_of_run_overtaken :
    ∃ (s : Sys Bool) (listing : List Path) (ws : List Swapped), ws.length = 2 ∧
      s.levels.l0 ≠ (discoverLevels listing).l0 ∧
      s.RestartsInOrder (.ofThreshold 1) listing ws := by
  obtain ⟨s, hrun, hidle, hl0, hswaps⟩ := exists_of_nexts (.ofThreshold 1)
    (fun s a => s.Ticks a ∧ s.SwapsInTurn a) Sys.init
    [.call false (.write (.put [0] [1])), .append false, .insert false, .name false 1,
      .swap false, .create false, .finish false, .rename false, .truncate false,
      .call true (.write (.put [0] [2])), .append true, .insert true, .name true 2, .swap true,
      .create true, .finish true, .rename true, .truncate true, .publish true, .publish false]
    (fun s => (∀ t, s.pc t = .idle) ∧
      s.levels.l0 = [⟨[], FileName.l0Name 2⟩, ⟨[], FileName.l0Name 1⟩] ∧ swaps s.hist = 2)
    (by decide +kernel)
  obtain ⟨listing, hl⟩ := exists_lists_of_run hrun
  obtain ⟨ws, hws⟩ := restartsInOrder_of_run
    (hrun.mono fun _ _ _ h => ⟨h.1, h.2.1, h.2.2.1, h.2.2.2⟩) hidle hl
  have hlen : ws.length = 2 := by
    rw [← List.length_map (f := Swapped.age), hws.ages, hswaps, List.length_range]
  refine ⟨s, listing, ws, hlen, fun he => ?_, hws⟩
  -- the recovered list is sorted by name, and the live one is not
  have hsorted := nameSorted_level hl 0
  rw [show (discoverLevels listing).levels.getD 0 [] = _ from he.symm.trans hl0] at hsorted
  exact absurd hsorted (by decide +kernel)

/-- **An overwritten value can come back**: thread `false` takes the first name and swaps
last, with the newer value of the key. -/
theorem not_restartsInOrder_of_run :
    ¬∀ (cfg : Config) (as : List (Act Bool)) (s : Sys Bool) (listing : List Path),
      Runs.Run (Runs.Guarded (Step cfg) fun s a => a.Serves ∧ s.Ticks a) Sys.init as s →
      (∀ t, s.pc t = .idle) → s.fs.Lists cfg.dir listing →
      ∃ ws, s.RestartsInOrder cfg listing ws := by
  intro h
  obtain ⟨s, hrun, hidle, hfirst, hsecond, hswaps⟩ := exists_of_nexts (.ofThreshold 3)
    (fun s a => s.Ticks a) Sys.init
    [.call false (.write (.put [7] [7, 7])), .append false, .insert false, .name false 1,
      .call true (.write (.put [0] [1, 1])), .append true, .insert true, .name true 2, .swap true,
      .create true, .finish true, .rename true, .truncate true, .publish true,
      .call true (.write (.put [0] [2])), .append true, .insert true,
      .swap false, .create false, .finish false, .rename false, .truncate false, .publish false]
    (fun s => (∀ t, s.pc t = .idle) ∧
      (∀ w ∈ publications s.hist, w.age = 0 → w.path.name = FileName.l0Name 2) ∧
      (∀ w ∈ publications s.hist, w.age = 1 → w.path.name = FileName.l0Name 1) ∧
      swaps s.hist = 2) (by decide +kernel)
  obtain ⟨listing, hl⟩ := exists_lists_of_run hrun
  obtain ⟨ws, hws⟩ := h (.ofThreshold 3) _ s listing
    (hrun.mono fun _ _ _ h => ⟨h.1, h.2.1, h.2.2⟩) hidle hl
  have hages : ws.map Swapped.age = [0, 1] := by
    rw [hws.ages, hswaps]
    rfl
  obtain ⟨w, ws', rfl, hw, hws'⟩ := List.map_eq_cons_iff.mp hages
  obtain ⟨w', hw'⟩ := List.map_eq_singleton_iff.mp hws'
  obtain ⟨rfl, hw'⟩ := hw'
  -- by name, the file of the second swap comes first
  have hsorted := nameSorted_level hl 0
  rw [show (discoverLevels listing).levels.getD 0 [] = _ from hws.l0] at hsorted
  have hlt := (List.pairwise_cons.mp hsorted).1 w'.path (List.mem_singleton_self _)
  rw [hfirst w ((hws.published w).mp (by simp)) hw,
    hsecond w' ((hws.published w').mp (by simp)) hw'] at hlt
  exact absurd hlt (by decide +kernel)

end Sys

end Tabula
