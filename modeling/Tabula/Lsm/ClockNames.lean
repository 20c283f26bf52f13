import Tabula.Lsm.RecoveredLists

/-!
# Names that are not unique

Flushes and compactions call the reading of the clock that is in the name of their file a
`unique_suffix`, and `discover_levels` counts on the names for the order of L0. The system
clock promises neither: a reading can come a second time, an earlier one can come later,
and a number with a digit more sorts before those it follows.

With one client, and when no I/O fails, what is needed of the names is this
(`Tabula.Sys.Later`). The file of a flush comes after all other files of L0 by name, and
is not one of those in the lists; the output of a compaction has the name of no file in
L1. Every step at which this is so goes well, and no other step
(`Tabula.Sys.keepsNames_iff_of_run`). What is needed is less than that the readings
increase: a file that is gone, or one of the other level, can have any name.
-/

namespace Tabula

variable {cfg : Config}

/-- A list in which every entry counts where it stands last, with one entry more. -/
theorem dedup_concat {α : Type} [DecidableEq α] (l : List α) (x : α) :
    (l ++ [x]).dedup = (l.dedup.filter fun y => decide (y ≠ x)) ++ [x] := by
  induction l with
  | nil => rfl
  | cons y l ih =>
    rw [List.cons_append]
    by_cases hy : y ∈ l
    · rw [List.dedup_cons_of_mem (List.mem_append_left _ hy), List.dedup_cons_of_mem hy, ih]
    · rw [List.dedup_cons_of_notMem hy]
      by_cases hyx : y = x
      · subst hyx
        rw [List.dedup_cons_of_mem (List.mem_append_right _ (List.mem_singleton_self y)),
          List.filter_cons_of_neg (by simp), ih]
      · have hnot : y ∉ l ++ [x] := fun hm =>
          (List.mem_append.mp hm).elim hy fun hm => hyx (List.mem_singleton.mp hm)
        rw [List.dedup_cons_of_notMem hnot, List.filter_cons_of_pos (by simpa using hyx), ih,
          List.cons_append]

namespace Sys

/-- The paths of the flushes of the run, one after the other, from their renames on. -/
def flushed (s : Sys Unit) : List Path :=
  (publications s.hist).map Swapped.path ++ (s.pc ()).landed

/-- **The files of L0 in the order of their flushes**: a path counts for the last flush that
has taken it. -/
def flushOrder (s : Sys Unit) : List Path :=
  s.flushed.dedup.filter fun p => (s.fs p).isSome

/-- What a reopen makes of L0. -/
def InFlushOrder (cfg : Config) (s : Sys Unit) : Prop :=
  ∀ listing, s.fs.Lists cfg.dir listing → (discoverLevels listing).l0 = s.flushOrder

/-- The path a step renames its file to. -/
inductive Renames (cfg : Config) (s : Sys Unit) : Act Unit → Path → Prop
  | flush {t e w} (hpc : s.pc t = .flushing e (.written w)) : Renames cfg s (.rename t) w.path
  | compact {io now oldest} (hl0 : s.levels.l0.head? = some oldest)
      (hok : (s.levels.compact cfg.sizing cfg.heap io now s.fs).1 = .ok ()) :
      Renames cfg s (.compact io now) (LevelManager.outputPath now oldest)

/-- **What has to hold of a step**: it renames nothing over a tracked file, what it has
renamed is there afterwards, and a reopen finds L0 in the order of the flushes. -/
structure KeepsNames (cfg : Config) (s : Sys Unit) (a : Act Unit) (s' : Sys Unit) : Prop where
  untracked : ∀ p, s.Renames cfg a p → p ∉ s.levels.levels.flatten
  left : ∀ p, s.Renames cfg a p → s'.fs p ≠ none
  ordered : s'.InFlushOrder cfg

/-- One operation after the other, and no I/O fails; a compaction may find an empty file
and return `Err`. -/
def Smooth (cfg : Config) (s : Sys Unit) : Act Unit → Prop
  | .compact io _ =>
      io = .whole ∧ s.pc () = .idle ∧ s.levels.Fits cfg.sizing cfg.heap s.fs
  | .restart _ => s.pc () = .idle
  | a => a.Serves

/-- **The names that are needed**: a flush renames its file to a path that is not in L0, with
a name after those of all other files of L0 there are; no file of L1 has the name that a
compaction gives its output. -/
def Later (cfg : Config) (s : Sys Unit) : Act Unit → Prop
  | .rename _ => ∀ p ∈ (s.pc ()).path, p ∉ s.levels.l0 ∧
      ∀ q ∈ s.flushOrder, q ≠ p → q.name < p.name
  | .compact _ now => s.levels.l0 ≠ [] →
      (∀ p ∈ s.levels.l0 ++ s.levels.l1, s.fs.records p ≠ []) →
      ⟨cfg.dir, FileName.l1Name now⟩ ∉ s.levels.l1
  | _ => True

instance (cfg : Config) (s : Sys Unit) : (a : Act Unit) → Decidable (s.Later cfg a)
  | .rename _ => inferInstanceAs (Decidable (∀ p ∈ (s.pc ()).path, p ∉ s.levels.l0 ∧
      ∀ q ∈ s.flushOrder, q ≠ p → q.name < p.name))
  | .compact _ now => inferInstanceAs (Decidable (s.levels.l0 ≠ [] →
      (∀ p ∈ s.levels.l0 ++ s.levels.l1, s.fs.records p ≠ []) →
      ⟨cfg.dir, FileName.l1Name now⟩ ∉ s.levels.l1))
  | .call _ _ | .append _ | .insert _ | .name _ _ | .swap _ | .create _ | .write _ _ | .finish _
  | .truncate _ | .publish _ | .look _ | .search _ | .restart _ | .appendFails _ _ | .flushFails _
  | .truncateFails _ => .isTrue trivial

variable {s s' : Sys Unit} {a : Act Unit}

theorem mem_flushOrder {p : Path} : p ∈ s.flushOrder ↔ p ∈ s.flushed ∧ s.fs p ≠ none := by
  rw [flushOrder, List.mem_filter, List.mem_dedup, Option.isSome_iff_ne_none]

/-- The paths of flushes are on record at the publications and at the rename. -/
theorem flushed_step (hs : Step cfg s a s') (hpublish : ∀ t, a ≠ .publish t)
    (hlanded : (s'.pc ()).landed = (s.pc ()).landed) : s'.flushed = s.flushed := by
  rw [flushed, flushed, publications_step hs hpublish, hlanded]

theorem flushed_rename {t : Unit} {e : WalEntry} {w : Swapped}
    (hpc : s.pc t = .flushing e (.written w)) :
    (s.rename t e w).flushed = s.flushed ++ [w.path] := by
  have hbefore : s.flushed = (publications s.hist).map Swapped.path ++ [] := by
    rw [flushed, show s.pc () = _ from hpc]
    rfl
  rw [hbefore, List.append_nil]
  rfl

theorem flushed_publish {t : Unit} {e : WalEntry} {w : Swapped}
    (hpc : s.pc t = .flushing e (.truncated w)) : (s.publish t e w).flushed = s.flushed := by
  have hnew : publications (s.publish t e w).hist = publications s.hist ++ [w] :=
    publications_append _ _
  have hbefore : s.flushed = (publications s.hist).map Swapped.path ++ [w.path] := by
    rw [flushed, show s.pc () = _ from hpc]
    rfl
  rw [hbefore, flushed, hnew, List.map_append]
  exact List.append_nil _

/-- The flushes are the same, and so are their files. -/
theorem flushOrder_congr (hflushed : s'.flushed = s.flushed)
    (hfs : ∀ p ∈ s.flushed, s'.fs p = s.fs p) : s'.flushOrder = s.flushOrder := by
  rw [flushOrder, flushOrder, hflushed]
  refine List.filter_congr fun p hp => ?_
  rw [hfs p (List.mem_dedup.mp hp)]

/-- The file that is renamed comes last, wherever its path was before. -/
theorem flushOrder_rename (hstaged : s.Staged cfg fun _ => True)
    (hflushed : ∀ p ∈ s.flushed, p.NamedSst) {t : Unit} {e : WalEntry} {w : Swapped}
    (hpc : s.pc t = .flushing e (.written w)) : (s.rename t e w).flushOrder =
      (s.flushOrder.filter fun q => decide (q ≠ w.path)) ++ [w.path] := by
  obtain ⟨⟨-, -, hnew⟩, hfs⟩ := hstaged.rename hpc
  have hlast : [w.path].filter (fun p => ((s.rename t e w).fs p).isSome) = [w.path] :=
    List.filter_eq_self.mpr fun p hp => by
      rw [List.mem_singleton.mp hp]
      exact Option.isSome_iff_ne_none.mpr hnew.ne_none
  rw [flushOrder, flushed_rename hpc, dedup_concat, List.filter_append, hlast, flushOrder,
    List.filter_filter, List.filter_filter]
  refine congrArg (· ++ [w.path]) (List.filter_congr fun q hq => ?_)
  by_cases hw : q = w.path
  · simp [hw]
  · rw [hfs q (hflushed q (List.mem_dedup.mp hq)) hw, Bool.and_comm]

/-! ### The invariant -/

/-- **Where the files are, and under which names**, whatever the clock says. -/
structure Arranged (cfg : Config) (s : Sys Unit) : Prop where
  locked : s.Locked
  staged : s.Staged cfg fun _ => True
  finite : s.Finite
  inPlace : ∀ p : Path, p.NamedSst → s.fs p ≠ none → cfg.InPlace p
  levels : s.levels = ⟨[s.levels.l0, s.levels.l1]⟩
  l0 : ∀ p ∈ s.levels.l0, ∃ now, p = cfg.nextSstablePath now
  l1 : ∀ p ∈ s.levels.l1, ∃ now, p = ⟨cfg.dir, FileName.l1Name now⟩
  flushes : ∀ p ∈ s.flushed, ∃ now, p = cfg.nextSstablePath now
  mem : ∀ now, s.fs (cfg.nextSstablePath now) ≠ none → cfg.nextSstablePath now ∈ s.flushed
  sorted : NameSorted s.flushOrder

namespace Arranged

theorem init : Arranged cfg Sys.init where
  locked := by simp [Locked, Sys.init]
  staged := fun _ => trivial
  finite := ⟨[], fun _ h => absurd rfl h⟩
  inPlace := fun _ _ h => absurd rfl h
  levels := rfl
  l0 := by simp [Sys.init, LevelManager.l0]
  l1 := by simp [Sys.init, LevelManager.l1]
  flushes := by simp [flushed, Sys.init, publications]
  mem := fun _ h => absurd rfl h
  sorted := List.Pairwise.nil

theorem named (h : Arranged cfg s) {p : Path} (hp : p ∈ s.flushed) : p.NamedSst := by
  obtain ⟨now, rfl⟩ := h.flushes p hp
  exact cfg.named_nextSstablePath now

/-- L0, as far as there are files. -/
theorem mem_iff (h : Arranged cfg s) (p : Path) :
    p ∈ s.flushOrder ↔ s.fs p ≠ none ∧ ∃ now, p = cfg.nextSstablePath now := by
  rw [mem_flushOrder]
  constructor
  · rintro ⟨hp, hne⟩
    exact ⟨hne, h.flushes p hp⟩
  · rintro ⟨hne, now, rfl⟩
    exact ⟨h.mem now hne, hne⟩

/-- **A reopen finds L0 in the order of the flushes.** -/
theorem ordered (h : Arranged cfg s) : s.InFlushOrder cfg := fun _ hl =>
  level_eq hl h.sorted fun p => (h.mem_iff p).trans (Config.mem_level0_iff h.inPlace p).symm

/-- A path of a flush is tracked when it is in L0. -/
theorem mem_flatten_iff (h : Arranged cfg s) (p : Path) :
    p ∈ s.levels.levels.flatten ↔ p ∈ s.levels.l0 ++ s.levels.l1 := by
  rw [h.levels]
  simp

/-- The lists are as they were, and so are the flushes and the SSTables. -/
theorem of_same (h : Arranged cfg s) (hlocked : s'.Locked) (hstaged : s'.Staged cfg fun _ => True)
    (hfinite : s'.Finite) (hlevels : s'.levels = s.levels) (hflushed : s'.flushed = s.flushed)
    (hfs : ∀ p : Path, p.NamedSst → s'.fs p = s.fs p) : Arranged cfg s' := by
  have horder : s'.flushOrder = s.flushOrder :=
    flushOrder_congr hflushed fun p hp => hfs p (h.named hp)
  refine ⟨hlocked, hstaged, hfinite, fun p hp hne => ?_, by rw [hlevels]; exact h.levels,
    by rw [hlevels]; exact h.l0, by rw [hlevels]; exact h.l1, by rw [hflushed]; exact h.flushes,
    fun now hne => ?_, by rw [horder]; exact h.sorted⟩
  · exact h.inPlace p hp ((hfs p hp).symm.trans_ne hne)
  · rw [hflushed]
    exact h.mem now ((hfs _ (cfg.named_nextSstablePath now)).symm.trans_ne hne)

/-- A flush renames its file to a later name. -/
theorem rename (h : Arranged cfg s) {t : Unit} {e : WalEntry} {w : Swapped}
    (hpc : s.pc t = .flushing e (.written w)) (hlocked : (s.rename t e w).Locked)
    (hstaged : (s.rename t e w).Staged cfg fun _ => True) (hfinite : (s.rename t e w).Finite)
    (hlater : ∀ q ∈ s.flushOrder, q ≠ w.path → q.name < w.path.name) :
    Arranged cfg (s.rename t e w) := by
  obtain ⟨-, hfs⟩ := h.staged.rename hpc
  have hsound := h.staged t
  rw [hpc] at hsound
  obtain ⟨hpath, -⟩ := hsound
  have hflushed := flushed_rename hpc
  refine ⟨hlocked, hstaged, hfinite, fun p hp hne => ?_, h.levels, h.l0, h.l1, fun p hp => ?_,
    fun now hne => ?_, ?_⟩
  · by_cases hw : p = w.path
    · exact Or.inl (hw ▸ hpath)
    · exact h.inPlace p hp ((hfs p hp hw).symm.trans_ne hne)
  · rw [hflushed] at hp
    rcases List.mem_append.mp hp with hp | hp
    · exact h.flushes p hp
    · exact List.mem_singleton.mp hp ▸ hpath
  · rw [hflushed]
    by_cases hw : cfg.nextSstablePath now = w.path
    · exact List.mem_append_right _ (List.mem_singleton.mpr hw)
    · exact List.mem_append_left _
        (h.mem now ((hfs _ (cfg.named_nextSstablePath now) hw).symm.trans_ne hne))
  · rw [flushOrder_rename h.staged (fun _ => h.named) hpc, NameSorted, List.pairwise_append]
    refine ⟨h.sorted.sublist List.filter_sublist, List.pairwise_singleton _ _, fun q hq p hp => ?_⟩
    obtain ⟨hq, hne⟩ := List.mem_filter.mp hq
    rw [List.mem_singleton.mp hp]
    exact hlater q hq (of_decide_eq_true hne)

/-- The file is in L0 now. -/
theorem publish (h : Arranged cfg s) {t : Unit} {e : WalEntry} {w : Swapped}
    (hpc : s.pc t = .flushing e (.truncated w)) (hlocked : (s.publish t e w).Locked)
    (hstaged : (s.publish t e w).Staged cfg fun _ => True) (hfinite : (s.publish t e w).Finite) :
    Arranged cfg (s.publish t e w) := by
  have hsound := h.staged t
  rw [hpc] at hsound
  obtain ⟨hpath, -⟩ := hsound
  have hflushed := flushed_publish hpc
  have horder : (s.publish t e w).flushOrder = s.flushOrder :=
    flushOrder_congr hflushed fun _ _ => rfl
  have hl0 : (s.publish t e w).levels.l0 = s.levels.l0 ++ [w.path] := s.levels.l0_addL0File w.path
  have hl1 : (s.publish t e w).levels.l1 = s.levels.l1 := s.levels.l1_addL0File w.path
  refine ⟨hlocked, hstaged, hfinite, h.inPlace, ?_, fun p hp => ?_, by rw [hl1]; exact h.l1,
    by rw [hflushed]; exact h.flushes, by rw [hflushed]; exact h.mem,
    by rw [horder]; exact h.sorted⟩
  · rw [hl0, hl1]
    exact LevelManager.addL0File_two h.levels w.path
  · rw [hl0] at hp
    rcases List.mem_append.mp hp with hp | hp
    · exact h.l0 p hp
    · exact List.mem_singleton.mp hp ▸ hpath

/-- A compaction takes files out of L0, and leaves those that are left in order. -/
theorem compact (h : Arranged cfg s) {io : CompactIo} {now : ℕ}
    (hlocked : (s.compact cfg io now).Locked)
    (hstaged : (s.compact cfg io now).Staged cfg fun _ => True)
    (hfinite : (s.compact cfg io now).Finite) : Arranged cfg (s.compact cfg io now) := by
  have hflushed : (s.compact cfg io now).flushed = s.flushed :=
    flushed_step (show Step cfg s (.compact io now) _ from .compact) (by simp) rfl
  have hfewer : ∀ n, (s.compact cfg io now).fs (cfg.nextSstablePath n) ≠ none →
      s.fs (cfg.nextSstablePath n) ≠ none := fun n => Config.of_compact h.l0 _ _ _ _ _
  have hlevels : (s.compact cfg io now).levels = ⟨[[], (s.compact cfg io now).levels.l1]⟩ :=
    LevelManager.levels_compact_two h.levels _ _ _ _ _
  have hl0 : (s.compact cfg io now).levels.l0 = [] := by
    rw [hlevels]
    rfl
  refine ⟨hlocked, hstaged, hfinite, fun p hp hne => ?_, by rw [hl0]; exact hlevels,
    by simp [hl0], fun p hp => ?_, by rw [hflushed]; exact h.flushes, fun n hne => ?_, ?_⟩
  · by_cases hout : p = ⟨cfg.dir, FileName.l1Name now⟩
    · exact Or.inr ⟨now, hout⟩
    · rcases Config.compact_file_cases h.l0 cfg.sizing cfg.heap io now s.fs hp hout
        with hsame | ⟨hgone, -⟩
      · exact h.inPlace p hp (hsame.symm.trans_ne hne)
      · exact absurd hgone hne
  · rcases LevelManager.mem_l1_compact hp with hp | ⟨oldest, ho, rfl⟩
    · exact h.l1 p hp
    · exact ⟨now, Config.outputPath_eq h.l0 ho now⟩
  · rw [hflushed]
    exact h.mem n (hfewer n hne)
  · -- the files that are gone are left out of the order, which stays
    have hleft : (s.compact cfg io now).flushOrder =
        s.flushOrder.filter fun p => ((s.compact cfg io now).fs p).isSome := by
      rw [flushOrder, flushOrder, hflushed, List.filter_filter]
      refine List.filter_congr fun p hp => ?_
      obtain ⟨n, rfl⟩ := h.flushes p (List.mem_dedup.mp hp)
      cases hsome : ((s.compact cfg io now).fs (cfg.nextSstablePath n)).isSome with
      | false => rfl
      | true =>
        have hne := hfewer n (Option.isSome_iff_ne_none.mp hsome)
        rw [Option.isSome_iff_ne_none.mpr hne]
        rfl
    rw [hleft]
    exact h.sorted.sublist List.filter_sublist

/-- A reopen tracks the files there are. -/
theorem restart (h : Arranged cfg s) {listing : List Path} {mem : MemTable} {levels : LevelManager}
    (hl : s.fs.Lists cfg.dir listing) (hopen : Lsm.open (some s.wal) listing = .ok (mem, levels))
    (hidle : s.pc () = .idle) : Arranged cfg (s.restart mem levels) := by
  have hflushed : (s.restart mem levels).flushed = s.flushed :=
    flushed_step (.restart hl hopen) (by simp) (by rw [hidle]; rfl)
  have horder : (s.restart mem levels).flushOrder = s.flushOrder :=
    flushOrder_congr hflushed fun _ _ => rfl
  obtain ⟨es, -, -, rfl⟩ := Lsm.open_eq_ok.mp hopen
  have hshelves := Config.shelves_discoverLevels h.inPlace hl
  exact ⟨by simp [Locked, Sys.restart], fun _ => trivial, h.finite, h.inPlace,
    hshelves.discoverLevels_eq h.inPlace hl, fun p hp => ((hshelves.mem0 p).mp hp).2,
    fun p hp => ((hshelves.mem1 p).mp hp).2, by rw [hflushed]; exact h.flushes,
    by rw [hflushed]; exact h.mem, by rw [horder]; exact h.sorted⟩

/-- One step. -/
theorem step (h : Arranged cfg s) (hs : Step cfg s a s') (ha : s.Smooth cfg a)
    (hlater : s.Later cfg a) : Arranged cfg s' := by
  have hlocked := h.locked.step hs
  have hfinite := h.finite.step hs
  have hstaged : s'.Staged cfg fun _ => True := h.staged.step h.locked hs (fun _ _ => trivial) (by
    rintro io now rfl t w hw
    -- no flush is under way
    rw [show s.pc t = _ from ha.2.1] at hw
    exact absurd hw.symm (Option.some_ne_none w))
  by_cases hquiet : a.Quiet
  · have hwhole : a.Whole := by
      cases a with
      | appendFails => exact ha.elim
      | _ => trivial
    have hsame := quiet_step hs hwhole hquiet
    refine h.of_same hlocked hstaged hfinite hsame.levels (flushed_step hs ?_ ?_) hsame.fs
    · rintro t rfl
      exact hquiet
    · exact hsame.after.trans hsame.before.symm
  cases hs with
  | @append t e hpc hlock =>
    have hs : Step cfg s (.append t) (s.append t e) := .append hpc hlock
    refine h.of_same hlocked hstaged hfinite rfl (flushed_step hs (by simp) ?_) fun _ _ => rfl
    rw [show s.pc () = _ from hpc]
    rfl
  | @truncate t e w hpc =>
    have hs : Step cfg s (.truncate t) (s.truncate t e w) := .truncate hpc
    refine h.of_same hlocked hstaged hfinite rfl (flushed_step hs (by simp) ?_) fun _ _ => rfl
    rw [show s.pc () = _ from hpc]
    rfl
  | rename hpc =>
    exact h.rename hpc hlocked hstaged hfinite
      (hlater _ (by rw [show s.pc () = _ from hpc]; rfl)).2
  | publish hpc => exact h.publish hpc hlocked hstaged hfinite
  | compact => exact h.compact hlocked hstaged hfinite
  | restart hl hopen => exact h.restart hl hopen ha
  | appendFails | flushFails | truncateFails => exact ha.elim
  | call | insert | fill | name | swap | create | write | finish | hit | miss | search =>
    exact absurd trivial hquiet

/-! ### One step -/

/-- What a later name is good for: no tracked file is replaced, and the new one is there. -/
theorem of_renames (h : Arranged cfg s) (hs : Step cfg s a s') (ha : s.Smooth cfg a)
    (hlater : s.Later cfg a) {p : Path} (hp : s.Renames cfg a p) :
    p ∉ s.levels.l0 ++ s.levels.l1 ∧ s'.fs p ≠ none := by
  cases hp with
  | @flush t e w hpc =>
    cases hs with
    | @rename _ e' w' hpc' =>
      obtain ⟨rfl, hw⟩ := Pc.flushing.inj (hpc'.symm.trans hpc)
      obtain rfl := Flush.written.inj hw
      obtain ⟨⟨-, -, hnew⟩, -⟩ := h.staged.rename hpc
      have hsound := h.staged t
      rw [hpc] at hsound
      obtain ⟨⟨n, hpath⟩, -⟩ := hsound
      obtain ⟨hl0, -⟩ := hlater w'.path (by rw [show s.pc () = _ from hpc]; rfl)
      refine ⟨fun hm => ?_, hnew.ne_none⟩
      rcases List.mem_append.mp hm with hm | hm
      · exact hl0 hm
      · obtain ⟨m, hm⟩ := h.l1 _ hm
        exact cfg.nextSstablePath_ne_l1 n m _ (hpath.symm.trans hm)
  | @compact io now oldest hl0 hok =>
    cases hs with
    | compact =>
      obtain ⟨rfl, -, -⟩ := ha
      have ho := List.mem_of_head? hl0
      have hcompact := compact_eq_ok hok
      -- a compaction that returns `Ok` has found records in every file
      have hrecords := LevelManager.nonempty_of_compact CompactIo.readsComplete_whole hl0 hcompact
      have hnew := Config.outputPath_notMem h.l0 ho
        (hlater (List.ne_nil_of_mem ho) hrecords)
      exact ⟨hnew, (LevelManager.swept_of_ok hl0 hcompact fun hin =>
        hnew (LevelManager.mem_of_inputs hin)).output⟩

/-- **A step keeps the names in order exactly when it has a later one.** -/
theorem keepsNames_iff (h : Arranged cfg s) (hs : Step cfg s a s') (ha : s.Smooth cfg a) :
    s.KeepsNames cfg a s' ↔ s.Later cfg a := by
  constructor
  · intro hkeeps
    cases hs with
    | @rename t e w hpc =>
      have hfree := hkeeps.untracked w.path (.flush hpc)
      rw [h.mem_flatten_iff] at hfree
      have hs : Step cfg s (.rename t) (s.rename t e w) := .rename hpc
      obtain ⟨all, hall⟩ := h.finite.step hs
      obtain ⟨listing, hl⟩ := Fs.exists_lists_of_finite hall cfg.dir
      -- the recovered list is sorted, and ends with the new file
      have hsorted : NameSorted (s.rename t e w).flushOrder := by
        rw [← hkeeps.ordered listing hl]
        exact nameSorted_level hl 0
      rw [flushOrder_rename h.staged (fun _ => h.named) hpc, NameSorted,
        List.pairwise_append] at hsorted
      rintro p hp
      rw [show s.pc () = _ from hpc] at hp
      obtain rfl := Option.some.inj hp
      exact ⟨fun hm => hfree (LevelManager.mem_of_l0 hm), fun q hq hne =>
        hsorted.2.2 q (List.mem_filter.mpr ⟨hq, decide_eq_true hne⟩) _
          (List.mem_singleton_self _)⟩
    | @compact io now =>
      obtain ⟨rfl, -, hfits⟩ := ha
      intro hl0 hrecords hm
      obtain ⟨oldest, ho⟩ := Option.ne_none_iff_exists'.mp (List.head?_eq_none_iff.not.mpr hl0)
      have hfree := hkeeps.untracked _
        (.compact ho (LevelManager.compact_whole_ok hrecords hfits now))
      rw [h.mem_flatten_iff, Config.outputPath_eq h.l0 (List.mem_of_head? ho)] at hfree
      exact hfree (LevelManager.mem_of_l1 hm)
    | _ => trivial
  · intro hlater
    have hrenames := fun p (hp : s.Renames cfg a p) => h.of_renames hs ha hlater hp
    refine ⟨fun p hp => ?_, fun p hp => (hrenames p hp).2, (h.step hs ha hlater).ordered⟩
    rw [h.mem_flatten_iff]
    exact (hrenames p hp).1

end Arranged

/-! ### Runs -/

/-- **No file is replaced or out of order**, in every run in which each file comes with a
later name, and a step that does not have one spoils it. -/
theorem keepsNames_iff_of_run {as : List (Act Unit)} {s : Sys Unit}
    (hrun : Runs.Run (Runs.Guarded (Step cfg) fun s a => s.Smooth cfg a ∧ s.Later cfg a)
      Sys.init as s) : s.InFlushOrder cfg ∧
      ∀ a s', Step cfg s a s' → s.Smooth cfg a → (s.KeepsNames cfg a s' ↔ s.Later cfg a) := by
  have h : Arranged cfg s := hrun.invariant .init fun _ _ _ h hs => h.step hs.1 hs.2.1 hs.2.2
  exact ⟨h.ordered, fun _ _ hs ha => h.keepsNames_iff hs ha⟩

theorem smooth_of_serves (ha : a.Serves) : s.Smooth cfg a := by
  cases a with
  | compact | restart | appendFails | flushFails | truncateFails => exact ha.elim
  | _ => trivial

/-- The clock steps back twice, for a compaction and for the flush after it. -/
theorem keepsNames_iff_of_run_back : ∃ s : Sys Unit, s.levels.l0.length = 1 ∧
    s.levels.l1.length = 1 ∧ s.InFlushOrder (.ofThreshold 1) ∧
    ∀ a s', Step (.ofThreshold 1) s a s' → s.Smooth (.ofThreshold 1) a →
      (s.KeepsNames (.ofThreshold 1) a s' ↔ s.Later (.ofThreshold 1) a) := by
  let cfg : Config := .ofThreshold 1
  let flush (k now : ℕ) : List (Act Unit) :=
    [.call () (.write (.put [UInt8.ofNat k] [1])), .append (), .insert (), .name () now, .swap (),
      .create (), .finish (), .rename (), .truncate (), .publish ()]
  obtain ⟨s, hrun, hidle, hfits, hlater, hnext⟩ := exists_of_nexts cfg (fun s a => s.Later cfg a)
    Sys.init (flush 7 5) (fun s => s.pc () = .idle ∧
      s.levels.Fits cfg.sizing cfg.heap s.fs ∧ s.Later cfg (.compact .whole 3) ∧
      ((s.compact cfg .whole 3).nexts cfg (fun s a => s.Later cfg a) (flush 8 4)).any
        (fun s => decide (s.levels.l0.length = 1 ∧ s.levels.l1.length = 1)) = true)
    (by decide +kernel)
  obtain ⟨s', hrun', hlen0, hlen1⟩ := exists_of_nexts cfg (fun s a => s.Later cfg a) _ (flush 8 4)
    (fun s => s.levels.l0.length = 1 ∧ s.levels.l1.length = 1) hnext
  have hserves : ∀ s a s', Runs.Guarded (Step cfg) (fun s a => a.Serves ∧ s.Later cfg a) s a s' →
      Runs.Guarded (Step cfg) (fun s a => s.Smooth cfg a ∧ s.Later cfg a) s a s' :=
    fun _ _ _ h => ⟨h.1, smooth_of_serves h.2.1, h.2.2⟩
  have hcompact : Runs.Guarded (Step cfg) (fun s a => s.Smooth cfg a ∧ s.Later cfg a) s
      (.compact .whole 3) (s.compact cfg .whole 3) := ⟨.compact, ⟨rfl, hidle, hfits⟩, hlater⟩
  exact ⟨s', hlen0, hlen1, keepsNames_iff_of_run
    (((hrun.mono hserves).snoc hcompact).trans (hrun'.mono hserves))⟩

/-- **Two flushes can read the same time**: the second one renames its file over that of the
first, which is in L0. -/
theorem not_keepsNames_of_run :
    ¬∀ (cfg : Config) (as : List (Act Unit)) (s : Sys Unit),
      Runs.Run (Runs.Guarded (Step cfg) fun s a => s.Smooth cfg a) Sys.init as s →
      ∀ a s', Step cfg s a s' → s.Smooth cfg a → s.KeepsNames cfg a s' := by
  intro h
  let cfg : Config := .ofThreshold 1
  obtain ⟨s, hrun, hpath, htracked, hnext⟩ := exists_of_nexts cfg (fun _ _ => True) Sys.init
    [.call () (.write (.put [7] [1])), .append (), .insert (), .name () 5, .swap (), .create (),
      .finish (), .rename (), .truncate (), .publish (),
      .call () (.write (.put [8] [1])), .append (), .insert (), .name () 5, .swap (), .create (),
      .finish ()]
    (fun s => (s.pc ()).path = some (cfg.nextSstablePath 5) ∧
      cfg.nextSstablePath 5 ∈ s.levels.levels.flatten ∧ (s.next cfg (.rename ())).isSome)
    (by decide +kernel)
  obtain ⟨s', hnext⟩ := Option.isSome_iff_exists.mp hnext
  obtain ⟨hs, -⟩ := step_of_next hnext
  have hkeeps := h cfg _ s (hrun.mono fun _ _ _ h => ⟨h.1, smooth_of_serves h.2.1⟩) _ s' hs trivial
  cases hs with
  | rename hpc =>
    rw [hpc] at hpath
    have hw := Option.some.inj hpath
    exact hkeeps.untracked _ (.flush hpc) (hw ▸ htracked)

end Sys

end Tabula
