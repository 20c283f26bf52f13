import Tabula.Lsm.Paths

/-!
# The directory

What is in the directory and in the lists at every moment of every run, with restarts and
compactions, and whatever fails (`Tabula.Sys.Housed`). Every `.sst` file is completely
written, under a name that flushes or compactions give, and the lists have such files. As
long as what is written fits the length fields, each of them can be read
(`Tabula.Sys.Intact`).

A restart finds all of them: those of flushes in L0 and those of compactions in L1, each
level in the order of the names (`Tabula.Config.Shelves`). It also finds what a flush has
left behind that failed after its rename.
-/

namespace Tabula

variable {T : Type} {cfg : Config}

theorem Config.Holds.written {fs : Fs} {p : Path} {mem : MemTable} (h : cfg.Holds fs p mem) :
    fs.Written cfg.sizing p := by
  obtain ⟨bytes, hbytes, -, hp⟩ := h
  exact ⟨_, _, bytes, hbytes, hp⟩

/-- The path is one of a flush or one of a compaction. -/
def Config.InPlace (cfg : Config) (p : Path) : Prop :=
  (∃ now, p = cfg.nextSstablePath now) ∨ ∃ now, p = ⟨cfg.dir, FileName.l1Name now⟩

/-! ### What a restart finds -/

/-- **The files there are**, those of flushes and those of compactions, by name. -/
structure Config.Shelves (cfg : Config) (fs : Fs) (files0 files1 : List Path) : Prop where
  sorted0 : NameSorted files0
  sorted1 : NameSorted files1
  mem0 : ∀ p, p ∈ files0 ↔ fs p ≠ none ∧ ∃ now, p = cfg.nextSstablePath now
  mem1 : ∀ p, p ∈ files1 ↔ fs p ≠ none ∧ ∃ now, p = ⟨cfg.dir, FileName.l1Name now⟩

namespace Config

variable {fs : Fs} {listing : List Path}

/-- The level in the name of a file says whose it is. -/
theorem exists_of_levelOf (hplace : ∀ p : Path, p.NamedSst → fs p ≠ none → cfg.InPlace p)
    {p : Path} (hne : fs p ≠ none) {m : ℕ} (hm : FileName.levelOf p.name = some m) :
    m = 0 ∧ (∃ now, p = cfg.nextSstablePath now) ∨
      m = 1 ∧ ∃ now, p = ⟨cfg.dir, FileName.l1Name now⟩ := by
  rcases hplace p (FileName.suffix_of_levelOf hm) hne with ⟨now, rfl⟩ | ⟨now, rfl⟩
  · rw [cfg.levelOf_nextSstablePath] at hm
    exact Or.inl ⟨(Option.some.inj hm).symm, now, rfl⟩
  · rw [FileName.levelOf_l1Name] at hm
    exact Or.inr ⟨(Option.some.inj hm).symm, now, rfl⟩

theorem mem_level0_iff (hplace : ∀ p : Path, p.NamedSst → fs p ≠ none → cfg.InPlace p) (p : Path) :
    p.parent = cfg.dir ∧ fs p ≠ none ∧ FileName.levelOf p.name = some 0 ↔
      fs p ≠ none ∧ ∃ now, p = cfg.nextSstablePath now := by
  constructor
  · rintro ⟨-, hne, hlevel⟩
    rcases exists_of_levelOf hplace hne hlevel with ⟨-, hnow⟩ | ⟨hm, -⟩
    · exact ⟨hne, hnow⟩
    · exact absurd hm (by decide)
  · rintro ⟨hne, now, rfl⟩
    exact ⟨rfl, hne, cfg.levelOf_nextSstablePath now⟩

theorem mem_level1_iff (hplace : ∀ p : Path, p.NamedSst → fs p ≠ none → cfg.InPlace p) (p : Path) :
    p.parent = cfg.dir ∧ fs p ≠ none ∧ FileName.levelOf p.name = some 1 ↔
      fs p ≠ none ∧ ∃ now, p = ⟨cfg.dir, FileName.l1Name now⟩ := by
  constructor
  · rintro ⟨-, hne, hlevel⟩
    rcases exists_of_levelOf hplace hne hlevel with ⟨hm, -⟩ | ⟨-, hnow⟩
    · exact absurd hm (by decide)
    · exact ⟨hne, hnow⟩
  · rintro ⟨hne, now, rfl⟩
    exact ⟨rfl, hne, FileName.levelOf_l1Name now⟩

/-- There are such lists, and they are what `discover_levels` finds. -/
theorem shelves_discoverLevels (hplace : ∀ p : Path, p.NamedSst → fs p ≠ none → cfg.InPlace p)
    (hl : fs.Lists cfg.dir listing) :
    cfg.Shelves fs (discoverLevels listing).l0 (discoverLevels listing).l1 :=
  ⟨nameSorted_level hl 0, nameSorted_level hl 1,
    fun p => (mem_level_iff hl 0 p).trans (mem_level0_iff hplace p),
    fun p => (mem_level_iff hl 1 p).trans (mem_level1_iff hplace p)⟩

theorem Shelves.discoverLevels_eq {files0 files1 : List Path} (h : cfg.Shelves fs files0 files1)
    (hplace : ∀ p : Path, p.NamedSst → fs p ≠ none → cfg.InPlace p)
    (hl : fs.Lists cfg.dir listing) : discoverLevels listing = ⟨[files0, files1]⟩ := by
  refine Tabula.discoverLevels_eq hl h.sorted0 h.sorted1
    (fun p => (h.mem0 p).trans (mem_level0_iff hplace p).symm)
    (fun p => (h.mem1 p).trans (mem_level1_iff hplace p).symm) fun p _ hne m hm => ?_
  rcases exists_of_levelOf hplace hne hm with ⟨rfl, -⟩ | ⟨rfl, -⟩
  · decide
  · decide

/-- The name says on which shelf a file is. -/
theorem Shelves.of_files {files0 files1 : List Path} (h0 : NameSorted files0)
    (h1 : NameSorted files1) (hname0 : ∀ p ∈ files0, ∃ now, p = cfg.nextSstablePath now)
    (hname1 : ∀ p ∈ files1, ∃ now, p = ⟨cfg.dir, FileName.l1Name now⟩)
    (hfiles : ∀ p : Path, p.NamedSst → (fs p ≠ none ↔ p ∈ files0 ++ files1)) :
    cfg.Shelves fs files0 files1 := by
  refine ⟨h0, h1, fun p => ⟨fun hp => ?_, ?_⟩, fun p => ⟨fun hp => ?_, ?_⟩⟩
  · obtain ⟨now, rfl⟩ := hname0 p hp
    exact ⟨(hfiles _ (cfg.named_nextSstablePath now)).mpr (List.mem_append_left _ hp), now, rfl⟩
  · rintro ⟨hne, now, rfl⟩
    refine (List.mem_append.mp ((hfiles _ (cfg.named_nextSstablePath now)).mp hne)).resolve_right
      fun hp => ?_
    obtain ⟨n, hn⟩ := hname1 _ hp
    exact cfg.nextSstablePath_ne_l1 now n _ hn
  · obtain ⟨now, rfl⟩ := hname1 p hp
    exact ⟨(hfiles _ (cfg.named_l1 now)).mpr (List.mem_append_right _ hp), now, rfl⟩
  · rintro ⟨hne, now, rfl⟩
    refine (List.mem_append.mp ((hfiles _ (cfg.named_l1 now)).mp hne)).resolve_left fun hp => ?_
    obtain ⟨n, hn⟩ := hname0 _ hp
    exact cfg.nextSstablePath_ne_l1 n now _ hn.symm

/-- Only which SSTables there are matters. -/
theorem Shelves.congr {fs' : Fs} {files0 files1 : List Path} (h : cfg.Shelves fs files0 files1)
    (hfs : ∀ p : Path, p.NamedSst → fs' p = fs p) : cfg.Shelves fs' files0 files1 := by
  refine ⟨h.sorted0, h.sorted1, fun p => (h.mem0 p).trans (and_congr_left ?_),
    fun p => (h.mem1 p).trans (and_congr_left ?_)⟩
  · rintro ⟨now, rfl⟩
    rw [hfs _ (cfg.named_nextSstablePath now)]
  · rintro ⟨now, rfl⟩
    rw [hfs _ (cfg.named_l1 now)]

end Config

/-! ### The invariant -/

/-- **What is in the directory and in the lists**, in every run. -/
structure Sys.Housed (cfg : Config) (s : Sys T) : Prop where
  locked : s.Locked
  staged : s.Staged cfg fun _ => True
  named : Named cfg s
  finite : s.Finite
  files : ∀ p : Path, p.NamedSst → s.fs p ≠ none → s.fs.Written cfg.sizing p ∧ cfg.InPlace p
  levels : s.levels = ⟨[s.levels.l0, s.levels.l1]⟩
  l0 : ∀ p ∈ s.levels.l0, s.fs p ≠ none ∧ ∃ now, p = cfg.nextSstablePath now
  l1 : ∀ p ∈ s.levels.l1, s.fs p ≠ none ∧ ∃ now, p = ⟨cfg.dir, FileName.l1Name now⟩
  nodup0 : s.levels.l0.Nodup
  nodup1 : s.levels.l1.Nodup
  apart : ∀ t, ∀ p ∈ s.levels.l0, (s.pc t).path ≠ some p

namespace Sys.Housed

theorem init : Housed cfg (Sys.init : Sys T) where
  locked := by simp [Locked, Sys.init]
  staged := fun _ => trivial
  named := .init
  finite := ⟨[], fun _ h => absurd rfl h⟩
  files := fun _ _ h => absurd rfl h
  levels := rfl
  l0 := by simp [Sys.init, LevelManager.l0]
  l1 := by simp [Sys.init, LevelManager.l1]
  nodup0 := List.nodup_nil
  nodup1 := List.nodup_nil
  apart := by simp [Sys.init]

variable {s s' : Sys T} {a : Act T}

theorem inPlace (h : Housed cfg s) (p : Path) (hp : p.NamedSst) (hne : s.fs p ≠ none) :
    cfg.InPlace p := (h.files p hp hne).2

theorem exists_lists (h : Housed cfg s) : ∃ listing, s.fs.Lists cfg.dir listing := by
  obtain ⟨all, hall⟩ := h.finite
  exact Fs.exists_lists_of_finite hall cfg.dir

/-- Every tracked file is there, under the name of an SSTable. -/
theorem tracked (h : Housed cfg s) {p : Path} (hp : p ∈ s.levels.l0 ++ s.levels.l1) :
    p.NamedSst ∧ s.fs p ≠ none := by
  rcases List.mem_append.mp hp with hp | hp
  · obtain ⟨hne, now, rfl⟩ := h.l0 p hp
    exact ⟨cfg.named_nextSstablePath now, hne⟩
  · obtain ⟨hne, now, rfl⟩ := h.l1 p hp
    exact ⟨cfg.named_l1 now, hne⟩

/-- No file is in both lists. -/
theorem notMem_l1 (h : Housed cfg s) {p : Path} (hp : p ∈ s.levels.l0) : p ∉ s.levels.l1 := by
  intro hm
  obtain ⟨-, n, rfl⟩ := h.l0 p hp
  obtain ⟨-, m, hm⟩ := h.l1 _ hm
  exact cfg.nextSstablePath_ne_l1 n m _ hm

/-! ### Compactions -/

section Compact

variable {io : CompactIo} {now : ℕ}

theorem exists_l0 (h : Housed cfg s) : ∀ p ∈ s.levels.l0, ∃ n, p = cfg.nextSstablePath n :=
  fun p hp => (h.l0 p hp).2

theorem exists_l1 (h : Housed cfg s) :
    ∀ p ∈ s.levels.l1, ∃ n, p = ⟨cfg.dir, FileName.l1Name n⟩ := fun p hp => (h.l1 p hp).2

theorem outputPath_eq (h : Housed cfg s) {oldest : Path} (ho : oldest ∈ s.levels.l0) :
    LevelManager.outputPath now oldest = ⟨cfg.dir, FileName.l1Name now⟩ :=
  Config.outputPath_eq h.exists_l0 ho now

/-- Without L0 files a compaction changes nothing. -/
theorem compact_nil (h : Housed cfg s) (hl0 : s.levels.l0 = []) :
    (s.compact cfg io now).levels = s.levels ∧ (s.compact cfg io now).fs = s.fs := by
  have hsame := LevelManager.compact_nil_two h.levels hl0 cfg.sizing cfg.heap io now s.fs
  rw [Sys.compact, hsame]
  exact ⟨rfl, rfl⟩

/-- The output of a compaction is a new file when no file of L1 has its name. -/
theorem outputPath_notMem (h : Housed cfg s) {oldest : Path} (ho : oldest ∈ s.levels.l0)
    (hnew : ⟨cfg.dir, FileName.l1Name now⟩ ∉ s.levels.l1) :
    LevelManager.outputPath now oldest ∉ s.levels.l0 ++ s.levels.l1 :=
  Config.outputPath_notMem h.exists_l0 ho hnew

/-- A compaction leaves the flushes on their way alone. -/
theorem compact_frame (h : Housed cfg s) {t : T} {p : Path} (hp : (s.pc t).path = some p) :
    (s.compact cfg io now).fs p = s.fs p ∧ (s.compact cfg io now).fs p.tmp = s.fs p.tmp := by
  obtain ⟨n, -, rfl⟩ := (h.named.pc t).exists_path hp
  exact Config.compact_frame h.exists_l0 _ _ _ _ _ h.exists_l1 fun hm => h.apart t _ hm hp

/-- A compaction leaves completely written files, in place. -/
theorem files_compact (h : Housed cfg s) {p : Path} (hp : p.NamedSst)
    (hne : (s.compact cfg io now).fs p ≠ none) :
    (s.compact cfg io now).fs.Written cfg.sizing p ∧ cfg.InPlace p := by
  refine ⟨LevelManager.written_compact hp (fun hold => (h.files p hp hold).1) hne, ?_⟩
  by_cases hout : p = ⟨cfg.dir, FileName.l1Name now⟩
  · exact Or.inr ⟨now, hout⟩
  · rcases Config.compact_file_cases h.exists_l0 cfg.sizing cfg.heap io now s.fs hp hout
      with hsame | ⟨hgone, -⟩
    · exact h.inPlace p hp (hsame.symm.trans_ne hne)
    · exact absurd hgone hne

/-- **A compaction with a new path** leaves the lists in order. -/
theorem lists_compact (h : Housed cfg s) (hnew : ⟨cfg.dir, FileName.l1Name now⟩ ∉ s.levels.l1) :
    (s.compact cfg io now).levels = ⟨[[], (s.compact cfg io now).levels.l1]⟩ ∧
      (∀ p ∈ (s.compact cfg io now).levels.l1, (s.compact cfg io now).fs p ≠ none ∧
        ∃ now, p = ⟨cfg.dir, FileName.l1Name now⟩) ∧
      (s.compact cfg io now).levels.l1.Nodup := by
  have houtput : ∀ oldest ∈ s.levels.l0,
      LevelManager.outputPath now oldest ∉ s.levels.l0 ++ s.levels.l1 := fun _ ho =>
    h.outputPath_notMem ho hnew
  have hkeeps := LevelManager.keepsL1_compact cfg.sizing cfg.heap io now s.fs
    (fun p hp => (h.tracked (LevelManager.mem_of_l1 hp)).1) h.nodup1 (fun _ hp => h.notMem_l1 hp)
    houtput
  refine ⟨LevelManager.levels_compact_two h.levels _ _ _ _ _,
    hkeeps.forall_l1 (fun p hp hsame => ?_) fun oldest ho hwritten => ?_,
    hkeeps.nodup h.nodup1 houtput⟩
  · exact ⟨hsame.trans_ne (h.l1 p hp).1, (h.l1 p hp).2⟩
  · exact ⟨hwritten.ne_none, now, h.outputPath_eq ho⟩

end Compact

/-! ### Steps -/

/-- The lists are as they were, and so are the SSTables; what is on its way is not in L0. -/
theorem of_same (h : Housed cfg s) (hlocked : s'.Locked) (hstaged : s'.Staged cfg fun _ => True)
    (hnamed : Named cfg s') (hfinite : s'.Finite) (hlevels : s'.levels = s.levels)
    (hfs : ∀ p : Path, p.NamedSst → s'.fs p = s.fs p)
    (hapart : ∀ t, ∀ p ∈ s.levels.l0, (s'.pc t).path ≠ some p) : Housed cfg s' := by
  have hsame : ∀ p ∈ s.levels.l0 ++ s.levels.l1, s.fs p ≠ none → s'.fs p ≠ none := fun p hp =>
    (hfs p (h.tracked hp).1).trans_ne
  refine ⟨hlocked, hstaged, hnamed, hfinite, fun p hp hne => ?_, by rw [hlevels]; exact h.levels,
    fun p hp => ?_, fun p hp => ?_, by rw [hlevels]; exact h.nodup0,
    by rw [hlevels]; exact h.nodup1, by rw [hlevels]; exact hapart⟩
  · obtain ⟨hwritten, hplace⟩ := h.files p hp ((hfs p hp).symm.trans_ne hne)
    exact ⟨hwritten.congr (hfs p hp), hplace⟩
  · rw [hlevels] at hp
    exact ⟨hsame p (LevelManager.mem_of_l0 hp) (h.l0 p hp).1, (h.l0 p hp).2⟩
  · rw [hlevels] at hp
    exact ⟨hsame p (LevelManager.mem_of_l1 hp) (h.l1 p hp).1, (h.l1 p hp).2⟩

variable [DecidableEq T]

theorem compact_staged (h : Housed cfg s) (hs : Step cfg s a s') (io : CompactIo) (now : ℕ)
    (ha : a = .compact io now) (t : T) (w : Swapped) (hw : (s.pc t).out = some w) :
    s'.fs w.path = s.fs w.path ∧ s'.fs w.path.tmp = s.fs w.path.tmp := by
  subst ha
  cases hs with
  | compact => exact h.compact_frame (Pc.path_of_out hw)

/-- A thread moves on, with the path it had or with none. -/
theorem apart_goto (h : Housed cfg s) {t : T} {pc : Pc}
    (hpc : ∀ p, pc.path = some p → (s.pc t).path = some p) :
    ∀ t', ∀ p ∈ s.levels.l0, ((s.goto t pc).pc t').path ≠ some p :=
  forall_goto (P := fun _ x => ∀ p ∈ s.levels.l0, Pc.path x ≠ some p)
    (fun p hp hpath => h.apart t p hp (hpc p hpath)) fun t' _ => h.apart t'

/-- The renamed file is completely written. -/
theorem rename (h : Housed cfg s) {t : T} {e : WalEntry} {w : Swapped}
    (hpc : s.pc t = .flushing e (.written w)) (hlocked : (s.rename t e w).Locked)
    (hstaged : (s.rename t e w).Staged cfg fun _ => True) (hnamed : Named cfg (s.rename t e w))
    (hfinite : (s.rename t e w).Finite) : Housed cfg (s.rename t e w) := by
  obtain ⟨⟨-, -, hnew⟩, hfs⟩ := h.staged.rename hpc
  have hsound := h.staged t
  rw [hpc] at hsound
  obtain ⟨hpath, -⟩ := hsound
  -- the rename takes no file away
  have hkept : ∀ p ∈ s.levels.l0 ++ s.levels.l1, s.fs p ≠ none → (s.rename t e w).fs p ≠ none := by
    intro p hp hne
    by_cases hw : p = w.path
    · exact hw ▸ hnew.ne_none
    · exact (hfs p (h.tracked hp).1 hw).trans_ne hne
  refine ⟨hlocked, hstaged, hnamed, hfinite, fun p hp hne => ?_, h.levels, fun p hp => ?_,
    fun p hp => ?_, h.nodup0, h.nodup1, h.apart_goto (by simp [hpc])⟩
  · by_cases hw : p = w.path
    · subst hw
      exact ⟨hnew.written, Or.inl hpath⟩
    · obtain ⟨hwritten, hplace⟩ := h.files p hp ((hfs p hp hw).symm.trans_ne hne)
      exact ⟨hwritten.congr (hfs p hp hw), hplace⟩
  · exact ⟨hkept p (LevelManager.mem_of_l0 hp) (h.l0 p hp).1, (h.l0 p hp).2⟩
  · exact ⟨hkept p (LevelManager.mem_of_l1 hp) (h.l1 p hp).1, (h.l1 p hp).2⟩

/-- No other flush has the path of the file that is added. -/
theorem apart_publish (h : Housed cfg s) {t : T} {e : WalEntry} {w : Swapped}
    (hpc : s.pc t = .flushing e (.truncated w)) :
    ∀ t', ((s.publish t e w).pc t').path ≠ some w.path := by
  refine forall_goto (P := fun _ x => Pc.path x ≠ some w.path) (by simp) fun t' ht hsame => ?_
  obtain ⟨n, hown, hn⟩ := (h.named.pc t).exists_own (w := w) (by simp [hpc])
  obtain ⟨n', hown', hn'⟩ := (h.named.pc t').exists_path hsame
  exact h.named.path_ne ht hown hown' (hn'.symm.trans hn)

/-- The file is in L0 now. -/
theorem publish (h : Housed cfg s) {t : T} {e : WalEntry} {w : Swapped}
    (hpc : s.pc t = .flushing e (.truncated w)) (hlocked : (s.publish t e w).Locked)
    (hstaged : (s.publish t e w).Staged cfg fun _ => True) (hnamed : Named cfg (s.publish t e w))
    (hfinite : (s.publish t e w).Finite) : Housed cfg (s.publish t e w) := by
  have hsound := h.staged t
  rw [hpc] at hsound
  obtain ⟨⟨now, hpath⟩, -, hne⟩ := hsound
  have hl0 : (s.publish t e w).levels.l0 = s.levels.l0 ++ [w.path] := s.levels.l0_addL0File w.path
  have hl1 : (s.publish t e w).levels.l1 = s.levels.l1 := s.levels.l1_addL0File w.path
  refine ⟨hlocked, hstaged, hnamed, hfinite, h.files, ?_, fun p hp => ?_, fun p hp => ?_, ?_,
    by rw [hl1]; exact h.nodup1, fun t' p hp => ?_⟩
  · rw [hl0, hl1]
    exact LevelManager.addL0File_two h.levels w.path
  · rw [hl0] at hp
    rcases List.mem_append.mp hp with hp | hp
    · exact h.l0 p hp
    · obtain rfl := List.mem_singleton.mp hp
      exact ⟨hne, now, hpath⟩
  · rw [hl1] at hp
    exact h.l1 p hp
  · rw [hl0]
    refine List.nodup_append.mpr ⟨h.nodup0, List.nodup_singleton _, ?_⟩
    rintro p hp q hq rfl
    exact h.apart t p hp (by rw [hpc, List.mem_singleton.mp hq]; rfl)
  · rw [hl0] at hp
    rcases List.mem_append.mp hp with hp | hp
    · have hapart : ∀ t', ∀ p ∈ s.levels.l0, ((s.goto t .idle).pc t').path ≠ some p :=
        h.apart_goto (by simp)
      exact hapart t' p hp
    · obtain rfl := List.mem_singleton.mp hp
      exact h.apart_publish hpc t'

omit [DecidableEq T] in
/-- A restart finds files that are there. -/
theorem restart (h : Housed cfg s) {listing : List Path} {mem : MemTable} {levels : LevelManager}
    (hl : s.fs.Lists cfg.dir listing) (hopen : Lsm.open (some s.wal) listing = .ok (mem, levels))
    (hnamed : Named cfg (s.restart mem levels)) : Housed cfg (s.restart mem levels) := by
  obtain ⟨es, -, -, rfl⟩ := Lsm.open_eq_ok.mp hopen
  have hshelves := Config.shelves_discoverLevels h.inPlace hl
  exact ⟨by simp [Locked, Sys.restart], fun _ => trivial, hnamed, h.finite, h.files,
    hshelves.discoverLevels_eq h.inPlace hl, fun p hp => (hshelves.mem0 p).mp hp,
    fun p hp => (hshelves.mem1 p).mp hp, hshelves.sorted0.nodup, hshelves.sorted1.nodup,
    by simp [Sys.restart]⟩

/-- **One step**: it is enough that no path is used twice. -/
theorem step (h : Housed cfg s) (hs : Step cfg s a s')
    (hname : ∀ t now, a = .name t now → now ∉ (clocks s.hist).map Prod.snd)
    (hnew : ∀ io now, a = .compact io now → ⟨cfg.dir, FileName.l1Name now⟩ ∉ s.levels.l1) :
    Housed cfg s' := by
  have hlocked := h.locked.step hs
  have hfinite := h.finite.step hs
  have hstaged : s'.Staged cfg fun _ => True :=
    h.staged.step h.locked hs (fun _ _ => trivial) (h.compact_staged hs)
  have hnamed : Named cfg s' := h.named.step h.staged hs (by
    rintro t now hnow t' hm
    exact hname t now hnow (List.mem_map_of_mem hm)) (by
    rintro io now rfl now'
    cases hs with
    | compact => exact ⟨Config.of_compact h.exists_l0 _ _ _ _ _, fun t hpath =>
        (h.compact_frame hpath).1⟩)
  cases hs with
  | @call t op hpc =>
    exact h.of_same hlocked hstaged hnamed hfinite rfl (fun _ _ => rfl)
      (h.apart_goto (by cases op <;> simp [Op.begin]))
  | append | insert | fill | hit | miss | search | appendFails | flushFails | truncateFails =>
    exact h.of_same hlocked hstaged hnamed hfinite rfl (fun _ _ => rfl) (h.apart_goto (by simp))
  | @name t e now hpc =>
    refine h.of_same hlocked hstaged hnamed hfinite rfl (fun _ _ => rfl)
      (forall_goto (P := fun _ x => ∀ p ∈ s.levels.l0, Pc.path x ≠ some p) (fun p hp hpath => ?_)
        fun t' _ => h.apart t')
    -- every file of L0 is at a reading of the clock, and this one is new
    obtain rfl := Option.some.inj hpath
    obtain ⟨t', hm⟩ := h.named.file now (h.l0 _ hp).1
    exact hname t now rfl (List.mem_map_of_mem hm)
  | swap hpc | truncate hpc =>
    exact h.of_same hlocked hstaged hnamed hfinite rfl (fun _ _ => rfl)
      (h.apart_goto (by simp [hpc]))
  | @create t e w hpc | @write t e w n bytes hpc | @finish t e w bytes hpc =>
    exact h.of_same hlocked hstaged hnamed hfinite rfl
      (fun p hp => Fs.write_of_ne (hp.ne_tmp w.path) s.fs _) (h.apart_goto (by simp [hpc]))
  | rename hpc => exact h.rename hpc hlocked hstaged hnamed hfinite
  | publish hpc => exact h.publish hpc hlocked hstaged hnamed hfinite
  | @compact io now =>
    obtain ⟨hlevels, hl1, hnodup⟩ := h.lists_compact (hnew io now rfl)
    have hl0 : (s.compact cfg io now).levels.l0 = [] := by
      rw [hlevels]
      rfl
    exact ⟨hlocked, hstaged, hnamed, hfinite, fun p hp hne => h.files_compact hp hne,
      by rw [hl0]; exact hlevels, by simp [hl0], hl1, by simp [hl0], hnodup, by simp [hl0]⟩
  | restart hl hopen => exact h.restart hl hopen hnamed

/-- **A renamed file whose name is the last** comes last on its shelf. -/
theorem shelves_rename_last (h : Housed cfg s) {files0 files1 : List Path}
    (hshelves : cfg.Shelves s.fs files0 files1) {t : T} {e : WalEntry} {w : Swapped}
    (hpc : s.pc t = .flushing e (.written w)) (hlast : ∀ p ∈ files0, p.name < w.path.name) :
    cfg.Shelves (s.rename t e w).fs (files0 ++ [w.path]) files1 := by
  obtain ⟨⟨-, -, hnew⟩, hfs⟩ := h.staged.rename hpc
  have hsound := h.staged t
  rw [hpc] at hsound
  obtain ⟨⟨now, hp⟩, -⟩ := hsound
  refine ⟨?_, hshelves.sorted1, fun p => ?_, fun p => ?_⟩
  · rw [NameSorted, List.pairwise_append]
    refine ⟨hshelves.sorted0, List.pairwise_singleton _ _, fun p hm q hq => ?_⟩
    obtain rfl := List.mem_singleton.mp hq
    exact hlast p hm
  · rw [List.mem_append, List.mem_singleton]
    by_cases hw : p = w.path
    · subst hw
      exact iff_of_true (Or.inr rfl) ⟨hnew.ne_none, now, hp⟩
    · rw [or_iff_left hw, hshelves.mem0]
      refine and_congr_left ?_
      rintro ⟨n, rfl⟩
      rw [hfs _ (cfg.named_nextSstablePath n) hw]
  · rw [hshelves.mem1]
    refine and_congr_left ?_
    rintro ⟨n, rfl⟩
    rw [hfs _ (cfg.named_l1 n) fun he =>
      cfg.nextSstablePath_ne_l1 now n cfg.dir (hp.symm.trans he.symm)]

omit [DecidableEq T] in
/-- **The file that the one client renames comes last on its shelf.** -/
theorem shelves_rename {s : Sys Unit} (h : Housed cfg s) {files0 files1 : List Path}
    (hshelves : cfg.Shelves s.fs files0 files1)
    (hlatest : ∀ p, (s.pc ()).path = some p → s.Latest cfg p) {t : Unit} {e : WalEntry}
    {w : Swapped} (hpc : s.pc t = .flushing e (.written w)) :
    cfg.Shelves (s.rename t e w).fs (files0 ++ [w.path]) files1 := by
  have hnamed := h.named.pc t
  rw [hpc] at hnamed
  obtain ⟨now, -, hp, hfree⟩ := hnamed
  refine h.shelves_rename_last hshelves hpc fun p hm => ?_
  obtain ⟨hfile, n, rfl⟩ := (hshelves.mem0 p).mp hm
  exact h.named.name_lt (hlatest _ (by rw [hpc]; rfl)) hfile fun he => hfile (he ▸ hfree)

end Sys.Housed

/-! ### Files that can be read -/

/-- **Every `.sst` file can be read**, and so will those on their way. -/
structure Sys.Intact (cfg : Config) (s : Sys T) : Prop where
  staged : s.Staged cfg MemTable.IsShort
  files : ∀ p : Path, p.NamedSst → s.fs p ≠ none → s.fs.Complete p

namespace Sys.Intact

theorem init : Intact cfg (Sys.init : Sys T) := ⟨fun _ => trivial, fun _ _ h => absurd rfl h⟩

variable {s s' : Sys T} {a : Act T}

theorem complete (h : Intact cfg s) (hhoused : Housed cfg s) {p : Path}
    (hp : p ∈ s.levels.l0 ++ s.levels.l1) : s.fs.Complete p := by
  obtain ⟨hnamed, hne⟩ := hhoused.tracked hp
  exact h.files p hnamed hne

/-- **One step**: it is enough that every MemTable that is swapped out fits the length
fields. -/
theorem step [DecidableEq T] (h : Intact cfg s) (hhoused : Housed cfg s) (hs : Step cfg s a s')
    (hshort : ∀ t, a = .swap t → s.mem.IsShort) : Intact cfg s' := by
  have hstaged : s'.Staged cfg MemTable.IsShort :=
    h.staged.step hhoused.locked hs hshort (hhoused.compact_staged hs)
  have hquiet : (∀ p : Path, p.NamedSst → s'.fs p = s.fs p) → Intact cfg s' := fun hfs =>
    ⟨hstaged, fun p hp hne => (h.files p hp ((hfs p hp).symm.trans_ne hne)).congr (hfs p hp)⟩
  cases hs with
  | call | append | insert | fill | name | swap | truncate | publish | hit | miss | search | restart
  | appendFails | flushFails | truncateFails => exact hquiet fun _ _ => rfl
  | @create t e w | @write t e w | @finish t e w =>
    exact hquiet fun p hp => Fs.write_of_ne (hp.ne_tmp w.path) s.fs _
  | @rename t e w hpc =>
    obtain ⟨⟨-, hshort, hnew⟩, hfs⟩ := h.staged.rename hpc
    refine ⟨hstaged, fun p hp hne => ?_⟩
    by_cases hw : p = w.path
    · subst hw
      exact (hnew.stored hshort).complete
    · exact (h.files p hp ((hfs p hp hw).symm.trans_ne hne)).congr (hfs p hp hw)
  | compact =>
    exact ⟨hstaged, fun p hp hne => LevelManager.complete_compact
      (fun q hq => Fs.Stored.sorted (h.complete hhoused hq)) hp (h.files p hp) hne⟩

end Sys.Intact

end Tabula
