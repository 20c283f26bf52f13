import Tabula.Lsm.Directory
import Tabula.Lsm.Sequential

/-!
# The lists and the directory

The store has two records of its files: the lists in memory, and the names in the
directory, from which `discover_levels` rebuilds the lists. With one client, and as long
as everything succeeds, the two agree at the end of every operation
(`Tabula.Sys.Mirrored`): flushes and compactions put their files at the end of their
lists, the clock puts them at the end of the names, and a compaction takes out of the
directory exactly what it takes out of the lists.

Neither the contents of the files nor the lengths of what is written matter for that. A
compaction may see a damaged file and miss that its range meets that of L0, but it
decides once, and deletes and forgets the same files.
-/

namespace Tabula

variable {cfg : Config}

namespace LevelManager

/-- **What a compaction leaves when everything succeeds**: its inputs are gone, its output
is there, and nothing else has changed. -/
structure Swept (now : ℕ) (fs : Fs) (lm : LevelManager) (oldest : Path) (lm' : LevelManager)
    (fs' : Fs) : Prop where
  levels : lm' = ⟨[] :: (lm.untouched fs ++ [outputPath now oldest]) :: lm.deeper⟩
  output : fs' (outputPath now oldest) ≠ none
  gone : ∀ q ∈ lm.inputs fs, fs' q = none
  kept : ∀ q : Path, q.NamedSst → q ≠ outputPath now oldest → q ∉ lm.inputs fs → fs' q = fs q

theorem swept_of_ok {S : BloomSizing} {H : MergeHeap} {now : ℕ} {fs fs' : Fs}
    {lm lm' : LevelManager} {oldest : Path} (hl0 : lm.l0.head? = some oldest)
    (h : compact S H .whole now fs lm = (.ok (), lm', fs'))
    (hout : outputPath now oldest ∉ lm.inputs fs) : Swept now fs lm oldest lm' fs' := by
  obtain ⟨n, bytes, -, -, hlm, rfl⟩ := compact_eq_ok CompactIo.readsComplete_whole hl0 h
  have hsst := named_outputPath now oldest
  refine ⟨hlm, ?_, fun q hq => ?_, fun q hq hne hin => ?_⟩
  · rw [removeAll_of_notMem hout, Fs.rename_written]
    exact Option.some_ne_none bytes
  · obtain ⟨i, hi⟩ := List.getElem?_of_mem hq
    exact removeAll_eq_none hi rfl
  · rw [removeAll_of_notMem hin, Fs.rename_of_ne (hq.ne_tmp _) hne,
      Fs.write_of_ne (hq.ne_tmp _), Fs.write_of_ne (hq.ne_tmp _)]

/-- Without L0 files there is nothing to merge. -/
theorem inputs_of_nil {lm : LevelManager} (h : lm.l0 = []) (fs : Fs) : lm.inputs fs = [] := by
  have hmeets : ∀ p ∈ lm.l1, ¬lm.meetsL0 fs p = true := fun p _ => by
    rw [meetsL0, h]
    exact Bool.false_ne_true
  rw [inputs, h, overlapping, List.filter_eq_nil_iff.mpr hmeets]
  rfl

end LevelManager

namespace Sys

variable {s s' : Sys Unit} {a : Act Unit}

/-! ### The invariant -/

/-- **The lists are the `.sst` files by name**, with the file that a flush has renamed and
not yet added to L0. -/
structure Mirrored (cfg : Config) (s : Sys Unit) : Prop where
  shelves : cfg.Shelves s.fs s.stock s.levels.l1
  latest : ∀ p, (s.pc ()).path = some p → s.Latest cfg p

namespace Mirrored

theorem init : Mirrored cfg Sys.init :=
  ⟨⟨List.Pairwise.nil, List.Pairwise.nil, by simp [Sys.stock, Sys.init, LevelManager.l0],
    by simp [Sys.init, LevelManager.l1]⟩, by simp [Sys.init]⟩

/-- The tracked files are there, and so is the one on its way. -/
theorem mem_iff (h : Mirrored cfg s) (hhoused : Housed cfg s) (p : Path) :
    p ∈ s.stock ++ s.levels.l1 ↔ p.NamedSst ∧ s.fs p ≠ none := by
  rw [List.mem_append, h.shelves.mem0, h.shelves.mem1]
  constructor
  · rintro (⟨hne, now, rfl⟩ | ⟨hne, now, rfl⟩)
    · exact ⟨cfg.named_nextSstablePath now, hne⟩
    · exact ⟨cfg.named_l1 now, hne⟩
  · rintro ⟨hp, hne⟩
    exact (hhoused.inPlace p hp hne).imp (⟨hne, ·⟩) (⟨hne, ·⟩)

/-- No file of L0 is one of L1. -/
theorem notMem_l1 (h : Mirrored cfg s) {p : Path} (hp : p ∈ s.stock) : p ∉ s.levels.l1 := by
  intro hm
  obtain ⟨-, now, rfl⟩ := (h.shelves.mem0 p).mp hp
  obtain ⟨-, n, hn⟩ := (h.shelves.mem1 _).mp hm
  exact cfg.nextSstablePath_ne_l1 now n _ hn

/-- A step that changes neither the SSTables nor the lists. -/
theorem of_quiet (h : Mirrored cfg s) {pc : Pc} (hpc : s.pc () = pc) (pc' : Pc)
    (hpc' : s'.pc () = pc') (hlevels : s'.levels = s.levels) (hlanded : pc'.landed = pc.landed)
    (hfs : ∀ p : Path, p.NamedSst → s'.fs p = s.fs p)
    (hlatest : ∀ p, (s'.pc ()).path = some p → s'.Latest cfg p) : Mirrored cfg s' := by
  subst hpc hpc'
  have hstock : s'.stock = s.stock := stock_eq rfl rfl (by rw [hlevels]) hlanded
  exact ⟨by rw [hstock, hlevels]; exact h.shelves.congr hfs, hlatest⟩

/-- The output of a compaction that reads a later time is a new file. -/
theorem swept (hhoused : Housed cfg s) {now : ℕ}
    (hok : (s.levels.compact cfg.sizing cfg.heap .whole now s.fs).1 = .ok ())
    (hclock : ∀ n, ⟨cfg.dir, FileName.l1Name n⟩ ∈ s.levels.l1 →
      n < now ∧ FileName.SameDigits n now) {oldest : Path} (ho : s.levels.l0.head? = some oldest) :
    LevelManager.Swept now s.fs s.levels oldest (s.compact cfg .whole now).levels
      (s.compact cfg .whole now).fs := by
  have hnew : LevelManager.outputPath now oldest ∉ s.levels.l0 ++ s.levels.l1 :=
    hhoused.outputPath_notMem (List.mem_of_head? ho) fun hm => lt_irrefl _ (hclock now hm).1
  exact LevelManager.swept_of_ok ho (compact_eq_ok hok) fun hin =>
    hnew (LevelManager.mem_of_inputs hin)

/-- What a compaction keeps in the lists is what it has not merged. -/
theorem mem_left_iff (h : Mirrored cfg s) (p : Path) :
    p ∈ (s.pc ()).landed ++ s.levels.untouched s.fs ↔
      p ∈ s.stock ++ s.levels.l1 ∧ p ∉ s.levels.inputs s.fs := by
  have hl0 : ∀ q ∈ s.levels.l0, q ∈ s.stock := fun q hq => List.mem_append_left _ hq
  constructor
  · -- the file on its way is no input, and neither is an L1 file that is left out
    intro hp
    rcases List.mem_append.mp hp with hp | hp
    · have hstock : p ∈ s.stock := List.mem_append_right _ hp
      refine ⟨List.mem_append_left _ hstock, fun hin => ?_⟩
      rcases List.mem_append.mp hin with hin | hin
      · exact (List.nodup_append.mp h.shelves.sorted0.nodup).2.2 p hin p hp rfl
      · exact h.notMem_l1 hstock (LevelManager.mem_of_overlapping hin)
    · have hl1 := LevelManager.mem_of_untouched hp
      refine ⟨List.mem_append_right _ hl1, fun hin => ?_⟩
      rcases List.mem_append.mp hin with hin | hin
      · exact h.notMem_l1 (hl0 p hin) hl1
      · have hmeets := (List.mem_filter.mp hin).2
        have hnot := (List.mem_filter.mp hp).2
        rw [hmeets] at hnot
        exact absurd hnot (by decide)
  · rintro ⟨hp, hin⟩
    obtain ⟨hnot0, hnot1⟩ := not_or.mp (List.mem_append.not.mp hin)
    rcases List.mem_append.mp hp with hp | hp
    · exact List.mem_append_left _ ((List.mem_append.mp hp).resolve_left hnot0)
    · refine List.mem_append_right _ (List.mem_filter.mpr ⟨hp, ?_⟩)
      have hmeets : s.levels.meetsL0 s.fs p = false := Bool.eq_false_iff.mpr fun hm =>
        hnot1 (List.mem_filter.mpr ⟨hp, hm⟩)
      rw [hmeets]
      rfl

/-- An SSTable is there after a compaction if it was there and no input, or if it is the
output. -/
theorem file_iff (h : Mirrored cfg s) (hhoused : Housed cfg s) {now : ℕ} {oldest p : Path}
    (hp : p.NamedSst) (hswept : LevelManager.Swept now s.fs s.levels oldest
      (s.compact cfg .whole now).levels (s.compact cfg .whole now).fs) :
    (s.compact cfg .whole now).fs p ≠ none ↔
      p ∈ (s.pc ()).landed ++ s.levels.untouched s.fs ∨
        p = LevelManager.outputPath now oldest := by
  rw [h.mem_left_iff, h.mem_iff hhoused]
  by_cases hpo : p = LevelManager.outputPath now oldest
  · exact iff_of_true (hpo ▸ hswept.output) (Or.inr hpo)
  · rw [or_iff_left hpo]
    by_cases hin : p ∈ s.levels.inputs s.fs
    · exact iff_of_false (not_not_intro (hswept.gone p hin)) fun hleft => hleft.2 hin
    · rw [hswept.kept p hp hpo hin]
      exact ⟨fun hne => ⟨⟨hp, hne⟩, hin⟩, fun hleft => hleft.1.2⟩

/-- A compaction takes its inputs out of the lists and out of the directory. -/
theorem compact (h : Mirrored cfg s) (hhoused : Housed cfg s) {now : ℕ}
    (hok : (s.levels.compact cfg.sizing cfg.heap .whole now s.fs).1 = .ok ())
    (hclock : ∀ n, ⟨cfg.dir, FileName.l1Name n⟩ ∈ s.levels.l1 →
      n < now ∧ FileName.SameDigits n now) : Mirrored cfg (s.compact cfg .whole now) := by
  have hstep : Step cfg s (.compact .whole now) (s.compact cfg .whole now) := .compact
  have hlatest := latest_step h.latest hstep trivial
  cases hl0 : s.levels.l0 with
  | nil =>
    obtain ⟨hlevels, hfs⟩ := hhoused.compact_nil hl0
    exact h.of_quiet rfl _ rfl hlevels rfl (fun p _ => congrFun hfs p) hlatest
  | cons oldest newer =>
    have ho : s.levels.l0.head? = some oldest := by rw [hl0]; rfl
    have hswept := swept hhoused hok hclock ho
    have houtput : LevelManager.outputPath now oldest = ⟨cfg.dir, FileName.l1Name now⟩ :=
      hhoused.outputPath_eq (List.mem_of_head? ho)
    have hstock : (s.compact cfg .whole now).stock = (s.pc ()).landed := by
      rw [Sys.stock, hswept.levels]
      rfl
    have hl1 : (s.compact cfg .whole now).levels.l1 =
        s.levels.untouched s.fs ++ [⟨cfg.dir, FileName.l1Name now⟩] := by
      rw [hswept.levels, houtput]
      rfl
    refine ⟨?_, hlatest⟩
    rw [hstock, hl1]
    refine .of_files (h.shelves.sorted0.sublist (List.sublist_append_right _ _)) ?_ ?_ ?_ ?_
    · -- the output has the latest reading, and stands at the end
      rw [NameSorted, List.pairwise_append]
      refine ⟨h.shelves.sorted1.sublist List.filter_sublist, List.pairwise_singleton _ _,
        fun p hm q hq => ?_⟩
      rw [List.mem_singleton.mp hq]
      obtain ⟨-, n, rfl⟩ := (h.shelves.mem1 p).mp (LevelManager.mem_of_untouched hm)
      obtain ⟨hlt, hdigits⟩ := hclock n (LevelManager.mem_of_untouched hm)
      exact FileName.l1Name_lt hdigits hlt
    · exact fun p hp => ((h.shelves.mem0 p).mp (List.mem_append_right _ hp)).2
    · intro p hp
      rcases List.mem_append.mp hp with hp | hp
      · exact ((h.shelves.mem1 p).mp (LevelManager.mem_of_untouched hp)).2
      · exact ⟨now, List.mem_singleton.mp hp⟩
    · intro p hp
      rw [h.file_iff hhoused hp hswept, houtput, ← List.append_assoc,
        List.mem_append (t := [_]), List.mem_singleton]

/-- The lists have the file now. -/
theorem publish (h : Mirrored cfg s) {t : Unit} {e : WalEntry} {w : Swapped}
    (hpc : s.pc t = .flushing e (.truncated w)) : Mirrored cfg (s.publish t e w) := by
  have hl1 : (s.publish t e w).levels.l1 = s.levels.l1 := s.levels.l1_addL0File w.path
  refine ⟨?_, by simp [Sys.publish, goto]⟩
  rw [stock_publish hpc, hl1]
  exact h.shelves

end Mirrored

/-! ### The condition -/

/-- No step fails, and no compaction. -/
def Completes (cfg : Config) (s : Sys Unit) : Act Unit → Prop
  | .compact io now =>
      io = .whole ∧ (s.levels.compact cfg.sizing cfg.heap io now s.fs).1 = .ok ()
  | a => a.Serves

/-- A flush reads the clock later than all flushes before it, a compaction later than
those whose outputs are in L1, and no reading has a digit more. -/
def Clocked (cfg : Config) (s : Sys Unit) : Act Unit → Prop
  | .compact _ now => ∀ n, ⟨cfg.dir, FileName.l1Name n⟩ ∈ s.levels.l1 →
      n < now ∧ FileName.SameDigits n now
  | a => s.Ticks a

/-- One step. -/
theorem Mirrored.step (h : Mirrored cfg s) (hhoused : Housed cfg s) (hs : Step cfg s a s')
    (ha : s.Completes cfg a) (hclocked : s.Clocked cfg a) : Mirrored cfg s' := by
  have hlatest : ∀ p, (s'.pc ()).path = some p → s'.Latest cfg p := by
    refine latest_step h.latest hs ?_
    cases a with
    | compact => trivial
    | _ => exact hclocked
  by_cases hquiet : a.Quiet
  · have hwhole : a.Whole := by
      cases a with
      | appendFails => exact ha.elim
      | _ => trivial
    have hsame := quiet_step hs hwhole hquiet
    exact h.of_quiet rfl _ rfl hsame.levels (hsame.after.trans hsame.before.symm) hsame.fs hlatest
  cases hs with
  | append hpc | truncate hpc => exact h.of_quiet hpc _ rfl rfl rfl (fun _ _ => rfl) hlatest
  | @rename t e w hpc =>
    have hstock : s.stock = s.levels.l0 := (stock_of_pc hpc).trans (List.append_nil _)
    have hshelves := hhoused.shelves_rename h.shelves h.latest hpc
    rw [hstock] at hshelves
    exact ⟨hshelves, hlatest⟩
  | publish hpc => exact h.publish hpc
  | compact =>
    obtain ⟨rfl, hok⟩ := ha
    exact h.compact hhoused hok hclocked
  | restart | appendFails | flushFails | truncateFails => exact ha.elim
  | call | insert | fill | name | swap | create | write | finish | hit | miss | search =>
    exact absurd trivial hquiet

/-! ### After an operation -/

/-- **The directory and the lists agree**: they have the same files, each of them once, and
the directory is recovered as the lists. -/
structure Agreed (cfg : Config) (s : Sys Unit) : Prop where
  files : ∀ p : Path, p ∈ s.levels.l0 ++ s.levels.l1 ↔ p.NamedSst ∧ s.fs p ≠ none
  nodup : (s.levels.l0 ++ s.levels.l1).Nodup
  recovered : ∀ listing, s.fs.Lists cfg.dir listing → discoverLevels listing = s.levels

/-- **A compaction deletes its inputs and no other SSTable**, and the L1 files that it has
not merged stay where they are. -/
structure DeletesInputs (s s' : Sys Unit) : Prop where
  deleted : ∀ p : Path, p.NamedSst →
    (s.fs p ≠ none ∧ s'.fs p = none ↔ p ∈ s.levels.inputs s.fs)
  untouched : ∀ p ∈ s.levels.l1, p ∉ s.levels.inputs s.fs →
    p ∈ s'.levels.l1 ∧ s'.fs p = s.fs p ∧ s.fs p ≠ none

namespace Mirrored

theorem agreed (h : Mirrored cfg s) (hhoused : Housed cfg s) (hidle : s.pc () = .idle) :
    s.Agreed cfg := by
  have hstock : s.stock = s.levels.l0 := (stock_of_pc hidle).trans (List.append_nil _)
  have hmem := h.mem_iff hhoused
  have hshelves := h.shelves
  rw [hstock] at hmem hshelves
  refine ⟨hmem, List.nodup_append.mpr ⟨hhoused.nodup0, hhoused.nodup1, ?_⟩, fun listing hl => ?_⟩
  · rintro p hp _ hq rfl
    exact hhoused.notMem_l1 hp hq
  · rw [hhoused.levels]
    exact hshelves.discoverLevels_eq hhoused.inPlace hl

theorem deletesInputs (h : Mirrored cfg s) (hhoused : Housed cfg s) {now : ℕ}
    (hok : (s.levels.compact cfg.sizing cfg.heap .whole now s.fs).1 = .ok ())
    (hclock : ∀ n, ⟨cfg.dir, FileName.l1Name n⟩ ∈ s.levels.l1 →
      n < now ∧ FileName.SameDigits n now) : s.DeletesInputs (s.compact cfg .whole now) := by
  have hfile : ∀ p ∈ s.levels.l0 ++ s.levels.l1, s.fs p ≠ none := fun p hp =>
    (hhoused.tracked hp).2
  cases hl0 : s.levels.l0 with
  | nil =>
    obtain ⟨hlevels, hfs⟩ := hhoused.compact_nil hl0
    refine ⟨fun p _ => ?_, fun p hp _ => ?_⟩
    · rw [LevelManager.inputs_of_nil hl0, hfs]
      exact iff_of_false (fun hgone => hgone.1 hgone.2) List.not_mem_nil
    · rw [hlevels, hfs]
      exact ⟨hp, rfl, hfile p (LevelManager.mem_of_l1 hp)⟩
  | cons oldest newer =>
    have ho : s.levels.l0.head? = some oldest := by rw [hl0]; rfl
    have houtput : LevelManager.outputPath now oldest = ⟨cfg.dir, FileName.l1Name now⟩ :=
      hhoused.outputPath_eq (List.mem_of_head? ho)
    obtain ⟨hlevels, hout, hgone, hkept⟩ := swept hhoused hok hclock ho
    refine ⟨fun p hp => ⟨fun hgone => ?_, fun hin => ?_⟩, fun p hp hin => ?_⟩
    · by_contra hin
      by_cases hpo : p = LevelManager.outputPath now oldest
      · exact hout (hpo ▸ hgone.2)
      · exact hgone.1 ((hkept p hp hpo hin).symm.trans hgone.2)
    · exact ⟨hfile p (LevelManager.mem_of_inputs hin), hgone p hin⟩
    · have hnamed := (hhoused.tracked (LevelManager.mem_of_l1 hp)).1
      have hpo : p ≠ LevelManager.outputPath now oldest := by
        rw [houtput]
        rintro rfl
        exact lt_irrefl _ (hclock now hp).1
      refine ⟨?_, hkept p hnamed hpo hin, hfile p (LevelManager.mem_of_l1 hp)⟩
      have hleft := (h.mem_left_iff p).mpr ⟨List.mem_append_right _ hp, hin⟩
      have huntouched : p ∈ s.levels.untouched s.fs := (List.mem_append.mp hleft).resolve_left
        fun hlanded => h.notMem_l1 (List.mem_append_right _ hlanded) hp
      rw [hlevels]
      exact List.mem_append_left _ huntouched

end Mirrored

/-- **The recovered lists are the live ones**, at the end of every operation of every
such run, and each compaction of it deletes its inputs only. -/
theorem agreed_of_run {as : List (Act Unit)} {s : Sys Unit}
    (hrun : Runs.Run (Runs.Guarded (Step cfg) fun s a => s.Completes cfg a ∧ s.Clocked cfg a)
      Sys.init as s) : (s.pc () = .idle → s.Agreed cfg) ∧
      ∀ io now s', Step cfg s (.compact io now) s' → s.Completes cfg (.compact io now) →
        s.Clocked cfg (.compact io now) → s.DeletesInputs s' := by
  obtain ⟨hhoused, hmirrored⟩ : Housed cfg s ∧ Mirrored cfg s :=
    hrun.invariant (I := fun s => Housed cfg s ∧ Mirrored cfg s) ⟨.init, .init⟩ (by
      rintro s a s' ⟨hhoused, hmirrored⟩ ⟨hs, hcompletes, hclocked⟩
      refine ⟨hhoused.step hs ?_ ?_, hmirrored.step hhoused hs hcompletes hclocked⟩
      · rintro t now rfl hm
        obtain ⟨c, hc, rfl⟩ := List.mem_map.mp hm
        exact lt_irrefl _ (hclocked c hc).1
      · rintro io now rfl hm
        exact lt_irrefl _ (hclocked now hm).1)
  refine ⟨hmirrored.agreed hhoused, fun io now s' hs hcompletes hclocked => ?_⟩
  obtain ⟨rfl, hok⟩ := hcompletes
  cases hs
  exact hmirrored.deletesInputs hhoused hok hclocked

theorem completes_of_serves (ha : a.Serves) (hticks : s.Ticks a) :
    s.Completes cfg a ∧ s.Clocked cfg a := by
  cases a with
  | compact | restart | appendFails | flushFails | truncateFails => exact ha.elim
  | _ => exact ⟨trivial, hticks⟩

/-- Two flushes, a compaction and one more flush. -/
theorem agreed_of_run_compacted : ∃ s s' : Sys Unit,
    s.levels.l0.length = 2 ∧ s.DeletesInputs (s.compact (.ofThreshold 1) .whole 3) ∧
      s'.levels.l0.length = 1 ∧ s'.levels.l1.length = 1 ∧ s'.Agreed (.ofThreshold 1) := by
  let flush (k now : ℕ) : List (Act Unit) :=
    [.call () (.write (.put [UInt8.ofNat k] [1])), .append (), .insert (), .name () now, .swap (),
      .create (), .finish (), .rename (), .truncate (), .publish ()]
  obtain ⟨s, hrun, hl0, hl1, hok, hnext⟩ := exists_of_nexts (.ofThreshold 1) (fun s a => s.Ticks a)
    Sys.init (flush 7 1 ++ flush 8 2)
    (fun s => s.levels.l0.length = 2 ∧ s.levels.l1 = [] ∧
      (s.levels.compact .percent (.argmin _) .whole 3 s.fs).1 = .ok () ∧
      ((s.compact (.ofThreshold 1) .whole 3).nexts (.ofThreshold 1) (fun s a => s.Ticks a)
        (flush 9 4)).any (fun s => decide (s.pc () = .idle ∧ s.levels.l0.length = 1 ∧
          s.levels.l1.length = 1)) = true) (by decide +kernel)
  obtain ⟨s', hrun', hidle, hlen0, hlen1⟩ := exists_of_nexts (.ofThreshold 1)
    (fun s a => s.Ticks a) _ (flush 9 4) (fun s => s.pc () = .idle ∧ s.levels.l0.length = 1 ∧
      s.levels.l1.length = 1) hnext
  have hserves : ∀ s a s', Runs.Guarded (Step (.ofThreshold 1)) (fun s a => a.Serves ∧ s.Ticks a)
      s a s' → Runs.Guarded (Step (.ofThreshold 1)) (fun s a =>
        s.Completes (.ofThreshold 1) a ∧ s.Clocked (.ofThreshold 1) a) s a s' :=
    fun _ _ _ h => ⟨h.1, completes_of_serves h.2.1 h.2.2⟩
  have hclocked : s.Clocked (.ofThreshold 1) (.compact .whole 3) := fun n hn =>
    absurd hn (by rw [hl1]; exact List.not_mem_nil)
  have hcompact : Runs.Guarded (Step (.ofThreshold 1)) (fun s a =>
      s.Completes (.ofThreshold 1) a ∧ s.Clocked (.ofThreshold 1) a) s (.compact .whole 3)
      (s.compact (.ofThreshold 1) .whole 3) := ⟨.compact, ⟨rfl, hok⟩, hclocked⟩
  exact ⟨s, s', hl0, (agreed_of_run (hrun.mono hserves)).2 .whole 3 _ .compact ⟨rfl, hok⟩ hclocked,
    hlen0, hlen1, (agreed_of_run (((hrun.mono hserves).snoc hcompact).trans
      (hrun'.mono hserves))).1 hidle⟩

end Sys

end Tabula
