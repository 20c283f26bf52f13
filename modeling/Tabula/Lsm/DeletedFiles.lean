import Tabula.Lsm.Snapshots

/-!
# Files that go

An SSTable stays what it is until a compaction deletes it. Where a copy of it is left, the copy
says what was true at a time that L1 has passed (`Tabula.Sys.Gone`), and nothing is ever written
under its name again. So it is with the file of a flush: it says what the log said that the
flush has emptied, or L1 does (`Tabula.Sys.Owes`).
-/

namespace Tabula

open SortedTable

variable {cfg : Config}

/-- **A file that is left on stable storage** of what a compaction has merged: it says what was
true at its time, which is no later than that of L1, and no file gets its path again. -/
structure Sys.Gone (cfg : Config) (s : Sys Unit) (m : Stamps) (fs : Fs) (p : Path) : Prop where
  missing : s.fs p = none
  place : cfg.InPlace p
  complete : fs.Complete p
  tells : ∀ k v, lookup k (fs.records p) = some v →
    visible (some v) = Sys.mapAfter s.hist (m.file p) k
  below : m.file p ≤ m.bottom
  reading : ∀ now, p = cfg.nextSstablePath now → now ∈ (Sys.clocks s.hist).map Prod.snd
  named : (s.pc ()).path ≠ some p
  newer : ∀ now, p = ⟨cfg.dir, FileName.l1Name now⟩ → ∃ q ∈ s.levels.l1, p.name < q.name

/-- The file of a flush that empties the log. -/
@[simp] def Sys.empties (s : Sys Unit) : Act Unit → Option Path
  | .truncate t | .truncateFails t => (s.pc t).landed.head?
  | _ => none

/-- **The file of the flush that has emptied the log** says all that the old log said, or has been
merged into L1. -/
structure Sys.Owes (cfg : Config) (s : Sys Unit) (m : Stamps) (reach : ℕ) (p : Path) : Prop where
  reading : ∃ c ∈ Sys.clocks s.hist, p = cfg.nextSstablePath c.2
  settled : reach ≤ Sys.settled s.hist
  file : reach ≤ m.file p
  merged : s.fs p = none → reach ≤ m.bottom

namespace Sys

variable {s s' : Sys Unit} {a : Act Unit} {m m' : Stamps}

/-- A path is taken from the clock. -/
theorem path_step (hs : Step cfg s a s') {p : Path} (hp : (s'.pc ()).path = some p) :
    (s.pc ()).path = some p ∨ fresh cfg a = some p := by
  cases hs with
  | @call t op => cases op <;> simp [Sys.call, goto, Op.begin] at hp
  | name => exact Or.inr hp
  | swap hpc | create hpc | write hpc | finish hpc | rename hpc | truncate hpc =>
    exact Or.inl (by rw [hpc]; exact hp)
  | compact => exact Or.inl hp
  | append | insert | fill | publish | hit | miss | search | restart | appendFails | flushFails
  | truncateFails =>
    simp [Sys.append, Sys.insert, Sys.fill, Sys.publish, Sys.answer, Sys.restart, Sys.appendFails,
      Sys.flushFails, Sys.truncateFails, goto] at hp

/-- The clock gives a path that has not been given. -/
theorem fresh_ne_reading (hclocked : s.Clocked cfg a) {n : ℕ}
    (hn : n ∈ (clocks s.hist).map Prod.snd) : fresh cfg a ≠ some (cfg.nextSstablePath n) := by
  intro he
  cases a with
  | name t now =>
    obtain rfl := cfg.nextSstablePath_inj (Option.some.inj he)
    obtain ⟨c, hc, hcn⟩ := List.mem_map.mp hn
    exact absurd (hclocked c hc).1 (by rw [hcn]; exact lt_irrefl _)
  | compact io now => exact cfg.nextSstablePath_ne_l1 n now _ (Option.some.inj he).symm
  | _ => simp at he

namespace Layered

/-- The output of a compaction has the latest name in L1. -/
theorem name_lt_output (h : Layered cfg s m) {now : ℕ}
    (hclock : ∀ n, ⟨cfg.dir, FileName.l1Name n⟩ ∈ s.levels.l1 →
      n < now ∧ FileName.SameDigits n now) {q : Path} (hq : q ∈ s.levels.l1) :
    q.name < FileName.l1Name now := by
  obtain ⟨-, n, rfl⟩ := h.sheltered.housed.l1 q hq
  obtain ⟨hlt, hdigits⟩ := hclock n hq
  exact FileName.l1Name_lt hdigits hlt

/-- **An SSTable stays as it is**, until a compaction deletes it and puts its output behind all
that was in L1. -/
theorem fs_step (h : Layered cfg s m) (hs : Step cfg s a s') (hcompletes : s.Completes cfg a)
    (hclocked : s.Clocked cfg a) {p : Path} (hp : p.NamedSst) (hne : s.fs p ≠ none) :
    s'.fs p = s.fs p ∨ s'.fs p = none ∧ s'.pc = s.pc ∧ p ∈ s.levels.l0 ++ s.levels.l1 ∧
      ∃ q ∈ s'.levels.l1, ∀ q' ∈ s.levels.l1, q'.name < q.name := by
  have hhoused := h.sheltered.housed
  cases hs with
  | @create t e w | @write t e w | @finish t e w =>
    exact Or.inl (Fs.write_of_ne (hp.ne_tmp w.path) s.fs _)
  | rename hpc => exact Or.inl (hhoused.named.fs_rename hpc hp hne)
  | @compact io now =>
    obtain ⟨rfl, hok⟩ := hcompletes
    cases hl0 : s.levels.l0 with
    | nil =>
      exact Or.inl (congrFun (hhoused.compact_nil hl0).2 p)
    | cons oldest newer =>
      have ho : s.levels.l0.head? = some oldest := by rw [hl0]; rfl
      have houtput : LevelManager.outputPath now oldest = ⟨cfg.dir, FileName.l1Name now⟩ :=
        hhoused.outputPath_eq (List.mem_of_head? ho)
      have hswept := Mirrored.swept hhoused hok hclocked ho
      by_cases hin : p ∈ s.levels.inputs s.fs
      · refine Or.inr ⟨hswept.gone p hin, rfl, ?_, ⟨cfg.dir, FileName.l1Name now⟩, ?_,
          fun q' hq' => h.name_lt_output hclocked hq'⟩
        · rw [← hl0]
          exact LevelManager.mem_of_inputs hin
        · rw [hswept.levels, houtput]
          exact List.mem_append_right _ (List.mem_singleton_self _)
      · refine Or.inl (hswept.kept p hp (fun hout => ?_) hin)
        rw [houtput] at hout
        have hl1 := (h.mirrored.shelves.mem1 p).mpr ⟨hne, now, hout⟩
        rw [hout] at hl1
        exact lt_irrefl _ (hclocked now hl1).1
  | call | append | insert | fill | name | swap | truncate | publish | hit | miss | search
  | restart | appendFails | flushFails | truncateFails => exact Or.inl rfl

/-- **A path without a file stays so**, unless it is that of the flush or a new one. -/
theorem fs_step_of_none (h : Layered cfg s m) (hs : Step cfg s a s') {p : Path}
    (hp : p.NamedSst) (hnone : s.fs p = none) (hpath : (s.pc ()).path ≠ some p)
    (hfresh : fresh cfg a ≠ some p) : s'.fs p = none := by
  have hhoused := h.sheltered.housed
  cases hs with
  | @create t e w | @write t e w | @finish t e w =>
    exact (Fs.write_of_ne (hp.ne_tmp w.path) s.fs _).trans hnone
  | @rename t e w hpc =>
    refine (Fs.rename_of_ne (hp.ne_tmp w.path) (fun he => hpath ?_) s.fs).trans hnone
    rw [show s.pc () = .flushing e (.written w) from hpc, he]
    rfl
  | @compact io now =>
    rcases Config.compact_file_cases hhoused.exists_l0 cfg.sizing cfg.heap io now s.fs hp
      fun he => hfresh (congrArg some he.symm) with hsame | ⟨hgone, -⟩
    · exact hsame.trans hnone
    · exact hgone
  | call | append | insert | fill | name | swap | truncate | publish | hit | miss | search
  | restart | appendFails | flushFails | truncateFails => exact hnone

/-- The last name in L1 does not go back. -/
theorem exists_name_le (h : Layered cfg s m) (h' : Layered cfg s' m') (hs : Step cfg s a s')
    (hcompletes : s.Completes cfg a) (hclocked : s.Clocked cfg a) {q : Path}
    (hq : q ∈ s.levels.l1) : ∃ q' ∈ s'.levels.l1, q.name ≤ q'.name := by
  have hnamed := (h.tracked (List.mem_append_right _ hq)).1
  have hne := (h.tracked (List.mem_append_right _ hq)).2
  rcases h.fs_step hs hcompletes hclocked hnamed hne with hsame | ⟨-, -, -, q', hq', hlast⟩
  · obtain ⟨-, now, hnow⟩ := (h.mirrored.shelves.mem1 q).mp hq
    exact ⟨q, (h'.mirrored.shelves.mem1 q).mpr ⟨hsame.trans_ne hne, now, hnow⟩, le_rfl⟩
  · exact ⟨q', hq', le_of_lt (hlast q hq)⟩

/-- A file of L0 keeps its stamp. -/
theorem file_step (h' : Layered cfg s' m') (hlater : m.Later s s' (fresh cfg a) m') {n : ℕ}
    (h : Layered cfg s m) (hfresh : fresh cfg a ≠ some (cfg.nextSstablePath n)) :
    m'.file (cfg.nextSstablePath n) = m.file (cfg.nextSstablePath n) := by
  rw [hlater.left _ hfresh fun hm => ?_, h.of_reading]
  obtain ⟨-, n', hn'⟩ := h'.sheltered.housed.l1 _ hm
  exact cfg.nextSstablePath_ne_l1 n n' _ hn'

/-- Every stamp is in the past. -/
theorem of_le (h : Layered cfg s m) {p : Path} (hp : p ∈ s.stock ++ s.levels.l1) :
    m.of s.levels p ≤ (completed s.hist).length := by
  rw [Stamps.of]
  split
  · exact h.bottom_le
  · rename_i hl1
    exact h.file_le ((List.mem_append.mp hp).resolve_right hl1)

/-- L1 has the earliest. -/
theorem bottom_le_of (h : Layered cfg s m) {p : Path} (hp : p ∈ s.stock ++ s.levels.l1) :
    m.bottom ≤ m.of s.levels p := by
  rw [Stamps.of]
  split
  · exact le_rfl
  · rename_i hl1
    exact h.stamped.late p ((List.mem_append.mp hp).resolve_right hl1)

/-- Only the file that a flush has just renamed is later than what has left the log. -/
theorem of_le_settled (h : Layered cfg s m) {p : Path} (hp : p ∈ s.stock ++ s.levels.l1) :
    m.of s.levels p ≤ settled s.hist ∨ ∃ e w, s.pc () = .flushing e (.renamed w) ∧ p = w.path := by
  rw [Stamps.of]
  split
  · exact Or.inl h.stamped.bottom_le
  · rename_i hl1
    have hstock := (List.mem_append.mp hp).resolve_right hl1
    obtain ⟨c, hc, rfl⟩ := h.exists_reading hstock
    rcases h.stamped.old c hc with hle | hpath
    · exact Or.inl hle
    · have hlanded := (List.mem_append.mp hstock).resolve_left fun hl0 =>
        h.sheltered.housed.apart () _ hl0 hpath
      cases hpc : s.pc () with
      | flushing e f =>
        rw [hpc] at hlanded
        cases f with
        | renamed w => exact Or.inr ⟨e, w, rfl, List.mem_singleton.mp hlanded⟩
        | truncated w =>
          rw [settled_of_nil (h.stamped.emptied e w hpc)]
          exact Or.inl (h.file_le hstock)
        | _ => simp at hlanded
      | _ => simp [hpc] at hlanded

/-- Nor one that has a file. -/
theorem fresh_ne (h : Layered cfg s m) (hclocked : s.Clocked cfg a) {p : Path} (hp : p.NamedSst)
    (hne : s.fs p ≠ none) : fresh cfg a ≠ some p := by
  have hhoused := h.sheltered.housed
  rcases hhoused.inPlace p hp hne with ⟨n, rfl⟩ | ⟨n, rfl⟩
  · obtain ⟨t, hc⟩ := hhoused.named.file n hne
    exact fresh_ne_reading hclocked (List.mem_map_of_mem hc)
  · intro he
    cases a with
    | name t now => exact cfg.nextSstablePath_ne_l1 now n _ (Option.some.inj he)
    | compact io now =>
      have hl1 := (h.mirrored.shelves.mem1 _).mpr ⟨hne, n, rfl⟩
      rw [← Option.some.inj he] at hl1
      exact lt_irrefl _ (hclocked now hl1).1
    | _ => simp at he

end Layered

/-! ### What a compaction deletes -/

namespace Gone

variable {fs : Fs} {p : Path}

/-- Only the file matters. -/
theorem congr {fs' : Fs} (h : Gone cfg s m fs p) (hfs : fs' p = fs p) : Gone cfg s m fs' p :=
  ⟨h.missing, h.place, h.complete.congr hfs, fun k v hv => h.tells k v
    (by rwa [← Fs.records_congr hfs]), h.below, h.reading, h.named, h.newer⟩

theorem named_sst (h : Gone cfg s m fs p) : p.NamedSst := by
  rcases h.place with ⟨now, rfl⟩ | ⟨now, rfl⟩
  · exact cfg.named_nextSstablePath now
  · exact cfg.named_l1 now

/-- No step makes a file of its path. -/
theorem fresh_ne (h : Gone cfg s m fs p) (hlayered : Layered cfg s m)
    (hclocked : s.Clocked cfg a) : fresh cfg a ≠ some p := by
  rcases h.place with ⟨now, rfl⟩ | ⟨now, rfl⟩
  · exact fresh_ne_reading hclocked (h.reading now rfl)
  · intro he
    cases a with
    | name t now' => exact cfg.nextSstablePath_ne_l1 now' now _ (Option.some.inj he)
    | compact io now' =>
      obtain ⟨q, hq, hlt⟩ := h.newer now rfl
      have hlast := hlayered.name_lt_output hclocked hq
      rw [← Option.some.inj he] at hlt
      exact lt_asymm hlt hlast
    | _ => simp at he

/-- **It stays gone.** -/
theorem step (h : Gone cfg s m fs p) (hlayered : Layered cfg s m) (hs : Step cfg s a s')
    (hcompletes : s.Completes cfg a) (hclocked : s.Clocked cfg a) (hlayered' : Layered cfg s' m')
    (hlater : m.Later s s' (fresh cfg a) m') : Gone cfg s' m' fs p := by
  have hfresh := h.fresh_ne hlayered hclocked
  have hmissing := hlayered.fs_step_of_none hs h.named_sst h.missing h.named hfresh
  have hfile : m'.file p = m.file p := by
    rw [hlater.left p hfresh fun hm => (hlayered'.tracked (List.mem_append_right _ hm)).2 hmissing]
    exact if_neg fun hm => (hlayered.tracked (List.mem_append_right _ hm)).2 h.missing
  refine ⟨hmissing, h.place, h.complete, fun k v hv => ?_, ?_, fun now hnow => ?_, fun hpath => ?_,
    fun now hnow => ?_⟩
  · rw [hfile, mapAfter_step hs (h.below.trans hlayered.bottom_le)]
    exact h.tells k v hv
  · rw [hfile]
    exact h.below.trans hlater.bottom
  · exact List.map_subset _ (hs.hist_grows.filterMap Event.reading).subset (h.reading now hnow)
  · rcases path_step hs hpath with hpath | hpath
    · exact h.named hpath
    · exact hfresh hpath
  · obtain ⟨q, hq, hlt⟩ := h.newer now hnow
    obtain ⟨q', hq', hle⟩ := hlayered.exists_name_le hlayered' hs hcompletes hclocked hq
    exact ⟨q', hq', lt_of_lt_of_le hlt hle⟩

/-- **What a compaction deletes is gone**, where stable storage has it. -/
theorem of_deleted (hlayered : Layered cfg s m) (hs : Step cfg s a s')
    (hclocked : s.Clocked cfg a) (hlayered' : Layered cfg s' m')
    (hlater : m.Later s s' (fresh cfg a) m') (hsame : fs p = s.fs p) (hmissing : s'.fs p = none)
    (hpc : s'.pc = s.pc) (hp : p ∈ s.levels.l0 ++ s.levels.l1)
    (hlast : ∃ q ∈ s'.levels.l1, ∀ q' ∈ s.levels.l1, q'.name < q.name) :
    Gone cfg s' m' fs p := by
  have hhoused := hlayered.sheltered.housed
  obtain ⟨hnamed, hne⟩ := hhoused.tracked hp
  have hstocked : p ∈ s.stock ++ s.levels.l1 :=
    List.mem_append.mpr ((List.mem_append.mp hp).imp_left (List.mem_append_left _))
  have hfresh := hlayered.fresh_ne hclocked hnamed hne
  have hfile : m'.file p = m.of s.levels p := hlater.left p hfresh fun hm =>
    (hlayered'.tracked (List.mem_append_right _ hm)).2 hmissing
  refine ⟨hmissing, hhoused.inPlace p hnamed hne,
    (hlayered.sheltered.intact.files p hnamed hne).congr hsame, fun k v hv => ?_, ?_,
    fun now hnow => ?_, fun hpath => ?_, fun now hnow => ?_⟩
  · rw [Fs.records_congr hsame] at hv
    rw [hfile, mapAfter_step hs (hlayered.of_le hstocked)]
    exact hlayered.tells hstocked hv
  · rw [hfile]
    exact hlater.gone p hstocked hmissing
  · subst hnow
    obtain ⟨t, hc⟩ := hhoused.named.file now hne
    exact List.map_subset _ (hs.hist_grows.filterMap Event.reading).subset (List.mem_map_of_mem hc)
  · -- the flush on its way has no file in the lists
    rw [hpc] at hpath
    rcases List.mem_append.mp hp with hl0 | hl1
    · exact hhoused.apart () p hl0 hpath
    · obtain ⟨n, -, rfl⟩ := (hhoused.named.pc ()).exists_path hpath
      obtain ⟨-, n', hn'⟩ := hhoused.l1 _ hl1
      exact cfg.nextSstablePath_ne_l1 n n' _ hn'
  · obtain ⟨q, hq, hlt⟩ := hlast
    exact ⟨q, hq, hlt p ((hlayered.mirrored.shelves.mem1 p).mpr ⟨hne, now, hnow⟩)⟩

end Gone

/-! ### What a flush leaves -/

namespace Owes

variable {reach : ℕ} {p : Path}

/-- The file of the flush is there, or L1 says as much. -/
theorem step (h : Owes cfg s m reach p) (hlayered : Layered cfg s m) (hs : Step cfg s a s')
    (hcompletes : s.Completes cfg a) (hclocked : s.Clocked cfg a) (hlayered' : Layered cfg s' m')
    (hlater : m.Later s s' (fresh cfg a) m') : Owes cfg s' m' reach p := by
  obtain ⟨c, hc, rfl⟩ := h.reading
  have hfile := hlayered'.file_step hlater hlayered
    (fresh_ne_reading hclocked (List.mem_map_of_mem hc))
  refine ⟨⟨c, (hs.hist_grows.filterMap Event.reading).subset hc, rfl⟩,
    h.settled.trans (settled_step hs hcompletes), by rw [hfile]; exact h.file, fun hmissing => ?_⟩
  by_cases hne : s.fs (cfg.nextSstablePath c.2) = none
  · exact (h.merged hne).trans hlater.bottom
  · have hp := (hlayered.mirrored.mem_iff hlayered.sheltered.housed _).mpr
      ⟨cfg.named_nextSstablePath c.2, hne⟩
    refine h.file.trans ?_
    rw [← hlayered.of_reading c.2]
    exact hlater.gone _ hp hmissing

/-- When the log is emptied, the file of the flush says all that has been written. -/
theorem of_empties (hlayered : Layered cfg s m) (hs : Step cfg s a s')
    (hcompletes : s.Completes cfg a) (hlayered' : Layered cfg s' m')
    (hlater : m.Later s s' (fresh cfg a) m') (hp : s.empties a = some p)
    (hreach : reach ≤ (completed s.hist).length) : Owes cfg s' m' reach p := by
  cases hs with
  | @truncate t e w hpc =>
    have hstep : Step cfg s (.truncate t) (s.truncate t e w) := .truncate hpc
    have hlanded : (s.pc t).landed.head? = some w.path := by rw [hpc]; rfl
    obtain rfl : w.path = p := Option.some.inj (hlanded.symm.trans hp)
    have hpath : (s.pc ()).path = some w.path := by
      rw [show s.pc () = .flushing e (.renamed w) from hpc]
      rfl
    obtain ⟨now, hown, hnow⟩ := (hlayered.sheltered.housed.named.pc ()).exists_path hpath
    have hfile : m'.file w.path = (completed s.hist).length := by
      rw [hnow, hlayered'.file_step hlater hlayered (by simp), ← hnow]
      exact hlayered.stamped.current _ hpath
    have hthere := (hlayered'.tracked (p := w.path)
      (List.mem_append_left _ (List.mem_append_right _ (List.mem_singleton_self _)))).2
    refine ⟨⟨((), now), ?_, hnow⟩, ?_, hreach.trans hfile.ge,
      fun hmissing => absurd hmissing hthere⟩
    · exact (hstep.hist_grows.filterMap Event.reading).subset hown.1
    · exact hreach.trans (settled_truncate _ _).ge
  | truncateFails => exact hcompletes.elim
  | _ => simp at hp

end Owes

end Sys

end Tabula
