import Tabula.Lsm.Paths
import Mathlib.Data.Fintype.Basic

/-!
# The order of L0

`get` reads L0 from its last file to its first and takes the first record it finds, so
the files have to be in the order in which their MemTables were swapped out. The swap is
made under the WAL lock; the file is added to L0 under the levels lock, after the WAL
lock is released. Between the two, another flush can swap, truncate and add its file
first.

As long as every flush adds its file before the flushes that swapped later do, L0 is in
order, and what a compaction has taken out of it is older than what is there
(`Tabula.Sys.InOrder`). Whatever a compaction does, it touches the files of L0, of L1 and
its own, which are not those of the flushes on their way
(`Tabula.Sys.Placed.compact_frame`).
-/

namespace Tabula

/-- The MemTables whose files are in L0, and those whose files a compaction has taken out
of it, both in the order in which the files were added. -/
structure Files where
  listed : List Swapped
  merged : List Swapped

/-- What an event makes of them. -/
def Event.files {T : Type} (files : Files) : Event T → Files
  | published _ w => { files with listed := files.listed ++ [w] }
  | compacted => ⟨[], files.merged ++ files.listed⟩
  | _ => files

variable {T : Type} {cfg : Config}

namespace Sys

def files (hist : List (Event T)) : Files := hist.foldl Event.files ⟨[], []⟩

@[simp] theorem files_append (hist evs : List (Event T)) :
    files (hist ++ evs) = evs.foldl Event.files (files hist) := List.foldl_append

/-- **L0 is in the order of its data**: its files hold MemTables that were swapped out one
after the other, and after all those whose files a compaction has taken. -/
structure InOrder (cfg : Config) (s : Sys T) : Prop where
  l0 : s.levels.l0 = (files s.hist).listed.map Swapped.path
  holds : ∀ w ∈ (files s.hist).listed, cfg.Holds s.fs w.path w.old
  ages : (files s.hist).listed.Pairwise fun w w' => w.age < w'.age
  merged : ∀ w ∈ (files s.hist).merged, ∀ w' ∈ (files s.hist).listed, w.age < w'.age

/-- Every file that was added is in L0 or was taken out of it, the taken ones first. -/
theorem merged_append_listed (hist : List (Event T)) :
    (files hist).merged ++ (files hist).listed = publications hist := by
  induction hist using List.reverseRecOn with
  | nil => rfl
  | append_singleton hist ev ih =>
    rw [publications_append, ← ih, files_append]
    cases ev <;> simp [Event.files, publications, Event.publication]

theorem mem_publications_of_listed {hist : List (Event T)} {w : Swapped}
    (h : w ∈ (files hist).listed) : w ∈ publications hist := by
  rw [← merged_append_listed]
  exact List.mem_append_right _ h

theorem files_step [DecidableEq T] {s s' : Sys T} {a : Act T} (hs : Step cfg s a s')
    (hpublish : ∀ t, a ≠ .publish t) (hcompact : ∀ io now, a ≠ .compact io now) :
    files s'.hist = files s.hist := by
  cases hs with
  | publish => exact absurd rfl (hpublish _)
  | compact => exact absurd rfl (hcompact _ _)
  | create | write | finish | rename | miss => rfl
  | call | append | insert | fill | name | swap | truncate | hit | search | restart | appendFails
  | flushFails | truncateFails => exact (files_append _ _).trans rfl

/-! ### Ages -/

section Ages

variable {s s' : Sys T}

theorem swaps_step [DecidableEq T] {a : Act T} (hs : Step cfg s a s') (ha : ∀ t, a ≠ .swap t) :
    swaps s'.hist = swaps s.hist := by
  cases hs with
  | swap => exact absurd rfl (ha _)
  | create | write | finish | rename | miss => rfl
  | call | append | insert | fill | name | truncate | publish | hit | search | compact | restart
  | appendFails | flushFails | truncateFails =>
    refine List.countP_append.trans ?_
    simp [swaps]

/-- **What was added to L0 is older than what is on its way**, and each file older than
the next. -/
structure Aged (s : Sys T) : Prop where
  pairwise : (publications s.hist).Pairwise fun w w' => w.age < w'.age
  out : ∀ t w, (s.pc t).out = some w →
    w.age < swaps s.hist ∧ ∀ w' ∈ publications s.hist, w'.age < w.age
  bound : ∀ w ∈ publications s.hist, w.age < swaps s.hist

/-- No flush adds its file before one that has swapped earlier. -/
def InTurn (s : Sys T) (t : T) : Prop :=
  ∀ w ∈ (s.pc t).out, ∀ t', t' ≠ t → ∀ w' ∈ (s.pc t').out, w.age < w'.age

theorem Aged.init : (Sys.init : Sys T).Aged :=
  ⟨List.Pairwise.nil, by simp [Sys.init], by simp [Sys.init, publications]⟩

theorem Aged.of_same (h : s.Aged) (hpublications : publications s'.hist = publications s.hist)
    (hswaps : swaps s'.hist = swaps s.hist)
    (hout : ∀ t w, (s'.pc t).out = some w → (s.pc t).out = some w) : s'.Aged := by
  refine ⟨by rw [hpublications]; exact h.pairwise, fun t w hw => ?_, ?_⟩
  · rw [hpublications, hswaps]
    exact h.out t w (hout t w hw)
  · rw [hpublications, hswaps]
    exact h.bound

variable [DecidableEq T] {a : Act T}

/-- A thread moves on, and swaps out nothing. -/
theorem out_goto {t : T} {pc : Pc} (hpc : ∀ w, pc.out = some w → (s.pc t).out = some w) :
    ∀ t' w, ((s.goto t pc).pc t').out = some w → (s.pc t').out = some w :=
  forall_goto (P := fun t' x => ∀ w, Pc.out x = some w → (s.pc t').out = some w) hpc
    fun _ _ _ => id

/-- The MemTable that is swapped out is younger than all before it. -/
theorem Aged.swap (h : s.Aged) {t : T} {e : WalEntry} {p : Path} : (s.swap t e p).Aged := by
  have hsame : publications (s.swap t e p).hist = publications s.hist :=
    (publications_append _ _).trans (List.append_nil _)
  have hnext : swaps (s.swap t e p).hist = swaps s.hist + 1 := List.countP_append
  refine ⟨by rw [hsame]; exact h.pairwise, ?_, fun w hw => ?_⟩
  · rw [hsame, hnext]
    refine forall_goto (P := fun _ x => ∀ w, Pc.out x = some w → w.age < swaps s.hist + 1 ∧
      ∀ w' ∈ publications s.hist, w'.age < w.age) ?_ fun t' _ w hw => ?_
    · rintro w hw
      obtain rfl := Option.some.inj hw
      exact ⟨Nat.lt_succ_self _, h.bound⟩
    · obtain ⟨hlt, hpub⟩ := h.out t' w hw
      exact ⟨hlt.trans (Nat.lt_succ_self _), hpub⟩
  · rw [hsame] at hw
    rw [hnext]
    exact (h.bound w hw).trans (Nat.lt_succ_self _)

/-- The file that is added is younger than the files there are, and older than those still
on their way. -/
theorem Aged.publish (h : s.Aged) {t : T} {e : WalEntry} {w : Swapped}
    (hpc : s.pc t = .flushing e (.truncated w)) (hturn : s.InTurn t) : (s.publish t e w).Aged := by
  have hnew : publications (s.publish t e w).hist = publications s.hist ++ [w] :=
    publications_append _ _
  have hsame : swaps (s.publish t e w).hist = swaps s.hist := List.countP_append
  have hw : (s.pc t).out = some w := by simp [hpc]
  obtain ⟨hlt, hpub⟩ := h.out t w hw
  refine ⟨?_, ?_, fun w' hw' => ?_⟩
  · rw [hnew, List.pairwise_append]
    refine ⟨h.pairwise, List.pairwise_singleton _ _, fun w₁ h₁ w₂ h₂ => ?_⟩
    rw [List.mem_singleton.mp h₂]
    exact hpub w₁ h₁
  · rw [hnew, hsame]
    refine forall_goto (P := fun _ x => ∀ w', Pc.out x = some w' → w'.age < swaps s.hist ∧
      ∀ w₁ ∈ publications s.hist ++ [w], w₁.age < w'.age) (by simp) fun t' ht w' hw' => ?_
    obtain ⟨hlt', hpub'⟩ := h.out t' w' hw'
    refine ⟨hlt', fun w₁ h₁ => ?_⟩
    rcases List.mem_append.mp h₁ with h₁ | h₁
    · exact hpub' w₁ h₁
    · rw [List.mem_singleton.mp h₁]
      exact hturn w hw t' ht w' hw'
  · rw [hnew, List.mem_append, List.mem_singleton] at hw'
    rw [hsame]
    rcases hw' with hw' | rfl
    · exact h.bound w' hw'
    · exact hlt

theorem Aged.step (h : s.Aged) (hs : Step cfg s a s')
    (hturn : ∀ t, a = .publish t → s.InTurn t) : s'.Aged := by
  have hpublications := publications_step hs
  have hswaps := swaps_step hs
  cases hs with
  | @call t op hpc =>
    exact h.of_same (hpublications (by simp)) (hswaps (by simp))
      (out_goto (by cases op <;> simp [Op.begin]))
  | append | insert | fill | name | hit | miss | search | appendFails | flushFails
  | truncateFails =>
    exact h.of_same (hpublications (by simp)) (hswaps (by simp)) (out_goto (by simp))
  | create hpc | write hpc | finish hpc | rename hpc | truncate hpc =>
    exact h.of_same (hpublications (by simp)) (hswaps (by simp)) (out_goto (by simp [hpc]))
  | compact => exact h.of_same (hpublications (by simp)) (hswaps (by simp)) fun _ _ => id
  | restart => exact h.of_same (hpublications (by simp)) (hswaps (by simp)) (by simp [Sys.restart])
  | swap => exact h.swap
  | @publish t e w hpc => exact h.publish hpc (hturn t rfl)

end Ages

/-! ### Files -/

section Files

variable {s s' : Sys T}

/-- **L0 has the files that were added and not taken out**, as they were written; L1 has
outputs of compactions. -/
structure Placed (cfg : Config) (s : Sys T) : Prop where
  l0 : s.levels.l0 = (files s.hist).listed.map Swapped.path
  l1 : ∀ p ∈ s.levels.l1, ∃ now, p = ⟨cfg.dir, FileName.l1Name now⟩
  holds : ∀ w ∈ (files s.hist).listed, cfg.Holds s.fs w.path w.old

theorem Placed.init : Placed cfg (Sys.init : Sys T) :=
  ⟨rfl, by simp [Sys.init, LevelManager.l1], by simp [Sys.init, files]⟩

/-- Every file of L0 is that of a flush. -/
theorem Placed.exists_path (h : Placed cfg s) (hnamed : Named cfg s) {p : Path}
    (hp : p ∈ s.levels.l0) : ∃ w ∈ publications s.hist, p = w.path ∧
      ∃ now, p = cfg.nextSstablePath now := by
  rw [h.l0] at hp
  obtain ⟨w, hw, rfl⟩ := List.mem_map.mp hp
  have hpub := mem_publications_of_listed hw
  obtain ⟨-, now, -, hpath⟩ := hnamed.published w hpub
  exact ⟨w, hpub, rfl, now, hpath⟩

/-- So its name is that of a flush. -/
theorem Placed.exists_l0 (h : Placed cfg s) (hnamed : Named cfg s) :
    ∀ p ∈ s.levels.l0, ∃ now, p = cfg.nextSstablePath now := by
  intro p hp
  obtain ⟨-, -, -, hpath⟩ := h.exists_path hnamed hp
  exact hpath

/-- The lists are as they were, and so are the files that were added. -/
theorem Placed.of_same (h : Placed cfg s) (hfiles : files s'.hist = files s.hist)
    (hlevels : s'.levels = s.levels)
    (hfs : ∀ w ∈ (files s.hist).listed, s'.fs w.path = s.fs w.path) : Placed cfg s' := by
  refine ⟨by rw [hlevels, hfiles]; exact h.l0, by rw [hlevels]; exact h.l1, fun w hw => ?_⟩
  rw [hfiles] at hw
  exact (h.holds w hw).congr (hfs w hw)

/-- **A compaction leaves the files of the flushes on their way alone**, the temporary
ones as well. -/
theorem Placed.compact_frame (h : Placed cfg s) (hnamed : Named cfg s) (io : CompactIo)
    (now now' : ℕ) (hfree : ∀ w ∈ publications s.hist, w.path ≠ cfg.nextSstablePath now') :
    (s.compact cfg io now).fs (cfg.nextSstablePath now') = s.fs (cfg.nextSstablePath now') ∧
      (s.compact cfg io now).fs (cfg.nextSstablePath now').tmp =
        s.fs (cfg.nextSstablePath now').tmp := by
  refine Config.compact_frame (h.exists_l0 hnamed) _ _ _ _ _ h.l1 fun hm => ?_
  obtain ⟨w, hw, hp, -⟩ := h.exists_path hnamed hm
  exact hfree w hw hp.symm

variable [DecidableEq T] {a : Act T}

theorem Placed.step (h : Placed cfg s) (hnamed : Named cfg s) (hs : Step cfg s a s')
    (ha : ∀ listing, a ≠ .restart listing) : Placed cfg s' := by
  have hfiles := files_step hs
  have hfs : (∀ io now, a ≠ .compact io now) → ∀ w ∈ (files s.hist).listed,
      s'.fs w.path = s.fs w.path := by
    intro hcompact w hw
    obtain ⟨-, now, -, hpath⟩ := hnamed.published w (mem_publications_of_listed hw)
    have hne := (h.holds w hw).ne_none
    rw [hpath] at hne ⊢
    exact hnamed.fs_step hs hcompact hne
  cases hs with
  | call | append | insert | fill | name | swap | create | write | finish | rename | truncate | hit
  | miss | search | appendFails | flushFails | truncateFails =>
    exact h.of_same (hfiles (by simp) (by simp)) rfl (hfs (by simp))
  | @publish t e w hpc =>
    have hlisted : (files (s.publish t e w).hist).listed = (files s.hist).listed ++ [w] := by
      simp [publish, Event.files]
    have hw := hnamed.pc t
    rw [hpc] at hw
    obtain ⟨-, -, -, hholds⟩ := hw
    refine ⟨?_, fun p hp => h.l1 p ?_, fun w' hw' => ?_⟩
    · rw [hlisted, List.map_append, ← h.l0]
      exact LevelManager.l0_addL0File _ _
    · rwa [publish, LevelManager.l1_addL0File] at hp
    · rw [hlisted, List.mem_append, List.mem_singleton] at hw'
      rcases hw' with hw' | rfl
      · exact h.holds w' hw'
      · exact hholds
  | @compact io now =>
    have hlisted : (files (s.compact cfg io now).hist).listed = [] := by
      simp [compact, Event.files]
    refine ⟨?_, fun p hp => ?_, by simp [hlisted]⟩
    · rw [hlisted]
      exact LevelManager.l0_compact _ _ _ _ _ _
    · rcases LevelManager.mem_l1_compact hp with hp | ⟨oldest, ho, rfl⟩
      · exact h.l1 p hp
      · exact ⟨now, Config.outputPath_eq (h.exists_l0 hnamed) ho now⟩
  | restart => exact absurd rfl (ha _)

end Files

/-! ### The condition -/

/-- **Flushes add their files in the order of their swaps**, and no two of them read the
same time. -/
def KeepsOrder (s : Sys T) : Act T → Prop
  | .name _ now => now ∉ (clocks s.hist).map Prod.snd
  | .publish t => s.InTurn t
  | _ => True

instance [DecidableEq T] [Fintype T] (s : Sys T) : (a : Act T) → Decidable (s.KeepsOrder a)
  | .name _ now => inferInstanceAs (Decidable (now ∉ (clocks s.hist).map Prod.snd))
  | .publish t => inferInstanceAs (Decidable (∀ w ∈ (s.pc t).out, ∀ t', t' ≠ t →
      ∀ w' ∈ (s.pc t').out, w.age < w'.age))
  | .call _ _ | .append _ | .insert _ | .swap _ | .create _ | .write _ _ | .finish _ | .rename _
  | .truncate _ | .look _ | .search _ | .compact _ _ | .restart _ | .appendFails _ _
  | .flushFails _ | .truncateFails _ => .isTrue trivial

/-- What holds in every such run. -/
structure Ordered (cfg : Config) (s : Sys T) : Prop where
  locked : s.Locked
  staged : s.Staged cfg fun _ => True
  named : Named cfg s
  aged : s.Aged
  placed : Placed cfg s

theorem Ordered.step [DecidableEq T] {s s' : Sys T} {a : Act T} (h : Ordered cfg s)
    (hs : Step cfg s a s') (ha : ∀ listing, a ≠ .restart listing) (horder : s.KeepsOrder a) :
    Ordered cfg s' where
  locked := h.locked.step hs
  staged := h.staged.step h.locked hs (fun _ _ => trivial) (by
    rintro io now rfl t w hw
    obtain ⟨now', hown, hpath⟩ := (h.named.pc t).exists_own hw
    cases hs with
    | compact =>
      rw [hpath]
      exact h.placed.compact_frame h.named io now now' hown.2)
  named := h.named.step h.staged hs (by
    rintro t now rfl t' hm
    exact horder (List.mem_map_of_mem hm)) (by
    rintro io now rfl now'
    cases hs with
    | compact =>
      refine ⟨Config.of_compact (h.placed.exists_l0 h.named) _ _ _ _ _, fun t hpath => ?_⟩
      obtain ⟨n, hown, hn⟩ := (h.named.pc t).exists_path hpath
      obtain rfl := cfg.nextSstablePath_inj hn
      exact (h.placed.compact_frame h.named io now _ hown.2).1)
  aged := h.aged.step hs (by
    rintro t rfl
    exact horder)
  placed := h.placed.step h.named hs ha

/-- **L0 is in the order of its data** in every run whose steps meet the condition,
whatever fails in it and whatever its compactions do. -/
theorem inOrder_of_run [DecidableEq T] {s : Sys T} {as : List (Act T)}
    (hrun : Runs.Run (Runs.Guarded (Step cfg) fun s a =>
      (∀ listing, a ≠ .restart listing) ∧ s.KeepsOrder a) Sys.init as s) : s.InOrder cfg := by
  have h : Ordered cfg s := hrun.invariant
    ⟨by simp [Locked, Sys.init], fun _ => trivial, .init, .init, .init⟩
    fun _ _ _ h hs => h.step hs.1 hs.2.1 hs.2.2
  have hages := h.aged.pairwise
  rw [← merged_append_listed, List.pairwise_append] at hages
  exact ⟨h.placed.l0, h.placed.holds, hages.2.1, hages.2.2⟩

/-- Two threads whose flushes overlap, and end in the order in which they began. -/
theorem inOrder_of_run_inTurn :
    ∃ s : Sys Bool, s.levels.l0.length = 2 ∧ s.InOrder (.ofThreshold 1) := by
  obtain ⟨s, hrun, hl0⟩ := exists_of_nexts (.ofThreshold 1) KeepsOrder Sys.init
    [.call false (.write (.put [0] [1])), .append false, .insert false,
      .call true (.write (.put [0] [2])), .append true, .name false 1, .swap false,
      .create false, .finish false, .rename false, .truncate false, .insert true, .name true 2,
      .swap true, .create true, .finish true, .publish false, .rename true, .truncate true,
      .publish true]
    (fun s => s.levels.l0.length = 2) (by decide +kernel)
  refine ⟨s, hl0, inOrder_of_run (hrun.mono fun s a s' h => ⟨h.1, ?_, h.2.2⟩)⟩
  rintro listing rfl
  exact h.2.1

/-- **A flush can overtake another one** between its truncate and `add_l0_file`: then the
older file is the last of L0. -/
theorem not_inOrder_of_run :
    ¬∀ (cfg : Config) (as : List (Act Bool)) (s : Sys Bool),
      Runs.Run (Runs.Guarded (Step cfg) fun _ a => a.Serves) Sys.init as s → s.InOrder cfg := by
  intro h
  obtain ⟨s, hrun, hages⟩ := exists_of_nexts (.ofThreshold 1) (fun _ _ => True) Sys.init
    [.call false (.write (.put [0] [1])), .append false, .insert false, .name false 1,
      .swap false, .create false, .finish false, .rename false, .truncate false,
      .call true (.write (.put [0] [2])), .append true, .insert true, .name true 2, .swap true,
      .create true, .finish true, .rename true, .truncate true, .publish true, .publish false]
    (fun s => ¬(files s.hist).listed.Pairwise fun w w' : Swapped => w.age < w'.age)
    (by decide +kernel)
  exact hages (h (.ofThreshold 1) _ s (hrun.mono fun _ _ _ h => ⟨h.1, h.2.1⟩)).ages

end Sys

end Tabula
