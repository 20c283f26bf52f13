import Mathlib.Data.List.Find
import Tabula.Lsm.FailedFlush

/-!
# Where a search ends

A search takes the files in order and ends in the first one that has a record of the key,
be it a tombstone (`Tabula.LevelManager.finder`). What it says is what that file says.

When a file comes to the directory or goes, only the searches that end in it change: those
that ended before it still do, and those that ended behind it do so when it has nothing to
say (`Tabula.Config.Shelves.finder_without`). The order is that of the names, so a
search that ends before a file of L0 has ended in one with a later name.
-/

namespace Tabula

open SortedTable

variable {cfg : Config} {fs fs' : Fs} {lm : LevelManager} {k : Key} {p q : Path}

namespace LevelManager

/-- The file in which a search for a key ends. -/
def finder (fs : Fs) (lm : LevelManager) (k : Key) : Option Path :=
  lm.readOrder.find? fun p => (lookup k (fs.records p)).isSome

theorem find_eq_finder (fs : Fs) (lm : LevelManager) (k : Key) :
    lm.find fs k = (lm.finder fs k).bind fun p => lookup k (fs.records p) := by
  rw [find, finder]
  induction lm.readOrder with
  | nil => rfl
  | cons p ps ih =>
    rw [List.map_cons, firstHit_cons, List.find?_cons]
    cases hp : lookup k (fs.records p) with
    | none => simpa using ih
    | some v => simp [hp]

theorem of_finder (h : lm.finder fs k = some p) :
    p ∈ lm.readOrder ∧ lookup k (fs.records p) ≠ none := by
  have hsome := List.find?_some h
  exact ⟨List.mem_of_find?_eq_some h, Option.isSome_iff_ne_none.mp hsome⟩

theorem finder_eq_none_iff :
    lm.finder fs k = none ↔ ∀ p ∈ lm.readOrder, lookup k (fs.records p) = none := by
  rw [finder, List.find?_eq_none]
  simp

theorem finder_congr (h : ∀ p ∈ lm.readOrder, fs' p = fs p) (k : Key) :
    lm.finder fs' k = lm.finder fs k := by
  refine List.find?_congr fun p hp => ?_
  rw [Fs.records_congr (h p hp)]

end LevelManager

/-! ### Files that come and go -/

/-- What is not found is not missed. -/
theorem find?_filter_ne {α : Type} [DecidableEq α] {l : List α} {f g : α → Bool} {a : α}
    (hfg : ∀ b ∈ l, b ≠ a → g b = f b) (ha : l.find? f ≠ some a) :
    (l.filter fun b => decide (b ≠ a)).find? g = l.find? f := by
  induction l with
  | nil => rfl
  | cons b l ih =>
    have hrest : ∀ b ∈ l, b ≠ a → g b = f b := fun b hb => hfg b (List.mem_cons_of_mem _ hb)
    rw [List.find?_cons] at ha ⊢
    by_cases hb : b = a
    · subst hb
      have hf : f b = false := by
        by_contra htrue
        rw [Bool.not_eq_false] at htrue
        simp [htrue] at ha
      rw [hf] at ha ⊢
      rw [List.filter_cons_of_neg (by simp)]
      exact ih hrest ha
    · rw [List.filter_cons_of_pos (by simpa using hb), List.find?_cons,
        hfg b List.mem_cons_self hb]
      cases hf : f b with
      | true => rfl
      | false =>
        rw [hf] at ha
        exact ih hrest ha

theorem NameSorted.eq_of_mem_iff {files files' : List Path} (h : NameSorted files)
    (h' : NameSorted files') (hmem : ∀ p, p ∈ files ↔ p ∈ files') : files = files' := by
  have hperm : files.Perm files' := (List.perm_ext_iff_of_nodup h.nodup h'.nodup).mpr hmem
  rw [← sortFiles_eq h' hperm, sortFiles_eq h (.refl _)]

namespace Config.Shelves

variable {files0 files1 files0' files1' : List Path}

theorem mem_readOrder_iff (h : cfg.Shelves fs files0 files1) :
    p ∈ (⟨[files0, files1]⟩ : LevelManager).readOrder ↔ cfg.InPlace p ∧ fs p ≠ none := by
  rw [LevelManager.readOrder_eq rfl, List.mem_append, List.mem_reverse, InPlace, or_and_right]
  refine or_congr ((h.mem0 p).trans and_comm) ((h.mem1 p).trans and_comm)

/-- There is one way to shelve the files. -/
theorem eq (h : cfg.Shelves fs files0 files1) (h' : cfg.Shelves fs files0' files1') :
    files0 = files0' ∧ files1 = files1' :=
  ⟨h.sorted0.eq_of_mem_iff h'.sorted0 fun p => (h.mem0 p).trans (h'.mem0 p).symm,
    h.sorted1.eq_of_mem_iff h'.sorted1 fun p => (h.mem1 p).trans (h'.mem1 p).symm⟩

/-- Whatever is read before a file of L0 is a file of L0 with a later name. -/
theorem pairwise_readOrder (h : cfg.Shelves fs files0 files1) :
    (⟨[files0, files1]⟩ : LevelManager).readOrder.Pairwise fun q p =>
      p ∈ files0 → q ∈ files0 ∧ p.name < q.name := by
  have hapart : ∀ p ∈ files1, p ∉ files0 := by
    intro p hp hm
    obtain ⟨-, now, rfl⟩ := (h.mem0 p).mp hm
    obtain ⟨-, n, hn⟩ := (h.mem1 _).mp hp
    exact cfg.nextSstablePath_ne_l1 now n _ hn
  rw [LevelManager.readOrder_eq rfl, List.pairwise_append]
  refine ⟨?_, ?_, fun q hq p hp hm => absurd hm (hapart p hp)⟩
  · refine List.pairwise_reverse.mpr (h.sorted0.imp_of_mem fun {p q} hp hq hlt hm => ?_)
    exact ⟨hq, hlt⟩
  · exact h.sorted1.imp_of_mem fun {q p} _ hp _ hm => absurd hm (hapart p hp)

/-- **A search ends in a file that has the key, or before it.** -/
theorem finder_rel (h : cfg.Shelves fs files0 files1)
    (hq : (⟨[files0, files1]⟩ : LevelManager).finder fs k = some q)
    (hp : p ∈ (⟨[files0, files1]⟩ : LevelManager).readOrder) (hk : lookup k (fs.records p) ≠ none) :
    p = q ∨ (p ∈ files0 → q ∈ files0 ∧ p.name < q.name) := by
  obtain ⟨-, newer, older, hsplit, hnewer⟩ := List.find?_eq_some_iff_append.mp hq
  have hpairs := h.pairwise_readOrder
  rw [hsplit] at hp hpairs
  rcases List.mem_append.mp hp with hp | hp
  · have hnot := hnewer p hp
    rw [Option.isSome_iff_ne_none.mpr hk] at hnot
    simp at hnot
  · rcases List.mem_cons.mp hp with hp | hp
    · exact Or.inl hp
    · exact Or.inr (List.rel_of_pairwise_cons (List.pairwise_append.mp hpairs).2.1 hp)

/-- A key that is in a file of L0 is found there, or in one with a later name. -/
theorem exists_finder (h : cfg.Shelves fs files0 files1) {now : ℕ}
    (hk : lookup k (fs.records (cfg.nextSstablePath now)) ≠ none) :
    ∃ now', (⟨[files0, files1]⟩ : LevelManager).finder fs k = some (cfg.nextSstablePath now') ∧
      (cfg.nextSstablePath now).name ≤ (cfg.nextSstablePath now').name := by
  have hne : fs (cfg.nextSstablePath now) ≠ none := fun hnone => hk (by
    rw [Fs.records_of_missing hnone]
    rfl)
  have hread : cfg.nextSstablePath now ∈ (⟨[files0, files1]⟩ : LevelManager).readOrder :=
    h.mem_readOrder_iff.mpr ⟨Or.inl ⟨now, rfl⟩, hne⟩
  cases hfinder : (⟨[files0, files1]⟩ : LevelManager).finder fs k with
  | none => exact absurd (LevelManager.finder_eq_none_iff.mp hfinder _ hread) hk
  | some q =>
    rcases h.finder_rel hfinder hread hk with rfl | hlater
    · exact ⟨now, rfl, le_rfl⟩
    · obtain ⟨hq, hlt⟩ := hlater ((h.mem0 _).mpr ⟨hne, now, rfl⟩)
      obtain ⟨-, now', rfl⟩ := (h.mem0 q).mp hq
      exact ⟨now', rfl, le_of_lt hlt⟩

/-- The shelves without a file. -/
theorem without (h : cfg.Shelves fs files0 files1) (hp : fs' p = none)
    (hfs : ∀ q : Path, q.NamedSst → q ≠ p → fs' q = fs q) :
    cfg.Shelves fs' (files0.filter fun q => decide (q ≠ p))
      (files1.filter fun q => decide (q ≠ p)) := by
  have hmem : ∀ {files : List Path} {P : Path → Prop}, (∀ q, P q → q.NamedSst) →
      (∀ q, q ∈ files ↔ fs q ≠ none ∧ P q) → ∀ q, q ∈ files.filter (fun q => decide (q ≠ p)) ↔
        fs' q ≠ none ∧ P q := by
    intro files P hP hfiles q
    rw [List.mem_filter, hfiles, decide_eq_true_iff]
    by_cases hq : q = p
    · subst hq
      simp [hp]
    · exact ⟨fun hm => ⟨by rw [hfs q (hP q hm.1.2) hq]; exact hm.1.1, hm.1.2⟩,
        fun hm => ⟨⟨by rw [← hfs q (hP q hm.2) hq]; exact hm.1, hm.2⟩, hq⟩⟩
  refine ⟨h.sorted0.sublist List.filter_sublist, h.sorted1.sublist List.filter_sublist,
    hmem ?_ h.mem0, hmem ?_ h.mem1⟩
  · rintro q ⟨now, rfl⟩
    exact cfg.named_nextSstablePath now
  · rintro q ⟨now, rfl⟩
    exact cfg.named_l1 now

/-- **Only the searches that end in a file miss it.** -/
theorem finder_without (h : cfg.Shelves fs files0 files1)
    (hfs : ∀ q : Path, q.NamedSst → q ≠ p → fs' q = fs q)
    (hk : (⟨[files0, files1]⟩ : LevelManager).finder fs k ≠ some p) :
    (⟨[files0.filter fun q => decide (q ≠ p), files1.filter fun q => decide (q ≠ p)]⟩ :
      LevelManager).finder fs' k = (⟨[files0, files1]⟩ : LevelManager).finder fs k := by
  have horder : (⟨[files0.filter fun q => decide (q ≠ p), files1.filter fun q =>
      decide (q ≠ p)]⟩ : LevelManager).readOrder =
        (⟨[files0, files1]⟩ : LevelManager).readOrder.filter fun q => decide (q ≠ p) := by
    rw [LevelManager.readOrder_eq rfl, LevelManager.readOrder_eq rfl, List.filter_append,
      List.filter_reverse]
    rfl
  rw [LevelManager.finder, LevelManager.finder, horder]
  exact find?_filter_ne (fun q hq hne => by
    rw [Fs.records_congr (hfs q (h.mem_readOrder hq).1 hne)]) hk

end Config.Shelves

end Tabula
