import Tabula.Lsm.Directory

/-!
# Every tracked file is there

What a `get` finds in the lists it opens, and an error of any one file is an error of the
`get`. So every path in the lists has to name a file, and a complete one, whenever a
reader can look: not between the steps of a compaction, which holds the levels lock, but
after it, whatever it has returned.

A file gets into the lists after the rename that has made it complete, and it leaves them
before it is deleted. A compaction that fails forgets files, and so can only leave fewer
paths to be read; a restart finds every file there is. The one thing that could go wrong
is a path that is used twice.
-/

namespace Tabula

variable {T : Type} {cfg : Config}

namespace Sys

/-- **All paths are different**: a flush reads a new time, and so does a compaction. -/
def Distinct (cfg : Config) (s : Sys T) : Act T → Prop
  | .name _ now => now ∉ (clocks s.hist).map Prod.snd
  | .compact _ now => ⟨cfg.dir, FileName.l1Name now⟩ ∉ s.levels.l1
  | _ => True

instance (cfg : Config) (s : Sys T) : (a : Act T) → Decidable (s.Distinct cfg a)
  | .name _ now => inferInstanceAs (Decidable (now ∉ (clocks s.hist).map Prod.snd))
  | .compact _ now => inferInstanceAs (Decidable (⟨cfg.dir, FileName.l1Name now⟩ ∉ s.levels.l1))
  | .call _ _ | .append _ | .insert _ | .swap _ | .create _ | .write _ _ | .finish _ | .rename _
  | .truncate _ | .publish _ | .look _ | .search _ | .restart _ | .appendFails _ _
  | .flushFails _ | .truncateFails _ => .isTrue trivial

/-- **Every tracked file is there**: whatever path a reader finds in the lists, it has a
complete file behind it, and it is in the lists once. -/
structure Tracked (cfg : Config) (s : Sys T) : Prop where
  written : ∀ files ∈ s.levels.levels, ∀ p ∈ files, s.fs.Written cfg.sizing p
  nodup : s.levels.levels.flatten.Nodup

/-- **Every tracked file is there to be read**, whatever has failed, whatever compactions
have returned and whenever the process has died, in every run in which no path is used
twice. -/
theorem tracked_of_run [DecidableEq T] {as : List (Act T)} {s : Sys T}
    (hrun : Runs.Run (Runs.Guarded (Step cfg) fun s a => s.Distinct cfg a) Sys.init as s) :
    s.Tracked cfg := by
  have h : Housed cfg s := hrun.invariant .init fun s a s' h hs => by
    obtain ⟨hs, hdistinct⟩ := hs
    refine h.step hs ?_ ?_
    · rintro t now rfl
      exact hdistinct
    · rintro io now rfl
      exact hdistinct
  have hwritten : ∀ p ∈ s.levels.l0 ++ s.levels.l1, s.fs.Written cfg.sizing p := fun p hp => by
    obtain ⟨hnamed, hne⟩ := h.tracked hp
    exact (h.files p hnamed hne).1
  refine ⟨fun files hfiles p hp => ?_, ?_⟩
  · rw [h.levels] at hfiles
    rcases List.mem_pair.mp hfiles with rfl | rfl
    · exact hwritten p (LevelManager.mem_of_l0 hp)
    · exact hwritten p (LevelManager.mem_of_l1 hp)
  · rw [h.levels]
    change (s.levels.l0 ++ (s.levels.l1 ++ [])).Nodup
    rw [List.append_nil]
    refine List.nodup_append.mpr ⟨h.nodup0, h.nodup1, ?_⟩
    rintro p hp _ hq rfl
    exact h.notMem_l1 hp hq

/-- Flushes of two threads with two compactions between them, of which the second fails. -/
theorem tracked_of_run_failed : ∃ s : Sys Bool, s.levels.l0.length = 1 ∧
    s.levels.l1.length = 1 ∧ s.Tracked (.ofThreshold 1) := by
  let cfg : Config := .ofThreshold 1
  let fails : CompactIo := { CompactIo.whole with openL0 := fun _ => false }
  let flush (t : Bool) (k now : ℕ) : List (Act Bool) :=
    [.call t (.write (.put [UInt8.ofNat k] [1])), .append t, .insert t, .name t now, .swap t,
      .create t, .finish t, .rename t, .truncate t, .publish t]
  obtain ⟨s₁, hrun₁, hdistinct₁, h₁⟩ := exists_of_nexts cfg (fun s a => s.Distinct cfg a) Sys.init
    (flush false 7 1) (fun s => s.Distinct cfg (.compact .whole 2) ∧
      ((s.compact cfg .whole 2).nexts cfg (fun s a => s.Distinct cfg a) (flush true 8 3)).any
        (fun s => decide (s.Distinct cfg (.compact fails 4) ∧
          ((s.compact cfg fails 4).nexts cfg (fun s a => s.Distinct cfg a) (flush false 9 5)).any
            (fun s => decide (s.levels.l0.length = 1 ∧ s.levels.l1.length = 1)) = true)) = true)
    (by decide +kernel)
  obtain ⟨s₂, hrun₂, hdistinct₂, h₂⟩ := exists_of_nexts cfg _ _ _ (fun s : Sys Bool =>
    s.Distinct cfg (.compact fails 4) ∧
      ((s.compact cfg fails 4).nexts cfg (fun s a => s.Distinct cfg a) (flush false 9 5)).any
        (fun s => decide (s.levels.l0.length = 1 ∧ s.levels.l1.length = 1)) = true) h₁
  obtain ⟨s₃, hrun₃, hlen⟩ := exists_of_nexts cfg _ _ _
    (fun s : Sys Bool => s.levels.l0.length = 1 ∧ s.levels.l1.length = 1) h₂
  have hserves : ∀ (s : Sys Bool) a s',
      Runs.Guarded (Step cfg) (fun s a => a.Serves ∧ s.Distinct cfg a) s a s' →
      Runs.Guarded (Step cfg) (fun s a => s.Distinct cfg a) s a s' :=
    fun _ _ _ hs => ⟨hs.1, hs.2.2⟩
  have hcompact : ∀ (s : Sys Bool) io now, s.Distinct cfg (.compact io now) →
      Runs.Guarded (Step cfg) (fun s a => s.Distinct cfg a) s (.compact io now)
        (s.compact cfg io now) := fun _ _ _ h => ⟨.compact, h⟩
  exact ⟨s₃, hlen.1, hlen.2, tracked_of_run (((((hrun₁.mono hserves).snoc
    (hcompact s₁ .whole 2 hdistinct₁)).trans (hrun₂.mono hserves)).snoc
    (hcompact s₂ fails 4 hdistinct₂)).trans (hrun₃.mono hserves))⟩

end Sys

end Tabula
