import Tabula.Levels.Outcome
import Tabula.Lsm.Flushes

/-!
# Flushes of nothing

`set` and `delete` decide to flush under the MemTable lock; the MemTable is swapped
out later, under the WAL lock, and the decision is not looked at again. So two threads
can act on one MemTable that is full, and the second of them swaps out the empty one
the first has left. Its SSTable has no records, and `key_range` of the next compaction
fails on it.

What decides is whether anything was inserted since the last swap
(`Tabula.Sys.fed`). If so at every swap of a run, every file in L0 has a record.
-/

namespace Tabula

variable {T : Type} {cfg : Config}

/-- Whether the MemTable holds anything after an event, from what was so before it. -/
def Event.feeds (fed : Bool) : Event T → Bool
  | inserted _ _ => true
  | swapped _ => false
  | _ => fed

namespace Sys

/-- Something was inserted into the MemTable since the last swap. -/
def fed (hist : List (Event T)) : Bool := hist.foldl Event.feeds false

@[simp] theorem fed_append (hist evs : List (Event T)) :
    fed (hist ++ evs) = evs.foldl Event.feeds (fed hist) := List.foldl_append

/-- The file of the path has at least one record: it is the flush of a MemTable that is
not empty, and `key_range` does not find it empty. -/
def HasRecords (cfg : Config) (s : Sys T) (p : Path) : Prop :=
  (∃ mem : MemTable, mem.data ≠ [] ∧ cfg.Holds s.fs p mem) ∧
    ∀ reader, s.fs.openSst p = .ok reader → keyRange .whole reader ≠ .error (.err .emptySsTable)

theorem hasRecords_of_holds {s : Sys T} {p : Path} {mem : MemTable} (hne : mem.data ≠ [])
    (h : cfg.Holds s.fs p mem) : s.HasRecords cfg p := by
  refine ⟨⟨mem, hne, h⟩, fun reader hopen => ?_⟩
  obtain ⟨bytes, hb, hlen, hp⟩ := h
  simp only [Fs.openSst, hp] at hopen
  obtain ⟨range, hrange⟩ :=
    LevelManager.exists_keyBounds (iter_ne_nil_of_written hb mem.sorted hne hlen hopen)
  rw [LevelManager.keyRange_whole hrange]
  simp

variable [DecidableEq T] {s s' : Sys T} {a : Act T}

/-- **The MemTable holds something exactly when it was fed.** -/
def Fresh (s : Sys T) : Prop := s.mem.data ≠ [] ↔ fed s.hist = true

theorem Fresh.step (h : s.Fresh) (hs : Step cfg s a s') (ha : a.Serves) : s'.Fresh := by
  cases hs with
  | @insert t e | @fill t e => exact iff_of_true (s.mem.apply_data_ne_nil e) (fed_append _ _)
  | swap => exact iff_of_false (not_not.mpr rfl) (by simp [Sys.swap, Event.feeds])
  | create | write | finish | rename | miss => exact h
  | call | append | name | truncate | publish | hit | search =>
    exact h.trans (by simp [Sys.call, Sys.append, Sys.name, Sys.truncate, Sys.publish, Sys.answer,
      Event.feeds])
  | compact | restart | appendFails | flushFails | truncateFails => exact ha.elim

/-- Every swap comes after an insert that no other swap has taken along. -/
def Feeds (s : Sys T) : Act T → Prop
  | .swap _ => fed s.hist = true
  | _ => True

instance (s : Sys T) : (a : Act T) → Decidable (s.Feeds a)
  | .swap _ => inferInstanceAs (Decidable (_ = _))
  | .call _ _ | .append _ | .insert _ | .name _ _ | .create _ | .write _ _ | .finish _ | .rename _
  | .truncate _ | .publish _ | .look _ | .search _ | .compact _ _ | .restart _ | .appendFails _ _
  | .flushFails _ | .truncateFails _ => .isTrue trivial

/-- **Every file in L0 has a record**, in every run whose swaps meet the condition. -/
theorem hasRecords_of_run {as : List (Act T)}
    (hrun : Runs.Run (Runs.Guarded (Step cfg) fun s a => a.Serves ∧ s.Feeds a) Sys.init as s) :
    ∀ p ∈ s.levels.l0, s.HasRecords cfg p := by
  obtain ⟨-, -, hflushed⟩ := hrun.invariant
    (I := fun s => s.Locked ∧ s.Fresh ∧ Flushed cfg (fun mem => mem.data ≠ []) s)
    ⟨by simp [Locked, Sys.init], by simp [Fresh, Sys.init, fed, MemTable.new], Flushed.init⟩ (by
      rintro s a s' ⟨hlock, hfresh, hflushed⟩ ⟨hs, hserves, hfeeds⟩
      refine ⟨hlock.step hs, hfresh.step hs hserves, hflushed.step hlock hs hserves.succeeds ?_⟩
      rintro t rfl
      exact hfresh.mpr hfeeds)
  intro p hp
  obtain ⟨hnamed, hne⟩ := hflushed.l0 p hp
  obtain ⟨-, mem, hmem, hholds⟩ := hflushed.stocked p hnamed hne
  exact hasRecords_of_holds hmem hholds

/-- One thread that writes and flushes. -/
theorem hasRecords_of_run_flush :
    ∃ s : Sys Unit, s.levels.l0 ≠ [] ∧ ∀ p ∈ s.levels.l0, s.HasRecords (.ofThreshold 1) p := by
  obtain ⟨s, hrun, hl0⟩ := exists_of_nexts (.ofThreshold 1) Feeds Sys.init
    [.call () (.write (.put [0] [1])), .append (), .insert (), .name () 1, .swap (), .create (),
      .finish (), .rename (), .truncate (), .publish ()]
    (fun s => s.levels.l0 ≠ []) (by decide +kernel)
  exact ⟨s, hl0, hasRecords_of_run hrun⟩

/-- **Two threads can flush one MemTable**: both have inserted before the first of
them swaps, and the second swaps out nothing. -/
theorem not_hasRecords_of_run :
    ¬∀ (cfg : Config) (as : List (Act Bool)) (s : Sys Bool), 0 < cfg.threshold →
      Runs.Run (Runs.Guarded (Step cfg) fun _ a => a.Serves) Sys.init as s →
      ∀ p ∈ s.levels.l0, s.HasRecords cfg p := by
  intro h
  obtain ⟨s, hrun, p, hp, hempty⟩ := exists_of_nexts (.ofThreshold 1) (fun _ _ => True) Sys.init
    [.call false (.write (.put [0] [1])), .append false, .insert false,
      .call true (.write (.put [2] [3])), .append true, .insert true,
      .name false 1, .swap false, .create false, .finish false, .rename false, .truncate false,
      .publish false, .name true 2, .swap true, .create true, .finish true, .rename true,
      .truncate true, .publish true]
    (fun s : Sys Bool => ∃ p ∈ s.levels.l0,
      (mapErr .ofSsTableError (s.fs.openSst p) >>= keyRange .whole) = .error (.err .emptySsTable))
    (by decide +kernel)
  have hrecords := h (.ofThreshold 1) _ s Nat.one_pos
    (hrun.mono fun _ _ _ hstep => ⟨hstep.1, hstep.2.1⟩) p hp
  cases hopen : s.fs.openSst p with
  | error e =>
    rw [hopen] at hempty
    cases e <;> simp [mapErr, CompactionError.ofSsTableError] at hempty
  | ok reader =>
    rw [hopen] at hempty
    exact hrecords.2 reader hopen hempty

end Sys

end Tabula
