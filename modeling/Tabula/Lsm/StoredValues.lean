import Tabula.Lsm.FailedFlush
import Tabula.Lsm.TrackedFiles

/-!
# Values that look like deletions

A deletion is stored as a value, the bytes of `__TOMBSTONE__`, and nothing keeps a client
from writing these bytes. The log tells a `Put` from a `Delete` by their tags; the MemTable,
the files, the readers and the merge do not, and a value that is the sentinel has been
deleted as soon as it is written.

This is all there is to it. The record of the last write to a key is kept, raw, by every
flush and every restart until the key is written again (`Tabula.Sys.Retained`), so `get` answers
with the value when it is not the sentinel, and with nothing when it is. What has gone on
before the write makes no difference: compactions, flushes that have failed, crashes. The
write is in the log and in the MemTable, hence above all files there are, and the file it
gets into is the last of its level.
-/

namespace Tabula

open SortedTable

variable {cfg : Config}

namespace Sys

/-- **The raw value of a key is kept**: readers find it, and so would a restart. The log says
nothing else about the key than the MemTable that goes with it, and the client is not about
to log another write to the key. -/
structure Retained (cfg : Config) (s : Sys Unit) (k : Key) (raw : Value)
    (files0 files1 : List Path) : Prop where
  shelves : cfg.Shelves s.fs files0 files1
  clean : ∀ w, (s.pc ()).out = some w → s.mem = .new
  spared : ∀ e, s.pc () = .logging e → e.key ≠ k
  emptied : ∀ e w, s.pc () = .flushing e (.truncated w) → log s.hist = []
  served : (((s.pc ()).view s.mem).get k).or (s.levels.find s.fs k) = some raw
  agrees : ∀ v, (MemTable.new.applyAll (log s.hist)).get k = some v →
    ((s.pc ()).view s.mem).get k = some v
  landed : (s.pc ()).landed ≠ [] →
    (⟨[files0, files1]⟩ : LevelManager).find s.fs k = some raw
  recovered : ((MemTable.new.applyAll (log s.hist)).get k).or
    ((⟨[files0, files1]⟩ : LevelManager).find s.fs k) = some raw

variable {s s' : Sys Unit} {a : Act Unit} {k : Key} {raw : Value} {files0 files1 : List Path}

namespace Retained

/-- A step that changes neither the SSTables nor the lists nor the log. -/
theorem of_quiet (h : Retained cfg s k raw files0 files1) (hhoused : Housed cfg s)
    (hquiet : s.Quiet a s') (hcall : ∀ t e, a = .call t (.write e) → e.key ≠ k) :
    Retained cfg s' k raw files0 files1 := by
  have htracked : s'.levels.find s'.fs k = s.levels.find s.fs k := by
    rw [hquiet.levels]
    exact LevelManager.find_congr
      (fun p hp => hquiet.fs p (hhoused.tracked (hhoused.mem_readOrder hp)).1) k
  have hthere : (⟨[files0, files1]⟩ : LevelManager).find s'.fs k =
      (⟨[files0, files1]⟩ : LevelManager).find s.fs k :=
    LevelManager.find_congr (fun p hp => hquiet.fs p (h.shelves.mem_readOrder hp).1) k
  have hafter := hquiet.after
  refine ⟨h.shelves.congr hquiet.fs, hquiet.clean h.clean,
    fun e hpc => hcall () e (hquiet.called e hpc), fun e w hpc => ?_, ?_, fun v hv => ?_,
    fun hl => absurd hafter hl, ?_⟩
  · rw [hpc] at hafter
    exact absurd hafter (List.cons_ne_nil _ _)
  · rw [hquiet.view, htracked]
    exact h.served
  · rw [hquiet.view]
    exact h.agrees v (by rwa [hquiet.logged] at hv)
  · rw [hquiet.logged, hthere]
    exact h.recovered

/-- A write of another key. -/
theorem append (h : Retained cfg s k raw files0 files1) {t : Unit} {e : WalEntry}
    (hpc : s.pc t = .logging e) : Retained cfg (s.append t e) k raw files0 files1 := by
  have hne : e.key ≠ k := h.spared e hpc
  have hlog : log (s.append t e).hist = log s.hist ++ [e] := log_append _ _
  have hview : (s.pc ()).view s.mem = s.mem := by
    change (s.pc t).view s.mem = s.mem
    rw [hpc]
    rfl
  have hmem : (((s.append t e).pc ()).view (s.append t e).mem).get k = s.mem.get k :=
    (MemTable.get_apply ..).trans (if_neg hne)
  have hlogged : (MemTable.new.applyAll (log (s.append t e).hist)).get k =
      (MemTable.new.applyAll (log s.hist)).get k := by
    rw [hlog, MemTable.applyAll_concat, MemTable.get_apply, if_neg hne]
  have hserved := h.served
  have hagrees := h.agrees
  rw [hview] at hserved hagrees
  refine ⟨h.shelves, by simp [Sys.append, goto], by simp [Sys.append, goto],
    by simp [Sys.append, goto], ?_, fun v hv => ?_, by simp [Sys.append, goto], ?_⟩
  · rw [hmem]
    exact hserved
  · rw [hmem]
    exact hagrees v (hlogged ▸ hv)
  · rw [hlogged]
    exact h.recovered

/-- **The renamed file comes last**, so it says what was swapped out, and where that says
nothing neither does the log. -/
theorem rename (h : Retained cfg s k raw files0 files1) (hsturdy : Sturdy cfg s) {t : Unit}
    {e : WalEntry} {w : Swapped} (hpc : s.pc t = .flushing e (.written w)) :
    Retained cfg (s.rename t e w) k raw (files0 ++ [w.path]) files1 := by
  have htracked := hsturdy.housed.find_rename hpc k
  have hthere := hsturdy.intact.find_shelves_rename hsturdy.housed h.shelves hpc k
  have hview : (s.pc ()).view s.mem = w.old := view_of_out (t := t) (by rw [hpc]; rfl)
  have hserved := h.served
  have hagrees := h.agrees
  rw [hview] at hserved hagrees
  have hlanded : (⟨[files0 ++ [w.path], files1]⟩ : LevelManager).find (s.rename t e w).fs k =
      some raw := by
    rw [hthere]
    cases hget : w.old.get k with
    | some v =>
      rw [hget] at hserved
      exact hserved
    | none =>
      have hlog : (MemTable.new.applyAll (log s.hist)).get k = none :=
        Option.eq_none_iff_forall_ne_some.mpr fun v hv =>
          absurd (hget.symm.trans (hagrees v hv)) (by simp)
      rw [Option.none_or, ← h.recovered, hlog, Option.none_or]
  refine ⟨hsturdy.housed.shelves_rename h.shelves hsturdy.latest hpc, fun w' hw' => ?_,
    by simp [Sys.rename, goto], by simp [Sys.rename, goto], ?_, hagrees, fun _ => hlanded, ?_⟩
  · exact h.clean w' (by rw [hpc]; exact hw')
  · change (w.old.get k).or (s.levels.find (s.rename t e w).fs k) = some raw
    rw [htracked]
    exact hserved
  · change ((MemTable.new.applyAll (log s.hist)).get k).or _ = some raw
    rw [hlanded]
    cases hget : (MemTable.new.applyAll (log s.hist)).get k with
    | none => rfl
    | some v =>
      rw [hagrees v hget] at hserved
      exact hserved

/-- The log is not needed any more. -/
theorem truncate (h : Retained cfg s k raw files0 files1) {t : Unit} {e : WalEntry} {w : Swapped}
    (hpc : s.pc t = .flushing e (.renamed w)) :
    Retained cfg (s.truncate t e w) k raw files0 files1 := by
  have hlog : log (s.truncate t e w).hist = [] := log_append _ _
  have hview : (s.pc ()).view s.mem = w.old := view_of_out (t := t) (by rw [hpc]; rfl)
  have hserved := h.served
  rw [hview] at hserved
  have hlanded := h.landed (by
    change (s.pc t).landed ≠ []
    simp [hpc])
  refine ⟨h.shelves, fun w' hw' => ?_, by simp [Sys.truncate, goto],
    fun _ _ _ => hlog, hserved, ?_, fun _ => hlanded, ?_⟩
  · exact h.clean w' (by rw [hpc]; exact hw')
  · rw [hlog]
    intro v hv
    simp [MemTable.applyAll] at hv
  · rw [hlog]
    exact hlanded

/-- Readers find in the file what they found in the MemTable that was swapped out. -/
theorem publish (h : Retained cfg s k raw files0 files1) (hsturdy : Sturdy cfg s) {t : Unit}
    {e : WalEntry} {w : Swapped} (hpc : s.pc t = .flushing e (.truncated w)) :
    Retained cfg (s.publish t e w) k raw files0 files1 := by
  have hfind := hsturdy.intact.find_publish hsturdy.housed hpc k
  have hlog : log (s.publish t e w).hist = log s.hist := log_append _ _
  have hclean : s.mem = .new := h.clean w (by rw [hpc]; rfl)
  have hview : (s.pc ()).view s.mem = w.old := view_of_out (t := t) (by rw [hpc]; rfl)
  have hserved := h.served
  rw [hview] at hserved
  refine ⟨h.shelves, by simp [Sys.publish, goto], by simp [Sys.publish, goto],
    by simp [Sys.publish, goto], ?_, ?_, by simp [Sys.publish, goto], ?_⟩
  · change (s.mem.get k).or ((s.publish t e w).levels.find s.fs k) = some raw
    rw [hclean, hfind]
    exact hserved
  · rw [hlog, h.emptied e w hpc]
    intro v hv
    simp [MemTable.applyAll] at hv
  · rw [hlog]
    exact h.recovered

/-- After a restart readers are served what would have been recovered. -/
theorem restart (h : Retained cfg s k raw files0 files1) (hsturdy : Sturdy cfg s)
    {listing : List Path} {mem : MemTable} {levels : LevelManager}
    (hl : s.fs.Lists cfg.dir listing)
    (hopen : Lsm.open (some s.wal) listing = .ok (mem, levels)) :
    Retained cfg (s.restart mem levels) k raw files0 files1 := by
  rw [hsturdy.open_eq h.shelves hl] at hopen
  obtain ⟨rfl, rfl⟩ := Prod.mk.inj (Except.ok.inj hopen)
  have hlog : log (s.restart (MemTable.new.applyAll (log s.hist)) ⟨[files0, files1]⟩).hist =
      log s.hist := log_append _ _
  refine ⟨h.shelves, by simp [Sys.restart], by simp [Sys.restart], by simp [Sys.restart],
    h.recovered, fun v hv => ?_, by simp [Sys.restart], ?_⟩
  · rwa [hlog] at hv
  · rw [hlog]
    exact h.recovered

/-- **One step** without a failure or a compaction. -/
theorem step (h : Retained cfg s k raw files0 files1) (hsturdy : Sturdy cfg s)
    (hs : Step cfg s a s') (ha : a.Succeeds) (hcall : ∀ t e, a = .call t (.write e) → e.key ≠ k) :
    ∃ files0 files1, Retained cfg s' k raw files0 files1 := by
  by_cases hquiet : a.Quiet
  · exact ⟨files0, files1,
      h.of_quiet hsturdy.housed (quiet_step hs ha.whole hquiet) hcall⟩
  cases hs with
  | append hpc => exact ⟨files0, files1, h.append hpc⟩
  | @rename t e w hpc => exact ⟨files0 ++ [w.path], files1, h.rename hsturdy hpc⟩
  | truncate hpc => exact ⟨files0, files1, h.truncate hpc⟩
  | publish hpc => exact ⟨files0, files1, h.publish hsturdy hpc⟩
  | restart hl hopen => exact ⟨files0, files1, h.restart hsturdy hl hopen⟩
  | compact | appendFails | flushFails | truncateFails => exact ha.elim
  | call | insert | fill | name | swap | create | write | finish | hit | miss | search =>
    exact absurd trivial hquiet

/-- Between two calls `get` answers with the value that is kept. -/
theorem get_eq (h : Retained cfg s k raw files0 files1) (hsturdy : Sturdy cfg s)
    (hidle : s.pc () = .idle) :
    Lsm.get s.fs s.mem s.levels k = .ok (visible (some raw)) := by
  have hserved := h.served
  rw [hidle] at hserved
  rw [Lsm.get_eq (hsturdy.intact.searchLevels_eq hsturdy.housed k)]
  exact congrArg (fun v => Except.ok (visible v)) hserved

/-- So it would after a restart. -/
theorem getAfterRestart_eq (h : Retained cfg s k raw files0 files1) (hsturdy : Sturdy cfg s)
    {listing : List Path} (hl : s.fs.Lists cfg.dir listing) :
    getAfterRestart (some s.wal) s.fs listing k = .ok (visible (some raw)) := by
  rw [getAfterRestart, hsturdy.open_eq h.shelves hl]
  refine (Lsm.get_eq (hsturdy.intact.searchLevels_shelves h.shelves k) _).trans ?_
  exact congrArg (fun v => Except.ok (visible v)) h.recovered

end Retained

/-! ### The condition -/

/-- What is asked of the steps before the write: no append that fails leaves a part of its
entry behind, no path is used twice, the clock ticks, and what is written fits the length
fields. -/
def Sound (cfg : Config) (s : Sys Unit) (a : Act Unit) : Prop :=
  a.Whole ∧ s.Distinct cfg a ∧ s.Ticks a ∧ a.Fits

end Sys

end Tabula
