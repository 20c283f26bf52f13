import Tabula.Lsm.CompactCrash
import Tabula.Lsm.OneValue
import Mathlib.Data.Fintype.Basic

/-!
# Acknowledged writes and crashes

A write is in the log before it is in the MemTable, and a flush truncates the log after
it has swapped the MemTable out. So a write that stands between its append and its
insert when a MemTable is swapped out loses its log entry to the truncate although it
is not in the file: it goes into the next MemTable, and a crash before the next flush
loses it. The flush holds the WAL lock throughout, which keeps appends out but not the
inserts of earlier appends.

When no write stands there at any swap, every entry of the log is in the MemTable or
about to be (`Tabula.Sys.Covered`), the truncate takes only what a file holds, and
whatever was appended stays in the log or in a file (`Tabula.Sys.Kept`).
-/

namespace Tabula

open SortedTable

variable {T : Type} {cfg : Config} {k : Key} {v : Value}

namespace Sys

/-- **The log is covered**: while nobody flushes, by the MemTable and the writes on
their way to it; during a flush, by what was swapped out. -/
structure Covered (s : Sys T) : Prop where
  free : s.lock = none → ∀ e ∈ log s.hist, s.mem.get e.key ≠ none ∨ ∃ t, s.pc t = .logged e
  held : ∀ t w, (s.pc t).held = some w → ∀ e ∈ log s.hist, w.old.get e.key ≠ none

/-- **A copy of the key would survive a crash**: in the log, or in a file. -/
def Kept (cfg : Config) (k : Key) (v : Value) (s : Sys T) : Prop :=
  (∃ e ∈ log s.hist, e.key = k) ∨ ∃ now, cfg.HasKey k v s.fs (cfg.nextSstablePath now)

end Sys

/-- The write a thread has appended to the log and not returned from. -/
@[simp] def Pc.appended : Pc → Option WalEntry
  | logged e | flushing e _ => some e
  | idle | logging _ | reading _ | missed _ => none

/-- Whether a thread is between the append of its write and the insert. -/
def Pc.isLogged : Pc → Bool
  | logged _ => true
  | idle | logging _ | flushing _ _ | reading _ | missed _ => false

namespace Sys

theorem Covered.init : (Sys.init : Sys T).Covered :=
  ⟨by simp [Sys.init, log], by simp [Sys.init]⟩

variable [DecidableEq T] {s s' : Sys T} {a : Act T}

theorem Covered.held_goto (h : s.Covered) {t : T} {pc : Pc}
    (hpc : ∀ w, pc.held = some w → (s.pc t).held = some w) :
    ∀ t' w, ((s.goto t pc).pc t').held = some w → ∀ e ∈ log s.hist, w.old.get e.key ≠ none :=
  forall_goto (P := fun _ x => ∀ w, Pc.held x = some w → ∀ e ∈ log s.hist, w.old.get e.key ≠ none)
    (fun w hw => h.held t w (hpc w hw)) fun t' _ => h.held t'

/-- A thread that is not on its way to the MemTable moves. -/
theorem Covered.free_goto (h : s.Covered) {t : T} {pc : Pc} (hpc : ∀ e, s.pc t ≠ .logged e)
    (hlock : s.lock = none) : ∀ e ∈ log s.hist,
      s.mem.get e.key ≠ none ∨ ∃ t', (s.goto t pc).pc t' = .logged e := by
  intro e he
  refine (h.free hlock e he).imp_right ?_
  rintro ⟨t', ht'⟩
  have hne : t' ≠ t := by
    rintro rfl
    exact hpc e ht'
  exact ⟨t', (Function.update_of_ne hne _ _).trans ht'⟩

/-- The MemTable takes the write it was waiting for. -/
theorem Covered.free_apply (h : s.Covered) {t : T} {pc : Pc} {e : WalEntry}
    (hpc : s.pc t = .logged e) (hlock : s.lock = none) : ∀ e' ∈ log s.hist,
      (s.mem.apply e).get e'.key ≠ none ∨ ∃ t', (s.goto t pc).pc t' = .logged e' := by
  intro e' he'
  rw [MemTable.get_apply]
  by_cases hk : e.key = e'.key
  · exact Or.inl (by simp [hk])
  · rw [if_neg hk]
    refine (h.free hlock e' he').imp_right ?_
    rintro ⟨t', ht'⟩
    have hne : t' ≠ t := by
      rintro rfl
      rw [hpc, Pc.logged.injEq] at ht'
      exact hk (congrArg _ ht')
    exact ⟨t', (Function.update_of_ne hne _ _).trans ht'⟩

theorem Covered.step (h : s.Covered)
    (hreg : Regular cfg (WalEntry.Tells k v) (MemTable.Tells k v) s) (hs : Step cfg s a s')
    (ha : a.Succeeds) (hswap : ∀ t, a = .swap t → ∀ t' e, s.pc t' ≠ .logged e) : s'.Covered := by
  have hsame := log_step hs ha
  cases hs with
  | @call t op hpc =>
    obtain ⟨hlog, -⟩ := hsame (by simp) (by simp)
    refine ⟨?_, ?_⟩ <;> rw [hlog]
    · exact fun hlock => h.free_goto (by simp [hpc]) hlock
    · exact h.held_goto (by cases op <;> simp [Op.begin])
  | @append t e hpc hlock =>
    have hlog : log (s.append t e).hist = log s.hist ++ [e] := log_append _ _
    refine ⟨fun _ e' he' => ?_, ?_⟩
    · rw [hlog, List.mem_append, List.mem_singleton] at he'
      rcases he' with he' | rfl
      · exact h.free_goto (by simp [hpc]) hlock e' he'
      · exact Or.inr ⟨t, Function.update_self _ _ _⟩
    · -- the WAL lock is free, so no flush has anything swapped out
      exact hreg.locked.held_goto hlock (by simp)
  | @insert t e hpc | @fill t e hpc =>
    obtain ⟨hlog, -⟩ := hsame (by simp) (by simp)
    refine ⟨?_, ?_⟩ <;> rw [hlog]
    · exact fun hlock => h.free_apply hpc hlock
    · exact h.held_goto (by simp)
  | @swap t e p hpc hlock =>
    -- no write is between its append and its insert, so the MemTable covers the log
    obtain ⟨hlog, -⟩ := hsame (by simp) (by simp)
    refine ⟨by simp [Sys.swap], ?_⟩
    rw [hlog]
    refine hreg.locked.held_goto hlock (P := fun w => ∀ e ∈ log s.hist, w.old.get e.key ≠ none) ?_
    rintro w hw e' he'
    obtain rfl := Option.some.inj hw
    refine (h.free hlock e' he').resolve_right ?_
    rintro ⟨t', ht'⟩
    exact hswap t rfl t' e' ht'
  | truncate => exact ⟨by simp [Sys.truncate, Event.logs], by simp [Sys.truncate, Event.logs]⟩
  | name hpc | create hpc | write hpc | finish hpc | rename hpc | publish hpc | hit hpc | miss hpc
  | search hpc =>
    obtain ⟨hlog, -⟩ := hsame (by simp) (by simp)
    refine ⟨?_, ?_⟩ <;> rw [hlog]
    · exact fun hlock => h.free_goto (by simp [hpc]) hlock
    · exact h.held_goto (by simp [hpc])
  | restart hl hopen =>
    obtain ⟨es, hreplay, rfl, -⟩ := Lsm.open_eq_ok.mp hopen
    rw [hreg.replay_eq (carried_tells k v)] at hreplay
    obtain rfl := Except.ok.inj hreplay
    obtain ⟨hlog, -⟩ := hsame (by simp) (by simp)
    refine ⟨fun _ e he => Or.inl ?_, by simp [Sys.restart]⟩
    rw [hlog] at he
    exact MemTable.get_applyAll_ne_none.mpr (Or.inl ⟨e, he, rfl⟩)
  | compact | appendFails | flushFails | truncateFails => exact ha.elim

/-- **A copy that would survive a crash stays one**: a truncate only drops entries
that a file holds. -/
theorem Kept.step (h : Kept cfg k v s)
    (hreg : Regular cfg (WalEntry.Tells k v) (MemTable.Tells k v) s) (hcov : s.Covered)
    (hs : Step cfg s a s') (ha : a.Succeeds) : Kept cfg k v s' := by
  have hsame := log_step hs ha
  rcases h with ⟨e, he, hk⟩ | ⟨now, hkey⟩
  · by_cases htruncate : ∃ t, a = .truncate t
    · obtain ⟨t, rfl⟩ := htruncate
      cases hs with
      | @truncate t e' w hpc =>
        have hnamed := hreg.named.pc t
        have hsound := hreg.flushed.staged t
        rw [hpc] at hnamed hsound
        obtain ⟨now, -, hpath, hholds⟩ := hnamed
        obtain ⟨-, htells, -⟩ := hsound
        -- the entry is in the MemTable that was swapped out, and that is in its file now
        have hold := hcov.held t w (by simp [hpc]) e he
        rw [hk] at hold
        exact Or.inr ⟨now, w.old, htells, hold, hpath ▸ hholds⟩
    · refine Or.inl ⟨e, ?_, hk⟩
      by_cases happend : ∃ t, a = .append t
      · obtain ⟨t, rfl⟩ := happend
        cases hs with
        | append =>
          simp only [Sys.append, log_append, List.foldl_cons, List.foldl_nil, Event.logs]
          exact List.mem_append_left _ he
      · rw [(hsame (fun t ht => happend ⟨t, ht⟩) fun t ht => htruncate ⟨t, ht⟩).1]
        exact he
  · exact Or.inr ⟨now, hreg.hasKey_step hs ha hkey⟩

/-- The key has been appended to the log by a thread that is still in its call, or by
a call that has been acknowledged. -/
def Wrote (k : Key) (s : Sys T) : Prop :=
  (∃ t e, (s.pc t).appended = some e ∧ e.key = k) ∨ ∃ t e, .acked t e ∈ s.hist ∧ e.key = k

theorem appended_step (hs : Step cfg s a s') (ha : a.Succeeds) : ∀ t e,
    (s'.pc t).appended = some e → (s.pc t).appended = some e ∨ e ∈ log s'.hist := by
  have hgoto : ∀ {es : List WalEntry} {t : T} {pc : Pc},
      (∀ e, pc.appended = some e → (s.pc t).appended = some e ∨ e ∈ es) →
      ∀ t' e, ((s.goto t pc).pc t').appended = some e →
        (s.pc t').appended = some e ∨ e ∈ es := fun {es t pc} hpc =>
    forall_goto (P := fun t' x => ∀ e, Pc.appended x = some e →
      (s.pc t').appended = some e ∨ e ∈ es) hpc fun _ _ _ => Or.inl
  cases hs with
  | @call t op hpc => exact hgoto (by cases op <;> simp [Op.begin])
  | append => exact hgoto (by simp [Sys.append, Event.logs])
  | insert | publish | hit | miss | search => exact hgoto (by simp)
  | restart => simp [Sys.restart]
  | fill hpc | name hpc | swap hpc | create hpc | write hpc | finish hpc | rename hpc
  | truncate hpc => exact hgoto (by simp [hpc])
  | compact | appendFails | flushFails | truncateFails => exact ha.elim

/-- It takes an append to become so. -/
theorem wrote_step (hs : Step cfg s a s') (ha : a.Succeeds) (h : s'.Wrote k) :
    s.Wrote k ∨ ∃ e ∈ log s'.hist, e.key = k := by
  rcases h with ⟨t, e, he, hk⟩ | ⟨t, e, he, hk⟩
  · rcases appended_step hs ha t e he with he | he
    · exact Or.inl (Or.inl ⟨t, e, he, hk⟩)
    · exact Or.inr ⟨e, he, hk⟩
  · rcases acked_step hs ha he with he | ⟨hpc, -⟩ | ⟨f, hpc⟩
    · exact Or.inl (Or.inr ⟨t, e, he, hk⟩)
    · exact Or.inl (Or.inl ⟨t, e, by simp [hpc], hk⟩)
    · exact Or.inl (Or.inl ⟨t, e, by simp [hpc], hk⟩)

/-! ### After a crash -/

omit [DecidableEq T] in
/-- **Where a copy survives, a restart reads the value.** -/
theorem Kept.getAfterRestart_eq (h : Kept cfg k v s)
    (hreg : Regular cfg (WalEntry.Tells k v) (MemTable.Tells k v) s)
    (hv : isTombstone v = false) {listing : List Path} (hl : s.fs.Lists cfg.dir listing) :
    getAfterRestart (some s.wal) s.fs listing k = .ok (some v) := by
  have hopen : Lsm.open (some s.wal) listing =
      .ok (MemTable.new.applyAll (log s.hist), discoverLevels listing) :=
    Lsm.open_eq_ok.mpr ⟨_, hreg.replay_eq (carried_tells k v), rfl, rfl⟩
  rw [getAfterRestart, hopen, ok_bind, Lsm.get]
  have htells := (carried_tells k v).applyAll (carried_tells k v).new hreg.carries.log
  rcases hget : (MemTable.new.applyAll (log s.hist)).get k with - | w
  · -- nothing in the log, so a file holds the key
    obtain ⟨hl0, hflat⟩ := hreg.flushed.stocked.discoverLevels hl
    refine searchLevels_tells hreg.flushed.stocked hl0 hflat hv ?_
    rcases h with hlog | ⟨now, hkey⟩
    · exact absurd hget (MemTable.get_applyAll_ne_none.mpr (Or.inl hlog))
    · exact ⟨_, (mem_level_iff hl 0 _).mpr
        ⟨rfl, hkey.ne_none, cfg.levelOf_nextSstablePath now⟩, hkey⟩
  · rw [htells.2 w hget]
    exact congrArg Except.ok (visible_of_not_tombstone hv)

/-! ### The condition -/

/-- **No write stands between its append and its insert when a MemTable is swapped
out.** -/
def Settles (s : Sys T) : Act T → Prop
  | .swap _ => ∀ t, (s.pc t).isLogged = false
  | _ => True

instance [Fintype T] (s : Sys T) : (a : Act T) → Decidable (s.Settles a)
  | .swap _ => inferInstanceAs (Decidable (∀ t, (s.pc t).isLogged = false))
  | .call _ _ | .append _ | .insert _ | .name _ _ | .create _ | .write _ _ | .finish _ | .rename _
  | .truncate _ | .publish _ | .look _ | .search _ | .compact _ _ | .restart _ | .appendFails _ _
  | .flushFails _ | .truncateFails _ => .isTrue trivial

/-- **An acknowledged write survives every crash**, in every run whose steps meet the
condition, when nothing else is written to its key. -/
theorem getAfterRestart_of_run {as : List (Act T)}
    (hrun : Runs.Run (Runs.Guarded (Step cfg) fun s a => a.Succeeds ∧ s.Tidy a ∧ s.Settles a)
      Sys.init as s)
    {t : T} (hacked : .acked t (.put k v) ∈ s.hist)
    (honly : ∀ e ∈ writes s.hist, e.key = k → e = .put k v)
    (hv : isTombstone v = false) {listing : List Path} (hl : s.fs.Lists cfg.dir listing) :
    getAfterRestart (some s.wal) s.fs listing k = .ok (some v) := by
  have honly' : ∀ e ∈ writes s.hist, e.key = k → e.raw = v := fun e he hk => by
    rw [honly e he hk]
    rfl
  have hinv := hrun.invariant
    (I := fun s => (∀ e ∈ writes s.hist, e.key = k → e.raw = v) →
      Regular cfg (WalEntry.Tells k v) (MemTable.Tells k v) s ∧ s.Covered ∧
        (s.Wrote k → Kept cfg k v s))
    (fun _ => ⟨.init (carried_tells k v), .init, by simp [Wrote, Sys.init]⟩) (by
      rintro s a s' hI ⟨hs, hsucceeds, htidy, hsettles⟩ honly
      obtain ⟨hreg, hcov, hkept⟩ := hI fun e he => honly e (writes_grows hs he)
      refine ⟨hreg.step_tells hs hsucceeds htidy honly, hcov.step hreg hs hsucceeds ?_,
        fun hwrote => ?_⟩
      · rintro t rfl t' e he
        have hnot := hsettles t'
        rw [he] at hnot
        exact Bool.noConfusion hnot
      · rcases wrote_step hs hsucceeds hwrote with hwrote | hlog
        · exact (hkept hwrote).step hreg hcov hs hsucceeds
        · exact Or.inl hlog)
  obtain ⟨hreg, -, hkept⟩ := hinv honly'
  exact (hkept (Or.inr ⟨t, _, hacked, rfl⟩)).getAfterRestart_eq hreg hv hl

/-- One thread that flushes two keys, and then dies. -/
theorem getAfterRestart_of_run_flush :
    ∃ (s : Sys Unit) (listing : List Path), s.fs.Lists [] listing ∧ s.levels.l0 ≠ [] ∧
      getAfterRestart (some s.wal) s.fs listing [1] = .ok (some [8]) := by
  obtain ⟨s, hrun, hs⟩ := exists_of_nexts (.ofThreshold 4) (fun s a => s.Tidy a ∧ s.Settles a)
    Sys.init
    [.call () (.write (.put [1] [8])), .append (), .insert (), .call () (.write (.put [2] [7])),
      .append (), .insert (), .name () 1, .swap (), .create (), .finish (), .rename (),
      .truncate (), .publish ()]
    (fun s => s.levels.l0 ≠ [] ∧ .acked () (.put [1] [8]) ∈ s.hist ∧
      ∀ e ∈ writes s.hist, e.key = [1] → e = .put [1] [8]) (by decide +kernel)
  obtain ⟨hl0, hacked, honly⟩ := hs
  have hrun := hrun.mono fun s a s' h => (⟨h.1, h.2.1.succeeds, h.2.2⟩ :
    Runs.Guarded (Step (.ofThreshold 4)) (fun s a => a.Succeeds ∧ s.Tidy a ∧ s.Settles a) s a s')
  obtain ⟨listing, hl⟩ := exists_lists_of_run hrun
  exact ⟨s, listing, hl, hl0, getAfterRestart_of_run hrun hacked honly rfl hl⟩

/-- **A flush can truncate the log entry of a write that it does not take along**: thread
`true` has appended its write when thread `false` swaps the MemTable out, and inserts it
after that. -/
theorem not_getAfterRestart_of_run :
    ¬∀ (cfg : Config) (as : List (Act Bool)) (s : Sys Bool) (t : Bool) (k : Key) (v : Value)
      (listing : List Path), Runs.Run (Runs.Guarded (Step cfg) fun _ a => a.Serves) Sys.init as s →
      .acked t (.put k v) ∈ s.hist → (∀ e ∈ writes s.hist, e.key = k → e = .put k v) →
      isTombstone v = false → s.fs.Lists cfg.dir listing →
      getAfterRestart (some s.wal) s.fs listing k = .ok (some v) := by
  intro h
  obtain ⟨s, hrun, hs⟩ := exists_of_nexts (.ofThreshold 3) Tidy Sys.init
    [.call false (.write (.put [0] [1, 2, 3])), .append false, .insert false,
      .call true (.write (.put [1] [8])), .append true, .name false 1, .swap false,
      .create false, .finish false, .rename false, .truncate false, .insert true]
    (fun s => s.wal = [] ∧ clocks s.hist = [(false, 1)] ∧
      lookup [1] (s.fs.records ((Config.ofThreshold 3).nextSstablePath 1)) = none ∧
      .acked true (.put [1] [8]) ∈ s.hist ∧
      ∀ e ∈ writes s.hist, e.key = [1] → e = .put [1] [8]) (by decide +kernel)
  obtain ⟨hwal, hclocks, hfile, hacked, honly⟩ := hs
  obtain ⟨listing, hl⟩ := exists_lists_of_run hrun
  have hread := h (.ofThreshold 3) _ s true [1] [8] listing
    (hrun.mono fun _ _ _ hstep => ⟨hstep.1, hstep.2.1⟩) hacked honly rfl hl
  have hreg : Regular (.ofThreshold 3) (WalEntry.Tells [1] [8]) (MemTable.Tells [1] [8]) s :=
    regular_of_run (fun _ _ h => ⟨h.1.succeeds, h.2⟩) hrun fun e he hk => by
      rw [honly e he hk]
      rfl
  obtain ⟨hl0, hflat⟩ := hreg.flushed.stocked.discoverLevels hl
  have hmiss : firstHit ((discoverLevels listing).l0.reverse.map s.fs.records) [1] = none := by
    rw [firstHit_eq_none_iff]
    intro rs hrs
    obtain ⟨p, hp, rfl⟩ := List.mem_map.mp hrs
    obtain ⟨hnamed, hne⟩ := hl0 p (List.mem_reverse.mp hp)
    obtain ⟨⟨now, rfl⟩, -⟩ := hreg.flushed.stocked p hnamed hne
    obtain ⟨t, hclock⟩ := hreg.named.file now hne
    rw [hclocks, List.mem_singleton] at hclock
    obtain ⟨rfl, rfl⟩ := Prod.mk.inj hclock
    exact hfile
  rw [hwal, getAfterRestart_nil, hreg.flushed.stocked.searchLevels_eq (fun _ h => h.1) hl0 hflat,
    hmiss] at hread
  simp [visible] at hread

end Sys

end Tabula
