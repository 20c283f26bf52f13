import Tabula.Lsm.Regular

/-!
# The order of the log and the order of the MemTable

`set` and `delete` append under the WAL lock and insert under the lock of the MemTable,
and hold neither in between. So two writers of one key may pass each other: the log ends
with one of the two writes, and the MemTable has the other. Nobody notices before the
next restart, which rebuilds the MemTable from the log.

The writes that are in the log and not yet in the MemTable are waiting
(`Tabula.Sys.waiting`), in the order of the log. What holds throughout is that the log is
the MemTable with the waiting writes applied to it (`Tabula.Sys.Matched`). An insert
takes one write out of the middle of them, and that is the same as taking it from the
front, as long as it passes no other write to its key.
-/

namespace Tabula

variable {T : Type} [DecidableEq T] {cfg : Config}

/-- What an event makes of the writes that are waiting. -/
def Event.waits (ws : List (T × WalEntry)) : Event T → List (T × WalEntry)
  | appended t e => ws ++ [(t, e)]
  | inserted t _ => ws.filter fun w => w.1 ≠ t
  | restarted => []
  | _ => ws

/-- Nothing is flushed, nothing fails, and the process lives. -/
def Act.Inserts : Act T → Prop
  | call _ _ | append _ | insert _ | look _ | search _ => True
  | _ => False

instance : (a : Act T) → Decidable a.Inserts
  | .call _ _ | .append _ | .insert _ | .look _ | .search _ => .isTrue trivial
  | .name _ _ | .swap _ | .create _ | .write _ _ | .finish _ | .rename _ | .truncate _
  | .publish _ | .compact _ _ | .restart _ | .appendFails _ _ | .flushFails _
  | .truncateFails _ => .isFalse id

omit [DecidableEq T] in
theorem Act.Inserts.succeeds {a : Act T} (h : a.Inserts) : a.Succeeds := by
  cases a with
  | compact | appendFails | flushFails | truncateFails => exact h.elim
  | _ => trivial

/-- Taking a thread's write out of a list with one write for each thread. -/
theorem split_at {ws : List (T × WalEntry)} (hnodup : (ws.map Prod.fst).Nodup) {t : T}
    {e : WalEntry} (hmem : (t, e) ∈ ws) :
    ∃ pre post, ws = pre ++ (t, e) :: post ∧ ws.takeWhile (fun w => w.1 ≠ t) = pre ∧
      ws.filter (fun w => w.1 ≠ t) = pre ++ post := by
  obtain ⟨pre, post, rfl⟩ := List.append_of_mem hmem
  rw [List.map_append, List.map_cons, List.nodup_append, List.nodup_cons] at hnodup
  obtain ⟨-, ⟨hpost, -⟩, hpre⟩ := hnodup
  have hpre : ∀ w ∈ pre, decide (w.1 ≠ t) = true := fun w hw =>
    decide_eq_true (hpre _ (List.mem_map_of_mem hw) _ List.mem_cons_self)
  have hpost : ∀ w ∈ post, decide (w.1 ≠ t) = true := by
    intro w hw
    have hm : w.1 ∈ post.map Prod.fst := List.mem_map_of_mem hw
    exact decide_eq_true fun he => hpost (he ▸ hm)
  refine ⟨pre, post, rfl, ?_, ?_⟩
  · rw [List.takeWhile_append_of_pos hpre, List.takeWhile_cons_of_neg (by simp), List.append_nil]
  · rw [List.filter_append, List.filter_cons_of_neg (by simp), List.filter_eq_self.mpr hpre,
      List.filter_eq_self.mpr hpost]

namespace Sys

/-- The writes that have been appended to the log and not inserted, in the order of the
log. -/
def waiting (hist : List (Event T)) : List (T × WalEntry) := hist.foldl Event.waits []

@[simp] theorem waiting_append (hist evs : List (Event T)) :
    waiting (hist ++ evs) = evs.foldl Event.waits (waiting hist) := List.foldl_append

variable {s s' : Sys T} {a : Act T}

theorem waiting_step (hs : Step cfg s a s') (ha : a.Inserts) (happend : ∀ t, a ≠ .append t)
    (hinsert : ∀ t, a ≠ .insert t) : waiting s'.hist = waiting s.hist := by
  cases hs with
  | append => exact absurd rfl (happend _)
  | insert | fill => exact absurd rfl (hinsert _)
  | miss => rfl
  | call | hit | search => exact (waiting_append _ _).trans rfl
  | name | swap | create | write | finish | rename | truncate | publish | compact | restart
  | appendFails | flushFails | truncateFails => exact ha.elim

/-- **The log is the MemTable and the waiting writes.** -/
structure Matched (s : Sys T) : Prop where
  pc : ∀ t e, (t, e) ∈ waiting s.hist ↔ s.pc t = .logged e
  nodup : ((waiting s.hist).map Prod.fst).Nodup
  replay : MemTable.new.applyAll (log s.hist) =
    s.mem.applyAll ((waiting s.hist).map Prod.snd)

/-- A thread moves that has no write waiting, neither before nor after. -/
theorem Matched.moved (h : s.Matched) {t : T} {pc : Pc} (hpc : ∀ e, s.pc t ≠ .logged e)
    (hpc' : ∀ e, pc ≠ .logged e) (hpcs : s'.pc = Function.update s.pc t pc)
    (hwaiting : waiting s'.hist = waiting s.hist) (hlog : log s'.hist = log s.hist)
    (hmem : s'.mem = s.mem) : s'.Matched := by
  refine ⟨fun t' e => ?_, by rw [hwaiting]; exact h.nodup,
    by rw [hwaiting, hlog, hmem]; exact h.replay⟩
  rw [hwaiting, hpcs, h.pc]
  by_cases ht : t' = t
  · subst ht
    rw [Function.update_self]
    exact iff_of_false (hpc e) (hpc' e)
  · rw [Function.update_of_ne ht]

/-- The write of a thread is last in the log, and last of those that wait. -/
theorem Matched.append (h : s.Matched) {t : T} {e : WalEntry} (hpc : s.pc t = .logging e) :
    (s.append t e).Matched := by
  have hnew : waiting (s.append t e).hist = waiting s.hist ++ [(t, e)] := waiting_append _ _
  have hgrown : log (s.append t e).hist = log s.hist ++ [e] := log_append _ _
  -- a thread has one write at a time
  have hout : t ∉ (waiting s.hist).map Prod.fst := by
    intro hm
    obtain ⟨⟨t', e'⟩, hw, rfl⟩ := List.mem_map.mp hm
    rw [h.pc, hpc] at hw
    simp at hw
  refine ⟨fun t' e' => ?_, ?_, ?_⟩
  · rw [hnew, List.mem_append, List.mem_singleton, h.pc, Prod.mk.injEq]
    change s.pc t' = .logged e' ∨ t' = t ∧ e' = e ↔
      Function.update s.pc t (.logged e) t' = .logged e'
    by_cases ht : t' = t
    · subst ht
      rw [Function.update_self, hpc]
      simp [eq_comm]
    · rw [Function.update_of_ne ht]
      simp [ht]
  · rw [hnew, List.map_append, List.nodup_append]
    refine ⟨h.nodup, List.nodup_singleton _, fun x hx y hy he => hout ?_⟩
    rw [he, List.mem_singleton.mp hy] at hx
    exact hx
  · rw [hgrown, hnew, List.map_append, MemTable.applyAll_concat, h.replay]
    exact (MemTable.applyAll_concat _ _ _).symm

/-- The write of a thread leaves the list, and the thread moves on. -/
theorem Matched.inserted (h : s.Matched) {t : T} {e : WalEntry} {pc : Pc}
    (hpc : s.pc t = .logged e) (hpc' : ∀ e, pc ≠ .logged e)
    (horder : ∀ w ∈ (waiting s.hist).takeWhile (fun w => w.1 ≠ t),
      w.2.key = e.key → w.2.raw = e.raw)
    (hpcs : s'.pc = Function.update s.pc t pc)
    (hwaiting : waiting s'.hist = (waiting s.hist).filter fun w => w.1 ≠ t)
    (hlog : log s'.hist = log s.hist) (hmem : s'.mem = s.mem.apply e) : s'.Matched := by
  refine ⟨fun t' e' => ?_, ?_, ?_⟩
  · rw [hwaiting, List.mem_filter, decide_eq_true_iff, hpcs, h.pc]
    by_cases ht : t' = t
    · subst ht
      rw [Function.update_self]
      exact iff_of_false (fun hw => hw.2 rfl) (hpc' e')
    · rw [Function.update_of_ne ht]
      exact and_iff_left ht
  · rw [hwaiting]
    exact h.nodup.sublist (List.filter_sublist.map _)
  · -- the write overtakes those before it, which say nothing else of its key
    obtain ⟨pre, post, hsplit, htake, hfilter⟩ := split_at h.nodup ((h.pc t e).mpr hpc)
    rw [htake] at horder
    have hpass : ∀ x ∈ pre.map Prod.snd, x.key = e.key → x.raw = e.raw := by
      intro x hx
      obtain ⟨w, hw, rfl⟩ := List.mem_map.mp hx
      exact horder w hw
    rw [hlog, h.replay, hwaiting, hfilter, hmem, hsplit, List.map_append, List.map_cons,
      List.map_append, s.mem.applyAll_move hpass]

/-- **An insert passes no other value of its key**: every write to the key that is waiting
from before it, in the log, writes the same. -/
def KeepsTurn (s : Sys T) : Act T → Prop
  | .insert t => ∀ e ∈ (s.pc t).entry, ∀ w ∈ (waiting s.hist).takeWhile (fun w => w.1 ≠ t),
      w.2.key = e.key → w.2.raw = e.raw
  | _ => True

instance (s : Sys T) : (a : Act T) → Decidable (s.KeepsTurn a)
  | .insert t => inferInstanceAs (Decidable (∀ e ∈ (s.pc t).entry,
      ∀ w ∈ (waiting s.hist).takeWhile (fun w => w.1 ≠ t), w.2.key = e.key → w.2.raw = e.raw))
  | .call _ _ | .append _ | .name _ _ | .swap _ | .create _ | .write _ _ | .finish _ | .rename _
  | .truncate _ | .publish _ | .look _ | .search _ | .compact _ _ | .restart _ | .appendFails _ _
  | .flushFails _ | .truncateFails _ => .isTrue trivial

/-- One step. -/
theorem Matched.step (h : s.Matched) (hs : Step cfg s a s') (ha : a.Inserts)
    (hturn : s.KeepsTurn a) : s'.Matched := by
  have hlog := log_step hs ha.succeeds
  have hwaiting := waiting_step hs ha
  cases hs with
  | @call t op hpc =>
    exact h.moved (by simp [hpc]) (by cases op <;> simp [Op.begin]) rfl
      (hwaiting (by simp) (by simp)) (hlog (by simp) (by simp)).1 rfl
  | append hpc => exact h.append hpc
  | @insert t e hpc | @fill t e hpc =>
    exact h.inserted hpc (by simp) (hturn e (by simp [hpc])) rfl (waiting_append _ _)
      (hlog (by simp) (by simp)).1 rfl
  | hit hpc | miss hpc | search hpc =>
    exact h.moved (by simp [hpc]) (by simp) rfl (hwaiting (by simp) (by simp))
      (hlog (by simp) (by simp)).1 rfl
  | name | swap | create | write | finish | rename | truncate | publish | compact | restart
  | appendFails | flushFails | truncateFails => exact ha.elim

/-! ### After the run -/

/-- **A store that has just been opened** on a log and the entries of its directory. -/
structure Opened (s : Sys T) (listing : List Path) : Prop where
  idle : ∀ t, s.pc t = .idle
  logged : s.Logged
  short : ∀ e ∈ log s.hist, e.IsShort
  mem : s.mem = MemTable.new.applyAll (log s.hist)
  levels : s.levels = discoverLevels listing
  settled : waiting s.hist = []

theorem Opened.matched {listing : List Path} (h : s.Opened listing) : s.Matched := by
  refine ⟨fun t e => ?_, ?_, ?_⟩
  · rw [h.settled, h.idle]
    simp
  · rw [h.settled]
    exact List.nodup_nil
  · rw [h.settled, h.mem]
    rfl

theorem Opened.carries {listing : List Path} (h : s.Opened listing) :
    s.Carries WalEntry.IsShort MemTable.IsShort where
  mem := h.mem ▸ carried_isShort.applyAll MemTable.isShort_new h.short
  pc t e he := by
    rw [h.idle] at he
    simp at he
  log := h.short

/-- The files and the lists stay as they are. -/
theorem same_files (hs : Step cfg s a s') (ha : a.Inserts) :
    s'.fs = s.fs ∧ s'.levels = s.levels := by
  cases hs with
  | call | append | insert | fill | hit | miss | search => exact ⟨rfl, rfl⟩
  | name | swap | create | write | finish | rename | truncate | publish | compact | restart
  | appendFails | flushFails | truncateFails => exact ha.elim

/-- **A restart brings the same MemTable back**, once every call has returned, and with it
the same answers, in every run whose steps meet the condition. -/
theorem open_eq_of_run {s₀ : Sys T} {listing : List Path} (h₀ : s₀.Opened listing)
    {as : List (Act T)} (hrun : Runs.Run (Runs.Guarded (Step cfg) fun s a =>
      a.Inserts ∧ a.Fits ∧ s.KeepsTurn a) s₀ as s) (hidle : ∀ t, s.pc t = .idle) :
    Lsm.open (some s.wal) listing = .ok (s.mem, s.levels) ∧
      ∀ k, getAfterRestart (some s.wal) s.fs listing k = Lsm.get s.fs s.mem s.levels k := by
  obtain ⟨hlogged, hcarries, hmatched, hlevels⟩ := hrun.invariant
    (I := fun s => s.Logged ∧ s.Carries WalEntry.IsShort MemTable.IsShort ∧ s.Matched ∧
      s.levels = discoverLevels listing) ⟨h₀.logged, h₀.carries, h₀.matched, h₀.levels⟩ (by
    rintro s a s' ⟨hlogged, hcarries, hmatched, hlevels⟩ ⟨hs, hinserts, hfits, hturn⟩
    refine ⟨hlogged.step hs hinserts.succeeds.whole,
      hcarries.step carried_isShort hlogged hs hinserts.succeeds.whole ?_,
      hmatched.step hs hinserts hturn, (same_files hs hinserts).2.trans hlevels⟩
    rintro t e rfl
    exact hfits)
  -- nothing waits, so the MemTable is the log
  have hwaiting : waiting s.hist = [] := by
    refine List.eq_nil_iff_forall_not_mem.mpr fun w hw => ?_
    have hpc := (hmatched.pc w.1 w.2).mp hw
    rw [hidle] at hpc
    simp at hpc
  have hreplay : Wal.replay (some s.wal) = .ok (log s.hist) := by
    rw [hlogged, Wal.replay_encodeAll hcarries.log]
  have hmem : s.mem = MemTable.new.applyAll (log s.hist) := by
    rw [hmatched.replay, hwaiting]
    rfl
  have hopen : Lsm.open (some s.wal) listing = .ok (s.mem, s.levels) :=
    Lsm.open_eq_ok.mpr ⟨_, hreplay, hmem, hlevels⟩
  refine ⟨hopen, fun k => ?_⟩
  rw [getAfterRestart, hopen]
  rfl

theorem opened_init : (Sys.init : Sys T).Opened [] :=
  ⟨fun _ => rfl, rfl, fun _ h => absurd h List.not_mem_nil, rfl, by
    rw [discoverLevels_of_sorted rfl (by simp [NameSorted])]
    rfl, rfl⟩

/-- Two threads that write two keys, one of them both, and pass each other. -/
theorem open_eq_of_run_overlapping : ∃ s : Sys Bool, s.mem.data = [([1], [9]), ([2], [7])] ∧
    Lsm.open (some s.wal) [] = .ok (s.mem, s.levels) := by
  obtain ⟨s, hrun, hmem, hpc⟩ := exists_of_nexts (.ofThreshold 9)
    (fun s a => a.Inserts ∧ a.Fits ∧ s.KeepsTurn a) Sys.init
    [.call false (.write (.put [1] [8])), .call true (.write (.put [2] [7])), .append false,
      .append true, .insert true, .insert false, .call true (.write (.put [1] [9])),
      .append true, .insert true]
    (fun s => s.mem.data = [([1], [9]), ([2], [7])] ∧ ∀ t, s.pc t = .idle) (by decide +kernel)
  exact ⟨s, hmem, (open_eq_of_run opened_init
    (hrun.mono fun _ _ _ h => ⟨h.1, h.2.2.1, h.2.2.2.1, h.2.2.2.2⟩) hpc).1⟩

/-- **A restart can bring an overwritten value back**: thread `false` appends before thread
`true`, and inserts after it. -/
theorem not_open_eq_of_run :
    ¬∀ (cfg : Config) (as : List (Act Bool)) (s : Sys Bool),
      Runs.Run (Runs.Guarded (Step cfg) fun _ a => a.Inserts ∧ a.Fits) Sys.init as s →
      (∀ t, s.pc t = .idle) → Lsm.open (some s.wal) [] = .ok (s.mem, s.levels) := by
  intro h
  obtain ⟨s, hrun, hmem, hpc, hdiff⟩ := exists_of_nexts (.ofThreshold 9)
    (fun _ a => a.Inserts ∧ a.Fits) Sys.init
    [.call false (.write (.put [1] [8])), .append false, .call true (.write (.put [1] [9])),
      .append true, .insert true, .insert false]
    (fun s => s.mem.data = [([1], [8])] ∧ (∀ t, s.pc t = .idle) ∧
      Wal.replay (some s.wal) = .ok [.put [1] [8], .put [1] [9]]) (by decide +kernel)
  obtain ⟨es, hreplay, hnew, -⟩ := Lsm.open_eq_ok.mp
    (h (.ofThreshold 9) _ s (hrun.mono fun _ _ _ h => ⟨h.1, h.2.2⟩) hpc)
  rw [hdiff] at hreplay
  obtain rfl := Except.ok.inj hreplay
  rw [hnew] at hmem
  exact absurd hmem (by decide)

end Sys

end Tabula
