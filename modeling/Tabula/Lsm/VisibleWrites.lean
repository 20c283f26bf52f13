import Tabula.Lsm.OneValue
import Mathlib.Data.Fintype.Basic

/-!
# Acknowledged writes and readers

A flush takes the MemTable away under the MemTable lock and puts its file into L0 under
the levels lock, some time later. In between, the data is in a variable of the flushing
thread, where no reader looks: a `get` that finds nothing in the MemTable goes on to the
levels and finds nothing there either.

A write that was acknowledged is in the MemTable, or it has left it for good, with a
flush (`Tabula.Sys.Past`): then it stays with that flush until its file is in L0. So a
`get` reads it as long as no flush holds it when the levels are searched.
-/

namespace Tabula

open SortedTable

variable {T : Type} {cfg : Config} {k : Key} {v : Value}

namespace Sys

/-- **The key has left the MemTable**: a flush has it, or a file of L0. -/
def Past (cfg : Config) (k : Key) (v : Value) (s : Sys T) : Prop :=
  (∃ t w, (s.pc t).out = some w ∧ w.old.get k ≠ none) ∨
    ∃ p ∈ s.levels.l0, cfg.HasKey k v s.fs p

/-- The key is in the MemTable, or has left it. -/
def Present (cfg : Config) (k : Key) (v : Value) (s : Sys T) : Prop :=
  s.mem.get k ≠ none ∨ Past cfg k v s

/-- The key has been inserted into the MemTable by a thread that is still in its call,
or by a call that has been acknowledged. -/
def Inserted (k : Key) (s : Sys T) : Prop :=
  (∃ t e f, s.pc t = .flushing e f ∧ e.key = k) ∨ ∃ t e, .acked t e ∈ s.hist ∧ e.key = k

variable [DecidableEq T] {s s' : Sys T} {a : Act T}

/-- A thread moves on, and keeps what it has swapped out. -/
theorem exists_out_goto {t : T} {pc : Pc} (hpc : ∀ w, (s.pc t).out = some w → pc.out = some w)
    (h : ∃ t' w, (s.pc t').out = some w ∧ w.old.get k ≠ none) :
    ∃ t' w, ((s.goto t pc).pc t').out = some w ∧ w.old.get k ≠ none := by
  obtain ⟨t', w, hw, hget⟩ := h
  refine ⟨t', w, ?_, hget⟩
  by_cases ht : t' = t
  · subst ht
    exact (congrArg Pc.out (Function.update_self _ _ _)).trans (hpc w hw)
  · exact (congrArg Pc.out (Function.update_of_ne ht _ _)).trans hw

/-- **What has left the MemTable stays in a flush or in L0**: the file a flush adds to L0
holds what it has swapped out. -/
theorem Past.step (h : Past cfg k v s)
    (hreg : Regular cfg (WalEntry.Tells k v) (MemTable.Tells k v) s) (hs : Step cfg s a s')
    (ha : a.Serves) : Past cfg k v s' := by
  have hfile : ∀ p ∈ s.levels.l0, cfg.HasKey k v s.fs p → cfg.HasKey k v s'.fs p := by
    intro p hp hkey
    obtain ⟨hnamed, hne⟩ := hreg.flushed.l0 p hp
    obtain ⟨⟨now, rfl⟩, -⟩ := hreg.flushed.stocked p hnamed hne
    exact hreg.hasKey_step hs ha.succeeds hkey
  have hl0 : s'.levels = s.levels → (∃ p ∈ s.levels.l0, cfg.HasKey k v s.fs p) →
      ∃ p ∈ s'.levels.l0, cfg.HasKey k v s'.fs p := by
    rintro hlevels ⟨p, hp, hkey⟩
    exact ⟨p, by rwa [hlevels], hfile p hp hkey⟩
  cases hs with
  | @publish t e w hpc =>
    have hnew : (s.publish t e w).levels.l0 = s.levels.l0 ++ [w.path] :=
      LevelManager.l0_addL0File _ _
    rcases h with ⟨t', w', hw', hget⟩ | ⟨p, hp, hkey⟩
    · by_cases ht : t' = t
      · subst ht
        have hnamed := hreg.named.pc t'
        have hsound := hreg.flushed.staged t'
        rw [hpc] at hw' hnamed hsound
        obtain rfl := Option.some.inj hw'
        obtain ⟨-, -, -, hholds⟩ := hnamed
        obtain ⟨-, htells, -⟩ := hsound
        exact Or.inr ⟨w.path, by simp [hnew], w.old, htells, hget, hholds⟩
      · exact Or.inl ⟨t', w', (congrArg Pc.out (Function.update_of_ne ht _ _)).trans hw', hget⟩
    · exact Or.inr ⟨p, by simp [hnew, hp], hkey⟩
  | append hpc | insert hpc | fill hpc | name hpc | create hpc | write hpc | finish hpc | rename hpc
  | truncate hpc | hit hpc | miss hpc | search hpc | swap hpc | call hpc =>
    exact h.imp (exists_out_goto (by simp [hpc])) (hl0 rfl)
  | compact | restart | appendFails | flushFails | truncateFails => exact ha.elim

/-- **What is in the MemTable or has left it stays so**: a swap hands it to a flush. -/
theorem Present.step (h : Present cfg k v s)
    (hreg : Regular cfg (WalEntry.Tells k v) (MemTable.Tells k v) s) (hs : Step cfg s a s')
    (ha : a.Serves) : Present cfg k v s' := by
  have hpast := fun h : Past cfg k v s => h.step hreg hs ha
  cases hs with
  | @insert t e | @fill t e =>
    exact h.imp (fun hget => MemTable.get_apply_ne_none.mpr (Or.inr hget)) hpast
  | @swap t e p =>
    refine Or.inr (h.elim (fun hget => Or.inl ⟨t, ⟨p, s.mem, swaps s.hist⟩, ?_, hget⟩) hpast)
    simp [swap, goto]
  | call | append | name | create | write | finish | rename | truncate | publish | hit | miss
  | search => exact h.imp_right hpast
  | compact | restart | appendFails | flushFails | truncateFails => exact ha.elim

theorem flushing_step (hs : Step cfg s a s') (ha : a.Serves) : ∀ t e f,
    s'.pc t = .flushing e f → (∃ f', s.pc t = .flushing e f') ∨ s'.mem.get e.key ≠ none := by
  have hgoto : ∀ {mem : MemTable} {t : T} {pc : Pc},
      (∀ e f, pc = .flushing e f → (∃ f', s.pc t = .flushing e f') ∨ mem.get e.key ≠ none) →
      ∀ t' e f, (s.goto t pc).pc t' = .flushing e f →
        (∃ f', s.pc t' = .flushing e f') ∨ mem.get e.key ≠ none := fun {mem t pc} hpc =>
    forall_goto (P := fun t' x => ∀ e f, x = Pc.flushing e f →
      (∃ f', s.pc t' = .flushing e f') ∨ mem.get e.key ≠ none) hpc fun _ _ _ f h => Or.inl ⟨f, h⟩
  cases hs with
  | @call t op hpc => exact hgoto (by cases op <;> simp [Op.begin])
  | append | insert | publish | hit | miss | search => exact hgoto (by simp)
  | @fill t e hpc =>
    refine hgoto fun e' f h => Or.inr ?_
    obtain ⟨rfl, -⟩ := Pc.flushing.inj h
    exact MemTable.get_apply_ne_none.mpr (Or.inl rfl)
  | name hpc | swap hpc | create hpc | write hpc | finish hpc | rename hpc | truncate hpc =>
    exact hgoto (by simp [hpc])
  | compact | restart | appendFails | flushFails | truncateFails => exact ha.elim

/-- It takes an insert to become so. -/
theorem inserted_step (hs : Step cfg s a s') (ha : a.Serves) (h : s'.Inserted k) :
    s.Inserted k ∨ s'.mem.get k ≠ none := by
  rcases h with ⟨t, e, f, hpc, rfl⟩ | ⟨t, e, hacked, rfl⟩
  · exact (flushing_step hs ha t e f hpc).imp_left fun ⟨f', hf'⟩ => Or.inl ⟨t, e, f', hf', rfl⟩
  · rcases acked_step hs ha.succeeds hacked with hacked | ⟨hpc, hmem⟩ | ⟨f, hpc⟩
    · exact Or.inl (Or.inr ⟨t, e, hacked, rfl⟩)
    · exact Or.inr (hmem ▸ MemTable.get_apply_ne_none.mpr (Or.inl rfl))
    · exact Or.inl (Or.inl ⟨t, e, f, hpc, rfl⟩)

/-! ### Readers -/

/-- **A `get` of the key is under way** that was called after the write had been
acknowledged. -/
def Asks (k : Key) (v : Value) (t : T) (hist : List (Event T)) : Prop :=
  ∃ before since, hist = before ++ .called t (.get k) :: since ∧
    (∃ t', .acked t' (.put k v) ∈ before) ∧ ∀ op, .called t op ∉ since

omit [DecidableEq T] in
/-- It has just been called. -/
theorem Asks.of_getLast {t t' : T} {hist : List (Event T)}
    (hacked : .acked t' (.put k v) ∈ hist.dropLast)
    (hlast : hist.getLast? = some (.called t (.get k))) : Asks k v t hist :=
  ⟨_, [], (List.dropLast_append_getLast? _ hlast).symm, ⟨t', hacked⟩, by simp⟩

omit [DecidableEq T] in
theorem Asks.acked {t : T} {hist : List (Event T)} (h : Asks k v t hist) :
    ∃ t', .acked t' (.put k v) ∈ hist := by
  obtain ⟨before, since, rfl, ⟨t', hacked⟩, -⟩ := h
  exact ⟨t', List.mem_append_left _ hacked⟩

omit [DecidableEq T] in
/-- Without another call of the thread, it was so before. -/
theorem Asks.of_append {t : T} {hist evs : List (Event T)} (h : Asks k v t (hist ++ evs))
    (hevs : ∀ op, .called t op ∉ evs) : Asks k v t hist := by
  obtain ⟨before, since, he, hacked, hsince⟩ := h
  rcases List.append_eq_append_iff.mp he with ⟨us, -, rfl⟩ | ⟨us, rfl, hus⟩
  · exact absurd (List.mem_append_right _ List.mem_cons_self) (hevs (.get k))
  · cases us with
    | nil => exact absurd (by rw [← List.nil_append evs, ← hus]; simp) (hevs (.get k))
    | cons ev us =>
      obtain ⟨rfl, rfl⟩ := List.cons.inj hus
      exact ⟨before, us, rfl, hacked, fun op hm => hsince op (List.mem_append_left _ hm)⟩

/-- A `get` that is under way after a step, and not just called, was so before. -/
theorem Asks.step_back {t : T} {key : Key} (hs : Step cfg s a s') (ha : a.Serves)
    (h : Asks k v t s'.hist) (hpc : s'.pc t = .missed key) : Asks k v t s.hist := by
  cases hs with
  | @call t' op =>
    refine h.of_append fun op' hm => ?_
    obtain ⟨rfl, -⟩ := Event.called.inj (List.mem_singleton.mp hm)
    cases op <;> simp [call, goto, Op.begin] at hpc
  | append | insert | fill | name | swap | truncate | publish | hit | search =>
    exact h.of_append (by simp)
  | create | write | finish | rename | miss => exact h
  | compact | restart | appendFails | flushFails | truncateFails => exact ha.elim

/-- A thread is on its way to the levels because it has found nothing in the
MemTable. -/
theorem missed_step (hs : Step cfg s a s') (ha : a.Serves) : ∀ t key, s'.pc t = .missed key →
    s.pc t = .missed key ∨ s.mem.get key = none := by
  have hgoto : ∀ {t : T} {pc : Pc}, (∀ key, pc = .missed key → s.mem.get key = none) →
      ∀ t' key, (s.goto t pc).pc t' = .missed key →
        s.pc t' = .missed key ∨ s.mem.get key = none := fun {t pc} hpc =>
    forall_goto (P := fun t' x => ∀ key, x = Pc.missed key →
      s.pc t' = .missed key ∨ s.mem.get key = none) (fun key h => Or.inr (hpc key h))
      fun _ _ _ => Or.inl
  cases hs with
  | @call t op hpc => exact hgoto (by cases op <;> simp [Op.begin])
  | @miss t key hpc hget =>
    refine hgoto fun key' h => ?_
    rwa [← Pc.missed.inj h]
  | append | insert | fill | name | swap | create | write | finish | rename | truncate | publish
  | hit | search => exact hgoto (by simp)
  | compact | restart | appendFails | flushFails | truncateFails => exact ha.elim

/-! ### The condition -/

/-- **No flush holds the key when a reader of it searches the levels.** -/
def InSight (k : Key) (s : Sys T) : Act T → Prop
  | .search t => s.pc t = .missed k → ∀ t', ∀ w ∈ (s.pc t').out, w.old.get k = none
  | _ => True

instance [Fintype T] (s : Sys T) : (a : Act T) → Decidable (s.InSight k a)
  | .search t => inferInstanceAs
      (Decidable (s.pc t = .missed k → ∀ t', ∀ w ∈ (s.pc t').out, w.old.get k = none))
  | .call _ _ | .append _ | .insert _ | .name _ _ | .swap _ | .create _ | .write _ _ | .finish _
  | .rename _ | .truncate _ | .publish _ | .look _ | .compact _ _ | .restart _ | .appendFails _ _
  | .flushFails _ | .truncateFails _ => .isTrue trivial

/-- What holds in every run in which the key has one value. -/
structure Readable (cfg : Config) (k : Key) (v : Value) (s : Sys T) : Prop where
  regular : Regular cfg (WalEntry.Tells k v) (MemTable.Tells k v) s
  present : s.Inserted k → Present cfg k v s
  missed : ∀ t, Asks k v t s.hist → s.pc t = .missed k → Past cfg k v s

theorem Readable.step (h : Readable cfg k v s) (hs : Step cfg s a s') (ha : a.Serves)
    (htidy : s.Tidy a) (honly : ∀ e ∈ writes s'.hist, e.key = k → e.raw = v) :
    Readable cfg k v s' where
  regular := h.regular.step_tells hs ha.succeeds htidy honly
  present hins := by
    rcases inserted_step hs ha hins with hins | hget
    · exact (h.present hins).step h.regular hs ha
    · exact Or.inl hget
  missed t hasks hpc := by
    have hasks := hasks.step_back hs ha hpc
    rcases missed_step hs ha t k hpc with hpc | hget
    · exact (h.missed t hasks hpc).step h.regular hs ha
    · obtain ⟨t', hacked⟩ := hasks.acked
      have hpresent := h.present (Or.inr ⟨t', _, hacked, rfl⟩)
      exact (hpresent.resolve_left (not_not.mpr hget)).step h.regular hs ha

/-- **A `get` that is called after the acknowledgement returns the value**, in every run
whose steps meet the condition, when nothing else is written to the key. -/
theorem answered_of_run {as : List (Act T)}
    (hrun : Runs.Run (Runs.Guarded (Step cfg) fun s a => a.Serves ∧ s.Tidy a ∧ s.InSight k a)
      Sys.init as s)
    (hstep : Step cfg s a s') (hserves : a.Serves) (hsight : s.InSight k a) {t : T}
    {r : Res LsmError (Option Value)} (hasks : Asks k v t s.hist)
    (hr : s'.hist = s.hist ++ [.answered t k r])
    (honly : ∀ e ∈ writes s.hist, e.key = k → e = .put k v) (hv : isTombstone v = false) :
    r = .ok (some v) := by
  have honly' : ∀ e ∈ writes s.hist, e.key = k → e.raw = v := fun e he hk => by
    rw [honly e he hk]
    rfl
  have h : Readable cfg k v s := hrun.invariant
    (I := fun s => (∀ e ∈ writes s.hist, e.key = k → e.raw = v) → Readable cfg k v s)
    (fun _ => ⟨.init (carried_tells k v), by simp [Inserted, Sys.init], by simp [Sys.init]⟩)
    (fun s a s' hI hs honly => (hI fun e he => honly e (writes_grows hs.1 he)).step hs.1 hs.2.1
      hs.2.2.1 honly) honly'
  rcases hstep.answered hr with ⟨-, value, hget, rfl⟩ | ⟨rfl, hpc, rfl⟩
  · rw [h.regular.carries.mem.2 value hget, visible_of_not_tombstone hv]
  · rcases h.missed t hasks hpc with ⟨t', w, hw, hget⟩ | hl0
    · exact absurd (hsight hpc t' w hw) hget
    · exact searchLevels_tells h.regular.flushed.stocked h.regular.flushed.l0 h.regular.flushed.flat
        hv hl0

/-- A reader finds in L0 what another thread has flushed. -/
theorem answered_of_run_flushed :
    ∃ s : Sys Bool, s.pc true = .missed [1] ∧
      searchLevels s.fs s.levels [1] = .ok (some [8]) := by
  obtain ⟨s, hrun, hs⟩ := exists_of_nexts (.ofThreshold 2) (fun s a => s.Tidy a ∧ s.InSight [1] a)
    Sys.init
    [.call false (.write (.put [1] [8])), .append false, .insert false, .name false 1, .swap false,
      .create false, .finish false, .rename false, .truncate false, .publish false,
      .call true (.get [1]), .look true]
    (fun s => s.pc true = .missed [1] ∧ s.InSight [1] (.search true) ∧
      .acked false (.put [1] [8]) ∈ s.hist.dropLast ∧
      s.hist.getLast? = some (.called true (.get [1])) ∧
      ∀ e ∈ writes s.hist, e.key = [1] → e = .put [1] [8]) (by decide +kernel)
  obtain ⟨hpc, hsight, hacked, hlast, honly⟩ := hs
  exact ⟨s, hpc, answered_of_run hrun (.search hpc) trivial hsight (.of_getLast hacked hlast) rfl
    honly rfl⟩

/-- **A `get` can miss a write that a flush is moving**: the MemTable is swapped out and
its file is not in L0 yet. -/
theorem not_answered_of_run :
    ¬∀ (cfg : Config) (as : List (Act Bool)) (s s' : Sys Bool) (a : Act Bool) (t : Bool) (k : Key)
      (v : Value) (r : Res LsmError (Option Value)),
      Runs.Run (Runs.Guarded (Step cfg) fun _ a => a.Serves) Sys.init as s → Step cfg s a s' →
      a.Serves → Asks k v t s.hist → s'.hist = s.hist ++ [.answered t k r] →
      (∀ e ∈ writes s.hist, e.key = k → e = .put k v) → isTombstone v = false →
      r = .ok (some v) := by
  intro h
  obtain ⟨s, hrun, hs⟩ := exists_of_nexts (.ofThreshold 3) (fun _ _ => True) Sys.init
    [.call true (.write (.put [1] [8])), .append true, .insert true,
      .call false (.write (.put [0] [1, 2, 3])), .append false, .insert false, .name false 1,
      .swap false, .call true (.get [1]), .look true]
    (fun s => s.pc true = .missed [1] ∧ searchLevels s.fs s.levels [1] = .ok none ∧
      .acked true (.put [1] [8]) ∈ s.hist.dropLast ∧
      s.hist.getLast? = some (.called true (.get [1])) ∧
      ∀ e ∈ writes s.hist, e.key = [1] → e = .put [1] [8]) (by decide +kernel)
  obtain ⟨hpc, hnone, hacked, hlast, honly⟩ := hs
  have hread := h (.ofThreshold 3) _ s _ (.search true) true [1] [8] _
    (hrun.mono fun _ _ _ hstep => ⟨hstep.1, hstep.2.1⟩) (.search hpc) trivial
    (.of_getLast hacked hlast) rfl honly rfl
  rw [hnone] at hread
  simp at hread

end Sys

end Tabula
