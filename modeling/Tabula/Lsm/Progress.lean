import Tabula.Lib.Progress
import Tabula.Lsm.Atomicity
import Mathlib.Algebra.BigOperators.Group.Finset.Basic
import Mathlib.Algebra.Order.BigOperators.Group.Finset
import Mathlib.Data.Prod.Lex

/-!
# No deadlock

A thread waits for the WAL lock, which a flush holds up to its truncate, or for the levels
lock, which searches and a compaction hold; and who holds the one never waits for the
other. So somebody can always go on, until every call is over
(`Tabula.Process.quiet_of_stuck`).

Nor do they go on for ever: without new calls every call comes to its end, whatever the
order in which the threads run (`Tabula.Process.drains_of_run`). The steps that are left
are counted by `Tabula.Process.work`. What a `get` has left depends on the number of files,
and so on the flushes that have yet to publish theirs.

A compaction that panics ends the background thread and poisons the levels lock, and then
a call ends where it comes to take that lock (`Tabula.Process.Over`).
-/

namespace Tabula

open StorePrograms

variable {T : Type} {cfg : Config}

/-! ### The steps that are left -/

theorem LevelManager.readOrder_addL0File (lm : LevelManager) (p : Path) :
    (lm.addL0File p).readOrder = p :: lm.readOrder := by
  rw [readOrder, l0_addL0File, drop_addL0File, List.reverse_append]
  rfl

/-- The steps a flush has left, when nothing fails. -/
def Flush.left : Flush → ℕ
  | start => 7
  | named _ => 6
  | swapped _ => 5
  | writing _ => 4
  | written _ => 3
  | renamed _ => 2
  | truncated _ => 1

/-- The thread may come to publish a file. -/
def Pc.publishes : Pc → ℕ
  | logging _ | logged _ | flushing _ _ => 1
  | idle | reading _ | missed _ => 0

/-- The steps a thread has left, when a search takes at most `n`. -/
def Pc.left (n : ℕ) : Pc → ℕ
  | idle => 0
  | logging _ => 9
  | logged _ => 8
  | flushing _ fl => fl.left
  | reading _ => n + 3
  | missed _ => n + 2

/-- What a compaction has left. -/
def Background.left (fs : Fs) : Background → ℕ
  | compacting _ _ _ p => p.length fs
  | waiting | polling | due | exited | panicked => 0

/-- How far the background thread is from its end. -/
def Background.stage : Background → ℕ
  | polling => 4
  | due => 3
  | compacting _ _ _ _ => 2
  | waiting => 1
  | exited | panicked => 0

theorem Background.stage_after_lt (res : Res CompactionError Unit) : (after res).stage < 2 := by
  rcases res with (e | -) | -
  · exact Nat.lt_succ_self 1
  · exact Nat.succ_pos 1
  · exact Nat.lt_succ_self 1

/-- In front of the levels lock a flush has let go of the WAL lock. -/
theorem Pc.held_of_atLevels {pc : Pc} (h : pc.atLevels = true) : pc.held = none := by
  cases pc with
  | flushing e fl => cases fl <;> first | rfl | simp [atLevels] at h
  | idle | logging | logged | reading | missed => rfl

theorem Pc.left_mono (pc : Pc) {m n : ℕ} (h : m ≤ n) : pc.left m ≤ pc.left n := by
  cases pc <;> simp only [Pc.left] <;> omega

namespace Process

section Work

variable [Fintype T] (f : Process T)

/-- The number of files that a search may find. -/
def files : ℕ := f.sys.levels.readOrder.length + ∑ t, (f.sys.pc t).publishes

/-- What a thread has left. -/
def left (t : T) : ℕ := (f.search t).elim ((f.sys.pc t).left f.files) fun p => p.length f.sys.fs + 1

/-- **The steps that are left**: those of the background thread count for more. -/
def work : ℕ ×ₗ ℕ :=
  toLex (f.background.stage, ∑ t, f.left t + f.background.left f.sys.fs)

variable {f}

theorem left_of_search {t : T} {p : FileProg (Res LsmError (Option Value))}
    (h : f.search t = some p) : f.left t = p.length f.sys.fs + 1 := by
  rw [left, h, Option.elim_some]

theorem left_of_none {t : T} (h : f.search t = none) :
    f.left t = (f.sys.pc t).left f.files := by rw [left, h, Option.elim_none]

end Work

/-- Nothing new: no call, no turn of the background thread, no crash. How many times the
bytes of a flush reach the file makes no difference. -/
def Act.Drains : Act T → Prop
  | thread (.call _ _) | thread (.write _ _) | wake | drop | crash _ => False
  | _ => True

end Process

/-- What a search has left to do. -/
theorem length_searchFilesProg_le (fs : Fs) (key : Key) (ps : List Path) :
    (searchFilesProg key ps).length fs ≤ ps.length := by
  induction ps with
  | nil => exact le_rfl
  | cons p ps ih =>
    rw [searchFilesProg, Prog.length, List.length_cons]
    refine Nat.succ_le_succ ?_
    split
    · exact Nat.zero_le _
    · split
      · exact Nat.zero_le _
      · exact Nat.zero_le _
      · exact ih

theorem length_searchProg_le (fs : Fs) (lm : LevelManager) (key : Key) :
    (searchProg lm key).length fs ≤ lm.readOrder.length := by
  rw [searchProg, Prog.length_bind]
  exact length_searchFilesProg_le fs key _

/-- A sum over threads when one of them moves. -/
theorem sum_update [Fintype T] [DecidableEq T] (g : Pc → ℕ) (pcs : T → Pc) (t : T) (pc : Pc) :
    ∑ t', g (Function.update pcs t pc t') + g (pcs t) = ∑ t', g (pcs t') + g pc := by
  have hrest : ∑ t' ∈ Finset.univ.erase t, g (Function.update pcs t pc t') =
      ∑ t' ∈ Finset.univ.erase t, g (pcs t') :=
    Finset.sum_congr rfl fun t' ht' => by rw [Function.update_of_ne (Finset.ne_of_mem_erase ht')]
  rw [← Finset.add_sum_erase _ _ (Finset.mem_univ t), hrest,
    ← Finset.add_sum_erase Finset.univ (fun t' => g (pcs t')) (Finset.mem_univ t),
    Function.update_self]
  omega

/-- **A section brings its thread nearer to its end**, and leaves no more files to come. -/
theorem Step.exists_left_lt [DecidableEq T] {s s' : Sys T} {a : Act T} (hs : Step cfg s a s')
    (ha : a.beside = true) (hdrains : (Process.Act.thread a).Drains) :
    ∃ t pc, s'.pc = Function.update s.pc t pc ∧ (∀ key, s.pc t ≠ .missed key) ∧
      s'.levels.readOrder.length + pc.publishes ≤
        s.levels.readOrder.length + (s.pc t).publishes ∧
      ∀ m n, m ≤ n → pc.left m < (s.pc t).left n := by
  cases hs with
  | call | write => exact hdrains.elim
  | search | compact | restart => simp [Act.beside] at ha
  | append h | insert h | fill h | name h | swap h | create h | finish h | rename h | truncate h
  | hit h | appendFails h | truncateFails h =>
    refine ⟨_, _, rfl, by simp [h], Nat.add_le_add_left (by simp [Pc.publishes, h]) _,
      fun m n hmn => by simp [Pc.left, Flush.left, h]⟩
  | miss h =>
    refine ⟨_, _, rfl, by simp [h], Nat.add_le_add_left (by simp [Pc.publishes, h]) _,
      fun m n hmn => ?_⟩
    rw [h, Pc.left, Pc.left]
    omega
  | @publish t e w h =>
    refine ⟨_, _, rfl, by simp [h], ?_, fun m n hmn => by simp [Pc.left, Flush.left, h]⟩
    rw [h, Sys.publish, LevelManager.readOrder_addL0File, Pc.publishes, Pc.publishes]
    exact le_rfl
  | @flushFails t e fl h hheld =>
    refine ⟨_, _, rfl, by simp [h], Nat.add_le_add_left (by simp [Pc.publishes, h]) _,
      fun m n hmn => ?_⟩
    rw [h]
    cases fl <;> simp [Pc.left, Flush.left]

namespace Process

section Work

variable [DecidableEq T] [Fintype T] {f f' : Process T} {s : Sys T}

/-- **A section of a thread** takes nothing from the others, and no file of theirs. -/
theorem Matches.work_thread (h : Matches cfg f s) (hh : s.Housed cfg) {a : Tabula.Act T}
    {s' : Sys T} (hbeside : a.beside = true) (hs : Tabula.Step cfg f.sys a s')
    (hdrains : (Act.thread a).Drains) : Process.work { f with sys := s' } < f.work := by
  obtain ⟨t, pc, hpcs, hmissed, hfiles, hleft⟩ := hs.exists_left_lt hbeside hdrains
  obtain ⟨e, hwithin, hfs, -⟩ := hs.exists_prog hbeside
  have hflush : f.sys.flushFiles = s.flushFiles := by rw [h.sys, Sys.flushFiles, Sys.flushFiles]
  rw [hflush] at hwithin
  have hfewer : files { f with sys := s' } ≤ f.files := by
    have hsum := sum_update Pc.publishes f.sys.pc t pc
    change s'.levels.readOrder.length + ∑ t', (s'.pc t').publishes ≤
      f.sys.levels.readOrder.length + ∑ t', (f.sys.pc t').publishes
    rw [hpcs]
    omega
  -- what the flush has written is no file of a search or of the compaction
  have hlength : ∀ {R : Type} {F : Set Path} {p : FileProg R}, p.Within F → s.flushFiles ⊆ Fᶜ →
      p.length s'.fs = p.length f.sys.fs := by
    intro R F p hp hsub
    refine hp.length_congr ?_
    have hsame := (hwithin.mono hsub).run_compl f.sys.fs
    rwa [compl_compl, ← hfs] at hsame
  have hidle : f.search t = none := by
    by_contra hsearch
    obtain ⟨p, hp⟩ := Option.ne_none_iff_exists'.mp hsearch
    obtain ⟨key, hkey, -⟩ := h.search t p hp
    exact hmissed key (h.pc_eq ▸ hkey)
  have hbackground : f.background.left s'.fs = f.background.left f.sys.fs := by
    cases hb : f.background with
    | compacting io cuts now p =>
      have hreach := (h.compacting io cuts now p hb).1
      exact hlength (hreach.within (LevelManager.within_compactProg ..)) (hh.flushFiles_subset now)
    | waiting | polling | due | exited | panicked => rfl
  have hsum : ∑ t', Process.left { f with sys := s' } t' < ∑ t', f.left t' := by
    refine Finset.sum_lt_sum (fun t' _ => ?_) ⟨t, Finset.mem_univ t, ?_⟩
    · change (f.search t').elim ((s'.pc t').left _) (fun p => p.length s'.fs + 1) ≤
        (f.search t').elim _ _
      cases hsearch : f.search t' with
      | some p =>
        obtain ⟨key, -, hreach⟩ := h.search t' p hsearch
        exact (congrArg (· + 1) (hlength (hreach.within (within_searchProg ..))
          hh.flushFiles_subset_readOrder)).le
      | none =>
        change (s'.pc t').left _ ≤ (f.sys.pc t').left _
        rw [hpcs]
        by_cases ht : t' = t
        · rw [ht, Function.update_self]
          exact (hleft _ _ hfewer).le
        · rw [Function.update_of_ne ht]
          exact Pc.left_mono _ hfewer
    · change (f.search t).elim ((s'.pc t).left _) _ < (f.search t).elim _ _
      rw [hidle, hpcs, Function.update_self]
      exact hleft _ _ hfewer
  refine Prod.Lex.toLex_lt_toLex.mpr (Or.inr ⟨rfl, ?_⟩)
  change _ + f.background.left s'.fs < _
  rw [hbackground]
  exact Nat.add_lt_add_right hsum _

/-- A search goes on, or begins, or ends: nothing else changes. -/
theorem work_searching {t : T} {rest : Option (FileProg (Res LsmError (Option Value)))}
    {g : Process T}
    (hg : g.search = Function.update f.search t rest) (hbackground : g.background = f.background)
    (hfs : g.sys.fs = f.sys.fs) (hfiles : g.files = f.files)
    (hpcs : ∀ t', t' ≠ t → g.sys.pc t' = f.sys.pc t') (hleft : g.left t < f.left t) :
    g.work < f.work := by
  refine Prod.Lex.toLex_lt_toLex.mpr (Or.inr ⟨congrArg Background.stage hbackground, ?_⟩)
  have hsum : ∑ t', g.left t' < ∑ t', f.left t' := by
    refine Finset.sum_lt_sum (fun t' _ => ?_) ⟨t, Finset.mem_univ t, hleft⟩
    by_cases ht : t' = t
    · exact ht ▸ hleft.le
    · rw [left, left, hg, Function.update_of_ne ht, hpcs t' ht, hfiles, hfs]
  change _ + g.background.left g.sys.fs < _
  rw [hbackground, hfs]
  exact Nat.add_lt_add_right hsum _

/-- **Every step takes something from the work that is left.** -/
theorem Matches.work_lt (h : Matches cfg f s) (hh : s.Housed cfg) {a : Act T} (hs : Step cfg f a f')
    (ha : a.Drains) : f'.work < f.work := by
  have hstage : ∀ {g : Process T}, g.background.stage < f.background.stage → g.work < f.work :=
    fun hlt => Prod.Lex.toLex_lt_toLex.mpr (Or.inl hlt)
  cases hs with
  | thread hadmits hs => exact h.work_thread hh hadmits.beside hs ha
  | @lock t key hpc hsearch hfree =>
    refine work_searching rfl rfl rfl rfl (fun _ _ => rfl) ?_
    have hlength := length_searchProg_le f.sys.fs f.sys.levels key
    rw [left_of_search (Function.update_self ..), left_of_none hsearch, hpc, Pc.left, files]
    change Prog.length _ f.sys.fs + 1 < _
    omega
  | @read t p q fs' hsearch hnext =>
    refine work_searching rfl rfl rfl rfl (fun _ _ => rfl) ?_
    obtain ⟨key, -, hreach⟩ := h.search t p hsearch
    have hsame : fs' = f.sys.fs := by
      rw [← h.quiet (h.not_writes hsearch)] at hreach
      exact (hreach.next hnext).of_readOnly (readOnly_searchProg _ _)
    have hlength := Prog.length_next hnext
    rw [left_of_search (Function.update_self ..), left_of_search hsearch]
    change q.length f.sys.fs + 1 < p.length f.sys.fs + 1
    rw [hsame] at hlength
    omega
  | @answer t key r hpc hsearch =>
    refine work_searching rfl rfl rfl ?_ (fun t' ht => Function.update_of_ne ht _ _) ?_
    · have hsum := sum_update Pc.publishes f.sys.pc t .idle
      rw [hpc] at hsum
      exact congrArg (f.sys.levels.readOrder.length + ·) hsum
    · rw [left_of_none (Function.update_self ..), left_of_search hsearch]
      change Pc.left _ (Function.update f.sys.pc t .idle t) < _
      rw [Function.update_self]
      exact Nat.succ_pos _
  | wake | drop | crash => exact ha.elim
  | check hb =>
    refine hstage ?_
    rw [hb]
    dsimp only
    split <;> decide
  | compact hb => exact hstage (by rw [hb]; exact Nat.lt_succ_self _)
  | @work io cuts now p q fs' hb hnext =>
    obtain ⟨-, -, hunread⟩ := h.compacting io cuts now p hb
    refine Prod.Lex.toLex_lt_toLex.mpr (Or.inr ⟨by rw [hb]; rfl, ?_⟩)
    have hleft : ∀ t, left { f with
        background := .compacting io cuts now q
        sys := { f.sys with fs := fs' } } t = f.left t := by
      intro t
      rw [left, left, hunread t]
      rfl
    rw [hb]
    change ∑ t, left _ t + q.length fs' < ∑ t, f.left t + p.length f.sys.fs
    have hlength := Prog.length_next hnext
    simp only [hleft]
    omega
  | @finish io cuts now res lm hb =>
    exact hstage (by rw [hb]; exact Background.stage_after_lt res)
  | exit hb => exact hstage (by rw [hb]; exact Nat.lt_succ_self _)

end Work

/-! ### Somebody can go on -/

/-- Every call is over, every lock is free, and the background thread sleeps or has come to
its end. -/
structure Quiet (f : Process T) : Prop where
  ended : ∀ t, f.Over t
  unlocked : f.sys.lock = none
  unread : f.Unread
  background : f.background = .waiting ∧ f.shutdown = false ∨ f.background = .exited ∨
    f.background.Poisons

/-- Who is done with a call does not hold the WAL lock. -/
theorem Over.held_eq_none {f : Process T} {t : T} (h : f.Over t) : (f.sys.pc t).held = none := by
  rcases h with hpc | ⟨-, hpc⟩
  · rw [hpc]
    rfl
  · exact Pc.held_of_atLevels hpc

/-- A step that brings the process nearer to its end, with a path of its own. -/
def Draining [DecidableEq T] (cfg : Config) : Process T → Act T → Process T → Prop :=
  Runs.Guarded (Step cfg) fun f a => f.Distinct cfg a ∧ a.Drains

section Stuck

variable [DecidableEq T] {f : Process T} {s : Sys T}

/-- There is a path that no file of L1 has. -/
theorem exists_l1Name_notMem (dir : List Char) (ps : List Path) :
    ∃ now, ⟨dir, FileName.l1Name now⟩ ∉ ps := by
  have hinj : Function.Injective fun now => (⟨dir, FileName.l1Name now⟩ : Path) := fun a b hab =>
    FileName.l1Name_inj (Path.mk.inj hab).2
  obtain ⟨p, ⟨now, rfl⟩, hnot⟩ :=
    (Set.infinite_range_of_injective hinj).exists_notMem_finset ps.toFinset
  exact ⟨now, fun hin => hnot (List.mem_toFinset.mpr hin)⟩

/-- A compaction that holds the levels lock can go on. -/
theorem not_writes_of_stuck (h : Runs.Stuck (Draining cfg) f) : ¬f.background.Writes := by
  intro hwrites
  cases hb : f.background with
  | compacting io cuts now p =>
    cases hnext : p.next f.sys.fs with
    | some next => exact h _ _ ⟨.work hb hnext, trivial, trivial⟩
    | none =>
      obtain ⟨⟨res, lm⟩, rfl⟩ := Prog.eq_ret_of_next hnext
      exact h _ _ ⟨.finish hb, trivial, trivial⟩
  | waiting | polling | due | exited | panicked =>
    rw [hb] at hwrites
    exact hwrites

/-- So can a search. -/
theorem unread_of_stuck (h : Runs.Stuck (Draining cfg) f) (hm : Matches cfg f s) : f.Unread := by
  intro t
  cases hsearch : f.search t with
  | none => rfl
  | some p =>
    cases hnext : p.next f.sys.fs with
    | some next => exact (h _ _ ⟨.read hsearch hnext, trivial, trivial⟩).elim
    | none =>
      obtain ⟨r, rfl⟩ := Prog.eq_ret_of_next hnext
      obtain ⟨key, hpc, -⟩ := hm.search t _ hsearch
      exact (h _ _ ⟨.answer (hm.pc_eq ▸ hpc) hsearch, trivial, trivial⟩).elim

/-- The call of a thread that is stuck is over, or it is in front of the WAL lock. -/
theorem pc_of_stuck (h : Runs.Stuck (Draining cfg) f) (hm : Matches cfg f s) (t : T) :
    f.Over t ∨
      (f.sys.lock ≠ none ∧ ((∃ e, f.sys.pc t = .logging e) ∨
        ∃ e p, f.sys.pc t = .flushing e (.named p))) := by
  have hthread : ∀ {a s'}, Tabula.Step cfg f.sys a s' → f.Admits a → (Act.thread a).Drains →
      ¬f.sys.Distinct cfg a := fun hs hadmits hdrains hd =>
    h _ _ ⟨.thread hadmits hs, hd, hdrains⟩
  have hfree := not_writes_of_stuck h
  have hunread := unread_of_stuck h hm
  cases hpc : f.sys.pc t with
  | idle => exact Or.inl (Or.inl hpc)
  | logging e =>
    refine Or.inr ⟨fun hlock => ?_, Or.inl ⟨e, rfl⟩⟩
    exact hthread (.append hpc hlock) trivial trivial trivial
  | logged e =>
    rcases lt_or_ge (f.sys.mem.apply e).sizeBytes cfg.threshold with hsize | hsize
    · exact (hthread (.insert hpc hsize) trivial trivial trivial).elim
    · exact (hthread (.fill hpc hsize) trivial trivial trivial).elim
  | reading key =>
    cases hget : f.sys.mem.get key with
    | some value => exact (hthread (.hit hpc hget) trivial trivial trivial).elim
    | none => exact (hthread (.miss hpc hget) trivial trivial trivial).elim
  | missed key =>
    by_cases hsound : f.background.Poisons
    · exact Or.inl (Or.inr ⟨hsound, by rw [hpc]; rfl⟩)
    · exact (h _ _ ⟨.lock hpc (hunread t) hfree hsound, trivial, trivial⟩).elim
  | flushing e fl =>
    cases fl with
    | start =>
      obtain ⟨now, hnew⟩ := Infinite.exists_notMem_finset
        ((Sys.clocks f.sys.hist).map Prod.snd).toFinset
      have hnew : now ∉ (Sys.clocks f.sys.hist).map Prod.snd := fun hin =>
        hnew (List.mem_toFinset.mpr hin)
      exact (hthread (a := .name t now) (.name hpc) trivial trivial hnew).elim
    | named p =>
      refine Or.inr ⟨fun hlock => ?_, Or.inr ⟨e, p, rfl⟩⟩
      exact hthread (.swap hpc hlock) trivial trivial trivial
    | swapped w => exact (hthread (.create hpc) trivial trivial trivial).elim
    | writing w =>
      obtain ⟨bytes, hbytes⟩ := w.old.exists_flushBytes cfg.sizing
      rcases lt_or_ge bytes.length (2 ^ 63) with hlen | hlen
      · exact (hthread (.finish hpc hbytes hlen) trivial trivial trivial).elim
      · exact (hthread (.flushFails hpc (by simp)) trivial trivial trivial).elim
    | written w => exact (hthread (.rename hpc) trivial trivial trivial).elim
    | renamed w => exact (hthread (.truncate hpc) trivial trivial trivial).elim
    | truncated w =>
      by_cases hsound : f.background.Poisons
      · exact Or.inl (Or.inr ⟨hsound, by rw [hpc]; rfl⟩)
      · exact (hthread (.publish hpc) ⟨hunread, hfree, hsound⟩ trivial trivial).elim

/-- **No deadlock**: when nobody can go on, everybody has come to the end. -/
theorem quiet_of_stuck (h : Runs.Stuck (Draining cfg) f) (hm : Matches cfg f s)
    (hlocked : s.Locked) : f.Quiet := by
  have hfree := not_writes_of_stuck h
  have hunread := unread_of_stuck h hm
  have hlock : f.sys.lock = none := by
    by_contra hlock
    obtain ⟨t, ht⟩ := Option.ne_none_iff_exists'.mp hlock
    have hheld : (s.pc t).held ≠ none := (hlocked t).mpr (by rw [← ht, hm.sys])
    rw [← hm.pc_eq] at hheld
    -- who holds the lock is not in front of it
    rcases pc_of_stuck h hm t with hover | ⟨-, ⟨e, hpc⟩ | ⟨e, p, hpc⟩⟩
    · exact hheld hover.held_eq_none
    all_goals simp [hpc] at hheld
  refine ⟨fun t => (pc_of_stuck h hm t).resolve_right fun hwait => hwait.1 hlock, hlock,
    hunread, ?_⟩
  cases hb : f.background with
  | waiting =>
    cases hdrop : f.shutdown with
    | false => exact Or.inl ⟨rfl, rfl⟩
    | true => exact (h _ _ ⟨.exit hb hdrop, trivial, trivial⟩).elim
  | polling => exact (h _ _ ⟨.check hb, trivial, trivial⟩).elim
  | due =>
    obtain ⟨now, hnew⟩ := exists_l1Name_notMem cfg.dir f.sys.levels.l1
    exact (h (.compact .whole [] now) _ ⟨.compact hb hunread, hnew, trivial⟩).elim
  | compacting => exact absurd (Background.writes_of_eq hb) hfree
  | exited => exact Or.inr (Or.inl rfl)
  | panicked => exact Or.inr (Or.inr rfl)

end Stuck

variable [DecidableEq T] [Fintype T] {f : Process T}

/-- **Every call comes to its end**: from any state, without new calls and new turns of the
background thread, the threads cannot go on for ever, in whatever order they run, and they
do not stop before every call is over, every lock is free and a background thread that has
been told to stop has come to its end. -/
theorem drains_of_run {as : List (Act T)}
    (hrun : Runs.Run (Runs.Guarded (Step cfg) fun f a => f.Distinct cfg a) init as f) :
    ¬Runs.Diverges (Draining cfg) f ∧
      ∀ bs f', Runs.Run (Draining cfg) f bs f' → Runs.Stuck (Draining cfg) f' → f'.Quiet := by
  let Reachable (f : Process T) : Prop :=
    ∃ as, Runs.Run (Runs.Guarded (Step cfg) fun f a => f.Distinct cfg a) init as f
  have hreach : ∀ f a f', Reachable f → Draining cfg f a f' → Reachable f' := by
    rintro f a f' ⟨as, hrun⟩ ⟨hs, hd, -⟩
    exact ⟨_, hrun.snoc ⟨hs, hd⟩⟩
  constructor
  · refine Runs.not_diverges_of_measure (fun f : Process T => f.work) hreach ?_ ⟨as, hrun⟩
    rintro f a f' ⟨as, hrun⟩ ⟨hs, -, hdrains⟩
    obtain ⟨bs, s, hrun', -, hm⟩ := matches_of_run hrun
    exact hm.work_lt (.of_run hrun') hs hdrains
  · intro bs f' hbs hstuck
    obtain ⟨as', hrun'⟩ := hbs.invariant (I := Reachable) ⟨as, hrun⟩ hreach
    obtain ⟨_, s, hrun'', -, hm⟩ := matches_of_run hrun'
    exact quiet_of_stuck hstuck hm (Sys.Housed.of_run hrun'').locked

/-- One thread is in a flush, another waits for the WAL lock, and a compaction is on its way. -/
theorem drains_of_run_waiting : ∃ f : Process Bool,
    (f.sys.lock = some false ∧ f.sys.pc true = .logging (.put [9] [9]) ∧ f.background.Writes) ∧
      ¬Runs.Diverges (Draining (.ofThreshold 1)) f ∧ ∀ bs f',
        Runs.Run (Draining (.ofThreshold 1)) f bs f' → Runs.Stuck (Draining (.ofThreshold 1)) f' →
          f'.Quiet := by
  obtain ⟨f, hrun, hf⟩ := exists_of_nexts (T := Bool) (.ofThreshold 1)
    (Act.flush false 1 1 ++ Act.flush false 2 2 ++ Act.flush false 3 3 ++ Act.flush false 4 4 ++
      (Act.flush false 5 5).take 6 ++ [.wake, .check, .compact .whole [] 6, .work] ++
      [.thread (.call true (.write (.put [9] [9])))])
    (fun f => f.sys.lock = some false ∧ f.sys.pc true = .logging (.put [9] [9]) ∧
      f.background.Writes)
    (by decide +kernel)
  exact ⟨f, hf, drains_of_run hrun⟩

end Process

end Tabula
