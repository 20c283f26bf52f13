import Tabula.Lsm.DurableWrites
import Tabula.Lsm.InsertOrder
import Tabula.Lsm.RestartOrder
import Tabula.Lsm.Tended

/-!
# Any number of clients, and crashes

Whatever the process is doing when it dies, the log and the files say what has been
written, if its threads keep to an order (`Tabula.Sys.Disciplined`). The map that is
recovered takes all writes whose append has completed, in the order of their appends.

The log is what the MemTable says and what is on its way there, as in
`Tabula.Sys.Matched`. A flush changes both: it drops the MemTable when it swaps it out, and
the log when its file is there. When no write stands between the two at the swap, the flush
holds exactly what the log says, until it has truncated it (`Tabula.Sys.Balanced`).

The files come in the order of their names, and those of later flushes hide those of
earlier ones. A flush holds the WAL lock from its swap to its truncate, so that there is one
at a time that has a file to rename, and all those before it have theirs in the directory.
Their files are behind those of L0, in the order of their names (`Tabula.Sys.Lined`), until
they are added to it. A compaction takes L0 away from below them. What is recovered from the
log and all these files does not change by any of this (`Tabula.Sys.Recovers`).
-/

namespace Tabula

open SortedTable

variable {T : Type} [DecidableEq T] {cfg : Config}

namespace Sys

variable {s s' : Sys T} {a : Act T}

/-! ### The log and the MemTables -/

/-- **The log is the MemTable and the writes on their way to it**, or it is what a flush has
swapped out, and then there is nothing else. -/
structure Balanced (s : Sys T) : Prop where
  pc : ∀ t e, (t, e) ∈ waiting s.hist ↔ s.pc t = .logged e
  nodup : ((waiting s.hist).map Prod.fst).Nodup
  free : s.lock = none → MemTable.new.applyAll (log s.hist) =
    s.mem.applyAll ((waiting s.hist).map Prod.snd)
  held : ∀ t w, (s.pc t).held = some w →
    w.old = MemTable.new.applyAll (log s.hist) ∧ s.mem = .new ∧ waiting s.hist = []

/-- Only appends, inserts and restarts change what is waiting. -/
theorem waiting_of_moves (hs : Step cfg s a s') (happend : ∀ t, a ≠ .append t)
    (hinsert : ∀ t, a ≠ .insert t) (hrestart : ∀ listing, a ≠ .restart listing) :
    waiting s'.hist = waiting s.hist := by
  cases hs with
  | append => exact absurd rfl (happend _)
  | insert | fill => exact absurd rfl (hinsert _)
  | restart => exact absurd rfl (hrestart _)
  | create | write | finish | rename | miss => rfl
  | call | name | swap | truncate | publish | hit | search | compact | appendFails | flushFails
  | truncateFails => exact (waiting_append _ _).trans rfl

namespace Balanced

theorem init : Balanced (Sys.init : Sys T) where
  pc := by simp [waiting, Sys.init]
  nodup := List.nodup_nil
  free _ := rfl
  held := by simp [Sys.init]

theorem matched (h : s.Balanced) (hlock : s.lock = none) : s.Matched :=
  ⟨h.pc, h.nodup, h.free hlock⟩

theorem of_matched (h : s.Matched) (hheld : ∀ t, (s.pc t).held = none) : s.Balanced :=
  ⟨h.pc, h.nodup, fun _ => h.replay, fun t w hw =>
    absurd ((hheld t).symm.trans hw).symm (Option.some_ne_none w)⟩

/-- Where nobody is on the way to the MemTable, nothing is waiting. -/
theorem waiting_eq_nil (h : s.Balanced) (hpc : ∀ t e, s.pc t ≠ .logged e) :
    waiting s.hist = [] :=
  List.eq_nil_iff_forall_not_mem.mpr fun w hw => hpc w.1 w.2 ((h.pc w.1 w.2).mp hw)

/-- While a flush holds the lock, nobody is on the way to the MemTable. -/
theorem lock_eq_none (h : s.Balanced) (hlocked : s.Locked) {t : T} {e : WalEntry}
    (hpc : s.pc t = .logged e) : s.lock = none := by
  by_contra hlock
  obtain ⟨t', ht'⟩ := Option.ne_none_iff_exists'.mp hlock
  obtain ⟨w, hw⟩ := Option.ne_none_iff_exists'.mp ((hlocked t').mpr ht')
  have hm := (h.pc t e).mpr hpc
  rw [(h.held t' w hw).2.2] at hm
  exact absurd hm List.not_mem_nil

/-- A thread moves that has no write waiting, neither before nor after, and keeps the lock if it
has it. -/
theorem moved (h : s.Balanced) {t : T} {pc : Pc} (hpc : ∀ e, s.pc t ≠ .logged e)
    (hpc' : ∀ e, pc ≠ .logged e) (hheld : pc.held = (s.pc t).held)
    (hpcs : s'.pc = Function.update s.pc t pc) (hwaiting : waiting s'.hist = waiting s.hist)
    (hlog : log s'.hist = log s.hist) (hmem : s'.mem = s.mem) (hlock : s'.lock = s.lock) :
    s'.Balanced := by
  refine ⟨fun t' e => ?_, by rw [hwaiting]; exact h.nodup, ?_, ?_⟩
  · rw [hwaiting, hpcs, h.pc]
    by_cases ht : t' = t
    · subst ht
      rw [Function.update_self]
      exact iff_of_false (hpc e) (hpc' e)
    · rw [Function.update_of_ne ht]
  · rw [hlock, hlog, hmem, hwaiting]
    exact h.free
  · rw [hpcs, hlog, hmem, hwaiting]
    refine forall_goto (s := s) (P := fun _ x => ∀ w, Pc.held x = some w →
      w.old = MemTable.new.applyAll (log s.hist) ∧ s.mem = .new ∧ waiting s.hist = []) ?_
      fun t' _ => h.held t'
    rw [hheld]
    exact h.held t

/-- The MemTable is swapped out. -/
theorem swap (h : s.Balanced) (hlocked : s.Locked) {t : T} {e : WalEntry} {p : Path}
    (hpc : s.pc t = .flushing e (.named p)) (hlock : s.lock = none)
    (hsettled : ∀ t, (s.pc t).isLogged = false) : (s.swap t e p).Balanced := by
  have hnone : waiting s.hist = [] := h.waiting_eq_nil fun t' e' ht' => by
    have hfalse := hsettled t'
    rw [ht'] at hfalse
    exact Bool.noConfusion hfalse
  have hwaiting : waiting (s.swap t e p).hist = waiting s.hist := (waiting_append _ _).trans rfl
  have hlog : log (s.swap t e p).hist = log s.hist := log_append _ _
  have hfree := h.free hlock
  refine ⟨fun t' e' => ?_, by rw [hwaiting]; exact h.nodup, fun hfree' => ?_, ?_⟩
  · rw [hwaiting, h.pc]
    by_cases ht : t' = t
    · subst ht
      have hself : (s.swap t' e p).pc t' = .flushing e (.swapped ⟨p, s.mem, swaps s.hist⟩) :=
        Function.update_self ..
      rw [hpc, hself]
      simp
    · rw [show (s.swap t e p).pc t' = s.pc t' from Function.update_of_ne ht _ _]
  · exact absurd hfree' (Option.some_ne_none t)
  · rw [hlog, hwaiting, hnone]
    refine hlocked.held_goto hlock (P := fun w => w.old = _ ∧ _ = MemTable.new ∧ _) ?_
    rintro w hw
    obtain rfl := Option.some.inj hw
    refine ⟨?_, rfl, rfl⟩
    rw [hfree, hnone]
    rfl

/-- A write gets into the MemTable, without passing another one of its key. -/
theorem inserted (h : s.Balanced) (hlocked : s.Locked) (hlocked' : s'.Locked) {t : T}
    {e : WalEntry} {pc : Pc} (hpc : s.pc t = .logged e) (hpc' : ∀ e, pc ≠ .logged e)
    (hturn : s.KeepsTurn (.insert t)) (hpcs : s'.pc = Function.update s.pc t pc)
    (hwaiting : waiting s'.hist = (waiting s.hist).filter fun w => w.1 ≠ t)
    (hlog : log s'.hist = log s.hist) (hmem : s'.mem = s.mem.apply e)
    (hlock' : s'.lock = s.lock) : s'.Balanced := by
  have hlock := h.lock_eq_none hlocked hpc
  have horder : ∀ w ∈ (waiting s.hist).takeWhile (fun w => w.1 ≠ t),
      w.2.key = e.key → w.2.raw = e.raw := hturn e (by simp [hpc])
  exact of_matched ((h.matched hlock).inserted hpc hpc' horder hpcs hwaiting hlog hmem)
    (hlocked'.held_eq_none (hlock'.trans hlock))

/-- The log is truncated: nothing is left of what it said but the file. -/
theorem truncate (h : s.Balanced) {t : T} {e : WalEntry} {w : Swapped}
    (hlocked' : (s.truncate t e w).Locked) (hpc : s.pc t = .flushing e (.renamed w)) :
    (s.truncate t e w).Balanced := by
  obtain ⟨-, hmem, hnone⟩ := h.held t w (by simp [hpc])
  have hwaiting : waiting (s.truncate t e w).hist = [] := (waiting_append _ _).trans hnone
  have hlog : log (s.truncate t e w).hist = [] := log_append _ _
  refine of_matched ⟨fun t' e' => ?_, ?_, ?_⟩ (hlocked'.held_eq_none rfl)
  · rw [hwaiting, ← hnone, h.pc]
    by_cases ht : t' = t
    · subst ht
      have hself : (s.truncate t' e w).pc t' = .flushing e (.truncated w) :=
        Function.update_self ..
      rw [hpc, hself]
      simp
    · rw [show (s.truncate t e w).pc t' = s.pc t' from Function.update_of_ne ht _ _]
  · rw [hwaiting]
    exact List.nodup_nil
  · rw [hwaiting, hlog, show (s.truncate t e w).mem = .new from hmem]
    rfl

/-- The MemTable is rebuilt from the log. -/
theorem restart (h : s.Logged) (hshort : ∀ e ∈ log s.hist, e.IsShort)
    {listing : List Path} {mem : MemTable} {levels : LevelManager}
    (hopen : Lsm.open (some s.wal) listing = .ok (mem, levels)) :
    (s.restart mem levels).Balanced := by
  obtain ⟨es, hreplay, rfl, -⟩ := Lsm.open_eq_ok.mp hopen
  rw [h, Wal.replay_encodeAll hshort] at hreplay
  obtain rfl := Except.ok.inj hreplay
  have hwaiting : waiting (s.restart (MemTable.new.applyAll (log s.hist)) levels).hist = [] :=
    waiting_append _ _
  have hlog : log (s.restart (MemTable.new.applyAll (log s.hist)) levels).hist = log s.hist :=
    log_append _ _
  refine of_matched ⟨fun t e => ?_, ?_, ?_⟩ fun _ => rfl
  · rw [hwaiting]
    simp [Sys.restart]
  · rw [hwaiting]
    exact List.nodup_nil
  · rw [hwaiting, hlog]
    rfl

/-- A compaction has nothing to do with the log. -/
theorem compact (h : s.Balanced) {io : CompactIo} {now : ℕ} : (s.compact cfg io now).Balanced := by
  have hwaiting : waiting (s.compact cfg io now).hist = waiting s.hist :=
    (waiting_append _ _).trans rfl
  have hlog : log (s.compact cfg io now).hist = log s.hist := log_append _ _
  exact ⟨by rw [hwaiting]; exact h.pc, by rw [hwaiting]; exact h.nodup,
    by rw [hwaiting, hlog]; exact h.free, by rw [hwaiting, hlog]; exact h.held⟩

/-- **One step**, but for compactions. -/
theorem step (h : s.Balanced) (hlocked : s.Locked) (hlogged : s.Logged)
    (hshort : ∀ e ∈ log s.hist, e.IsShort) (hs : Step cfg s a s') (hlives : a.Lives)
    (hsettles : s.Settles a) (hturn : s.KeepsTurn a) : s'.Balanced := by
  have hlocked' := hlocked.step hs
  have hwhole : a.Whole := by
    cases a with
    | appendFails => exact hlives.elim
    | _ => trivial
  have hlog := fun happend htruncate => (log_step_whole hs hwhole happend htruncate).1
  have hwaiting := waiting_of_moves hs
  cases hs with
  | @call t op hpc =>
    refine h.moved (by simp [hpc]) (by cases op <;> simp [Op.begin]) ?_ rfl
      (hwaiting (by simp) (by simp) (by simp)) (hlog (by simp) (by simp)) rfl rfl
    rw [hpc]
    cases op <;> rfl
  | append hpc hlock =>
    exact of_matched ((h.matched hlock).append hpc) (hlocked'.held_eq_none hlock)
  | @insert t e hpc | @fill t e hpc =>
    exact h.inserted hlocked hlocked' hpc (by simp) hturn rfl (waiting_append _ _)
      (hlog (by simp) (by simp)) rfl rfl
  | swap hpc hlock => exact h.swap hlocked hpc hlock hsettles
  | truncate hpc => exact h.truncate hlocked' hpc
  | name hpc | create hpc | write hpc | finish hpc | rename hpc | publish hpc | hit hpc | miss hpc
  | search hpc =>
    exact h.moved (by simp [hpc]) (by simp) (by simp [hpc]) rfl
      (hwaiting (by simp) (by simp) (by simp)) (hlog (by simp) (by simp)) rfl rfl
  | restart hl hopen => exact restart hlogged hshort hopen
  | compact | appendFails | flushFails | truncateFails => exact hlives.elim

end Balanced

/-! ### The files of flushes -/

omit [DecidableEq T] in
/-- What is searched before the files of L0. -/
theorem find_append (fs : Fs) (l0 landed l1 : List Path) (k : Key) :
    (⟨[l0 ++ landed, l1]⟩ : LevelManager).find fs k =
      (firstHit (landed.reverse.map fs.records) k).or
        ((⟨[l0, l1]⟩ : LevelManager).find fs k) := by
  have horder : (⟨[l0 ++ landed, l1]⟩ : LevelManager).readOrder =
      landed.reverse ++ (⟨[l0, l1]⟩ : LevelManager).readOrder := by
    rw [LevelManager.readOrder, LevelManager.readOrder, LevelManager.l0_mk, LevelManager.l0_mk,
      List.reverse_append, List.append_assoc]
    rfl
  rw [LevelManager.find, horder, List.map_append, firstHit_append]
  rfl

/-- **The files of flushes come in the order of their names**: first those of L0, then those
that flushes have renamed and not added to it, then those that flushes will rename. -/
structure Lined (cfg : Config) (s : Sys T) (landed : List Path) : Prop where
  shelves : cfg.Shelves s.fs (s.levels.l0 ++ landed) s.levels.l1
  landed : ∀ p, p ∈ landed ↔ ∃ t, p ∈ (s.pc t).landed
  below : ∀ p ∈ s.levels.l0, ∀ t q, (s.pc t).path = some q → p.name < q.name
  held : ∀ t w, (s.pc t).held = some w → ∀ t' w', (s.pc t').out = some w' → t' ≠ t →
    w'.path.name < w.path.name
  queue : ∀ t q, (s.pc t).queued = some q → ∀ t' w, (s.pc t').out = some w →
    w.path.name < q.name

/-- **A flush adds its file to L0 before those with later names.** -/
def PublishesInTurn (s : Sys T) : Act T → Prop
  | .publish t => ∀ w ∈ (s.pc t).out, ∀ t', t' ≠ t → ∀ w' ∈ (s.pc t').out,
      w.path.name < w'.path.name
  | _ => True

instance [Fintype T] (s : Sys T) : (a : Act T) → Decidable (s.PublishesInTurn a)
  | .publish t => inferInstanceAs (Decidable (∀ w ∈ (s.pc t).out, ∀ t', t' ≠ t →
      ∀ w' ∈ (s.pc t').out, w.path.name < w'.path.name))
  | .call _ _ | .append _ | .insert _ | .name _ _ | .swap _ | .create _ | .write _ _ | .finish _
  | .rename _ | .truncate _ | .look _ | .search _ | .compact _ _ | .restart _ | .appendFails _ _
  | .flushFails _ | .truncateFails _ => .isTrue trivial

end Sys

/-- The path of a flush is one it waits with, or that of what it has swapped out. -/
theorem Pc.queued_or_out {pc : Pc} {p : Path} (h : pc.path = some p) :
    pc.queued = some p ∨ ∃ w, pc.out = some w ∧ w.path = p := by
  cases pc with
  | flushing e f =>
    cases f with
    | start => simp at h
    | named q => exact Or.inl h
    | swapped w | writing w | written w | renamed w | truncated w =>
      exact Or.inr ⟨w, rfl, Option.some.inj h⟩
  | _ => simp at h

/-- A file that has landed is that of what was swapped out. -/
theorem Pc.exists_out_of_landed {pc : Pc} {p : Path} (h : p ∈ pc.landed) :
    ∃ w, pc.out = some w ∧ w.path = p := by
  cases pc with
  | flushing e f =>
    cases f with
    | renamed w | truncated w => exact ⟨w, rfl, (List.mem_singleton.mp h).symm⟩
    | _ => simp at h
  | _ => simp at h

/-- **What is left of the files there are** after an output has been written and some files of the
lists have been deleted. -/
theorem Config.Shelves.remains {fs fs' : Fs} {l0 landed l1 : List Path} {now : ℕ}
    (h : cfg.Shelves fs (l0 ++ landed) l1) (hout : fs' ⟨cfg.dir, FileName.l1Name now⟩ ≠ none)
    (hold : ∀ p : Path, p.NamedSst → p ≠ ⟨cfg.dir, FileName.l1Name now⟩ → fs' p ≠ none →
      fs p ≠ none)
    (hlanded : ∀ p ∈ landed, fs' p ≠ none)
    (hclock : ∀ n, ⟨cfg.dir, FileName.l1Name n⟩ ∈ l1 → n < now ∧ FileName.SameDigits n now) :
    cfg.Shelves fs' (l0.filter (fun p => (fs' p).isSome) ++ landed)
      (l1.filter (fun p => (fs' p).isSome) ++ [⟨cfg.dir, FileName.l1Name now⟩]) := by
  refine ⟨h.sorted0.sublist (List.filter_sublist.append (List.Sublist.refl _)), ?_,
    fun p => ⟨fun hp => ?_, ?_⟩, fun p => ⟨fun hp => ?_, ?_⟩⟩
  · rw [NameSorted, List.pairwise_append]
    refine ⟨h.sorted1.sublist List.filter_sublist, List.pairwise_singleton _ _, fun p hm q hq => ?_⟩
    rw [List.mem_singleton.mp hq]
    have hl1 := (List.mem_filter.mp hm).1
    obtain ⟨-, n, rfl⟩ := (h.mem1 p).mp hl1
    obtain ⟨hlt, hdigits⟩ := hclock n hl1
    exact FileName.l1Name_lt hdigits hlt
  · rcases List.mem_append.mp hp with hp | hp
    · obtain ⟨hp, hsome⟩ := List.mem_filter.mp hp
      exact ⟨Option.isSome_iff_ne_none.mp hsome,
        ((h.mem0 p).mp (List.mem_append_left _ hp)).2⟩
    · exact ⟨hlanded p hp, ((h.mem0 p).mp (List.mem_append_right _ hp)).2⟩
  · rintro ⟨hne, n, rfl⟩
    have hp := (h.mem0 _).mpr ⟨hold _ (cfg.named_nextSstablePath n)
      (cfg.nextSstablePath_ne_l1 n now _) hne, n, rfl⟩
    exact List.mem_append.mpr ((List.mem_append.mp hp).imp_left fun hp =>
      List.mem_filter.mpr ⟨hp, Option.isSome_iff_ne_none.mpr hne⟩)
  · rcases List.mem_append.mp hp with hp | hp
    · obtain ⟨hp, hsome⟩ := List.mem_filter.mp hp
      exact ⟨Option.isSome_iff_ne_none.mp hsome, ((h.mem1 p).mp hp).2⟩
    · obtain rfl := List.mem_singleton.mp hp
      exact ⟨hout, now, rfl⟩
  · rintro ⟨hne, n, rfl⟩
    by_cases hpo : (⟨cfg.dir, FileName.l1Name n⟩ : Path) = ⟨cfg.dir, FileName.l1Name now⟩
    · exact List.mem_append_right _ (List.mem_singleton.mpr hpo)
    · have hl1 := (h.mem1 _).mpr ⟨hold _ (cfg.named_l1 n) hpo hne, n, rfl⟩
      exact List.mem_append_left _ (List.mem_filter.mpr
        ⟨hl1, Option.isSome_iff_ne_none.mpr hne⟩)

/-- **What a compaction leaves of the files there are**: those of flushes that are not in L0, and
what it has not merged of L1, with its output at the end. -/
theorem Config.Shelves.swept {fs fs' : Fs} {lm lm' : LevelManager} {landed : List Path}
    {now : ℕ} {oldest : Path} (h : cfg.Shelves fs (lm.l0 ++ landed) lm.l1)
    (hswept : LevelManager.Swept now fs lm oldest lm' fs')
    (houtput : LevelManager.outputPath now oldest = ⟨cfg.dir, FileName.l1Name now⟩)
    (hclock : ∀ n, ⟨cfg.dir, FileName.l1Name n⟩ ∈ lm.l1 → n < now ∧ FileName.SameDigits n now) :
    cfg.Shelves fs' landed (lm.untouched fs ++ [⟨cfg.dir, FileName.l1Name now⟩]) := by
  have hout := hswept.output
  have hkept := hswept.kept
  rw [houtput] at hout hkept
  have hl0 : lm.l0.filter (fun p => (fs' p).isSome) = [] :=
    List.filter_eq_nil_iff.mpr fun p hp hsome => by
      rw [hswept.gone p (List.mem_append_left _ hp)] at hsome
      exact absurd hsome (by simp)
  have hl1 : lm.l1.filter (fun p => (fs' p).isSome) = lm.untouched fs := by
    refine List.filter_congr fun p hp => ?_
    cases hmeets : lm.meetsL0 fs p with
    | true =>
      rw [hswept.gone p (List.mem_append_right _ (List.mem_filter.mpr ⟨hp, hmeets⟩))]
      rfl
    | false =>
      -- it is neither the output nor merged
      obtain ⟨hne, n, rfl⟩ := (h.mem1 p).mp hp
      rw [hkept _ (cfg.named_l1 n)]
      · exact Option.isSome_iff_ne_none.mpr hne
      · intro he
        rw [he] at hp
        exact lt_irrefl _ (hclock now hp).1
      · intro hin
        rcases List.mem_append.mp hin with hin | hin
        · obtain ⟨-, m, hm⟩ := (h.mem0 _).mp (List.mem_append_left _ hin)
          exact cfg.nextSstablePath_ne_l1 m n _ hm.symm
        · exact absurd (hmeets.symm.trans (List.mem_filter.mp hin).2) Bool.false_ne_true
  have hshelves := h.remains hout (fun p hp hne hpresent => ?_) (fun p hp => ?_) hclock
  · rwa [hl0, hl1] at hshelves
  · have hin : p ∉ lm.inputs fs := fun hin => hpresent (hswept.gone p hin)
    rwa [hkept p hp hne hin] at hpresent
  · obtain ⟨hne, n, rfl⟩ := (h.mem0 p).mp (List.mem_append_right _ hp)
    rw [hkept _ (cfg.named_nextSstablePath n) (cfg.nextSstablePath_ne_l1 n now _)]
    · exact hne
    · intro hin
      rcases List.mem_append.mp hin with hin | hin
      · exact (List.nodup_append.mp h.sorted0.nodup).2.2 _ hin _ hp rfl
      · obtain ⟨-, m, hm⟩ := (h.mem1 _).mp (LevelManager.mem_of_overlapping hin)
        exact cfg.nextSstablePath_ne_l1 n m _ hm

namespace Sys.Lined

variable {s s' : Sys T} {a : Act T} {landed landed' : List Path}

omit [DecidableEq T] in
theorem init : Lined cfg (Sys.init : Sys T) [] where
  shelves := ⟨List.Pairwise.nil, List.Pairwise.nil, by simp [Sys.init, LevelManager.l0],
    by simp [Sys.init, LevelManager.l1]⟩
  landed := by simp [Sys.init]
  below := by simp [Sys.init]
  held := by simp [Sys.init]
  queue := by simp [Sys.init]

omit [DecidableEq T] in
/-- No file is behind L0 when no flush has renamed one. -/
theorem eq_nil (h : Lined cfg s landed) (hnone : ∀ t, (s.pc t).landed = []) : landed = [] :=
  List.eq_nil_iff_forall_not_mem.mpr fun p hp => by
    obtain ⟨t, ht⟩ := (h.landed p).mp hp
    rw [hnone t] at ht
    exact List.not_mem_nil ht

omit [DecidableEq T] in
/-- What is swapped out is the same, and no flush has a new path. -/
theorem of_pcs (h : Lined cfg s landed)
    (hshelves : cfg.Shelves s'.fs (s'.levels.l0 ++ landed') s'.levels.l1)
    (hlanded : ∀ p, p ∈ landed' ↔ ∃ t, p ∈ (s'.pc t).landed)
    (hl0 : ∀ p ∈ s'.levels.l0, p ∈ s.levels.l0) (hout : ∀ t, (s'.pc t).out = (s.pc t).out)
    (hpath : ∀ t p, (s'.pc t).path = some p → (s.pc t).path = some p)
    (hheld : ∀ t w, (s'.pc t).held = some w → (s.pc t).held = some w)
    (hqueued : ∀ t p, (s'.pc t).queued = some p → (s.pc t).queued = some p) :
    Lined cfg s' landed' where
  shelves := hshelves
  landed := hlanded
  below p hp t q hq := h.below p (hl0 p hp) t q (hpath t q hq)
  held t w hw t' w' hw' := h.held t w (hheld t w hw) t' w' ((hout t').symm.trans hw')
  queue t q hq t' w hw := h.queue t q (hqueued t q hq) t' w ((hout t').symm.trans hw)

/-- A thread moves on, with the path it had or with none, and what it had swapped out. -/
theorem moved (h : Lined cfg s landed) {t : T} {pc : Pc}
    (hlanded : pc.landed = (s.pc t).landed) (hout : pc.out = (s.pc t).out)
    (hpath : ∀ p, pc.path = some p → (s.pc t).path = some p)
    (hheld : ∀ w, pc.held = some w → (s.pc t).held = some w)
    (hqueued : ∀ p, pc.queued = some p → (s.pc t).queued = some p)
    (hpcs : s'.pc = Function.update s.pc t pc) (hlevels : s'.levels = s.levels)
    (hfs : ∀ p : Path, p.NamedSst → s'.fs p = s.fs p) : Lined cfg s' landed := by
  have hlandeds : ∀ t', (s'.pc t').landed = (s.pc t').landed := by
    rw [hpcs]
    exact forall_goto (s := s) (P := fun t' x => Pc.landed x = (s.pc t').landed) hlanded
      fun _ _ => rfl
  refine h.of_pcs (by rw [hlevels]; exact h.shelves.congr hfs) (fun p => ?_)
    (by rw [hlevels]; exact fun _ => id) ?_ ?_ ?_ ?_
  · simp only [hlandeds]
    exact h.landed p
  · rw [hpcs]
    exact forall_goto (s := s) (P := fun t' x => Pc.out x = (s.pc t').out) hout fun _ _ => rfl
  · rw [hpcs]
    exact forall_goto (s := s) (P := fun t' x => ∀ p, Pc.path x = some p → (s.pc t').path = some p)
      hpath fun _ _ _ => id
  · rw [hpcs]
    exact forall_goto (s := s) (P := fun t' x => ∀ w, Pc.held x = some w → (s.pc t').held = some w)
      hheld fun _ _ _ => id
  · rw [hpcs]
    exact forall_goto (s := s)
      (P := fun t' x => ∀ p, Pc.queued x = some p → (s.pc t').queued = some p) hqueued
      fun _ _ _ => id

/-- A flush takes a name: it is later than all those there are. -/
theorem name (h : Lined cfg s landed) (hhoused : Housed cfg s) {t : T} {e : WalEntry} {now : ℕ}
    (hpc : s.pc t = .flushing e .start) (hticks : s.Ticks (.name t now)) :
    Lined cfg (s.name t cfg e now) landed := by
  have hlater : ∀ {p : Path} {t' : T} {n : ℕ}, (t', n) ∈ clocks s.hist →
      p = cfg.nextSstablePath n → p.name < (cfg.nextSstablePath now).name := by
    rintro p t' n hn rfl
    exact FileName.l0Name_lt (hticks _ hn).2 (hticks _ hn).1
  have hout : ∀ t', ((s.name t cfg e now).pc t').out = (s.pc t').out :=
    forall_goto (P := fun t' x => Pc.out x = (s.pc t').out) (by simp [hpc]) fun _ _ => rfl
  have hlanded : ∀ t', ((s.name t cfg e now).pc t').landed = (s.pc t').landed :=
    forall_goto (P := fun t' x => Pc.landed x = (s.pc t').landed) (by simp [hpc]) fun _ _ => rfl
  refine ⟨h.shelves, fun p => ?_, fun p hp => ?_, ?_, ?_⟩
  · simp only [hlanded]
    exact h.landed p
  · refine forall_goto (P := fun _ x => ∀ q, Pc.path x = some q → p.name < q.name) ?_
      fun t' _ => h.below p hp t'
    rintro q hq
    obtain rfl := Option.some.inj hq
    obtain ⟨hne, n, hn⟩ := hhoused.l0 p hp
    obtain ⟨t', ht'⟩ := hhoused.named.file n (hn ▸ hne)
    exact hlater ht' hn
  · simp only [hout]
    exact forall_goto (P := fun _ x => ∀ w, Pc.held x = some w → ∀ t' w', (s.pc t').out = some w' →
      t' ≠ _ → w'.path.name < w.path.name) (by simp) fun t' _ => h.held t'
  · simp only [hout]
    refine forall_goto (P := fun _ x => ∀ q, Pc.queued x = some q → ∀ t' w,
      (s.pc t').out = some w → w.path.name < q.name) ?_ fun t' _ => h.queue t'
    rintro q hq t' w hw
    obtain rfl := Option.some.inj hq
    obtain ⟨t'', n, hn, hpath⟩ := hhoused.named.exists_reading (Or.inr ⟨t', hw⟩)
    exact hlater hn hpath

omit [DecidableEq T] in
/-- What other flushes have renamed has earlier names than what the holder of the lock will. -/
theorem landed_lt (h : Lined cfg s landed) {t : T} {w : Swapped} (hw : (s.pc t).held = some w)
    (hlanded : (s.pc t).landed = []) {p : Path} (hp : p ∈ landed) : p.name < w.path.name := by
  obtain ⟨t', ht'⟩ := (h.landed p).mp hp
  have ht : t' ≠ t := by
    rintro rfl
    rw [hlanded] at ht'
    exact List.not_mem_nil ht'
  obtain ⟨w', hw', rfl⟩ := Pc.exists_out_of_landed ht'
  exact h.held t w hw t' w' hw' ht

/-- A flush swaps in the order of the names: it is the last one now. -/
theorem swap (h : Lined cfg s landed) (hlocked : s.Locked) {t : T} {e : WalEntry} {p : Path}
    (hpc : s.pc t = .flushing e (.named p)) (hlock : s.lock = none)
    (hturn : s.SwapsInTurn (.swap t)) : Lined cfg (s.swap t e p) landed := by
  have hp : (s.pc t).queued = some p := by simp [hpc]
  have hlanded : ∀ t', ((s.swap t e p).pc t').landed = (s.pc t').landed :=
    forall_goto (P := fun t' x => Pc.landed x = (s.pc t').landed) (by simp [hpc]) fun _ _ => rfl
  have hother : ∀ t', t' ≠ t → (s.swap t e p).pc t' = s.pc t' := fun t' ht =>
    Function.update_of_ne ht _ _
  have hself : (s.swap t e p).pc t = .flushing e (.swapped ⟨p, s.mem, swaps s.hist⟩) :=
    Function.update_self ..
  refine ⟨h.shelves, fun q => ?_, fun q hq => ?_, ?_, ?_⟩
  · simp only [hlanded]
    exact h.landed q
  · exact forall_goto (P := fun _ x => ∀ r, Pc.path x = some r → q.name < r.name)
      (fun r hr => h.below q hq t r (by rw [hpc]; exact hr)) fun t' _ => h.below q hq t'
  · refine forall_goto (P := fun t' x => ∀ w, Pc.held x = some w → ∀ t'' w',
      ((s.swap t e p).pc t'').out = some w' → t'' ≠ t' → w'.path.name < w.path.name)
      (fun w hw t' w' hw' ht => ?_) fun t' _ w hw => ?_
    · obtain rfl := Option.some.inj hw
      rw [hother t' ht] at hw'
      exact h.queue t p hp t' w' hw'
    · exact absurd ((hlocked.held_eq_none hlock t').symm.trans hw).symm (Option.some_ne_none w)
  · refine forall_goto (P := fun _ x => ∀ q, Pc.queued x = some q → ∀ t' w,
      ((s.swap t e p).pc t').out = some w → w.path.name < q.name) (by simp)
      fun t' ht q hq t'' w hw => ?_
    by_cases ht' : t'' = t
    · subst ht'
      rw [hself] at hw
      obtain rfl := Option.some.inj hw
      exact hturn p hp t' ht q hq
    · rw [hother t'' ht'] at hw
      exact h.queue t' q hq t'' w hw

/-- A flush renames its file: its name is the last one in L0. -/
theorem rename (h : Lined cfg s landed) (hhoused : Housed cfg s) {t : T} {e : WalEntry}
    {w : Swapped} (hpc : s.pc t = .flushing e (.written w)) :
    Lined cfg (s.rename t e w) (landed ++ [w.path]) := by
  have hother : ∀ t', t' ≠ t → (s.rename t e w).pc t' = s.pc t' := fun t' ht =>
    Function.update_of_ne ht _ _
  have hself : (s.rename t e w).pc t = .flushing e (.renamed w) := Function.update_self ..
  have hsame : ∀ t', ((s.rename t e w).pc t').out = (s.pc t').out ∧
      ((s.rename t e w).pc t').path = (s.pc t').path ∧
      ((s.rename t e w).pc t').held = (s.pc t').held ∧
      ((s.rename t e w).pc t').queued = (s.pc t').queued :=
    forall_goto (P := fun t' x => Pc.out x = (s.pc t').out ∧ Pc.path x = (s.pc t').path ∧
      Pc.held x = (s.pc t').held ∧ Pc.queued x = (s.pc t').queued) (by simp [hpc])
      fun _ _ => ⟨rfl, rfl, rfl, rfl⟩
  refine h.of_pcs ?_ (fun p => ?_) (fun _ => id) (fun t' => (hsame t').1)
    (fun t' p => (hsame t').2.1.symm.trans) (fun t' w => (hsame t').2.2.1.symm.trans)
    fun t' p => (hsame t').2.2.2.symm.trans
  · rw [← List.append_assoc]
    refine hhoused.shelves_rename_last h.shelves hpc fun p hp => ?_
    rcases List.mem_append.mp hp with hp | hp
    · exact h.below p hp t w.path (by simp [hpc])
    · exact h.landed_lt (t := t) (by simp [hpc]) (by simp [hpc]) hp
  · rw [List.mem_append, List.mem_singleton, h.landed]
    constructor
    · rintro (⟨t', ht'⟩ | rfl)
      · refine ⟨t', ?_⟩
        rw [hother t' (by rintro rfl; simp [hpc] at ht')]
        exact ht'
      · exact ⟨t, by rw [hself]; exact List.mem_singleton_self _⟩
    · rintro ⟨t', ht'⟩
      by_cases ht : t' = t
      · subst ht
        rw [hself] at ht'
        exact Or.inr (List.mem_singleton.mp ht')
      · rw [hother t' ht] at ht'
        exact Or.inl ⟨t', ht'⟩

omit [DecidableEq T] in
/-- The file that is added to L0 is the first of those behind it. -/
theorem exists_rest (h : Lined cfg s landed) {t : T} {e : WalEntry} {w : Swapped}
    (hpc : s.pc t = .flushing e (.truncated w))
    (hlater : ∀ t', t' ≠ t → ∀ w', (s.pc t').out = some w' → w.path.name < w'.path.name) :
    ∃ rest, landed = w.path :: rest ∧ w.path ∉ rest := by
  have hsorted : NameSorted landed := h.shelves.sorted0.sublist (List.sublist_append_right _ _)
  have hmem : w.path ∈ landed := (h.landed w.path).mpr ⟨t, by simp [hpc]⟩
  -- it is none of the others, which have later names
  have hfirst : ∀ p ∈ landed, p = w.path ∨ w.path.name < p.name := by
    intro p hp
    obtain ⟨t', ht'⟩ := (h.landed p).mp hp
    by_cases ht : t' = t
    · subst ht
      rw [hpc] at ht'
      exact Or.inl (List.mem_singleton.mp ht')
    · obtain ⟨w', hw', rfl⟩ := Pc.exists_out_of_landed ht'
      exact Or.inr (hlater t' ht w' hw')
  cases landed with
  | nil => exact absurd hmem List.not_mem_nil
  | cons p rest =>
    have hrest := (List.pairwise_cons.mp hsorted).1
    rcases hfirst p List.mem_cons_self with rfl | hlt
    · exact ⟨rest, rfl, fun hm => lt_irrefl _ (hrest _ hm)⟩
    · rcases List.mem_cons.mp hmem with he | hm
      · exact absurd (he ▸ hlt) (lt_irrefl _)
      · exact absurd (hlt.trans (hrest _ hm)) (lt_irrefl _)

/-- The first of the files behind L0 is in it now. -/
theorem publish (h : Lined cfg s landed) {t : T} {e : WalEntry} {w : Swapped}
    (hpc : s.pc t = .flushing e (.truncated w)) (hturn : s.PublishesInTurn (.publish t)) :
    ∃ rest, landed = w.path :: rest ∧ Lined cfg (s.publish t e w) rest := by
  have hother : ∀ t', t' ≠ t → (s.publish t e w).pc t' = s.pc t' := fun t' ht =>
    Function.update_of_ne ht _ _
  have hself : (s.publish t e w).pc t = .idle := Function.update_self ..
  have hout : (s.pc t).out = some w := by simp [hpc]
  have hlater : ∀ t', t' ≠ t → ∀ w', (s.pc t').out = some w' → w.path.name < w'.path.name :=
    hturn w hout
  obtain ⟨rest, rfl, hnot⟩ := h.exists_rest hpc hlater
  have hout' : ∀ t' w', ((s.publish t e w).pc t').out = some w' → (s.pc t').out = some w' :=
    out_goto (by simp)
  have hl0 : (s.publish t e w).levels.l0 = s.levels.l0 ++ [w.path] := s.levels.l0_addL0File w.path
  have hl1 : (s.publish t e w).levels.l1 = s.levels.l1 := s.levels.l1_addL0File w.path
  refine ⟨rest, rfl, ?_, fun p => ?_, fun p hp => ?_, ?_, ?_⟩
  · rw [hl0, hl1, List.append_assoc]
    exact h.shelves
  · -- the others have their files behind this one still
    constructor
    · intro hp
      obtain ⟨t', ht'⟩ := (h.landed p).mp (List.mem_cons_of_mem _ hp)
      refine ⟨t', ?_⟩
      rw [hother t' ?_]
      · exact ht'
      · rintro rfl
        rw [hpc] at ht'
        exact hnot (List.mem_singleton.mp ht' ▸ hp)
    · rintro ⟨t', ht'⟩
      have ht : t' ≠ t := by
        rintro rfl
        rw [hself] at ht'
        exact List.not_mem_nil ht'
      rw [hother t' ht] at ht'
      refine (List.mem_cons.mp ((h.landed p).mpr ⟨t', ht'⟩)).resolve_left ?_
      rintro rfl
      obtain ⟨w', hw', he⟩ := Pc.exists_out_of_landed ht'
      exact absurd (he ▸ hlater t' ht w' hw') (lt_irrefl _)
  · rw [hl0] at hp
    refine forall_goto (P := fun _ x => ∀ q, Pc.path x = some q → p.name < q.name) (by simp)
      fun t' ht q hq => ?_
    rcases List.mem_append.mp hp with hp | hp
    · exact h.below p hp t' q hq
    · rw [List.mem_singleton.mp hp]
      rcases Pc.queued_or_out hq with hqueued | ⟨w', hw', rfl⟩
      · exact h.queue t' q hqueued t w hout
      · exact hlater t' ht w' hw'
  · exact forall_goto (P := fun t' x => ∀ w, Pc.held x = some w → ∀ t'' w',
      ((s.publish t e w).pc t'').out = some w' → t'' ≠ t' → w'.path.name < w.path.name)
      (by simp) fun t' _ w hw t'' w' hw' => h.held t' w hw t'' w' (hout' t'' w' hw')
  · exact forall_goto (P := fun _ x => ∀ q, Pc.queued x = some q → ∀ t' w',
      ((s.publish t e w).pc t').out = some w' → w'.path.name < q.name)
      (by simp) fun t' _ q hq t'' w' hw' => h.queue t' q hq t'' w' (hout' t'' w' hw')

omit [DecidableEq T] in
/-- **A compaction takes L0 away** from below the files that are not in it yet. -/
theorem compact (h : Lined cfg s landed) (hhoused : Housed cfg s) {now : ℕ}
    (htimely : s.Timely cfg now)
    (hok : (s.levels.compact cfg.sizing cfg.heap .whole now s.fs).1 = .ok ()) :
    Lined cfg (s.compact cfg .whole now) landed := by
  cases hl0 : s.levels.l0 with
  | nil =>
    obtain ⟨hlevels, hfs⟩ := hhoused.compact_nil hl0
    refine h.of_pcs ?_ h.landed (by rw [hlevels]; exact fun _ => id) (fun _ => rfl)
      (fun _ _ => id) (fun _ _ => id) fun _ _ => id
    rw [hlevels, hfs]
    exact h.shelves
  | cons oldest newer =>
    have ho : s.levels.l0.head? = some oldest := by rw [hl0]; rfl
    have hnew := htimely.outputPath_notMem hhoused ho
    have hswept := LevelManager.swept_of_ok ho (compact_eq_ok hok) fun hin =>
      hnew (LevelManager.mem_of_inputs hin)
    have hshelves := h.shelves.swept hswept (hhoused.outputPath_eq (List.mem_of_head? ho))
      htimely.clock
    have hl0' : (s.compact cfg .whole now).levels.l0 = [] := by
      rw [hswept.levels]
      rfl
    have hl1' : (s.compact cfg .whole now).levels.l1 =
        s.levels.untouched s.fs ++ [⟨cfg.dir, FileName.l1Name now⟩] := by
      rw [hswept.levels, hhoused.outputPath_eq (List.mem_of_head? ho)]
      rfl
    refine h.of_pcs ?_ h.landed (by simp [hl0']) (fun _ => rfl) (fun _ _ => id) (fun _ _ => id)
      fun _ _ => id
    rw [hl0', hl1', List.nil_append]
    exact hshelves

omit [DecidableEq T] in
/-- A restart finds the files behind L0 in it, and no flush is on its way. -/
theorem restart (h : Lined cfg s landed) (hhoused : Housed cfg s) {listing : List Path}
    {mem : MemTable} {levels : LevelManager} (hl : s.fs.Lists cfg.dir listing)
    (hopen : Lsm.open (some s.wal) listing = .ok (mem, levels)) :
    levels = ⟨[s.levels.l0 ++ landed, s.levels.l1]⟩ ∧ Lined cfg (s.restart mem levels) [] := by
  obtain ⟨es, -, -, rfl⟩ := Lsm.open_eq_ok.mp hopen
  have hlevels := h.shelves.discoverLevels_eq hhoused.inPlace hl
  refine ⟨hlevels, ?_, ?_, ?_, ?_, ?_⟩
  · rw [hlevels, List.append_nil]
    exact h.shelves
  · simp [Sys.restart]
  · simp [Sys.restart]
  · simp [Sys.restart]
  · simp [Sys.restart]

end Sys.Lined

/-! ### What a restart would find -/

namespace Sys

variable {s s' : Sys T} {a : Act T} {landed landed' : List Path}

/-- The levels that a restart would find. -/
def shelved (s : Sys T) (landed : List Path) : LevelManager :=
  ⟨[s.levels.l0 ++ landed, s.levels.l1]⟩

/-- **The log and the files say what has been written**, and where the log can be truncated the
files say it alone. -/
structure Recovers (cfg : Config) (s : Sys T) (landed : List Path) : Prop where
  lined : Lined cfg s landed
  recovered : ∀ k, visible (((MemTable.new.applyAll (log s.hist)).get k).or
    ((s.shelved landed).find s.fs k)) = map s.hist k
  renamed : ∀ t e w, s.pc t = .flushing e (.renamed w) → ∀ k,
    visible ((s.shelved landed).find s.fs k) = map s.hist k

namespace Recovers

omit [DecidableEq T] in
theorem init : Recovers cfg (Sys.init : Sys T) [] := ⟨.init, fun _ => rfl, by simp [Sys.init]⟩

omit [DecidableEq T] in
/-- A step that changes neither the SSTables nor the lists nor the log. -/
theorem of_same (h : Recovers cfg s landed) (hlined : Lined cfg s' landed)
    (hlevels : s'.levels = s.levels) (hfs : ∀ p : Path, p.NamedSst → s'.fs p = s.fs p)
    (hlog : log s'.hist = log s.hist) (hmap : map s'.hist = map s.hist)
    (hrenamed : ∀ t e w, s'.pc t = .flushing e (.renamed w) → s.pc t = .flushing e (.renamed w)) :
    Recovers cfg s' landed := by
  have hfind : ∀ k, (s'.shelved landed).find s'.fs k = (s.shelved landed).find s.fs k := fun k => by
    rw [shelved, hlevels]
    exact LevelManager.find_congr (fun p hp => hfs p (h.lined.shelves.mem_readOrder hp).1) k
  refine ⟨hlined, fun k => ?_, fun t e w hpc k => ?_⟩
  · rw [hlog, hfind, hmap]
    exact h.recovered k
  · rw [hfind, hmap]
    exact h.renamed t e w (hrenamed t e w hpc) k

/-- The write is in the log now, on top of all others. -/
theorem append (h : Recovers cfg s landed) (hlocked : s.Locked) {t : T} {e : WalEntry}
    (hpc : s.pc t = .logging e) (hlock : s.lock = none) :
    Recovers cfg (s.append t e) landed := by
  have hlog : log (s.append t e).hist = log s.hist ++ [e] := log_append _ _
  have hlined : Lined cfg (s.append t e) landed :=
    h.lined.moved (by simp [hpc]) (by simp [hpc]) (by simp) (by simp) (by simp) rfl rfl
      fun _ _ => rfl
  refine ⟨hlined, fun k => ?_, ?_⟩
  · change visible (Option.or _ ((s.shelved landed).find s.fs k)) =
      map (s.hist ++ [.appended t e]) k
    rw [map_append, hlog, MemTable.applyAll_concat, MemTable.get_apply]
    split
    · rfl
    · exact h.recovered k
  · refine forall_goto (P := fun _ x => ∀ e' w, x = .flushing e' (.renamed w) → ∀ k,
      visible ((s.shelved landed).find s.fs k) = map (s.append t e).hist k) (by simp)
      fun t' _ e' w hpc' => ?_
    -- nobody has the lock
    have hheld := hlocked.held_eq_none hlock t'
    rw [hpc'] at hheld
    exact absurd hheld (Option.some_ne_none w)

/-- The renamed file says what the log says. -/
theorem rename (h : Recovers cfg s landed) (hhoused : Housed cfg s) (hintact : Intact cfg s)
    (hbalanced : s.Balanced) {t : T} {e : WalEntry} {w : Swapped}
    (hpc : s.pc t = .flushing e (.written w)) :
    Recovers cfg (s.rename t e w) (landed ++ [w.path]) := by
  have hheld : (s.pc t).held = some w := by simp [hpc]
  have hold := (hbalanced.held t w hheld).1
  have hfind : ∀ k, ((s.rename t e w).shelved (landed ++ [w.path])).find (s.rename t e w).fs k =
      ((MemTable.new.applyAll (log s.hist)).get k).or ((s.shelved landed).find s.fs k) := by
    intro k
    rw [← hold, shelved, ← List.append_assoc]
    exact hintact.find_shelves_rename hhoused h.lined.shelves hpc k
  refine ⟨h.lined.rename hhoused hpc, fun k => ?_, fun t' e' w' hpc' k => ?_⟩
  · rw [hfind]
    change visible (((MemTable.new.applyAll (log s.hist)).get k).or _) = map s.hist k
    rw [← Option.or_assoc, Option.or_self]
    exact h.recovered k
  · rw [hfind]
    exact h.recovered k

/-- The log is not needed any more. -/
theorem truncate (h : Recovers cfg s landed) (hlocked : s.Locked) {t : T} {e : WalEntry}
    {w : Swapped} (hpc : s.pc t = .flushing e (.renamed w)) :
    Recovers cfg (s.truncate t e w) landed := by
  have hstep : Step cfg s (.truncate t) (s.truncate t e w) := .truncate hpc
  have hlog : log (s.truncate t e w).hist = [] := log_append _ _
  have hmap : map (s.truncate t e w).hist = map s.hist :=
    map_congr (completed_step hstep (by simp))
  have hlined : Lined cfg (s.truncate t e w) landed :=
    h.lined.moved (by simp [hpc]) (by simp [hpc]) (by simp [hpc]) (by simp) (by simp) rfl rfl
      fun _ _ => rfl
  refine ⟨hlined, fun k => ?_, fun t' e' w' hpc' => ?_⟩
  · rw [hlog, hmap]
    exact h.renamed t e w hpc k
  · have hheld := (hlocked.step hstep).held_eq_none rfl t'
    rw [hpc'] at hheld
    exact absurd hheld (Option.some_ne_none w')

/-- The file that is added to L0 stays where it is. -/
theorem publish (h : Recovers cfg s landed) {t : T} {e : WalEntry} {w : Swapped}
    (hpc : s.pc t = .flushing e (.truncated w)) (hturn : s.PublishesInTurn (.publish t)) :
    ∃ rest, Recovers cfg (s.publish t e w) rest := by
  have hstep : Step cfg s (.publish t) (s.publish t e w) := .publish hpc
  have hlog := (log_step_whole hstep trivial (by simp) (by simp)).1
  have hmap : map (s.publish t e w).hist = map s.hist :=
    map_congr (completed_step hstep (by simp))
  obtain ⟨rest, rfl, hlined⟩ := h.lined.publish hpc hturn
  have hshelved : (s.publish t e w).shelved rest = s.shelved (w.path :: rest) := by
    rw [shelved, shelved, show (s.publish t e w).levels.l0 = s.levels.l0 ++ [w.path] from
      s.levels.l0_addL0File w.path, show (s.publish t e w).levels.l1 = s.levels.l1 from
      s.levels.l1_addL0File w.path, List.append_assoc]
    rfl
  refine ⟨rest, hlined, fun k => ?_, fun t' e' w' hpc' k => ?_⟩
  · rw [hlog, hshelved, hmap]
    exact h.recovered k
  · rw [hshelved, hmap]
    refine h.renamed t' e' w' ?_ k
    have ht : t' ≠ t := by
      rintro rfl
      simp [Sys.publish, goto] at hpc'
    rwa [show (s.publish t e w).pc t' = s.pc t' from Function.update_of_ne ht _ _] at hpc'

/-- **A compaction below the files of flushes is not noticed.** -/
theorem compact (h : Recovers cfg s landed) (hhoused : Housed cfg s) (hintact : Intact cfg s)
    (hdisjoint : LevelManager.RangesDisjoint s.fs s.levels.l1) {now : ℕ}
    (htimely : s.Timely cfg now)
    (hok : (s.levels.compact cfg.sizing cfg.heap .whole now s.fs).1 = .ok ()) :
    Recovers cfg (s.compact cfg .whole now) landed := by
  have hstep : Step cfg s (.compact .whole now) (s.compact cfg .whole now) := .compact
  have hlog := (log_step_whole hstep trivial (by simp) (by simp)).1
  have hmap : map (s.compact cfg .whole now).hist = map s.hist :=
    map_congr (completed_step hstep (by simp))
  have hhoused' := hhoused.step hstep (by simp) (by
    rintro io now' ⟨⟩
    exact htimely.notMem)
  -- those that are not in L0 are not touched, and below them readers find the same
  have habove : landed.reverse.map (s.compact cfg .whole now).fs.records =
      landed.reverse.map s.fs.records := List.map_congr_left fun p hp => by
    obtain ⟨t, ht⟩ := (h.lined.landed p).mp (List.mem_reverse.mp hp)
    obtain ⟨w, hw, rfl⟩ := Pc.exists_out_of_landed ht
    exact Fs.records_congr (hhoused.compact_frame (Pc.path_of_out hw)).1
  have hbelow := (undisturbed_of_timely hhoused hintact hdisjoint htimely hok).2
  have hfind : ∀ k, visible (((s.compact cfg .whole now).shelved landed).find
      (s.compact cfg .whole now).fs k) = visible ((s.shelved landed).find s.fs k) := fun k => by
    rw [shelved, shelved, find_append, find_append, habove, ← hhoused.levels, ← hhoused'.levels]
    exact visible_or_congr (hbelow k) _
  refine ⟨h.lined.compact hhoused htimely hok, fun k => ?_, fun t e w hpc k => ?_⟩
  · rw [hlog, hmap, ← h.recovered k]
    exact visible_or_congr (hfind k) _
  · rw [hmap, ← h.renamed t e w hpc k]
    exact hfind k

/-- After a restart it is in the lists what was behind them. -/
theorem restart (h : Recovers cfg s landed) (hhoused : Housed cfg s) {listing : List Path}
    {mem : MemTable} {levels : LevelManager} (hl : s.fs.Lists cfg.dir listing)
    (hopen : Lsm.open (some s.wal) listing = .ok (mem, levels)) :
    Recovers cfg (s.restart mem levels) [] := by
  have hstep : Step cfg s (.restart listing) (s.restart mem levels) := .restart hl hopen
  have hlog := (log_step_whole hstep trivial (by simp) (by simp)).1
  have hmap : map (s.restart mem levels).hist = map s.hist :=
    map_congr (completed_step hstep (by simp))
  obtain ⟨rfl, hlined⟩ := h.lined.restart hhoused hl hopen
  have hshelved : (s.restart mem ⟨[s.levels.l0 ++ landed, s.levels.l1]⟩).shelved [] =
      s.shelved landed := by
    rw [shelved, List.append_nil]
    rfl
  refine ⟨hlined, fun k => ?_, by simp [Sys.restart]⟩
  rw [hlog, hshelved, hmap]
  exact h.recovered k

end Recovers

/-! ### The condition -/

/-- **The order that threads keep to**: flushes swap and publish in the order of their names,
none swaps while a write stands between the log and the MemTable, and writes to one key are
inserted in the order of their appends. Nothing fails, the clock ticks, and what is written fits
the length fields. -/
structure Disciplined (s : Sys T) (a : Act T) : Prop where
  lives : a.Lives
  ticks : s.Ticks a
  swaps : s.SwapsInTurn a
  publishes : s.PublishesInTurn a
  settles : s.Settles a
  turn : s.KeepsTurn a
  fits : a.Fits

instance [Fintype T] (s : Sys T) (a : Act T) : Decidable (s.Disciplined a) :=
  decidable_of_iff (a.Lives ∧ s.Ticks a ∧ s.SwapsInTurn a ∧ s.PublishesInTurn a ∧ s.Settles a ∧
    s.KeepsTurn a ∧ a.Fits) ⟨fun ⟨h₁, h₂, h₃, h₄, h₅, h₆, h₇⟩ => ⟨h₁, h₂, h₃, h₄, h₅, h₆, h₇⟩,
      fun h => ⟨h.1, h.2, h.3, h.4, h.5, h.6, h.7⟩⟩

theorem Disciplined.distinct (h : s.Disciplined a) : s.Distinct cfg a := by
  cases a with
  | name t now =>
    intro hm
    obtain ⟨c, hc, rfl⟩ := List.mem_map.mp hm
    exact lt_irrefl _ (h.ticks c hc).1
  | compact => exact h.lives.elim
  | _ => trivial

/-! ### The invariant -/

/-- What holds in every run that meets the condition. -/
structure Durable (cfg : Config) (s : Sys T) : Prop where
  housed : Housed cfg s
  intact : Intact cfg s
  logged : s.Logged
  carries : s.Carries WalEntry.IsShort MemTable.IsShort
  balanced : s.Balanced
  disjoint : LevelManager.RangesDisjoint s.fs s.levels.l1
  recovers : ∃ landed, Recovers cfg s landed

namespace Durable

theorem init : Durable cfg (Sys.init : Sys T) where
  housed := .init
  intact := .init
  logged := rfl
  carries := .init carried_isShort
  balanced := .init
  disjoint := List.Pairwise.nil
  recovers := ⟨[], .init⟩

/-- A compaction that nobody notices. -/
theorem compact (h : Durable cfg s) {now : ℕ} (htimely : s.Timely cfg now)
    (hok : (s.levels.compact cfg.sizing cfg.heap .whole now s.fs).1 = .ok ()) :
    Durable cfg (s.compact cfg .whole now) := by
  have hstep : Step cfg s (.compact .whole now) (s.compact cfg .whole now) := .compact
  obtain ⟨landed, hrecovers⟩ := h.recovers
  refine ⟨h.housed.step hstep (by simp) ?_, h.intact.step h.housed hstep (by simp),
    h.logged.step hstep trivial, h.carries.step carried_isShort h.logged hstep trivial (by simp),
    h.balanced.compact, rangesDisjoint_compact h.housed htimely hok h.intact h.disjoint,
    landed, hrecovers.compact h.housed h.intact h.disjoint htimely hok⟩
  rintro io now' ⟨⟩
  exact htimely.notMem

/-- **Every other step** leaves what a restart would find. -/
theorem recovers_step (h : Durable cfg s) (hs : Step cfg s a s') (hd : s.Disciplined a) :
    ∃ landed, Recovers cfg s' landed := by
  obtain ⟨landed, hr⟩ := h.recovers
  have hlocked := h.housed.locked
  have hwhole : a.Whole := by
    cases a with
    | appendFails => exact hd.lives.elim
    | _ => trivial
  have hlog := fun happend htruncate => (log_step_whole hs hwhole happend htruncate).1
  have hmap := fun happend => map_congr (completed_step hs happend)
  -- a thread that moves on and has not renamed a file
  have hmove : ∀ {t : T} {pc : Pc}, Lined cfg s' landed → s'.levels = s.levels →
      (∀ p : Path, p.NamedSst → s'.fs p = s.fs p) → log s'.hist = log s.hist →
      map s'.hist = map s.hist → s'.pc = Function.update s.pc t pc →
      (∀ e w, pc ≠ .flushing e (.renamed w)) → ∃ landed, Recovers cfg s' landed := by
    intro t pc hlined hlevels hfs hlog hmap hpcs hpc
    refine ⟨landed, hr.of_same hlined hlevels hfs hlog hmap ?_⟩
    rw [hpcs]
    exact forall_goto (s := s) (P := fun t' x => ∀ e w, x = .flushing e (.renamed w) →
      s.pc t' = .flushing e (.renamed w)) (fun e w he => absurd he (hpc e w)) fun _ _ _ _ => id
  cases hs with
  | @call t op hpc =>
    refine hmove (hr.lined.moved ?_ ?_ ?_ ?_ ?_ rfl rfl fun _ _ => rfl) rfl (fun _ _ => rfl)
      (hlog (by simp) (by simp)) (hmap (by simp)) rfl ?_ <;> cases op <;> simp [Op.begin, hpc]
  | append hpc hlock => exact ⟨landed, hr.append hlocked hpc hlock⟩
  | insert hpc | fill hpc | hit hpc | miss hpc | search hpc =>
    exact hmove (hr.lined.moved (by simp [hpc]) (by simp [hpc]) (by simp) (by simp) (by simp) rfl
      rfl fun _ _ => rfl) rfl (fun _ _ => rfl) (hlog (by simp) (by simp)) (hmap (by simp)) rfl
      (by simp)
  | name hpc =>
    exact hmove (hr.lined.name h.housed hpc hd.ticks) rfl (fun _ _ => rfl)
      (hlog (by simp) (by simp)) (hmap (by simp)) rfl (by simp)
  | swap hpc hlock =>
    exact hmove (hr.lined.swap hlocked hpc hlock hd.swaps) rfl (fun _ _ => rfl)
      (hlog (by simp) (by simp)) (hmap (by simp)) rfl (by simp)
  | @create t e w hpc | @write t e w n bytes hpc | @finish t e w bytes hpc =>
    have hfs : ∀ (x : Option (List UInt8)) (p : Path), p.NamedSst →
        Function.update s.fs w.path.tmp x p = s.fs p := fun x p hp =>
      Function.update_of_ne (hp.ne_tmp w.path) x s.fs
    exact hmove (hr.lined.moved (by simp [hpc]) (by simp [hpc]) (by simp [hpc]) (by simp [hpc])
      (by simp) rfl rfl (hfs _)) rfl (hfs _) (hlog (by simp) (by simp)) (hmap (by simp)) rfl
      (by simp)
  | rename hpc => exact ⟨_, hr.rename h.housed h.intact h.balanced hpc⟩
  | truncate hpc => exact ⟨landed, hr.truncate hlocked hpc⟩
  | publish hpc => exact hr.publish hpc hd.publishes
  | restart hl hopen => exact ⟨[], hr.restart h.housed hl hopen⟩
  | compact | appendFails | flushFails | truncateFails => exact hd.lives.elim

/-- **One step.** -/
theorem step (h : Durable cfg s) (hs : Step cfg s a s') (htended : s.Tended cfg Disciplined a) :
    Durable cfg s' := by
  by_cases hcompact : ∃ io now, a = .compact io now
  · obtain ⟨io, now, rfl⟩ := hcompact
    obtain ⟨rfl, htimely, hok⟩ := htended
    cases hs
    exact h.compact htimely hok
  · have hd : s.Disciplined a := by
      cases a with
      | compact io now => exact absurd ⟨io, now, rfl⟩ hcompact
      | _ => exact htended
    have hwhole : a.Whole := by
      cases a with
      | appendFails => exact hd.lives.elim
      | _ => trivial
    refine ⟨h.housed.step hs ?_ fun io now he => absurd ⟨io, now, he⟩ hcompact,
      h.intact.step h.housed hs fun _ _ => h.carries.mem, h.logged.step hs hwhole,
      h.carries.step carried_isShort h.logged hs hwhole ?_,
      h.balanced.step h.housed.locked h.logged h.carries.log hs hd.lives hd.settles hd.turn, ?_,
      h.recovers_step hs hd⟩
    · rintro t now rfl
      have hdistinct : s.Distinct cfg (.name t now) := hd.distinct
      exact hdistinct
    · rintro t e rfl
      exact hd.fits
    · by_cases hrestart : ∃ listing, a = .restart listing
      · -- L1 is recovered as it was
        obtain ⟨listing, rfl⟩ := hrestart
        obtain ⟨landed, hrecovers⟩ := h.recovers
        cases hs with
        | restart hl hopen =>
          obtain ⟨rfl, -⟩ := hrecovers.lined.restart h.housed hl hopen
          exact h.disjoint
      · exact rangesDisjoint_step h.housed h.intact h.disjoint hs htended fun listing he =>
          hrestart ⟨listing, he⟩

/-- **What a restart makes** of the log and some files. -/
theorem open_of_shelves (h : Durable cfg s) {fs : Fs} {files0 files1 listing : List Path}
    (hshelves : cfg.Shelves fs files0 files1)
    (hplace : ∀ p : Path, p.NamedSst → fs p ≠ none → cfg.InPlace p)
    (hl : fs.Lists cfg.dir listing) : Lsm.open (some s.wal) listing =
      .ok (MemTable.new.applyAll (log s.hist), ⟨[files0, files1]⟩) := by
  have hreplay : Wal.replay (some s.wal) = .ok (log s.hist) := by
    rw [h.logged, Wal.replay_encodeAll h.carries.log]
  exact Lsm.open_eq_ok.mpr ⟨_, hreplay, rfl, (hshelves.discoverLevels_eq hplace hl).symm⟩

theorem open_eq (h : Durable cfg s) (hr : Recovers cfg s landed) {listing : List Path}
    (hl : s.fs.Lists cfg.dir listing) : Lsm.open (some s.wal) listing =
      .ok (MemTable.new.applyAll (log s.hist), s.shelved landed) :=
  h.open_of_shelves hr.lined.shelves h.housed.inPlace hl

/-- What readers find in it. -/
theorem getAfterRestart_of_shelves (h : Durable cfg s) {s₁ : Sys T} (hhoused : Housed cfg s₁)
    (hintact : Intact cfg s₁) {files0 files1 listing : List Path}
    (hshelves : cfg.Shelves s₁.fs files0 files1) (hl : s₁.fs.Lists cfg.dir listing) (k : Key) :
    getAfterRestart (some s.wal) s₁.fs listing k =
      .ok (visible (((MemTable.new.applyAll (log s.hist)).get k).or
        ((⟨[files0, files1]⟩ : LevelManager).find s₁.fs k))) := by
  rw [getAfterRestart, h.open_of_shelves hshelves hhoused.inPlace hl]
  exact Lsm.get_eq (hintact.searchLevels_shelves hshelves k) _

/-- That is what has been written. -/
theorem getAfterRestart_eq (h : Durable cfg s) {listing : List Path}
    (hl : s.fs.Lists cfg.dir listing) (k : Key) :
    getAfterRestart (some s.wal) s.fs listing k = .ok (map s.hist k) := by
  obtain ⟨landed, hr⟩ := h.recovers
  rw [h.getAfterRestart_of_shelves h.housed h.intact hr.lined.shelves hl, ← hr.recovered k]
  rfl

end Durable

end Sys

end Tabula
