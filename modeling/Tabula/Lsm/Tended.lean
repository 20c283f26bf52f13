import Tabula.Levels.Disjoint
import Tabula.Lsm.Atomicity
import Tabula.Lsm.Linearizable

/-!
# Compactions beside the threads

What a `get` returns depends on the compactions of the background thread, which come at
any time and take as long as they take, while threads go on. Here a condition is set to
each compaction when it starts (`Tabula.Sys.Timely`): L0 has one value for each key, and the
clock is later than the outputs in L1. If it then succeeds, nobody notices it.

The condition is about the lists and the tracked files, which no thread changes while the
compaction has the levels lock. So it still holds when the compaction is over, and the run
of the store that `Tabula.Process.matches_of_run` finds meets it in the single step that the
compaction is there (`Tabula.Process.exists_tended`). What holds of all such runs of the
store then holds of the process: its calls take effect at one moment, and with one
client it is a map, from one crash to the next.
-/

namespace Tabula

open StorePrograms SortedTable

variable {T : Type} {cfg : Config}

/-- Files that are as they were have the ranges they had. -/
theorem LevelManager.RangesDisjoint.congr {fs fs' : Fs} {ps : List Path}
    (h : LevelManager.RangesDisjoint fs ps) (hfs : ∀ p ∈ ps, fs' p = fs p) :
    LevelManager.RangesDisjoint fs' ps := by
  refine List.Pairwise.imp_of_mem (fun {p q} hp hq hapart => ?_) h
  rwa [LevelManager.Apart, Fs.records_congr (hfs p hp), Fs.records_congr (hfs q hq)]

namespace Sys

/-! ### The condition -/

/-- **A compaction that nobody will notice if it succeeds**: L0 answers alike from both ends,
and the outputs in L1 are of earlier readings. -/
structure Timely (cfg : Config) (s : Sys T) (now : ℕ) : Prop where
  clock : ∀ n, ⟨cfg.dir, FileName.l1Name n⟩ ∈ s.levels.l1 → n < now ∧ FileName.SameDigits n now
  agree : ∀ k, oldestL0 s.fs s.levels k = newestL0 s.fs s.levels k

/-- Every compaction is such a one and succeeds, and all other steps meet a condition. -/
def Tended [DecidableEq T] (cfg : Config) (P : Sys T → Act T → Prop) (s : Sys T) : Act T → Prop
  | .compact io now => io = .whole ∧ s.Timely cfg now ∧
      (s.levels.compact cfg.sizing cfg.heap io now s.fs).1 = .ok ()
  | a => P s a

/-- The keys that count are those of the records of L0. -/
theorem agree_of_records {fs : Fs} {lm : LevelManager}
    (h : ∀ p ∈ lm.l0, ∀ r ∈ fs.records p, oldestL0 fs lm r.1 = newestL0 fs lm r.1) (k : Key) :
    oldestL0 fs lm k = newestL0 fs lm k := by
  cases ho : oldestL0 fs lm k with
  | none => exact (newestL0_eq_none_iff.mpr ho).symm
  | some v =>
    obtain ⟨t, ht, hlookup⟩ := exists_of_firstHit ho
    obtain ⟨p, hp, rfl⟩ := List.mem_map.mp ht
    exact ho ▸ h p hp _ (mem_of_lookup hlookup)

/-! ### A compaction that succeeds -/

/-- What a compaction that succeeds was run on. -/
theorem sound_of_compact {s : Sys T} (hhoused : Housed cfg s) (hintact : Intact cfg s)
    (hdisjoint : LevelManager.RangesDisjoint s.fs s.levels.l1) {io : CompactIo} {now : ℕ}
    {oldest : Path} (hio : io.ReadsComplete) (ho : s.levels.l0.head? = some oldest)
    (hok : (s.levels.compact cfg.sizing cfg.heap io now s.fs).1 = .ok ()) :
    s.levels.Sound s.fs where
  named p hp := (hhoused.tracked hp).1
  complete p hp := hintact.complete hhoused hp
  nonempty := LevelManager.nonempty_of_compact hio ho (compact_eq_ok hok)
  disjoint := hdisjoint
  bottom := by rw [hhoused.levels]; rfl

section Compact

variable {s : Sys T} {now : ℕ} (hhoused : Housed cfg s) (htimely : s.Timely cfg now)
  (hok : (s.levels.compact cfg.sizing cfg.heap .whole now s.fs).1 = .ok ())

include htimely in
theorem Timely.notMem : ⟨cfg.dir, FileName.l1Name now⟩ ∉ s.levels.l1 := fun hm =>
  lt_irrefl _ (htimely.clock now hm).1

include hhoused htimely in
/-- The output is none of the files there are. -/
theorem Timely.outputPath_notMem {oldest : Path} (ho : s.levels.l0.head? = some oldest) :
    LevelManager.outputPath now oldest ∉ s.levels.l0 ++ s.levels.l1 :=
  hhoused.outputPath_notMem (List.mem_of_head? ho) htimely.notMem

include hhoused htimely hok

/-- **Nobody notices it.** -/
theorem searchLevels_compact (hintact : Intact cfg s)
    (hdisjoint : LevelManager.RangesDisjoint s.fs s.levels.l1) (k : Key) :
    searchLevels (s.compact cfg .whole now).fs (s.compact cfg .whole now).levels k =
      searchLevels s.fs s.levels k := by
  cases hl0 : s.levels.l0 with
  | nil =>
    -- there is nothing to merge
    obtain ⟨hlevels, hfs⟩ := hhoused.compact_nil hl0
    rw [hlevels, hfs]
  | cons oldest newer =>
    have ho : s.levels.l0.head? = some oldest := by rw [hl0]; rfl
    have hcompact := compact_eq_ok hok
    have hsound := sound_of_compact hhoused hintact hdisjoint CompactIo.readsComplete_whole ho hok
    have hnew : ∀ oldest ∈ s.levels.l0.head?,
        LevelManager.outputPath now oldest ∉ s.levels.l0 ++ s.levels.l1 := fun oldest ho =>
      htimely.outputPath_notMem hhoused ho
    exact hsound.searchLevels_compact CompactIo.readsComplete_whole hcompact
      ⟨htimely.agree, fun oldest ho i hi =>
        absurd (LevelManager.mem_of_inputs (List.mem_of_getElem? hi)) (hnew oldest ho),
      fun oldest ho hu =>
        absurd (LevelManager.mem_of_l1 (LevelManager.mem_of_untouched hu)) (hnew oldest ho)⟩ k

/-- The ranges of L1 stay disjoint. -/
theorem rangesDisjoint_compact (hintact : Intact cfg s)
    (hdisjoint : LevelManager.RangesDisjoint s.fs s.levels.l1) :
    LevelManager.RangesDisjoint (s.compact cfg .whole now).fs
      (s.compact cfg .whole now).levels.l1 := by
  cases hl0 : s.levels.l0 with
  | nil =>
    obtain ⟨hlevels, hfs⟩ := hhoused.compact_nil hl0
    rw [hlevels, hfs]
    exact hdisjoint
  | cons oldest newer =>
    have ho : s.levels.l0.head? = some oldest := by rw [hl0]; rfl
    have hnew := htimely.outputPath_notMem hhoused ho
    have hswept := LevelManager.swept_of_ok ho (compact_eq_ok hok) fun hin =>
      hnew (LevelManager.mem_of_inputs hin)
    have hlevels : (s.compact cfg .whole now).levels.l1 =
        s.levels.untouched s.fs ++ [LevelManager.outputPath now oldest] :=
      congrArg LevelManager.l1 hswept.levels
    rw [hlevels]
    exact LevelManager.rangesDisjoint_compact (fun _ => rfl) (fun _ => rfl)
      (fun p hp => Fs.Stored.sorted (hintact.complete hhoused hp)) ho (compact_eq_ok hok)
      (fun q hq => (hhoused.tracked (LevelManager.mem_of_l1 hq)).1) hdisjoint fun hu =>
        hnew (LevelManager.mem_of_l1 (LevelManager.mem_of_untouched hu))

end Compact

variable [DecidableEq T] {s s' : Sys T} {a : Act T}

/-! ### What threads leave as it is -/

/-- **A section leaves the tracked files alone.** -/
theorem Housed.fs_beside (h : Housed cfg s) (hs : Step cfg s a s') (ha : a.beside = true)
    {p : Path} (hp : p ∈ s.levels.l0 ++ s.levels.l1) : s'.fs p = s.fs p := by
  obtain ⟨e, hwithin, hfs, -⟩ := hs.exists_prog ha
  rw [hfs]
  exact hwithin.run_compl s.fs fun hflush => h.flushFiles_subset 0 hflush (Or.inl hp)

/-- So the condition lasts as long as nothing is published. -/
theorem Timely.beside {now : ℕ} (h : s.Timely cfg now) (hhoused : Housed cfg s)
    (hs : Step cfg s a s') (ha : a.beside = true) (hpublish : ∀ t, a ≠ .publish t) :
    s'.Timely cfg now := by
  have hlevels := hs.levels_eq ha hpublish
  have hrecords : s.levels.l0.map s'.fs.records = s.levels.l0.map s.fs.records :=
    List.map_congr_left fun p hp =>
      Fs.records_congr (hhoused.fs_beside hs ha (List.mem_append_left _ hp))
  refine ⟨by rw [hlevels]; exact h.clock, fun k => ?_⟩
  rw [hlevels]
  have hagree := h.agree k
  rw [oldestL0, newestL0, List.map_reverse] at hagree ⊢
  rw [hrecords]
  exact hagree

/-- **The ranges of L1 stay disjoint** between two crashes. -/
theorem rangesDisjoint_step {P : Sys T → Act T → Prop} (hhoused : Housed cfg s)
    (hintact : Intact cfg s) (hdisjoint : LevelManager.RangesDisjoint s.fs s.levels.l1)
    (hs : Step cfg s a s') (htended : s.Tended cfg P a)
    (hrestart : ∀ listing, a ≠ .restart listing) :
    LevelManager.RangesDisjoint s'.fs s'.levels.l1 := by
  have hbeside : a.beside = true → s'.levels.l1 = s.levels.l1 →
      LevelManager.RangesDisjoint s'.fs s'.levels.l1 := by
    intro ha hl1
    rw [hl1]
    exact hdisjoint.congr fun p hp => hhoused.fs_beside hs ha (List.mem_append_right _ hp)
  cases hs with
  | @publish t e w => exact hbeside rfl (s.levels.l1_addL0File w.path)
  | search => exact hdisjoint
  | compact =>
    obtain ⟨rfl, htimely, hok⟩ := htended
    exact rangesDisjoint_compact hhoused htimely hok hintact hdisjoint
  | restart => exact absurd rfl (hrestart _)
  | _ => exact hbeside rfl rfl

end Sys

/-! ### The process -/

/-- What a compaction has come to. -/
def Background.result : Background → Option (Res CompactionError Unit)
  | compacting _ _ _ (.ret (res, _)) => some res
  | _ => none

namespace Process

/-- What threads do meets a condition, and so do the searches, in the moment of their answers.
No compaction starts, and none fails or is cut short. -/
def Meets (P : Sys T → Tabula.Act T → Prop) (f : Process T) : Act T → Prop
  | .thread a => P f.sys a
  | .answer t => P f.sys (.search t)
  | .finish => f.background.result = some (.ok ())
  | .crash listing => ¬f.background.Writes ∧ P f.sys (.restart listing)
  | .compact _ _ _ => False
  | .lock _ | .read _ | .wake | .check | .work | .drop | .exit => True

/-- The compactions that start are such that nobody will notice them. -/
def Tended (cfg : Config) (P : Sys T → Tabula.Act T → Prop) (f : Process T) : Act T → Prop
  | .compact io _ now => io = .whole ∧ f.sys.Timely cfg now
  | a => f.Meets P a

theorem Meets.tended {P : Sys T → Tabula.Act T → Prop} {f : Process T} {a : Act T}
    (h : f.Meets P a) : f.Tended cfg P a := by
  cases a with
  | compact => exact h.elim
  | _ => exact h

/-- **The process is on its way from the state of the store**, with a compaction that nobody
will notice. -/
structure Attends (cfg : Config) (f : Process T) (s : Sys T) : Prop where
  toMatches : Matches cfg f s
  timely : ∀ io cuts now p, f.background = .compacting io cuts now p →
    io = .whole ∧ s.Timely cfg now

/-- A condition does not look at the files. -/
def Blind (P : Sys T → Tabula.Act T → Prop) : Prop := ∀ s fs a, P s a → P { s with fs := fs } a

namespace Attends

variable [DecidableEq T] {f f' : Process T} {s : Sys T} {P : Sys T → Tabula.Act T → Prop}

/-- **One step** is none of the store, or one that meets the condition. -/
theorem step (h : Attends cfg f s) (hhoused : s.Housed cfg) (hP : Blind P) {a : Act T}
    (hs : Step cfg f a f') (htended : f.Tended cfg P a) :
    ∃ bs s', Runs.Run (Runs.Guarded (Tabula.Step cfg) fun s a => s.Tended cfg P a) s bs s' ∧
      Attends cfg f' s' := by
  have hm := h.toMatches
  have hsys : ∀ a, P f.sys a → P s a := by
    intro a ha
    have hsame : { f.sys with fs := s.fs } = s := by rw [hm.sys]
    exact hsame ▸ hP f.sys s.fs a ha
  have hnone : ∀ {f' : Process T}, Matches cfg f' s → (∀ io cuts now p,
      f'.background = .compacting io cuts now p → io = .whole ∧ s.Timely cfg now) →
      ∃ bs s', Runs.Run (Runs.Guarded (Tabula.Step cfg) fun s a => s.Tended cfg P a) s bs s' ∧
        Attends cfg f' s' := fun hm htimely => ⟨[], s, .nil, hm, htimely⟩
  cases hs with
  | @thread a s' ha hs =>
    have hbeside := ha.beside
    obtain ⟨s₁, hs₁, hm'⟩ := hm.thread hhoused ha hbeside hs
    have hPs : s.Tended cfg P a := by
      cases a with
      | compact => simp [Tabula.Act.beside] at hbeside
      | _ => exact hsys _ htended
    refine ⟨[a], s₁, Runs.Run.single ⟨hs₁, hPs⟩, hm', fun io cuts now p hb => ?_⟩
    obtain ⟨rfl, htimely⟩ := h.timely io cuts now p hb
    refine ⟨rfl, htimely.beside hhoused hs₁ hbeside ?_⟩
    rintro t rfl
    exact ha.2.1 (Background.writes_of_eq hb)
  | lock hpc _ hfree _ =>
    exact hnone (hm.lock hpc hfree) fun _ _ _ _ hb => absurd (Background.writes_of_eq hb) hfree
  | read hsearch hnext => exact hnone (hm.read hsearch hnext) h.timely
  | @answer t key r hpc hsearch =>
    obtain ⟨hs, hm'⟩ := hm.answer hpc hsearch
    exact ⟨[.search t], _, Runs.Run.single ⟨hs, hsys _ htended⟩, hm',
      fun _ _ _ _ hb => absurd (Background.writes_of_eq hb) (hm.not_writes hsearch)⟩
  | wake hb =>
    exact hnone (hm.background (by rw [hb]; exact id) id f.shutdown) fun _ _ _ _ h' => by simp at h'
  | check hb =>
    cases hneeds : f.sys.levels.needsCompaction with
    | false =>
      exact hnone (hm.background (by rw [hb]; exact id) id f.shutdown) (by simp)
    | true =>
      exact hnone (hm.background (by rw [hb]; exact id) id f.shutdown) (by simp)
  | @compact io cuts now hb hfree =>
    obtain ⟨rfl, htimely⟩ := htended
    have hquiet : ¬f.background.Writes := by
      rw [hb]
      exact id
    refine hnone (hm.compact hb hfree htimely.notMem) fun io' cuts' now' p hp => ?_
    obtain ⟨rfl, -, rfl, -⟩ := Background.compacting.inj hp
    exact ⟨rfl, hm.sys_eq hquiet ▸ htimely⟩
  | work hb hnext =>
    refine hnone (hm.work hb hnext) fun io' cuts' now' p hp => ?_
    obtain ⟨rfl, rfl, rfl, -⟩ := Background.compacting.inj hp
    exact h.timely _ _ _ _ hb
  | @finish io cuts now res lm hb =>
    obtain ⟨rfl, htimely⟩ := h.timely io cuts now _ hb
    obtain ⟨hreach, -, -⟩ := hm.compacting _ cuts now _ hb
    have hrun := hreach.run_eq
    rw [LevelManager.run_compactProg] at hrun
    obtain ⟨hres, -⟩ := Prod.mk.inj hrun
    have hok : res = .ok () := by
      have hresult : f.background.result = some (.ok ()) := htended
      rw [hb] at hresult
      exact Option.some.inj hresult
    have hstep : Tabula.Step cfg s (.compact .whole now) _ := .compact
    exact ⟨[.compact .whole now], _, Runs.Run.single ⟨hstep, rfl, htimely,
      (Prod.mk.inj hres).1.symm.trans hok⟩, hm.finish hb, by simp [hok, Background.after]⟩
  | drop => exact hnone ⟨hm.sys, hm.quiet, hm.compacting, hm.search⟩ h.timely
  | exit hb => exact hnone (hm.background (by rw [hb]; exact id) id f.shutdown) (by simp)
  | @crash listing mem levels hl hopen =>
    obtain ⟨hquiet, hPs⟩ := htended
    have hsame := hm.sys_eq hquiet
    rw [interrupted, if_neg hquiet, hsame]
    rw [hsame] at hl hopen hPs
    exact ⟨[.restart listing], _, Runs.Run.single ⟨.restart hl hopen, hPs⟩,
      ⟨rfl, fun _ => rfl, fun _ _ _ _ hp => by simp at hp, fun _ _ hp => by simp at hp⟩, by simp⟩

end Attends

/-- **Every such run of the process is one of the store that meets the condition.** -/
theorem exists_tended [DecidableEq T] {P : Sys T → Tabula.Act T → Prop} (hP : Blind P)
    (hdistinct : ∀ s a, P s a → s.Distinct cfg a) {as : List (Act T)} {f : Process T}
    (hrun : Runs.Run (Runs.Guarded (Step cfg) fun f a => f.Tended cfg P a) init as f) :
    ∃ bs s, Runs.Run (Runs.Guarded (Tabula.Step cfg) fun s a => s.Tended cfg P a) Sys.init bs s ∧
      Attends cfg f s := by
  induction hrun with
  | nil => exact ⟨[], Sys.init, .nil, .init, by simp [init]⟩
  | @snoc as f a f' _ hs ih =>
    obtain ⟨bs, s, hrun, h⟩ := ih
    have hhoused : s.Housed cfg := .of_run (hrun.mono fun s a s' hs => ⟨hs.1, by
      cases a with
      | compact => exact hs.2.2.1.notMem
      | _ => exact hdistinct _ _ hs.2⟩)
    obtain ⟨bs', s', hrun', h'⟩ := h.step hhoused hP hs.1 hs.2
    exact ⟨bs ++ bs', s', hrun.trans hrun', h'⟩

section Schedules

variable [Fintype T] [DecidableEq T] {P : Sys T → Tabula.Act T → Prop} [∀ s a, Decidable (P s a)]

instance (f : Process T) : (a : Act T) → Decidable (f.Meets P a)
  | .thread a => inferInstanceAs (Decidable (P f.sys a))
  | .answer t => inferInstanceAs (Decidable (P f.sys (.search t)))
  | .finish => inferInstanceAs (Decidable (f.background.result = some (.ok ())))
  | .crash listing =>
    inferInstanceAs (Decidable (¬f.background.Writes ∧ P f.sys (.restart listing)))
  | .compact _ _ _ => .isFalse id
  | .lock _ | .read _ | .wake | .check | .work | .drop | .exit => .isTrue trivial

/-- A compaction can start: the readings of the outputs in L1 are these, and nobody will notice
it. -/
def Ready (cfg : Config) (f : Process T) (outputs : List ℕ) (now : ℕ) : Prop :=
  f.sys.levels.l1 = outputs.map (fun n => ⟨cfg.dir, FileName.l1Name n⟩) ∧
    (∀ n ∈ outputs, n < now ∧ FileName.SameDigits n now) ∧
    ∀ p ∈ f.sys.levels.l0, ∀ r ∈ f.sys.fs.records p,
      oldestL0 f.sys.fs f.sys.levels r.1 = newestL0 f.sys.fs f.sys.levels r.1

instance (cfg : Config) (f : Process T) (outputs : List ℕ) (now : ℕ) :
    Decidable (f.Ready cfg outputs now) := inferInstanceAs (Decidable (_ ∧ _ ∧ _))

omit [Fintype T] [DecidableEq T] in
theorem Ready.timely {f : Process T} {outputs : List ℕ} {now : ℕ} (h : f.Ready cfg outputs now) :
    f.sys.Timely cfg now := by
  obtain ⟨hl1, hclock, hrecords⟩ := h
  refine ⟨fun n hn => ?_, Sys.agree_of_records hrecords⟩
  rw [hl1] at hn
  obtain ⟨m, hm, he⟩ := List.mem_map.mp hn
  exact FileName.l1Name_inj (Path.mk.inj he).2 ▸ hclock m hm

/-- A schedule in which compactions start, each with the readings of the outputs there are and
its own one. -/
def followStages (cfg : Config) (P : Sys T → Tabula.Act T → Prop) [∀ s a, Decidable (P s a)] :
    Process T → List (List (Act T) × List ℕ × ℕ) → List (Act T) → Option (Process T)
  | f, [], last => Runs.follow (next cfg) (Meets P) f last
  | f, (as, outputs, now) :: rest, last => (Runs.follow (next cfg) (Meets P) f as).bind fun f =>
      if f.Ready cfg outputs now then
        (f.next cfg (.compact .whole [] now)).bind fun f => followStages cfg P f rest last
      else none

theorem exists_of_followStages {f f' : Process T} {stages : List (List (Act T) × List ℕ × ℕ)}
    {last : List (Act T)} (h : followStages cfg P f stages last = some f') :
    ∃ as, Runs.Run (Runs.Guarded (Step cfg) fun f a => f.Tended cfg P a) f as f' := by
  have hrun : ∀ {f f' : Process T} {as : List (Act T)},
      Runs.follow (next cfg) (Meets P) f as = some f' →
      Runs.Run (Runs.Guarded (Step cfg) fun f a => f.Tended cfg P a) f as f' := fun h =>
    (Runs.run_of_follow step_of_next h).mono fun _ _ _ hs => ⟨hs.1, hs.2.tended⟩
  induction stages generalizing f with
  | nil => exact ⟨_, hrun h⟩
  | cons stage rest ih =>
    obtain ⟨f₁, h₁, h⟩ := Option.bind_eq_some_iff.mp h
    split at h
    · rename_i hready
      obtain ⟨f₂, h₂, h⟩ := Option.bind_eq_some_iff.mp h
      obtain ⟨as, hrest⟩ := ih h
      exact ⟨_, ((hrun h₁).snoc ⟨step_of_next h₂, rfl, hready.timely⟩).trans hrest⟩
    · simp at h

/-- It leads to a state with a property. -/
theorem exists_of_compactions (cfg : Config) (stages : List (List (Act T) × List ℕ × ℕ))
    (last : List (Act T)) (Q : Process T → Prop) [DecidablePred Q]
    (h : (followStages cfg P init stages last).any (fun f => decide (Q f)) = true) :
    ∃ as f, Runs.Run (Runs.Guarded (Step cfg) fun f a => f.Tended cfg P a) init as f ∧ Q f := by
  obtain ⟨f, hf, hQ⟩ := (Option.any_eq_true _ _).mp h
  obtain ⟨as, hrun⟩ := exists_of_followStages hf
  exact ⟨as, f, hrun, of_decide_eq_true hQ⟩

end Schedules

end Process

namespace Process

/-- What is left of the process when it dies, and is opened again with these levels. -/
def reborn (f : Process T) (levels : LevelManager) : Process T :=
  ⟨f.interrupted.restart (MemTable.new.applyAll (Sys.log f.sys.hist)) levels, fun _ => none,
    .waiting, false⟩

/-- It may die where no compaction is on its way. -/
theorem crash_of_open [DecidableEq T] {P : Sys T → Tabula.Act T → Prop} {f : Process T}
    (hquiet : ¬f.background.Writes) {listing : List Path} {levels : LevelManager}
    (hl : f.sys.fs.Lists cfg.dir listing) (hopen : Lsm.open (some f.sys.wal) listing =
      .ok (MemTable.new.applyAll (Sys.log f.sys.hist), levels)) (hP : P f.sys (.restart listing)) :
    Runs.Guarded (Step cfg) (fun f a => f.Tended cfg P a) f (.crash listing) (f.reborn levels) :=
  ⟨.crash hl hopen, hquiet, hP⟩

end Process

/-! ### Any number of clients -/

/-- Nothing fails, unless the process dies. -/
def Act.Lives : Act T → Prop
  | compact _ _ | appendFails _ _ | flushFails _ | truncateFails _ => False
  | call _ _ | append _ | insert _ | name _ _ | swap _ | create _ | write _ _ | finish _ | rename _
  | truncate _ | publish _ | look _ | search _ | restart _ => True

instance : (a : Act T) → Decidable a.Lives
  | .compact _ _ | .appendFails _ _ | .flushFails _ | .truncateFails _ => .isFalse id
  | .call _ _ | .append _ | .insert _ | .name _ _ | .swap _ | .create _ | .write _ _ | .finish _
  | .rename _ | .truncate _ | .publish _ | .look _ | .search _ | .restart _ => .isTrue trivial

/-- Nothing is lost: no flush fails, the process lives, and an append that fails leaves nothing
behind. -/
def Act.Lasts : Act T → Prop
  | compact _ _ | restart _ | flushFails _ | truncateFails _ => False
  | appendFails _ n => n = 0
  | call _ _ | append _ | insert _ | name _ _ | swap _ | create _ | write _ _ | finish _ | rename _
  | truncate _ | publish _ | look _ | search _ => True

instance : (a : Act T) → Decidable a.Lasts
  | .compact _ _ | .restart _ | .flushFails _ | .truncateFails _ => .isFalse id
  | .appendFails _ n => inferInstanceAs (Decidable (n = 0))
  | .call _ _ | .append _ | .insert _ | .name _ _ | .swap _ | .create _ | .write _ _ | .finish _
  | .rename _ | .truncate _ | .publish _ | .look _ | .search _ => .isTrue trivial

namespace Sys

/-- **What clients have to do** for their calls to take effect at one moment: flushes add their
files in the order of their swaps, a `get` searches the levels when no flush has its key, and
nothing is lost. -/
structure Concurs (s : Sys T) (a : Act T) : Prop where
  order : s.KeepsOrder a
  sighted : s.Sighted a
  lasts : a.Lasts
  fits : a.Fits

instance [Fintype T] [DecidableEq T] (s : Sys T) (a : Act T) : Decidable (s.Concurs a) :=
  decidable_of_iff (s.KeepsOrder a ∧ s.Sighted a ∧ a.Lasts ∧ a.Fits)
    ⟨fun h => ⟨h.1, h.2.1, h.2.2.1, h.2.2.2⟩, fun h => ⟨h.1, h.2, h.3, h.4⟩⟩

theorem Concurs.distinct {s : Sys T} {a : Act T} (h : s.Concurs a) : s.Distinct cfg a := by
  cases a with
  | name => exact h.order
  | compact => exact h.lasts.elim
  | _ => trivial

variable [DecidableEq T]

/-- A compaction that is tended does not disturb. -/
theorem undisturbed_of_timely {s : Sys T} (hhoused : Housed cfg s) (hintact : Intact cfg s)
    (hdisjoint : LevelManager.RangesDisjoint s.fs s.levels.l1) {now : ℕ}
    (htimely : s.Timely cfg now)
    (hok : (s.levels.compact cfg.sizing cfg.heap .whole now s.fs).1 = .ok ()) :
    s.Undisturbed cfg (.compact .whole now) := by
  refine ⟨htimely.notMem, fun k => ?_⟩
  have hstep : Step cfg s (.compact .whole now) (s.compact cfg .whole now) := .compact
  have hhoused' := hhoused.step hstep (by simp) (by
    rintro io now' ⟨⟩
    exact htimely.notMem)
  have hintact' := hintact.step hhoused hstep (by simp)
  have hsame := searchLevels_compact hhoused htimely hok hintact hdisjoint k
  rw [hintact.searchLevels_eq hhoused, hintact'.searchLevels_eq hhoused'] at hsame
  exact Except.ok.inj hsame

/-- So the run meets the condition of the store. -/
theorem coherent_of_tended {as : List (Act T)} {s : Sys T}
    (hrun : Runs.Run (Runs.Guarded (Step cfg) fun s a => s.Tended cfg Concurs a) Sys.init as s) :
    Runs.Run (Runs.Guarded (Step cfg) fun s a => s.Coherent cfg a ∧ a.Fits ∧ a.Whole)
      Sys.init as s ∧ LevelManager.RangesDisjoint s.fs s.levels.l1 := by
  induction hrun with
  | nil => exact ⟨.nil, List.Pairwise.nil⟩
  | @snoc as s a s' _ hs ih =>
    obtain ⟨hrun, hdisjoint⟩ := ih
    have h := Consistent.of_run hrun
    obtain ⟨hs, htended⟩ := hs
    have hrestart : ∀ listing, a ≠ .restart listing := by
      rintro listing rfl
      exact htended.lasts
    refine ⟨hrun.snoc ⟨hs, ?_⟩,
      rangesDisjoint_step h.housed h.intact hdisjoint hs htended hrestart⟩
    cases a with
    | compact io now =>
      obtain ⟨rfl, htimely, hok⟩ := htended
      exact ⟨⟨trivial, trivial, undisturbed_of_timely h.housed h.intact hdisjoint htimely hok⟩,
        trivial, trivial⟩
    | restart | flushFails | truncateFails => exact htended.lasts.elim
    | appendFails t n => exact ⟨⟨htended.order, htended.sighted, trivial⟩, trivial, htended.lasts⟩
    | _ => exact ⟨⟨htended.order, htended.sighted, trivial⟩, htended.fits, trivial⟩

end Sys

namespace Process

/-- **The process is linearizable**, with a background thread that compacts at any time, file
by file. -/
theorem linearizable_of_run [DecidableEq T] {as : List (Act T)} {f : Process T}
    (hrun : Runs.Run (Runs.Guarded (Step cfg) fun f a => f.Tended cfg Sys.Concurs a) init as f) :
    Sys.Linearizable f.sys.hist := by
  have hblind : Blind (Sys.Concurs (T := T)) := by
    intro s fs a h
    cases a <;> exact ⟨h.order, h.sighted, h.lasts, h.fits⟩
  obtain ⟨bs, s, hrun, h⟩ := exists_tended hblind (fun s a h => h.distinct) hrun
  have hhist : f.sys.hist = s.hist := by rw [h.toMatches.sys]
  rw [hhist]
  exact Sys.linearizable_of_coherent (Sys.coherent_of_tended hrun).1

/-- A `get` begins, four files are merged while another thread writes a fifth one, and the `get`
finds its key in the output. -/
theorem linearizable_of_run_merged : ∃ f : Process Bool,
    (f.sys.levels.l0.length = 1 ∧ .answered true [3] (.ok (some [1])) ∈ f.sys.hist) ∧
      Sys.Linearizable f.sys.hist := by
  let flush := (Act.flush false 5 5).take 6
  obtain ⟨_, f, hrun, hf⟩ := exists_of_compactions (P := Sys.Concurs) (.ofThreshold 1)
    [(Act.flush false 1 1 ++ Act.flush false 2 2 ++ Act.flush false 3 3 ++ Act.flush false 4 4 ++
      [.wake, .check, .thread (.call true (.get [3])), .thread (.look true)], [], 6)]
    (flush ++ List.replicate 11 .work ++ [.thread (.finish false), .finish, .lock true,
      .thread (.rename false), .read true, .answer true, .thread (.truncate false),
      .thread (.publish false)])
    (fun f => f.sys.levels.l0.length = 1 ∧ .answered true [3] (.ok (some [1])) ∈ f.sys.hist)
    (by decide +kernel)
  exact ⟨f, hf, linearizable_of_run hrun⟩

end Process

end Tabula
