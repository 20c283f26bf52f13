import Tabula.Lsm.FailedFlush
import Tabula.Lsm.Process

/-!
# Searches and compactions are atomic

Every run of `Tabula.Process.Step` is one of `Tabula.Step`: the same sections of threads in
the same order, with the same calls, the same answers and the same lists, as if every
`get` had searched its files and every compaction had rewritten its own in the moment in
which it lets go of the lock (`Tabula.Process.refines_of_run`). So what holds in every run
of `Tabula.Step` holds of the process.

The lock keeps a search from meeting a compaction or a file that is being published. What
it does not keep away is a flush on its way, which writes and renames files meanwhile. But
its files are not in the lists yet, and no compaction writes them
(`Tabula.Sys.Housed.flushFiles_subset`), as long as no path is used twice. A crash may
come in the middle of a compaction; the directory is then one that a failed compaction
leaves.
-/

namespace Tabula

open StorePrograms

variable {T : Type} {cfg : Config}

/-! ### What a section does with files -/

/-- The files of the flushes on their way. -/
def Sys.flushFiles (s : Sys T) : Set Path :=
  {p | ∃ t q, (s.pc t).path = some q ∧ (p = q ∨ p = q.tmp)}

/-- Neither a search nor a compaction nor a crash. -/
def Act.beside : Act T → Bool
  | search _ | compact _ _ | restart _ => false
  | _ => true

theorem Process.Admits.beside {f : Process T} {a : Tabula.Act T} (ha : f.Admits a) :
    a.beside = true := by
  cases a with
  | search | compact | restart => exact ha.elim
  | _ => rfl

section Step

variable [DecidableEq T] {s s' : Sys T} {a : Act T}

/-- **Whatever files there are, a section does the same with those of its flush**, and
everything else it does is the same as well. -/
theorem Step.exists_prog (hs : Step cfg s a s') (ha : a.beside = true) :
    ∃ e : FileProg Unit, e.Within s.flushFiles ∧ s'.fs = (e.run s.fs).2 ∧
      ∀ fs, Step cfg { s with fs := fs } a { s' with fs := (e.run fs).2 } := by
  cases hs with
  | call h => exact ⟨.ret (), trivial, rfl, fun _ => .call h⟩
  | append h hlock => exact ⟨.ret (), trivial, rfl, fun _ => .append h hlock⟩
  | insert h hsize => exact ⟨.ret (), trivial, rfl, fun _ => .insert h hsize⟩
  | fill h hsize => exact ⟨.ret (), trivial, rfl, fun _ => .fill h hsize⟩
  | name h => exact ⟨.ret (), trivial, rfl, fun _ => .name h⟩
  | swap h hlock => exact ⟨.ret (), trivial, rfl, fun _ => .swap h hlock⟩
  | @create t e w h =>
    have htmp : w.path.tmp ∈ s.flushFiles := ⟨t, w.path, by rw [h]; rfl, Or.inr rfl⟩
    exact ⟨.put w.path.tmp (some []) (.ret ()), ⟨htmp, trivial⟩, rfl, fun _ => .create h⟩
  | @write t e w n bytes h hbytes =>
    have htmp : w.path.tmp ∈ s.flushFiles := ⟨t, w.path, by rw [h]; rfl, Or.inr rfl⟩
    exact ⟨.put w.path.tmp (some (bytes.take n)) (.ret ()), ⟨htmp, trivial⟩, rfl,
      fun _ => .write h hbytes⟩
  | @finish t e w bytes h hbytes hlen =>
    have htmp : w.path.tmp ∈ s.flushFiles := ⟨t, w.path, by rw [h]; rfl, Or.inr rfl⟩
    exact ⟨.put w.path.tmp (some bytes) (.ret ()), ⟨htmp, trivial⟩, rfl,
      fun _ => .finish h hbytes hlen⟩
  | @rename t e w h =>
    have hfile : w.path ∈ s.flushFiles := ⟨t, w.path, by rw [h]; rfl, Or.inl rfl⟩
    have htmp : w.path.tmp ∈ s.flushFiles := ⟨t, w.path, by rw [h]; rfl, Or.inr rfl⟩
    exact ⟨.move w.path.tmp w.path (.ret ()), ⟨htmp, hfile, trivial⟩, rfl, fun _ => .rename h⟩
  | truncate h => exact ⟨.ret (), trivial, rfl, fun _ => .truncate h⟩
  | publish h => exact ⟨.ret (), trivial, rfl, fun _ => .publish h⟩
  | hit h hget => exact ⟨.ret (), trivial, rfl, fun _ => .hit h hget⟩
  | miss h hget => exact ⟨.ret (), trivial, rfl, fun _ => .miss h hget⟩
  | search | compact | restart => simp [Act.beside] at ha
  | appendFails h hlock hn => exact ⟨.ret (), trivial, rfl, fun _ => .appendFails h hlock hn⟩
  | flushFails h hheld => exact ⟨.ret (), trivial, rfl, fun _ => .flushFails h hheld⟩
  | truncateFails h => exact ⟨.ret (), trivial, rfl, fun _ => .truncateFails h⟩

/-- Only a publication changes the lists. -/
theorem Step.levels_eq (hs : Step cfg s a s') (ha : a.beside = true)
    (hpublish : ∀ t, a ≠ .publish t) : s'.levels = s.levels := by
  cases hs with
  | search | compact | restart => simp [Act.beside] at ha
  | publish => exact absurd rfl (hpublish _)
  | _ => rfl

/-- A thread on its way to the levels stays there, until it searches them. -/
theorem Step.pc_missed (hs : Step cfg s a s') (ha : a.beside = true) {t : T} {key : Key}
    (h : s.pc t = .missed key) : s'.pc t = .missed key := by
  have hgoto : ∀ {t' pc}, s.pc t' ≠ .missed key → (s.goto t' pc).pc t = .missed key := by
    intro t' pc hne
    have ht : t ≠ t' := by
      rintro rfl
      exact hne h
    exact (Function.update_of_ne ht pc s.pc).trans h
  cases hs with
  | search | compact | restart => simp [Act.beside] at ha
  | call h' | append h' | insert h' | fill h' | name h' | swap h' | create h' | write h'
  | finish h' | rename h' | truncate h' | publish h' | hit h' | miss h' | appendFails h'
  | flushFails h' | truncateFails h' => exact hgoto (by simp [h'])

end Step

namespace Sys.Housed

variable {s : Sys T}

/-- **The files of flushes are no files of a compaction**, and are not in the lists. -/
theorem flushFiles_subset (h : Housed cfg s) (now : ℕ) :
    s.flushFiles ⊆ (LevelManager.compactFiles now s.levels)ᶜ := by
  rintro p ⟨t, q, hq, hp⟩ hin
  obtain ⟨n, -, rfl⟩ := (h.named.pc t).exists_path hq
  rcases hin with hin | ⟨oldest, ho, hin⟩
  · have hnamed := (h.tracked hin).1
    rcases hp with rfl | rfl
    · rcases List.mem_append.mp hin with hin | hin
      · exact h.apart t _ hin hq
      · obtain ⟨-, m, hm⟩ := h.l1 _ hin
        exact cfg.nextSstablePath_ne_l1 n m _ hm
    · exact hnamed.ne_tmp _ rfl
  · rw [h.outputPath_eq ho] at hin
    rcases hp with rfl | rfl
    · rcases hin with hin | hin
      · exact cfg.nextSstablePath_ne_l1 n now _ hin
      · exact (cfg.named_nextSstablePath n).ne_tmp _ hin
    · rcases hin with hin | hin
      · exact (cfg.named_l1 now).ne_tmp _ hin.symm
      · exact FileName.tmp_l0Name_ne_tmp_l1Name n now _ _ hin

theorem flushFiles_subset_readOrder (h : Housed cfg s) :
    s.flushFiles ⊆ {p | p ∈ s.levels.readOrder}ᶜ := fun _ hp hin =>
  h.flushFiles_subset 0 hp (Or.inl (h.mem_readOrder hin))

/-- In every run in which no path is used twice. -/
theorem of_run [DecidableEq T] {as : List (Act T)}
    (hrun : Runs.Run (Runs.Guarded (Step cfg) fun s a => s.Distinct cfg a) Sys.init as s) :
    Housed cfg s := by
  refine hrun.invariant .init ?_
  rintro s a s' h ⟨hs, hdistinct⟩
  refine h.step hs ?_ ?_
  · rintro t now rfl
    exact hdistinct
  · rintro io now rfl
    exact hdistinct

end Sys.Housed

/-! ### The simulation -/

theorem Background.writes_of_eq {b : Background} {io : CompactIo} {cuts : List ℕ} {now : ℕ}
    {rest : FileProg (Res CompactionError Unit × LevelManager)}
    (h : b = .compacting io cuts now rest) : b.Writes := by
  rw [h]
  trivial

namespace Process

/-- **The process is on its way from the state of the store**: what is left to do of a
search or of a compaction is left from what it does alone. -/
structure Matches (cfg : Config) (f : Process T) (s : Sys T) : Prop where
  sys : f.sys = { s with fs := f.sys.fs }
  quiet : ¬f.background.Writes → f.sys.fs = s.fs
  compacting : ∀ io cuts now p, f.background = .compacting io cuts now p →
    Reaches (s.levels.compactProg cfg.sizing cfg.heap io cuts now, s.fs) (p, f.sys.fs) ∧
      ⟨cfg.dir, FileName.l1Name now⟩ ∉ s.levels.l1 ∧ f.Unread
  search : ∀ t p, f.search t = some p →
    ∃ key, s.pc t = .missed key ∧ Reaches (searchProg s.levels key, s.fs) (p, s.fs)

/-- The step of a thread alone that an action is. -/
def Act.own : Act T → Option (Tabula.Act T)
  | thread a => some a
  | _ => none

namespace Matches

variable {f f' : Process T} {s : Sys T}

theorem init : Matches cfg (Process.init : Process T) Sys.init where
  sys := rfl
  quiet _ := rfl
  compacting _ _ _ _ h := by simp [Process.init] at h
  search _ _ h := by simp [Process.init] at h

theorem levels_eq (h : Matches cfg f s) : f.sys.levels = s.levels := by rw [h.sys]

theorem pc_eq (h : Matches cfg f s) : f.sys.pc = s.pc := by rw [h.sys]

/-- A search and a compaction exclude each other. -/
theorem not_writes (h : Matches cfg f s) {t : T} {p : FileProg (Res LsmError (Option Value))}
    (hsearch : f.search t = some p) : ¬f.background.Writes := by
  intro hwrites
  cases hb : f.background with
  | compacting io cuts now p' =>
    have hunread := (h.compacting io cuts now p' hb).2.2 t
    rw [hsearch] at hunread
    exact Option.some_ne_none p hunread
  | waiting | polling | due | exited | panicked =>
    rw [hb] at hwrites
    exact hwrites

/-- While no compaction is on its way, the two are the same state. -/
theorem sys_eq (h : Matches cfg f s) (hquiet : ¬f.background.Writes) : f.sys = s := by
  rw [h.sys, h.quiet hquiet]

/-- The background thread goes on without the lock. -/
theorem background (h : Matches cfg f s) (hquiet : ¬f.background.Writes) {b : Background}
    (hb : ¬b.Writes) (shutdown : Bool) :
    Matches cfg { f with background := b, shutdown := shutdown } s where
  sys := h.sys
  quiet _ := h.quiet hquiet
  compacting _ _ _ _ heq := absurd (Background.writes_of_eq heq) hb
  search := h.search

variable [DecidableEq T]

/-- **A section of a thread** is the same section of the store. -/
theorem thread (h : Matches cfg f s) (hh : s.Housed cfg) {a : Tabula.Act T} {s' : Sys T}
    (ha : f.Admits a) (hbeside : a.beside = true) (hs : Tabula.Step cfg f.sys a s') :
    ∃ s₁, Tabula.Step cfg s a s₁ ∧ Matches cfg { f with sys := s' } s₁ := by
  obtain ⟨e, hwithin, hfs, hstep⟩ := hs.exists_prog hbeside
  have hstep : Tabula.Step cfg s a { s' with fs := (e.run s.fs).2 } := by
    have hsame : { f.sys with fs := s.fs } = s := by rw [h.sys]
    exact hsame ▸ hstep s.fs
  have hflush : f.sys.flushFiles = s.flushFiles := by rw [h.sys, Sys.flushFiles, Sys.flushFiles]
  rw [hflush] at hwithin
  -- a publication needs the lock, so that it meets nobody who holds it
  have hlevels : (f.background.Writes ∨ ∃ t, f.search t ≠ none) → s'.levels = s.levels := by
    intro hheld
    refine (hs.levels_eq hbeside ?_).trans h.levels_eq
    rintro t rfl
    rcases hheld with hwrites | ⟨t, hsearch⟩
    · exact ha.2.1 hwrites
    · exact hsearch (ha.1 t)
  refine ⟨_, hstep, rfl, fun hquiet => ?_, fun io cuts now p hb => ?_, fun t p hsearch => ?_⟩
  · exact hfs.trans (by rw [h.quiet hquiet])
  · obtain ⟨hreach, hnew, hunread⟩ := h.compacting io cuts now p hb
    have hlevels := hlevels (Or.inl (Background.writes_of_eq hb))
    have hapart := hwithin.mono (hh.flushFiles_subset now)
    refine ⟨?_, ?_, hunread⟩
    · rw [hlevels, hfs]
      exact hreach.interleave (LevelManager.within_compactProg _ _ _ _ _ _) hapart
    · rw [hlevels]
      exact hnew
  · obtain ⟨key, hpc, hreach⟩ := h.search t p hsearch
    have hlevels := hlevels (Or.inr ⟨t, by rw [hsearch]; simp⟩)
    refine ⟨key, hs.pc_missed hbeside (h.pc_eq ▸ hpc), ?_⟩
    rw [hlevels]
    exact hreach.interleave (within_searchProg _ _) (hwithin.mono hh.flushFiles_subset_readOrder)

/-- A `get` starts to search. -/
theorem lock (h : Matches cfg f s) {t : T} {key : Key} (hpc : f.sys.pc t = .missed key)
    (hfree : ¬f.background.Writes) :
    Matches cfg (f.searching t (some (searchProg f.sys.levels key))) s where
  sys := h.sys
  quiet := h.quiet
  compacting _ _ _ _ hb := absurd (Background.writes_of_eq hb) hfree
  search t' p hp := by
    by_cases ht : t' = t
    · subst ht
      obtain rfl := Option.some.inj ((Function.update_self t' _ f.search).symm.trans hp)
      exact ⟨key, h.pc_eq ▸ hpc, by rw [h.levels_eq]; exact .refl _ _⟩
    · exact h.search t' p ((Function.update_of_ne ht _ f.search).symm.trans hp)

/-- It opens a file. -/
theorem read (h : Matches cfg f s) {t : T} {p q : FileProg (Res LsmError (Option Value))} {fs' : Fs}
    (hsearch : f.search t = some p) (hnext : p.next f.sys.fs = some (q, fs')) :
    Matches cfg (f.searching t (some q)) s where
  sys := h.sys
  quiet := h.quiet
  compacting _ _ _ _ hb := absurd (Background.writes_of_eq hb) (h.not_writes hsearch)
  search t' p' hp' := by
    by_cases ht : t' = t
    · subst ht
      obtain rfl := Option.some.inj ((Function.update_self t' _ f.search).symm.trans hp')
      obtain ⟨key, hpc, hreach⟩ := h.search t' p hsearch
      rw [h.quiet (h.not_writes hsearch)] at hnext
      have hreach := hreach.next hnext
      have hsame := hreach.of_readOnly (readOnly_searchProg s.levels key)
      exact ⟨key, hpc, hsame ▸ hreach⟩
    · exact h.search t' p' ((Function.update_of_ne ht _ f.search).symm.trans hp')

/-- **The search of a `get` is over**: it has found what a search of all files at once
finds. -/
theorem answer (h : Matches cfg f s) {t : T} {key : Key} {r : Res LsmError (Option Value)}
    (hpc : f.sys.pc t = .missed key) (hsearch : f.search t = some (.ret r)) :
    Tabula.Step cfg s (.search t) (s.answer t key r) ∧
      Matches cfg { f.searching t none with sys := f.sys.answer t key r } (s.answer t key r) := by
  have hquiet := h.not_writes hsearch
  obtain ⟨key', hpc', hreach⟩ := h.search t _ hsearch
  obtain rfl : key' = key := Pc.missed.inj (hpc'.symm.trans (h.pc_eq ▸ hpc))
  have hrun : (r, s.fs) = (searchProg s.levels key').run s.fs := hreach.run_eq
  rw [run_searchProg] at hrun
  obtain rfl := (Prod.mk.inj hrun).1
  refine ⟨.search hpc', ?_, fun _ => h.quiet hquiet, fun io cuts now p hb => ?_,
    fun t' p hp => ?_⟩
  · rw [h.sys_eq hquiet]
  · exact absurd (Background.writes_of_eq hb) hquiet
  · have hp : Function.update f.search t none t' = some p := hp
    by_cases ht : t' = t
    · subst ht
      exact absurd ((Function.update_self t' none f.search).symm.trans hp)
        (Option.some_ne_none p).symm
    · obtain ⟨key, hpc, hreach⟩ := h.search t' p
        ((Function.update_of_ne ht _ f.search).symm.trans hp)
      exact ⟨key, (Function.update_of_ne ht _ s.pc).trans hpc, hreach⟩

omit [DecidableEq T] in
/-- A compaction starts. -/
theorem compact (h : Matches cfg f s) {io : CompactIo} {cuts : List ℕ} {now : ℕ}
    (hb : f.background = .due) (hfree : f.Unread)
    (hnew : ⟨cfg.dir, FileName.l1Name now⟩ ∉ f.sys.levels.l1) :
    Matches cfg { f with
      background := .compacting io cuts now
        (f.sys.levels.compactProg cfg.sizing cfg.heap io cuts now) } s where
  sys := h.sys
  quiet hquiet := absurd trivial hquiet
  compacting io' cuts' now' p hp := by
    obtain ⟨rfl, rfl, rfl, rfl⟩ := Background.compacting.inj hp
    have hquiet : ¬f.background.Writes := by
      rw [hb]
      exact id
    rw [h.levels_eq] at hnew ⊢
    refine ⟨?_, hnew, hfree⟩
    change Reaches _ (_, f.sys.fs)
    rw [h.quiet hquiet]
    exact .refl _ _
  search := h.search

omit [DecidableEq T] in
/-- It does an operation on a file. -/
theorem work (h : Matches cfg f s) {io : CompactIo} {cuts : List ℕ} {now : ℕ}
    {p q : FileProg (Res CompactionError Unit × LevelManager)} {fs' : Fs}
    (hb : f.background = .compacting io cuts now p) (hnext : p.next f.sys.fs = some (q, fs')) :
    Matches cfg { f with
      background := .compacting io cuts now q, sys := { f.sys with fs := fs' } } s := by
  obtain ⟨hreach, hnew, hunread⟩ := h.compacting io cuts now p hb
  refine ⟨?_, fun hquiet => absurd trivial hquiet, fun io' cuts' now' p' hp => ?_, h.search⟩
  · change { f.sys with fs := fs' } = { s with fs := fs' }
    rw [h.sys]
  · obtain ⟨rfl, rfl, rfl, rfl⟩ := Background.compacting.inj hp
    exact ⟨hreach.next hnext, hnew, hunread⟩

omit [DecidableEq T] in
/-- **A compaction is over**: it has done what a compaction of all files at once does. -/
theorem finish (h : Matches cfg f s) {io : CompactIo} {cuts : List ℕ} {now : ℕ}
    {res : Res CompactionError Unit} {lm : LevelManager}
    (hb : f.background = .compacting io cuts now (.ret (res, lm))) :
    Matches cfg { f with
      background := .after res
      sys := { f.sys with levels := lm, hist := f.sys.hist ++ [.compacted] } }
      (s.compact cfg io now) := by
  obtain ⟨hreach, -, hunread⟩ := h.compacting io cuts now _ hb
  have hrun := hreach.run_eq
  rw [LevelManager.run_compactProg] at hrun
  obtain ⟨hres, hfs⟩ := Prod.mk.inj hrun
  obtain ⟨-, hlm⟩ := Prod.mk.inj hres
  refine ⟨?_, fun _ => hfs, fun _ _ _ _ hp => ?_, fun t p hp => ?_⟩
  · change { f.sys with levels := lm, hist := f.sys.hist ++ [Event.compacted] } =
      { s with
        levels := (s.levels.compact cfg.sizing cfg.heap io now s.fs).2.1
        fs := f.sys.fs
        hist := s.hist ++ [Event.compacted] }
    rw [← hlm, h.sys]
  · exact absurd (Background.writes_of_eq hp) (Background.not_writes_after res)
  · exact absurd ((hunread t).symm.trans hp) (Option.some_ne_none p).symm

/-- **A crash** leaves the directory that it leaves between two steps, behind a compaction
that has failed if it has come in the middle of one. -/
theorem crash (h : Matches cfg f s) {listing : List Path} {mem : MemTable} {levels : LevelManager}
    (hl : f.sys.fs.Lists cfg.dir listing)
    (hopen : Lsm.open (some f.sys.wal) listing = .ok (mem, levels)) :
    ∃ bs s', Runs.Run (Runs.Guarded (Tabula.Step cfg) fun s a => s.Distinct cfg a) s bs s' ∧
      bs.filter Tabula.Act.beside = [] ∧
      Matches cfg ⟨f.interrupted.restart mem levels, fun _ => none, .waiting, false⟩ s' := by
  have hmatches : ∀ s' : Sys T, f.interrupted.restart mem levels = s' →
      Matches cfg ⟨f.interrupted.restart mem levels, fun _ => none, .waiting, false⟩ s' := by
    rintro _ rfl
    exact ⟨rfl, fun _ => rfl, fun _ _ _ _ hp => by simp at hp, fun _ _ hp => by simp at hp⟩
  have hwal : s.wal = f.sys.wal := by rw [h.sys]
  rw [← hwal] at hopen
  cases hb : f.background with
  | compacting io cuts now p =>
    obtain ⟨hreach, hnew, -⟩ := h.compacting io cuts now p hb
    obtain ⟨io', -, hfs⟩ := LevelManager.exists_script_of_reaches hreach
    have hfs : (s.compact cfg io' now).fs = f.sys.fs := hfs
    rw [← hfs] at hl
    have hcompact : Runs.Guarded (Tabula.Step cfg) (fun s a => s.Distinct cfg a) s
        (.compact io' now) (s.compact cfg io' now) := ⟨.compact, hnew⟩
    have hrestart : Runs.Guarded (Tabula.Step cfg) (fun s a => s.Distinct cfg a)
        (s.compact cfg io' now) (.restart listing) ((s.compact cfg io' now).restart mem levels) :=
      ⟨.restart hl hopen, trivial⟩
    refine ⟨_, _, (Runs.Run.single hcompact).snoc hrestart, rfl, hmatches _ ?_⟩
    rw [interrupted, if_pos (Background.writes_of_eq hb), h.sys, ← hfs]
    rfl
  | waiting | polling | due | exited | panicked =>
    have hquiet : ¬f.background.Writes := by
      rw [hb]
      exact id
    have hsys := h.sys_eq hquiet
    rw [hsys] at hl
    refine ⟨_, _, Runs.Run.single ⟨.restart hl hopen, trivial⟩, rfl, hmatches _ ?_⟩
    rw [interrupted, if_neg hquiet, hsys]

/-- **One step** is none of the store, or one of it, or a compaction that is cut short and a
restart. -/
theorem step (h : Matches cfg f s) (hh : s.Housed cfg) {a : Act T} (hs : Step cfg f a f')
    (hdistinct : f.Distinct cfg a) :
    ∃ bs s', Runs.Run (Runs.Guarded (Tabula.Step cfg) fun s a => s.Distinct cfg a) s bs s' ∧
      bs.filter Tabula.Act.beside = a.own.toList ∧ Matches cfg f' s' := by
  have hnone : ∀ {f' : Process T}, Matches cfg f' s →
      ∃ bs s', Runs.Run (Runs.Guarded (Tabula.Step cfg) fun s a => s.Distinct cfg a) s bs s' ∧
        bs.filter Tabula.Act.beside = [] ∧ Matches cfg f' s' := fun h' =>
    ⟨[], s, .nil, rfl, h'⟩
  cases hs with
  | @thread a s' ha hs =>
    have hbeside := ha.beside
    obtain ⟨s₁, hs₁, h'⟩ := h.thread hh ha hbeside hs
    have hd : s.Distinct cfg a := by
      have hd : f.sys.Distinct cfg a := hdistinct
      rw [h.sys] at hd
      cases a <;> exact hd
    refine ⟨[a], s₁, Runs.Run.single ⟨hs₁, hd⟩, ?_, h'⟩
    rw [List.filter_cons_of_pos hbeside]
    rfl
  | lock hpc _ hfree _ => exact hnone (h.lock hpc hfree)
  | read hsearch hnext => exact hnone (h.read hsearch hnext)
  | answer hpc hsearch =>
    obtain ⟨hs, h'⟩ := h.answer hpc hsearch
    exact ⟨_, _, Runs.Run.single ⟨hs, trivial⟩, rfl, h'⟩
  | wake hb => exact hnone (h.background (by rw [hb]; exact id) id f.shutdown)
  | check hb =>
    refine hnone (h.background (by rw [hb]; exact id) ?_ f.shutdown)
    cases f.sys.levels.needsCompaction <;> exact id
  | compact hb hfree => exact hnone (h.compact hb hfree hdistinct)
  | work hb hnext => exact hnone (h.work hb hnext)
  | @finish io cuts now res lm hb =>
    have hnew := (h.compacting io cuts now _ hb).2.1
    have hstep : Tabula.Step cfg s (.compact io now) _ := .compact
    exact ⟨_, _, Runs.Run.single ⟨hstep, hnew⟩, rfl, h.finish hb⟩
  | drop => exact hnone ⟨h.sys, h.quiet, h.compacting, h.search⟩
  | exit hb => exact hnone (h.background (by rw [hb]; exact id) id f.shutdown)
  | crash hl hopen => exact h.crash hl hopen

end Matches

variable [DecidableEq T]

/-- **Every run of the process is one of the store**, with the same sections of threads in
the same order. -/
theorem matches_of_run {as : List (Act T)} {f : Process T}
    (hrun : Runs.Run (Runs.Guarded (Step cfg) fun f a => f.Distinct cfg a) init as f) :
    ∃ bs s, Runs.Run (Runs.Guarded (Tabula.Step cfg) fun s a => s.Distinct cfg a) Sys.init bs s ∧
      bs.filter Tabula.Act.beside = as.filterMap Act.own ∧ Matches cfg f s := by
  induction hrun with
  | nil => exact ⟨[], Sys.init, .nil, rfl, .init⟩
  | @snoc as f a f' _ hs ih =>
    obtain ⟨bs, s, hrun, hlabels, h⟩ := ih
    obtain ⟨bs', s', hrun', hlabels', h'⟩ := h.step (.of_run hrun) hs.1 hs.2
    refine ⟨bs ++ bs', s', hrun.trans hrun', ?_, h'⟩
    rw [List.filter_append, hlabels, hlabels', List.filterMap_append]
    cases hown : a.own <;> simp [hown]

/-- What holds of the sections of all threads, holds of them in that run, too. -/
theorem matches_of_run_of {P : Tabula.Act T → Prop} (hP : ∀ a, a.beside = false → P a)
    {as : List (Act T)} {f : Process T}
    (hrun : Runs.Run (Runs.Guarded (Step cfg) fun f a => f.Distinct cfg a ∧ ∀ b ∈ a.own, P b)
      init as f) :
    ∃ bs s, Runs.Run (Runs.Guarded (Tabula.Step cfg) fun s a => s.Distinct cfg a ∧ P a)
      Sys.init bs s ∧ Matches cfg f s := by
  obtain ⟨bs, s, hrun', hlabels, h⟩ := matches_of_run (hrun.mono fun _ _ _ hs => ⟨hs.1, hs.2.1⟩)
  refine ⟨bs, s, hrun'.guarded_mem.mono ?_, h⟩
  rintro s b s' ⟨⟨hs, hdistinct⟩, hb⟩
  refine ⟨hs, hdistinct, ?_⟩
  cases hbeside : b.beside with
  | false => exact hP b hbeside
  | true =>
    have hb : b ∈ as.filterMap Act.own := hlabels ▸ List.mem_filter.mpr ⟨hb, hbeside⟩
    obtain ⟨a, ha, hown⟩ := List.mem_filterMap.mp hb
    exact hrun.forall_mem (fun _ _ _ hs => hs.2.2) a ha b hown

/-- **The process works on a store**: what it has is what the store has, but for the files of a
compaction on its way, which are those that the compaction by itself comes to from the files
of the store, when it has as much left to do. -/
structure WorksOn (cfg : Config) (f : Process T) (s : Sys T) : Prop where
  sys : f.sys = { s with fs := f.sys.fs }
  quiet : ¬f.background.Writes → f.sys.fs = s.fs
  compacting : ∀ io cuts now p, f.background = .compacting io cuts now p →
    Reaches (s.levels.compactProg cfg.sizing cfg.heap io cuts now, s.fs) (p, f.sys.fs)

/-- **Searches and compactions are atomic**: every run of the process in which no path is used
twice is one of the store, with the same sections of threads in the same order, and works on
what that one ends in. -/
theorem refines_of_run {as : List (Act T)} {f : Process T}
    (hrun : Runs.Run (Runs.Guarded (Step cfg) fun f a => f.Distinct cfg a) init as f) :
    ∃ bs s, Runs.Run (Runs.Guarded (Tabula.Step cfg) fun s a => s.Distinct cfg a) Sys.init bs s ∧
      bs.filter Tabula.Act.beside = as.filterMap Act.own ∧ f.WorksOn cfg s := by
  obtain ⟨bs, s, hrun, hlabels, h⟩ := matches_of_run hrun
  exact ⟨bs, s, hrun, hlabels, h.sys, h.quiet, fun io cuts now p hb =>
    (h.compacting io cuts now p hb).1⟩

/-- A search goes on while a flush writes its file, and a compaction while that flush
renames it. -/
theorem refines_of_run_working : ∃ (as : List (Act Bool)) (f : Process Bool),
    (f.background.Writes ∧ .answered true [3] (.ok (some [1])) ∈ f.sys.hist) ∧
      ∃ bs s, Runs.Run (Runs.Guarded (Tabula.Step (.ofThreshold 1)) fun s a =>
        s.Distinct (.ofThreshold 1) a) Sys.init bs s ∧
          bs.filter Tabula.Act.beside = as.filterMap Act.own ∧ f.WorksOn (.ofThreshold 1) s := by
  let as : List (Act Bool) :=
    Act.flush false 1 1 ++ Act.flush false 2 2 ++ Act.flush false 3 3 ++ Act.flush false 4 4 ++
      [.thread (.call true (.get [3])), .thread (.look true), .lock true] ++
      (Act.flush false 5 5).take 6 ++
      [.read true, .thread (.finish false), .read true, .answer true, .wake, .check,
        .compact .whole [1] 6] ++
      List.replicate 5 .work ++ [.thread (.rename false), .work]
  obtain ⟨f, hrun, hf⟩ := exists_of_nexts (.ofThreshold 1) as
    (fun f => f.background.Writes ∧ .answered true [3] (.ok (some [1])) ∈ f.sys.hist)
    (by decide +kernel)
  exact ⟨as, f, hf, refines_of_run hrun⟩

end Process

end Tabula
