import Tabula.Levels.Files
import Tabula.Lsm.Flushes

/-!
# The paths of flushes

A flush names its file by the clock, before it takes any lock. As long as no two
flushes read the same time, no file is ever replaced, and a flush finds in its file
what it has swapped out (`Tabula.Sys.Named`). A compaction may come at any time: it
deletes files of L0, which are those of flushes that have ended. With one client the
flush on its way has read the clock last, and its name comes after those of all other
files (`Tabula.Sys.Latest`).

The directory can be listed at every moment of a run (`Tabula.Sys.exists_lists_of_run`),
so a crash can be followed by a restart wherever it happens.
-/

namespace Tabula

variable {T : Type} {cfg : Config}

/-- The path of a flush on its way. -/
@[simp] def Pc.path : Pc → Option Path
  | flushing _ (.named p) => some p
  | flushing _ (.swapped w) | flushing _ (.writing w) | flushing _ (.written w)
  | flushing _ (.renamed w) | flushing _ (.truncated w) => some w.path
  | idle | logging _ | logged _ | reading _ | missed _ | flushing _ .start => none

/-- The reading of the clock an event is, and whose it is. -/
def Event.reading : Event T → Option (T × ℕ)
  | clock t now => some (t, now)
  | _ => none

/-- What an event adds to L0. -/
def Event.publication : Event T → Option Swapped
  | published _ w => some w
  | _ => none

namespace Sys

/-- The readings of the clock that were taken for a path. -/
def clocks (hist : List (Event T)) : List (T × ℕ) := hist.filterMap Event.reading

/-- What has been added to L0, over the whole run. -/
def publications (hist : List (Event T)) : List Swapped := hist.filterMap Event.publication

@[simp] theorem clocks_append (hist evs : List (Event T)) :
    clocks (hist ++ evs) = clocks hist ++ clocks evs := List.filterMap_append

@[simp] theorem publications_append (hist evs : List (Event T)) :
    publications (hist ++ evs) = publications hist ++ publications evs := List.filterMap_append

/-- The clock is strictly increasing and does not gain a digit. -/
def Ticks (s : Sys T) : Act T → Prop
  | .name _ now => ∀ c ∈ clocks s.hist, c.2 < now ∧ FileName.SameDigits c.2 now
  | _ => True

instance (s : Sys T) : (a : Act T) → Decidable (s.Ticks a)
  | .name _ now => inferInstanceAs
      (Decidable (∀ c ∈ clocks s.hist, c.2 < now ∧ FileName.SameDigits c.2 now))
  | .call _ _ | .append _ | .insert _ | .swap _ | .create _ | .write _ _ | .finish _ | .rename _
  | .truncate _ | .publish _ | .look _ | .search _ | .compact _ _ | .restart _ | .appendFails _ _
  | .flushFails _ | .truncateFails _ => .isTrue trivial

theorem clocks_step [DecidableEq T] {s s' : Sys T} {a : Act T} (hs : Step cfg s a s')
    (ha : ∀ t now, a ≠ .name t now) : clocks s'.hist = clocks s.hist := by
  cases hs with
  | name => exact absurd rfl (ha _ _)
  | create | write | finish | rename | miss => rfl
  | call | append | insert | fill | swap | truncate | publish | hit | search | compact | restart
  | appendFails | flushFails | truncateFails =>
    refine (clocks_append _ _).trans ?_
    simp [clocks, Event.reading]

theorem publications_step [DecidableEq T] {s s' : Sys T} {a : Act T} (hs : Step cfg s a s')
    (ha : ∀ t, a ≠ .publish t) : publications s'.hist = publications s.hist := by
  cases hs with
  | publish => exact absurd rfl (ha _)
  | create | write | finish | rename | miss => rfl
  | call | append | insert | fill | name | swap | truncate | hit | search | compact | restart
  | appendFails | flushFails | truncateFails =>
    refine (publications_append _ _).trans ?_
    simp [publications, Event.publication]

/-- The path at a reading of the clock is the thread's own, and not in L0 yet. -/
def Owns (cfg : Config) (s : Sys T) (t : T) (now : ℕ) : Prop :=
  (t, now) ∈ clocks s.hist ∧ ∀ w ∈ publications s.hist, w.path ≠ cfg.nextSstablePath now

end Sys

/-- What is true of a flush on its way, where the readings are its own: its path is free
up to the rename, and holds what was swapped out from there on. -/
def Flush.Named (cfg : Config) (fs : Fs) (own : ℕ → Prop) : Flush → Prop
  | start => True
  | named p => ∃ now, own now ∧ p = cfg.nextSstablePath now ∧ fs p = none
  | swapped w | writing w | written w =>
      ∃ now, own now ∧ w.path = cfg.nextSstablePath now ∧ fs w.path = none
  | renamed w | truncated w =>
      ∃ now, own now ∧ w.path = cfg.nextSstablePath now ∧ cfg.Holds fs w.path w.old

def Pc.Named (cfg : Config) (fs : Fs) (own : ℕ → Prop) : Pc → Prop
  | flushing _ f => f.Named cfg fs own
  | _ => True

/-- Only the file of the flush matters. -/
theorem Pc.Named.congr {fs fs' : Fs} {own own' : ℕ → Prop} {pc : Pc} (h : pc.Named cfg fs own)
    (hown : ∀ now, own now → own' now)
    (hfs : ∀ now, own now → pc.path = some (cfg.nextSstablePath now) →
      fs' (cfg.nextSstablePath now) = fs (cfg.nextSstablePath now)) :
    pc.Named cfg fs' own' := by
  cases pc with
  | flushing e f =>
    cases f with
    | start => trivial
    | named p | swapped w | writing w | written w =>
      obtain ⟨now, hnow, hp, hfree⟩ := h
      exact ⟨now, hown now hnow, hp, by rw [hp, hfs now hnow (congrArg some hp), ← hp, hfree]⟩
    | renamed w | truncated w =>
      obtain ⟨now, hnow, hp, hholds⟩ := h
      exact ⟨now, hown now hnow, hp, hholds.congr (by rw [hp, hfs now hnow (congrArg some hp)])⟩
  | _ => trivial

/-- The path of a flush on its way is at a reading of its own. -/
theorem Pc.Named.exists_path {fs : Fs} {own : ℕ → Prop} {pc : Pc} (h : pc.Named cfg fs own)
    {p : Path} (hp : pc.path = some p) : ∃ now, own now ∧ p = cfg.nextSstablePath now := by
  cases pc with
  | flushing e f =>
    cases f with
    | start => simp at hp
    | _ =>
      obtain rfl := Option.some.inj hp
      obtain ⟨now, hnow, hp, -⟩ := h
      exact ⟨now, hnow, hp⟩
  | _ => simp at hp

/-- What is on its way has a path. -/
theorem Pc.path_of_out {pc : Pc} {w : Swapped} (h : pc.out = some w) : pc.path = some w.path := by
  cases pc with
  | flushing e f =>
    cases f with
    | start | named p => simp at h
    | _ =>
      obtain rfl := Option.some.inj h
      rfl
  | _ => simp at h

theorem Pc.Named.exists_own {fs : Fs} {own : ℕ → Prop} {pc : Pc} (h : pc.Named cfg fs own)
    {w : Swapped} (hw : pc.out = some w) : ∃ now, own now ∧ w.path = cfg.nextSstablePath now :=
  h.exists_path (Pc.path_of_out hw)

/-- **No two flushes have the same path**, and no file has been replaced. -/
structure Sys.Named (cfg : Config) (s : Sys T) : Prop where
  owner : ∀ t t' now, (t, now) ∈ clocks s.hist → (t', now) ∈ clocks s.hist → t = t'
  pc : ∀ t, (s.pc t).Named cfg s.fs (s.Owns cfg t)
  file : ∀ now, s.fs (cfg.nextSstablePath now) ≠ none → ∃ t, (t, now) ∈ clocks s.hist
  published : ∀ w ∈ publications s.hist, ∃ t now, (t, now) ∈ clocks s.hist ∧
    w.path = cfg.nextSstablePath now

namespace Sys.Named

theorem init : Named cfg (Sys.init : Sys T) :=
  ⟨fun _ _ _ h => absurd h List.not_mem_nil, fun _ => trivial, fun _ h => absurd rfl h,
    fun _ h => absurd h List.not_mem_nil⟩

variable [DecidableEq T] {s s' : Sys T} {a : Act T}

omit [DecidableEq T] in
/-- The record of paths is as it was; files may have gone, but none of a flush on its way. -/
theorem of_fewer (h : Named cfg s) (hclocks : clocks s'.hist = clocks s.hist)
    (hpublications : publications s'.hist = publications s.hist)
    (hpc : ∀ t, (s'.pc t).Named cfg s'.fs (s.Owns cfg t))
    (hfs : ∀ now, s'.fs (cfg.nextSstablePath now) ≠ none → s.fs (cfg.nextSstablePath now) ≠ none) :
    Named cfg s' := by
  have howns : s'.Owns cfg = s.Owns cfg := by
    unfold Owns
    rw [hclocks, hpublications]
  refine ⟨by rw [hclocks]; exact h.owner, by rw [howns]; exact hpc, fun now hne => ?_, ?_⟩
  · rw [hclocks]
    exact h.file now (hfs now hne)
  · rw [hclocks, hpublications]
    exact h.published

/-- A thread moves on, and nothing happens to the files of L0. -/
theorem moved (h : Named cfg s) {t : T} {pc : Pc} (hpcs : s'.pc = Function.update s.pc t pc)
    (hclocks : clocks s'.hist = clocks s.hist)
    (hpublications : publications s'.hist = publications s.hist)
    (hfs : ∀ now, s'.fs (cfg.nextSstablePath now) = s.fs (cfg.nextSstablePath now))
    (hpc : pc.Named cfg s.fs (s.Owns cfg t)) : Named cfg s' := by
  refine h.of_fewer hclocks hpublications (fun t' => ?_) fun now hne => (hfs now).symm.trans_ne hne
  rw [hpcs]
  refine Pc.Named.congr ?_ (fun _ hnow => hnow) fun now _ _ => hfs now
  exact forall_goto (P := fun t' x => Pc.Named cfg s.fs (s.Owns cfg t') x)
    hpc (fun t' _ => h.pc t') t'

omit [DecidableEq T] in
/-- Two flushes on their way have different paths. -/
theorem path_ne (h : Named cfg s) {t t' : T} (ht : t' ≠ t) {now now' : ℕ} (hnow : s.Owns cfg t now)
    (hnow' : s.Owns cfg t' now') : cfg.nextSstablePath now' ≠ cfg.nextSstablePath now := by
  intro he
  obtain rfl := cfg.nextSstablePath_inj he
  exact ht (h.owner t' t now' hnow'.1 hnow.1)

/-- A flush takes the path of a new reading: there is no such file, and no flush has it. -/
theorem name (h : Named cfg s) {t : T} {e : WalEntry} {now : ℕ}
    (hnow : ∀ t', (t', now) ∉ clocks s.hist) : Named cfg (s.name t cfg e now) := by
  have hnew : clocks (s.name t cfg e now).hist = clocks s.hist ++ [(t, now)] := clocks_append _ _
  have hsame : publications (s.name t cfg e now).hist = publications s.hist :=
    (publications_append _ _).trans (List.append_nil _)
  have hold : ∀ t' now', (t', now') ∈ clocks s.hist →
      (t', now') ∈ clocks (s.name t cfg e now).hist := fun t' now' hm => by
    rw [hnew]
    exact List.mem_append_left _ hm
  refine ⟨fun t₁ t₂ now' h₁ h₂ => ?_, ?_, fun now' hne => ?_, fun w hw => ?_⟩
  · rw [hnew, List.mem_append, List.mem_singleton, Prod.mk.injEq] at h₁ h₂
    rcases h₁ with h₁ | ⟨rfl, rfl⟩ <;> rcases h₂ with h₂ | ⟨rfl, h₂⟩
    · exact h.owner t₁ t₂ now' h₁ h₂
    · exact absurd (h₂ ▸ h₁) (hnow t₁)
    · exact absurd h₂ (hnow t₂)
    · rfl
  · refine forall_goto (P := fun t' x => Pc.Named cfg s.fs ((s.name t cfg e now).Owns cfg t') x)
      ⟨now, ⟨by rw [hnew]; simp, fun w hw hpath => ?_⟩, rfl, ?_⟩ fun t' _ =>
        (h.pc t').congr (fun now' how => ⟨hold t' now' how.1, by rw [hsame]; exact how.2⟩)
          fun _ _ _ => rfl
    · rw [hsame] at hw
      obtain ⟨t', now', hm, hp⟩ := h.published w hw
      exact hnow t' (cfg.nextSstablePath_inj (hpath.symm.trans hp) ▸ hm)
    · by_contra hne
      obtain ⟨t', hm⟩ := h.file now hne
      exact hnow t' hm
  · obtain ⟨t', hm⟩ := h.file now' hne
    exact ⟨t', hold t' now' hm⟩
  · rw [hsame] at hw
    obtain ⟨t', now', hm, hp⟩ := h.published w hw
    exact ⟨t', now', hold t' now' hm, hp⟩

/-- A flush renames a file to its own path, which the others do not have. -/
theorem rename {Q : MemTable → Prop} (h : Named cfg s) (hstaged : s.Staged cfg Q) {t : T}
    {e : WalEntry} {w : Swapped} (hpc : s.pc t = .flushing e (.written w)) :
    Named cfg (s.rename t e w) := by
  obtain ⟨⟨-, -, hnew⟩, hfs⟩ := hstaged.rename hpc
  have hw := h.pc t
  rw [hpc] at hw
  obtain ⟨now, hown, hp, -⟩ := hw
  have hother : ∀ now', cfg.nextSstablePath now' ≠ w.path →
      (s.rename t e w).fs (cfg.nextSstablePath now') = s.fs (cfg.nextSstablePath now') :=
    fun now' => hfs _ (cfg.named_nextSstablePath now')
  refine ⟨h.owner, ?_, fun now' hne => ?_, h.published⟩
  · refine forall_goto (P := fun t' x => Pc.Named cfg (s.rename t e w).fs
      (s.Owns cfg t') x) ?_ fun t' ht => (h.pc t').congr (fun _ how => how) fun now' how _ => ?_
    · exact ⟨now, hown, hp, hnew⟩
    · exact hother now' (hp ▸ h.path_ne ht hown how)
  · by_cases hnow : cfg.nextSstablePath now' = w.path
    · exact ⟨t, cfg.nextSstablePath_inj (hnow.trans hp) ▸ hown.1⟩
    · exact h.file now' ((hother now' hnow).symm.trans_ne hne)

/-- A flush adds the file of its own path, and has no path any more. -/
theorem publish (h : Named cfg s) {t : T} {e : WalEntry} {w : Swapped}
    (hpc : s.pc t = .flushing e (.truncated w)) : Named cfg (s.publish t e w) := by
  have hw := h.pc t
  rw [hpc] at hw
  obtain ⟨now, hown, hp, -⟩ := hw
  have hclocks : clocks (s.publish t e w).hist = clocks s.hist :=
    (clocks_append _ _).trans (List.append_nil _)
  have hnew : publications (s.publish t e w).hist = publications s.hist ++ [w] :=
    publications_append _ _
  refine ⟨by rw [hclocks]; exact h.owner, ?_, by rw [hclocks]; exact h.file, fun w' hw' => ?_⟩
  · refine forall_goto (P := fun t' x => Pc.Named cfg s.fs ((s.publish t e w).Owns cfg t') x)
      trivial fun t' ht => (h.pc t').congr (fun now' how => ⟨by rw [hclocks]; exact how.1,
        fun w' hw' => ?_⟩) fun _ _ _ => rfl
    rw [hnew, List.mem_append, List.mem_singleton] at hw'
    rcases hw' with hw' | rfl
    · exact how.2 w' hw'
    · exact hp ▸ (h.path_ne ht hown how).symm
  · rw [hnew, List.mem_append, List.mem_singleton] at hw'
    rw [hclocks]
    rcases hw' with hw' | rfl
    · exact h.published w' hw'
    · exact ⟨t, now, hown.1, hp⟩

/-- **One step**: it is enough that no reading of the clock is taken twice, and that a
compaction adds no file to those of flushes and leaves those on their way alone. -/
theorem step {Q : MemTable → Prop} (h : Named cfg s) (hstaged : s.Staged cfg Q)
    (hs : Step cfg s a s') (hname : ∀ t now, a = .name t now → ∀ t', (t', now) ∉ clocks s.hist)
    (hcompact : ∀ io now, a = .compact io now → ∀ now',
      (s'.fs (cfg.nextSstablePath now') ≠ none → s.fs (cfg.nextSstablePath now') ≠ none) ∧
      ∀ t, (s.pc t).path = some (cfg.nextSstablePath now') →
        s'.fs (cfg.nextSstablePath now') = s.fs (cfg.nextSstablePath now')) : Named cfg s' := by
  have hclocks : (∀ t now, a ≠ .name t now) → clocks s'.hist = clocks s.hist := clocks_step hs
  have hpublications : (∀ t, a ≠ .publish t) → publications s'.hist = publications s.hist :=
    publications_step hs
  have htmp : ∀ (p : Path) (bytes : Bytes) (now : ℕ),
      s.fs.write p.tmp bytes (cfg.nextSstablePath now) = s.fs (cfg.nextSstablePath now) :=
    fun p bytes now => Fs.write_of_ne ((cfg.named_nextSstablePath now).ne_tmp p) s.fs bytes
  cases hs with
  | @call t op hpc =>
    exact h.moved rfl (hclocks (by simp)) (hpublications (by simp)) (fun _ => rfl)
      (by cases op <;> trivial)
  | append | insert | fill | hit | miss | search | appendFails | flushFails | truncateFails =>
    exact h.moved rfl (hclocks (by simp)) (hpublications (by simp)) (fun _ => rfl) trivial
  | @name t e now hpc => exact h.name (hname t now rfl)
  | @swap t e p hpc hlock =>
    have hp := h.pc t
    rw [hpc] at hp
    exact h.moved rfl (hclocks (by simp)) (hpublications (by simp)) (fun _ => rfl) hp
  | @create t e w hpc | @write t e w n bytes hpc | @finish t e w bytes hpc =>
    have hw := h.pc t
    rw [hpc] at hw
    exact h.moved rfl rfl rfl (htmp _ _) hw
  | rename hpc => exact h.rename hstaged hpc
  | @truncate t e w hpc =>
    have hw := h.pc t
    rw [hpc] at hw
    exact h.moved rfl (hclocks (by simp)) (hpublications (by simp)) (fun _ => rfl) hw
  | publish hpc => exact h.publish hpc
  | @compact io now =>
    have hfs := hcompact io now rfl
    exact h.of_fewer (hclocks (by simp)) (hpublications (by simp)) (fun t =>
      (h.pc t).congr (fun _ how => how) fun now' _ hpath => (hfs now').2 t hpath)
      fun now' => (hfs now').1
  | restart =>
    exact h.of_fewer (hclocks (by simp)) (hpublications (by simp)) (fun _ => trivial)
      fun _ hne => hne

/-- A rename does not replace a file. -/
theorem fs_rename (h : Named cfg s) {t : T} {e : WalEntry} {w : Swapped}
    (hpc : s.pc t = .flushing e (.written w)) {p : Path} (hp : p.NamedSst)
    (hne : s.fs p ≠ none) : (s.rename t e w).fs p = s.fs p := by
  have hw := h.pc t
  rw [hpc] at hw
  obtain ⟨-, -, -, hfree⟩ := hw
  refine Fs.rename_of_ne (hp.ne_tmp _) ?_ s.fs
  rintro rfl
  exact hne hfree

omit [DecidableEq T] in
/-- The file of a flush stores what was swapped out, from its rename on. -/
theorem stored_of_landed (h : Named cfg s) (hstaged : s.Staged cfg MemTable.IsShort) {t : T}
    {e : WalEntry} {w : Swapped}
    (hpc : s.pc t = .flushing e (.renamed w) ∨ s.pc t = .flushing e (.truncated w)) :
    s.fs.Stored w.path w.old.data := by
  have hnamed := h.pc t
  have hsound := hstaged t
  rcases hpc with hpc | hpc <;> rw [hpc] at hnamed hsound <;>
    obtain ⟨-, -, -, hholds⟩ := hnamed <;> exact hholds.stored hsound.2.1

/-- **No file is touched again** once it is there. -/
theorem fs_step (h : Named cfg s) (hs : Step cfg s a s') (ha : ∀ io now, a ≠ .compact io now)
    {now : ℕ} (hne : s.fs (cfg.nextSstablePath now) ≠ none) :
    s'.fs (cfg.nextSstablePath now) = s.fs (cfg.nextSstablePath now) := by
  have hnamed := cfg.named_nextSstablePath now
  cases hs with
  | create | write | finish => exact Fs.write_of_ne (hnamed.ne_tmp _) s.fs _
  | rename hpc => exact h.fs_rename hpc hnamed hne
  | call | append | insert | fill | name | swap | truncate | publish | hit | miss | search
  | restart | appendFails | flushFails | truncateFails => rfl
  | compact => exact absurd rfl (ha _ _)

end Sys.Named

/-! ### Compactions -/

namespace Config

variable {lm : LevelManager}

section L0

variable (hl0 : ∀ p ∈ lm.l0, ∃ n, p = cfg.nextSstablePath n)

include hl0

/-- The output of a compaction goes into the directory of the store. -/
theorem outputPath_eq {oldest : Path} (ho : oldest ∈ lm.l0) (now : ℕ) :
    LevelManager.outputPath now oldest = ⟨cfg.dir, FileName.l1Name now⟩ := by
  obtain ⟨n, rfl⟩ := hl0 oldest ho
  rfl

/-- It is a new file when no file of L1 has its name. -/
theorem outputPath_notMem {oldest : Path} (ho : oldest ∈ lm.l0) {now : ℕ}
    (hnew : ⟨cfg.dir, FileName.l1Name now⟩ ∉ lm.l1) :
    LevelManager.outputPath now oldest ∉ lm.l0 ++ lm.l1 := by
  rw [outputPath_eq hl0 ho]
  intro hin
  rcases List.mem_append.mp hin with hin | hin
  · obtain ⟨n, hn⟩ := hl0 _ hin
    exact cfg.nextSstablePath_ne_l1 n now _ hn.symm
  · exact hnew hin

variable (S : BloomSizing) (H : MergeHeap) (io : CompactIo) (now : ℕ) (fs : Fs)

/-- Every other SSTable is as it was, or it was tracked and is gone. -/
theorem compact_file_cases {q : Path} (hq : q.NamedSst)
    (hout : q ≠ ⟨cfg.dir, FileName.l1Name now⟩) :
    (lm.compact S H io now fs).2.2 q = fs q ∨
      (lm.compact S H io now fs).2.2 q = none ∧ q ∈ lm.l0 ++ lm.l1 := by
  refine LevelManager.compact_file_cases S H io now fs fun oldest ho => ?_
  rw [outputPath_eq hl0 ho]
  exact ⟨hout, hq.ne_tmp _⟩

/-- **A compaction makes no file of a flush.** -/
theorem of_compact {n : ℕ}
    (hne : (lm.compact S H io now fs).2.2 (cfg.nextSstablePath n) ≠ none) :
    fs (cfg.nextSstablePath n) ≠ none := by
  rcases compact_file_cases hl0 S H io now fs (cfg.named_nextSstablePath n)
    (cfg.nextSstablePath_ne_l1 n now _) with hsame | ⟨hgone, -⟩
  · exact hsame.symm.trans_ne hne
  · exact absurd hgone hne

/-- **It leaves the files of flushes that are not in L0 alone**, the temporary ones as
well. -/
theorem compact_frame (hl1 : ∀ p ∈ lm.l1, ∃ m, p = ⟨cfg.dir, FileName.l1Name m⟩) {n : ℕ}
    (hnot : cfg.nextSstablePath n ∉ lm.l0) :
    (lm.compact S H io now fs).2.2 (cfg.nextSstablePath n) = fs (cfg.nextSstablePath n) ∧
      (lm.compact S H io now fs).2.2 (cfg.nextSstablePath n).tmp =
        fs (cfg.nextSstablePath n).tmp := by
  constructor <;> refine LevelManager.compact_of_notMem _ _ _ _ _ (fun hm => ?_) (fun hm => ?_)
    fun oldest ho => ?_
  · exact hnot hm
  · obtain ⟨m, hm⟩ := hl1 _ hm
    exact cfg.nextSstablePath_ne_l1 n m _ hm
  · rw [outputPath_eq hl0 ho]
    exact ⟨cfg.nextSstablePath_ne_l1 n now _, (cfg.named_nextSstablePath n).ne_tmp _⟩
  · obtain ⟨m, hm⟩ := hl0 _ hm
    exact (cfg.named_nextSstablePath m).ne_tmp _ hm.symm
  · obtain ⟨m, hm⟩ := hl1 _ hm
    exact (cfg.named_l1 m).ne_tmp _ hm.symm
  · rw [outputPath_eq hl0 ho]
    exact ⟨((cfg.named_l1 now).ne_tmp _).symm, FileName.tmp_l0Name_ne_tmp_l1Name n now _ _⟩

end L0

end Config

/-- What a compaction that returns `Ok` leaves is the state after it. -/
theorem Sys.compact_eq_ok {s : Sys T} {io : CompactIo} {now : ℕ}
    (hok : (s.levels.compact cfg.sizing cfg.heap io now s.fs).1 = .ok ()) :
    s.levels.compact cfg.sizing cfg.heap io now s.fs =
      (.ok (), (s.compact cfg io now).levels, (s.compact cfg io now).fs) := Prod.ext hok rfl

/-! ### One client -/

namespace Sys

/-- The path belongs to the latest reading of the clock. -/
def Latest (cfg : Config) (s : Sys Unit) (p : Path) : Prop :=
  ∃ now, p = cfg.nextSstablePath now ∧
    ∀ c ∈ clocks s.hist, c.2 = now ∨ c.2 < now ∧ FileName.SameDigits c.2 now

variable {s s' : Sys Unit} {a : Act Unit}

theorem Latest.congr {p : Path} (h : s.Latest cfg p) (hclocks : clocks s'.hist = clocks s.hist) :
    s'.Latest cfg p := by
  obtain ⟨now, hp, hc⟩ := h
  exact ⟨now, hp, by rwa [hclocks]⟩

/-- **The flush of the one client has read the clock last**, as long as the clock ticks. -/
theorem latest_step (h : ∀ p, (s.pc ()).path = some p → s.Latest cfg p) (hs : Step cfg s a s')
    (hticks : s.Ticks a) : ∀ p, (s'.pc ()).path = some p → s'.Latest cfg p := by
  have hclocks := clocks_step hs
  cases hs with
  | @call t op hpc => cases op <;> simp [Sys.call, goto, Op.begin]
  | append | insert | fill | publish | hit | miss | search | restart | appendFails | flushFails
  | truncateFails =>
    simp [Sys.append, Sys.insert, Sys.fill, Sys.publish, Sys.answer, Sys.restart, Sys.appendFails,
      Sys.flushFails, Sys.truncateFails, goto]
  | @name t e now hpc =>
    rintro p hp
    obtain rfl := Option.some.inj hp
    refine ⟨now, rfl, fun c hc => ?_⟩
    have hnew : clocks (s.name t cfg e now).hist = clocks s.hist ++ [(t, now)] := clocks_append _ _
    rw [hnew, List.mem_append, List.mem_singleton] at hc
    rcases hc with hc | rfl
    · exact Or.inr (hticks c hc)
    · exact Or.inl rfl
  | swap hpc | create hpc | write hpc | finish hpc | rename hpc | truncate hpc =>
    intro p hp
    exact (h p (by rw [hpc]; exact hp)).congr (hclocks (by simp))
  | compact => exact fun p hp => (h p hp).congr (hclocks (by simp))

/-- Its path comes after the names of all other files of flushes. -/
theorem Named.name_lt (h : Named cfg s) {q : Path} (hq : s.Latest cfg q) {n : ℕ}
    (hfile : s.fs (cfg.nextSstablePath n) ≠ none) (hne : cfg.nextSstablePath n ≠ q) :
    (cfg.nextSstablePath n).name < q.name := by
  obtain ⟨now, rfl, hlatest⟩ := hq
  obtain ⟨t, hm⟩ := h.file n hfile
  rcases hlatest _ hm with he | ⟨hlt, hdigits⟩
  · exact absurd (congrArg cfg.nextSstablePath he) hne
  · exact FileName.l0Name_lt hdigits hlt

end Sys

/-! ### Listings -/

/-- There are finitely many files. -/
def Sys.Finite (s : Sys T) : Prop := ∃ all : List Path, ∀ p, s.fs p ≠ none → p ∈ all

theorem Sys.Finite.step [DecidableEq T] {s s' : Sys T} {a : Act T} (h : s.Finite)
    (hs : Step cfg s a s') : s'.Finite := by
  obtain ⟨all, hall⟩ := h
  have hwrite : ∀ p bytes, Sys.Finite { s with fs := s.fs.write p bytes } := by
    refine fun p bytes => ⟨p :: all, fun q hq => ?_⟩
    by_cases hqp : q = p
    · exact hqp ▸ List.mem_cons_self
    · exact List.mem_cons_of_mem _ (hall q ((Fs.write_of_ne hqp s.fs bytes).symm.trans_ne hq))
  cases hs with
  | @create t e w | @write t e w | @finish t e w => exact hwrite w.path.tmp _
  | @rename t e w =>
    refine ⟨w.path :: w.path.tmp :: all, fun q hq => ?_⟩
    by_cases hnew : q = w.path
    · exact hnew ▸ List.mem_cons_self
    · by_cases hold : q = w.path.tmp
      · exact hold ▸ List.mem_cons_of_mem _ List.mem_cons_self
      · exact List.mem_cons_of_mem _ (List.mem_cons_of_mem _
          (hall q ((Fs.rename_of_ne hold hnew s.fs).symm.trans_ne hq)))
  | @compact io now =>
    let outputs := s.levels.l0.map (LevelManager.outputPath now)
    refine ⟨outputs ++ outputs.map Path.tmp ++ all, fun q hq => ?_⟩
    by_contra hnot
    simp only [List.mem_append, not_or] at hnot
    have hsame := LevelManager.compact_file_cases cfg.sizing cfg.heap io now s.fs
      (q := q) fun oldest ho =>
        ⟨fun he => hnot.1.1 (he ▸ List.mem_map_of_mem ho),
          fun he => hnot.1.2 (he ▸ List.mem_map_of_mem (List.mem_map_of_mem ho))⟩
    rcases hsame with hsame | ⟨hgone, -⟩
    · exact hnot.2 (hall q (hsame.symm.trans_ne hq))
    · exact hq hgone
  | call | append | insert | fill | name | swap | truncate | publish | hit | miss | search
  | restart | appendFails | flushFails | truncateFails => exact ⟨all, hall⟩

/-- **At any moment of a run a crash can be followed by a restart**: the directory can be
listed. -/
theorem Sys.exists_lists_of_run [DecidableEq T] {s : Sys T} {as : List (Act T)}
    {G : Sys T → Act T → Prop} (hrun : Runs.Run (Runs.Guarded (Step cfg) G) Sys.init as s) :
    ∃ listing, s.fs.Lists cfg.dir listing := by
  obtain ⟨all, hall⟩ : s.Finite := hrun.invariant (I := Sys.Finite)
    ⟨[], fun p hp => absurd rfl hp⟩ fun s a s' h hs => h.step hs.1
  exact Fs.exists_lists_of_finite hall cfg.dir

end Tabula
