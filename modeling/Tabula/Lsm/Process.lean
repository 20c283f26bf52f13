import Tabula.Lib.Schedules
import Tabula.Lsm.TrackedFiles
import Tabula.Levels.FileSteps
import Mathlib.Data.Fintype.Basic

/-!
# The process

The store as it runs, with the locks on its levels and the background thread. In
`Tabula.Step` a `get` searches all of its files at once, and so does a compaction with
its own; here each of them takes the levels lock, does one operation on a file after the
other, and lets go of the lock at its end. A `get` takes it for reading, with any number
of others; a compaction takes it for writing, and so does a flush that publishes its file.
What a flush does with files takes no levels lock and goes on beside them.

The background thread (`Tabula.Background`) looks whether a compaction is needed under one
lock and compacts under another. `Drop` tells it to stop, and waits until it has. When a
compaction panics the thread ends and the levels lock is poisoned: whoever comes to take it
panics on its `unwrap`, so that the call does not return and the thread takes no more steps
(`Tabula.Process.Over`).

Everything else a thread does is a step of `Tabula.Step`.
-/

namespace Tabula

open StorePrograms

/-- Where the background thread is. -/
inductive Background where
  /-- At the head of its loop. -/
  | waiting : Background
  /-- Past the test of `shutdown`. -/
  | polling : Background
  /-- It has found that a compaction is needed, and waits for the lock. -/
  | due : Background
  /-- In `compact`, by a script, with what is left to do. -/
  | compacting (io : CompactIo) (cuts : List ℕ) (now : ℕ)
      (rest : FileProg (Res CompactionError Unit × LevelManager)) : Background
  | exited : Background
  /-- It has panicked in `compact`, and has left the levels lock poisoned. -/
  | panicked : Background

/-- It holds the levels lock for writing. -/
def Background.Writes : Background → Prop
  | compacting _ _ _ _ => True
  | waiting | polling | due | exited | panicked => False

instance : (b : Background) → Decidable b.Writes
  | .compacting _ _ _ _ => .isTrue trivial
  | .waiting | .polling | .due | .exited | .panicked => .isFalse id

/-- It has poisoned the levels lock. -/
def Background.Poisons (b : Background) : Prop := b = panicked

instance : (b : Background) → Decidable b.Poisons
  | .panicked => .isTrue rfl
  | .waiting | .polling | .due | .compacting _ _ _ _ | .exited => .isFalse Background.noConfusion

/-- Where it is behind a compaction: an `Err` is printed, a panic is not caught. -/
def Background.after : Res CompactionError Unit → Background
  | .error .panic => panicked
  | .error (.err _) | .ok _ => waiting

theorem Background.not_writes_after (res : Res CompactionError Unit) : ¬(after res).Writes := by
  rcases res with (e | -) | - <;> exact id

/-- The thread is in front of the levels lock, or holds it. -/
def Pc.atLevels : Pc → Bool
  | missed _ | flushing _ (.truncated _) => true
  | idle | logging _ | logged _ | reading _ | flushing _ _ => false

/-- The store with the threads of its process. -/
structure Process (T : Type) where
  sys : Sys T
  /-- What is left to do of a `get` that holds the levels lock. -/
  search : T → Option (FileProg (Res LsmError (Option Value)))
  background : Background
  shutdown : Bool

namespace Process

/-- What can happen next. -/
inductive Act (T : Type) where
  /-- A section of a thread, or an operation of a flush on a file. -/
  | thread (a : Tabula.Act T) : Act T
  /-- A `get` takes the levels lock. -/
  | lock (t : T) : Act T
  /-- It opens the next file. -/
  | read (t : T) : Act T
  | answer (t : T) : Act T
  /-- The background thread finds `shutdown` unset. -/
  | wake : Act T
  | check : Act T
  /-- It takes the levels lock. -/
  | compact (io : CompactIo) (cuts : List ℕ) (now : ℕ) : Act T
  | work : Act T
  /-- It lets go of the lock, or panics. -/
  | finish : Act T
  /-- `Drop`, up to the `join`. -/
  | drop : Act T
  /-- The background thread finds `shutdown` set. -/
  | exit : Act T
  | crash (listing : List Path) : Act T

variable {T : Type}

/-- `Lsm::open` of an empty directory. -/
def init : Process T := ⟨Sys.init, fun _ => none, .waiting, false⟩

variable (f : Process T)

/-- No `get` holds the levels lock. -/
def Unread : Prop := ∀ t, f.search t = none

/-- **The call of a thread is over**, or has panicked on the poisoned lock. -/
def Over (t : T) : Prop :=
  f.sys.pc t = .idle ∨ f.background.Poisons ∧ (f.sys.pc t).atLevels = true

/-- The sections a thread can be in beside searches and a compaction: a call needs a store
that has not been dropped, and a flush needs the levels lock to publish its file. -/
def Admits : Tabula.Act T → Prop
  | .call _ _ => f.shutdown = false
  | .publish _ => f.Unread ∧ ¬f.background.Writes ∧ ¬f.background.Poisons
  | .search _ | .compact _ _ | .restart _ => False
  | .append _ | .insert _ | .name _ _ | .swap _ | .create _ | .write _ _ | .finish _ | .rename _
  | .truncate _ | .look _ | .appendFails _ _ | .flushFails _ | .truncateFails _ => True

/-- A compaction that a crash cuts short has been one all the same. -/
def interrupted : Sys T :=
  if f.background.Writes then { f.sys with hist := f.sys.hist ++ [.compacted] } else f.sys

variable [DecidableEq T]

/-- The search of a thread, after its next operation. -/
def searching (t : T) (rest : Option (FileProg (Res LsmError (Option Value)))) : Process T :=
  { f with search := Function.update f.search t rest }

/-- **One step**: what has to hold before it, and the state after it. -/
inductive Step (cfg : Config) (f : Process T) : Act T → Process T → Prop
  | thread {a s'} (ha : f.Admits a) (hs : Tabula.Step cfg f.sys a s') :
      Step cfg f (.thread a) { f with sys := s' }
  | lock {t key} (h : f.sys.pc t = .missed key) (hsearch : f.search t = none)
      (hfree : ¬f.background.Writes) (hsound : ¬f.background.Poisons) :
      Step cfg f (.lock t) (f.searching t (some (searchProg f.sys.levels key)))
  | read {t p q fs'} (h : f.search t = some p) (hnext : p.next f.sys.fs = some (q, fs')) :
      Step cfg f (.read t) (f.searching t (some q))
  | answer {t key r} (h : f.sys.pc t = .missed key) (hsearch : f.search t = some (.ret r)) :
      Step cfg f (.answer t) { f.searching t none with sys := f.sys.answer t key r }
  | wake (h : f.background = .waiting) (hrun : f.shutdown = false) :
      Step cfg f .wake { f with background := .polling }
  | check (h : f.background = .polling) :
      Step cfg f .check
        { f with background := if f.sys.levels.needsCompaction then .due else .waiting }
  | compact {io cuts now} (h : f.background = .due) (hfree : f.Unread) :
      Step cfg f (.compact io cuts now)
        { f with
          background := .compacting io cuts now
            (f.sys.levels.compactProg cfg.sizing cfg.heap io cuts now) }
  | work {io cuts now p q fs'} (h : f.background = .compacting io cuts now p)
      (hnext : p.next f.sys.fs = some (q, fs')) :
      Step cfg f .work
        { f with background := .compacting io cuts now q, sys := { f.sys with fs := fs' } }
  | finish {io cuts now res lm} (h : f.background = .compacting io cuts now (.ret (res, lm))) :
      Step cfg f .finish
        { f with
          background := .after res
          sys := { f.sys with levels := lm, hist := f.sys.hist ++ [.compacted] } }
  | drop (h : ∀ t, f.Over t) : Step cfg f .drop { f with shutdown := true }
  | exit (h : f.background = .waiting) (hdrop : f.shutdown = true) :
      Step cfg f .exit { f with background := .exited }
  | crash {listing mem levels} (hl : f.sys.fs.Lists cfg.dir listing)
      (hopen : Lsm.open (some f.sys.wal) listing = .ok (mem, levels)) :
      Step cfg f (.crash listing) ⟨f.interrupted.restart mem levels, fun _ => none, .waiting, false⟩

/-- **All paths are different**, as in `Tabula.Sys.Distinct`. -/
def Distinct (cfg : Config) (f : Process T) : Act T → Prop
  | .thread a => f.sys.Distinct cfg a
  | .compact _ _ now => ⟨cfg.dir, FileName.l1Name now⟩ ∉ f.sys.levels.l1
  | _ => True

/-! ### Schedules -/

section Schedules

variable [Fintype T]

instance : Decidable f.Unread :=
  decidable_of_iff (∀ t, (f.search t).isNone = true)
    (forall_congr' fun _ => Option.isNone_iff_eq_none)

instance : (a : Tabula.Act T) → Decidable (f.Admits a)
  | .call _ _ => inferInstanceAs (Decidable (f.shutdown = false))
  | .publish _ =>
      inferInstanceAs (Decidable (f.Unread ∧ ¬f.background.Writes ∧ ¬f.background.Poisons))
  | .search _ | .compact _ _ | .restart _ => .isFalse id
  | .append _ | .insert _ | .name _ _ | .swap _ | .create _ | .write _ _ | .finish _ | .rename _
  | .truncate _ | .look _ | .appendFails _ _ | .flushFails _ | .truncateFails _ => .isTrue trivial

instance (cfg : Config) : (a : Act T) → Decidable (f.Distinct cfg a)
  | .thread a => inferInstanceAs (Decidable (f.sys.Distinct cfg a))
  | .compact _ _ now =>
      inferInstanceAs (Decidable (⟨cfg.dir, FileName.l1Name now⟩ ∉ f.sys.levels.l1))
  | .lock _ | .read _ | .answer _ | .wake | .check | .work | .finish | .drop | .exit | .crash _ =>
      .isTrue trivial

/-- The steps of threads and of the background thread, computed. -/
def next (cfg : Config) (f : Process T) : Act T → Option (Process T)
  | .thread a => if f.Admits a then (f.sys.next cfg a).map fun s' => { f with sys := s' } else none
  | .lock t =>
      match f.sys.pc t, f.search t with
      | .missed key, none =>
          if f.background.Writes ∨ f.background.Poisons then none
          else some (f.searching t (some (searchProg f.sys.levels key)))
      | _, _ => none
  | .read t =>
      (f.search t).bind fun p => (p.next f.sys.fs).map fun next => f.searching t (some next.1)
  | .answer t =>
      match f.sys.pc t, f.search t with
      | .missed key, some (.ret r) =>
          some { f.searching t none with sys := f.sys.answer t key r }
      | _, _ => none
  | .wake =>
      match f.background, f.shutdown with
      | .waiting, false => some { f with background := .polling }
      | _, _ => none
  | .check =>
      match f.background with
      | .polling => some
          { f with background := if f.sys.levels.needsCompaction then .due else .waiting }
      | _ => none
  | .compact io cuts now =>
      match f.background with
      | .due =>
          if f.Unread then some
            { f with
              background := .compacting io cuts now
                (f.sys.levels.compactProg cfg.sizing cfg.heap io cuts now) }
          else none
      | _ => none
  | .work =>
      match f.background with
      | .compacting io cuts now p => (p.next f.sys.fs).map fun next =>
          { f with
            background := .compacting io cuts now next.1
            sys := { f.sys with fs := next.2 } }
      | _ => none
  | .finish =>
      match f.background with
      | .compacting _ _ _ (.ret (res, lm)) => some
          { f with
            background := .after res
            sys := { f.sys with levels := lm, hist := f.sys.hist ++ [.compacted] } }
      | _ => none
  | .exit =>
      match f.background, f.shutdown with
      | .waiting, true => some { f with background := .exited }
      | _, _ => none
  | .drop | .crash _ => none

variable {f}

theorem step_of_next {cfg : Config} {f' : Process T} {a : Act T} (h : f.next cfg a = some f') :
    Step cfg f a f' := by
  cases a with
  | thread a =>
    simp only [next] at h
    split at h
    · rename_i ha
      obtain ⟨s', hs', rfl⟩ := Option.map_eq_some_iff.mp h
      exact .thread ha (Sys.step_of_next hs').1
    · simp at h
  | lock t =>
    simp only [next] at h
    split at h
    · rename_i hpc hsearch
      split at h
      · simp at h
      · rename_i hfree
        obtain rfl := Option.some.inj h
        obtain ⟨hfree, hsound⟩ := not_or.mp hfree
        exact .lock hpc hsearch hfree hsound
    · simp at h
  | read t =>
    obtain ⟨p, hp, h⟩ := Option.bind_eq_some_iff.mp h
    obtain ⟨next, hnext, rfl⟩ := Option.map_eq_some_iff.mp h
    exact .read hp hnext
  | answer t =>
    simp only [next] at h
    split at h
    · rename_i hpc hsearch
      obtain rfl := Option.some.inj h
      exact .answer hpc hsearch
    · simp at h
  | wake =>
    simp only [next] at h
    split at h
    · rename_i hb hrun
      obtain rfl := Option.some.inj h
      exact .wake hb hrun
    · simp at h
  | check =>
    simp only [next] at h
    split at h
    · rename_i hb
      obtain rfl := Option.some.inj h
      exact .check hb
    · simp at h
  | compact io cuts now =>
    simp only [next] at h
    split at h
    · rename_i hb
      split at h
      · rename_i hfree
        obtain rfl := Option.some.inj h
        exact .compact hb hfree
      · simp at h
    · simp at h
  | work =>
    simp only [next] at h
    split at h
    · rename_i hb
      obtain ⟨next, hnext, rfl⟩ := Option.map_eq_some_iff.mp h
      exact .work hb hnext
    · simp at h
  | finish =>
    simp only [next] at h
    split at h
    · rename_i hb
      obtain rfl := Option.some.inj h
      exact .finish hb
    · simp at h
  | exit =>
    simp only [next] at h
    split at h
    · rename_i hb hdrop
      obtain rfl := Option.some.inj h
      exact .exit hb hdrop
    · simp at h
  | drop | crash => simp [next] at h

/-- A write that fills the MemTable, up to the publication of its file. -/
def Act.flush (t : T) (k : UInt8) (now : ℕ) : List (Act T) :=
  ([.call t (.write (.put [k] [1])), .append t, .insert t, .name t now, .swap t, .create t,
    .finish t, .rename t, .truncate t, .publish t] : List (Tabula.Act T)).map .thread

/-- A schedule that leads to a state with a property. -/
theorem exists_of_nexts (cfg : Config) (as : List (Act T)) (P : Process T → Prop)
    [DecidablePred P]
    (h : (Runs.follow (next cfg) (fun f a => f.Distinct cfg a) init as).any
      (fun f => decide (P f)) = true) :
    ∃ f, Runs.Run (Runs.Guarded (Step cfg) fun f a => f.Distinct cfg a) init as f ∧ P f :=
  Runs.exists_of_follow step_of_next _ init as P h

end Schedules

end Process

end Tabula
