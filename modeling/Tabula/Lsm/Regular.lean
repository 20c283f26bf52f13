import Tabula.Lsm.Paths

/-!
# What all entries have in common

A property of log entries that is handed on to the MemTables they are inserted into
(`Tabula.Carried`) is handed on to everything the store keeps: the log, the files, and
after a crash the MemTable that is rebuilt from the log. Together with the facts of the
last two modules this is what holds in every run without compactions and failures
(`Tabula.Sys.Regular`).
-/

namespace Tabula

variable {T : Type} {cfg : Config} {P : WalEntry → Prop} {Q : MemTable → Prop}

/-- **The property of entries makes the property of MemTables**, and implies that an entry
fits the length fields. -/
structure Carried (P : WalEntry → Prop) (Q : MemTable → Prop) : Prop where
  new : Q .new
  apply : ∀ {mem e}, Q mem → P e → Q (mem.apply e)
  short : ∀ {e}, P e → e.IsShort

theorem Carried.applyAll (h : Carried P Q) {mem : MemTable} (hmem : Q mem) {es : List WalEntry}
    (hes : ∀ e ∈ es, P e) : Q (mem.applyAll es) := by
  induction es generalizing mem with
  | nil => exact hmem
  | cons e es ih =>
    exact ih (h.apply hmem (hes e List.mem_cons_self)) fun x hx => hes x (List.mem_cons_of_mem _ hx)

/-- To fit the length fields is such a property. -/
theorem carried_isShort : Carried WalEntry.IsShort MemTable.IsShort :=
  ⟨MemTable.isShort_new, fun hmem he => hmem.apply he, id⟩

/-- The entry a thread has logged, or is about to. -/
@[simp] def Pc.entry : Pc → Option WalEntry
  | logging e | logged e => some e
  | idle | flushing _ _ | reading _ | missed _ => none

namespace Sys

/-- **Whatever is on its way has the property.** -/
structure Carries (P : WalEntry → Prop) (Q : MemTable → Prop) (s : Sys T) : Prop where
  mem : Q s.mem
  pc : ∀ t e, (s.pc t).entry = some e → P e
  log : ∀ e ∈ log s.hist, P e

namespace Carries

theorem init (hPQ : Carried P Q) : Carries P Q (Sys.init : Sys T) :=
  ⟨hPQ.new, by simp [Sys.init], by simp [Sys.init, Sys.log]⟩

variable [DecidableEq T] {s s' : Sys T} {a : Act T}

theorem goto (h : s.Carries P Q) {t : T} {pc : Pc} (hpc : ∀ e, pc.entry = some e → P e) :
    ∀ t' e, ((s.goto t pc).pc t').entry = some e → P e :=
  forall_goto (P := fun _ x => ∀ e, Pc.entry x = some e → P e) hpc fun t' _ => h.pc t'

/-- **One step**: it is enough that what is called has the property. -/
theorem step (hPQ : Carried P Q) (h : s.Carries P Q) (hlogged : s.Logged) (hs : Step cfg s a s')
    (ha : a.Whole) (hcall : ∀ t e, a = .call t (.write e) → P e) : s'.Carries P Q := by
  have hsame := log_step_whole hs ha
  cases hs with
  | @call t op hpc =>
    refine ⟨h.mem, h.goto fun e he => ?_, by rw [(hsame (by simp) (by simp)).1]; exact h.log⟩
    cases op with
    | write e' =>
      obtain rfl : e' = e := by simpa [Op.begin] using he
      exact hcall t _ rfl
    | get key => simp [Op.begin] at he
  | @append t e hpc hlock =>
    have he : P e := h.pc t e (by simp [hpc])
    refine ⟨h.mem, h.goto (by simpa using he), fun e' he' => ?_⟩
    have hlog : Sys.log (s.append t e).hist = Sys.log s.hist ++ [e] := log_append _ _
    rw [hlog, List.mem_append, List.mem_singleton] at he'
    rcases he' with he' | rfl
    · exact h.log e' he'
    · exact he
  | @insert t e hpc | @fill t e hpc =>
    have he : P e := h.pc t e (by simp [hpc])
    exact ⟨hPQ.apply h.mem he, h.goto (by simp), by
      rw [(hsame (by simp) (by simp)).1]
      exact h.log⟩
  | swap => exact ⟨hPQ.new, h.goto (by simp), by rw [(hsame (by simp) (by simp)).1]; exact h.log⟩
  | truncate =>
    refine ⟨h.mem, h.goto (by simp), fun e' he' => ?_⟩
    simp [Sys.truncate, Event.logs] at he'
  | truncateFails =>
    refine ⟨h.mem, h.goto (by simp), fun e' he' => ?_⟩
    simp [Sys.truncateFails, Event.logs] at he'
  | compact => exact ⟨h.mem, h.pc, by rw [(hsame (by simp) (by simp)).1]; exact h.log⟩
  | name | create | write | finish | rename | publish | hit | miss | search | appendFails
  | flushFails =>
    exact ⟨h.mem, h.goto (by simp), by rw [(hsame (by simp) (by simp)).1]; exact h.log⟩
  | restart hl hopen =>
    obtain ⟨es, hreplay, rfl, -⟩ := Lsm.open_eq_ok.mp hopen
    rw [hlogged, Wal.replay_encodeAll fun e he => hPQ.short (h.log e he)] at hreplay
    obtain rfl := Except.ok.inj hreplay
    exact ⟨hPQ.applyAll hPQ.new h.log, by simp [Sys.restart],
      by rw [(hsame (by simp) (by simp)).1]; exact h.log⟩

end Carries

/-- **What holds in every run without compactions and failures**, as long as no reading of
the clock is taken twice. -/
structure Regular (cfg : Config) (P : WalEntry → Prop) (Q : MemTable → Prop) (s : Sys T) :
    Prop where
  locked : s.Locked
  logged : s.Logged
  carries : s.Carries P Q
  flushed : Flushed cfg Q s
  named : Named cfg s

namespace Regular

theorem init (hPQ : Carried P Q) : Regular cfg P Q (Sys.init : Sys T) :=
  ⟨by simp [Locked, Sys.init], rfl, .init hPQ, .init, .init⟩

/-- `Lsm::open` finds the entries of the log, all of them. -/
theorem replay_eq (hPQ : Carried P Q) {s : Sys T} (h : Regular cfg P Q s) :
    Wal.replay (some s.wal) = .ok (log s.hist) := by
  rw [h.logged, Wal.replay_encodeAll fun e he => hPQ.short (h.carries.log e he)]

/-- **One step**: it is enough that what is called has the property, and that a flush reads
a new time. -/
theorem step [DecidableEq T] {s s' : Sys T} {a : Act T} (hPQ : Carried P Q) (h : Regular cfg P Q s)
    (hs : Step cfg s a s') (ha : a.Succeeds) (hcall : ∀ t e, a = .call t (.write e) → P e)
    (hname : ∀ t now, a = .name t now → now ∉ (clocks s.hist).map Prod.snd) :
    Regular cfg P Q s' where
  locked := h.locked.step hs
  logged := h.logged.step hs ha.whole
  carries := h.carries.step hPQ h.logged hs ha.whole hcall
  flushed := h.flushed.step h.locked hs ha fun _ _ => h.carries.mem
  named := h.named.step h.flushed.staged hs (by
    intro t now hnow t' hm
    exact hname t now hnow (List.mem_map_of_mem hm)) (by
    rintro io now rfl
    exact ha.elim)

end Regular

end Sys

end Tabula
