import Tabula.Lsm.Process
import Mathlib.Algebra.BigOperators.Group.Finset.Piecewise
import Mathlib.Algebra.Order.BigOperators.Group.Finset

/-!
# How much memory the store takes

`flush_threshold` is no limit of the MemTable: a thread that has filled it lets go of its lock
before it flushes, and until the WAL lock is free others go on inserting. But each of them
finds the MemTable full as well, and comes to flush it, too. So what the MemTable has beyond
the threshold are the writes of the threads that are on their way to the swap
(`Tabula.Sys.overhang`), one for each.

With that, the MemTables that have been swapped out are bounded as well, one for each thread
that flushes, and so is all that the process has in memory
(`Tabula.Process.resident_le_of_run`). What fails does not matter, nor do compactions. A
restart can find more in the log, so a run is one between two restarts, and begins with
whatever the first has found.
-/

namespace Tabula

open SortedTable

variable {T : Type} {cfg : Config}

/-- What the entry takes of the MemTable. -/
def WalEntry.bytes (e : WalEntry) : ℕ := e.key.length + e.raw.length

theorem MemTable.sizeBytes_apply_le (mem : MemTable) (e : WalEntry) :
    (mem.apply e).sizeBytes ≤ mem.sizeBytes + e.bytes := by
  cases e <;> exact sum_insert_le (fun r : Record => r.1.length + r.2.length) _ _ _

/-- The write a thread is in the middle of. -/
def Pc.write : Pc → Option WalEntry
  | logging e | logged e | flushing e _ => some e
  | idle | reading _ | missed _ => none

/-- What a thread has put into a MemTable that was full, until it swaps it out. -/
def Pc.overhang : Pc → ℕ
  | flushing e .start | flushing e (.named _) => e.bytes
  | _ => 0

/-- What it has swapped out. -/
def Pc.swappedBytes (pc : Pc) : ℕ := pc.out.elim 0 fun w => w.old.sizeBytes

theorem Pc.overhang_le {pc : Pc} {B : ℕ} (h : ∀ e, pc.write = some e → e.bytes ≤ B) :
    pc.overhang ≤ B := by
  cases pc with
  | flushing e f =>
    cases f with
    | start | named p => exact h e rfl
    | _ => exact Nat.zero_le B
  | _ => exact Nat.zero_le B

namespace Sys

variable [Fintype T] (s : Sys T)

/-- What the writes of the threads take that are on their way to a swap. -/
def overhang : ℕ := ∑ t, (s.pc t).overhang

/-- **What the MemTables take**, the one in use and those that flushes have swapped out. -/
def resident : ℕ := s.mem.sizeBytes + ∑ t, (s.pc t).swappedBytes

/-- **The MemTable has outgrown its threshold by what waits to flush it**, and no more. -/
structure Bounded (M B : ℕ) : Prop where
  mem : s.mem.sizeBytes ≤ M + s.overhang
  out : ∀ t w, (s.pc t).out = some w → w.old.sizeBytes ≤ M + Fintype.card T * B
  write : ∀ t e, (s.pc t).write = some e → e.bytes ≤ B

namespace Bounded

variable {s} {s' : Sys T} {M B : ℕ}

theorem of_idle (h : ∀ t, s.pc t = .idle) (hM : s.mem.sizeBytes ≤ M) : s.Bounded M B :=
  ⟨hM.trans (Nat.le_add_right _ _), by simp [h], by simp [h, Pc.write]⟩

theorem overhang_le (h : s.Bounded M B) : s.overhang ≤ Fintype.card T * B := by
  have hle : ∀ t ∈ Finset.univ, (s.pc t).overhang ≤ B := fun t _ =>
    Pc.overhang_le (h.write t)
  exact Finset.sum_le_card_nsmul Finset.univ _ B hle

/-- **All of it together.** -/
theorem resident_le (h : s.Bounded M B) :
    s.resident ≤ (Fintype.card T + 1) * (M + Fintype.card T * B) := by
  have hmem : s.mem.sizeBytes ≤ M + Fintype.card T * B :=
    h.mem.trans (Nat.add_le_add_left h.overhang_le M)
  have hout : ∀ t ∈ Finset.univ, (s.pc t).swappedBytes ≤ M + Fintype.card T * B := by
    intro t _
    rw [Pc.swappedBytes]
    cases hw : (s.pc t).out with
    | none => exact Nat.zero_le _
    | some w => exact h.out t w hw
  have hsum : ∑ t, (s.pc t).swappedBytes ≤ Fintype.card T * (M + Fintype.card T * B) :=
    Finset.sum_le_card_nsmul Finset.univ _ _ hout
  rw [resident, Nat.add_mul, Nat.one_mul]
  omega

variable [DecidableEq T]

omit [Fintype T] in
theorem sum_goto [Fintype T] (s : Sys T) (t : T) (pc : Pc) :
    (s.goto t pc).overhang + (s.pc t).overhang = s.overhang + pc.overhang := by
  have hnew : (s.goto t pc).overhang =
      ∑ t', Function.update (fun t' => (s.pc t').overhang) t pc.overhang t' :=
    Finset.sum_congr rfl fun t' _ => Function.apply_update (fun _ => Pc.overhang) s.pc t pc t'
  rw [hnew, Finset.sum_update_of_mem (Finset.mem_univ t), overhang,
    Finset.sum_eq_add_sum_sdiff_singleton_of_mem (Finset.mem_univ t)]
  omega

/-- A thread moves on, and the MemTable stays as it is. -/
theorem moved (h : s.Bounded M B) {t : T} {pc : Pc} (hpcs : s'.pc = Function.update s.pc t pc)
    (hmem : s'.mem.sizeBytes + (s.pc t).overhang ≤ s.mem.sizeBytes + pc.overhang)
    (hout : ∀ w, pc.out = some w → w.old.sizeBytes ≤ M + Fintype.card T * B)
    (hwrite : ∀ e, pc.write = some e → e.bytes ≤ B) : s'.Bounded M B := by
  have hsum : s'.overhang + (s.pc t).overhang = s.overhang + pc.overhang := by
    have hgoto := sum_goto s t pc
    rwa [overhang, goto, ← hpcs] at hgoto
  refine ⟨?_, ?_, ?_⟩
  · have hold := h.mem
    omega
  · rw [hpcs]
    exact forall_goto (s := s) (P := fun _ x => ∀ w, x.out = some w →
      w.old.sizeBytes ≤ M + Fintype.card T * B) hout
      fun t' _ => h.out t'
  · rw [hpcs]
    exact forall_goto (s := s) (P := fun _ x => ∀ e, x.write = some e → e.bytes ≤ B) hwrite
      fun t' _ => h.write t'

/-- **One step**, other than a restart, when no write is larger than the bound. -/
theorem step (h : s.Bounded M B) {a : Act T} (hs : Step cfg s a s') (hM : cfg.threshold ≤ M + 1)
    (hrestart : ∀ listing, a ≠ .restart listing)
    (hcall : ∀ t e, a = .call t (.write e) → e.bytes ≤ B) : s'.Bounded M B := by
  have hwrite := h.write
  have hout := h.out
  cases hs with
  | @call t op hpc =>
    refine h.moved rfl ?_ ?_ ?_
    · cases op <;> simp [Sys.call, goto, hpc, Op.begin, Pc.overhang]
    · cases op <;> simp [Op.begin]
    · intro e he
      cases op with
      | write e' =>
        obtain rfl := Option.some.inj he
        exact hcall t _ rfl
      | get key => simp [Op.begin, Pc.write] at he
  | @append t e hpc =>
    exact h.moved rfl (by rw [hpc]; exact le_rfl) (by simp) fun e' he' =>
      hwrite t e' (by rw [hpc]; exact he')
  | @insert t e hpc hsize =>
    refine ⟨?_, forall_goto (P := fun _ x => ∀ w, x.out = some w →
      w.old.sizeBytes ≤ M + Fintype.card T * B) (by simp) fun t' _ => hout t',
      forall_goto (P := fun _ x => ∀ e, x.write = some e → e.bytes ≤ B) (by simp [Pc.write])
        fun t' _ => hwrite t'⟩
    have hle : (s.mem.apply e).sizeBytes ≤ M := by omega
    exact hle.trans (Nat.le_add_right M _)
  | @fill t e hpc =>
    refine h.moved rfl ?_ (by simp) fun e' he' => hwrite t e' (by rw [hpc]; exact he')
    rw [hpc]
    exact s.mem.sizeBytes_apply_le e
  | @name t e now hpc =>
    exact h.moved rfl (by rw [hpc]; exact le_rfl) (by simp) fun e' he' =>
      hwrite t e' (by rw [hpc]; exact he')
  | @swap t e p hpc =>
    -- what is swapped out has been bounded so far
    have hold : s.mem.sizeBytes ≤ M + Fintype.card T * B :=
      h.mem.trans (Nat.add_le_add_left h.overhang_le M)
    refine ⟨Nat.zero_le _, forall_goto (P := fun _ x => ∀ w, x.out = some w →
      w.old.sizeBytes ≤ M + Fintype.card T * B) ?_ fun t' _ => hout t',
      forall_goto (P := fun _ x => ∀ e, x.write = some e → e.bytes ≤ B) ?_ fun t' _ => hwrite t'⟩
    · intro w hw
      obtain rfl := Option.some.inj hw
      exact hold
    · exact fun e' he' => hwrite t e' (by rw [hpc]; exact he')
  | @create t e w hpc | @write t e w n bytes hpc | @finish t e w bytes hpc | @rename t e w hpc
  | @truncate t e w hpc =>
    exact h.moved rfl (by rw [hpc]; exact le_rfl)
      (fun w' hw' => hout t w' (by rw [hpc]; exact hw')) fun e' he' =>
        hwrite t e' (by rw [hpc]; exact he')
  | @publish t e w hpc | @truncateFails t e w hpc =>
    exact h.moved rfl (by rw [hpc]; exact le_rfl) (by simp) (by simp [Pc.write])
  | @hit t key value hpc | @search t key hpc | @appendFails t e n hpc =>
    exact h.moved rfl (by rw [hpc]; exact le_rfl) (by simp) (by simp [Pc.write])
  | @miss t key hpc =>
    exact h.moved rfl (by rw [hpc]; exact le_rfl) (by simp) (by simp [Pc.write])
  | @flushFails t e f hpc hheld =>
    refine h.moved rfl ?_ (by simp) (by simp [Pc.write])
    have hnone : (Pc.flushing e f).overhang = 0 := by
      cases f with
      | start | named => simp at hheld
      | _ => rfl
    rw [hpc, hnone]
    exact le_rfl
  | compact => exact ⟨h.mem, h.out, h.write⟩
  | restart => exact absurd rfl (hrestart _)

end Bounded

end Sys

/-! ### Runs of the process -/

namespace Process

/-- The process lives, and no write is larger than the bound. -/
def Act.Within (B : ℕ) : Act T → Prop
  | .thread (.call _ (.write e)) => e.bytes ≤ B
  | .crash _ => False
  | _ => True

variable [Fintype T] [DecidableEq T] {f f₀ : Process T} {B : ℕ} {as : List (Act T)}

/-- **The memory of the process is bounded**, from one restart to the next: by the number of
threads, the threshold, or what the restart has found if that is more, and the largest write.
The MemTable in use exceeds the threshold only by writes that threads are about to flush. -/
theorem resident_le_of_run (hidle : ∀ t, f₀.sys.pc t = .idle)
    (hrun : Runs.Run (Runs.Guarded (Step cfg) fun _ a => a.Within B) f₀ as f) :
    let M := max (cfg.threshold - 1) f₀.sys.mem.sizeBytes
    f.sys.mem.sizeBytes ≤ M + f.sys.overhang ∧
      f.sys.resident ≤ (Fintype.card T + 1) * (M + Fintype.card T * B) := by
  intro M
  have h : f.sys.Bounded M B := by
    refine hrun.invariant (I := fun f => f.sys.Bounded M B) (.of_idle hidle (le_max_right ..)) ?_
    rintro f a f' h ⟨hs, ha⟩
    cases hs with
    | @thread a s' hadmits hs =>
      refine h.step hs (by omega) ?_ ?_
      · rintro listing rfl
        exact hadmits
      · rintro t e rfl
        exact ha
    | answer hpc => exact h.moved rfl (by rw [hpc]; exact le_rfl) (by simp) (by simp [Pc.write])
    | crash => exact ha.elim
    | lock | read | wake | check | compact | drop | exit | work | finish =>
      exact ⟨h.mem, h.out, h.write⟩
  exact ⟨h.mem, h.resident_le⟩

/-- Two threads find the MemTable full, and it holds the writes of both. -/
theorem resident_le_of_run_full : ∃ f : Process Bool, 2 < f.sys.mem.sizeBytes ∧
    (f.sys.mem.sizeBytes ≤ 1 + f.sys.overhang ∧ f.sys.resident ≤ (2 + 1) * (1 + 2 * 2)) := by
  let as : List (Act Bool) :=
    [.thread (.call false (.write (.put [1] [1]))), .thread (.call true (.write (.put [2] [2]))),
      .thread (.append false), .thread (.append true), .thread (.insert false),
      .thread (.insert true)]
  obtain ⟨f, hrun, hf⟩ := exists_of_nexts (.ofThreshold 2) as (fun f => 2 < f.sys.mem.sizeBytes)
    (by decide +kernel)
  have hwithin : ∀ a ∈ as, a.Within 2 := by simp [as, Act.Within, WalEntry.bytes, WalEntry.key,
    WalEntry.raw]
  exact ⟨f, hf, resident_le_of_run (fun _ => rfl) (hrun.guarded_mem.mono fun _ a _ hs =>
    ⟨hs.1.1, hwithin a hs.2⟩)⟩

end Process

end Tabula
