import Tabula.Lib.Runs
import Tabula.Levels.Outcome

/-!
# Runs of the level manager

Any sequence of `add_l0_file` and `compact` calls from an empty `LevelManager`, with
every file operation succeeding. What a compaction needs of the tracked files is that
they are usable: `key_range` wants a first key from every one of them. The files that
are added have one. The file a compaction writes has one only if some record survives
the merge, and the merge drops tombstones: a compaction of nothing but deletions
tracks an empty file, and the next one fails on it.

So the invariant of the runs is `Tabula.LevelManager.Usable`, and a compaction
preserves it as long as one of the keys it merges is live
(`Tabula.LevelManager.HasLive`).
-/

namespace Tabula

open SortedTable

/-- The level manager with the files it stands on. -/
structure Disk where
  fs : Fs
  lm : LevelManager

namespace Disk

inductive Op where
  /-- The file of a finished SSTable, and `add_l0_file` of its path. -/
  | add (p : Path) (bytes : Bytes) : Op
  /-- `compact` at a clock reading. -/
  | compact (now : ℕ) : Op

def next (S : BloomSizing) (H : MergeHeap) (d : Disk) : Op → Disk
  | .add p bytes => ⟨d.fs.write p bytes, d.lm.addL0File p⟩
  | .compact now =>
      let (_, lm, fs) := d.lm.compact S H .whole now d.fs
      ⟨fs, lm⟩

/-- An added file is a sorted SSTable with at least one record, and a compaction
writes a file that can be written. -/
def Legal (S : BloomSizing) (H : MergeHeap) (d : Disk) : Op → Prop
  | .add p bytes => p.NamedSst ∧ ∃ rs, Stores bytes rs ∧ rs ≠ []
  | .compact _ => d.lm.Fits S H d.fs

def Step (S : BloomSizing) (H : MergeHeap) (d : Disk) (op : Op) (d' : Disk) : Prop :=
  d.Legal S H op ∧ d' = d.next S H op

end Disk

namespace LevelManager

/-- **Some key is live**: the record that has precedence in the merge is no
tombstone. -/
def HasLive (fs : Fs) (lm : LevelManager) : Prop :=
  ∃ k v, firstHit ((lm.inputs fs).map fs.records) k = some v ∧ isTombstone v = false

theorem Usable.merged_ne_nil_iff {fs : Fs} {lm : LevelManager} (h : lm.Usable fs) (H : MergeHeap) :
    lm.merged H fs ≠ [] ↔ lm.HasLive fs := by
  constructor
  · intro hne
    obtain ⟨r, hr⟩ := List.exists_mem_of_ne_nil _ hne
    obtain ⟨hlive, hfirst⟩ := (mem_merge_iff H h.sorted_inputs).mp hr
    exact ⟨r.1, r.2, hfirst, hlive⟩
  · rintro ⟨k, v, hfirst, hlive⟩
    exact List.ne_nil_of_mem ((mem_merge_iff H h.sorted_inputs).mpr ⟨hlive, hfirst⟩)

/-- **An added file keeps the levels usable**, also in the place of a tracked one. -/
theorem Usable.addL0File {fs : Fs} {lm : LevelManager} (h : lm.Usable fs) {p : Path}
    (hp : p.NamedSst) {bytes : Bytes} {rs : List Record} (hrs : Stores bytes rs) (hne : rs ≠ []) :
    (lm.addL0File p).Usable (fs.write p bytes) := by
  have hnew : (fs.write p bytes).Stored p rs := ⟨bytes, Fs.write_self fs p bytes, hrs⟩
  have hold : ∀ q ∈ (lm.addL0File p).l0 ++ (lm.addL0File p).l1, q ≠ p →
      q ∈ lm.l0 ++ lm.l1 ∧ (fs.write p bytes) q = fs q := by
    intro q hq hqp
    refine ⟨?_, Fs.write_of_ne hqp fs bytes⟩
    rw [l0_addL0File, l1_addL0File] at hq
    simpa [hqp] using hq
  refine ⟨fun q hq => ?_, fun q hq => ?_, fun q hq => ?_⟩
  · by_cases hqp : q = p
    · exact hqp ▸ hp
    · exact h.named q (hold q hq hqp).1
  · by_cases hqp : q = p
    · exact hqp ▸ hnew.complete
    · obtain ⟨hq, hsame⟩ := hold q hq hqp
      exact (h.complete q hq).congr hsame
  · by_cases hqp : q = p
    · rw [hqp, hnew.records_eq]
      exact hne
    · obtain ⟨hq, hsame⟩ := hold q hq hqp
      rw [Fs.records_congr hsame]
      exact h.nonempty q hq

/-- **A compaction keeps the levels usable** when it merges a live key and does not
delete its own output. -/
theorem Compacted.usable {H : MergeHeap} {io : CompactIo} {now : ℕ} {fs fs' : Fs}
    {lm lm' : LevelManager} {oldest : Path} (hc : Compacted H io now fs lm oldest lm' fs')
    (h : lm.Usable fs) (hlive : lm.HasLive fs) (hout : outputPath now oldest ∉ lm.inputs fs) :
    lm'.Usable fs' := by
  have hnew : fs'.Stored (outputPath now oldest) (lm.merged H fs) :=
    hc.output fun _ hi => absurd (List.mem_of_getElem? hi) hout
  -- what is tracked besides the output was left alone
  have hold : ∀ q ∈ lm'.l0 ++ lm'.l1, q ≠ outputPath now oldest →
      q ∈ lm.l0 ++ lm.l1 ∧ fs' q = fs q := by
    intro q hq hne
    rw [hc.levels, l0_mk, l1_mk, List.nil_append] at hq
    have hu : q ∈ lm.untouched fs := by simpa [hne] using hq
    exact ⟨mem_of_l1 (mem_of_untouched hu), hc.untouched_kept h hu hne⟩
  refine ⟨fun q hq => ?_, fun q hq => ?_, fun q hq => ?_⟩
  · by_cases hne : q = outputPath now oldest
    · exact hne ▸ named_outputPath now oldest
    · exact h.named q (hold q hq hne).1
  · by_cases hne : q = outputPath now oldest
    · exact hne ▸ hnew.complete
    · obtain ⟨hq, hsame⟩ := hold q hq hne
      exact (h.complete q hq).congr hsame
  · by_cases hne : q = outputPath now oldest
    · rw [hne, hnew.records_eq]
      exact (h.merged_ne_nil_iff H).mpr hlive
    · obtain ⟨hq, hsame⟩ := hold q hq hne
      rw [Fs.records_congr hsame]
      exact h.nonempty q hq

end LevelManager

namespace Disk

open LevelManager

variable {S : BloomSizing} {H : MergeHeap}

/-- **The compaction leaves a usable file**: there is nothing to merge, or a live
key, and the output takes no input's name. -/
def Fruitful (d : Disk) : Op → Prop
  | .add _ _ => True
  | .compact now => ∀ oldest ∈ d.lm.l0.head?,
      d.lm.HasLive d.fs ∧ outputPath now oldest ∉ d.lm.inputs d.fs

/-- One step. -/
theorem usable_next {d : Disk} {op : Op} (h : d.lm.Usable d.fs) (hlegal : d.Legal S H op)
    (hfruit : d.Fruitful op) : (d.next S H op).lm.Usable (d.next S H op).fs := by
  cases op with
  | add p bytes =>
    obtain ⟨hp, rs, hrs, hne⟩ := hlegal
    exact h.addL0File hp hrs hne
  | compact now =>
    rcases hl0 : d.lm.l0.head? with - | oldest
    · -- without L0 files nothing is merged
      have hnil : d.lm.l0 = [] := List.head?_eq_none_iff.mp hl0
      have hsub : ∀ p ∈ d.lm.l1, p ∈ d.lm.l0 ++ d.lm.l1 := fun p hp => mem_of_l1 hp
      rw [next, compact_nil hnil]
      exact ⟨fun p hp => h.named p (hsub p hp), fun p hp => h.complete p (hsub p hp),
        fun p hp => h.nonempty p (hsub p hp)⟩
    · obtain ⟨hlive, hout⟩ := hfruit oldest hl0
      have hok := h.compact_ok hlegal now
      exact (h.compacted CompactIo.readsComplete_whole hl0 (Prod.ext hok rfl)).usable h hlive hout

/-- **No compaction of such a run fails**: the files tracked in the state it has
reached are usable, and the next compaction returns `Ok`. -/
theorem compact_ok_of_run {fs : Fs} {ops : List Op} {d : Disk}
    (hrun : Runs.Run (Runs.Guarded (Step S H) Fruitful) ⟨fs, .new⟩ ops d) (now : ℕ)
    (hfits : d.lm.Fits S H d.fs) : (d.lm.compact S H .whole now d.fs).1 = .ok () := by
  have husable : d.lm.Usable d.fs := by
    refine hrun.invariant (I := fun d => d.lm.Usable d.fs) ⟨by simp [LevelManager.new, l0, l1],
      by simp [LevelManager.new, l0, l1], by simp [LevelManager.new, l0, l1]⟩ ?_
    rintro d op d' h ⟨⟨hlegal, rfl⟩, hfruit⟩
    exact usable_next h hlegal hfruit
  exact husable.compact_ok hfits now

/-- The bytes of a finished file of these records. -/
def finished (rs : List Record) : Bytes := (sstableBytes .percent rs.length rs).getD []

theorem stores_finished {rs : List Record} (hs : StrictSorted rs) (hshort : ∀ r ∈ rs, ShortRecord r)
    (hlen : (finished rs).length < 2 ^ 63) : Stores (finished rs) rs := by
  obtain ⟨bytes, hbytes⟩ := sstableBytes_isSome .percent rs.length rs
  rw [finished, hbytes, Option.getD_some] at hlen ⊢
  exact stores_sstableBytes hbytes hs hshort hlen

theorem legal_add (d : Disk) (now : ℕ) {v : Value} (hv : Short v)
    (hlen : (finished [([1], v)]).length < 2 ^ 63) :
    d.Legal S H (.add ⟨[], FileName.l0Name now⟩ (finished [([1], v)])) :=
  ⟨FileName.suffix_l0Name now, [([1], v)], stores_finished (List.pairwise_singleton _ _)
    (by simpa [ShortRecord, Short] using hv) hlen, List.cons_ne_nil _ _⟩

/-- A value that is deleted after its first compaction. -/
theorem compact_ok_of_run_deleted :
    let d := (Disk.next .percent (.argmin _) (Disk.next .percent (.argmin _) (Disk.next .percent
      (.argmin _) ⟨fun _ => none, .new⟩ (.add ⟨[], FileName.l0Name 1⟩ (finished [([1], [8])])))
      (.compact 2)) (.add ⟨[], FileName.l0Name 3⟩ (finished [([1], tombstone)])))
    (d.lm.compact .percent (.argmin _) .whole 4 d.fs).1 = .ok () := by
  refine compact_ok_of_run (((Runs.Run.nil.snoc
    ⟨⟨legal_add _ 1 (by decide) (by decide +kernel), rfl⟩, trivial⟩).snoc (a := .compact 2)
    ⟨⟨by change LevelManager.Fits _ _ _ _; decide +kernel, rfl⟩, ?_⟩).snoc
    ⟨⟨legal_add _ 3 (by decide) (by decide +kernel), rfl⟩, trivial⟩) 4 (by decide +kernel)
  rintro _ ⟨⟩
  exact ⟨⟨[1], [8], by decide +kernel, by decide⟩, by decide +kernel⟩

/-- **A compaction of deletions jams the next one**: the file it tracks in L1 has
no first key. -/
theorem not_compact_ok_of_run :
    ¬∀ (S : BloomSizing) (H : MergeHeap) (fs : Fs) (ops : List Op) (d : Disk),
      Runs.Run (Step S H) ⟨fs, .new⟩ ops d → ∀ now, d.lm.Fits S H d.fs →
      (d.lm.compact S H .whole now d.fs).1 = .ok () := by
  intro h
  have hok := h .percent (.argmin _) (fun _ => none) _ _
    (((Runs.Run.nil.snoc ⟨legal_add (v := tombstone) _ 1 (by decide) (by decide +kernel), rfl⟩).snoc
      (a := .compact 2) ⟨by change LevelManager.Fits _ _ _ _; decide +kernel, rfl⟩).snoc
      ⟨legal_add (v := [8]) _ 3 (by decide) (by decide +kernel), rfl⟩) 4 (by decide +kernel)
  exact absurd hok (by decide +kernel)

end Disk

end Tabula
