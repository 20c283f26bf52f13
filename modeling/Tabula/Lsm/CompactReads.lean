import Tabula.Lsm.Search
import Tabula.Levels.Outcome

/-!
# Compaction as readers see it

`Lsm::get` and `compact` order L0 differently. A reader goes from the last file to
the first, because files are appended as they are flushed; the merge gives
precedence to the lowest source, and its sources are L0 in list order. So a key
with several L0 copies reads as its newest before a compaction and as its oldest
after it. No reader notices exactly when for every key the two orders find the same
value.

The other two parts of the condition are about the name of the output, which is
taken from the clock and not checked. A name that is an input's is deleted right
after it was written; a name that is an untouched file's replaces that file. Nothing
else can be lost: in the order of the merge itself, every key answers after the
compaction as before (`Tabula.searchVisible`), whatever files were left out and whatever
tombstones were dropped.
-/

namespace Tabula

open SortedTable LevelManager

/-- L0 as the merge reads it, from its first file on. -/
def oldestL0 (fs : Fs) (lm : LevelManager) (k : Key) : Option Value :=
  firstHit (lm.l0.map fs.records) k

/-- L0 as `get` reads it, from its last file on. -/
def newestL0 (fs : Fs) (lm : LevelManager) (k : Key) : Option Value :=
  firstHit (lm.l0.reverse.map fs.records) k

theorem newestL0_eq_none_iff {fs : Fs} {lm : LevelManager} {k : Key} :
    newestL0 fs lm k = none ↔ oldestL0 fs lm k = none := by
  rw [newestL0, List.map_reverse, firstHit_reverse_eq_none_iff, oldestL0]

theorem exists_head_of_oldestL0 {fs : Fs} {lm : LevelManager} {k : Key}
    (hk : oldestL0 fs lm k ≠ none) : ∃ oldest, lm.l0.head? = some oldest := by
  rcases hl0 : lm.l0 with - | ⟨oldest, rest⟩
  · exact absurd (by rw [oldestL0, hl0]; rfl) hk
  · exact ⟨oldest, rfl⟩

/-- The two orders of L0 give the same visible answer only when they give the same
raw one. -/
theorem visible_or_eq_iff {fs : Fs} {lm : LevelManager} {k : Key} {rest : Option Value} :
    visible ((oldestL0 fs lm k).or rest) = visible ((newestL0 fs lm k).or rest) ↔
      oldestL0 fs lm k = newestL0 fs lm k := by
  have hnone := @newestL0_eq_none_iff fs lm k
  cases ho : oldestL0 fs lm k with
  | none =>
    rw [hnone.mpr ho]
    exact iff_of_true rfl rfl
  | some a =>
    cases hn : newestL0 fs lm k with
    | none =>
      rw [hnone.mp hn] at ho
      exact absurd ho.symm (Option.some_ne_none a)
    | some b =>
      rw [Option.some_or, Option.some_or, visible_some_inj, Option.some_inj]

/-- The first raw record of a key in a list of files, as a reader takes it. -/
def searchVisible (fs : Fs) (ps : List Path) (key : Key) : Res LsmError (Option Value) := do
  let raw ← searchFiles fs key ps
  return visible raw

/-! ### Before the compaction -/

section Before

variable {fs : Fs} {lm : LevelManager} (hs : lm.Sound fs)

include hs

theorem LevelManager.Sound.complete_readOrder : ∀ p ∈ lm.readOrder, fs.Complete p := by
  intro p hp
  rw [readOrder_eq hs.bottom] at hp
  rcases List.mem_append.mp hp with hp | hp
  · exact hs.complete p (mem_of_l0 (List.mem_reverse.mp hp))
  · exact hs.complete p (mem_of_l1 hp)

theorem LevelManager.Sound.searchLevels_eq (k : Key) :
    searchLevels fs lm k =
      .ok (visible ((newestL0 fs lm k).or (firstHit (lm.l1.map fs.records) k))) := by
  rw [Tabula.searchLevels_eq hs.complete_readOrder, readOrder_eq hs.bottom, List.map_append,
    firstHit_append]
  rfl

/-- The one L1 file that holds a key answers for L1. -/
theorem LevelManager.Sound.firstHit_l1 {q : Path} (hq : q ∈ lm.l1) {k : Key} {v : Value}
    (hk : lookup k (fs.records q) = some v) : firstHit (lm.l1.map fs.records) k = some v := by
  refine firstHit_eq_of_forall (fun t ht => ?_) ⟨_, List.mem_map_of_mem hq, hk⟩
  obtain ⟨p, hp, rfl⟩ := List.mem_map.mp ht
  rcases hw : lookup k (fs.records p) with - | w
  · exact Or.inl rfl
  · obtain rfl := hs.eq_of_mem_l1 hp hq (mem_of_lookup hw) (mem_of_lookup hk)
    exact Or.inr (hw.symm.trans hk)

/-- A key of an untouched file is in no L0 file and in no other L1 file. -/
theorem LevelManager.Sound.of_untouched {q : Path} (hq : q ∈ lm.untouched fs) {k : Key} {v : Value}
    (hk : lookup k (fs.records q) = some v) :
    oldestL0 fs lm k = none ∧ ∀ p ∈ lm.l1, p ≠ q → lookup k (fs.records p) = none := by
  have hql1 := mem_of_untouched hq
  refine ⟨firstHit_eq_none_iff.mpr fun t ht => ?_, fun p hp hne => ?_⟩
  · obtain ⟨p, hp, rfl⟩ := List.mem_map.mp ht
    by_contra hsome
    obtain ⟨w, hw⟩ := Option.ne_none_iff_exists'.mp hsome
    exact not_mem_l0_of_untouched (fun p hp => hs.sorted (mem_of_l0 hp))
      (hs.sorted (mem_of_l1 hql1)) hq (mem_of_lookup hk) hp (mem_of_lookup hw)
  · by_contra hsome
    obtain ⟨w, hw⟩ := Option.ne_none_iff_exists'.mp hsome
    exact hne (hs.eq_of_mem_l1 hp hql1 (mem_of_lookup hw) (mem_of_lookup hk))

/-- Nor does a merged L1 file hold it. -/
theorem LevelManager.Sound.overlapping_of_untouched {q : Path} (hq : q ∈ lm.untouched fs) {k : Key}
    {v : Value} (hk : lookup k (fs.records q) = some v) :
    firstHit ((lm.overlapping fs).map fs.records) k = none := by
  refine firstHit_eq_none_iff.mpr fun t ht => ?_
  obtain ⟨p, hp, rfl⟩ := List.mem_map.mp ht
  refine (hs.of_untouched hq hk).2 p (mem_of_overlapping hp) fun hpq =>
    hs.toUsable.not_mem_inputs hq ?_
  exact List.mem_append_right _ (hpq ▸ hp)

theorem LevelManager.Sound.searchLevels_of_untouched {q : Path} (hq : q ∈ lm.untouched fs) {k : Key}
    {v : Value} (hk : lookup k (fs.records q) = some v) :
    searchLevels fs lm k = .ok (visible (some v)) := by
  rw [hs.searchLevels_eq, newestL0_eq_none_iff.mpr (hs.of_untouched hq hk).1,
    hs.firstHit_l1 (mem_of_untouched hq) hk]
  rfl

theorem LevelManager.Sound.searchVisible_eq (k : Key) :
    searchVisible fs (lm.l0 ++ lm.l1) k =
      .ok (visible ((oldestL0 fs lm k).or (firstHit (lm.l1.map fs.records) k))) := by
  rw [searchVisible, searchFiles_eq hs.complete, List.map_append, firstHit_append]
  rfl

theorem LevelManager.Sound.searchVisible_of_untouched {q : Path} (hq : q ∈ lm.untouched fs)
    {k : Key} {v : Value} (hk : lookup k (fs.records q) = some v) :
    searchVisible fs (lm.l0 ++ lm.l1) k = .ok (visible (some v)) := by
  rw [hs.searchVisible_eq, (hs.of_untouched hq hk).1, hs.firstHit_l1 (mem_of_untouched hq) hk]
  rfl

theorem LevelManager.Sound.searchVisible_of_merged {k : Key}
    (hno : ∀ q ∈ lm.untouched fs, lookup k (fs.records q) = none) :
    searchVisible fs (lm.l0 ++ lm.l1) k = .ok (visible ((oldestL0 fs lm k).or
      (firstHit ((lm.overlapping fs).map fs.records) k))) := by
  rw [hs.searchVisible_eq, overlapping, firstHit_map_filter fun p hp hmeets =>
    hno p (List.mem_filter.mpr ⟨hp, by simp [hmeets]⟩)]

/-- The merge and the reader take a key alike when both ends of L0 do. -/
theorem LevelManager.Sound.searchVisible_eq_searchLevels_iff (k : Key) :
    searchVisible fs (lm.l0 ++ lm.l1) k = searchLevels fs lm k ↔
      oldestL0 fs lm k = newestL0 fs lm k := by
  rw [hs.searchVisible_eq, hs.searchLevels_eq, Except.ok.injEq, visible_or_eq_iff]

end Before

/-! ### After it -/

section After

variable {H : MergeHeap} {io : CompactIo} {now : ℕ} {fs fs' : Fs} {lm lm' : LevelManager}
  {oldest : Path} (hs : lm.Sound fs) (hc : Compacted H io now fs lm oldest lm' fs')

include hs hc

theorem LevelManager.Compacted.readOrder_eq :
    lm'.readOrder = lm.untouched fs ++ [outputPath now oldest] := by
  rw [hc.levels]
  simp [readOrder, hs.bottom]

/-- What the tracked files hold, when the output has not been deleted. -/
theorem LevelManager.Compacted.stored
    (hkept : ∀ i, (lm.inputs fs)[i]? = some (outputPath now oldest) → io.remove i = false) :
    ∀ p ∈ lm.untouched fs ++ [outputPath now oldest],
      fs'.Stored p (if p = outputPath now oldest then lm.merged H fs else fs.records p) := by
  intro p hp
  split
  · rename_i hout
    rw [hout]
    exact hc.output hkept
  · rename_i hout
    have hu : p ∈ lm.untouched fs := by simpa [hout] using hp
    exact Fs.Stored.congr (hs.complete p (mem_of_l1 (mem_of_untouched hu)))
      (hc.untouched_kept hs.toUsable hu hout)

theorem LevelManager.Compacted.searchLevels_eq
    (hkept : ∀ i, (lm.inputs fs)[i]? = some (outputPath now oldest) → io.remove i = false)
    (k : Key) :
    searchLevels fs' lm' k = .ok (visible (firstHit
      ((lm.untouched fs ++ [outputPath now oldest]).map fun p =>
        if p = outputPath now oldest then lm.merged H fs else fs.records p) k)) := by
  have hstored := hc.stored hs hkept
  have horder := hc.readOrder_eq hs
  rw [Tabula.searchLevels_eq (by rw [horder]; exact fun p hp => (hstored p hp).complete), horder,
    List.map_congr_left fun p hp => (hstored p hp).records_eq]

/-- A key of an untouched file that is still there reads as it did. -/
theorem LevelManager.Compacted.searchLevels_of_untouched
    (hkept : ∀ i, (lm.inputs fs)[i]? = some (outputPath now oldest) → io.remove i = false)
    {q : Path} (hq : q ∈ lm.untouched fs) (hne : q ≠ outputPath now oldest) {k : Key} {v : Value}
    (hk : lookup k (fs.records q) = some v) : searchLevels fs' lm' k = .ok (visible (some v)) := by
  obtain ⟨hl0, hothers⟩ := hs.of_untouched hq hk
  have hmerged : lookup k (lm.merged H fs) = none := by
    rw [hs.toUsable.lookup_merged, ← oldestL0, hl0, hs.overlapping_of_untouched hq hk]
    rfl
  rw [hc.searchLevels_eq hs hkept]
  refine congrArg (fun raw => Except.ok (visible raw)) (firstHit_eq_of_forall (fun t ht => ?_) ?_)
  · obtain ⟨p, hp, rfl⟩ := List.mem_map.mp ht
    split
    · exact Or.inl hmerged
    · rename_i hout
      have hu : p ∈ lm.untouched fs := by simpa [hout] using hp
      by_cases hpq : p = q
      · exact Or.inr (hpq ▸ hk)
      · exact Or.inl (hothers p (mem_of_untouched hu) hpq)
  · exact ⟨_, List.mem_map_of_mem (List.mem_append_left _ hq), by rw [if_neg hne, hk]⟩

/-- Any other key is answered by the output. -/
theorem LevelManager.Compacted.searchLevels_of_merged
    (hkept : ∀ i, (lm.inputs fs)[i]? = some (outputPath now oldest) → io.remove i = false) {k : Key}
    (hno : ∀ q ∈ lm.untouched fs, q ≠ outputPath now oldest → lookup k (fs.records q) = none) :
    searchLevels fs' lm' k = .ok (visible ((oldestL0 fs lm k).or
      (firstHit ((lm.overlapping fs).map fs.records) k))) := by
  have hmerged := hs.toUsable.lookup_merged H k
  rw [← oldestL0] at hmerged
  rw [hc.searchLevels_eq hs hkept, firstHit_eq_of_forall (x := lookup k (lm.merged H fs)), hmerged,
    visible_visible]
  · intro t ht
    obtain ⟨p, hp, rfl⟩ := List.mem_map.mp ht
    split
    · exact Or.inr rfl
    · rename_i hout
      exact Or.inl (hno p (by simpa [hout] using hp) hout)
  · exact ⟨_, List.mem_map_of_mem (List.mem_append_right _ (List.mem_singleton_self _)), by
      rw [if_pos rfl]⟩

/-- **When the output is gone, reads fail** for the keys of L0. -/
theorem LevelManager.Compacted.searchLevels_of_gone {i : ℕ}
    (hi : (lm.inputs fs)[i]? = some (outputPath now oldest)) (hok : io.remove i = true) {k : Key}
    (hno : ∀ q ∈ lm.untouched fs, lookup k (fs.records q) = none) :
    searchLevels fs' lm' k = .error (.err .io) := by
  have hne : ∀ q ∈ lm.untouched fs, q ≠ outputPath now oldest := by
    rintro q hq rfl
    exact hs.toUsable.not_mem_inputs hq (List.mem_of_getElem? hi)
  have hstored : ∀ q ∈ lm.untouched fs, fs'.Stored q (fs.records q) := fun q hq =>
    Fs.Stored.congr (hs.complete q (mem_of_l1 (mem_of_untouched hq)))
      (hc.untouched_kept hs.toUsable hq (hne q hq))
  have hnone : firstHit ((lm.untouched fs).map fs'.records) k = none := by
    refine firstHit_eq_none_iff.mpr fun t ht => ?_
    obtain ⟨q, hq, rfl⟩ := List.mem_map.mp ht
    rw [(hstored q hq).records_eq]
    exact hno q hq
  rw [searchLevels, hc.readOrder_eq hs, searchFiles_append (fun q hq => (hstored q hq).complete),
    hnone]
  simp only
  rw [searchFiles_missing (hc.gone _ i hi hok)]
  rfl

end After

/-! ### The condition -/

/-- **No reader notices the compaction**: L0 answers alike from both ends, the
deletion of an input of the output's name fails, and an untouched file of the
output's name holds nothing but tombstones. -/
structure LevelManager.Unnoticed (io : CompactIo) (now : ℕ) (fs : Fs) (lm : LevelManager) :
    Prop where
  agree : ∀ k, oldestL0 fs lm k = newestL0 fs lm k
  kept : ∀ oldest ∈ lm.l0.head?, ∀ i, (lm.inputs fs)[i]? = some (outputPath now oldest) →
    io.remove i = false
  dead : ∀ oldest ∈ lm.l0.head?, outputPath now oldest ∈ lm.untouched fs →
    ∀ r ∈ fs.records (outputPath now oldest), isTombstone r.2 = true

/-- **The output does no harm to a file**: the deletion of an input of its name fails, and
an untouched file of its name holds nothing but tombstones. -/
structure LevelManager.OutputSafe (io : CompactIo) (now : ℕ) (fs : Fs) (lm : LevelManager) :
    Prop where
  kept : ∀ oldest ∈ lm.l0.head?, ∀ i, (lm.inputs fs)[i]? = some (outputPath now oldest) →
    io.remove i = false
  dead : ∀ oldest ∈ lm.l0.head?, outputPath now oldest ∈ lm.untouched fs →
    ∀ r ∈ fs.records (outputPath now oldest), isTombstone r.2 = true

theorem LevelManager.unnoticed_iff {io : CompactIo} {now : ℕ} {fs : Fs} {lm : LevelManager} :
    lm.Unnoticed io now fs ↔
      (∀ k, oldestL0 fs lm k = newestL0 fs lm k) ∧ lm.OutputSafe io now fs :=
  ⟨fun h => ⟨h.agree, h.kept, h.dead⟩, fun h => ⟨h.1, h.2.kept, h.2.dead⟩⟩

section Condition

variable {S : BloomSizing} {H : MergeHeap} {io : CompactIo} {now : ℕ} {fs fs' : Fs}
  {lm lm' : LevelManager} {oldest : Path} (hs : lm.Sound fs)

include hs

/-- **A compaction that loses no answer has a safe output**, whatever the answers of L0 were
before: its keys had some, and those of an untouched file had that of the file. -/
theorem LevelManager.Compacted.outputSafe (hc : Compacted H io now fs lm oldest lm' fs')
    (hl0 : lm.l0.head? = some oldest) {before : Key → Res LsmError (Option Value)}
    (hok : ∀ k, ∃ answer, before k = .ok answer)
    (hold : ∀ q ∈ lm.untouched fs, ∀ k v, lookup k (fs.records q) = some v →
      before k = .ok (visible (some v)))
    (heq : ∀ k, searchLevels fs' lm' k = before k) : lm.OutputSafe io now fs := by
  have hmem : oldest ∈ lm.l0 := List.mem_of_mem_head? hl0
  have hkept : ∀ i, (lm.inputs fs)[i]? = some (outputPath now oldest) → io.remove i = false := by
    intro i hi
    by_contra hremoved
    -- any key of the oldest L0 file fails afterwards
    obtain ⟨r, hr⟩ := List.exists_mem_of_ne_nil _ (hs.nonempty oldest (mem_of_l0 hmem))
    have hno : ∀ q ∈ lm.untouched fs, lookup r.1 (fs.records q) = none := by
      intro q hq
      by_contra hsome
      obtain ⟨w, hw⟩ := Option.ne_none_iff_exists'.mp hsome
      have hl := (hs.of_untouched hq hw).1
      rw [oldestL0, firstHit_eq_none_iff] at hl
      exact lookup_eq_none_iff.mp (hl _ (List.mem_map_of_mem hmem)) r hr rfl
    obtain ⟨answer, hanswer⟩ := hok r.1
    have := heq r.1
    rw [hc.searchLevels_of_gone hs hi (Bool.eq_true_of_not_eq_false hremoved) hno, hanswer] at this
    cases this
  refine ⟨fun o ho => ?_, fun o ho hu r hr => ?_⟩
  · obtain rfl : oldest = o := Option.some.inj (hl0.symm.trans ho)
    exact hkept
  · obtain rfl : oldest = o := Option.some.inj (hl0.symm.trans ho)
    have hk : lookup r.1 (fs.records (outputPath now oldest)) = some r.2 :=
      (lookup_eq_some_iff (hs.sorted (mem_of_l1 (mem_of_untouched hu)))).mpr hr
    obtain ⟨hl, hothers⟩ := hs.of_untouched hu hk
    have := heq r.1
    rw [hold _ hu _ _ hk, hc.searchLevels_of_merged hs hkept fun q hq hne =>
      hothers q (mem_of_untouched hq) hne, hl, hs.overlapping_of_untouched hu hk] at this
    by_contra hlive
    rw [visible_of_not_tombstone (Bool.eq_false_iff.mpr hlive)] at this
    simp at this

/-- **With a safe output the levels answer as their sources did.** -/
theorem LevelManager.Compacted.searchLevels_eq_searchVisible
    (hc : Compacted H io now fs lm oldest lm' fs') (hl0 : lm.l0.head? = some oldest)
    (hsafe : lm.OutputSafe io now fs) (k : Key) :
    searchLevels fs' lm' k = searchVisible fs (lm.l0 ++ lm.l1) k := by
  have hkept := hsafe.kept oldest hl0
  by_cases hno : ∀ q ∈ lm.untouched fs, lookup k (fs.records q) = none
  · rw [hc.searchLevels_of_merged hs hkept fun q hq _ => hno q hq, hs.searchVisible_of_merged hno]
  · simp only [not_forall] at hno
    obtain ⟨q, hq, hsome⟩ := hno
    obtain ⟨v, hv⟩ := Option.ne_none_iff_exists'.mp hsome
    rw [hs.searchVisible_of_untouched hq hv]
    by_cases hout : q = outputPath now oldest
    · -- the file the output replaced: all it held was tombstones
      subst hout
      obtain ⟨hl, hothers⟩ := hs.of_untouched hq hv
      have hdead : isTombstone v = true := hsafe.dead oldest hl0 hq (k, v) (mem_of_lookup hv)
      rw [hc.searchLevels_of_merged hs hkept fun p hp hne => hothers p (mem_of_untouched hp) hne,
        hl, hs.overlapping_of_untouched hq hv, isTombstone_iff.mp hdead]
      rfl
    · exact hc.searchLevels_of_untouched hs hkept hq hout hv

/-- A compaction that is not noticed changes no read. -/
theorem LevelManager.Sound.searchLevels_compact (hio : io.ReadsComplete)
    (h : compact S H io now fs lm = (.ok (), lm', fs')) (hunnoticed : lm.Unnoticed io now fs)
    (k : Key) : searchLevels fs' lm' k = searchLevels fs lm k := by
  rcases hl0 : lm.l0.head? with - | oldest
  · -- with an empty L0 nothing happens
    have hnil : lm.l0 = [] := List.head?_eq_none_iff.mp hl0
    rw [compact_nil hnil] at h
    obtain ⟨-, rfl, rfl⟩ : _ ∧ _ ∧ _ := by simpa only [Prod.mk.injEq] using h
    rw [searchLevels, searchLevels, readOrder_eq hs.bottom, hnil]
    simp [readOrder, hs.bottom]
  · have hc := hs.toUsable.compacted hio hl0 h
    obtain ⟨hagree, hsafe⟩ := unnoticed_iff.mp hunnoticed
    rw [hc.searchLevels_eq_searchVisible hs hl0 hsafe,
      (hs.searchVisible_eq_searchLevels_iff k).mpr (hagree k)]

/-- **Exactly when a compaction changes no read.** -/
theorem searchLevels_compact_iff (hio : io.ReadsComplete)
    (h : compact S H io now fs lm = (.ok (), lm', fs')) :
    (∀ k, searchLevels fs' lm' k = searchLevels fs lm k) ↔ lm.Unnoticed io now fs := by
  refine ⟨fun heq => ?_, fun hunnoticed => hs.searchLevels_compact hio h hunnoticed⟩
  rcases hl0 : lm.l0.head? with - | oldest
  · -- with an empty L0 nothing is asked
    refine ⟨fun k => ?_, by simp [hl0], by simp [hl0]⟩
    rw [oldestL0, newestL0, List.head?_eq_none_iff.mp hl0]
    rfl
  · have hc := hs.toUsable.compacted hio hl0 h
    have hsafe := hc.outputSafe hs hl0 (fun k => ⟨_, hs.searchLevels_eq k⟩)
      (fun q hq k v hk => hs.searchLevels_of_untouched hq hk) heq
    refine unnoticed_iff.mpr ⟨fun k => (hs.searchVisible_eq_searchLevels_iff k).mp ?_, hsafe⟩
    rw [← heq k, hc.searchLevels_eq_searchVisible hs hl0 hsafe]

end Condition

/-- A key that two flushes have written with one value, beside a key of each. -/
def repeatedKey : Fs := fun p =>
  if p = ⟨[], FileName.l0Name 1⟩ then sstableBytes .percent 2 [([1], [8]), ([2], [7])]
  else if p = ⟨[], FileName.l0Name 2⟩ then sstableBytes .percent 2 [([1], [8]), ([3], tombstone)]
  else none

theorem stored_repeatedKey :
    repeatedKey.Stored ⟨[], FileName.l0Name 1⟩ [([1], [8]), ([2], [7])] ∧
      repeatedKey.Stored ⟨[], FileName.l0Name 2⟩ [([1], [8]), ([3], tombstone)] :=
  ⟨Fs.stored_of_written (S := .percent) (n := 2) rfl (by decide) (by decide) (by decide),
    Fs.stored_of_written (S := .percent) (n := 2) rfl (by decide) (by decide) (by decide)⟩

theorem sound_repeatedKey : LevelManager.Sound repeatedKey
    ⟨[[⟨[], FileName.l0Name 1⟩, ⟨[], FileName.l0Name 2⟩], []]⟩ :=
  ⟨.of_two rfl (FileName.suffix_l0Name 1) (FileName.suffix_l0Name 2) stored_repeatedKey.1
    stored_repeatedKey.2, List.Pairwise.nil, rfl⟩

theorem unnoticed_repeatedKey : LevelManager.Unnoticed .whole 3 repeatedKey
    ⟨[[⟨[], FileName.l0Name 1⟩, ⟨[], FileName.l0Name 2⟩], []]⟩ where
  agree k := by
    -- both files have the same value for what they share
    refine (firstHit_perm (List.reverse_perm _ |>.map _) ?_).symm
    refine List.pairwise_pair.mpr fun v w hv hw => ?_
    have hv := mem_of_lookup hv
    have hw := mem_of_lookup hw
    rw [stored_repeatedKey.1.records_eq] at hv
    rw [stored_repeatedKey.2.records_eq] at hw
    simp only [List.mem_cons, Prod.mk.injEq, List.not_mem_nil, or_false] at hv hw
    rcases hv with ⟨rfl, rfl⟩ | ⟨rfl, rfl⟩ <;> rcases hw with ⟨hk, rfl⟩ | ⟨hk, rfl⟩
    · rfl
    all_goals exact absurd hk (by decide)
  kept := by
    rintro _ ⟨⟩ i hi
    exact absurd (LevelManager.mem_of_inputs (List.mem_of_getElem? hi)) (by decide)
  dead := by
    rintro _ ⟨⟩ hu
    exact absurd (LevelManager.mem_of_untouched hu) List.not_mem_nil

/-- A compaction of two L0 files that share a key, of which it makes no difference which comes
first. -/
theorem searchLevels_compact_iff_repeatedKey :
    let c := compact .percent (.argmin _) .whole 3 repeatedKey
      ⟨[[⟨[], FileName.l0Name 1⟩, ⟨[], FileName.l0Name 2⟩], []]⟩
    ∀ k, searchLevels c.2.2 c.2.1 k = searchLevels repeatedKey
      ⟨[[⟨[], FileName.l0Name 1⟩, ⟨[], FileName.l0Name 2⟩], []]⟩ k :=
  (searchLevels_compact_iff sound_repeatedKey CompactIo.readsComplete_whole
    (Prod.ext (by decide +kernel) rfl)).mpr unnoticed_repeatedKey

/-- Two flushes of one key, in the order of their names. -/
def overwrittenKey : Fs := fun p =>
  if p = ⟨[], FileName.l0Name 1⟩ then sstableBytes .percent 1 [([1], [8])]
  else if p = ⟨[], FileName.l0Name 2⟩ then sstableBytes .percent 1 [([1], [9])]
  else none

theorem stored_overwrittenKey :
    overwrittenKey.Stored ⟨[], FileName.l0Name 1⟩ [([1], [8])] ∧
      overwrittenKey.Stored ⟨[], FileName.l0Name 2⟩ [([1], [9])] :=
  ⟨Fs.stored_of_written (S := .percent) (n := 1) rfl (by decide) (by decide) (by decide),
    Fs.stored_of_written (S := .percent) (n := 1) rfl (by decide) (by decide) (by decide)⟩

theorem sound_overwrittenKey : LevelManager.Sound overwrittenKey
    ⟨[[⟨[], FileName.l0Name 1⟩, ⟨[], FileName.l0Name 2⟩], []]⟩ :=
  ⟨.of_two rfl (FileName.suffix_l0Name 1) (FileName.suffix_l0Name 2) stored_overwrittenKey.1
    stored_overwrittenKey.2, List.Pairwise.nil, rfl⟩

/-- **A compaction can bring an overwritten value back**: the key reads as its
second value before, and as its first one after. -/
theorem not_searchLevels_compact_eq :
    ¬∀ (S : BloomSizing) (H : MergeHeap) (io : CompactIo) (now : ℕ) (fs fs' : Fs)
      (lm lm' : LevelManager), lm.Sound fs → io.ReadsComplete →
      compact S H io now fs lm = (.ok (), lm', fs') →
      ∀ k, searchLevels fs' lm' k = searchLevels fs lm k := by
  intro h
  have hread := h .percent (.argmin _) .whole 3 _ _ _ _ sound_overwrittenKey
    CompactIo.readsComplete_whole (Prod.ext (by decide +kernel) rfl) [1]
  exact absurd hread (by decide +kernel)

section Output

variable {S : BloomSizing} {H : MergeHeap} {io : CompactIo} {now : ℕ} {fs fs' : Fs}
  {lm lm' : LevelManager} (hs : lm.Sound fs)

include hs

/-- **Exactly when nothing is lost with the files a compaction leaves out**, and with the
tombstones it drops: the new L1 then answers as L0, oldest file first, and all of the old L1
did. The merged files alone stand for all of them, since a file that is left out shares no key
with the others. -/
theorem searchVisible_compact_iff (hio : io.ReadsComplete)
    (h : compact S H io now fs lm = (.ok (), lm', fs')) :
    (lm'.l0 = [] ∧ ∀ k, searchVisible fs' lm'.l1 k =
      searchVisible fs (lm.l0 ++ lm.l1) k) ↔ lm.OutputSafe io now fs := by
  have hempty : lm'.l0 = [] := by
    have := l0_compact S H io now fs lm
    rwa [h] at this
  rcases hl0 : lm.l0.head? with - | oldest
  · have hnil : lm.l0 = [] := List.head?_eq_none_iff.mp hl0
    rw [compact_nil hnil] at h
    obtain ⟨-, rfl, rfl⟩ : _ ∧ _ ∧ _ := by simpa only [Prod.mk.injEq] using h
    refine iff_of_true ⟨hempty, fun k => ?_⟩ ⟨by simp [hl0], by simp [hl0]⟩
    rw [hnil]
    rfl
  · have hc := hs.toUsable.compacted hio hl0 h
    have hl1 : ∀ k, searchVisible fs' lm'.l1 k = searchLevels fs' lm' k := by
      intro k
      rw [searchLevels, hc.readOrder_eq hs, hc.levels]
      rfl
    constructor
    · rintro ⟨-, heq⟩
      exact hc.outputSafe hs hl0 (fun k => ⟨_, hs.searchVisible_eq k⟩)
        (fun q hq k v hk => hs.searchVisible_of_untouched hq hk)
        fun k => (hl1 k).symm.trans (heq k)
    · intro hsafe
      exact ⟨hempty, fun k => (hl1 k).trans (hc.searchLevels_eq_searchVisible hs hl0 hsafe k)⟩

end Output

/-- A deletion flushed over a merged file. -/
def deletedKey : Fs := fun p =>
  if p = ⟨[], FileName.l0Name 2⟩ then sstableBytes .percent 1 [([1], tombstone)]
  else if p = ⟨[], FileName.l1Name 1⟩ then sstableBytes .percent 2 [([0], [7]), ([1], [8])]
  else none

theorem sound_deletedKey : LevelManager.Sound deletedKey
    ⟨[[⟨[], FileName.l0Name 2⟩], [⟨[], FileName.l1Name 1⟩]]⟩ := by
  have h0 : deletedKey.Stored ⟨[], FileName.l0Name 2⟩ [([1], tombstone)] :=
    Fs.stored_of_written (S := .percent) (n := 1) rfl (by decide) (by decide) (by decide)
  have h1 : deletedKey.Stored ⟨[], FileName.l1Name 1⟩ [([0], [7]), ([1], [8])] :=
    Fs.stored_of_written (S := .percent) (n := 2) rfl (by decide) (by decide) (by decide)
  exact ⟨.of_two rfl (FileName.suffix_l0Name 2) (FileName.suffix_l1Name 1) h0 h1,
    List.pairwise_singleton _ _, rfl⟩

theorem outputSafe_deletedKey : LevelManager.OutputSafe .whole 3 deletedKey
    ⟨[[⟨[], FileName.l0Name 2⟩], [⟨[], FileName.l1Name 1⟩]]⟩ := by
  constructor
  · rintro _ ⟨⟩ i hi
    exact absurd (LevelManager.mem_of_inputs (List.mem_of_getElem? hi)) (by decide)
  · rintro _ ⟨⟩ hu
    exact absurd (LevelManager.mem_of_untouched hu) (by decide)

/-- Its tombstone is dropped with the record it hides. -/
theorem searchVisible_compact_iff_deletedKey :
    let c := compact .percent (.argmin _) .whole 3 deletedKey
      ⟨[[⟨[], FileName.l0Name 2⟩], [⟨[], FileName.l1Name 1⟩]]⟩
    c.2.1.l0 = [] ∧ ∀ k, searchVisible c.2.2 c.2.1.l1 k =
      searchVisible deletedKey [⟨[], FileName.l0Name 2⟩, ⟨[], FileName.l1Name 1⟩] k :=
  (searchVisible_compact_iff sound_deletedKey CompactIo.readsComplete_whole
    (Prod.ext (by decide +kernel) rfl)).mpr outputSafe_deletedKey

/-- A merged file, and a flush of a key behind its range. -/
def takenName : Fs := fun p =>
  if p = ⟨[], FileName.l0Name 6⟩ then sstableBytes .percent 1 [([2], [9])]
  else if p = ⟨[], FileName.l1Name 5⟩ then sstableBytes .percent 1 [([1], [8])]
  else none

theorem sound_takenName : LevelManager.Sound takenName
    ⟨[[⟨[], FileName.l0Name 6⟩], [⟨[], FileName.l1Name 5⟩]]⟩ := by
  have h0 : takenName.Stored ⟨[], FileName.l0Name 6⟩ [([2], [9])] :=
    Fs.stored_of_written (S := .percent) (n := 1) rfl (by decide) (by decide) (by decide)
  have h1 : takenName.Stored ⟨[], FileName.l1Name 5⟩ [([1], [8])] :=
    Fs.stored_of_written (S := .percent) (n := 1) rfl (by decide) (by decide) (by decide)
  exact ⟨.of_two rfl (FileName.suffix_l0Name 6) (FileName.suffix_l1Name 5) h0 h1,
    List.pairwise_singleton _ _, rfl⟩

/-- **A compaction can lose a file it leaves out**: at the clock reading the file is named
after, the output replaces it. -/
theorem not_searchVisible_compact :
    ¬∀ (S : BloomSizing) (H : MergeHeap) (io : CompactIo) (now : ℕ) (fs fs' : Fs)
      (lm lm' : LevelManager), lm.Sound fs → lm.l0 ≠ [] → io.ReadsComplete →
      compact S H io now fs lm = (.ok (), lm', fs') →
      lm'.l0 = [] ∧
        ∀ k, searchVisible fs' lm'.l1 k = searchVisible fs (lm.l0 ++ lm.l1) k := by
  intro h
  obtain ⟨-, hread⟩ := h .percent (.argmin _) .whole 5 _ _ _ _ sound_takenName
    (List.cons_ne_nil _ _) CompactIo.readsComplete_whole (Prod.ext (by decide +kernel) rfl)
  exact absurd (hread [1]) (by decide +kernel)

end Tabula
