import Tabula.Lib.Intervals
import Tabula.Levels.Runs

/-!
# L1 stays sorted into ranges

Any sequence of `add_l0_file` and `compact` calls, from any level manager whose L1 files
have disjoint ranges, with whatever fails in a compaction. A compaction that fails leaves
L1 as it was or empty. One that succeeds puts the merged file behind the files it has
left out, and the merged file reaches from the first to the last key of all its inputs,
which is further than the range the files were chosen by. It still misses every file that
was left out: such a file lies on one side of L0, and since it is apart from the L1 files
that were merged as well, it lies on the same side of them
(`Tabula.LevelManager.one_side`).

Two things can go wrong. The name of the output is taken from the clock, and can be that
of a file that was left out, which is then tracked twice. And a read that fails in the
middle of `key_range` makes a range come out too small, since the iterator just ends
there. The reads of the merge itself may be cut short: a merged file with fewer records
is still apart from the others.
-/

namespace Tabula

open SortedTable Intervals

theorem rangesOverlap_iff {a b : KeyRange} : rangesOverlap a b = true ↔ Meet a b := by
  rw [rangesOverlap, Bool.and_eq_true, decide_eq_true_iff, decide_eq_true_iff, Meet]

theorem rangesOverlap_eq_false_iff {a b : KeyRange} : rangesOverlap a b = false ↔ ¬Meet a b := by
  rw [← rangesOverlap_iff, Bool.not_eq_true]

/-- The range of a sorted file runs upwards. -/
theorem keyBounds_le {rs : List Record} {range : KeyRange} (h : keyBounds rs = some range)
    (hs : StrictSorted rs) : range.1 ≤ range.2 := by
  obtain ⟨⟨r, hr, hfirst⟩, -⟩ := exists_of_keyBounds h
  exact hfirst ▸ (mem_keyBounds h hs hr).2

namespace LevelManager

/-! ### Files that are left out -/

section Sides

variable {fs : Fs} {lm : LevelManager} (hs : ∀ p ∈ lm.l0 ++ lm.l1, StrictSorted (fs.records p))

include hs

/-- Every key of L0 is in the combined range. -/
theorem exists_combinedRange {p : Path} (hp : p ∈ lm.l0) {r : Record} (hr : r ∈ fs.records p) :
    ∃ a, combinedRange none (lm.l0.map fs.records) = some a ∧ a.1 ≤ r.1 ∧ r.1 ≤ a.2 := by
  refine combinedRange_covers (fun t ht => ?_) (Or.inr ⟨_, List.mem_map_of_mem hp, r.2, hr⟩)
  obtain ⟨p', hp', rfl⟩ := List.mem_map.mp ht
  exact hs p' (mem_of_l0 hp')

omit hs in
/-- The range of a merged L1 file meets that of L0, and not that of a file left out. -/
theorem exists_bounds_of_overlapping (hdisjoint : RangesDisjoint fs lm.l1) {q : Path}
    (hq : q ∈ lm.untouched fs) {a c : KeyRange} (hc : keyBounds (fs.records q) = some c)
    (ha : combinedRange none (lm.l0.map fs.records) = some a) {p : Path}
    (hp : p ∈ lm.overlapping fs) :
    ∃ b, keyBounds (fs.records p) = some b ∧ Meet a b ∧ ¬Meet b c := by
  obtain ⟨hql1, hqmeets⟩ := List.mem_filter.mp hq
  obtain ⟨hpl1, hpmeets⟩ := List.mem_filter.mp hp
  have hne : p ≠ q := by
    rintro rfl
    simp [hpmeets] at hqmeets
  rw [meetsL0, ha] at hpmeets
  cases hb : keyBounds (fs.records p) with
  | none => simp [hb] at hpmeets
  | some b =>
    rw [hb] at hpmeets
    have hapart : Apart fs p q := List.Pairwise.forall hdisjoint hpl1 hql1 hne
    exact ⟨b, rfl, rangesOverlap_iff.mp hpmeets, rangesOverlap_eq_false_iff.mp (hapart b c hb hc)⟩

/-- **A file a compaction leaves out lies on one side of everything it merges.** -/
theorem one_side (hdisjoint : RangesDisjoint fs lm.l1) {q : Path} (hq : q ∈ lm.untouched fs)
    {c : KeyRange} (hc : keyBounds (fs.records q) = some c) :
    (∀ p ∈ lm.inputs fs, ∀ r ∈ fs.records p, c.2 < r.1) ∨
      ∀ p ∈ lm.inputs fs, ∀ r ∈ fs.records p, r.1 < c.1 := by
  obtain ⟨hql1, hqmeets⟩ := List.mem_filter.mp hq
  have hqmeets : lm.meetsL0 fs q = false := by simpa using hqmeets
  have hle : c.1 ≤ c.2 := keyBounds_le hc (hs q (mem_of_l1 hql1))
  rcases ha : combinedRange none (lm.l0.map fs.records) with - | a
  · -- nothing in L0 has a key, and so there is nothing to meet
    refine Or.inl fun p hp r hr => ?_
    rcases List.mem_append.mp hp with hp | hp
    · obtain ⟨a, ha', -⟩ := exists_combinedRange hs hp hr
      simp [ha] at ha'
    · obtain ⟨-, hpmeets⟩ := List.mem_filter.mp hp
      simp [meetsL0, ha] at hpmeets
  · rw [meetsL0, ha, hc] at hqmeets
    -- an input is L0, or a file of L1 that reaches into the range of L0
    have hbound : ∀ p ∈ lm.inputs fs, ∀ r ∈ fs.records p, ∃ b : KeyRange,
        (b.1 ≤ r.1 ∧ r.1 ≤ b.2) ∧ (b = a ∨ Meet a b ∧ ¬Meet b c) := by
      intro p hp r hr
      rcases List.mem_append.mp hp with hp | hp
      · obtain ⟨a', ha', hr⟩ := exists_combinedRange hs hp hr
        obtain rfl : a = a' := Option.some.inj (ha.symm.trans ha')
        exact ⟨a, hr, Or.inl rfl⟩
      · obtain ⟨b, hb, hmeet⟩ := exists_bounds_of_overlapping hdisjoint hq hc ha hp
        exact ⟨b, mem_keyBounds hb (hs p (mem_of_l1 (mem_of_overlapping hp))) hr, Or.inr hmeet⟩
    rcases not_meet_iff.mp (rangesOverlap_eq_false_iff.mp hqmeets) with hbelow | habove
    · refine Or.inl fun p hp r hr => ?_
      obtain ⟨b, ⟨hlo, -⟩, rfl | ⟨hab, hbc⟩⟩ := hbound p hp r hr
      · exact lt_of_lt_of_le hbelow hlo
      · exact lt_of_lt_of_le (hbelow.of_meet hle hab hbc) hlo
    · refine Or.inr fun p hp r hr => ?_
      obtain ⟨b, ⟨-, hhi⟩, rfl | ⟨hab, hbc⟩⟩ := hbound p hp r hr
      · exact lt_of_le_of_lt hhi habove
      · exact lt_of_le_of_lt hhi (habove.of_meet_left hle hab hbc)

/-- Nor does its range meet that of a file with keys of the inputs only. -/
theorem not_overlap_of_untouched (hdisjoint : RangesDisjoint fs lm.l1) {q : Path}
    (hq : q ∈ lm.untouched fs) {c o : KeyRange} (hc : keyBounds (fs.records q) = some c)
    {rs : List Record} (ho : keyBounds rs = some o)
    (hrs : ∀ r ∈ rs, ∃ p ∈ lm.inputs fs, r ∈ fs.records p) : rangesOverlap c o = false := by
  obtain ⟨⟨first, hfirst, hlo⟩, last, hlast, hhi⟩ := exists_of_keyBounds ho
  obtain ⟨p, hp, hfirst⟩ := hrs first hfirst
  obtain ⟨p', hp', hlast⟩ := hrs last hlast
  rw [rangesOverlap_eq_false_iff, not_meet_iff]
  rcases one_side hs hdisjoint hq hc with hbelow | habove
  · refine Or.inr ?_
    rw [Below, ← hlo]
    exact hbelow p hp first hfirst
  · refine Or.inl ?_
    rw [Below, ← hhi]
    exact habove p' hp' last hlast

end Sides

/-! ### After a compaction -/

/-- **What a file holds after a compaction**: nothing, what it held before, or, in the
output, records of the inputs. -/
theorem records_compact {S : BloomSizing} {H : MergeHeap} {io : CompactIo} {now : ℕ} {fs fs' : Fs}
    {lm lm' : LevelManager} {oldest : Path} (hrangeL0 : ∀ i, (io.rangeL0 i).cut = none)
    (hrangeL1 : ∀ i, (io.rangeL1 i).cut = none)
    (hs : ∀ p ∈ lm.l0 ++ lm.l1, StrictSorted (fs.records p)) (hl0 : lm.l0.head? = some oldest)
    (h : compact S H io now fs lm = (.ok (), lm', fs')) {q : Path} (hq : q.NamedSst) :
    fs'.records q = [] ∨ (q ≠ outputPath now oldest ∧ fs'.records q = fs.records q) ∨
      (q = outputPath now oldest ∧ StrictSorted (fs'.records q) ∧
        ∀ r ∈ fs'.records q, ∃ p ∈ lm.inputs fs, r ∈ fs.records p) := by
  obtain ⟨readers, n, iters, bytes, hreaders, hpass, hbytes, hlen, -, hfs⟩ :=
    compact_eq_ok_passes hrangeL0 hrangeL1 hl0 h
  have hread : ∀ t ∈ iters, ∃ p ∈ lm.inputs fs, t <+: fs.records p := by
    intro t ht
    obtain ⟨reader, hr, hprefix⟩ := exists_of_mem_passes hpass ht
    have hmem : reader.iter ∈ (lm.inputs fs).map fs.records := hreaders ▸ List.mem_map_of_mem hr
    obtain ⟨p, hp, hiter⟩ := List.mem_map.mp hmem
    exact ⟨p, hp, hiter ▸ hprefix⟩
  obtain ⟨hstores, hmem⟩ := stores_merge (fun p hp => hs p (mem_of_inputs hp)) hread hbytes hlen
  -- the file has been deleted, it is the output, or nothing has happened to it
  rcases removeAll_eq_or io.remove (lm.inputs fs) (Fs.rename
    ((fs.write (outputPath now oldest).tmp []).write (outputPath now oldest).tmp bytes)
    (outputPath now oldest).tmp (outputPath now oldest)) q with hkept | hgone
  · right
    by_cases hout : q = outputPath now oldest
    · right
      have hstored : fs'.Stored q (merge H iters) :=
        ⟨bytes, by rw [hfs, hkept, hout, Fs.rename_written], hstores⟩
      rw [hstored.records_eq]
      exact ⟨hout, hstores.sorted, hmem⟩
    · left
      refine ⟨hout, Fs.records_congr ?_⟩
      rw [hfs, hkept, Fs.rename_of_ne (hq.ne_tmp _) hout, Fs.write_of_ne (hq.ne_tmp _),
        Fs.write_of_ne (hq.ne_tmp _)]
  · rw [← hfs] at hgone
    exact Or.inl (Fs.records_of_missing hgone)

/-- **The ranges of L1 stay disjoint** when the output takes no name of a file left out. -/
theorem rangesDisjoint_compact {S : BloomSizing} {H : MergeHeap} {io : CompactIo} {now : ℕ}
    {fs fs' : Fs} {lm lm' : LevelManager} {oldest : Path}
    (hrangeL0 : ∀ i, (io.rangeL0 i).cut = none) (hrangeL1 : ∀ i, (io.rangeL1 i).cut = none)
    (hs : ∀ p ∈ lm.l0 ++ lm.l1, StrictSorted (fs.records p)) (hl0 : lm.l0.head? = some oldest)
    (h : compact S H io now fs lm = (.ok (), lm', fs')) (hnamed : ∀ q ∈ lm.l1, q.NamedSst)
    (hdisjoint : RangesDisjoint fs lm.l1) (hout : outputPath now oldest ∉ lm.untouched fs) :
    RangesDisjoint fs' (lm.untouched fs ++ [outputPath now oldest]) := by
  -- a file left out keeps its range, or is empty
  have huntouched : ∀ q ∈ lm.untouched fs, ∀ c, keyBounds (fs'.records q) = some c →
      keyBounds (fs.records q) = some c := by
    intro q hq c hc
    rcases records_compact hrangeL0 hrangeL1 hs hl0 h (hnamed q (mem_of_untouched hq)) with
      hnil | ⟨-, hsame⟩ | ⟨rfl, -⟩
    · rw [hnil] at hc
      simp [keyBounds] at hc
    · rwa [hsame] at hc
    · exact absurd hq hout
  rw [RangesDisjoint, List.pairwise_append]
  refine ⟨?_, List.pairwise_singleton _ _, fun q hq o ho a b ha hb => ?_⟩
  · refine List.Pairwise.imp_of_mem (fun {p q} hp hq hapart a b ha hb => ?_)
      (hdisjoint.sublist List.filter_sublist)
    exact hapart a b (huntouched p hp a ha) (huntouched q hq b hb)
  · obtain rfl := List.mem_singleton.mp ho
    refine not_overlap_of_untouched hs hdisjoint hq (huntouched q hq a ha) hb ?_
    rcases records_compact hrangeL0 hrangeL1 hs hl0 h (named_outputPath now oldest) with
      hnil | ⟨hne, -⟩ | ⟨-, -, hinputs⟩
    · simp [hnil]
    · exact absurd rfl hne
    · exact hinputs

end LevelManager

namespace Disk

open LevelManager

/-! ### Runs -/

/-- A call of the level manager, with its circumstances. -/
inductive Call where
  /-- `add_l0_file` of a path, once the file is there. -/
  | add (p : Path) (bytes : Bytes) : Call
  /-- `compact`, whatever it returns. -/
  | compact (io : CompactIo) (now : ℕ) : Call

def call (S : BloomSizing) (H : MergeHeap) (d : Disk) : Call → Disk
  | .add p bytes => ⟨d.fs.write p bytes, d.lm.addL0File p⟩
  | .compact io now =>
      let (_, lm, fs) := d.lm.compact S H io now d.fs
      ⟨fs, lm⟩

/-- An added file is sorted, and is not put in the place of an L1 file. -/
def Admits (d : Disk) : Call → Prop
  | .add p bytes => p.NamedSst ∧ StrictSorted ((d.fs.write p bytes).records p) ∧
      (p ∈ d.lm.l1 → d.fs p = some bytes)
  | .compact _ _ => True

def Calls (S : BloomSizing) (H : MergeHeap) (d : Disk) (c : Call) (d' : Disk) : Prop :=
  d.Admits c ∧ d' = d.call S H c

/-- **Sorted files, and L1 files whose ranges are disjoint.** A file that is missing or
empty has an empty range. -/
structure Tidy (d : Disk) : Prop where
  named : ∀ p ∈ d.lm.l0 ++ d.lm.l1, p.NamedSst
  sorted : ∀ p ∈ d.lm.l0 ++ d.lm.l1, StrictSorted (d.fs.records p)
  disjoint : RangesDisjoint d.fs d.lm.l1

/-- **The compaction sees the whole ranges**, and its output takes no name of a file it
leaves out. -/
def Careful (d : Disk) : Call → Prop
  | .add _ _ => True
  | .compact io now => ∀ oldest ∈ d.lm.l0.head?, (∀ i, (io.rangeL0 i).cut = none) ∧
      (∀ i, (io.rangeL1 i).cut = none) ∧ outputPath now oldest ∉ d.lm.untouched d.fs

variable {S : BloomSizing} {H : MergeHeap} {d : Disk}

theorem Tidy.of_l1 (h : d.Tidy) {lm : LevelManager} {fs : Fs} (hl0 : lm.l0 = [])
    (hl1 : lm.l1 = d.lm.l1 ∨ lm.l1 = []) (hfs : ∀ p ∈ d.lm.l1, fs p = d.fs p) :
    Tidy ⟨fs, lm⟩ := by
  have hmem : ∀ p ∈ lm.l0 ++ lm.l1, p ∈ d.lm.l1 := by
    intro p hp
    rw [hl0, List.nil_append] at hp
    rcases hl1 with hl1 | hl1
    · rwa [hl1] at hp
    · simp [hl1] at hp
  refine ⟨fun p hp => h.named p (mem_of_l1 (hmem p hp)), fun p hp => ?_, ?_⟩
  · change StrictSorted (fs.records p)
    rw [Fs.records_congr (hfs p (hmem p hp))]
    exact h.sorted p (mem_of_l1 (hmem p hp))
  · change RangesDisjoint fs lm.l1
    rcases hl1 with hl1 | hl1
    · rw [hl1]
      refine List.Pairwise.imp_of_mem (fun {p q} hp hq hapart => ?_) h.disjoint
      rwa [Apart, Fs.records_congr (hfs p hp), Fs.records_congr (hfs q hq)]
    · rw [hl1]
      exact List.Pairwise.nil

theorem Tidy.add (h : d.Tidy) {p : Path} {bytes : Bytes} (hadmits : d.Admits (.add p bytes)) :
    (d.call S H (.add p bytes)).Tidy := by
  obtain ⟨hp, hsorted, hsame⟩ := hadmits
  have hl1 : ∀ q ∈ d.lm.l1, (d.fs.write p bytes) q = d.fs q := by
    intro q hq
    by_cases hqp : q = p
    · subst hqp
      rw [Fs.write_self, hsame hq]
    · exact Fs.write_of_ne hqp _ _
  have hold : ∀ q ∈ (d.lm.addL0File p).l0 ++ (d.lm.addL0File p).l1, q ≠ p →
      q ∈ d.lm.l0 ++ d.lm.l1 := by
    intro q hq hqp
    rw [l0_addL0File, l1_addL0File] at hq
    simpa [hqp] using hq
  refine ⟨fun q hq => ?_, fun q hq => ?_, ?_⟩
  · by_cases hqp : q = p
    · exact hqp ▸ hp
    · exact h.named q (hold q hq hqp)
  · by_cases hqp : q = p
    · rw [hqp]
      exact hsorted
    · change StrictSorted ((d.fs.write p bytes).records q)
      rw [Fs.records_congr (Fs.write_of_ne hqp _ _)]
      exact h.sorted q (hold q hq hqp)
  · change RangesDisjoint (d.fs.write p bytes) (d.lm.addL0File p).l1
    rw [l1_addL0File]
    refine List.Pairwise.imp_of_mem (fun {q q'} hq hq' hapart => ?_) h.disjoint
    rwa [Apart, Fs.records_congr (hl1 q hq), Fs.records_congr (hl1 q' hq')]

theorem Tidy.compact (h : d.Tidy) {io : CompactIo} {now : ℕ}
    (hcareful : d.Careful (.compact io now)) : (d.call S H (.compact io now)).Tidy := by
  by_cases hok : (d.lm.compact S H io now d.fs).1 = .ok ()
  · rcases hl0 : d.lm.l0.head? with - | oldest
    · have hnil : d.lm.l0 = [] := List.head?_eq_none_iff.mp hl0
      rw [call, compact_nil hnil]
      exact h.of_l1 rfl (Or.inl rfl) fun _ _ => rfl
    · obtain ⟨hrangeL0, hrangeL1, hout⟩ := hcareful oldest hl0
      have hcompact : d.lm.compact S H io now d.fs = (.ok (), _, _) := Prod.ext hok rfl
      obtain ⟨-, -, -, -, -, -, -, -, hlm, -⟩ :=
        compact_eq_ok_passes hrangeL0 hrangeL1 hl0 hcompact
      -- L1 is the files left out and the output, and L0 is empty
      have hmem : ∀ q, q ∈ (d.call S H (.compact io now)).lm.l0 ++
          (d.call S H (.compact io now)).lm.l1 ↔
          q ∈ d.lm.untouched d.fs ∨ q = outputPath now oldest := by
        intro q
        change q ∈ l0 (d.lm.compact S H io now d.fs).2.1 ++
          l1 (d.lm.compact S H io now d.fs).2.1 ↔ _
        rw [hlm]
        simp
      have hnamed : ∀ q, q ∈ d.lm.untouched d.fs ∨ q = outputPath now oldest → q.NamedSst := by
        rintro q (hq | rfl)
        · exact h.named q (mem_of_l1 (mem_of_untouched hq))
        · exact named_outputPath now oldest
      refine ⟨fun q hq => hnamed q ((hmem q).mp hq), fun q hq => ?_, ?_⟩
      · change StrictSorted (Fs.records (d.lm.compact S H io now d.fs).2.2 q)
        rcases records_compact hrangeL0 hrangeL1 h.sorted hl0 hcompact
          (hnamed q ((hmem q).mp hq)) with hnil | ⟨hne, hsame⟩ | ⟨-, hsorted, -⟩
        · rw [hnil]
          exact List.Pairwise.nil
        · rw [hsame]
          exact h.sorted q (mem_of_l1 (mem_of_untouched (((hmem q).mp hq).resolve_right hne)))
        · exact hsorted
      · change RangesDisjoint (d.lm.compact S H io now d.fs).2.2
          (d.lm.compact S H io now d.fs).2.1.l1
        rw [hlm, l1_mk]
        exact rangesDisjoint_compact hrangeL0 hrangeL1 h.sorted hl0 hcompact
          (fun q hq => h.named q (mem_of_l1 hq)) h.disjoint hout
  · exact h.of_l1 (l0_compact S H io now d.fs d.lm) (l1_compact_of_ne_ok hok) fun p hp =>
      compact_frame hok (h.named p (mem_of_l1 hp))

/-- One step. -/
theorem Tidy.call (h : d.Tidy) {c : Call} (hadmits : d.Admits c) (hcareful : d.Careful c) :
    (d.call S H c).Tidy := by
  cases c with
  | add p bytes => exact h.add hadmits
  | compact io now => exact h.compact hcareful

/-- **L1 stays disjoint** in every run whose compactions are careful: no two L1 files hold
the same key, and L1 answers alike in whatever order it is searched. -/
theorem l1_disjoint_of_run {d₀ : Disk} {calls : List Call} (h₀ : d₀.Tidy)
    (hrun : Runs.Run (Runs.Guarded (Calls S H) Careful) d₀ calls d) :
    RangesDisjoint d.fs d.lm.l1 ∧
      (d.lm.l1.Pairwise fun p q => ∀ k v w, (k, v) ∈ d.fs.records p → (k, w) ∉ d.fs.records q) ∧
      ∀ ps : List Path, ps.Perm d.lm.l1 → ∀ k,
        firstHit (ps.map d.fs.records) k = firstHit (d.lm.l1.map d.fs.records) k := by
  have h : d.Tidy := by
    refine hrun.invariant h₀ ?_
    rintro d c d' h ⟨⟨hadmits, rfl⟩, hcareful⟩
    exact h.call hadmits hcareful
  have hkeys : d.lm.l1.Pairwise fun p q =>
      ∀ k v w, (k, v) ∈ d.fs.records p → (k, w) ∉ d.fs.records q :=
    List.Pairwise.imp_of_mem (fun {p q} hp hq hapart k v w => hapart.notMem
      (h.sorted p (mem_of_l1 hp)) (h.sorted q (mem_of_l1 hq))) h.disjoint
  refine ⟨h.disjoint, hkeys, fun ps hperm k => firstHit_perm (hperm.map _) ?_⟩
  rw [List.pairwise_map]
  exact hkeys.imp fun hpq v w hv hw => absurd (mem_of_lookup hw) (hpq k v w (mem_of_lookup hv))

/-- A finished file is added. -/
theorem step_add (S : BloomSizing) (H : MergeHeap) (d : Disk) (now : ℕ) (rs : List Record)
    (hl1 : ⟨[], FileName.l0Name now⟩ ∉ d.lm.l1) (hs : StrictSorted rs)
    (hshort : ∀ r ∈ rs, ShortRecord r) (hlen : (finished rs).length < 2 ^ 63) :
    Runs.Guarded (Calls S H) Careful d (.add ⟨[], FileName.l0Name now⟩ (finished rs))
      (d.call S H (.add ⟨[], FileName.l0Name now⟩ (finished rs))) := by
  have hstored : (d.fs.write ⟨[], FileName.l0Name now⟩ (finished rs)).Stored
      ⟨[], FileName.l0Name now⟩ rs := ⟨_, Fs.write_self .., stores_finished hs hshort hlen⟩
  refine ⟨⟨⟨FileName.suffix_l0Name now, ?_, fun hm => absurd hm hl1⟩, rfl⟩, trivial⟩
  rw [hstored.records_eq]
  exact hs

theorem calls_compact (S : BloomSizing) (H : MergeHeap) (d : Disk) (io : CompactIo) (now : ℕ) :
    Calls S H d (.compact io now) (d.call S H (.compact io now)) := ⟨trivial, rfl⟩

theorem step_compact (S : BloomSizing) (H : MergeHeap) (d : Disk) (io : CompactIo) (now : ℕ)
    (hrangeL0 : ∀ i, (io.rangeL0 i).cut = none) (hrangeL1 : ∀ i, (io.rangeL1 i).cut = none)
    (hout : ∀ oldest ∈ d.lm.l0.head?, outputPath now oldest ∉ d.lm.untouched d.fs) :
    Runs.Guarded (Calls S H) Careful d (.compact io now) (d.call S H (.compact io now)) :=
  ⟨calls_compact S H d io now, fun oldest ho => ⟨hrangeL0, hrangeL1, hout oldest ho⟩⟩

theorem tidy_new : Disk.Tidy ⟨fun _ => none, .new⟩ :=
  ⟨by simp [LevelManager.new, l0, l1], by simp [LevelManager.new, l0, l1], List.Pairwise.nil⟩

/-- Two files behind each other, with a compaction in between that fails. -/
theorem l1_disjoint_of_run_failed :
    ∃ d : Disk, d.lm.l1.length = 2 ∧ RangesDisjoint d.fs d.lm.l1 := by
  have hrun := ((((((Runs.Run.nil (s := ⟨fun _ => none, .new⟩)).snoc
    (step_add .percent (.argmin _) _ 1 [([1], [8])] (by decide +kernel)
      (by decide) (by decide) (by decide +kernel))).snoc
    (step_compact .percent (.argmin _) _ .whole 2 (fun _ => rfl) (fun _ => rfl)
      (by decide +kernel))).snoc
    (step_add .percent (.argmin _) _ 3 [([2], [9])] (by decide +kernel)
      (by decide) (by decide) (by decide +kernel))).snoc
    (step_compact .percent (.argmin _) _ { CompactIo.whole with openL0 := fun _ => false } 4
      (fun _ => rfl) (fun _ => rfl) (by decide +kernel))).snoc
    (step_add .percent (.argmin _) _ 5 [([2], [7])] (by decide +kernel)
      (by decide) (by decide) (by decide +kernel))).snoc
    (step_compact .percent (.argmin _) _ .whole 6 (fun _ => rfl) (fun _ => rfl)
      (by decide +kernel))
  exact ⟨_, by decide +kernel, (l1_disjoint_of_run tidy_new hrun).1⟩

/-- **A compaction can track the same file twice**: its output has the name of a file that
was left out, at the clock reading the file is named after. -/
theorem not_l1_disjoint_of_run :
    ¬∀ (S : BloomSizing) (H : MergeHeap) (d₀ d : Disk) (calls : List Call), d₀.Tidy →
      Runs.Run (Calls S H) d₀ calls d → RangesDisjoint d.fs d.lm.l1 := by
  intro h
  have hrun := (((Runs.Run.nil (s := ⟨fun _ => none, .new⟩)).snoc
    (step_add .percent (.argmin _) _ 1 [([1], [8])] (by decide +kernel)
      (by decide) (by decide) (by decide +kernel)).1).snoc
    (step_compact .percent (.argmin _) _ .whole 5 (fun _ => rfl) (fun _ => rfl)
      (by decide +kernel)).1).snoc
    (step_add .percent (.argmin _) _ 3 [([2], [9])] (by decide +kernel)
      (by decide) (by decide) (by decide +kernel)).1
  obtain ⟨d, calls, hrun, hl1, hbounds⟩ : ∃ d calls,
      Runs.Run (Calls .percent (.argmin _)) ⟨fun _ => none, .new⟩ calls d ∧
      d.lm.l1 = [⟨[], FileName.l1Name 5⟩, ⟨[], FileName.l1Name 5⟩] ∧
      keyBounds (d.fs.records ⟨[], FileName.l1Name 5⟩) = some ([2], [2]) :=
    ⟨_, _, hrun.snoc (calls_compact .percent (.argmin _) _ .whole 5), by decide +kernel,
      by decide +kernel⟩
  have hdisjoint := h .percent (.argmin _) _ _ _ tidy_new hrun
  rw [hl1] at hdisjoint
  have hsame := List.rel_of_pairwise_cons hdisjoint (List.mem_singleton_self _)
  exact absurd (hsame _ _ hbounds hbounds) (by decide)

end Disk

end Tabula
