import Tabula.Levels.Compact
import Mathlib.Data.List.Pairwise

/-!
# What a successful compaction has done

`Tabula.LevelManager.compact_eq_ok` inverts `compact`: when it returns `Ok` and no
read was cut short, the output is the merge of all of L0 and of the L1 files that
meet its range, in that order, and the lists and the files are what
`Tabula.LevelManager.overlapping` and `Tabula.LevelManager.untouched` – read off
the state before – say. On sound levels the output is an SSTable, and
`Tabula.LevelManager.Compacted` says file by file what is on disk. Everything later
is proved from this and from the merge theorem, without looking into `compact`
again.

The range test is only used in one direction: a file it leaves out holds no key of
L0 (`Tabula.LevelManager.not_mem_l0_of_untouched`).
-/

namespace Tabula

open SortedTable

/-! ### Key ranges -/

theorem le_foldl_last {first : Key} {rest : List Record} (hlt : ∀ r ∈ rest, first < r.1)
    (hs : StrictSorted rest) :
    first ≤ rest.foldl (fun _ r => r.1) first ∧
      ∀ r ∈ rest, r.1 ≤ rest.foldl (fun _ r => r.1) first := by
  induction rest generalizing first with
  | nil => exact ⟨le_rfl, by simp⟩
  | cons r rest ih =>
    obtain ⟨hr, hrest⟩ := ih (fun s hm => hs.lt_of_mem_tail hm) hs.tail
    rw [List.foldl_cons]
    refine ⟨(hlt r List.mem_cons_self).le.trans hr, fun s hm => ?_⟩
    rcases List.mem_cons.mp hm with rfl | hm
    · exact hr
    · exact hrest s hm

/-- **The bounds of a sorted file bound its keys.** -/
theorem mem_keyBounds {rs : List Record} {range : KeyRange} (h : keyBounds rs = some range)
    (hs : StrictSorted rs) {r : Record} (hr : r ∈ rs) : range.1 ≤ r.1 ∧ r.1 ≤ range.2 := by
  cases rs with
  | nil => simp at hr
  | cons first rest =>
    obtain rfl := Option.some.inj h
    have hlt : ∀ s ∈ rest, first.1 < s.1 := fun s hm => hs.lt_of_mem_tail hm
    obtain ⟨hfirst, hrest⟩ := le_foldl_last hlt hs.tail
    rcases List.mem_cons.mp hr with rfl | hr
    · exact ⟨le_rfl, hfirst⟩
    · exact ⟨(hlt r hr).le, hrest r hr⟩

theorem exists_foldl_last (first : Record) (rest : List Record) :
    ∃ r ∈ first :: rest, r.1 = rest.foldl (fun _ r => r.1) first.1 := by
  induction rest generalizing first with
  | nil => exact ⟨first, List.mem_cons_self, rfl⟩
  | cons s rest ih =>
    obtain ⟨r, hr, hk⟩ := ih s
    exact ⟨r, List.mem_cons_of_mem _ hr, hk⟩

/-- The bounds are keys of the file. -/
theorem exists_of_keyBounds {rs : List Record} {range : KeyRange} (h : keyBounds rs = some range) :
    (∃ r ∈ rs, r.1 = range.1) ∧ ∃ r ∈ rs, r.1 = range.2 := by
  cases rs with
  | nil => simp [keyBounds] at h
  | cons first rest =>
    obtain rfl := Option.some.inj h
    exact ⟨⟨first, List.mem_cons_self, rfl⟩, exists_foldl_last first rest⟩

/-- A pass that is whole gives `key_range` the bounds of the file. -/
theorem keyRange_eq_ok {io : PassIo} (hio : io.cut = none) {reader : SsTableReader}
    {range : KeyRange} (h : keyRange io reader = .ok range) :
    keyBounds reader.iter = some range := by
  obtain ⟨records, hrec, h⟩ := bind_eq_ok.mp h
  rw [← iterPass_eq_ok hio (mapErr_eq_ok.mp hrec)]
  cases hb : keyBounds records with
  | none => simp [hb] at h
  | some range' => simpa [hb, pure, Except.pure] using h

/-- A key in the ranges of two files makes them overlap. -/
theorem rangesOverlap_of_mem {a b : KeyRange} {k : Key} (ha : a.1 ≤ k ∧ k ≤ a.2)
    (hb : b.1 ≤ k ∧ k ≤ b.2) : rangesOverlap a b = true := by
  rw [rangesOverlap, Bool.and_eq_true, decide_eq_true_iff, decide_eq_true_iff]
  exact ⟨ha.1.trans hb.2, hb.1.trans ha.2⟩

theorem widen_mono {range : Option KeyRange} {r : KeyRange} {k : Key}
    (h : (∃ a, range = some a ∧ a.1 ≤ k ∧ k ≤ a.2) ∨ (r.1 ≤ k ∧ k ≤ r.2)) :
    (widen range r).1 ≤ k ∧ k ≤ (widen range r).2 := by
  cases range with
  | none =>
    rcases h with ⟨a, ha, -⟩ | h
    · simp at ha
    · exact h
  | some current =>
    rcases h with ⟨a, ha, hlo, hhi⟩ | ⟨hlo, hhi⟩
    · obtain rfl := Option.some.inj ha
      exact ⟨(min_le_left _ _).trans hlo, hhi.trans (le_max_left _ _)⟩
    · exact ⟨(min_le_right _ _).trans hlo, hhi.trans (le_max_right _ _)⟩

/-! ### Opening the inputs -/

theorem openInput_eq_ok {ok : Bool} {fs : Fs} {p : Path} {reader : SsTableReader}
    (h : openInput ok fs p = .ok reader) : reader.iter = fs.records p := by
  rw [openInput] at h
  split at h
  · rw [Fs.records, mapErr_eq_ok.mp h]
  · simp at h

theorem openAll_eq_ok {ok : ℕ → Bool} {fs : Fs} {ps : List Path} {readers : List SsTableReader}
    (h : openAll ok fs ps = .ok readers) :
    readers.map SsTableReader.iter = ps.map fs.records := by
  induction ps generalizing ok readers with
  | nil =>
    obtain rfl : [] = readers := by simpa [openAll] using h
    rfl
  | cons p ps ih =>
    obtain ⟨reader, hr, h⟩ := bind_eq_ok.mp h
    obtain ⟨rest, hrest, h⟩ := bind_eq_ok.mp h
    obtain rfl : reader :: rest = readers := by simpa [pure, Except.pure] using h
    rw [List.map_cons, List.map_cons, openInput_eq_ok hr, ih hrest]

/-- The combined range of the files of a list, as far as they have one. -/
def combinedRange (range : Option KeyRange) (tables : List (List Record)) : Option KeyRange :=
  tables.foldl (fun acc t => (keyBounds t).elim acc fun r => some (widen acc r)) range

theorem combineRanges_eq_ok {io : ℕ → PassIo} (hio : ∀ i, (io i).cut = none)
    {range out : Option KeyRange} {readers : List SsTableReader}
    (h : combineRanges io range readers = .ok out) :
    combinedRange range (readers.map SsTableReader.iter) = out := by
  induction readers generalizing io range with
  | nil => simpa [combineRanges, combinedRange] using h
  | cons reader readers ih =>
    obtain ⟨r, hr, h⟩ := bind_eq_ok.mp h
    rw [← ih (fun i => hio (i + 1)) h, List.map_cons, combinedRange, List.foldl_cons,
      keyRange_eq_ok (hio 0) hr]
    rfl

/-- The combined range covers every key it was combined from. -/
theorem combinedRange_covers {range : Option KeyRange} {tables : List (List Record)} {k : Key}
    (hs : ∀ t ∈ tables, StrictSorted t)
    (h : (∃ a, range = some a ∧ a.1 ≤ k ∧ k ≤ a.2) ∨ ∃ t ∈ tables, ∃ v, (k, v) ∈ t) :
    ∃ a, combinedRange range tables = some a ∧ a.1 ≤ k ∧ k ≤ a.2 := by
  induction tables generalizing range with
  | nil =>
    rcases h with h | ⟨t, ht, -⟩
    · exact h
    · simp at ht
  | cons t tables ih =>
    rw [combinedRange, List.foldl_cons]
    refine ih (fun u hu => hs u (List.mem_cons_of_mem _ hu)) ?_
    cases hb : keyBounds t with
    | none =>
      -- an empty table holds no key
      rcases h with h | ⟨u, hu, v, hm⟩
      · exact Or.inl h
      · rcases List.mem_cons.mp hu with rfl | hu
        · cases u with
          | nil => simp at hm
          | cons r rest => simp [keyBounds] at hb
        · exact Or.inr ⟨u, hu, v, hm⟩
    | some r =>
      rcases h with h | ⟨u, hu, v, hm⟩
      · exact Or.inl ⟨_, rfl, widen_mono (Or.inl h)⟩
      · rcases List.mem_cons.mp hu with rfl | hu
        · have hbound := mem_keyBounds hb (hs u List.mem_cons_self) hm
          exact Or.inl ⟨_, rfl, widen_mono (Or.inr hbound)⟩
        · exact Or.inr ⟨u, hu, v, hm⟩

namespace LevelManager

/-! ### The split of L1 -/

/-- Whether the range of an L1 file meets that of L0. -/
def meetsL0 (fs : Fs) (lm : LevelManager) (p : Path) : Bool :=
  match combinedRange none (lm.l0.map fs.records), keyBounds (fs.records p) with
  | some a, some b => rangesOverlap a b
  | _, _ => false

/-- The L1 files a compaction merges. -/
def overlapping (fs : Fs) (lm : LevelManager) : List Path := lm.l1.filter (lm.meetsL0 fs)

/-- The L1 files a compaction leaves alone. -/
def untouched (fs : Fs) (lm : LevelManager) : List Path := lm.l1.filter fun p => !lm.meetsL0 fs p

/-- Everything a compaction merges, in the order of its sources. -/
def inputs (fs : Fs) (lm : LevelManager) : List Path := lm.l0 ++ lm.overlapping fs

/-- **The files a compaction can be run on**: those of L0 and L1 are SSTables,
complete, and not empty. -/
structure Usable (fs : Fs) (lm : LevelManager) : Prop where
  named : ∀ p ∈ lm.l0 ++ lm.l1, p.NamedSst
  complete : ∀ p ∈ lm.l0 ++ lm.l1, fs.Complete p
  nonempty : ∀ p ∈ lm.l0 ++ lm.l1, fs.records p ≠ []

theorem mem_of_l0 {lm : LevelManager} {p : Path} (h : p ∈ lm.l0) : p ∈ lm.l0 ++ lm.l1 :=
  List.mem_append_left _ h

theorem mem_of_l1 {lm : LevelManager} {p : Path} (h : p ∈ lm.l1) : p ∈ lm.l0 ++ lm.l1 :=
  List.mem_append_right _ h

theorem mem_of_untouched {fs : Fs} {lm : LevelManager} {p : Path} (h : p ∈ lm.untouched fs) :
    p ∈ lm.l1 := (List.mem_filter.mp h).1

theorem mem_of_overlapping {fs : Fs} {lm : LevelManager} {p : Path} (h : p ∈ lm.overlapping fs) :
    p ∈ lm.l1 := (List.mem_filter.mp h).1

theorem mem_of_inputs {fs : Fs} {lm : LevelManager} {p : Path} (h : p ∈ lm.inputs fs) :
    p ∈ lm.l0 ++ lm.l1 :=
  (List.mem_append.mp h).elim mem_of_l0 fun h => mem_of_l1 (mem_of_overlapping h)

/-- Two files that are usable. -/
theorem Usable.of_two {fs : Fs} {lm : LevelManager} {p q : Path} {r s : Record}
    {rs ss : List Record} (hfiles : lm.l0 ++ lm.l1 = [p, q]) (hp : p.NamedSst) (hq : q.NamedSst)
    (hrs : fs.Stored p (r :: rs)) (hss : fs.Stored q (s :: ss)) : lm.Usable fs := by
  refine ⟨fun x hx => ?_, fun x hx => ?_, fun x hx => ?_⟩ <;> rw [hfiles] at hx <;>
    rcases List.mem_pair.mp hx with rfl | rfl
  · exact hp
  · exact hq
  · exact hrs.complete
  · exact hss.complete
  · rw [hrs.records_eq]
    exact List.cons_ne_nil r rs
  · rw [hss.records_eq]
    exact List.cons_ne_nil s ss

theorem Usable.sorted {fs : Fs} {lm : LevelManager} (h : lm.Usable fs) {p : Path}
    (hp : p ∈ lm.l0 ++ lm.l1) : StrictSorted (fs.records p) := (h.complete p hp).sorted

theorem Usable.sorted_inputs {fs : Fs} {lm : LevelManager} (h : lm.Usable fs) :
    ∀ t ∈ (lm.inputs fs).map fs.records, StrictSorted t := by
  intro t ht
  obtain ⟨p, hp, rfl⟩ := List.mem_map.mp ht
  exact h.sorted (mem_of_inputs hp)

/-- The records of the output. -/
def merged (H : MergeHeap) (fs : Fs) (lm : LevelManager) : List Record :=
  merge H ((lm.inputs fs).map fs.records)

theorem splitL1_eq_ok {ok : ℕ → Bool} {io : ℕ → PassIo} (hio : ∀ i, (io i).cut = none) {fs : Fs}
    {lm : LevelManager} {l0Range : KeyRange}
    (hrange : combinedRange none (lm.l0.map fs.records) = some l0Range) {ps : List Path}
    {split : SplitL1} (h : splitL1 ok io fs l0Range ps = .ok split) :
    split.overlapping.map Prod.fst = ps.filter (lm.meetsL0 fs) ∧
      split.overlapping.map (fun pr => pr.2.iter) =
        (ps.filter (lm.meetsL0 fs)).map fs.records ∧
      split.untouched = ps.filter fun p => !lm.meetsL0 fs p := by
  induction ps generalizing ok io split with
  | nil =>
    obtain rfl : (⟨[], []⟩ : SplitL1) = split := by simpa [splitL1] using h
    exact ⟨rfl, rfl, rfl⟩
  | cons p ps ih =>
    obtain ⟨reader, hr, h⟩ := bind_eq_ok.mp h
    obtain ⟨l1Range, hl1, h⟩ := bind_eq_ok.mp h
    obtain ⟨rest, hrest, h⟩ := bind_eq_ok.mp h
    obtain ⟨hpaths, htables, hleft⟩ := ih (fun i => hio (i + 1)) hrest
    have hiter := openInput_eq_ok hr
    -- the comparison of the source is the predicate that the two lists are filtered by
    have hmeets : lm.meetsL0 fs p = rangesOverlap l0Range l1Range := by
      rw [meetsL0, hrange, ← hiter, keyRange_eq_ok (hio 0) hl1]
    split at h
    · rename_i hov
      obtain rfl := Except.ok.inj h
      rw [List.filter_cons_of_pos (by rw [hmeets, hov]),
        List.filter_cons_of_neg (by simp [hmeets, hov])]
      exact ⟨by rw [List.map_cons, hpaths], by rw [List.map_cons, List.map_cons, htables, hiter],
        hleft⟩
    · rename_i hov
      obtain rfl := Except.ok.inj h
      rw [List.filter_cons_of_neg (by simp [hmeets, hov]),
        List.filter_cons_of_pos (by simp [hmeets, hov])]
      exact ⟨hpaths, htables, by rw [hleft]⟩

/-- The readers that are merged were opened on files of L1. -/
theorem splitL1_readers {ok : ℕ → Bool} {io : ℕ → PassIo} {fs : Fs} {l0Range : KeyRange}
    {ps : List Path} {split : SplitL1} (h : splitL1 ok io fs l0Range ps = .ok split) :
    ∀ pr ∈ split.overlapping, pr.1 ∈ ps ∧ pr.2.iter = fs.records pr.1 := by
  induction ps generalizing ok io split with
  | nil =>
    obtain rfl := Except.ok.inj h
    simp
  | cons p ps ih =>
    obtain ⟨reader, hr, h⟩ := bind_eq_ok.mp h
    obtain ⟨range, -, h⟩ := bind_eq_ok.mp h
    obtain ⟨rest, hrest, h⟩ := bind_eq_ok.mp h
    have hrest : ∀ pr ∈ rest.overlapping, pr.1 ∈ p :: ps ∧ pr.2.iter = fs.records pr.1 :=
      fun pr hpr => ⟨List.mem_cons_of_mem _ (ih hrest pr hpr).1, (ih hrest pr hpr).2⟩
    split at h <;> obtain rfl := Except.ok.inj h
    · intro pr hpr
      rcases List.mem_cons.mp hpr with rfl | hpr
      · exact ⟨List.mem_cons_self, openInput_eq_ok hr⟩
      · exact hrest pr hpr
    · exact hrest

/-- **The merge of what was read of some files is an SSTable**, also when the reads were
cut short. -/
theorem stores_merge {S : BloomSizing} {H : MergeHeap} {fs : Fs} {ps : List Path} {n : ℕ}
    {iters : List (List Record)} {bytes : Bytes} (hs : ∀ p ∈ ps, StrictSorted (fs.records p))
    (hread : ∀ t ∈ iters, ∃ p ∈ ps, t <+: fs.records p)
    (hbytes : sstableBytes S n (merge H iters) = some bytes) (hlen : bytes.length < 2 ^ 63) :
    Stores bytes (merge H iters) ∧ ∀ r ∈ merge H iters, ∃ p ∈ ps, r ∈ fs.records p := by
  have hsorted : ∀ t ∈ iters, StrictSorted t := by
    intro t ht
    obtain ⟨p, hp, hprefix⟩ := hread t ht
    exact (hs p hp).sublist hprefix.sublist
  have hmem : ∀ r ∈ merge H iters, ∃ p ∈ ps, r ∈ fs.records p := by
    intro r hr
    obtain ⟨t, ht, hr⟩ := exists_of_mem_merge H hsorted hr
    obtain ⟨p, hp, hprefix⟩ := hread t ht
    exact ⟨p, hp, hprefix.subset hr⟩
  refine ⟨stores_sstableBytes hbytes (merge_sorted H hsorted) (fun r hr => ?_) hlen, hmem⟩
  obtain ⟨p, -, hr⟩ := hmem r hr
  exact Fs.short_of_mem_records hr

/-! ### The outcome -/

/-- What a compaction that returns `Ok` went through, whatever its reads made of the files. -/
theorem compact_eq_ok_split {S : BloomSizing} {H : MergeHeap} {io : CompactIo} {now : ℕ}
    {fs fs' : Fs} {lm lm' : LevelManager} {oldest : Path} (hl0 : lm.l0.head? = some oldest)
    (h : compact S H io now fs lm = (.ok (), lm', fs')) :
    ∃ l0Readers l0Range split n iters bytes, openAll io.openL0 fs lm.l0 = .ok l0Readers ∧
      combineRanges io.rangeL0 none l0Readers = .ok (some l0Range) ∧
      splitL1 io.openL1 io.rangeL1 fs l0Range lm.l1 = .ok split ∧
      passes io.merge.pass (l0Readers ++ split.overlapping.map Prod.snd) = .ok iters ∧
      sstableBytes S n (merge H iters) = some bytes ∧ bytes.length < 2 ^ 63 ∧
      lm' = ⟨[] :: (split.untouched ++ [outputPath now oldest]) :: lm.deeper⟩ ∧
      fs' = removeAll io.remove (lm.l0 ++ split.overlapping.map Prod.fst) (Fs.rename
        ((fs.write (outputPath now oldest).tmp []).write (outputPath now oldest).tmp bytes)
        (outputPath now oldest).tmp (outputPath now oldest)) := by
  have hout := outcome_compact S H io now fs lm
  rw [h] at hout
  cases hout with
  | idle hnil => simp [hnil] at hl0
  | merged hhead hopen hrange hsplit hmerge =>
    obtain rfl := Option.some.inj (hhead.symm.trans hl0)
    obtain ⟨n, iters, bytes, hpass, hbytes, hlen, rfl⟩ := mergeSstables_eq_ok hmerge
    exact ⟨_, _, _, n, iters, bytes, hopen, hrange, hsplit, hpass, hbytes, hlen, rfl, rfl⟩

/-- **A compaction that returns `Ok`** has written the merge of what it read of its inputs
beside the oldest L0 file, tracks it behind the untouched L1 files, and has deleted those
inputs it could. -/
theorem compact_eq_ok_passes {S : BloomSizing} {H : MergeHeap} {io : CompactIo} {now : ℕ}
    {fs fs' : Fs} {lm lm' : LevelManager} {oldest : Path}
    (hrangeL0 : ∀ i, (io.rangeL0 i).cut = none) (hrangeL1 : ∀ i, (io.rangeL1 i).cut = none)
    (hl0 : lm.l0.head? = some oldest) (h : compact S H io now fs lm = (.ok (), lm', fs')) :
    ∃ readers n iters bytes, readers.map SsTableReader.iter = (lm.inputs fs).map fs.records ∧
      passes io.merge.pass readers = .ok iters ∧ sstableBytes S n (merge H iters) = some bytes ∧
      bytes.length < 2 ^ 63 ∧
      lm' = ⟨[] :: (lm.untouched fs ++ [outputPath now oldest]) :: lm.deeper⟩ ∧
      fs' = removeAll io.remove (lm.inputs fs) (Fs.rename
        ((fs.write (outputPath now oldest).tmp []).write (outputPath now oldest).tmp bytes)
        (outputPath now oldest).tmp (outputPath now oldest)) := by
  obtain ⟨l0Readers, l0Range, split, n, iters, bytes, hopen, hcombine, hsplit, hpass, hbytes, hlen,
    hlm, hfs⟩ := compact_eq_ok_split hl0 h
  have htables := openAll_eq_ok hopen
  have hcombined := combineRanges_eq_ok hrangeL0 hcombine
  rw [htables] at hcombined
  obtain ⟨hpaths, hov, hleft⟩ := splitL1_eq_ok hrangeL1 hcombined hsplit
  refine ⟨_, n, iters, bytes, ?_, hpass, hbytes, hlen, ?_, ?_⟩
  · rw [List.map_append, htables, List.map_map, inputs, List.map_append]
    exact congrArg _ hov
  · rw [hlm, hleft]
    rfl
  · rw [hfs, hpaths]
    rfl

/-- The same when every read was complete. -/
theorem compact_eq_ok {S : BloomSizing} {H : MergeHeap} {io : CompactIo} {now : ℕ} {fs fs' : Fs}
    {lm lm' : LevelManager} {oldest : Path} (hio : io.ReadsComplete)
    (hl0 : lm.l0.head? = some oldest) (h : compact S H io now fs lm = (.ok (), lm', fs')) :
    ∃ n bytes, sstableBytes S n (lm.merged H fs) = some bytes ∧
      bytes.length < 2 ^ 63 ∧
      lm' = ⟨[] :: (lm.untouched fs ++ [outputPath now oldest]) :: lm.deeper⟩ ∧
      fs' = removeAll io.remove (lm.inputs fs) (Fs.rename
        ((fs.write (outputPath now oldest).tmp []).write (outputPath now oldest).tmp bytes)
        (outputPath now oldest).tmp (outputPath now oldest)) := by
  obtain ⟨readers, n, iters, bytes, hreaders, hpass, hbytes, hlen, hlm, hfs⟩ :=
    compact_eq_ok_passes hio.rangeL0 hio.rangeL1 hl0 h
  rw [passes_eq_ok hio.merge.pass hpass, hreaders] at hbytes
  exact ⟨n, bytes, hbytes, hlen, hlm, hfs⟩

theorem combineRanges_nonempty {io : ℕ → PassIo} (hio : ∀ i, (io i).cut = none)
    {range out : Option KeyRange} {readers : List SsTableReader}
    (h : combineRanges io range readers = .ok out) : ∀ reader ∈ readers, reader.iter ≠ [] := by
  induction readers generalizing io range with
  | nil => simp
  | cons reader readers ih =>
    obtain ⟨r, hr, h⟩ := bind_eq_ok.mp h
    refine List.forall_mem_cons.mpr ⟨fun hnil => ?_, ih (fun i => hio (i + 1)) h⟩
    have hbounds := keyRange_eq_ok (hio 0) hr
    rw [hnil] at hbounds
    simp [keyBounds] at hbounds

theorem splitL1_nonempty {ok : ℕ → Bool} {io : ℕ → PassIo} (hio : ∀ i, (io i).cut = none) {fs : Fs}
    {l0Range : KeyRange} {ps : List Path} {split : SplitL1}
    (h : splitL1 ok io fs l0Range ps = .ok split) : ∀ p ∈ ps, fs.records p ≠ [] := by
  induction ps generalizing ok io split with
  | nil => simp
  | cons p ps ih =>
    obtain ⟨reader, hr, h⟩ := bind_eq_ok.mp h
    obtain ⟨l1Range, hl1, h⟩ := bind_eq_ok.mp h
    obtain ⟨rest, hrest, -⟩ := bind_eq_ok.mp h
    refine List.forall_mem_cons.mpr ⟨fun hnil => ?_, ih (fun i => hio (i + 1)) hrest⟩
    have hbounds := keyRange_eq_ok (hio 0) hl1
    rw [openInput_eq_ok hr, hnil] at hbounds
    simp [keyBounds] at hbounds

/-- **A compaction that succeeds has seen no empty file**: the range of one is an error. -/
theorem nonempty_of_compact {S : BloomSizing} {H : MergeHeap} {io : CompactIo} {now : ℕ}
    {fs fs' : Fs} {lm lm' : LevelManager} {oldest : Path} (hio : io.ReadsComplete)
    (hl0 : lm.l0.head? = some oldest) (h : compact S H io now fs lm = (.ok (), lm', fs')) :
    ∀ p ∈ lm.l0 ++ lm.l1, fs.records p ≠ [] := by
  obtain ⟨l0Readers, l0Range, split, -, -, -, hopen, hcombine, hsplit, -⟩ :=
    compact_eq_ok_split hl0 h
  refine List.forall_mem_append.mpr ⟨fun p hp => ?_, splitL1_nonempty hio.rangeL1 hsplit⟩
  have hmem : fs.records p ∈ l0Readers.map SsTableReader.iter := by
    rw [openAll_eq_ok hopen]
    exact List.mem_map_of_mem hp
  obtain ⟨reader, hr, hiter⟩ := List.mem_map.mp hmem
  rw [← hiter]
  exact combineRanges_nonempty hio.rangeL0 hcombine reader hr

/-! ### When nothing fails -/

theorem exists_openAll {fs : Fs} {ps : List Path} (h : ∀ p ∈ ps, fs.records p ≠ []) :
    ∃ readers, openAll (fun _ => true) fs ps = .ok readers := by
  induction ps with
  | nil => exact ⟨[], rfl⟩
  | cons p ps ih =>
    obtain ⟨readers, hrest⟩ := ih fun q hq => h q (List.mem_cons_of_mem _ hq)
    obtain ⟨reader, hopen, -⟩ := Fs.exists_reader_of_records (h p List.mem_cons_self)
    refine ⟨reader :: readers, ?_⟩
    rw [openAll, openInput, if_pos rfl, hopen, mapErr_ok, ok_bind, hrest]
    rfl

theorem keyRange_whole {reader : SsTableReader} {range : KeyRange}
    (h : keyBounds reader.iter = some range) : keyRange .whole reader = .ok range := by
  have hpass : iterPass .whole reader = .ok reader.iter := rfl
  rw [keyRange, hpass, mapErr_ok, ok_bind, h]
  rfl

theorem exists_keyBounds {rs : List Record} (h : rs ≠ []) : ∃ range, keyBounds rs = some range := by
  cases rs with
  | nil => exact absurd rfl h
  | cons r rest => exact ⟨_, rfl⟩

theorem exists_combineRanges {readers : List SsTableReader} (h : ∀ r ∈ readers, r.iter ≠ [])
    (range : Option KeyRange) :
    ∃ out, combineRanges (fun _ => .whole) range readers = .ok out ∧
      (range.isSome ∨ readers ≠ [] → out.isSome) := by
  induction readers generalizing range with
  | nil => exact ⟨range, rfl, by simp⟩
  | cons reader readers ih =>
    obtain ⟨r, hr⟩ := exists_keyBounds (h reader List.mem_cons_self)
    obtain ⟨out, hout, hsome⟩ := ih (fun x hx => h x (List.mem_cons_of_mem _ hx))
      (some (widen range r))
    refine ⟨out, ?_, fun _ => hsome (Or.inl rfl)⟩
    rw [combineRanges, keyRange_whole hr, ok_bind]
    exact hout

theorem exists_splitL1 {fs : Fs} {ps : List Path} (l0Range : KeyRange)
    (h : ∀ p ∈ ps, fs.records p ≠ []) :
    ∃ split, splitL1 (fun _ => true) (fun _ => .whole) fs l0Range ps = .ok split := by
  induction ps with
  | nil => exact ⟨⟨[], []⟩, rfl⟩
  | cons p ps ih =>
    obtain ⟨split, hrest⟩ := ih fun q hq => h q (List.mem_cons_of_mem _ hq)
    obtain ⟨reader, hopen, hiter⟩ := Fs.exists_reader_of_records (h p List.mem_cons_self)
    obtain ⟨r, hr⟩ := exists_keyBounds (hiter ▸ h p List.mem_cons_self)
    rw [splitL1, openInput, if_pos rfl, hopen, mapErr_ok, ok_bind, keyRange_whole hr, ok_bind,
      hrest, ok_bind]
    split <;> exact ⟨_, rfl⟩

/-- The merged file is one a file system can hold, so that writing it can succeed. -/
def Fits (S : BloomSizing) (H : MergeHeap) (fs : Fs) (lm : LevelManager) : Prop :=
  ∀ bytes ∈ sstableBytes S (((lm.inputs fs).map fs.records).map List.length).sum
      (merge H ((lm.inputs fs).map fs.records)),
    bytes.length < 2 ^ 63

instance (S : BloomSizing) (H : MergeHeap) (fs : Fs) (lm : LevelManager) :
    Decidable (lm.Fits S H fs) :=
  inferInstanceAs (Decidable (∀ bytes ∈ sstableBytes S (((lm.inputs fs).map fs.records).map
    List.length).sum (lm.merged H fs), bytes.length < 2 ^ 63))

/-- **A compaction of files that have records returns `Ok`** when no file operation fails. -/
theorem compact_whole_ok {S : BloomSizing} {H : MergeHeap} {fs : Fs} {lm : LevelManager}
    (h : ∀ p ∈ lm.l0 ++ lm.l1, fs.records p ≠ []) (hfits : lm.Fits S H fs) (now : ℕ) :
    (compact S H .whole now fs lm).1 = .ok () := by
  obtain ⟨readers, hopen⟩ := exists_openAll fun p hp => h p (mem_of_l0 hp)
  have htables := openAll_eq_ok hopen
  have hne : ∀ r ∈ readers, r.iter ≠ [] := by
    intro r hr
    have hmem : r.iter ∈ lm.l0.map fs.records := htables ▸ List.mem_map_of_mem hr
    obtain ⟨p, hp, hiter⟩ := List.mem_map.mp hmem
    rw [← hiter]
    exact h p (mem_of_l0 hp)
  obtain ⟨out, hcombine, hsome⟩ := exists_combineRanges hne none
  unfold compact
  split
  · rfl
  · rename_i oldest newer hcons
    have hreaders : readers ≠ [] := by
      rintro rfl
      simp [hcons] at htables
    obtain ⟨l0Range, rfl⟩ := Option.isSome_iff_exists.mp (hsome (Or.inr hreaders))
    have hcombined := combineRanges_eq_ok (fun _ => rfl) hcombine
    rw [htables] at hcombined
    obtain ⟨split, hsplit⟩ := exists_splitL1 l0Range fun p (hp : p ∈ lm.l1) =>
      h p (mem_of_l1 hp)
    obtain ⟨-, hov, -⟩ := splitL1_eq_ok (fun _ => rfl) hcombined hsplit
    -- the readers are those of the inputs, in the order of the merge
    have hiters : (readers ++ split.overlapping.map Prod.snd).map SsTableReader.iter =
        (lm.inputs fs).map fs.records := by
      rw [List.map_append, htables, List.map_map, inputs, List.map_append]
      exact congrArg _ hov
    obtain ⟨bytes, hbytes⟩ := sstableBytes_isSome S
      (((lm.inputs fs).map fs.records).map List.length).sum
      (merge H ((lm.inputs fs).map fs.records))
    have hmerge := mergeSstables_whole fs (outputPath now oldest) (hiters ▸ hbytes)
      (hfits bytes hbytes)
    simp only [CompactIo.whole, ← hcons, hopen, hcombine, ok_bind, orPanic, hsplit]
    split
    · rename_i herr
      rw [herr] at hmerge
      simp at hmerge
    · rfl

theorem Usable.compact_ok {S : BloomSizing} {H : MergeHeap} {fs : Fs} {lm : LevelManager}
    (h : lm.Usable fs) (hfits : lm.Fits S H fs) (now : ℕ) :
    (compact S H .whole now fs lm).1 = .ok () := compact_whole_ok h.nonempty hfits now

/-! ### The files left behind -/

theorem removeAll_of_kept {ok : ℕ → Bool} {ps : List Path} {fs : Fs} {q : Path}
    (h : ∀ i, ps[i]? = some q → ok i = false) : removeAll ok ps fs q = fs q := by
  induction ps generalizing ok fs with
  | nil => rfl
  | cons p ps ih =>
    rw [removeAll, ih fun i hi => h (i + 1) (by simpa using hi)]
    split
    · rename_i hok
      refine Fs.remove_of_ne (fun hq => ?_) fs
      rw [h 0 (by simp [hq])] at hok
      exact absurd hok Bool.false_ne_true
    · rfl

theorem removeAll_of_notMem {ok : ℕ → Bool} {ps : List Path} {fs : Fs} {q : Path}
    (h : q ∉ ps) : removeAll ok ps fs q = fs q :=
  removeAll_of_kept fun _ hi => absurd (List.mem_of_getElem? hi) h

/-- Once removed, a file stays away. -/
theorem removeAll_eq_none {ok : ℕ → Bool} {ps : List Path} {fs : Fs} {q : Path} {i : ℕ}
    (hi : ps[i]? = some q) (hok : ok i = true) : removeAll ok ps fs q = none := by
  -- a file that is not there is not put there
  have hgone : ∀ {ok : ℕ → Bool} {ps : List Path} {fs : Fs}, fs q = none →
      removeAll ok ps fs q = none := by
    intro ok ps
    induction ps generalizing ok with
    | nil => exact id
    | cons p ps ih =>
      intro fs hq
      refine ih ?_
      split
      · by_cases hp : q = p
        · rw [hp, Fs.remove_self]
        · rw [Fs.remove_of_ne hp, hq]
      · exact hq
  induction ps generalizing ok fs i with
  | nil => simp at hi
  | cons p ps ih =>
    rw [removeAll]
    cases i with
    | zero =>
      obtain rfl : p = q := by simpa using hi
      rw [if_pos hok]
      exact hgone (Fs.remove_self fs p)
    | succ i => exact ih (by simpa using hi) hok

/-- What is left is as it was. -/
theorem removeAll_eq_or (ok : ℕ → Bool) (ps : List Path) (fs : Fs) (q : Path) :
    removeAll ok ps fs q = fs q ∨ removeAll ok ps fs q = none := by
  by_cases h : ∃ i, ps[i]? = some q ∧ ok i = true
  · obtain ⟨i, hi, hok⟩ := h
    exact Or.inr (removeAll_eq_none hi hok)
  · refine Or.inl (removeAll_of_kept fun i hi => ?_)
    by_contra hok
    exact h ⟨i, hi, Bool.eq_true_of_not_eq_false hok⟩

/-- The loop over L1 hands every file it is given to one of its two lists, and keeps the
order. -/
theorem splitL1_perm {ok : ℕ → Bool} {io : ℕ → PassIo} {fs : Fs} {l0Range : KeyRange}
    {ps : List Path} {split : SplitL1} (h : splitL1 ok io fs l0Range ps = .ok split) :
    (split.overlapping.map Prod.fst ++ split.untouched).Perm ps ∧
      split.untouched.Sublist ps := by
  induction ps generalizing ok io split with
  | nil =>
    obtain rfl := Except.ok.inj h
    exact ⟨.nil, .slnil⟩
  | cons p ps ih =>
    obtain ⟨reader, -, h⟩ := bind_eq_ok.mp h
    obtain ⟨range, -, h⟩ := bind_eq_ok.mp h
    obtain ⟨rest, hrest, h⟩ := bind_eq_ok.mp h
    obtain ⟨hperm, hsub⟩ := ih hrest
    split at h <;> obtain rfl := Except.ok.inj h
    · exact ⟨hperm.cons p, hsub.cons p⟩
    · exact ⟨List.perm_middle.trans (hperm.cons p), hsub.cons_cons p⟩

theorem splitL1_mem {ok : ℕ → Bool} {io : ℕ → PassIo} {fs : Fs} {l0Range : KeyRange}
    {ps : List Path} {split : SplitL1} (h : splitL1 ok io fs l0Range ps = .ok split) (q : Path) :
    q ∈ split.overlapping.map Prod.fst ∨ q ∈ split.untouched → q ∈ ps := fun hq =>
  (splitL1_perm h).1.mem_iff.mp (List.mem_append.mpr hq)

/-- The output is an SSTable. -/
theorem named_outputPath (now : ℕ) (oldest : Path) : (outputPath now oldest).NamedSst :=
  FileName.suffix_l1Name now

theorem meetsL0_of_mem {fs : Fs} {lm : LevelManager} {p q : Path} {k : Key} {v w : Value}
    (hs : ∀ p ∈ lm.l0, StrictSorted (fs.records p)) (hq : StrictSorted (fs.records q))
    (hp : p ∈ lm.l0) (hk : (k, v) ∈ fs.records p) (hkq : (k, w) ∈ fs.records q) :
    lm.meetsL0 fs q = true := by
  have hsorted : ∀ t ∈ lm.l0.map fs.records, StrictSorted t := by
    intro t ht
    obtain ⟨p', hp', rfl⟩ := List.mem_map.mp ht
    exact hs p' hp'
  obtain ⟨a, ha, hlo, hhi⟩ := combinedRange_covers hsorted
    (Or.inr ⟨fs.records p, List.mem_map_of_mem hp, v, hk⟩)
  cases hb : keyBounds (fs.records q) with
  | none =>
    cases hrec : fs.records q with
    | nil => simp [hrec] at hkq
    | cons r rest => simp [hrec, keyBounds] at hb
  | some b =>
    rw [meetsL0, ha, hb]
    exact rangesOverlap_of_mem ⟨hlo, hhi⟩ (mem_keyBounds hb hq hkq)

/-- **An L1 file that is left out holds no key of L0.** -/
theorem not_mem_l0_of_untouched {fs : Fs} {lm : LevelManager} {p q : Path} {k : Key} {v w : Value}
    (hs : ∀ p ∈ lm.l0, StrictSorted (fs.records p)) (hq : StrictSorted (fs.records q))
    (hu : q ∈ lm.untouched fs) (hkq : (k, w) ∈ fs.records q) (hp : p ∈ lm.l0) :
    (k, v) ∉ fs.records p := by
  intro hk
  have := meetsL0_of_mem hs hq hp hk hkq
  simp [untouched, this] at hu

/-- No input is left out, under whatever lists it is tracked. -/
theorem Usable.not_mem_inputs {fs : Fs} {lm : LevelManager} (h : lm.Usable fs) {q : Path}
    (hq : q ∈ lm.untouched fs) : q ∉ lm.inputs fs := by
  intro hin
  rcases List.mem_append.mp hin with hin | hin
  · obtain ⟨r, hr⟩ := List.exists_mem_of_ne_nil _ (h.nonempty q (mem_of_l0 hin))
    exact not_mem_l0_of_untouched (fun p hp => h.sorted (mem_of_l0 hp))
      (h.sorted (mem_of_l0 hin)) hq hr hin hr
  · have hmeets := (List.mem_filter.mp hin).2
    simp [untouched, hmeets] at hq

/-- **The output answers for L0 from its oldest file to its newest**, then for the
L1 files that were merged. -/
theorem Usable.lookup_merged {fs : Fs} {lm : LevelManager} (h : lm.Usable fs) (H : MergeHeap)
    (k : Key) :
    lookup k (lm.merged H fs) = visible ((firstHit (lm.l0.map fs.records) k).or
      (firstHit ((lm.overlapping fs).map fs.records) k)) := by
  rw [merged, lookup_merge H h.sorted_inputs, inputs, List.map_append, firstHit_append]

theorem Usable.short_merged {fs : Fs} {lm : LevelManager} (h : lm.Usable fs) (H : MergeHeap) :
    ∀ r ∈ lm.merged H fs, ShortRecord r := by
  intro r hr
  obtain ⟨t, ht, hr⟩ := exists_of_mem_merge H h.sorted_inputs hr
  obtain ⟨p, hp, rfl⟩ := List.mem_map.mp ht
  exact (h.complete p (mem_of_inputs hp)).short r hr

/-- What a successful compaction leaves: the lists, and the files that matter. -/
structure Compacted (H : MergeHeap) (io : CompactIo) (now : ℕ) (fs : Fs) (lm : LevelManager)
    (oldest : Path) (lm' : LevelManager) (fs' : Fs) : Prop where
  levels : lm' = ⟨[] :: (lm.untouched fs ++ [outputPath now oldest]) :: lm.deeper⟩
  output : (∀ i, (lm.inputs fs)[i]? = some (outputPath now oldest) → io.remove i = false) →
    fs'.Stored (outputPath now oldest) (lm.merged H fs)
  kept : ∀ q : Path, q.NamedSst → q ≠ outputPath now oldest →
    (∀ i, (lm.inputs fs)[i]? = some q → io.remove i = false) → fs' q = fs q
  gone : ∀ q i, (lm.inputs fs)[i]? = some q → io.remove i = true → fs' q = none
  old : ∀ q, q ≠ outputPath now oldest → fs' q ≠ none → fs q ≠ none

theorem Usable.compacted {S : BloomSizing} {H : MergeHeap} {io : CompactIo} {now : ℕ}
    {fs fs' : Fs} {lm lm' : LevelManager} {oldest : Path} (hs : lm.Usable fs)
    (hio : io.ReadsComplete) (hl0 : lm.l0.head? = some oldest)
    (h : compact S H io now fs lm = (.ok (), lm', fs')) :
    Compacted H io now fs lm oldest lm' fs' := by
  obtain ⟨n, bytes, hbytes, hlen, hlm, rfl⟩ := compact_eq_ok hio hl0 h
  have hne : (outputPath now oldest).tmp ≠ outputPath now oldest :=
    ((named_outputPath now oldest).ne_tmp _).symm
  refine ⟨hlm, fun hkept => ?_, fun q hq hout hkept => ?_, fun q i hi hok => ?_,
    fun q hout hq => ?_⟩
  · refine ⟨bytes, ?_, stores_sstableBytes hbytes (merge_sorted H hs.sorted_inputs)
      (hs.short_merged H) hlen⟩
    rw [removeAll_of_kept hkept, Fs.rename_new hne, Fs.write_self]
  · rw [removeAll_of_kept hkept, Fs.rename_of_ne (hq.ne_tmp _) hout,
      Fs.write_of_ne (hq.ne_tmp _), Fs.write_of_ne (hq.ne_tmp _)]
  · exact removeAll_eq_none hi hok
  · have hkept : ∀ i, (lm.inputs fs)[i]? = some q → io.remove i = false := fun i hi => by
      by_contra hok
      exact hq (removeAll_eq_none hi (Bool.eq_true_of_not_eq_false hok))
    rw [removeAll_of_kept hkept] at hq
    by_cases htmp : q = (outputPath now oldest).tmp
    · -- the temporary name is free after the rename
      rw [htmp, Fs.rename_old hne] at hq
      exact absurd rfl hq
    · rwa [Fs.rename_of_ne htmp hout, Fs.write_of_ne htmp, Fs.write_of_ne htmp] at hq

/-- A file that is left is as it was. -/
theorem Compacted.eq_of_present {H : MergeHeap} {io : CompactIo} {now : ℕ} {fs fs' : Fs}
    {lm lm' : LevelManager} {oldest : Path} (hc : Compacted H io now fs lm oldest lm' fs')
    {q : Path} (hq : q.NamedSst) (hne : q ≠ outputPath now oldest) (hpresent : fs' q ≠ none) :
    fs' q = fs q := by
  refine hc.kept q hq hne fun i hi => ?_
  by_contra hok
  exact hpresent (hc.gone q i hi (Bool.eq_true_of_not_eq_false hok))

/-- The untouched files are all there still, except one the output has replaced. -/
theorem Compacted.untouched_kept {H : MergeHeap} {io : CompactIo} {now : ℕ} {fs fs' : Fs}
    {lm lm' : LevelManager} {oldest : Path} (hc : Compacted H io now fs lm oldest lm' fs')
    (hs : lm.Usable fs) {q : Path} (hq : q ∈ lm.untouched fs) (hne : q ≠ outputPath now oldest) :
    fs' q = fs q :=
  hc.kept q (hs.named q (mem_of_l1 (mem_of_untouched hq))) hne fun _ hi =>
    absurd (List.mem_of_getElem? hi) (hs.not_mem_inputs hq)

/-! ### Sound levels -/

/-- The ranges of two files do not meet. -/
def Apart (fs : Fs) (p q : Path) : Prop :=
  ∀ a b, keyBounds (fs.records p) = some a → keyBounds (fs.records q) = some b →
    rangesOverlap a b = false

instance (fs : Fs) : Std.Symm (Apart fs) where
  symm p q h a b ha hb := by
    have := h b a hb ha
    rwa [rangesOverlap, Bool.and_comm] at this

/-- Files whose ranges do not meet have no key in common. -/
theorem Apart.notMem {fs : Fs} {p q : Path} (h : Apart fs p q) (hp : StrictSorted (fs.records p))
    (hq : StrictSorted (fs.records q)) {k : Key} {v w : Value} (hkp : (k, v) ∈ fs.records p) :
    (k, w) ∉ fs.records q := by
  intro hkq
  obtain ⟨a, ha⟩ := exists_keyBounds (List.ne_nil_of_mem hkp)
  obtain ⟨b, hb⟩ := exists_keyBounds (List.ne_nil_of_mem hkq)
  have hov := rangesOverlap_of_mem (k := k) (mem_keyBounds ha hp hkp) (mem_keyBounds hb hq hkq)
  rw [h a b ha hb] at hov
  exact Bool.false_ne_true hov

/-- No two files of the list have ranges that meet. -/
def RangesDisjoint (fs : Fs) (ps : List Path) : Prop := ps.Pairwise (Apart fs)

/-- **The levels as compactions keep them**: usable files, L1 files with disjoint
ranges, and nothing below L1. -/
structure Sound (fs : Fs) (lm : LevelManager) : Prop extends lm.Usable fs where
  disjoint : RangesDisjoint fs lm.l1
  bottom : lm.deeper.flatten = []

/-- Two L1 files with a key in common are one. -/
theorem Sound.eq_of_mem_l1 {fs : Fs} {lm : LevelManager} (h : lm.Sound fs) {p q : Path}
    (hp : p ∈ lm.l1) (hq : q ∈ lm.l1) {k : Key} {v w : Value} (hkp : (k, v) ∈ fs.records p)
    (hkq : (k, w) ∈ fs.records q) : p = q := by
  by_contra hne
  have hapart : Apart fs p q := List.Pairwise.forall h.disjoint hp hq hne
  exact hapart.notMem (h.sorted (mem_of_l1 hp)) (h.sorted (mem_of_l1 hq)) hkp hkq

end LevelManager

end Tabula
