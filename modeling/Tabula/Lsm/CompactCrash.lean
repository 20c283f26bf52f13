import Tabula.Lsm.CompactReads
import Tabula.Lsm.Open

/-!
# A compaction cut off by a crash

A process that dies during `compact` leaves the files as they are at that moment,
which is how a run leaves them in which every later file operation fails. So the
crash points of a compaction are its scripts, and the question is what
`Lsm::open` makes of the files each of them leaves.

Up to the rename nothing has happened to any `.sst` file. From the rename on the
directory holds the merged file and whatever inputs have not been deleted, and
`discover_levels` tracks all of them again: the surviving L0 files in front, then
the surviving L1 files, then – its name is the latest – the merged one. A surviving
input answers before the merged file does. So the reads after the restart are those
before or those after the compaction as long as every copy a surviving file can
bring up is the newest or the oldest one of L0 (`Tabula.LevelManager.Settled`); any
other copy is one a crash can bring up.
-/

namespace Tabula

open SortedTable LevelManager

/-- **Every copy of an L0 key is the oldest or the newest one in L0.** -/
def LevelManager.Settled (fs : Fs) (lm : LevelManager) : Prop :=
  ∀ k, oldestL0 fs lm k ≠ none → ∀ p ∈ lm.l0 ++ lm.l1, ∀ v, lookup k (fs.records p) = some v →
    some v = oldestL0 fs lm k ∨ some v = newestL0 fs lm k

section Crash

variable {S : BloomSizing} {H : MergeHeap} {io : CompactIo} {now : ℕ} {fs fs' : Fs}
  {dir : List Char} {listing listing' : List Path} {oldest : Path} {lm' : LevelManager}
  (hl : fs.Lists dir listing) (hs : (discoverLevels listing).Sound fs)
  (hnew : ∀ p ∈ (discoverLevels listing).l1, p.name < FileName.l1Name now)

theorem mem_l0_iff (hl : fs.Lists dir listing) (p : Path) : p ∈ (discoverLevels listing).l0 ↔
    p.parent = dir ∧ fs p ≠ none ∧ FileName.levelOf p.name = some 0 := mem_level_iff hl 0 p

theorem mem_l1_iff (hl : fs.Lists dir listing) (p : Path) : p ∈ (discoverLevels listing).l1 ↔
    p.parent = dir ∧ fs p ≠ none ∧ FileName.levelOf p.name = some 1 := mem_level_iff hl 1 p

include hl hs in
/-- Nothing below L1 means that no name says so. -/
theorem level_lt_two {p : Path} (hp : p.parent = dir) (hfs : fs p ≠ none) {m : ℕ}
    (hm : FileName.levelOf p.name = some m) : m < 2 := by
  by_contra hge
  have hmem := (mem_level_iff hl m p).mpr ⟨hp, hfs, hm⟩
  have hflat : p ∈ (discoverLevels listing).deeper.flatten := mem_flatten_drop (not_lt.mp hge) hmem
  rw [hs.bottom] at hflat
  simp at hflat

include hl hs in
/-- **Before the rename** a restart finds what there was. -/
theorem searchLevels_restart_of_unchanged (hsame : ∀ q : Path, q.NamedSst → fs' q = fs q)
    (hl' : fs'.Lists dir listing') (k : Key) :
    searchLevels fs' (discoverLevels listing') k = searchLevels fs (discoverLevels listing) k := by
  have hiff : ∀ m p, p.parent = dir ∧ fs p ≠ none ∧ FileName.levelOf p.name = some m ↔
      p.parent = dir ∧ fs' p ≠ none ∧ FileName.levelOf p.name = some m := by
    intro m p
    refine and_congr_right fun _ => and_congr_left fun hm => ?_
    rw [hsame p (FileName.suffix_of_levelOf hm)]
  have hlevel : ∀ m, (discoverLevels listing').levels.getD m [] =
      (discoverLevels listing).levels.getD m [] := fun m =>
    level_eq hl' (nameSorted_level hl m) fun p => (mem_level_iff hl m p).trans (hiff m p)
  have hbottom : (discoverLevels listing').deeper.flatten = [] :=
    flatten_drop_discoverLevels hl' fun p hp hfs m hm => by
      obtain ⟨-, hfs, -⟩ := (hiff m p).mpr ⟨hp, hfs, hm⟩
      exact level_lt_two hl hs hp hfs hm
  have horder : (discoverLevels listing').readOrder = (discoverLevels listing).readOrder := by
    rw [readOrder_eq hbottom, readOrder_eq hs.bottom, l0, hlevel, l1, hlevel]
    rfl
  rw [searchLevels, searchLevels, horder, searchFiles_congr fun p hp => hsame p ?_]
  rw [readOrder_eq hs.bottom] at hp
  rcases List.mem_append.mp hp with hp | hp
  · exact hs.named p (mem_of_l0 (List.mem_reverse.mp hp))
  · exact hs.named p (mem_of_l1 hp)

/-! ### The output is a new file -/

include hl hnew in
theorem output_fresh (hold : oldest ∈ (discoverLevels listing).l0) :
    (outputPath now oldest).parent = dir ∧ fs (outputPath now oldest) = none ∧
      outputPath now oldest ∉ (discoverLevels listing).inputs fs := by
  have hdir : (outputPath now oldest).parent = dir := ((mem_l0_iff hl oldest).mp hold).1
  have hlevel : FileName.levelOf (outputPath now oldest).name = some 1 :=
    FileName.levelOf_l1Name now
  have hl1 : outputPath now oldest ∉ (discoverLevels listing).l1 := fun hm =>
    absurd (hnew _ hm) (lt_irrefl _)
  refine ⟨hdir, ?_, fun hin => ?_⟩
  · by_contra hfs
    exact hl1 ((mem_l1_iff hl _).mpr ⟨hdir, hfs, hlevel⟩)
  · rcases List.mem_append.mp hin with hin | hin
    · obtain ⟨-, -, h0⟩ := (mem_l0_iff hl _).mp hin
      rw [hlevel] at h0
      simp at h0
    · exact hl1 (mem_of_overlapping hin)

include hl hs hnew in
theorem ne_output (hold : oldest ∈ (discoverLevels listing).l0) {p : Path}
    (hp : p ∈ (discoverLevels listing).l0 ++ (discoverLevels listing).l1) :
    p ≠ outputPath now oldest := by
  rintro rfl
  exact (hs.complete _ hp).ne_none (output_fresh hl hnew hold).2.1

/-! ### After the rename -/

/-- A copy of a key in a surviving file is one of the copies there were. -/
theorem exists_of_survivor {fs fs' : Fs} {lm : LevelManager} {k : Key} {v : Value}
    (hv : firstHit ((lm.l0.filter fun p => (fs' p).isSome).reverse.map fs.records) k = some v ∨
      firstHit ((lm.l1.filter fun p => (fs' p).isSome).map fs.records) k = some v) :
    ∃ p ∈ lm.l0 ++ lm.l1, lookup k (fs.records p) = some v := by
  rcases hv with hv | hv
  · obtain ⟨t, ht, hk⟩ := exists_of_firstHit hv
    obtain ⟨p, hp, rfl⟩ := List.mem_map.mp ht
    exact ⟨p, List.mem_append_left _ (List.mem_filter.mp (List.mem_reverse.mp hp)).1, hk⟩
  · obtain ⟨t, ht, hk⟩ := exists_of_firstHit hv
    obtain ⟨p, hp, rfl⟩ := List.mem_map.mp ht
    exact ⟨p, List.mem_append_right _ (List.mem_filter.mp hp).1, hk⟩

section Renamed

variable (hc : Compacted H io now fs (discoverLevels listing) oldest lm' fs')
  (hold : oldest ∈ (discoverLevels listing).l0) (hl' : fs'.Lists dir listing')

include hl hs hnew hc hold hl'

omit hs hl' in
theorem stored_output : fs'.Stored (outputPath now oldest) ((discoverLevels listing).merged H fs) :=
  hc.output fun _ hi =>
    absurd (List.mem_of_getElem? hi) (output_fresh hl hnew hold).2.2

omit hs hnew hold in
/-- **L0 after the restart** is what is left of it. -/
theorem l0_restart : (discoverLevels listing').l0 =
    (discoverLevels listing).l0.filter fun p => (fs' p).isSome := by
  refine level_eq hl' ((nameSorted_level hl 0).filter _) fun p => ?_
  rw [List.mem_filter, mem_l0_iff hl, Option.isSome_iff_ne_none]
  constructor
  · rintro ⟨⟨hdir, -, hlevel⟩, hfs'⟩
    exact ⟨hdir, hfs', hlevel⟩
  · rintro ⟨hdir, hfs', hlevel⟩
    have hne : p ≠ outputPath now oldest := by
      rintro rfl
      rw [outputPath, Path.withFileName, FileName.levelOf_l1Name] at hlevel
      simp at hlevel
    exact ⟨⟨hdir, hc.old p hne hfs', hlevel⟩, hfs'⟩

omit hs in
/-- **L1 after the restart** is what is left of it, and the output behind it. -/
theorem l1_restart : (discoverLevels listing').l1 =
    ((discoverLevels listing).l1.filter fun p => (fs' p).isSome) ++ [outputPath now oldest] := by
  obtain ⟨hdir, -, -⟩ := output_fresh hl hnew hold
  obtain ⟨bytes, hbytes, -⟩ := stored_output hl hnew hc hold
  refine level_eq hl' (List.pairwise_append.mpr ⟨(nameSorted_level hl 1).filter _,
    List.pairwise_singleton _ _, fun p hp q hq => ?_⟩) fun p => ?_
  · rw [List.mem_singleton.mp hq]
    exact hnew p (List.mem_filter.mp hp).1
  · rw [List.mem_append, List.mem_filter, mem_l1_iff hl, Option.isSome_iff_ne_none,
      List.mem_singleton]
    constructor
    · rintro (⟨⟨hdir, -, hlevel⟩, hfs'⟩ | rfl)
      · exact ⟨hdir, hfs', hlevel⟩
      · exact ⟨hdir, by simp [hbytes], FileName.levelOf_l1Name now⟩
    · rintro ⟨hpdir, hfs', hlevel⟩
      by_cases hp : p = outputPath now oldest
      · exact Or.inr hp
      · exact Or.inl ⟨⟨hpdir, hc.old p hp hfs', hlevel⟩, hfs'⟩

/-- **What a read finds after the restart**: a surviving L0 file, then a surviving
L1 file, then the output. -/
theorem searchLevels_restart (k : Key) : searchLevels fs' (discoverLevels listing') k =
    .ok (visible ((firstHit (((discoverLevels listing).l0.filter fun p =>
          (fs' p).isSome).reverse.map fs.records) k).or
      ((firstHit (((discoverLevels listing).l1.filter fun p => (fs' p).isSome).map fs.records) k).or
        (lookup k ((discoverLevels listing).merged H fs))))) := by
  have hout := stored_output hl hnew hc hold
  have hstored : ∀ p ∈ (discoverLevels listing).l0 ++ (discoverLevels listing).l1, (fs' p).isSome →
      fs'.Stored p (fs.records p) := by
    intro p hp hsome
    exact Fs.Stored.congr (hs.complete p hp) (hc.eq_of_present (hs.named p hp)
      (ne_output hl hs hnew hold hp) (Option.isSome_iff_ne_none.mp hsome))
  have hbottom : (discoverLevels listing').deeper.flatten = [] := by
    refine flatten_drop_discoverLevels hl' fun p hp hfs' m hm => ?_
    by_cases hne : p = outputPath now oldest
    · subst hne
      rw [outputPath, Path.withFileName, FileName.levelOf_l1Name] at hm
      obtain rfl := Option.some.inj hm
      omega
    · exact level_lt_two hl hs hp (hc.old p hne hfs') hm
  have horder := readOrder_eq hbottom
  rw [l0_restart hl hc hl', l1_restart hl hnew hc hold hl'] at horder
  have hl0 : ∀ p ∈ ((discoverLevels listing).l0.filter fun p => (fs' p).isSome).reverse,
      fs'.Stored p (fs.records p) := fun p hp => by
    obtain ⟨hp, hsome⟩ := List.mem_filter.mp (List.mem_reverse.mp hp)
    exact hstored p (mem_of_l0 hp) hsome
  have hl1 : ∀ p ∈ (discoverLevels listing).l1.filter fun p => (fs' p).isSome,
      fs'.Stored p (fs.records p) := fun p hp => by
    obtain ⟨hp, hsome⟩ := List.mem_filter.mp hp
    exact hstored p (mem_of_l1 hp) hsome
  rw [Tabula.searchLevels_eq, horder, List.map_append, List.map_append, firstHit_append,
    firstHit_append, List.map_congr_left fun p hp => (hl0 p hp).records_eq,
    List.map_congr_left fun p hp => (hl1 p hp).records_eq, List.map_singleton, hout.records_eq]
  · rw [firstHit_cons, firstHit_nil, Option.or_none]
  · intro p hp
    rw [horder] at hp
    rcases List.mem_append.mp hp with hp | hp
    · exact (hl0 p hp).complete
    · rcases List.mem_append.mp hp with hp | hp
      · exact (hl1 p hp).complete
      · rw [List.mem_singleton.mp hp]
        exact hout.complete

/-- A key that is not in L0 is read from the one L1 file that has it, or from the output. -/
theorem searchLevels_restart_of_absent {k : Key}
    (hk : oldestL0 fs (discoverLevels listing) k = none) :
    searchLevels fs' (discoverLevels listing') k = searchLevels fs (discoverLevels listing) k ∨
      ((∀ q ∈ (discoverLevels listing).untouched fs, lookup k (fs.records q) = none) ∧
        searchLevels fs' (discoverLevels listing') k =
          .ok (visible ((oldestL0 fs (discoverLevels listing) k).or
            (firstHit (((discoverLevels listing).overlapping fs).map fs.records) k)))) := by
  rw [searchLevels_restart hl hs hnew hc hold hl', hs.toUsable.lookup_merged, ← oldestL0]
  set lm := discoverLevels listing with hlm
  have hanone : firstHit ((lm.l0.filter fun p => (fs' p).isSome).reverse.map fs.records) k =
      none := by
    rw [firstHit_eq_none_iff]
    intro t ht
    obtain ⟨p, hp, rfl⟩ := List.mem_map.mp ht
    exact firstHit_eq_none_iff.mp hk _
      (List.mem_map_of_mem (List.mem_filter.mp (List.mem_reverse.mp hp)).1)
  rcases hbv : firstHit ((lm.l1.filter fun p => (fs' p).isSome).map fs.records) k with - | v
  · -- the untouched files have all survived, so none of them holds the key
    refine Or.inr ⟨fun q hq => ?_, by
      rw [hanone, Option.none_or, Option.none_or, visible_visible]⟩
    have hmem := mem_of_l1 (mem_of_untouched hq)
    have hsurvives : (fs' q).isSome := by
      rw [hc.untouched_kept hs.toUsable hq (ne_output hl hs hnew hold hmem),
        Option.isSome_iff_ne_none]
      exact (hs.complete q hmem).ne_none
    exact firstHit_eq_none_iff.mp hbv _ (List.mem_map_of_mem
      (List.mem_filter.mpr ⟨mem_of_untouched hq, hsurvives⟩))
  · -- only one L1 file holds the key, and it has survived
    obtain ⟨t, ht, hv⟩ := exists_of_firstHit hbv
    obtain ⟨p, hp, rfl⟩ := List.mem_map.mp ht
    refine Or.inl ?_
    rw [hanone, hs.searchLevels_eq, newestL0_eq_none_iff.mpr hk, Option.none_or, Option.none_or,
      Option.some_or, hs.firstHit_l1 (List.mem_filter.mp hp).1 hv]

/-- A key of L0 is read from a surviving copy, which in a settled directory is the newest or
the oldest one of L0, or from the output, which has the oldest one. -/
theorem searchLevels_restart_of_present (hset : (discoverLevels listing).Settled fs) {k : Key}
    (hk : oldestL0 fs (discoverLevels listing) k ≠ none) :
    searchLevels fs' (discoverLevels listing') k = searchLevels fs (discoverLevels listing) k ∨
      searchLevels fs' (discoverLevels listing') k =
        .ok (visible ((oldestL0 fs (discoverLevels listing) k).or
          (firstHit (((discoverLevels listing).overlapping fs).map fs.records) k))) := by
  rw [searchLevels_restart hl hs hnew hc hold hl', hs.toUsable.lookup_merged, ← oldestL0]
  set lm := discoverLevels listing with hlm
  set a := firstHit ((lm.l0.filter fun p => (fs' p).isSome).reverse.map fs.records) k
  set b := firstHit ((lm.l1.filter fun p => (fs' p).isSome).map fs.records) k
  have hfound : ∀ v, (a = some v ∨ b = some v) →
      searchLevels fs lm k = .ok (visible (some v)) ∨ oldestL0 fs lm k = some v := by
    intro v hv
    obtain ⟨p, hp, hkv⟩ := exists_of_survivor hv
    rcases hset k hk p hp v hkv with hv | hv
    · exact Or.inr hv.symm
    · rw [hs.searchLevels_eq, ← hv]
      exact Or.inl rfl
  -- L0 is read first, then L1, and the output last
  rcases hav : a with - | v
  · rcases hbv : b with - | v
    · exact Or.inr (by rw [Option.none_or, Option.none_or, visible_visible])
    · rw [Option.none_or, Option.some_or]
      rcases hfound v (Or.inr hbv) with h | h
      · exact Or.inl h.symm
      · exact Or.inr (by rw [h, Option.some_or])
  · rw [Option.some_or]
    rcases hfound v (Or.inl hav) with h | h
    · exact Or.inl h.symm
    · exact Or.inr (by rw [h, Option.some_or])

/-- **When a single input has survived**, its copies are read. -/
theorem searchLevels_restart_of_survivor {k : Key} {p : Path} {v : Value}
    (hp : p ∈ (discoverLevels listing).l0 ++ (discoverLevels listing).l1)
    (hv : lookup k (fs.records p) = some v) (hpresent : (fs' p).isSome)
    (honly : ∀ q ∈ (discoverLevels listing).inputs fs, (fs' q).isSome → q = p)
    (hno : ∀ q ∈ (discoverLevels listing).untouched fs, lookup k (fs.records q) = none) :
    searchLevels fs' (discoverLevels listing') k = .ok (visible (some v)) := by
  rw [searchLevels_restart hl hs hnew hc hold hl']
  set lm := discoverLevels listing with hlm
  refine congrArg (fun raw => Except.ok (visible raw)) ?_
  by_cases hp0 : p ∈ lm.l0
  · rw [firstHit_eq_of_forall (x := some v), Option.some_or]
    · intro t ht
      obtain ⟨q, hq, rfl⟩ := List.mem_map.mp ht
      obtain ⟨hq, hsome⟩ := List.mem_filter.mp (List.mem_reverse.mp hq)
      rw [honly q (List.mem_append_left _ hq) hsome]
      exact Or.inr hv
    · exact ⟨_, List.mem_map_of_mem
        (List.mem_reverse.mpr (List.mem_filter.mpr ⟨hp0, hpresent⟩)), hv⟩
  · -- nothing of L0 has survived, and no other file of L1 has the key
    have hp1 : p ∈ lm.l1 := (List.mem_append.mp hp).resolve_left hp0
    have hnone : lm.l0.filter (fun q => (fs' q).isSome) = [] := by
      refine List.filter_eq_nil_iff.mpr fun q hq hsome => hp0 ?_
      rw [← honly q (List.mem_append_left _ hq) hsome]
      exact hq
    rw [hnone, List.reverse_nil, List.map_nil, firstHit_nil, Option.none_or,
      firstHit_eq_of_forall (x := some v), Option.some_or]
    · intro t ht
      obtain ⟨q, hq, rfl⟩ := List.mem_map.mp ht
      obtain ⟨hq, hsome⟩ := List.mem_filter.mp hq
      by_cases hmeets : lm.meetsL0 fs q = true
      · rw [honly q (List.mem_append_right _ (List.mem_filter.mpr ⟨hq, hmeets⟩)) hsome]
        exact Or.inr hv
      · exact Or.inl (hno q (List.mem_filter.mpr ⟨hq, by simpa using hmeets⟩))
    · exact ⟨_, List.mem_map_of_mem (List.mem_filter.mpr ⟨hp1, hpresent⟩), hv⟩

end Renamed

/-! ### The condition -/

theorem searchLevels_of_l0 {fs : Fs} {lm : LevelManager} (hs : lm.Sound fs) {k : Key}
    (hk : oldestL0 fs lm k ≠ none) :
    searchLevels fs lm k = .ok (visible (newestL0 fs lm k)) ∧
      ∀ q ∈ lm.untouched fs, lookup k (fs.records q) = none := by
  obtain ⟨v, hv⟩ := Option.ne_none_iff_exists'.mp (newestL0_eq_none_iff.not.mpr hk)
  refine ⟨by rw [hs.searchLevels_eq, hv, Option.some_or], fun q hq => ?_⟩
  by_contra hsome
  obtain ⟨w, hw⟩ := Option.ne_none_iff_exists'.mp hsome
  exact hk (hs.of_untouched hq hw).1

include hl in
/-- A directory that was listed can still be listed. -/
theorem exists_lists (hc : Compacted H io now fs (discoverLevels listing) oldest lm' fs')
    (hdir : (outputPath now oldest).parent = dir) (hfree : fs (outputPath now oldest) = none) :
    ∃ listing', fs'.Lists dir listing' := by
  have hnot : outputPath now oldest ∉ listing := fun hm => ((hl.mem_iff _).mp hm).2 hfree
  refine ⟨(listing ++ [outputPath now oldest]).filter fun p => (fs' p).isSome, ?_, fun p => ?_⟩
  · refine List.Nodup.filter _ (List.nodup_append.mpr
      ⟨hl.nodup, List.nodup_singleton _, fun a ha b hb hab => ?_⟩)
    rw [List.mem_singleton.mp hb] at hab
    exact hnot (hab ▸ ha)
  · rw [List.mem_filter, List.mem_append, List.mem_singleton, hl.mem_iff, Option.isSome_iff_ne_none]
    constructor
    · rintro ⟨⟨hp, -⟩ | rfl, hfs'⟩
      · exact ⟨hp, hfs'⟩
      · exact ⟨hdir, hfs'⟩
    · rintro ⟨hp, hfs'⟩
      by_cases hne : p = outputPath now oldest
      · exact ⟨Or.inr hne, hfs'⟩
      · exact ⟨Or.inl ⟨hp, hc.old p hne hfs'⟩, hfs'⟩

include hl hs hnew in
/-- **Any input can be the one that survives**, and its copies are read then. -/
theorem exists_restart_reading {io : CompactIo} (hio : io.ReadsComplete)
    (hdone : (compact S H io now fs (discoverLevels listing)).1 = .ok ()) {k : Key}
    (hk : oldestL0 fs (discoverLevels listing) k ≠ none) {p : Path}
    (hp : p ∈ (discoverLevels listing).l0 ++ (discoverLevels listing).l1) {v : Value}
    (hv : lookup k (fs.records p) = some v) :
    ∃ io' : CompactIo, io'.ReadsComplete ∧ ∃ listing',
      (compact S H io' now fs (discoverLevels listing)).2.2.Lists dir listing' ∧
      searchLevels (compact S H io' now fs (discoverLevels listing)).2.2
        (discoverLevels listing') k = .ok (visible (some v)) := by
  obtain ⟨-, hno⟩ := searchLevels_of_l0 hs hk
  set lm := discoverLevels listing with hlm
  let io' : CompactIo := { io with remove := fun i => decide ((lm.inputs fs)[i]? ≠ some p) }
  have hio' : io'.ReadsComplete := ⟨hio.rangeL0, hio.rangeL1, hio.merge⟩
  have hok : compact S H io' now fs lm = (.ok (), (compact S H io' now fs lm).2) :=
    Prod.ext ((compact_remove S H io now fs lm _).1.trans hdone) rfl
  obtain ⟨oldest, hhead⟩ := exists_head_of_oldestL0 hk
  have hold : oldest ∈ lm.l0 := List.mem_of_mem_head? hhead
  have hc := hs.toUsable.compacted hio' hhead hok
  obtain ⟨hdir, hfree, hnotin⟩ := output_fresh hl hnew hold
  obtain ⟨listing', hl'⟩ := exists_lists hl hc hdir hfree
  refine ⟨io', hio', listing', hl', ?_⟩
  -- the file is an input, since what is left out has no key of L0
  have hpin : p ∈ lm.inputs fs := by
    rcases List.mem_append.mp hp with hp | hp
    · exact List.mem_append_left _ hp
    · refine List.mem_append_right _ (List.mem_filter.mpr ⟨hp, ?_⟩)
      by_contra hmeets
      have hu : p ∈ lm.untouched fs := List.mem_filter.mpr ⟨hp, by simpa using hmeets⟩
      rw [hno p hu] at hv
      exact absurd hv.symm (Option.some_ne_none v)
  have hpresent : ((compact S H io' now fs lm).2.2 p).isSome := by
    obtain ⟨bytes, hbytes, -⟩ := hs.complete p (mem_of_inputs hpin)
    rw [hc.kept p (hs.named p (mem_of_inputs hpin)) (fun he => hnotin (he ▸ hpin))
      fun i hi => by simp [io', hi], hbytes]
    rfl
  have honly : ∀ q ∈ lm.inputs fs, ((compact S H io' now fs lm).2.2 q).isSome → q = p := by
    intro q hq hsome
    by_contra hne
    obtain ⟨i, hi⟩ := List.mem_iff_getElem?.mp hq
    rw [hc.gone q i hi (by simp [io', hi, hne])] at hsome
    exact absurd hsome (by simp)
  exact searchLevels_restart_of_survivor hl hs hnew hc hold hl' hp hv hpresent honly hno

include hl hs hnew in
/-- **When the compaction is through**, a key that no untouched file has is read from its
output. -/
theorem searchLevels_done {lmDone : LevelManager} {fsDone : Fs}
    (hdone : compact S H .whole now fs (discoverLevels listing) = (.ok (), lmDone, fsDone))
    (hhead : (discoverLevels listing).l0.head? = some oldest) {k : Key}
    (hno : ∀ q ∈ (discoverLevels listing).untouched fs, lookup k (fs.records q) = none) :
    searchLevels fsDone lmDone k = .ok (visible ((oldestL0 fs (discoverLevels listing) k).or
      (firstHit (((discoverLevels listing).overlapping fs).map fs.records) k))) := by
  have hc := hs.toUsable.compacted CompactIo.readsComplete_whole hhead hdone
  obtain ⟨-, -, hnotin⟩ := output_fresh hl hnew (List.mem_of_mem_head? hhead)
  exact hc.searchLevels_of_merged hs
    (fun i hi => absurd (List.mem_of_getElem? hi) hnotin) fun q hq _ => hno q hq

include hl hs hnew in
/-- **Exactly when every crash point of a compaction is harmless.** -/
theorem compact_crash_iff {lmDone : LevelManager} {fsDone : Fs}
    (hdone : compact S H .whole now fs (discoverLevels listing) = (.ok (), lmDone, fsDone)) :
    (∀ io : CompactIo, io.ReadsComplete → ∀ listing',
      (compact S H io now fs (discoverLevels listing)).2.2.Lists dir listing' → ∀ k,
      getAfterRestart (some []) (compact S H io now fs (discoverLevels listing)).2.2 listing' k =
          searchLevels fs (discoverLevels listing) k ∨
        getAfterRestart (some []) (compact S H io now fs (discoverLevels listing)).2.2 listing' k =
          searchLevels fsDone lmDone k) ↔
      (discoverLevels listing).Settled fs := by
  constructor
  · -- a crash can leave the one input that has this copy, and a restart then reads it
    intro hcrash k hk p hp v hv
    obtain ⟨hbefore, hno⟩ := searchLevels_of_l0 hs hk
    obtain ⟨io', hio', listing', hl', hread⟩ := exists_restart_reading hl hs hnew
      CompactIo.readsComplete_whole (congrArg Prod.fst hdone) hk hp hv
    obtain ⟨a, ha⟩ := Option.ne_none_iff_exists'.mp hk
    obtain ⟨b, hb⟩ := Option.ne_none_iff_exists'.mp (newestL0_eq_none_iff.not.mpr hk)
    obtain ⟨oldest, hhead⟩ := exists_head_of_oldestL0 hk
    have h := hcrash io' hio' listing' hl' k
    rw [getAfterRestart_nil, hread, hbefore, searchLevels_done hl hs hnew hdone hhead hno, ha, hb,
      Option.some_or] at h
    rw [ha, hb]
    rcases h with h | h
    · exact Or.inr (congrArg some (visible_some_inj.mp (Except.ok.inj h)))
    · exact Or.inl (congrArg some (visible_some_inj.mp (Except.ok.inj h)))
  · intro hset io hio listing' hl' k
    rw [getAfterRestart_nil]
    by_cases hres : (compact S H io now fs (discoverLevels listing)).1 = .ok ()
    · rcases hhead : (discoverLevels listing).l0.head? with - | oldest
      · refine Or.inl (searchLevels_restart_of_unchanged hl hs (fun q _ => ?_) hl' k)
        rw [compact_nil (List.head?_eq_none_iff.mp hhead)]
      · have hc := hs.toUsable.compacted hio hhead (Prod.ext hres rfl)
        have hold := List.mem_of_mem_head? hhead
        by_cases hk : oldestL0 fs (discoverLevels listing) k = none
        · rcases searchLevels_restart_of_absent hl hs hnew hc hold hl' hk with h | ⟨hno, h⟩
          · exact Or.inl h
          · exact Or.inr (h.trans (searchLevels_done hl hs hnew hdone hhead hno).symm)
        · have hno := (searchLevels_of_l0 hs hk).2
          exact (searchLevels_restart_of_present hl hs hnew hc hold hl' hset hk).imp_right
            fun h => h.trans (searchLevels_done hl hs hnew hdone hhead hno).symm
    · -- without an `Ok` nothing has been renamed
      exact Or.inl
        (searchLevels_restart_of_unchanged hl hs (fun q hq => compact_frame hres hq) hl' k)

end Crash

/-- Two flushes of one key and no L1: whatever a crash leaves, one of the two values
is read. -/
theorem compact_crash_iff_overwrittenKey :
    let lm := discoverLevels [⟨[], FileName.l0Name 1⟩, ⟨[], FileName.l0Name 2⟩]
    let done := compact .percent (.argmin _) .whole 3 overwrittenKey lm
    lm.Settled overwrittenKey ∧ ∀ io : CompactIo, io.ReadsComplete → ∀ listing',
      let crash := compact .percent (.argmin _) io 3 overwrittenKey lm
      crash.2.2.Lists [] listing' → ∀ k,
      getAfterRestart (some []) crash.2.2 listing' k = searchLevels overwrittenKey lm k ∨
        getAfterRestart (some []) crash.2.2 listing' k = searchLevels done.2.2 done.2.1 k := by
  intro lm done
  have hlm : discoverLevels [⟨[], FileName.l0Name 1⟩, ⟨[], FileName.l0Name 2⟩] =
      ⟨[[⟨[], FileName.l0Name 1⟩, ⟨[], FileName.l0Name 2⟩], []]⟩ :=
    discoverLevels_of_sorted (by decide +kernel) (by decide +kernel)
  have hl : overwrittenKey.Lists [] [⟨[], FileName.l0Name 1⟩, ⟨[], FileName.l0Name 2⟩] :=
    Fs.lists_of_two (by decide) ⟨rfl, stored_overwrittenKey.1.ne_none⟩
      ⟨rfl, stored_overwrittenKey.2.ne_none⟩ fun p h1 h2 => by
        rw [overwrittenKey, if_neg h1, if_neg h2]
  suffices hset : lm.Settled overwrittenKey from
    ⟨hset, (compact_crash_iff hl (by rw [hlm]; exact sound_overwrittenKey)
      (by rw [hlm]; decide +kernel) (Prod.ext (by rw [hlm]; decide +kernel) rfl)).mpr hset⟩
  rw [show lm = _ from hlm]
  intro k hk p hp v hv
  rcases List.mem_pair.mp hp with rfl | rfl
  · left
    rw [oldestL0, l0_mk, List.map_cons, firstHit_cons, hv]
    rfl
  · right
    rw [newestL0, l0_mk, List.reverse_cons, List.reverse_singleton, List.singleton_append,
      List.map_cons, firstHit_cons, hv]
    rfl

/-- A flush over a merged file. -/
def overwrittenL1 : Fs := fun p =>
  if p = ⟨[], FileName.l0Name 2⟩ then sstableBytes .percent 1 [([1], [9])]
  else if p = ⟨[], FileName.l1Name 1⟩ then sstableBytes .percent 1 [([1], [8])]
  else none

/-- **A crash between the deletions can bring an overwritten value back**: the L0
file is gone, the old L1 file is not, and its name is before that of the output. -/
theorem not_compact_crash_atomic :
    ¬∀ (S : BloomSizing) (H : MergeHeap) (now : ℕ) (fs : Fs) (dir : List Char)
      (listing : List Path) (lmDone : LevelManager) (fsDone : Fs),
      fs.Lists dir listing → (discoverLevels listing).Sound fs →
      (∀ p ∈ (discoverLevels listing).l1, p.name < FileName.l1Name now) →
      compact S H .whole now fs (discoverLevels listing) = (.ok (), lmDone, fsDone) →
      ∀ io : CompactIo, io.ReadsComplete → ∀ listing',
      (compact S H io now fs (discoverLevels listing)).2.2.Lists dir listing' → ∀ k,
      getAfterRestart (some []) (compact S H io now fs (discoverLevels listing)).2.2 listing' k =
          searchLevels fs (discoverLevels listing) k ∨
        getAfterRestart (some []) (compact S H io now fs (discoverLevels listing)).2.2 listing' k =
          searchLevels fsDone lmDone k := by
  intro h
  have h0 : overwrittenL1.Stored ⟨[], FileName.l0Name 2⟩ [([1], [9])] :=
    Fs.stored_of_written (S := .percent) (n := 1) rfl (by decide) (by decide) (by decide)
  have h1 : overwrittenL1.Stored ⟨[], FileName.l1Name 1⟩ [([1], [8])] :=
    Fs.stored_of_written (S := .percent) (n := 1) rfl (by decide) (by decide) (by decide)
  have hlm : discoverLevels [⟨[], FileName.l0Name 2⟩, ⟨[], FileName.l1Name 1⟩] =
      ⟨[[⟨[], FileName.l0Name 2⟩], [⟨[], FileName.l1Name 1⟩]]⟩ :=
    discoverLevels_of_sorted (by decide +kernel) (by decide +kernel)
  have hl : overwrittenL1.Lists [] [⟨[], FileName.l0Name 2⟩, ⟨[], FileName.l1Name 1⟩] :=
    Fs.lists_of_two (by decide) ⟨rfl, h0.ne_none⟩ ⟨rfl, h1.ne_none⟩ fun p hp0 hp1 => by
      rw [overwrittenL1, if_neg hp0, if_neg hp1]
  have hs : (discoverLevels [⟨[], FileName.l0Name 2⟩, ⟨[], FileName.l1Name 1⟩]).Sound
      overwrittenL1 := by
    rw [hlm]
    exact ⟨.of_two rfl (FileName.suffix_l0Name 2) (FileName.suffix_l1Name 1) h0 h1,
      List.pairwise_singleton _ _, rfl⟩
  have hnew : ∀ p ∈ (discoverLevels [⟨[], FileName.l0Name 2⟩, ⟨[], FileName.l1Name 1⟩]).l1,
      p.name < FileName.l1Name 3 := by
    rw [hlm]
    decide +kernel
  have hdone : (compact .percent (.argmin _) .whole 3 overwrittenL1
      (discoverLevels [⟨[], FileName.l0Name 2⟩, ⟨[], FileName.l1Name 1⟩])).1 = .ok () := by
    rw [hlm]
    decide +kernel
  have hk : oldestL0 overwrittenL1
      (discoverLevels [⟨[], FileName.l0Name 2⟩, ⟨[], FileName.l1Name 1⟩]) [1] ≠ none := by
    rw [hlm]
    decide +kernel
  obtain ⟨io, hio, listing', hl', hread⟩ := exists_restart_reading hl hs hnew
    CompactIo.readsComplete_whole hdone hk (p := ⟨[], FileName.l1Name 1⟩) (v := [8])
    (by rw [hlm]; decide +kernel) (by rw [h1.records_eq]; rfl)
  have hcrash := h .percent (.argmin _) 3 overwrittenL1 [] _ _ _ hl hs hnew (Prod.ext hdone rfl)
    io hio listing' hl' [1]
  rw [getAfterRestart_nil, hread, hlm] at hcrash
  rcases hcrash with hcrash | hcrash
  · exact absurd hcrash (by decide +kernel)
  · exact absurd hcrash (by decide +kernel)

end Tabula
