import Tabula.Lsm.Durable

/-!
# A crash in the middle of a compaction

A compaction deletes the files of L0 first, from the oldest on, and then those of L1 that it has
merged. Where the process dies between its rename and its last deletion, a restart finds the
output behind what is left of its inputs, and what is left answers first
(`Tabula.LevelManager.Compacted.visible_cases`). The newest files of L0 go last, so that they
hide what is below them as long as one of them has the key. When none is left that has it, an
old file of L1 comes up before the output does, if it is still there (`Tabula.Sys.Bared`).

That is all that can go wrong, with any number of clients, wherever the process dies
(`Tabula.Process.readsBack_of_run`).
-/

namespace Tabula

open SortedTable

variable {T : Type} {cfg : Config}

/-- L0 from its last file on, and then L1. -/
theorem LevelManager.find_two (fs : Fs) (l0 l1 : List Path) (k : Key) :
    (⟨[l0, l1]⟩ : LevelManager).find fs k =
      (firstHit (l0.reverse.map fs.records) k).or (firstHit (l1.map fs.records) k) := by
  rw [find, readOrder_eq rfl, List.map_append, firstHit_append]
  rfl

/-- **A file that is gone has no records**, so that it is not missed in the lists. -/
theorem LevelManager.find_present (fs : Fs) (l0 landed l1 : List Path) (out : Path) (k : Key) :
    (⟨[l0.filter (fun p => (fs p).isSome) ++ landed,
        l1.filter (fun p => (fs p).isSome) ++ [out]]⟩ : LevelManager).find fs k =
      (firstHit (landed.reverse.map fs.records) k).or ((firstHit (l0.reverse.map fs.records) k).or
        ((firstHit (l1.map fs.records) k).or (lookup k (fs.records out)))) := by
  have hfilter : ∀ ps : List Path, firstHit ((ps.filter fun p => (fs p).isSome).map fs.records) k =
      firstHit (ps.map fs.records) k := fun ps =>
    firstHit_map_filter fun p _ hgone => by
      rw [Fs.records_of_missing (Option.isNone_iff_eq_none.mp (by simpa using hgone)), lookup_nil]
  rw [Sys.find_append, find_two, List.map_append, firstHit_append, ← List.filter_reverse, hfilter,
    hfilter, List.map_singleton, firstHit_cons, firstHit_nil, Option.or_none]

/-! ### What is left of the inputs -/

namespace LevelManager.Compacted

variable {H : MergeHeap} {io : CompactIo} {now : ℕ} {fs fs' : Fs} {lm lm' : LevelManager}
  {oldest : Path} (hs : lm.Sound fs) (hc : LevelManager.Compacted H io now fs lm oldest lm' fs')
  (hnew : LevelManager.outputPath now oldest ∉ lm.l0 ++ lm.l1)

include hs hc hnew

/-- A tracked file that is still there is as it was. -/
theorem eq_of_tracked {p : Path} (hp : p ∈ lm.l0 ++ lm.l1) (hpresent : fs' p ≠ none) :
    fs' p = fs p :=
  hc.eq_of_present (hs.named p hp) (fun he => hnew (he ▸ hp)) hpresent

theorem lookup_of_tracked {p : Path} (hp : p ∈ lm.l0 ++ lm.l1) {k : Key} {v : Value}
    (hv : lookup k (fs'.records p) = some v) : lookup k (fs.records p) = some v := by
  have hpresent : fs' p ≠ none := by
    intro hnone
    rw [Fs.records_of_missing hnone] at hv
    exact absurd hv.symm (Option.some_ne_none v)
  rwa [Fs.records_congr (hc.eq_of_tracked hs hnew hp hpresent)] at hv

/-- One file of L1 at most answers for it. -/
theorem firstHit_l1_of_left {p : Path} (hp : p ∈ lm.l1) {k : Key} {v : Value}
    (hv : lookup k (fs'.records p) = some v) : firstHit (lm.l1.map fs'.records) k = some v := by
  have hfound := hs.firstHit_l1 hp (hc.lookup_of_tracked hs hnew (LevelManager.mem_of_l1 hp) hv)
  refine firstHit_eq_of_forall (fun t ht => ?_) ⟨_, List.mem_map_of_mem hp, hv⟩
  obtain ⟨q, hq, rfl⟩ := List.mem_map.mp ht
  cases hw : lookup k (fs'.records q) with
  | none => exact Or.inl rfl
  | some w =>
    have hother := hs.firstHit_l1 hq (hc.lookup_of_tracked hs hnew (LevelManager.mem_of_l1 hq) hw)
    exact Or.inr (hother.symm.trans hfound)

section Stopped

variable (hstops : CompactIo.whole.Stops io) (hnodup : (lm.l0 ++ lm.l1).Nodup)

include hstops hnodup

/-- **The newest files of L0 go last**: what is left of L0 answers as all of it did. -/
theorem newestL0_of_left {k : Key} {v : Value}
    (hv : firstHit (lm.l0.reverse.map fs'.records) k = some v) : newestL0 fs lm k = some v := by
  obtain ⟨-, n, hremove⟩ := hstops
  have hinputs : (lm.inputs fs).Nodup :=
    hnodup.sublist ((List.Sublist.refl _).append List.filter_sublist)
  have hget : ∀ {i : ℕ} (hi : i < lm.l0.length), (lm.inputs fs)[i]? = some lm.l0[i] := fun hi => by
    rw [LevelManager.inputs, List.getElem?_append_left hi, List.getElem?_eq_getElem hi]
  have hgone : ∀ p ∈ lm.l0.take n, fs' p = none := by
    intro p hp
    obtain ⟨i, hi, rfl⟩ := List.mem_take_iff_getElem.mp hp
    exact hc.gone _ i (hget (by omega)) (by rw [hremove]; simp [CompactIo.whole]; omega)
  have hkept : ∀ p ∈ lm.l0.drop n, fs' p = fs p := by
    intro p hp
    have htracked := LevelManager.mem_of_l0 (List.mem_of_mem_drop hp)
    obtain ⟨i, hi, rfl⟩ := List.mem_drop_iff_getElem.mp hp
    refine hc.kept _ (hs.named _ htracked) (fun he => hnew (he ▸ htracked)) fun j hj => ?_
    obtain ⟨hlt, -⟩ := List.getElem?_eq_some_iff.mp hj
    obtain rfl := (List.getElem?_inj hlt hinputs).mp
      (hj.trans (hget (i := n + i) (by omega)).symm)
    simp [hremove]
  have hsplit : ∀ g : Path → List Record, firstHit (lm.l0.reverse.map g) k =
      (firstHit ((lm.l0.drop n).reverse.map g) k).or
        (firstHit ((lm.l0.take n).reverse.map g) k) := by
    intro g
    rw [← firstHit_append, ← List.map_append, ← List.reverse_append, List.take_append_drop]
  have hnone : firstHit ((lm.l0.take n).reverse.map fs'.records) k = none := by
    refine firstHit_eq_none_iff.mpr fun t ht => ?_
    obtain ⟨p, hp, rfl⟩ := List.mem_map.mp ht
    rw [Fs.records_of_missing (hgone p (List.mem_reverse.mp hp)), lookup_nil]
  rw [hsplit, hnone, Option.or_none, List.map_congr_left fun p hp =>
    Fs.records_congr (hkept p (List.mem_reverse.mp hp))] at hv
  rw [newestL0, hsplit, hv, Option.some_or]

/-- **What readers find of what is left**: what they found before, or a value of L1 for a key
whose files in L0 are gone. -/
theorem visible_cases {k : Key} (hagree : oldestL0 fs lm k = newestL0 fs lm k) :
    visible ((firstHit (lm.l0.reverse.map fs'.records) k).or
        ((firstHit (lm.l1.map fs'.records) k).or (lookup k (lm.merged H fs)))) =
      visible ((newestL0 fs lm k).or (firstHit (lm.l1.map fs.records) k)) ∨
    firstHit (lm.l0.reverse.map fs'.records) k = none ∧ newestL0 fs lm k ≠ none ∧
      firstHit (lm.l1.map fs'.records) k ≠ none := by
  have hmerged := hs.toUsable.lookup_merged H k
  rw [← oldestL0, hagree] at hmerged
  cases hl0 : firstHit (lm.l0.reverse.map fs'.records) k with
  | some v =>
    rw [hc.newestL0_of_left hs hnew hstops hnodup hl0]
    exact Or.inl rfl
  | none =>
    cases hl1 : firstHit (lm.l1.map fs'.records) k with
    | some v =>
      cases hold : newestL0 fs lm k with
      | some w => exact Or.inr ⟨rfl, Option.some_ne_none w, Option.some_ne_none v⟩
      | none =>
        -- the key is in one file of L1, which is still there
        obtain ⟨t, ht, hv⟩ := exists_of_firstHit hl1
        obtain ⟨q, hq, rfl⟩ := List.mem_map.mp ht
        rw [hs.firstHit_l1 hq (hc.lookup_of_tracked hs hnew (LevelManager.mem_of_l1 hq) hv)]
        exact Or.inl rfl
    | none =>
      rw [Option.none_or, Option.none_or, hmerged, visible_visible]
      cases hold : newestL0 fs lm k with
      | some w => exact Or.inl rfl
      | none =>
        -- what has not been merged is there, and does not have the key
        rw [Option.none_or, Option.none_or, LevelManager.overlapping,
          firstHit_map_filter fun q hq hmeets => ?_]
        · exact Or.inl rfl
        · have hu : q ∈ lm.untouched fs := List.mem_filter.mpr ⟨hq, by simp [hmeets]⟩
          have hsame := hc.untouched_kept hs.toUsable hu fun he =>
            hnew (he ▸ LevelManager.mem_of_l1 hq)
          rw [← Fs.records_congr hsame]
          exact firstHit_eq_none_iff.mp hl1 _ (List.mem_map_of_mem hq)

end Stopped

end LevelManager.Compacted

/-! ### What a restart makes of it -/

namespace Sys

variable {s : Sys T}

/-- **A key that has lost its cover**: a compaction has deleted the files of L0 that had it, a
value that is not the last one is in a file of L1 that has not been deleted yet, and neither the
log nor a file that is not in L0 yet has another one. -/
structure Bared (s : Sys T) (k : Key) (v : Value) : Prop where
  removed : ∃ p ∈ s.levels.l0, s.fs p = none
  bare : ∀ p ∈ s.levels.l0, lookup k (s.fs.records p) = none
  left : ∃ p ∈ s.levels.l1, lookup k (s.fs.records p) = some v
  landed : ∀ t, ∀ p ∈ (s.pc t).landed, lookup k (s.fs.records p) = none
  logged : (MemTable.new.applyAll (log s.hist)).get k = none
  stale : visible (some v) ≠ map s.hist k

instance [Fintype T] (s : Sys T) (k : Key) (v : Value) : Decidable (s.Bared k v) :=
  decidable_of_iff ((∃ p ∈ s.levels.l0, s.fs p = none) ∧
      (∀ p ∈ s.levels.l0, lookup k (s.fs.records p) = none) ∧
      (∃ p ∈ s.levels.l1, lookup k (s.fs.records p) = some v) ∧
      (∀ t, ∀ p ∈ (s.pc t).landed, lookup k (s.fs.records p) = none) ∧
      (MemTable.new.applyAll (log s.hist)).get k = none ∧ visible (some v) ≠ map s.hist k)
    ⟨fun ⟨h₁, h₂, h₃, h₄, h₅, h₆⟩ => ⟨h₁, h₂, h₃, h₄, h₅, h₆⟩,
      fun h => ⟨h.1, h.2, h.3, h.4, h.5, h.6⟩⟩

/-- **What a restart reads**: what has been written, unless the key has lost its cover. -/
structure ReadsBack (s : Sys T) (listing : List Path) (k : Key) : Prop where
  covered : (∀ v, ¬s.Bared k v) → getAfterRestart (some s.wal) s.fs listing k = .ok (map s.hist k)
  bared : ∀ v, s.Bared k v → getAfterRestart (some s.wal) s.fs listing k = .ok (visible (some v))

/-- No key has lost its cover while all of L0 is there. -/
theorem readsBack_of_present {listing : List Path} {k : Key}
    (hpresent : ∀ p ∈ s.levels.l0, s.fs p ≠ none)
    (h : getAfterRestart (some s.wal) s.fs listing k = .ok (map s.hist k)) :
    s.ReadsBack listing k :=
  ⟨fun _ => h, fun _ hb => by
    obtain ⟨p, hp, hnone⟩ := hb.removed
    exact absurd hnone (hpresent p hp)⟩

/-- The files are those of a compaction that has stopped somewhere. -/
def cut (cfg : Config) (s : Sys T) (io : CompactIo) (now : ℕ) : Sys T :=
  { s with fs := (s.compact cfg io now).fs }

/-- A compaction that has renamed its output, and has gone no further than some deletion. -/
structure CutShort (cfg : Config) (s : Sys T) (io : CompactIo) (now : ℕ) (oldest : Path)
    (landed : List Path) : Prop where
  sound : s.levels.Sound s.fs
  compacted : LevelManager.Compacted cfg.heap io now s.fs s.levels oldest
    (s.compact cfg io now).levels (s.compact cfg io now).fs
  output : LevelManager.outputPath now oldest = ⟨cfg.dir, FileName.l1Name now⟩
  fresh : LevelManager.outputPath now oldest ∉ s.levels.l0 ++ s.levels.l1
  nodup : (s.levels.l0 ++ s.levels.l1).Nodup
  stops : CompactIo.whole.Stops io
  /-- Files that are not in L0 are not touched. -/
  landed : ∀ p ∈ landed, (s.compact cfg io now).fs p = s.fs p

namespace CutShort

variable {io : CompactIo} {now : ℕ} {oldest : Path} {landed : List Path}
  (h : CutShort cfg s io now oldest landed)

include h

theorem stored : (s.compact cfg io now).fs.Stored ⟨cfg.dir, FileName.l1Name now⟩
    (s.levels.merged cfg.heap s.fs) :=
  h.output ▸ h.compacted.output fun _ hi =>
    absurd (LevelManager.mem_of_inputs (List.mem_of_getElem? hi)) h.fresh

/-- The output is behind what is left of the files there were. -/
theorem shelves (hlined : Lined cfg s landed) (htimely : s.Timely cfg now) :
    cfg.Shelves (s.compact cfg io now).fs
      (s.levels.l0.filter (fun p => ((s.compact cfg io now).fs p).isSome) ++ landed)
      (s.levels.l1.filter (fun p => ((s.compact cfg io now).fs p).isSome) ++
        [⟨cfg.dir, FileName.l1Name now⟩]) :=
  hlined.shelves.remains h.stored.ne_none
    (fun p _ hne => h.compacted.old p (by rw [h.output]; exact hne))
    (fun p hp => (h.landed p hp).trans_ne
      ((hlined.shelves.mem0 p).mp (List.mem_append_right _ hp)).1) htimely.clock

/-- A key of L0 that only L1 has now. -/
theorem bared (hlined : Lined cfg s landed) {k : Key} {v : Value}
    (hlog : (MemTable.new.applyAll (log s.hist)).get k = none)
    (hlanded : firstHit (landed.reverse.map s.fs.records) k = none)
    (hold : newestL0 s.fs s.levels k ≠ none)
    (hl0 : firstHit (s.levels.l0.reverse.map (s.compact cfg io now).fs.records) k = none)
    (hl1 : firstHit (s.levels.l1.map (s.compact cfg io now).fs.records) k = some v)
    (hstale : visible (some v) ≠ map s.hist k) : (s.cut cfg io now).Bared k v := by
  have hbare : ∀ p ∈ s.levels.l0, lookup k ((s.compact cfg io now).fs.records p) = none :=
    fun p hp => firstHit_eq_none_iff.mp hl0 _ (List.mem_map_of_mem (List.mem_reverse.mpr hp))
  refine ⟨?_, hbare, ?_, fun t p hp => ?_, hlog, hstale⟩
  · -- the file that had it is not there
    obtain ⟨w, hw⟩ := Option.ne_none_iff_exists'.mp hold
    obtain ⟨t, ht, hw⟩ := exists_of_firstHit hw
    obtain ⟨p, hp, rfl⟩ := List.mem_map.mp ht
    have hp := List.mem_reverse.mp hp
    refine ⟨p, hp, ?_⟩
    by_contra hpresent
    have hsame := h.compacted.eq_of_tracked h.sound h.fresh (LevelManager.mem_of_l0 hp) hpresent
    rw [← Fs.records_congr hsame, hbare p hp] at hw
    exact absurd hw.symm (Option.some_ne_none w)
  · obtain ⟨t, ht, hv⟩ := exists_of_firstHit hl1
    obtain ⟨p, hp, rfl⟩ := List.mem_map.mp ht
    exact ⟨p, hp, hv⟩
  · have hp := (hlined.landed p).mpr ⟨t, hp⟩
    have hnone := firstHit_eq_none_iff.mp hlanded _
      (List.mem_map_of_mem (List.mem_reverse.mpr hp))
    exact (congrArg (lookup k) (Fs.records_congr (h.landed p hp))).trans hnone

/-- The files that are not in L0 do not have a key that has lost its cover. -/
theorem firstHit_landed (hlined : Lined cfg s landed) {k : Key} {v : Value}
    (hb : (s.cut cfg io now).Bared k v) : firstHit (landed.reverse.map s.fs.records) k = none := by
  refine firstHit_eq_none_iff.mpr fun t ht => ?_
  obtain ⟨p, hp, rfl⟩ := List.mem_map.mp ht
  have hp := List.mem_reverse.mp hp
  obtain ⟨t, ht⟩ := (hlined.landed p).mp hp
  rw [← Fs.records_congr (h.landed p hp)]
  exact hb.landed t p ht

/-- **What is read of a covered key** is what has been written. -/
theorem visible_of_covered (hr : Recovers cfg s landed) (htimely : s.Timely cfg now) {k : Key}
    (hcovered : ∀ v, ¬(s.cut cfg io now).Bared k v) :
    visible (((MemTable.new.applyAll (log s.hist)).get k).or
      ((firstHit (landed.reverse.map s.fs.records) k).or
        ((firstHit (s.levels.l0.reverse.map (s.compact cfg io now).fs.records) k).or
          ((firstHit (s.levels.l1.map (s.compact cfg io now).fs.records) k).or
            (lookup k (s.levels.merged cfg.heap s.fs)))))) = map s.hist k := by
  have hrecovered := hr.recovered k
  rw [shelved, find_append, LevelManager.find_two] at hrecovered
  rcases h.compacted.visible_cases h.sound h.fresh h.stops h.nodup (htimely.agree k) with
    hsame | ⟨hl0, hold, hl1⟩
  · rw [← hrecovered]
    exact visible_or_congr (visible_or_congr hsame _) _
  -- the log and the files that are not in L0 come first
  cases hlog : (MemTable.new.applyAll (log s.hist)).get k with
  | some raw =>
    rw [hlog] at hrecovered
    exact hrecovered
  | none =>
    cases hlanded : firstHit (landed.reverse.map s.fs.records) k with
    | some raw =>
      rw [hlog, hlanded] at hrecovered
      exact hrecovered
    | none =>
      obtain ⟨v, hv⟩ := Option.ne_none_iff_exists'.mp hl1
      rw [hl0, hv]
      by_contra hstale
      exact hcovered v (h.bared hr.lined hlog hlanded hold hl0 hv hstale)

end CutShort

variable [DecidableEq T] {io : CompactIo} {now : ℕ}

omit [DecidableEq T] in
/-- A compaction that changes SSTables has an input in L0, and would have been `Ok`. -/
theorem Housed.compact_cases (h : Housed cfg s) (io : CompactIo) (now : ℕ) :
    (∀ p : Path, p.NamedSst → (s.compact cfg io now).fs p = s.fs p) ∨
      ∃ oldest, s.levels.l0.head? = some oldest ∧
        (s.levels.compact cfg.sizing cfg.heap io now s.fs).1 = .ok () := by
  cases ho : s.levels.l0.head? with
  | none =>
    have hfs : (s.compact cfg io now).fs = s.fs := (h.compact_nil (List.head?_eq_none_iff.mp ho)).2
    exact Or.inl fun p _ => congrFun hfs p
  | some oldest =>
    by_cases hok : (s.levels.compact cfg.sizing cfg.heap io now s.fs).1 = .ok ()
    · exact Or.inr ⟨oldest, rfl, hok⟩
    · exact Or.inl fun p hp => LevelManager.compact_frame hok hp

namespace Durable

variable (h : Durable cfg s) (htimely : s.Timely cfg now) (hstops : CompactIo.whole.Stops io)

include h htimely

theorem housed_compact : Housed cfg (s.compact cfg io now) := by
  have hstep : Step cfg s (.compact io now) (s.compact cfg io now) := .compact
  refine h.housed.step hstep (by simp) ?_
  rintro io' now' ⟨⟩
  exact htimely.notMem

omit htimely in
theorem intact_compact : Intact cfg (s.compact cfg io now) := by
  have hstep : Step cfg s (.compact io now) (s.compact cfg io now) := .compact
  exact h.intact.step h.housed hstep (by simp)

/-- Where no SSTable has changed, a restart finds what it would have found. -/
theorem readsBack_of_same
    (hfs : ∀ p : Path, p.NamedSst → (s.compact cfg io now).fs p = s.fs p) {listing : List Path}
    (hl : (s.compact cfg io now).fs.Lists cfg.dir listing) (k : Key) :
    (s.cut cfg io now).ReadsBack listing k := by
  refine readsBack_of_present (fun p hp => ?_) ?_
  · have htracked := h.housed.tracked (LevelManager.mem_of_l0 hp)
    exact (hfs p htracked.1).trans_ne htracked.2
  · obtain ⟨landed, hr⟩ := h.recovers
    have hshelves := hr.lined.shelves.congr hfs
    have hfind : (s.shelved landed).find (s.compact cfg io now).fs k =
        (s.shelved landed).find s.fs k :=
      LevelManager.find_congr (fun p hp => hfs p (hshelves.mem_readOrder hp).1) k
    change getAfterRestart (some s.wal) (s.compact cfg io now).fs listing k = .ok (map s.hist k)
    rw [h.getAfterRestart_of_shelves (h.housed_compact htimely) h.intact_compact hshelves hl,
      ← hr.recovered k, ← hfind]
    rfl

include hstops

theorem cutShort {oldest : Path} (ho : s.levels.l0.head? = some oldest)
    (hok : (s.levels.compact cfg.sizing cfg.heap io now s.fs).1 = .ok ()) {landed : List Path}
    (hlined : Lined cfg s landed) : CutShort cfg s io now oldest landed := by
  have hio := hstops.reads CompactIo.readsComplete_whole
  have hsound := sound_of_compact h.housed h.intact h.disjoint hio ho hok
  refine ⟨hsound, hsound.toUsable.compacted hio ho (compact_eq_ok hok),
    h.housed.outputPath_eq (List.mem_of_head? ho), htimely.outputPath_notMem h.housed ho,
    List.nodup_append.mpr ⟨h.housed.nodup0, h.housed.nodup1, ?_⟩, hstops, fun p hp => ?_⟩
  · exact fun p hp q hq he => h.housed.notMem_l1 hp (he ▸ hq)
  · obtain ⟨t, ht⟩ := (hlined.landed p).mp hp
    obtain ⟨w, hw, rfl⟩ := Pc.exists_out_of_landed ht
    exact (h.housed.compact_frame (Pc.path_of_out hw)).1

/-- **What a restart finds behind the rename.** -/
theorem readsBack_of_renamed {oldest : Path} (ho : s.levels.l0.head? = some oldest)
    (hok : (s.levels.compact cfg.sizing cfg.heap io now s.fs).1 = .ok ()) {listing : List Path}
    (hl : (s.compact cfg io now).fs.Lists cfg.dir listing) (k : Key) :
    (s.cut cfg io now).ReadsBack listing k := by
  obtain ⟨landed, hr⟩ := h.recovers
  have hcut := h.cutShort htimely hstops ho hok hr.lined
  have hget : getAfterRestart (some (s.cut cfg io now).wal) (s.cut cfg io now).fs listing k = _ :=
    h.getAfterRestart_of_shelves (h.housed_compact htimely) h.intact_compact
      (hcut.shelves hr.lined htimely) hl k
  rw [LevelManager.find_present, hcut.stored.records_eq, List.map_congr_left fun p hp =>
    Fs.records_congr (hcut.landed p (List.mem_reverse.mp hp))] at hget
  refine ⟨fun hcovered => ?_, fun v hb => ?_⟩
  · rw [hget, hcut.visible_of_covered hr htimely hcovered]
    rfl
  · obtain ⟨q, hq, hv⟩ := hb.left
    have hl0 : firstHit (s.levels.l0.reverse.map (s.compact cfg io now).fs.records) k = none := by
      refine firstHit_eq_none_iff.mpr fun t ht => ?_
      obtain ⟨p, hp, rfl⟩ := List.mem_map.mp ht
      exact hb.bare p (List.mem_reverse.mp hp)
    have hlog : (MemTable.new.applyAll (log s.hist)).get k = none := hb.logged
    rw [hget, hlog, hcut.firstHit_landed hr.lined hb, hl0,
      hcut.compacted.firstHit_l1_of_left hcut.sound hcut.fresh hq hv]
    rfl

/-- **What a restart finds in the middle of a compaction.** -/
theorem readsBack_cut {listing : List Path}
    (hl : (s.compact cfg io now).fs.Lists cfg.dir listing) (k : Key) :
    (s.cut cfg io now).ReadsBack listing k := by
  rcases h.housed.compact_cases io now with hfs | ⟨oldest, ho, hok⟩
  · exact h.readsBack_of_same htimely hfs hl k
  · exact h.readsBack_of_renamed htimely hstops ho hok hl k

/-- **What a restart opens** when the output is there. -/
theorem open_cut {landed : List Path} (hr : Recovers cfg s landed)
    (hout : (s.compact cfg io now).fs ⟨cfg.dir, FileName.l1Name now⟩ ≠ none) {listing : List Path}
    (hl : (s.compact cfg io now).fs.Lists cfg.dir listing) : Lsm.open (some s.wal) listing =
      .ok (MemTable.new.applyAll (log s.hist),
        ⟨[s.levels.l0.filter (fun p => ((s.compact cfg io now).fs p).isSome) ++ landed,
          s.levels.l1.filter (fun p => ((s.compact cfg io now).fs p).isSome) ++
            [⟨cfg.dir, FileName.l1Name now⟩]]⟩) := by
  rcases h.housed.compact_cases io now with hfs | ⟨oldest, ho, hok⟩
  · rw [hfs _ (cfg.named_l1 now)] at hout
    exact absurd ((hr.lined.shelves.mem1 _).mpr ⟨hout, now, rfl⟩) htimely.notMem
  · exact h.open_of_shelves ((h.cutShort htimely hstops ho hok hr.lined).shelves hr.lined htimely)
      (h.housed_compact htimely).inPlace hl

end Durable

end Sys

end Tabula
