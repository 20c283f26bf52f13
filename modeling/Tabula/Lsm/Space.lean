import Tabula.Lsm.Weathered

/-!
# What is kept on disk

A compaction leaves out what has been overwritten and what has been deleted, and deletes
its inputs. So the space that the store takes is that of its data, as far as it has been
merged: L1 has one record for each of its keys, and no tombstone. When nothing is in the log
and no other file is there, its records are the map (`Tabula.Sys.Sparing`).

That no output has a tombstone is so in all runs (`Tabula.Sys.Purged`). The rest needs the
order that threads keep to, in which a crash between two compactions leaves nothing behind:
all `.sst` files are in the lists, or on their way to L0.
-/

namespace Tabula

open SortedTable

variable {T : Type} {cfg : Config}

namespace Sys

/-! ### Tombstones -/

/-- **No output of a compaction has a tombstone.** -/
def Purged (cfg : Config) (s : Sys T) : Prop :=
  ∀ n, ∀ r ∈ s.fs.records ⟨cfg.dir, FileName.l1Name n⟩, isTombstone r.2 = false

namespace Purged

theorem init : Purged cfg (Sys.init : Sys T) := fun n => by
  rw [Fs.records_of_missing rfl]
  exact List.forall_mem_nil _

variable [DecidableEq T] {s s' : Sys T} {a : Act T}

/-- **One step**, whatever fails in it. -/
theorem step (h : Purged cfg s) (hhoused : Housed cfg s) (hintact : Intact cfg s)
    (hs : Step cfg s a s') : Purged cfg s' := by
  intro n
  have hnamed := cfg.named_l1 n
  have hsame : s'.fs ⟨cfg.dir, FileName.l1Name n⟩ = s.fs ⟨cfg.dir, FileName.l1Name n⟩ →
      ∀ r ∈ s'.fs.records ⟨cfg.dir, FileName.l1Name n⟩, isTombstone r.2 = false := by
    intro hfs
    rw [Fs.records_congr hfs]
    exact h n
  cases hs with
  | call | append | insert | fill | name | swap | truncate | publish | hit | miss | search | restart
  | appendFails | flushFails | truncateFails => exact hsame rfl
  | @create t e w | @write t e w | @finish t e w =>
    exact hsame (Fs.write_of_ne (hnamed.ne_tmp w.path) s.fs _)
  | @rename t e w hpc =>
    obtain ⟨-, hfs⟩ := hhoused.staged.rename hpc
    have hsound := hhoused.staged t
    rw [hpc] at hsound
    obtain ⟨⟨now, hp⟩, -⟩ := hsound
    refine hsame (hfs _ hnamed fun he => ?_)
    exact cfg.nextSstablePath_ne_l1 now n cfg.dir (hp.symm.trans he.symm)
  | @compact io now =>
    have hcases := @LevelManager.records_compact_cases cfg.sizing cfg.heap io now s.fs s.levels
      (fun p hp => Fs.Stored.sorted (hintact.complete hhoused hp)) _ hnamed
    rcases hcases with hkept | hnone | ⟨iters, hread, hmerge⟩
    · intro r hr
      exact h n r (hkept ▸ hr)
    · intro r hr
      exact absurd (hnone ▸ hr) List.not_mem_nil
    · -- the merge has left them out
      intro r hr
      obtain ⟨k, v⟩ := r
      have hr : (k, v) ∈ merge cfg.heap iters := hmerge ▸ hr
      exact ((mem_merge_iff cfg.heap fun t ht => (hread t ht).1).mp hr).1

theorem of_run {as : List (Act T)} (hrun : Runs.Run (Advances cfg Disciplined) Sys.init as s) :
    Purged cfg s := by
  induction hrun with
  | nil => exact .init
  | @snoc as s a s' hrun hs ih =>
    have h := Durable.of_run hrun
    cases hs with
    | step hs => exact ih.step h.housed h.intact hs
    | cut htimely _ _ hl hopen =>
      exact (ih.step h.housed h.intact .compact).step (h.housed_compact htimely) h.intact_compact
        (.restart hl hopen)

end Purged

/-! ### What has been merged -/

/-- The records of L1. -/
def merged (s : Sys T) : List Record := (s.levels.l1.map s.fs.records).flatten

/-- **Nothing is on disk for nothing**: all files are in the lists or on their way to L0, L1 has
each key once and no tombstone, and when it is all there is, it is the map. -/
structure Sparing [DecidableEq T] (s : Sys T) : Prop where
  files : ∀ p : Path, p.NamedSst → (s.fs p ≠ none ↔
    p ∈ s.levels.l0 ++ s.levels.l1 ∨ ∃ t, p ∈ (s.pc t).landed)
  live : ∀ r ∈ s.merged, isTombstone r.2 = false
  once : (s.merged.map Prod.fst).Nodup
  exact : s.levels.l0 = [] → (∀ t, (s.pc t).landed = []) → log s.hist = [] →
    ∀ k v, (k, v) ∈ s.merged ↔ map s.hist k = some v

variable [DecidableEq T] {s : Sys T}

namespace Durable

/-- The files of L1 have no key in common. -/
theorem keysApart (h : Durable cfg s) : (s.levels.l1.map s.fs.records).Pairwise KeysApart := by
  refine List.pairwise_map.mpr (List.Pairwise.imp_of_mem ?_ h.disjoint)
  intro p q hp hq hapart k v w hv
  exact hapart.notMem (Fs.Stored.sorted (h.intact.complete h.housed (LevelManager.mem_of_l1 hp)))
    (Fs.Stored.sorted (h.intact.complete h.housed (LevelManager.mem_of_l1 hq))) hv

theorem sorted_l1 (h : Durable cfg s) : ∀ t ∈ s.levels.l1.map s.fs.records, StrictSorted t := by
  intro t ht
  obtain ⟨p, hp, rfl⟩ := List.mem_map.mp ht
  exact Fs.Stored.sorted (h.intact.complete h.housed (LevelManager.mem_of_l1 hp))

/-- The files there are. -/
theorem file_iff (h : Durable cfg s) {p : Path} (hp : p.NamedSst) : s.fs p ≠ none ↔
    p ∈ s.levels.l0 ++ s.levels.l1 ∨ ∃ t, p ∈ (s.pc t).landed := by
  obtain ⟨landed, hr⟩ := h.recovers
  have hshelves := hr.lined.shelves
  rw [← hr.lined.landed, List.mem_append]
  constructor
  · intro hne
    rcases h.housed.inPlace p hp hne with hnow | hnow
    · rcases List.mem_append.mp ((hshelves.mem0 p).mpr ⟨hne, hnow⟩) with hl0 | hlanded
      · exact Or.inl (Or.inl hl0)
      · exact Or.inr hlanded
    · exact Or.inl (Or.inr ((hshelves.mem1 p).mpr ⟨hne, hnow⟩))
  · rintro ((hl0 | hl1) | hlanded)
    · exact ((hshelves.mem0 p).mp (List.mem_append_left _ hl0)).1
    · exact ((hshelves.mem1 p).mp hl1).1
    · exact ((hshelves.mem0 p).mp (List.mem_append_right _ hlanded)).1

/-- **What has been merged**, and what there is besides. -/
theorem sparing (h : Durable cfg s) (hpurged : Purged cfg s) : s.Sparing := by
  have hlive : ∀ r ∈ s.merged, isTombstone r.2 = false := by
    intro r hr
    obtain ⟨t, ht, hr⟩ := List.mem_flatten.mp hr
    obtain ⟨p, hp, rfl⟩ := List.mem_map.mp ht
    obtain ⟨n, rfl⟩ := h.housed.exists_l1 p hp
    exact hpurged n r hr
  refine ⟨fun p hp => h.file_iff hp, hlive, nodup_keys_flatten h.sorted_l1 h.keysApart,
    fun hl0 hnone hlog k v => ?_⟩
  obtain ⟨landed, hr⟩ := h.recovers
  obtain rfl := hr.lined.eq_nil hnone
  -- the files of L1 are all that a restart would find
  have horder : (s.shelved []).readOrder = s.levels.l1 := by
    rw [LevelManager.readOrder_eq rfl, shelved, hl0]
    rfl
  have hmap : visible (firstHit (s.levels.l1.map s.fs.records) k) = map s.hist k := by
    rw [← hr.recovered k, hlog, LevelManager.find, horder]
    rfl
  have hfirst := firstHit_eq_some_iff h.sorted_l1 h.keysApart (k := k) (v := v)
  rw [← hmap]
  constructor
  · intro hv
    rw [hfirst.mpr hv]
    exact visible_of_not_tombstone (hlive _ hv)
  · intro hv
    exact hfirst.mp (Option.filter_eq_some_iff.mp hv).1

end Durable

end Sys

/-! ### The process -/

namespace Process

/-- **Nothing is on disk for nothing**, between two compactions. -/
theorem sparing_of_run [DecidableEq T] {as : List (Act T)} {f : Process T}
    (hrun : Runs.Run (Runs.Guarded (Step cfg) fun f a => f.Weathered cfg Sys.Disciplined a)
      init as f) (hquiet : ¬f.background.Writes) : f.sys.Sparing := by
  obtain ⟨bs, s, hrun, h⟩ := exists_disciplined hrun
  rw [h.toMatches.sys_eq hquiet]
  exact (Sys.Durable.of_run hrun).sparing (.of_run hrun)

/-- One key has been deleted before the merge, and is gone after it. -/
theorem sparing_of_run_deleted : ∃ f : Process Bool,
    (f.sys.levels.l0 = [] ∧ f.sys.merged = [([1], [1]), ([2], [1]), ([3], [1])]) ∧
      f.sys.Sparing := by
  obtain ⟨_, f, hrun, hquiet, hl0, hmerged⟩ := exists_of_compactions (P := Sys.Disciplined)
    (.ofThreshold 1)
    [(Act.flush false 1 1 ++ Act.flush true 3 2 ++ Act.flush false 2 3 ++
      ([.call true (.write (.delete [4])), .append true, .insert true, .name true 4, .swap true,
        .create true, .finish true, .rename true, .truncate true, .publish true] :
          List (Tabula.Act Bool)).map .thread ++ [.wake, .check], [], 6)]
    (List.replicate 11 .work ++ [.finish])
    (fun f => ¬f.background.Writes ∧ f.sys.levels.l0 = [] ∧
      f.sys.merged = [([1], [1]), ([2], [1]), ([3], [1])])
    (by decide +kernel)
  exact ⟨f, ⟨hl0, hmerged⟩,
    sparing_of_run (hrun.mono fun _ _ _ hs => And.imp_right Tended.weathered hs) hquiet⟩

end Process

end Tabula
