import Tabula.Levels.Disjoint
import Tabula.Lsm.ReadOrder
import Tabula.Lsm.Stamps

/-!
# What the files go back to

The file of a flush, over the files that are read after it, says what had been written by
its time, and nothing later. L1 as a whole says what had been written at some earlier time, and
a compaction of L0 files that agree takes L1 forward to the time of the newest of them
(`Tabula.Sys.Layers`).

No step takes a file back: the stamps of the files that stay rise, and what a compaction
deletes is no later than the new L1 (`Tabula.Stamps.Later`).
-/

namespace Tabula

open SortedTable

variable {cfg : Config}

namespace Sys

variable {s s' : Sys Unit} {a : Act Unit} {m : Stamps}

/-- **What is read from a file on is a snapshot** of what had been written. -/
structure Layers (s : Sys Unit) (m : Stamps) : Prop where
  bottom : ∀ k, visible ((⟨[[], s.levels.l1]⟩ : LevelManager).find s.fs k) =
    mapAfter s.hist m.bottom k
  layer : ∀ older p newer, s.stock = older ++ p :: newer → ∀ k,
    visible ((⟨[older ++ [p], s.levels.l1]⟩ : LevelManager).find s.fs k) =
      mapAfter s.hist (m.file p) k

/-- What holds in every run in which no step fails and compactions find L0 agreeing. -/
structure Layered (cfg : Config) (s : Sys Unit) (m : Stamps) : Prop where
  sheltered : Sheltered cfg s
  mirrored : Mirrored cfg s
  disjoint : LevelManager.RangesDisjoint s.fs s.levels.l1
  stamped : Stamped cfg s m
  layers : s.Layers m

namespace Layers

/-- A step that leaves the files and the lists alone. -/
theorem of_quiet (h : s.Layers m) (hs : Step cfg s a s')
    (hfile : ∀ p ∈ s.stock, m.file p ≤ (completed s.hist).length)
    (hbottom : m.bottom ≤ (completed s.hist).length) (hstock : s'.stock = s.stock)
    (hl1 : s'.levels.l1 = s.levels.l1)
    (hfs : ∀ p ∈ s.stock ++ s.levels.l1, s'.fs p = s.fs p) : s'.Layers m := by
  refine ⟨fun k => ?_, fun older p newer hsplit k => ?_⟩
  · rw [mapAfter_step hs hbottom, hl1, LevelManager.find_congr fun p hp => hfs p ?_]
    · exact h.bottom k
    · rw [LevelManager.readOrder_eq rfl] at hp
      exact List.mem_append_right _ hp
  · rw [hstock] at hsplit
    have hp : p ∈ s.stock := hsplit ▸ List.mem_append_right _ List.mem_cons_self
    rw [mapAfter_step hs (hfile p hp), hl1, LevelManager.find_congr fun q hq => hfs q ?_]
    · exact h.layer older p newer hsplit k
    · rw [LevelManager.readOrder_eq rfl] at hq
      refine List.mem_append.mpr ((List.mem_append.mp hq).imp_left fun hq => ?_)
      rw [hsplit]
      have hq := List.mem_reverse.mp hq
      simp only [LevelManager.l0_mk, List.mem_append, List.mem_singleton] at hq
      rcases hq with hq | rfl
      · exact List.mem_append_left _ hq
      · exact List.mem_append_right _ List.mem_cons_self

/-- A file of L0 is part of its snapshot. -/
theorem of_mem_stock (h : s.Layers m) {p : Path} (hp : p ∈ s.stock)
    (hcomplete : s.fs.Complete p) {k : Key} {v : Value}
    (hv : lookup k (s.fs.records p) = some v) :
    visible (some v) = mapAfter s.hist (m.file p) k := by
  obtain ⟨older, newer, hsplit⟩ := List.append_of_mem hp
  rw [← h.layer older p newer hsplit k]
  have hfind := LevelManager.find_addL0File hcomplete ⟨[older, s.levels.l1]⟩ k
  rw [hv, Option.some_or] at hfind
  exact congrArg visible hfind.symm

/-- A file of L1 is part of what L1 shows. -/
theorem of_mem_l1 (h : s.Layers m) (hdisjoint : LevelManager.RangesDisjoint s.fs s.levels.l1)
    (hsorted : ∀ p ∈ s.levels.l1, StrictSorted (s.fs.records p)) {p : Path} (hp : p ∈ s.levels.l1)
    {k : Key} {v : Value} (hv : lookup k (s.fs.records p) = some v) :
    visible (some v) = mapAfter s.hist m.bottom k := by
  rw [← h.bottom k]
  refine congrArg visible (firstHit_eq_of_forall (fun t ht => ?_) ?_).symm
  · rw [LevelManager.readOrder_eq rfl] at ht
    obtain ⟨q, hq, rfl⟩ := List.mem_map.mp ht
    cases hw : lookup k (s.fs.records q) with
    | none => exact Or.inl rfl
    | some w =>
      refine Or.inr ?_
      by_cases hqp : q = p
      · rw [hqp] at hw
        exact hw.symm.trans hv
      · have hapart : LevelManager.Apart s.fs q p := List.Pairwise.forall hdisjoint hq hp hqp
        exact absurd (mem_of_lookup hv)
          (hapart.notMem (hsorted q hq) (hsorted p hp) (mem_of_lookup hw))
  · refine ⟨s.fs.records p, List.mem_map_of_mem ?_, hv⟩
    rw [LevelManager.readOrder_eq rfl]
    exact hp

/-- The renamed file ends a snapshot of everything that has been written. -/
theorem rename (h : s.Layers m) (hsheltered : Sheltered cfg s) (hstamped : Stamped cfg s m)
    {t : Unit} {e : WalEntry} {w : Swapped} (hpc : s.pc t = .flushing e (.written w)) :
    (s.rename t e w).Layers m := by
  obtain ⟨⟨-, hshort, hnew⟩, -⟩ := hsheltered.intact.staged.rename hpc
  have hfs : ∀ p ∈ s.levels.l0 ++ s.levels.l1, (s.rename t e w).fs p = s.fs p := fun p hp =>
    hsheltered.housed.named.fs_rename hpc (hsheltered.housed.tracked hp).1
      (hsheltered.housed.tracked hp).2
  have hstock : s.stock = s.levels.l0 := (stock_of_pc hpc).trans (List.append_nil _)
  obtain ⟨files0, files1, hbacked⟩ := hsheltered.backed
  have hserved := hbacked.served
  rw [show s.pc () = .flushing e (.written w) from hpc] at hserved
  refine ⟨fun k => ?_, fun older p newer hsplit k => ?_⟩
  · change visible (LevelManager.find (s.rename t e w).fs ⟨[[], s.levels.l1]⟩ k) = _
    rw [LevelManager.find_congr fun p hp => hfs p (LevelManager.mem_of_l1 ?_)]
    · exact h.bottom k
    · rw [LevelManager.readOrder_eq rfl] at hp
      exact hp
  · change s.levels.l0 ++ [w.path] = older ++ p :: newer at hsplit
    change visible (LevelManager.find (s.rename t e w).fs ⟨[older ++ [p], s.levels.l1]⟩ k) =
      mapAfter s.hist (m.file p) k
    rcases List.eq_nil_or_concat newer with rfl | ⟨newer, last, rfl⟩
    · -- it is the new file
      obtain ⟨rfl, hlast⟩ := List.append_inj' hsplit rfl
      obtain rfl := List.singleton_inj.mp hlast
      have hcurrent : m.file w.path = (completed s.hist).length :=
        hstamped.current _ (by rw [show s.pc () = .flushing e (.written w) from hpc]; rfl)
      have hadd : (⟨[s.levels.l0 ++ [w.path], s.levels.l1]⟩ : LevelManager) =
          s.levels.addL0File w.path := by
        conv_rhs => rw [hsheltered.housed.levels]
        rfl
      rw [hcurrent, mapAfter_length, ← hserved k, hadd,
        LevelManager.find_addL0File (hnew.stored hshort), hsheltered.housed.find_rename hpc]
      rfl
    · -- it was there before
      rw [List.concat_eq_append, ← List.cons_append, ← List.append_assoc] at hsplit
      obtain ⟨hfront, -⟩ := List.append_inj' hsplit rfl
      rw [LevelManager.find_congr fun q hq => hfs q ?_]
      · exact h.layer older p newer (hstock.trans hfront) k
      · rw [LevelManager.readOrder_eq rfl] at hq
        rw [hfront]
        rcases List.mem_append.mp hq with hq | hq
        · simp only [LevelManager.l0_mk, List.mem_reverse, List.mem_append,
            List.mem_singleton] at hq
          rcases hq with hq | rfl <;> simp [*]
        · exact List.mem_append_right _ hq

end Layers

/-! ### Steps -/

/-- **A compaction finds one value for each key** in L0. -/
def Agrees (s : Sys Unit) : Act Unit → Prop
  | .compact _ _ => ∀ k, oldestL0 s.fs s.levels k = newestL0 s.fs s.levels k
  | _ => True

/-- The path that a step takes from the clock. -/
@[simp] def fresh (cfg : Config) : Act Unit → Option Path
  | .name _ now => some (cfg.nextSstablePath now)
  | .compact _ now => some ⟨cfg.dir, FileName.l1Name now⟩
  | _ => none

end Sys

/-- **No file goes back in time**: those that were there keep their stamps, or rise with L1,
and those that are deleted are no later than L1 is now. -/
structure Stamps.Later (s s' : Sys Unit) (new : Option Path) (m m' : Stamps) : Prop where
  bottom : m.bottom ≤ m'.bottom
  kept : ∀ p, new ≠ some p → m.of s.levels p ≤ m'.of s'.levels p
  left : ∀ p, new ≠ some p → p ∉ s'.levels.l1 → m'.file p = m.of s.levels p
  gone : ∀ p ∈ s.stock ++ s.levels.l1, s'.fs p = none → m.of s.levels p ≤ m'.bottom

namespace Sys

variable {s s' : Sys Unit} {a : Act Unit} {m : Stamps}

theorem later_of_quiet {new : Option Path} (hl1 : s'.levels.l1 = s.levels.l1)
    (hfs : ∀ p ∈ s.stock ++ s.levels.l1, s.fs p ≠ none ∧ s'.fs p = s.fs p) :
    m.Later s s' new m := by
  have hof : ∀ p, m.of s'.levels p = m.of s.levels p := fun p => by
    rw [Stamps.of, Stamps.of, hl1]
  refine ⟨le_rfl, fun p _ => (hof p).ge, fun p _ hp => ?_, fun p hp hnone => ?_⟩
  · rw [Stamps.of, if_neg (hl1 ▸ hp)]
  · obtain ⟨hne, hsame⟩ := hfs p hp
    exact absurd (hsame.symm.trans hnone) hne

namespace Layered

theorem init : Layered cfg Sys.init ⟨fun _ => 0, 0⟩ where
  sheltered := .init
  mirrored := .init
  disjoint := List.Pairwise.nil
  stamped := .init
  layers := ⟨fun _ => rfl, by simp [stock, Sys.init, LevelManager.l0]⟩

/-- The tracked files are there. -/
theorem tracked (h : Layered cfg s m) {p : Path} (hp : p ∈ s.stock ++ s.levels.l1) :
    p.NamedSst ∧ s.fs p ≠ none := (h.mirrored.mem_iff h.sheltered.housed p).mp hp

/-- A file of L0 has the name of a reading. -/
theorem exists_reading (h : Layered cfg s m) {p : Path} (hp : p ∈ s.stock) :
    ∃ c ∈ clocks s.hist, p = cfg.nextSstablePath c.2 := by
  obtain ⟨hfile, n, rfl⟩ := (h.mirrored.shelves.mem0 p).mp hp
  obtain ⟨t, hc⟩ := h.sheltered.housed.named.file n hfile
  exact ⟨_, hc, rfl⟩

theorem file_le (h : Layered cfg s m) {p : Path} (hp : p ∈ s.stock) :
    m.file p ≤ (completed s.hist).length := by
  obtain ⟨c, hc, rfl⟩ := h.exists_reading hp
  exact h.stamped.file_le hc

theorem bottom_le (h : Layered cfg s m) : m.bottom ≤ (completed s.hist).length :=
  h.stamped.bottom_le.trans (settled_le _)

/-- **What a file says was true** at the time of its stamp. -/
theorem tells (h : Layered cfg s m) {p : Path} (hp : p ∈ s.stock ++ s.levels.l1) {k : Key}
    {v : Value} (hv : lookup k (s.fs.records p) = some v) :
    visible (some v) = mapAfter s.hist (m.of s.levels p) k := by
  have hcomplete : ∀ q ∈ s.stock ++ s.levels.l1, s.fs.Complete q := fun q hq =>
    h.sheltered.intact.files q (h.tracked hq).1 (h.tracked hq).2
  rw [Stamps.of]
  split
  · rename_i hl1
    exact h.layers.of_mem_l1 h.disjoint
      (fun q hq => (hcomplete q (List.mem_append_right _ hq)).sorted) hl1 hv
  · rename_i hl1
    exact h.layers.of_mem_stock ((List.mem_append.mp hp).resolve_right hl1) (hcomplete p hp) hv

/-- A file of L0 is not in L1. -/
theorem of_reading (h : Layered cfg s m) (n : ℕ) :
    m.of s.levels (cfg.nextSstablePath n) = m.file (cfg.nextSstablePath n) := by
  refine if_neg fun hm => ?_
  obtain ⟨-, n', hn'⟩ := h.sheltered.housed.l1 _ hm
  exact cfg.nextSstablePath_ne_l1 n n' _ hn'

/-- A step that leaves the SSTables and the lists alone, and the stamps. -/
theorem of_same (h : Layered cfg s m) (hs : Step cfg s a s') (hsheltered : Sheltered cfg s')
    (hmirrored : Mirrored cfg s') (hstamped : Stamped cfg s' m) (hstock : s'.stock = s.stock)
    (hl1 : s'.levels.l1 = s.levels.l1) (hfs : ∀ p : Path, p.NamedSst → s'.fs p = s.fs p) :
    Layered cfg s' m ∧ m.Later s s' (fresh cfg a) m := by
  have hsame : ∀ p ∈ s.stock ++ s.levels.l1, s'.fs p = s.fs p := fun p hp => hfs p (h.tracked hp).1
  refine ⟨⟨hsheltered, hmirrored, ?_, hstamped, h.layers.of_quiet hs (fun p => h.file_le)
    h.bottom_le hstock hl1 hsame⟩, later_of_quiet hl1 fun p hp => ⟨(h.tracked hp).2, hsame p hp⟩⟩
  rw [hl1]
  refine List.Pairwise.imp_of_mem (fun {p q} hp hq hapart => ?_) h.disjoint
  rwa [LevelManager.Apart, Fs.records_congr (hsame p (List.mem_append_right _ hp)),
    Fs.records_congr (hsame q (List.mem_append_right _ hq))]

/-- A step in which nothing is logged either, and no path is taken or given up. -/
theorem of_quiet (h : Layered cfg s m) (hs : Step cfg s a s') (hsheltered : Sheltered cfg s')
    (hmirrored : Mirrored cfg s') (hquiet : s.Quiet a s') (hname : ∀ t now, a ≠ .name t now) :
    Layered cfg s' m ∧ m.Later s s' (fresh cfg a) m := by
  have hafter := hquiet.after
  have hstock : s'.stock = s.stock :=
    stock_eq rfl rfl (by rw [hquiet.levels]) (hafter.trans hquiet.before.symm)
  have hstamped : Stamped cfg s' m := by
    refine h.stamped.of_quiet rfl _ rfl hquiet.logged hquiet.writes (clocks_step hs hname)
      (by rw [hstock]; exact h.stamped.late) (hquiet.path hname) fun e w hpc => ?_
    rw [hpc] at hafter
    exact absurd hafter (List.cons_ne_nil _ _)
  exact h.of_same hs hsheltered hmirrored hstamped hstock (by rw [hquiet.levels]) hquiet.fs

/-- The new path is no file's yet. -/
theorem name (h : Layered cfg s m) {t : Unit} {e : WalEntry} {now : ℕ}
    (hpc : s.pc t = .flushing e .start)
    (hticks : ∀ c ∈ clocks s.hist, c.2 < now ∧ FileName.SameDigits c.2 now)
    (hsheltered : Sheltered cfg (s.name t cfg e now))
    (hmirrored : Mirrored cfg (s.name t cfg e now)) :
    ∃ m', Layered cfg (s.name t cfg e now) m' ∧
      m.Later s (s.name t cfg e now) (some (cfg.nextSstablePath now)) m' := by
  have hkept : ∀ p, some (cfg.nextSstablePath now) ≠ some p →
      Function.update m.file (cfg.nextSstablePath now) (completed s.hist).length p = m.file p :=
    fun p hp => Function.update_of_ne (fun he => hp (congrArg some he.symm)) _ _
  have hstep : Step cfg s (.name t now) (s.name t cfg e now) := .name hpc
  have hlayers := h.layers.of_quiet hstep (fun p => h.file_le) h.bottom_le
    (stock_eq hpc rfl rfl rfl) rfl fun _ _ => rfl
  have hstocked : ∀ p ∈ s.stock, some (cfg.nextSstablePath now) ≠ some p := by
    intro p hp he
    obtain ⟨c, hc, hpath⟩ := h.exists_reading hp
    have hlt : (cfg.nextSstablePath c.2).name < (cfg.nextSstablePath now).name :=
      FileName.l0Name_lt (hticks c hc).2 (hticks c hc).1
    rw [← hpath, Option.some.inj he] at hlt
    exact lt_irrefl _ hlt
  refine ⟨_, ⟨hsheltered, hmirrored, h.disjoint,
    h.stamped.name h.mirrored h.sheltered.housed hpc hticks, hlayers.bottom,
    fun older p newer hsplit k => ?_⟩, le_rfl, fun p hp => ?_, fun p hp hl1 => ?_,
    fun p hp hgone => absurd hgone (h.tracked hp).2⟩
  · rw [hlayers.layer older p newer hsplit k]
    change _ = mapAfter _ (Function.update m.file _ _ p) k
    rw [hkept p (hstocked p ?_)]
    have hstock : (s.name t cfg e now).stock = s.stock := stock_eq hpc rfl rfl rfl
    rw [← hstock, hsplit]
    exact List.mem_append_right _ List.mem_cons_self
  · change m.of s.levels p ≤ if _ then m.bottom else Function.update m.file _ _ p
    rw [hkept p hp]
    rfl
  · change Function.update m.file _ _ p = m.of s.levels p
    rw [hkept p hp]
    exact (if_neg hl1).symm

theorem rename (h : Layered cfg s m) {t : Unit} {e : WalEntry} {w : Swapped}
    (hpc : s.pc t = .flushing e (.written w)) (hsheltered : Sheltered cfg (s.rename t e w))
    (hmirrored : Mirrored cfg (s.rename t e w)) :
    Layered cfg (s.rename t e w) m ∧ m.Later s (s.rename t e w) none m := by
  have hstep : Step cfg s (.rename t) (s.rename t e w) := .rename hpc
  have hfs : ∀ p ∈ s.stock ++ s.levels.l1, (s.rename t e w).fs p = s.fs p := fun p hp =>
    h.sheltered.housed.named.fs_rename hpc (h.tracked hp).1 (h.tracked hp).2
  have hstocked : ∀ p ∈ (s.rename t e w).stock, p ∈ s.stock ∨ p = w.path := by
    intro p hp
    rcases List.mem_append.mp hp with hp | hp
    · exact Or.inl (List.mem_append_left _ hp)
    · exact Or.inr (List.mem_singleton.mp hp)
  refine ⟨⟨hsheltered, hmirrored, ?_, ?_, h.layers.rename h.sheltered h.stamped hpc⟩,
    later_of_quiet rfl fun p hp => ⟨(h.tracked hp).2, hfs p hp⟩⟩
  · refine List.Pairwise.imp_of_mem (fun {p q} hp hq hapart => ?_) h.disjoint
    rwa [LevelManager.Apart, Fs.records_congr (hfs p (List.mem_append_right _ hp)),
      Fs.records_congr (hfs q (List.mem_append_right _ hq))]
  · refine h.stamped.of_quiet hpc (.flushing e (.renamed w)) rfl rfl
      (completed_step hstep (by simp)) rfl (fun p hp => ?_) rfl (by simp)
    rcases hstocked p hp with hp | rfl
    · exact h.stamped.late p hp
    · have hpath : (s.pc ()).path = some w.path := by
        rw [show s.pc () = .flushing e (.written w) from hpc]
        rfl
      rw [h.stamped.current _ hpath]
      exact h.bottom_le

/-- The files of L0 come with rising stamps. -/
theorem file_mono (h : Layered cfg s m) {p q : Path} (hp : p ∈ s.stock) (hq : q ∈ s.stock)
    (hle : p.name ≤ q.name) : m.file p ≤ m.file q := by
  obtain ⟨c, hc, rfl⟩ := h.exists_reading hp
  obtain ⟨c', hc', rfl⟩ := h.exists_reading hq
  exact h.stamped.rising c hc c' hc' hle

section Compact

variable (h : Layered cfg s m) {now : ℕ} {oldest newest : Path} {older : List Path}
  (hl0 : s.levels.l0 = older ++ [newest])
  (hswept : LevelManager.Swept now s.fs s.levels oldest (s.compact cfg .whole now).levels
    (s.compact cfg .whole now).fs)

include h hl0 hswept

omit h hl0 in
theorem stock_compact : (s.compact cfg .whole now).stock = (s.pc ()).landed := by
  rw [Sys.stock, hswept.levels]
  rfl

omit h hswept in
theorem newest_mem : newest ∈ s.levels.l0 := by
  rw [hl0]
  exact List.mem_append_right _ (List.mem_singleton_self _)

omit hswept in
/-- No file of L0 is newer than the newest. -/
theorem file_le_newest {p : Path} (hp : p ∈ s.levels.l0) : m.file p ≤ m.file newest := by
  have hstocked : ∀ p ∈ s.levels.l0, p ∈ s.stock := fun p hp => List.mem_append_left _ hp
  have hsorted := h.mirrored.shelves.sorted0
  rw [Sys.stock, hl0, List.append_assoc] at hsorted
  refine h.file_mono (hstocked p hp) (hstocked newest (newest_mem hl0)) ?_
  rw [hl0, List.mem_append, List.mem_singleton] at hp
  rcases hp with hp | rfl
  · exact le_of_lt ((List.pairwise_append.mp hsorted).2.2 p hp newest List.mem_cons_self)
  · exact le_rfl

omit hswept in
/-- The file that is on its way to L0 is. -/
theorem newest_le_file {p : Path} (hp : p ∈ (s.pc ()).landed) : m.file newest ≤ m.file p := by
  have hsorted := h.mirrored.shelves.sorted0
  rw [Sys.stock] at hsorted
  exact h.file_mono (List.mem_append_left _ (newest_mem hl0)) (List.mem_append_right _ hp)
    (le_of_lt ((List.pairwise_append.mp hsorted).2.2 newest (newest_mem hl0) p hp))

/-- L1 has the stamp of the newest file that has been merged. -/
theorem stamped_compact : Stamped cfg (s.compact cfg .whole now)
    ⟨m.of s.levels, m.file newest⟩ := by
  have hstep : Step cfg s (.compact .whole now) (s.compact cfg .whole now) := .compact
  have hlog : log (s.compact cfg .whole now).hist = log s.hist := log_append _ _
  have hcompleted := completed_step hstep (by simp)
  have hclocks := clocks_step hstep (by simp)
  have hsettled := settled_congr hlog hcompleted
  refine ⟨by rw [hlog, hcompleted]; exact h.stamped.suffix, ?_, ?_, ?_, ?_, ?_, ?_⟩
  · rw [hlog]
    exact h.stamped.emptied
  · rw [hclocks]
    intro c hc c' hc' hle
    change m.of s.levels _ ≤ m.of s.levels _
    rw [h.of_reading, h.of_reading]
    exact h.stamped.rising c hc c' hc' hle
  · rw [stock_compact hswept]
    intro p hp
    obtain ⟨c, hc, rfl⟩ := h.exists_reading (List.mem_append_right _ hp)
    change m.file newest ≤ m.of s.levels _
    rw [h.of_reading]
    exact h.newest_le_file hl0 hp
  · rw [hclocks, hsettled]
    intro c hc
    change m.of s.levels _ ≤ _ ∨ _
    rw [h.of_reading]
    exact h.stamped.old c hc
  · intro p hp
    obtain ⟨n, -, rfl⟩ := (h.sheltered.housed.named.pc ()).exists_path hp
    rw [hcompleted]
    exact (h.of_reading n).trans (h.stamped.current _ hp)
  · rw [hsettled]
    obtain ⟨c, hc, rfl⟩ := h.exists_reading (List.mem_append_left _ (newest_mem hl0))
    exact (h.stamped.old c hc).resolve_right
      (h.sheltered.housed.apart () _ (newest_mem hl0))

/-- And it shows what had been written then, as nobody sees the compaction. -/
theorem layers_compact (houtput : LevelManager.outputPath now oldest =
      ⟨cfg.dir, FileName.l1Name now⟩) (hunseen : s.Unseen cfg .whole now)
    (hintact : Intact cfg (s.compact cfg .whole now))
    (hhoused : Housed cfg (s.compact cfg .whole now)) :
    (s.compact cfg .whole now).Layers ⟨m.of s.levels, m.file newest⟩ := by
  have hstep : Step cfg s (.compact .whole now) (s.compact cfg .whole now) := .compact
  have hlevels : (s.compact cfg .whole now).levels =
      ⟨[[], (s.compact cfg .whole now).levels.l1]⟩ :=
    LevelManager.levels_compact_two h.sheltered.housed.levels _ _ _ _ _
  have hserved : ∀ k, visible ((s.compact cfg .whole now).levels.find
      (s.compact cfg .whole now).fs k) = visible (s.levels.find s.fs k) := fun k => by
    have hsame := hunseen.served k
    rw [h.sheltered.intact.searchLevels_eq h.sheltered.housed,
      hintact.searchLevels_eq hhoused] at hsame
    exact Except.ok.inj hsame
  have hfind : ∀ k, s.levels.find s.fs k =
      (⟨[older ++ [newest], s.levels.l1]⟩ : LevelManager).find s.fs k := fun k => by
    conv_lhs => rw [h.sheltered.housed.levels, hl0]
  refine ⟨fun k => ?_, fun before p after hsplit k => ?_⟩
  · -- all of L0 and L1, which was the snapshot of the newest file, is in L1 now
    rw [← hlevels, hserved, hfind, mapAfter_step hstep (h.file_le
      (List.mem_append_left _ (newest_mem hl0)))]
    refine h.layers.layer older newest (s.pc ()).landed ?_ k
    rw [Sys.stock, hl0, List.append_assoc]
    rfl
  · -- the file on its way is the only one left
    rw [stock_compact hswept] at hsplit
    obtain ⟨rfl, rfl⟩ := Pc.of_landed hsplit
    have hp : p ∈ s.stock := List.mem_append_right _ (hsplit ▸ List.mem_singleton_self p)
    obtain ⟨hnamed, hne⟩ := h.tracked (List.mem_append_left _ hp)
    have hcomplete : s.fs.Complete p := h.sheltered.intact.files p hnamed hne
    have hbefore := h.layers.layer s.levels.l0 p [] (by rw [Sys.stock, hsplit]; rfl) k
    have hleft := (h.mirrored.mem_left_iff p).mp
      (List.mem_append_left _ (hsplit ▸ List.mem_singleton_self p))
    have hadd : ∀ (files0 files1 : List Path) (p : Path),
        (⟨[files0 ++ [p], files1]⟩ : LevelManager) =
          (⟨[files0, files1]⟩ : LevelManager).addL0File p := fun _ _ _ => rfl
    obtain ⟨c, -, rfl⟩ := h.exists_reading hp
    have hsame : (s.compact cfg .whole now).fs (cfg.nextSstablePath c.2) =
        s.fs (cfg.nextSstablePath c.2) := by
      refine hswept.kept _ hnamed ?_ hleft.2
      rw [houtput]
      exact cfg.nextSstablePath_ne_l1 c.2 now _
    change _ = mapAfter _ (m.of s.levels _) k
    rw [h.of_reading, mapAfter_step hstep (h.file_le hp), ← hbefore, hadd, hadd,
      LevelManager.find_addL0File (hcomplete.congr hsame), LevelManager.find_addL0File hcomplete,
      Fs.records_congr hsame, ← hlevels, ← h.sheltered.housed.levels]
    exact visible_or_congr (hserved k) _

theorem later_compact (houtput : LevelManager.outputPath now oldest =
      ⟨cfg.dir, FileName.l1Name now⟩) :
    m.Later s (s.compact cfg .whole now) (some ⟨cfg.dir, FileName.l1Name now⟩)
      ⟨m.of s.levels, m.file newest⟩ := by
  have hbottom : m.bottom ≤ m.file newest :=
    h.stamped.late newest (List.mem_append_left _ (newest_mem hl0))
  have hl1 : ∀ p, p ∈ (s.compact cfg .whole now).levels.l1 →
      some (⟨cfg.dir, FileName.l1Name now⟩ : Path) ≠ some p → p ∈ s.levels.l1 := by
    intro p hp hne
    rw [hswept.levels, houtput] at hp
    rcases List.mem_append.mp hp with hp | hp
    · exact LevelManager.mem_of_untouched hp
    · exact absurd (congrArg some (List.mem_singleton.mp hp).symm) hne
  refine ⟨hbottom, fun p hp => ?_, fun p hp hnot => rfl, fun p hp hgone => ?_⟩
  · by_cases hm : p ∈ (s.compact cfg .whole now).levels.l1
    · have hbefore : m.of s.levels p = m.bottom := if_pos (hl1 p hm hp)
      have hafter : Stamps.of ⟨m.of s.levels, m.file newest⟩ (s.compact cfg .whole now).levels p =
          m.file newest := if_pos hm
      rw [hbefore, hafter]
      exact hbottom
    · exact (if_neg hm).ge
  · rcases List.mem_append.mp hp with hp | hp
    · rw [Stamps.of, if_neg (h.mirrored.notMem_l1 hp)]
      rcases List.mem_append.mp hp with hp | hp
      · exact h.file_le_newest hl0 hp
      · -- the file on its way has not been deleted
        have hfile := (h.mirrored.file_iff h.sheltered.housed (h.tracked
          (List.mem_append_left _ (List.mem_append_right _ hp))).1 hswept).mpr
            (Or.inl (List.mem_append_left _ hp))
        exact absurd hgone hfile
    · exact (if_pos hp).le.trans hbottom

end Compact

/-- **A compaction takes L1 forward** to the newest file it merges. -/
theorem compact (h : Layered cfg s m) {now : ℕ}
    (hok : (s.levels.compact cfg.sizing cfg.heap .whole now s.fs).1 = .ok ())
    (hclock : ∀ n, ⟨cfg.dir, FileName.l1Name n⟩ ∈ s.levels.l1 →
      n < now ∧ FileName.SameDigits n now)
    (hagree : ∀ k, oldestL0 s.fs s.levels k = newestL0 s.fs s.levels k) :
    ∃ m', Layered cfg (s.compact cfg .whole now) m' ∧
      m.Later s (s.compact cfg .whole now) (some ⟨cfg.dir, FileName.l1Name now⟩) m' := by
  have hhoused := h.sheltered.housed
  have hunseen := h.sheltered.unseen_of_ok h.mirrored h.disjoint hok hagree hclock
  have hstep : Step cfg s (.compact .whole now) (s.compact cfg .whole now) := .compact
  have hsheltered := h.sheltered.step hstep hunseen trivial trivial
  have hmirrored := h.mirrored.compact hhoused hok hclock
  have hlog : log (s.compact cfg .whole now).hist = log s.hist := log_append _ _
  have hcompleted := completed_step hstep (by simp)
  have hclocks := clocks_step hstep (by simp)
  cases hl0 : s.levels.l0 with
  | nil =>
    obtain ⟨hlevels, hfs⟩ := hhoused.compact_nil hl0
    have hstock : (s.compact cfg .whole now).stock = s.stock :=
      stock_eq rfl rfl (congrArg _ hlevels) rfl
    refine ⟨m, h.of_same hstep hsheltered hmirrored ?_ hstock (congrArg _ hlevels)
      fun p _ => by rw [hfs]⟩
    exact h.stamped.of_quiet rfl _ rfl hlog hcompleted hclocks
      (by rw [hstock]; exact h.stamped.late) rfl fun _ _ hpc => hpc
  | cons oldest more =>
    have ho : s.levels.l0.head? = some oldest := by rw [hl0]; rfl
    have hswept := Mirrored.swept hhoused hok hclock ho
    have houtput : LevelManager.outputPath now oldest = ⟨cfg.dir, FileName.l1Name now⟩ :=
      hhoused.outputPath_eq (List.mem_of_head? ho)
    obtain ⟨older, newest, hnewest⟩ : ∃ older newest, s.levels.l0 = older ++ [newest] := by
      rcases List.eq_nil_or_concat s.levels.l0 with hnil | ⟨older, newest, hconcat⟩
      · rw [hl0] at hnil
        exact absurd hnil (List.cons_ne_nil _ _)
      · exact ⟨older, newest, by rw [hconcat, List.concat_eq_append]⟩
    have hcompact := compact_eq_ok hok
    refine ⟨⟨m.of s.levels, m.file newest⟩, ⟨hsheltered, hmirrored, ?_,
      h.stamped_compact hnewest hswept, h.layers_compact hnewest hswept houtput hunseen
        hsheltered.intact hsheltered.housed⟩, h.later_compact hnewest hswept houtput⟩
    -- the output has no key of a file that is left out
    have hdisjoint := LevelManager.rangesDisjoint_compact (fun _ => rfl) (fun _ => rfl)
      (fun p hp => (h.sheltered.intact.complete hhoused hp).sorted) ho hcompact
      (fun q hq => (hhoused.tracked (LevelManager.mem_of_l1 hq)).1) h.disjoint fun hm =>
        hhoused.outputPath_notMem (List.mem_of_head? ho) hunseen.new
          (LevelManager.mem_of_l1 (LevelManager.mem_of_untouched hm))
    rw [hswept.levels]
    exact hdisjoint

/-- **One step**: the files keep their order in time. -/
theorem step (h : Layered cfg s m) (hs : Step cfg s a s') (hcompletes : s.Completes cfg a)
    (hclocked : s.Clocked cfg a) (hfits : a.Fits) (hagrees : s.Agrees a) :
    ∃ m', Layered cfg s' m' ∧ m.Later s s' (fresh cfg a) m' := by
  by_cases hcompact : ∃ io now, a = .compact io now
  · obtain ⟨io, now, rfl⟩ := hcompact
    obtain ⟨rfl, hok⟩ := hcompletes
    cases hs with
    | compact => exact h.compact hok hclocked hagrees
  have hserves : a.Serves := by
    cases a with
    | compact io now => exact absurd ⟨io, now, rfl⟩ hcompact
    | _ => exact hcompletes
  have hticks : s.Ticks a := by
    cases a with
    | compact io now => exact absurd ⟨io, now, rfl⟩ hcompact
    | _ => exact hclocked
  have hharmless : s.Harmless cfg a := by
    cases a with
    | compact | restart | appendFails | flushFails | truncateFails => exact hserves.elim
    | _ => trivial
  have hsheltered := h.sheltered.step hs hharmless hticks hfits
  have hmirrored := h.mirrored.step h.sheltered.housed hs hcompletes hclocked
  by_cases hname : ∃ t now, a = .name t now
  · obtain ⟨t, now, rfl⟩ := hname
    cases hs with
    | name hpc => exact h.name hpc hticks hsheltered hmirrored
  by_cases hquiet : a.Quiet
  · exact ⟨m, h.of_quiet hs hsheltered hmirrored (quiet_step hs hserves.succeeds.whole hquiet)
      fun t now he => hname ⟨t, now, he⟩⟩
  cases hs with
  | @append t e hpc hlock =>
    exact ⟨m, h.of_same (.append hpc hlock) hsheltered hmirrored (h.stamped.append hpc)
      (stock_eq hpc rfl rfl rfl) rfl fun _ _ => rfl⟩
  | @rename t e w hpc => exact ⟨m, h.rename hpc hsheltered hmirrored⟩
  | @truncate t e w hpc =>
    exact ⟨m, h.of_same (.truncate hpc) hsheltered hmirrored (h.stamped.truncate hpc)
      (stock_eq hpc rfl rfl rfl) rfl fun _ _ => rfl⟩
  | @publish t e w hpc =>
    exact ⟨m, h.of_same (.publish hpc) hsheltered hmirrored (h.stamped.publish hpc)
      (stock_publish hpc) (s.levels.l1_addL0File w.path) fun _ _ => rfl⟩
  | compact | restart | appendFails | flushFails | truncateFails => exact hserves.elim
  | call | insert | fill | name | swap | create | write | finish | hit | miss | search =>
    exact absurd trivial hquiet

end Layered

end Sys

end Tabula
