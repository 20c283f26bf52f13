import Tabula.Lsm.RecoveredLists

/-!
# When the files date from

A flush writes all that the log has, so its file dates from the moment at which the log was
swapped out. Times are counted in completed writes (`Tabula.Sys.mapAfter`): a file has a
stamp, and so has L1 (`Tabula.Stamps`). The stamps of the files rise with their names, and
what is not in the log any more is in files with stamps up to there
(`Tabula.Sys.Stamped`).
-/

namespace Tabula

variable {cfg : Config}

theorem latest_append (es es' : List WalEntry) (k : Key) :
    MemTable.latest (es ++ es') k = (MemTable.latest es' k).or (MemTable.latest es k) := by
  rw [MemTable.latest, MemTable.latest, MemTable.latest, List.reverse_append, List.find?_append]
  cases es'.reverse.find? fun e => e.key = k <;> rfl

namespace Sys

/-! ### Times -/

/-- The map of the first completed writes. -/
def mapAfter {T : Type} (hist : List (Event T)) (n : ℕ) : Key → Option Value :=
  ((completed hist).take n).foldl WalEntry.onMap fun _ => none

/-- How many of the completed writes are not in the log any more. -/
def settled {T : Type} (hist : List (Event T)) : ℕ :=
  (completed hist).length - (log hist).length

variable {s s' : Sys Unit} {a : Act Unit}

theorem mapAfter_length {T : Type} (hist : List (Event T)) :
    mapAfter hist (completed hist).length = map hist := by
  rw [mapAfter, List.take_length]
  rfl

/-- The past does not change. -/
theorem mapAfter_step (hs : Step cfg s a s') {n : ℕ} (hn : n ≤ (completed s.hist).length) :
    mapAfter s'.hist n = mapAfter s.hist n := by
  obtain ⟨more, hmore⟩ : completed s.hist <+: completed s'.hist :=
    hs.hist_grows.filterMap Event.completion
  rw [mapAfter, mapAfter, ← hmore, List.take_append_of_le_length hn]

theorem length_completed_step (hs : Step cfg s a s') :
    (completed s.hist).length ≤ (completed s'.hist).length :=
  (hs.hist_grows.filterMap Event.completion).length_le

theorem settled_le {T : Type} (hist : List (Event T)) : settled hist ≤ (completed hist).length :=
  Nat.sub_le _ _

/-- With an empty log everything has left it. -/
theorem settled_of_nil {T : Type} {hist : List (Event T)} (hlog : log hist = []) :
    settled hist = (completed hist).length := by
  rw [settled, hlog]
  rfl

theorem settled_congr {T : Type} {hist hist' : List (Event T)} (hlog : log hist' = log hist)
    (hcompleted : completed hist' = completed hist) : settled hist' = settled hist := by
  rw [settled, settled, hlog, hcompleted]

theorem settled_append {T : Type} (hist : List (Event T)) (t : T) (e : WalEntry) :
    settled (hist ++ [.appended t e]) = settled hist := by
  have hlog : log (hist ++ [.appended t e]) = log hist ++ [e] := log_append _ _
  have hcompleted : completed (hist ++ [.appended t e]) = completed hist ++ [e] :=
    List.filterMap_append
  rw [settled, settled, hlog, hcompleted, List.length_append, List.length_append,
    Nat.add_sub_add_right]

theorem settled_truncate {T : Type} (hist : List (Event T)) (t : T) :
    settled (hist ++ [.truncated t]) = (completed hist).length := by
  have hcompleted : completed (hist ++ [.truncated t]) = completed hist :=
    List.filterMap_append.trans (List.append_nil _)
  rw [settled_of_nil (log_append _ _), hcompleted]

theorem completes_whole (hcompletes : s.Completes cfg a) : a.Whole := by
  cases a with
  | appendFails => exact hcompletes.elim
  | _ => trivial

/-- Without a truncate the log only grows. -/
theorem wal_step (hs : Step cfg s a s') (hcompletes : s.Completes cfg a)
    (htruncate : ∀ t, a ≠ .truncate t) :
    s.wal <+: s'.wal ∧ settled s'.hist = settled s.hist := by
  have hcompleted := completed_step hs
  have hlog := log_step_whole hs (completes_whole hcompletes)
  cases hs with
  | append => exact ⟨List.prefix_append _ _, settled_append _ _ _⟩
  | truncate => exact absurd rfl (htruncate _)
  | truncateFails => exact hcompletes.elim
  | _ =>
    obtain ⟨hlog, hwal⟩ := hlog (by simp) (by simp)
    exact ⟨hwal ▸ List.prefix_rfl, settled_congr hlog (hcompleted (by simp))⟩

/-- What has left the log does not come back to it. -/
theorem settled_step (hs : Step cfg s a s') (hcompletes : s.Completes cfg a) :
    settled s.hist ≤ settled s'.hist := by
  by_cases htruncate : ∀ t, a ≠ .truncate t
  · exact (wal_step hs hcompletes htruncate).2.ge
  · obtain ⟨t, rfl⟩ := not_forall_not.mp htruncate
    cases hs with
    | truncate => exact (settled_le _).trans (settled_truncate _ _).ge

/-- **The beginning of the log says what was written last** up to its end. -/
theorem mapAfter_of_log {T : Type} {hist : List (Event T)} (hsuffix : log hist <:+ completed hist)
    {es : List WalEntry} (hes : es <+: log hist) {k : Key} {v : Value}
    (hv : (MemTable.new.applyAll es).get k = some v) :
    visible (some v) = mapAfter hist (settled hist + es.length) k := by
  obtain ⟨old, hold⟩ := hsuffix
  obtain ⟨rest, hrest⟩ := hes
  have hsettled : settled hist = old.length := by
    rw [settled, ← hold, List.length_append, Nat.add_sub_cancel]
  have htake : (completed hist).take (settled hist + es.length) = old ++ es := by
    rw [hsettled, ← hold, ← hrest, ← List.append_assoc, ← List.length_append, List.take_left]
  have hmap : mapAfter hist (settled hist + es.length) k =
      visible ((MemTable.new.applyAll (old ++ es)).get k) := by
    rw [mapAfter, htake]
    exact (congrFun (visible_get_applyAll .new (old ++ es)) k).symm
  rw [MemTable.get_applyAll_new] at hv
  rw [hmap, MemTable.get_applyAll_new, latest_append, hv, Option.some_or]

end Sys

/-- At most one file is on its way. -/
theorem Pc.of_landed {pc : Pc} {before after : List Path} {p : Path}
    (h : pc.landed = before ++ p :: after) : before = [] ∧ after = [] := by
  have hlen : pc.landed.length ≤ 1 := by
    cases pc with
    | flushing e f => cases f <;> simp
    | _ => simp
  rw [h, List.length_append, List.length_cons] at hlen
  exact ⟨List.length_eq_zero_iff.mp (by omega), List.length_eq_zero_iff.mp (by omega)⟩

/-- **When the files date from**: how many writes had completed when what a file holds was
taken out of the MemTable, and which of them L1 shows. -/
structure Stamps where
  file : Path → ℕ
  bottom : ℕ

/-- The stamp of a file, which is that of L1 as long as the file is in L1. -/
def Stamps.of (m : Stamps) (lm : LevelManager) (p : Path) : ℕ :=
  if p ∈ lm.l1 then m.bottom else m.file p

namespace Sys

variable {s s' : Sys Unit} {a : Act Unit} {m : Stamps}

/-- **The stamps rise with the names**, and what is not in the log any more is in files with
stamps up to there. -/
structure Stamped (cfg : Config) (s : Sys Unit) (m : Stamps) : Prop where
  suffix : log s.hist <:+ completed s.hist
  emptied : ∀ e w, s.pc () = .flushing e (.truncated w) → log s.hist = []
  rising : ∀ c ∈ clocks s.hist, ∀ c' ∈ clocks s.hist,
    (cfg.nextSstablePath c.2).name ≤ (cfg.nextSstablePath c'.2).name →
      m.file (cfg.nextSstablePath c.2) ≤ m.file (cfg.nextSstablePath c'.2)
  late : ∀ p ∈ s.stock, m.bottom ≤ m.file p
  old : ∀ c ∈ clocks s.hist, m.file (cfg.nextSstablePath c.2) ≤ settled s.hist ∨
    (s.pc ()).path = some (cfg.nextSstablePath c.2)
  current : ∀ p, (s.pc ()).path = some p → m.file p = (completed s.hist).length
  bottom_le : m.bottom ≤ settled s.hist

namespace Stamped

theorem init : Stamped cfg Sys.init ⟨fun _ => 0, 0⟩ where
  suffix := List.suffix_rfl
  emptied := by simp [Sys.init]
  rising := by simp [Sys.init, clocks]
  late := fun _ _ => le_rfl
  old := by simp [Sys.init, clocks]
  current := by simp [Sys.init]
  bottom_le := le_rfl

/-- Every stamp of a reading is in the past. -/
theorem file_le (h : Stamped cfg s m) {c : Unit × ℕ} (hc : c ∈ clocks s.hist) :
    m.file (cfg.nextSstablePath c.2) ≤ (completed s.hist).length := by
  rcases h.old c hc with hle | hpath
  · exact hle.trans (settled_le _)
  · exact (h.current _ hpath).le

/-- A step in which nothing is logged, and no path is taken or given up. -/
theorem of_quiet (h : Stamped cfg s m) {pc : Pc} (hpc : s.pc () = pc) (pc' : Pc)
    (hpc' : s'.pc () = pc') (hlog : log s'.hist = log s.hist)
    (hcompleted : completed s'.hist = completed s.hist) (hclocks : clocks s'.hist = clocks s.hist)
    (hlate : ∀ p ∈ s'.stock, m.bottom ≤ m.file p) (hpath : pc'.path = pc.path)
    (htruncated : ∀ e w, pc' = .flushing e (.truncated w) → pc = .flushing e (.truncated w)) :
    Stamped cfg s' m := by
  subst hpc hpc'
  have hsettled := settled_congr hlog hcompleted
  refine ⟨by rw [hlog, hcompleted]; exact h.suffix, fun e w hpc => ?_,
    by rw [hclocks]; exact h.rising, hlate, by rw [hclocks, hsettled, hpath]; exact h.old,
    by rw [hpath, hcompleted]; exact h.current, by rw [hsettled]; exact h.bottom_le⟩
  rw [hlog]
  exact h.emptied e w (htruncated e w hpc)

theorem append (h : Stamped cfg s m) {t : Unit} {e : WalEntry} (hpc : s.pc t = .logging e) :
    Stamped cfg (s.append t e) m := by
  have hlog : log (s.append t e).hist = log s.hist ++ [e] := log_append _ _
  have hcompleted : completed (s.append t e).hist = completed s.hist ++ [e] :=
    List.filterMap_append
  have hclocks : clocks (s.append t e).hist = clocks s.hist :=
    (clocks_append _ _).trans (List.append_nil _)
  have hsettled : settled (s.append t e).hist = settled s.hist := settled_append _ _ _
  have hnone : (s.pc ()).path = none := by
    change (s.pc t).path = none
    rw [hpc]
    rfl
  have hstock : (s.append t e).stock = s.stock := stock_eq hpc rfl rfl rfl
  refine ⟨?_, by simp [Sys.append, goto], by rw [hclocks]; exact h.rising,
    by rw [hstock]; exact h.late, ?_, by simp [Sys.append, goto],
    by rw [hsettled]; exact h.bottom_le⟩
  · obtain ⟨old, hold⟩ := h.suffix
    exact ⟨old, by rw [hlog, hcompleted, ← hold, List.append_assoc]⟩
  · rw [hclocks, hsettled]
    refine fun c hc => Or.inl ((h.old c hc).resolve_right fun hpath => ?_)
    rw [hnone] at hpath
    exact absurd hpath.symm (Option.some_ne_none _)

/-- A new path has the latest name, and the stamp of the time. -/
theorem name (h : Stamped cfg s m) (hmirrored : Mirrored cfg s) (hhoused : Housed cfg s) {t : Unit}
    {e : WalEntry} {now : ℕ} (hpc : s.pc t = .flushing e .start)
    (hticks : ∀ c ∈ clocks s.hist, c.2 < now ∧ FileName.SameDigits c.2 now) :
    Stamped cfg (s.name t cfg e now)
      ⟨Function.update m.file (cfg.nextSstablePath now) (completed s.hist).length, m.bottom⟩ := by
  have hstep : Step cfg s (.name t now) (s.name t cfg e now) := .name hpc
  have hlog : log (s.name t cfg e now).hist = log s.hist := log_append _ _
  have hcompleted := completed_step hstep (by simp)
  have hclocks : clocks (s.name t cfg e now).hist = clocks s.hist ++ [(t, now)] :=
    clocks_append _ _
  have hsettled := settled_congr hlog hcompleted
  have hnone : (s.pc ()).path = none := by
    change (s.pc t).path = none
    rw [hpc]
    rfl
  have hstock : (s.name t cfg e now).stock = s.stock := stock_eq hpc rfl rfl rfl
  have hlt : ∀ c ∈ clocks s.hist,
      (cfg.nextSstablePath c.2).name < (cfg.nextSstablePath now).name := fun c hc =>
    FileName.l0Name_lt (hticks c hc).2 (hticks c hc).1
  have hne : ∀ c ∈ clocks s.hist, cfg.nextSstablePath c.2 ≠ cfg.nextSstablePath now := by
    intro c hc he
    have := hlt c hc
    rw [he] at this
    exact lt_irrefl _ this
  have hkept : ∀ c ∈ clocks s.hist, Function.update m.file (cfg.nextSstablePath now)
      (completed s.hist).length (cfg.nextSstablePath c.2) = m.file (cfg.nextSstablePath c.2) :=
    fun c hc => Function.update_of_ne (hne c hc) _ _
  refine ⟨by rw [hlog, hcompleted]; exact h.suffix, by simp [Sys.name, goto],
    fun c hc c' hc' hle => ?_, fun p hp => ?_, fun c hc => ?_, fun p hp => ?_,
    by rw [hsettled]; exact h.bottom_le⟩
  · -- the new reading has the latest name, and the latest stamp
    rw [hclocks, List.mem_append, List.mem_singleton] at hc hc'
    change Function.update m.file _ _ _ ≤ Function.update m.file _ _ _
    rcases hc with hc | rfl
    · rw [hkept c hc]
      rcases hc' with hc' | rfl
      · rw [hkept c' hc']
        exact h.rising c hc c' hc' hle
      · rw [Function.update_self]
        exact h.file_le hc
    · rcases hc' with hc' | rfl
      · exact absurd hle (not_le.mpr (hlt c' hc'))
      · exact le_rfl
  · -- a file of L0 has the name of an earlier reading
    rw [hstock] at hp
    obtain ⟨hfile, n, rfl⟩ := (hmirrored.shelves.mem0 p).mp hp
    obtain ⟨t', hc⟩ := hhoused.named.file n hfile
    change m.bottom ≤ Function.update m.file _ _ _
    rw [hkept _ hc]
    exact h.late _ hp
  · rw [hclocks, List.mem_append, List.mem_singleton] at hc
    rw [hsettled]
    rcases hc with hc | rfl
    · refine Or.inl ?_
      change Function.update m.file _ _ _ ≤ _
      rw [hkept c hc]
      refine (h.old c hc).resolve_right fun hpath => ?_
      rw [hnone] at hpath
      exact absurd hpath.symm (Option.some_ne_none _)
    · exact Or.inr rfl
  · obtain rfl := Option.some.inj hp
    rw [hcompleted]
    exact Function.update_self _ _ _

/-- With the log, what has no stamp yet goes into the past. -/
theorem truncate (h : Stamped cfg s m) {t : Unit} {e : WalEntry} {w : Swapped}
    (hpc : s.pc t = .flushing e (.renamed w)) : Stamped cfg (s.truncate t e w) m := by
  have hstep : Step cfg s (.truncate t) (s.truncate t e w) := .truncate hpc
  have hlog : log (s.truncate t e w).hist = [] := log_append _ _
  have hcompleted := completed_step hstep (by simp)
  have hclocks := clocks_step hstep (by simp)
  have hsettled : settled (s.truncate t e w).hist = (completed s.hist).length :=
    settled_truncate _ _
  have hpath : ((s.truncate t e w).pc ()).path = (s.pc ()).path := by
    change _ = (s.pc t).path
    rw [hpc]
    rfl
  have hstock : (s.truncate t e w).stock = s.stock := stock_eq hpc rfl rfl rfl
  refine ⟨by rw [hlog]; exact List.nil_suffix, fun _ _ _ => hlog,
    by rw [hclocks]; exact h.rising, by rw [hstock]; exact h.late, ?_,
    by rw [hpath, hcompleted]; exact h.current,
    by rw [hsettled]; exact h.bottom_le.trans (settled_le _)⟩
  rw [hclocks, hsettled]
  exact fun c hc => Or.inl (h.file_le hc)

/-- The file of the flush dates from the last truncate. -/
theorem publish (h : Stamped cfg s m) {t : Unit} {e : WalEntry} {w : Swapped}
    (hpc : s.pc t = .flushing e (.truncated w)) : Stamped cfg (s.publish t e w) m := by
  have hstep : Step cfg s (.publish t) (s.publish t e w) := .publish hpc
  have hlog : log (s.publish t e w).hist = log s.hist := log_append _ _
  have hcompleted := completed_step hstep (by simp)
  have hclocks := clocks_step hstep (by simp)
  have hsettled : settled (s.publish t e w).hist = (completed s.hist).length :=
    (settled_congr hlog hcompleted).trans (settled_of_nil (h.emptied e w hpc))
  have hstock : (s.publish t e w).stock = s.stock := stock_publish hpc
  refine ⟨by rw [hlog, hcompleted]; exact h.suffix, by simp [Sys.publish, goto],
    by rw [hclocks]; exact h.rising, by rw [hstock]; exact h.late, ?_,
    by simp [Sys.publish, goto], by rw [hsettled]; exact h.bottom_le.trans (settled_le _)⟩
  rw [hclocks, hsettled]
  exact fun c hc => Or.inl (h.file_le hc)

end Stamped

end Sys

end Tabula
