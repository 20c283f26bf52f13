import Tabula.Lsm.Weathered

/-!
# Calls take effect at one moment, and crashes do not take them back

The map of `Tabula.Sys.contents` goes on over a crash: what has returned has taken effect,
and the restart brings it back. A write that was on its way takes effect as well if it was in
the log, and never if it was not (`Tabula.Sys.DurablyLinearizable`). The process may die at any
moment, any number of times, also in the middle of a compaction if the store survives that
(`Tabula.Sys.Survives`).

Two things are known of such runs by themselves: between two crashes the map is in the MemTable
and beneath it (`Tabula.Sys.Traced`), and the log and the files always say what has been
appended (`Tabula.Sys.Recovers`). A restart leaves the first for the second. So the map of the
appends has to be that of what has taken effect and what waits to be inserted
(`Tabula.Sys.Accounted`).
-/

namespace Tabula

variable {T : Type} [DecidableEq T] {cfg : Config}

/-- A restart is all that its step puts on record. -/
theorem Step.eq_nil_of_restarted {s s' : Sys T} {a : Act T} {evs evs' : List (Event T)}
    (h : Step cfg s a s') (hr : s'.hist = s.hist ++ (evs ++ .restarted :: evs')) : evs = [] := by
  have hm : Event.restarted ∈ evs ++ .restarted :: evs' :=
    List.mem_append_right _ List.mem_cons_self
  cases h with
  | restart =>
    have hnew := List.append_cancel_left hr
    cases evs with
    | nil => rfl
    | cons ev evs => simp at hnew
  | create | write | finish | rename | miss =>
    have hnone : s.hist ++ [] = s.hist ++ (evs ++ .restarted :: evs') := by
      rw [List.append_nil]
      exact hr
    rw [← List.append_cancel_left hnone] at hm
    exact absurd hm List.not_mem_nil
  | call | append | insert | fill | name | swap | truncate | publish | hit | search | compact
  | appendFails | flushFails | truncateFails =>
    rw [← List.append_cancel_left hr] at hm
    simp at hm

namespace Sys

/-! ### What has taken effect and what waits -/

/-- **Every write that has been appended has taken effect or waits**: the map of the appends
is that of the others, with the waiting ones on top. -/
def Accounted (hist : List (Event T)) : Prop :=
  MemTable.new.applyAll (completed hist) =
    (MemTable.new.applyAll (effects hist)).applyAll ((waiting hist).map Prod.snd)

/-- A restart lets all of them take effect. -/
theorem contents_restart {hist : List (Event T)} (h : Accounted hist) (k : Key) :
    contents (hist ++ [.restarted]) k = map hist k := by
  have heffects : effects (hist ++ [.restarted]) = effects hist ++ (waiting hist).map Prod.snd :=
    effects_concat _ _
  rw [contents_eq_visible, heffects, MemTable.applyAll_append, ← h, map_eq_visible, raw]

variable {s s' : Sys T} {a : Act T}

/-- Only inserts and restarts let writes take effect. -/
theorem effects_step (hs : Step cfg s a s') (hinsert : ∀ t, a ≠ .insert t)
    (hrestart : ∀ listing, a ≠ .restart listing) : effects s'.hist = effects s.hist := by
  cases hs with
  | insert | fill => exact absurd rfl (hinsert _)
  | restart => exact absurd rfl (hrestart _)
  | create | write | finish | rename | miss => rfl
  | call | append | name | swap | truncate | publish | hit | search | compact | appendFails
  | flushFails | truncateFails => exact effects_append rfl

namespace Accounted

theorem init : Accounted (Sys.init : Sys T).hist := rfl

/-- A write takes effect, without passing another one of its key. -/
theorem inserted (h : Accounted s.hist) (hbalanced : s.Balanced) {t : T} {e : WalEntry}
    (hpc : s.pc t = .logged e) (hturn : s.KeepsTurn (.insert t))
    (hcompleted : completed s'.hist = completed s.hist)
    (heffects : effects s'.hist = effects s.hist ++ [e])
    (hwaiting : waiting s'.hist = (waiting s.hist).filter fun w => w.1 ≠ t) :
    Accounted s'.hist := by
  have horder := hturn e (by simp [hpc])
  obtain ⟨pre, post, hsplit, htake, hfilter⟩ :=
    split_at hbalanced.nodup ((hbalanced.pc t e).mpr hpc)
  rw [htake] at horder
  have hpass : ∀ x ∈ pre.map Prod.snd, x.key = e.key → x.raw = e.raw := by
    intro x hx
    obtain ⟨w, hw, rfl⟩ := List.mem_map.mp hx
    exact horder w hw
  rw [Accounted] at h ⊢
  rw [hcompleted, h, heffects, hwaiting, hfilter, hsplit, List.map_append, List.map_cons,
    List.map_append, MemTable.applyAll_move _ hpass, MemTable.applyAll_concat]

theorem step (h : Accounted s.hist) (hbalanced : s.Balanced) (hs : Step cfg s a s')
    (hturn : s.KeepsTurn a) : Accounted s'.hist := by
  have hcompleted := completed_step hs
  have heffects := effects_step hs
  have hwaiting := waiting_of_moves hs
  have hsame : (∀ t, a ≠ .append t) → (∀ t, a ≠ .insert t) →
      (∀ listing, a ≠ .restart listing) → Accounted s'.hist := by
    intro happend hinsert hrestart
    rw [Accounted, hcompleted happend, heffects hinsert hrestart,
      hwaiting happend hinsert hrestart]
    exact h
  cases hs with
  | @append t e =>
    have hcompleted : completed (s.append t e).hist = completed s.hist ++ [e] :=
      List.filterMap_append
    have hwaiting : waiting (s.append t e).hist = waiting s.hist ++ [(t, e)] := waiting_append _ _
    rw [Accounted, hcompleted, heffects (by simp) (by simp), hwaiting, List.map_append,
      MemTable.applyAll_concat, h]
    exact (MemTable.applyAll_concat _ _ _).symm
  | @insert t e hpc =>
    have hone : effects (s.insert t e).hist = effects s.hist ++ [e] := by
      have hhist : (s.insert t e).hist = s.hist ++ [.inserted t e] ++ [.acked t e] := by
        simp [Sys.insert]
      rw [hhist, effects_append rfl, effects_concat]
      rfl
    exact h.inserted hbalanced hpc hturn (hcompleted (by simp)) hone (waiting_append _ _)
  | @fill t e hpc =>
    exact h.inserted hbalanced hpc hturn (hcompleted (by simp)) (effects_concat _ _)
      (waiting_append _ _)
  | @restart listing mem levels =>
    have hall : effects (s.restart mem levels).hist =
        effects s.hist ++ (waiting s.hist).map Prod.snd := effects_concat _ _
    have hnone : waiting (s.restart mem levels).hist = [] := waiting_append _ _
    rw [Accounted, hcompleted (by simp), hall, hnone, MemTable.applyAll_append]
    exact h
  | call | name | swap | create | write | finish | rename | truncate | publish | hit | miss | search
  | compact | appendFails | flushFails | truncateFails => exact hsame (by simp) (by simp) (by simp)

end Accounted

/-! ### Names and ages -/

/-- **What was swapped out later has the later name.** -/
def AgedByName (s : Sys T) : Prop :=
  ∀ t w, (s.pc t).out = some w → ∀ t' w', (s.pc t').out = some w' →
    w.path.name < w'.path.name → w.age < w'.age

namespace AgedByName

omit [DecidableEq T] in
theorem init : AgedByName (Sys.init : Sys T) := by simp [AgedByName, Sys.init]

omit [DecidableEq T] in
theorem of_same (h : s.AgedByName)
    (hout : ∀ t w, (s'.pc t).out = some w → (s.pc t).out = some w) : s'.AgedByName :=
  fun t w hw t' w' hw' => h t w (hout t w hw) t' w' (hout t' w' hw')

/-- The flush that swaps has the last name, and is the youngest. -/
theorem swap (h : s.AgedByName) (haged : s.Aged) {landed : List Path}
    (hlined : Lined cfg s landed) {t : T} {e : WalEntry} {p : Path}
    (hpc : s.pc t = .flushing e (.named p)) : (s.swap t e p).AgedByName := by
  have hqueue : ∀ t' w, (s.pc t').out = some w → w.path.name < p.name :=
    hlined.queue t p (by simp [hpc])
  have hout : ∀ t' w, ((s.swap t e p).pc t').out = some w →
      w = ⟨p, s.mem, swaps s.hist⟩ ∨ (s.pc t').out = some w :=
    forall_goto (P := fun t' x => ∀ w, Pc.out x = some w →
      w = ⟨p, s.mem, swaps s.hist⟩ ∨ (s.pc t').out = some w)
      (fun w hw => Or.inl (Option.some.inj hw).symm) fun _ _ _ => Or.inr
  intro t₁ w₁ h₁ t₂ w₂ h₂ hlt
  rcases hout t₁ w₁ h₁ with rfl | hold₁ <;> rcases hout t₂ w₂ h₂ with rfl | hold₂
  · exact absurd hlt (lt_irrefl _)
  · exact absurd (hlt.trans (hqueue t₂ w₂ hold₂)) (lt_irrefl _)
  · exact (haged.out t₁ w₁ hold₁).1
  · exact h t₁ w₁ hold₁ t₂ w₂ hold₂ hlt

theorem step (h : s.AgedByName) (haged : s.Aged) {landed : List Path}
    (hlined : Lined cfg s landed) (hs : Step cfg s a s') : s'.AgedByName := by
  cases hs with
  | @call t op hpc => exact h.of_same (out_goto (by cases op <;> simp [Op.begin]))
  | append | insert | fill | name | publish | hit | miss | search | appendFails | flushFails
  | truncateFails => exact h.of_same (out_goto (by simp))
  | create hpc | write hpc | finish hpc | rename hpc | truncate hpc =>
    exact h.of_same (out_goto (by simp [hpc]))
  | compact => exact h.of_same fun _ _ => id
  | restart => exact h.of_same (by simp [Sys.restart])
  | swap hpc => exact h.swap haged hlined hpc

end AgedByName

/-! ### The condition -/

/-- **The condition**: threads keep to their order, and a `get` searches when no flush has its
key. -/
structure Resilient (s : Sys T) (a : Act T) : Prop where
  disciplined : s.Disciplined a
  sighted : s.Sighted a

instance [Fintype T] (s : Sys T) (a : Act T) : Decidable (s.Resilient a) :=
  decidable_of_iff (s.Disciplined a ∧ s.Sighted a) ⟨fun h => ⟨h.1, h.2⟩, fun h => ⟨h.1, h.2⟩⟩

theorem Resilient.distinct (h : s.Resilient a) : s.Distinct cfg a := h.disciplined.distinct

/-- **What a crash does to calls**: those that have returned have taken effect, and those that a
restart lets take effect are writes that were on their way and had not yet. -/
structure DurablyLinearizable (hist : List (Event T)) : Prop extends Linearizable hist where
  restart : ∀ before after, hist = before ++ .restarted :: after →
    ((waiting before).map Prod.fst).Nodup ∧ ∀ t e, (t, e) ∈ waiting before →
      ∃ earlier since, before = earlier ++ .called t (.write e) :: since ∧
        ∀ ev ∈ since, ¬ev.Marks t

/-! ### The invariant -/

/-- What holds in every run that meets the condition. -/
structure Resumed (cfg : Config) (s : Sys T) : Prop where
  durable : Durable cfg s
  consistent : Consistent cfg s
  accounted : Accounted s.hist
  ages : s.AgedByName

namespace Resumed

theorem init : Resumed cfg (Sys.init : Sys T) := ⟨.init, .init, .init, .init⟩

/-- Flushes that add their files in the order of their names do so in that of their swaps. -/
theorem inTurn (h : Resumed cfg s) {t : T} (hturn : s.PublishesInTurn (.publish t)) : s.InTurn t :=
  fun w hw t' ht w' hw' => h.ages t w hw t' w' hw' (hturn w hw t' ht w' hw')

/-- Between two crashes the run meets the condition of a store that nothing disturbs. -/
theorem coherent (h : Resumed cfg s) (htended : s.Tended cfg Resilient a)
    (hrestart : ∀ listing, a ≠ .restart listing) : s.Coherent cfg a := by
  cases a with
  | compact io now =>
    obtain ⟨rfl, htimely, hok⟩ := htended
    exact ⟨trivial, trivial, undisturbed_of_timely h.durable.housed h.durable.intact
      h.durable.disjoint htimely hok⟩
  | restart listing => exact absurd rfl (hrestart listing)
  | appendFails | flushFails | truncateFails => exact htended.disciplined.lives.elim
  | name t now =>
    have hdistinct : s.Distinct cfg (.name t now) := htended.disciplined.distinct
    exact ⟨hdistinct, trivial, trivial⟩
  | publish t => exact ⟨h.inTurn htended.disciplined.publishes, trivial, trivial⟩
  | search t => exact ⟨trivial, htended.sighted, trivial⟩
  | call | append | insert | swap | create | write | finish | rename | truncate | look =>
    exact ⟨trivial, trivial, trivial⟩

/-- **After a restart the map is in the MemTable and in the files.** -/
theorem traced_restart {mem : MemTable} {levels : LevelManager}
    (h : Durable cfg (s.restart mem levels)) (haccounted : Accounted s.hist) :
    (s.restart mem levels).Traced [] := by
  obtain ⟨landed, hr⟩ := h.recovers
  obtain rfl := hr.lined.eq_nil (by simp [Sys.restart])
  have hwaiting : waiting (s.restart mem levels).hist = [] := waiting_append _ _
  have hmem : MemTable.new.applyAll (log (s.restart mem levels).hist) = mem := by
    rw [h.balanced.free rfl, hwaiting]
    rfl
  have hshelved : (s.restart mem levels).shelved [] = levels := by
    rw [shelved, List.append_nil]
    exact h.housed.levels.symm
  refine ⟨⟨by simp [Sys.restart], List.Pairwise.nil⟩, fun k => ?_, fun _ => trivial⟩
  have hcontents : Sys.contents (s.restart mem levels).hist k = map s.hist k :=
    contents_restart haccounted k
  have hcompleted : completed (s.restart mem levels).hist = completed s.hist := by
    simp [Sys.restart, completed, Event.completion]
  have hmap : map (s.restart mem levels).hist k = map s.hist k :=
    congrFun (map_congr hcompleted) k
  rw [hcontents, ← hmap, ← hr.recovered k, hmem, hshelved]
  rfl

/-- **One step of the store.** -/
theorem step (h : Resumed cfg s) (hs : Step cfg s a s') (htended : s.Tended cfg Resilient a) :
    Resumed cfg s' := by
  have hdurable := h.durable.step hs (tended_mono Resilient.disciplined htended)
  obtain ⟨landed, hr⟩ := h.durable.recovers
  have haged : s'.Aged := h.consistent.aged.step hs (by
    rintro t rfl
    exact h.inTurn htended.disciplined.publishes)
  have hturn : s.KeepsTurn a := by
    cases a with
    | insert t => exact htended.disciplined.turn
    | _ => trivial
  have htraced : ∃ ws, s'.Traced ws := by
    by_cases hrestart : ∃ listing, a = .restart listing
    · obtain ⟨listing, rfl⟩ := hrestart
      cases hs with
      | restart => exact ⟨[], traced_restart hdurable h.accounted⟩
    · exact h.consistent.traced_step hs
        (h.coherent htended fun listing he => hrestart ⟨listing, he⟩)
  exact ⟨hdurable, ⟨hdurable.housed, hdurable.intact, hdurable.logged, hdurable.carries, haged,
    htraced⟩, h.accounted.step h.durable.balanced hs hturn,
    h.ages.step h.consistent.aged hr.lined hs⟩

/-- **A compaction that is cut short**, and the restart after it. -/
theorem cut (h : Resumed cfg s) {io : CompactIo} {now : ℕ} {listing : List Path} {mem : MemTable}
    {levels : LevelManager} (hl : (s.compact cfg io now).fs.Lists cfg.dir listing)
    (hopen : Lsm.open (some s.wal) listing = .ok (mem, levels))
    (hdurable : Durable cfg ((s.compact cfg io now).restart mem levels)) :
    Resumed cfg ((s.compact cfg io now).restart mem levels) := by
  have hcompact : Step cfg s (.compact io now) (s.compact cfg io now) := .compact
  have hrestart : Step cfg (s.compact cfg io now) (.restart listing)
      ((s.compact cfg io now).restart mem levels) := .restart hl hopen
  have haccounted := h.accounted.step h.durable.balanced hcompact trivial
  have haged := (h.consistent.aged.step hcompact (by simp)).step hrestart (by simp)
  exact ⟨hdurable, ⟨hdurable.housed, hdurable.intact, hdurable.logged, hdurable.carries, haged, [],
    traced_restart hdurable haccounted⟩,
    haccounted.step h.durable.balanced.compact hrestart trivial,
    h.ages.of_same (by simp [Sys.restart])⟩

theorem advance (h : Resumed cfg s) (hs : Advances cfg Resilient s a s') : Resumed cfg s' := by
  have hdurable := h.durable.advance (hs.mono Resilient.disciplined)
  cases hs with
  | step hs htended => exact h.step hs htended
  | cut _ _ _ hl hopen => exact h.cut hl hopen hdurable

theorem of_run {as : List (Act T)} (hrun : Runs.Run (Advances cfg Resilient) Sys.init as s) :
    Resumed cfg s :=
  hrun.invariant .init fun _ _ _ h hs => h.advance hs

end Resumed

/-- A compaction that is cut short lets no call return. -/
theorem Advances.cases_hist (hs : Advances cfg P s a s') : Step cfg s a s' ∧ s.Tended cfg P a ∨
    s'.hist = s.hist ++ [.compacted, .restarted] := by
  cases hs with
  | step hs htended => exact Or.inl ⟨hs, htended⟩
  | cut => exact Or.inr (List.append_assoc ..)

/-- All calls of a run, and all crashes. -/
theorem durablyLinearizable_of_advances {as : List (Act T)}
    (hrun : Runs.Run (Advances cfg Resilient) Sys.init as s) : DurablyLinearizable s.hist where
  toLinearizable := by
    refine linearizable_of_consistent hrun (fun hrun => (Resumed.of_run hrun).consistent)
      fun s a s' hs => hs.cases_hist.imp (fun h => ⟨h.1, ?_⟩) fun h => ⟨_, h, by simp⟩
    obtain ⟨-, htended⟩ := h
    cases a with
    | search t => exact Resilient.sighted htended
    | _ => trivial
  restart before after hhist := by
    obtain ⟨bs, s₁, b, s₂, evs, evs', hrun, hs, hnew, rfl⟩ := hrun.exists_of_mem_record rfl
      (fun _ _ _ hs => hs.cases_hist.elim (fun h => h.1.hist_grows) fun h => ⟨_, h.symm⟩) hhist
    have h := Resumed.of_run hrun
    have hevs : waiting (s₁.hist ++ evs) = waiting s₁.hist ∧ ∀ ev ∈ evs, ∀ t, ¬ev.Marks t := by
      rcases hs.cases_hist with ⟨hs, -⟩ | hcut
      · obtain rfl := hs.eq_nil_of_restarted hnew
        exact ⟨by rw [List.append_nil], List.forall_mem_nil _⟩
      · -- the compaction is on record before the restart
        have hsplit := List.append_cancel_left (hcut.symm.trans hnew)
        obtain rfl : evs = [.compacted] := by
          rcases evs with _ | ⟨ev, _ | ⟨ev', evs⟩⟩
          · simp at hsplit
          · rw [(List.cons.inj hsplit).1]
          · simp at hsplit
        exact ⟨waiting_append _ _, by simp [Event.Marks]⟩
    obtain ⟨hwaiting, hmarks⟩ := hevs
    obtain ⟨ws, htraced⟩ := h.consistent.traced
    rw [hwaiting]
    refine ⟨h.durable.balanced.nodup, fun t e hm => ?_⟩
    have ht := htraced.underway t
    rw [(h.durable.balanced.pc t e).mp hm] at ht
    obtain ⟨earlier, since, hhist, hsince⟩ := ht
    refine ⟨earlier, since ++ evs, by rw [hhist]; simp, fun ev hev => ?_⟩
    exact (List.mem_append.mp hev).elim (hsince ev) fun hev => hmarks ev hev t

end Sys

/-! ### The process -/

/-- The reading of the clock for the output of the compaction that is on its way. -/
def Background.now : Background → Option ℕ
  | .compacting _ _ now _ => some now
  | .waiting | .polling | .due | .exited | .panicked => none

theorem Background.exists_of_now {b : Background} {now : ℕ} (h : b.now = some now) :
    ∃ io cuts p, b = .compacting io cuts now p := by
  cases b with
  | compacting io cuts now' p => exact ⟨io, cuts, p, by rw [Option.some.inj h]⟩
  | waiting | polling | due | exited | panicked => simp [Background.now] at h

namespace Process

section Run

variable {as : List (Act T)} {f : Process T}
  (hrun : Runs.Run (Runs.Guarded (Step cfg) fun f a => f.Weathered cfg Sys.Resilient a) init as f)

include hrun

theorem exists_resilient : ∃ bs s, Runs.Run (Sys.Advances cfg Sys.Resilient) Sys.init bs s ∧
    Attends cfg f s := by
  refine exists_advances ?_ (fun s a h => h.distinct) hrun
  intro s fs a h
  obtain ⟨⟨h₁, h₂, h₃, h₄, h₅, h₆, h₇⟩, h₈⟩ := h
  cases a <;> exact ⟨⟨h₁, h₂, h₃, h₄, h₅, h₆, h₇⟩, h₈⟩

/-- **The process is linearizable over all its crashes**, with any number of threads and with a
background thread that compacts file by file: what has returned is there for ever, and what was
on its way takes effect once or never. -/
theorem durablyLinearizable_of_run : Sys.DurablyLinearizable f.sys.hist := by
  obtain ⟨bs, s, hrun, h⟩ := exists_resilient hrun
  have hhist : f.sys.hist = s.hist := by rw [h.toMatches.sys]
  rw [hhist]
  exact Sys.durablyLinearizable_of_advances hrun

/-- It may die in its first compaction. -/
theorem exists_revival {now : ℕ} (hnow : f.background.now = some now)
    (hl1 : f.sys.levels.l1 = []) (hnone : ∀ t, (f.sys.pc t).landed = [])
    (hout : f.sys.fs ⟨cfg.dir, FileName.l1Name now⟩ ≠ none) :
    ∃ listing, Runs.Guarded (Step cfg) (fun f a => f.Weathered cfg Sys.Resilient a) f
      (.crash listing) (f.reborn ⟨[f.sys.levels.l0.filter (fun p => (f.sys.fs p).isSome),
        [⟨cfg.dir, FileName.l1Name now⟩]]⟩) := by
  obtain ⟨bs, s, hrun, h⟩ := exists_resilient hrun
  obtain ⟨io, cuts, p, hb⟩ := Background.exists_of_now hnow
  obtain ⟨io, htimely, hstops, hsys⟩ := h.exists_script hb
  have hdurable := (Sys.Resumed.of_run hrun).durable
  obtain ⟨landed, hr⟩ := hdurable.recovers
  have hhoused : Sys.Housed cfg (s.compact cfg io now) := hdurable.housed_compact htimely
  obtain ⟨listing, hl⟩ := hhoused.exists_lists
  have hfs : (s.compact cfg io now).fs = f.sys.fs := by rw [hsys]; rfl
  have hwal : s.wal = f.sys.wal := by rw [hsys]; rfl
  have hlevels : s.levels = f.sys.levels := by rw [hsys]; rfl
  have hhist : s.hist = f.sys.hist := by rw [hsys]; rfl
  obtain rfl := hr.lined.eq_nil fun t => by
    rw [hsys] at hnone
    exact hnone t
  have hopen := hdurable.open_cut htimely hstops hr (hfs ▸ hout) hl
  rw [List.append_nil, hfs, hwal, hlevels, hl1, hhist] at hopen
  have hsurvives := hdurable.survives_cut htimely hl hstops (Or.inr fun p hp => by
    rw [LevelManager.overlapping, hlevels, hl1] at hp
    exact absurd hp List.not_mem_nil)
  exact ⟨listing, .crash (hfs ▸ hl) hopen, fun _ => hsys ▸ hsurvives,
    ⟨trivial, trivial, trivial, trivial, trivial, trivial, trivial⟩, trivial⟩

end Run

/-- The process dies when its first compaction has deleted two of its four inputs, with one write
in the log and not in the MemTable. The restart finds it, and the `get` of a merged key whose file
is gone goes to the output. -/
theorem durablyLinearizable_of_run_crash : ∃ f : Process Bool,
    (.acked true (.put [3] [9]) ∉ f.sys.hist ∧ .answered false [3] (.ok (some [9])) ∈ f.sys.hist ∧
      .answered true [1] (.ok (some [1])) ∈ f.sys.hist ∧ f.sys.levels.l0.length = 2) ∧
      Sys.DurablyLinearizable f.sys.hist := by
  let gets : List (Act Bool) := [.thread (.call false (.get [3])), .thread (.look false),
    .thread (.call true (.get [1])), .thread (.look true), .lock true, .read true, .read true,
    .read true, .answer true]
  let out : Path := ⟨[], FileName.l1Name 6⟩
  let remains (f : Process Bool) : LevelManager :=
    ⟨[f.sys.levels.l0.filter (fun p => (f.sys.fs p).isSome), [out]]⟩
  obtain ⟨_, f, hrun, hnow, hl1, hnone, hout, hrest⟩ := exists_of_compactions (P := Sys.Resilient)
    (.ofThreshold 1)
    [(Act.flush false 1 1 ++ Act.flush false 2 2 ++ Act.flush false 3 3 ++ Act.flush false 4 4 ++
      [.wake, .check], [], 6)]
    ([.thread (.call true (.write (.put [3] [9]))), .thread (.append true)] ++
      List.replicate 9 .work)
    (fun f => f.background.now = some 6 ∧ f.sys.levels.l1 = [] ∧ (∀ t, (f.sys.pc t).landed = []) ∧
      f.sys.fs out ≠ none ∧
      (Runs.follow (next (.ofThreshold 1)) (Meets Sys.Resilient) (f.reborn (remains f)) gets).any
        (fun f => decide (.acked true (.put [3] [9]) ∉ f.sys.hist ∧
          .answered false [3] (.ok (some [9])) ∈ f.sys.hist ∧
          .answered true [1] (.ok (some [1])) ∈ f.sys.hist ∧ f.sys.levels.l0.length = 2)) = true)
    (by decide +kernel)
  have hrun := hrun.mono fun _ _ _ hs => And.imp_right Tended.weathered hs
  obtain ⟨listing, hcrash⟩ := exists_revival hrun hnow hl1 hnone hout
  obtain ⟨f', hrun', hf'⟩ := Runs.exists_of_follow step_of_next _ _ gets _ hrest
  refine ⟨f', hf', durablyLinearizable_of_run ((hrun.snoc hcrash).trans (hrun'.mono ?_))⟩
  exact fun _ _ _ hs => ⟨hs.1, hs.2.tended.weathered⟩

end Process

end Tabula
