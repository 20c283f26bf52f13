import Tabula.Lsm.FailedFlush
import Tabula.Lsm.InsertOrder
import Tabula.Lsm.L0Order

/-!
# Calls take effect at one moment

Any number of threads call `set`, `delete` and `get`, and flush. Each call seems to happen at
one moment between its beginning and its end (`Tabula.Sys.Linearizable`): a write when it is
inserted into the MemTable, a `get` at some moment before it returns. So the store behaves
as one map that its threads take turns with.

The map is the one that takes the writes in the order of their inserts
(`Tabula.Sys.contents`). When the process has died, a restart takes those that were in the log
and waited to be inserted. At any moment the map is in the MemTable, in what flushes have
swapped out, the youngest first, and in the files. What lies beneath the MemTable
(`Tabula.Sys.beneath`) changes for a key only when a MemTable that has the key is swapped
out, and then it is what the map holds at that moment. So a `get` that has found nothing in
the MemTable may take its time: whatever is beneath by the time it searches, was in the map
at one of the moments since.

It does not see what flushes have swapped out, and the files have to be in the order in which
they were swapped out. These are the conditions (`Tabula.Sys.Coherent`). Compactions may come
in between as long as readers do not notice them.
-/

namespace Tabula

open SortedTable

variable {T : Type} {cfg : Config}

/-- A write takes effect, or all those do that are in the log. -/
def Event.effective : Event T → Bool
  | inserted _ _ | restarted => true
  | _ => false

/-- The beginning of a call of the thread, or its insert, or the end of all calls. -/
def Event.Marks (t : T) : Event T → Prop
  | called t' _ | inserted t' _ => t' = t
  | restarted => True
  | _ => False

section Effects

variable [DecidableEq T]

/-- What an event makes of the writes that have taken effect, and of those that wait. -/
def Event.effects (es : List WalEntry × List (T × WalEntry)) :
    Event T → List WalEntry × List (T × WalEntry)
  | inserted t e => (es.1 ++ [e], (inserted t e).waits es.2)
  | restarted => (es.1 ++ es.2.map Prod.snd, restarted.waits es.2)
  | ev => (es.1, ev.waits es.2)

namespace Sys

/-- **The writes in the order in which they take effect**: when they are inserted, or when a
restart finds them in the log. -/
def effects (hist : List (Event T)) : List WalEntry := (hist.foldl Event.effects ([], [])).1

/-- **The map** that takes the writes as they take effect. -/
def contents (hist : List (Event T)) : Key → Option Value :=
  (effects hist).foldl WalEntry.onMap fun _ => none

theorem foldl_effects (hist : List (Event T)) :
    hist.foldl Event.effects ([], []) = (effects hist, waiting hist) := by
  refine Prod.ext rfl ?_
  induction hist using List.reverseRecOn with
  | nil => rfl
  | append_singleton hist ev ih =>
    change _ = waiting hist at ih
    change _ = waiting (hist ++ [ev])
    rw [List.foldl_append, waiting_append, List.foldl_cons, List.foldl_nil, List.foldl_cons,
      List.foldl_nil, ← ih]
    cases ev <;> rfl

theorem effects_concat (hist : List (Event T)) (ev : Event T) :
    effects (hist ++ [ev]) = (ev.effects (effects hist, waiting hist)).1 := by
  rw [effects, List.foldl_append, foldl_effects]
  rfl

theorem effects_append {hist evs : List (Event T)} (h : evs.filter Event.effective = []) :
    effects (hist ++ evs) = effects hist := by
  induction evs using List.reverseRecOn with
  | nil => rw [List.append_nil]
  | append_singleton evs ev ih =>
    rw [List.filter_append, List.append_eq_nil_iff] at h
    rw [← List.append_assoc, effects_concat, ← ih h.1]
    cases ev with
    | inserted | restarted => exact absurd h.2 (List.cons_ne_nil _ _)
    | _ => rfl

theorem contents_append {hist evs : List (Event T)} (h : evs.filter Event.effective = [])
    (k : Key) : contents (hist ++ evs) k = contents hist k := by
  rw [contents, effects_append h, contents]

theorem contents_eq_visible (hist : List (Event T)) (k : Key) :
    contents hist k = visible ((MemTable.new.applyAll (effects hist)).get k) :=
  (congrFun (visible_get_applyAll .new (effects hist)) k).symm

theorem contents_insert (hist : List (Event T)) {evs : List (Event T)} {t : T} {e : WalEntry}
    (h : evs.filter Event.effective = []) (k : Key) :
    contents (hist ++ .inserted t e :: evs) k =
      if e.key = k then visible (some e.raw) else contents hist k := by
  have hone : effects (hist ++ .inserted t e :: evs) = effects hist ++ [e] := by
    rw [List.append_cons, effects_append h, effects_concat]
    rfl
  rw [contents_eq_visible, hone, MemTable.applyAll_concat, MemTable.get_apply, contents_eq_visible]
  split <;> rfl

/-- **Every call takes effect at one moment between its beginning and its end**: what a `get`
returns is in the map at such a moment, and a write is inserted once. -/
structure Linearizable (hist : List (Event T)) : Prop where
  get : ∀ before after t k r, hist = before ++ .answered t k r :: after →
    ∃ earlier since since', before = earlier ++ .called t (.get k) :: (since ++ since') ∧
      (∀ ev ∈ since ++ since', ¬ev.Marks t) ∧
      r = .ok (contents (earlier ++ .called t (.get k) :: since) k)
  write : ∀ before after t e, hist = before ++ .acked t e :: after →
    ∃ earlier since since',
      before = earlier ++ .called t (.write e) :: (since ++ .inserted t e :: since') ∧
      ∀ ev ∈ since ++ since', ¬ev.Marks t

end Sys

end Effects

/-! ### Where a call is -/

section Calls

variable [DecidableEq T]

/-- **What a call has done so far**: a write on its way to the MemTable, a write that has got
there, a `get`, and one that goes on with what was in the map at a moment since. -/
def Pc.Underway (hist : List (Event T)) (t : T) (found : Key → Option Value) : Pc → Prop
  | idle => True
  | logging e | logged e => ∃ earlier since,
      hist = earlier ++ .called t (.write e) :: since ∧ ∀ ev ∈ since, ¬ev.Marks t
  | flushing e _ => ∃ earlier since since',
      hist = earlier ++ .called t (.write e) :: (since ++ .inserted t e :: since') ∧
      ∀ ev ∈ since ++ since', ¬ev.Marks t
  | reading k => ∃ earlier since,
      hist = earlier ++ .called t (.get k) :: since ∧ ∀ ev ∈ since, ¬ev.Marks t
  | missed k => ∃ earlier since since',
      hist = earlier ++ .called t (.get k) :: (since ++ since') ∧
      (∀ ev ∈ since ++ since', ¬ev.Marks t) ∧
      found k = Sys.contents (earlier ++ .called t (.get k) :: since) k

namespace Pc.Underway

variable {hist evs : List (Event T)} {t : T} {found found' : Key → Option Value} {pc : Pc}

/-- What others do makes no difference, and what is found may become what is in the map. -/
theorem mono (h : pc.Underway hist t found) (hevs : ∀ ev ∈ evs, ¬ev.Marks t)
    (hfound : ∀ k, found' k = found k ∨ found' k = Sys.contents hist k) :
    pc.Underway (hist ++ evs) t found' := by
  have hmore : ∀ {since : List (Event T)}, (∀ ev ∈ since, ¬ev.Marks t) →
      ∀ ev ∈ since ++ evs, ¬ev.Marks t := fun hsince ev hev =>
    (List.mem_append.mp hev).elim (hsince ev) (hevs ev)
  cases pc with
  | idle => trivial
  | logging e | logged e | reading k =>
    obtain ⟨earlier, since, rfl, hsince⟩ := h
    exact ⟨earlier, since ++ evs, by simp, hmore hsince⟩
  | flushing e f =>
    obtain ⟨earlier, since, since', rfl, hsince⟩ := h
    exact ⟨earlier, since, since' ++ evs, by simp, by
      rw [← List.append_assoc]
      exact hmore hsince⟩
  | missed k =>
    obtain ⟨earlier, since, since', rfl, hsince, hk⟩ := h
    rcases hfound k with hsame | hnow
    · exact ⟨earlier, since, since' ++ evs, by simp, by
        rw [← List.append_assoc]
        exact hmore hsince, hsame.trans hk⟩
    · exact ⟨earlier, since ++ since', evs, by simp, hmore hsince, hnow⟩

/-- A call begins. -/
theorem call (hist : List (Event T)) (t : T) (found : Key → Option Value) (op : Op) :
    op.begin.Underway (hist ++ [.called t op]) t found := by
  cases op with
  | write e => exact ⟨hist, [], by simp, List.forall_mem_nil _⟩
  | get k => exact ⟨hist, [], by simp, List.forall_mem_nil _⟩

/-- A write gets to the MemTable. -/
theorem insert {e : WalEntry} (h : (Pc.logged e).Underway hist t found) (f : Flush) :
    (Pc.flushing e f).Underway (hist ++ [.inserted t e]) t found' := by
  obtain ⟨earlier, since, rfl, hsince⟩ := h
  exact ⟨earlier, since, [], by simp, by simpa using hsince⟩

/-- A `get` finds nothing in the MemTable. -/
theorem miss {k : Key} (h : (Pc.reading k).Underway hist t found)
    (hfound : found k = Sys.contents hist k) : (Pc.missed k).Underway hist t found := by
  obtain ⟨earlier, since, rfl, hsince⟩ := h
  exact ⟨earlier, since, [], by simp, by simpa using hsince, hfound⟩

end Pc.Underway

end Calls

/-- The key that a `get` searches the levels for. -/
def Pc.sought : Pc → Option Key
  | missed key => some key
  | idle | logging _ | logged _ | flushing _ _ | reading _ => none

namespace Sys

/-! ### What lies beneath the MemTable -/

/-- **What flushes have swapped out**, the youngest first. -/
structure Stacked (s : Sys T) (ws : List Swapped) : Prop where
  out : ∀ w, w ∈ ws ↔ ∃ t, (s.pc t).out = some w
  ages : ws.Pairwise fun w w' => w'.age < w.age

/-- What they say, and beneath them the files. -/
def beneath (s : Sys T) (ws : List Swapped) (k : Key) : Option Value :=
  (firstHit (ws.map fun w => w.old.data) k).or (s.levels.find s.fs k)

namespace Stacked

variable {s s' : Sys T} {ws : List Swapped}

theorem init : Stacked (Sys.init : Sys T) [] := ⟨by simp [Sys.init], List.Pairwise.nil⟩

theorem of_same (h : s.Stacked ws) (hout : ∀ t, (s'.pc t).out = (s.pc t).out) : s'.Stacked ws :=
  ⟨fun w => (h.out w).trans (exists_congr fun t => by rw [hout t]), h.ages⟩

variable [DecidableEq T]

/-- The MemTable is swapped out. -/
theorem swap (h : s.Stacked ws) (haged : s.Aged) {t : T} {e : WalEntry} {p : Path}
    (hpc : s.pc t = .flushing e (.named p)) :
    (s.swap t e p).Stacked (⟨p, s.mem, swaps s.hist⟩ :: ws) := by
  refine ⟨fun w => ?_, List.pairwise_cons.mpr ⟨fun w hw => ?_, h.ages⟩⟩
  · rw [List.mem_cons, h.out]
    constructor
    · rintro (rfl | ⟨t', hw⟩)
      · exact ⟨t, by simp [Sys.swap, goto]⟩
      · refine ⟨t', ?_⟩
        have ht : t' ≠ t := by
          rintro rfl
          simp [hpc] at hw
        exact (congrArg Pc.out (Function.update_of_ne ht _ _)).trans hw
    · rintro ⟨t', hw⟩
      by_cases ht : t' = t
      · subst ht
        have hself : (s.swap t' e p).pc t' = .flushing e (.swapped ⟨p, s.mem, swaps s.hist⟩) :=
          Function.update_self ..
        rw [hself] at hw
        exact Or.inl (Option.some.inj hw).symm
      · exact Or.inr ⟨t', (congrArg Pc.out (Function.update_of_ne ht _ _)).symm.trans hw⟩
  · obtain ⟨t', hw⟩ := (h.out w).mp hw
    exact (haged.out t' w hw).1

/-- **The file that is added in turn was the lowest of the stack.** -/
theorem publish (h : s.Stacked ws) {t : T} {e : WalEntry} {w : Swapped}
    (hpc : s.pc t = .flushing e (.truncated w)) (hturn : s.InTurn t) :
    ∃ ws', ws = ws' ++ [w] ∧ (s.publish t e w).Stacked ws' := by
  have hw : (s.pc t).out = some w := by rw [hpc]; rfl
  have hmem : w ∈ ws := (h.out w).mpr ⟨t, hw⟩
  rcases List.eq_nil_or_concat ws with rfl | ⟨ws', last, hconcat⟩
  · simp at hmem
  rw [List.concat_eq_append] at hconcat
  subst hconcat
  obtain ⟨hages, -, hlast⟩ := List.pairwise_append.mp h.ages
  -- nobody else has swapped out anything as old
  obtain rfl : last = w := by
    by_contra hne
    have hw' : w ∈ ws' := (List.mem_append.mp hmem).resolve_right fun hm =>
      hne (List.mem_singleton.mp hm).symm
    obtain ⟨t', ht'⟩ := (h.out last).mp (by simp)
    have ht : t' ≠ t := by
      rintro rfl
      exact hne (Option.some.inj (ht'.symm.trans hw))
    exact lt_asymm (hlast w hw' last (by simp)) (hturn w hw t' ht last ht')
  refine ⟨ws', rfl, fun w' => ?_, hages⟩
  constructor
  · intro hw'
    obtain ⟨t', ht'⟩ := (h.out w').mp (List.mem_append_left _ hw')
    have ht : t' ≠ t := by
      rintro rfl
      obtain rfl := Option.some.inj (ht'.symm.trans hw)
      exact lt_irrefl _ (hlast _ hw' _ (by simp))
    exact ⟨t', (congrArg Pc.out (Function.update_of_ne ht _ _)).trans ht'⟩
  · rintro ⟨t', hw'⟩
    have ht : t' ≠ t := by
      rintro rfl
      have hidle : (s.publish t' e last).pc t' = .idle := Function.update_self ..
      simp [hidle] at hw'
    have hw' : (s.pc t').out = some w' :=
      (congrArg Pc.out (Function.update_of_ne ht _ _)).symm.trans hw'
    refine (List.mem_append.mp ((h.out w').mpr ⟨t', hw'⟩)).resolve_right fun hm => ?_
    rw [List.mem_singleton.mp hm] at hw'
    exact lt_irrefl _ (hturn _ hw t' ht _ hw')

end Stacked

/-! ### The condition -/

/-- **A `get` searches the levels when no flush has its key.** -/
def Sighted (s : Sys T) : Act T → Prop
  | .search t => ∀ key ∈ (s.pc t).sought, ∀ t', ∀ w ∈ (s.pc t').out, w.old.get key = none
  | _ => True

instance [Fintype T] (s : Sys T) : (a : Act T) → Decidable (s.Sighted a)
  | .search t => inferInstanceAs
      (Decidable (∀ key ∈ (s.pc t).sought, ∀ t', ∀ w ∈ (s.pc t').out, w.old.get key = none))
  | .call _ _ | .append _ | .insert _ | .name _ _ | .swap _ | .create _ | .write _ _ | .finish _
  | .rename _ | .truncate _ | .publish _ | .look _ | .compact _ _ | .restart _ | .appendFails _ _
  | .flushFails _ | .truncateFails _ => .isTrue trivial

/-- **Nothing is lost**: no flush fails, the process lives, and readers do not notice the
compactions, each of which has a new path. -/
def Undisturbed [DecidableEq T] (cfg : Config) (s : Sys T) : Act T → Prop
  | .compact io now => ⟨cfg.dir, FileName.l1Name now⟩ ∉ s.levels.l1 ∧
      ∀ k, visible ((s.compact cfg io now).levels.find (s.compact cfg io now).fs k) =
        visible (s.levels.find s.fs k)
  | .restart _ | .flushFails _ | .truncateFails _ => False
  | _ => True

/-- Flushes add their files in the order of their swaps, a `get` searches when no flush has
its key, and nothing is lost. -/
structure Coherent [DecidableEq T] (cfg : Config) (s : Sys T) (a : Act T) : Prop where
  order : s.KeepsOrder a
  sighted : s.Sighted a
  undisturbed : s.Undisturbed cfg a

/-! ### The invariant -/

/-- **The map is in the MemTable and beneath it**, and every call is where it should be. -/
structure Traced [DecidableEq T] (s : Sys T) (ws : List Swapped) : Prop where
  stacked : s.Stacked ws
  contents : ∀ k, contents s.hist k = visible ((s.mem.get k).or (s.beneath ws k))
  underway : ∀ t, (s.pc t).Underway s.hist t fun k => visible (s.beneath ws k)

namespace Traced

variable [DecidableEq T] {s s' : Sys T} {ws : List Swapped}

theorem init : Traced (Sys.init : Sys T) [] := by
  refine ⟨.init, fun k => ?_, fun _ => trivial⟩
  have hfind : LevelManager.find (Sys.init : Sys T).fs (Sys.init : Sys T).levels k = none := rfl
  rw [beneath, hfind]
  rfl

omit [DecidableEq T] in
theorem beneath_congr (hfind : ∀ k, s'.levels.find s'.fs k = s.levels.find s.fs k)
    (ws : List Swapped) (k : Key) : s'.beneath ws k = s.beneath ws k := by
  rw [beneath, beneath, hfind]

/-- A thread moves on, and neither the MemTable nor what is beneath it changes. -/
theorem moved (h : s.Traced ws) {t : T} {pc : Pc} {evs : List (Event T)}
    (hpcs : s'.pc = Function.update s.pc t pc) (hhist : s'.hist = s.hist ++ evs)
    (hevs : evs.filter Event.effective = []) (hmarks : ∀ t' ≠ t, ∀ ev ∈ evs, ¬ev.Marks t')
    (hmem : s'.mem = s.mem) (hfind : ∀ k, s'.levels.find s'.fs k = s.levels.find s.fs k)
    (hout : pc.out = (s.pc t).out)
    (ht : pc.Underway (s.hist ++ evs) t fun k => visible (s.beneath ws k)) : s'.Traced ws := by
  have hbeneath := beneath_congr hfind ws
  refine ⟨h.stacked.of_same ?_, fun k => ?_, ?_⟩
  · rw [hpcs]
    exact forall_goto (s := s) (P := fun t' x => Pc.out x = (s.pc t').out) hout fun _ _ => rfl
  · rw [hhist, contents_append hevs, hmem, hbeneath]
    exact h.contents k
  · simp only [hpcs, hhist, hbeneath]
    exact forall_goto (s := s) (P := fun t' x => Pc.Underway _ t' _ x) ht fun t' ht' =>
      (h.underway t').mono (hmarks t' ht') fun _ => Or.inl rfl

/-- A thread moves on, and nobody sees it. -/
theorem moved_unseen (h : s.Traced ws) {t : T} {pc : Pc}
    (hpcs : s'.pc = Function.update s.pc t pc) (hhist : s'.hist = s.hist) (hmem : s'.mem = s.mem)
    (hfind : ∀ k, s'.levels.find s'.fs k = s.levels.find s.fs k) (hout : pc.out = (s.pc t).out)
    (ht : pc.Underway s.hist t fun k => visible (s.beneath ws k)) : s'.Traced ws := by
  rw [← List.append_nil s.hist] at hhist ht
  exact h.moved hpcs hhist rfl (fun _ _ => List.forall_mem_nil _) hmem hfind hout ht

/-- A write is inserted. -/
theorem insert (h : s.Traced ws) {t : T} {e : WalEntry} {pc : Pc} {evs : List (Event T)}
    (hlogged : s.pc t = .logged e) (hpcs : s'.pc = Function.update s.pc t pc)
    (hhist : s'.hist = s.hist ++ .inserted t e :: evs) (hevs : evs.filter Event.effective = [])
    (hmarks : ∀ t' ≠ t, ∀ ev ∈ evs, ¬ev.Marks t') (hmem : s'.mem = s.mem.apply e)
    (hfind : ∀ k, s'.levels.find s'.fs k = s.levels.find s.fs k) (hout : pc.out = none)
    (ht : pc.Underway s'.hist t fun k => visible (s.beneath ws k)) : s'.Traced ws := by
  have hbeneath := beneath_congr hfind ws
  refine ⟨h.stacked.of_same ?_, fun k => ?_, ?_⟩
  · rw [hpcs]
    exact forall_goto (s := s) (P := fun t' x => Pc.out x = (s.pc t').out)
      (by rw [hlogged]; exact hout) fun _ _ => rfl
  · rw [hhist, contents_insert _ hevs, hmem, hbeneath, MemTable.get_apply, h.contents k]
    split <;> rfl
  · simp only [hpcs, hbeneath]
    refine forall_goto (s := s) (P := fun t' x => Pc.Underway _ t' _ x) ht fun t' ht' => ?_
    rw [hhist]
    refine (h.underway t').mono (fun ev hev => ?_) fun _ => Or.inl rfl
    rcases List.mem_cons.mp hev with rfl | hev
    · exact fun heq => ht' heq.symm
    · exact hmarks t' ht' ev hev

/-- **The MemTable is swapped out**: what is beneath is what the map holds. -/
theorem swap (h : s.Traced ws) (haged : s.Aged) {t : T} {e : WalEntry} {p : Path}
    (hpc : s.pc t = .flushing e (.named p)) :
    (s.swap t e p).Traced (⟨p, s.mem, swaps s.hist⟩ :: ws) := by
  have hbeneath : ∀ k, (s.swap t e p).beneath (⟨p, s.mem, swaps s.hist⟩ :: ws) k =
      (s.mem.get k).or (s.beneath ws k) := by
    intro k
    rw [beneath, List.map_cons, firstHit_cons, Option.or_assoc]
    rfl
  have hcontents : ∀ k, Sys.contents (s.swap t e p).hist k = Sys.contents s.hist k :=
    contents_append rfl
  refine ⟨h.stacked.swap haged hpc, fun k => ?_, ?_⟩
  · rw [hcontents, hbeneath, h.contents k]
    rfl
  · simp only [hbeneath]
    have hflushing := h.underway t
    rw [hpc] at hflushing
    refine forall_goto (s := s) (P := fun t' x => Pc.Underway (s.hist ++ [.swapped t]) t' _ x) ?_
      fun t' _ => (h.underway t').mono (by simp [Event.Marks]) fun k => ?_
    · exact hflushing.mono (by simp [Event.Marks]) fun k => Or.inr (h.contents k).symm
    · exact Or.inr (h.contents k).symm

/-- **A file is added in turn**: what is beneath stays the same. -/
theorem publish (h : s.Traced ws) (hhoused : Housed cfg s) (hintact : Intact cfg s) {t : T}
    {e : WalEntry} {w : Swapped} (hpc : s.pc t = .flushing e (.truncated w))
    (hturn : s.InTurn t) : ∃ ws', (s.publish t e w).Traced ws' := by
  obtain ⟨ws', rfl, hstacked⟩ := h.stacked.publish hpc hturn
  have hbeneath : ∀ k, (s.publish t e w).beneath ws' k = s.beneath (ws' ++ [w]) k := by
    intro k
    have hfind : (s.publish t e w).levels.find (s.publish t e w).fs k = _ :=
      hintact.find_publish hhoused hpc k
    rw [beneath, beneath, hfind, List.map_append, firstHit_append, List.map_singleton,
      firstHit_cons, firstHit_nil, Option.or_none, Option.or_assoc]
    rfl
  have hcontents : ∀ k, Sys.contents (s.publish t e w).hist k = Sys.contents s.hist k :=
    contents_append rfl
  refine ⟨ws', hstacked, fun k => ?_, ?_⟩
  · rw [hcontents, hbeneath]
    exact h.contents k
  · simp only [hbeneath]
    refine forall_goto (s := s)
      (P := fun t' x => x.Underway (s.hist ++ [.published t w, .acked t e]) t'
        fun k => visible (s.beneath (ws' ++ [w]) k)) ?_
      fun t' _ => (h.underway t').mono (by simp [Event.Marks]) fun _ => Or.inl rfl
    trivial

end Traced

/-- What holds in every run whose steps meet the condition. -/
structure Consistent [DecidableEq T] (cfg : Config) (s : Sys T) : Prop where
  housed : Housed cfg s
  intact : Intact cfg s
  logged : s.Logged
  carries : s.Carries WalEntry.IsShort MemTable.IsShort
  aged : s.Aged
  traced : ∃ ws, s.Traced ws

namespace Consistent

variable [DecidableEq T] {s s' : Sys T} {a : Act T}

theorem init : Consistent cfg (Sys.init : Sys T) :=
  ⟨.init, .init, rfl, .init carried_isShort, .init, [], .init⟩

/-- A temporary file is in no list. -/
theorem find_write (h : Consistent cfg s) (p : Path) (bytes : Bytes) (k : Key) :
    s.levels.find (s.fs.write p.tmp bytes) k = s.levels.find s.fs k :=
  LevelManager.find_congr (fun _ hq => Fs.write_of_ne
    ((h.housed.tracked (h.housed.mem_readOrder hq)).1.ne_tmp p) s.fs bytes) k

/-- The map and the calls after one step. -/
theorem traced_step (h : Consistent cfg s) (hs : Step cfg s a s') (hcoherent : s.Coherent cfg a) :
    ∃ ws, s'.Traced ws := by
  obtain ⟨ws, htraced⟩ := h.traced
  have hunderway := htraced.underway
  cases hs with
  | @call t op hpc =>
    refine ⟨ws, htraced.moved rfl rfl rfl ?_ rfl (fun _ => rfl) ?_ (Pc.Underway.call ..)⟩
    · intro t' ht' ev hev
      rw [List.mem_singleton.mp hev]
      exact fun heq => ht' heq.symm
    · rw [hpc]
      cases op <;> rfl
  | @append t e hpc =>
    have ht := hunderway t
    rw [hpc] at ht
    exact ⟨ws, htraced.moved rfl rfl rfl (by simp [Event.Marks]) rfl (fun _ => rfl) (by simp [hpc])
      (ht.mono (by simp [Event.Marks]) fun _ => Or.inl rfl)⟩
  | @insert t e hpc =>
    exact ⟨ws, htraced.insert hpc rfl rfl rfl (by simp [Event.Marks]) rfl (fun _ => rfl) rfl
      trivial⟩
  | @fill t e hpc =>
    have ht := hunderway t
    rw [hpc] at ht
    exact ⟨ws, htraced.insert hpc rfl rfl rfl (by simp) rfl (fun _ => rfl) rfl (ht.insert .start)⟩
  | @swap t e p hpc => exact ⟨_, htraced.swap h.aged hpc⟩
  | @publish t e w hpc => exact htraced.publish h.housed h.intact hpc hcoherent.order
  | @miss t key hpc hget =>
    have ht := hunderway t
    rw [hpc] at ht
    refine ⟨ws, htraced.moved_unseen rfl rfl rfl (fun _ => rfl) (by simp [hpc]) (ht.miss ?_)⟩
    rw [htraced.contents key, hget, Option.none_or]
  | @compact io now =>
    obtain ⟨-, hfind⟩ := hcoherent.undisturbed
    have hbeneath : ∀ k, visible ((s.compact cfg io now).beneath ws k) = visible (s.beneath ws k) :=
      fun k => visible_or_congr (hfind k) _
    refine ⟨ws, htraced.stacked.of_same fun _ => rfl, fun k => ?_, fun t => ?_⟩
    · exact (contents_append rfl k).trans ((htraced.contents k).trans
        (visible_or_congr (hbeneath k).symm _))
    · simp only [hbeneath]
      exact (hunderway t).mono (by simp [Event.Marks]) fun _ => Or.inl rfl
  | @hit t | @search t | @appendFails t =>
    exact ⟨ws, htraced.moved rfl rfl rfl (by simp [Event.Marks]) rfl (fun _ => rfl) (by simp [*])
      trivial⟩
  | @name t e now hpc | @truncate t e w hpc =>
    have ht := hunderway t
    rw [hpc] at ht
    exact ⟨ws, htraced.moved rfl rfl rfl (by simp [Event.Marks]) rfl (fun _ => rfl) (by simp [hpc])
      (ht.mono (by simp [Event.Marks]) fun _ => Or.inl rfl)⟩
  | @create t e w hpc | @write t e w n bytes hpc | @finish t e w bytes hpc =>
    have ht := hunderway t
    rw [hpc] at ht
    exact ⟨ws, htraced.moved_unseen rfl rfl rfl (h.find_write w.path _) (by simp [hpc]) ht⟩
  | @rename t e w hpc =>
    have ht := hunderway t
    rw [hpc] at ht
    exact ⟨ws, htraced.moved_unseen rfl rfl rfl (h.housed.find_rename hpc) (by simp [hpc]) ht⟩
  | restart | flushFails | truncateFails => exact hcoherent.undisturbed.elim

theorem step (h : Consistent cfg s) (hs : Step cfg s a s') (hcoherent : s.Coherent cfg a)
    (hfits : a.Fits) (hwhole : a.Whole) : Consistent cfg s' where
  housed := by
    refine h.housed.step hs ?_ ?_
    · rintro t now rfl
      exact hcoherent.order
    · rintro io now rfl
      exact hcoherent.undisturbed.1
  intact := h.intact.step h.housed hs fun _ _ => h.carries.mem
  logged := h.logged.step hs hwhole
  carries := h.carries.step carried_isShort h.logged hs hwhole (by
    rintro t e rfl
    exact hfits)
  aged := h.aged.step hs (by
    rintro t rfl
    exact hcoherent.order)
  traced := h.traced_step hs hcoherent

end Consistent

/-- What a `get` finds that searches the levels in sight of all flushes. -/
theorem Consistent.searchLevels_eq [DecidableEq T] {s : Sys T} (h : Consistent cfg s)
    {ws : List Swapped} (htraced : s.Traced ws) {t : T} {k : Key} (hpc : s.pc t = .missed k)
    (hsighted : s.Sighted (.search t)) :
    searchLevels s.fs s.levels k = .ok (visible (s.beneath ws k)) := by
  have hnone : firstHit (ws.map fun w => w.old.data) k = none := by
    refine firstHit_eq_none_iff.mpr fun data hdata => ?_
    obtain ⟨w, hw, rfl⟩ := List.mem_map.mp hdata
    obtain ⟨t', hout⟩ := (htraced.stacked.out w).mp hw
    exact hsighted k (by rw [hpc]; rfl) t' w hout
  rw [h.intact.searchLevels_eq h.housed, beneath, hnone, Option.none_or]

/-- **Calls take effect at one moment** where all states are consistent, each `get` searches in
sight of all flushes, and what is done in several steps at once lets no call return. -/
theorem linearizable_of_consistent [DecidableEq T] {R : Sys T → Act T → Sys T → Prop} {s : Sys T}
    {as : List (Act T)} (hrun : Runs.Run R Sys.init as s)
    (hconsistent : ∀ {bs s}, Runs.Run R Sys.init bs s → Consistent cfg s)
    (hsteps : ∀ s a s', R s a s' → Step cfg s a s' ∧ s.Sighted a ∨
      ∃ evs, s'.hist = s.hist ++ evs ∧ ∀ ev ∈ evs, ev = .compacted ∨ ev = .restarted) :
    Linearizable s.hist := by
  have hgrows : ∀ s a s', R s a s' → s.hist <+: s'.hist := by
    intro s a s' hs
    rcases hsteps s a s' hs with ⟨hs, -⟩ | ⟨evs, hevs, -⟩
    · exact hs.hist_grows
    · exact ⟨evs, hevs.symm⟩
  have hreturns : ∀ {s a s' evs ev evs'}, R s a s' → s'.hist = s.hist ++ (evs ++ ev :: evs') →
      ev ≠ .compacted → ev ≠ .restarted → Step cfg s a s' ∧ s.Sighted a := by
    intro s a s' evs ev evs' hs hnew hcompacted hrestarted
    refine (hsteps s a s' hs).resolve_right ?_
    rintro ⟨evs₀, hevs, hstore⟩
    obtain rfl := List.append_cancel_left (hevs.symm.trans hnew)
    exact (hstore ev (List.mem_append_right _ List.mem_cons_self)).elim hcompacted hrestarted
  constructor
  · intro before after t k r hhist
    obtain ⟨bs, s₁, b, s₂, evs, evs', hrun, hs, hnew, rfl⟩ :=
      hrun.exists_of_mem_record rfl hgrows hhist
    obtain ⟨hs, hsighted⟩ := hreturns hs hnew (by simp) (by simp)
    obtain ⟨rfl, rfl⟩ := hs.eq_nil_of_answered hnew
    have h := hconsistent hrun
    obtain ⟨ws, htraced⟩ := h.traced
    have ht := htraced.underway t
    rw [List.append_nil]
    rcases hs.answered hnew with ⟨hpc, value, hget, rfl⟩ | ⟨rfl, hpc, rfl⟩
    · rw [hpc] at ht
      obtain ⟨earlier, since, hearlier, hsince⟩ := ht
      refine ⟨earlier, since, [], by simpa using hearlier, by simpa using hsince, ?_⟩
      rw [← hearlier, htraced.contents k, hget, Option.some_or]
    · rw [hpc] at ht
      obtain ⟨earlier, since, since', hearlier, hsince, hfound⟩ := ht
      refine ⟨earlier, since, since', hearlier, hsince, ?_⟩
      rw [h.searchLevels_eq htraced hpc hsighted]
      exact congrArg Except.ok hfound
  · intro before after t e hhist
    obtain ⟨bs, s₁, b, s₂, evs, evs', hrun, hs, hnew, rfl⟩ :=
      hrun.exists_of_mem_record rfl hgrows hhist
    obtain ⟨hs, -⟩ := hreturns hs hnew (by simp) (by simp)
    obtain ⟨ws, htraced⟩ := (hconsistent hrun).traced
    have ht := htraced.underway t
    rcases hs.eq_of_acked hnew with ⟨hpc, rfl⟩ | ⟨w, hpc, rfl⟩
    · rw [hpc] at ht
      obtain ⟨earlier, since, hearlier, hsince⟩ := ht
      exact ⟨earlier, since, [], by simp [hearlier], by simpa using hsince⟩
    · rw [hpc] at ht
      obtain ⟨earlier, since, since', hearlier, hsince⟩ := ht
      refine ⟨earlier, since, since' ++ [.published t w], by simp [hearlier], fun ev hev => ?_⟩
      rw [← List.append_assoc] at hev
      rcases List.mem_append.mp hev with hev | hev
      · exact hsince ev hev
      · rw [List.mem_singleton.mp hev]
        exact id

/-- In every run whose steps meet the condition. -/
theorem Consistent.of_run [DecidableEq T] {s : Sys T} {as : List (Act T)}
    (hrun : Runs.Run (Runs.Guarded (Step cfg) fun s a => s.Coherent cfg a ∧ a.Fits ∧ a.Whole)
      Sys.init as s) : Consistent cfg s :=
  hrun.invariant .init fun _ _ _ h hs => h.step hs.1 hs.2.1 hs.2.2.1 hs.2.2.2

/-- **The store is linearizable** in every run in which flushes add their files in the order of
their swaps, a `get` searches the levels when no flush has its key, and nothing is lost. -/
theorem linearizable_of_coherent [DecidableEq T] {s : Sys T} {as : List (Act T)}
    (hrun : Runs.Run (Runs.Guarded (Step cfg) fun s a => s.Coherent cfg a ∧ a.Fits ∧ a.Whole)
      Sys.init as s) : Linearizable s.hist :=
  linearizable_of_consistent hrun (fun hrun => .of_run hrun) fun _ _ _ h =>
    Or.inl ⟨h.1, h.2.1.sighted⟩

end Sys

end Tabula
