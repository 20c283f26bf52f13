import Tabula.Lsm.Regular

/-!
# One client and a map

With one client, and without compactions, the store is a map: a `get` returns what was
written last (`Tabula.Sys.RefinesMap`). The map takes the writes whose append to
the log has completed, whether or not the client has lived to see the call return.

Two overlays say the same about every key, at every moment of a run. A reader sees the
MemTable – during a flush, what was swapped out – over the files of L0. A restart would
see the MemTable that is rebuilt from the log over the files there are. The two differ
while a flush is under way, since the file it has renamed is not in L0 yet and the log it
has not truncated says once more what the file says (`Tabula.Sys.Simulates`).

Most steps touch neither overlay. What they leave as it is is said once
(`Tabula.Sys.quiet_step`), for this invariant and for those of the modules that follow.

That a restart finds the files in the order of their data rests on the clock: the names
are in the order of the readings when these have equally many digits. And the log and the
files keep a write only if it fits the length fields, which nothing checks.
-/

namespace Tabula

open SortedTable

/-! ### The map -/

/-- What a write makes of a map. -/
def WalEntry.onMap (m : Key → Option Value) : WalEntry → Key → Option Value
  | put k v => Function.update m k (if isTombstone v then none else some v)
  | delete k => Function.update m k none

/-- The write whose append an event completes. -/
def Event.completion {T : Type} : Event T → Option WalEntry
  | appended _ e => some e
  | _ => none

/-- The writes whose append has completed. -/
def Sys.completed {T : Type} (hist : List (Event T)) : List WalEntry :=
  hist.filterMap Event.completion

/-- **The map the store stands for.** -/
def Sys.map {T : Type} (hist : List (Event T)) : Key → Option Value :=
  (completed hist).foldl WalEntry.onMap fun _ => none

theorem visible_get_apply (mem : MemTable) (e : WalEntry) :
    (fun k => visible ((mem.apply e).get k)) = e.onMap fun k => visible (mem.get k) := by
  funext k
  rw [MemTable.get_apply]
  cases e with
  | put k' v =>
    by_cases hk : k = k'
    · subst hk
      simp [WalEntry.onMap, WalEntry.key, WalEntry.raw, visible_some]
    · simp [WalEntry.onMap, WalEntry.key, hk, Ne.symm hk]
  | delete k' =>
    by_cases hk : k = k'
    · subst hk
      simp [WalEntry.onMap, WalEntry.key, WalEntry.raw]
    · simp [WalEntry.onMap, WalEntry.key, hk, Ne.symm hk]

/-- **A MemTable that has taken writes shows the map of these writes.** -/
theorem visible_get_applyAll (mem : MemTable) (es : List WalEntry) :
    (fun k => visible ((mem.applyAll es).get k)) =
      es.foldl WalEntry.onMap fun k => visible (mem.get k) := by
  induction es generalizing mem with
  | nil => rfl
  | cons e es ih => rw [List.foldl_cons, ← visible_get_apply, ← ih (mem.apply e)]; rfl

/-! ### Overlays -/

/-- What a MemTable over a list of files, the oldest first, says about a key. -/
def MemTable.overlay (mem : MemTable) (fs : Fs) (files : List Path) (k : Key) : Option Value :=
  (mem.get k).or (firstHit (files.reverse.map fs.records) k)

namespace MemTable

theorem overlay_apply (mem : MemTable) (e : WalEntry) (fs : Fs) (files : List Path) (k : Key) :
    (mem.apply e).overlay fs files k =
      if e.key = k then some e.raw else mem.overlay fs files k := by
  rw [overlay, get_apply]
  split
  · rw [Option.some_or]
  · rfl

theorem overlay_congr {fs fs' : Fs} {files : List Path} (h : ∀ p ∈ files, fs' p = fs p)
    (mem : MemTable) (k : Key) : mem.overlay fs' files k = mem.overlay fs files k := by
  have hrecords : files.reverse.map fs'.records = files.reverse.map fs.records :=
    List.map_congr_left fun p hp => Fs.records_congr (h p (List.mem_reverse.mp hp))
  rw [overlay, overlay, hrecords]

/-- To look into a MemTable once more makes no difference. -/
theorem get_or_overlay {fs : Fs} {files : List Path} {k : Key} {v : Option Value} (mem : MemTable)
    (h : mem.overlay fs files k = v) : (mem.get k).or v = v := by
  rw [← h, overlay, ← Option.or_assoc, Option.or_self]

/-- **A MemTable that has become the last file** says what it said before. -/
theorem overlay_concat {fs : Fs} {p : Path} {old : MemTable} (hp : fs.Stored p old.data)
    (mem : MemTable) (files : List Path) (k : Key) :
    mem.overlay fs (files ++ [p]) k = (mem.get k).or (old.overlay fs files k) := by
  rw [overlay, List.reverse_append, List.reverse_singleton, List.singleton_append, List.map_cons,
    firstHit_cons, hp.records_eq]
  rfl

end MemTable

/-! ### The simulation -/

/-- The file a flush has renamed and not added to L0. -/
@[simp] def Pc.landed : Pc → List Path
  | flushing _ (.renamed w) | flushing _ (.truncated w) => [w.path]
  | idle | logging _ | logged _ | reading _ | missed _ | flushing _ .start | flushing _ (.named _)
  | flushing _ (.swapped _) | flushing _ (.writing _) | flushing _ (.written _) => []

/-- The MemTable the client has written to: a write that is in the log counts, and what a
flush has swapped out. -/
@[simp] def Pc.view (mem : MemTable) : Pc → MemTable
  | logged e => mem.apply e
  | flushing _ f => f.out.elim mem Swapped.old
  | idle | logging _ | reading _ | missed _ => mem

namespace Sys

/-- The last raw value written to a key. -/
def raw {T : Type} (hist : List (Event T)) (k : Key) : Option Value :=
  (MemTable.new.applyAll (completed hist)).get k

theorem map_eq_visible {T : Type} (hist : List (Event T)) (k : Key) :
    map hist k = visible (raw hist k) :=
  (congrFun (visible_get_applyAll .new (completed hist)) k).symm

theorem map_congr {T : Type} {hist hist' : List (Event T)} (h : completed hist' = completed hist) :
    map hist' = map hist := by
  unfold map
  rw [h]

theorem raw_congr {T : Type} {hist hist' : List (Event T)} (h : completed hist' = completed hist) :
    raw hist' = raw hist := by
  unfold raw
  rw [h]

theorem raw_append {T : Type} (hist : List (Event T)) (t : T) (e : WalEntry) (k : Key) :
    raw (hist ++ [.appended t e]) k = if e.key = k then some e.raw else raw hist k := by
  have hcompleted : completed (hist ++ [.appended t e]) = completed hist ++ [e] :=
    List.filterMap_append
  rw [raw, hcompleted, MemTable.applyAll_concat, MemTable.get_apply]
  rfl

end Sys

/-! ### Quiet steps -/

/-- Every step but those that change the log, an SSTable or a list, or drop what has been
swapped out. -/
def Act.Quiet {T : Type} : Act T → Prop
  | .append _ | .rename _ | .truncate _ | .publish _ | .compact _ _ | .restart _ | .flushFails _
  | .truncateFails _ => False
  | _ => True

namespace Sys

/-- **What a quiet step leaves as it is**: the SSTables, the lists and the log, and what the
client has written to. -/
structure Quiet (s : Sys Unit) (a : Act Unit) (s' : Sys Unit) : Prop where
  levels : s'.levels = s.levels
  fs : ∀ p : Path, p.NamedSst → s'.fs p = s.fs p
  logged : log s'.hist = log s.hist
  writes : completed s'.hist = completed s.hist
  before : (s.pc ()).landed = []
  after : (s'.pc ()).landed = []
  view : (s'.pc ()).view s'.mem = (s.pc ()).view s.mem
  clean : (∀ w, (s.pc ()).out = some w → s.mem = .new) →
    ∀ w, (s'.pc ()).out = some w → s'.mem = .new
  path : (∀ t now, a ≠ .name t now) → (s'.pc ()).path = (s.pc ()).path
  called : ∀ e, s'.pc () = .logging e → a = .call () (.write e)
  missed : ∀ key, s'.pc () = .missed key → s'.mem.get key = none

variable {cfg : Config} {s s' : Sys Unit} {a : Act Unit}

theorem completed_step {T : Type} [DecidableEq T] {s s' : Sys T} {a : Act T}
    (hs : Step cfg s a s') (ha : ∀ t, a ≠ .append t) :
    completed s'.hist = completed s.hist := by
  cases hs with
  | append => exact absurd rfl (ha _)
  | create | write | finish | rename | miss => rfl
  | call | insert | fill | name | swap | truncate | publish | hit | search | compact | restart
  | appendFails | flushFails | truncateFails =>
    refine List.filterMap_append.trans ?_
    simp [completed, Event.completion]

/-- The client moves on. -/
theorem Quiet.of_move {pc : Pc} (hpc : s.pc () = pc) (pc' : Pc) (hpc' : s'.pc () = pc')
    (hlevels : s'.levels = s.levels) (hfs : ∀ p : Path, p.NamedSst → s'.fs p = s.fs p)
    (hlog : log s'.hist = log s.hist) (hcompleted : completed s'.hist = completed s.hist)
    (hbefore : pc.landed = []) (hafter : pc'.landed = []) (hview : pc'.view s'.mem = pc.view s.mem)
    (hclean : ∀ w, pc'.out = some w → s'.mem = .new ∨ s'.mem = s.mem ∧ pc.out = some w)
    (hpath : (∀ t now, a ≠ .name t now) → pc'.path = pc.path)
    (hcalled : ∀ e, pc' = .logging e → a = .call () (.write e))
    (hmissed : ∀ key, pc' = .missed key → s'.mem.get key = none) : s.Quiet a s' := by
  subst hpc hpc'
  refine ⟨hlevels, hfs, hlog, hcompleted, hbefore, hafter, hview, fun h w hw => ?_, hpath, hcalled,
    hmissed⟩
  rcases hclean w hw with hnew | ⟨hmem, hout⟩
  · exact hnew
  · exact hmem.trans (h w hout)

/-- **Quiet steps leave all this as it is.** -/
theorem quiet_step (hs : Step cfg s a s') (hwhole : a.Whole) (ha : a.Quiet) : s.Quiet a s' := by
  have hlog : log s'.hist = log s.hist := by
    refine (log_step_whole hs hwhole ?_ ?_).1
    · rintro t rfl
      exact ha
    · exact fun t => ⟨by rintro rfl; exact ha, by rintro rfl; exact ha⟩
  have hcompleted : completed s'.hist = completed s.hist := by
    refine completed_step hs ?_
    rintro t rfl
    exact ha
  cases hs with
  | @call t op hpc =>
    refine .of_move hpc op.begin rfl rfl (fun _ _ => rfl) hlog hcompleted rfl ?_ ?_ ?_ ?_ ?_ ?_ <;>
      cases op <;> simp [Op.begin, Sys.call, goto]
  | insert hpc | hit hpc | search hpc | appendFails hpc =>
    exact .of_move hpc .idle rfl rfl (fun _ _ => rfl) hlog hcompleted rfl rfl rfl (by simp)
      (fun _ => rfl) (by simp) (by simp)
  | @fill t e hpc =>
    exact .of_move hpc (.flushing e .start) rfl rfl (fun _ _ => rfl) hlog hcompleted rfl rfl rfl
      (by simp) (fun _ => rfl) (by simp) (by simp)
  | @name t e now hpc =>
    exact .of_move hpc (.flushing e (.named (cfg.nextSstablePath now))) rfl rfl (fun _ _ => rfl)
      hlog hcompleted rfl rfl rfl (by simp) (fun h => absurd rfl (h t now)) (by simp) (by simp)
  | @swap t e p hpc hlock =>
    exact .of_move hpc (.flushing e (.swapped ⟨p, s.mem, swaps s.hist⟩)) rfl rfl (fun _ _ => rfl)
      hlog hcompleted rfl rfl rfl (fun _ _ => Or.inl rfl) (fun _ => rfl) (by simp) (by simp)
  | @create t e w hpc | @write t e w n bytes hpc =>
    exact .of_move hpc (.flushing e (.writing w)) rfl rfl
      (fun p hp => Fs.write_of_ne (hp.ne_tmp w.path) s.fs _) hlog hcompleted rfl rfl rfl
      (fun _ hw => Or.inr ⟨rfl, hw⟩) (fun _ => rfl) (by simp) (by simp)
  | @finish t e w bytes hpc =>
    exact .of_move hpc (.flushing e (.written w)) rfl rfl
      (fun p hp => Fs.write_of_ne (hp.ne_tmp w.path) s.fs _) hlog hcompleted rfl rfl rfl
      (fun _ hw => Or.inr ⟨rfl, hw⟩) (fun _ => rfl) (by simp) (by simp)
  | @miss t key hpc hget =>
    refine .of_move hpc (.missed key) rfl rfl (fun _ _ => rfl) hlog hcompleted rfl rfl rfl (by simp)
      (fun _ => rfl) (by simp) fun key' hkey => ?_
    obtain rfl := Pc.missed.inj hkey
    exact hget
  | append | rename | truncate | publish | compact | restart | flushFails | truncateFails =>
    exact ha.elim

/-! ### The invariant -/

/-- Every `.sst` file there is, the oldest first. -/
def stock (s : Sys Unit) : List Path := s.levels.l0 ++ (s.pc ()).landed

theorem stock_of_pc {s : Sys Unit} {t : Unit} {pc : Pc} (hpc : s.pc t = pc) :
    s.stock = s.levels.l0 ++ pc.landed := by
  subst hpc
  rfl

theorem stock_eq {s s' : Sys Unit} {pc pc' : Pc} (hpc : s.pc () = pc) (hpc' : s'.pc () = pc')
    (hl0 : s'.levels.l0 = s.levels.l0) (hlanded : pc'.landed = pc.landed) : s'.stock = s.stock := by
  rw [stock, stock, hpc, hpc', hl0, hlanded]

/-- The file moves from one end of the list to the other side of it. -/
theorem stock_publish {s : Sys Unit} {t : Unit} {e : WalEntry} {w : Swapped}
    (hpc : s.pc t = .flushing e (.truncated w)) : (s.publish t e w).stock = s.stock := by
  change (s.levels.addL0File w.path).l0 ++ [] = s.levels.l0 ++ (s.pc t).landed
  rw [LevelManager.l0_addL0File, hpc, List.append_nil]
  rfl

/-- **The store simulates the map**: what a reader is served, and what a restart would
recover, is what was written last. -/
structure Simulates (cfg : Config) (s : Sys Unit) : Prop where
  sorted : NameSorted s.stock
  complete : ∀ p, p ∈ s.stock ↔ p.NamedSst ∧ s.fs p ≠ none
  latest : ∀ p, (s.pc ()).path = some p → s.Latest cfg p
  clean : ∀ w, (s.pc ()).out = some w → s.mem = .new
  missed : ∀ key, s.pc () = .missed key → s.mem.get key = none
  served : ∀ k, ((s.pc ()).view s.mem).overlay s.fs s.levels.l0 k = raw s.hist k
  recovered : ∀ k, (MemTable.new.applyAll (log s.hist)).overlay s.fs s.stock k = raw s.hist k

namespace Simulates

theorem init : Simulates cfg Sys.init :=
  ⟨List.Pairwise.nil, by simp [stock, Sys.init], by simp [Sys.init], by simp [Sys.init],
    by simp [Sys.init], fun _ => rfl, fun _ => rfl⟩

theorem of_quiet (h : Simulates cfg s) (hquiet : s.Quiet a s')
    (hlatest : ∀ p, (s'.pc ()).path = some p → s'.Latest cfg p) : Simulates cfg s' := by
  have hstock : s'.stock = s.stock :=
    stock_eq rfl rfl (by rw [hquiet.levels]) (hquiet.after.trans hquiet.before.symm)
  have hraw : raw s'.hist = raw s.hist := raw_congr hquiet.writes
  have hsame : ∀ p ∈ s.stock, s'.fs p = s.fs p := fun p hp =>
    hquiet.fs p ((h.complete p).mp hp).1
  refine ⟨by rw [hstock]; exact h.sorted, fun p => ?_, hlatest, hquiet.clean h.clean, hquiet.missed,
    fun k => ?_, fun k => ?_⟩
  · rw [hstock, h.complete]
    exact and_congr_right fun hp => by rw [hquiet.fs p hp]
  · rw [hquiet.view, hquiet.levels,
      MemTable.overlay_congr fun p hp => hsame p (List.mem_append_left _ hp), hraw]
    exact h.served k
  · rw [hquiet.logged, hstock, MemTable.overlay_congr hsame, hraw]
    exact h.recovered k

/-- The path of the flush on its way comes after the names of all other files. -/
theorem name_lt (h : Simulates cfg s) (hreg : Regular cfg WalEntry.IsShort MemTable.IsShort s)
    {p q : Path} (hq : (s.pc ()).path = some q) (hp : p ∈ s.stock) (hne : p ≠ q) :
    p.name < q.name := by
  obtain ⟨hsst, hfile⟩ := (h.complete p).mp hp
  obtain ⟨⟨n, rfl⟩, -⟩ := hreg.flushed.stocked p hsst hfile
  exact hreg.named.name_lt (h.latest q hq) hfile hne

/-- The write that is in the log now is on top of what is served and of what would be
recovered. -/
theorem append (h : Simulates cfg s) {t : Unit} {e : WalEntry} (hpc : s.pc t = .logging e) :
    Simulates cfg (s.append t e) := by
  have hlog : log (s.append t e).hist = log s.hist ++ [e] := log_append _ _
  have hraw : ∀ k, raw (s.append t e).hist k = if e.key = k then some e.raw else raw s.hist k :=
    raw_append s.hist t e
  have hstock : (s.append t e).stock = s.stock := by
    change s.levels.l0 ++ [] = s.levels.l0 ++ (s.pc t).landed
    rw [hpc]
    rfl
  have hview : (s.pc t).view s.mem = s.mem := by
    rw [hpc]
    rfl
  refine ⟨by rw [hstock]; exact h.sorted, by rw [hstock]; exact h.complete, ?_, ?_, ?_,
    fun k => ?_, fun k => ?_⟩
  · rintro p hp
    exact absurd hp (by simp [Sys.append, goto])
  · rintro w hw
    exact absurd hw (by simp [Sys.append, goto])
  · rintro key hkey
    exact absurd hkey (by simp [Sys.append, goto])
  · have hserved : s.mem.overlay s.fs s.levels.l0 k = raw s.hist k := by
      rw [← h.served k, hview]
    rw [hraw, ← hserved]
    exact MemTable.overlay_apply s.mem e s.fs s.levels.l0 k
  · rw [hraw, hlog, MemTable.applyAll_concat, hstock, ← h.recovered]
    exact MemTable.overlay_apply _ e s.fs s.stock k

/-- The renamed file comes last among the files of the directory, and repeats what the log
says. -/
theorem rename (h : Simulates cfg s) (hreg : Regular cfg WalEntry.IsShort MemTable.IsShort s)
    {t : Unit} {e : WalEntry} {w : Swapped} (hpc : s.pc t = .flushing e (.written w)) :
    Simulates cfg (s.rename t e w) := by
  obtain ⟨⟨hsst, hshort, hnew⟩, hfs⟩ := hreg.flushed.staged.rename hpc
  have hnamed := hreg.named.pc t
  rw [hpc] at hnamed
  obtain ⟨-, -, -, hfree⟩ := hnamed
  have hstock : s.stock = s.levels.l0 := (stock_of_pc hpc).trans (List.append_nil _)
  have hstock' : (s.rename t e w).stock = s.levels.l0 ++ [w.path] := rfl
  -- there is no file of this path yet, so it is in no list
  have hnot : ∀ p ∈ s.levels.l0, p ≠ w.path := by
    rintro p hm rfl
    rw [← hstock] at hm
    exact ((h.complete _).mp hm).2 hfree
  have hsame : ∀ p ∈ s.levels.l0, (s.rename t e w).fs p = s.fs p := fun p hm =>
    hfs p ((h.complete p).mp (by rwa [hstock])).1 (hnot p hm)
  have hserved : ∀ k, w.old.overlay s.fs s.levels.l0 k = raw s.hist k := fun k => by
    rw [← h.served k, hpc]
    rfl
  refine ⟨?_, fun p => ?_, latest_step h.latest (.rename hpc) trivial, ?_,
    by simp [Sys.rename, goto], fun k => ?_, fun k => ?_⟩
  · rw [hstock', NameSorted, List.pairwise_append]
    refine ⟨hstock ▸ h.sorted, List.pairwise_singleton _ _, fun p hm q hq => ?_⟩
    obtain rfl := List.mem_singleton.mp hq
    exact h.name_lt hreg (by rw [hpc]; rfl) (by rwa [hstock]) (hnot p hm)
  · rw [hstock', List.mem_append, List.mem_singleton]
    by_cases hw : p = w.path
    · subst hw
      exact iff_of_true (Or.inr rfl) ⟨hsst, hnew.ne_none⟩
    · rw [or_iff_left hw, ← hstock, h.complete]
      exact and_congr_right fun hm => by rw [hfs p hm hw]
  · intro w' hw'
    refine h.clean w' ?_
    rw [hpc]
    exact hw'
  · exact (MemTable.overlay_congr hsame w.old k).trans (hserved k)
  · -- the log says all that the new file says, and has the last word
    rw [hstock', MemTable.overlay_concat (hnew.stored hshort), MemTable.overlay_congr hsame,
      hserved k]
    exact ((MemTable.new.applyAll (log s.hist)).get_or_overlay (hstock ▸ h.recovered k))

/-- The log is not needed any more: the file says the same. -/
theorem truncate (h : Simulates cfg s) (hreg : Regular cfg WalEntry.IsShort MemTable.IsShort s)
    {t : Unit} {e : WalEntry} {w : Swapped} (hpc : s.pc t = .flushing e (.renamed w)) :
    Simulates cfg (s.truncate t e w) := by
  have hstep : Step cfg s (.truncate t) (s.truncate t e w) := .truncate hpc
  have hstored := hreg.named.stored_of_landed hreg.flushed.staged (Or.inl hpc)
  have hlog : log (s.truncate t e w).hist = [] := log_append _ _
  have hstock : s.stock = s.levels.l0 ++ [w.path] := stock_of_pc hpc
  have hraw : raw (s.truncate t e w).hist = raw s.hist :=
    raw_congr (completed_step hstep (by simp))
  have hserved : ∀ k, w.old.overlay s.fs s.levels.l0 k = raw s.hist k := fun k => by
    rw [← h.served k, hpc]
    rfl
  have hstock' : (s.truncate t e w).stock = s.stock := hstock.symm
  refine ⟨by rw [hstock']; exact h.sorted, by rw [hstock']; exact h.complete,
    latest_step h.latest hstep trivial, ?_, by simp [Sys.truncate, goto], fun k => ?_,
    fun k => ?_⟩
  · intro w' hw'
    refine h.clean w' ?_
    rw [hpc]
    exact hw'
  · rw [hraw]
    exact hserved k
  · rw [hraw, hlog, hstock', hstock]
    exact (MemTable.overlay_concat hstored _ _ k).trans (hserved k)

/-- Readers find in the file what they found in the MemTable that was swapped out. -/
theorem publish (h : Simulates cfg s) (hreg : Regular cfg WalEntry.IsShort MemTable.IsShort s)
    {t : Unit} {e : WalEntry} {w : Swapped} (hpc : s.pc t = .flushing e (.truncated w)) :
    Simulates cfg (s.publish t e w) := by
  have hstep : Step cfg s (.publish t) (s.publish t e w) := .publish hpc
  have hstored := hreg.named.stored_of_landed hreg.flushed.staged (Or.inr hpc)
  have hlog : log (s.publish t e w).hist = log s.hist :=
    (log_step hstep trivial (by simp) (by simp)).1
  have hl0 : (s.publish t e w).levels.l0 = s.levels.l0 ++ [w.path] := s.levels.l0_addL0File w.path
  have hstock : s.stock = s.levels.l0 ++ [w.path] := stock_of_pc hpc
  have hraw : raw (s.publish t e w).hist = raw s.hist :=
    raw_congr (completed_step hstep (by simp))
  have hstock' : (s.publish t e w).stock = s.stock := stock_publish hpc
  have hclean : s.mem = .new := h.clean w (by rw [hpc]; rfl)
  refine ⟨by rw [hstock']; exact h.sorted, by rw [hstock']; exact h.complete,
    by simp [Sys.publish, goto], by simp [Sys.publish, goto], by simp [Sys.publish, goto],
    fun k => ?_, fun k => ?_⟩
  · have hserved := h.served k
    rw [hpc] at hserved
    rw [hraw, hl0]
    change s.mem.overlay s.fs (s.levels.l0 ++ [w.path]) k = _
    rw [hclean, MemTable.overlay_concat hstored]
    exact hserved
  · rw [hraw, hlog, hstock']
    exact h.recovered k

/-- After a restart readers are served what would have been recovered. -/
theorem restart (h : Simulates cfg s) (hreg : Regular cfg WalEntry.IsShort MemTable.IsShort s)
    {listing : List Path} {mem : MemTable} {levels : LevelManager} (hl : s.fs.Lists cfg.dir listing)
    (hopen : Lsm.open (some s.wal) listing = .ok (mem, levels)) :
    Simulates cfg (s.restart mem levels) := by
  have hstep : Step cfg s (.restart listing) (s.restart mem levels) := .restart hl hopen
  obtain ⟨es, hreplay, rfl, rfl⟩ := Lsm.open_eq_ok.mp hopen
  rw [hreg.replay_eq carried_isShort] at hreplay
  obtain rfl := Except.ok.inj hreplay
  -- the names sort the files of the directory as the flushes have added them
  have hl0 : (discoverLevels listing).l0 = s.stock := by
    refine level_eq hl h.sorted fun p => ?_
    rw [h.complete]
    refine ⟨fun ⟨hsst, hne⟩ => ?_, fun ⟨_, hne, hlevel⟩ =>
      ⟨FileName.suffix_of_levelOf hlevel, hne⟩⟩
    obtain ⟨⟨now, rfl⟩, -⟩ := hreg.flushed.stocked p hsst hne
    exact ⟨rfl, hne, cfg.levelOf_nextSstablePath now⟩
  have hlog : log (s.restart (MemTable.new.applyAll (log s.hist)) (discoverLevels listing)).hist =
      log s.hist := (log_step hstep trivial (by simp) (by simp)).1
  have hraw : raw (s.restart (MemTable.new.applyAll (log s.hist)) (discoverLevels listing)).hist =
      raw s.hist :=
    raw_congr (completed_step hstep (by simp))
  have hstock : (s.restart (MemTable.new.applyAll (log s.hist)) (discoverLevels listing)).stock =
      s.stock := (List.append_nil _).trans hl0
  refine ⟨by rw [hstock]; exact h.sorted, by rw [hstock]; exact h.complete,
    by simp [Sys.restart], by simp [Sys.restart], by simp [Sys.restart], fun k => ?_, fun k => ?_⟩
  · rw [hraw, ← h.recovered k, ← hl0]
    rfl
  · rw [hraw, hlog, hstock]
    exact h.recovered k

/-- **One step of the store is one step of the map, or none.** -/
theorem step (h : Simulates cfg s) (hreg : Regular cfg WalEntry.IsShort MemTable.IsShort s)
    (hs : Step cfg s a s') (ha : a.Succeeds) (hticks : s.Ticks a) : Simulates cfg s' := by
  by_cases hquiet : a.Quiet
  · exact h.of_quiet (quiet_step hs ha.whole hquiet) (latest_step h.latest hs hticks)
  cases hs with
  | append hpc hlock => exact h.append hpc
  | rename hpc => exact h.rename hreg hpc
  | truncate hpc => exact h.truncate hreg hpc
  | publish hpc => exact h.publish hreg hpc
  | restart hl hopen => exact h.restart hreg hl hopen
  | compact | appendFails | flushFails | truncateFails => exact ha.elim
  | call | insert | fill | name | swap | create | write | finish | hit | miss | search =>
    exact absurd trivial hquiet

end Simulates

/-! ### What the client sees -/

/-- **The store answers like the map**, and can be opened again whenever it dies. -/
structure RefinesMap (cfg : Config) (s : Sys Unit) : Prop where
  opens : ∀ listing, s.fs.Lists cfg.dir listing → ∃ s', Step cfg s (.restart listing) s'
  answers : ∀ a s' key r, Step cfg s a s' → s'.hist = s.hist ++ [.answered () key r] →
    r = .ok (map s.hist key)

theorem Simulates.refinesMap (h : Simulates cfg s)
    (hreg : Regular cfg WalEntry.IsShort MemTable.IsShort s) : s.RefinesMap cfg where
  opens listing hl :=
    ⟨_, .restart hl (Lsm.open_eq_ok.mpr ⟨_, hreg.replay_eq carried_isShort, rfl, rfl⟩)⟩
  answers a s' key r hs hr := by
    have hserved := h.served key
    rw [map_eq_visible, ← hserved]
    rcases hs.answered hr with ⟨hpc, value, hget, rfl⟩ | ⟨-, hpc, rfl⟩
    · rw [hpc, Pc.view, MemTable.overlay, hget, Option.some_or]
    · rw [hreg.flushed.stocked.searchLevels_eq (fun _ h => h) hreg.flushed.l0 hreg.flushed.flat,
        hpc, Pc.view, MemTable.overlay, h.missed key hpc, Option.none_or]

end Sys

/-! ### The condition -/

namespace Sys

variable {cfg : Config} {s : Sys Unit}

/-- **The store refines the map**, across flushes and crashes at any moment, in every run
in which what is written fits the length fields. -/
theorem refinesMap_of_run {as : List (Act Unit)}
    (hrun : Runs.Run (Runs.Guarded (Step cfg) fun s a => a.Succeeds ∧ s.Ticks a ∧ a.Fits)
      Sys.init as s) : s.RefinesMap cfg := by
  have hinv : Regular cfg WalEntry.IsShort MemTable.IsShort s ∧ Simulates cfg s :=
    hrun.invariant
      (I := fun s => Regular cfg WalEntry.IsShort MemTable.IsShort s ∧ Simulates cfg s)
      ⟨.init carried_isShort, .init⟩ (by
        rintro s a s' ⟨hreg, hsim⟩ ⟨hs, hsucceeds, hticks, hfits⟩
        refine ⟨hreg.step carried_isShort hs hsucceeds ?_ ?_, hsim.step hreg hs hsucceeds hticks⟩
        · rintro t e rfl
          exact hfits
        · rintro t now rfl hm
          obtain ⟨c, hc, rfl⟩ := List.mem_map.mp hm
          exact lt_irrefl _ (hticks c hc).1)
  exact hinv.2.refinesMap hinv.1

/-- A crash between the rename and the truncate of a flush: the file and the log both hold
the two writes, and a `get` after the restart answers with the second. -/
theorem refinesMap_of_run_crash :
    ∃ (s s' : Sys Unit) (listing : List Path), (s.pc ()).landed ≠ [] ∧
      Step (.ofThreshold 4) s (.restart listing) s' ∧
      ∀ a s'' r, Step (.ofThreshold 4) (s'.call () (.get [1])) a s'' →
        s''.hist = (s'.call () (.get [1])).hist ++ [.answered () [1] r] →
        r = .ok (some [7, 7, 7]) := by
  obtain ⟨s, hrun, hs⟩ := exists_of_nexts (.ofThreshold 4) (fun s a => s.Ticks a ∧ a.Fits) Sys.init
    [.call () (.write (.put [1] [8])), .append (), .insert (),
      .call () (.write (.put [1] [7, 7, 7])), .append (), .insert (), .name () 1, .swap (),
      .create (), .finish (), .rename ()]
    (fun s => (s.pc ()).landed ≠ [] ∧ completed s.hist = [.put [1] [8], .put [1] [7, 7, 7]])
    (by decide +kernel)
  obtain ⟨hlanded, hcompleted⟩ := hs
  have hrun : Runs.Run (Runs.Guarded (Step (.ofThreshold 4)) fun s a =>
      a.Succeeds ∧ s.Ticks a ∧ a.Fits) Sys.init _ s :=
    hrun.mono fun _ _ _ h => ⟨h.1, h.2.1.succeeds, h.2.2⟩
  obtain ⟨listing, hl⟩ := exists_lists_of_run hrun
  obtain ⟨s', hrestart⟩ := (refinesMap_of_run hrun).opens listing hl
  have hidle : s'.pc () = .idle := by
    cases hrestart
    rfl
  have hcall : Step (.ofThreshold 4) s' (.call () (.get [1])) (s'.call () (.get [1])) := .call hidle
  have hrun' := hrun.trans (.snoc (.single ⟨hrestart, trivial, trivial, trivial⟩)
    ⟨hcall, trivial, trivial, trivial⟩)
  have hmap : map (s'.call () (.get [1])).hist [1] = some [7, 7, 7] := by
    rw [map, completed_step hcall (by simp), completed_step hrestart (by simp), hcompleted]
    decide
  refine ⟨s, s', listing, hlanded, hrestart, fun a s'' r hstep hr => ?_⟩
  rw [← hmap]
  exact (refinesMap_of_run hrun').answers a s'' [1] r hstep hr

/-- **A value of 2^32 bytes is lost in a crash**: its length is written as zero, and the
log is not read any further. -/
theorem not_refinesMap_of_run :
    ¬∀ (cfg : Config) (as : List (Act Unit)) (s : Sys Unit), 0 < cfg.threshold →
      Runs.Run (Runs.Guarded (Step cfg) fun s a => a.Succeeds ∧ s.Ticks a) Sys.init as s →
      s.RefinesMap cfg := by
  intro h
  -- the length stays a variable, so that nothing counts up to it
  obtain ⟨n, hn, hpos⟩ : ∃ n : ℕ, n % 2 ^ 32 = 0 ∧ 4 ≤ n := ⟨2 ^ 32, by norm_num, by norm_num⟩
  let e : WalEntry := .put [] (List.replicate n 0)
  let s₁ : Sys Unit := Sys.init.call () (.write e)
  let s₂ : Sys Unit := s₁.append () e
  let s₃ : Sys Unit := s₂.restart .new (discoverLevels [])
  let s₄ : Sys Unit := s₃.call () (.get [])
  let s₅ : Sys Unit := s₄.goto () (.missed [])
  have hlists : s₂.fs.Lists [] [] :=
    ⟨List.nodup_nil, by simp [s₂, s₁, Sys.append, Sys.call, goto, Sys.init]⟩
  have hwrite : Step (.ofThreshold 1) Sys.init (.call () (.write e)) s₁ := .call rfl
  have happend : Step (.ofThreshold 1) s₁ (.append ()) s₂ := .append rfl rfl
  have hrestart : Step (.ofThreshold 1) s₂ (.restart []) s₃ :=
    .restart hlists (Lsm.open_eq_ok.mpr ⟨[], Wal.replay_wrapped hn hpos, rfl, rfl⟩)
  have hget : Step (.ofThreshold 1) s₃ (.call () (.get [])) s₄ := .call rfl
  have hmiss : Step (.ofThreshold 1) s₄ (.look ()) s₅ := .miss rfl rfl
  have hrun : Runs.Run (Runs.Guarded (Step (.ofThreshold 1)) fun s a => a.Succeeds ∧ s.Ticks a)
      Sys.init _ s₅ :=
    ((((Runs.Run.single ⟨hwrite, trivial, trivial⟩).snoc ⟨happend, trivial, trivial⟩).snoc
      ⟨hrestart, trivial, trivial⟩).snoc ⟨hget, trivial, trivial⟩).snoc ⟨hmiss, trivial, trivial⟩
  have hanswer := (h (.ofThreshold 1) _ s₅ Nat.one_pos hrun).answers _ _ [] _
    (.search (t := ()) rfl) rfl
  have hlevels : s₅.levels = ⟨[[], []]⟩ :=
    discoverLevels_of_sorted rfl (by simp [NameSorted])
  have hvalue : isTombstone (List.replicate n 0) = false := by
    rw [isTombstone, beq_eq_false_iff_ne]
    intro he
    have h95 : (95 : UInt8) ∈ List.replicate n 0 := he ▸ List.mem_cons_self
    exact absurd (List.eq_of_mem_replicate h95) (by decide)
  have hmap : map s₅.hist [] = some (List.replicate n 0) := by
    change Function.update (fun _ => none) ([] : Key)
      (if isTombstone (List.replicate n 0) then none else some (List.replicate n 0)) [] = _
    rw [Function.update_self, hvalue]
    rfl
  rw [hlevels, hmap] at hanswer
  exact absurd (Except.ok.inj hanswer) (by simp [visible])

end Sys

end Tabula
