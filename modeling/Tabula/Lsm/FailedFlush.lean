import Tabula.Lsm.CompactReads
import Tabula.Lsm.RecoveredLists

/-!
# A flush that fails

`flush_memtable` swaps the MemTable out first. Creating the file, writing it, renaming it
and truncating the log come afterwards, and the `?` of each of them drops what was
swapped out: its entries are then in the log, if that was not truncated, and no reader
looks there. The next flush that succeeds truncates the log, and they are gone.

What a failed flush loses is what the tracked files do not say anyway. There are MemTables
of which they say everything: one that a restart has rebuilt from a log that a crash has
kept from being truncated, or one that repeats what was written before. If only such
MemTables are dropped, the client does not notice (`Tabula.Sys.Unharmed`).

Two overlays follow the client, as without failures. But now a file can be in the
directory that is in no list, and a log can repeat what is in no MemTable. What a restart
would find in the files there are has to be what readers find in the tracked ones, with
the file of a flush on its way on top (`Tabula.Sys.Backed`). Compactions may come in
between as long as nobody sees them, which is so when nothing fails in them and L0 has one
value for each key (`Tabula.Sys.Sheltered.unseen`).
-/

namespace Tabula

open SortedTable

/-- Below what is there, only what is visible matters. -/
theorem visible_or_congr {x y : Option Value} (h : visible x = visible y) (raw : Option Value) :
    visible (raw.or x) = visible (raw.or y) := by
  cases raw with
  | none => exact h
  | some v => rfl

/-- `Lsm::get` when the search succeeds. -/
theorem Lsm.get_eq {fs : Fs} {lm : LevelManager} {key : Key}
    (h : searchLevels fs lm key = .ok (visible (lm.find fs key))) (mem : MemTable) :
    Lsm.get fs mem lm key = .ok (visible ((mem.get key).or (lm.find fs key))) := by
  rw [Lsm.get]
  cases mem.get key with
  | none => exact h
  | some value => rfl

variable {cfg : Config}

namespace Config.Shelves

variable {fs : Fs} {files0 files1 : List Path}

/-- A restart reads all of the files, and no others. -/
theorem mem_readOrder (h : cfg.Shelves fs files0 files1) {p : Path}
    (hp : p ∈ (⟨[files0, files1]⟩ : LevelManager).readOrder) : p.NamedSst ∧ fs p ≠ none := by
  rw [LevelManager.readOrder_eq rfl] at hp
  rcases List.mem_append.mp hp with hp | hp
  · obtain ⟨hne, now, rfl⟩ := (h.mem0 p).mp (List.mem_reverse.mp hp)
    exact ⟨cfg.named_nextSstablePath now, hne⟩
  · obtain ⟨hne, now, rfl⟩ := (h.mem1 p).mp hp
    exact ⟨cfg.named_l1 now, hne⟩

end Config.Shelves

namespace Sys

variable {T : Type}

theorem Housed.mem_readOrder {s : Sys T} (h : Housed cfg s) {p : Path}
    (hp : p ∈ s.levels.readOrder) : p ∈ s.levels.l0 ++ s.levels.l1 := by
  have hdeeper : s.levels.deeper.flatten = [] := by
    rw [h.levels]
    rfl
  rw [LevelManager.readOrder_eq hdeeper] at hp
  exact List.mem_append.mpr ((List.mem_append.mp hp).imp_left List.mem_reverse.mp)

namespace Intact

variable {s : Sys T}

/-- **A search of the tracked files is answered.** -/
theorem searchLevels_eq (h : Intact cfg s) (hhoused : Housed cfg s) (k : Key) :
    searchLevels s.fs s.levels k = .ok (visible (s.levels.find s.fs k)) :=
  Tabula.searchLevels_eq (fun _ hp => h.complete hhoused (hhoused.mem_readOrder hp)) k

/-- So is a search of the files a restart finds. -/
theorem searchLevels_shelves (h : Intact cfg s) {files0 files1 : List Path}
    (hshelves : cfg.Shelves s.fs files0 files1) (k : Key) :
    searchLevels s.fs ⟨[files0, files1]⟩ k =
      .ok (visible ((⟨[files0, files1]⟩ : LevelManager).find s.fs k)) :=
  Tabula.searchLevels_eq (fun p hp => by
    obtain ⟨hnamed, hne⟩ := hshelves.mem_readOrder hp
    exact h.files p hnamed hne) k

end Intact

section Flushes

variable [DecidableEq T] {s : Sys T} {t : T} {e : WalEntry} {w : Swapped}

/-- Readers do not see the renamed file. -/
theorem Housed.find_rename (h : Housed cfg s) (hpc : s.pc t = .flushing e (.written w)) (k : Key) :
    s.levels.find (s.rename t e w).fs k = s.levels.find s.fs k :=
  LevelManager.find_congr (fun p hm => by
    obtain ⟨hp, hne⟩ := h.tracked (h.mem_readOrder hm)
    exact h.named.fs_rename hpc hp hne) k

/-- After a restart they would, before all others. -/
theorem Intact.find_shelves_rename (h : Intact cfg s) (hhoused : Housed cfg s)
    {files0 files1 : List Path} (hshelves : cfg.Shelves s.fs files0 files1)
    (hpc : s.pc t = .flushing e (.written w)) (k : Key) :
    (⟨[files0 ++ [w.path], files1]⟩ : LevelManager).find (s.rename t e w).fs k =
      (w.old.get k).or ((⟨[files0, files1]⟩ : LevelManager).find s.fs k) := by
  obtain ⟨⟨-, hshort, hnew⟩, -⟩ := h.staged.rename hpc
  refine (LevelManager.find_addL0File (hnew.stored hshort) ⟨[files0, files1]⟩ k).trans ?_
  rw [LevelManager.find_congr fun p hm => by
    obtain ⟨hp, hne⟩ := hshelves.mem_readOrder hm
    exact hhoused.named.fs_rename hpc hp hne]
  rfl

/-- When it is in L0 they do. -/
theorem Intact.find_publish (h : Intact cfg s) (hhoused : Housed cfg s)
    (hpc : s.pc t = .flushing e (.truncated w)) (k : Key) :
    (s.publish t e w).levels.find s.fs k = (w.old.get k).or (s.levels.find s.fs k) :=
  LevelManager.find_addL0File (hhoused.named.stored_of_landed h.staged (Or.inr hpc)) s.levels k

end Flushes

/-! ### The condition -/

/-- **The files say it already**: whatever the MemTable says that the thread has swapped
out, a search of the tracked files would answer. -/
def Redundant (s : Sys T) (t : T) : Prop :=
  ∀ w ∈ (s.pc t).held, ∀ r ∈ w.old.data,
    searchLevels s.fs s.levels r.1 = .ok (visible (some r.2))

instance (s : Sys T) (t : T) : Decidable (s.Redundant t) :=
  inferInstanceAs (Decidable (∀ w ∈ (s.pc t).held, ∀ r ∈ w.old.data,
    searchLevels s.fs s.levels r.1 = .ok (visible (some r.2))))

/-- **Nobody sees the compaction**, not even after a restart, and its output is a new
file. -/
structure Unseen (cfg : Config) (s : Sys T) (io : CompactIo) (now : ℕ) : Prop where
  new : ⟨cfg.dir, FileName.l1Name now⟩ ∉ s.levels.l1
  served : ∀ k, searchLevels (s.compact cfg io now).fs (s.compact cfg io now).levels k =
    searchLevels s.fs s.levels k
  found : ∀ listing listing', s.fs.Lists cfg.dir listing →
    (s.compact cfg io now).fs.Lists cfg.dir listing' → ∀ k,
      searchLevels (s.compact cfg io now).fs (discoverLevels listing') k =
        searchLevels s.fs (discoverLevels listing) k

/-- **What fails does no harm**: a flush that fails drops what the files say already, and an
append that fails has written nothing. -/
def Harmless (cfg : Config) (s : Sys T) : Act T → Prop
  | .flushFails t | .truncateFails t => s.Redundant t
  | .appendFails _ n => n = 0
  | .compact io now => s.Unseen cfg io now
  | _ => True

end Sys

/-! ### The overlays -/

/-- What the file says that a flush has renamed and not added to L0. -/
@[simp] def Pc.ahead : Pc → MemTable
  | flushing _ (.renamed w) | flushing _ (.truncated w) => w.old
  | idle | logging _ | logged _ | reading _ | missed _ | flushing _ .start | flushing _ (.named _)
  | flushing _ (.swapped _) | flushing _ (.writing _) | flushing _ (.written _) => .new

/-- A flush that holds the WAL lock has renamed the file of what it has swapped out, or
nothing. -/
theorem Pc.ahead_of_held {pc : Pc} {w : Swapped} (h : pc.held = some w) :
    pc.ahead = .new ∨ pc.ahead = w.old := by
  cases pc with
  | flushing e f =>
    cases f with
    | start | named p | truncated w => simp at h
    | swapped w | writing w | written w => exact Or.inl rfl
    | renamed w =>
      obtain rfl := Option.some.inj h
      exact Or.inr rfl
  | _ => simp at h

theorem Pc.ahead_of_landed {pc : Pc} (h : pc.landed = []) : pc.ahead = .new := by
  cases pc with
  | flushing e f =>
    cases f with
    | renamed w | truncated w => exact absurd h (List.cons_ne_nil _ _)
    | _ => rfl
  | _ => rfl

namespace Sys

/-- **Everything is there twice**: what the client has written is what readers find, and
what a restart would find, in the files of flushes and those of compactions there are. -/
structure Backed (cfg : Config) (s : Sys Unit) (files0 files1 : List Path) : Prop where
  shelves : cfg.Shelves s.fs files0 files1
  clean : ∀ w, (s.pc ()).out = some w → s.mem = .new
  served : ∀ k, visible ((((s.pc ()).view s.mem).get k).or (s.levels.find s.fs k)) = map s.hist k
  found : ∀ k, visible ((⟨[files0, files1]⟩ : LevelManager).find s.fs k) =
    visible (((s.pc ()).ahead.get k).or (s.levels.find s.fs k))
  recovered : ∀ k, visible (((MemTable.new.applyAll (log s.hist)).get k).or
    ((⟨[files0, files1]⟩ : LevelManager).find s.fs k)) = map s.hist k

/-- What holds in every run in which no append leaves a part of its entry behind, no path is
used twice, the clock ticks and what is written fits the length fields. -/
structure Sturdy (cfg : Config) (s : Sys Unit) : Prop where
  housed : Housed cfg s
  intact : Intact cfg s
  logged : s.Logged
  carries : s.Carries WalEntry.IsShort MemTable.IsShort
  latest : ∀ p, (s.pc ()).path = some p → s.Latest cfg p

/-- What holds in every run in which what fails does no harm. -/
structure Sheltered (cfg : Config) (s : Sys Unit) : Prop where
  housed : Housed cfg s
  intact : Intact cfg s
  logged : s.Logged
  carries : s.Carries WalEntry.IsShort MemTable.IsShort
  latest : ∀ p, (s.pc ()).path = some p → s.Latest cfg p
  backed : ∃ files0 files1, Backed cfg s files0 files1

theorem map_append {T : Type} (hist : List (Event T)) (t : T) (e : WalEntry) (k : Key) :
    map (hist ++ [.appended t e]) k = if e.key = k then visible (some e.raw) else map hist k := by
  rw [map_eq_visible, raw_append, map_eq_visible]
  split <;> rfl

variable {s s' : Sys Unit} {a : Act Unit} {files0 files1 : List Path}

/-- What was swapped out is what the client has written to. -/
theorem view_of_out {t : Unit} {w : Swapped} (hw : (s.pc t).out = some w) :
    (s.pc ()).view s.mem = w.old := by
  change (s.pc ()).out = some w at hw
  cases hpc : s.pc () with
  | flushing e f => simpa [hpc] using congrArg (Option.elim · s.mem Swapped.old) hw
  | _ => simp [hpc] at hw

namespace Sturdy

theorem init : Sturdy cfg Sys.init where
  housed := .init
  intact := .init
  logged := rfl
  carries := .init carried_isShort
  latest := by simp [Sys.init]

theorem step (h : Sturdy cfg s) (hs : Step cfg s a s') (hwhole : a.Whole)
    (hnew : ∀ io now, a = .compact io now → ⟨cfg.dir, FileName.l1Name now⟩ ∉ s.levels.l1)
    (hticks : s.Ticks a) (hfits : a.Fits) : Sturdy cfg s' where
  housed := by
    refine h.housed.step hs ?_ hnew
    rintro t now rfl hm
    obtain ⟨c, hc, rfl⟩ := List.mem_map.mp hm
    exact lt_irrefl _ (hticks c hc).1
  intact := h.intact.step h.housed hs fun _ _ => h.carries.mem
  logged := h.logged.step hs hwhole
  carries := h.carries.step carried_isShort h.logged hs hwhole (by
    rintro t e rfl
    exact hfits)
  latest := latest_step h.latest hs hticks

/-- **What a restart makes** of the log and the files. -/
theorem open_eq (h : Sturdy cfg s) (hshelves : cfg.Shelves s.fs files0 files1)
    {listing : List Path} (hl : s.fs.Lists cfg.dir listing) :
    Lsm.open (some s.wal) listing =
      .ok (MemTable.new.applyAll (log s.hist), ⟨[files0, files1]⟩) := by
  have hreplay : Wal.replay (some s.wal) = .ok (log s.hist) := by
    rw [h.logged, Wal.replay_encodeAll h.carries.log]
  exact Lsm.open_eq_ok.mpr
    ⟨_, hreplay, rfl, (hshelves.discoverLevels_eq h.housed.inPlace hl).symm⟩

end Sturdy

namespace Backed

/-- A step that changes neither the SSTables nor the lists nor the log. -/
theorem of_quiet (h : Backed cfg s files0 files1) (hhoused : Housed cfg s)
    (hquiet : s.Quiet a s') : Backed cfg s' files0 files1 := by
  have htracked : ∀ k, s'.levels.find s'.fs k = s.levels.find s.fs k := fun k => by
    rw [hquiet.levels]
    exact LevelManager.find_congr
      (fun p hp => hquiet.fs p (hhoused.tracked (hhoused.mem_readOrder hp)).1) k
  have hthere : ∀ k, (⟨[files0, files1]⟩ : LevelManager).find s'.fs k =
      (⟨[files0, files1]⟩ : LevelManager).find s.fs k :=
    LevelManager.find_congr fun p hp => hquiet.fs p (h.shelves.mem_readOrder hp).1
  have hmap : map s'.hist = map s.hist := map_congr hquiet.writes
  refine ⟨h.shelves.congr hquiet.fs, hquiet.clean h.clean, fun k => ?_, fun k => ?_, fun k => ?_⟩
  · rw [hquiet.view, htracked, hmap]
    exact h.served k
  · have hfound := h.found k
    rw [Pc.ahead_of_landed hquiet.before] at hfound
    rw [hthere, htracked, Pc.ahead_of_landed hquiet.after]
    exact hfound
  · rw [hquiet.logged, hthere, hmap]
    exact h.recovered k

/-- The write that is in the log now is on top of what is served and of what would be
recovered. -/
theorem append (h : Backed cfg s files0 files1) {t : Unit} {e : WalEntry}
    (hpc : s.pc t = .logging e) : Backed cfg (s.append t e) files0 files1 := by
  have hlog : log (s.append t e).hist = log s.hist ++ [e] := log_append _ _
  have hserved := h.served
  have hfound := h.found
  rw [hpc] at hserved hfound
  refine ⟨h.shelves, by simp [Sys.append, goto], fun k => ?_, hfound, fun k => ?_⟩
  · change visible (((s.mem.apply e).get k).or _) = map (s.hist ++ [.appended t e]) k
    rw [map_append, MemTable.get_apply]
    split
    · rfl
    · exact hserved k
  · change visible _ = map (s.hist ++ [.appended t e]) k
    rw [map_append, hlog, MemTable.applyAll_concat, MemTable.get_apply]
    split
    · rfl
    · exact h.recovered k

/-- The renamed file comes last among the files of flushes, and says what is served. -/
theorem rename (h : Backed cfg s files0 files1) (hsturdy : Sturdy cfg s) {t : Unit} {e : WalEntry}
    {w : Swapped} (hpc : s.pc t = .flushing e (.written w)) :
    Backed cfg (s.rename t e w) (files0 ++ [w.path]) files1 := by
  have htracked := hsturdy.housed.find_rename hpc
  have hthere := hsturdy.intact.find_shelves_rename hsturdy.housed h.shelves hpc
  have hserved := h.served
  have hfound := h.found
  rw [hpc] at hserved hfound
  refine ⟨hsturdy.housed.shelves_rename h.shelves hsturdy.latest hpc, fun w' hw' => ?_,
    fun k => ?_, fun k => ?_, fun k => ?_⟩
  · exact h.clean w' (by rw [hpc]; exact hw')
  · change visible ((w.old.get k).or (s.levels.find (s.rename t e w).fs k)) = map s.hist k
    rw [htracked]
    exact hserved k
  · change _ = visible ((w.old.get k).or (s.levels.find (s.rename t e w).fs k))
    rw [hthere, htracked]
    exact visible_or_congr (hfound k) _
  · change visible (((MemTable.new.applyAll (log s.hist)).get k).or _) = map s.hist k
    rw [hthere, ← h.recovered k]
    -- what the log says stays on top, and without it the file says what is served
    cases hget : (MemTable.new.applyAll (log s.hist)).get k with
    | some v => rfl
    | none =>
      have hrecovered := h.recovered k
      rw [hget, Option.none_or] at hrecovered
      rw [Option.none_or, Option.none_or, hrecovered, ← hserved k]
      exact visible_or_congr (hfound k) _

/-- What was swapped out is what the client has written, up to the end of the flush. -/
theorem served_of_out (h : Backed cfg s files0 files1) {t : Unit} {w : Swapped}
    (hw : (s.pc t).out = some w) (k : Key) :
    visible ((w.old.get k).or (s.levels.find s.fs k)) = map s.hist k := by
  rw [← view_of_out hw]
  exact h.served k

/-- The log is not needed any more: the file says the same. -/
theorem truncate (h : Backed cfg s files0 files1) {t : Unit} {e : WalEntry} {w : Swapped}
    (hpc : s.pc t = .flushing e (.renamed w)) : Backed cfg (s.truncate t e w) files0 files1 := by
  have hstep : Step cfg s (.truncate t) (s.truncate t e w) := .truncate hpc
  have hlog : log (s.truncate t e w).hist = [] := log_append _ _
  have hmap : map (s.truncate t e w).hist = map s.hist :=
    map_congr (completed_step hstep (by simp))
  have hserved := h.served_of_out (t := t) (w := w) (by simp [hpc])
  have hfound := h.found
  rw [hpc] at hfound
  refine ⟨h.shelves, fun w' hw' => ?_, fun k => ?_, hfound, fun k => ?_⟩
  · exact h.clean w' (by rw [hpc]; exact hw')
  · rw [hmap]
    exact hserved k
  · rw [hmap, hlog]
    exact (hfound k).trans (hserved k)

/-- Readers find in the file what they found in the MemTable that was swapped out. -/
theorem publish (h : Backed cfg s files0 files1) (hsturdy : Sturdy cfg s) {t : Unit} {e : WalEntry}
    {w : Swapped} (hpc : s.pc t = .flushing e (.truncated w)) :
    Backed cfg (s.publish t e w) files0 files1 := by
  have hstep : Step cfg s (.publish t) (s.publish t e w) := .publish hpc
  have hfind := hsturdy.intact.find_publish hsturdy.housed hpc
  have hlog : log (s.publish t e w).hist = log s.hist :=
    (log_step_whole hstep trivial (by simp) (by simp)).1
  have hmap : map (s.publish t e w).hist = map s.hist :=
    map_congr (completed_step hstep (by simp))
  have hclean : s.mem = .new := h.clean w (by rw [hpc]; rfl)
  have hserved := h.served_of_out (t := t) (w := w) (by simp [hpc])
  have hfound := h.found
  rw [hpc] at hfound
  refine ⟨h.shelves, by simp [Sys.publish, goto], fun k => ?_, fun k => ?_, fun k => ?_⟩
  · change visible ((s.mem.get k).or ((s.publish t e w).levels.find s.fs k)) = _
    rw [hclean, hfind, hmap]
    exact hserved k
  · change _ = visible ((s.publish t e w).levels.find s.fs k)
    rw [hfind]
    exact hfound k
  · rw [hlog, hmap]
    exact h.recovered k

/-- After a restart readers are served what would have been recovered. -/
theorem restart (h : Backed cfg s files0 files1) (hsturdy : Sturdy cfg s) {listing : List Path}
    {mem : MemTable} {levels : LevelManager} (hl : s.fs.Lists cfg.dir listing)
    (hopen : Lsm.open (some s.wal) listing = .ok (mem, levels)) :
    Backed cfg (s.restart mem levels) files0 files1 := by
  have hstep : Step cfg s (.restart listing) (s.restart mem levels) := .restart hl hopen
  have hlog := (log_step_whole hstep trivial (by simp) (by simp)).1
  have hmap : map (s.restart mem levels).hist = map s.hist :=
    map_congr (completed_step hstep (by simp))
  rw [hsturdy.open_eq h.shelves hl] at hopen
  obtain ⟨rfl, rfl⟩ := Prod.mk.inj (Except.ok.inj hopen)
  refine ⟨h.shelves, by simp [Sys.restart], fun k => ?_, fun _ => rfl, fun k => ?_⟩
  · rw [hmap]
    exact h.recovered k
  · rw [hmap, hlog]
    exact h.recovered k

/-- **Nobody misses a MemTable that repeats the tracked files**, nor a file that holds it. -/
theorem of_redundant (hhoused : Housed cfg s) (hintact : Intact cfg s) {t : Unit}
    (hredundant : s.Redundant t) {w : Swapped} (hw : (s.pc t).held = some w) (k : Key) :
    visible ((w.old.get k).or (s.levels.find s.fs k)) = visible (s.levels.find s.fs k) := by
  cases hget : w.old.get k with
  | none => rfl
  | some v =>
    have hsame := hredundant w hw (k, v) (mem_of_lookup hget)
    rw [hintact.searchLevels_eq hhoused] at hsame
    exact (Except.ok.inj hsame).symm

/-- A flush fails, and the log is as it was or empty. -/
theorem fails (h : Backed cfg s files0 files1) (hhoused : Housed cfg s) (hintact : Intact cfg s)
    {t : Unit} (hredundant : s.Redundant t) {w : Swapped} (hw : (s.pc t).held = some w)
    (hpc : s'.pc () = .idle) (hmem : s'.mem = s.mem) (hlevels : s'.levels = s.levels)
    (hfs : s'.fs = s.fs) (hcompleted : completed s'.hist = completed s.hist)
    (hlog : log s'.hist = log s.hist ∨ log s'.hist = [] ∧ (s.pc t).ahead = w.old) :
    Backed cfg s' files0 files1 := by
  have hclean : s.mem = .new := h.clean w (Pc.out_of_held hw)
  have hserved := h.served_of_out (Pc.out_of_held hw)
  have hrepeats := of_redundant hhoused hintact hredundant hw
  have hmap : map s'.hist = map s.hist := map_congr hcompleted
  refine ⟨by rw [hfs]; exact h.shelves, by simp [hpc], fun k => ?_, fun k => ?_, fun k => ?_⟩
  · rw [hpc, Pc.view, hmem, hclean, hlevels, hfs, hmap, ← hserved k, hrepeats k]
    rfl
  · rw [hlevels, hfs, h.found k, hpc]
    rcases Pc.ahead_of_held hw with hahead | hahead
    · rw [show (s.pc ()).ahead = .new from hahead]
      rfl
    · rw [show (s.pc ()).ahead = w.old from hahead, hrepeats k]
      rfl
  · rw [hfs, hmap]
    rcases hlog with hlog | ⟨hlog, hahead⟩
    · rw [hlog]
      exact h.recovered k
    · rw [hlog, ← hserved k, ← hahead]
      exact h.found k

end Backed

namespace Sheltered

theorem sturdy (h : Sheltered cfg s) : Sturdy cfg s :=
  ⟨h.housed, h.intact, h.logged, h.carries, h.latest⟩

theorem init : Sheltered cfg Sys.init where
  housed := .init
  intact := .init
  logged := rfl
  carries := .init carried_isShort
  latest := by simp [Sys.init]
  backed := ⟨[], [], ⟨List.Pairwise.nil, List.Pairwise.nil, by simp [Sys.init],
    by simp [Sys.init]⟩, by simp [Sys.init], fun _ => rfl, fun _ => rfl, fun _ => rfl⟩

/-- A compaction that nobody sees. -/
theorem compact (h : Sheltered cfg s) {io : CompactIo} {now : ℕ} (hs : s.Unseen cfg io now)
    (hhoused : Housed cfg (s.compact cfg io now)) (hintact : Intact cfg (s.compact cfg io now)) :
    ∃ files0 files1, Backed cfg (s.compact cfg io now) files0 files1 := by
  obtain ⟨files0, files1, hbacked⟩ := h.backed
  obtain ⟨listing, hl⟩ := h.housed.exists_lists
  obtain ⟨listing', hl'⟩ := hhoused.exists_lists
  have hshelves := Config.shelves_discoverLevels hhoused.inPlace hl'
  have hlevels := hshelves.discoverLevels_eq hhoused.inPlace hl'
  have htracked : ∀ k,
      visible ((s.compact cfg io now).levels.find (s.compact cfg io now).fs k) =
        visible (s.levels.find s.fs k) := fun k => by
    have hsame := hs.served k
    rw [h.intact.searchLevels_eq h.housed, hintact.searchLevels_eq hhoused] at hsame
    exact Except.ok.inj hsame
  have hthere : ∀ k,
      visible ((⟨[(discoverLevels listing').l0, (discoverLevels listing').l1]⟩ :
        LevelManager).find (s.compact cfg io now).fs k) =
          visible ((⟨[files0, files1]⟩ : LevelManager).find s.fs k) := fun k => by
    have hsame := hs.found listing listing' hl hl' k
    rw [hlevels, hbacked.shelves.discoverLevels_eq h.housed.inPlace hl,
      h.intact.searchLevels_shelves hbacked.shelves,
      hintact.searchLevels_shelves hshelves] at hsame
    exact Except.ok.inj hsame
  have hstep : Step cfg s (.compact io now) (s.compact cfg io now) := .compact
  have hlog := (log_step_whole hstep trivial (by simp) (by simp)).1
  have hmap : map (s.compact cfg io now).hist = map s.hist :=
    map_congr (completed_step hstep (by simp))
  refine ⟨_, _, hshelves, hbacked.clean, fun k => ?_, fun k => ?_, fun k => ?_⟩
  · rw [hmap, ← hbacked.served k]
    exact visible_or_congr (htracked k) _
  · rw [hthere, hbacked.found]
    exact (visible_or_congr (htracked k) _).symm
  · rw [hmap, hlog, ← hbacked.recovered k]
    exact visible_or_congr (hthere k) _

/-- **One step**, whatever fails in it as long as it does no harm. -/
theorem step (h : Sheltered cfg s) (hs : Step cfg s a s') (hharmless : s.Harmless cfg a)
    (hticks : s.Ticks a) (hfits : a.Fits) : Sheltered cfg s' := by
  have hwhole : a.Whole := by
    cases a with
    | appendFails t n => exact hharmless
    | _ => trivial
  obtain ⟨hhoused, hintact, hlogged, hcarries, hlatest⟩ := h.sturdy.step hs hwhole (by
    rintro io now rfl
    exact Unseen.new hharmless) hticks hfits
  refine ⟨hhoused, hintact, hlogged, hcarries, hlatest, ?_⟩
  have hlog := fun happend htruncate => (log_step_whole hs hwhole happend htruncate).1
  have hcompleted := completed_step hs
  obtain ⟨files0, files1, hb⟩ := h.backed
  by_cases hquiet : a.Quiet
  · exact ⟨files0, files1, hb.of_quiet h.housed (quiet_step hs hwhole hquiet)⟩
  cases hs with
  | append hpc => exact ⟨files0, files1, hb.append hpc⟩
  | @rename t e w hpc =>
    exact ⟨files0 ++ [w.path], files1, hb.rename h.sturdy hpc⟩
  | truncate hpc => exact ⟨files0, files1, hb.truncate hpc⟩
  | publish hpc => exact ⟨files0, files1, hb.publish h.sturdy hpc⟩
  | restart hl hopen => exact ⟨files0, files1, hb.restart h.sturdy hl hopen⟩
  | compact => exact h.compact hharmless hhoused hintact
  | @flushFails t e f hpc hheld =>
    obtain ⟨w, hw⟩ := Option.ne_none_iff_exists'.mp hheld
    have hout : (s.pc t).held = some w := by
      rw [hpc]
      exact hw
    exact ⟨files0, files1, hb.fails h.housed h.intact hharmless hout rfl rfl rfl rfl
      (hcompleted (by simp)) (Or.inl (hlog (by simp) (by simp)))⟩
  | @truncateFails t e w hpc =>
    exact ⟨files0, files1, hb.fails h.housed h.intact hharmless (w := w) (by simp [hpc]) rfl rfl
      rfl rfl (hcompleted (by simp)) (Or.inr ⟨log_append _ _, by simp [hpc]⟩)⟩
  | call | insert | fill | name | swap | create | write | finish | hit | miss | search
  | appendFails => exact absurd trivial hquiet

/-- Between two calls the client is answered what was written last. -/
theorem get_eq (h : Sheltered cfg s) (hview : (s.pc ()).view s.mem = s.mem) (k : Key) :
    Lsm.get s.fs s.mem s.levels k = .ok (map s.hist k) := by
  obtain ⟨files0, files1, hb⟩ := h.backed
  have hserved := hb.served k
  rw [hview] at hserved
  rw [Lsm.get_eq (h.intact.searchLevels_eq h.housed k), hserved]

/-- So it would be after a restart. -/
theorem getAfterRestart_eq (h : Sheltered cfg s) {listing : List Path}
    (hl : s.fs.Lists cfg.dir listing) (k : Key) :
    getAfterRestart (some s.wal) s.fs listing k = .ok (map s.hist k) := by
  obtain ⟨files0, files1, hb⟩ := h.backed
  rw [getAfterRestart, h.sturdy.open_eq hb.shelves hl]
  refine (Lsm.get_eq (h.intact.searchLevels_shelves hb.shelves k) _).trans ?_
  rw [hb.recovered k]

/-- **No MemTable can be dropped but one that the files repeat**: only then do the tracked
files by themselves say what was written last. -/
theorem redundant_iff (h : Sheltered cfg s) {t : Unit} {w : Swapped}
    (hw : (s.pc t).held = some w) :
    s.Redundant t ↔ ∀ k, searchLevels s.fs s.levels k = .ok (map s.hist k) := by
  obtain ⟨files0, files1, hb⟩ := h.backed
  have hserved := hb.served_of_out (Pc.out_of_held hw)
  constructor
  · intro hredundant k
    rw [h.intact.searchLevels_eq h.housed, ← hserved k,
      Backed.of_redundant h.housed h.intact hredundant hw]
  · intro hfiles w' hw' r hr
    obtain rfl : w = w' := Option.some.inj (hw.symm.trans hw')
    have hget : w.old.get r.1 = some r.2 := (lookup_eq_some_iff w.old.sorted).mpr hr
    rw [hfiles, ← hserved, hget, Option.some_or]

theorem of_run {as : List (Act Unit)} (hrun : Runs.Run (Runs.Guarded (Step cfg) fun s a =>
      s.Harmless cfg a ∧ s.Ticks a ∧ a.Fits) Sys.init as s) : Sheltered cfg s :=
  hrun.invariant .init fun _ _ _ h hs => h.step hs.1 hs.2.1 hs.2.2.1 hs.2.2.2

end Sheltered

/-! ### Compactions that nobody sees -/

/-- Where the directory mirrors the lists, a restart finds what is tracked, with the file of
a flush on its way on top. -/
theorem find_stock (hhoused : Housed cfg s) (hintact : Intact cfg s) (k : Key) :
    (⟨[s.stock, s.levels.l1]⟩ : LevelManager).find s.fs k =
      ((s.pc ()).ahead.get k).or (s.levels.find s.fs k) := by
  have hlevels : s.levels = ⟨[s.levels.l0, s.levels.l1]⟩ := hhoused.levels
  have hnone : s.stock = s.levels.l0 → (⟨[s.stock, s.levels.l1]⟩ : LevelManager).find s.fs k =
      (MemTable.new.get k).or (s.levels.find s.fs k) := fun hstock => by
    rw [hstock, ← hlevels]
    rfl
  have hsome : ∀ w : Swapped, s.fs.Stored w.path w.old.data → s.stock = s.levels.l0 ++ [w.path] →
      (⟨[s.stock, s.levels.l1]⟩ : LevelManager).find s.fs k =
        (w.old.get k).or (s.levels.find s.fs k) := fun w hstored hstock => by
    have hadd : (⟨[s.stock, s.levels.l1]⟩ : LevelManager) = s.levels.addL0File w.path := by
      rw [hstock, hlevels]
      rfl
    rw [hadd, LevelManager.find_addL0File hstored]
    rfl
  rw [Sys.stock] at hnone hsome ⊢
  cases hpc : s.pc () with
  | flushing e f =>
    rw [hpc] at hnone hsome
    cases f with
    | renamed w =>
      exact hsome w (hhoused.named.stored_of_landed hintact.staged (Or.inl hpc)) rfl
    | truncated w =>
      exact hsome w (hhoused.named.stored_of_landed hintact.staged (Or.inr hpc)) rfl
    | _ => exact hnone (List.append_nil _)
  | _ =>
    rw [hpc] at hnone
    exact hnone (List.append_nil _)

/-- A compaction that changes no answer does not change those after a restart either. -/
theorem Sheltered.unseen_of_served (h : Sheltered cfg s) (hmirrored : Mirrored cfg s) {now : ℕ}
    (hok : (s.levels.compact cfg.sizing cfg.heap .whole now s.fs).1 = .ok ())
    (hclock : ∀ n, ⟨cfg.dir, FileName.l1Name n⟩ ∈ s.levels.l1 →
      n < now ∧ FileName.SameDigits n now)
    (hserved : ∀ k, searchLevels (s.compact cfg .whole now).fs (s.compact cfg .whole now).levels k =
      searchLevels s.fs s.levels k) : s.Unseen cfg .whole now := by
  have hnew : ⟨cfg.dir, FileName.l1Name now⟩ ∉ s.levels.l1 := fun hm =>
    lt_irrefl _ (hclock now hm).1
  have hstep : Step cfg s (.compact .whole now) (s.compact cfg .whole now) := .compact
  have hhoused : Housed cfg (s.compact cfg .whole now) := h.housed.step hstep (by simp) (by
    rintro io now' ⟨⟩
    exact hnew)
  have hintact : Intact cfg (s.compact cfg .whole now) := h.intact.step h.housed hstep (by simp)
  have hmirrored' := hmirrored.compact h.housed hok hclock
  refine ⟨hnew, hserved, fun listing listing' hl hl' k => ?_⟩
  have hsame := hserved k
  rw [h.intact.searchLevels_eq h.housed, hintact.searchLevels_eq hhoused] at hsame
  rw [hmirrored.shelves.discoverLevels_eq h.housed.inPlace hl,
    hmirrored'.shelves.discoverLevels_eq hhoused.inPlace hl',
    h.intact.searchLevels_shelves hmirrored.shelves,
    hintact.searchLevels_shelves hmirrored'.shelves, find_stock h.housed h.intact,
    find_stock hhoused hintact]
  exact congrArg Except.ok (visible_or_congr (Except.ok.inj hsame) _)

/-- **A compaction that has succeeded is not seen**, where the directory mirrors the lists and
L0 has one value for each key: neither by readers nor after a restart. -/
theorem Sheltered.unseen_of_ok (h : Sheltered cfg s) (hmirrored : Mirrored cfg s) {now : ℕ}
    (hdisjoint : LevelManager.RangesDisjoint s.fs s.levels.l1)
    (hok : (s.levels.compact cfg.sizing cfg.heap .whole now s.fs).1 = .ok ())
    (hagree : ∀ k, oldestL0 s.fs s.levels k = newestL0 s.fs s.levels k)
    (hclock : ∀ n, ⟨cfg.dir, FileName.l1Name n⟩ ∈ s.levels.l1 →
      n < now ∧ FileName.SameDigits n now) : s.Unseen cfg .whole now := by
  refine h.unseen_of_served hmirrored hok hclock fun k => ?_
  cases hl0 : s.levels.l0 with
  | nil =>
    -- there is nothing to merge
    obtain ⟨hlevels, hfs⟩ := h.housed.compact_nil hl0
    rw [hlevels, hfs]
  | cons oldest newer =>
    have ho : s.levels.l0.head? = some oldest := by rw [hl0]; rfl
    have hcompact := compact_eq_ok hok
    have hsound : s.levels.Sound s.fs :=
      { named := fun p hp => (h.housed.tracked hp).1
        complete := fun p hp => h.intact.complete h.housed hp
        nonempty := LevelManager.nonempty_of_compact CompactIo.readsComplete_whole ho hcompact
        disjoint := hdisjoint
        bottom := by rw [h.housed.levels]; rfl }
    have hout : ∀ oldest ∈ s.levels.l0.head?,
        LevelManager.outputPath now oldest ∉ s.levels.l0 ++ s.levels.l1 := fun oldest ho =>
      h.housed.outputPath_notMem (List.mem_of_head? ho) fun hm => lt_irrefl _ (hclock now hm).1
    exact hsound.searchLevels_compact CompactIo.readsComplete_whole hcompact
      ⟨hagree, fun oldest ho i hi => absurd (LevelManager.mem_of_inputs (List.mem_of_getElem? hi))
        (hout oldest ho), fun oldest ho hu => absurd (LevelManager.mem_of_l1
          (LevelManager.mem_of_untouched hu)) (hout oldest ho)⟩ k

/-- **A compaction in which nothing fails is not seen**, where the directory mirrors the lists
and L0 has one value for each key: neither by readers nor after a restart. -/
theorem Sheltered.unseen (h : Sheltered cfg s) (hmirrored : Mirrored cfg s) {now : ℕ}
    (hsound : s.levels.Sound s.fs) (hfits : s.levels.Fits cfg.sizing cfg.heap s.fs)
    (hagree : ∀ k, oldestL0 s.fs s.levels k = newestL0 s.fs s.levels k)
    (hclock : ∀ n, ⟨cfg.dir, FileName.l1Name n⟩ ∈ s.levels.l1 →
      n < now ∧ FileName.SameDigits n now) : s.Unseen cfg .whole now :=
  h.unseen_of_ok hmirrored hsound.disjoint (hsound.toUsable.compact_ok hfits now) hagree hclock

/-! ### What the client sees -/

/-- **The answers for a key are those of an earlier moment**, between two calls, and would
be after a restart at any moment. -/
structure Unharmed (cfg : Config) (s₀ s : Sys Unit) (k : Key) : Prop where
  get : s.pc () = .idle → Lsm.get s.fs s.mem s.levels k = Lsm.get s₀.fs s₀.mem s₀.levels k
  reopened : ∀ listing, s.fs.Lists cfg.dir listing →
    getAfterRestart (some s.wal) s.fs listing k = Lsm.get s₀.fs s₀.mem s₀.levels k

/-- The write on its way is of another key. -/
def Spares (k : Key) (s : Sys Unit) : Prop := ∀ e, (s.pc ()).entry = some e → e.key ≠ k

theorem Spares.step {k : Key} (h : s.Spares k) (hs : Step cfg s a s')
    (hcall : ∀ t e, a = .call t (.write e) → e.key ≠ k) : s'.Spares k := by
  cases hs with
  | @call t op hpc =>
    intro e he
    cases op with
    | write e' =>
      obtain rfl := Option.some.inj he
      exact hcall t _ rfl
    | get key => simp [Sys.call, goto, Op.begin] at he
  | append hpc =>
    intro e he
    obtain rfl := Option.some.inj he
    exact h _ (by rw [hpc]; rfl)
  | compact => exact h
  | restart | insert | fill | name | swap | create | write | finish | rename | truncate | publish
  | hit | miss | search | appendFails | flushFails | truncateFails =>
    intro e he
    simp [Sys.restart, Sys.insert, Sys.fill, Sys.name, Sys.swap, Sys.create, Sys.write, Sys.finish,
      Sys.rename, Sys.truncate, Sys.publish, Sys.answer, Sys.appendFails, Sys.flushFails,
      Sys.truncateFails, goto] at he

/-- Then the value of the key stays what it is. -/
theorem Spares.map_step {k : Key} (h : s.Spares k) (hs : Step cfg s a s') :
    map s'.hist k = map s.hist k := by
  by_cases ha : ∀ t, a ≠ .append t
  · rw [map_congr (completed_step hs ha)]
  · obtain ⟨t, rfl⟩ := not_forall_not.mp ha
    cases hs with
    | append hpc => exact (map_append _ _ _ k).trans (if_neg (h _ (by rw [hpc]; rfl)))

/-- **A flush that fails loses nothing** in any run in which what fails does no harm:
whatever comes after it, until a key is written again its answers stay what they were
before the flush. -/
theorem unharmed_of_run {as as' : List (Act Unit)} {s₀ : Sys Unit} {e : WalEntry} {k : Key}
    (hrun : Runs.Run (Runs.Guarded (Step cfg) fun s a =>
      s.Harmless cfg a ∧ s.Ticks a ∧ a.Fits) Sys.init as s₀)
    (hpc : s₀.pc () = .flushing e .start)
    (hrun' : Runs.Run (Runs.Guarded (Step cfg) fun s a =>
      s.Harmless cfg a ∧ s.Ticks a ∧ a.Fits) s₀ as' s)
    (hkey : ∀ e', .call () (.write e') ∈ as' → e'.key ≠ k) : s₀.Unharmed cfg s k := by
  have hbefore : Sheltered cfg s₀ := .of_run hrun
  have hafter : Sheltered cfg s := .of_run (hrun.trans hrun')
  have hmap : s.Spares k ∧ map s.hist k = map s₀.hist k :=
    hrun'.guarded_mem.invariant (I := fun s => s.Spares k ∧ map s.hist k = map s₀.hist k)
      ⟨by simp [Spares, hpc], rfl⟩ fun s a s' h hs =>
        ⟨h.1.step hs.1.1 (by
          rintro t e' rfl
          exact hkey e' hs.2), (h.1.map_step hs.1.1).trans h.2⟩
  have hget := hbefore.get_eq (by rw [hpc]; rfl) k
  refine ⟨fun hidle => ?_, fun listing hl => ?_⟩
  · rw [hget, hafter.get_eq (by rw [hidle]; rfl), hmap.2]
  · rw [hget, hafter.getAfterRestart_eq hl, hmap.2]

/-- A MemTable that repeats the first file is dropped, and the next flush truncates the
log. -/
theorem unharmed_of_run_repeated : ∃ s₀ s : Sys Unit, .failed () (.put [1] [7]) ∈ s.hist ∧
    log s.hist = [] ∧ s.pc () = .idle ∧ s₀.Unharmed (.ofThreshold 1) s [1] := by
  let cfg : Config := .ofThreshold 1
  let again : WalEntry := .put [1] [7]
  let old : Swapped := ⟨cfg.nextSstablePath 2, MemTable.new.apply again, 1⟩
  let write (e : WalEntry) : List (Act Unit) := [.call () (.write e), .append (), .insert ()]
  let flush (now : ℕ) : List (Act Unit) :=
    [.name () now, .swap (), .create (), .finish (), .rename (), .truncate (), .publish ()]
  obtain ⟨s₀, hrun, hpc, h₀⟩ := exists_of_nexts cfg (fun s a => s.Ticks a ∧ a.Fits) Sys.init
    (write again ++ flush 1 ++ write again) (fun s => s.pc () = .flushing again .start ∧
      (s.nexts cfg (fun s a => s.Ticks a ∧ a.Fits) [.name () 2, .swap (), .create ()]).any
        (fun s => decide ((s.pc () = .flushing again (.writing old) ∧ s.Redundant ()) ∧
          ((s.flushFails () again).nexts cfg (fun s a => s.Ticks a ∧ a.Fits)
            (write (.put [2] [8]) ++ flush 3)).any (fun s => decide
              (.failed () again ∈ s.hist ∧ log s.hist = [] ∧ s.pc () = .idle)) = true)) = true)
    (by decide +kernel)
  obtain ⟨s₁, hrun₁, ⟨hwriting, hredundant⟩, h₁⟩ := exists_of_nexts cfg _ _ _ (fun s : Sys Unit =>
    (s.pc () = .flushing again (.writing old) ∧ s.Redundant ()) ∧
      ((s.flushFails () again).nexts cfg (fun s a => s.Ticks a ∧ a.Fits)
        (write (.put [2] [8]) ++ flush 3)).any (fun s => decide
          (.failed () again ∈ s.hist ∧ log s.hist = [] ∧ s.pc () = .idle)) = true) h₀
  obtain ⟨s₂, hrun₂, hfailed, hlog, hidle⟩ := exists_of_nexts cfg _ _ _ (fun s : Sys Unit =>
    .failed () again ∈ s.hist ∧ log s.hist = [] ∧ s.pc () = .idle) h₁
  have hserves : ∀ (s : Sys Unit) a s',
      Runs.Guarded (Step cfg) (fun s a => a.Serves ∧ s.Ticks a ∧ a.Fits) s a s' →
      Runs.Guarded (Step cfg) (fun s a => s.Harmless cfg a ∧ s.Ticks a ∧ a.Fits) s a s' := by
    rintro s a s' ⟨hs, ha, hmeets⟩
    refine ⟨hs, ?_, hmeets⟩
    cases a <;> trivial
  have hfails : Runs.Guarded (Step cfg) (fun s a => s.Harmless cfg a ∧ s.Ticks a ∧ a.Fits)
      s₁ (.flushFails ()) (s₁.flushFails () again) :=
    ⟨.flushFails hwriting (by simp), hredundant, trivial, trivial⟩
  exact ⟨s₀, s₂, hfailed, hlog, hidle, unharmed_of_run (hrun.mono hserves) hpc
    (((hrun₁.mono hserves).snoc hfails).trans (hrun₂.mono hserves))
    (by simp [write, flush, WalEntry.key])⟩

/-- **A flush that cannot create its file loses the MemTable** for all readers: the write
that was there a moment ago is answered with nothing. -/
theorem not_unharmed_of_run :
    ¬∀ (cfg : Config) (as as' : List (Act Unit)) (s₀ s : Sys Unit) (e : WalEntry) (k : Key),
      Runs.Run (Runs.Guarded (Step cfg) fun s a =>
        (a.Serves ∨ a = .flushFails ()) ∧ s.Ticks a ∧ a.Fits) Sys.init as s₀ →
      s₀.pc () = .flushing e .start →
      Runs.Run (Runs.Guarded (Step cfg) fun s a =>
        (a.Serves ∨ a = .flushFails ()) ∧ s.Ticks a ∧ a.Fits) s₀ as' s →
      (∀ e', .call () (.write e') ∈ as' → e'.key ≠ k) → s₀.Unharmed cfg s k := by
  intro h
  let cfg : Config := .ofThreshold 1
  let e : WalEntry := .put [1] [7]
  let old : Swapped := ⟨cfg.nextSstablePath 1, MemTable.new.apply e, 0⟩
  obtain ⟨s₀, hrun, ⟨hpc, hbefore⟩, h₀⟩ := exists_of_nexts cfg (fun s a => s.Ticks a ∧ a.Fits)
    Sys.init [.call () (.write e), .append (), .insert ()] (fun s =>
      (s.pc () = .flushing e .start ∧ Lsm.get s.fs s.mem s.levels [1] = .ok (some [7])) ∧
      (s.nexts cfg (fun s a => s.Ticks a ∧ a.Fits) [.name () 1, .swap ()]).any (fun s => decide
        (s.pc () = .flushing e (.swapped old) ∧
          Lsm.get s.fs s.mem s.levels [1] = .ok none)) = true) (by decide +kernel)
  obtain ⟨s₁, hrun₁, hswapped, hafter⟩ := exists_of_nexts cfg _ _ _ (fun s : Sys Unit =>
    s.pc () = .flushing e (.swapped old) ∧ Lsm.get s.fs s.mem s.levels [1] = .ok none) h₀
  have hserves : ∀ (s : Sys Unit) a s',
      Runs.Guarded (Step cfg) (fun s a => a.Serves ∧ s.Ticks a ∧ a.Fits) s a s' →
      Runs.Guarded (Step cfg) (fun s a => (a.Serves ∨ a = .flushFails ()) ∧ s.Ticks a ∧ a.Fits)
        s a s' := fun _ _ _ hs => ⟨hs.1, Or.inl hs.2.1, hs.2.2⟩
  have hfails : Runs.Guarded (Step cfg)
      (fun s a => (a.Serves ∨ a = .flushFails ()) ∧ s.Ticks a ∧ a.Fits)
      s₁ (.flushFails ()) (s₁.flushFails () e) :=
    ⟨.flushFails hswapped (by simp), Or.inr rfl, trivial, trivial⟩
  have hsame := (h cfg _ _ s₀ _ e [1] (hrun.mono hserves) hpc ((hrun₁.mono hserves).snoc hfails)
    (by simp)).get rfl
  -- the MemTable and the files are those of the moment after the swap
  change Lsm.get s₁.fs s₁.mem s₁.levels [1] = _ at hsame
  rw [hafter, hbefore] at hsame
  exact absurd hsame (by decide)

end Sys

end Tabula
