import Tabula.Lsm.Regular

/-!
# A key with one value

Two results are about a key that is written with one value only: once the write is
acknowledged, the value survives a crash, and readers find it. Where the copies of such
a key are, and how many, makes no difference to what they say, so a read that finds one
is a read of the value (`Tabula.searchLevels_tells`), and both results come down to
one copy being in sight.
-/

namespace Tabula

open SortedTable

variable {T : Type} {cfg : Config} {P : WalEntry → Prop} {Q : MemTable → Prop} {k : Key} {v : Value}

/-- The entry fits the length fields, and does not give the key any other value. -/
def WalEntry.Tells (k : Key) (v : Value) (e : WalEntry) : Prop :=
  e.IsShort ∧ (e.key = k → e.raw = v)

/-- The same of a MemTable. -/
def MemTable.Tells (k : Key) (v : Value) (mem : MemTable) : Prop :=
  mem.IsShort ∧ ∀ w, mem.get k = some w → w = v

theorem MemTable.Tells.apply {mem : MemTable} (h : mem.Tells k v) {e : WalEntry}
    (he : e.Tells k v) : (mem.apply e).Tells k v := by
  refine ⟨h.1.apply he.1, fun w hw => ?_⟩
  rw [MemTable.get_apply] at hw
  split at hw
  · rename_i hk
    rw [← Option.some.inj hw, he.2 hk]
  · exact h.2 w hw

theorem carried_tells (k : Key) (v : Value) : Carried (WalEntry.Tells k v) (MemTable.Tells k v) :=
  ⟨⟨MemTable.isShort_new, by simp⟩, fun hmem he => hmem.apply he, fun he => he.1⟩

/-- A file that holds the key, with its value. -/
def Config.HasKey (cfg : Config) (k : Key) (v : Value) (fs : Fs) (p : Path) : Prop :=
  ∃ mem : MemTable, mem.Tells k v ∧ mem.get k ≠ none ∧ cfg.Holds fs p mem

theorem Config.HasKey.congr {fs fs' : Fs} {p : Path} (h : cfg.HasKey k v fs p)
    (hp : fs' p = fs p) : cfg.HasKey k v fs' p := by
  obtain ⟨mem, htells, hget, hholds⟩ := h
  exact ⟨mem, htells, hget, hholds.congr hp⟩

theorem Config.HasKey.ne_none {fs : Fs} {p : Path} (h : cfg.HasKey k v fs p) : fs p ≠ none := by
  obtain ⟨mem, -, -, hholds⟩ := h
  exact hholds.ne_none

/-- **A stock of files that agree on a key answers with its value**, as soon as one of
them holds it. -/
theorem searchLevels_tells {fs : Fs} {lm : LevelManager}
    (hstock : cfg.Stocked (MemTable.Tells k v) fs) (hl0 : ∀ p ∈ lm.l0, p.NamedSst ∧ fs p ≠ none)
    (hflat : (lm.levels.drop 1).flatten = []) (hv : isTombstone v = false)
    (hex : ∃ p ∈ lm.l0, cfg.HasKey k v fs p) :
    searchLevels fs lm k = .ok (some v) := by
  have hfile : ∀ p ∈ lm.l0,
      lookup k (fs.records p) = none ∨ lookup k (fs.records p) = some v := by
    intro p hp
    obtain ⟨hnamed, hne⟩ := hl0 p hp
    obtain ⟨-, mem, ⟨hshort, htells⟩, hholds⟩ := hstock p hnamed hne
    rw [(hholds.stored hshort).records_eq]
    rcases hget : lookup k mem.data with - | w
    · exact Or.inl rfl
    · exact Or.inr (congrArg some (htells w hget))
  have hhit : firstHit (lm.l0.reverse.map fs.records) k = some v := by
    refine firstHit_eq_of_forall (fun t ht => ?_) ?_
    · obtain ⟨p, hp, rfl⟩ := List.mem_map.mp ht
      exact hfile p (List.mem_reverse.mp hp)
    · obtain ⟨p, hp, mem, htells, hget, hholds⟩ := hex
      refine ⟨fs.records p, List.mem_map_of_mem (List.mem_reverse.mpr hp),
        (hfile p hp).resolve_left ?_⟩
      rw [(hholds.stored htells.1).records_eq]
      exact hget
  rw [hstock.searchLevels_eq (fun _ h => h.1) hl0 hflat, hhit, visible_of_not_tombstone hv]

/-! ### Runs in which a key has one value -/

/-- The write a call is one of. -/
def Event.write : Event T → Option WalEntry
  | called _ (.write e) => some e
  | _ => none

namespace Sys

/-- The writes that were called. -/
def writes (hist : List (Event T)) : List WalEntry := hist.filterMap Event.write

theorem writes_grows [DecidableEq T] {s s' : Sys T} {a : Act T} (h : Step cfg s a s') :
    writes s.hist ⊆ writes s'.hist := (h.hist_grows.filterMap Event.write).subset

/-- An acknowledgement comes from an insert, or from the end of a flush. -/
theorem acked_step [DecidableEq T] {s s' : Sys T} {a : Act T} (hs : Step cfg s a s')
    (ha : a.Succeeds) {t : T} {e : WalEntry} (h : .acked t e ∈ s'.hist) :
    .acked t e ∈ s.hist ∨ (s.pc t = .logged e ∧ s'.mem = s.mem.apply e) ∨
      ∃ f, s.pc t = .flushing e f := by
  cases hs with
  | create | write | finish | rename | miss => exact Or.inl h
  | call | append | fill | name | swap | truncate | hit | search | restart =>
    simp only [Sys.call, Sys.append, Sys.fill, Sys.name, Sys.swap, Sys.truncate, Sys.answer,
      Sys.restart, List.mem_append, List.mem_singleton, reduceCtorEq, or_false] at h
    exact Or.inl h
  | insert hpc =>
    simp only [Sys.insert, List.mem_append, List.mem_cons, reduceCtorEq, false_or, List.not_mem_nil,
      or_false, Event.acked.injEq] at h
    rcases h with h | ⟨rfl, rfl⟩
    · exact Or.inl h
    · exact Or.inr (Or.inl ⟨hpc, rfl⟩)
  | publish hpc =>
    simp only [Sys.publish, List.mem_append, List.mem_cons, reduceCtorEq, false_or,
      List.not_mem_nil, or_false, Event.acked.injEq] at h
    rcases h with h | ⟨rfl, rfl⟩
    · exact Or.inl h
    · exact Or.inr (Or.inr ⟨_, hpc⟩)
  | compact | appendFails | flushFails | truncateFails => exact ha.elim

/-- What is written fits the length fields, and no two flushes read the same time. -/
def Tidy (s : Sys T) : Act T → Prop
  | .call _ (.write e) => e.IsShort
  | .name _ now => now ∉ (clocks s.hist).map Prod.snd
  | _ => True

instance (s : Sys T) : (a : Act T) → Decidable (s.Tidy a)
  | .call _ (.write e) => inferInstanceAs (Decidable e.IsShort)
  | .name _ now => inferInstanceAs (Decidable (now ∉ (clocks s.hist).map Prod.snd))
  | .call _ (.get _) | .append _ | .insert _ | .swap _ | .create _ | .write _ _ | .finish _
  | .rename _ | .truncate _ | .publish _ | .look _ | .search _ | .compact _ _ | .restart _
  | .appendFails _ _ | .flushFails _ | .truncateFails _ => .isTrue trivial

end Sys

namespace Sys

/-- **One step**, when the key is given one value only. -/
theorem Regular.step_tells [DecidableEq T] {s s' : Sys T} {a : Act T}
    (h : Regular cfg (WalEntry.Tells k v) (MemTable.Tells k v) s) (hs : Step cfg s a s')
    (ha : a.Succeeds) (htidy : s.Tidy a) (honly : ∀ e ∈ writes s'.hist, e.key = k → e.raw = v) :
    Regular cfg (WalEntry.Tells k v) (MemTable.Tells k v) s' := by
  refine h.step (carried_tells k v) hs ha ?_ ?_
  · rintro t e rfl
    exact ⟨htidy, honly e (List.mem_filterMap.mpr ⟨_, hs.called_mem, rfl⟩)⟩
  · rintro t now rfl
    exact htidy

/-- A file that holds the key goes on holding it. -/
theorem Regular.hasKey_step [DecidableEq T] {s s' : Sys T} {a : Act T} (h : Regular cfg P Q s)
    (hs : Step cfg s a s') (ha : a.Succeeds) {now : ℕ}
    (hkey : cfg.HasKey k v s.fs (cfg.nextSstablePath now)) :
    cfg.HasKey k v s'.fs (cfg.nextSstablePath now) :=
  hkey.congr (h.named.fs_step hs (by
    rintro io now' rfl
    exact ha) hkey.ne_none)

theorem regular_of_run [DecidableEq T] {s : Sys T} {as : List (Act T)} {G : Sys T → Act T → Prop}
    (hG : ∀ s a, G s a → a.Succeeds ∧ s.Tidy a)
    (hrun : Runs.Run (Runs.Guarded (Step cfg) G) Sys.init as s)
    (honly : ∀ e ∈ writes s.hist, e.key = k → e.raw = v) :
    Regular cfg (WalEntry.Tells k v) (MemTable.Tells k v) s :=
  hrun.invariant (I := fun s => (∀ e ∈ writes s.hist, e.key = k → e.raw = v) →
    Regular cfg (WalEntry.Tells k v) (MemTable.Tells k v) s) (fun _ => .init (carried_tells k v))
    (fun _ a _ hI hs honly => (hI fun e he => honly e (writes_grows hs.1 he)).step_tells hs.1
      (hG _ a hs.2).1 (hG _ a hs.2).2 honly) honly

end Sys

end Tabula
