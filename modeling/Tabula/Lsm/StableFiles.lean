import Tabula.Lsm.DeletedFiles

/-!
# What has reached stable storage

So far a file was what the process sees of it, which is what the operating system has in
its cache. Stable storage has a file as it was when the system last wrote it back, or a part
of that, and the store asks for nothing: `append` is called without `sync`, and neither
the writer of SSTables nor a compaction has a `sync_all`. A rename, a deletion and a `set_len`
get there in their own time (`Tabula.Powered.Moves`).

What `Lsm::open` would find there for a key is a snapshot of that key. If the log there has the
key, it is the one the log ends with; else it is that of the file in which the search ends;
and if there is none, it is that of L1 (`Tabula.Ledger.upTo`). A file on stable storage is the
one in the cache, or one that a compaction has deleted there (`Tabula.Sys.Gone`).

A log that is written back is longer than the one before, or it is a new one, and a file that
is written back says something newer. What takes a key back is a deletion, or a log that is
cut, when nothing on stable storage is as late (`Tabula.Powered.Orderly`).
-/

namespace Tabula

open SortedTable

variable {cfg : Config}

/-- The store on a machine that can lose its power. -/
structure Powered where
  sys : Sys Unit
  /-- The log on stable storage. -/
  wal : Bytes
  /-- The other files there. -/
  fs : Fs
  /-- The file of the flush that has emptied the log, until that has got there. -/
  owed : Option Path

/-- What can happen next: a step of the store, or the log or another file is written back, as
it is or the first `n` bytes of it. -/
inductive Powered.Move where
  | run (a : Act Unit) : Powered.Move
  | log (n : ℕ) : Powered.Move
  | file (p : Path) (n : ℕ) : Powered.Move

namespace Powered

/-- A new directory. -/
def init : Powered := ⟨Sys.init, [], fun _ => none, none⟩

variable (d : Powered)

def step (a : Act Unit) (s' : Sys Unit) : Powered :=
  { d with sys := s', owed := d.owed.or (d.sys.empties a) }

/-- The log is written back. -/
def writeLog (n : ℕ) : Powered := { d with wal := d.sys.wal.take n, owed := none }

/-- A file is written back, or deleted. -/
def writeFile (p : Path) (n : ℕ) : Powered :=
  { d with fs := Function.update d.fs p ((d.sys.fs p).map (List.take n)) }

/-- **One move.** What is on stable storage does not get shorter by being written back: a
log that is the same log, and a file that is the beginning of the one in the cache. -/
inductive Moves (cfg : Config) (d : Powered) : Move → Powered → Prop
  | run {a s'} (hs : Step cfg d.sys a s') : Moves cfg d (.run a) (d.step a s')
  | log {n} (hn : d.owed = none → d.wal.length ≤ n) : Moves cfg d (.log n) (d.writeLog n)
  | file {p n} (hn : ∀ bytes bytes', d.fs p = some bytes → d.sys.fs p = some bytes' →
      bytes <+: bytes' → bytes.length ≤ n) : Moves cfg d (.file p n) (d.writeFile p n)

end Powered

/-! ### The condition -/

/-- The file is the first to be read of those that have the key. -/
def Config.Finds (cfg : Config) (fs : Fs) (k : Key) (p : Path) : Prop :=
  ∃ files0 files1, cfg.Shelves fs files0 files1 ∧
    (⟨[files0, files1]⟩ : LevelManager).finder fs k = some p

/-- A log has an entry of a key. -/
def Wal.Logs (wal : Bytes) (k : Key) : Prop :=
  ∃ es, Wal.replay (some wal) = .ok es ∧ ∃ e ∈ es, e.key = k

theorem Wal.logs_iff {wal : Bytes} {es : List WalEntry} (h : Wal.replay (some wal) = .ok es)
    (k : Key) : Wal.Logs wal k ↔ (MemTable.new.applyAll es).get k ≠ none := by
  rw [MemTable.get_applyAll_ne_none]
  constructor
  · rintro ⟨es', hes', he⟩
    obtain rfl : es = es' := Except.ok.inj (h.symm.trans hes')
    exact Or.inl he
  · rintro (he | hnew)
    · exact ⟨es, h, he⟩
    · exact absurd rfl hnew

/-- **What L1 says of a key is on stable storage**: a search there ends in a file that the store
still has, or L1 does not have the key. -/
structure Sys.HandedOver (cfg : Config) (s : Sys Unit) (fs : Fs) (k : Key) : Prop where
  kept : ∀ q, cfg.Finds fs k q → s.fs q ≠ none
  bottom : ∀ q ∈ s.levels.l1, lookup k (s.fs.records q) ≠ none → fs q ≠ none

/-- **Nothing is taken back.** A step of the store completes, and a compaction finds one value for
each key in L0.

When a log is cut, a key that only the old one has is found in the file of the flush that has
emptied it, or in one of a later flush; or that file has been merged, and L1 is there. While a
flush has its file renamed, a part of the log does not come before the file.

An SSTable gets there as a whole, and when it is deleted there, L1 is there for what was found
in it. -/
def Powered.Orderly (cfg : Config) (d : Powered) : Powered.Move → Prop
  | .run a => d.sys.Completes cfg a ∧ d.sys.Clocked cfg a ∧ a.Fits ∧ d.sys.Agrees a
  | .log n =>
      (∀ p, d.owed = some p → ∀ k, Wal.Logs d.wal k → ¬Wal.Logs (d.sys.wal.take n) k →
        (∃ now, p.name ≤ (cfg.nextSstablePath now).name ∧
          lookup k (d.fs.records (cfg.nextSstablePath now)) ≠ none) ∨
        d.sys.fs p = none ∧ d.sys.HandedOver cfg d.fs k) ∧
      ∀ e w k, d.sys.pc () = .flushing e (.renamed w) →
        lookup k (d.fs.records w.path) ≠ none → Wal.Logs (d.sys.wal.take n) k →
        Wal.Logs d.wal k ∨ d.sys.wal.length ≤ n
  | .file p n => p.NamedSst →
      (∀ bytes, d.sys.fs p = some bytes → bytes.length ≤ n) ∧
      (d.sys.fs p = none → ∀ k, cfg.Finds d.fs k p → ¬Wal.Logs d.wal k →
        d.sys.HandedOver cfg (d.fs.remove p) k)

theorem Config.Shelves.finds_iff {fs : Fs} {files0 files1 : List Path}
    (h : cfg.Shelves fs files0 files1) {k : Key} {p : Path} :
    cfg.Finds fs k p ↔ (⟨[files0, files1]⟩ : LevelManager).finder fs k = some p := by
  constructor
  · rintro ⟨files0', files1', h', hp⟩
    obtain ⟨rfl, rfl⟩ := h.eq h'
    exact hp
  · exact fun hp => ⟨files0, files1, h, hp⟩

/-! ### What is on record -/

/-- What is on record about stable storage: the files by name, the entries of the log, and how
many of the writes there are up to the last of them. -/
structure Ledger where
  stamps : Stamps
  files0 : List Path
  files1 : List Path
  logged : List WalEntry
  reach : ℕ

namespace Ledger

/-- The files as the lists of a restart. -/
def lists (g : Ledger) : LevelManager := ⟨[g.files0, g.files1]⟩

/-- The log as the MemTable of a restart. -/
def mem (g : Ledger) : MemTable := MemTable.new.applyAll g.logged

/-- The value of a key. -/
def raw (g : Ledger) (d : Powered) (k : Key) : Option Value :=
  (g.mem.get k).or (g.lists.find d.fs k)

/-- The log has been written back. -/
def cut (g : Ledger) (s : Sys Unit) (es : List WalEntry) : Ledger :=
  { g with logged := es, reach := Sys.settled s.hist + es.length }

/-- The files are others. -/
def shelve (g : Ledger) (files0 files1 : List Path) : Ledger :=
  { g with files0 := files0, files1 := files1 }

/-- **How late it is.** -/
def upTo (g : Ledger) (d : Powered) (k : Key) : ℕ :=
  if g.mem.get k = none then
    (g.lists.finder d.fs k).elim g.stamps.bottom (g.stamps.of d.sys.levels)
  else g.reach

variable {g : Ledger} {d : Powered} {k : Key} {p : Path}

theorem upTo_of_logged (hmem : g.mem.get k ≠ none) : g.upTo d k = g.reach := if_neg hmem

theorem upTo_of_finder (hmem : g.mem.get k = none) (hp : g.lists.finder d.fs k = some p) :
    g.upTo d k = g.stamps.of d.sys.levels p := by
  rw [upTo, if_pos hmem, hp]
  rfl

theorem upTo_of_none (hmem : g.mem.get k = none) (hnone : g.lists.finder d.fs k = none) :
    g.upTo d k = g.stamps.bottom := by
  rw [upTo, if_pos hmem, hnone]
  rfl

theorem raw_of_finder (hmem : g.mem.get k = none) (hp : g.lists.finder d.fs k = some p) :
    g.raw d k = lookup k (d.fs.records p) := by
  rw [raw, hmem, Option.none_or, LevelManager.find_eq_finder, hp]
  rfl

theorem raw_of_none (hmem : g.mem.get k = none) (hnone : g.lists.finder d.fs k = none) :
    g.raw d k = none := by
  rw [raw, hmem, Option.none_or, LevelManager.find_eq_finder, hnone]
  rfl

end Ledger

/-- **What holds in every run in which nothing is taken back.** -/
structure Powered.Accounts (cfg : Config) (d : Powered) (g : Ledger) : Prop where
  layered : d.sys.Layered cfg g.stamps
  finite : ∃ all : List Path, ∀ p, d.fs p ≠ none → p ∈ all
  shelves : cfg.Shelves d.fs g.files0 g.files1
  file : ∀ p : Path, p.NamedSst → d.fs p ≠ none →
    d.fs p = d.sys.fs p ∨ d.sys.Gone cfg g.stamps d.fs p
  replays : Wal.replay (some d.wal) = .ok g.logged
  tells : ∀ k v, g.mem.get k = some v → visible (some v) = Sys.mapAfter d.sys.hist g.reach k
  reach_le : g.reach ≤ (Sys.completed d.sys.hist).length
  pending : d.owed = none →
    d.wal <+: d.sys.wal ∧ g.reach = Sys.settled d.sys.hist + g.logged.length
  owed : ∀ p, d.owed = some p → d.sys.Owes cfg g.stamps g.reach p

/-! ### What is found -/

namespace Powered

/-- **No key goes back**: what would be found is as late as before, or later; and it has not
changed, or is the snapshot of its time. -/
structure Follows (d d' : Powered) (g g' : Ledger) : Prop where
  map : ∀ n ≤ (Sys.completed d.sys.hist).length,
    Sys.mapAfter d'.sys.hist n = Sys.mapAfter d.sys.hist n
  upTo : ∀ k, g.upTo d k ≤ g'.upTo d' k
  shows : ∀ k, g'.raw d' k = g.raw d k ∨
    visible (g'.raw d' k) = Sys.mapAfter d'.sys.hist (g'.upTo d' k) k

namespace Accounts

variable {d d' : Powered} {g g' : Ledger}

theorem inPlace (h : Accounts cfg d g) (p : Path) (hp : p.NamedSst) (hne : d.fs p ≠ none) :
    cfg.InPlace p := by
  rcases h.file p hp hne with hsame | hgone
  · exact h.layered.sheltered.housed.inPlace p hp (hsame.symm.trans_ne hne)
  · exact hgone.place

theorem exists_lists (h : Accounts cfg d g) : ∃ listing, d.fs.Lists cfg.dir listing := by
  obtain ⟨all, hall⟩ := h.finite
  exact Fs.exists_lists_of_finite hall cfg.dir

theorem finds_iff (h : Accounts cfg d g) {k : Key} {p : Path} :
    cfg.Finds d.fs k p ↔ g.lists.finder d.fs k = some p :=
  h.shelves.finds_iff

/-- **Every file there can be read.** -/
theorem complete (h : Accounts cfg d g) {p : Path} (hp : p.NamedSst) (hne : d.fs p ≠ none) :
    d.fs.Complete p := by
  rcases h.file p hp hne with hsame | hgone
  · exact (h.layered.sheltered.intact.files p hp (hsame.symm.trans_ne hne)).congr hsame
  · exact hgone.complete

/-- A file there is one in the lists, or an earlier one. -/
theorem tracked_or_gone (h : Accounts cfg d g) {p : Path} (hp : p.NamedSst) (hne : d.fs p ≠ none) :
    (p ∈ d.sys.stock ++ d.sys.levels.l1 ∧ d.fs p = d.sys.fs p) ∨
      d.sys.Gone cfg g.stamps d.fs p ∧ g.stamps.of d.sys.levels p = g.stamps.file p := by
  rcases h.file p hp hne with hsame | hgone
  · exact Or.inl ⟨(h.layered.mirrored.mem_iff h.layered.sheltered.housed p).mpr
      ⟨hp, hsame.symm.trans_ne hne⟩, hsame⟩
  · exact Or.inr ⟨hgone, if_neg fun hm =>
      (h.layered.tracked (List.mem_append_right _ hm)).2 hgone.missing⟩

theorem of_le (h : Accounts cfg d g) {p : Path} (hp : p.NamedSst) (hne : d.fs p ≠ none) :
    g.stamps.of d.sys.levels p ≤ (Sys.completed d.sys.hist).length := by
  rcases h.tracked_or_gone hp hne with ⟨htracked, -⟩ | ⟨hgone, hof⟩
  · exact h.layered.of_le htracked
  · rw [hof]
    exact hgone.below.trans h.layered.bottom_le

/-- **What a file says was true** at its time. -/
theorem tells_of (h : Accounts cfg d g) {p : Path} (hp : p.NamedSst) (hne : d.fs p ≠ none)
    {k : Key} {v : Value} (hv : lookup k (d.fs.records p) = some v) :
    visible (some v) = Sys.mapAfter d.sys.hist (g.stamps.of d.sys.levels p) k := by
  rcases h.tracked_or_gone hp hne with ⟨htracked, hsame⟩ | ⟨hgone, hof⟩
  · rw [Fs.records_congr hsame] at hv
    exact h.layered.tells htracked hv
  · rw [hof]
    exact hgone.tells k v hv

/-- The file in which a search ends is there. -/
theorem of_finder (h : Accounts cfg d g) {k : Key} {p : Path}
    (hp : g.lists.finder d.fs k = some p) : p.NamedSst ∧ d.fs p ≠ none :=
  h.shelves.mem_readOrder (LevelManager.of_finder hp).1

/-- **What would be found is the snapshot of its time.** -/
theorem shows (h : Accounts cfg d g) {k : Key} (hraw : g.raw d k ≠ none) :
    visible (g.raw d k) = Sys.mapAfter d.sys.hist (g.upTo d k) k := by
  cases hmem : g.mem.get k with
  | some v =>
    rw [Ledger.raw, Ledger.upTo_of_logged (hmem.trans_ne (Option.some_ne_none v)), hmem,
      Option.some_or]
    exact h.tells k v hmem
  | none =>
    cases hfinder : g.lists.finder d.fs k with
    | none => exact absurd (Ledger.raw_of_none hmem hfinder) hraw
    | some p =>
      obtain ⟨hp, hne⟩ := h.of_finder hfinder
      obtain ⟨v, hv⟩ := Option.ne_none_iff_exists'.mp (LevelManager.of_finder hfinder).2
      rw [Ledger.raw_of_finder hmem hfinder, Ledger.upTo_of_finder hmem hfinder, hv]
      exact h.tells_of hp hne hv

/-- What a file says would be found. -/
theorem shows_of_finder (h : Accounts cfg d g) {k : Key} (hmem : g.mem.get k = none) {p : Path}
    (hp : g.lists.finder d.fs k = some p) :
    visible (g.raw d k) = Sys.mapAfter d.sys.hist (g.upTo d k) k :=
  h.shows (by
    rw [Ledger.raw_of_finder hmem hp]
    exact (LevelManager.of_finder hp).2)

theorem upTo_le (h : Accounts cfg d g) (k : Key) :
    g.upTo d k ≤ (Sys.completed d.sys.hist).length := by
  rw [Ledger.upTo]
  split
  · cases hfinder : g.lists.finder d.fs k with
    | none => exact h.layered.bottom_le
    | some p =>
      obtain ⟨hp, hne⟩ := h.of_finder hfinder
      exact h.of_le hp hne
  · exact h.reach_le

/-- A file of a flush has the name of a reading. -/
theorem exists_reading (h : Accounts cfg d g) {now : ℕ}
    (hne : d.fs (cfg.nextSstablePath now) ≠ none) :
    ∃ c ∈ Sys.clocks d.sys.hist, c.2 = now := by
  rcases h.file _ (cfg.named_nextSstablePath now) hne with hsame | hgone
  · obtain ⟨t, hm⟩ := h.layered.sheltered.housed.named.file now (hsame.symm.trans_ne hne)
    exact ⟨_, hm, rfl⟩
  · exact List.mem_map.mp (hgone.reading now rfl)

/-- Files of flushes come with rising stamps. -/
theorem file_le_of (h : Accounts cfg d g) {c : Unit × ℕ} (hc : c ∈ Sys.clocks d.sys.hist) {now : ℕ}
    (hne : d.fs (cfg.nextSstablePath now) ≠ none)
    (hle : (cfg.nextSstablePath c.2).name ≤ (cfg.nextSstablePath now).name) :
    g.stamps.file (cfg.nextSstablePath c.2) ≤
      g.stamps.of d.sys.levels (cfg.nextSstablePath now) := by
  obtain ⟨c', hc', rfl⟩ := h.exists_reading hne
  rw [h.layered.of_reading]
  exact h.layered.stamped.rising c hc c' hc' hle

/-- Files of compactions come with that of L1, or earlier ones. -/
theorem of_le_bottom (h : Accounts cfg d g) {now : ℕ}
    (hne : d.fs ⟨cfg.dir, FileName.l1Name now⟩ ≠ none) :
    g.stamps.of d.sys.levels ⟨cfg.dir, FileName.l1Name now⟩ ≤ g.stamps.bottom := by
  rcases h.tracked_or_gone (cfg.named_l1 now) hne with ⟨htracked, hsame⟩ | ⟨hgone, hof⟩
  · have hl1 := (h.layered.mirrored.shelves.mem1 _).mpr ⟨hsame.symm.trans_ne hne, now, rfl⟩
    exact (if_pos hl1).le
  · rw [hof]
    exact hgone.below

/-- **A step of the store** takes no key back. -/
theorem step_run (h : Accounts cfg d g) {a : Act Unit} {s' : Sys Unit} (hs : Step cfg d.sys a s')
    (horderly : d.Orderly cfg (.run a)) :
    ∃ g', Accounts cfg (d.step a s') g' ∧ Follows d (d.step a s') g g' := by
  obtain ⟨hcompletes, hclocked, hfits, hagrees⟩ := horderly
  obtain ⟨m', hlayered', hlater⟩ := h.layered.step hs hcompletes hclocked hfits hagrees
  have hmap : ∀ n ≤ (Sys.completed d.sys.hist).length,
      Sys.mapAfter s'.hist n = Sys.mapAfter d.sys.hist n := fun n hn => Sys.mapAfter_step hs hn
  have hfresh : ∀ p : Path, p.NamedSst → d.fs p ≠ none → Sys.fresh cfg a ≠ some p := by
    intro p hp hne
    rcases h.file p hp hne with hsame | hgone
    · exact h.layered.fresh_ne hclocked hp (hsame.symm.trans_ne hne)
    · exact hgone.fresh_ne h.layered hclocked
  refine ⟨{ g with stamps := m' }, ⟨hlayered', h.finite, h.shelves, fun p hp hne => ?_, h.replays,
    fun k v hv => ?_, ?_, fun howed => ?_, fun p hp => ?_⟩, hmap, fun k => ?_,
    fun k => Or.inl rfl⟩
  · rcases h.file p hp hne with hsame | hgone
    · rcases h.layered.fs_step hs hcompletes hclocked hp (hsame.symm.trans_ne hne) with
        hkept | ⟨hmissing, hpc, hlist, hlast⟩
      · exact Or.inl (hsame.trans hkept.symm)
      · exact Or.inr (.of_deleted h.layered hs hclocked hlayered' hlater hsame hmissing hpc hlist
          hlast)
    · exact Or.inr (hgone.step h.layered hs hcompletes hclocked hlayered' hlater)
  · exact (h.tells k v hv).trans (congrFun (hmap _ h.reach_le) k).symm
  · exact h.reach_le.trans (Sys.length_completed_step hs)
  · obtain ⟨howed, hempties⟩ := Option.or_eq_none_iff.mp howed
    obtain ⟨hpre, hreach⟩ := h.pending howed
    obtain ⟨hwal, hsettled⟩ := Sys.wal_step hs hcompletes (by
      rintro t rfl
      cases hs with
      | truncate hpc => simp [hpc] at hempties)
    exact ⟨hpre.trans hwal, hreach.trans (congrArg (· + _) hsettled.symm)⟩
  · rcases Option.or_eq_some_iff.mp hp with howed | ⟨-, hempties⟩
    · exact (h.owed p howed).step h.layered hs hcompletes hclocked hlayered' hlater
    · exact .of_empties h.layered hs hcompletes hlayered' hlater hempties h.reach_le
  · change Ledger.upTo g d k ≤ if g.mem.get k = none then
      (g.lists.finder d.fs k).elim m'.bottom (m'.of s'.levels) else g.reach
    rw [Ledger.upTo]
    split
    · cases hfinder : g.lists.finder d.fs k with
      | none => exact hlater.bottom
      | some p =>
        obtain ⟨hp, hne⟩ := h.of_finder hfinder
        exact hlater.kept p (hfresh p hp hne)
    · exact le_rfl

/-- No file is later than the end of the log, and only that of the flush than its
beginning. -/
theorem of_le_settled (h : Accounts cfg d g) {p : Path} (hp : p.NamedSst) (hne : d.fs p ≠ none) :
    g.stamps.of d.sys.levels p ≤ Sys.settled d.sys.hist ∨
      ∃ e w, d.sys.pc () = .flushing e (.renamed w) ∧ p = w.path := by
  rcases h.tracked_or_gone hp hne with ⟨htracked, -⟩ | ⟨hgone, hof⟩
  · exact h.layered.of_le_settled htracked
  · rw [hof]
    exact Or.inl (hgone.below.trans h.layered.stamped.bottom_le)

/-- Where L1 is on stable storage, what is found there is no earlier. -/
theorem bottom_le_upTo (h : Accounts cfg d g) {k : Key} (hmem : g.mem.get k = none)
    (hover : d.sys.HandedOver cfg d.fs k) : g.stamps.bottom ≤ g.upTo d k := by
  cases hfinder : g.lists.finder d.fs k with
  | none => exact (Ledger.upTo_of_none hmem hfinder).ge
  | some p =>
    obtain ⟨hp, hne⟩ := h.of_finder hfinder
    rw [Ledger.upTo_of_finder hmem hfinder]
    rcases h.tracked_or_gone hp hne with ⟨htracked, -⟩ | ⟨hgone, -⟩
    · exact h.layered.bottom_le_of htracked
    · exact absurd hgone.missing (hover.kept p (h.finds_iff.mpr hfinder))

/-- And when nothing is found, there was nothing. -/
theorem shows_of_handedOver (h : Accounts cfg d g) {k : Key} (hmem : g.mem.get k = none)
    (hover : d.sys.HandedOver cfg d.fs k) :
    visible (g.raw d k) = Sys.mapAfter d.sys.hist (g.upTo d k) k := by
  cases hfinder : g.lists.finder d.fs k with
  | some p => exact h.shows_of_finder hmem hfinder
  | none =>
    -- every file of L1 that has the key would have been found
    have hnone : (⟨[[], d.sys.levels.l1]⟩ : LevelManager).find d.sys.fs k = none := by
      refine firstHit_eq_none_iff.mpr fun rs hrs => ?_
      rw [LevelManager.readOrder_eq rfl] at hrs
      obtain ⟨q, hq, rfl⟩ := List.mem_map.mp hrs
      have hq : q ∈ d.sys.levels.l1 := hq
      by_contra hk
      obtain ⟨hp, hthere⟩ := h.layered.tracked (List.mem_append_right _ hq)
      have hne := hover.bottom q hq hk
      rcases h.file q hp hne with hsame | hgone
      · refine hk ?_
        rw [← Fs.records_congr hsame]
        exact LevelManager.finder_eq_none_iff.mp hfinder q
          (h.shelves.mem_readOrder_iff.mpr ⟨h.inPlace q hp hne, hne⟩)
      · exact hthere hgone.missing
    rw [Ledger.raw_of_none hmem hfinder, Ledger.upTo_of_none hmem hfinder,
      ← h.layered.layers.bottom k, hnone]

section Log

variable (h : Accounts cfg d g) {n : ℕ} {es : List WalEntry}
  (hreplay : Wal.replay (some (d.sys.wal.take n)) = .ok es)

include h

/-- The whole log is replayed to its entries. -/
theorem replay_eq : Wal.replay (some d.sys.wal) = .ok (Sys.log d.sys.hist) := by
  rw [h.layered.sheltered.logged]
  exact Wal.replay_encodeAll h.layered.sheltered.carries.log

theorem settled_add_length :
    Sys.settled d.sys.hist + (Sys.log d.sys.hist).length = (Sys.completed d.sys.hist).length :=
  Nat.sub_add_cancel h.layered.stamped.suffix.length_le

include hreplay

theorem writeLog : Accounts cfg (d.writeLog n) (g.cut d.sys es) := by
  have hes : es <+: Sys.log d.sys.hist :=
    Wal.replay_mono hreplay h.replay_eq (List.take_prefix _ _)
  refine ⟨h.layered, h.finite, h.shelves, h.file, hreplay,
    fun k v hv => Sys.mapAfter_of_log h.layered.stamped.suffix hes hv, ?_,
    fun _ => ⟨List.take_prefix _ _, rfl⟩, fun p hp => absurd hp.symm (Option.some_ne_none p)⟩
  exact (Nat.add_le_add_left hes.length_le _).trans h.settled_add_length.le

/-- The log does not end earlier. -/
theorem reach_le_cut (hn : d.owed = none → d.wal.length ≤ n) :
    g.reach ≤ (g.cut d.sys es).reach := by
  cases howed : d.owed with
  | none =>
    obtain ⟨hpre, hreach⟩ := h.pending howed
    have hle := (Wal.replay_mono h.replays hreplay
      (List.prefix_take_iff.mpr ⟨hpre, hn howed⟩)).length_le
    rw [hreach]
    exact Nat.add_le_add_left hle _
  | some p => exact (h.owed p howed).settled.trans (Nat.le_add_right _ _)

/-- A key that comes into the log is later there than in the files. -/
theorem upTo_le_cut (horderly : d.Orderly cfg (.log n)) {k : Key} (hold : g.mem.get k = none)
    (hnew : (g.cut d.sys es).mem.get k ≠ none) : g.upTo d k ≤ (g.cut d.sys es).reach := by
  rw [Ledger.upTo, if_pos hold]
  cases hfinder : g.lists.finder d.fs k with
  | none => exact h.layered.stamped.bottom_le.trans (Nat.le_add_right _ _)
  | some p =>
    obtain ⟨hp, hne⟩ := h.of_finder hfinder
    rcases h.of_le_settled hp hne with hle | ⟨e, w, hpc, rfl⟩
    · exact hle.trans (Nat.le_add_right _ _)
    · rcases horderly.2 e w k hpc (LevelManager.of_finder hfinder).2
        ((Wal.logs_iff hreplay k).mpr hnew) with hlogged | hlen
      · exact absurd hold ((Wal.logs_iff h.replays k).mp hlogged)
      · -- all of the log is there
        rw [List.take_of_length_le hlen] at hreplay
        obtain rfl : es = Sys.log d.sys.hist := Except.ok.inj (hreplay.symm.trans h.replay_eq)
        exact (h.of_le hp hne).trans h.settled_add_length.ge

/-- A key that goes from the log is in a file that is as late. -/
theorem shows_cut (horderly : d.Orderly cfg (.log n)) (hn : d.owed = none → d.wal.length ≤ n)
    {k : Key} (hold : g.mem.get k ≠ none) (hnew : (g.cut d.sys es).mem.get k = none) :
    g.reach ≤ (g.cut d.sys es).upTo (d.writeLog n) k ∧
      visible ((g.cut d.sys es).raw (d.writeLog n) k) =
        Sys.mapAfter d.sys.hist ((g.cut d.sys es).upTo (d.writeLog n) k) k := by
  have hlog := h.writeLog hreplay
  obtain ⟨p, howed⟩ : ∃ p, d.owed = some p := by
    rw [← Option.ne_none_iff_exists']
    intro howed
    -- the same log has not become shorter
    obtain ⟨more, hmore⟩ := Wal.replay_mono h.replays hreplay
      (List.prefix_take_iff.mpr ⟨(h.pending howed).1, hn howed⟩)
    obtain ⟨e, he, hk⟩ := (MemTable.get_applyAll_ne_none.mp hold).resolve_right (absurd rfl)
    exact MemTable.get_applyAll_ne_none.mpr (Or.inl ⟨e, hmore ▸ List.mem_append_left _ he, hk⟩)
      hnew
  have howes := h.owed p howed
  have hcut := horderly.1 p howed k ((Wal.logs_iff h.replays k).mpr hold)
    fun hlogged => (Wal.logs_iff hreplay k).mp hlogged hnew
  rcases hcut with ⟨now, hle, hkey⟩ | ⟨hmissing, hover⟩
  · obtain ⟨now', hfinder, hle'⟩ := hlog.shelves.exists_finder hkey
    obtain ⟨c, hc, rfl⟩ := howes.reading
    refine ⟨?_, hlog.shows_of_finder hnew hfinder⟩
    rw [Ledger.upTo_of_finder hnew hfinder]
    exact howes.file.trans (hlog.file_le_of hc (hlog.of_finder hfinder).2 (hle.trans hle'))
  · exact ⟨(howes.merged hmissing).trans (hlog.bottom_le_upTo hnew hover),
      hlog.shows_of_handedOver hnew hover⟩

end Log

/-- **The log is written back**, and takes no key back. -/
theorem step_log (h : Accounts cfg d g) {n : ℕ} (hn : d.owed = none → d.wal.length ≤ n)
    (horderly : d.Orderly cfg (.log n)) :
    ∃ g', Accounts cfg (d.writeLog n) g' ∧ Follows d (d.writeLog n) g g' := by
  obtain ⟨es, hreplay, -, -⟩ := Wal.exists_replay (d.sys.wal.take n)
  have hlog := h.writeLog hreplay
  refine ⟨_, hlog, fun _ _ => rfl, fun k => ?_, fun k => ?_⟩
  · by_cases hnew : (g.cut d.sys es).mem.get k = none
    · by_cases hold : g.mem.get k = none
      · rw [Ledger.upTo, Ledger.upTo, if_pos hold, if_pos hnew]
        exact le_rfl
      · rw [Ledger.upTo_of_logged hold]
        exact (h.shows_cut hreplay horderly hn hold hnew).1
    · rw [Ledger.upTo_of_logged hnew]
      by_cases hold : g.mem.get k = none
      · exact h.upTo_le_cut hreplay horderly hold hnew
      · rw [Ledger.upTo_of_logged hold]
        exact h.reach_le_cut hreplay hn
  · by_cases hnew : (g.cut d.sys es).mem.get k = none
    · by_cases hold : g.mem.get k = none
      · refine Or.inl ?_
        rw [Ledger.raw, Ledger.raw, hold, hnew]
        rfl
      · exact Or.inr (h.shows_cut hreplay horderly hn hold hnew).2
    · exact Or.inr (hlog.shows fun hraw => hnew (Option.or_eq_none_iff.mp hraw).1)

section File

variable (h : Accounts cfg d g) {p : Path} {n : ℕ} {files0 files1 : List Path}

theorem writeFile_of_ne {q : Path} (hq : q ≠ p) : (d.writeFile p n).fs q = d.fs q :=
  Function.update_of_ne hq _ _

include h

theorem finite_writeFile :
    ∃ all : List Path, ∀ q, (d.writeFile p n).fs q ≠ none → q ∈ all := by
  obtain ⟨all, hall⟩ := h.finite
  refine ⟨p :: all, fun q hq => ?_⟩
  by_cases hqp : q = p
  · exact hqp ▸ List.mem_cons_self
  · exact List.mem_cons_of_mem _ (hall q ((writeFile_of_ne hqp).symm.trans_ne hq))

/-- The file is what is in the cache, or none. -/
theorem writeFile (hsame : p.NamedSst → (d.writeFile p n).fs p = d.sys.fs p)
    (hshelves : cfg.Shelves (d.writeFile p n).fs files0 files1) :
    Accounts cfg (d.writeFile p n) (g.shelve files0 files1) := by
  refine ⟨h.layered, h.finite_writeFile, hshelves, fun q hq hne => ?_, h.replays, h.tells,
    h.reach_le, h.pending, h.owed⟩
  by_cases hqp : q = p
  · subst hqp
    exact Or.inl (hsame hq)
  · have hkept : (d.writeFile p n).fs q = d.fs q := writeFile_of_ne hqp
    exact (h.file q hq (hkept.symm.trans_ne hne)).imp hkept.trans fun hgone => hgone.congr hkept

omit h in
/-- It is enough to look at the keys that are not in the log, and for which the search ends in
another file than before. -/
theorem follows_of_finder (hfiles : ∀ k, g.mem.get k = none →
      ((g.shelve files0 files1).lists.finder (d.writeFile p n).fs k = g.lists.finder d.fs k ∧
        ∀ q, g.lists.finder d.fs k = some q → (d.writeFile p n).fs q = d.fs q) ∨
      g.upTo d k ≤ (g.shelve files0 files1).upTo (d.writeFile p n) k ∧
        visible ((g.shelve files0 files1).raw (d.writeFile p n) k) = Sys.mapAfter d.sys.hist
          ((g.shelve files0 files1).upTo (d.writeFile p n) k) k) :
    Follows d (d.writeFile p n) g (g.shelve files0 files1) := by
  have hlater : ∀ k, g.upTo d k ≤ (g.shelve files0 files1).upTo (d.writeFile p n) k ∧
      ((g.shelve files0 files1).raw (d.writeFile p n) k = g.raw d k ∨
        visible ((g.shelve files0 files1).raw (d.writeFile p n) k) = Sys.mapAfter d.sys.hist
          ((g.shelve files0 files1).upTo (d.writeFile p n) k) k) := by
    intro k
    cases hmem : g.mem.get k with
    | some v =>
      have hlogged : g.mem.get k ≠ none := hmem.trans_ne (Option.some_ne_none v)
      have hlogged' : (g.shelve files0 files1).mem.get k ≠ none := hlogged
      have hmem' : (g.shelve files0 files1).mem.get k = some v := hmem
      rw [Ledger.upTo_of_logged hlogged, Ledger.upTo_of_logged hlogged', Ledger.raw, Ledger.raw,
        hmem, hmem']
      exact ⟨le_rfl, Or.inl rfl⟩
    | none =>
      have hmem' : (g.shelve files0 files1).mem.get k = none := hmem
      rcases hfiles k hmem with ⟨hsame, hkept⟩ | ⟨hle, hshows⟩
      · cases hfinder : g.lists.finder d.fs k with
        | none =>
          rw [hfinder] at hsame
          rw [Ledger.upTo_of_none hmem hfinder, Ledger.upTo_of_none hmem' hsame,
            Ledger.raw_of_none hmem hfinder, Ledger.raw_of_none hmem' hsame]
          exact ⟨le_rfl, Or.inl rfl⟩
        | some q =>
          rw [hfinder] at hsame
          rw [Ledger.upTo_of_finder hmem hfinder, Ledger.upTo_of_finder hmem' hsame,
            Ledger.raw_of_finder hmem hfinder, Ledger.raw_of_finder hmem' hsame,
            Fs.records_congr (hkept q hfinder)]
          exact ⟨le_rfl, Or.inl rfl⟩
      · exact ⟨hle, Or.inr hshows⟩
  exact ⟨fun _ _ => rfl, fun k => (hlater k).1, fun k => (hlater k).2⟩

/-- A restart does not see the difference. -/
theorem follows_of_same (hsame : ∀ q : Path, q.NamedSst → (d.writeFile p n).fs q = d.fs q) :
    ∃ g', Accounts cfg (d.writeFile p n) g' ∧ Follows d (d.writeFile p n) g g' := by
  have hread : ∀ q ∈ g.lists.readOrder, (d.writeFile p n).fs q = d.fs q := fun q hq =>
    hsame q (h.shelves.mem_readOrder hq).1
  refine ⟨_, ⟨h.layered, h.finite_writeFile, h.shelves.congr hsame, fun q hq hne => ?_, h.replays,
    h.tells, h.reach_le, h.pending, h.owed⟩,
    follows_of_finder fun k _ => Or.inl ⟨LevelManager.finder_congr hread k, fun q hq => ?_⟩⟩
  · exact (h.file q hq ((hsame q hq).symm.trans_ne hne)).imp (hsame q hq).trans
      fun hgone => hgone.congr (hsame q hq)
  · exact hread q (LevelManager.of_finder hq).1

/-- **A file comes to stable storage**: what is found in it is later than what was found. -/
theorem follows_of_new (hp : p.NamedSst) (hold : d.fs p = none) (hthere : d.sys.fs p ≠ none)
    (hsame : (d.writeFile p n).fs p = d.sys.fs p) :
    ∃ g', Accounts cfg (d.writeFile p n) g' ∧ Follows d (d.writeFile p n) g g' := by
  have hne : (d.writeFile p n).fs p ≠ none := hsame.trans_ne hthere
  have hothers : ∀ q : Path, q ≠ p → (d.writeFile p n).fs q = d.fs q := fun q => writeFile_of_ne
  have hlive : p ∈ d.sys.stock ++ d.sys.levels.l1 :=
    (h.layered.mirrored.mem_iff h.layered.sheltered.housed p).mpr ⟨hp, hthere⟩
  obtain ⟨all, hall⟩ := h.finite_writeFile (p := p) (n := n)
  obtain ⟨listing, hl⟩ := Fs.exists_lists_of_finite hall cfg.dir
  have hplace : ∀ q : Path, q.NamedSst → (d.writeFile p n).fs q ≠ none → cfg.InPlace q := by
    intro q hq hqne
    by_cases hqp : q = p
    · exact hqp ▸ h.layered.sheltered.housed.inPlace p hp hthere
    · exact h.inPlace q hq ((hothers q hqp).symm.trans_ne hqne)
  have hshelves := Config.shelves_discoverLevels hplace hl
  have h' := h.writeFile (fun _ => hsame) hshelves
  -- the old shelves are the new ones without the file
  obtain ⟨he0, he1⟩ := h.shelves.eq (hshelves.without hold fun q _ hqp => (hothers q hqp).symm)
  refine ⟨_, h', follows_of_finder fun k hmem => ?_⟩
  have hmem' : (g.shelve (discoverLevels listing).l0 (discoverLevels listing).l1).mem.get k =
      none := hmem
  by_cases hfinder : (g.shelve (discoverLevels listing).l0 (discoverLevels listing).l1).lists.finder
      (d.writeFile p n).fs k = some p
  · refine Or.inr ⟨?_, h'.shows_of_finder hmem' hfinder⟩
    rw [Ledger.upTo_of_finder hmem' hfinder]
    cases hbefore : g.lists.finder d.fs k with
    | none =>
      rw [Ledger.upTo_of_none hmem hbefore]
      exact h.layered.bottom_le_of hlive
    | some q =>
      rw [Ledger.upTo_of_finder hmem hbefore]
      obtain ⟨hq, hqne⟩ := h.of_finder hbefore
      have hqp : q ≠ p := by
        rintro rfl
        exact hqne hold
      have hkey : lookup k ((d.writeFile p n).fs.records q) ≠ none := by
        rw [Fs.records_congr (hothers q hqp)]
        exact (LevelManager.of_finder hbefore).2
      have hqne' := (hothers q hqp).trans_ne hqne
      have hrel := hshelves.finder_rel hfinder
        (hshelves.mem_readOrder_iff.mpr ⟨h.inPlace q hq hqne, hqne'⟩) hkey
      rcases h.inPlace q hq hqne with ⟨now, rfl⟩ | ⟨now, rfl⟩
      · obtain ⟨hp0, hlt⟩ := hrel.resolve_left hqp ((hshelves.mem0 _).mpr ⟨hqne', now, rfl⟩)
        obtain ⟨-, now', rfl⟩ := (hshelves.mem0 p).mp hp0
        obtain ⟨c, hc, rfl⟩ := h.exists_reading hqne
        rw [h.layered.of_reading]
        exact h'.file_le_of hc hne (le_of_lt hlt)
      · exact (h.of_le_bottom hqne).trans (h.layered.bottom_le_of hlive)
  · have hsame' := hshelves.finder_without (fun q _ hqp => (hothers q hqp).symm) hfinder
    rw [← he0, ← he1] at hsame'
    refine Or.inl ⟨hsame'.symm, fun q hq => hothers q ?_⟩
    rintro rfl
    exact (h.of_finder hq).2 hold

/-- **A file is deleted there**: what is found is what L1 says. -/
theorem follows_of_deleted (hp : p.NamedSst) (hmissing : d.sys.fs p = none)
    (horderly : d.Orderly cfg (.file p n)) :
    ∃ g', Accounts cfg (d.writeFile p n) g' ∧ Follows d (d.writeFile p n) g g' := by
  have hothers : ∀ q : Path, q ≠ p → (d.writeFile p n).fs q = d.fs q := fun q => writeFile_of_ne
  have hnone : (d.writeFile p n).fs p = none := by
    rw [Powered.writeFile, hmissing]
    exact Function.update_self _ _ _
  have hremove : (d.writeFile p n).fs = d.fs.remove p := by
    rw [Powered.writeFile, hmissing]
    rfl
  have hshelves := h.shelves.without hnone fun q _ hqp => hothers q hqp
  have h' := h.writeFile (fun _ => hnone.trans hmissing.symm) hshelves
  refine ⟨_, h', follows_of_finder fun k hmem => ?_⟩
  by_cases hfinder : g.lists.finder d.fs k = some p
  · have hover := (horderly hp).2 hmissing k (h.finds_iff.mpr hfinder) fun hlogged =>
      (Wal.logs_iff h.replays k).mp hlogged hmem
    rw [← hremove] at hover
    refine Or.inr ⟨?_, h'.shows_of_handedOver hmem hover⟩
    refine le_trans ?_ (h'.bottom_le_upTo hmem hover)
    obtain ⟨-, hne⟩ := h.of_finder hfinder
    rw [Ledger.upTo_of_finder hmem hfinder]
    rcases h.tracked_or_gone hp hne with ⟨htracked, -⟩ | ⟨hgone, hof⟩
    · exact absurd hmissing (h.layered.tracked htracked).2
    · rw [hof]
      exact hgone.below
  · refine Or.inl ⟨h.shelves.finder_without (fun q _ hqp => hothers q hqp) hfinder, fun q hq =>
      hothers q ?_⟩
    rintro rfl
    exact hfinder hq

end File

/-- **A file is written back**, and takes no key back. -/
theorem step_file (h : Accounts cfg d g) {p : Path} {n : ℕ}
    (horderly : d.Orderly cfg (.file p n)) :
    ∃ g', Accounts cfg (d.writeFile p n) g' ∧ Follows d (d.writeFile p n) g g' := by
  by_cases hp : p.NamedSst
  · cases hcache : d.sys.fs p with
    | none => exact h.follows_of_deleted hp hcache horderly
    | some bytes =>
      have hsame : (d.writeFile p n).fs p = d.sys.fs p := by
        rw [Powered.writeFile, hcache, Option.map_some,
          List.take_of_length_le ((horderly hp).1 bytes hcache)]
        exact Function.update_self _ _ _
      have hthere : d.sys.fs p ≠ none := by
        rw [hcache]
        exact Option.some_ne_none bytes
      by_cases hold : d.fs p = none
      · exact h.follows_of_new hp hold hthere hsame
      · have hbefore := (h.file p hp hold).resolve_right fun hgone => hthere hgone.missing
        refine h.follows_of_same fun q _ => ?_
        by_cases hqp : q = p
        · exact hqp ▸ hsame.trans hbefore.symm
        · exact writeFile_of_ne hqp
  · refine h.follows_of_same fun q hq => writeFile_of_ne ?_
    rintro rfl
    exact hp hq

/-- **One move** takes no key back. -/
theorem step (h : Accounts cfg d g) {mv : Move} (hm : Moves cfg d mv d')
    (horderly : d.Orderly cfg mv) : ∃ g', Accounts cfg d' g' ∧ Follows d d' g g' := by
  cases hm with
  | run hs => exact h.step_run hs horderly
  | log hn => exact h.step_log hn horderly
  | file => exact h.step_file horderly

theorem init : Accounts cfg Powered.init ⟨⟨fun _ => 0, 0⟩, [], [], [], 0⟩ where
  layered := .init
  finite := ⟨[], fun _ hne => absurd rfl hne⟩
  shelves := ⟨List.Pairwise.nil, List.Pairwise.nil, by simp [Powered.init], by simp [Powered.init]⟩
  file := fun _ _ hne => absurd rfl hne
  replays := Wal.replay_encodeAll (List.forall_mem_nil _)
  tells := fun _ _ hv => absurd hv.symm (Option.some_ne_none _)
  reach_le := le_rfl
  pending := fun _ => ⟨List.prefix_rfl, rfl⟩
  owed := fun _ hp => absurd hp.symm (Option.some_ne_none _)

end Accounts

end Powered

end Tabula
