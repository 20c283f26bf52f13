import Tabula.Levels.Compact

/-!
# Searching the levels

The part of `Lsm::get` (`src/lsm.rs`) behind the MemTable: L0 from its last file to
its first, then every file of the lower levels, and the first raw record of the key
wins. On complete files that is `SortedTable.firstHit`
(`Tabula.searchFiles_eq`); a file that cannot be opened is an `Err` for every key
that no earlier file answers.
-/

namespace Tabula

open SortedTable

inductive LsmError where
  | io : LsmError
  deriving DecidableEq, Repr

/-- `From<SsTableError> for LsmError`. -/
def LsmError.ofSsTableError (_ : SsTableError) : LsmError := .io

/-- The loops of `get` over files, in the order they are read. -/
def searchFiles (fs : Fs) (key : Key) : List Path → Res LsmError (Option Value)
  | [] => .ok none
  | p :: ps => do
      let reader ← mapErr .ofSsTableError (fs.openSst p)
      let raw ← mapErr .ofSsTableError (reader.getRaw key)
      match raw with
      | some value => return some value
      | none => searchFiles fs key ps

/-- The files of the levels in the order `get` reads them. -/
def LevelManager.readOrder (lm : LevelManager) : List Path :=
  lm.l0.reverse ++ (lm.levels.drop 1).flatten

/-- With nothing below L1, that is L0 from the last file on, and L1. -/
theorem LevelManager.readOrder_eq {lm : LevelManager} (h : lm.deeper.flatten = []) :
    lm.readOrder = lm.l0.reverse ++ lm.l1 := by
  rcases lm with ⟨- | ⟨a, - | ⟨b, ls⟩⟩⟩
  · rfl
  · rfl
  · simp only [deeper_mk] at h
    simp [readOrder, l1, h]

/-- What `get` returns for a key that is not in the MemTable. -/
def searchLevels (fs : Fs) (lm : LevelManager) (key : Key) : Res LsmError (Option Value) := do
  let raw ← searchFiles fs key lm.readOrder
  return visible raw

theorem searchFiles_cons {fs : Fs} {key : Key} {p : Path} {rs : List Record}
    (hp : fs.Stored p rs) (ps : List Path) :
    searchFiles fs key (p :: ps) =
      match lookup key rs with
      | some value => .ok (some value)
      | none => searchFiles fs key ps := by
  obtain ⟨reader, hopen, -, hget⟩ := hp.exists_reader
  rw [searchFiles, hopen, mapErr_ok, ok_bind, hget, mapErr_ok, ok_bind]
  cases lookup key rs <;> rfl

/-- **On complete files the search is the first hit**, and what comes behind them
is only reached when they have none. -/
theorem searchFiles_append {fs : Fs} {key : Key} {ps : List Path}
    (hps : ∀ p ∈ ps, fs.Complete p) (qs : List Path) :
    searchFiles fs key (ps ++ qs) =
      match firstHit (ps.map fs.records) key with
      | some value => .ok (some value)
      | none => searchFiles fs key qs := by
  induction ps with
  | nil => rfl
  | cons p ps ih =>
    have hp : fs.Stored p (fs.records p) := hps p List.mem_cons_self
    rw [List.cons_append, searchFiles_cons hp, List.map_cons, firstHit_cons]
    cases lookup key (fs.records p) with
    | some value => rfl
    | none => exact ih fun q hq => hps q (List.mem_cons_of_mem _ hq)

theorem searchFiles_eq {fs : Fs} {key : Key} {ps : List Path} (hps : ∀ p ∈ ps, fs.Complete p) :
    searchFiles fs key ps = .ok (firstHit (ps.map fs.records) key) := by
  have h := @searchFiles_append fs key ps hps []
  rw [List.append_nil] at h
  rw [h]
  cases firstHit (ps.map fs.records) key <;> rfl

theorem searchLevels_eq {fs : Fs} {lm : LevelManager} (h : ∀ p ∈ lm.readOrder, fs.Complete p)
    (key : Key) :
    searchLevels fs lm key = .ok (visible (firstHit (lm.readOrder.map fs.records) key)) := by
  rw [searchLevels, searchFiles_eq h]
  rfl

/-- Only the files that are searched matter. -/
theorem searchFiles_congr {fs fs' : Fs} {ps : List Path} (h : ∀ p ∈ ps, fs' p = fs p) (key : Key) :
    searchFiles fs' key ps = searchFiles fs key ps := by
  induction ps with
  | nil => rfl
  | cons p ps ih =>
    have hp : fs'.openSst p = fs.openSst p := by
      rw [Fs.openSst, Fs.openSst, h p List.mem_cons_self]
    rw [searchFiles, searchFiles, hp, ih fun q hq => h q (List.mem_cons_of_mem _ hq)]

/-- A missing file fails the search when it is reached. -/
theorem searchFiles_missing {fs : Fs} {p : Path} (hp : fs p = none) (key : Key) (ps : List Path) :
    searchFiles fs key (p :: ps) = .error (.err .io) := by
  rw [searchFiles, Fs.openSst, hp]
  rfl

/-! ### What the files say -/

namespace LevelManager

/-- What the files of the levels say about a key, tombstones included. -/
def find (fs : Fs) (lm : LevelManager) (k : Key) : Option Value :=
  firstHit (lm.readOrder.map fs.records) k

theorem find_congr {fs fs' : Fs} {lm : LevelManager} (h : ∀ p ∈ lm.readOrder, fs' p = fs p)
    (k : Key) : lm.find fs' k = lm.find fs k := by
  rw [find, find, List.map_congr_left fun p hp => Fs.records_congr (h p hp)]

/-- A file that is added to L0 is the first to be read. -/
theorem find_addL0File {fs : Fs} {p : Path} {rs : List Record} (hp : fs.Stored p rs)
    (lm : LevelManager) (k : Key) :
    (lm.addL0File p).find fs k = (lookup k rs).or (lm.find fs k) := by
  have horder : (lm.addL0File p).readOrder = p :: lm.readOrder := by
    rw [readOrder, l0_addL0File, drop_addL0File, List.reverse_append]
    rfl
  rw [find, horder, List.map_cons, firstHit_cons, hp.records_eq]
  rfl

end LevelManager

end Tabula
