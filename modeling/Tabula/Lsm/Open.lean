import Tabula.Lsm.Search
import Tabula.MemTable
import Tabula.Wal.Log
import Mathlib.Data.List.Dedup

/-!
# Opening the store

`Lsm::open` and `discover_levels` (`src/lsm.rs`): the MemTable is rebuilt from the
log and the lists of files from the names in the directory. `read_dir` gives the
entries in whatever order it likes; every level is sorted by name afterwards, so
the result depends on the set of entries only (`Tabula.level_eq`).

The entries modelled here all have UTF-8 names; an entry with any other name is
skipped. Within one directory paths are compared by their names.
-/

namespace Tabula

open SortedTable

/-- `From<WalError> for LsmError`. -/
def LsmError.ofWalError (_ : WalError) : LsmError := .io

/-- The entries `read_dir` finds, in some order. -/
structure Fs.Lists (fs : Fs) (dir : List Char) (listing : List Path) : Prop where
  nodup : listing.Nodup
  mem_iff : ∀ p, p ∈ listing ↔ p.parent = dir ∧ fs p ≠ none

/-- Finitely many files can be listed. -/
theorem Fs.exists_lists_of_finite {fs : Fs} {all : List Path} (h : ∀ p, fs p ≠ none → p ∈ all)
    (dir : List Char) : ∃ listing, fs.Lists dir listing := by
  refine ⟨all.dedup.filter fun p => decide (p.parent = dir ∧ fs p ≠ none), ?_, fun p => ?_⟩
  · exact all.nodup_dedup.filter _
  · rw [List.mem_filter, List.mem_dedup, decide_eq_true_iff]
    exact ⟨fun hp => hp.2, fun hp => ⟨h p hp.2, hp⟩⟩

/-- Two files can be listed. -/
theorem Fs.lists_of_two {fs : Fs} {dir : List Char} {p q : Path} (hpq : p ≠ q)
    (hp : p.parent = dir ∧ fs p ≠ none) (hq : q.parent = dir ∧ fs q ≠ none)
    (hother : ∀ x, x ≠ p → x ≠ q → fs x = none) : fs.Lists dir [p, q] := by
  refine ⟨List.nodup_cons.mpr ⟨by simpa using hpq, List.nodup_singleton q⟩, fun x => ?_⟩
  constructor
  · intro hx
    rcases List.mem_pair.mp hx with rfl | rfl
    · exact hp
    · exact hq
  · rintro ⟨-, hx⟩
    by_contra hnot
    obtain ⟨hxp, hxq⟩ := not_or.mp (List.mem_pair.not.mp hnot)
    exact hx (hother x hxp hxq)

/-! ### Filing the entries -/

/-- Push empty levels until there is the one asked for, then push the path. -/
def fileAt (levels : List (List Path)) (level : ℕ) (p : Path) : List (List Path) :=
  let levels := levels ++ List.replicate (level + 1 - levels.length) []
  levels.set level (levels.getD level [] ++ [p])

/-- One turn of the loop over the entries. -/
def place (levels : List (List Path)) (p : Path) : List (List Path) :=
  match FileName.levelOf p.name with
  | none => levels
  | some level => fileAt levels level p

/-- `level.sort()`. -/
def sortFiles (files : List Path) : List Path := files.mergeSort fun p q => decide (p.name ≤ q.name)

/-- `discover_levels`, on the entries of the directory. -/
def discoverLevels (listing : List Path) : LevelManager :=
  ⟨(listing.foldl place [[], []]).map sortFiles⟩

/-- `Lsm::open`: the MemTable and the levels it starts with. The log is created
when it is missing, before it is read. -/
def Lsm.open (wal : Option Bytes) (listing : List Path) :
    Res LsmError (MemTable × LevelManager) := do
  let entries ← mapErr .ofWalError (Wal.replay (some (Wal.open wal)))
  return (MemTable.new.applyAll entries, discoverLevels listing)

/-- Opening succeeds when the log can be replayed, and always does what it does then. -/
theorem Lsm.open_eq_ok {wal : Bytes} {listing : List Path} {mem : MemTable} {lm : LevelManager} :
    Lsm.open (some wal) listing = .ok (mem, lm) ↔
      ∃ es, Wal.replay (some wal) = .ok es ∧ mem = MemTable.new.applyAll es ∧
        lm = discoverLevels listing := by
  change (mapErr LsmError.ofWalError (Wal.replay (some wal)) >>= fun entries =>
    Except.ok (MemTable.new.applyAll entries, discoverLevels listing)) = _ ↔ _
  cases hreplay : Wal.replay (some wal) with
  | ok es => simp [eq_comm]
  | error x => cases x <;> simp [mapErr]

/-- `Lsm::get`, when nothing comes between its two looks. -/
def Lsm.get (fs : Fs) (mem : MemTable) (lm : LevelManager) (key : Key) :
    Res LsmError (Option Value) :=
  match mem.get key with
  | some value => .ok (visible (some value))
  | none => searchLevels fs lm key

/-- What `get` returns after a restart. -/
def getAfterRestart (wal : Option Bytes) (fs : Fs) (listing : List Path) (key : Key) :
    Res LsmError (Option Value) := do
  let opened ← Lsm.open wal listing
  Lsm.get fs opened.1 opened.2 key

/-- With an empty log only the files count. -/
theorem getAfterRestart_nil (fs : Fs) (listing : List Path) (key : Key) :
    getAfterRestart (some []) fs listing key = searchLevels fs (discoverLevels listing) key := by
  have hreplay : Wal.replay (some (Wal.open (some []))) = .ok [] := Wal.replayFrom_nil
  rw [getAfterRestart, Lsm.open, hreplay]
  rfl

/-! ### Which files are where -/

theorem getD_fileAt (levels : List (List Path)) (n m : ℕ) (p : Path) :
    (fileAt levels n p).getD m [] =
      if m = n then levels.getD m [] ++ [p] else levels.getD m [] := by
  have hpad : ∀ k m, (levels ++ List.replicate k []).getD m [] = levels.getD m [] := by
    intro k m
    simp only [List.getD_eq_getElem?_getD, List.getElem?_append, List.getElem?_replicate]
    split
    · rfl
    · rename_i hm
      rw [List.getElem?_eq_none (not_lt.mp hm)]
      split <;> rfl
  have hlen : n < (levels ++ List.replicate (n + 1 - levels.length) ([] : List Path)).length := by
    simp
    omega
  simp only [fileAt]
  by_cases hmn : m = n
  · subst hmn
    rw [if_pos rfl, List.getD_eq_getElem?_getD, List.getElem?_set_self hlen, hpad]
    rfl
  · rw [if_neg hmn, List.getD_eq_getElem?_getD, List.getElem?_set_ne (Ne.symm hmn),
      ← List.getD_eq_getElem?_getD, hpad]

/-- **Every level gets its entries**, in the order of the listing. -/
theorem getD_foldl_place (listing : List Path) (levels : List (List Path)) (m : ℕ) :
    (listing.foldl place levels).getD m [] =
      levels.getD m [] ++ listing.filter fun p => FileName.levelOf p.name = some m := by
  induction listing generalizing levels with
  | nil => simp
  | cons p listing ih =>
    rw [List.foldl_cons, ih, place]
    cases hlevel : FileName.levelOf p.name with
    | none => rw [List.filter_cons_of_neg (by simp [hlevel])]
    | some n =>
      rw [getD_fileAt]
      by_cases hmn : m = n
      · rw [if_pos hmn, List.filter_cons_of_pos (by simp [hlevel, hmn]), List.append_assoc]
        rfl
      · rw [if_neg hmn, List.filter_cons_of_neg (by simp [hlevel, Ne.symm hmn])]

theorem getD_discoverLevels (listing : List Path) (m : ℕ) :
    (discoverLevels listing).levels.getD m [] =
      sortFiles (listing.filter fun p => FileName.levelOf p.name = some m) := by
  have h := getD_foldl_place listing [[], []] m
  have hempty : ([[], []] : List (List Path)).getD m [] = [] := by
    rcases m with - | - | m <;> rfl
  rw [hempty, List.nil_append] at h
  rw [discoverLevels, ← h, List.getD_eq_getElem?_getD, List.getElem?_map,
    List.getD_eq_getElem?_getD]
  cases (listing.foldl place [[], []])[m]? with
  | none => simp [sortFiles]
  | some files => rfl

/-- No level is added when every name says one that is there. -/
theorem length_foldl_place {listing : List Path} {levels : List (List Path)}
    (h : ∀ p ∈ listing, ∀ m, FileName.levelOf p.name = some m → m < levels.length) :
    (listing.foldl place levels).length = levels.length := by
  induction listing generalizing levels with
  | nil => rfl
  | cons p listing ih =>
    have hplace : (place levels p).length = levels.length := by
      rw [place]
      cases hlevel : FileName.levelOf p.name with
      | none => rfl
      | some n =>
        have hn := h p List.mem_cons_self n hlevel
        simp only [fileAt, List.length_set, List.length_append, List.length_replicate]
        omega
    rw [List.foldl_cons, ih, hplace]
    intro q hq m hm
    rw [hplace]
    exact h q (List.mem_cons_of_mem _ hq) m hm

/-- The files of a level are among those from any level above it on. -/
theorem mem_flatten_drop {levels : List (List Path)} {n m : ℕ} (hnm : n ≤ m) {p : Path}
    (hp : p ∈ levels.getD m []) : p ∈ (levels.drop n).flatten := by
  rw [List.getD_eq_getElem?_getD] at hp
  cases hfiles : levels[m]? with
  | none => simp [hfiles] at hp
  | some files =>
    rw [hfiles, Option.getD_some] at hp
    have hdrop : (levels.drop n)[m - n]? = some files := by
      rw [List.getElem?_drop, Nat.add_sub_cancel' hnm, hfiles]
    exact List.mem_flatten_of_mem (List.mem_of_getElem? hdrop) hp

/-- The files of one level, by name. -/
def NameSorted (files : List Path) : Prop := files.Pairwise fun p q => p.name < q.name

instance (files : List Path) : Decidable (NameSorted files) :=
  inferInstanceAs (Decidable (files.Pairwise fun p q => p.name < q.name))

theorem NameSorted.nodup {files : List Path} (h : NameSorted files) : files.Nodup :=
  h.imp fun hlt he => absurd hlt (by rw [he]; exact lt_irrefl _)

theorem NameSorted.eq_of_name_eq {files : List Path} (h : NameSorted files) {p q : Path}
    (hp : p ∈ files) (hq : q ∈ files) (hname : p.name = q.name) : p = q := by
  induction files with
  | nil => simp at hp
  | cons r files ih =>
    obtain ⟨hr, h⟩ := List.pairwise_cons.mp h
    rcases List.mem_cons.mp hp with rfl | hp' <;> rcases List.mem_cons.mp hq with rfl | hq'
    · rfl
    · exact absurd hname (ne_of_lt (hr q hq'))
    · exact absurd hname.symm (ne_of_lt (hr p hp'))
    · exact ih h hp' hq'

theorem sortFiles_perm (files : List Path) : (sortFiles files).Perm files :=
  List.mergeSort_perm _ _

theorem pairwise_sortFiles (files : List Path) :
    (sortFiles files).Pairwise fun p q => p.name ≤ q.name := by
  have h := @List.pairwise_mergeSort _ (fun p q : Path => decide (p.name ≤ q.name))
    (fun a b c hab hbc => by
      simp only [decide_eq_true_eq] at hab hbc ⊢
      exact le_trans hab hbc)
    (fun a b => by simpa using le_total a.name b.name) files
  exact h.imp fun hab => of_decide_eq_true hab

/-- Sorting puts the files in the one order their names have. -/
theorem sortFiles_eq {files sorted : List Path} (hs : NameSorted sorted) (hp : files.Perm sorted) :
    sortFiles files = sorted := by
  have hperm := (sortFiles_perm files).trans hp
  refine hperm.eq_of_pairwise (fun p q hpm hqm hpq hqp => ?_) (pairwise_sortFiles files)
    (hs.imp le_of_lt)
  exact hs.eq_of_name_eq (hperm.mem_iff.mp hpm) hqm (le_antisymm hpq hqp)

/-- Entries that come in the order of their names are filed in that order. -/
theorem discoverLevels_of_sorted {listing : List Path} {levels : List (List Path)}
    (hplace : listing.foldl place [[], []] = levels) (hs : ∀ files ∈ levels, NameSorted files) :
    discoverLevels listing = ⟨levels⟩ := by
  rw [discoverLevels, hplace,
    List.map_congr_left fun files hf => sortFiles_eq (hs files hf) (.refl _), List.map_id']

/-- Files of one directory have different names, so sorting them is strict. -/
theorem nameSorted_sortFiles {files : List Path} {dir : List Char} (hnd : files.Nodup)
    (hdir : ∀ p ∈ files, p.parent = dir) : NameSorted (sortFiles files) := by
  have hnd : (sortFiles files).Nodup := (sortFiles_perm files).nodup_iff.mpr hnd
  refine ((pairwise_sortFiles files).and hnd).imp_of_mem fun {p q} hp hq h =>
    lt_of_le_of_ne h.1 fun hname => h.2 ?_
  have hparent : p.parent = q.parent :=
    (hdir p ((sortFiles_perm files).mem_iff.mp hp)).trans
      (hdir q ((sortFiles_perm files).mem_iff.mp hq)).symm
  cases p
  cases q
  simp_all

/-! ### The lists of a directory -/

section Directory

variable {fs : Fs} {dir : List Char} {listing : List Path} (hl : fs.Lists dir listing)

include hl

/-- The files `discover_levels` puts into a level. -/
theorem mem_level_iff (m : ℕ) (p : Path) :
    p ∈ (discoverLevels listing).levels.getD m [] ↔
      p.parent = dir ∧ fs p ≠ none ∧ FileName.levelOf p.name = some m := by
  rw [getD_discoverLevels, (sortFiles_perm _).mem_iff, List.mem_filter, hl.mem_iff,
    decide_eq_true_iff, and_assoc]

theorem nameSorted_level (m : ℕ) : NameSorted ((discoverLevels listing).levels.getD m []) := by
  rw [getD_discoverLevels]
  exact nameSorted_sortFiles (hl.nodup.filter _) fun p hp =>
    ((hl.mem_iff p).mp (List.mem_filter.mp hp).1).1

/-- **A level is the list of its files by name**, in whatever order the directory
was read. -/
theorem level_eq {m : ℕ} {files : List Path} (hs : NameSorted files)
    (hmem : ∀ p, p ∈ files ↔ p.parent = dir ∧ fs p ≠ none ∧ FileName.levelOf p.name = some m) :
    (discoverLevels listing).levels.getD m [] = files := by
  rw [getD_discoverLevels]
  refine sortFiles_eq hs ((List.perm_ext_iff_of_nodup (hl.nodup.filter _) hs.nodup).mpr fun p => ?_)
  rw [List.mem_filter, hl.mem_iff, decide_eq_true_iff, and_assoc, hmem]

/-- Nothing from a level on, when no name says so. -/
theorem flatten_drop_discoverLevels {n : ℕ}
    (h : ∀ p : Path, p.parent = dir → fs p ≠ none → ∀ m, FileName.levelOf p.name = some m → m < n) :
    ((discoverLevels listing).levels.drop n).flatten = [] := by
  rw [List.flatten_eq_nil_iff]
  intro files hfiles
  obtain ⟨i, hi, rfl⟩ := List.getElem_of_mem hfiles
  have hget : ((discoverLevels listing).levels.drop n)[i] =
      (discoverLevels listing).levels.getD (i + n) [] := by
    have hlen : n + i < (discoverLevels listing).levels.length := by
      rw [List.length_drop] at hi
      omega
    simp [Nat.add_comm i n, hlen]
  rw [hget]
  refine List.eq_nil_iff_forall_not_mem.mpr fun p hp => ?_
  obtain ⟨hdir, hfs, hlevel⟩ := (mem_level_iff hl _ p).mp hp
  have := h p hdir hfs _ hlevel
  omega

/-- **A directory of L0 and L1 files is recovered as the two lists of its files by name.** -/
theorem discoverLevels_eq {l0 l1 : List Path} (h0 : NameSorted l0) (h1 : NameSorted l1)
    (hl0 : ∀ p, p ∈ l0 ↔ p.parent = dir ∧ fs p ≠ none ∧ FileName.levelOf p.name = some 0)
    (hl1 : ∀ p, p ∈ l1 ↔ p.parent = dir ∧ fs p ≠ none ∧ FileName.levelOf p.name = some 1)
    (h : ∀ p : Path, p.parent = dir → fs p ≠ none → ∀ m, FileName.levelOf p.name = some m → m < 2) :
    discoverLevels listing = ⟨[l0, l1]⟩ := by
  have hlen : (discoverLevels listing).levels.length = 2 := by
    rw [discoverLevels, List.length_map]
    exact length_foldl_place fun p hp => h p ((hl.mem_iff p).mp hp).1 ((hl.mem_iff p).mp hp).2
  have hget0 := level_eq hl h0 hl0
  have hget1 := level_eq hl h1 hl1
  obtain ⟨a, b, hab⟩ := List.length_eq_two.mp hlen
  rw [hab] at hget0 hget1
  obtain rfl : a = l0 := hget0
  obtain rfl : b = l1 := hget1
  exact congrArg LevelManager.mk hab

end Directory

end Tabula
