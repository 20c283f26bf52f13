import Tabula.Compaction.Files
import Tabula.FileNames

/-!
# The level manager

`src/levels.rs`: the lists of tracked files and `LevelManager::compact`, which
merges all of L0 with the L1 files whose key range meets that of L0. As in
`Tabula.mergeSstables`, what the operating system makes of each file operation is
a script.

`compact` takes the paths out of the lists by `drain` before it opens the first
file, and every `?` on the way returns with what the lists hold at that moment.
Since nothing puts the paths back, a failed compaction forgets every L0 file there
was, and from the point where L1 is drained every L1 file as well. The ways out of it are
those of `Tabula.LevelManager.Outcome`.
-/

namespace Tabula

open SortedTable

/-- The smallest and the largest key of a file. -/
abbrev KeyRange := Key × Key

/-- The first and the last key of what an iterator yields. -/
def keyBounds : List Record → Option KeyRange
  | [] => none
  | first :: rest => some (first.1, rest.foldl (fun _ r => r.1) first.1)

/-- `key_range`. -/
def keyRange (io : PassIo) (reader : SsTableReader) : Res CompactionError KeyRange := do
  let records ← mapErr .ofSsTableError (iterPass io reader)
  match keyBounds records with
  | none => .error (.err .emptySsTable)
  | some range => return range

def rangesOverlap (a b : KeyRange) : Bool := decide (a.1 ≤ b.2) && decide (b.1 ≤ a.2)

/-- How the file operations of one compaction go. -/
structure CompactIo where
  /-- Whether each L0 file can be opened. -/
  openL0 : ℕ → Bool
  /-- The pass of `key_range` over each L0 file. -/
  rangeL0 : ℕ → PassIo
  /-- Whether each L1 file can be opened. -/
  openL1 : ℕ → Bool
  /-- The pass of `key_range` over each L1 file. -/
  rangeL1 : ℕ → PassIo
  merge : MergeIo
  /-- Whether each input can be deleted. -/
  remove : ℕ → Bool

/-- A compaction in which nothing fails. -/
def CompactIo.whole : CompactIo where
  openL0 _ := true
  rangeL0 _ := .whole
  openL1 _ := true
  rangeL1 _ := .whole
  merge := .whole
  remove _ := true

/-- No read of a compaction is cut short. -/
structure CompactIo.ReadsComplete (io : CompactIo) : Prop where
  rangeL0 : ∀ i, (io.rangeL0 i).cut = none
  rangeL1 : ∀ i, (io.rangeL1 i).cut = none
  merge : io.merge.ReadsComplete

theorem CompactIo.readsComplete_whole : CompactIo.whole.ReadsComplete :=
  ⟨fun _ => rfl, fun _ => rfl, fun _ => rfl, fun _ => rfl⟩

/-! ### The parts of a compaction -/

/-- `SsTableReader::open(path)?`. -/
def openInput (ok : Bool) (fs : Fs) (p : Path) : Res CompactionError SsTableReader :=
  if ok then mapErr .ofSsTableError (fs.openSst p) else .error (.err .io)

/-- All L0 files, opened in order. -/
def openAll (ok : ℕ → Bool) (fs : Fs) : List Path → Res CompactionError (List SsTableReader)
  | [] => .ok []
  | p :: ps => do
      let reader ← openInput (ok 0) fs p
      let readers ← openAll (fun i => ok (i + 1)) fs ps
      return reader :: readers

/-- The combined range, with that of one more file. -/
def widen (range : Option KeyRange) (r : KeyRange) : KeyRange :=
  match range with
  | none => r
  | some current => (min current.1 r.1, max current.2 r.2)

/-- The loop over the L0 readers that combines their ranges. -/
def combineRanges (io : ℕ → PassIo) (range : Option KeyRange) :
    List SsTableReader → Res CompactionError (Option KeyRange)
  | [] => .ok range
  | reader :: readers => do
      let r ← keyRange (io 0) reader
      combineRanges (fun i => io (i + 1)) (some (widen range r)) readers

/-- The L1 files a compaction merges, with their readers, and those it leaves. -/
structure SplitL1 where
  overlapping : List (Path × SsTableReader)
  untouched : List Path

/-- The loop over `levels[1].drain(..)`. -/
def splitL1 (ok : ℕ → Bool) (io : ℕ → PassIo) (fs : Fs) (l0Range : KeyRange) :
    List Path → Res CompactionError SplitL1
  | [] => .ok ⟨[], []⟩
  | p :: ps => do
      let reader ← openInput (ok 0) fs p
      let l1Range ← keyRange (io 0) reader
      let split ← splitL1 (fun i => ok (i + 1)) (fun i => io (i + 1)) fs l0Range ps
      if rangesOverlap l0Range l1Range then
        return { split with overlapping := (p, reader) :: split.overlapping }
      else return { split with untouched := p :: split.untouched }

/-- `fs::remove_file(path).ok()` for every input. -/
def removeAll (ok : ℕ → Bool) : List Path → Fs → Fs
  | [], fs => fs
  | p :: ps, fs => removeAll (fun i => ok (i + 1)) ps (if ok 0 then fs.remove p else fs)

/-! ### The level manager -/

structure LevelManager where
  levels : List (List Path)
  deriving DecidableEq, Repr

namespace LevelManager

def new : LevelManager := ⟨[]⟩

/-- The files of L0; `levels` may not have reached L0 yet. -/
def l0 (lm : LevelManager) : List Path := lm.levels.getD 0 []

def l1 (lm : LevelManager) : List Path := lm.levels.getD 1 []

/-- The levels below L1. -/
def deeper (lm : LevelManager) : List (List Path) := lm.levels.drop 2

def addL0File (lm : LevelManager) (p : Path) : LevelManager :=
  match lm.levels with
  | [] => ⟨[[p]]⟩
  | files :: rest => ⟨(files ++ [p]) :: rest⟩

def needsCompaction (lm : LevelManager) : Bool :=
  lm.levels.head?.elim false fun files => decide (4 ≤ files.length)

/-- Where `compact` writes: next to the oldest L0 file. -/
def outputPath (now : ℕ) (oldest : Path) : Path := oldest.withFileName (FileName.l1Name now)

/-- `LevelManager::compact` at a clock reading, with the lists and the files it
leaves. The two `drain`s are visible at every early return: after the first one
`levels[0]` is empty, and from the loop over L1 on `levels[1]` is empty too, since
leaving a `drain` half way drops what it has not yielded. -/
def compact (S : BloomSizing) (H : MergeHeap) (io : CompactIo) (now : ℕ) (fs : Fs)
    (lm : LevelManager) : Res CompactionError Unit × LevelManager × Fs :=
  match lm.l0 with
  | [] => (.ok (), ⟨[] :: lm.l1 :: lm.deeper⟩, fs)
  | oldest :: newer =>
      let l0Paths := oldest :: newer
      match openAll io.openL0 fs l0Paths with
      | .error e => (.error e, ⟨[] :: lm.l1 :: lm.deeper⟩, fs)
      | .ok l0Readers =>
          match combineRanges io.rangeL0 none l0Readers >>= orPanic with
          | .error e => (.error e, ⟨[] :: lm.l1 :: lm.deeper⟩, fs)
          | .ok l0Range =>
              match splitL1 io.openL1 io.rangeL1 fs l0Range lm.l1 with
              | .error e => (.error e, ⟨[] :: [] :: lm.deeper⟩, fs)
              | .ok split =>
                  let readers := l0Readers ++ split.overlapping.map Prod.snd
                  let output := outputPath now oldest
                  match mergeSstables S H io.merge fs readers output with
                  | (.error e, fs') => (.error e, ⟨[] :: [] :: lm.deeper⟩, fs')
                  | (.ok (), fs') =>
                      (.ok (), ⟨[] :: (split.untouched ++ [output]) :: lm.deeper⟩,
                        removeAll io.remove (l0Paths ++ split.overlapping.map Prod.fst) fs')

@[simp] theorem l0_mk (a : List Path) (ls : List (List Path)) : l0 ⟨a :: ls⟩ = a := rfl

@[simp] theorem l1_mk (a b : List Path) (ls : List (List Path)) : l1 ⟨a :: b :: ls⟩ = b := rfl

@[simp] theorem deeper_mk (a b : List Path) (ls : List (List Path)) :
    deeper ⟨a :: b :: ls⟩ = ls := rfl

@[simp] theorem l0_addL0File (lm : LevelManager) (p : Path) :
    (lm.addL0File p).l0 = lm.l0 ++ [p] := by
  rcases lm with ⟨- | ⟨files, rest⟩⟩ <;> rfl

@[simp] theorem l1_addL0File (lm : LevelManager) (p : Path) : (lm.addL0File p).l1 = lm.l1 := by
  rcases lm with ⟨- | ⟨files, rest⟩⟩ <;> rfl

theorem addL0File_two {lm : LevelManager} (h : lm = ⟨[lm.l0, lm.l1]⟩) (p : Path) :
    lm.addL0File p = ⟨[lm.l0 ++ [p], lm.l1]⟩ := by
  conv_lhs => rw [h]
  rfl

theorem drop_addL0File (lm : LevelManager) (p : Path) :
    (lm.addL0File p).levels.drop 1 = lm.levels.drop 1 := by
  rcases lm with ⟨- | ⟨files, rest⟩⟩ <;> rfl

/-! ### Ways out -/

/-- **The ways out of a compaction**, in the order of the source: what it returns, and the
lists and the files it leaves. -/
inductive Outcome (S : BloomSizing) (H : MergeHeap) (io : CompactIo) (now : ℕ) (fs : Fs)
    (lm : LevelManager) : Res CompactionError Unit × LevelManager × Fs → Prop where
  /-- L0 is empty. -/
  | idle (hl0 : lm.l0 = []) :
      Outcome S H io now fs lm (.ok (), ⟨[] :: lm.l1 :: lm.deeper⟩, fs)
  /-- An L0 file cannot be opened, or has no range. -/
  | l0Unread {e : Fault CompactionError} (hl0 : lm.l0 ≠ []) :
      Outcome S H io now fs lm (.error e, ⟨[] :: lm.l1 :: lm.deeper⟩, fs)
  /-- An L1 file cannot be opened, or has no range. -/
  | l1Unread {e : Fault CompactionError} (hl0 : lm.l0 ≠ []) :
      Outcome S H io now fs lm (.error e, ⟨[] :: [] :: lm.deeper⟩, fs)
  /-- The merge fails. -/
  | unmerged {e : Fault CompactionError} {oldest : Path} {readers : List SsTableReader} {fs' : Fs}
      (hl0 : lm.l0.head? = some oldest)
      (hmerge : mergeSstables S H io.merge fs readers (outputPath now oldest) = (.error e, fs')) :
      Outcome S H io now fs lm (.error e, ⟨[] :: [] :: lm.deeper⟩, fs')
  /-- All goes well, but for deletions. -/
  | merged {oldest : Path} {l0Readers : List SsTableReader} {l0Range : KeyRange} {split : SplitL1}
      {fs' : Fs} (hl0 : lm.l0.head? = some oldest)
      (hopen : openAll io.openL0 fs lm.l0 = .ok l0Readers)
      (hrange : combineRanges io.rangeL0 none l0Readers = .ok (some l0Range))
      (hsplit : splitL1 io.openL1 io.rangeL1 fs l0Range lm.l1 = .ok split)
      (hmerge : mergeSstables S H io.merge fs (l0Readers ++ split.overlapping.map Prod.snd)
        (outputPath now oldest) = (.ok (), fs')) :
      Outcome S H io now fs lm (.ok (), ⟨[] :: (split.untouched ++ [outputPath now oldest]) ::
        lm.deeper⟩, removeAll io.remove (lm.l0 ++ split.overlapping.map Prod.fst) fs')

theorem outcome_compact (S : BloomSizing) (H : MergeHeap) (io : CompactIo) (now : ℕ) (fs : Fs)
    (lm : LevelManager) : Outcome S H io now fs lm (compact S H io now fs lm) := by
  unfold compact
  split
  · rename_i hnil
    exact .idle hnil
  · rename_i oldest newer hcons
    have hne : lm.l0 ≠ [] := by simp [hcons]
    have hhead : lm.l0.head? = some oldest := by rw [hcons]; rfl
    rw [← hcons]
    simp only
    split
    · exact .l0Unread hne
    · rename_i l0Readers hopen
      split
      · exact .l0Unread hne
      · rename_i l0Range hrange
        split
        · exact .l1Unread hne
        · rename_i split hsplit
          split
          · rename_i hmerge
            exact .unmerged hhead hmerge
          · rename_i hmerge
            -- `expect` has found a range
            obtain ⟨range, hcombine, hrange⟩ := bind_eq_ok.mp hrange
            obtain rfl : range = some l0Range := by cases range <;> simp_all [orPanic]
            exact .merged hhead hopen hcombine hsplit hmerge

/-! ### Failed compactions -/

/-- Whatever comes of it, a compaction touches two levels only, and leaves L0 empty. -/
theorem levels_compact (S : BloomSizing) (H : MergeHeap) (io : CompactIo) (now : ℕ) (fs : Fs)
    (lm : LevelManager) : (compact S H io now fs lm).2.1 =
      ⟨[] :: (compact S H io now fs lm).2.1.l1 :: lm.deeper⟩ := by
  have hout := outcome_compact S H io now fs lm
  generalize compact S H io now fs lm = out at hout ⊢
  cases hout <;> rfl

theorem l0_compact (S : BloomSizing) (H : MergeHeap) (io : CompactIo) (now : ℕ) (fs : Fs)
    (lm : LevelManager) : (compact S H io now fs lm).2.1.l0 = [] := by
  rw [levels_compact, l0_mk]

/-- Where there are L0 and L1 only, it adds no level. -/
theorem levels_compact_two {lm : LevelManager} (h : lm = ⟨[lm.l0, lm.l1]⟩) (S : BloomSizing)
    (H : MergeHeap) (io : CompactIo) (now : ℕ) (fs : Fs) : (compact S H io now fs lm).2.1 =
      ⟨[[], (compact S H io now fs lm).2.1.l1]⟩ := by
  have hdeeper : lm.deeper = [] := by
    rw [h]
    rfl
  rw [← hdeeper]
  exact levels_compact S H io now fs lm

/-- A compaction that does not return `Ok` leaves L1 as it was, or empty. -/
theorem l1_compact_of_ne_ok {S : BloomSizing} {H : MergeHeap} {io : CompactIo} {now : ℕ} {fs : Fs}
    {lm : LevelManager} (h : (compact S H io now fs lm).1 ≠ .ok ()) :
    (compact S H io now fs lm).2.1.l1 = lm.l1 ∨ (compact S H io now fs lm).2.1.l1 = [] := by
  have hout := outcome_compact S H io now fs lm
  generalize compact S H io now fs lm = out at hout h ⊢
  cases hout with
  | idle | merged => exact absurd rfl h
  | l0Unread => exact Or.inl rfl
  | l1Unread | unmerged => exact Or.inr rfl

/-- With nothing in L0 there is nothing that can fail. -/
theorem compact_nil {lm : LevelManager} (h : lm.l0 = []) (S : BloomSizing) (H : MergeHeap)
    (io : CompactIo) (now : ℕ) (fs : Fs) :
    compact S H io now fs lm = (.ok (), ⟨[] :: lm.l1 :: lm.deeper⟩, fs) := by
  unfold compact
  rw [h]

/-- Where the two levels are there already, it leaves everything as it is. -/
theorem compact_nil_two {lm : LevelManager} (h : lm = ⟨[lm.l0, lm.l1]⟩) (hl0 : lm.l0 = [])
    (S : BloomSizing) (H : MergeHeap) (io : CompactIo) (now : ℕ) (fs : Fs) :
    compact S H io now fs lm = (.ok (), lm, fs) := by
  have hlevels : lm = ⟨[] :: lm.l1 :: lm.deeper⟩ := by
    conv_lhs => rw [h, hl0]
    rw [h]
    rfl
  rw [compact_nil hl0, ← hlevels]

/-- **Until the rename no SSTable is touched**, so a compaction that does not return
`Ok` has touched none. -/
theorem compact_frame {S : BloomSizing} {H : MergeHeap} {io : CompactIo} {now : ℕ} {fs : Fs}
    {lm : LevelManager} (h : (compact S H io now fs lm).1 ≠ .ok ()) {q : Path} (hq : q.NamedSst) :
    (compact S H io now fs lm).2.2 q = fs q := by
  have hout := outcome_compact S H io now fs lm
  generalize compact S H io now fs lm = out at hout h ⊢
  cases hout with
  | idle | l0Unread | l1Unread => rfl
  | unmerged hl0 hmerge =>
    exact mergeSstables_frame hmerge (hq.ne_tmp _) fun herr => by simp at herr
  | merged => exact absurd rfl h

/-- How the deletions go decides nothing but which files are left. -/
theorem compact_remove (S : BloomSizing) (H : MergeHeap) (io : CompactIo) (now : ℕ) (fs : Fs)
    (lm : LevelManager) (remove : ℕ → Bool) :
    (compact S H { io with remove := remove } now fs lm).1 = (compact S H io now fs lm).1 ∧
      (compact S H { io with remove := remove } now fs lm).2.1 =
        (compact S H io now fs lm).2.1 := by
  unfold compact
  split
  · exact ⟨rfl, rfl⟩
  · simp only
    split
    · exact ⟨rfl, rfl⟩
    · split
      · exact ⟨rfl, rfl⟩
      · split
        · exact ⟨rfl, rfl⟩
        · split <;> exact ⟨rfl, rfl⟩

/-- **No failed compaction leaves the lists as they were**: L0 had files, and has
none. -/
theorem compact_err_l0 (S : BloomSizing) (H : MergeHeap) (io : CompactIo) (now : ℕ) (fs : Fs)
    (lm : LevelManager) (e : CompactionError)
    (h : (compact S H io now fs lm).1 = .error (.err e)) :
    ¬((compact S H io now fs lm).2.1.l0 = lm.l0 ∧ (compact S H io now fs lm).2.1.l1 = lm.l1) := by
  rintro ⟨hl0, -⟩
  rw [l0_compact] at hl0
  rw [compact_nil hl0.symm] at h
  simp at h

/-- An L0 file that is missing when the compaction opens it. -/
theorem compact_err_l0_missing :
    ¬((compact .percent (.argmin _) .whole 2 (fun _ => none) ⟨[[⟨[], FileName.l0Name 1⟩]]⟩).2.1.l0 =
        [⟨[], FileName.l0Name 1⟩] ∧
      (compact .percent (.argmin _) .whole 2 (fun _ => none) ⟨[[⟨[], FileName.l0Name 1⟩]]⟩).2.1.l1 =
        []) :=
  compact_err_l0 .percent (.argmin _) .whole 2 (fun _ => none) ⟨[[⟨[], FileName.l0Name 1⟩]]⟩ .io rfl

/-- **A failed compaction does not leave the store as it was**: the missing file is
an `Err`, and L0 is empty afterwards. -/
theorem not_compact_err_keeps_lists :
    ¬∀ (S : BloomSizing) (H : MergeHeap) (io : CompactIo) (now : ℕ) (fs : Fs) (lm : LevelManager)
      (e : CompactionError), (compact S H io now fs lm).1 = .error (.err e) →
      (compact S H io now fs lm).2.1.l0 = lm.l0 ∧ (compact S H io now fs lm).2.1.l1 = lm.l1 := by
  intro h
  obtain ⟨hl0, -⟩ := h .percent (.argmin _) .whole 2 (fun _ => none)
    ⟨[[⟨[], FileName.l0Name 1⟩]]⟩ .io rfl
  exact absurd hl0 (by rw [l0_compact]; exact (List.cons_ne_nil _ _).symm)

end LevelManager

end Tabula
