import Tabula.Lib.StorePrograms
import Tabula.Levels.Files
import Tabula.Lsm.Search

/-!
# The search and the compaction, file by file

`Tabula.searchLevels` and `Tabula.LevelManager.compact` read and write all of their files
at once. Here they are programs (`StorePrograms.Prog`) that do one operation on a file at
a time, so that a flush of another thread may come between two of them. Run alone, the
programs do what the functions do (`Tabula.run_searchProg`,
`Tabula.LevelManager.run_compactProg`).

A reader of an SSTable keeps the file it has opened, whatever becomes of its name, and no
file is written in place under its final name. So opening a file is the one operation that
looks at the directory.

A process that dies in the middle of a compaction leaves files that some other compaction
leaves, one in which an operation fails (`Tabula.LevelManager.exists_script_of_reaches`).
-/

namespace Tabula

open StorePrograms

/-- A program over files. -/
abbrev FileProg (R : Type) := Prog Path Bytes R

/-- `SsTableReader::open` of what is under a path. -/
def openFile : Option Bytes → Res SsTableError SsTableReader
  | none => .error (.err .io)
  | some bytes => SsTableReader.open bytes

theorem openFile_eq (fs : Fs) (p : Path) : openFile (fs p) = fs.openSst p := by
  cases h : fs p with
  | none => simp only [openFile, Fs.openSst, h]
  | some bytes => simp only [openFile, Fs.openSst, h]

/-! ### Searching -/

/-- `searchFiles`, file by file. -/
def searchFilesProg (key : Key) : List Path → FileProg (Res LsmError (Option Value))
  | [] => .ret (.ok none)
  | p :: ps => .read p fun file =>
      match mapErr .ofSsTableError (openFile file) with
      | .error e => .ret (.error e)
      | .ok reader =>
          match mapErr .ofSsTableError (reader.getRaw key) with
          | .error e => .ret (.error e)
          | .ok (some value) => .ret (.ok (some value))
          | .ok none => searchFilesProg key ps

/-- `searchLevels`, file by file. -/
def searchProg (lm : LevelManager) (key : Key) : FileProg (Res LsmError (Option Value)) :=
  (searchFilesProg key lm.readOrder).bind fun raw => .ret (raw.map visible)

theorem run_searchFilesProg (fs : Fs) (key : Key) (ps : List Path) :
    (searchFilesProg key ps).run fs = (searchFiles fs key ps, fs) := by
  induction ps with
  | nil => rfl
  | cons p ps ih =>
    rw [searchFilesProg, Prog.run, searchFiles, openFile_eq]
    cases mapErr LsmError.ofSsTableError (fs.openSst p) with
    | error e => rfl
    | ok reader =>
      rw [ok_bind]
      dsimp only
      cases mapErr LsmError.ofSsTableError (reader.getRaw key) with
      | error e => rfl
      | ok raw =>
        cases raw with
        | some value => rfl
        | none => exact ih

/-- **Run alone, the search is `searchLevels`.** -/
theorem run_searchProg (fs : Fs) (lm : LevelManager) (key : Key) :
    (searchProg lm key).run fs = (searchLevels fs lm key, fs) := by
  rw [searchProg, Prog.run_bind, run_searchFilesProg, searchLevels]
  cases searchFiles fs key lm.readOrder <;> rfl

theorem within_searchFilesProg (key : Key) {ps : List Path} {F : Set Path} (h : ∀ p ∈ ps, p ∈ F) :
    (searchFilesProg key ps).Within F := by
  induction ps with
  | nil => trivial
  | cons p ps ih =>
    refine ⟨h p List.mem_cons_self, fun file => ?_⟩
    dsimp only
    split
    · trivial
    · split
      · trivial
      · trivial
      · exact ih fun q hq => h q (List.mem_cons_of_mem _ hq)

/-- A search touches tracked files only. -/
theorem within_searchProg (lm : LevelManager) (key : Key) :
    (searchProg lm key).Within {p | p ∈ lm.readOrder} :=
  Prog.within_bind (within_searchFilesProg key fun _ hp => hp) (Prog.returns_true _) fun _ _ =>
    trivial

theorem readOnly_searchFilesProg (key : Key) (ps : List Path) :
    (searchFilesProg key ps).ReadOnly := by
  induction ps with
  | nil => trivial
  | cons p ps ih =>
    intro file
    dsimp only
    split
    · trivial
    · split
      · trivial
      · trivial
      · exact ih

theorem readOnly_searchProg (lm : LevelManager) (key : Key) : (searchProg lm key).ReadOnly :=
  Prog.readOnly_bind (readOnly_searchFilesProg key _) fun _ => trivial

/-! ### Compacting -/

/-- `openInput`. -/
def openInputProg (ok : Bool) (p : Path) : FileProg (Res CompactionError SsTableReader) :=
  if ok then .read p fun file => .ret (mapErr .ofSsTableError (openFile file))
  else .ret (.error (.err .io))

/-- `openAll`, file by file. -/
def openAllProg (ok : ℕ → Bool) : List Path → FileProg (Res CompactionError (List SsTableReader))
  | [] => .ret (.ok [])
  | p :: ps => (openInputProg (ok 0) p).bind fun
      | .error e => .ret (.error e)
      | .ok reader => (openAllProg (fun i => ok (i + 1)) ps).bind fun readers =>
          .ret (readers.map (reader :: ·))

/-- `splitL1`, file by file. -/
def splitL1Prog (ok : ℕ → Bool) (io : ℕ → PassIo) (l0Range : KeyRange) :
    List Path → FileProg (Res CompactionError SplitL1)
  | [] => .ret (.ok ⟨[], []⟩)
  | p :: ps => (openInputProg (ok 0) p).bind fun
      | .error e => .ret (.error e)
      | .ok reader =>
          match keyRange (io 0) reader with
          | .error e => .ret (.error e)
          | .ok l1Range =>
              (splitL1Prog (fun i => ok (i + 1)) (fun i => io (i + 1)) l0Range ps).bind fun split =>
                .ret (split.map fun split =>
                  if rangesOverlap l0Range l1Range then
                    { split with overlapping := (p, reader) :: split.overlapping }
                  else { split with untouched := p :: split.untouched })

/-- The temporary file, with more and more of its bytes. -/
def writePieces {R : Type} (p : Path) (bytes : Bytes) : List ℕ → FileProg R → FileProg R
  | [], next => next
  | n :: ns, next => .put p (some (bytes.take n)) (writePieces p bytes ns next)

/-- `mergeSstables`, operation by operation; `cuts` says in which pieces the writes
reach the file. -/
def mergeProg (S : BloomSizing) (H : MergeHeap) (io : MergeIo) (cuts : List ℕ)
    (readers : List SsTableReader) (outputPath : Path) : FileProg (Res CompactionError Unit) :=
  match mapErr .ofSsTableError (passes io.count readers) with
  | .error e => .ret (.error e)
  | .ok counted =>
      let expectedKeys := (counted.map List.length).sum
      if io.create then
        .put outputPath.tmp (some []) <|
        match mapErr .ofSsTableError (passes io.pass readers) with
        | .error e => .ret (.error e)
        | .ok iters =>
            match sstableBytes S expectedKeys (merge H iters) with
            | none => .ret (.error .panic)
            | some bytes =>
                writePieces outputPath.tmp bytes cuts <|
                match io.stop bytes with
                | some n => .put outputPath.tmp (some (bytes.take n)) (.ret (.error (.err .io)))
                | none =>
                    .put outputPath.tmp (some bytes) <|
                    if io.rename then .move outputPath.tmp outputPath (.ret (.ok ()))
                    else .ret (.error (.err .io))
      else .ret (.error (.err .io))

/-- `removeAll`, file by file. -/
def removeAllProg (ok : ℕ → Bool) : List Path → FileProg Unit
  | [] => .ret ()
  | p :: ps =>
      let next := removeAllProg (fun i => ok (i + 1)) ps
      if ok 0 then .put p none next else next

/-- `LevelManager::compact`, operation by operation. -/
def LevelManager.compactProg (S : BloomSizing) (H : MergeHeap) (io : CompactIo) (cuts : List ℕ)
    (now : ℕ) (lm : LevelManager) : FileProg (Res CompactionError Unit × LevelManager) :=
  match lm.l0 with
  | [] => .ret (.ok (), ⟨[] :: lm.l1 :: lm.deeper⟩)
  | oldest :: newer =>
      let l0Paths := oldest :: newer
      (openAllProg io.openL0 l0Paths).bind fun
        | .error e => .ret (.error e, ⟨[] :: lm.l1 :: lm.deeper⟩)
        | .ok l0Readers =>
            match combineRanges io.rangeL0 none l0Readers >>= orPanic with
            | .error e => .ret (.error e, ⟨[] :: lm.l1 :: lm.deeper⟩)
            | .ok l0Range =>
                (splitL1Prog io.openL1 io.rangeL1 l0Range lm.l1).bind fun
                  | .error e => .ret (.error e, ⟨[] :: [] :: lm.deeper⟩)
                  | .ok split =>
                      let readers := l0Readers ++ split.overlapping.map Prod.snd
                      let output := outputPath now oldest
                      (mergeProg S H io.merge cuts readers output).bind fun
                        | .error e => .ret (.error e, ⟨[] :: [] :: lm.deeper⟩)
                        | .ok () =>
                            (removeAllProg io.remove
                              (l0Paths ++ split.overlapping.map Prod.fst)).bind fun _ =>
                                .ret (.ok (), ⟨[] :: (split.untouched ++ [output]) :: lm.deeper⟩)

theorem run_openInputProg (ok : Bool) (fs : Fs) (p : Path) :
    (openInputProg ok p).run fs = (openInput ok fs p, fs) := by
  rw [openInputProg, openInput]
  cases ok with
  | false => rfl
  | true =>
    rw [if_pos rfl, if_pos rfl, ← openFile_eq]
    rfl

theorem run_openAllProg (ok : ℕ → Bool) (fs : Fs) (ps : List Path) :
    (openAllProg ok ps).run fs = (openAll ok fs ps, fs) := by
  induction ps generalizing ok with
  | nil => rfl
  | cons p ps ih =>
    rw [openAllProg, Prog.run_bind, run_openInputProg, openAll]
    cases openInput (ok 0) fs p with
    | error e => rfl
    | ok reader =>
      dsimp only
      rw [Prog.run_bind, ih, ok_bind]
      cases openAll (fun i => ok (i + 1)) fs ps <;> rfl

theorem run_splitL1Prog (ok : ℕ → Bool) (io : ℕ → PassIo) (fs : Fs) (l0Range : KeyRange)
    (ps : List Path) :
    (splitL1Prog ok io l0Range ps).run fs = (splitL1 ok io fs l0Range ps, fs) := by
  induction ps generalizing ok io with
  | nil => rfl
  | cons p ps ih =>
    rw [splitL1Prog, Prog.run_bind, run_openInputProg, splitL1]
    cases openInput (ok 0) fs p with
    | error e => rfl
    | ok reader =>
      rw [ok_bind]
      dsimp only
      cases keyRange (io 0) reader with
      | error e => rfl
      | ok l1Range =>
        rw [ok_bind]
        dsimp only
        rw [Prog.run_bind, ih]
        cases splitL1 (fun i => ok (i + 1)) (fun i => io (i + 1)) fs l0Range ps with
        | error e => rfl
        | ok split =>
          rw [ok_bind]
          cases rangesOverlap l0Range l1Range <;> rfl

theorem run_removeAllProg (ok : ℕ → Bool) (ps : List Path) (fs : Fs) :
    (removeAllProg ok ps).run fs = ((), removeAll ok ps fs) := by
  induction ps generalizing ok fs with
  | nil => rfl
  | cons p ps ih =>
    rw [removeAllProg, removeAll]
    cases ok 0 with
    | true => exact ih _ _
    | false => exact ih _ _

theorem Fs.write_write (fs : Fs) (p : Path) (bytes bytes' : Bytes) :
    (fs.write p bytes).write p bytes' = fs.write p bytes' := Function.update_idem ..

/-- The pieces make no difference once the file is written again. -/
theorem run_writePieces {R : Type} (p : Path) (bytes : Bytes) (cuts : List ℕ) (v : Option Bytes)
    (next : FileProg R) (fs : Fs) :
    (writePieces p bytes cuts (.put p v next)).run fs = (Prog.put p v next).run fs := by
  induction cuts generalizing fs with
  | nil => rfl
  | cons n ns ih =>
    rw [writePieces, Prog.run, ih, Prog.run, Prog.run, Function.update_idem]

theorem run_mergeProg (S : BloomSizing) (H : MergeHeap) (io : MergeIo) (cuts : List ℕ) (fs : Fs)
    (readers : List SsTableReader) (outputPath : Path) :
    (mergeProg S H io cuts readers outputPath).run fs =
      mergeSstables S H io fs readers outputPath := by
  rw [mergeProg, mergeSstables]
  cases mapErr CompactionError.ofSsTableError (passes io.count readers) with
  | error e => rfl
  | ok counted =>
    dsimp only
    cases io.create with
    | false => rfl
    | true =>
      rw [if_pos rfl, if_pos rfl, Prog.run]
      cases mapErr CompactionError.ofSsTableError (passes io.pass readers) with
      | error e => rfl
      | ok iters =>
        dsimp only
        cases sstableBytes S (counted.map List.length).sum (merge H iters) with
        | none => rfl
        | some bytes =>
          dsimp only
          cases io.stop bytes with
          | some n =>
            dsimp only
            rw [run_writePieces, Prog.run, Function.update_idem, Fs.write_write]
            rfl
          | none =>
            dsimp only
            rw [run_writePieces, Prog.run, Function.update_idem, Fs.write_write]
            cases io.rename <;> rfl

/-- **Run alone, the program is `LevelManager::compact`.** -/
theorem LevelManager.run_compactProg (S : BloomSizing) (H : MergeHeap) (io : CompactIo)
    (cuts : List ℕ) (now : ℕ) (fs : Fs) (lm : LevelManager) :
    (compactProg S H io cuts now lm).run fs =
      (((compact S H io now fs lm).1, (compact S H io now fs lm).2.1),
        (compact S H io now fs lm).2.2) := by
  rw [compactProg, compact]
  cases lm.l0 with
  | nil => rfl
  | cons oldest newer =>
    dsimp only
    rw [Prog.run_bind, run_openAllProg]
    cases openAll io.openL0 fs (oldest :: newer) with
    | error e => rfl
    | ok l0Readers =>
      dsimp only
      cases combineRanges io.rangeL0 none l0Readers >>= orPanic with
      | error e => rfl
      | ok l0Range =>
        dsimp only
        rw [Prog.run_bind, run_splitL1Prog]
        cases splitL1 io.openL1 io.rangeL1 fs l0Range lm.l1 with
        | error e => rfl
        | ok split =>
          dsimp only
          rw [Prog.run_bind, run_mergeProg]
          rcases mergeSstables S H io.merge fs (l0Readers ++ split.overlapping.map Prod.snd)
            (outputPath now oldest) with ⟨e | -, fs'⟩
          · rfl
          · dsimp only
            rw [Prog.run_bind, run_removeAllProg]
            rfl

/-! ### What a compaction touches -/

theorem within_openInputProg (ok : Bool) {p : Path} {F : Set Path} (hp : p ∈ F) :
    (openInputProg ok p).Within F := by
  rw [openInputProg]
  split
  · exact ⟨hp, fun _ => trivial⟩
  · trivial

theorem within_openAllProg (ok : ℕ → Bool) {ps : List Path} {F : Set Path} (h : ∀ p ∈ ps, p ∈ F) :
    (openAllProg ok ps).Within F := by
  induction ps generalizing ok with
  | nil => trivial
  | cons p ps ih =>
    refine Prog.within_bind (within_openInputProg _ (h p List.mem_cons_self))
      (Prog.returns_true _) fun r _ => ?_
    cases r with
    | error e => trivial
    | ok reader =>
      exact Prog.within_bind (ih _ fun q hq => h q (List.mem_cons_of_mem _ hq))
        (Prog.returns_true _) fun _ _ => trivial

theorem within_splitL1Prog (ok : ℕ → Bool) (io : ℕ → PassIo) (l0Range : KeyRange)
    {ps : List Path} {F : Set Path} (h : ∀ p ∈ ps, p ∈ F) :
    (splitL1Prog ok io l0Range ps).Within F := by
  induction ps generalizing ok io with
  | nil => trivial
  | cons p ps ih =>
    refine Prog.within_bind (within_openInputProg _ (h p List.mem_cons_self))
      (Prog.returns_true _) fun r _ => ?_
    cases r with
    | error e => trivial
    | ok reader =>
      dsimp only
      split
      · trivial
      · exact Prog.within_bind (ih _ _ fun q hq => h q (List.mem_cons_of_mem _ hq))
          (Prog.returns_true _) fun _ _ => trivial

/-- The split chooses among the files of L1. -/
theorem returns_splitL1Prog (ok : ℕ → Bool) (io : ℕ → PassIo) (l0Range : KeyRange)
    (ps : List Path) :
    (splitL1Prog ok io l0Range ps).Returns fun r =>
      ∀ split, r = .ok split → ∀ q ∈ split.overlapping.map Prod.fst, q ∈ ps := by
  induction ps generalizing ok io with
  | nil =>
    rintro split hsplit q hq
    obtain rfl := Except.ok.inj hsplit
    simp at hq
  | cons p ps ih =>
    refine Prog.returns_bind (Prog.returns_true _) fun r _ => ?_
    cases r with
    | error e => exact fun split hsplit => by simp at hsplit
    | ok reader =>
      dsimp only
      split
      · exact fun split hsplit => by simp at hsplit
      · refine Prog.returns_bind (ih _ _) fun r hr split hsplit q hq => ?_
        cases r with
        | error e => simp [Except.map] at hsplit
        | ok split' =>
          obtain rfl := Except.ok.inj hsplit
          have hr := hr split' rfl
          split at hq
          · rw [List.map_cons] at hq
            rcases List.mem_cons.mp hq with rfl | hq
            · exact List.mem_cons_self
            · exact List.mem_cons_of_mem _ (hr q hq)
          · exact List.mem_cons_of_mem _ (hr q hq)

theorem within_writePieces {R : Type} {p : Path} (bytes : Bytes) (cuts : List ℕ)
    {next : FileProg R} {F : Set Path} (hp : p ∈ F) (hnext : next.Within F) :
    (writePieces p bytes cuts next).Within F := by
  induction cuts with
  | nil => exact hnext
  | cons n ns ih => exact ⟨hp, ih⟩

theorem within_mergeProg (S : BloomSizing) (H : MergeHeap) (io : MergeIo) (cuts : List ℕ)
    (readers : List SsTableReader) {outputPath : Path} {F : Set Path} (hout : outputPath ∈ F)
    (htmp : outputPath.tmp ∈ F) : (mergeProg S H io cuts readers outputPath).Within F := by
  rw [mergeProg]
  split
  · trivial
  · dsimp only
    split
    · refine ⟨htmp, ?_⟩
      split
      · trivial
      · split
        · trivial
        · refine within_writePieces _ _ htmp ?_
          split
          · exact ⟨htmp, trivial⟩
          · refine ⟨htmp, ?_⟩
            split
            · exact ⟨htmp, hout, trivial⟩
            · trivial
    · trivial

theorem within_removeAllProg (ok : ℕ → Bool) {ps : List Path} {F : Set Path}
    (h : ∀ p ∈ ps, p ∈ F) : (removeAllProg ok ps).Within F := by
  induction ps generalizing ok with
  | nil => trivial
  | cons p ps ih =>
    have hps : ∀ q ∈ ps, q ∈ F := fun q hq => h q (List.mem_cons_of_mem _ hq)
    rw [removeAllProg]
    cases ok 0 with
    | true => exact ⟨h p List.mem_cons_self, ih _ hps⟩
    | false => exact ih _ hps

namespace LevelManager

/-- The files of a compaction: those that are tracked, and those it writes. -/
def compactFiles (now : ℕ) (lm : LevelManager) : Set Path :=
  {p | p ∈ lm.l0 ++ lm.l1 ∨ ∃ oldest ∈ lm.l0, p = outputPath now oldest ∨
    p = (outputPath now oldest).tmp}

/-- **A compaction touches its own files only**, whatever it reads. -/
theorem within_compactProg (S : BloomSizing) (H : MergeHeap) (io : CompactIo) (cuts : List ℕ)
    (now : ℕ) (lm : LevelManager) :
    (compactProg S H io cuts now lm).Within (compactFiles now lm) := by
  have htracked : ∀ p ∈ lm.l0 ++ lm.l1, p ∈ compactFiles now lm := fun _ hp => Or.inl hp
  rw [compactProg]
  cases hl0 : lm.l0 with
  | nil => trivial
  | cons oldest newer =>
    have hmem : ∀ p ∈ oldest :: newer, p ∈ lm.l0 := fun p hp => hl0 ▸ hp
    have holdest : oldest ∈ lm.l0 := hmem oldest List.mem_cons_self
    have hout : outputPath now oldest ∈ compactFiles now lm := Or.inr ⟨oldest, holdest, Or.inl rfl⟩
    have htmp : (outputPath now oldest).tmp ∈ compactFiles now lm :=
      Or.inr ⟨oldest, holdest, Or.inr rfl⟩
    dsimp only
    refine Prog.within_bind (within_openAllProg _ fun p hp => htracked p (mem_of_l0 (hmem p hp)))
      (Prog.returns_true _) fun r _ => ?_
    cases r with
    | error e => trivial
    | ok l0Readers =>
      dsimp only
      split
      · trivial
      · refine Prog.within_bind (within_splitL1Prog _ _ _ fun p hp => htracked p (mem_of_l1 hp))
          (returns_splitL1Prog ..) fun r hr => ?_
        cases r with
        | error e => trivial
        | ok split =>
          dsimp only
          refine Prog.within_bind (within_mergeProg _ _ _ _ _ hout htmp) (Prog.returns_true _)
            fun r _ => ?_
          rcases r with e | -
          · trivial
          · refine Prog.within_bind (within_removeAllProg _ fun p hp => htracked p ?_)
              (Prog.returns_true _) fun _ _ => trivial
            rcases List.mem_append.mp hp with hp | hp
            · exact mem_of_l0 (hmem p hp)
            · exact mem_of_l1 (hr split rfl p hp)

end LevelManager

/-! ### A compaction that is cut short -/

theorem readOnly_openInputProg (ok : Bool) (p : Path) : (openInputProg ok p).ReadOnly := by
  rw [openInputProg]
  cases ok with
  | true => exact fun _ => trivial
  | false => trivial

theorem readOnly_openAllProg (ok : ℕ → Bool) (ps : List Path) : (openAllProg ok ps).ReadOnly := by
  induction ps generalizing ok with
  | nil => trivial
  | cons p ps ih =>
    refine Prog.readOnly_bind (readOnly_openInputProg _ p) fun r => ?_
    cases r with
    | error e => trivial
    | ok reader => exact Prog.readOnly_bind (ih _) fun _ => trivial

theorem readOnly_splitL1Prog (ok : ℕ → Bool) (io : ℕ → PassIo) (l0Range : KeyRange)
    (ps : List Path) : (splitL1Prog ok io l0Range ps).ReadOnly := by
  induction ps generalizing ok io with
  | nil => trivial
  | cons p ps ih =>
    refine Prog.readOnly_bind (readOnly_openInputProg _ p) fun r => ?_
    cases r with
    | error e => trivial
    | ok reader =>
      dsimp only
      split
      · trivial
      · exact Prog.readOnly_bind (ih _ _) fun _ => trivial

/-- The temporary file has some of its bytes, until the pieces are written. -/
theorem reaches_writePieces {R : Type} {p : Path} {bytes : Bytes} {cuts : List ℕ}
    {next q : FileProg R} {fs fs' : Fs} {n : ℕ}
    (h : Reaches (writePieces p bytes cuts next, fs.write p (bytes.take n)) (q, fs')) :
    ∃ m, fs' = fs.write p (bytes.take m) ∨ Reaches (next, fs.write p (bytes.take m)) (q, fs') := by
  induction cuts generalizing n with
  | nil => exact ⟨n, Or.inr h⟩
  | cons k ks ih =>
    rcases h.of_put with rfl | h
    · exact ⟨n, Or.inl rfl⟩
    · have h : Reaches (_, (fs.write p (bytes.take n)).write p (bytes.take k)) (q, fs') := h
      rw [Fs.write_write] at h
      exact ih h

section Merge

variable {S : BloomSizing} {H : MergeHeap} {io : MergeIo} {cuts : List ℕ}
  {readers : List SsTableReader} {outputPath : Path} {fs fs' : Fs}

theorem mergeSstables_uncreated (io : MergeIo) :
    (mergeSstables S H { io with create := false } fs readers outputPath).2 = fs := by
  rw [mergeSstables]
  cases mapErr CompactionError.ofSsTableError (passes io.count readers) <;> rfl

theorem mergeSstables_unwritten {counted iters : List (List Record)} {bytes : Bytes}
    (hcount : mapErr CompactionError.ofSsTableError (passes io.count readers) = .ok counted)
    (hcreate : io.create = true)
    (hpass : mapErr CompactionError.ofSsTableError (passes io.pass readers) = .ok iters)
    (hbytes : sstableBytes S (counted.map List.length).sum (merge H iters) = some bytes) (n : ℕ) :
    (mergeSstables S H { io with write := some n } fs readers outputPath).2 =
      fs.write outputPath.tmp (bytes.take n) := by
  simp only [mergeSstables, hcount, hcreate, hpass, hbytes, if_true, Fs.write_write]
  rfl

/-- **A merge that is cut short** leaves the files of a merge that fails, and has read what it
would. -/
theorem exists_script_of_reaches_mergeProg {q : FileProg (Res CompactionError Unit)}
    (h : Reaches (mergeProg S H io cuts readers outputPath, fs) (q, fs')) :
    ∃ io', (io.ReadsComplete → io'.ReadsComplete) ∧
      (mergeSstables S H io' fs readers outputPath).2 = fs' := by
  have huncreated : fs' = fs → ∃ io', (io.ReadsComplete → io'.ReadsComplete) ∧
      (mergeSstables S H io' fs readers outputPath).2 = fs' := by
    rintro rfl
    exact ⟨{ io with create := false }, fun h => ⟨h.count, h.pass⟩, mergeSstables_uncreated io⟩
  rw [mergeProg] at h
  cases hcount : mapErr CompactionError.ofSsTableError (passes io.count readers) with
  | error e =>
    rw [hcount] at h
    exact huncreated h.of_ret
  | ok counted =>
    rw [hcount] at h
    dsimp only at h
    cases hcreate : io.create with
    | false =>
      rw [hcreate] at h
      exact huncreated h.of_ret
    | true =>
      rw [hcreate, if_pos rfl] at h
      rcases h.of_put with hfs | h
      · exact huncreated hfs
      have h : Reaches (_, fs.write outputPath.tmp []) (q, fs') := h
      cases hpass : mapErr CompactionError.ofSsTableError (passes io.pass readers) with
      | error e =>
        rw [hpass] at h
        exact ⟨io, id, by simp [mergeSstables, hcount, hcreate, hpass, h.of_ret]⟩
      | ok iters =>
        rw [hpass] at h
        dsimp only at h
        cases hbytes : sstableBytes S (counted.map List.length).sum (merge H iters) with
        | none =>
          rw [hbytes] at h
          exact ⟨io, id, by simp [mergeSstables, hcount, hcreate, hpass, hbytes, h.of_ret]⟩
        | some bytes =>
          rw [hbytes] at h
          have hcut : ∀ n, fs' = fs.write outputPath.tmp (bytes.take n) →
              ∃ io', (io.ReadsComplete → io'.ReadsComplete) ∧
                (mergeSstables S H io' fs readers outputPath).2 = fs' := by
            rintro n rfl
            exact ⟨{ io with write := some n }, fun h => ⟨h.count, h.pass⟩,
              mergeSstables_unwritten hcount hcreate hpass hbytes n⟩
          obtain ⟨m, hfs | h⟩ := reaches_writePieces (n := 0) h
          · exact hcut m hfs
          cases hstop : io.stop bytes with
          | some n =>
            rw [hstop] at h
            rcases h.of_put with hfs | h
            · exact hcut m hfs
            · exact hcut n (h.of_ret.trans (Fs.write_write ..))
          | none =>
            rw [hstop] at h
            rcases h.of_put with hfs | h
            · exact hcut m hfs
            have h : Reaches
              (_, (fs.write outputPath.tmp (bytes.take m)).write outputPath.tmp bytes)
              (q, fs') := h
            rw [Fs.write_write] at h
            have hwhole : fs' = fs.write outputPath.tmp bytes →
                ∃ io', (io.ReadsComplete → io'.ReadsComplete) ∧
                  (mergeSstables S H io' fs readers outputPath).2 = fs' := fun hfs =>
              hcut bytes.length (by rw [hfs, List.take_length])
            cases hrename : io.rename with
            | false =>
              rw [hrename] at h
              exact hwhole h.of_ret
            | true =>
              rw [hrename, if_pos rfl] at h
              rcases h.of_move with hfs | h
              · exact hwhole hfs
              · refine ⟨io, id, ?_⟩
                simp only [mergeSstables, hcount, hcreate, hpass, hbytes, hstop, hrename, if_true,
                  Fs.write_write, h.of_ret]
                rfl

end Merge

theorem removeAll_none (ps : List Path) (fs : Fs) : removeAll (fun _ => false) ps fs = fs := by
  induction ps with
  | nil => rfl
  | cons p ps ih => exact ih

/-- Deletions that are cut short: the first ones have been tried. -/
theorem exists_script_of_reaches_removeAllProg {ok : ℕ → Bool} {ps : List Path} {fs fs' : Fs}
    {q : FileProg Unit} (h : Reaches (removeAllProg ok ps, fs) (q, fs')) :
    ∃ n, removeAll (fun i => decide (i < n) && ok i) ps fs = fs' := by
  induction ps generalizing ok fs with
  | nil => exact ⟨0, h.of_ret.symm⟩
  | cons p ps ih =>
    have hnext : ∀ n, (fun i => decide (i + 1 < n + 1) && ok (i + 1)) =
        fun i => decide (i < n) && ok (i + 1) := fun n => by simp only [Nat.add_lt_add_iff_right]
    rw [removeAllProg] at h
    -- what the script says of the first file, and then what is found for the others
    cases hok : ok 0 with
    | true =>
      rw [hok, if_pos rfl] at h
      rcases h.of_put with rfl | h
      · exact ⟨0, removeAll_none _ _⟩
      · obtain ⟨n, rfl⟩ := ih h
        refine ⟨n + 1, ?_⟩
        rw [removeAll, hnext, if_pos (by simp [hok])]
        rfl
    | false =>
      rw [hok] at h
      obtain ⟨n, rfl⟩ := ih h
      refine ⟨n + 1, ?_⟩
      rw [removeAll, hnext, if_neg (by simp [hok])]

/-- **A script that stops**: it reads as another one does, and of the inputs it deletes those of
the other one, up to some place. -/
structure CompactIo.Stops (io io' : CompactIo) : Prop where
  reads : io.ReadsComplete → io'.ReadsComplete
  removes : ∃ n, io'.remove = fun i => decide (i < n) && io.remove i

namespace LevelManager

variable {S : BloomSizing} {H : MergeHeap} {io : CompactIo} {cuts : List ℕ} {now : ℕ}
  {fs fs' : Fs} {lm : LevelManager}

theorem compact_unopened (io : CompactIo) :
    (compact S H { io with openL0 := fun _ => false } now fs lm).2.2 = fs := by
  rw [compact]
  cases lm.l0 <;> rfl

/-- The files that a compaction leaves when it gets as far as the merge. -/
theorem compact_merge {oldest : Path} {newer : List Path} {l0Readers : List SsTableReader}
    {l0Range : KeyRange} {split : SplitL1} (hl0 : lm.l0 = oldest :: newer)
    (hopen : openAll io.openL0 fs (oldest :: newer) = .ok l0Readers)
    (hrange : combineRanges io.rangeL0 none l0Readers >>= orPanic = .ok l0Range)
    (hsplit : splitL1 io.openL1 io.rangeL1 fs l0Range lm.l1 = .ok split) (m : MergeIo)
    (r : ℕ → Bool) :
    (compact S H { io with merge := m, remove := r } now fs lm).2.2 =
      let out := mergeSstables S H m fs (l0Readers ++ split.overlapping.map Prod.snd)
        (outputPath now oldest)
      if out.1 = .ok () then removeAll r (oldest :: newer ++ split.overlapping.map Prod.fst) out.2
      else out.2 := by
  simp only [compact, hl0, hopen, hrange, hsplit]
  rcases mergeSstables S H m fs (l0Readers ++ split.overlapping.map Prod.snd)
    (outputPath now oldest) with ⟨e | -, fs'⟩ <;> rfl

/-- **A compaction that is cut short** leaves the files of a compaction in which an operation
fails. -/
theorem exists_script_of_reaches {q : FileProg (Res CompactionError Unit × LevelManager)}
    (h : Reaches (compactProg S H io cuts now lm, fs) (q, fs')) :
    ∃ io', io.Stops io' ∧ (compact S H io' now fs lm).2.2 = fs' := by
  have hstops : ∀ {io' : CompactIo}, (io.ReadsComplete → io'.ReadsComplete) →
      io'.remove = (fun _ => false) → io.Stops io' := fun hreads hremove =>
    ⟨hreads, 0, by simp [hremove]⟩
  have hunopened : fs' = fs → ∃ io', io.Stops io' ∧ (compact S H io' now fs lm).2.2 = fs' := by
    rintro rfl
    exact ⟨{ io with openL0 := fun _ => false, remove := fun _ => false },
      hstops (fun h => ⟨h.rangeL0, h.rangeL1, h.merge⟩) rfl,
      compact_unopened { io with remove := fun _ => false }⟩
  rw [compactProg] at h
  cases hl0 : lm.l0 with
  | nil =>
    rw [hl0] at h
    exact hunopened h.of_ret
  | cons oldest newer =>
    rw [hl0] at h
    rcases h.of_bind with ⟨p', hp', -⟩ | h
    · exact hunopened (hp'.of_readOnly (readOnly_openAllProg _ _))
    rw [run_openAllProg] at h
    cases hopen : openAll io.openL0 fs (oldest :: newer) with
    | error e =>
      rw [hopen] at h
      exact hunopened h.of_ret
    | ok l0Readers =>
      rw [hopen] at h
      dsimp only at h
      cases hrange : combineRanges io.rangeL0 none l0Readers >>= orPanic with
      | error e =>
        rw [hrange] at h
        exact hunopened h.of_ret
      | ok l0Range =>
        rw [hrange] at h
        rcases h.of_bind with ⟨p', hp', -⟩ | h
        · exact hunopened (hp'.of_readOnly (readOnly_splitL1Prog _ _ _ _))
        rw [run_splitL1Prog] at h
        cases hsplit : splitL1 io.openL1 io.rangeL1 fs l0Range lm.l1 with
        | error e =>
          rw [hsplit] at h
          exact hunopened h.of_ret
        | ok split =>
          rw [hsplit] at h
          dsimp only at h
          have hmerge := @compact_merge S H io now fs lm _ _ _ _ _ hl0 hopen hrange hsplit
          rcases h.of_bind with ⟨p', hp', -⟩ | hrest
          · -- in the merge: no input is deleted
            obtain ⟨m, hreads, rfl⟩ := exists_script_of_reaches_mergeProg hp'
            refine ⟨{ io with merge := m, remove := fun _ => false },
              hstops (fun h => ⟨h.rangeL0, h.rangeL1, hreads h.merge⟩) rfl,
              (hmerge m fun _ => false).trans ?_⟩
            dsimp only
            split
            · exact removeAll_none _ _
            · rfl
          · rw [run_mergeProg] at hrest
            have hmerge := hmerge io.merge
            cases hout : mergeSstables S H io.merge fs
              (l0Readers ++ split.overlapping.map Prod.snd) (outputPath now oldest) with
            | mk res fs₁ =>
              rw [hout] at hrest hmerge
              rcases res with e | ⟨⟩
              · exact ⟨{ io with remove := fun _ => false },
                  hstops (fun h => ⟨h.rangeL0, h.rangeL1, h.merge⟩) rfl,
                  (hmerge fun _ => false).trans hrest.of_ret.symm⟩
              · -- in the deletions, or behind them
                have hremoved : ∀ {q : FileProg Unit} {fs'' : Fs}, Reaches (removeAllProg io.remove
                    (oldest :: newer ++ split.overlapping.map Prod.fst), fs₁) (q, fs'') →
                    ∃ io', io.Stops io' ∧ (compact S H io' now fs lm).2.2 = fs'' := by
                  intro q fs'' hreach
                  obtain ⟨n, rfl⟩ := exists_script_of_reaches_removeAllProg hreach
                  exact ⟨{ io with remove := fun i => decide (i < n) && io.remove i },
                    ⟨fun h => ⟨h.rangeL0, h.rangeL1, h.merge⟩, n, rfl⟩, hmerge _⟩
                rcases hrest.of_bind with ⟨p', hp', -⟩ | hdone
                · exact hremoved hp'
                · obtain rfl := hdone.of_ret
                  exact hremoved (.of_run _ _)

end LevelManager

end Tabula
