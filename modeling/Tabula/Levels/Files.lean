import Tabula.Levels.Outcome

/-!
# The files a compaction leaves

What a compaction makes of the directory, whatever its file operations do and whatever it
returns. It writes one SSTable, under a temporary name until it is complete, and deletes
files that were tracked (`Tabula.LevelManager.compact_file_cases`). So no SSTable is ever
half written (`Tabula.LevelManager.written_compact`), and as long as the path of the
output is new, the lists have only files that are there (`Tabula.LevelManager.KeepsL1`).

Nothing here asks that the reads were complete. A read that fails in the middle of a file
may cost records, and it may hide that ranges meet; it does not make the output any less
of an SSTable.
-/

namespace Tabula

open SortedTable

namespace LevelManager

/-- **A compaction deletes files and writes one**: any other file is as it was, or it was
tracked and is gone. -/
theorem compact_file_cases (S : BloomSizing) (H : MergeHeap) (io : CompactIo) (now : ℕ) (fs : Fs)
    {lm : LevelManager} {q : Path}
    (hout : ∀ oldest ∈ lm.l0, q ≠ outputPath now oldest ∧ q ≠ (outputPath now oldest).tmp) :
    (compact S H io now fs lm).2.2 q = fs q ∨
      (compact S H io now fs lm).2.2 q = none ∧ q ∈ lm.l0 ++ lm.l1 := by
  have hoc := outcome_compact S H io now fs lm
  generalize compact S H io now fs lm = out at hoc ⊢
  cases hoc with
  | idle | l0Unread | l1Unread => exact Or.inl rfl
  | unmerged hl0 hmerge =>
    obtain ⟨hfile, htmp⟩ := hout _ (List.mem_of_head? hl0)
    exact Or.inl (mergeSstables_frame hmerge htmp fun _ => hfile)
  | @merged oldest _ _ split _ hl0 _ _ hsplit hmerge =>
    obtain ⟨hfile, htmp⟩ := hout oldest (List.mem_of_head? hl0)
    have hframe := mergeSstables_frame hmerge htmp fun _ => hfile
    -- only an input can be deleted
    by_cases hin : q ∈ lm.l0 ++ split.overlapping.map Prod.fst
    · refine (removeAll_eq_or io.remove _ _ q).imp (·.trans hframe) fun hgone => ⟨hgone, ?_⟩
      exact (List.mem_append.mp hin).elim mem_of_l0 fun hq =>
        mem_of_l1 (splitL1_mem hsplit q (Or.inl hq))
    · exact Or.inl ((removeAll_of_notMem hin).trans hframe)

/-- **A compaction touches its inputs, its output and the temporary file**, whatever
comes of it. -/
theorem compact_of_notMem (S : BloomSizing) (H : MergeHeap) (io : CompactIo) (now : ℕ) (fs : Fs)
    {lm : LevelManager} {q : Path} (hl0 : q ∉ lm.l0) (hl1 : q ∉ lm.l1)
    (hout : ∀ oldest ∈ lm.l0, q ≠ outputPath now oldest ∧ q ≠ (outputPath now oldest).tmp) :
    (compact S H io now fs lm).2.2 q = fs q :=
  (compact_file_cases S H io now fs hout).resolve_right fun hgone =>
    (List.mem_append.mp hgone.2).elim hl0 hl1

/-- **An SSTable that is there after a compaction was there before, or is the output**: what
the merge has made of what it has read of its inputs. -/
theorem exists_merge_of_compact {S : BloomSizing} {H : MergeHeap} {io : CompactIo} {now : ℕ}
    {fs : Fs} {lm : LevelManager} {q : Path} (hq : q.NamedSst)
    (hne : (compact S H io now fs lm).2.2 q ≠ none)
    (hnew : (compact S H io now fs lm).2.2 q ≠ fs q) :
    ∃ n iters bytes, (compact S H io now fs lm).2.2 q = some bytes ∧
      sstableBytes S n (merge H iters) = some bytes ∧ bytes.length < 2 ^ 63 ∧
      ∀ t ∈ iters, ∃ p ∈ lm.l0 ++ lm.l1, t <+: fs.records p := by
  have hok : (compact S H io now fs lm).1 = .ok () := by
    by_contra hok
    exact hnew (compact_frame hok hq)
  cases hl0 : lm.l0 with
  | nil => exact absurd (by rw [compact_nil hl0]) hnew
  | cons oldest newer =>
    have hcompact : compact S H io now fs lm = (.ok (), _, _) := Prod.ext hok rfl
    obtain ⟨readers, _, split, n, iters, bytes, hopen, -, hsplit, hpass, hbytes, hlen, -, hfs⟩ :=
      compact_eq_ok_split (by rw [hl0]; rfl) hcompact
    have hleft := (removeAll_eq_or io.remove (lm.l0 ++ split.overlapping.map Prod.fst) (Fs.rename
      ((fs.write (outputPath now oldest).tmp []).write (outputPath now oldest).tmp bytes)
      (outputPath now oldest).tmp (outputPath now oldest)) q).resolve_right
      fun hgone => hne (hfs ▸ hgone)
    -- of the files that are left only the output has changed
    have hout : q = outputPath now oldest := by
      by_contra hout
      refine hnew ?_
      rw [hfs, hleft, Fs.rename_of_ne (hq.ne_tmp _) hout, Fs.write_of_ne (hq.ne_tmp _),
        Fs.write_of_ne (hq.ne_tmp _)]
    rw [← hl0]
    refine ⟨n, iters, bytes, by rw [hfs, hleft, hout, Fs.rename_written], hbytes, hlen,
      fun t ht => ?_⟩
    -- a pass goes over a file of L0, or over one of L1 that the split has chosen
    obtain ⟨reader, hr, hprefix⟩ := exists_of_mem_passes hpass ht
    rcases List.mem_append.mp hr with hr | hr
    · have hmem : reader.iter ∈ lm.l0.map fs.records := openAll_eq_ok hopen ▸ List.mem_map_of_mem hr
      obtain ⟨p, hp, hiter⟩ := List.mem_map.mp hmem
      exact ⟨p, mem_of_l0 hp, hiter ▸ hprefix⟩
    · obtain ⟨pr, hpr, rfl⟩ := List.mem_map.mp hr
      obtain ⟨hp, hiter⟩ := splitL1_readers hsplit pr hpr
      exact ⟨pr.1, mem_of_l1 hp, hiter ▸ hprefix⟩

/-- **The records of an SSTable after a compaction**: those it had before, or none, or those
that the merge has made of what it has read of its inputs. -/
theorem records_compact_cases {S : BloomSizing} {H : MergeHeap} {io : CompactIo} {now : ℕ}
    {fs : Fs} {lm : LevelManager} (hs : ∀ p ∈ lm.l0 ++ lm.l1, StrictSorted (fs.records p))
    {q : Path} (hq : q.NamedSst) :
    Fs.records (compact S H io now fs lm).2.2 q = fs.records q ∨
      Fs.records (compact S H io now fs lm).2.2 q = [] ∨
      ∃ iters, (∀ t ∈ iters, StrictSorted t ∧ ∃ p ∈ lm.l0 ++ lm.l1, t <+: fs.records p) ∧
        Fs.records (compact S H io now fs lm).2.2 q = merge H iters := by
  by_cases hsame : (compact S H io now fs lm).2.2 q = fs q
  · exact Or.inl (Fs.records_congr hsame)
  · by_cases hne : (compact S H io now fs lm).2.2 q = none
    · exact Or.inr (Or.inl (Fs.records_of_missing hne))
    · obtain ⟨n, iters, bytes, hfile, hbytes, hlen, hread⟩ := exists_merge_of_compact hq hne hsame
      have hstored : Fs.Stored (compact S H io now fs lm).2.2 q (merge H iters) :=
        ⟨bytes, hfile, (stores_merge hs hread hbytes hlen).1⟩
      refine Or.inr (Or.inr ⟨iters, fun t ht => ?_, hstored.records_eq⟩)
      obtain ⟨p, hp, hprefix⟩ := hread t ht
      exact ⟨(hs p hp).sublist hprefix.sublist, p, hp, hprefix⟩

/-- **A compaction leaves no SSTable half written**, whatever comes of it and whatever its
reads made of the files. -/
theorem written_compact {S : BloomSizing} {H : MergeHeap} {io : CompactIo} {now : ℕ} {fs : Fs}
    {lm : LevelManager} {q : Path} (hq : q.NamedSst) (hold : fs q ≠ none → fs.Written S q)
    (hne : (compact S H io now fs lm).2.2 q ≠ none) :
    Fs.Written S (compact S H io now fs lm).2.2 q := by
  by_cases hsame : (compact S H io now fs lm).2.2 q = fs q
  · exact (hold (hsame.symm.trans_ne hne)).congr hsame
  · obtain ⟨n, iters, bytes, hfile, hbytes, -⟩ := exists_merge_of_compact hq hne hsame
    exact ⟨n, _, bytes, hbytes, hfile⟩

/-- Nor one that cannot be read, when all of its inputs could. -/
theorem complete_compact {S : BloomSizing} {H : MergeHeap} {io : CompactIo} {now : ℕ} {fs : Fs}
    {lm : LevelManager} (hs : ∀ p ∈ lm.l0 ++ lm.l1, StrictSorted (fs.records p)) {q : Path}
    (hq : q.NamedSst) (hold : fs q ≠ none → fs.Complete q)
    (hne : (compact S H io now fs lm).2.2 q ≠ none) :
    Fs.Complete (compact S H io now fs lm).2.2 q := by
  by_cases hsame : (compact S H io now fs lm).2.2 q = fs q
  · exact (hold (hsame.symm.trans_ne hne)).congr hsame
  · obtain ⟨n, iters, bytes, hfile, hbytes, hlen, hread⟩ := exists_merge_of_compact hq hne hsame
    have hstored : Fs.Stored (compact S H io now fs lm).2.2 q (merge H iters) :=
      ⟨bytes, hfile, (stores_merge hs hread hbytes hlen).1⟩
    exact hstored.complete

/-- After a compaction, L1 has no file it did not have before, but the output. -/
theorem mem_l1_compact {S : BloomSizing} {H : MergeHeap} {io : CompactIo} {now : ℕ} {fs : Fs}
    {lm : LevelManager} {q : Path} (h : q ∈ (compact S H io now fs lm).2.1.l1) :
    q ∈ lm.l1 ∨ ∃ oldest ∈ lm.l0, q = outputPath now oldest := by
  have hoc := outcome_compact S H io now fs lm
  generalize compact S H io now fs lm = out at hoc h
  cases hoc with
  | idle | l0Unread => exact Or.inl h
  | l1Unread | unmerged => simp at h
  | @merged oldest _ _ _ _ hl0 _ _ hsplit =>
    rcases List.mem_append.mp h with hq | hq
    · exact Or.inl (splitL1_mem hsplit q (Or.inr hq))
    · exact Or.inr ⟨oldest, List.mem_of_head? hl0, List.mem_singleton.mp hq⟩

section Compact

variable (S : BloomSizing) (H : MergeHeap) (io : CompactIo) (now : ℕ) (fs : Fs) {lm : LevelManager}

/-- What is true of L1 after a compaction: it has kept files that were there, and they are
as they were, and there may be an output behind them, completely written. -/
def KeepsL1 (lm lm' : LevelManager) (fs' : Fs) : Prop :=
  ∃ kept, kept.Sublist lm.l1 ∧ (∀ p ∈ kept, fs' p = fs p) ∧
    (lm'.l1 = kept ∨ ∃ oldest ∈ lm.l0, lm'.l1 = kept ++ [outputPath now oldest] ∧
      Fs.Written S fs' (outputPath now oldest))

/-- A compaction that returns `Ok` deletes neither its output nor a file that it keeps, as
long as the path of the output is new. -/
theorem keepsL1_of_ok {lm' : LevelManager} {fs' : Fs} {oldest : Path}
    (hl0 : lm.l0.head? = some oldest)
    (h : compact S H io now fs lm = (.ok (), lm', fs'))
    (hnamed : ∀ p ∈ lm.l1, p.NamedSst) (hnodup : lm.l1.Nodup) (hdisjoint : ∀ p ∈ lm.l0, p ∉ lm.l1)
    (hout : outputPath now oldest ∉ lm.l0 ++ lm.l1) : KeepsL1 S now fs lm lm' fs' := by
  obtain ⟨_, _, split, n, iters, bytes, -, -, hsplit, -, hbytes, -, hlm, hfs⟩ :=
    compact_eq_ok_split hl0 h
  obtain ⟨hperm, hsub⟩ := splitL1_perm hsplit
  refine ⟨split.untouched, hsub, fun p hp => ?_,
    Or.inr ⟨oldest, List.mem_of_head? hl0, by rw [hlm, l1_mk], n, _, bytes, hbytes, ?_⟩⟩
  · have hl1 : p ∈ lm.l1 := hsub.subset hp
    have hkept : p ∉ lm.l0 ++ split.overlapping.map Prod.fst := by
      intro hin
      rcases List.mem_append.mp hin with hin | hin
      · exact hdisjoint p hin hl1
      · exact (List.nodup_append.mp (hperm.nodup_iff.mpr hnodup)).2.2 p hin p hp rfl
    have hne : p ≠ outputPath now oldest := by
      rintro rfl
      exact hout (mem_of_l1 hl1)
    have htmp : p ≠ (outputPath now oldest).tmp := (hnamed p hl1).ne_tmp _
    rw [hfs, removeAll_of_notMem hkept, Fs.rename_of_ne htmp hne, Fs.write_of_ne htmp,
      Fs.write_of_ne htmp]
  · have hkept : outputPath now oldest ∉ lm.l0 ++ split.overlapping.map Prod.fst := by
      intro hin
      rcases List.mem_append.mp hin with hin | hin
      · exact hout (mem_of_l0 hin)
      · exact hout (mem_of_l1 (hperm.mem_iff.mp (List.mem_append_left _ hin)))
    rw [hfs, removeAll_of_notMem hkept, Fs.rename_written]

/-- The same of any compaction: one that fails keeps all of L1 or nothing of it. -/
theorem keepsL1_compact (hnamed : ∀ p ∈ lm.l1, p.NamedSst) (hnodup : lm.l1.Nodup)
    (hdisjoint : ∀ p ∈ lm.l0, p ∉ lm.l1)
    (hout : ∀ oldest ∈ lm.l0, outputPath now oldest ∉ lm.l0 ++ lm.l1) :
    KeepsL1 S now fs lm (compact S H io now fs lm).2.1
      (compact S H io now fs lm).2.2 := by
  by_cases hok : (compact S H io now fs lm).1 = .ok ()
  · cases hl0 : lm.l0 with
    | nil =>
      rw [compact_nil hl0]
      exact ⟨lm.l1, List.Sublist.refl _, fun _ _ => rfl, Or.inl rfl⟩
    | cons oldest newer =>
      exact keepsL1_of_ok S H io now fs (by rw [hl0]; rfl) (Prod.ext hok rfl) hnamed hnodup
        hdisjoint (hout oldest (hl0 ▸ List.mem_cons_self))
  · rcases l1_compact_of_ne_ok hok with hl1 | hl1
    · exact ⟨lm.l1, List.Sublist.refl _, fun p hp => compact_frame hok (hnamed p hp), Or.inl hl1⟩
    · exact ⟨[], List.nil_sublist _, by simp, Or.inl hl1⟩

variable {S} {now} {fs} {lm' : LevelManager} {fs' : Fs}

/-- What is true of the kept files and of the output is true of L1. -/
theorem KeepsL1.forall_l1 (h : KeepsL1 S now fs lm lm' fs') {P : Path → Prop}
    (hkept : ∀ p ∈ lm.l1, fs' p = fs p → P p)
    (hout : ∀ oldest ∈ lm.l0, fs'.Written S (outputPath now oldest) → P (outputPath now oldest)) :
    ∀ p ∈ lm'.l1, P p := by
  obtain ⟨kept, hsub, hsame, hl1 | ⟨oldest, ho, hl1, hwritten⟩⟩ := h
  · rw [hl1]
    exact fun p hp => hkept p (hsub.subset hp) (hsame p hp)
  · rw [hl1]
    intro p hp
    rcases List.mem_append.mp hp with hp | hp
    · exact hkept p (hsub.subset hp) (hsame p hp)
    · exact List.mem_singleton.mp hp ▸ hout oldest ho hwritten

/-- No file is in L1 twice when the output is a new one. -/
theorem KeepsL1.nodup (h : KeepsL1 S now fs lm lm' fs') (hnodup : lm.l1.Nodup)
    (hout : ∀ oldest ∈ lm.l0, outputPath now oldest ∉ lm.l0 ++ lm.l1) : lm'.l1.Nodup := by
  obtain ⟨kept, hsub, -, hl1 | ⟨oldest, ho, hl1, -⟩⟩ := h
  · exact hl1 ▸ hnodup.sublist hsub
  · refine hl1 ▸ List.nodup_append.mpr ⟨hnodup.sublist hsub, List.nodup_singleton _, ?_⟩
    rintro p hp q hq rfl
    rw [List.mem_singleton.mp hq] at hp
    exact hout oldest ho (mem_of_l1 (hsub.subset hp))

end Compact

end LevelManager

end Tabula
