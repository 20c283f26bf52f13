import Tabula.Lsm.Engine

/-!
# Keys and values that do not fit

Both formats narrow the length of a key and of a value to 32 bits, and nothing in
front of them looks at it: `set` and `delete` accept a key or a value of 2^32 bytes
or more like any other. What is read is delimited by fields of 32 bits, so the log
never gives such an entry back and no SSTable gives back its record
(`Tabula.Sys.not_refusedOrKept_of_oversized`). A write that fits is kept
(`Tabula.Sys.refusedOrKept_of_isShort`).
-/

namespace Tabula

open SortedTable

/-! ### What is read is short -/

namespace WalEntry

/-- An entry fits the log exactly when its record fits an SSTable. -/
theorem isShort_iff (e : WalEntry) : e.IsShort ↔ ShortRecord (e.key, e.raw) := by
  cases e with
  | put k v => exact Iff.rfl
  | delete k => exact (and_iff_left short_tombstone).symm

/-- A value of 2^32 zeroes does not fit. -/
theorem not_isShort_zeroes {n : ℕ} (hn : 2 ^ 32 ≤ n) : ¬(put [] (List.replicate n 0)).IsShort := by
  rintro ⟨-, hshort⟩
  rw [Short, List.length_replicate] at hshort
  exact absurd hn (not_le.mpr hshort)

end WalEntry

namespace SsTableReader

theorem short_of_scanWithin {L : Limits} {file : Bytes} {dataEnd pos : ℕ} {key : Key}
    {value : Value} (h : (scanWithin L file dataEnd key pos).1 = .ok (some value)) :
    ShortRecord (key, value) := by
  fun_induction scanWithin L file dataEnd key pos with
  | case1 => simp at h
  | case2 => simp at h
  | case3 pos hpos r n hread hk =>
    obtain rfl : r.2 = value := by simpa using h
    obtain rfl := hk
    exact short_of_readRecordWithin hread
  | case4 => simp at h
  | case5 pos hpos r n hread hk hlt rest ih => exact ih h

/-- **A lookup returns nothing that does not fit the length fields.** -/
theorem short_of_getRaw {reader : SsTableReader} {key : Key} {value : Value}
    (h : reader.getRaw key = .ok (some value)) : ShortRecord (key, value) := by
  rw [getRaw, getRawReads, getRawWithin] at h
  cases hstart : reader.scanStart .most key with
  | error fault => simp [hstart, readsFrom] at h
  | ok start =>
    rw [hstart] at h
    cases start with
    | none => simp [readsFrom] at h
    | some pos => exact short_of_scanWithin h

end SsTableReader

/-! ### Refused or kept -/

/-- **Replay returns the entry the log ends with, and every entry appended after it.** -/
def Wal.Recovers (wal : Bytes) (e : WalEntry) : Prop :=
  ∀ after : List WalEntry, (∀ x ∈ after, x.IsShort) →
    ∃ before, replay (some (wal ++ encodeAll after)) = .ok (before ++ e :: after)

/-- **A file to which the record is added gives it back, and every record added after
it**, through the iterator and through the lookup. -/
def SsTableReader.GivesBack (r : Record) : Prop :=
  ∀ (S : BloomSizing) (n : ℕ) (before after : List Record) (bytes : Bytes),
    (∀ x ∈ before ++ after, ShortRecord x) → StrictSorted (before ++ r :: after) →
    sstableBytes S n (before ++ r :: after) = some bytes → bytes.length < 2 ^ 63 →
    ∃ reader, SsTableReader.open bytes = .ok reader ∧
      ∀ x ∈ r :: after, x ∈ reader.iter ∧ reader.getRaw x.1 = .ok (some x.2)

/-- No log gives back an entry that does not fit. -/
theorem Wal.not_recovers {e : WalEntry} (h : ¬e.IsShort) (wal : Bytes) : ¬Recovers wal e := by
  intro hrec
  obtain ⟨before, hreplay⟩ := hrec [] (List.forall_mem_nil _)
  obtain ⟨es, hes, -, hshort⟩ := exists_replay (wal ++ encodeAll [])
  obtain rfl := Except.ok.inj (hes.symm.trans hreplay)
  exact h (hshort e (List.mem_append_right _ List.mem_cons_self))

/-- **No file gives back a record that does not fit**, whoever has written it. -/
theorem SsTableReader.not_mem_iter {r : Record} (h : ¬ShortRecord r) (reader : SsTableReader) :
    r ∉ reader.iter ∧ reader.getRaw r.1 ≠ .ok (some r.2) :=
  ⟨fun hmem => h (short_of_mem_iterFrom hmem), fun hget => h (short_of_getRaw hget)⟩

namespace Sys

variable {T : Type}

/-- **The call is refused, or as good as any other**: it returns `Err` and leaves the log
as it is, or what it has logged is recovered, and its record given back. -/
def RefusedOrKept (s s' : Sys T) (t : T) (e : WalEntry) : Prop :=
  (s'.wal = s.wal ∧ s'.hist = s.hist ++ [.failed t e]) ∨
    (Wal.Recovers s'.wal e ∧ SsTableReader.GivesBack (e.key, e.raw))

variable [DecidableEq T] {cfg : Config} {s s' : Sys T} {t : T} {e : WalEntry}

/-- Where nothing fails, a call gets on only by its append. -/
theorem eq_append_of_left {a : Act T} (hpc : s.pc t = .logging e) (hs : Step cfg s a s')
    (ha : a.Serves) (hleft : s'.pc t ≠ .logging e) : s' = s.append t e := by
  -- a section of another thread leaves this one where it is
  have hother : ∀ (t' : T) (pc : Pc), t' ≠ t → Function.update s.pc t' pc t = .logging e := by
    intro t' pc hne
    rw [Function.update_of_ne hne.symm, hpc]
  have helse : ∀ (t' : T) (pc pc' : Pc), s.pc t' = pc → pc ≠ .logging e →
      Function.update s.pc t' pc' t = .logging e := by
    rintro t' pc pc' hpc' hne
    refine hother t' pc' ?_
    rintro rfl
    exact hne (hpc'.symm.trans hpc)
  cases hs with
  | @append t' e' hpc' hlock =>
    by_cases ht : t' = t
    · subst ht
      obtain rfl : e' = e := Pc.logging.inj (hpc'.symm.trans hpc)
      rfl
    · exact absurd (hother t' _ ht) hleft
  | call h | insert h | fill h | name h | swap h | create h | write h | finish h | rename h
  | truncate h | publish h | hit h | miss h | search h =>
    exact absurd (helse _ _ _ h (by simp)) hleft
  | compact | restart | appendFails | flushFails | truncateFails => exact ha.elim

/-- The log has grown, so nothing was refused. -/
theorem not_refused_append (s : Sys T) (t : T) (e : WalEntry) : (s.append t e).wal ≠ s.wal := by
  intro h
  have hnil : e.encode = [] := List.append_right_eq_self.mp h
  exact e.encode_ne_nil hnil

/-- **A key or a value of 2^32 bytes or more is neither refused nor kept**, in whatever
state of the store. No log gives its entry back and no file its record, through the
iterator or through the lookup. -/
theorem not_refusedOrKept_of_oversized {a : Act T} (hbig : ¬e.IsShort) (hpc : s.pc t = .logging e)
    (hs : Step cfg s a s') (ha : a.Serves) (hleft : s'.pc t ≠ .logging e) :
    ¬RefusedOrKept s s' t e ∧ (∀ wal, ¬Wal.Recovers wal e) ∧
      ∀ reader : SsTableReader, (e.key, e.raw) ∉ reader.iter ∧
        reader.getRaw e.key ≠ .ok (some e.raw) := by
  obtain rfl := eq_append_of_left hpc hs ha hleft
  refine ⟨?_, Wal.not_recovers hbig, SsTableReader.not_mem_iter (e.isShort_iff.not.mp hbig)⟩
  rintro (⟨hwal, -⟩ | ⟨hrec, -⟩)
  · exact not_refused_append s t e hwal
  · exact Wal.not_recovers hbig _ hrec

/-- An empty key with a value of zeroes, set by one client of an empty store. -/
theorem not_refusedOrKept_of_oversized_zeroes : ∃ n, 2 ^ 32 ≤ n ∧
    ¬RefusedOrKept ((Sys.init : Sys Unit).call () (.write (.put [] (List.replicate n 0))))
      (((Sys.init : Sys Unit).call () (.write (.put [] (List.replicate n 0)))).append ()
        (.put [] (List.replicate n 0))) () (.put [] (List.replicate n 0)) := by
  -- the length stays a variable, so that nothing counts up to it
  obtain ⟨n, hn⟩ : ∃ n : ℕ, 2 ^ 32 ≤ n := ⟨2 ^ 32, le_rfl⟩
  have happend : Step (.ofThreshold 1)
      ((Sys.init : Sys Unit).call () (.write (.put [] (List.replicate n 0)))) (.append ()) _ :=
    .append rfl rfl
  exact ⟨n, hn, (not_refusedOrKept_of_oversized (WalEntry.not_isShort_zeroes hn) rfl happend
    trivial (by simp [Sys.append, goto])).1⟩

/-- **What fits is kept**, if what is in the log fits as well. -/
theorem refusedOrKept_of_isShort (he : e.IsShort) {es : List WalEntry}
    (hes : ∀ x ∈ es, x.IsShort) (hwal : s.wal = Wal.encodeAll es) :
    RefusedOrKept s (s.append t e) t e := by
  refine Or.inr ⟨fun after hafter => ⟨es, ?_⟩,
    fun S n before after bytes hshort hsorted h hlen => ?_⟩
  · have hlog : (s.append t e).wal ++ Wal.encodeAll after = Wal.encodeAll (es ++ e :: after) := by
      show Wal.append s.wal e ++ Wal.encodeAll after = _
      rw [hwal, Wal.append_encodeAll, ← Wal.encodeAll_append]
      simp
    rw [hlog]
    refine Wal.replay_encodeAll fun x hx => ?_
    rcases List.mem_append.mp hx with hx | hx
    · exact hes x hx
    · exact (List.forall_mem_cons.mpr ⟨he, hafter⟩) x hx
  · have hall : ∀ x ∈ before ++ (e.key, e.raw) :: after, ShortRecord x := by
      intro x hx
      rcases List.mem_append.mp hx with hx | hx
      · exact hshort x (List.mem_append_left _ hx)
      · rcases List.mem_cons.mp hx with rfl | hx
        · exact e.isShort_iff.mp he
        · exact hshort x (List.mem_append_right _ hx)
    obtain ⟨-, reader, hopen, hiter, hget⟩ := stores_sstableBytes h hsorted hall hlen
    refine ⟨reader, hopen, fun x hx => ?_⟩
    have hmem := List.mem_append_right before hx
    exact ⟨hiter ▸ hmem, (hget x.1).trans (congrArg _ ((lookup_eq_some_iff hsorted).mpr hmem))⟩

/-- **A value of 2^32 zero bytes**: its length is written as zero, replay stops in front
of it, and `set` has not returned `Err`. -/
theorem not_refusedOrKept : ¬∀ (cfg : Config) (s s' : Sys Unit) (t : Unit) (e : WalEntry)
    (a : Act Unit), ¬e.IsShort → s.pc t = .logging e → Step cfg s a s' → a.Serves →
      s'.pc t ≠ .logging e → RefusedOrKept s s' t e := by
  intro h
  obtain ⟨n, hn, hpos, hlong⟩ : ∃ n : ℕ, n % 2 ^ 32 = 0 ∧ 4 ≤ n ∧ 2 ^ 32 ≤ n :=
    ⟨2 ^ 32, by norm_num, by norm_num, le_rfl⟩
  let e : WalEntry := .put [] (List.replicate n 0)
  rcases h (.ofThreshold 1) (Sys.init.call () (.write e)) _ () e (.append ())
    (WalEntry.not_isShort_zeroes hlong) rfl (.append rfl rfl) trivial
    (by simp [Sys.append, goto]) with ⟨hwal, -⟩ | ⟨hrec, -⟩
  · exact not_refused_append _ () e hwal
  · obtain ⟨before, hreplay⟩ := hrec [] (List.forall_mem_nil _)
    have hnone : Wal.replay (some (((Sys.init : Sys Unit).call () (.write e)).append () e).wal) =
        .ok [] := Wal.replay_wrapped hn hpos
    rw [Wal.encodeAll_nil, List.append_nil, hnone] at hreplay
    simp at hreplay

end Sys

end Tabula
