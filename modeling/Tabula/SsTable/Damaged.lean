import Tabula.SsTable.FilterHash
import Tabula.SsTable.RoundTrip

/-!
# Damaged SSTables

`SsTableReader::open`, `get_raw` and the iterator on any bytes whatever. The four fields of
the footer, the filter and the index block are used as the file has them, and so are the
lengths in front of keys and values. A section that is not within the file is an `Err`, but
one that is too short to be a filter, an index block that does not end with an entry, and a
filter without the bits it says it has are panics, and a length of which there is no buffer
does not return either. The files for which all returns are those of
`Tabula.SsTableReader.Harmless`, and no others (`Tabula.SsTableReader.finishes_iff`).

Which buffers there are depends on the machine, and which offsets can be sought on the file
system: all of this holds within any `Tabula.SsTableReader.Limits`. What returns `Ok` within
some limits does so within the widest (`Tabula.SsTableReader.open_eq_ok_of_within`).
-/

namespace Tabula

open LittleEndian SortedTable

namespace SsTableReader

/-! ### Sections -/

/-- The bytes of a section. -/
def sectionBytes (file : Bytes) (offset len : ℕ) : Bytes := (file.drop offset).take len

/-- The section lies within the file; an empty one does so anywhere. -/
def HasSection (file : Bytes) (offset len : ℕ) : Prop := len = 0 ∨ offset + len ≤ file.length

instance (file : Bytes) (offset len : ℕ) : Decidable (HasSection file offset len) :=
  inferInstanceAs (Decidable (_ ∨ _))

theorem hasSection_iff {file : Bytes} {offset len : ℕ} :
    HasSection file offset len ↔ (sectionBytes file offset len).length = len := by
  rw [HasSection, sectionBytes, List.length_take, List.length_drop]
  omega

section Steps

variable {α : Type}

/-- A section that is not there is an `Err`. -/
theorem orIo_readExact_bind (file : Bytes) (offset len : ℕ) (f : Bytes → Res SsTableError α) :
    (orIo (readExact file offset len) >>= f) =
      if HasSection file offset len then f (sectionBytes file offset len)
      else .error (.err .io) := by
  have hiff : HasSection file offset len ↔ ((file.drop offset).take len).length = len :=
    hasSection_iff
  rw [readExact]
  simp only [hiff]
  split <;> rfl

theorem seekStart_bind (L : Limits) (pos : ℕ) (f : Unit → Res SsTableError α) :
    (seekStart L pos >>= f) = if L.seeks pos then f () else .error (.err .io) := by
  rw [seekStart]
  split <;> rfl

theorem vecZeroed_bind (L : Limits) (n : ℕ) (f : Unit → Res SsTableError α) :
    (vecZeroed L n >>= f) = if L.gives n then f () else .error .panic := by
  rw [vecZeroed]
  split <;> rfl

/-- A section that is too short to be a filter is a panic. -/
theorem fromBytes_bind (bytes : Bytes) (f : BloomFilter → Res SsTableError α) :
    (BloomFilter.fromBytes bytes >>= f) =
      if 16 ≤ bytes.length then
        f ⟨bytes.drop 16, leValue (bytes.take 8), leValue ((bytes.drop 8).take 8)⟩
      else .error .panic := by
  rw [BloomFilter.fromBytes]
  split
  · rw [slice_ok (by omega) (by omega), ok_bind, slice_ok (by omega) (by omega), ok_bind,
      slice_ok (by omega) (by omega), ok_bind, List.drop_zero, ← List.length_drop, List.take_length]
    rfl
  · have hm : (slice bytes 8 16 : Res SsTableError Bytes) = .error .panic := by
      rw [slice, if_neg (by omega)]
    rw [hm, slice]
    split <;> rfl

end Steps

/-! ### The index block -/

/-- **The block consists of these entries.** -/
def IsIndexBlock (block : Bytes) (index : List (Key × ℕ)) : Prop :=
  (∀ e ∈ index, Short e.1 ∧ e.2 < 2 ^ 64) ∧ block = (index.map encodeIndexEntry).flatten

theorem IsIndexBlock.parseIndex {block : Bytes} {index : List (Key × ℕ)}
    (h : IsIndexBlock block index) : SsTableReader.parseIndex block = .ok index := by
  obtain ⟨hindex, rfl⟩ := h
  exact parseIndex_encode (fun e he => (hindex e he).1) fun e he => (hindex e he).2

/-- A block with the bytes of a first entry is that entry and the rest. -/
theorem exists_encodeIndexEntry {block : Bytes} {keyLen : ℕ} (h4 : 4 ≤ block.length)
    (hkeyLen : leValue (block.take 4) = keyLen) (hlen : 4 + keyLen + 8 ≤ block.length) :
    ∃ entry : Key × ℕ, Short entry.1 ∧ entry.2 < 2 ^ 64 ∧
      block = encodeIndexEntry entry ++ block.drop (4 + keyLen + 8) := by
  have htake : (block.take 4).length = 4 := by rw [List.length_take, min_eq_left h4]
  have hkey : ((block.drop 4).take keyLen).length = keyLen := by
    rw [List.length_take, List.length_drop, min_eq_left (by omega)]
  have hoffset : ((block.drop (4 + keyLen)).take 8).length = 8 := by
    rw [List.length_take, List.length_drop, min_eq_left (by omega)]
  refine ⟨((block.drop 4).take keyLen, leValue ((block.drop (4 + keyLen)).take 8)), ?_, ?_, ?_⟩
  · have hlt := leValue_lt (block.take 4)
    rw [hkeyLen, htake] at hlt
    rw [Short, hkey]
    exact lt_of_lt_of_eq hlt (by norm_num)
  · have hlt := leValue_lt ((block.drop (4 + keyLen)).take 8)
    rw [hoffset] at hlt
    exact lt_of_lt_of_eq hlt (by norm_num)
  · -- both fields are the encodings of the numbers they hold
    have hfield := leBytes_leValue (block.take 4)
    rw [htake, hkeyLen] at hfield
    have hfield' := leBytes_leValue ((block.drop (4 + keyLen)).take 8)
    rw [hoffset] at hfield'
    rw [encodeIndexEntry, hkey, hfield, hfield', List.append_assoc, List.append_assoc]
    conv_lhs =>
      rw [← List.take_append_drop 4 block, ← List.take_append_drop keyLen (block.drop 4),
        List.drop_drop, ← List.take_append_drop 8 (block.drop (4 + keyLen)), List.drop_drop]

/-- An index block that is read consists of whole entries, and any other block panics. -/
theorem parseIndex_cases (block : Bytes) :
    (∃ index, IsIndexBlock block index ∧ parseIndex block = .ok index) ∨
      ((∀ index, ¬IsIndexBlock block index) ∧ parseIndex block = .error .panic) := by
  by_cases h : ∃ index, IsIndexBlock block index
  · obtain ⟨index, hindex⟩ := h
    exact Or.inl ⟨index, hindex, hindex.parseIndex⟩
  · refine Or.inr ⟨fun index hindex => h ⟨index, hindex⟩, ?_⟩
    induction hlen : block.length using Nat.strong_induction_on generalizing block with
    | _ n ih =>
      have hne : block ≠ [] := fun hnil => h ⟨[], List.forall_mem_nil _, hnil⟩
      rw [parseIndex, if_neg hne]
      by_cases h4 : 4 ≤ block.length
      · rw [slice_ok (by omega) h4, ok_bind, List.drop_zero, Nat.sub_zero]
        dsimp only
        generalize hkeyLen : leValue (block.take 4) = keyLen
        by_cases hkey : 4 + keyLen ≤ block.length
        · rw [slice_ok (by omega) hkey, ok_bind]
          by_cases hoff : 4 + keyLen + 8 ≤ block.length
          · rw [slice_ok (by omega) hoff, ok_bind]
            -- after a whole entry the rest is no index block either
            have hrest : ¬∃ index, IsIndexBlock (block.drop (4 + keyLen + 8)) index := by
              rintro ⟨entries, hentries, heq⟩
              obtain ⟨entry, hshort, hlt, hblock⟩ := exists_encodeIndexEntry h4 hkeyLen hoff
              refine h ⟨entry :: entries,
                List.forall_mem_cons.mpr ⟨⟨hshort, hlt⟩, hentries⟩, ?_⟩
              rw [List.map_cons, List.flatten_cons, ← heq, ← hblock]
            rw [ih _ (by rw [List.length_drop]; omega) _ hrest rfl]
            rfl
          · rw [slice, if_neg (by omega)]
            rfl
        · rw [slice, if_neg (by omega)]
          rfl
      · rw [slice, if_neg (by omega)]
        rfl

/-! ### Records -/

/-- **The lengths of the buffers that a record asks for**: that of its key, and that of its
value if the key is there and a length behind it. -/
def announced (file : Bytes) (pos : ℕ) : List ℕ :=
  match readExact file pos 4 with
  | none => []
  | some keyLenBuf =>
      leValue keyLenBuf ::
        match readExact file (pos + 4) (leValue keyLenBuf),
          readExact file (pos + 4 + leValue keyLenBuf) 4 with
        | some _, some valLenBuf => [leValue valLenBuf]
        | _, _ => []

/-- There are these buffers. -/
def Affords (L : Limits) (file : Bytes) (pos : ℕ) : Prop :=
  ∀ n ∈ announced file pos, L.gives n = true

instance (L : Limits) (file : Bytes) (pos : ℕ) : Decidable (Affords L file pos) :=
  inferInstanceAs (Decidable (∀ n ∈ announced file pos, L.gives n = true))

variable {L : Limits}

theorem readRecordWithin_eq (L : Limits) (file : Bytes) (pos : ℕ) : readRecordWithin L file pos =
    if Affords L file pos then orIo (readRecord file pos) else .error .panic := by
  rw [readRecord_eq, readRecordWithin]
  cases h₁ : readExact file pos 4 with
  | none =>
    rw [if_pos (by simp [Affords, announced, h₁])]
    rfl
  | some keyLenBuf =>
    simp only [orIo, ok_bind, Option.bind_eq_bind, Option.bind_some, vecZeroed_bind]
    cases hk : L.gives (leValue keyLenBuf) with
    | false => rw [if_neg (by simp), if_neg (by simp [Affords, announced, h₁, hk])]
    | true =>
      rw [if_pos rfl]
      cases h₂ : readExact file (pos + 4) (leValue keyLenBuf) with
      | none =>
        rw [if_pos (by simp [Affords, announced, h₁, h₂, hk])]
        rfl
      | some key =>
        simp only [ok_bind, Option.bind_some]
        cases h₃ : readExact file (pos + 4 + leValue keyLenBuf) 4 with
        | none =>
          rw [if_pos (by simp [Affords, announced, h₁, h₂, h₃, hk])]
          rfl
        | some valLenBuf =>
          simp only [ok_bind, Option.bind_some]
          cases hv : L.gives (leValue valLenBuf) with
          | false => rw [if_neg (by simp), if_neg (by simp [Affords, announced, h₁, h₂, h₃, hv])]
          | true =>
            rw [if_pos rfl, if_pos (by simp [Affords, announced, h₁, h₂, h₃, hk, hv])]
            cases readExact file (pos + 4 + leValue keyLenBuf + 4) (leValue valLenBuf) <;> rfl

/-- What is read was there to be read. -/
theorem readRecord_of_within {file : Bytes} {pos : ℕ} {x : Record × ℕ}
    (h : readRecordWithin L file pos = .ok x) : readRecord file pos = some x := by
  rw [readRecordWithin_eq] at h
  split_ifs at h
  exact orIo_eq_ok.mp h

/-- **The offsets a reader comes to** when it goes on behind some of the keys. -/
inductive ComesTo (file : Bytes) (dataEnd : ℕ) (goesOn : Key → Prop) : ℕ → ℕ → Prop
  | here (pos : ℕ) : ComesTo file dataEnd goesOn pos pos
  | next {pos p : ℕ} {r : Record} {n : ℕ} (hpos : pos < dataEnd)
      (hread : readRecord file pos = some (r, n)) (hkey : goesOn r.1)
      (h : ComesTo file dataEnd goesOn (pos + n) p) : ComesTo file dataEnd goesOn pos p

/-- **There are buffers for every record that it comes to.** -/
def Afforded (L : Limits) (file : Bytes) (dataEnd : ℕ) (goesOn : Key → Prop) (pos : ℕ) : Prop :=
  ∀ p, ComesTo file dataEnd goesOn pos p → p < dataEnd → Affords L file p

section Afforded

variable {file : Bytes} {dataEnd pos : ℕ} {goesOn : Key → Prop}

theorem afforded_of_end (h : dataEnd ≤ pos) : Afforded L file dataEnd goesOn pos := by
  intro p hp hlt
  cases hp with
  | here => exact absurd hlt (not_lt.mpr h)
  | next hpos => exact absurd hpos (not_lt.mpr h)

theorem afforded_iff (hpos : pos < dataEnd) : Afforded L file dataEnd goesOn pos ↔
    Affords L file pos ∧ ∀ r n, readRecord file pos = some (r, n) → goesOn r.1 →
      Afforded L file dataEnd goesOn (pos + n) := by
  constructor
  · intro h
    exact ⟨h pos (.here pos) hpos, fun r n hread hkey p hp => h p (.next hpos hread hkey hp)⟩
  · rintro ⟨hfirst, hnext⟩ p hp hlt
    cases hp with
    | here => exact hfirst
    | next _ hread hkey hp => exact hnext _ _ hread hkey p hp hlt

/-- A record that cannot be read is the last one. -/
theorem afforded_iff_of_error (hpos : pos < dataEnd) {fault : Fault SsTableError}
    (h : readRecordWithin L file pos = .error fault) :
    Afforded L file dataEnd goesOn pos ↔ fault ≠ .panic := by
  rw [afforded_iff hpos]
  rw [readRecordWithin_eq] at h
  split_ifs at h with hafford
  · cases hread : readRecord file pos with
    | some x => simp [hread, orIo] at h
    | none =>
      rw [hread] at h
      obtain rfl : Fault.err SsTableError.io = fault := Except.error.inj h
      exact iff_of_true ⟨hafford, by simp⟩ (by simp)
  · obtain rfl : Fault.panic = fault := Except.error.inj h
    exact iff_of_false (fun h => hafford h.1) fun h => h rfl

theorem afforded_iff_of_ok (hpos : pos < dataEnd) {r : Record} {n : ℕ}
    (h : readRecordWithin L file pos = .ok (r, n)) :
    Afforded L file dataEnd goesOn pos ↔
      (goesOn r.1 → Afforded L file dataEnd goesOn (pos + n)) := by
  have hread := readRecord_of_within h
  rw [readRecordWithin_eq] at h
  split_ifs at h with hafford
  rw [afforded_iff hpos, and_iff_right hafford, hread]
  simp

/-- **A scan returns if there are buffers for the records it comes to**, which are those in
front of the key and the one behind them. -/
theorem scanWithin_ne_panic_iff (L : Limits) (file : Bytes) (dataEnd : ℕ) (key : Key) (pos : ℕ) :
    (scanWithin L file dataEnd key pos).1 ≠ .error .panic ↔
      Afforded L file dataEnd (· < key) pos := by
  fun_induction scanWithin L file dataEnd key pos with
  | case1 pos hend => exact iff_of_true (by simp) (afforded_of_end hend)
  | case2 pos hpos fault hread =>
    rw [afforded_iff_of_error (not_le.mp hpos) hread]
    simp
  | case3 pos hpos r n hread hk =>
    rw [afforded_iff_of_ok (not_le.mp hpos) hread]
    exact iff_of_true (by simp) fun hlt => absurd hk (ne_of_lt hlt)
  | case4 pos hpos r n hread hk hlt =>
    rw [afforded_iff_of_ok (not_le.mp hpos) hread]
    exact iff_of_true (by simp) fun hlt' => absurd hlt (lt_asymm hlt')
  | case5 pos hpos r n hread hk hlt rest ih =>
    rw [afforded_iff_of_ok (not_le.mp hpos) hread]
    have hbelow : r.1 < key := lt_of_le_of_ne (not_lt.mp hlt) hk
    exact ih.trans ⟨fun h _ => h, fun h => h hbelow⟩

end Afforded

/-! ### Lookups and the iterator -/

/-- A lookup scans from one checkpoint. -/
theorem StartsAt.unique {index : List (Key × ℕ)} {key : Key} {entry entry' : Key × ℕ}
    (h : StartsAt index key entry) (h' : StartsAt index key entry') : entry = entry' := by
  obtain ⟨i, hi, hentry⟩ := h
  obtain ⟨j, hj, hentry'⟩ := h'
  obtain rfl : i = j := by
    rcases hi with hi | hi <;> rw [hi] at hj <;> simpa using hj
  exact Option.some.inj (hentry.symm.trans hentry')

/-- **When a lookup returns**: the filter must not panic, and what it scans must be
affordable. -/
theorem getRawWithin_ne_panic_iff (L : Limits) (reader : SsTableReader) (key : Key) :
    (reader.getRawWithin L key).1 ≠ .error .panic ↔ reader.filter.mayContain key ≠ none ∧
      ∀ entry, reader.filter.mayContain key = some true → StartsAt reader.index key entry →
        L.seeks entry.2 = true → Afforded L reader.file reader.dataEnd (· < key) entry.2 := by
  rw [getRawWithin]
  rcases scanStart_cases L reader key with ⟨hfilter, hstart⟩ | ⟨hfilter, hstart⟩ |
    ⟨hfilter, hno, hstart⟩ | ⟨entry, hfilter, hentry, hstart⟩
  · rw [hstart, hfilter]
    exact iff_of_false (fun h => h rfl) fun h => h.1 rfl
  · rw [hstart, hfilter]
    exact iff_of_true (by simp [readsFrom]) ⟨by simp, by simp⟩
  · rw [hstart, hfilter]
    exact iff_of_true (by simp [readsFrom]) ⟨by simp, fun entry _ h => absurd h (hno entry)⟩
  · rw [hstart, hfilter]
    split_ifs with hseeks
    · change (scanWithin L reader.file reader.dataEnd key entry.2).1 ≠ _ ↔ _
      rw [scanWithin_ne_panic_iff, and_iff_right (Option.some_ne_none true)]
      exact ⟨fun h entry' _ h' _ => hentry.unique h' ▸ h, fun h => h entry rfl hentry hseeks⟩
    · refine iff_of_true (by simp [readsFrom]) ⟨by simp, fun entry' _ h' hseeks' => ?_⟩
      exact absurd (hentry.unique h' ▸ hseeks') hseeks

/-- The iterator within limits, followed to its end: an error of a read ends it. -/
def iterWithin (L : Limits) (file : Bytes) (dataEnd pos : ℕ) : Res SsTableError (List Record) :=
  if dataEnd ≤ pos then .ok []
  else
    match _h : readRecordWithin L file pos with
    | .error .panic => .error .panic
    | .error (.err _) => .ok []
    | .ok (r, n) => do
        let rest ← iterWithin L file dataEnd (pos + n)
        return r :: rest
termination_by dataEnd - pos
decreasing_by
  have := le_of_readRecordWithin _h
  omega

/-- **It yields what the iterator yields**, or does not return. -/
theorem iterWithin_cases (L : Limits) (file : Bytes) (dataEnd pos : ℕ) :
    (Afforded L file dataEnd (fun _ => True) pos ∧
        iterWithin L file dataEnd pos = .ok (iterFrom file dataEnd pos)) ∨
      (¬Afforded L file dataEnd (fun _ => True) pos ∧
        iterWithin L file dataEnd pos = .error .panic) := by
  fun_induction iterWithin L file dataEnd pos with
  | case1 pos hend => exact Or.inl ⟨afforded_of_end hend, by rw [iterFrom, if_pos hend]⟩
  | case2 pos hpos hread =>
    refine Or.inr ⟨?_, rfl⟩
    rw [afforded_iff_of_error (not_le.mp hpos) hread]
    exact fun h => h rfl
  | case3 pos hpos e hread =>
    refine Or.inl ⟨(afforded_iff_of_error (not_le.mp hpos) hread).mpr (by simp), ?_⟩
    have hnone : readRecord file pos = none := by
      rw [readRecordWithin_eq] at hread
      cases hrecord : readRecord file pos with
      | none => rfl
      | some x => split_ifs at hread <;> simp [hrecord, orIo] at hread
    rw [iterFrom, if_neg hpos]
    split
    · rfl
    · rename_i hsome
      simp [hnone] at hsome
  | case4 pos hpos r n hread ih =>
    rw [afforded_iff_of_ok (not_le.mp hpos) hread]
    rw [iterFrom_of_read (not_le.mp hpos) (readRecord_of_within hread)]
    rcases ih with ⟨hafforded, hiter⟩ | ⟨hafforded, hiter⟩
    · exact Or.inl ⟨fun _ => hafforded, by rw [hiter]; rfl⟩
    · exact Or.inr ⟨fun h => hafforded (h trivial), by rw [hiter]; rfl⟩

/-- A full `iter()`. -/
def iterAll (L : Limits) (reader : SsTableReader) : Res SsTableError (List Record) := do
  seekStart L 0
  iterWithin L reader.file reader.dataEnd 0

theorem iterAll_ne_panic_iff (L : Limits) (reader : SsTableReader) :
    reader.iterAll L ≠ .error .panic ↔
      (L.seeks 0 = true → Afforded L reader.file reader.dataEnd (fun _ => True) 0) := by
  rw [iterAll, seekStart_bind]
  split_ifs with hseeks
  · rcases iterWithin_cases L reader.file reader.dataEnd 0 with ⟨h, heq⟩ | ⟨h, heq⟩ <;> rw [heq]
    · exact iff_of_true (by simp) fun _ => h
    · exact iff_of_false (fun h => h rfl) fun h' => h (h' hseeks)
  · exact iff_of_true (by simp) fun h => absurd h hseeks

/-! ### Any file -/

/-- The four fields of the footer, as far as there are that many bytes. -/
structure Footer where
  filterOffset : ℕ
  filterLen : ℕ
  indexOffset : ℕ
  indexLen : ℕ

def footer (file : Bytes) : Footer :=
  let footer := sectionBytes file (file.length - 32) 32
  { filterOffset := leValue (footer.take 8)
    filterLen := leValue ((footer.drop 8).take 8)
    indexOffset := leValue ((footer.drop 16).take 8)
    indexLen := leValue ((footer.drop 24).take 8) }

/-- The filter section. -/
def filterBytes (file : Bytes) : Bytes :=
  sectionBytes file (footer file).filterOffset (footer file).filterLen

/-- The index block. -/
def indexBytes (file : Bytes) : Bytes :=
  sectionBytes file (footer file).indexOffset (footer file).indexLen

/-- **The filter section says that there are the bits its probes look at.** -/
def FilterProbes (bytes : Bytes) : Prop :=
  leValue (bytes.take 8) = 0 ∨ (1 ≤ leValue ((bytes.drop 8).take 8) ∧
    leValue ((bytes.drop 8).take 8) ≤ 8 * (bytes.length - 16))

/-- The filter of that section. -/
def sectionFilter (bytes : Bytes) : BloomFilter :=
  ⟨bytes.drop 16, leValue (bytes.take 8), leValue ((bytes.drop 8).take 8)⟩

/-- **There are buffers for the records** that lookups and the iterator come to. -/
structure Affordable (L : Limits) (file : Bytes) (index : List (Key × ℕ)) : Prop where
  lookups : ∀ key entry, (sectionFilter (filterBytes file)).mayContain key = some true →
    StartsAt index key entry → L.seeks entry.2 = true →
      Afforded L file (footer file).filterOffset (· < key) entry.2
  iter : L.seeks 0 = true → Afforded L file (footer file).filterOffset (fun _ => True) 0

/-- **The files for which everything returns**: opening stops at an offset that cannot be sought
or at a section that is not there before it comes to anything that is wrong, or the filter and
the index block are what they should be and there are buffers for the records. -/
inductive Harmless (L : Limits) (file : Bytes) : Prop
  | noFooter (h : file.length < 32)
  | filterOffset (h : L.seeks (footer file).filterOffset = false)
  | noFilter (hlen : L.gives (footer file).filterLen = true)
      (h : ¬HasSection file (footer file).filterOffset (footer file).filterLen)
  | indexOffset (hmin : 16 ≤ (footer file).filterLen)
      (hlen : L.gives (footer file).filterLen = true)
      (h : L.seeks (footer file).indexOffset = false)
  | noIndex (hmin : 16 ≤ (footer file).filterLen) (hlen : L.gives (footer file).filterLen = true)
      (hindex : L.gives (footer file).indexLen = true)
      (h : ¬HasSection file (footer file).indexOffset (footer file).indexLen)
  | sound (index : List (Key × ℕ)) (hmin : 16 ≤ (footer file).filterLen)
      (hlen : L.gives (footer file).filterLen = true)
      (hindex : L.gives (footer file).indexLen = true)
      (hblock : IsIndexBlock (indexBytes file) index) (hprobes : FilterProbes (filterBytes file))
      (hbuffers : Affordable L file index)

/-- **Everything that reads the file returns**: a value, or an error. -/
def Finishes (L : Limits) (file : Bytes) : Prop :=
  openWithin L file ≠ .error .panic ∧ ∀ reader, openWithin L file = .ok reader →
    (∀ key, (reader.getRawWithin L key).1 ≠ .error .panic) ∧ reader.iterAll L ≠ .error .panic

/-- Opening a file with a footer, step by step. -/
theorem openWithin_eq (L : Limits) {file : Bytes} (h : 32 ≤ file.length) :
    openWithin L file =
      if L.seeks (footer file).filterOffset then
        if L.gives (footer file).filterLen then
          if HasSection file (footer file).filterOffset (footer file).filterLen then
            if 16 ≤ (filterBytes file).length then
              if L.seeks (footer file).indexOffset then
                if L.gives (footer file).indexLen then
                  if HasSection file (footer file).indexOffset (footer file).indexLen then
                    parseIndex (indexBytes file) >>= fun index =>
                      .ok ⟨file, index, (footer file).filterOffset,
                        sectionFilter (filterBytes file)⟩
                  else .error (.err .io)
                else .error .panic
              else .error (.err .io)
            else .error .panic
          else .error (.err .io)
        else .error .panic
      else .error (.err .io) := by
  have hfooter : HasSection file (file.length - 32) 32 := Or.inr (by omega)
  rw [openWithin, if_neg (by omega), orIo_readExact_bind, if_pos hfooter, seekStart_bind,
    vecZeroed_bind, orIo_readExact_bind, fromBytes_bind, seekStart_bind, vecZeroed_bind,
    orIo_readExact_bind]
  rfl

theorem filterProbes_iff {bytes : Bytes} (h : 16 ≤ bytes.length) :
    FilterProbes bytes ↔ ∀ key, (sectionFilter bytes).mayContain key ≠ none := by
  have hm : leValue ((bytes.drop 8).take 8) < 2 ^ 64 := by
    refine lt_of_lt_of_le (leValue_lt _) ?_
    rw [List.length_take, List.length_drop, min_eq_left (by omega)]
    norm_num
  rw [sectionFilter, BloomFilter.mayContain_ne_none_iff hm, BloomFilter.Probes, FilterProbes,
    List.length_drop]

/-- What a harmless file has where opening does not stop before. -/
theorem Harmless.inv {file : Bytes} (h : Harmless L file) (hlen : ¬file.length < 32)
    (hfo : L.seeks (footer file).filterOffset = true) :
    L.gives (footer file).filterLen = true ∧
      (HasSection file (footer file).filterOffset (footer file).filterLen →
        16 ≤ (footer file).filterLen ∧ (L.seeks (footer file).indexOffset = true →
          L.gives (footer file).indexLen = true ∧
            (HasSection file (footer file).indexOffset (footer file).indexLen →
              ∃ index, IsIndexBlock (indexBytes file) index ∧ FilterProbes (filterBytes file) ∧
                Affordable L file index))) := by
  cases h with
  | noFooter h => exact absurd h hlen
  | filterOffset h => exact absurd (hfo.symm.trans h) Bool.noConfusion
  | noFilter hfl h => exact ⟨hfl, fun hf => absurd hf h⟩
  | indexOffset hmin hfl h =>
    exact ⟨hfl, fun _ => ⟨hmin, fun hio => absurd (hio.symm.trans h) Bool.noConfusion⟩⟩
  | noIndex hmin hfl hil h => exact ⟨hfl, fun _ => ⟨hmin, fun _ => ⟨hil, fun hi => absurd hi h⟩⟩⟩
  | sound index hmin hfl hil hblock hprobes hbuffers =>
    exact ⟨hfl, fun _ => ⟨hmin, fun _ => ⟨hil, fun _ => ⟨index, hblock, hprobes, hbuffers⟩⟩⟩⟩

/-- What a reader of these sections does. -/
theorem returns_iff {file : Bytes} (hmin : 16 ≤ (filterBytes file).length)
    {index : List (Key × ℕ)} {reader : SsTableReader}
    (hreader : reader =
      ⟨file, index, (footer file).filterOffset, sectionFilter (filterBytes file)⟩) :
    ((∀ key, (reader.getRawWithin L key).1 ≠ .error .panic) ∧ reader.iterAll L ≠ .error .panic) ↔
      FilterProbes (filterBytes file) ∧ Affordable L file index := by
  subst hreader
  rw [filterProbes_iff hmin, iterAll_ne_panic_iff]
  simp only [getRawWithin_ne_panic_iff]
  constructor
  · rintro ⟨hget, hiter⟩
    exact ⟨fun key => (hget key).1, fun key => (hget key).2, hiter⟩
  · rintro ⟨hprobes, hbuffers⟩
    exact ⟨fun key => ⟨hprobes key, hbuffers.lookups key⟩, hbuffers.iter⟩

/-- **A damaged SSTable is an error and not a panic exactly when it is one of the harmless
ones.** -/
theorem finishes_iff (L : Limits) (file : Bytes) : Finishes L file ↔ Harmless L file := by
  by_cases hlen : file.length < 32
  · refine iff_of_true ?_ (.noFooter hlen)
    rw [Finishes, openWithin, if_pos hlen]
    simp
  · rw [Finishes, openWithin_eq L (by omega)]
    have hfilterLen : HasSection file (footer file).filterOffset (footer file).filterLen ↔
        (filterBytes file).length = (footer file).filterLen := hasSection_iff
    split_ifs with hfo hfl hf hmin hio hil hi
    · have hmin' : 16 ≤ (footer file).filterLen := hfilterLen.mp hf ▸ hmin
      rcases parseIndex_cases (indexBytes file) with ⟨index, hblock, hindex⟩ | ⟨hblock, hpanic⟩
      · -- everything is where it should be, so the filter and the buffers decide
        rw [hindex, ok_bind]
        constructor
        · rintro ⟨-, h⟩
          obtain ⟨hprobes, hbuffers⟩ := (returns_iff hmin rfl).mp (h _ rfl)
          exact .sound index hmin' hfl hil hblock hprobes hbuffers
        · intro h
          obtain ⟨index', hblock', hprobes, hbuffers⟩ := (((h.inv hlen hfo).2 hf).2 hio).2 hi
          obtain rfl : index' = index :=
            Except.ok.inj (hblock'.parseIndex.symm.trans hblock.parseIndex)
          refine ⟨by simp, fun reader hreader => ?_⟩
          exact (returns_iff hmin (Except.ok.inj hreader).symm).mpr ⟨hprobes, hbuffers⟩
      · rw [hpanic, error_bind]
        refine iff_of_false (fun h => h.1 rfl) fun h => ?_
        obtain ⟨index, hindex, -⟩ := (((h.inv hlen hfo).2 hf).2 hio).2 hi
        exact hblock index hindex
    · exact iff_of_true (by simp) (.noIndex (hfilterLen.mp hf ▸ hmin) hfl hil hi)
    · exact iff_of_false (fun h => h.1 rfl) fun h => hil (((h.inv hlen hfo).2 hf).2 hio).1
    · exact iff_of_true (by simp) (.indexOffset (hfilterLen.mp hf ▸ hmin) hfl (by simpa using hio))
    · exact iff_of_false (fun h => h.1 rfl) fun h =>
        hmin (hfilterLen.mp hf ▸ ((h.inv hlen hfo).2 hf).1)
    · exact iff_of_true (by simp) (.noFilter hfl hf)
    · exact iff_of_false (fun h => h.1 rfl) fun h => hfl (h.inv hlen hfo).1
    · exact iff_of_true (by simp) (.filterOffset (by simpa using hfo))

/-- **Thirty-two zero bytes panic**, whatever is given: the filter they say there is has no
room for `k` and `m`. -/
theorem not_finishes : ¬∀ file : Bytes, Finishes .most file := by
  intro h
  exact (h (List.replicate 32 0)).1 rfl

/-! ### The widest limits -/

/-- **What is opened within some limits** is opened within the widest. -/
theorem open_eq_ok_of_within {file : Bytes} {reader : SsTableReader}
    (h : openWithin L file = .ok reader) : SsTableReader.open file = .ok reader := by
  by_cases hlen : file.length < 32
  · rw [openWithin, if_pos hlen] at h
    simp at h
  · rw [openWithin_eq L (by omega)] at h
    rw [SsTableReader.open, openWithin_eq .most (by omega)]
    split_ifs at h with hfo hfl hf hmin hio hil hi
    rw [if_pos (seeks_most (L.seeks_lt _ hfo)), if_pos (gives_most (L.gives_lt _ hfl)), if_pos hf,
      if_pos hmin, if_pos (seeks_most (L.seeks_lt _ hio)), if_pos (gives_most (L.gives_lt _ hil)),
      if_pos hi]
    exact h

theorem scanFrom_eq_ok_of_within {file : Bytes} {dataEnd : ℕ} {key : Key} {pos : ℕ}
    {answer : Option Value} (h : (scanWithin L file dataEnd key pos).1 = .ok answer) :
    scanFrom file dataEnd key pos = .ok answer := by
  fun_induction scanWithin L file dataEnd key pos with
  | case1 pos hend => exact (scanFrom_of_end key hend).trans h
  | case2 => simp at h
  | case3 pos hpos r n hread hk =>
    rw [scanFrom_of_read key (not_le.mp hpos) (readRecord_of_within hread), if_pos hk]
    exact h
  | case4 pos hpos r n hread hk hlt =>
    rw [scanFrom_of_read key (not_le.mp hpos) (readRecord_of_within hread), if_neg hk, if_pos hlt]
    exact h
  | case5 pos hpos r n hread hk hlt rest ih =>
    rw [scanFrom_of_read key (not_le.mp hpos) (readRecord_of_within hread), if_neg hk, if_neg hlt]
    exact ih h

theorem scanStart_eq_ok_of_within {reader : SsTableReader} {key : Key} {start : Option ℕ}
    (h : reader.scanStart L key = .ok start) : reader.scanStart .most key = .ok start := by
  have hentry : ∀ i, (do
      let startOffset ← reader.offsetAt i
      seekStart L startOffset
      return some startOffset) = .ok start → (do
      let startOffset ← reader.offsetAt i
      seekStart .most startOffset
      return some startOffset) = .ok start := by
    intro i h
    obtain ⟨pos, hpos, h⟩ := bind_eq_ok.mp h
    rw [seekStart_bind] at h
    split_ifs at h with hseeks
    rw [hpos, ok_bind, seekStart_most (L.seeks_lt pos hseeks), ok_bind]
    exact h
  rw [scanStart] at h ⊢
  obtain ⟨b, hb, h⟩ := bind_eq_ok.mp h
  rw [hb, ok_bind]
  cases b with
  | false => exact h
  | true =>
    rw [if_pos rfl] at h ⊢
    cases hsearch : binarySearch reader.index key with
    | ok i =>
      rw [hsearch] at h
      exact hentry i h
    | error i =>
      rw [hsearch] at h
      cases i with
      | zero => exact h
      | succ i => exact hentry i h

/-- So is what is looked up. -/
theorem getRaw_eq_ok_of_within {reader : SsTableReader} {key : Key} {answer : Option Value}
    (h : (reader.getRawWithin L key).1 = .ok answer) : reader.getRaw key = .ok answer := by
  rw [getRawWithin] at h
  cases hstart : reader.scanStart L key with
  | error fault => simp [hstart, readsFrom] at h
  | ok start =>
    rw [getRaw, getRawReads, getRawWithin, scanStart_eq_ok_of_within hstart]
    rw [hstart] at h
    cases start with
    | none => exact h
    | some pos => exact scanFrom_eq_ok_of_within h

end SsTableReader

end Tabula
