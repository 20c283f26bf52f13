import Tabula.Wal.Codec

/-!
# The log file: replay, and what an interrupted append does to it

`Wal::open`, `Wal::append`, `Wal::truncate` and `Wal::replay` of `src/wal.rs` on
the bytes of the log file. The file is opened in append mode, so nothing but a
truncate ever removes a byte; replay decodes entry after entry and stops at the
first byte string that is not one.

That combination decides what a torn tail costs. A log that ends in the leading
part of an entry replays to the entries before it (`Tabula.Wal.replay_torn`).
But neither opening the log nor appending to it removes the torn bytes, so an
entry written after them is read from the wrong place. The histories that
recover every acknowledged entry are therefore those in which nothing is written
behind a torn tail (`Tabula.Wal.Intact`), and one crash with one append after it
is enough to lose that append.
-/

namespace Tabula

open LittleEndian

namespace Wal

/-- `Wal::open`: append mode, created when missing, never truncated. -/
def «open» (file : Option Bytes) : Bytes := file.getD []

/-- `Wal::append` when every write succeeds. -/
def append (file : Bytes) (entry : WalEntry) : Bytes := file ++ entry.encode

/-- `Wal::append` when only `n` bytes of the entry reach the file: the process is
killed, or `write_all` returns an error half way. -/
def appendTorn (file : Bytes) (entry : WalEntry) (n : ℕ) : Bytes := file ++ entry.encode.take n

/-- `Wal::truncate`: `set_len(0)`. -/
def truncate (_file : Bytes) : Bytes := []

/-- The loop of `Wal::replay` on what is left of the file from the cursor on. -/
def replayFrom (rest : Bytes) : Res WalError (List WalEntry) :=
  if rest = [] then .ok []
  else
    match _h : WalEntry.decode rest with
    | .ok (entry, consumed) => do
        let entries ← replayFrom (rest.drop consumed)
        return entry :: entries
    | .error (.err _) => .ok []
    | .error .panic => .error .panic
termination_by rest.length
decreasing_by
  rename_i hrest
  obtain ⟨-, hn, -⟩ := WalEntry.decode_eq_ok_iff.mp _h
  have hpos := List.length_pos_iff.mpr entry.encode_ne_nil
  have hlen := List.length_pos_iff.mpr hrest
  rw [List.length_drop]
  omega

/-- `Wal::replay`: reads the whole file, which must exist. -/
def replay (file : Option Bytes) : Res WalError (List WalEntry) :=
  match file with
  | none => .error (.err .error)
  | some bytes => replayFrom bytes

/-! ### Replaying a well-formed log -/

/-- The entries of a log, encoded one after the other. -/
def encodeAll (es : List WalEntry) : Bytes := (es.map WalEntry.encode).flatten

@[simp] theorem encodeAll_nil : encodeAll [] = [] := rfl

@[simp] theorem encodeAll_cons (e : WalEntry) (es : List WalEntry) :
    encodeAll (e :: es) = e.encode ++ encodeAll es := rfl

@[simp] theorem encodeAll_append (es es' : List WalEntry) :
    encodeAll (es ++ es') = encodeAll es ++ encodeAll es' := by
  simp [encodeAll]

theorem append_encodeAll (es : List WalEntry) (e : WalEntry) :
    append (encodeAll es) e = encodeAll (es ++ [e]) := by
  simp [append]

@[simp] theorem replayFrom_nil : replayFrom [] = .ok [] := by
  rw [replayFrom, if_pos rfl]

/-- The loop stops at the first byte string that is not an entry. -/
theorem replayFrom_of_err {rest : Bytes} {x : WalError}
    (h : WalEntry.decode rest = .error (.err x)) : replayFrom rest = .ok [] := by
  rw [replayFrom]
  split
  · rfl
  · split <;> simp_all

theorem replayFrom_encode_append {e : WalEntry} (he : e.IsShort) (rest : Bytes) :
    replayFrom (e.encode ++ rest) = (replayFrom rest).map (e :: ·) := by
  have hd := WalEntry.decode_encode_append he rest
  rw [replayFrom, if_neg (by simp [e.encode_ne_nil])]
  split
  · rename_i entry consumed h
    rw [hd] at h
    simp only [Except.ok.injEq, Prod.mk.injEq] at h
    obtain ⟨rfl, rfl⟩ := h
    rw [List.drop_left]
    cases replayFrom rest <;> rfl
  · simp_all
  · simp_all

/-- **A log of complete entries is replayed entry by entry**, whatever follows. -/
theorem replayFrom_encodeAll_append {es : List WalEntry} (hes : ∀ e ∈ es, e.IsShort)
    (rest : Bytes) : replayFrom (encodeAll es ++ rest) = (replayFrom rest).map (es ++ ·) := by
  induction es with
  | nil =>
    simp only [encodeAll_nil, List.nil_append]
    cases replayFrom rest <;> rfl
  | cons e es ih =>
    rw [encodeAll_cons, List.append_assoc, replayFrom_encode_append (hes e List.mem_cons_self),
      ih fun x hx => hes x (List.mem_cons_of_mem _ hx)]
    cases replayFrom rest <;> rfl

theorem replay_encodeAll {es : List WalEntry} (hes : ∀ e ∈ es, e.IsShort) :
    replay (some (encodeAll es)) = .ok es := by
  have h := replayFrom_encodeAll_append hes []
  simpa [replay, Except.map] using h

/-- **A torn tail costs the torn entry and nothing else.** -/
theorem replay_torn {es : List WalEntry} (hes : ∀ e ∈ es, e.IsShort) {e : WalEntry}
    (he : e.IsShort) {n : ℕ} (hn : n < e.encode.length) :
    replay (some (appendTorn (encodeAll es) e n)) = .ok es := by
  have htorn := replayFrom_of_err (WalEntry.decode_take_encode he hn)
  rw [replay, appendTorn]
  simp [replayFrom_encodeAll_append hes, htorn, Except.map]

/-- **A torn tail costs only the torn entry**: wherever the last entry was cut, the decoder
finds it too short, and the entries before it are replayed in order. -/
theorem replay_tornTail {es : List WalEntry} (hes : ∀ e ∈ es, e.IsShort) {e : WalEntry}
    (he : e.IsShort) {k : ℕ} (hk : k < e.encode.length) :
    WalEntry.decode (e.encode.take k) = .error (.err .error) ∧
      replay (some (encodeAll es ++ e.encode.take k)) = .ok es :=
  ⟨WalEntry.decode_take_encode he hk, replay_torn hes he hk⟩

/-- A deletion that lost the last byte of its checksum, behind a complete write. -/
theorem replay_tornTail_checksum :
    WalEntry.decode ((WalEntry.delete [1]).encode.take 9) = .error (.err .error) ∧
      replay (some (encodeAll [.put [1] [2]] ++ (WalEntry.delete [1]).encode.take 9)) =
        .ok [.put [1] [2]] :=
  replay_tornTail (by decide) (by decide) (by decide +kernel)

/-- **A length of 2^32 is written as zero**, so the entry of an empty key and of that many
zero bytes is not read back: the first of the zero bytes are taken for the checksum. -/
theorem replay_wrapped {n : ℕ} (hn : n % 2 ^ 32 = 0) (hpos : 4 ≤ n) :
    replay (some (WalEntry.put [] (List.replicate n 0)).encode) = .ok [] := by
  have hlen : leBytes 4 n = leBytes 4 0 := by
    have h := leBytes_leValue (leBytes 4 n)
    rw [length_leBytes, leValue_leBytes] at h
    rw [← h]
    exact congrArg _ hn
  obtain ⟨m, rfl⟩ := Nat.exists_eq_add_of_le hpos
  obtain ⟨rest, hrest⟩ : ∃ rest, (WalEntry.put [] (List.replicate (4 + m) 0)).encode =
      (WalEntry.put [] []).body ++ ([0, 0, 0, 0] ++ rest) := by
    refine ⟨List.replicate m 0 ++
      leBytes 4 (crc32 (WalEntry.put [] (List.replicate (4 + m) 0)).body).toNat, ?_⟩
    rw [WalEntry.encode, WalEntry.body, List.length_replicate, hlen, List.replicate_add]
    simp [WalEntry.body, List.replicate]
  refine replayFrom_of_err (x := .checksum) ?_
  rw [hrest]
  -- the decoder reads an entry with an empty value, and zeroes where its checksum should be
  have hbody : WalEntry.decodeBody ((WalEntry.put [] []).body ++ ([0, 0, 0, 0] ++ rest)) =
      .ok (.put [] [], 9) :=
    WalEntry.decodeBody_eq_ok_iff.mpr ⟨by decide, rfl, rfl⟩
  have hchecksum : WalEntry.field ((WalEntry.put [] []).body ++ ([0, 0, 0, 0] ++ rest)) 9 4 =
      [0, 0, 0, 0] := WalEntry.field_mid _ rest rfl rfl rfl
  have hlong : ¬((WalEntry.put [] []).body ++ ([0, 0, 0, 0] ++ rest)).length < 9 + 4 := by
    rw [List.length_append, List.length_append, WalEntry.length_body_put]
    simp
    omega
  rw [WalEntry.decode_of_body hbody, hchecksum, if_neg hlong, if_pos (by decide +kernel)]

/-! ### Replaying any file -/

/-- **The file is the encodings of these entries**, and then nothing, or nothing that can be
decoded. -/
def Parses (file : Bytes) (es : List WalEntry) : Prop :=
  ∃ rest, file = encodeAll es ++ rest ∧
    (rest = [] ∨ ∃ x, WalEntry.decode rest = .error (.err x))

/-- **Replay is safe and maximal** on a file: it returns entries as which the file parses, and
which are the only such; no more complete entries stand at the front of the file; and their
encodings alone are replayed to the same. -/
structure ReplaysTo (file : Bytes) (es : List WalEntry) : Prop where
  replays : replay (some file) = .ok es
  parses : Parses file es
  only : ∀ es', Parses file es' → es' = es
  longest : ∀ es', (∀ e ∈ es', e.IsShort) → encodeAll es' <+: file → es' <+: es
  again : replay (some (encodeAll es)) = .ok es

/-- **Replay never panics**, and what it returns is how the file parses. -/
theorem exists_replay (file : Bytes) :
    ∃ es, replay (some file) = .ok es ∧ Parses file es ∧ ∀ e ∈ es, e.IsShort := by
  change ∃ es, replayFrom file = .ok es ∧ _
  induction hlen : file.length using Nat.strong_induction_on generalizing file with
  | _ n ih =>
    by_cases hnil : file = []
    · subst hnil
      exact ⟨[], replayFrom_nil, ⟨[], rfl, Or.inl rfl⟩, List.forall_mem_nil _⟩
    · cases hd : WalEntry.decode file with
      | error x =>
        cases x with
        | panic => exact absurd hd (WalEntry.decode_ne_panic file)
        | err x => exact ⟨[], replayFrom_of_err hd, ⟨file, rfl, Or.inr ⟨x, hd⟩⟩,
            List.forall_mem_nil _⟩
      | ok r =>
        obtain ⟨e, consumed⟩ := r
        obtain ⟨he, rfl, htake⟩ := WalEntry.decode_eq_ok_iff.mp hd
        have hfile : e.encode ++ file.drop e.encode.length = file := by
          conv_rhs => rw [← List.take_append_drop e.encode.length file, htake]
        have hpos := List.length_pos_iff.mpr e.encode_ne_nil
        have hrest := List.length_pos_iff.mpr hnil
        -- what is left of the file is shorter
        obtain ⟨es, hreplay, ⟨rest, hes, hstop⟩, hshort⟩ := ih (file.drop e.encode.length).length
          (by rw [List.length_drop]; omega) _ rfl
        refine ⟨e :: es, ?_, ⟨rest, ?_, hstop⟩, List.forall_mem_cons.mpr ⟨he, hshort⟩⟩
        · rw [← hfile, replayFrom_encode_append he, hreplay]
          rfl
        · rw [encodeAll_cons, List.append_assoc, ← hes, hfile]

/-- Replay finds no fewer entries than stand at the front of the file. -/
theorem replay_longest {file : Bytes} {es es' : List WalEntry} (h : replay (some file) = .ok es)
    (hes' : ∀ e ∈ es', e.IsShort) (hfront : encodeAll es' <+: file) : es' <+: es := by
  obtain ⟨rest, rfl⟩ := hfront
  obtain ⟨more, hmore, -⟩ := exists_replay rest
  rw [replay] at h hmore
  rw [replayFrom_encodeAll_append hes', hmore] at h
  exact ⟨more, Except.ok.inj h⟩

/-- **The beginning of a log is replayed to the beginning of its entries**, wherever it is
cut. -/
theorem replay_mono {file file' : Bytes} {es es' : List WalEntry} (h : replay (some file) = .ok es)
    (h' : replay (some file') = .ok es') (hfront : file <+: file') : es <+: es' := by
  obtain ⟨es₁, hreplay, ⟨rest, hfile, -⟩, hshort⟩ := exists_replay file
  obtain rfl : es₁ = es := Except.ok.inj (hreplay.symm.trans h)
  refine replay_longest h' hshort (List.IsPrefix.trans ?_ hfront)
  rw [hfile]
  exact List.prefix_append _ _

/-- Entries that fit the length fields are found wherever the file parses as them. -/
theorem Parses.replay_eq {file : Bytes} {es : List WalEntry} (h : Parses file es)
    (hes : ∀ e ∈ es, e.IsShort) : replay (some file) = .ok es := by
  obtain ⟨rest, rfl, hstop⟩ := h
  have hrest : replayFrom rest = .ok [] := by
    rcases hstop with rfl | ⟨x, hx⟩
    · exact replayFrom_nil
    · exact replayFrom_of_err hx
  rw [replay, replayFrom_encodeAll_append hes, hrest]
  simp [Except.map]

/-- **Replay of any file is safe and maximal, unless the file is also the encodings of entries
one of which does not fit the length fields.** -/
theorem replaysTo_iff (file : Bytes) :
    (∃ es, ReplaysTo file es) ↔ ∀ es, Parses file es → ∀ e ∈ es, e.IsShort := by
  obtain ⟨es, hreplay, hparses, hshort⟩ := exists_replay file
  constructor
  · rintro ⟨es', h⟩ es'' hes''
    -- what replay returns consists of short entries
    have hes' : es' = es := Except.ok.inj (h.replays.symm.trans hreplay)
    rw [h.only es'' hes'', hes']
    exact hshort
  · intro h
    refine ⟨es, hreplay, hparses, fun es' hes' => ?_, fun es' hes' hfront => ?_,
      replay_encodeAll hshort⟩
    · exact Except.ok.inj ((hes'.replay_eq (h es' hes')).symm.trans hreplay)
    · exact replay_longest hreplay hes' hfront

/-- **An entry of 2^32 bytes is one way to parse its own encoding**, and replay finds another:
no entry at all. -/
theorem not_replaysTo : ¬∀ file : Bytes, ∃ es, ReplaysTo file es := by
  intro h
  -- the length stays a variable, so that nothing counts up to it
  obtain ⟨n, hn, hpos⟩ : ∃ n : ℕ, n % 2 ^ 32 = 0 ∧ 4 ≤ n := ⟨2 ^ 32, by norm_num, by norm_num⟩
  obtain ⟨es, hes⟩ := h (WalEntry.put [] (List.replicate n 0)).encode
  have hnone : es = [] := Except.ok.inj (hes.replays.symm.trans (replay_wrapped hn hpos))
  have hself : Parses (WalEntry.put [] (List.replicate n 0)).encode
      [.put [] (List.replicate n 0)] := ⟨[], by simp, Or.inl rfl⟩
  rw [hnone] at hes
  exact absurd (hes.only _ hself) (List.cons_ne_nil _ _)

/-! ### Histories of one log file -/

/-- What can happen to a log file that is never truncated. -/
inductive Event where
  /-- `Wal::open`. -/
  | opened : Event
  /-- An append that returns `Ok`. -/
  | append (e : WalEntry) : Event
  /-- An append that leaves only `n` bytes of the entry, fewer than it has. -/
  | torn (e : WalEntry) (n : Fin e.encode.length) : Event

namespace Event

def step (file : Bytes) : Event → Bytes
  | opened => Wal.open (some file)
  | append e => Wal.append file e
  | torn e n => Wal.appendTorn file e n

/-- The entry an append returned `Ok` for. -/
def acked : Event → Option WalEntry
  | append e => some e
  | _ => none

/-- The entry the event is about fits the length fields. -/
def IsShort : Event → Prop
  | opened => True
  | append e => e.IsShort
  | torn e _ => e.IsShort

/-- The event leaves part of an entry behind. -/
def Tears : Event → Prop
  | torn _ n => (n : ℕ) ≠ 0
  | _ => False

/-- The event adds bytes to the file. -/
def Writes : Event → Prop
  | opened => False
  | append _ => True
  | torn _ n => (n : ℕ) ≠ 0

theorem step_of_not_writes {ev : Event} (h : ¬ev.Writes) (file : Bytes) : ev.step file = file := by
  cases ev with
  | opened => rfl
  | append e => exact absurd trivial h
  | torn e n =>
    have hn : (n : ℕ) = 0 := not_not.mp h
    simp [step, appendTorn, hn]

theorem acked_of_not_writes {ev : Event} (h : ¬ev.Writes) : ev.acked = none := by
  cases ev with
  | append e => exact absurd trivial h
  | _ => rfl

end Event

/-- The file after a history that begins with its creation. -/
def run (evs : List Event) : Bytes := evs.foldl Event.step (Wal.open none)

/-- The entries whose append returned `Ok`, in order. -/
def acked (evs : List Event) : List WalEntry := evs.filterMap Event.acked

/-- **Nothing is written behind a torn tail.** -/
def Intact (evs : List Event) : Prop := evs.Pairwise fun a b => a.Tears → ¬b.Writes

theorem foldl_step_of_not_writes {evs : List Event} (h : ∀ ev ∈ evs, ¬ev.Writes) (file : Bytes) :
    evs.foldl Event.step file = file ∧ acked evs = [] := by
  induction evs with
  | nil => exact ⟨rfl, rfl⟩
  | cons ev evs ih =>
    have hev := h ev List.mem_cons_self
    obtain ⟨hfile, hack⟩ := ih fun x hx => h x (List.mem_cons_of_mem _ hx)
    rw [List.foldl_cons, Event.step_of_not_writes hev]
    exact ⟨hfile, by rw [acked, List.filterMap_cons, Event.acked_of_not_writes hev]; exact hack⟩

/-- The invariant of an intact history: a log of complete entries, extended by
the rest of the history, replays to those entries and the ones acknowledged. -/
theorem replay_foldl_step {evs : List Event} (hshort : ∀ ev ∈ evs, ev.IsShort)
    (hintact : Intact evs) {es : List WalEntry} (hes : ∀ e ∈ es, e.IsShort) :
    replay (some (evs.foldl Event.step (encodeAll es))) = .ok (es ++ acked evs) := by
  induction evs generalizing es with
  | nil => simpa [acked] using replay_encodeAll hes
  | cons ev evs ih =>
    obtain ⟨hhead, htail⟩ := List.pairwise_cons.mp hintact
    have hev := hshort ev List.mem_cons_self
    have hrest : ∀ x ∈ evs, x.IsShort := fun x hx => hshort x (List.mem_cons_of_mem _ hx)
    rw [List.foldl_cons]
    cases ev with
    | opened => exact ih hrest htail hes
    | append e =>
      have hes' : ∀ x ∈ es ++ [e], x.IsShort := by
        intro x hx
        rcases List.mem_append.mp hx with hx | hx
        · exact hes x hx
        · rw [List.mem_singleton.mp hx]
          exact hev
      -- one more complete entry, which is also the next to be acknowledged
      have h := ih hrest htail hes'
      rw [List.append_assoc] at h
      rw [Event.step, append_encodeAll]
      exact h
    | torn e n =>
      by_cases hn : (n : ℕ) = 0
      · have hquiet : ¬(Event.torn e n).Writes := fun hw => hw hn
        rw [Event.step_of_not_writes hquiet]
        exact ih hrest htail hes
      · -- the tear is the last thing that reaches the file
        obtain ⟨hfile, hack⟩ := foldl_step_of_not_writes
          (fun x hx => hhead x hx hn) (Event.step (encodeAll es) (.torn e n))
        have hacked : acked (.torn e n :: evs) = [] := by
          rw [acked, List.filterMap_cons]
          exact hack
        rw [hfile, hacked, List.append_nil]
        exact replay_torn hes hev n.isLt

/-- **Every acknowledged append is recovered, and nothing else**, by every
history of short entries in which nothing is written behind a torn tail. -/
theorem replay_run_of_intact {evs : List Event} (hshort : ∀ ev ∈ evs, ev.IsShort)
    (hintact : Intact evs) : replay (some (run evs)) = .ok (acked evs) := by
  have h := replay_foldl_step hshort hintact (List.forall_mem_nil _)
  rwa [List.nil_append] at h

/-- A history of two opens and two appends, the second of them torn. -/
theorem replay_run_of_intact_crash :
    replay (some (run [.opened, .append (.put [1] [2]), .torn (.delete [1]) ⟨3, by decide⟩,
      .opened])) = .ok [.put [1] [2]] :=
  replay_run_of_intact (by simp [Event.IsShort, WalEntry.IsShort, Short])
    (by simp [Intact, Event.Tears, Event.Writes])

/-- **An append behind a torn tail is lost**: one byte of a first entry is left by
a crash, the log is opened again, and a second entry is appended and
acknowledged. Replay takes the torn byte for the op tag of an entry, finds a
wrong checksum and stops. -/
theorem replay_run_append_after_torn :
    ¬∀ evs : List Event, replay (some (run evs)) = .ok (acked evs) := by
  intro h
  have hev := h [.torn (.delete []) ⟨1, by decide⟩, .opened, .append (.delete [])]
  have hd : WalEntry.decode (run [.torn (.delete []) ⟨1, by decide⟩, .opened,
      .append (.delete [])]) = .error (.err .checksum) := by
    decide +kernel
  rw [replay, replayFrom_of_err hd] at hev
  simp [acked, Event.acked] at hev

end Wal

end Tabula
