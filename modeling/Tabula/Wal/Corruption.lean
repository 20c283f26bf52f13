import Tabula.Lib.ShiftRegister
import Tabula.Wal.Codec

/-!
# Damaged WAL entries

What `WalEntry::decode` makes of an entry some of whose bytes have changed since it
was written. The CRC-32 is the state of a shift register of 32 bits with its highest
feedback bit set, so a change within four bytes is never lost in it
(`Tabula.crc32_ne_of_changedWithin`), and a change that leaves the fields of the
entry where they are is always caught (`Tabula.WalEntry.decode_changed_payload`).

A changed tag or length moves the place where the checksum is looked for, and there
the bytes are the client's. The change is caught exactly when these do not happen to
be the checksum of what stands before them
(`Tabula.WalEntry.decode_changed_header_iff`), and a client can choose a key for which
they are.
-/

namespace Tabula

open LittleEndian

/-! ### The checksum as a shift register -/

/-- The feedback word. -/
def crc32Poly : BitVec 32 := 0xEDB88320

theorem toBitVec_crc32Shift (crc : UInt32) :
    (crc32Shift crc).toBitVec = ShiftRegister.step crc32Poly crc.toBitVec := by
  have hlow : (crc &&& 1).toBitVec = (BitVec.ofBool (crc.toBitVec.getLsbD 0)).setWidth 32 := by
    rw [UInt32.toBitVec_and]
    exact BitVec.and_one_eq_setWidth_ofBool_getLsbD
  have hmask : crc &&& 1 ≠ 0 ↔ crc.toBitVec.getLsbD 0 = true := by
    rw [ne_eq, ← UInt32.toBitVec_inj, hlow]
    cases crc.toBitVec.getLsbD 0 <;> decide
  simp only [crc32Shift, ShiftRegister.step, UInt32.toBitVec_xor, hmask]
  split <;> rfl

theorem toBitVec_crc32Byte (crc : UInt32) (byte : UInt8) :
    (crc32Byte crc byte).toBitVec =
      ShiftRegister.feed crc32Poly crc.toBitVec byte.toBitVec := by
  have hiter : ∀ (n : ℕ) (c : UInt32),
      (crc32Shift^[n] c).toBitVec = (ShiftRegister.step crc32Poly)^[n] c.toBitVec := by
    intro n
    induction n with
    | zero => exact fun _ => rfl
    | succ n ih =>
      intro c
      rw [Function.iterate_succ_apply, ih, toBitVec_crc32Shift, Function.iterate_succ_apply]
  rw [crc32Byte, hiter, UInt32.toBitVec_xor]
  rfl

theorem toBitVec_foldl_crc32Byte (data : Bytes) (crc : UInt32) :
    (data.foldl crc32Byte crc).toBitVec =
      (data.map UInt8.toBitVec).foldl (ShiftRegister.feed crc32Poly) crc.toBitVec := by
  induction data generalizing crc with
  | nil => rfl
  | cons byte data ih =>
    rw [List.foldl_cons, ih, toBitVec_crc32Byte, List.map_cons, List.foldl_cons]

/-! ### Changes within a window -/

/-- **No byte outside the `n` at `i` has changed.** -/
def ChangedWithin (b b' : Bytes) (i n : ℕ) : Prop :=
  b'.length = b.length ∧ ∀ j, j < i ∨ i + n ≤ j → b'[j]? = b[j]?

namespace ChangedWithin

variable {b b' : Bytes} {i n : ℕ}

/-- A field that the window does not meet is as it was. -/
theorem field_eq (h : ChangedWithin b b' i n) {j m : ℕ} (hj : j + m ≤ i ∨ i + n ≤ j) :
    WalEntry.field b' j m = WalEntry.field b j m := by
  refine List.ext_getElem? fun x => ?_
  rw [WalEntry.field, WalEntry.field, List.getElem?_take, List.getElem?_take]
  split
  · rw [List.getElem?_drop, List.getElem?_drop]
    exact h.2 (j + x) (by omega)
  · rfl

theorem take (h : ChangedWithin b b' i n) (m : ℕ) : ChangedWithin (b.take m) (b'.take m) i n := by
  refine ⟨by rw [List.length_take, List.length_take, h.1], fun j hj => ?_⟩
  rw [List.getElem?_take, List.getElem?_take, h.2 j hj]

theorem append (h : ChangedWithin b b' i n) (rest : Bytes) :
    ChangedWithin (b ++ rest) (b' ++ rest) i n := by
  refine ⟨by rw [List.length_append, List.length_append, h.1], fun j hj => ?_⟩
  rw [List.getElem?_append, List.getElem?_append, h.1, h.2 j hj]

/-- Around the window the two are alike. -/
theorem exists_split (h : ChangedWithin b b' i n) : ∃ pre post,
    b = pre ++ (WalEntry.field b i n ++ post) ∧ b' = pre ++ (WalEntry.field b' i n ++ post) := by
  have hcut : ∀ c : Bytes, c = c.take i ++ (WalEntry.field c i n ++ c.drop (i + n)) := fun c => by
    rw [WalEntry.field, ← List.drop_drop, List.take_append_drop, List.take_append_drop]
  have hpre : b'.take i = b.take i := h.field_eq (j := 0) (m := i) (Or.inl (Nat.zero_add i).le)
  have hpost : b'.drop (i + n) = b.drop (i + n) := by
    refine List.ext_getElem? fun x => ?_
    rw [List.getElem?_drop, List.getElem?_drop, h.2 _ (Or.inr (Nat.le_add_right _ x))]
  refine ⟨b.take i, b.drop (i + n), hcut b, ?_⟩
  rw [← hpre, ← hpost]
  exact hcut b'

/-- Only the window can tell the two apart. -/
theorem eq_of_take_eq (h : ChangedWithin b b' i n) {m : ℕ} (hm : i + n ≤ m)
    (heq : b'.take m = b.take m) : b' = b := by
  obtain ⟨pre, post, hb, hb'⟩ := h.exists_split
  have hwindow : WalEntry.field b' i n = WalEntry.field b i n := by
    have hcut : ∀ c : Bytes, WalEntry.field c i n = WalEntry.field (c.take m) i n := fun c => by
      rw [WalEntry.field, WalEntry.field, List.drop_take, List.take_take, min_eq_left (by omega)]
    rw [hcut b', heq, ← hcut b]
  rw [hb', hwindow, ← hb]

end ChangedWithin

/-- A single byte that is replaced. -/
theorem changedWithin_set (b : Bytes) (i : ℕ) (x : UInt8) : ChangedWithin b (b.set i x) i 1 :=
  ⟨List.length_set, fun j hj => List.getElem?_set_ne (by omega)⟩

/-- **A change within four bytes changes the checksum.** -/
theorem crc32_ne_of_changedWithin {b b' : Bytes} {i n : ℕ} (hn : n ≤ 4)
    (h : ChangedWithin b b' i n) (hne : b' ≠ b) : crc32 b' ≠ crc32 b := by
  intro heq
  obtain ⟨pre, post, hb, hb'⟩ := h.exists_split
  have hlen : (WalEntry.field b' i n).length = (WalEntry.field b i n).length := by
    rw [WalEntry.field, WalEntry.field, List.length_take, List.length_take, List.length_drop,
      List.length_drop, h.1]
  have hshort : (WalEntry.field b' i n).length ≤ 4 := by
    rw [WalEntry.field, List.length_take]
    omega
  have hstate : b'.foldl crc32Byte 0xFFFFFFFF = b.foldl crc32Byte 0xFFFFFFFF :=
    UInt32.not_inj.mp heq
  -- what comes before the window leaves the register in the same state
  have hfold : ∀ c : Bytes, ((pre ++ (c ++ post)).foldl crc32Byte 0xFFFFFFFF).toBitVec =
      (c.map UInt8.toBitVec ++ post.map UInt8.toBitVec).foldl (ShiftRegister.feed crc32Poly)
        (pre.foldl crc32Byte 0xFFFFFFFF).toBitVec := fun c => by
    rw [List.foldl_append, toBitVec_foldl_crc32Byte, List.map_append]
  rw [hb', hb, ← UInt32.toBitVec_inj, hfold, hfold] at hstate
  have hwindow := ShiftRegister.eq_of_foldl_feed_eq (p := crc32Poly) (by decide)
    (by rw [List.length_map, List.length_map, hlen]) (by rw [List.length_map]; omega) _ hstate
  have hfield : WalEntry.field b' i n = WalEntry.field b i n :=
    List.map_injective_iff.mpr (fun _ _ => UInt8.toBitVec_inj.mp) hwindow
  exact hne (by rw [hb', hfield, ← hb])

namespace WalEntry

/-! ### Changes of the key or the value -/

/-- The `n` bytes at `i` lie within the key, or within the value. -/
def InPayload (i n : ℕ) : WalEntry → Prop
  | put k v => (5 ≤ i ∧ i + n ≤ 5 + k.length) ∨
      (9 + k.length ≤ i ∧ i + n ≤ 9 + k.length + v.length)
  | delete k => 5 ≤ i ∧ i + n ≤ 5 + k.length

instance (i n : ℕ) : (e : WalEntry) → Decidable (e.InPayload i n)
  | put k v => inferInstanceAs (Decidable ((5 ≤ i ∧ i + n ≤ 5 + k.length) ∨
      (9 + k.length ≤ i ∧ i + n ≤ 9 + k.length + v.length)))
  | delete k => inferInstanceAs (Decidable (5 ≤ i ∧ i + n ≤ 5 + k.length))

theorem InPayload.le {e : WalEntry} {i n : ℕ} (h : e.InPayload i n) :
    5 ≤ i ∧ i + n ≤ e.body.length := by
  cases e with
  | put k v =>
    rw [length_body_put]
    rcases h with h | h <;> omega
  | delete k =>
    rw [length_body_delete]
    exact h

/-- With the tag and the lengths as they were, an entry is found, and ends where it did. -/
theorem exists_decodeBody_of_inPayload {e : WalEntry} (he : e.IsShort) {i n : ℕ}
    (hi : e.InPayload i n) {rest b' : Bytes} (h : ChangedWithin (e.body ++ rest) b' i n) :
    ∃ e', decodeBody b' = .ok (e', e.body.length) := by
  have hle := hi.le
  have hop : b'.head? = (e.body ++ rest).head? := by
    rw [List.head?_eq_getElem?, List.head?_eq_getElem?]
    exact h.2 0 (Or.inl (by omega))
  have hkey : field b' 1 4 = leBytes 4 e.key.length := by
    rw [h.field_eq (Or.inl (by omega)), field_keyLen]
  have hlen : b'.length = e.body.length + rest.length := by rw [h.1, List.length_append]
  cases e with
  | put k v =>
    have hval : field b' (5 + k.length) 4 = leBytes 4 v.length := by
      rw [h.field_eq (by rcases hi with hi | hi <;> omega), field_valLen]
    rw [length_body_put] at hlen ⊢
    rw [decodeBody, hop]
    simp only [body, List.append_assoc, List.cons_append, List.head?_cons, if_true]
    rw [decodePut_eq, hkey, key, leValue_length he.1, hval, leValue_length he.2, if_neg (by omega),
      if_neg (by omega), if_neg (by omega),
      show 5 + k.length + 4 + v.length = 9 + k.length + v.length by omega]
    exact ⟨_, rfl⟩
  | delete k =>
    rw [length_body_delete] at hlen ⊢
    rw [decodeBody, hop]
    simp only [body, List.append_assoc, List.cons_append, List.head?_cons,
      show ¬(1 : UInt8) = 0 by decide, if_false, if_true]
    rw [decodeDelete_eq, hkey, key, leValue_length he, if_neg (by omega), if_neg (by omega)]
    exact ⟨_, rfl⟩

/-- **Damage to the key or the value is always caught**: the checksums of byte strings that
differ within four bytes differ, so an entry damaged within four bytes of its key or of its
value is never decoded, whatever follows it. -/
theorem decode_changed_payload :
    (∀ (b b' : Bytes) (i n : ℕ), n ≤ 4 → ChangedWithin b b' i n → b' ≠ b → crc32 b' ≠ crc32 b) ∧
      ∀ (e : WalEntry) (i n : ℕ) (b' rest : Bytes), e.IsShort → n ≤ 4 → e.InPayload i n →
        ChangedWithin e.encode b' i n → b' ≠ e.encode →
        decode (b' ++ rest) = .error (.err .checksum) := by
  refine ⟨fun b b' i n hn h hne => crc32_ne_of_changedWithin hn h hne,
    fun e i n b' rest he hn hi h hne => ?_⟩
  have hle := hi.le
  have hwhole : ChangedWithin (e.body ++ (leBytes 4 (crc32 e.body).toNat ++ rest)) (b' ++ rest)
      i n := by
    rw [← List.append_assoc]
    exact h.append rest
  obtain ⟨e', hbody⟩ := exists_decodeBody_of_inPayload he hi hwhole
  obtain ⟨-, -, htake⟩ := decodeBody_eq_ok_iff.mp hbody
  have hlen : b'.length = e.body.length + 4 := h.1.trans e.length_encode
  have hbody' : b'.take e.body.length = e'.body := by
    rw [← htake, List.take_append_of_le_length (by omega)]
  have hsame : e.encode.take e.body.length = e.body := take_append_length rfl _
  -- the stored checksum is that of the entry which was written
  have hstored : field (b' ++ rest) e.body.length 4 = leBytes 4 (crc32 e.body).toNat := by
    rw [hwhole.field_eq (Or.inr hle.2)]
    exact field_mid e.body rest rfl rfl (length_leBytes ..)
  have hcrc : crc32 e'.body ≠ crc32 e.body := by
    have hchanged := h.take e.body.length
    rw [hbody', hsame] at hchanged
    refine crc32_ne_of_changedWithin hn hchanged fun heq => hne (h.eq_of_take_eq hle.2 ?_)
    rw [hbody', hsame, heq]
  rw [decode_of_body hbody, if_neg (by rw [List.length_append]; omega), hstored,
    leValue_leBytes_of_lt (lt_of_lt_of_eq (UInt32.toNat_lt _) (by norm_num)),
    if_pos fun h => hcrc (UInt32.toNat_inj.mp h)]

/-- Two bytes of a value of five, with another entry behind. -/
theorem decode_changed_payload_value :
    decode (((put [1] [1, 2, 3, 4, 5]).encode.set 11 7).set 13 0 ++ (delete [1]).encode) =
      .error (.err .checksum) :=
  decode_changed_payload.2 (put [1] [1, 2, 3, 4, 5]) 10 4 _ _ (by decide) (by decide) (by decide)
    ⟨rfl, fun j hj => by
      rw [List.getElem?_set_ne (by omega), List.getElem?_set_ne (by omega)]⟩ (by decide +kernel)

/-! ### Changes of the tag or a length -/

/-- The op tag and the length fields. -/
def InHeader (i : ℕ) : WalEntry → Prop
  | put k _ => i < 5 ∨ (5 + k.length ≤ i ∧ i < 9 + k.length)
  | delete _ => i < 5

instance (i : ℕ) : (e : WalEntry) → Decidable (e.InHeader i)
  | put k _ => inferInstanceAs (Decidable (i < 5 ∨ (5 + k.length ≤ i ∧ i < 9 + k.length)))
  | delete _ => inferInstanceAs (Decidable (i < 5))

theorem InHeader.lt {e : WalEntry} {i : ℕ} (h : e.InHeader i) : i < e.body.length := by
  cases e with
  | put k v =>
    rw [length_body_put]
    rcases h with h | h <;> omega
  | delete k =>
    rw [InHeader] at h
    rw [length_body_delete]
    omega

/-- Where the tag and the lengths say that the body ends. -/
def announcedEnd (b : Bytes) : Option ℕ :=
  match b.head? with
  | none => none
  | some op =>
      let keyLen := leValue (field b 1 4)
      if op = 0 then some (5 + keyLen + 4 + leValue (field b (5 + keyLen) 4))
      else if op = 1 then some (5 + keyLen)
      else none

/-- **The bytes at an announced end are the checksum of what stands before them.** -/
def ChecksAt (b : Bytes) (n : ℕ) : Prop :=
  announcedEnd b = some n ∧ leValue (field b n 4) = (crc32 (b.take n)).toNat

instance (b : Bytes) (n : ℕ) : Decidable (ChecksAt b n) := inferInstanceAs (Decidable (_ ∧ _))

/-- The body decoder returns where the body ends, if there are as many bytes. -/
theorem decodeBody_announced (b : Bytes) :
    (∃ e n, decodeBody b = .ok (e, n) ∧ announcedEnd b = some n) ∨
      (decodeBody b = .error (.err .error) ∧ ∀ n, announcedEnd b = some n → b.length < n) := by
  rw [decodeBody, announcedEnd]
  cases b.head? with
  | none => simp
  | some op =>
    simp only
    split_ifs
    · rw [decodePut_eq]
      split_ifs
      · exact Or.inr ⟨rfl, by simp; omega⟩
      · exact Or.inr ⟨rfl, by simp; omega⟩
      · exact Or.inr ⟨rfl, by simp; omega⟩
      · exact Or.inl ⟨_, _, rfl, rfl⟩
    · rw [decodeDelete_eq]
      split_ifs
      · exact Or.inr ⟨rfl, by simp; omega⟩
      · exact Or.inr ⟨rfl, by simp; omega⟩
      · exact Or.inl ⟨_, _, rfl, rfl⟩
    · simp

/-- An error of the decoder, read off the bytes. -/
theorem exists_decode_err_iff (b : Bytes) :
    (∃ x, decode b = .error (.err x)) ↔ ∀ n, n + 4 ≤ b.length → ¬ChecksAt b n := by
  rcases decodeBody_announced b with ⟨e, n, hbody, hend⟩ | ⟨hbody, hend⟩
  · obtain ⟨-, hn, htake⟩ := decodeBody_eq_ok_iff.mp hbody
    have honly : (∀ m, m + 4 ≤ b.length → ¬ChecksAt b m) ↔
        (n + 4 ≤ b.length → leValue (field b n 4) ≠ (crc32 e.body).toNat) := by
      constructor
      · intro h hlen hsum
        exact h n hlen ⟨hend, by rw [htake, hsum]⟩
      · rintro h m hlen ⟨hm, hsum⟩
        obtain rfl : n = m := Option.some.inj (hend.symm.trans hm)
        exact h hlen (by rw [hsum, htake])
    rw [honly, decode_of_body hbody]
    split_ifs with hlen hsum
    · simp; omega
    · exact ⟨fun _ _ => Ne.symm hsum, fun _ => ⟨_, rfl⟩⟩
    · have hsum := not_not.mp hsum
      simp [hsum]
      omega
  · refine iff_of_true ⟨.error, by rw [decode, hbody, error_bind]⟩ ?_
    rintro n hlen ⟨hn, -⟩
    have := hend n hn
    omega

/-- **Damage to the tag or a length is caught unless the changed header announces an earlier
end, and the bytes there are the checksum of those before them.** -/
theorem decode_changed_header_iff {e : WalEntry} {i : ℕ} (hi : e.InHeader i) {x : UInt8}
    (hx : e.encode.set i x ≠ e.encode) :
    (∃ err, decode (e.encode.set i x) = .error (.err err)) ↔
      ∀ n < e.body.length, ¬ChecksAt (e.encode.set i x) n := by
  have hchanged := changedWithin_set e.encode i x
  have hlen : (e.encode.set i x).length = e.body.length + 4 := hchanged.1.trans e.length_encode
  rw [exists_decode_err_iff, hlen]
  refine ⟨fun h n hn => h n (by omega), fun h n hn hchecks => ?_⟩
  -- an end where it was is found with the old checksum, which is not that of the changed body
  have hend : n = e.body.length := by
    by_contra hne
    exact h n (by omega) hchecks
  subst hend
  have hsame : e.encode.take e.body.length = e.body := take_append_length rfl _
  have hstored : field (e.encode.set i x) e.body.length 4 = leBytes 4 (crc32 e.body).toNat := by
    rw [hchanged.field_eq (Or.inr hi.lt)]
    exact field_mid e.body [] (by rw [encode, List.append_nil]) rfl (length_leBytes ..)
  have hsum := hchecks.2
  rw [hstored, leValue_leBytes_of_lt (lt_of_lt_of_eq (UInt32.toNat_lt _) (by norm_num))] at hsum
  have hbody := hchanged.take e.body.length
  rw [hsame] at hbody
  refine crc32_ne_of_changedWithin (by norm_num) hbody (fun heq => hx ?_)
    (UInt32.toNat_inj.mp hsum.symm)
  exact hchanged.eq_of_take_eq hi.lt (heq.trans hsame.symm)

/-- The length of the key of a write, lowered by one. -/
theorem decode_changed_header_iff_keyLen :
    ∃ err, decode ((put [1, 2] [3]).encode.set 1 1) = .error (.err err) :=
  (decode_changed_header_iff (e := put [1, 2] [3]) (i := 1) (by decide) (x := 1)
    (by decide +kernel)).mpr (by decide +kernel)

/-- **A write is read as a deletion after one bit has changed**: the key is such that the
checksum of the deletion is the length of the value, which is where it is looked for. -/
theorem not_decode_changed_header :
    ¬∀ (e : WalEntry) (i : ℕ) (x : UInt8), e.IsShort → e.InHeader i → e.encode.set i x ≠ e.encode →
      ∃ err, decode (e.encode.set i x) = .error (.err err) := by
  intro h
  obtain ⟨err, herr⟩ := h (put [103, 67, 249, 25] []) 0 1 (by decide) (by decide)
    (by decide +kernel)
  have hok : decode ((put [103, 67, 249, 25] []).encode.set 0 1) =
      .ok (delete [103, 67, 249, 25], 13) := by
    decide +kernel
  rw [hok] at herr
  simp at herr

end WalEntry

end Tabula
