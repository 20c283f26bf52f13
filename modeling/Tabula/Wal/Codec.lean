import Tabula.Wal.Entry

/-!
# The WAL entry format is unambiguous

The one fact about the format everything else rests on,
`Tabula.WalEntry.decode_eq_ok_iff`: the decoder accepts a byte string exactly
when it begins with the encoding of an entry that fits the length fields, and it
then returns that entry and the length of its encoding. Both directions are read
off the same cut of the bytes into fields: a field of four bytes *is* the
encoding of the number it holds, so a decoder that checks the lengths and the
checksum has checked everything.

From it follow the facts the log needs: an encoding followed by anything is
decoded (`Tabula.WalEntry.decode_encode_append`), and a strict leading part of an
encoding is reported as too short (`Tabula.WalEntry.decode_take_encode`).
-/

namespace Tabula

open LittleEndian

namespace WalEntry

/-! ### Fields of a byte string -/

/-- The `n` bytes at `i`. -/
def field (b : Bytes) (i n : ℕ) : Bytes := (b.drop i).take n

theorem length_field {b : Bytes} {i n : ℕ} (h : i + n ≤ b.length) : (field b i n).length = n := by
  rw [field, List.length_take, List.length_drop]
  omega

/-- Adjacent fields are one field. -/
theorem field_add (b : Bytes) (i m n : ℕ) :
    field b i (m + n) = field b i m ++ field b (i + m) n := by
  rw [field, List.take_add, List.drop_drop]
  rfl

theorem field_zero (b : Bytes) (n : ℕ) : field b 0 n = b.take n := rfl

theorem slice_eq_field {b : Bytes} {i j : ℕ} (h : i ≤ j) (hb : j ≤ b.length) :
    (slice b i j : Res WalError Bytes) = .ok (field b i (j - i)) := slice_ok h hb

theorem readU32_ok {b : Bytes} {i : ℕ} (h : i + 4 ≤ b.length) (hi : i + 4 < 2 ^ 64) :
    readU32 b i = .ok (leValue (field b i 4)) := by
  rw [readU32, usizeAdd_ok hi, ok_bind, slice_eq_field (by omega) h, ok_bind,
    show i + 4 - i = 4 by omega]
  rfl

theorem leValue_field_lt (b : Bytes) (i : ℕ) : leValue (field b i 4) < 2 ^ 32 := by
  refine lt_of_lt_of_le (leValue_lt _) ?_
  have h : (field b i 4).length ≤ 4 := by
    rw [field, List.length_take]
    omega
  calc 256 ^ (field b i 4).length ≤ 256 ^ 4 := Nat.pow_le_pow_right (by norm_num) h
    _ = 2 ^ 32 := by norm_num

/-- A length field that is there is the encoding of the number it holds. -/
theorem leBytes_leValue_field {b : Bytes} {i : ℕ} (h : i + 4 ≤ b.length) :
    leBytes 4 (leValue (field b i 4)) = field b i 4 := by
  have hlen : (field b i 4).length = 4 := length_field h
  calc leBytes 4 (leValue (field b i 4))
      = leBytes (field b i 4).length (leValue (field b i 4)) := by rw [hlen]
    _ = field b i 4 := leBytes_leValue _

theorem take_one_of_head {b : Bytes} {op : UInt8} (h : b.head? = some op) : b.take 1 = [op] := by
  cases b with
  | nil => simp at h
  | cons a b => simpa using h

/-- The field between a leading and a trailing part. -/
theorem field_mid {b f : Bytes} {i n : ℕ} (a c : Bytes) (h : b = a ++ (f ++ c))
    (hi : a.length = i) (hn : f.length = n) : field b i n = f := by
  rw [field, h, drop_append_length hi, take_append_length hn]

/-! ### The two arms

With its bounds discharged an arm is a single nested comparison of lengths. -/

/-- What the `0u8` arm does, without the panics that cannot happen. -/
theorem decodePut_eq (b : Bytes) :
    decodePut b =
      if b.length < 5 then .error (.err .error)
      else if b.length < 5 + leValue (field b 1 4) + 4 then .error (.err .error)
      else if b.length < 5 + leValue (field b 1 4) + 4 +
          leValue (field b (5 + leValue (field b 1 4)) 4) then .error (.err .error)
      else .ok (put (field b 5 (leValue (field b 1 4)))
            (field b (5 + leValue (field b 1 4) + 4)
              (leValue (field b (5 + leValue (field b 1 4)) 4))),
          5 + leValue (field b 1 4) + 4 + leValue (field b (5 + leValue (field b 1 4)) 4)) := by
  rw [decodePut]
  split
  · rfl
  · rename_i h5
    have hk : leValue (field b 1 4) < 2 ^ 32 := leValue_field_lt b 1
    -- a length field is below `2 ^ 32`, so no sum of offsets overflows
    rw [readU32_ok (by omega) (by norm_num)]
    generalize leValue (field b 1 4) = keyLen at hk ⊢
    rw [ok_bind, usizeAdd_ok (by omega), ok_bind, usizeAdd_ok (by omega), ok_bind]
    split
    · rfl
    · rename_i hv
      have hvl : leValue (field b (5 + keyLen) 4) < 2 ^ 32 := leValue_field_lt b _
      rw [slice_eq_field (by omega) (by omega), ok_bind, readU32_ok (by omega) (by omega), ok_bind,
        ok_bind, usizeAdd_ok (by omega), ok_bind]
      split
      · rfl
      · rename_i hb
        rw [slice_eq_field (by omega) (by omega), ok_bind]
        simp only [Nat.add_sub_cancel_left]
        rfl

/-- What the `1u8` arm does. -/
theorem decodeDelete_eq (b : Bytes) :
    decodeDelete b =
      if b.length < 5 then .error (.err .error)
      else if b.length < 5 + leValue (field b 1 4) then .error (.err .error)
      else .ok (delete (field b 5 (leValue (field b 1 4))), 5 + leValue (field b 1 4)) := by
  rw [decodeDelete]
  split
  · rfl
  · rename_i h5
    have hk : leValue (field b 1 4) < 2 ^ 32 := leValue_field_lt b 1
    rw [readU32_ok (by omega) (by norm_num)]
    generalize leValue (field b 1 4) = keyLen at hk ⊢
    rw [ok_bind, usizeAdd_ok (by omega), ok_bind]
    split
    · rfl
    · rename_i hb
      rw [slice_eq_field (by omega) (by omega), ok_bind]
      simp only [Nat.add_sub_cancel_left]
      rfl

/-! ### What the decoder accepts -/

/-- **The body of an entry, cut into its fields.** -/
theorem take_eq_body_put {b : Bytes} (hop : b.head? = some 0) {keyLen valLen : ℕ}
    (hk : keyLen = leValue (field b 1 4)) (hv : valLen = leValue (field b (5 + keyLen) 4))
    (hlen : 5 + keyLen + 4 + valLen ≤ b.length) :
    b.take (5 + keyLen + 4 + valLen) =
      (put (field b 5 keyLen) (field b (5 + keyLen + 4) valLen)).body := by
  have hkl : leBytes 4 keyLen = field b 1 4 := by rw [hk]; exact leBytes_leValue_field (by omega)
  have hvl : leBytes 4 valLen = field b (5 + keyLen) 4 := by
    rw [hv]
    exact leBytes_leValue_field (by omega)
  have hop' : field b 0 1 = [0] := take_one_of_head hop
  calc b.take (5 + keyLen + 4 + valLen)
      = field b 0 (1 + 4 + keyLen + 4 + valLen) := by
        rw [field_zero, show 1 + 4 + keyLen + 4 + valLen = 5 + keyLen + 4 + valLen by omega]
    _ = field b 0 1 ++ field b 1 4 ++ field b 5 keyLen ++ field b (5 + keyLen) 4 ++
          field b (5 + keyLen + 4) valLen := by
        rw [field_add, field_add, field_add, field_add]
        simp only [Nat.zero_add]
    _ = (put (field b 5 keyLen) (field b (5 + keyLen + 4) valLen)).body := by
        rw [body, length_field (by omega), length_field (by omega), hkl, hvl, hop']

theorem take_eq_body_delete {b : Bytes} (hop : b.head? = some 1) {keyLen : ℕ}
    (hk : keyLen = leValue (field b 1 4)) (hlen : 5 + keyLen ≤ b.length) :
    b.take (5 + keyLen) = (delete (field b 5 keyLen)).body := by
  have hkl : leBytes 4 keyLen = field b 1 4 := by rw [hk]; exact leBytes_leValue_field (by omega)
  have hop' : field b 0 1 = [1] := take_one_of_head hop
  calc b.take (5 + keyLen)
      = field b 0 (1 + 4 + keyLen) := by rw [field_zero]
    _ = field b 0 1 ++ field b 1 4 ++ field b 5 keyLen := by
        rw [field_add, field_add]
    _ = (delete (field b 5 keyLen)).body := by
        rw [body, length_field (by omega), hkl, hop']

theorem isShort_of_decodePut {b : Bytes} {e : WalEntry} {n : ℕ} (hop : b.head? = some 0)
    (h : decodePut b = .ok (e, n)) : e.IsShort ∧ n = e.body.length ∧ b.take n = e.body := by
  rw [decodePut_eq] at h
  have hk := leValue_field_lt b 1
  generalize hkl : leValue (field b 1 4) = keyLen at h hk
  have hv := leValue_field_lt b (5 + keyLen)
  generalize hvl : leValue (field b (5 + keyLen) 4) = valLen at h hv
  split_ifs at h with h5 h9 hb
  simp only [Except.ok.injEq, Prod.mk.injEq] at h
  obtain ⟨rfl, rfl⟩ := h
  refine ⟨⟨?_, ?_⟩, ?_, take_eq_body_put hop hkl.symm hvl.symm (by omega)⟩
  · rw [Short, length_field (by omega)]
    exact hk
  · rw [Short, length_field (by omega)]
    exact hv
  · rw [length_body_put, length_field (by omega), length_field (by omega)]
    omega

theorem isShort_of_decodeDelete {b : Bytes} {e : WalEntry} {n : ℕ} (hop : b.head? = some 1)
    (h : decodeDelete b = .ok (e, n)) : e.IsShort ∧ n = e.body.length ∧ b.take n = e.body := by
  rw [decodeDelete_eq] at h
  have hk := leValue_field_lt b 1
  generalize hkl : leValue (field b 1 4) = keyLen at h hk
  split_ifs at h with h5 hb
  simp only [Except.ok.injEq, Prod.mk.injEq] at h
  obtain ⟨rfl, rfl⟩ := h
  refine ⟨?_, ?_, take_eq_body_delete hop hkl.symm (by omega)⟩
  · rw [IsShort, Short, length_field (by omega)]
    exact hk
  · rw [length_body_delete, length_field (by omega)]

/-- The length of the key stands behind the tag. -/
theorem field_keyLen (e : WalEntry) (rest : Bytes) :
    field (e.body ++ rest) 1 4 = leBytes 4 e.key.length := by
  cases e with
  | put k v =>
    exact field_mid [0] (k ++ leBytes 4 v.length ++ v ++ rest) (by simp [body, key]) rfl (by simp)
  | delete k => exact field_mid [1] (k ++ rest) (by simp [body, key]) rfl (by simp)

/-- The length of the value stands behind the key. -/
theorem field_valLen (k v rest : Bytes) :
    field ((put k v).body ++ rest) (5 + k.length) 4 = leBytes 4 v.length :=
  field_mid ([0] ++ leBytes 4 k.length ++ k) (v ++ rest) (by simp [body]) (by simp; omega) (by simp)

theorem decodePut_body {k v : Bytes} (hk : Short k) (hv : Short v) (rest : Bytes) :
    decodePut ((put k v).body ++ rest) = .ok (put k v, (put k v).body.length) := by
  have hlen : ((put k v).body ++ rest).length = 9 + k.length + v.length + rest.length := by
    rw [List.length_append, length_body_put]
  have hkey : field ((put k v).body ++ rest) 5 k.length = k :=
    field_mid ([0] ++ leBytes 4 k.length) (leBytes 4 v.length ++ v ++ rest) (by simp [body])
      (by simp) rfl
  have hval : field ((put k v).body ++ rest) (5 + k.length + 4) v.length = v :=
    field_mid ([0] ++ leBytes 4 k.length ++ k ++ leBytes 4 v.length) rest (by simp [body])
      (by simp; omega) rfl
  rw [decodePut_eq, field_keyLen, key, leValue_length hk, hkey, field_valLen, leValue_length hv,
    hval, hlen, length_body_put, if_neg (by omega), if_neg (by omega), if_neg (by omega),
    show 5 + k.length + 4 + v.length = 9 + k.length + v.length by omega]

theorem decodeDelete_body {k : Bytes} (hk : Short k) (rest : Bytes) :
    decodeDelete ((delete k).body ++ rest) = .ok (delete k, (delete k).body.length) := by
  have hlen : ((delete k).body ++ rest).length = 5 + k.length + rest.length := by
    rw [List.length_append, length_body_delete]
  have hkey : field ((delete k).body ++ rest) 5 k.length = k :=
    field_mid ([1] ++ leBytes 4 k.length) rest (by simp [body]) (by simp) rfl
  rw [decodeDelete_eq, field_keyLen, key, leValue_length hk, hkey, hlen, length_body_delete,
    if_neg (by omega), if_neg (by omega)]

/-- **The two arms read exactly the bodies of entries**, whatever follows. -/
theorem decodeBody_eq_ok_iff {b : Bytes} {e : WalEntry} {n : ℕ} :
    decodeBody b = .ok (e, n) ↔ e.IsShort ∧ n = e.body.length ∧ b.take n = e.body := by
  constructor
  · intro h
    rw [decodeBody] at h
    cases hop : b.head? with
    | none => simp [hop] at h
    | some op =>
      simp only [hop] at h
      split_ifs at h with h0 h1
      · exact isShort_of_decodePut (h0 ▸ hop) h
      · exact isShort_of_decodeDelete (h1 ▸ hop) h
  · rintro ⟨hs, rfl, hb⟩
    rw [← List.take_append_drop e.body.length b, hb, decodeBody]
    cases e with
    | put k v => exact decodePut_body hs.1 hs.2 _
    | delete k => exact decodeDelete_body hs _

/-- Where the body decoder returns no entry it returns `WalError::Error`: every slice it
takes is within the bytes. -/
theorem decodeBody_eq_error {b : Bytes} {x : Fault WalError} (h : decodeBody b = .error x) :
    x = .err .error := by
  rw [decodeBody] at h
  cases hop : b.head? with
  | none => simpa [hop] using h.symm
  | some op =>
    simp only [hop] at h
    split_ifs at h
    · rw [decodePut_eq] at h
      split_ifs at h <;> simpa using h.symm
    · rw [decodeDelete_eq] at h
      split_ifs at h <;> simpa using h.symm
    · simpa using h.symm

theorem length_body_lt {e : WalEntry} (h : e.IsShort) : e.body.length < 2 ^ 34 := by
  cases e with
  | put k v =>
    obtain ⟨hk, hv⟩ := h
    rw [Short] at hk hv
    rw [length_body_put]
    omega
  | delete k =>
    rw [IsShort, Short] at h
    rw [length_body_delete]
    omega

/-- **What `decode` does after the body has been read.** -/
theorem decode_of_body {b : Bytes} {e : WalEntry} {n : ℕ} (h : decodeBody b = .ok (e, n)) :
    decode b =
      if b.length < n + 4 then .error (.err .error)
      else if (crc32 e.body).toNat ≠ leValue (field b n 4) then .error (.err .checksum)
      else .ok (e, n + 4) := by
  obtain ⟨hs, hn, hb⟩ := decodeBody_eq_ok_iff.mp h
  have hlt := length_body_lt hs
  rw [← hn] at hlt
  rw [decode, h, ok_bind]
  simp only
  rw [usizeAdd_ok (by omega), ok_bind]
  split
  · rfl
  · rename_i hlen
    rw [readU32_ok (by omega) (by omega), ok_bind, slice_eq_field (by omega) (by omega), ok_bind,
      Nat.sub_zero, field_zero, hb]
    rfl

/-- **What `decode` accepts**: exactly the byte strings that begin with the encoding
of an entry that fits the length fields. It returns that entry and the length of its
encoding. -/
theorem decode_eq_ok_iff {b : Bytes} {e : WalEntry} {n : ℕ} :
    decode b = .ok (e, n) ↔ e.IsShort ∧ n = e.encode.length ∧ b.take n = e.encode := by
  constructor
  · intro h
    obtain ⟨⟨e', m⟩, hbody, -⟩ := bind_eq_ok.mp h
    obtain ⟨hs, hm, hb⟩ := decodeBody_eq_ok_iff.mp hbody
    rw [decode_of_body hbody] at h
    split_ifs at h with hlen hsum
    simp only [Except.ok.injEq, Prod.mk.injEq] at h
    obtain ⟨rfl, rfl⟩ := h
    rw [ne_eq, not_not] at hsum
    -- the four bytes behind the body are those of its checksum
    refine ⟨hs, by rw [length_encode, hm], ?_⟩
    rw [encode, hsum, leBytes_leValue_field (by omega), ← hb]
    exact field_add b 0 m 4 |>.trans (by rw [Nat.zero_add]; rfl)
  · rintro ⟨hs, rfl, hb⟩
    have hlen : e.encode.length ≤ b.length := by
      have := congrArg List.length hb
      rw [List.length_take] at this
      omega
    -- the bytes begin with the body and go on with its checksum
    have hbody : decodeBody b = .ok (e, e.body.length) := by
      refine decodeBody_eq_ok_iff.mpr ⟨hs, rfl, ?_⟩
      have htake : b.take e.body.length = (b.take e.encode.length).take e.body.length := by
        rw [List.take_take, length_encode, min_eq_left (by omega)]
      rw [htake, hb, encode, take_append_length rfl]
    have hstored : field b e.body.length 4 = leBytes 4 (crc32 e.body).toNat := by
      have hsplit := field_add b 0 e.body.length 4
      rw [← length_encode, field_zero, field_zero, hb, Nat.zero_add,
        (decodeBody_eq_ok_iff.mp hbody).2.2, encode] at hsplit
      exact (List.append_cancel_left hsplit).symm
    have hsum : leValue (field b e.body.length 4) = (crc32 e.body).toNat := by
      rw [hstored, leValue_leBytes_of_lt]
      exact lt_of_lt_of_eq (UInt32.toNat_lt _) (by norm_num)
    rw [decode_of_body hbody, hsum, if_neg (by rw [length_encode] at hlen; omega), if_neg (by simp),
      length_encode]

/-- **`decode` undoes `encode`**, with any bytes following. -/
theorem decode_encode_append {e : WalEntry} (h : e.IsShort) (rest : Bytes) :
    decode (e.encode ++ rest) = .ok (e, e.encode.length) :=
  decode_eq_ok_iff.mpr ⟨h, rfl, take_append_length rfl rest⟩

/-- **A strict leading part of an encoding is too short**, wherever it was cut: in the tag,
a length, the key, the value or the checksum. -/
theorem decode_take_encode {e : WalEntry} (h : e.IsShort) {n : ℕ} (hn : n < e.encode.length) :
    decode (e.encode.take n) = .error (.err .error) := by
  cases hbody : decodeBody (e.encode.take n) with
  | error x =>
    obtain rfl := decodeBody_eq_error hbody
    rw [decode, hbody, error_bind]
  | ok r =>
    obtain ⟨e', m⟩ := r
    obtain ⟨hs', hm, htake⟩ := decodeBody_eq_ok_iff.mp hbody
    rw [decode_of_body hbody, if_pos]
    by_contra hlen
    rw [List.length_take] at hlen
    -- a whole body is also what the whole encoding begins with, so it is that of `e`
    have hwhole : decodeBody e.encode = .ok (e', m) := by
      refine decodeBody_eq_ok_iff.mpr ⟨hs', hm, ?_⟩
      rw [← htake, List.take_take, min_eq_left (by omega)]
    have hsame : decodeBody e.encode = .ok (e, e.body.length) :=
      decodeBody_eq_ok_iff.mpr ⟨h, rfl, by rw [encode, take_append_length rfl]⟩
    rw [hwhole] at hsame
    have hbodies : m = e.body.length := (Prod.mk.inj (Except.ok.inj hsame)).2
    rw [length_encode] at hn hlen
    omega

/-- Entries whose encodings begin alike are one. -/
theorem eq_of_encode_prefix {e e' : WalEntry} (h : e.IsShort) (h' : e'.IsShort)
    (hpre : e.encode <+: e'.encode) : e = e' := by
  obtain ⟨rest, hrest⟩ := hpre
  have hd := decode_encode_append h rest
  have hd' : decode (e.encode ++ rest) = .ok (e', e'.encode.length) := by
    simpa [hrest] using decode_encode_append h' []
  rw [hd] at hd'
  exact (Prod.mk.inj (Except.ok.inj hd')).1

/-- **The entry format is unambiguous**: `decode` accepts nothing but encodings and
undoes them, and no encoding is a leading part of another. -/
theorem decode_unambiguous (b : Bytes) (e : WalEntry) (n : ℕ) :
    (decode b = .ok (e, n) ↔ e.IsShort ∧ n = e.encode.length ∧ b.take n = e.encode) ∧
      ∀ e' : WalEntry, e.IsShort → e'.IsShort → e.encode <+: e'.encode → e = e' :=
  ⟨decode_eq_ok_iff, fun _ => eq_of_encode_prefix⟩

/-- An entry with a byte behind it, and two entries of one key. -/
theorem decode_unambiguous_behind :
    decode ((delete [1]).encode ++ [0]) = .ok (delete [1], 10) ∧
      ¬(delete [1]).encode <+: (put [1] []).encode := by
  obtain ⟨hdecode, hother⟩ := decode_unambiguous ((delete [1]).encode ++ [0]) (delete [1]) 10
  refine ⟨hdecode.mpr ⟨by decide, by decide +kernel, by decide +kernel⟩, fun hpre => ?_⟩
  exact absurd (hother (put [1] []) (by decide) (by decide) hpre) (by decide)

/-- The decoder never panics. -/
theorem decode_ne_panic (b : Bytes) : decode b ≠ .error .panic := by
  intro h
  cases hbody : decodeBody b with
  | error x =>
    rw [decode, hbody, error_bind, decodeBody_eq_error hbody] at h
    simp at h
  | ok r =>
    obtain ⟨e, n⟩ := r
    rw [decode_of_body hbody] at h
    split_ifs at h <;> simp at h

end WalEntry

end Tabula
