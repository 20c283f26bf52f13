import Mathlib.Data.List.Lex
import Mathlib.Data.List.Pairwise
import Mathlib.Data.List.Sort
import Mathlib.Algebra.GroupWithZero.Nat
import Mathlib.Tactic.Common

/-!
# Sorted tables, and the first table that answers

An ordered map kept as a list of pairs in strictly ascending key order, over any
linear order of keys. `SortedTable.lookup` is the map the list stands for.

The second half is about a *stack* of tables that are searched one after the
other: `SortedTable.firstHit` is the answer of the first table that holds the
key. The order of the stack only matters for keys whose holders disagree, and
`SortedTable.firstHit_eq_of_forall` is the form in which that is used.
-/

namespace SortedTable

variable {K V : Type*} [LinearOrder K]

/-- The keys of the list ascend strictly. -/
def StrictSorted (l : List (K × V)) : Prop := l.Pairwise fun r s => r.1 < s.1

instance (l : List (K × V)) : Decidable (StrictSorted l) :=
  inferInstanceAs (Decidable (l.Pairwise fun r s => r.1 < s.1))

/-- The value the list holds for a key: that of the first pair with the key. -/
def lookup (k : K) : List (K × V) → Option V
  | [] => none
  | r :: l => if r.1 = k then some r.2 else lookup k l

/-- Put a pair in its place, over the one that has its key if there is one. -/
def insert (k : K) (v : V) : List (K × V) → List (K × V)
  | [] => [(k, v)]
  | r :: l =>
      if k < r.1 then (k, v) :: r :: l
      else if r.1 = k then (k, v) :: l
      else r :: insert k v l

/-! ### Lookups -/

@[simp] theorem lookup_nil (k : K) : lookup k ([] : List (K × V)) = none := rfl

theorem lookup_cons (k : K) (r : K × V) (l : List (K × V)) :
    lookup k (r :: l) = if r.1 = k then some r.2 else lookup k l := rfl

theorem lookup_cons_self (k : K) (v : V) (l : List (K × V)) :
    lookup k ((k, v) :: l) = some v := by
  rw [lookup_cons, if_pos rfl]

theorem lookup_cons_of_ne {k : K} {r : K × V} (h : r.1 ≠ k) (l : List (K × V)) :
    lookup k (r :: l) = lookup k l := by
  rw [lookup_cons, if_neg h]

theorem lookup_append (k : K) (l l' : List (K × V)) :
    lookup k (l ++ l') = (lookup k l).or (lookup k l') := by
  induction l with
  | nil => simp
  | cons r l ih =>
    rw [List.cons_append, lookup_cons, lookup_cons, ih]
    split <;> simp

theorem mem_of_lookup {k : K} {v : V} {l : List (K × V)} (h : lookup k l = some v) :
    (k, v) ∈ l := by
  induction l with
  | nil => simp at h
  | cons r l ih =>
    rw [lookup_cons] at h
    split at h
    · rename_i hk
      obtain rfl : r.2 = v := by simpa using h
      rw [← hk]
      exact List.mem_cons_self
    · exact List.mem_cons_of_mem _ (ih h)

theorem lookup_eq_none_iff {k : K} {l : List (K × V)} :
    lookup k l = none ↔ ∀ r ∈ l, r.1 ≠ k := by
  induction l with
  | nil => simp
  | cons r l ih =>
    rw [lookup_cons]
    split
    · rename_i hk
      simp [hk]
    · rename_i hk
      simpa [hk] using ih

theorem lookup_isSome_of_mem {r : K × V} {l : List (K × V)} (h : r ∈ l) :
    (lookup r.1 l).isSome := by
  rw [Option.isSome_iff_ne_none, ne_eq, lookup_eq_none_iff]
  exact fun hn => hn r h rfl

/-- **In a strictly sorted list a pair is the answer for its key.** -/
theorem lookup_eq_some_iff {k : K} {v : V} {l : List (K × V)} (hs : StrictSorted l) :
    lookup k l = some v ↔ (k, v) ∈ l := by
  refine ⟨mem_of_lookup, fun hm => ?_⟩
  induction l with
  | nil => simp at hm
  | cons r l ih =>
    obtain ⟨hr, hs⟩ := List.pairwise_cons.mp hs
    rcases List.mem_cons.mp hm with rfl | hm
    · exact lookup_cons_self k v l
    · rw [lookup_cons_of_ne (ne_of_lt (hr _ hm)), ih hs hm]

theorem StrictSorted.tail {r : K × V} {l : List (K × V)} (h : StrictSorted (r :: l)) :
    StrictSorted l := (List.pairwise_cons.mp h).2

theorem StrictSorted.lt_of_mem_tail {r s : K × V} {l : List (K × V)}
    (h : StrictSorted (r :: l)) (hs : s ∈ l) : r.1 < s.1 := (List.pairwise_cons.mp h).1 s hs

theorem lookup_eq_none_of_lt {k : K} {l : List (K × V)} (h : ∀ r ∈ l, k < r.1) :
    lookup k l = none :=
  lookup_eq_none_iff.mpr fun r hr he => absurd (h r hr) (by rw [he]; exact lt_irrefl k)

/-- Below the first key there is nothing. -/
theorem lookup_eq_none_of_lt_head {k : K} {r : K × V} {l : List (K × V)}
    (hs : StrictSorted (r :: l)) (h : k < r.1) : lookup k (r :: l) = none := by
  refine lookup_eq_none_of_lt fun s hm => ?_
  rcases List.mem_cons.mp hm with rfl | hm
  · exact h
  · exact lt_trans h (hs.lt_of_mem_tail hm)

/-- **A sorted table is the map it stands for.** -/
theorem eq_of_lookup_eq {l l' : List (K × V)} (hs : StrictSorted l) (hs' : StrictSorted l')
    (h : ∀ k, lookup k l = lookup k l') : l = l' := by
  have hmem : ∀ r, r ∈ l ↔ r ∈ l' := fun r => by
    rw [← lookup_eq_some_iff hs, ← lookup_eq_some_iff hs', h]
  have hnodup : ∀ {l : List (K × V)}, StrictSorted l → l.Nodup := fun hs =>
    hs.imp fun hlt he => absurd hlt (by rw [he]; exact lt_irrefl _)
  refine ((List.perm_ext_iff_of_nodup (hnodup hs) (hnodup hs')).mpr hmem).eq_of_pairwise ?_ hs hs'
  exact fun r s _ _ hrs hsr => absurd hrs (lt_asymm hsr)

/-! ### Insertion -/

theorem lookup_insert (k k' : K) (v : V) (l : List (K × V)) :
    lookup k' (insert k v l) = if k = k' then some v else lookup k' l := by
  induction l with
  | nil => rfl
  | cons r l ih =>
    rw [insert]
    split
    · rw [lookup_cons]
    · split
      · rename_i _ hk
        rw [lookup_cons, lookup_cons, hk]
        split <;> rfl
      · rename_i _ hk
        rw [lookup_cons, lookup_cons, ih]
        split
        · rename_i hr
          rw [if_neg (fun he => hk (hr.trans he.symm))]
        · rfl

theorem mem_insert {k : K} {v : V} {l : List (K × V)} {r : K × V} (h : r ∈ insert k v l) :
    r = (k, v) ∨ r ∈ l := by
  induction l with
  | nil => simpa [insert] using h
  | cons s l ih =>
    rw [insert] at h
    split at h
    · simpa using h
    · split at h
      · rcases List.mem_cons.mp h with h | h
        · exact Or.inl h
        · exact Or.inr (List.mem_cons_of_mem _ h)
      · rcases List.mem_cons.mp h with rfl | h
        · exact Or.inr List.mem_cons_self
        · exact (ih h).imp_right (List.mem_cons_of_mem _)

theorem insert_ne_nil (k : K) (v : V) (l : List (K × V)) : insert k v l ≠ [] := by
  cases l with
  | nil => simp [insert]
  | cons r l =>
    rw [insert]
    split
    · simp
    · split <;> simp

/-- What the entries weigh, an insert raises by the weight of its own entry at most. -/
theorem sum_insert_le (weight : K × V → ℕ) (k : K) (v : V) (l : List (K × V)) :
    ((insert k v l).map weight).sum ≤ (l.map weight).sum + weight (k, v) := by
  induction l with
  | nil => simp [insert]
  | cons r l ih =>
    rw [insert]
    split
    · simp only [List.map_cons, List.sum_cons]
      omega
    · split
      · simp only [List.map_cons, List.sum_cons]
        omega
      · simp only [List.map_cons, List.sum_cons]
        omega

theorem StrictSorted.insert {l : List (K × V)} (h : StrictSorted l) (k : K) (v : V) :
    StrictSorted (insert k v l) := by
  induction l with
  | nil => exact List.pairwise_singleton _ _
  | cons r l ih =>
    obtain ⟨hr, hl⟩ := List.pairwise_cons.mp h
    rw [SortedTable.insert]
    split
    · rename_i hk
      refine List.pairwise_cons.mpr ⟨fun s hs => ?_, h⟩
      rcases List.mem_cons.mp hs with rfl | hs
      · exact hk
      · exact lt_trans hk (hr s hs)
    · split
      · rename_i _ hk
        exact List.pairwise_cons.mpr ⟨fun s hs => hk ▸ hr s hs, hl⟩
      · rename_i hlt hk
        refine List.pairwise_cons.mpr ⟨fun s hs => ?_, ih hl⟩
        rcases mem_insert hs with rfl | hs
        · exact lt_of_le_of_ne (not_lt.mp hlt) hk
        · exact hr s hs

/-! ### Stacks of tables -/

/-- The answer of the first table of the stack that holds the key. -/
def firstHit (ts : List (List (K × V))) (k : K) : Option V := ts.findSome? (lookup k)

@[simp] theorem firstHit_nil (k : K) : firstHit ([] : List (List (K × V))) k = none := rfl

theorem firstHit_cons (t : List (K × V)) (ts : List (List (K × V))) (k : K) :
    firstHit (t :: ts) k = (lookup k t).or (firstHit ts k) := by
  rw [firstHit, List.findSome?_cons]
  cases lookup k t <;> rfl

@[simp] theorem firstHit_append (ts us : List (List (K × V))) (k : K) :
    firstHit (ts ++ us) k = (firstHit ts k).or (firstHit us k) := by
  induction ts with
  | nil => simp
  | cons t ts ih => rw [List.cons_append, firstHit_cons, firstHit_cons, ih, Option.or_assoc]

theorem firstHit_eq_none_iff {ts : List (List (K × V))} {k : K} :
    firstHit ts k = none ↔ ∀ t ∈ ts, lookup k t = none := by
  rw [firstHit, List.findSome?_eq_none_iff]

theorem exists_of_firstHit {ts : List (List (K × V))} {k : K} {v : V}
    (h : firstHit ts k = some v) : ∃ t ∈ ts, lookup k t = some v :=
  List.exists_of_findSome?_eq_some h

/-- The table that answers is the first one that holds the key. -/
theorem firstHit_of_first {ts : List (List (K × V))} {i : ℕ} {t : List (K × V)} {k : K} {v : V}
    (ht : ts[i]? = some t) (h : lookup k t = some v)
    (hlt : ∀ j < i, ∀ u, ts[j]? = some u → lookup k u = none) : firstHit ts k = some v := by
  induction ts generalizing i with
  | nil => simp at ht
  | cons u ts ih =>
    rw [firstHit_cons]
    cases i with
    | zero =>
      obtain rfl : u = t := by simpa using ht
      rw [h, Option.some_or]
    | succ i =>
      rw [hlt 0 (by omega) u (by simp), Option.none_or]
      exact ih (by simpa using ht) fun j hj w hw => hlt (j + 1) (by omega) w (by simpa using hw)

/-- Stacks that agree table by table on a key answer it alike. -/
theorem firstHit_map_congr {ι : Type*} {l : List ι} {f g : ι → List (K × V)} {k : K}
    (h : ∀ i ∈ l, lookup k (f i) = lookup k (g i)) :
    firstHit (l.map f) k = firstHit (l.map g) k := by
  induction l with
  | nil => rfl
  | cons i l ih =>
    rw [List.map_cons, List.map_cons, firstHit_cons, firstHit_cons, h i List.mem_cons_self,
      ih fun j hj => h j (List.mem_cons_of_mem _ hj)]

/-- **Only the holders of a key matter for its answer.** -/
theorem firstHit_map_filter {ι : Type*} {l : List ι} {p : ι → Bool} {f : ι → List (K × V)} {k : K}
    (h : ∀ i ∈ l, p i = false → lookup k (f i) = none) :
    firstHit ((l.filter p).map f) k = firstHit (l.map f) k := by
  induction l with
  | nil => rfl
  | cons i l ih =>
    have ih := ih fun j hj => h j (List.mem_cons_of_mem _ hj)
    cases hp : p i with
    | true =>
      rw [List.filter_cons_of_pos hp, List.map_cons, List.map_cons, firstHit_cons, firstHit_cons,
        ih]
    | false =>
      rw [List.filter_cons_of_neg (by simp [hp]), List.map_cons, firstHit_cons, ih,
        h i List.mem_cons_self hp, Option.none_or]

/-- The order of the stack does not decide whether there is an answer. -/
theorem firstHit_reverse_eq_none_iff {ts : List (List (K × V))} {k : K} :
    firstHit ts.reverse k = none ↔ firstHit ts k = none := by
  simp only [firstHit_eq_none_iff, List.mem_reverse]

/-- **A stack whose tables agree on a key answers as they do**, in whatever order it
is searched: every table says `x` or nothing, and one says `x`. -/
theorem firstHit_eq_of_forall {ts : List (List (K × V))} {k : K} {x : Option V}
    (h : ∀ t ∈ ts, lookup k t = none ∨ lookup k t = x) (hx : ∃ t ∈ ts, lookup k t = x) :
    firstHit ts k = x := by
  induction ts with
  | nil => simp at hx
  | cons t ts ih =>
    rw [firstHit_cons]
    have hrest : ∀ u ∈ ts, lookup k u = none ∨ lookup k u = x :=
      fun u hu => h u (List.mem_cons_of_mem _ hu)
    rcases h t List.mem_cons_self with ht | ht
    · rw [ht, Option.none_or]
      obtain ⟨u, hu, hlu⟩ := hx
      rcases List.mem_cons.mp hu with rfl | hu
      · -- the table that says `x` says nothing, so they all do
        obtain rfl : x = none := hlu.symm.trans ht
        exact firstHit_eq_none_iff.mpr fun u hu => (hrest u hu).elim id id
      · exact ih hrest ⟨u, hu, hlu⟩
    · rw [ht]
      cases x with
      | some v => rfl
      | none =>
        rw [Option.none_or]
        exact firstHit_eq_none_iff.mpr fun u hu => (hrest u hu).elim id id

/-- **Tables that do not contradict each other may be searched in any order.** -/
theorem firstHit_perm {ts us : List (List (K × V))} (hperm : us.Perm ts) {k : K}
    (h : ts.Pairwise fun t u => ∀ v w, lookup k t = some v → lookup k u = some w → v = w) :
    firstHit us k = firstHit ts k := by
  cases hx : firstHit ts k with
  | none =>
    rw [firstHit_eq_none_iff] at hx ⊢
    exact fun t ht => hx t (hperm.mem_iff.mp ht)
  | some v =>
    obtain ⟨t, ht, hv⟩ := exists_of_firstHit hx
    refine firstHit_eq_of_forall (fun u hu => ?_) ⟨t, hperm.mem_iff.mpr ht, hv⟩
    cases hw : lookup k u with
    | none => exact Or.inl rfl
    | some w =>
      -- the order in which the two tables stand does not matter
      have hflip : ts.Pairwise fun t u =>
          ∀ v w, lookup k u = some v → lookup k t = some w → v = w :=
        h.imp fun h v w hv hw => (h w v hw hv).symm
      have hagree := List.Pairwise.forall_of_forall_of_flip
        (fun t _ v w hv hw => Option.some.inj (hv.symm.trans hw)) h hflip
      exact Or.inr (congrArg some (hagree ht (hperm.mem_iff.mp hu) v w hv hw).symm)

/-! ### Tables without a key in common -/

/-- The tables have no key in common. -/
def KeysApart (t u : List (K × V)) : Prop := ∀ k v w, (k, v) ∈ t → (k, w) ∉ u

instance : Std.Symm (KeysApart (K := K) (V := V)) where
  symm _ _ h k v w hv hw := h k w v hw hv

variable {ts : List (List (K × V))} (hs : ∀ t ∈ ts, StrictSorted t) (hapart : ts.Pairwise KeysApart)

include hs hapart

/-- **A stack of such tables says what their records are**, in whatever order it is searched. -/
theorem firstHit_eq_some_iff {k : K} {v : V} : firstHit ts k = some v ↔ (k, v) ∈ ts.flatten := by
  constructor
  · intro h
    obtain ⟨t, ht, hv⟩ := exists_of_firstHit h
    exact List.mem_flatten.mpr ⟨t, ht, mem_of_lookup hv⟩
  · intro h
    obtain ⟨t, ht, hv⟩ := List.mem_flatten.mp h
    have hv' := (lookup_eq_some_iff (hs t ht)).mpr hv
    refine firstHit_eq_of_forall (fun u hu => ?_) ⟨t, ht, hv'⟩
    cases hw : lookup k u with
    | none => exact Or.inl rfl
    | some w =>
      -- a table with the key is this one
      by_cases htu : t = u
      · subst htu
        exact Or.inr (hw.symm.trans hv')
      · exact absurd (mem_of_lookup hw) (hapart.forall ht hu htu k v w hv)

/-- Each key is there once. -/
theorem nodup_keys_flatten : (ts.flatten.map Prod.fst).Nodup := by
  induction ts with
  | nil => exact List.nodup_nil
  | cons t ts ih =>
    obtain ⟨hhead, htail⟩ := List.pairwise_cons.mp hapart
    rw [List.flatten_cons, List.map_append, List.nodup_append]
    refine ⟨List.pairwise_map.mpr ((hs t List.mem_cons_self).imp ne_of_lt),
      ih (fun u hu => hs u (List.mem_cons_of_mem _ hu)) htail, ?_⟩
    rintro k hk _ hk' rfl
    obtain ⟨⟨_, v⟩, hv, rfl⟩ := List.mem_map.mp hk
    obtain ⟨⟨_, w⟩, hw, rfl⟩ := List.mem_map.mp hk'
    obtain ⟨u, hu, hw⟩ := List.mem_flatten.mp hw
    exact hhead u hu _ v w hv hw

end SortedTable
