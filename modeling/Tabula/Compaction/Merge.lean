import Tabula.Types
import Tabula.Lib.MinQueue

/-!
# The k-way merge

The loop of `merge_sstables` (`src/compaction.rs`) on the records its iterators
yield: one head per source in a heap, the smallest key popped first, every other
head with that key drained, the value of the lowest source kept, the consumed
sources pulled again, and tombstones dropped on the way out. The heap is any
`MinQueue` on the keys, as `BinaryHeap` says nothing about the order of equal
keys.

The invariant is `Tabula.Merge.Tracks`: the heap and the iterators together are
the *streams*, what every source still has to give, its head in the heap and its
tail in the iterator. Popping and pulling are the two moves between them, and
between the two a source is *pending*. Over the streams the loop is short: the
least key leaves all of them at once (`Tabula.Merge.Advanced`). The result is
`Tabula.lookup_merge`: the merged table answers what the first source to hold the
key answers, and has no tombstones.
-/

namespace Tabula

open SortedTable

/-- One current head, of one reader's stream. -/
structure HeapEntry where
  key : Key
  value : Value
  sourceIndex : ℕ
  deriving DecidableEq, Repr

/-- `BinaryHeap<HeapEntry>`: its order is reversed and on the key alone, so the
smallest key pops first, and `peek` shows the entry `pop` would take. -/
abbrev MergeHeap := MinQueue HeapEntry.key

namespace Merge

/-- What the iterators of the sources have left, and the heap of heads. -/
structure State where
  iters : List (List Record)
  heap : List HeapEntry

/-- The value to keep for the current key, its source, and the sources whose heads
are gone. -/
structure Winner where
  bestValue : Value
  bestSource : ℕ
  consumedSources : List ℕ

variable (H : MergeHeap)

/-- `if let Some((key, value)) = iters[source].next() { heap.push(..) }`. A source
index is a position of `iters`, so the access cannot be out of range. -/
def pull (st : State) (source : ℕ) : State :=
  match st.iters[source]? with
  | some (r :: rest) =>
      { iters := st.iters.set source rest, heap := H.push ⟨r.1, r.2, source⟩ st.heap }
  | _ => st

/-- One head from every source. -/
def start (iters : List (List Record)) : State :=
  (List.range iters.length).foldl (pull H) ⟨iters, []⟩

/-- What a drained head changes: a lower source takes over. -/
def Winner.next (w : Winner) (e : HeapEntry) : Winner where
  bestValue := if e.sourceIndex < w.bestSource then e.value else w.bestValue
  bestSource := if e.sourceIndex < w.bestSource then e.sourceIndex else w.bestSource
  consumedSources := w.consumedSources ++ [e.sourceIndex]

/-- Drain every other head that shares the current key. -/
def drainTies (currentKey : Key) (w : Winner) (heap : List HeapEntry) :
    Winner × List HeapEntry :=
  match _h : H.pop heap with
  | none => (w, heap)
  | some (next, rest) =>
      if next.key ≠ currentKey then (w, heap) else drainTies currentKey (w.next next) rest
termination_by heap.length
decreasing_by
  rw [H.length_pop _h]
  omega

/-- The winner a popped head starts with. -/
def Winner.first (e : HeapEntry) : Winner := ⟨e.value, e.sourceIndex, [e.sourceIndex]⟩

/-! ### Termination -/

/-- The records that have not left the merge. -/
def State.size (st : State) : ℕ := st.heap.length + (st.iters.map List.length).sum

theorem sum_length_set {iters : List (List Record)} {i : ℕ} {r : Record} {rest : List Record}
    (h : iters[i]? = some (r :: rest)) :
    ((iters.set i rest).map List.length).sum + 1 = (iters.map List.length).sum := by
  induction iters generalizing i with
  | nil => simp at h
  | cons it iters ih =>
    cases i with
    | zero =>
      obtain rfl : it = r :: rest := by simpa using h
      simp
      omega
    | succ i =>
      have := ih (by simpa using h)
      simp only [List.set_cons_succ, List.map_cons, List.sum_cons]
      omega

theorem size_pull (st : State) (source : ℕ) : (pull H st source).size = st.size := by
  rw [pull]
  split
  · rename_i r rest h
    have := sum_length_set h
    simp only [State.size, MinQueue.length_push]
    omega
  · rfl

theorem size_foldl_pull (st : State) (sources : List ℕ) :
    (sources.foldl (pull H) st).size = st.size := by
  induction sources generalizing st with
  | nil => rfl
  | cons i sources ih => rw [List.foldl_cons, ih, size_pull]

theorem length_drainTies (k : Key) (w : Winner) (heap : List HeapEntry) :
    (drainTies H k w heap).2.length ≤ heap.length := by
  fun_induction drainTies H k w heap with
  | case1 => exact le_rfl
  | case2 => exact le_rfl
  | case3 w heap next rest h hk ih =>
    rw [H.length_pop h]
    omega

/-- The loop of `merge_sstables`: the records it adds to the writer. -/
def mergeLoop (st : State) : List Record :=
  match _h : H.pop st.heap with
  | none => []
  | some (first, rest) =>
      let drained := drainTies H first.key (.first first) rest
      let st' := drained.1.consumedSources.foldl (pull H) ⟨st.iters, drained.2⟩
      if isTombstone drained.1.bestValue then mergeLoop st'
      else (first.key, drained.1.bestValue) :: mergeLoop st'
termination_by st.size
decreasing_by
  all_goals
    rw [size_foldl_pull]
    have := H.length_pop _h
    have := length_drainTies H first.key (.first first) rest
    simp only [State.size]
    omega

/-! ### Streams -/

/-- **Heap and iterators are the streams.** A pending source has lost its head and
has not been pulled; all that is left of it is in its iterator. -/
structure Tracks (st : State) (pending : List ℕ) (streams : ℕ → List Record) : Prop where
  heads : ∀ e, e ∈ st.heap ↔
    e.sourceIndex ∉ pending ∧ (streams e.sourceIndex).head? = some (e.key, e.value)
  once : (st.heap.map HeapEntry.sourceIndex).Nodup
  tails : ∀ i, st.iters.getD i [] = if i ∈ pending then streams i else (streams i).tail

/-- The stream of a head, and that it is not pending. -/
theorem Tracks.stream_eq {st : State} {pending : List ℕ} {streams : ℕ → List Record}
    (hT : Tracks st pending streams) {e : HeapEntry} (he : e ∈ st.heap) :
    e.sourceIndex ∉ pending ∧
      streams e.sourceIndex = (e.key, e.value) :: (streams e.sourceIndex).tail := by
  obtain ⟨hp, hh⟩ := (hT.heads e).mp he
  exact ⟨hp, (List.cons_head?_tail hh).symm⟩

/-- **Popping** a head advances its stream and leaves its source pending. -/
theorem Tracks.pop {st : State} {pending : List ℕ} {streams : ℕ → List Record}
    (hT : Tracks st pending streams) {e : HeapEntry} {rest : List HeapEntry}
    (h : H.pop st.heap = some (e, rest)) :
    Tracks ⟨st.iters, rest⟩ (pending ++ [e.sourceIndex])
      (Function.update streams e.sourceIndex (streams e.sourceIndex).tail) := by
  obtain ⟨hp, hstream⟩ := hT.stream_eq ((H.mem_pop h).mpr (Or.inl rfl))
  have honce := (((H.pop_perm h).map HeapEntry.sourceIndex).nodup_iff).mpr hT.once
  obtain ⟨hnew, honce⟩ := List.nodup_cons.mp honce
  refine ⟨fun b => ?_, honce, fun i => ?_⟩
  · by_cases hb : b.sourceIndex = e.sourceIndex
    · -- each source has one head in the heap, so no other is left of this one
      simp only [hb, List.mem_append, List.mem_singleton, or_true, not_true_eq_false, false_and,
        iff_false]
      exact fun hm => hnew (hb ▸ List.mem_map_of_mem hm)
    · have hbe : b ≠ e := fun he => hb (by rw [he])
      rw [Function.update_of_ne hb, ← show b ∈ st.heap ↔ b ∈ rest by
        rw [H.mem_pop h, or_iff_right hbe], hT.heads b]
      simp [hb]
  · rw [hT.tails i]
    by_cases hi : i = e.sourceIndex
    · subst hi
      simp [hp]
    · rw [Function.update_of_ne hi]
      simp [hi]

/-- **Pulling** a pending source puts its head into the heap. -/
theorem Tracks.pull {st : State} {i : ℕ} {pending : List ℕ} {streams : ℕ → List Record}
    (hT : Tracks st (i :: pending) streams) (hi : i ∉ pending) :
    Tracks (pull H st i) pending streams := by
  have htail := hT.tails i
  rw [if_pos List.mem_cons_self] at htail
  have hfresh : i ∉ st.heap.map HeapEntry.sourceIndex := by
    intro hm
    obtain ⟨e, he, rfl⟩ := List.mem_map.mp hm
    exact (hT.stream_eq he).1 List.mem_cons_self
  rw [Merge.pull]
  split
  · rename_i r rest h
    have hlt : i < st.iters.length := (List.getElem?_eq_some_iff.mp h).1
    have hstream : streams i = r :: rest := by rw [← htail, List.getD_eq_getElem?_getD, h]; rfl
    refine ⟨fun b => ?_, ?_, fun j => ?_⟩
    · rw [MinQueue.mem_push, hT.heads b]
      by_cases hb : b.sourceIndex = i
      · rw [hb, hstream]
        simp only [List.mem_cons, not_true_eq_false, false_and, or_false, hi,
          not_false_eq_true, List.head?_cons, Option.some.injEq, true_and]
        constructor
        · rintro rfl
          rfl
        · intro hr
          rw [hr, ← hb]
      · have hne : b ≠ ⟨r.1, r.2, i⟩ := fun he => hb (by rw [he])
        simp [hb, hne]
    · refine (((H.push_perm _ _).map HeapEntry.sourceIndex).nodup_iff).mpr ?_
      exact List.nodup_cons.mpr ⟨hfresh, hT.once⟩
    · by_cases hj : j = i
      · subst hj
        simp [hi, hstream, hlt]
      · have hset : (st.iters.set i rest).getD j [] = st.iters.getD j [] := by
          simp [List.getD_eq_getElem?_getD, List.getElem?_set_ne (Ne.symm hj)]
        rw [hset, hT.tails j]
        simp [hj]
  · rename_i h
    -- the source is exhausted, so it has no head to put in
    have hnil : streams i = [] := by
      rw [← htail, List.getD_eq_getElem?_getD]
      rcases hget : st.iters[i]? with - | it
      · rfl
      · cases it with
        | nil => rfl
        | cons r rest => exact absurd hget (h r rest)
    refine ⟨fun b => ?_, hT.once, fun j => ?_⟩
    · rw [hT.heads b]
      by_cases hb : b.sourceIndex = i
      · simp [hb, hnil]
      · simp [hb]
    · rw [hT.tails j]
      by_cases hj : j = i
      · subst hj
        simp [hnil]
      · simp [hj]

theorem Tracks.foldl_pull {st : State} {pending : List ℕ} {streams : ℕ → List Record}
    (hT : Tracks st pending streams) (hnd : pending.Nodup) :
    Tracks (pending.foldl (Merge.pull H) st) [] streams := by
  induction pending generalizing st with
  | nil => exact hT
  | cons i pending ih =>
    obtain ⟨hi, hnd⟩ := List.nodup_cons.mp hnd
    exact ih (hT.pull H hi) hnd

/-- At the start every source is pending. -/
theorem tracks_start (iters : List (List Record)) :
    Tracks (start H iters) [] fun i => iters.getD i [] := by
  refine Tracks.foldl_pull H ⟨fun e => ?_, List.nodup_nil, fun i => ?_⟩ List.nodup_range
  · simp only [List.not_mem_nil, false_iff, List.mem_range, not_lt, not_and]
    intro hlen
    simp [List.getD_eq_getElem?_getD, List.getElem?_eq_none hlen]
  · simp only [List.mem_range]
    split
    · rfl
    · rename_i hlen
      simp [List.getD_eq_getElem?_getD, List.getElem?_eq_none (not_lt.mp hlen)]

/-! ### One round of the loop -/

/-- The heads with the current key that have been taken out so far, and the winner
among them. -/
structure Draining (k : Key) (streams₀ : ℕ → List Record) (w : Winner)
    (streams : ℕ → List Record) : Prop where
  taken : ∀ i ∈ w.consumedSources, ∃ v, streams₀ i = (k, v) :: streams i
  kept : ∀ i, i ∉ w.consumedSources → streams i = streams₀ i
  once : w.consumedSources.Nodup
  mem : w.bestSource ∈ w.consumedSources
  value : streams₀ w.bestSource = (k, w.bestValue) :: streams w.bestSource
  least : ∀ i ∈ w.consumedSources, w.bestSource ≤ i

theorem draining_first {streams₀ : ℕ → List Record} {e : HeapEntry}
    (h : streams₀ e.sourceIndex = (e.key, e.value) :: (streams₀ e.sourceIndex).tail) :
    Draining e.key streams₀ (.first e)
      (Function.update streams₀ e.sourceIndex (streams₀ e.sourceIndex).tail) := by
  constructor <;> simp [Winner.first, Function.update_apply]
  · exact ⟨e.value, h⟩
  · intro i hi hi'
    exact absurd hi' hi
  · exact h

theorem Draining.next {k : Key} {streams₀ streams : ℕ → List Record} {w : Winner}
    (hD : Draining k streams₀ w streams) {e : HeapEntry} (hk : e.key = k)
    (hnew : e.sourceIndex ∉ w.consumedSources)
    (h : streams e.sourceIndex = (e.key, e.value) :: (streams e.sourceIndex).tail) :
    Draining k streams₀ (w.next e)
      (Function.update streams e.sourceIndex (streams e.sourceIndex).tail) := by
  have h₀ : streams₀ e.sourceIndex = (k, e.value) :: (streams e.sourceIndex).tail := by
    rw [← hD.kept _ hnew, h, hk]
    rfl
  have hne : ∀ i ∈ w.consumedSources, i ≠ e.sourceIndex := fun i hi he => hnew (he ▸ hi)
  constructor
  · intro i hi
    rcases List.mem_append.mp hi with hi | hi
    · rw [Function.update_of_ne (hne i hi)]
      exact hD.taken i hi
    · rw [List.mem_singleton.mp hi, Function.update_self]
      exact ⟨e.value, h₀⟩
  · intro i hi
    simp only [Winner.next, List.mem_append, List.mem_singleton, not_or] at hi
    rw [Function.update_of_ne hi.2]
    exact hD.kept i hi.1
  · exact List.nodup_append.mpr ⟨hD.once, List.nodup_singleton _, fun i hi j hj => by
      rw [List.mem_singleton.mp hj]
      exact hne i hi⟩
  · simp only [Winner.next, List.mem_append, List.mem_singleton]
    split
    · exact Or.inr rfl
    · exact Or.inl hD.mem
  · simp only [Winner.next]
    split
    · rw [Function.update_self]
      exact h₀
    · rw [Function.update_of_ne (hne _ hD.mem)]
      exact hD.value
  · -- the lower of the two indices stays the best
    intro i hi
    simp only [Winner.next, List.mem_append, List.mem_singleton] at hi ⊢
    rcases hi with hi | rfl
    · have := hD.least i hi
      split <;> omega
    · split <;> omega

/-- **Draining takes every head with the current key**, when no key in the heap is
below it. -/
theorem drainTies_spec {k : Key} {streams₀ : ℕ → List Record} {iters : List (List Record)}
    {w : Winner} {heap : List HeapEntry} {streams : ℕ → List Record}
    (hT : Tracks ⟨iters, heap⟩ w.consumedSources streams) (hD : Draining k streams₀ w streams)
    (hmin : ∀ e ∈ heap, k ≤ e.key) :
    ∃ streams', Tracks ⟨iters, (drainTies H k w heap).2⟩
        (drainTies H k w heap).1.consumedSources streams' ∧
      Draining k streams₀ (drainTies H k w heap).1 streams' ∧
      ∀ e ∈ (drainTies H k w heap).2, e.key ≠ k := by
  fun_induction drainTies H k w heap generalizing streams with
  | case1 w heap h => exact ⟨streams, hT, hD, by simp [H.pop_eq_none h]⟩
  | case2 w heap next rest h hk =>
    -- the least head left is above `k`, so all are
    refine ⟨streams, hT, hD, fun e he heq => ?_⟩
    have hle := H.pop_le_of_mem h he
    have hge := hmin next ((H.mem_pop h).mpr (Or.inl rfl))
    rw [heq] at hle
    exact hk (le_antisymm hle hge)
  | case3 w heap next rest h hk ih =>
    obtain ⟨hp, hstream⟩ := hT.stream_eq ((H.mem_pop h).mpr (Or.inl rfl))
    refine ih (hT.pop H h) (hD.next (not_not.mp hk) hp hstream) fun e he => ?_
    exact hmin e ((H.mem_pop h).mpr (Or.inr he))

/-- What one round does to a stream: a head with the current key is gone, and a
stream without one is unchanged. -/
def Advanced (k : Key) (s s' : List Record) : Prop :=
  (∃ v, s = (k, v) :: s') ∨ (s' = s ∧ ∀ r ∈ s, k < r.1)

theorem Advanced.lt {k : Key} {s s' : List Record} (h : Advanced k s s') (hs : StrictSorted s) :
    ∀ r ∈ s', k < r.1 := by
  rcases h with ⟨v, rfl⟩ | ⟨rfl, h⟩
  · exact fun r hr => hs.lt_of_mem_tail hr
  · exact h

theorem Advanced.sorted {k : Key} {s s' : List Record} (h : Advanced k s s')
    (hs : StrictSorted s) : StrictSorted s' := by
  rcases h with ⟨v, rfl⟩ | ⟨rfl, -⟩
  · exact hs.tail
  · exact hs

theorem Advanced.eq_nil {k : Key} {s s' : List Record} (h : Advanced k s s') (hs : s = []) :
    s' = [] := by
  rcases h with ⟨v, rfl⟩ | ⟨rfl, -⟩
  · exact absurd hs (List.cons_ne_nil _ _)
  · exact hs

theorem Advanced.lookup_of_ne {k k' : Key} {s s' : List Record} (h : Advanced k s s')
    (hne : k ≠ k') : lookup k' s' = lookup k' s := by
  rcases h with ⟨v, rfl⟩ | ⟨rfl, -⟩
  · exact (lookup_cons_of_ne hne s').symm
  · rfl

/-- **One round of the loop**: the least key leaves all streams, and the value kept
is that of the first stream that had it. -/
theorem exists_round {st : State} {streams : ℕ → List Record} (hT : Tracks st [] streams)
    (hs : ∀ i, StrictSorted (streams i)) {first : HeapEntry} {rest : List HeapEntry}
    (h : H.pop st.heap = some (first, rest)) :
    ∃ streams', Tracks ((drainTies H first.key (.first first) rest).1.consumedSources.foldl
        (pull H) ⟨st.iters, (drainTies H first.key (.first first) rest).2⟩) [] streams' ∧
      (∀ i, Advanced first.key (streams i) (streams' i)) ∧
      ∃ i, lookup first.key (streams i) =
          some (drainTies H first.key (.first first) rest).1.bestValue ∧
        ∀ j < i, lookup first.key (streams j) = none := by
  obtain ⟨-, hstream⟩ := hT.stream_eq ((H.mem_pop h).mpr (Or.inl rfl))
  obtain ⟨streams', hT', hD, hend⟩ := drainTies_spec H (hT.pop H h) (draining_first hstream)
    fun e he => H.pop_le h e he
  set drained := drainTies H first.key (.first first) rest with hdrained
  -- a stream that was not consumed opens with a greater key, or is empty
  have hlater : ∀ i, i ∉ drained.1.consumedSources → ∀ r ∈ streams i, first.key < r.1 := by
    intro i hi r hr
    cases hsi : streams i with
    | nil => simp [hsi] at hr
    | cons r₀ tail =>
      have hhead : first.key < r₀.1 := by
        have hmem : (⟨r₀.1, r₀.2, i⟩ : HeapEntry) ∈ st.heap :=
          (hT.heads _).mpr ⟨List.not_mem_nil, by simp [hsi]⟩
        have hin : (⟨r₀.1, r₀.2, i⟩ : HeapEntry) ∈ drained.2 :=
          (hT'.heads _).mpr ⟨hi, by simp [hD.kept i hi, hsi]⟩
        exact lt_of_le_of_ne (H.pop_le_of_mem h hmem) (Ne.symm (hend _ hin))
      rcases List.mem_cons.mp (hsi ▸ hr) with rfl | hr
      · exact hhead
      · have hsorted := hs i
        rw [hsi] at hsorted
        exact lt_trans hhead (hsorted.lt_of_mem_tail hr)
  refine ⟨streams', hT'.foldl_pull H hD.once, fun i => ?_, drained.1.bestSource, ?_, ?_⟩
  · by_cases hi : i ∈ drained.1.consumedSources
    · exact Or.inl (hD.taken i hi)
    · exact Or.inr ⟨hD.kept i hi, hlater i hi⟩
  · rw [hD.value]
    exact lookup_cons_self ..
  · intro j hj
    have hj : j ∉ drained.1.consumedSources := fun hm => by
      have := hD.least j hm
      omega
    exact lookup_eq_none_of_lt (hlater j hj)

/-! ### The whole loop -/

/-- What a round leaves to the rest of the loop: for the current key nothing, for
every other key the same answer. -/
theorem lookup_rest {streams streams' : ℕ → List Record} {n : ℕ} {k : Key} {out : List Record}
    (hs : ∀ i, StrictSorted (streams i)) (hadv : ∀ i, Advanced k (streams i) (streams' i))
    (hout : ∀ k', lookup k' out = visible (firstHit ((List.range n).map streams') k')) :
    (∀ r ∈ out, k < r.1) ∧
      ∀ k', k ≠ k' → lookup k' out = visible (firstHit ((List.range n).map streams) k') := by
  refine ⟨fun r hr => ?_, fun k' hne => ?_⟩
  · have hsome := lookup_isSome_of_mem hr
    rw [hout r.1] at hsome
    obtain ⟨v, hv⟩ := Option.isSome_iff_exists.mp hsome
    obtain ⟨hv, -⟩ := Option.filter_eq_some_iff.mp hv
    obtain ⟨t, ht, hl⟩ := exists_of_firstHit hv
    obtain ⟨i, -, rfl⟩ := List.mem_map.mp ht
    exact (hadv i).lt (hs i) (r.1, v) (mem_of_lookup hl)
  · rw [hout k', firstHit_map_congr fun i _ => (hadv i).lookup_of_ne hne]

/-- The winner of a round is the first stream's answer for the current key. -/
theorem firstHit_range {streams : ℕ → List Record} {n : ℕ} (hn : ∀ i, n ≤ i → streams i = [])
    {k : Key} {v : Value} {i : ℕ} (hi : lookup k (streams i) = some v)
    (hlt : ∀ j < i, lookup k (streams j) = none) :
    firstHit ((List.range n).map streams) k = some v := by
  have hin : i < n := by
    by_contra hge
    rw [hn i (not_lt.mp hge)] at hi
    simp at hi
  refine firstHit_of_first (i := i) (by simp [hin]) hi fun j hj u hu => ?_
  obtain rfl : streams j = u := by
    have hjn : j < n := by omega
    simpa [hjn] using hu
  exact hlt j hj

/-- **The merge answers for the first stream that holds the key**, and keeps the
keys in order. The induction is on the rounds. -/
theorem mergeLoop_spec {st : State} {streams : ℕ → List Record} {n : ℕ}
    (hT : Tracks st [] streams) (hs : ∀ i, StrictSorted (streams i))
    (hn : ∀ i, n ≤ i → streams i = []) :
    StrictSorted (mergeLoop H st) ∧
      ∀ k, lookup k (mergeLoop H st) = visible (firstHit ((List.range n).map streams) k) := by
  fun_induction mergeLoop H st generalizing streams with
  | case1 st h =>
    -- with an empty heap all streams are at their end
    refine ⟨List.Pairwise.nil, fun k => ?_⟩
    have hnil : ∀ i, streams i = [] := by
      intro i
      cases hsi : streams i with
      | nil => rfl
      | cons r rest =>
        have : (⟨r.1, r.2, i⟩ : HeapEntry) ∈ st.heap := (hT.heads _).mpr (by simp [hsi])
        simp [H.pop_eq_none h] at this
    have hnone : firstHit ((List.range n).map streams) k = none := by
      rw [firstHit_eq_none_iff]
      intro t ht
      obtain ⟨i, -, rfl⟩ := List.mem_map.mp ht
      rw [hnil i]
      rfl
    rw [hnone]
    rfl
  | case2 st first rest h drained st' htomb =>
    -- the winner is a tombstone: the key is left out
    rename_i ih
    obtain ⟨streams', hT', hadv, i, hi, hlt⟩ := exists_round H hT hs h
    obtain ⟨hsorted, hout⟩ := ih hT' (fun i => (hadv i).sorted (hs i)) fun i hle =>
      (hadv i).eq_nil (hn i hle)
    obtain ⟨habove, hrest⟩ := lookup_rest hs hadv hout
    refine ⟨hsorted, fun k => ?_⟩
    by_cases hk : first.key = k
    · subst hk
      rw [firstHit_range hn hi hlt, lookup_eq_none_of_lt habove, isTombstone_iff.mp htomb]
      rfl
    · exact hrest k hk
  | case3 st first rest h drained st' htomb =>
    -- the winner is a value: it comes first, as all that follows is above its key
    rename_i ih
    obtain ⟨streams', hT', hadv, i, hi, hlt⟩ := exists_round H hT hs h
    obtain ⟨hsorted, hout⟩ := ih hT' (fun i => (hadv i).sorted (hs i)) fun i hle =>
      (hadv i).eq_nil (hn i hle)
    obtain ⟨habove, hrest⟩ := lookup_rest hs hadv hout
    refine ⟨List.pairwise_cons.mpr ⟨habove, hsorted⟩, fun k => ?_⟩
    by_cases hk : first.key = k
    · subst hk
      rw [firstHit_range hn hi hlt, lookup_cons_self,
        visible_of_not_tombstone (Bool.eq_false_iff.mpr htomb)]
    · rw [lookup_cons_of_ne hk]
      exact hrest k hk

end Merge

/-- The records `merge_sstables` adds to its writer, for what its iterators yield. -/
def merge (H : MergeHeap) (iters : List (List Record)) : List Record :=
  Merge.mergeLoop H (Merge.start H iters)

theorem merge_spec (H : MergeHeap) {iters : List (List Record)}
    (hs : ∀ t ∈ iters, StrictSorted t) :
    StrictSorted (merge H iters) ∧
      ∀ k, lookup k (merge H iters) = visible (firstHit iters k) := by
  have hrange : (List.range iters.length).map (fun i => iters.getD i []) = iters := by
    refine List.ext_getElem (by simp) fun i hi hi' => ?_
    simp [List.getD_eq_getElem?_getD, hi']
  have h := Merge.mergeLoop_spec H (n := iters.length) (Merge.tracks_start H iters)
    (fun i => ?_) fun i hi => ?_
  · rwa [hrange] at h
  · by_cases hi : i < iters.length
    · simpa [List.getD_eq_getElem?_getD, hi] using hs _ (List.getElem_mem hi)
    · rw [List.getD_eq_getElem?_getD, List.getElem?_eq_none (not_lt.mp hi)]
      exact List.Pairwise.nil
  · simp [List.getD_eq_getElem?_getD, List.getElem?_eq_none hi]

theorem merge_sorted (H : MergeHeap) {iters : List (List Record)}
    (hs : ∀ t ∈ iters, StrictSorted t) : StrictSorted (merge H iters) := (merge_spec H hs).1

/-- **The merged table answers what the first source to hold the key answers**, a
tombstone meaning that the key is left out. -/
theorem lookup_merge (H : MergeHeap) {iters : List (List Record)}
    (hs : ∀ t ∈ iters, StrictSorted t) (k : Key) :
    lookup k (merge H iters) = visible (firstHit iters k) := (merge_spec H hs).2 k

/-- The same, record by record. -/
theorem mem_merge_iff (H : MergeHeap) {iters : List (List Record)}
    (hs : ∀ t ∈ iters, StrictSorted t) {k : Key} {v : Value} :
    (k, v) ∈ merge H iters ↔ isTombstone v = false ∧ firstHit iters k = some v := by
  rw [← lookup_eq_some_iff (merge_sorted H hs), lookup_merge H hs, visible,
    Option.filter_eq_some_iff, Bool.not_eq_true', and_comm]

/-- Every record of the merged table is one of a source. -/
theorem exists_of_mem_merge (H : MergeHeap) {iters : List (List Record)}
    (hs : ∀ t ∈ iters, StrictSorted t) {r : Record} (hr : r ∈ merge H iters) :
    ∃ t ∈ iters, r ∈ t := by
  obtain ⟨-, hfirst⟩ := (mem_merge_iff H hs).mp hr
  obtain ⟨t, ht, hl⟩ := exists_of_firstHit hfirst
  exact ⟨t, ht, mem_of_lookup hl⟩

end Tabula
