import Mathlib.Data.List.MinMax
import Mathlib.Data.List.Perm.Basic

/-!
# Priority queues that hand out a minimum

A priority queue over a list of entries, known only by what it promises: `pop`
removes an entry whose key is least, `push` adds one. *Which* of several entries
with the least key comes out is left open, and so is the order the entries are
kept in; an algorithm proved over `MinQueue` is correct for every heap there is.

`MinQueue.argmin` is one queue that runs.
-/

/-- A queue of entries, by their key. -/
structure MinQueue {K α : Type*} [LinearOrder K] (key : α → K) where
  /-- Take out an entry of least key. -/
  pop : List α → Option (α × List α)
  /-- Put in an entry. -/
  push : α → List α → List α
  pop_eq_none : ∀ {l}, pop l = none → l = []
  pop_perm : ∀ {l a rest}, pop l = some (a, rest) → (a :: rest).Perm l
  pop_le : ∀ {l a rest}, pop l = some (a, rest) → ∀ b ∈ rest, key a ≤ key b
  push_perm : ∀ a l, (push a l).Perm (a :: l)

namespace MinQueue

variable {K α : Type*} [LinearOrder K] {key : α → K} (H : MinQueue key)

theorem mem_pop {l rest : List α} {a b : α} (h : H.pop l = some (a, rest)) :
    b ∈ l ↔ b = a ∨ b ∈ rest :=
  ((H.pop_perm h).mem_iff).symm.trans List.mem_cons

theorem length_pop {l rest : List α} {a : α} (h : H.pop l = some (a, rest)) :
    l.length = rest.length + 1 := (H.pop_perm h).length_eq.symm

/-- The popped entry is a minimum of the whole queue. -/
theorem pop_le_of_mem {l rest : List α} {a b : α} (h : H.pop l = some (a, rest)) (hb : b ∈ l) :
    key a ≤ key b := by
  rcases (H.mem_pop h).mp hb with rfl | hb
  · exact le_rfl
  · exact H.pop_le h b hb

@[simp] theorem mem_push {l : List α} {a b : α} : b ∈ H.push a l ↔ b = a ∨ b ∈ l :=
  (H.push_perm a l).mem_iff.trans List.mem_cons

@[simp] theorem length_push (a : α) (l : List α) : (H.push a l).length = l.length + 1 :=
  (H.push_perm a l).length_eq

/-- The queue that keeps its entries in a list and searches it. -/
def argmin [DecidableEq α] (key : α → K) : MinQueue key where
  pop l := (l.argmin key).map fun a => (a, l.erase a)
  push a l := a :: l
  pop_eq_none h := List.argmin_eq_none.mp (Option.map_eq_none_iff.mp h)
  pop_perm h := by
    obtain ⟨a, ha, h⟩ := Option.map_eq_some_iff.mp h
    obtain ⟨rfl, rfl⟩ := Prod.mk.inj h
    exact (List.perm_cons_erase (List.argmin_mem ha)).symm
  pop_le h b hb := by
    obtain ⟨a, ha, h⟩ := Option.map_eq_some_iff.mp h
    obtain ⟨rfl, rfl⟩ := Prod.mk.inj h
    exact List.le_of_mem_argmin (List.mem_of_mem_erase hb) ha
  push_perm a l := List.Perm.refl _

end MinQueue
