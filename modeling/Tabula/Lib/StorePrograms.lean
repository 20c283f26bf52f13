import Mathlib.Data.Set.Function
import Mathlib.Logic.Relation

/-!
# Programs over a shared store

A store has a value, or none, under every key. A program (`StorePrograms.Prog`) reads,
sets and moves values one operation at a time, and other parties may change the store
between two of its operations.

The keys a program can touch are its footprint (`StorePrograms.Prog.Within`). Outside of
it a program changes nothing, and what is there makes no difference to it. So a program
and what happens outside of its footprint commute: from a state that was reached on the
way, the same state is reached when all of what happened outside comes first
(`StorePrograms.Reaches.interleave`). A program that comes to its end has then done what
it does when it runs alone (`StorePrograms.Reaches.run_eq`).
-/

namespace StorePrograms

variable {K V R S : Type*}

/-- What is under each key, if anything is. -/
abbrev Store (K V : Type*) := K → Option V

/-- A program that returns an `R`. -/
inductive Prog (K V R : Type*) where
  | ret (r : R) : Prog K V R
  | read (k : K) (next : Option V → Prog K V R) : Prog K V R
  | put (k : K) (v : Option V) (next : Prog K V R) : Prog K V R
  | move (old new : K) (next : Prog K V R) : Prog K V R

namespace Prog

/-- One program, and another that depends on what it returns. -/
def bind : Prog K V R → (R → Prog K V S) → Prog K V S
  | ret r, f => f r
  | read k next, f => .read k fun v => (next v).bind f
  | put k v next, f => .put k v (next.bind f)
  | move old new next, f => .move old new (next.bind f)

/-- **The footprint**: whatever is read, only these keys are touched. -/
def Within (F : Set K) : Prog K V R → Prop
  | ret _ => True
  | read k next => k ∈ F ∧ ∀ v, (next v).Within F
  | put k _ next => k ∈ F ∧ next.Within F
  | move old new next => old ∈ F ∧ new ∈ F ∧ next.Within F

/-- Whatever is read, what is returned has the property. -/
def Returns (P : R → Prop) : Prog K V R → Prop
  | ret r => P r
  | read _ next => ∀ v, (next v).Returns P
  | put _ _ next | move _ _ next => next.Returns P

/-- The program changes nothing. -/
def ReadOnly : Prog K V R → Prop
  | ret _ => True
  | read _ next => ∀ v, (next v).ReadOnly
  | put _ _ _ | move _ _ _ => False

/-- The second program has to stay inside for what the first one can return. -/
theorem within_bind {F : Set K} {P : R → Prop} {p : Prog K V R} {f : R → Prog K V S}
    (hp : p.Within F) (hreturns : p.Returns P) (hf : ∀ r, P r → (f r).Within F) :
    (p.bind f).Within F := by
  induction p with
  | ret r => exact hf r hreturns
  | read k next ih => exact ⟨hp.1, fun v => ih v (hp.2 v) (hreturns v)⟩
  | put k v next ih => exact ⟨hp.1, ih hp.2 hreturns⟩
  | move old new next ih => exact ⟨hp.1, hp.2.1, ih hp.2.2 hreturns⟩

theorem returns_bind {P : R → Prop} {Q : S → Prop} {p : Prog K V R} {f : R → Prog K V S}
    (hp : p.Returns P) (hf : ∀ r, P r → (f r).Returns Q) : (p.bind f).Returns Q := by
  induction p with
  | ret r => exact hf r hp
  | read k next ih => exact fun v => ih v (hp v)
  | put k v next ih | move old new next ih => exact ih hp

theorem returns_true (p : Prog K V R) : p.Returns fun _ => True := by
  induction p with
  | ret r => trivial
  | read k next ih => exact ih
  | put k v next ih | move old new next ih => exact ih

theorem Within.mono {F F' : Set K} {p : Prog K V R} (h : p.Within F) (hsub : F ⊆ F') :
    p.Within F' := by
  induction p with
  | ret r => trivial
  | read k next ih => exact ⟨hsub h.1, fun v => ih v (h.2 v)⟩
  | put k v next ih => exact ⟨hsub h.1, ih h.2⟩
  | move old new next ih => exact ⟨hsub h.1, hsub h.2.1, ih h.2.2⟩

theorem readOnly_bind {p : Prog K V R} {f : R → Prog K V S} (hp : p.ReadOnly)
    (hf : ∀ r, (f r).ReadOnly) : (p.bind f).ReadOnly := by
  induction p with
  | ret r => exact hf r
  | read k next ih => exact fun v => ih v (hp v)
  | put | move => exact hp.elim

end Prog

variable [DecidableEq K]

/-- The value of one key, under another. -/
def moved (st : Store K V) (old new : K) : Store K V :=
  if old = new then st else Function.update (Function.update st new (st old)) old none

theorem moved_of_ne {st : Store K V} {old new k : K} (hold : k ≠ old) (hnew : k ≠ new) :
    moved st old new k = st k := by
  rw [moved]
  split
  · rfl
  · rw [Function.update_of_ne hold, Function.update_of_ne hnew]

theorem eqOn_moved {F : Set K} {st st₁ : Store K V} {old new : K} (h : Set.EqOn st st₁ F)
    (hold : old ∈ F) : Set.EqOn (moved st old new) (moved st₁ old new) F := by
  intro k hk
  rw [moved, moved]
  split
  · exact h hk
  · rw [Function.update_apply, Function.update_apply, Function.update_apply,
      Function.update_apply, h hk, h hold]

theorem eqOn_update {F : Set K} {st st₁ : Store K V} (k : K) (v : Option V)
    (h : Set.EqOn st st₁ F) : Set.EqOn (Function.update st k v) (Function.update st₁ k v) F := by
  intro k' hk'
  rw [Function.update_apply, Function.update_apply, h hk']

namespace Prog

/-- The next operation, if there is one left. -/
def next : Prog K V R → Store K V → Option (Prog K V R × Store K V)
  | ret _, _ => none
  | read k p, st => some (p (st k), st)
  | put k v p, st => some (p, Function.update st k v)
  | move old new p, st => some (p, moved st old new)

/-- The program, run alone. -/
def run : Prog K V R → Store K V → R × Store K V
  | ret r, st => (r, st)
  | read k p, st => (p (st k)).run st
  | put k v p, st => p.run (Function.update st k v)
  | move old new p, st => p.run (moved st old new)

/-- How many operations it takes. -/
def length : Prog K V R → Store K V → ℕ
  | ret _, _ => 0
  | read k p, st => (p (st k)).length st + 1
  | put k v p, st => p.length (Function.update st k v) + 1
  | move old new p, st => p.length (moved st old new) + 1

variable {p q : Prog K V R} {st st' st₁ : Store K V} {F : Set K}

theorem eq_ret_of_next (h : p.next st = none) : ∃ r, p = ret r := by
  cases p with
  | ret r => exact ⟨r, rfl⟩
  | read | put | move => simp [next] at h

theorem run_next (h : p.next st = some (q, st')) : q.run st' = p.run st := by
  cases p with
  | ret r => simp [next] at h
  | read | put | move =>
    obtain ⟨rfl, rfl⟩ := Prod.mk.inj (Option.some.inj h)
    rfl

theorem length_next (h : p.next st = some (q, st')) : p.length st = q.length st' + 1 := by
  cases p with
  | ret r => simp [next] at h
  | read | put | move =>
    obtain ⟨rfl, rfl⟩ := Prod.mk.inj (Option.some.inj h)
    rfl

theorem next_bind {f : R → Prog K V S} {p' : Prog K V R × Store K V} (h : p.next st = some p') :
    (p.bind f).next st = some (p'.1.bind f, p'.2) := by
  cases p with
  | ret r => simp [next] at h
  | read | put | move =>
    obtain rfl := Option.some.inj h
    rfl

theorem run_bind (p : Prog K V R) (f : R → Prog K V S) (st : Store K V) :
    (p.bind f).run st = (f (p.run st).1).run (p.run st).2 := by
  induction p generalizing st with
  | ret r => rfl
  | read k next ih => exact ih _ st
  | put k v next ih => exact ih _
  | move old new next ih => exact ih _

theorem length_bind (p : Prog K V R) (f : R → Prog K V S) (st : Store K V) :
    (p.bind f).length st = p.length st + (f (p.run st).1).length (p.run st).2 := by
  induction p generalizing st with
  | ret r => exact (Nat.zero_add _).symm
  | read k next ih => exact (congrArg (· + 1) (ih _ st)).trans (Nat.add_right_comm ..)
  | put k v next ih => exact (congrArg (· + 1) (ih _)).trans (Nat.add_right_comm ..)
  | move old new next ih => exact (congrArg (· + 1) (ih _)).trans (Nat.add_right_comm ..)

/-! ### Footprints -/

theorem Within.next (hp : p.Within F) (h : p.next st = some (q, st')) : q.Within F := by
  cases p with
  | ret r => simp [Prog.next] at h
  | read k next =>
    obtain ⟨rfl, rfl⟩ := Prod.mk.inj (Option.some.inj h)
    exact hp.2 _
  | put k v next =>
    obtain ⟨rfl, rfl⟩ := Prod.mk.inj (Option.some.inj h)
    exact hp.2
  | move old new next =>
    obtain ⟨rfl, rfl⟩ := Prod.mk.inj (Option.some.inj h)
    exact hp.2.2

/-- **Outside of its footprint a program changes nothing.** -/
theorem Within.next_compl (hp : p.Within F) (h : p.next st = some (q, st')) :
    Set.EqOn st' st Fᶜ := by
  intro k hk
  cases p with
  | ret r => simp [Prog.next] at h
  | read k' next =>
    obtain ⟨rfl, rfl⟩ := Prod.mk.inj (Option.some.inj h)
    rfl
  | put k' v next =>
    obtain ⟨rfl, rfl⟩ := Prod.mk.inj (Option.some.inj h)
    refine Function.update_of_ne ?_ _ _
    rintro rfl
    exact hk hp.1
  | move old new next =>
    obtain ⟨rfl, rfl⟩ := Prod.mk.inj (Option.some.inj h)
    refine moved_of_ne ?_ ?_
    · rintro rfl
      exact hk hp.1
    · rintro rfl
      exact hk hp.2.1

/-- **What is outside of its footprint makes no difference to a program.** -/
theorem Within.next_congr (hp : p.Within F) (h : p.next st = some (q, st'))
    (heq : Set.EqOn st st₁ F) : ∃ st₁', p.next st₁ = some (q, st₁') ∧ Set.EqOn st' st₁' F := by
  cases p with
  | ret r => simp [Prog.next] at h
  | read k next =>
    obtain ⟨rfl, rfl⟩ := Prod.mk.inj (Option.some.inj h)
    exact ⟨st₁, by rw [Prog.next, heq hp.1], heq⟩
  | put k v next =>
    obtain ⟨rfl, rfl⟩ := Prod.mk.inj (Option.some.inj h)
    exact ⟨_, rfl, eqOn_update k v heq⟩
  | move old new next =>
    obtain ⟨rfl, rfl⟩ := Prod.mk.inj (Option.some.inj h)
    exact ⟨_, rfl, eqOn_moved heq hp.1⟩

theorem Within.run_compl (hp : p.Within F) (st : Store K V) : Set.EqOn (p.run st).2 st Fᶜ := by
  induction p generalizing st with
  | ret r => exact fun _ _ => rfl
  | read k next ih => exact ih _ (hp.2 _) st
  | put k v next ih =>
    have hstep : Set.EqOn _ st Fᶜ := hp.next_compl rfl
    exact (ih hp.2 _).trans hstep
  | move old new next ih =>
    have hstep : Set.EqOn _ st Fᶜ := hp.next_compl rfl
    exact (ih hp.2.2 _).trans hstep

theorem Within.run_congr (hp : p.Within F) (heq : Set.EqOn st st₁ F) :
    (p.run st).1 = (p.run st₁).1 ∧ Set.EqOn (p.run st).2 (p.run st₁).2 F := by
  induction p generalizing st st₁ with
  | ret r => exact ⟨rfl, heq⟩
  | read k next ih =>
    rw [run, run, ← heq hp.1]
    exact ih _ (hp.2 _) heq
  | put k v next ih => exact ih hp.2 (eqOn_update k v heq)
  | move old new next ih => exact ih hp.2.2 (eqOn_moved heq hp.1)

theorem Within.length_congr (hp : p.Within F) (heq : Set.EqOn st st₁ F) :
    p.length st = p.length st₁ := by
  induction p generalizing st st₁ with
  | ret r => rfl
  | read k next ih =>
    rw [length, length, ← heq hp.1]
    exact congrArg (· + 1) (ih _ (hp.2 _) heq)
  | put k v next ih => exact congrArg (· + 1) (ih hp.2 (eqOn_update k v heq))
  | move old new next ih => exact congrArg (· + 1) (ih hp.2.2 (eqOn_moved heq hp.1))

end Prog

/-! ### What is reached on the way -/

/-- One program, some operations later. -/
def Reaches (a b : Prog K V R × Store K V) : Prop :=
  Relation.ReflTransGen (fun a b => a.1.next a.2 = some b) a b

namespace Reaches

variable {p q : Prog K V R} {st st' st₁ : Store K V} {F : Set K}

theorem refl (p : Prog K V R) (st : Store K V) : Reaches (p, st) (p, st) :=
  Relation.ReflTransGen.refl

theorem next {q' : Prog K V R} {st'' : Store K V} (h : Reaches (p, st) (q, st'))
    (hq : q.next st' = some (q', st'')) : Reaches (p, st) (q', st'') :=
  Relation.ReflTransGen.tail h hq

/-- A program gets to its end. -/
theorem of_run (p : Prog K V R) (st : Store K V) :
    Reaches (p, st) (.ret (p.run st).1, (p.run st).2) := by
  induction p generalizing st with
  | ret r => exact .refl _ _
  | read k next ih => exact Relation.ReflTransGen.head rfl (ih _ _)
  | put k v next ih => exact Relation.ReflTransGen.head rfl (ih _)
  | move old new next ih => exact Relation.ReflTransGen.head rfl (ih _)

/-- **A program that is at its end has done what it does alone.** -/
theorem run_eq (h : Reaches (p, st) (q, st')) : q.run st' = p.run st := by
  have hrun : ∀ a b : Prog K V R × Store K V, Reaches a b → b.1.run b.2 = a.1.run a.2 := by
    intro a b hab
    induction hab with
    | refl => rfl
    | tail _ hb ih => exact (Prog.run_next hb).trans ih
  exact hrun _ _ h

theorem within (h : Reaches (p, st) (q, st')) (hp : p.Within F) : q.Within F := by
  have hwithin : ∀ a b : Prog K V R × Store K V, Reaches a b → a.1.Within F → b.1.Within F := by
    intro a b hab ha
    induction hab with
    | refl => exact ha
    | tail _ hb ih => exact ih.next hb
  exact hwithin _ _ h hp

theorem compl (h : Reaches (p, st) (q, st')) (hp : p.Within F) : Set.EqOn st' st Fᶜ := by
  have hcompl : ∀ a b : Prog K V R × Store K V, Reaches a b → a.1.Within F →
      Set.EqOn b.2 a.2 Fᶜ := by
    intro a b hab ha
    induction hab with
    | refl => exact fun _ _ => rfl
    | tail hab hb ih => exact ((within hab ha).next_compl hb).trans ih
  exact hcompl _ _ h hp

/-- The same way is gone when the store is another one outside of the footprint. -/
theorem congr (h : Reaches (p, st) (q, st')) (hp : p.Within F) (heq : Set.EqOn st st₁ F) :
    ∃ st₁', Reaches (p, st₁) (q, st₁') ∧ Set.EqOn st' st₁' F := by
  have hcongr : ∀ a b : Prog K V R × Store K V, Reaches a b → a.1.Within F →
      Set.EqOn a.2 st₁ F → ∃ st₁', Reaches (a.1, st₁) (b.1, st₁') ∧ Set.EqOn b.2 st₁' F := by
    intro a b hab ha ha₁
    induction hab with
    | refl => exact ⟨st₁, refl _ _, ha₁⟩
    | tail hab hb ih =>
      obtain ⟨st₁', hreach, heq⟩ := ih
      obtain ⟨st₁'', hnext, heq⟩ := (within hab ha).next_congr hb heq
      exact ⟨st₁'', hreach.next hnext, heq⟩
  exact hcongr _ _ h hp heq

/-- **A program and what happens outside of its footprint commute.** -/
theorem interleave (h : Reaches (p, st) (q, st')) (hp : p.Within F) {e : Prog K V S}
    (he : e.Within Fᶜ) : Reaches (p, (e.run st).2) (q, (e.run st').2) := by
  have hkeep : ∀ st : Store K V, Set.EqOn (e.run st).2 st F := fun st => by
    have hkeep := he.run_compl st
    rwa [compl_compl] at hkeep
  obtain ⟨st₁', hreach, heq⟩ := h.congr hp (hkeep st).symm
  have hst : st₁' = (e.run st').2 := by
    funext k
    by_cases hk : k ∈ F
    · exact (heq hk).symm.trans (hkeep st' hk).symm
    · have hleft := hreach.compl hp (show k ∈ Fᶜ from hk)
      exact hleft.trans ((he.run_congr (h.compl hp)).2 (show k ∈ Fᶜ from hk)).symm
  rwa [hst] at hreach

/-- What is reached on the way through two programs. -/
theorem of_bind {f : S → Prog K V R} {p : Prog K V S} (h : Reaches (p.bind f, st) (q, st')) :
    (∃ p', Reaches (p, st) (p', st') ∧ q = p'.bind f) ∨
      Reaches (f (p.run st).1, (p.run st).2) (q, st') := by
  have hbind : ∀ b : Prog K V R × Store K V, Reaches (p.bind f, st) b →
      (∃ p', Reaches (p, st) (p', b.2) ∧ b.1 = p'.bind f) ∨
        Reaches (f (p.run st).1, (p.run st).2) b := by
    intro b hb
    induction hb with
    | refl => exact Or.inl ⟨p, refl _ _, rfl⟩
    | @tail b c _ hc ih =>
      rcases ih with ⟨p', hreach, hq⟩ | hreach
      · rw [hq] at hc
        -- the first program goes on, or it has come to its end
        cases hnext : p'.next b.2 with
        | some next =>
          rw [Prog.next_bind hnext] at hc
          obtain rfl := Option.some.inj hc
          exact Or.inl ⟨next.1, hreach.next hnext, rfl⟩
        | none =>
          obtain ⟨r, rfl⟩ := Prog.eq_ret_of_next hnext
          have hrun : (r, b.2) = p.run st := hreach.run_eq
          rw [← hrun]
          exact Or.inr ((refl (f r) b.2).next hc)
      · exact Or.inr (Relation.ReflTransGen.tail hreach hc)
  exact hbind _ h

/-- A way begins with the first operation. -/
theorem cases_head (h : Reaches (p, st) (q, st')) :
    st' = st ∨ ∃ p₁ st₁, p.next st = some (p₁, st₁) ∧ Reaches (p₁, st₁) (q, st') := by
  rcases Relation.ReflTransGen.cases_head h with heq | ⟨⟨p₁, st₁⟩, hstep, h⟩
  · exact Or.inl (Prod.mk.inj heq).2.symm
  · exact Or.inr ⟨p₁, st₁, hstep, h⟩

theorem of_ret {r : R} (h : Reaches (.ret r, st) (q, st')) : st' = st :=
  h.cases_head.resolve_right fun ⟨_, _, hnext, _⟩ => Option.some_ne_none _ hnext.symm

/-- The way through a program that sets a value first. -/
theorem of_put {k : K} {v : Option V} (h : Reaches (.put k v p, st) (q, st')) :
    st' = st ∨ Reaches (p, Function.update st k v) (q, st') := by
  refine h.cases_head.imp_right ?_
  rintro ⟨p₁, st₁, hnext, hreach⟩
  obtain ⟨rfl, rfl⟩ := Prod.mk.inj (Option.some.inj hnext)
  exact hreach

theorem of_move {old new : K} (h : Reaches (.move old new p, st) (q, st')) :
    st' = st ∨ Reaches (p, moved st old new) (q, st') := by
  refine h.cases_head.imp_right ?_
  rintro ⟨p₁, st₁, hnext, hreach⟩
  obtain ⟨rfl, rfl⟩ := Prod.mk.inj (Option.some.inj hnext)
  exact hreach

theorem of_readOnly (h : Reaches (p, st) (q, st')) (hp : p.ReadOnly) : st' = st := by
  induction p with
  | ret r => exact h.of_ret
  | read k next ih =>
    rcases h.cases_head with heq | ⟨p₁, st₁, hnext, hreach⟩
    · exact heq
    · obtain ⟨rfl, rfl⟩ := Prod.mk.inj (Option.some.inj hnext)
      exact ih _ hreach (hp _)
  | put | move => exact hp.elim

end Reaches

end StorePrograms
