import Aodbm.Lib.History
import Aodbm.Blocks
import Aodbm.Commit

/-!
# Ancestry and commits

`aodbm_is_based_on` and `aodbm_common_ancestor` walk over the headers of the versions. On
versions with sound headers they compute the ancestry of the history, and `aodbm_commit`
accepts exactly the versions that are based on the current one.

Results:
1. `eval_isBasedOn`, `eval_commonAncestor`: what the walks answer.
2. `eval_commit`: when a commit is accepted, and what it writes.
-/

namespace Aodbm

open Effects Bytes History

variable (B : Build)

/-- The parents of the known versions stand in their headers. -/
structure Headers (file : Data) (P : Nat → Nat → Prop) (known : Nat → Prop) : Prop where
  lineage : Lineage P
  header : ∀ {a p : Nat}, P a p → SegAt file a (aodbmDataFrom64 B p)
  parent : ∀ {a : Nat}, known a → a ≠ 0 → ∃ p, P a p ∧ known p
  bound : ∀ {a : Nat}, known a → a < 2 ^ 63

variable {B}
variable {db : Db} {P : Nat → Nat → Prop} {known : Nat → Prop} {a b : Nat}

/-- Every history begins with version 0. -/
theorem Headers.zero (hh : Headers B db.file P known) (ha : known a) : Based P a 0 := by
  induction a using Nat.strong_induction_on with
  | _ a ih =>
    rcases eq_or_ne a 0 with rfl | h0
    · exact .refl 0
    · obtain ⟨p, hp, hknown⟩ := hh.parent ha h0
      exact .head hp (ih p (hh.lineage.older hp) hknown)

theorem Headers.eval_previous (hh : Headers B db.file P known) (ha : known a) {p : Nat}
    (hp : P a p) : eval (aodbmPreviousVersion B a) db = .ok (p, db) := by
  have h1 := hh.lineage.older hp
  have h2 := hh.bound ha
  exact eval_read64 (hh.header hp) (by omega)

theorem eval_isBasedOnRecursive (hh : Headers B db.file P known) {depth : Nat} (ha : known a)
    (hdepth : a < depth) (b : Nat) :
    ∃ r, eval (isBasedOnRecursive B b depth a) db = .ok (r, db) ∧ (r = true ↔ Based P a b) := by
  induction depth generalizing a with
  | zero => omega
  | succ depth ih =>
    unfold isBasedOnRecursive
    rcases eq_or_ne b 0 with rfl | hb
    · exact ⟨true, rfl, by simpa using hh.zero ha⟩
    rw [if_neg hb]
    by_cases ha0 : a = 0
    · have hnot : ¬ Based P a b := hh.lineage.not_based (by omega)
      exact ⟨false, by rw [if_pos ha0]; rfl, by simpa using hnot⟩
    rw [if_neg ha0]
    by_cases hlt : a < b
    · have hnot : ¬ Based P a b := hh.lineage.not_based hlt
      exact ⟨false, by rw [if_pos hlt]; rfl, by simpa using hnot⟩
    rw [if_neg hlt]
    rcases eq_or_ne a b with rfl | hab
    · exact ⟨true, by rw [if_pos rfl]; rfl, by simpa using Based.refl a⟩
    rw [if_neg hab]
    -- all tests failed: `a` is based on `b` exactly if its previous version is
    obtain ⟨p, hp, hknown⟩ := hh.parent ha ha0
    have hpa := hh.lineage.older hp
    obtain ⟨r, hr, hiff⟩ := ih hknown (by omega)
    refine ⟨r, ?_, hiff.trans (hh.lineage.based_iff hp hab).symm⟩
    rw [eval, run_bind_ok (hh.eval_previous ha hp)]
    exact hr

/-- "is a based on b?" -/
theorem eval_isBasedOn (hh : Headers B db.file P known) (ha : known a) (b : Nat) :
    ∃ r, eval (aodbmIsBasedOn B a b) db = .ok (r, db) ∧ (r = true ↔ Based P a b) := by
  have := hh.bound ha
  exact eval_isBasedOnRecursive hh ha (by unfold maxDepth; omega) b

theorem eval_commonAncestorRecursive (hh : Headers B db.file P known) {depth : Nat} (ha : known a)
    (hb : known b) (hdepth : a + b < depth) :
    ∃ c, eval (commonAncestorRecursive B depth a b) db = .ok (c, db) ∧ Based P a c ∧ Based P b c ∧
      ∀ d, Based P a d → Based P b d → Based P c d := by
  induction depth generalizing a b with
  | zero => omega
  | succ depth ih =>
    unfold commonAncestorRecursive
    rcases eq_or_ne a b with rfl | hab
    · exact ⟨a, by rw [if_pos rfl]; rfl, .refl a, .refl a, fun d hd _ => hd⟩
    rw [if_neg hab]
    by_cases h0 : a = 0 ∨ b = 0
    · refine ⟨0, by rw [if_pos h0]; rfl, hh.zero ha, hh.zero hb, fun d hda hdb => ?_⟩
      rcases h0 with rfl | rfl
      · exact hda
      · exact hdb
    rw [if_neg h0]
    obtain ⟨ha0, hb0⟩ := not_or.mp h0
    -- the newer of the two is not an ancestor of the other, so it gives way to its previous version
    by_cases hgt : a > b
    · obtain ⟨p, hp, hknown⟩ := hh.parent ha ha0
      have hpa := hh.lineage.older hp
      obtain ⟨c, hc, h1, h2, h3⟩ := ih hknown hb (by omega)
      refine ⟨c, ?_, .head hp h1, h2, fun d hda hdb => h3 d ?_ hdb⟩
      · rw [if_pos hgt, eval, run_bind_ok (hh.eval_previous ha hp)]
        exact hc
      · have hne : a ≠ d := fun h => hh.lineage.not_based (h ▸ hgt) hdb
        exact (hh.lineage.based_iff hp hne).mp hda
    · obtain ⟨p, hp, hknown⟩ := hh.parent hb hb0
      have hpb := hh.lineage.older hp
      obtain ⟨c, hc, h1, h2, h3⟩ := ih ha hknown (by omega)
      refine ⟨c, ?_, h1, .head hp h2, fun d hda hdb => h3 d hda ?_⟩
      · rw [if_neg hgt, eval, run_bind_ok (hh.eval_previous hb hp)]
        exact hc
      · have hne : b ≠ d := fun h => hh.lineage.not_based (a := a) (h ▸ by omega) hda
        exact (hh.lineage.based_iff hp hne).mp hdb

/-- `aodbm_common_ancestor` finds the newest version that both are based on. -/
theorem eval_commonAncestor (hh : Headers B db.file P known) (ha : known a) (hb : known b) :
    ∃ c, eval (aodbmCommonAncestor B a b) db = .ok (c, db) ∧ Based P a c ∧ Based P b c ∧
      ∀ d, Based P a d → Based P b d → Based P c d := by
  have h1 := hh.bound ha
  have h2 := hh.bound hb
  exact eval_commonAncestorRecursive hh ha hb (by unfold maxDepth; omega)

/-! ## Commits -/

/-- What the walk answers decides; then one version record is appended and the version becomes
the current one. -/
theorem eval_commit_of {ver : Nat} {r : Bool}
    (hr : eval (aodbmIsBasedOn B ver db.cur) db = .ok (r, db)) :
    eval (aodbmCommit B ver) db =
      if r then
        if db.file.length + (Block.enc B (.version ver)).length < 2 ^ 63 then
          .ok (true, { db.append (Block.enc B (.version ver)) with cur := ver })
        else .error .osError
      else .ok (false, db) := by
  rw [aodbmCommit, eval, run_bind_ok eval_lockVersion, run_bind_ok eval_getCur, run_bind_ok hr]
  cases r with
  | false => rfl
  | true =>
    have hw := writes_version (B := B) ver db
    rw [if_pos rfl, if_pos rfl]
    split at hw
    · next hfits =>
      rw [if_pos hfits, run_bind_ok hw, run_bind_ok (eval_setCur ver),
        run_bind_ok eval_unlockVersion]
      rfl
    · next hfull => rw [if_neg hfull, run_bind_error hw]

theorem eval_commit_error {ver : Nat} {e : Err}
    (hr : eval (aodbmIsBasedOn B ver db.cur) db = .error e) :
    eval (aodbmCommit B ver) db = .error e := by
  rw [aodbmCommit, eval, run_bind_ok eval_lockVersion, run_bind_ok eval_getCur]
  exact run_bind_error hr

/-- A commit is accepted exactly when the version is based on the current one. -/
theorem eval_commit (hh : Headers B db.file P known) {ver : Nat} (hver : known ver) :
    ∃ r, (r = true ↔ Based P ver db.cur) ∧ eval (aodbmCommit B ver) db =
      if r then
        if db.file.length + (Block.enc B (.version ver)).length < 2 ^ 63 then
          .ok (true, { db.append (Block.enc B (.version ver)) with cur := ver })
        else .error .osError
      else .ok (false, db) := by
  obtain ⟨r, hr, hiff⟩ := eval_isBasedOn hh hver db.cur
  exact ⟨r, hiff, eval_commit_of hr⟩

theorem eval_current : eval aodbmCurrent db = .ok (db.cur, db) := rfl

end Aodbm
