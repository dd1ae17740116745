import Aodbm.Commits

/-!
# Ancestors

The ancestry test and the common ancestor of two versions, in runs with branching histories.

Results:
1. `ancestry_exact`: in runs with short blocks `aodbm_is_based_on` decides whether a version
   lies on the chain of another, which is a partial order.
2. `commonAncestor_nearest`: in runs with short blocks `aodbm_common_ancestor` finds the
   nearest version that two versions are based on.
3. `ancestry_lost`, `commonAncestor_lost`: a long block breaks both.
-/

namespace Aodbm

open Effects Bytes History

/-- `aodbm_is_based_on` answers that `a` is based on `b`. -/
def World.Says (B : Build) (w : World) (a b : Nat) : Prop :=
  eval (aodbmIsBasedOn B a b) w.db = .ok (true, w.db)

variable {B : Build} {w : World}

/-- The test answers for every known version, and says what the history says. -/
theorem Inv.says_iff (hw : Inv B w) {a : Nat} (ha : w.Known a) (b : Nat) :
    w.Says B a b ↔ w.BasedOn a b := by
  obtain ⟨r, hr, hiff⟩ := eval_isBasedOn hw.headers ha b
  rw [World.Says, hr]
  constructor
  · intro h
    cases h
    exact hiff.mp rfl
  · intro h
    rw [hiff.mpr h]

/-- What a known version is based on is known. -/
theorem Inv.known_basedOn (hw : Inv B w) {a b : Nat} (ha : w.Known a) (hab : w.BasedOn a b) :
    w.Known b :=
  hab.inherit (fun ⟨s, hs, _, hsp, _⟩ _ => hsp ▸ hw.parents s hs) ha

theorem Inv.antisymm (hw : Inv B w) {a b : Nat} (hab : w.BasedOn a b) (hba : w.BasedOn b a) :
    a = b :=
  le_antisymm (hw.headers.lineage.le hba) (hw.headers.lineage.le hab)

/-- In a run with short blocks `aodbm_is_based_on` returns, and returns true exactly when the
second version is 0, the first one, or on the chain of previous versions of the first one. So
it is a partial order with the least element 0, and a version with a smaller offset is not
based on one with a larger offset. -/
theorem ancestry_exact (hw : ReachableShort B w) :
    (∀ s ∈ w.snaps, ∀ t ∈ w.snaps, ∃ r,
      eval (aodbmIsBasedOn B s.ver t.ver) w.db = .ok (r, w.db) ∧
      (r = true ↔ t.ver = 0 ∨ t.ver = s.ver ∨ Relation.TransGen w.Parent s.ver t.ver)) ∧
      (∀ a, w.Known a → w.Says B a a ∧ w.Says B a 0) ∧
      (∀ a b, w.Known a → w.Known b → w.Says B a b → w.Says B b a → a = b) ∧
      (∀ a b c, w.Known a → w.Known b → w.Says B a b → w.Says B b c → w.Says B a c) ∧
      ∀ a b, w.Known a → a < b → ¬ Relation.TransGen w.Parent a b := by
  have hinv := inv_of_reachable hw
  refine ⟨fun s hs t _ => ?_, fun a ha => ?_, fun a b ha hb hab hba => ?_,
    fun a b c ha hb hab hbc => ?_, fun a b _ hlt hab => ?_⟩
  · have hknown : w.Known s.ver := ⟨s, hs, rfl⟩
    obtain ⟨r, hr, hiff⟩ := eval_isBasedOn hinv.headers hknown t.ver
    exact ⟨r, hr, hiff.trans (hinv.basedOn_iff hknown t.ver)⟩
  · exact ⟨(hinv.says_iff ha a).mpr (.refl a), (hinv.says_iff ha 0).mpr (hinv.headers.zero ha)⟩
  · exact hinv.antisymm ((hinv.says_iff ha b).mp hab) ((hinv.says_iff hb a).mp hba)
  · exact (hinv.says_iff ha c).mpr
      (((hinv.says_iff ha b).mp hab).trans ((hinv.says_iff hb c).mp hbc))
  · exact hinv.headers.lineage.not_based hlt hab.to_reflTransGen

/-- In the short run version 33 is based on version 5 and not the other way round. -/
theorem ancestry_exact_shortRun :
    shortRun.Says smallBuild 33 5 ∧ ¬ shortRun.Says smallBuild 5 33 := by
  obtain ⟨_, _, hantisymm, _⟩ := ancestry_exact shortRun_reachable
  have h335 : shortRun.Says smallBuild 33 5 := by
    unfold World.Says
    decide +kernel
  have h33 : shortRun.Known 33 := ⟨shortSecond, List.mem_cons_self, rfl⟩
  have h5 : shortRun.Known 5 := ⟨shortFirst, by simp [shortRun], rfl⟩
  exact ⟨h335, fun h => absurd (hantisymm 33 5 h33 h5 h335 h) (by decide)⟩

/-- After a long block the version 284 was made from the version 222, and the test denies it. -/
theorem ancestry_lost : ∃ w, Reachable smallBuild w ∧ ∃ s ∈ w.snaps, ∃ t ∈ w.snaps,
    Relation.TransGen w.Parent s.ver t.ver ∧
      eval (aodbmIsBasedOn smallBuild s.ver t.ver) w.db = .ok (false, w.db) := by
  obtain ⟨w, hw, hm⟩ := childlessRun
  obtain ⟨s, hs, hver, hprev⟩ := hm.known
  obtain ⟨t, ht, hbase⟩ := hm.base
  refine ⟨w, hw, s, hs, t, ht, .single ⟨s, hs, rfl, hprev.trans hbase.symm, by omega⟩, ?_⟩
  rw [hver, hbase]
  exact hm.isBasedOn

/-- In a run with short blocks `aodbm_common_ancestor` returns a version that both versions
are based on, and every version that both are based on is one that the result is based on.
The order of the two makes no difference. -/
theorem commonAncestor_nearest (hw : ReachableShort B w) {s t : Snapshot} (hs : s ∈ w.snaps)
    (ht : t ∈ w.snaps) :
    ∃ c, eval (aodbmCommonAncestor B s.ver t.ver) w.db = .ok (c, w.db) ∧
      eval (aodbmCommonAncestor B t.ver s.ver) w.db = .ok (c, w.db) ∧
      w.Known c ∧ w.Says B s.ver c ∧ w.Says B t.ver c ∧
      ∀ d, w.Says B s.ver d → w.Says B t.ver d → w.Says B c d := by
  have hinv := inv_of_reachable hw
  have hsk : w.Known s.ver := ⟨s, hs, rfl⟩
  have htk : w.Known t.ver := ⟨t, ht, rfl⟩
  obtain ⟨c, hc, hsc, htc, hnear⟩ := eval_commonAncestor hinv.headers hsk htk
  obtain ⟨c', hc', htc', hsc', hnear'⟩ := eval_commonAncestor hinv.headers htk hsk
  have hknown : w.Known c := hinv.known_basedOn hsk hsc
  have hsame : c' = c := hinv.antisymm (hnear' c htc hsc) (hnear c' hsc' htc')
  refine ⟨c, hc, hsame ▸ hc', hknown, (hinv.says_iff hsk c).mpr hsc,
    (hinv.says_iff htk c).mpr htc, fun d hsd htd => ?_⟩
  exact (hinv.says_iff hknown d).mpr
    (hnear d ((hinv.says_iff hsk d).mp hsd) ((hinv.says_iff htk d).mp htd))

/-- The two versions of the short run. -/
theorem commonAncestor_nearest_shortRun :
    ∃ c, eval (aodbmCommonAncestor smallBuild 33 5) shortRun.db = .ok (c, shortRun.db) ∧
      shortRun.Says smallBuild 5 c :=
  let ⟨c, hc, _, _, _, hsays, _⟩ := commonAncestor_nearest shortRun_reachable
    (s := shortSecond) (t := shortFirst) List.mem_cons_self (by simp [shortRun])
  ⟨c, hc, hsays⟩

/-- After a long block the version 284, which was made from the version 222, and the version
222 itself are taken to have nothing in common. -/
theorem commonAncestor_lost : ∃ w, Reachable smallBuild w ∧ ∃ s ∈ w.snaps, ∃ t ∈ w.snaps,
    Relation.TransGen w.Parent s.ver t.ver ∧ t.ver ≠ 0 ∧
      eval (aodbmCommonAncestor smallBuild s.ver t.ver) w.db = .ok (0, w.db) := by
  obtain ⟨w, hw, hm⟩ := childlessRun
  obtain ⟨s, hs, hver, hprev⟩ := hm.known
  obtain ⟨t, ht, hbase⟩ := hm.base
  refine ⟨w, hw, s, hs, t, ht, .single ⟨s, hs, rfl, hprev.trans hbase.symm, by omega⟩, by omega, ?_⟩
  have hdepth : maxDepth * maxDepth = (2 ^ 128 - 2) + 2 := by decide
  rw [hver, hbase, aodbmCommonAncestor, hdepth, commonAncestorRecursive, if_neg (by decide),
    if_neg (by decide), if_pos (by decide), eval, run_bind_ok hm.previous]
  rfl

end Aodbm
