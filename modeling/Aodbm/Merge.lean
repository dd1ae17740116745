import Aodbm.Diff

/-!
# Merging versions (`aodbm_merge`)

Two clients have made versions from a common one. `aodbm_merge` applies to the first version what
leads from the common ancestor to the second.

Results:
1. `merge_threeWay`: what the two versions and their ancestor make of a key.
2. `merge_comm`: versions that were made with different keys are merged in any order.
3. `merge_commit`: which of the two orders gives a version that can be committed.
4. `merge_asserting`: with the functions that the source leaves without a body.
-/

namespace Aodbm

open Effects History

variable (B : Build)

/-- The changeset is freed, which no other one shares. -/
def aodbmApplyDi (ver : Nat) (ch : List Change) : Op Nat := aodbmApply B ver ch

def aodbmMerge (stubs : Stubs) (a b : Nat) : Op Nat := do
  let c ← aodbmCommonAncestor B a b
  if c = a then pure b
  else if c = b then pure a
  else do
    let ch ← aodbmDiff B stubs c b
    aodbmApplyDi B a ch

variable {B}
variable {db : Db} {P : Nat → Nat → Prop} {known : Nat → Prop} {a b c : Nat}
  {f g : Nat → List Change} {stubs : Stubs} {us vs : List Nat}

/-- `c` is the newest version that both are based on, and `vs` leads from `b` down to it. -/
structure Fork (P : Nat → Nat → Prop) (a b c : Nat) (vs : List Nat) : Prop where
  left : Based P a c
  trail : Trail P b vs c
  nearest : ∀ d, Based P a d → Based P b d → Based P c d

/-- The ancestor is the first version when the second one is based on it. -/
theorem Fork.eq_left {file : Data} (h : Fork P a b c vs) (hh : Headers B file P known) :
    c = a ↔ Based P b a := by
  constructor
  · rintro rfl
    exact h.trail.based
  · intro hba
    exact hh.antisymm (h.nearest a (Based.refl a) hba) h.left

theorem Fork.eq_right {file : Data} (h : Fork P a b c vs) (hh : Headers B file P known) :
    c = b ↔ Based P a b := by
  constructor
  · rintro rfl
    exact h.left
  · intro hab
    exact hh.antisymm (h.nearest b hab (Based.refl b)) h.trail.based

theorem Headers.fork (hh : Headers B db.file P known) (ha : known a) (hb : known b) :
    ∃ c vs, Fork P a b c vs ∧ eval (aodbmCommonAncestor B a b) db = .ok (c, db) := by
  obtain ⟨c, hc, hac, hbc, hnearest⟩ := eval_commonAncestor hh ha hb
  obtain ⟨vs, hvs⟩ := hbc.trail
  exact ⟨c, vs, ⟨hac, hvs, hnearest⟩, hc⟩

/-- There is one such version. -/
theorem Fork.unique {file : Data} {d : Nat} (h : Fork P a b c vs) (h' : Fork P a b d us)
    (hh : Headers B file P known) : c = d :=
  hh.antisymm (h.nearest d h'.left h'.trail.based) (h'.nearest c h.left h.trail.based)

theorem Fork.eval_ancestor (h : Fork P a b c vs) (hh : Headers B db.file P known) (ha : known a)
    (hb : known b) : eval (aodbmCommonAncestor B a b) db = .ok (c, db) := by
  obtain ⟨d, us, hd, heval⟩ := hh.fork ha hb
  rw [h.unique hd hh]
  exact heval

/-- A version that the other one is based on is left alone, and the other one is returned. -/
theorem Fork.eval_branches (h : Fork P a b c vs) (hh : Headers B db.file P known) (ha : known a)
    (hb : known b) :
    eval (aodbmMerge B stubs a b) db =
      if c = a then .ok (b, db) else if c = b then .ok (a, db)
      else eval (aodbmDiff B stubs c b >>= aodbmApplyDi B a) db := by
  rw [aodbmMerge, eval, run_bind_ok (h.eval_ancestor hh ha hb)]
  split
  · rfl
  · split <;> rfl

/-- Otherwise the changes of the steps to the second version are applied to the first one. -/
theorem Fork.eval_merge (h : Fork P a b c vs) (hh : Headers B db.file P known)
    (hs : StepsAre db P stubs f g) (ha : known a) (hb : known b) :
    eval (aodbmMerge B stubs a b) db =
      if c = a then .ok (b, db) else if c = b then .ok (a, db)
      else eval (aodbmApply B a (vs.flatMap f)) db := by
  have hdepth : maxDepth = (2 ^ 64 - 1) + 1 := by decide
  have hdiff : eval (aodbmDiff B stubs c b) db = .ok (vs.flatMap f, db) := by
    rw [aodbmDiff, hdepth]
    exact eval_diff_forward hh hs hb h.trail
  rw [h.eval_branches hh ha hb, eval, eval, run_bind_ok hdiff]
  rfl

/-! ## What a merge makes of the keys -/

/-- A key that no step to the second version changes keeps its value; any other one gets the value
that it has after the oldest such step. -/
structure ThreeWay (f : Nat → List Change) (vs : List Nat) (M : Nat → Data → Option Data)
    (m m' : Data → Option Data) : Prop where
  kept : ∀ k, (∀ v ∈ vs, ¬ Touches Change.key (f v) k) → m' k = m k
  taken : ∀ k v, Oldest Change.key f vs k v → m' k = M v k

variable {w w' : World} {s t u : Snapshot}

theorem Stubs.Sound.overwrites (hs : stubs.Sound w f g) {v p : Nat} (hp : w.Parent v p) :
    overwrites Change.key Change.after (f v) (w.contentsOf p) = w.contentsOf v := by
  rw [← applied_eq]
  exact hs.forward hp

theorem Stubs.Sound.threeWay (hs : stubs.Sound w f g) (ht : Trail w.Parent b vs c)
    (m : Data → Option Data) :
    ThreeWay f vs w.contentsOf m (applied (vs.flatMap f) m) := by
  refine ⟨fun k hk => ?_, fun k v hv => ?_⟩
  · rw [applied_eq]
    refine overwrites_of_not_touches fun htouch => ?_
    obtain ⟨v, hv, hkey⟩ := touches_flatMap.mp htouch
    exact hk v hv hkey
  · rw [applied_eq]
    exact ht.overwrites_oldest hs.overwrites hv

/-- What is known of the version that a merge returned. -/
structure Merged (B : Build) (w : World) (f : Nat → List Change) (vs : List Nat) (s : Snapshot)
    (w' : World) (u : Snapshot) : Prop where
  steps : Relation.ReflTransGen (ShortStep B) w w'
  mem : u ∈ w'.snaps
  based : w'.BasedOn u.ver s.ver
  contents : ThreeWay f vs w.contentsOf s.contents u.contents

/-! ## A fork -/

/-- A version sets key 1 and is committed; then another one is made from version 0, which sets
key 2. -/
def forkFile : Data :=
  [100, 0, 0, 0, 23, 0, 0, 0, 0, 0, 0, 0, 0, 108, 0, 0, 0, 1, 0, 0, 0, 1, 1, 0, 0, 0, 1, 10] ++
    [118, 0, 0, 0, 0, 0, 0, 0, 5] ++
    [100, 0, 0, 0, 23, 0, 0, 0, 0, 0, 0, 0, 0, 108, 0, 0, 0, 1, 0, 0, 0, 1, 2, 0, 0, 0, 1, 20]

def forkFirst : Snapshot := ⟨5, 0, Function.update (fun _ => none) [1] (some [10])⟩

def forkSecond : Snapshot := ⟨42, 0, Function.update (fun _ => none) [2] (some [20])⟩

def forkRun : World :=
  ⟨⟨forkFile, 65, 5⟩, [forkSecond, forkFirst, ⟨0, 0, fun _ => none⟩], [⟨5, 37⟩], []⟩

theorem forkRun_reachable : ReachableShort smallBuild forkRun := by
  have h1 : eval (aodbmSet smallBuild 0 [1] [10]) Db.empty =
      .ok (5, ⟨forkFile.take 28, 28, 0⟩) := by decide +kernel
  have h2 : eval (aodbmCommit smallBuild 5) ⟨forkFile.take 28, 28, 0⟩ =
      .ok (true, ⟨forkFile.take 37, 37, 5⟩) := by decide +kernel
  have h3 : eval (aodbmSet smallBuild 0 [2] [20]) ⟨forkFile.take 37, 37, 5⟩ =
      .ok (42, ⟨forkFile, 65, 5⟩) := by decide +kernel
  let root : Snapshot := ⟨0, 0, fun _ => none⟩
  let w₁ : World := ⟨⟨forkFile.take 28, 28, 0⟩, [forkFirst, root], [], []⟩
  let w₂ : World := ⟨⟨forkFile.take 37, 37, 5⟩, [forkFirst, root], [⟨5, 37⟩], []⟩
  have s1 : ShortStep smallBuild World.init w₁ :=
    ⟨.set (s := root) (List.mem_singleton_self _) h1, by decide⟩
  have s2 : ShortStep smallBuild w₁ w₂ :=
    ⟨.commit (s := forkFirst) List.mem_cons_self h2, by decide +kernel⟩
  have s3 : ShortStep smallBuild w₂ forkRun :=
    ⟨.set (s := root) (List.mem_cons_of_mem _ (List.mem_singleton_self _)) h3, by decide +kernel⟩
  exact .tail (.tail (.tail .refl s1) s2) s3

theorem forkRun_parent {v p : Nat} : forkRun.Parent v p ↔ (v = 5 ∨ v = 42) ∧ p = 0 := by
  constructor
  · rintro ⟨s, hs, rfl, rfl, h0⟩
    simp only [forkRun, List.mem_cons, List.not_mem_nil, or_false] at hs
    rcases hs with rfl | rfl | rfl
    · exact ⟨Or.inr rfl, rfl⟩
    · exact ⟨Or.inl rfl, rfl⟩
    · exact absurd rfl h0
  · rintro ⟨rfl | rfl, rfl⟩
    · exact ⟨forkFirst, List.mem_cons_of_mem _ List.mem_cons_self, rfl, rfl, by decide⟩
    · exact ⟨forkSecond, List.mem_cons_self, rfl, rfl, by decide⟩

/-- Both versions were made from version 0. -/
theorem forkRun_fork {a b : Nat} (ha : a = 5 ∨ a = 42) (hb : b = 5 ∨ b = 42) (hab : a ≠ b) :
    Fork forkRun.Parent a b 0 [b] := by
  have hpa : forkRun.Parent a 0 := forkRun_parent.mpr ⟨ha, rfl⟩
  have hpb : forkRun.Parent b 0 := forkRun_parent.mpr ⟨hb, rfl⟩
  refine ⟨.single hpa, .cons hpb (.nil 0), fun d hda hdb => ?_⟩
  -- what is based on a version other than the versions themselves is version 0
  have honly : ∀ {v : Nat}, Based forkRun.Parent v d → d = v ∨ d = 0 := by
    intro v hv
    rcases Relation.ReflTransGen.cases_tail hv with rfl | ⟨u, _, hp⟩
    · exact Or.inl rfl
    · exact Or.inr (forkRun_parent.mp hp).2
  rcases honly hda with rfl | rfl
  · rcases honly hdb with hd | hd
    · exact absurd hd hab
    · exact hd ▸ Based.refl d
  · exact Based.refl 0

def forkForward (v : Nat) : List Change :=
  if v = 5 then [.modify [1] [10]] else [.modify [2] [20]]

def forkBack (v : Nat) : List Change := if v = 5 then [.remove [1]] else [.remove [2]]

def forkStubs : Stubs := ⟨fun v => pure (forkForward v), fun v => pure (forkBack v)⟩

theorem forkStubs_sound : forkStubs.Sound forkRun forkForward forkBack := by
  refine ⟨⟨fun _ => rfl, fun _ => rfl⟩, fun hp => ?_, fun hp => ?_⟩
  · obtain ⟨rfl | rfl, rfl⟩ := forkRun_parent.mp hp <;> rfl
  · obtain ⟨rfl | rfl, rfl⟩ := forkRun_parent.mp hp
    · change Function.update (Function.update (fun _ => none) [1] (some [10])) [1] none = _
      rw [Function.update_idem]
      exact Function.update_eq_self_iff.mpr rfl
    · change Function.update (Function.update (fun _ => none) [2] (some [20])) [2] none = _
      rw [Function.update_idem]
      exact Function.update_eq_self_iff.mpr rfl

/-- The block with both keys. -/
def forkBlock (ver : UInt8) : Data := [100, 0, 0, 0, 33, 0, 0, 0, 0, 0, 0, 0, ver, 108, 0, 0, 0, 2,
  0, 0, 0, 1, 1, 0, 0, 0, 1, 10, 0, 0, 0, 1, 2, 0, 0, 0, 1, 20]

theorem forkShort {c : Change} {ver v : Nat} {db : Db}
    (h : eval (performChange smallBuild c ver) forkRun.db = .ok (v, db))
    (hlen : db.file.length < 200) : ShortChanges smallBuild [c] ver forkRun.db := by
  intro v' db' h'
  rw [h] at h'
  cases h'
  have hroom : 200 ≤ 5 + 2 ^ 32 := by decide
  exact ⟨Nat.lt_of_lt_of_le hlen (Nat.le_trans hroom (Nat.le_add_left _ _)), trivial⟩

theorem forkShort_first : ShortChanges smallBuild (([5] : List Nat).flatMap forkForward) 42
    forkRun.db := by
  have h : eval (performChange smallBuild (.modify [1] [10]) 42) forkRun.db =
      .ok (70, forkRun.db.append (forkBlock 42)) := by decide +kernel
  exact forkShort h (by decide)

theorem forkShort_second : ShortChanges smallBuild (([42] : List Nat).flatMap forkForward) 5
    forkRun.db := by
  have h : eval (performChange smallBuild (.modify [2] [20]) 5) forkRun.db =
      .ok (70, forkRun.db.append (forkBlock 5)) := by decide +kernel
  exact forkShort h (by decide)

/-- The two versions of the fork are merged in both orders. -/
theorem forkMerges :
    eval (aodbmMerge smallBuild forkStubs 42 5) forkRun.db =
        .ok (70, forkRun.db.append (forkBlock 42)) ∧
      eval (aodbmMerge smallBuild forkStubs 5 42) forkRun.db =
        .ok (70, forkRun.db.append (forkBlock 5)) := by
  constructor <;> decide +kernel

/-! ## The records of a merged version -/

/-- In runs with short blocks `aodbm_merge` returns the second version if it is based on the first
one, and the first one if that is based on the second. Of any other two versions it makes one that
is based on the first, in which the keys that were changed on the way to the second version have
been overwritten. -/
theorem merge_threeWay (hw : ReachableShort B w) (hs : stubs.Sound w f g) (ha : s ∈ w.snaps)
    (hb : t ∈ w.snaps) :
    ∃ c vs, Fork w.Parent s.ver t.ver c vs ∧
      (w.BasedOn t.ver s.ver →
        eval (aodbmMerge B stubs s.ver t.ver) w.db = .ok (t.ver, w.db)) ∧
      (w.BasedOn s.ver t.ver →
        eval (aodbmMerge B stubs s.ver t.ver) w.db = .ok (s.ver, w.db)) ∧
      (¬ w.BasedOn t.ver s.ver → ¬ w.BasedOn s.ver t.ver →
        ShortChanges B (vs.flatMap f) s.ver w.db →
        eval (aodbmMerge B stubs s.ver t.ver) w.db = .error .osError ∨
          ∃ w' u, Merged B w f vs s w' u ∧
            eval (aodbmMerge B stubs s.ver t.ver) w.db = .ok (u.ver, w'.db)) := by
  have hinv := inv_of_reachable hw
  have hh := hinv.headers
  have hka : w.Known s.ver := ⟨s, ha, rfl⟩
  have hkb : w.Known t.ver := ⟨t, hb, rfl⟩
  obtain ⟨c, vs, hfork, _⟩ := hh.fork hka hkb
  have heval := hfork.eval_merge hh hs.steps hka hkb
  refine ⟨c, vs, hfork, fun hts => ?_, fun hst => ?_, fun hts hst hshort => ?_⟩
  · rw [heval, if_pos ((hfork.eq_left hh).mpr hts)]
  · rw [heval]
    split
    · next hca =>
      -- then the two versions are one
      have hts := (hfork.eq_left hh).mp hca
      rw [hh.antisymm hst hts]
    · rw [if_pos ((hfork.eq_right hh).mpr hst)]
  · rw [heval, if_neg (mt (hfork.eq_left hh).mp hts), if_neg (mt (hfork.eq_right hh).mp hst)]
    rcases performs hw ha hshort with herr | ⟨w', u, hp, hrun⟩
    · exact Or.inl herr
    · refine Or.inr ⟨w', u, ⟨hp.steps, hp.mem, hp.based, ?_⟩, hrun⟩
      rw [hp.contents]
      exact hs.threeWay hfork.trail s.contents

/-- The changes of version 5 are applied to version 42. -/
theorem merge_threeWay_forkRun : ∃ w' u, Merged smallBuild forkRun forkForward [5] forkSecond w' u ∧
    eval (aodbmMerge smallBuild forkStubs 42 5) forkRun.db = .ok (u.ver, w'.db) := by
  have hh := (inv_of_reachable forkRun_reachable).headers
  have hmem : forkFirst ∈ forkRun.snaps := List.mem_cons_of_mem _ List.mem_cons_self
  have hknown : Fork forkRun.Parent 42 5 0 [5] := forkRun_fork (.inr rfl) (.inl rfl) (by decide)
  obtain ⟨c, vs, hfork, -, -, hmerge⟩ := merge_threeWay forkRun_reachable forkStubs_sound
    (s := forkSecond) (t := forkFirst) List.mem_cons_self hmem
  obtain rfl : (0 : Nat) = c := hknown.unique hfork hh
  have hvs : vs = [5] := by
    cases hfork.trail with
    | cons hp hrest =>
      obtain ⟨_, rfl⟩ := forkRun_parent.mp hp
      cases hrest with
      | nil => rfl
      | cons hp' _ => exact absurd (forkRun_parent.mp hp').1 (by decide)
  subst hvs
  have hts : ¬ forkRun.BasedOn 5 42 := fun h => absurd ((hknown.eq_left hh).mpr h) (by decide)
  have hst : ¬ forkRun.BasedOn 42 5 := fun h => absurd ((hknown.eq_right hh).mpr h) (by decide)
  rcases hmerge hts hst forkShort_first with herr | hok
  · exact absurd (herr.symm.trans forkMerges.1) (by simp)
  · exact hok

/-! ## The order of the two versions -/

/-- What a client reads of a version. -/
theorem Inv.eval_get (hw : Inv B w) (hs : s ∈ w.snaps) (k : Data) :
    eval (aodbmGet B s.ver k) w.db = .ok (s.contents k, w.db) := by
  obtain ⟨rs, hrs, hq⟩ := hw.contents hs
  rw [hq]
  exact hrs.get hw.synced k

/-- A merge that returned, of two versions of which none is based on the other. -/
theorem Merged.of_eval (hw : ReachableShort B w) (hs : stubs.Sound w f g) (ha : s ∈ w.snaps)
    (hb : t ∈ w.snaps) (hfork : Fork w.Parent s.ver t.ver c vs) (hca : c ≠ s.ver) (hcb : c ≠ t.ver)
    (hshort : ShortChanges B (vs.flatMap f) s.ver w.db) {v : Nat}
    (hrun : eval (aodbmMerge B stubs s.ver t.ver) w.db = .ok (v, db)) :
    ∃ w' u, Merged B w f vs s w' u ∧ w'.db = db ∧ u.ver = v := by
  have hh := (inv_of_reachable hw).headers
  rw [hfork.eval_merge hh hs.steps ⟨s, ha, rfl⟩ ⟨t, hb, rfl⟩, if_neg hca, if_neg hcb] at hrun
  rcases performs hw ha hshort with herr | ⟨w', u, hp, hok⟩
  · rw [herr] at hrun
    cases hrun
  · rw [hok] at hrun
    cases hrun
    refine ⟨w', u, ⟨hp.steps, hp.mem, hp.based, ?_⟩, rfl, rfl⟩
    rw [hp.contents]
    exact hs.threeWay hfork.trail s.contents

/-- Every key has the value of `m` already after the oldest step that changes it. -/
def Settled (f : Nat → List Change) (vs : List Nat) (M : Nat → Data → Option Data)
    (m : Data → Option Data) : Prop :=
  ∀ k v, Oldest Change.key f vs k v → M v k = m k

/-- Changes of different keys give the same map in both orders. -/
theorem ThreeWay.comm {M : Nat → Data → Option Data} {m₁ m₂ : Data → Option Data}
    (h₁ : ThreeWay f vs M (M a) m₁) (h₂ : ThreeWay f us M (M b) m₂)
    (hvs : Trail P b vs c) (hus : Trail P a us c)
    (hf : ∀ {v p : Nat}, P v p → overwrites Change.key Change.after (f v) (M p) = M v)
    (hset₁ : Settled f vs M (M b)) (hset₂ : Settled f us M (M a))
    (hapart : ∀ k, (∃ v ∈ vs, Touches Change.key (f v) k) →
      ∀ u ∈ us, ¬ Touches Change.key (f u) k) : m₁ = m₂ := by
  funext k
  by_cases hv : ∃ v ∈ vs, Touches Change.key (f v) k
  · obtain ⟨v, hold⟩ := exists_oldest hv
    rw [h₁.taken k v hold, hset₁ k v hold, h₂.kept k (hapart k hv)]
  · have hnone : ∀ v ∈ vs, ¬ Touches Change.key (f v) k := fun v hmem ht => hv ⟨v, hmem, ht⟩
    rw [h₁.kept k hnone]
    by_cases hu : ∃ u ∈ us, Touches Change.key (f u) k
    · obtain ⟨u, hold⟩ := exists_oldest hu
      rw [h₂.taken k u hold, hset₂ k u hold]
    · have hnone' : ∀ u ∈ us, ¬ Touches Change.key (f u) k := fun u hmem ht => hu ⟨u, hmem, ht⟩
      rw [h₂.kept k hnone', hus.untouched hf hnone', hvs.untouched hf hnone]

/-- One step has the value of its version. -/
theorem Inv.settled (hw : Inv B w) (ht : t ∈ w.snaps) :
    Settled f [t.ver] w.contentsOf t.contents := by
  rintro k v ⟨newer, older, hsplit, -⟩
  have hv : v ∈ [t.ver] := by
    rw [hsplit]
    exact List.mem_append_right _ List.mem_cons_self
  rw [List.mem_singleton.mp hv, hw.contentsOf ht]

/-- In runs with short blocks two versions whose steps from the common ancestor change different
keys, each of them to one value, give the same records when they are merged in either order. -/
theorem merge_comm (hw : ReachableShort B w) (hs : stubs.Sound w f g) (ha : s ∈ w.snaps)
    (hb : t ∈ w.snaps) (hl : Fork w.Parent s.ver t.ver c vs) (hr : Fork w.Parent t.ver s.ver c us)
    (hset₁ : Settled f vs w.contentsOf t.contents) (hset₂ : Settled f us w.contentsOf s.contents)
    (hapart : ∀ k, (∃ v ∈ vs, Touches Change.key (f v) k) →
      ∀ u ∈ us, ¬ Touches Change.key (f u) k)
    (hshort₁ : ShortChanges B (vs.flatMap f) s.ver w.db)
    (hshort₂ : ShortChanges B (us.flatMap f) t.ver w.db) {v₁ v₂ : Nat} {db₁ db₂ : Db}
    (hrun₁ : eval (aodbmMerge B stubs s.ver t.ver) w.db = .ok (v₁, db₁))
    (hrun₂ : eval (aodbmMerge B stubs t.ver s.ver) w.db = .ok (v₂, db₂)) (k : Data) :
    ∃ x, eval (aodbmGet B v₁ k) db₁ = .ok (x, db₁) ∧ eval (aodbmGet B v₂ k) db₂ = .ok (x, db₂) := by
  have hinv := inv_of_reachable hw
  have hka : w.Known s.ver := ⟨s, ha, rfl⟩
  have hkb : w.Known t.ver := ⟨t, hb, rfl⟩
  have heval₁ := hl.eval_merge hinv.headers hs.steps hka hkb
  have heval₂ := hr.eval_merge hinv.headers hs.steps hkb hka
  by_cases hca : c = s.ver
  · -- both orders return the second version
    rw [heval₁, if_pos hca] at hrun₁
    cases hrun₁
    rw [heval₂, if_pos hca] at hrun₂
    have hsame : (t.ver, w.db) = (v₂, db₂) := by
      split at hrun₂
      · next hcb =>
        rw [← hcb, hca]
        exact Except.ok.inj hrun₂
      · exact Except.ok.inj hrun₂
    cases hsame
    exact ⟨_, hinv.eval_get hb k, hinv.eval_get hb k⟩
  by_cases hcb : c = t.ver
  · rw [heval₁, if_neg hca, if_pos hcb] at hrun₁
    rw [heval₂, if_pos hcb] at hrun₂
    cases hrun₁
    cases hrun₂
    exact ⟨_, hinv.eval_get ha k, hinv.eval_get ha k⟩
  obtain ⟨w₁, u₁, hm₁, rfl, rfl⟩ := Merged.of_eval hw hs ha hb hl hca hcb hshort₁ hrun₁
  obtain ⟨w₂, u₂, hm₂, rfl, rfl⟩ := Merged.of_eval hw hs hb ha hr hcb hca hshort₂ hrun₂
  have hsame : u₁.contents = u₂.contents := by
    have h₁ := hm₁.contents
    have h₂ := hm₂.contents
    rw [← hinv.contentsOf ha] at h₁ hset₂
    rw [← hinv.contentsOf hb] at h₂ hset₁
    exact h₁.comm h₂ hl.trail hr.trail hs.overwrites hset₁ hset₂ hapart
  refine ⟨u₁.contents k, (inv_of_reachable (hw.trans hm₁.steps)).eval_get hm₁.mem k, ?_⟩
  rw [hsame]
  exact (inv_of_reachable (hw.trans hm₂.steps)).eval_get hm₂.mem k

/-- The key of the first version is found in both. -/
theorem merge_comm_forkRun : ∃ x,
    eval (aodbmGet smallBuild 70 [1]) (forkRun.db.append (forkBlock 42)) =
        .ok (x, forkRun.db.append (forkBlock 42)) ∧
      eval (aodbmGet smallBuild 70 [1]) (forkRun.db.append (forkBlock 5)) =
        .ok (x, forkRun.db.append (forkBlock 5)) := by
  have hinv := inv_of_reachable forkRun_reachable
  have hmem : forkFirst ∈ forkRun.snaps := List.mem_cons_of_mem _ List.mem_cons_self
  have hl : Fork forkRun.Parent 42 5 0 [5] := forkRun_fork (.inr rfl) (.inl rfl) (by decide)
  have hr : Fork forkRun.Parent 5 42 0 [42] := forkRun_fork (.inl rfl) (.inr rfl) (by decide)
  have hapart : ∀ k, (∃ v ∈ [5], Touches Change.key (forkForward v) k) →
      ∀ u ∈ [42], ¬ Touches Change.key (forkForward u) k := by
    rintro k ⟨v, hv, d, hd, rfl⟩ u hu ⟨e, he, hkey⟩
    obtain rfl := List.mem_singleton.mp hv
    obtain rfl := List.mem_singleton.mp hu
    obtain rfl := List.mem_singleton.mp hd
    obtain rfl := List.mem_singleton.mp he
    exact absurd hkey (by decide)
  exact merge_comm forkRun_reachable forkStubs_sound (s := forkSecond) (t := forkFirst)
    List.mem_cons_self hmem hl hr (hinv.settled hmem) (hinv.settled List.mem_cons_self) hapart
    forkShort_first forkShort_second forkMerges.1 forkMerges.2 [1]

/-! ## Committing a merged version -/

/-- The commit is accepted, or the file would get too long. -/
def Accepted (B : Build) (db : Db) (v : Nat) : Prop :=
  eval (aodbmCommit B v) db = .error .osError ∨ ∃ db', eval (aodbmCommit B v) db = .ok (true, db')

/-- The commit is refused. -/
def Refused (B : Build) (db : Db) (v : Nat) : Prop := eval (aodbmCommit B v) db = .ok (false, db)

theorem Inv.accepted (hw : Inv B w) {v : Nat} (hv : w.Known v) (hbased : w.BasedOn v w.db.cur) :
    Accepted B w.db v := by
  obtain ⟨r, hr, heval⟩ := eval_commit hw.headers hv
  rw [if_pos (hr.mpr hbased)] at heval
  split at heval
  · exact Or.inr ⟨_, heval⟩
  · exact Or.inl heval

theorem Inv.refused (hw : Inv B w) {v : Nat} (hv : w.Known v) (hbased : ¬ w.BasedOn v w.db.cur) :
    Refused B w.db v := by
  obtain ⟨r, hr, heval⟩ := eval_commit hw.headers hv
  rw [if_neg (mt hr.mp hbased)] at heval
  exact heval

/-- What was made later changes nothing in the ancestry of a version. -/
theorem basedOn_earlier (hw : Inv B w) (hw' : Inv B w') (hsub : w.snaps ⊆ w'.snaps)
    (ha : w.Known a) (hab : w'.BasedOn a b) : w.BasedOn a b := by
  refine And.right (hab.inherit (p := fun v => w.Known v ∧ w.BasedOn a v) ?_ ⟨ha, Based.refl a⟩)
  rintro u v huv ⟨hu, hau⟩
  have h0 : u ≠ 0 := by
    obtain ⟨_, _, _, _, h0⟩ := huv
    exact h0
  obtain ⟨q, hq, hknown⟩ := hw.headers.parent hu h0
  have hq' : w'.Parent u q := by
    obtain ⟨r, hr, hrest⟩ := hq
    exact ⟨r, hsub hr, hrest⟩
  obtain rfl := hw'.headers.lineage.unique huv hq'
  exact ⟨hknown, hau.tail hq⟩

/-- The changes have been applied, and no commit was made. -/
theorem Fork.merge_cur (h : Fork w.Parent s.ver t.ver c vs) (hw : Inv B w)
    (hs : StepsAre w.db w.Parent stubs f g) (ha : s ∈ w.snaps) (hb : t ∈ w.snaps) {v : Nat}
    (hrun : eval (aodbmMerge B stubs s.ver t.ver) w.db = .ok (v, db)) : db.cur = w.db.cur := by
  rw [h.eval_merge hw.headers hs ⟨s, ha, rfl⟩ ⟨t, hb, rfl⟩] at hrun
  split at hrun
  · cases hrun
    rfl
  · split at hrun
    · cases hrun
      rfl
    · exact eval_cur (ofUpdate_apply B _ _) hrun

theorem snaps_subset_of_run (h : Relation.ReflTransGen (ShortStep B) w w') :
    w.snaps ⊆ w'.snaps := by
  induction h with
  | refl => exact List.Subset.refl _
  | tail _ hstep ih => exact List.Subset.trans ih hstep.1.snaps_subset

/-- `t` is current, and a client has made `s`. In runs with short blocks the client can commit what
`aodbm_merge` makes of the current version and its own, but not, if none of the two is based on the
other, what it makes of them in the other order. -/
theorem merge_commit (hw : ReachableShort B w) (hs : stubs.Sound w f g) (ha : s ∈ w.snaps)
    (hb : t ∈ w.snaps) (hcur : w.db.cur = t.ver) (hl : Fork w.Parent s.ver t.ver c vs)
    (hr : Fork w.Parent t.ver s.ver c us)
    (hshort₁ : ShortChanges B (vs.flatMap f) s.ver w.db)
    (hshort₂ : ShortChanges B (us.flatMap f) t.ver w.db) :
    (∀ v db, eval (aodbmMerge B stubs t.ver s.ver) w.db = .ok (v, db) → Accepted B db v) ∧
      ∀ v db, eval (aodbmMerge B stubs s.ver t.ver) w.db = .ok (v, db) →
        if c = s.ver ∨ c = t.ver then Accepted B db v else Refused B db v := by
  have hinv := inv_of_reachable hw
  have hka : w.Known s.ver := ⟨s, ha, rfl⟩
  have hkb : w.Known t.ver := ⟨t, hb, rfl⟩
  have hself : Accepted B w.db t.ver := hinv.accepted hkb (hcur ▸ Based.refl _)
  have hnewer : c = t.ver → Accepted B w.db s.ver := fun hct =>
    hinv.accepted hka (hcur ▸ (hl.eq_right hinv.headers).mp hct)
  have heval₁ := hl.eval_merge hinv.headers hs.steps hka hkb
  have heval₂ := hr.eval_merge hinv.headers hs.steps hkb hka
  refine ⟨fun v db hrun => ?_, fun v db hrun => ?_⟩
  · have hcur' := hr.merge_cur hinv hs.steps hb ha hrun
    by_cases hct : c = t.ver
    · rw [heval₂, if_pos hct] at hrun
      cases hrun
      exact hnewer hct
    by_cases hcs : c = s.ver
    · rw [heval₂, if_neg hct, if_pos hcs] at hrun
      cases hrun
      exact hself
    obtain ⟨w', u, hm, rfl, rfl⟩ := Merged.of_eval hw hs hb ha hr hct hcs hshort₂ hrun
    have hinv' := inv_of_reachable (hw.trans hm.steps)
    refine hinv'.accepted ⟨u, hm.mem, rfl⟩ ?_
    rw [hcur', hcur]
    exact hm.based
  · have hcur' := hl.merge_cur hinv hs.steps ha hb hrun
    by_cases hcs : c = s.ver
    · rw [heval₁, if_pos hcs] at hrun
      cases hrun
      rw [if_pos (Or.inl hcs)]
      exact hself
    by_cases hct : c = t.ver
    · rw [heval₁, if_neg hcs, if_pos hct] at hrun
      cases hrun
      rw [if_pos (Or.inr hct)]
      exact hnewer hct
    rw [if_neg (not_or.mpr ⟨hcs, hct⟩)]
    obtain ⟨w', u, hm, rfl, rfl⟩ := Merged.of_eval hw hs ha hb hl hcs hct hshort₁ hrun
    have hinv' := inv_of_reachable (hw.trans hm.steps)
    have hsub := snaps_subset_of_run hm.steps
    refine hinv'.refused ⟨u, hm.mem, rfl⟩ fun hut => ?_
    rw [hcur', hcur] at hut
    -- the new version is based on `s`, so one of the two is based on the other
    rcases hinv'.headers.lineage.total hm.based hut with hst | hts
    · exact hct ((hl.eq_right hinv.headers).mpr (basedOn_earlier hinv hinv' hsub hka hst))
    · exact hcs ((hl.eq_left hinv.headers).mpr (basedOn_earlier hinv hinv' hsub hkb hts))

/-- Version 5 is current: merged with the other one it can be committed, in the other order not. -/
theorem merge_commit_forkRun :
    Accepted smallBuild (forkRun.db.append (forkBlock 5)) 70 ∧
      Refused smallBuild (forkRun.db.append (forkBlock 42)) 70 := by
  have hmem : forkFirst ∈ forkRun.snaps := List.mem_cons_of_mem _ List.mem_cons_self
  have hl : Fork forkRun.Parent 42 5 0 [5] := forkRun_fork (.inr rfl) (.inl rfl) (by decide)
  have hr : Fork forkRun.Parent 5 42 0 [42] := forkRun_fork (.inl rfl) (.inr rfl) (by decide)
  have hboth := merge_commit forkRun_reachable forkStubs_sound (s := forkSecond) (t := forkFirst)
    List.mem_cons_self hmem rfl hl hr forkShort_first forkShort_second
  exact ⟨hboth.1 70 _ forkMerges.2, hboth.2 70 _ forkMerges.1⟩

/-! ## Without the missing functions -/

/-- `aodbm_diff_prev` and `aodbm_diff_prev_rev` as they are: `assert(0)`. -/
def assertingStubs : Stubs := ⟨fun _ => .fail .assertion, fun _ => .fail .assertion⟩

theorem diffLoop_asserting {rounds stop ver : Nat} (hne : ver ≠ stop) (res : List Change) :
    eval (diffLoop B (fun _ => .fail .assertion) stop (rounds + 1) ver res) db =
      .error .assertion := by
  rw [diffLoop, if_neg hne]
  rfl

/-- Along one line. -/
theorem diffRecursive_line (hanc : eval (aodbmCommonAncestor B a b) db = .ok (c, db))
    (hc : c = a ∨ c = b) (hab : a ≠ b) (n : Nat) :
    eval (diffRecursive B assertingStubs (n + 1) a b) db = .error .assertion := by
  have hdepth : maxDepth = (2 ^ 64 - 1) + 1 := by decide
  have hline : ¬ (c ≠ a ∧ c ≠ b) := fun h => hc.elim h.1 h.2
  rw [diffRecursive, eval, run_bind_ok hanc, if_neg hline, hdepth]
  rcases Nat.lt_or_gt_of_ne hab with hlt | hgt
  · rw [if_pos hlt]
    exact diffLoop_asserting hab.symm []
  · rw [if_neg (Nat.lt_asymm hgt), if_pos hgt]
    exact diffLoop_asserting hab []

theorem diffRecursive_asserting (hh : Headers B db.file P known) (ha : known a) (hb : known b)
    (hab : a ≠ b) (n : Nat) :
    eval (diffRecursive B assertingStubs (n + 2) a b) db = .error .assertion := by
  obtain ⟨c, vs, hfork, hanc⟩ := hh.fork ha hb
  by_cases hc : c = a ∨ c = b
  · exact diffRecursive_line hanc hc hab (n + 1)
  · obtain ⟨hca, hcb⟩ := not_or.mp hc
    have hdown : Fork P c b c vs := ⟨Based.refl c, hfork.trail, fun d hd _ => hd⟩
    have hanc' := hdown.eval_ancestor hh (hh.known_of_based hfork.left ha) hb
    rw [diffRecursive, eval, run_bind_ok hanc, if_pos ⟨hca, hcb⟩]
    exact run_bind_error (diffRecursive_line hanc' (Or.inl rfl) hcb n)

theorem diff_asserting (hh : Headers B db.file P known) (ha : known a) (hb : known b)
    (hab : a ≠ b) : eval (aodbmDiff B assertingStubs a b) db = .error .assertion := by
  have hdepth : maxDepth = (2 ^ 64 - 2) + 2 := by decide
  rw [aodbmDiff, hdepth]
  exact diffRecursive_asserting hh ha hb hab _

/-- In runs with short blocks `aodbm_diff` ends in an assertion on any two different versions, and
`aodbm_merge` on any two versions of which none is based on the other. -/
theorem merge_asserting (hw : ReachableShort B w) (ha : s ∈ w.snaps) (hb : t ∈ w.snaps) :
    (w.BasedOn t.ver s.ver →
        eval (aodbmMerge B assertingStubs s.ver t.ver) w.db = .ok (t.ver, w.db)) ∧
      (w.BasedOn s.ver t.ver →
        eval (aodbmMerge B assertingStubs s.ver t.ver) w.db = .ok (s.ver, w.db)) ∧
      (¬ w.BasedOn t.ver s.ver → ¬ w.BasedOn s.ver t.ver →
        eval (aodbmMerge B assertingStubs s.ver t.ver) w.db = .error .assertion) ∧
      (s.ver ≠ t.ver →
        eval (aodbmDiff B assertingStubs s.ver t.ver) w.db = .error .assertion) := by
  have hh := (inv_of_reachable hw).headers
  have hka : w.Known s.ver := ⟨s, ha, rfl⟩
  have hkb : w.Known t.ver := ⟨t, hb, rfl⟩
  obtain ⟨c, vs, hfork, _⟩ := hh.fork hka hkb
  have heval := @Fork.eval_branches _ _ _ _ _ _ _ assertingStubs _ hfork hh hka hkb
  refine ⟨fun hts => ?_, fun hst => ?_, fun hts hst => ?_, diff_asserting hh hka hkb⟩
  · rw [heval, if_pos ((hfork.eq_left hh).mpr hts)]
  · rw [heval]
    split
    · next hca => rw [hh.antisymm hst ((hfork.eq_left hh).mp hca)]
    · rw [if_pos ((hfork.eq_right hh).mpr hst)]
  · have hcb := mt (hfork.eq_right hh).mp hst
    rw [heval, if_neg (mt (hfork.eq_left hh).mp hts), if_neg hcb]
    exact run_bind_error (diff_asserting hh (hh.known_of_based hfork.left hka) hkb hcb)

/-- The two versions of the fork cannot be merged. -/
theorem merge_asserting_forkRun :
    eval (aodbmMerge smallBuild assertingStubs 42 5) forkRun.db = .error .assertion := by
  have hh := (inv_of_reachable forkRun_reachable).headers
  have hknown : Fork forkRun.Parent 42 5 0 [5] := forkRun_fork (.inr rfl) (.inl rfl) (by decide)
  obtain ⟨-, -, hneither, -⟩ := merge_asserting forkRun_reachable (s := forkSecond) (t := forkFirst)
    List.mem_cons_self (List.mem_cons_of_mem _ List.mem_cons_self)
  exact hneither (fun h => absurd ((hknown.eq_left hh).mpr h) (by decide))
    fun h => absurd ((hknown.eq_right hh).mpr h) (by decide)

end Aodbm
