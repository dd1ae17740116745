import Aodbm.Changeset
import Aodbm.Lib.Overwrites

/-!
# Differences of versions (`aodbm_diff`)

`aodbm_diff` goes over the common ancestor of two versions, back from the first and forward to
the second, and merges the changesets of the single steps, which two functions without a body
are to return.

Results:
1. `eval_diffLoop`: a loop merges the changesets of the steps from the newest to the oldest.
2. `eval_diff`: `aodbm_diff` terminates; first come the steps back, then those forward.
3. `diff_transforms`: the steps back are in the right order; those forward lead to the second
   version exactly when for each key the oldest step that changes it decides.
4. `diff_reversed`: a key that is set twice.
-/

namespace Aodbm

open Effects Bytes History

/-- The functions that the source leaves without a body, on the changes of the changesets. -/
structure Stubs where
  /-- "Find the changeset that you would apply to the prev to get to ver" -/
  diffPrev : Nat → Op (List Change)
  /-- "Find the changeset that you would apply to ver to get to the prev" -/
  diffPrevRev : Nat → Op (List Change)

variable (B : Build)

/-- The two loops of `aodbm_diff`, for at most the given number of rounds. Merging changesets
appends their changes, see `Changesets.Backed.mergeDi`. -/
def diffLoop (step : Nat → Op (List Change)) (stop : Nat) :
    Nat → Nat → List Change → Op (List Change)
  | 0, _, _ => .fail .diverges
  | rounds + 1, ver, res =>
    if ver = stop then pure res
    else do
      let ch ← step ver
      let prev ← aodbmPreviousVersion B ver
      diffLoop step stop rounds prev (res ++ ch)

/-- The recursion of `aodbm_diff` with a bound on its steps. The accumulator `res` is not
initialised in the source; it is the empty changeset here. -/
def diffRecursive (stubs : Stubs) : Nat → Nat → Nat → Op (List Change)
  | 0, _, _ => .fail .diverges
  | depth + 1, a, b => do
    let c ← aodbmCommonAncestor B a b
    if c ≠ a ∧ c ≠ b then do
      let cb ← diffRecursive stubs depth c b
      let ac ← diffRecursive stubs depth a c
      pure (ac ++ cb)
    else if a < b then diffLoop B stubs.diffPrev a maxDepth b []
    else if b < a then diffLoop B stubs.diffPrevRev b maxDepth a []
    else pure []

/-- "Find the changeset that you would apply to go from a to b" -/
def aodbmDiff (stubs : Stubs) (a b : Nat) : Op (List Change) := diffRecursive B stubs maxDepth a b

/-! ## What is merged -/

variable {B}
variable {db : Db} {P : Nat → Nat → Prop} {known : Nat → Prop} {a b c : Nat}
  {f g : Nat → List Change} {stubs : Stubs}

/-- The loops follow the trail and merge the changesets of its steps, the newest first. -/
theorem eval_diffLoop (hh : Headers B db.file P known) {vs : List Nat} (ht : Trail P a vs b)
    (ha : known a) {step : Nat → Op (List Change)}
    (hstep : ∀ {v p : Nat}, P v p → eval (step v) db = .ok (f v, db)) {n : Nat}
    (hn : a < n) (res : List Change) :
    eval (diffLoop B step b n a res) db = .ok (res ++ vs.flatMap f, db) := by
  induction ht generalizing n res with
  | nil a =>
    obtain ⟨n, rfl⟩ := Nat.exists_eq_add_one.mpr (Nat.zero_lt_of_lt hn)
    rw [diffLoop, if_pos rfl, List.flatMap_nil, List.append_nil]
    rfl
  | @cons a p b vs hp hrest ih =>
    obtain ⟨n, rfl⟩ := Nat.exists_eq_add_one.mpr (Nat.zero_lt_of_lt hn)
    have hpa := hh.lineage.older hp
    have hne : a ≠ b := by
      have := hh.lineage.le hrest.based
      omega
    obtain ⟨q, hq, hknown⟩ := hh.parent ha (by omega)
    obtain rfl := hh.lineage.unique hp hq
    rw [diffLoop, if_neg hne, eval, run_bind_ok (hstep hp), run_bind_ok (hh.eval_previous ha hp),
      List.flatMap_cons, ← List.append_assoc]
    exact ih hknown (by omega) _

/-- The changesets of the steps, forward and back. -/
structure StepsAre (db : Db) (P : Nat → Nat → Prop) (stubs : Stubs) (f g : Nat → List Change) :
    Prop where
  forward : ∀ {v p : Nat}, P v p → eval (stubs.diffPrev v) db = .ok (f v, db)
  back : ∀ {v p : Nat}, P v p → eval (stubs.diffPrevRev v) db = .ok (g v, db)

/-- Versions that a known version is based on are known. -/
theorem Headers.known_of_based {file : Data} (hh : Headers B file P known) (hab : Based P a b)
    (ha : known a) : known b := by
  refine hab.inherit (fun {v p} hp hv => ?_) ha
  have hv0 : v ≠ 0 := by
    have := hh.lineage.older hp
    omega
  obtain ⟨q, hq, hknown⟩ := hh.parent hv hv0
  exact hh.lineage.unique hp hq ▸ hknown

/-- Two versions that are based on each other are one. -/
theorem Headers.antisymm {file : Data} (hh : Headers B file P known) (hab : Based P a b)
    (hba : Based P b a) : a = b :=
  le_antisymm (hh.lineage.le hba) (hh.lineage.le hab)

variable {n : Nat} {us vs : List Nat}

/-- Forward along one line. -/
theorem eval_diff_forward (hh : Headers B db.file P known) (hs : StepsAre db P stubs f g)
    (hb : known b) (ht : Trail P b vs a) :
    eval (diffRecursive B stubs (n + 1) a b) db = .ok (vs.flatMap f, db) := by
  have ha := hh.known_of_based ht.based hb
  obtain ⟨c, hc, hac, _, hnewest⟩ := eval_commonAncestor hh ha hb
  obtain rfl := hh.antisymm hac (hnewest a (.refl a) ht.based)
  have hbound := hh.bound hb
  rw [diffRecursive, eval, run_bind_ok hc, if_neg (fun h => h.1 rfl)]
  by_cases hab : a < b
  · rw [if_pos hab]
    have hloop := eval_diffLoop hh ht hb hs.forward (n := maxDepth)
      (by unfold maxDepth; omega) []
    rwa [List.nil_append] at hloop
  · have hle := hh.lineage.le ht.based
    obtain rfl : a = b := by omega
    rw [if_neg hab, if_neg hab]
    cases ht with
    | nil => rfl
    | cons hp hrest =>
      have h1 := hh.lineage.older hp
      have h2 := hh.lineage.le hrest.based
      omega

/-- Back along one line. -/
theorem eval_diff_back (hh : Headers B db.file P known) (hs : StepsAre db P stubs f g)
    (ha : known a) (ht : Trail P a us b) (hne : a ≠ b) :
    eval (diffRecursive B stubs (n + 1) a b) db = .ok (us.flatMap g, db) := by
  have hb := hh.known_of_based ht.based ha
  obtain ⟨c, hc, _, hbc, hnewest⟩ := eval_commonAncestor hh ha hb
  obtain rfl := hh.antisymm hbc (hnewest b ht.based (.refl b))
  have hbound := hh.bound ha
  have hle := hh.lineage.le ht.based
  rw [diffRecursive, eval, run_bind_ok hc, if_neg (fun h => h.2 rfl), if_neg (by omega),
    if_pos (by omega)]
  have hloop := eval_diffLoop hh ht ha hs.back (n := maxDepth)
    (by unfold maxDepth; omega) []
  rwa [List.nil_append] at hloop

/-- `aodbm_diff` terminates. It merges the steps back to the common ancestor, the first one
first, and then the steps forward to the second version, the last one first. -/
theorem eval_diff (hh : Headers B db.file P known) (hs : StepsAre db P stubs f g) (ha : known a)
    (hb : known b) :
    ∃ c us vs, Trail P a us c ∧ Trail P b vs c ∧
      (∀ d, Based P a d → Based P b d → Based P c d) ∧
      eval (aodbmDiff B stubs a b) db = .ok (us.flatMap g ++ vs.flatMap f, db) := by
  obtain ⟨c, hc, hac, hbc, hnewest⟩ := eval_commonAncestor hh ha hb
  obtain ⟨us, hus⟩ := hac.trail
  obtain ⟨vs, hvs⟩ := hbc.trail
  have hdepth : maxDepth = (2 ^ 64 - 2) + 1 + 1 := by decide
  unfold aodbmDiff
  rw [hdepth]
  rcases eq_or_ne c a with rfl | hca
  · exact ⟨c, [], vs, .nil c, hvs, hnewest, eval_diff_forward hh hs hb hvs⟩
  · rcases eq_or_ne c b with rfl | hcb
    · have heval := eval_diff_back (n := 2 ^ 64 - 2 + 1) hh hs ha hus (Ne.symm hca)
      refine ⟨c, us, [], hus, .nil c, hnewest, ?_⟩
      rwa [List.flatMap_nil, List.append_nil]
    · have hcbrun := eval_diff_forward (n := 2 ^ 64 - 2) hh hs hb hvs
      have hacrun := eval_diff_back (n := 2 ^ 64 - 2) hh hs ha hus (Ne.symm hca)
      refine ⟨c, us, vs, hus, hvs, hnewest, ?_⟩
      rw [diffRecursive, eval, run_bind_ok hc, if_pos ⟨hca, hcb⟩, run_bind_ok hcbrun,
        run_bind_ok hacrun]
      rfl

/-! ## What the merged changeset does -/

def Change.key : Change → Data
  | .modify key _ => key
  | .remove key => key

/-- The value after the change. -/
def Change.after : Change → Option Data
  | .modify _ val => some val
  | .remove _ => none

theorem applied_eq (cs : List Change) (m : Data → Option Data) :
    applied cs m = overwrites Change.key Change.after cs m := by
  have hon : ∀ (c : Change) (m : Data → Option Data),
      c.on m = Function.update m c.key c.after := by
    intro c m
    cases c <;> rfl
  simp only [applied, overwrites, hon]

/-- The map that the version stands for. -/
def World.contentsOf (w : World) (v : Nat) : Data → Option Data :=
  ((w.snaps.find? fun s => s.ver = v).map Snapshot.contents).getD fun _ => none

variable {w : World}

theorem Inv.contentsOf (hw : Inv B w) {s : Snapshot} (hs : s ∈ w.snaps) :
    w.contentsOf s.ver = s.contents := by
  obtain ⟨t, ht⟩ : ∃ t, w.snaps.find? (fun t => t.ver = s.ver) = some t :=
    Option.isSome_iff_exists.mp (List.find?_isSome.mpr ⟨s, hs, by simp⟩)
  have hver : t.ver = s.ver := by simpa using List.find?_some ht
  obtain ⟨rs, hrs, hq⟩ := hw.contents hs
  obtain ⟨ts, hts, htq⟩ := hw.contents (List.mem_of_find?_eq_some ht)
  rw [World.contentsOf, ht]
  funext k
  -- both are what a lookup of the key answers
  have hget := (hver ▸ hts.get hw.synced k).symm.trans (hrs.get hw.synced k)
  simp only [Except.ok.injEq, Prod.mk.injEq, and_true] at hget
  exact (htq k).trans (hget.trans (hq k).symm)

/-- What the two functions without a body are to return: changesets that transform the contents
of a version and of the one it was made from into each other. -/
structure Stubs.Sound (stubs : Stubs) (w : World) (f g : Nat → List Change) : Prop where
  steps : StepsAre w.db w.Parent stubs f g
  forward : ∀ {v p : Nat}, w.Parent v p → applied (f v) (w.contentsOf p) = w.contentsOf v
  back : ∀ {v p : Nat}, w.Parent v p → applied (g v) (w.contentsOf v) = w.contentsOf p

/-- In runs with short blocks `aodbm_diff` terminates, and its changes transform the contents of
`a` into those of `b` exactly when, on the way from the newest common ancestor forward to `b`,
every key already has its value in `b` after the oldest step whose changeset mentions it. -/
theorem diff_transforms (hw : ReachableShort B w) (hs : stubs.Sound w f g) {s t : Snapshot}
    (ha : s ∈ w.snaps) (hb : t ∈ w.snaps) :
    ∃ c vs cs, Trail w.Parent t.ver vs c ∧ w.BasedOn s.ver c ∧
      (∀ d, w.BasedOn s.ver d → w.BasedOn t.ver d → w.BasedOn c d) ∧
      eval (aodbmDiff B stubs s.ver t.ver) w.db = .ok (cs, w.db) ∧
      (applied cs s.contents = t.contents ↔
        ∀ k v, Oldest Change.key f vs k v → w.contentsOf v k = t.contents k) ∧
      (ShortChanges B cs s.ver w.db → Applies B w s cs (aodbmApply B s.ver cs)) := by
  have hinv := inv_of_reachable hw
  obtain ⟨c, us, vs, hus, hvs, hnewest, heval⟩ :=
    eval_diff hinv.headers hs.steps ⟨s, ha, rfl⟩ ⟨t, hb, rfl⟩
  have hfwd : ∀ {v p : Nat}, w.Parent v p →
      overwrites Change.key Change.after (f v) (w.contentsOf p) = w.contentsOf v :=
    fun hp => (applied_eq _ _).symm.trans (hs.forward hp)
  have hback : ∀ {v p : Nat}, w.Parent v p →
      overwrites Change.key Change.after (g v) (w.contentsOf v) = w.contentsOf p :=
    fun hp => (applied_eq _ _).symm.trans (hs.back hp)
  refine ⟨c, vs, _, hvs, hus.based, hnewest, heval, ?_, applies_of_short hw ha⟩
  rw [applied_eq, overwrites_append, ← hinv.contentsOf ha, ← hinv.contentsOf hb,
    hus.overwrites_back hback]
  exact hvs.overwrites_iff hfwd

/-! ## Two runs -/

/-- The changesets of the short run, forward and back. -/
def shortForward (v : Nat) : List Change :=
  if v = 5 then [.modify [2] [20]] else [.modify [1] [10]]

def shortBack (v : Nat) : List Change := if v = 5 then [.remove [2]] else [.remove [1]]

def shortStubs : Stubs := ⟨fun v => pure (shortForward v), fun v => pure (shortBack v)⟩

/-- A version 33 was made from a version 5, and that one from version 0. -/
theorem twoSteps_parent {m₀ m₁ m₂ : Data → Option Data}
    (h : w.snaps = [⟨33, 5, m₂⟩, ⟨5, 0, m₁⟩, ⟨0, 0, m₀⟩]) {v p : Nat} (hp : w.Parent v p) :
    v = 33 ∧ p = 5 ∨ v = 5 ∧ p = 0 := by
  obtain ⟨s, hs, rfl, rfl, h0⟩ := hp
  simp only [h, List.mem_cons, List.not_mem_nil, or_false] at hs
  rcases hs with rfl | rfl | rfl
  · exact Or.inl ⟨rfl, rfl⟩
  · exact Or.inr ⟨rfl, rfl⟩
  · exact absurd rfl h0

theorem shortStubs_sound : shortStubs.Sound shortRun shortForward shortBack := by
  refine ⟨⟨fun _ => rfl, fun _ => rfl⟩, fun hp => ?_, fun hp => ?_⟩
  · rcases twoSteps_parent rfl hp with ⟨rfl, rfl⟩ | ⟨rfl, rfl⟩ <;> rfl
  · rcases twoSteps_parent rfl hp with ⟨rfl, rfl⟩ | ⟨rfl, rfl⟩
    · change Function.update (Function.update shortFirst.contents [1] (some [10])) [1] none = _
      rw [Function.update_idem]
      exact Function.update_eq_self_iff.mpr rfl
    · change Function.update (Function.update (fun _ => none) [2] (some [20])) [2] none = _
      rw [Function.update_idem]
      exact Function.update_eq_self_iff.mpr rfl

/-- Forward over the two versions of the short run, which set different keys. -/
theorem diff_transforms_short :
    ∃ cs, eval (aodbmDiff smallBuild shortStubs 0 33) shortRun.db = .ok (cs, shortRun.db) ∧
      applied cs (fun _ => none) = shortSecond.contents := by
  have hmem : (⟨0, 0, fun _ => none⟩ : Snapshot) ∈ shortRun.snaps :=
    List.mem_cons_of_mem _ (List.mem_cons_of_mem _ (List.mem_singleton_self _))
  obtain ⟨c, vs, cs, ht, -, -, heval, hiff, -⟩ :=
    diff_transforms shortRun_reachable shortStubs_sound hmem List.mem_cons_self
  refine ⟨cs, heval, hiff.mpr fun k v hv => ?_⟩
  obtain ⟨newer, older, rfl, ⟨ch, hch, rfl⟩, -⟩ := hv
  obtain ⟨p, u, hu, rfl, -, h0⟩ := ht.mem_parent (v := v) (by simp)
  simp only [shortRun, List.mem_cons, List.not_mem_nil, or_false] at hu
  rcases hu with rfl | rfl | rfl
  · rfl
  · obtain rfl := List.mem_singleton.mp hch
    rfl
  · exact absurd rfl h0

/-- A key is set to 10, then to 20. -/
def twiceFile : Data :=
  [100, 0, 0, 0, 23, 0, 0, 0, 0, 0, 0, 0, 0, 108, 0, 0, 0, 1, 0, 0, 0, 1, 1, 0, 0, 0, 1, 10] ++
    [100, 0, 0, 0, 23, 0, 0, 0, 0, 0, 0, 0, 5, 108, 0, 0, 0, 1, 0, 0, 0, 1, 1, 0, 0, 0, 1, 20]

def twiceFirst : Snapshot := ⟨5, 0, Function.update (fun _ => none) [1] (some [10])⟩

def twiceSecond : Snapshot := ⟨33, 5, Function.update twiceFirst.contents [1] (some [20])⟩

def twiceRun : World :=
  ⟨⟨twiceFile, 56, 0⟩, [twiceSecond, twiceFirst, ⟨0, 0, fun _ => none⟩], [], []⟩

theorem twiceRun_reachable : ReachableShort smallBuild twiceRun := by
  have h1 : eval (aodbmSet smallBuild 0 [1] [10]) Db.empty =
      .ok (5, ⟨twiceFile.take 28, 28, 0⟩) := by decide +kernel
  have h2 : eval (aodbmSet smallBuild 5 [1] [20]) ⟨twiceFile.take 28, 28, 0⟩ =
      .ok (33, ⟨twiceFile, 56, 0⟩) := by decide +kernel
  let w₁ : World := ⟨⟨twiceFile.take 28, 28, 0⟩, [twiceFirst, ⟨0, 0, fun _ => none⟩], [], []⟩
  have s1 : ShortStep smallBuild World.init w₁ :=
    ⟨.set (s := ⟨0, 0, fun _ => none⟩) (List.mem_singleton_self _) h1, by decide⟩
  have s2 : ShortStep smallBuild w₁ twiceRun :=
    ⟨.set (s := twiceFirst) List.mem_cons_self h2, by decide⟩
  exact .tail (.tail .refl s1) s2

/-- The changesets of the two steps. -/
def twiceForward (v : Nat) : List Change :=
  if v = 5 then [.modify [1] [10]] else [.modify [1] [20]]

def twiceBack (v : Nat) : List Change :=
  if v = 5 then [.remove [1]] else [.modify [1] [10]]

def twiceStubs : Stubs := ⟨fun v => pure (twiceForward v), fun v => pure (twiceBack v)⟩

theorem twiceStubs_sound : twiceStubs.Sound twiceRun twiceForward twiceBack := by
  refine ⟨⟨fun _ => rfl, fun _ => rfl⟩, fun hp => ?_, fun hp => ?_⟩
  · rcases twoSteps_parent rfl hp with ⟨rfl, rfl⟩ | ⟨rfl, rfl⟩ <;> rfl
  · rcases twoSteps_parent rfl hp with ⟨rfl, rfl⟩ | ⟨rfl, rfl⟩
    · change Function.update (Function.update twiceFirst.contents [1] (some [20])) [1]
        (some [10]) = _
      rw [Function.update_idem]
      exact Function.update_eq_self_iff.mpr rfl
    · change Function.update (Function.update (fun _ => none) [1] (some [10])) [1] none = _
      rw [Function.update_idem]
      exact Function.update_eq_self_iff.mpr rfl

/-- The two steps are merged in the wrong order: the key is left with the value 10. -/
theorem diff_reversed :
    ReachableShort smallBuild twiceRun ∧ twiceStubs.Sound twiceRun twiceForward twiceBack ∧
    ∃ cs, eval (aodbmDiff smallBuild twiceStubs 0 33) twiceRun.db = .ok (cs, twiceRun.db) ∧
      applied cs (fun _ => none) [1] = some [10] ∧ twiceSecond.contents [1] = some [20] := by
  refine ⟨twiceRun_reachable, twiceStubs_sound, [.modify [1] [20], .modify [1] [10]], ?_, ?_, ?_⟩
  · decide +kernel
  · decide
  · decide

end Aodbm
