import Aodbm.Lib.Splits
import Aodbm.Occupancy
import Aodbm.Refinement

/-!
# The height of a tree

`aodbm_del` merges nothing, so that a version may have more levels than its records need. It never
has more than the insertions it comes from pay for: a level takes `M / 2` times as many of them as
the level below.

Results:
1. `Climb.row`: what one update does on its way up.
2. `Rewritten.covered`: one update of a tree that is paid for.
3. `ReachableShort.insertions`: the insertions can be counted in every run with short blocks.
4. `height_bound`: the levels of all versions in these runs.
-/

namespace Aodbm

open Effects Records Bytes Splits

variable (B : Build)

def Node.form : Node → Form Nat
  | .leaf rs => .leaf rs.length
  | .branch first rest => .branch (first :: rest.map Prod.snd)

/-- A node of this form stands at the offset. -/
def Stands (file : Data) (off : Nat) (f : Form Nat) : Prop := ∃ n, NodeAt B file off n ∧ n.form = f

/-- The tree whose root stands at `off` has `d` levels of branches, and `n` insertions have led to
it. -/
def PaidTree (file : Data) (n d off : Nat) : Prop :=
  ∃ root, NodeAt B file off root ∧ Covered (Stands B file) (B.maxNodeSize / 2) n d root.form

/-- Runs of any calls with short blocks, and the number of insertions that each version comes
from. -/
inductive Insertions : World → (Nat → Nat) → Prop where
  | init : Insertions World.init fun _ => 0
  | set {w : World} {num : Nat → Nat} {s : Snapshot} {k x : Data} {v : Nat} {db : Db}
      (before : Insertions w num) (known : s ∈ w.snaps)
      (run : eval (aodbmSet B s.ver k x) w.db = .ok (v, db))
      (short : db.file.length < w.db.file.length + (5 + 2 ^ 32)) :
      Insertions { w with
        db := db, snaps := ⟨v, s.ver, Function.update s.contents k (some x)⟩ :: w.snaps }
        (Function.update num v (num s.ver + 1))
  | del {w : World} {num : Nat → Nat} {s : Snapshot} {k : Data} {v : Nat} {db : Db}
      (before : Insertions w num) (known : s ∈ w.snaps)
      (run : eval (aodbmDel B s.ver k) w.db = .ok (v, db))
      (short : db.file.length < w.db.file.length + (5 + 2 ^ 32)) :
      Insertions { w with
        db := db
        snaps := ⟨v, if v = s.ver then s.prev else s.ver,
          Function.update s.contents k none⟩ :: w.snaps } (Function.update num v (num s.ver))
  | other {w w' : World} {num : Nat → Nat} (before : Insertions w num) (step : ShortStep B w w')
      (same : w'.snaps = w.snaps) : Insertions w' num

variable {B}
variable {w w' : World} {file file' new new' : Data} {k lo : Data} {h d c n off root : Nat}
  {ns ns' : List (Data × Node)} {m r : Node}

theorem Stands.mono (hfile : file <+: file') (off : Nat) (f : Form Nat) (hf : Stands B file off f) :
    Stands B file' off f := by
  obtain ⟨n, hn, hform⟩ := hf
  exact ⟨n, hn.mono hfile, hform⟩

theorem PaidTree.mono (ht : PaidTree B file n d off) (hfile : file <+: file') :
    PaidTree B file' n d off := by
  obtain ⟨root, hroot, hcov⟩ := ht
  exact ⟨root, hroot.mono hfile, hcov.mono (Stands.mono hfile)⟩

theorem NodeAt.paid (hm : NodeAt B file off m)
    (hp : PaidAt (Stands B file) (B.maxNodeSize / 2) h off c) :
    Paid (Stands B file) (B.maxNodeSize / 2) h c m.form := by
  obtain ⟨f, ⟨m', hm', rfl⟩, hpaid⟩ := hp
  rwa [hm.unique hm']

/-! ## What an update makes -/

theorem form_branchOf {cs : List Kid} (hne : cs ≠ []) :
    (branchOf cs).form = .branch (cs.map Child.ref) := by
  obtain ⟨c, cs, rfl⟩ := List.exists_cons_of_ne_nil hne
  simp [branchOf, Node.form, kidPairs]

theorem form_halve (es : List Entry) :
    ((halve B es).map branchEntry).map (fun e => e.2.form) =
      ((halve B es).map (List.map Prod.snd)).map .branch := by
  rw [List.map_map, List.map_map]
  refine List.map_congr_left fun part hpart => ?_
  obtain ⟨e, part, rfl⟩ := List.exists_cons_of_ne_nil (halve_ne hpart)
  rfl

theorem parts_halve (es : List Entry) :
    Parts (B.maxNodeSize / 2) (es.map Prod.snd) ((halve B es).map (List.map Prod.snd)) := by
  unfold halve
  split
  · split
    · next hempty =>
      rw [List.isEmpty_iff.mp hempty]
      exact .none rfl
    · exact .one
  · next hfull =>
    simp only [List.map_cons, List.map_nil, List.map_take, List.map_drop]
    refine .two ?_
    rw [List.length_map]
    omega

/-- Behind a file, each node of a row stands at its offset. -/
theorem row_stands (file : Data) (hfits : ∀ e ∈ ns, e.2.Fits) :
    List.Forall₂ (Stands B (file ++ encNodes B ns)) ((placed B file.length ns).map Prod.snd)
      (ns.map fun e => e.2.form) := by
  induction ns generalizing file with
  | nil => exact .nil
  | cons e ns ih =>
    have hrest := ih (file ++ e.2.enc B) fun d hd => hfits d (List.mem_cons_of_mem _ hd)
    rw [List.length_append] at hrest
    rw [encNodes_cons, ← List.append_assoc]
    exact .cons ⟨e.2, ⟨segAt_mid _ _ _, hfits e List.mem_cons_self⟩, rfl⟩ hrest

/-- The whole way up. What is kept at the node pays for the nodes that replace it, up to `δ`, and
so it is with the root. -/
theorem Climb.row (hc : Climb B file k root h off new ns new' ns') (hroot : NodeAt B file root r)
    (hpaid : Paid (Stands B file) (B.maxNodeSize / 2) d c r.form) (hfile : file <+: new) :
    ∃ e x m, NodeAt B file off m ∧ Paid (Stands B file) (B.maxNodeSize / 2) e x m.form ∧
      ∀ δ, Row (Stands B new) (B.maxNodeSize / 2) e (x + δ) (ns.map fun y => y.2.form) →
        new <+: new' ∧ (∀ y ∈ ns', y.2.Fits) ∧
          Row (Stands B new') (B.maxNodeSize / 2) d (c + δ) (ns'.map fun y => y.2.form) := by
  induction hc with
  | root fits => exact ⟨d, c, r, hroot, hpaid, fun δ hrow => ⟨List.prefix_rfl, fits, hrow⟩⟩
  | @level h off lo new new' c l r ns ns' hb hroute fits hrest ih =>
    have hpre : new <+: new ++ encNodes B ns := List.prefix_append _ _
    obtain ⟨e, x, m, hm, hkept, hup⟩ := ih (hfile.trans hpre)
    obtain rfl := hm.unique hb.node
    rw [form_branchOf hb.ne, List.map_append, List.map_cons] at hkept
    cases e with
    | zero => cases hkept
    | succ e =>
      obtain ⟨y, ⟨f, ⟨m, hm, rfl⟩, hpaid⟩, hreplace⟩ := hkept.replace
      refine ⟨e, y, m, hm, hpaid, fun δ hrow => ?_⟩
      have hparts := parts_halve (B := B) (kidPairs l ++ placed B new.length ns ++ kidPairs r)
      have hrefs : ∀ cs : List Kid, (kidPairs cs).map Prod.snd = cs.map Child.ref := fun cs => by
        simp [kidPairs]
      rw [List.map_append, List.map_append, hrefs, hrefs] at hparts
      have hlevel := hreplace (Stands.mono (hfile.trans hpre)) (row_stands new fits)
        (hrow.mono (Stands.mono hpre)) hparts
      rw [← form_halve] at hlevel
      obtain ⟨hend, hrest⟩ := hup δ hlevel
      exact ⟨hpre.trans hend, hrest⟩

/-- One update of a tree that is paid for: `δ` insertions more have led to the new one. -/
theorem Rewritten.covered {ver leaf v δ : Nat} {ls : List Rec} {parts : List (List Rec)}
    {payload : Data} (hf : file.length < 2 ^ 63) (ht : PaidTree B file n d (ver + 8))
    (hleaf : NodeAt B file leaf (.leaf ls)) (hsum : parts.flatten.length ≤ ls.length + δ)
    (hsizes : parts.length ≤ 1 ∨ ∀ p ∈ parts, B.maxNodeSize / 2 ≤ p.length)
    (hr : Rewritten B file ver k leaf parts payload new ns file' v) :
    ∃ t, PaidTree B file' (n + δ) t (v + 8) := by
  obtain ⟨top, htop, c, hpaid, hle⟩ := ht
  obtain ⟨e, x, m, hm, hkept, hup⟩ := hr.climb.row htop hpaid (List.prefix_append _ _)
  obtain rfl := hm.unique hleaf
  have hforms : (parts.map leafEntry).map (fun y => y.2.form) =
      (parts.map List.length).map .leaf := by
    rw [List.map_map, List.map_map]
    rfl
  cases e with
  | succ e => cases hkept
  | zero =>
    rw [hforms] at hup
    obtain ⟨hpre, hfits, hrow⟩ := hup δ (row_leaves hkept (by rwa [← List.length_flatten])
      (by simpa using hsizes))
    have hnew := hpre.length_le
    simp only [List.length_append, List.length_singleton, from32_length] at hnew
    have htop := hr.top_fits hf (by omega) hfits
    have hroot := hr.root
    rw [← List.append_assoc] at hroot
    have hfile' : new ++ encNodes B (underRoot ns) <+: file' := hroot ▸ List.prefix_append _ _
    have hat : NodeAt B file' (v + 8) (topNode B new.length ns) := by
      refine ⟨?_, htop⟩
      rw [hr.returned, hroot, ← List.length_append]
      exact (segAt_root _ _ _).2
    have hstands := Stands.mono (B := B) hfile'
    have hmono := Stands.mono (B := B) ((List.prefix_append _ _).trans hfile')
    rcases ns with _ | ⟨a, _ | ⟨b, ns⟩⟩
    · exact ⟨0, _, hat, 0, Nat.zero_le _, by simp⟩
    · exact ⟨d, a.2, hat, (covered_one hrow hle).mono hmono⟩
    · refine ⟨d + 1, _, hat, (covered_top ?_ (by simp) (hrow.mono (Stands.mono
        (List.prefix_append _ _))) hle (row_stands new hfits)).mono hstands⟩
      have := B.four_le
      omega

/-! ## The updates -/

section Updates
variable {db db' : Db} {rs : List Rec} {ver v : Nat} {x : Data}

theorem PaidTree.leaf {ls : List Rec} (hleaf : NodeAt B file off (.leaf ls))
    (hle : ls.length ≤ B.maxNodeSize / 2) : PaidTree B file n 0 off :=
  ⟨_, hleaf, 0, hle, Nat.zero_le _⟩

theorem ContentsAt.set_covered (hc : ContentsAt B db.file ver rs) (hdb : db.Synced)
    (ht : ver ≠ 0 → ∃ d, PaidTree B db.file n d (ver + 8))
    (run : eval (aodbmSet B ver k x) db = .ok (v, db'))
    (hshort : db'.file.length < db.file.length + (5 + 2 ^ 32)) :
    ∃ t, PaidTree B db'.file (n + 1) t (v + 8) := by
  rcases hc with ⟨rfl, rfl⟩ | ⟨hver, htree⟩
  · have := B.four_le
    exact ⟨0, .leaf (first_nodeAt hdb run hshort) (by simp only [List.length_singleton]; omega)⟩
  · obtain ⟨lo, leaf, ls, path, hway⟩ := htree.leafWay hver hdb.bound k
    obtain ⟨result, parts, hres, -, hrecs, hgrown, hr⟩ :=
      hway.setResult hver x (db.file.length + 5)
    rw [eval_aodbmSet hdb hres] at run
    obtain ⟨new, ns, hrew⟩ := hr.rewritten hdb run hshort
    obtain ⟨d, hd⟩ := ht hver
    refine hrew.covered hdb.bound hd hway.node ?_ ?_
    · rw [hrecs]
      exact (upsert_length (rank B) k x ls).2
    · rcases hgrown with ⟨-, m, hone, -⟩ | ⟨a, b, htwo, ha, hb⟩
      · left
        rw [← List.length_map, hone, List.length_singleton]
      · right
        intro p hp
        have hmem := List.mem_map_of_mem (f := List.length) hp
        rw [htwo] at hmem
        simp only [List.mem_cons, List.not_mem_nil, or_false] at hmem
        rcases hmem with h | h <;> rwa [h]

theorem ContentsAt.del_covered (hc : ContentsAt B db.file ver rs) (hdb : db.Synced)
    (ht : ver ≠ 0 → ∃ d, PaidTree B db.file n d (ver + 8))
    (run : eval (aodbmDel B ver k) db = .ok (v, db'))
    (hshort : db'.file.length < db.file.length + (5 + 2 ^ 32)) (hv : v ≠ 0) :
    ∃ t, PaidTree B db'.file n t (v + 8) := by
  have hhas := hc.has hdb k
  cases hk : rs.lookup k with
  | none =>
    rw [hc.del_absent hdb hk] at run
    cases run
    exact ht hv
  | some y =>
    rw [hk] at hhas
    rcases hc with ⟨rfl, rfl⟩ | ⟨hver, htree⟩
    · cases hk
    obtain ⟨lo, leaf, ls, path, hway⟩ := htree.leafWay hver hdb.bound k
    obtain ⟨result, parts, hres, -, hrecs, hone, hr⟩ :=
      hway.delResult hver (db.file.length + 5)
    rw [eval_aodbmDel hdb hver hhas hres] at run
    obtain ⟨new, ns, hrew⟩ := hr.rewritten hdb run hshort
    obtain ⟨d, hd⟩ := ht hver
    refine hrew.covered (δ := 0) hdb.bound hd hway.node ?_ (.inl hone)
    rw [hrecs]
    exact List.length_filter_le _ ls

end Updates

/-! ## Runs -/

theorem Insertions.reachable {num : Nat → Nat} (hw : Insertions B w num) : ReachableShort B w := by
  induction hw with
  | init => exact .refl
  | set _ known run short ih => exact .tail ih ⟨.set known run, short⟩
  | del _ known run short ih => exact .tail ih ⟨.del known run, short⟩
  | other _ step _ ih => exact .tail ih step

/-- The insertions can be counted in every run with short blocks. -/
theorem ReachableShort.insertions (hw : ReachableShort B w) : ∃ num, Insertions B w num := by
  induction hw with
  | refl => exact ⟨_, .init⟩
  | tail _ hstep ih =>
    obtain ⟨num, hnum⟩ := ih
    obtain ⟨hstep, hshort⟩ := hstep
    cases hstep with
    | set known run => exact ⟨_, .set hnum known run hshort⟩
    | del known run => exact ⟨_, .del hnum known run hshort⟩
    | current run => exact ⟨_, .other hnum ⟨.current run, hshort⟩ rfl⟩
    | commit known run => exact ⟨_, .other hnum ⟨.commit known run, hshort⟩ rfl⟩
    | reject known run => exact ⟨_, .other hnum ⟨.reject known run, hshort⟩ rfl⟩
    | newIterator known run => exact ⟨_, .other hnum ⟨.newIterator known run, hshort⟩ rfl⟩
    | iterateFrom known run => exact ⟨_, .other hnum ⟨.iterateFrom known run, hshort⟩ rfl⟩
    | iteratorGoto opened run => exact ⟨_, .other hnum ⟨.iteratorGoto opened run, hshort⟩ rfl⟩
    | iteratorNext opened run => exact ⟨_, .other hnum ⟨.iteratorNext opened run, hshort⟩ rfl⟩

/-- One call that returned the version `v`. -/
theorem paid_update {num : Nat → Nat} {snaps : List Snapshot} {t : Snapshot}
    (hfile : file <+: file')
    (hold : ∀ s ∈ snaps, s.ver ≠ 0 → ∃ d, PaidTree B file (num s.ver) d (s.ver + 8))
    (hnew : t.ver ≠ 0 → ∃ d, PaidTree B file' n d (t.ver + 8)) :
    ∀ s ∈ t :: snaps, s.ver ≠ 0 →
      ∃ d, PaidTree B file' (Function.update num t.ver n s.ver) d (s.ver + 8) := by
  intro s hs hver
  by_cases heq : s.ver = t.ver
  · rw [heq, Function.update_self]
    exact hnew (heq ▸ hver)
  · rw [Function.update_of_ne heq]
    rcases List.mem_cons.mp hs with rfl | hs
    · exact absurd rfl heq
    · obtain ⟨d, hd⟩ := hold s hs hver
      exact ⟨d, hd.mono hfile⟩

/-- Every version that was obtained is paid for by the insertions it comes from. -/
theorem Insertions.paid {num : Nat → Nat} (hw : Insertions B w num) :
    ∀ s ∈ w.snaps, s.ver ≠ 0 → ∃ d, PaidTree B w.db.file (num s.ver) d (s.ver + 8) := by
  induction hw with
  | init =>
    intro s hs hver
    rw [List.mem_singleton.mp hs] at hver
    exact absurd rfl hver
  | @set w num s k x v db before known run short ih =>
    have hinv := inv_of_reachable before.reachable
    obtain ⟨rs, hrs, -⟩ := hinv.contents known
    have hgrown := eval_prefix run
    exact paid_update hgrown ih fun _ =>
      hrs.set_covered hinv.synced (ih s known) run short
  | @del w num s k v db before known run short ih =>
    have hinv := inv_of_reachable before.reachable
    obtain ⟨rs, hrs, -⟩ := hinv.contents known
    have hgrown := eval_prefix run
    exact paid_update hgrown ih fun hv =>
      hrs.del_covered hinv.synced (ih s known) run short hv
  | @other w w' num before step same ih =>
    intro s hs hver
    rw [same] at hs
    obtain ⟨d, hd⟩ := ih s hs hver
    exact ⟨d, hd.mono step.1.file_grows⟩

/-- The levels that are paid for are all levels of the tree. -/
theorem NodeOk.levels {pos : Nat} {rs : List Rec} (hm : NodeOk B file h pos m rs)
    (hpaid : Paid (Stands B file) (B.maxNodeSize / 2) d c m.form) : h = d := by
  induction d generalizing h pos c m rs with
  | zero =>
    cases h with
    | zero => rfl
    | succ h =>
      obtain ⟨cs, rfl, hne, -⟩ := hm
      rw [form_branchOf hne] at hpaid
      cases hpaid
  | succ d ih =>
    cases h with
    | zero =>
      obtain ⟨rfl, -⟩ := hm
      cases hpaid
    | succ h =>
      obtain ⟨cs, rfl, hne, -, -, -, hkids⟩ := hm
      rw [form_branchOf hne] at hpaid
      obtain ⟨ds, hall, -⟩ := hpaid
      -- the first child decides
      obtain ⟨k, cs, rfl⟩ := List.exists_cons_of_ne_nil hne
      cases hall with
      | cons hk _ =>
        obtain ⟨-, -, m, hm, hok⟩ := hkids k List.mem_cons_self
        rw [ih hok (hm.paid hk)]

/-- In runs of any calls with short blocks, the tree of a version has no more levels than the
insertions it comes from pay for. Deletions do not take levels away, and they add none. -/
theorem height_bound {num : Nat → Nat} (hw : Insertions B w num) {s : Snapshot} (hs : s ∈ w.snaps)
    (hver : s.ver ≠ 0) {rs : List Rec} (hsub : SubtreeAt B w.db.file h (s.ver + 8) rs) :
    ∑ i ∈ Finset.range h, (B.maxNodeSize / 2) ^ (i + 1) ≤ num s.ver := by
  obtain ⟨d, root, hroot, c, hpaid, hle⟩ := hw.paid s hs hver
  obtain ⟨m, hm, hok⟩ := hsub
  obtain rfl := hm.unique hroot
  rw [hok.levels hpaid]
  exact (Nat.le_add_left _ c).trans hle

/-- A run of `n` insertions one after the other leads to the handle and has returned the version. -/
def InsertedTimes (n : Nat) (db : Db) (v : Nat) : Prop :=
  ∃ w num, Insertions smallBuild w num ∧ w.db = db ∧ (∃ s ∈ w.snaps, s.ver = v) ∧ num v = n

theorem InsertedTimes.set {db db' : Db} {v v' : Nat} {x : Data} (hi : InsertedTimes n db v)
    (run : eval (aodbmSet smallBuild v k x) db = .ok (v', db'))
    (hshort : db'.file.length < db.file.length + (5 + 2 ^ 32)) : InsertedTimes (n + 1) db' v' := by
  obtain ⟨w, num, hw, rfl, ⟨s, hs, rfl⟩, rfl⟩ := hi
  exact ⟨_, _, .set hw hs run hshort, rfl, ⟨_, List.mem_cons_self, rfl⟩, Function.update_self ..⟩

theorem five_times : InsertedTimes 5 ⟨fiveFile.take 256, 256, 0⟩ 222 := by
  have h0 : InsertedTimes 0 Db.empty 0 :=
    ⟨_, _, .init, rfl, ⟨_, List.mem_singleton_self _, rfl⟩, rfl⟩
  obtain ⟨h1, h2, h3, h4, h5⟩ := fiveSets
  exact ((((h0.set h1 (by decide +kernel)).set h2 (by decide +kernel)).set h3
    (by decide +kernel)).set h4 (by decide +kernel)).set h5 (by decide +kernel)

/-- The fifth key has made a second level, and 5 insertions pay for it. -/
theorem height_bound_fiveSets : ∃ w num, Insertions smallBuild w num ∧ num 222 = 5 ∧
    ∃ s ∈ w.snaps, s.ver = 222 ∧ ∃ rs, SubtreeAt smallBuild w.db.file 1 (222 + 8) rs ∧
      ∑ i ∈ Finset.range 1, (smallBuild.maxNodeSize / 2) ^ (i + 1) ≤ num 222 := by
  obtain ⟨w, num, hw, hdb, ⟨s, hs, hver⟩, hnum⟩ := five_times
  have h0 : s.ver ≠ 0 := by omega
  have hroot : NodeAt smallBuild w.db.file (s.ver + 8) (.branch 167 [([3], 190)]) := by
    rw [hdb, hver]
    exact ⟨segAt_iff.mpr (by decide +kernel), by simp [Node.Fits]⟩
  have hleaf : NodeAt smallBuild w.db.file 167 (.leaf [([1], []), ([2], [])]) := by
    rw [hdb]
    exact ⟨segAt_iff.mpr (by decide +kernel), by simp [Node.Fits]⟩
  obtain ⟨rs, hrs, -⟩ := (inv_of_reachable hw.reachable).contents hs
  rcases hrs with ⟨h, -⟩ | ⟨-, ⟨hempty, -⟩ | ⟨h, hsub⟩⟩
  · exact absurd h h0
  · cases hroot.unique hempty
  -- the first child of the root is a leaf
  · obtain ⟨h', _, rfl, hchild, -⟩ := hsub.under (.child .root hroot List.mem_cons_self)
    cases h' with
    | zero =>
      exact ⟨w, num, hw, hnum, s, hs, hver, rs, hver ▸ hsub, hver ▸ height_bound hw hs h0 hsub⟩
    | succ h' => exact absurd hleaf hchild.not_leaf

end Aodbm
