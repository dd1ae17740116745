import Aodbm.Row
import Aodbm.Snapshots

/-!
# Balance under insertion

In runs of `aodbm_set` alone every node other than the root stays half full: a full leaf
is split also when a record of it is overwritten, a branch is split when it gets `M`
children, and both halves are then large enough.

Results:
1. `Climb.kept`: what one insertion does on its way up.
2. `insertion_balanced`: the trees of all versions in runs of insertions with short blocks.
3. `balance_lost`: a long block whose version has a root with one child.
-/

namespace Aodbm

open Effects Records Bytes

variable (B : Build)

/-- The node has the height `h`, and all nodes below it are at least half full. -/
def Kept (file : Data) : Nat → Node → Prop
  | 0, n => n.isLeaf = true
  | h + 1, n => n.isLeaf = false ∧
    ∀ c ∈ n.refs, ∃ m, NodeAt B file c m ∧ B.maxNodeSize / 2 ≤ m.size ∧ Kept file h m

/-- The tree whose root stands at `off` has `d` levels of branches. Every leaf other than the
root has at least `M / 2` records and every branch other than the root at least `M / 2`
children; a root that is a branch has at least 2. -/
def Balanced (file : Data) (d off : Nat) : Prop :=
  ∃ n, NodeAt B file off n ∧ Kept B file d n ∧ (1 ≤ d → 2 ≤ n.size)

/-- One completed call of `aodbm_set` on any version that was obtained. -/
def SetStep (w w' : World) : Prop :=
  ∃ s ∈ w.snaps, ∃ (k x : Data) (v : Nat) (db : Db),
    eval (aodbmSet B s.ver k x) w.db = .ok (v, db) ∧
    w' = { w with db := db, snaps := ⟨v, s.ver, Function.update s.contents k (some x)⟩ :: w.snaps }

/-- States of runs of `aodbm_set` alone. -/
def SetReachable (w : World) : Prop := Relation.ReflTransGen (SetStep B) World.init w

/-- States of runs of `aodbm_set` alone that write short blocks. -/
def SetReachableShort (w : World) : Prop :=
  Relation.ReflTransGen (fun w w' => SetStep B w w' ∧ Short w w') World.init w

variable {B}
variable {w w' : World} {file file' new new' : Data} {k : Data} {h d off root : Nat} {n : Node}
  {ns ns' : List (Data × Node)}

theorem SetStep.step (h : SetStep B w w') : Step B w w' := by
  obtain ⟨s, hs, k, x, v, db, run, rfl⟩ := h
  exact .set hs run

theorem SetReachable.reachable (h : SetReachable B w) : Reachable B w :=
  Relation.ReflTransGen.mono (fun _ _ => SetStep.step) _ _ h

theorem SetReachableShort.reachable (h : SetReachableShort B w) : ReachableShort B w :=
  Relation.ReflTransGen.mono (fun _ _ hstep => ⟨hstep.1.step, hstep.2⟩) _ _ h

/-! ## Trees in growing files -/

theorem Kept.mono (hk : Kept B file h n) (hf : file <+: file') : Kept B file' h n := by
  induction h generalizing n with
  | zero => exact hk
  | succ h ih =>
    refine ⟨hk.1, fun c hc => ?_⟩
    obtain ⟨m, hm, hsize, hkept⟩ := hk.2 c hc
    exact ⟨m, hm.mono hf, hsize, ih hkept⟩

theorem Balanced.mono (hb : Balanced B file d off) (hf : file <+: file') :
    Balanced B file' d off := by
  obtain ⟨n, hn, hk, hsize⟩ := hb
  exact ⟨n, hn.mono hf, hk.mono hf, hsize⟩

/-- Children with at least `q` records each. -/
theorem below_length_ge {cs : List Kid} {q : Nat} (hq : ∀ c ∈ cs, q ≤ c.recs.length) :
    cs.length * q ≤ (below cs).length := by
  induction cs with
  | nil => simp
  | cons c cs ih =>
    have hc := hq c List.mem_cons_self
    have hcs := ih fun e he => hq e (List.mem_cons_of_mem _ he)
    rw [below_cons, List.length_append, List.length_cons, Nat.add_mul, Nat.one_mul]
    omega

/-- The entries of a node that are half full multiply from level to level. -/
theorem Kept.records {pos : Nat} {rs : List Rec} (hk : Kept B file d n)
    (hn : NodeOk B file h pos n rs) :
    h = d ∧ n.size * (B.maxNodeSize / 2) ^ d ≤ rs.length := by
  induction d generalizing h pos n rs with
  | zero =>
    cases h with
    | zero =>
      obtain ⟨rfl, _⟩ := hn
      exact ⟨rfl, by simp [Node.size]⟩
    | succ h =>
      obtain ⟨cs, rfl, hne, _⟩ := hn
      obtain ⟨c, cs, rfl⟩ := List.exists_cons_of_ne_nil hne
      cases hk
  | succ d ih =>
    cases h with
    | zero =>
      obtain ⟨rfl, _⟩ := hn
      cases hk.1
    -- the heights agree because leaves and branches cannot stand for one another
    | succ h =>
      obtain ⟨cs, rfl, hne, _, _, rfl, hkids⟩ := hn
      have hchild : ∀ c ∈ cs, h = d ∧ (B.maxNodeSize / 2) ^ (d + 1) ≤ c.recs.length := by
        intro c hc
        obtain ⟨m, hm, hsize, hkept⟩ := hk.2 c.ref (by
          rw [branchOf_refs hne]
          exact List.mem_map_of_mem hc)
        obtain ⟨_, _, m', hm', hok⟩ := hkids c hc
        obtain ⟨hd, hlen⟩ := ih hkept (hm'.unique hm ▸ hok)
        refine ⟨hd, le_trans ?_ hlen⟩
        rw [Nat.pow_succ, Nat.mul_comm]
        exact Nat.mul_le_mul_right _ hsize
      have hsize : (branchOf cs).size = cs.length := by
        obtain ⟨c, cs, rfl⟩ := List.exists_cons_of_ne_nil hne
        simp [branchOf, Node.size, kidPairs]
      obtain ⟨c, hc⟩ := List.exists_mem_of_ne_nil _ hne
      refine ⟨by rw [(hchild c hc).1], ?_⟩
      rw [hsize]
      exact below_length_ge fun c hc => (hchild c hc).2

/-! ## One insertion -/

/-- The branches made from entries, when a child was replaced by one node or more. -/
theorem grown_halve {es : List Entry} {m : Nat} (hm : m < B.maxNodeSize) (hle : m ≤ es.length)
    (hpos : 0 < m) :
    Grown B m (((halve B es).map branchEntry).map fun e => e.2.size) := by
  have hM := B.four_le
  have heven := B.even
  have hsize : ∀ part : List Entry, part ≠ [] → (branchEntry part).2.size = part.length := by
    intro part hpart
    obtain ⟨e, part, rfl⟩ := List.exists_cons_of_ne_nil hpart
    rfl
  have hne : ∀ part ∈ halve B es,
      ((fun e : Data × Node => e.2.size) ∘ branchEntry) part = part.length :=
    fun part hpart => hsize part (halve_ne hpart)
  rw [List.map_map, List.map_congr_left hne]
  unfold halve
  split
  · rw [if_neg (by simp only [List.isEmpty_iff]; rintro rfl; simp at hle; omega)]
    exact Or.inl ⟨hm, _, rfl, hle⟩
  · refine Or.inr ⟨_, _, rfl, ?_, ?_⟩
    · rw [List.length_take]
      omega
    · rw [List.length_drop]
      omega

theorem Grown.half {m : Nat} {sizes : List Nat} (hg : Grown B m sizes)
    (hm : B.maxNodeSize / 2 ≤ m) : sizes ≠ [] ∧ ∀ a ∈ sizes, B.maxNodeSize / 2 ≤ a := by
  rcases hg with ⟨-, a, rfl, ha⟩ | ⟨a, b, rfl, ha, hb⟩
  · simp only [ne_eq, List.cons_ne_self, not_false_eq_true, List.mem_singleton, forall_eq, true_and]
    omega
  · simp [ha, hb]

/-- One level: the new branches have the height of the old one, and their children are half
full. -/
theorem kept_level {l r : List Kid} {c : Kid} {m : Node} {lo : Data}
    (hb : BranchAt B file h off lo (l ++ c :: r)) (hfile : file <+: new)
    (hold : Kept B file (d + 1) (branchOf (l ++ c :: r)))
    (hm : B.maxNodeSize / 2 ≤ m.size) (hfits : ∀ e ∈ ns, e.2.Fits)
    (hns : ∀ e ∈ ns, Kept B new d e.2) (hgrown : Grown B m.size (ns.map fun e => e.2.size)) :
    ∀ e ∈ (halve B (kidPairs l ++ placed B new.length ns ++ kidPairs r)).map branchEntry,
      Kept B (new ++ encNodes B ns) (d + 1) e.2 := by
  have hsizes := (hgrown.half hm).2
  have hkid : ∀ x ∈ (kidPairs l ++ placed B new.length ns ++ kidPairs r).map Prod.snd,
      ∃ m, NodeAt B (new ++ encNodes B ns) x m ∧ B.maxNodeSize / 2 ≤ m.size ∧
        Kept B (new ++ encNodes B ns) d m := by
    have hpre : file <+: new ++ encNodes B ns := hfile.trans (List.prefix_append _ _)
    have hsame : ∀ y ∈ l ++ c :: r, ∃ m, NodeAt B (new ++ encNodes B ns) y.ref m ∧
        B.maxNodeSize / 2 ≤ m.size ∧ Kept B (new ++ encNodes B ns) d m := by
      intro y hy
      obtain ⟨m, hm, hsize, hkept⟩ := hold.2 y.ref (by
        rw [branchOf_refs hb.ne]
        exact List.mem_map_of_mem hy)
      exact ⟨m, hm.mono hpre, hsize, hkept.mono hpre⟩
    intro x hx
    rw [List.map_append, List.map_append, placed_snd] at hx
    simp only [List.mem_append] at hx
    -- a child is an old one, before or behind the place, or one of the new nodes
    rcases hx with (hx | hx) | hx
    · obtain ⟨kc, hkc, rfl⟩ := List.mem_map.mp hx
      obtain ⟨y, hy, rfl⟩ := List.mem_map.mp hkc
      exact hsame y (List.mem_append_left _ hy)
    · have hrow : ∀ n ∈ ns.map Prod.snd, n.Fits := by
        intro n hn
        obtain ⟨e, he, rfl⟩ := List.mem_map.mp hn
        exact hfits e he
      obtain ⟨n, hn, hat⟩ := row_nodeAt new hrow x hx
      obtain ⟨e, he, rfl⟩ := List.mem_map.mp hn
      rw [encList_snd] at hat
      exact ⟨e.2, hat, hsizes _ (List.mem_map_of_mem he), (hns e he).mono (List.prefix_append _ _)⟩
    · obtain ⟨kc, hkc, rfl⟩ := List.mem_map.mp hx
      obtain ⟨y, hy, rfl⟩ := List.mem_map.mp hkc
      exact hsame y (List.mem_append_right _ (List.mem_cons_of_mem _ hy))
  intro e he
  obtain ⟨part, hpart, rfl⟩ := List.mem_map.mp he
  refine ⟨?_, fun x hx => hkid x ?_⟩
  · obtain ⟨f, part, rfl⟩ := List.exists_cons_of_ne_nil (halve_ne hpart)
    rfl
  · rw [← halve_refs (B := B), List.map_map]
    exact List.mem_flatMap.mpr ⟨_, List.mem_map_of_mem hpart, hx⟩

/-- The whole way up of an insertion into a balanced tree. When the new leaves are as large
as they should be, so are the nodes that the way ends with. -/
theorem Climb.kept (hc : Climb B file k root h off new ns new' ns')
    (hroot : Balanced B file d root) (hfile : file <+: new) :
    ∃ e n, NodeAt B file off n ∧ Kept B file e n ∧
      ((∀ x ∈ ns, Kept B new e x.2) → Grown B n.size (ns.map fun x => x.2.size) →
        new <+: new' ∧ (∀ x ∈ ns', x.2.Fits) ∧ ∃ t, (∀ x ∈ ns', Kept B new' t x.2) ∧
          ∃ m, Grown B m (ns'.map fun x => x.2.size) ∧ (1 ≤ t → 2 ≤ m)) := by
  induction hc with
  | root fits =>
    obtain ⟨n, hn, hk, hsize⟩ := hroot
    exact ⟨d, n, hn, hk, fun hns hgrown =>
      ⟨List.prefix_rfl, fits, d, hns, n.size, hgrown, hsize⟩⟩
  | @level h off lo new new' c l r ns ns' hb hroute fits hrest ih =>
    obtain ⟨e, n, hn, hk, hup⟩ := ih (hfile.trans (List.prefix_append _ _))
    obtain rfl := hn.unique hb.node
    have hsize : (branchOf (l ++ c :: r)).size = (l ++ c :: r).length := by
      obtain ⟨y, ys, hys⟩ := List.exists_cons_of_ne_nil hb.ne
      rw [hys]
      simp [branchOf, Node.size, kidPairs]
    cases e with
    | zero =>
      obtain ⟨y, ys, hys⟩ := List.exists_cons_of_ne_nil hb.ne
      rw [hys] at hk
      cases hk
    | succ e =>
      obtain ⟨m, hm, hhalf, hkm⟩ := hk.2 c.ref (by
        rw [branchOf_refs hb.ne]
        exact List.mem_map_of_mem (by simp))
      refine ⟨e, m, hm, hkm, fun hns hgrown => ?_⟩
      have hrest := hup (kept_level hb hfile hk hhalf fits hns hgrown) ?_
      · exact ⟨(List.prefix_append _ _).trans hrest.1, hrest.2⟩
      · -- the new branches have at least the entries of the old one
        have hne := (hgrown.half hhalf).1
        have hpos : 0 < ns.length := List.length_pos_iff.mpr fun h => hne (by rw [h]; rfl)
        have hplaced : (placed B new.length ns).length = ns.length := by
          have := congrArg List.length (placed_snd (B := B) new.length ns)
          rwa [List.length_map, offsets_length, List.length_map] at this
        refine grown_halve ?_ ?_ ?_
        · rw [hsize]
          exact hb.count
        · rw [hsize]
          simp only [List.length_append, List.length_cons, kidPairs, List.length_map]
          omega
        · rw [hsize]
          simp

/-- One insertion into a balanced tree. -/
theorem Rewritten.balanced {ver leaf v : Nat} {ls : List Rec} {parts : List (List Rec)}
    {payload : Data} (hf : file.length < 2 ^ 63) (hbal : Balanced B file d (ver + 8))
    (hleaf : NodeAt B file leaf (.leaf ls)) (hgrown : Grown B ls.length (parts.map List.length))
    (hr : Rewritten B file ver k leaf parts payload new ns file' v) :
    ∃ t, Balanced B file' t (v + 8) := by
  obtain ⟨e, n, hn, hk, hup⟩ := hr.climb.kept hbal (List.prefix_append _ _)
  obtain rfl := hn.unique hleaf
  cases e with
  | succ e => cases hk.1
  | zero =>
    have hleaves : ∀ x ∈ parts.map leafEntry, x.2.isLeaf = true := by
      intro x hx
      obtain ⟨p, _, rfl⟩ := List.mem_map.mp hx
      rfl
    obtain ⟨hpre, hfits, t, hkept, m, hg, hm⟩ := hup hleaves (by rwa [List.map_map])
    have hnew := hpre.length_le
    simp only [List.length_append, List.length_singleton, from32_length] at hnew
    have htop := hr.top_fits hf (by omega) hfits
    have hroot := hr.root
    rw [← List.append_assoc] at hroot
    have hfile' : new ++ encNodes B (underRoot ns) <+: file' := hroot ▸ List.prefix_append _ _
    have hat : NodeAt B file' (v + 8) (topNode B new.length ns) := by
      refine ⟨?_, htop⟩
      rw [hr.returned, hroot, ← List.length_append]
      exact (segAt_root _ _ _).2
    -- the way up ends with the root itself or with the two halves of one
    rcases ns with _ | ⟨a, _ | ⟨b, ns⟩⟩
    · rcases hg with ⟨-, _, h, -⟩ | ⟨_, _, h, -⟩ <;> cases h
    · refine ⟨t, a.2, hat, (hkept a List.mem_cons_self).mono
        ((List.prefix_append _ _).trans hfile'), fun ht => (hm ht).trans ?_⟩
      rcases hg with ⟨-, _, h, hle⟩ | ⟨_, _, h, -⟩
      · cases h
        exact hle
      · cases h
    · -- a new root over two nodes
      rcases hg with ⟨-, _, h, -⟩ | ⟨_, _, h, ha, hb⟩
      · cases h
      simp only [List.map_cons, List.cons.injEq, List.map_eq_nil_iff] at h
      obtain ⟨rfl, rfl, rfl⟩ := h
      refine ⟨t + 1, _, hat, ⟨rfl, fun c hc => ?_⟩, fun _ => le_refl _⟩
      rw [topNode_refs] at hc
      have hrow : ∀ x ∈ [a, b].map Prod.snd, x.Fits := by
        intro x hx
        obtain ⟨y, hy, rfl⟩ := List.mem_map.mp hx
        exact hfits y hy
      obtain ⟨x, hx, hatx⟩ := row_nodeAt new hrow c hc
      obtain ⟨y, hy, rfl⟩ := List.mem_map.mp hx
      rw [encList_snd] at hatx
      refine ⟨y.2, hatx.mono hfile', ?_, (hkept y hy).mono ((List.prefix_append _ _).trans hfile')⟩
      simp only [List.mem_cons, List.not_mem_nil, or_false] at hy
      rcases hy with rfl | rfl
      · exact ha
      · exact hb

/-- The first insertion makes a leaf with one record. -/
theorem first_nodeAt {db db' : Db} {x : Data} {v : Nat} (hdb : db.Synced)
    (run : eval (aodbmSet B 0 k x) db = .ok (v, db'))
    (hshort : db'.file.length < db.file.length + (5 + 2 ^ 32)) :
    NodeAt B db'.file (v + 8) (.leaf [(k, x)]) := by
  have hres : eval (setResult B 0 k x (db.file.length + 5)) db = .ok (⟨aodbmDataFrom64 B 0 ++
      Node.enc B (.leaf [(k, x)]), db.file.length + 5⟩, db) := by
    rw [setResult, if_pos rfl, eval, run_pure]
    simp [aodbmLeafNode, Node.enc]
  rw [eval_aodbmSet hdb hres] at run
  split at run
  · cases run
    simp only [Db.append, List.length_append, data_enc_length, from64_length] at hshort
    refine ⟨?_, leaf_fits (B := B) (by omega)⟩
    have hseg := (segAt_root (B := B) (db.file ++ ([dataBlock] ++ aodbmDataFrom32 B
      ((aodbmDataFrom64 B 0 ++ Node.enc B (.leaf [(k, x)])).length % 2 ^ 32))) 0
      (.leaf [(k, x)])).2
    rw [List.append_assoc] at hseg
    simpa [Db.append, Block.enc] using hseg
  · cases run

theorem balanced_first {db db' : Db} {x : Data} {v : Nat} (hdb : db.Synced)
    (run : eval (aodbmSet B 0 k x) db = .ok (v, db'))
    (hshort : db'.file.length < db.file.length + (5 + 2 ^ 32)) :
    Balanced B db'.file 0 (v + 8) :=
  ⟨.leaf [(k, x)], first_nodeAt hdb run hshort, rfl, by omega⟩

/-! ## Runs of insertions -/

/-- What one call keeps. -/
theorem balanced_step (hinv : Inv B w) (hstep : SetStep B w w') (hshort : Short w w')
    (hw : ∀ s ∈ w.snaps, s.ver ≠ 0 → ∃ d, Balanced B w.db.file d (s.ver + 8)) :
    ∀ s ∈ w'.snaps, s.ver ≠ 0 → ∃ d, Balanced B w'.db.file d (s.ver + 8) := by
  have hpre := hstep.step.file_grows
  obtain ⟨s, hs, k, x, v, db, run, rfl⟩ := hstep
  intro t ht hver
  rcases List.mem_cons.mp ht with rfl | ht
  · by_cases h0 : s.ver = 0
    · rw [h0] at run
      exact ⟨0, balanced_first hinv.synced run hshort⟩
    · obtain ⟨rs, hrs, _⟩ := hinv.contents hs
      obtain ⟨d, hbal⟩ := hw s hs h0
      obtain ⟨leaf, ls, parts, payload, new, ns, hleaf, hgrown, hr⟩ :=
        hrs.set_rewritten hinv.synced h0 run hshort
      exact hr.balanced hinv.synced.bound hbal hleaf hgrown
  · obtain ⟨d, hbal⟩ := hw t ht hver
    exact ⟨d, hbal.mono hpre⟩

/-- In runs of `aodbm_set` alone with short blocks every version is balanced, so its records
are many for the levels of its tree. -/
theorem insertion_balanced (hw : SetReachableShort B w) {s : Snapshot} (hs : s ∈ w.snaps)
    (hver : s.ver ≠ 0) :
    ∃ d rs, ContentsAt B w.db.file s.ver rs ∧ (∀ q, s.contents q = rs.lookup q) ∧
      Balanced B w.db.file d (s.ver + 8) ∧
      (1 ≤ d → 2 * (B.maxNodeSize / 2) ^ d ≤ rs.length) := by
  have hall : ∀ s ∈ w.snaps, s.ver ≠ 0 → ∃ d, Balanced B w.db.file d (s.ver + 8) := by
    clear hs hver
    induction hw with
    | refl =>
      intro s hs hver
      rw [List.mem_singleton.mp hs] at hver
      exact absurd rfl hver
    | tail hrun hstep ih =>
      exact balanced_step (inv_of_reachable (SetReachableShort.reachable hrun)) hstep.1 hstep.2 ih
  obtain ⟨d, n, hn, hk, hsize⟩ := hall s hs hver
  obtain ⟨rs, hrs, hq⟩ := (inv_of_reachable hw.reachable).contents hs
  refine ⟨d, rs, hrs, hq, ⟨n, hn, hk, hsize⟩, fun hd => ?_⟩
  rcases hrs with ⟨h0, _⟩ | ⟨_, ⟨hempty, rfl⟩ | ⟨h, m, hm, hok⟩⟩
  · exact absurd h0 hver
  · obtain rfl := hn.unique hempty
    cases d with
    | zero => cases hd
    | succ d => cases hk.1
  · obtain rfl := hn.unique hm
    exact (Nat.mul_le_mul_right _ (hsize hd)).trans (hk.records hok).2

/-- A run of short insertions leads to the handle and has returned the version. -/
def Inserted (db : Db) (v : Nat) : Prop :=
  ∃ w, SetReachableShort smallBuild w ∧ w.db = db ∧ ∃ s ∈ w.snaps, s.ver = v

theorem Inserted.set {db db' : Db} {v v' : Nat} {k x : Data} (h : Inserted db v)
    (run : eval (aodbmSet smallBuild v k x) db = .ok (v', db'))
    (hshort : db'.file.length < db.file.length + (5 + 2 ^ 32)) : Inserted db' v' := by
  obtain ⟨w, hw, rfl, s, hs, rfl⟩ := h
  exact ⟨_, .tail hw ⟨⟨s, hs, k, x, v', db', run, rfl⟩, hshort⟩, rfl, _, List.mem_cons_self, rfl⟩

theorem five_inserted : Inserted ⟨fiveFile.take 256, 256, 0⟩ 222 := by
  have h0 : Inserted Db.empty 0 := ⟨World.init, .refl, rfl, _, List.mem_singleton_self _, rfl⟩
  obtain ⟨h1, h2, h3, h4, h5⟩ := fiveSets
  exact ((((h0.set h1 (by decide +kernel)).set h2 (by decide +kernel)).set h3
    (by decide +kernel)).set h4 (by decide +kernel)).set h5 (by decide +kernel)

/-- The fifth key has split a full leaf. -/
theorem insertion_balanced_fiveSets : ∃ w, SetReachableShort smallBuild w ∧
    ∃ s ∈ w.snaps, s.ver = 222 ∧ ∃ d rs, ContentsAt smallBuild w.db.file 222 rs ∧
      (∀ q, s.contents q = rs.lookup q) ∧ Balanced smallBuild w.db.file d (222 + 8) ∧
      (1 ≤ d → 2 * (smallBuild.maxNodeSize / 2) ^ d ≤ rs.length) :=
  let ⟨w, hw, _, s, hs, hver⟩ := five_inserted
  ⟨w, hw, s, hs, hver, hver ▸ insertion_balanced hw hs (by omega)⟩

/-! ## A long block with a split -/

/-- After a sixth key the second leaf is full. -/
def sixFile : Data :=
  fiveFile.take 256 ++
  [100, 0, 0, 0, 75, 108, 0, 0, 0, 4, 0, 0, 0, 1, 3, 0, 0, 0, 0, 0, 0, 0, 1, 4, 0, 0, 0, 0,
    0, 0, 0, 1, 5, 0, 0, 0, 0, 0, 0, 0, 1, 6, 0, 0, 0, 0, 0, 0, 0, 0, 0, 0, 0, 222,
    98, 0, 0, 0, 1, 0, 0, 0, 0, 0, 0, 0, 167, 0, 0, 0, 1, 3, 0, 0, 0, 0, 0, 0, 1, 5]

def sixDb : Db := ⟨sixFile, 336, 0⟩

theorem sixDb_length : sixDb.file.length = 336 := by decide +kernel

theorem six_inserted : Inserted sixDb 302 :=
  five_inserted.set (k := [6]) (x := []) (by decide +kernel) (by decide +kernel)

/-- The two halves of the second leaf, when a value is set on its first key. -/
def firstHalf (x : Data) : Node := .leaf [([3], x), ([4], [])]

def secondHalf : Node := .leaf [([5], []), ([6], [])]

/-- The new root has the second half where the bytes of the first one would end if they were
14 bytes long. -/
def splitRoot : Node := .branch 167 [([3], 341), ([5], 355)]

/-- The data block of the insertion that splits the second leaf. -/
def splitData (x : Data) : Data :=
  (firstHalf x).enc smallBuild ++ (secondHalf.enc smallBuild ++
    (aodbmDataFrom64 smallBuild 302 ++ splitRoot.enc smallBuild))

theorem firstHalf_length {x : Data} (hx : x.length = 2 ^ 32 - 9) :
    ((firstHalf x).enc smallBuild).length = 2 ^ 32 + 14 := by
  simp [firstHalf, Node.enc, hx]

/-- A value that is set on the first key of the full leaf and makes the first half `2 ^ 32 + 14`
bytes long. -/
theorem eval_splitSet {x : Data} (hx : x.length = 2 ^ 32 - 9) :
    eval (aodbmSet smallBuild 302 [3] x) sixDb =
      .ok (378, sixDb.append (Block.enc smallBuild (.data (splitData x)))) := by
  have hleaf : NodeAt smallBuild sixDb.file 261
      (.leaf [([3], []), ([4], []), ([5], []), ([6], [])]) :=
    ⟨segAt_iff.mpr (by decide +kernel), by simp [Node.Fits]⟩
  obtain ⟨nodes, parts, hins, hl, hgrown⟩ := insertIntoLeaf_spec hleaf (by decide) [3] x
  have hup : upsert (rank smallBuild) [3] x [([3], []), ([4], []), ([5], []), ([6], [])] =
      [([3], x), ([4], []), ([5], []), ([6], [])] := rfl
  -- the full leaf is split behind its second record, the first one with the new value
  obtain ⟨a, b, rfl, ha, hb⟩ : ∃ a b, nodes = ⟨some a, some [3], some b, some [5]⟩ ∧
      aodbmRopeToData a = (firstHalf x).enc smallBuild ∧
      aodbmRopeToData b = secondHalf.enc smallBuild := by
    have hrecs := hl.recs
    have hpend := hl.pend
    rw [hup] at hrecs
    rcases hgrown with ⟨hfull, -⟩ | ⟨m, n, hsizes, hm, hn⟩
    · exact absurd hfull (by decide)
    obtain ⟨p, ps, rfl, rfl, hps⟩ := List.map_eq_cons_iff.mp hsizes
    obtain ⟨q, rfl, rfl⟩ := List.map_eq_singleton_iff.mp hps
    have hsum := congrArg List.length hrecs
    simp only [List.flatten_cons, List.flatten_nil, List.append_nil, List.length_append,
      List.length_cons, List.length_nil] at hsum hrecs
    have hhalf : smallBuild.maxNodeSize / 2 = 2 := rfl
    have hsplit : p ++ q = [([3], x), ([4], [])] ++ [([5], []), ([6], [])] := hrecs
    obtain ⟨rfl, rfl⟩ := List.append_inj hsplit (by
      simp only [List.length_cons, List.length_nil]
      omega)
    cases hpend with
    | @two a b ka kb na nb ha hb => exact ⟨a, b, rfl, ha, hb⟩
  have htype : eval (readType (302 + 8)) sixDb = .ok (branchType, sixDb) := by decide +kernel
  have hpath : eval (aodbmSearchPath smallBuild 302 [3]) sixDb =
      .ok ([⟨[3], 261⟩, ⟨[], 310⟩], sixDb) := by decide +kernel
  obtain ⟨c, hbranch, hc⟩ : ∃ c : Rope, eval (modifyBranch smallBuild 310 [] 341 (some [3]) 355
      (some [5]) 261 0) sixDb = .ok (⟨some c, some [], none, none⟩, sixDb) ∧
      aodbmRopeToData c = splitRoot.enc smallBuild :=
    ⟨[[98], [0, 0, 0, 2], [0, 0, 0, 0, 0, 0, 0, 167], [0, 0, 0, 1], [3],
      [0, 0, 0, 0, 0, 0, 1, 85], [0, 0, 0, 1], [5], [0, 0, 0, 0, 0, 0, 1, 99]],
      by decide +kernel, rfl⟩
  -- the `uint32_t` counter of `aodbm_set` wraps at the first half, and the second half gets
  -- the offset 355
  have hsizeA : (0 + aodbmRopeSize a) % 2 ^ 32 = 14 := by
    rw [ropeSize_eq, ha, firstHalf_length hx]
    decide
  have hsizeB : (14 + aodbmRopeSize b) % 2 ^ 32 = 37 := by
    rw [ropeSize_eq, hb]
    decide +kernel
  have hloop : eval (setLoop smallBuild 341 [⟨[], 310⟩] aodbmRopeEmpty 0
      ⟨some a, some [3], some b, some [5]⟩ 261) sixDb =
        .ok ((aodbmRopeMerge (aodbmRopeMerge aodbmRopeEmpty a) b, 37,
          ⟨some c, some [], none, none⟩), sixDb) := by
    rw [setLoop, eval]
    simp only [deref, pure_bind, hsizeA, hsizeB]
    rw [run_bind_ok hbranch]
    rfl
  have hres : eval (setResult smallBuild 302 [3] x (sixDb.file.length + 5)) sixDb =
      .ok (⟨splitData x, 378⟩, sixDb) := by
    rw [sixDb_length, setResult, if_neg (by decide), eval, run_bind_ok htype, if_neg (by decide),
      run_bind_ok hpath]
    simp only
    rw [run_bind_ok hins, run_bind_ok hloop]
    have hdata : aodbmRopeToData (aodbmRopeMerge (aodbmRopeMerge aodbmRopeEmpty a) b) =
        (firstHalf x).enc smallBuild ++ secondHalf.enc smallBuild := by
      rw [toData_merge, toData_merge, toData_empty, List.nil_append, ha, hb]
    have hroot := constructRoot_eq (.one [] hc) 302 341
      (aodbmRopeMerge (aodbmRopeMerge aodbmRopeEmpty a) b) 37
    rw [hdata, List.append_assoc] at hroot
    exact congrArg (fun p => run Db.handle p sixDb) hroot
  have hsynced : sixDb.Synced := ⟨by rw [sixDb_length]; rfl, by rw [sixDb_length]; decide⟩
  rw [eval_aodbmSet hsynced hres, if_pos]
  rw [data_enc_length, sixDb_length]
  simp only [splitData, List.length_append, firstHalf_length hx]
  decide +kernel

/-- Bytes that the value has where its last 14 bytes would be cut off, and behind these bytes
that read as a root with one child. -/
def oneChild : Data :=
  List.replicate 23 0 ++ (aodbmDataFrom64 smallBuild 0 ++ Node.enc smallBuild (.branch 167 []))

/-- After a long block the returned version can have a root with one child. -/
theorem balance_lost : ∃ w, SetReachable smallBuild w ∧ ∃ s ∈ w.snaps, s.ver ≠ 0 ∧
    ¬ ∃ d, Balanced smallBuild w.db.file d (s.ver + 8) := by
  obtain ⟨x, hx, rest, hval⟩ := exists_longValue
    (show oneChild.length ≤ 2 ^ 32 - 9 by decide +kernel)
  obtain ⟨w, hw, hdb, s, hs, hver⟩ := six_inserted
  have hset := eval_splitSet hx
  rw [← hver, ← hdb] at hset
  refine ⟨_, .tail (Relation.ReflTransGen.mono (fun _ _ h => h.1) _ _ hw)
    ⟨s, hs, [3], x, 378, _, hset, rfl⟩, _, List.mem_cons_self, Nat.succ_ne_zero 377, ?_⟩
  rintro ⟨d, n, hn, hk, hsize⟩
  have hseg := (segAt_end sixDb.file (Block.enc smallBuild (.data (splitData x)))).right.left
  have hleaf : NodeAt smallBuild (sixDb.file ++ Block.enc smallBuild (.data (splitData x))) 341
      (firstHalf x) := by
    rw [sixDb_length, List.length_append, from32_length] at hseg
    exact ⟨hseg, by simp [firstHalf, Node.Fits, hx]⟩
  have hvalue : SegAt (sixDb.file ++ Block.enc smallBuild (.data (splitData x))) 355
      (oneChild ++ rest) := by
    rw [hval]
    exact hleaf.leafRecs.left.right.right
  have hnode := hvalue.left.right.right
  rw [List.length_replicate, from64_length] at hnode
  have hroot : NodeAt smallBuild (sixDb.file ++ Block.enc smallBuild (.data (splitData x))) 386
      (.branch 167 []) := ⟨hnode, by simp [Node.Fits]⟩
  rw [hdb] at hn
  obtain rfl := hn.unique hroot
  cases d with
  | zero => cases hk
  | succ d => exact absurd (hsize (Nat.le_add_left 1 d)) (by decide)

end Aodbm
