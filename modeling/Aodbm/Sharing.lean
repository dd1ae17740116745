import Aodbm.Occupancy

/-!
# Structural sharing

An update writes new nodes for the nodes on the search path of its key, and nothing else. The
subtrees off the path are shared: the new branches have the old offsets for them.

Results:
1. `Climb.replacing`: what the way up from a leaf writes, level by level.
2. `structural_sharing`: the payload of an update in a run with short blocks.
3. `sharing_broken`: a long block whose branch has a wrong offset for a new leaf.
-/

namespace Aodbm

open Effects Records Bytes

variable (B : Build)

/-- The child that the search of `k` takes: the scan ends before the first key above `k`. -/
def Node.turn (k : Data) : Node → Nat
  | .leaf _ => 0
  | .branch _ rest => (rest.takeWhile fun kc => !aodbmDataLt B k kc.1).length

/-- The children off the search path of `k`, from left to right. -/
def Node.siblings (k : Data) (n : Node) : List Nat := n.refs.eraseIdx (n.turn B k)

/-- The nodes on the search path of `k` from the node at an offset down to the leaf. -/
inductive SearchPath (file : Data) (k : Data) : Nat → List Node → Prop where
  | leaf {off : Nat} {rs : List Rec} (at_ : NodeAt B file off (.leaf rs)) :
      SearchPath file k off [.leaf rs]
  | branch {off first c : Nat} {rest : List (Data × Nat)} {path : List Node}
      (at_ : NodeAt B file off (.branch first rest))
      (child : (Node.branch first rest).refs[(Node.branch first rest).turn B k]? = some c)
      (down : SearchPath file k c path) : SearchPath file k off (.branch first rest :: path)

/-- At most `most` new nodes of the same kind replace a node. The references that they have to
what was there before `p` are those of the old node off the path, in the same order. -/
structure Replaces (k : Data) (most p : Nat) (old : Node) (new : List Node) : Prop where
  few : new.length ≤ most
  kind : ∀ n ∈ new, n.isLeaf = old.isLeaf
  older : (new.flatMap Node.refs).filter (· < p) = old.siblings B k

/-- The data `payload` of the block behind `file`: the nodes `low`, the header of a version
made from `ver`, and the node `root`. They are the nodes `levels`, which replace those of the
search path of `k` (both from the root down), and perhaps one more node above these. Each node
other than the root has one reference, in a later node. -/
structure Shares (file : Data) (k : Data) (most ver : Nat) (payload : Data) (path : List Node)
    (levels : List (List Node)) (extra low : List Node) (root : Node) : Prop where
  search : SearchPath B file k (ver + 8) path
  nodes : levels.reverse.flatten ++ extra = low ++ [root]
  fits : ∀ n ∈ low ++ [root], n.Fits
  bytes : payload = encList B low ++ (aodbmDataFrom64 B ver ++ root.enc B)
  level : List.Forall₂ (Replaces B k most (file.length + 5)) path levels
  extra_few : extra.length ≤ 1
  extra_new : ∀ n ∈ extra, ∀ r ∈ n.refs, file.length + 5 ≤ r
  once : ∀ {l r : List Node} {n : Node}, low = l ++ n :: r →
    ((low ++ [root]).flatMap Node.refs).count (file.length + 5 + (encList B l).length) = 1 ∧
      file.length + 5 + (encList B l).length ∈ (r ++ [root]).flatMap Node.refs

/-- The file grew by one data block, whose nodes share all that is off the search path. -/
def Shared (file : Data) (ver : Nat) (k : Data) (most : Nat) (file' : Data) : Prop :=
  ∃ payload path levels extra low root, file' = file ++ Block.enc B (.data payload) ∧
    Shares B file k most ver payload path levels extra low root

/-- Written from `p` on, the nodes have references only to what stands before them. -/
def Backward : Nat → List Node → Prop
  | _, [] => True
  | p, n :: ns => (∀ r ∈ n.refs, r < p) ∧ Backward (p + (n.enc B).length) ns

variable {B}
variable {file pre : Data} {k lo : Data} {h off p most : Nat} {ms ns : List Node}

/-! ## Nodes in a row -/

theorem backward_append : Backward B p (ms ++ ns) ↔
    Backward B p ms ∧ Backward B (p + (encList B ms).length) ns := by
  induction ms generalizing p with
  | nil => simp [Backward]
  | cons m ms ih =>
    rw [List.cons_append, Backward, Backward, ih, encList_cons, List.length_append, Nat.add_assoc,
      and_assoc]

theorem Backward.lt (hb : Backward B p ns) {x : Nat} (hx : x ∈ ns.flatMap Node.refs) :
    x < p + (encList B ns).length := by
  induction ns generalizing p with
  | nil => cases hx
  | cons n ns ih =>
    rw [encList_cons, List.length_append]
    rw [List.flatMap_cons] at hx
    rcases List.mem_append.mp hx with hx | hx
    · have := hb.1 x hx
      omega
    · have := ih hb.2 hx
      omega

theorem backward_of_lt (hlt : ∀ x ∈ ns.flatMap Node.refs, x < p) : Backward B p ns := by
  induction ns generalizing p with
  | nil => trivial
  | cons n ns ih =>
    rw [List.flatMap_cons] at hlt
    refine ⟨fun r hr => hlt r (List.mem_append_left _ hr), ih fun x hx => ?_⟩
    have := hlt x (List.mem_append_right _ hx)
    omega

/-- When the references into a row of nodes are the offsets of the nodes in order, each node
has one reference. -/
theorem referenced_once {root : Node}
    (hrefs : ((ns ++ [root]).flatMap Node.refs).filter (p ≤ ·) = offsets B p ns)
    (hback : Backward B p ns) {l r : List Node} {n : Node} (hsplit : ns = l ++ n :: r) :
    ((ns ++ [root]).flatMap Node.refs).count (p + (encList B l).length) = 1 ∧
      p + (encList B l).length ∈ (r ++ [root]).flatMap Node.refs := by
  have hmem : p + (encList B l).length ∈ offsets B p ns := by
    rw [hsplit, offsets_append, offsets]
    exact List.mem_append_right _ List.mem_cons_self
  have hcount : ((ns ++ [root]).flatMap Node.refs).count (p + (encList B l).length) = 1 := by
    rw [← List.count_filter (p := fun x => decide (p ≤ x)) (by simp), hrefs]
    exact List.count_eq_one_of_mem (offsets_nodup _ _) hmem
  refine ⟨hcount, ?_⟩
  have hall : p + (encList B l).length ∈ (ns ++ [root]).flatMap Node.refs :=
    List.count_pos_iff.mp (by omega)
  -- the nodes up to `n` have references only to what stands before `n`
  rw [hsplit] at hall hback
  obtain ⟨hl, hn, _⟩ := backward_append.mp hback
  rw [List.append_assoc, List.cons_append, List.flatMap_append, List.flatMap_cons] at hall
  rcases List.mem_append.mp hall with hx | hx
  · have := hl.lt hx
    omega
  · rcases List.mem_append.mp hx with hx | hx
    · have := hn _ hx
      omega
    · exact hx

/-- Old references on both sides of new ones are told apart by `p`. -/
theorem filter_between {a b c : List Nat} (ha : ∀ x ∈ a, x < p) (hb : ∀ x ∈ b, p ≤ x)
    (hc : ∀ x ∈ c, x < p) : (a ++ b ++ c).filter (· < p) = a ++ c ∧
      (a ++ b ++ c).filter (p ≤ ·) = b := by
  have hold : ∀ {l : List Nat}, (∀ x ∈ l, x < p) →
      l.filter (· < p) = l ∧ l.filter (p ≤ ·) = [] := fun h =>
    ⟨List.filter_eq_self.mpr fun x hx => decide_eq_true (h x hx),
      List.filter_eq_nil_iff.mpr fun x hx => by simpa using h x hx⟩
  have hnew : b.filter (· < p) = [] ∧ b.filter (p ≤ ·) = b :=
    ⟨List.filter_eq_nil_iff.mpr fun x hx => by simpa using hb x hx,
      List.filter_eq_self.mpr fun x hx => decide_eq_true (hb x hx)⟩
  simp only [List.filter_append]
  rw [(hold ha).1, (hold ha).2, (hold hc).1, (hold hc).2, hnew.1, hnew.2]
  simp

/-! ## The old branches -/

/-- The search turns to the child of the key. -/
theorem BranchAt.turn {l r : List Kid} {c : Kid} (hb : BranchAt B file h off lo (l ++ c :: r))
    (hroute : Routes (rank B) k c r) : (branchOf (l ++ c :: r)).turn B k = l.length := by
  have hright : (kidPairs r).takeWhile (fun kc => !aodbmDataLt B k kc.1) = [] := by
    cases r with
    | nil => rfl
    | cons d r =>
      have hd := (aodbmDataLt_iff B).mpr (hroute.2 d List.mem_cons_self)
      simp [kidPairs, hd]
  have hleft : ∀ kc ∈ kidPairs l ++ [(c.key, c.ref)], (!aodbmDataLt B k kc.1) = true := by
    intro kc hkc
    have hle : rank B kc.1 ≤ rank B k := by
      rcases List.mem_append.mp hkc with hkc | hkc
      · obtain ⟨d, hd, rfl⟩ := List.mem_map.mp hkc
        obtain ⟨_, _, hlcr⟩ := ordered_append.mp hb.ordered
        exact (hlcr d hd c List.mem_cons_self).1.le.trans hroute.1
      · rw [List.mem_singleton.mp hkc]
        exact hroute.1
    rw [aodbmDataLt_eq, decide_eq_false (not_lt.mpr hle)]
    rfl
  -- the first child has no separator, so the count starts at the second one
  cases l with
  | nil => simp [branchOf, Node.turn, hright]
  | cons d l =>
    have hsplit : kidPairs (l ++ c :: r) = (kidPairs l ++ [(c.key, c.ref)]) ++ kidPairs r := by
      simp [kidPairs]
    rw [List.cons_append, branchOf, Node.turn, hsplit, List.takeWhile_append_of_pos, hright]
    · simp [kidPairs]
    · intro kc hkc
      refine hleft kc ?_
      rw [kidPairs, List.map_cons, List.cons_append]
      exact List.mem_cons_of_mem _ hkc

theorem BranchAt.siblings {l r : List Kid} {c : Kid} (hb : BranchAt B file h off lo (l ++ c :: r))
    (hroute : Routes (rank B) k c r) :
    (branchOf (l ++ c :: r)).siblings B k = l.map Child.ref ++ r.map Child.ref := by
  rw [Node.siblings, hb.turn hroute, branchOf_refs hb.ne, List.map_append, List.map_cons,
    List.eraseIdx_append_of_length_le (by simp)]
  simp

/-- The path goes on at the child of the key. -/
theorem BranchAt.searchPath {l r : List Kid} {c : Kid} {path : List Node}
    (hb : BranchAt B file h off lo (l ++ c :: r)) (hroute : Routes (rank B) k c r)
    (down : SearchPath B file k c.ref path) :
    SearchPath B file k off (branchOf (l ++ c :: r) :: path) := by
  have hturn := hb.turn hroute
  have hrefs := branchOf_refs hb.ne
  have hnode := hb.node
  obtain ⟨d, ds, hds⟩ := List.exists_cons_of_ne_nil hb.ne
  rw [hds, branchOf] at hturn hrefs hnode ⊢
  refine .branch hnode ?_ down
  rw [hrefs, hturn, ← hds]
  simp

/-! ## The way up -/

/-- Behind `pre` the nodes of `levels` were written and then `ns` are to be written, in the
place of the nodes on the search path from `off` down. -/
structure Replacing (B : Build) (file pre : Data) (k : Data) (most off : Nat) (new : Data)
    (ns : List (Data × Node)) (path : List Node) (levels : List (List Node)) : Prop where
  search : SearchPath B file k off path
  written : new = pre ++ encList B levels.reverse.flatten
  fits : ∀ n ∈ levels.reverse.flatten, n.Fits
  level : List.Forall₂ (Replaces B k most pre.length) path (ns.map Prod.snd :: levels)
  refs : ((levels.reverse.flatten ++ ns.map Prod.snd).flatMap Node.refs).filter (pre.length ≤ ·) =
    offsets B pre.length levels.reverse.flatten
  back : Backward B pre.length (levels.reverse.flatten ++ ns.map Prod.snd)

/-- A leaf is replaced by leaves. -/
theorem replacing_leaf {ls : List Rec} {parts : List (List Rec)}
    (hleaf : NodeAt B file off (.leaf ls)) (hfew : parts.length ≤ most) :
    Replacing B file pre k most off pre (parts.map leafEntry) [.leaf ls] [] := by
  have hnone : ((parts.map leafEntry).map Prod.snd).flatMap Node.refs = [] := by
    rw [List.map_map, List.flatMap_map]
    simp [leafEntry, Node.refs]
  refine ⟨.leaf hleaf, by simp, by simp, .cons ⟨by simpa using hfew, ?_, ?_⟩ .nil, ?_, ?_⟩
  · intro n hn
    simp only [List.map_map, List.mem_map, Function.comp_apply, leafEntry] at hn
    obtain ⟨p, _, rfl⟩ := hn
    rfl
  · rw [hnone]
    rfl
  · rw [List.reverse_nil, List.flatten_nil, List.nil_append, hnone]
    rfl
  · refine backward_of_lt fun x hx => ?_
    rw [List.reverse_nil, List.flatten_nil, List.nil_append, hnone] at hx
    cases hx

/-- One level of the way up. -/
theorem Replacing.level_up {l r : List Kid} {c : Kid} {new : Data} {ns : List (Data × Node)}
    {path : List Node} {levels : List (List Node)} (hmost : 1 ≤ most)
    (hfile : file.length ≤ pre.length)
    (hb : BranchAt B file h off lo (l ++ c :: r)) (hroute : Routes (rank B) k c r)
    (hfits : ∀ n ∈ ns, n.2.Fits)
    (hr : Replacing B file pre k most c.ref new ns path levels) :
    Replacing B file pre k most off (new ++ encNodes B ns)
      ((halve B (kidPairs l ++ placed B new.length ns ++ kidPairs r)).map branchEntry)
      (branchOf (l ++ c :: r) :: path) (ns.map Prod.snd :: levels) := by
  have hnew : new.length = pre.length + (encList B levels.reverse.flatten).length := by
    rw [hr.written, List.length_append]
  have hlist : (ns.map Prod.snd :: levels).reverse.flatten =
      levels.reverse.flatten ++ ns.map Prod.snd := by simp
  have hoff : off ≤ file.length := Nat.le_of_add_right_le hb.node.seg.le
  -- the references of the new branches: old ones, the nodes of the level below, old ones
  have hkids : ((kidPairs l ++ placed B new.length ns ++ kidPairs r).map Prod.snd) =
      l.map Child.ref ++ offsets B new.length (ns.map Prod.snd) ++ r.map Child.ref := by
    rw [List.map_append, List.map_append, placed_snd]
    simp [kidPairs, Function.comp_def]
  have hold : ∀ x ∈ l.map Child.ref ++ r.map Child.ref, x < pre.length := by
    intro x hx
    rw [← List.map_append] at hx
    obtain ⟨d, hd, rfl⟩ := List.mem_map.mp hx
    have := (hb.kids d (by simp only [List.mem_append, List.mem_cons] at hd ⊢; tauto)).2.1
    omega
  have hrecent : ∀ x ∈ offsets B new.length (ns.map Prod.snd), pre.length ≤ x ∧
      x < new.length + (encNodes B ns).length := by
    intro x hx
    have := offsets_mem hx
    rw [encList_snd] at this
    omega
  have hl : ∀ x ∈ l.map Child.ref, x < pre.length := fun x hx => hold x (by simp [hx])
  have hrr : ∀ x ∈ r.map Child.ref, x < pre.length := fun x hx => hold x (by simp [hx])
  have hfilter := filter_between hl (fun x hx => (hrecent x hx).1) hrr
  refine ⟨hb.searchPath hroute hr.search, ?_, ?_, .cons ⟨?_, ?_, ?_⟩ hr.level, ?_, ?_⟩
  · rw [hlist, encList_append, encList_snd, hr.written, List.append_assoc]
  · intro n hn
    rw [hlist] at hn
    rcases List.mem_append.mp hn with hn | hn
    · exact hr.fits n hn
    · obtain ⟨e, he, rfl⟩ := List.mem_map.mp hn
      exact hfits e he
  · -- a branch that loses a child and gets at most one stays one branch
    rw [List.length_map, List.length_map]
    have hfew := (List.forall₂_cons_right_iff.mp hr.level).choose_spec
    obtain ⟨_, hfew, _⟩ := hfew
    have hcount := hb.count
    by_cases hone : most = 1
    · have hns := hfew.few
      rw [List.length_map] at hns
      have hplaced : (placed B new.length ns).length = ns.length := by
        have := congrArg List.length (placed_snd (B := B) new.length ns)
        rw [List.length_map, offsets_length, List.length_map] at this
        exact this
      refine (halve_length_le_one ?_).trans hmost
      simp only [List.length_append, kidPairs, List.length_map, List.length_cons] at hcount ⊢
      omega
    · exact (halve_length_le _).trans (by omega)
  · intro n hn
    obtain ⟨e, he, rfl⟩ := List.mem_map.mp hn
    obtain ⟨part, hpart, rfl⟩ := List.mem_map.mp he
    obtain ⟨d, ds, hds⟩ := List.exists_cons_of_ne_nil hb.ne
    rw [hds]
    cases part with
    | nil => exact absurd rfl (halve_ne hpart)
    | cons e part => rfl
  · rw [halve_refs, hkids, hb.siblings hroute]
    exact hfilter.1
  · rw [hlist, List.flatMap_append, List.filter_append, hr.refs, halve_refs, hkids,
      offsets_append, ← hnew, hfilter.2]
  · rw [hlist]
    refine backward_append.mpr ⟨hr.back, backward_of_lt fun x hx => ?_⟩
    rw [halve_refs, hkids] at hx
    rw [encList_append, List.length_append, encList_snd, ← Nat.add_assoc, ← hnew]
    simp only [List.mem_append] at hx
    rcases hx with (hx | hx) | hx
    · have := hl x hx
      omega
    · exact (hrecent x hx).2
    · have := hrr x hx
      omega

/-- What the whole way up writes. -/
theorem Climb.replacing {root : Nat} {new new' : Data} {ns ns' : List (Data × Node)}
    {path : List Node} {levels : List (List Node)} (hmost : 1 ≤ most)
    (hfile : file.length ≤ pre.length) (hc : Climb B file k root h off new ns new' ns')
    (hr : Replacing B file pre k most off new ns path levels) :
    (∀ n ∈ ns', n.2.Fits) ∧
      ∃ path levels, Replacing B file pre k most root new' ns' path levels := by
  induction hc generalizing path levels with
  | root fits => exact ⟨fits, path, levels, hr⟩
  | level hb hroute fits _ ih => exact ih (hr.level_up hmost hfile hb hroute fits)

/-- The root is the last node of the way up, or one more node above its last nodes. -/
theorem Replacing.root {new : Data} {ns : List (Data × Node)} {path : List Node}
    {levels : List (List Node)} (hr : Replacing B file pre k most off new ns path levels)
    (hns : ∀ n ∈ ns, n.2.Fits) :
    ∃ extra low, (ns.map Prod.snd :: levels).reverse.flatten ++ extra =
        low ++ [topNode B new.length ns] ∧
      low = levels.reverse.flatten ++ (underRoot ns).map Prod.snd ∧
      (∀ n ∈ low, n.Fits) ∧ extra.length ≤ 1 ∧
      (∀ n ∈ extra, ∀ r ∈ n.refs, pre.length ≤ r) ∧
      ((low ++ [topNode B new.length ns]).flatMap Node.refs).filter (pre.length ≤ ·) =
        offsets B pre.length low ∧ Backward B pre.length low := by
  have hnew : new.length = pre.length + (encList B levels.reverse.flatten).length := by
    rw [hr.written, List.length_append]
  have hrefs := hr.refs
  have hback := hr.back
  rcases ns with _ | ⟨a, _ | ⟨b, ns⟩⟩
  · -- no node is left, and the root is an empty leaf
    simp only [List.map_nil, List.append_nil] at hrefs hback
    refine ⟨[.leaf []], levels.reverse.flatten, by simp [topNode], by simp [underRoot], hr.fits,
      le_refl _, by simp [Node.refs], ?_, hback⟩
    rw [topNode, List.flatMap_append, List.flatMap_singleton, Node.refs, List.append_nil, hrefs]
  · -- one node is left, which is the root
    refine ⟨[], levels.reverse.flatten, by simp [topNode], by simp [underRoot], hr.fits,
      Nat.zero_le _, by simp, hrefs, (backward_append.mp hback).1⟩
  · -- two nodes are left, and the root over them is new
    have htop : ∀ x ∈ (topNode B new.length (a :: b :: ns)).refs, pre.length ≤ x := by
      intro x hx
      rw [topNode_refs] at hx
      have := (offsets_mem hx).1
      omega
    refine ⟨[topNode B new.length (a :: b :: ns)], levels.reverse.flatten ++
      (a :: b :: ns).map Prod.snd, by simp, rfl, ?_, le_refl _, ?_, ?_, hback⟩
    · intro n hn
      rcases List.mem_append.mp hn with hn | hn
      · exact hr.fits n hn
      · obtain ⟨e, he, rfl⟩ := List.mem_map.mp hn
        exact hns e he
    · intro n hn
      rw [List.mem_singleton.mp hn]
      exact htop
    · rw [List.flatMap_append, List.filter_append, hrefs, List.flatMap_singleton,
        List.filter_eq_self.mpr fun x hx => decide_eq_true (htop x hx), topNode_refs,
        offsets_append, hnew]

/-- The block of an update shares what is off the search path. -/
theorem Rewritten.shared {ver leaf v : Nat} {ls : List Rec} {parts : List (List Rec)}
    {payload new file' : Data} {ns : List (Data × Node)} (hmost : 1 ≤ most)
    (hf : file.length < 2 ^ 63) (hleaf : NodeAt B file leaf (.leaf ls))
    (hfew : parts.length ≤ most)
    (hr : Rewritten B file ver k leaf parts payload new ns file' v) :
    Shared B file ver k most file' := by
  have htopfits := hr.top_fits hf
  obtain ⟨hblock, hsize, hclimb, hroot, -⟩ := hr
  obtain ⟨pre, hpre⟩ : ∃ pre, file ++ ([dataBlock] ++
      aodbmDataFrom32 B (payload.length % 2 ^ 32)) = pre := ⟨_, rfl⟩
  have hlen : pre.length = file.length + 5 := by simp [← hpre]
  rw [hpre] at hclimb
  obtain ⟨hfits, path, levels, hrep⟩ :=
    hclimb.replacing hmost (by omega) (replacing_leaf hleaf hfew)
  obtain ⟨extra, low, hnodes, hlow, hlowfits, hextra, hextranew, hrefs, hback⟩ := hrep.root hfits
  have htop : (topNode B new.length ns).Fits :=
    htopfits (by rw [hrep.written, List.length_append]; omega) hfits
  -- the header of the block is no part of the payload
  have hbytes : payload = encList B low ++
      (aodbmDataFrom64 B ver ++ (topNode B new.length ns).enc B) := by
    rw [hblock, Block.enc, ← List.append_assoc, hpre, hrep.written, List.append_assoc] at hroot
    rw [hlow, encList_append, encList_snd, List.append_assoc, List.append_cancel_left hroot,
      hrep.written]
  refine ⟨payload, path, ns.map Prod.snd :: levels, extra, low, topNode B new.length ns, hblock,
    hrep.search, hnodes, ?_, hbytes, hlen ▸ hrep.level, hextra, hlen ▸ hextranew, ?_⟩
  · intro n hn
    rcases List.mem_append.mp hn with hn | hn
    · exact hlowfits n hn
    · exact List.mem_singleton.mp hn ▸ htop
  · intro l r n hsplit
    rw [← hlen]
    exact referenced_once hrefs hback hsplit

variable {w : World}

/-- In a run with short blocks `aodbm_set` on a version other than 0 writes at most two nodes
a level in the place of the search path, `aodbm_del` of a key that is there at most one. -/
theorem structural_sharing (hw : ReachableShort B w) {s : Snapshot} (hs : s ∈ w.snaps)
    (hver : s.ver ≠ 0) (k : Data) :
    (∀ (x : Data) (v : Nat) (db : Db), eval (aodbmSet B s.ver k x) w.db = .ok (v, db) →
        db.file.length < w.db.file.length + (5 + 2 ^ 32) →
        Shared B w.db.file s.ver k 2 db.file) ∧
      (eval (aodbmHas B s.ver k) w.db = .ok (true, w.db) → ∀ (v : Nat) (db : Db),
        eval (aodbmDel B s.ver k) w.db = .ok (v, db) →
        db.file.length < w.db.file.length + (5 + 2 ^ 32) →
        Shared B w.db.file s.ver k 1 db.file) := by
  have hinv := inv_of_reachable hw
  have hf := hinv.synced.bound
  obtain ⟨rs, hrs, _⟩ := hinv.contents hs
  refine ⟨fun x v db run hshort => ?_, fun hhas v db run hshort => ?_⟩
  · obtain ⟨leaf, ls, parts, payload, new, ns, hleaf, hgrown, hr⟩ :=
      hrs.set_rewritten hinv.synced hver run hshort
    refine hr.shared (by decide) hf hleaf ?_
    rw [← List.length_map (f := List.length)]
    rcases hgrown with ⟨-, m, hm, -⟩ | ⟨a, b, hab, -⟩
    · rw [hm]
      exact Nat.le_succ 1
    · rw [hab]
      exact Nat.le_refl 2
  · obtain ⟨leaf, ls, parts, payload, new, ns, hleaf, hone, hr⟩ :=
      hrs.del_rewritten hinv.synced hver hhas run hshort
    exact hr.shared (le_refl _) hf hleaf hone

/-- The handle after the fourth key was removed from the second leaf below a branch. -/
def fourRemoved : Db := fiveDb.append [100, 0, 0, 0, 57, 108, 0, 0, 0, 2, 0, 0, 0, 1, 3, 0, 0, 0, 0,
  0, 0, 0, 1, 5, 0, 0, 0, 0, 0, 0, 0, 0, 0, 0, 0, 222, 98, 0, 0, 0, 1, 0, 0, 0, 0, 0, 0, 0, 167,
  0, 0, 0, 1, 3, 0, 0, 0, 0, 0, 0, 1, 14]

theorem structural_sharing_fiveSets :
    Shared smallBuild fiveDb.file 222 [4] 1 fourRemoved.file := by
  have hhas : eval (aodbmHas smallBuild 222 [4]) fiveDb = .ok (true, fiveDb) := by decide +kernel
  have hdel : eval (aodbmDel smallBuild 222 [4]) fiveDb = .ok (293, fourRemoved) := by
    decide +kernel
  obtain ⟨w, hw, hdb, s, hs, hver⟩ := fiveDb_obtained
  have hshared := (structural_sharing hw hs (by omega) [4]).2
  rw [hdb, hver] at hshared
  exact hshared hhas 293 fourRemoved hdel (by decide +kernel)

/-! ## A long block -/

/-- A row of nodes begins with only one node. -/
theorem enc_cancel {m n : Node} {s t : Data} (hm : m.Fits) (hn : n.Fits)
    (h : m.enc B ++ s = n.enc B ++ t) : m = n ∧ s = t := by
  have hat : NodeAt B (m.enc B ++ s) 0 m := ⟨⟨[], s, rfl, rfl⟩, hm⟩
  obtain rfl := hat.unique ⟨⟨[], t, h, rfl⟩, hn⟩
  exact ⟨rfl, List.append_cancel_left h⟩

/-- A node does not begin with the header of version 302. -/
theorem enc_ne_header {n : Node} {s t : Data} :
    n.enc smallBuild ++ s ≠ aodbmDataFrom64 smallBuild 302 ++ t := by
  intro h
  have hhead := congrArg List.head? h
  rw [show aodbmDataFrom64 smallBuild 302 = [0, 0, 0, 0, 0, 0, 1, 46] from by decide +kernel]
    at hhead
  cases n with
  | leaf rs => exact absurd (Option.some.inj hhead) (by decide)
  | branch first rest => exact absurd (Option.some.inj hhead) (by decide)

/-- The second half of a leaf that was split has no reference when the first one is long. -/
theorem sharing_broken : ∃ w, Reachable smallBuild w ∧ ∃ s ∈ w.snaps, s.ver ≠ 0 ∧
    ∃ k x v db, eval (aodbmSet smallBuild s.ver k x) w.db = .ok (v, db) ∧
      ¬ Shared smallBuild w.db.file s.ver k 2 db.file := by
  obtain ⟨x, hx, -⟩ := exists_longValue (show ([] : Data).length ≤ 2 ^ 32 - 9 from Nat.zero_le _)
  obtain ⟨w, hw, hdb, s, hs, hver⟩ := six_inserted
  refine ⟨w, Relation.ReflTransGen.mono (fun _ _ h => h.1.step) _ _ hw, s, hs, by omega, [3], x,
    378, _, by rw [hver, hdb]; exact eval_splitSet hx, ?_⟩
  rw [hver, hdb]
  rintro ⟨payload, path, levels, extra, low, root, hfile, hshares⟩
  have hfits := hshares.fits
  have hbytes := hshares.bytes
  -- the nodes of the block can only be the two halves and the root
  have hpayload : splitData x = payload := by
    have hblock := List.append_cancel_left hfile
    exact (List.append_inj hblock (by simp)).2
  have hfirst : (firstHalf x).Fits := by simp [firstHalf, Node.Fits, hx]
  have hsecond : secondHalf.Fits := by simp [secondHalf, Node.Fits]
  have hroot : splitRoot.Fits := by simp [splitRoot, Node.Fits]
  rw [← hpayload, splitData] at hbytes
  obtain _ | ⟨a, low⟩ := low
  · exact enc_ne_header hbytes
  rw [encList_cons, List.append_assoc] at hbytes
  obtain ⟨rfl, htail⟩ := enc_cancel hfirst (hfits a (by simp)) hbytes
  obtain _ | ⟨b, low⟩ := low
  · exact enc_ne_header htail
  rw [encList_cons, List.append_assoc] at htail
  obtain ⟨rfl, hrest⟩ := enc_cancel hsecond (hfits b (by simp)) htail
  obtain _ | ⟨c, low⟩ := low
  · have hlast := List.append_cancel_left hrest
    obtain ⟨rfl, -⟩ := enc_cancel (B := smallBuild) (s := []) (t := []) hroot
      (hfits root (by simp)) (by simpa using hlast)
    have href := (hshares.once (l := [firstHalf x]) (n := secondHalf) (r := []) rfl).2
    rw [encList_cons, encList_nil, List.append_nil, firstHalf_length hx, sixDb_length] at href
    revert href
    decide
  · rw [encList_cons, List.append_assoc] at hrest
    exact enc_ne_header hrest.symm

end Aodbm
