import Aodbm.Run

/-!
# The database is a map with history

In every run with short blocks each version answers like the map it stands for, and its
tree has the shape of a B+ tree.

Results:
1. `lookup_refines`: the lookups of every version, and the deletion of absent keys.
2. `tree_shape`: the offsets, depths, orders and sizes in the tree of every version.
-/

namespace Aodbm

open Effects Records Bytes

variable (B : Build)

/-! ## Lookups -/

variable {B} in
/-- Every version that was returned answers like its map: the empty map for version 0, the
map updated at the key for the result of `aodbm_set`, without the key for that of `aodbm_del`. -/
theorem lookup_refines {w : World} (hw : ReachableShort B w) {s : Snapshot} (hs : s ∈ w.snaps) :
    (∀ q, eval (aodbmGet B s.ver q) w.db = .ok (s.contents q, w.db)) ∧
      (∀ q, eval (aodbmHas B s.ver q) w.db = .ok ((s.contents q).isSome, w.db)) ∧
      ∀ k, s.contents k = none → eval (aodbmDel B s.ver k) w.db = .ok (s.ver, w.db) := by
  have hinv := inv_of_reachable hw
  obtain ⟨rs, hrs, hq⟩ := hinv.contents hs
  refine ⟨fun q => ?_, fun q => ?_, fun k hk => ?_⟩
  · rw [hq]
    exact hrs.get hinv.synced q
  · rw [hq]
    exact hrs.has hinv.synced q
  · exact hrs.del_absent hinv.synced ((hq k).symm.trans hk)

/-- The second version of the short run finds both keys. -/
theorem lookup_refines_shortRun :
    eval (aodbmGet smallBuild 33 [2]) shortRun.db = .ok (some [20], shortRun.db) :=
  (lookup_refines shortRun_reachable (s := shortSecond) List.mem_cons_self).1 [2]

/-! ## The shape of the trees -/

/-- The node at `off` is met on a way of `d` steps from the root. -/
inductive Under (file : Data) (root : Nat) : Nat → Nat → Prop where
  | root : Under file root 0 root
  | child {d off first c : Nat} {rest : List (Data × Nat)} (above : Under file root d off)
      (node : NodeAt B file off (.branch first rest)) (mem : c ∈ first :: rest.map Prod.snd) :
      Under file root (d + 1) c

/-- The key stands in a leaf below the node at `off`. -/
def KeyUnder (file : Data) (off : Nat) (key : Data) : Prop :=
  ∃ d leaf rs, Under B file off d leaf ∧ NodeAt B file leaf (.leaf rs) ∧ key ∈ rs.map Prod.fst

/-- What a node at `off`, met `d` steps below the root, looks like in a tree of height `h`. -/
structure NodeShape (file : Data) (root h d off : Nat) : Prop where
  /-- A complete node stands there. -/
  complete : ∃ n, NodeAt B file off n
  /-- Leaves: one depth, increasing keys, at most `M` records and at least one below a root. -/
  leaf : ∀ {rs : List Rec}, NodeAt B file off (.leaf rs) → d = h ∧
    (rs.map Prod.fst).Pairwise (fun a b => aodbmDataLt B a b = true) ∧
    rs.length ≤ B.maxNodeSize ∧ (off ≠ root → rs ≠ [])
  /-- Branches: child offsets are not zero and point down, separators increase, and there are
  at least one and at most `M - 1` children. -/
  branch : ∀ {first : Nat} {rest : List (Data × Nat)}, NodeAt B file off (.branch first rest) →
    (∀ c ∈ first :: rest.map Prod.snd, c ≠ 0 ∧ c < off) ∧
    (rest.map Prod.fst).Pairwise (fun a b => aodbmDataLt B a b = true) ∧
    (first :: rest.map Prod.snd).length ≤ B.maxNodeSize - 1
  /-- A separator divides the keys below the child behind it from those below the child
  before it. -/
  separates : ∀ {first : Nat} {l r : List (Data × Nat)} {kc : Data × Nat},
    NodeAt B file off (.branch first (l ++ kc :: r)) →
    (∀ key, KeyUnder B file kc.2 key → aodbmDataGe B key kc.1 = true) ∧
    ∀ key, KeyUnder B file ((l.getLast?.map Prod.snd).getD first) key →
      aodbmDataLt B key kc.1 = true

variable {B}
variable {file : Data} {h off root d : Nat} {rs : List Rec}

/-- The children of a branch that is the root of a subtree. -/
theorem SubtreeAt.branch (hs : SubtreeAt B file h off rs) {first : Nat} {rest : List (Data × Nat)}
    (hn : NodeAt B file off (.branch first rest)) :
    ∃ h' c cs, h = h' + 1 ∧ BranchAt B file h' off c.key (c :: cs) ∧ rs = below (c :: cs) ∧
      first = c.ref ∧ rest = kidPairs cs := by
  cases h with
  | zero =>
    have := hs.leafAt.unique hn
    cases this
  | succ h =>
    obtain ⟨cs, hb, hrs⟩ := hs.rootAt
    obtain ⟨c, cs, rfl⟩ := List.exists_cons_of_ne_nil hb.ne
    have hnode := hb.node.unique hn
    simp only [branchOf, Node.branch.injEq] at hnode
    exact ⟨h, c, cs, rfl, ⟨hb.node, hb.ne, hb.count, hb.ordered, hb.kids, by simp⟩, hrs,
      hnode.1.symm, hnode.2.symm⟩

/-- Every node below a subtree is a subtree, with some of its records. -/
theorem SubtreeAt.under (hs : SubtreeAt B file h root rs) (hu : Under B file root d off) :
    ∃ h' rs', h = d + h' ∧ SubtreeAt B file h' off rs' ∧ ∀ r ∈ rs', r ∈ rs := by
  induction hu with
  | root => exact ⟨h, rs, (Nat.zero_add _).symm, hs, fun r hr => hr⟩
  | @child d off first c rest _ hn hmem ih =>
    obtain ⟨h', rs', hh, hsub, hrs⟩ := ih
    obtain ⟨h'', k, cs, rfl, hb, rfl, rfl, rfl⟩ := hsub.branch hn
    have hkid : ∃ e ∈ k :: cs, e.ref = c := by
      rcases List.mem_cons.mp hmem with rfl | hmem
      · exact ⟨k, List.mem_cons_self, rfl⟩
      · obtain ⟨kc, hkc, rfl⟩ := List.mem_map.mp hmem
        obtain ⟨e, he, rfl⟩ := List.mem_map.mp hkc
        exact ⟨e, List.mem_cons_of_mem _ he, rfl⟩
    obtain ⟨e, he, rfl⟩ := hkid
    exact ⟨h'', e.recs, by omega, (hb.kids e he).2.2,
      fun r hr => hrs r (mem_below.mpr ⟨e, he, hr⟩)⟩

theorem SubtreeAt.keyUnder (hs : SubtreeAt B file h off rs) {key : Data}
    (hk : KeyUnder B file off key) : ∃ r ∈ rs, r.1 = key := by
  obtain ⟨d, leaf, ls, hu, hleaf, hmem⟩ := hk
  obtain ⟨h', rs', _, hsub, hrs⟩ := hs.under hu
  obtain ⟨r, hr, rfl⟩ := List.mem_map.mp hmem
  cases h' with
  | zero =>
    have hnode := hsub.leafAt.unique hleaf
    cases hnode
    exact ⟨r, hrs r hr, rfl⟩
  | succ h' => exact absurd hleaf hsub.not_leaf

theorem pairwise_keys {β : Type} {cs : List (Data × β)}
    (h : cs.Pairwise fun a b => rank B a.1 < rank B b.1) :
    (cs.map Prod.fst).Pairwise fun a b => aodbmDataLt B a b = true := by
  rw [List.pairwise_map]
  exact h.imp fun hab => (aodbmDataLt_iff B).mpr hab

/-- A separator of a branch, with the child behind it and the one before it. -/
theorem BranchAt.separator {cs : List Kid} {c : Kid} {lo : Data} {l r : List (Data × Nat)}
    {kc : Data × Nat} (hb : BranchAt B file h off lo (c :: cs))
    (hsplit : kidPairs cs = l ++ kc :: r) :
    ∃ e ∈ c :: cs, ∃ e' ∈ c :: cs, kc = (e.key, e.ref) ∧
      (l.getLast?.map Prod.snd).getD c.ref = e'.ref ∧ (∀ s ∈ e.recs, rank B e.key ≤ rank B s.1) ∧
      ∀ s ∈ e'.recs, rank B s.1 < rank B e.key := by
  obtain ⟨cl, crest, rfl, rfl, hrest⟩ := List.map_eq_append_iff.mp hsplit
  obtain ⟨e, cr, rfl, rfl, rfl⟩ := List.map_eq_cons_iff.mp hrest
  have hord := hb.ordered
  rw [← List.cons_append] at hord
  obtain ⟨_, _, hbetween⟩ := ordered_append.mp hord
  have hprev : ∃ e' ∈ c :: cl,
      ((cl.map fun c : Kid => (c.key, c.ref)).getLast?.map Prod.snd).getD c.ref = e'.ref := by
    rcases List.eq_nil_or_concat cl with rfl | ⟨t, e', rfl⟩
    · exact ⟨c, List.mem_cons_self, rfl⟩
    · exact ⟨e', by simp, by simp⟩
  obtain ⟨e', he', hlast⟩ := hprev
  exact ⟨e, by simp, e', by rw [← List.cons_append]; exact List.mem_append_left _ he', rfl, hlast,
    hb.ordered.lower e (by simp), (hbetween e' he' e List.mem_cons_self).2⟩

/-- A subtree `d` steps below the root has the shape. -/
theorem SubtreeAt.shape (hs : SubtreeAt B file h off rs) : NodeShape B file root (d + h) d off where
  complete := let ⟨n, hn, _⟩ := hs; ⟨n, hn⟩
  leaf := by
    intro ls hleaf
    cases h with
    | zero =>
      have hnode := hs.leafAt.unique hleaf
      cases hnode
      obtain ⟨n, _, _, hne, hcount, hsorted⟩ := hs
      have hkeys := pairwise_keys hsorted
      exact ⟨rfl, hkeys, hcount, fun _ => hne⟩
    | succ h => exact absurd hleaf hs.not_leaf
  branch := by
    intro first rest hn
    obtain ⟨h', c, cs, rfl, hb, rfl, rfl, rfl⟩ := hs.branch hn
    have hrefs : c.ref :: (kidPairs cs).map Prod.snd = (c :: cs).map Child.ref := by
      simp [kidPairs]
    rw [hrefs]
    refine ⟨fun off' hoff => ?_, ?_, ?_⟩
    · obtain ⟨e, he, rfl⟩ := List.mem_map.mp hoff
      exact ⟨(hb.kids e he).1.ne', (hb.kids e he).2.1⟩
    · refine pairwise_keys (List.pairwise_map.mpr ?_)
      exact (List.pairwise_cons.mp hb.ordered.seps).2.imp And.left
    · have := hb.count
      rw [List.length_map]
      omega
  separates := by
    intro first l r kc hn
    obtain ⟨h', c, cs, rfl, hb, rfl, rfl, hrest⟩ := hs.branch hn
    obtain ⟨e, he, e', he', rfl, hlast, hge, hlt⟩ := hb.separator hrest.symm
    rw [hlast]
    refine ⟨fun key hkey => ?_, fun key hkey => ?_⟩
    · obtain ⟨s, hs, rfl⟩ := (hb.kids e he).2.2.keyUnder hkey
      rw [aodbmDataGe_eq]
      exact decide_eq_true (hge s hs)
    · obtain ⟨s, hs, rfl⟩ := (hb.kids e' he').2.2.keyUnder hkey
      exact (aodbmDataLt_iff B).mpr (hlt s hs)

/-- An empty root leaf has the shape, and there is nothing below it. -/
theorem shape_empty (hleaf : NodeAt B file root (.leaf [])) (hu : Under B file root d off) :
    NodeShape B file root 0 d off := by
  have hroot : d = 0 ∧ off = root := by
    induction hu with
    | root => exact ⟨rfl, rfl⟩
    | child _ hn _ ih =>
      obtain ⟨_, rfl⟩ := ih
      have := hleaf.unique hn
      cases this
  obtain ⟨rfl, rfl⟩ := hroot
  refine ⟨⟨_, hleaf⟩, fun {rs} hn => ?_, fun hn => ?_, fun hn => ?_⟩
  · have hnode := hleaf.unique hn
    cases hnode
    exact ⟨rfl, List.Pairwise.nil, Nat.zero_le _, fun h => absurd rfl h⟩
  · have := hleaf.unique hn
    cases this
  · have := hleaf.unique hn
    cases this

/-- In the tree of every version that was returned: child offsets are not zero, point down
and lead to complete nodes; all leaves have one depth; keys and separators increase and
separators divide the keys; the counts of records and children are legal. -/
theorem tree_shape {w : World} (hw : ReachableShort B w) {s : Snapshot} (hs : s ∈ w.snaps)
    (hver : s.ver ≠ 0) :
    ∃ h, ∀ {d off : Nat}, Under B w.db.file (s.ver + 8) d off →
      NodeShape B w.db.file (s.ver + 8) h d off := by
  obtain ⟨rs, hrs, _⟩ := (inv_of_reachable hw).contents hs
  rcases hrs with ⟨h0, _⟩ | ⟨_, ⟨hleaf, _⟩ | ⟨h, hsub⟩⟩
  · exact absurd h0 hver
  · exact ⟨0, fun hu => shape_empty hleaf hu⟩
  · refine ⟨h, fun hu => ?_⟩
    obtain ⟨h', rs', rfl, hsub', _⟩ := hsub.under hu
    exact hsub'.shape

/-- The root of the fifth version of the run with a branch, and its second leaf. -/
theorem tree_shape_fiveSets : NodeShape smallBuild fiveDb.file 230 1 0 230 ∧
    NodeShape smallBuild fiveDb.file 230 1 1 190 := by
  obtain ⟨w, hw, hdb, s, hs, hver⟩ := fiveDb_obtained
  obtain ⟨h, hall⟩ := tree_shape hw hs (by omega)
  rw [hdb, hver] at hall
  have hunder : Under smallBuild fiveDb.file 230 1 190 :=
    .child .root fiveRoot (List.mem_cons_of_mem _ List.mem_cons_self)
  obtain rfl : 1 = h := ((hall hunder).leaf fiveSecondLeaf).1
  exact ⟨hall .root, hall hunder⟩

end Aodbm
