import Aodbm.Tree

/-!
# Descents

A branch sends every key to one child. The two descents of the source follow it, and
`Above` records what the stack of `aodbm_search_path` stands for: at each level the
branch, the child that was taken, and the siblings of that child.

Results:
1. `eval_search`: the leaf that is found holds the records of the key.
2. `eval_searchPath`: the stack leads from that leaf to the root.
3. `eval_has`, `eval_get`: the lookups answer from the records of the tree.
-/

namespace Aodbm

open Effects Records Bytes

variable (B : Build)

/-- A branch with the children `cs`, under the key `key` that its parent has for it. -/
structure BranchAt (file : Data) (h off : Nat) (key : Data) (cs : List Kid) : Prop where
  node : NodeAt B file off (branchOf cs)
  ne : cs ≠ []
  count : cs.length < B.maxNodeSize
  ordered : Ordered (rank B) cs
  kids : ∀ c ∈ cs, 0 < c.ref ∧ c.ref < off ∧ SubtreeAt B file h c.ref c.recs
  head : ∀ c ∈ cs.head?, c.key = key

/-- The levels above a node on the way of `k`: the node has height `h`, stands at `off`
under the key `lo` and holds the records `rs`; the tree above it holds `top`. -/
inductive Above (file : Data) (k : Data) :
    Nat → Nat → Data → List Rec → List PathNode → List Rec → Prop where
  | root {h off : Nat} {lo : Data} {rs : List Rec} : Above file k h off lo rs [] rs
  | child {h off : Nat} {lo : Data} {c : Kid} {l r : List Kid} {path : List PathNode}
      {top : List Rec} (branch : BranchAt B file h off lo (l ++ c :: r))
      (routes : Routes (rank B) k c r)
      (above : Above file k (h + 1) off lo (below (l ++ c :: r)) path top) :
      Above file k h c.ref c.key c.recs (⟨lo, off⟩ :: path) top

/-- Where a way up from the node at `off` ends: the branches above it are those of `path`. -/
def rootOf : Nat → List PathNode → Nat
  | off, [] => off
  | _, branch :: path => rootOf branch.node path

variable {B}
variable {db : Db} {file : Data} {h off : Nat} {k lo : Data} {rs : List Rec}

/-- The key a parent has for a branch can stand for the separator of its first child. -/
theorem SubtreeAt.branchAt (hs : SubtreeAt B file (h + 1) off rs)
    (hlo : ∀ r ∈ rs, rank B lo ≤ rank B r.1) :
    ∃ cs, BranchAt B file h off lo cs ∧ rs = below cs := by
  obtain ⟨n, hn, cs, rfl, hne, hcount, hord, rfl, hkids⟩ := hs
  obtain ⟨c, cs, rfl⟩ := List.exists_cons_of_ne_nil hne
  have hc : c.recs ≠ [] := by
    obtain ⟨_, _, m, _, hok⟩ := hkids c List.mem_cons_self
    exact hok.ne_nil
  refine ⟨{ c with key := lo } :: cs, ⟨hn, by simp, hcount, ?_, ?_, by simp⟩, rfl⟩
  · exact hord.rekey hc fun r hr => hlo r (List.mem_append_left _ hr)
  · intro d hd
    rcases List.mem_cons.mp hd with rfl | hd
    · exact hkids c List.mem_cons_self
    · exact hkids d (List.mem_cons_of_mem _ hd)

/-- The root has no parent; the empty key is below every key. -/
theorem SubtreeAt.rootAt (hs : SubtreeAt B file (h + 1) off rs) :
    ∃ cs, BranchAt B file h off [] cs ∧ rs = below cs :=
  hs.branchAt fun r _ => rank_nil_le B r.1

theorem SubtreeAt.leafAt (hs : SubtreeAt B file 0 off rs) : NodeAt B file off (.leaf rs) := by
  obtain ⟨n, hn, hok⟩ := hs
  exact hok.1 ▸ hn

theorem SubtreeAt.not_leaf {ls : List Rec} (hs : SubtreeAt B file (h + 1) off rs) :
    ¬ NodeAt B file off (.leaf ls) := by
  intro hleaf
  obtain ⟨cs, hb, _⟩ := hs.rootAt
  obtain ⟨c, cs, rfl⟩ := List.exists_cons_of_ne_nil hb.ne
  exact Node.noConfusion (hb.node.unique hleaf)

/-- The root of a tree is a leaf, which may be empty, or a branch. -/
theorem TreeAt.leaf_or_branch (ht : TreeAt B file off rs) :
    (NodeAt B file off (.leaf rs) ∧ rs.length ≤ B.maxNodeSize) ∨
      ∃ h, SubtreeAt B file (h + 1) off rs := by
  rcases ht with ⟨hleaf, rfl⟩ | ⟨h, hs⟩
  · exact Or.inl ⟨hleaf, Nat.zero_le _⟩
  · cases h with
    | zero =>
      have hleaf := hs.leafAt
      obtain ⟨_, _, hok⟩ := hs
      exact Or.inl ⟨hleaf, hok.2.2.1⟩
    | succ h => exact Or.inr ⟨h, hs⟩

/-! ## The scan of a branch -/

/-- The scan of `aodbm_search` is that of `aodbm_search_path` without the keys. -/
theorem searchLoop_eq (key : Data) (n pos off : Nat) (prevKey : Data) :
    searchLoop B key n pos off = Prod.fst <$> searchPathLoop B key n pos off prevKey := by
  induction n generalizing pos off prevKey with
  | zero => rfl
  | succ n ih =>
    unfold searchLoop searchPathLoop
    rw [map_bind]
    congr 1
    funext dat
    split
    · rfl
    · rw [map_bind]
      congr 1
      funext off
      exact ih _ _ dat

/-- The scan of `aodbm_search_path` passes the separators `es`, which are not above `k`, and
stops at the first one that is. The child it returns is the last one it passed. -/
theorem eval_searchPathLoop_split {es fs : List (Data × Nat)} {pos off : Nat} {prevKey : Data}
    {c : Data × Nat} (hseg : SegAt db.file pos (encKids B (es ++ fs)))
    (hfits : ∀ kc ∈ es ++ fs, kc.1.length < 2 ^ 32 ∧ kc.2 < 2 ^ 64)
    (hpassed : ∀ e ∈ es, aodbmDataLt B k e.1 = false)
    (hstop : ∀ f ∈ fs.head?, aodbmDataLt B k f.1 = true)
    (hchild : ((prevKey, off) :: es).getLast? = some c) :
    eval (searchPathLoop B k (es ++ fs).length pos off prevKey) db = .ok ((c.2, c.1), db) := by
  induction es generalizing pos off prevKey with
  | nil =>
    have hc : (prevKey, off) = c := Option.some.inj hchild
    subst hc
    cases fs with
    | nil => rfl
    | cons f fs =>
      obtain ⟨hkey, -, -⟩ := eval_readKid hseg (hfits f (by simp))
      rw [List.nil_append, List.length_cons, searchPathLoop, eval, run_bind_ok hkey,
        if_pos (hstop f rfl)]
      rfl
  | cons e es ih =>
    obtain ⟨hkey, hoff, hrest⟩ := eval_readKid hseg (hfits e (by simp))
    rw [List.getLast?_cons_cons] at hchild
    have hnext := ih hrest (fun kc hkc => hfits kc (List.mem_cons_of_mem _ hkc))
      (fun d hd => hpassed d (List.mem_cons_of_mem _ hd)) hchild
    rw [List.cons_append, List.length_cons, searchPathLoop, eval, run_bind_ok hkey,
      if_neg (Bool.not_eq_true _ ▸ hpassed e List.mem_cons_self), run_bind_ok hoff]
    exact hnext

/-- For a key of a branch: the separators that a scan passes, and the child it stops at. -/
theorem exists_passed (cur : Kid) (cs : List Kid) (hcur : rank B cur.key ≤ rank B k)
    (hsep : (cur :: cs).Pairwise fun c d => rank B c.key < rank B d.key) :
    ∃ es l c r, kidPairs cs = es ++ kidPairs r ∧ cur :: cs = l ++ c :: r ∧
      es.length = l.length ∧ Routes (rank B) k c r ∧ (∀ e ∈ es, aodbmDataLt B k e.1 = false) ∧
      (∀ f ∈ (kidPairs r).head?, aodbmDataLt B k f.1 = true) ∧
      ((cur.key, cur.ref) :: es).getLast? = some (c.key, c.ref) := by
  obtain ⟨ds, r, l, c, rfl, hlast, hroute, hpassed⟩ := exists_routes cur cs hcur hsep
  refine ⟨kidPairs ds, l, c, r, List.map_append, ?_, ?_, hroute, fun e he => ?_, fun f hf => ?_, ?_⟩
  · rw [← List.cons_append, hlast, List.append_assoc, List.singleton_append]
  · have hlen := congrArg List.length hlast
    simpa [kidPairs] using hlen
  · obtain ⟨d, hd, rfl⟩ := List.mem_map.mp he
    exact Bool.eq_false_iff.mpr fun hlt =>
      absurd ((aodbmDataLt_iff B).mp hlt) (not_lt.mpr (hpassed d hd))
  · obtain ⟨d, hd, rfl⟩ := List.mem_map.mp (List.mem_of_mem_head? hf)
    exact (aodbmDataLt_iff B).mpr (hroute.2 d hd)
  · have hmap := congrArg kidPairs hlast
    simp only [kidPairs, List.map_cons, List.map_append, List.map_nil] at hmap ⊢
    rw [hmap, List.getLast?_concat]

/-- The scan stops at the child the key belongs below. -/
theorem eval_searchPathLoop {pos : Nat} (cur : Kid) (cs : List Kid)
    (hseg : SegAt db.file pos (encKids B (kidPairs cs)))
    (hfits : ∀ kc ∈ kidPairs cs, kc.1.length < 2 ^ 32 ∧ kc.2 < 2 ^ 64)
    (hcur : rank B cur.key ≤ rank B k)
    (hsep : (cur :: cs).Pairwise fun c d => rank B c.key < rank B d.key) :
    ∃ l c r, cur :: cs = l ++ c :: r ∧ Routes (rank B) k c r ∧
      eval (searchPathLoop B k cs.length pos cur.ref cur.key) db = .ok ((c.ref, c.key), db) := by
  obtain ⟨es, l, c, r, hpairs, hcs, -, hroute, hpassed, hstop, hchild⟩ :=
    exists_passed cur cs hcur hsep
  have hlen : (kidPairs cs).length = cs.length := List.length_map ..
  rw [hpairs] at hseg hfits hlen
  refine ⟨l, c, r, hcs, hroute, ?_⟩
  rw [← hlen]
  exact eval_searchPathLoop_split hseg hfits hpassed hstop hchild

/-- What both descents do at a branch. -/
theorem BranchAt.eval_child {cs : List Kid} (hb : BranchAt B db.file h off lo cs)
    (hk : rank B lo ≤ rank B k) :
    ∃ first sz l c r, cs = l ++ c :: r ∧ Routes (rank B) k c r ∧
      eval (readType off) db = .ok (branchType, db) ∧
      eval (aodbmRead32 B (off + 1)) db = .ok (sz, db) ∧
      eval (aodbmRead64 B (off + 5)) db = .ok (first, db) ∧
      eval (searchPathLoop B k sz (off + 5 + 8) first lo) db = .ok ((c.ref, c.key), db) := by
  obtain ⟨c₀, cs, rfl⟩ := List.exists_cons_of_ne_nil hb.ne
  have hhead : c₀.key = lo := hb.head c₀ rfl
  subst hhead
  have hnode : NodeAt B db.file off (.branch c₀.ref (kidPairs cs)) := hb.node
  obtain ⟨l, c, r, hcs, hroute, heval⟩ := eval_searchPathLoop c₀ cs hnode.branchKids
    hnode.fits.2.2 hk (hb.ordered.seps.imp And.left)
  have hlen : (kidPairs cs).length = cs.length := List.length_map ..
  exact ⟨c₀.ref, cs.length, l, c, r, hcs, hroute, eval_branchType hnode,
    hlen ▸ eval_branchCount hnode, eval_branchFirst hnode, heval⟩

/-! ## The descents -/

/-- The descent to the leaf of a key: only that leaf decides the lookup of the key. -/
theorem eval_searchRecursive {depth : Nat} (hdepth : h < depth)
    (hs : SubtreeAt B db.file h off rs) (hlo : ∀ r ∈ rs, rank B lo ≤ rank B r.1)
    (hk : rank B lo ≤ rank B k) :
    ∃ leaf ls, eval (aodbmSearchRecursive B k depth off) db = .ok (leaf, db) ∧
      NodeAt B db.file leaf (.leaf ls) ∧ rs.lookup k = ls.lookup k := by
  induction h generalizing depth off rs lo with
  | zero =>
    obtain ⟨depth, rfl⟩ : ∃ d, depth = d + 1 := ⟨depth - 1, by omega⟩
    have hleaf := hs.leafAt
    refine ⟨off, rs, ?_, hleaf, rfl⟩
    rw [aodbmSearchRecursive, eval, run_bind_ok (eval_leafType hleaf), if_pos rfl]
    rfl
  | succ h ih =>
    obtain ⟨depth, rfl⟩ : ∃ d, depth = d + 1 := ⟨depth - 1, by omega⟩
    obtain ⟨cs, hb, rfl⟩ := hs.branchAt hlo
    obtain ⟨first, sz, l, c, r, rfl, hroute, htype, hsz, hfirst, hscan⟩ := hb.eval_child hk
    have hc := hb.kids c (by simp)
    have hd : h < depth := by omega
    obtain ⟨leaf, ls, heval, hleaf, hlook⟩ := ih hd hc.2.2
      (hb.ordered.lower c (by simp)) hroute.1
    refine ⟨leaf, ls, ?_, hleaf, (hroute.lookup hb.ordered).trans hlook⟩
    have hscan' : eval (searchLoop B k sz (off + 5 + 8) first) db = .ok (c.ref, db) := by
      rw [searchLoop_eq k sz _ first lo, map_eq_pure_bind, eval, run_bind_ok hscan]
      rfl
    rw [aodbmSearchRecursive, eval, run_bind_ok htype, if_neg (by decide), if_pos rfl,
      run_bind_ok hsz, run_bind_ok hfirst, run_bind_ok hscan']
    exact heval

/-- The descent that keeps the way: the stack it returns leads from the leaf of the key
up to the node it started at. -/
theorem eval_searchPathRecursive {depth : Nat} (hdepth : h < depth) {path : List PathNode}
    {top : List Rec} (hs : SubtreeAt B db.file h off rs)
    (hlo : ∀ r ∈ rs, rank B lo ≤ rank B r.1) (hk : rank B lo ≤ rank B k)
    (habove : Above B db.file k h off lo rs path top) :
    ∃ leafLo leaf ls path',
      eval (aodbmSearchPathRecursive B k depth off lo path) db =
        .ok (⟨leafLo, leaf⟩ :: path', db) ∧
      SubtreeAt B db.file 0 leaf ls ∧ (∀ r ∈ ls, rank B leafLo ≤ rank B r.1) ∧
      rank B leafLo ≤ rank B k ∧ rootOf leaf path' = rootOf off path ∧
      Above B db.file k 0 leaf leafLo ls path' top := by
  induction h generalizing depth off rs lo path with
  | zero =>
    obtain ⟨depth, rfl⟩ : ∃ d, depth = d + 1 := ⟨depth - 1, by omega⟩
    refine ⟨lo, off, rs, path, ?_, hs, hlo, hk, rfl, habove⟩
    rw [aodbmSearchPathRecursive, if_pos (by rw [aodbmDataLe_eq]; exact decide_eq_true hk), eval,
      run_bind_ok (eval_leafType hs.leafAt), if_pos rfl]
    rfl
  | succ h ih =>
    obtain ⟨depth, rfl⟩ : ∃ d, depth = d + 1 := ⟨depth - 1, by omega⟩
    obtain ⟨cs, hb, rfl⟩ := hs.branchAt hlo
    obtain ⟨first, sz, l, c, r, rfl, hroute, htype, hsz, hfirst, hscan⟩ := hb.eval_child hk
    have hc := hb.kids c (by simp)
    have hd : h < depth := by omega
    obtain ⟨leafLo, leaf, ls, path', heval, hrest⟩ := ih hd hc.2.2
      (hb.ordered.lower c (by simp)) hroute.1 (.child hb hroute habove)
    refine ⟨leafLo, leaf, ls, path', ?_, hrest⟩
    rw [aodbmSearchPathRecursive, if_pos (by rw [aodbmDataLe_eq]; exact decide_eq_true hk), eval,
      run_bind_ok htype, if_neg (by decide), if_pos rfl, run_bind_ok hsz, run_bind_ok hfirst,
      run_bind_ok hscan]
    exact heval

theorem maxDepth_eq : maxDepth = (2 ^ 64 - 1) + 1 := rfl

/-- There are fewer levels than offsets. -/
theorem SubtreeAt.lt_maxDepth (hs : SubtreeAt B file h off rs) (hf : file.length < 2 ^ 63) :
    h < maxDepth := by
  have h1 := hs.height_lt
  obtain ⟨n, hn, _⟩ := hs
  have h2 := hn.seg.le
  unfold maxDepth
  omega

theorem eval_search {ver : Nat} (hver : ver ≠ 0) (ht : TreeAt B db.file (ver + 8) rs)
    (hf : db.file.length < 2 ^ 63) :
    ∃ leaf ls, eval (aodbmSearch B ver k) db = .ok (leaf, db) ∧
      NodeAt B db.file leaf (.leaf ls) ∧ rs.lookup k = ls.lookup k := by
  unfold aodbmSearch
  rw [if_neg hver]
  rcases ht with ⟨hleaf, rfl⟩ | ⟨h, hs⟩
  · refine ⟨ver + 8, [], ?_, hleaf, rfl⟩
    rw [maxDepth_eq, aodbmSearchRecursive, eval, run_bind_ok (eval_leafType hleaf), if_pos rfl]
    rfl
  · exact eval_searchRecursive (hs.lt_maxDepth hf) hs (fun r _ => rank_nil_le B r.1)
      (rank_nil_le B k)

theorem eval_searchPath {ver : Nat} (hver : ver ≠ 0) (hs : SubtreeAt B db.file h (ver + 8) rs)
    (hf : db.file.length < 2 ^ 63) :
    ∃ lo leaf ls path, eval (aodbmSearchPath B ver k) db = .ok (⟨lo, leaf⟩ :: path, db) ∧
      SubtreeAt B db.file 0 leaf ls ∧ (∀ r ∈ ls, rank B lo ≤ rank B r.1) ∧
      rank B lo ≤ rank B k ∧ rootOf leaf path = ver + 8 ∧
      Above B db.file k 0 leaf lo ls path rs := by
  unfold aodbmSearchPath
  rw [if_neg hver]
  exact eval_searchPathRecursive (hs.lt_maxDepth hf) hs (fun r _ => rank_nil_le B r.1)
    (rank_nil_le B k) .root

/-! ## Lookups -/

theorem eval_getLoop {pos : Nat} (hseg : SegAt db.file pos (encRecs B rs))
    (hfits : ∀ r ∈ rs, r.1.length < 2 ^ 32 ∧ r.2.length < 2 ^ 32) :
    eval (getLoop B k rs.length pos) db = .ok (rs.lookup k, db) := by
  induction rs generalizing pos with
  | nil => rfl
  | cons r rs ih =>
    obtain ⟨hkey, hval, hrest⟩ := eval_readRec hseg (hfits r List.mem_cons_self)
    rw [List.length_cons, getLoop, eval, run_bind_ok hkey, run_bind_ok hval, aodbmDataEq_eq,
      lookup_cons_if]
    by_cases hkr : k = r.1
    · rw [if_pos (decide_eq_true hkr), if_pos hkr]
      rfl
    · rw [if_neg (by simpa using hkr), if_neg hkr]
      exact ih hrest fun s hs => hfits s (List.mem_cons_of_mem _ hs)

/-- The loop of `aodbm_has` is that of `aodbm_get` without the value. -/
theorem hasLoop_eq (key : Data) (n pos : Nat) :
    hasLoop B key n pos = Option.isSome <$> getLoop B key n pos := by
  induction n generalizing pos with
  | zero => rfl
  | succ n ih =>
    unfold hasLoop getLoop
    rw [map_bind]
    congr 1
    funext k
    rw [map_bind]
    congr 1
    funext val
    split
    · rfl
    · exact ih _

theorem eval_hasLoop {pos : Nat} (hseg : SegAt db.file pos (encRecs B rs))
    (hfits : ∀ r ∈ rs, r.1.length < 2 ^ 32 ∧ r.2.length < 2 ^ 32) :
    eval (hasLoop B k rs.length pos) db = .ok ((rs.lookup k).isSome, db) := by
  rw [hasLoop_eq, map_eq_pure_bind, eval, run_bind_ok (eval_getLoop hseg hfits)]
  rfl

/-- `aodbm_get` looks the key up in the records of the version. -/
theorem eval_get {ver : Nat} (hver : ver ≠ 0) (ht : TreeAt B db.file (ver + 8) rs)
    (hf : db.file.length < 2 ^ 63) : eval (aodbmGet B ver k) db = .ok (rs.lookup k, db) := by
  obtain ⟨leaf, ls, hsearch, hleaf, hlook⟩ := eval_search (k := k) hver ht hf
  rw [aodbmGet, if_neg hver, eval, run_bind_ok hsearch, run_bind_ok (eval_leafCount hleaf), hlook]
  exact eval_getLoop hleaf.leafRecs hleaf.fits.2

/-- `aodbm_has` tells whether the version has a record of the key. -/
theorem eval_has {ver : Nat} (hver : ver ≠ 0) (ht : TreeAt B db.file (ver + 8) rs)
    (hf : db.file.length < 2 ^ 63) :
    eval (aodbmHas B ver k) db = .ok ((rs.lookup k).isSome, db) := by
  obtain ⟨leaf, ls, hsearch, hleaf, hlook⟩ := eval_search (k := k) hver ht hf
  rw [aodbmHas, if_neg hver, eval, run_bind_ok hsearch, run_bind_ok (eval_leafCount hleaf), hlook]
  exact eval_hasLoop hleaf.leafRecs hleaf.fits.2

end Aodbm
