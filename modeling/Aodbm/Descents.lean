import Mathlib.Data.List.Perm.Subperm
import Mathlib.Logic.Relation
import Aodbm.Run

/-!
# The three descents

`aodbm_search`, `aodbm_search_path` and `aodbm_iterator_goto_recursive` each scan a branch by
themselves. `Way` says where a key leads to, in any tree of encoded nodes: the keys need not
be sorted, and the nodes may have any number of entries.

Results:
1. `search_eq_searchPath`: the first two take the same steps, on every file.
2. `Way.eval_searchPath`, `Way.eval_goto`: these descents follow the way, so all three do.
3. `Way.length_le`: in a tree without cycles, no way has more nodes than there are offsets.
4. `descents_agree`: for every tree, the three descents visit the same nodes.
-/

namespace Aodbm

open Effects Records Bytes Relation

section Definitions
variable (B : Build) (file : Data)

/-- A finite tree of encoded nodes. -/
inductive EncodedTree : Nat → Prop where
  | leaf {off : Nat} {rs : List Rec} (node : NodeAt B file off (.leaf rs)) : EncodedTree off
  | branch {off first : Nat} {es : List (Data × Nat)}
      (node : NodeAt B file off (.branch first es)) (left : EncodedTree first)
      (rest : ∀ e ∈ es, EncodedTree e.2) : EncodedTree off

/-- The branch at `off` has a child at `c`. -/
def ChildAt (off c : Nat) : Prop :=
  ∃ first es, NodeAt B file off (.branch first es) ∧ (c = first ∨ ∃ e ∈ es, c = e.2)

/-- The way of the key `k` from the node at `off` down to a leaf, when `lo` is the last
separator that was passed above. Each step has the node with its key, as it is on the stack
of `aodbm_search_path`, and the position in the node at which an iterator is left there.

* `leaf`: the scan for an iterator goes past the records `rs`, whose keys are below `k`.
* `branch`: every scan goes past the separators `es`, which are not above `k`, and takes the
  child before the first one that is. -/
inductive Way (k : Data) : Nat → Data → List (PathNode × ItNodeInfo) → Prop where
  | leaf {off : Nat} {lo : Data} {rs ss : List Rec}
      (node : NodeAt B file off (.leaf (rs ++ ss)))
      (passed : ∀ r ∈ rs, aodbmDataLe B k r.1 = false)
      (stop : ∀ s ∈ ss.head?, aodbmDataLe B k s.1 = true) :
      Way k off lo
        [(⟨lo, off⟩, ⟨off + 5 + (encRecs B rs).length, rs.length, (rs ++ ss).length⟩)]
  | branch {off first : Nat} {lo : Data} {es fs : List (Data × Nat)} {c : Data × Nat}
      {way : List (PathNode × ItNodeInfo)}
      (node : NodeAt B file off (.branch first (es ++ fs)))
      (passed : ∀ e ∈ es, aodbmDataLt B k e.1 = false)
      (stop : ∀ f ∈ fs.head?, aodbmDataLt B k f.1 = true)
      (child : ((lo, first) :: es).getLast? = some c) (rest : Way k c.2 c.1 way) :
      Way k off lo
        ((⟨lo, off⟩, ⟨off + 13 + (encKids B es).length, es.length, (es ++ fs).length⟩) :: way)

end Definitions

variable {B : Build} {db : Db} {file : Data} {k lo : Data} {off : Nat}
  {way : List (PathNode × ItNodeInfo)}

/-! ## The same steps on every file -/

theorem aodbmDataLe_of_not_lt {a b : Data} (h : ¬ aodbmDataLt B b a = true) :
    aodbmDataLe B a b = true := by
  rw [aodbmDataLe, aodbmDataGt, Bool.eq_false_iff.mpr h]
  rfl

/-- What follows the scan of a branch is only ever given keys that are not above `k`. -/
theorem searchPathLoop_congr {α : Type} (n pos off : Nat) {prevKey : Data}
    (h : aodbmDataLe B prevKey k = true) {f g : Nat → Data → Op α}
    (hfg : ∀ off key, aodbmDataLe B key k = true → f off key = g off key) :
    (searchPathLoop B k n pos off prevKey >>= fun c => f c.1 c.2) =
      searchPathLoop B k n pos off prevKey >>= fun c => g c.1 c.2 := by
  induction n generalizing pos off prevKey with
  | zero => exact hfg off prevKey h
  | succ n ih =>
    unfold searchPathLoop
    rw [bind_assoc, bind_assoc]
    congr 1
    funext dat
    split
    · exact hfg off prevKey h
    · next hlt =>
      rw [bind_assoc, bind_assoc]
      congr 1
      funext off
      exact ih _ _ (aodbmDataLe_of_not_lt hlt)

/-- `aodbm_search` takes the steps of `aodbm_search_path` and keeps the top of the stack.
The assertion of the second never fails. -/
theorem searchRecursive_eq {nodeKey : Data} (depth node : Nat) (path : List PathNode)
    (h : aodbmDataLe B nodeKey k = true) :
    some <$> aodbmSearchRecursive B k depth node =
      (fun stack => stack.head?.map PathNode.node) <$>
        aodbmSearchPathRecursive B k depth node nodeKey path := by
  induction depth generalizing node nodeKey path with
  | zero => rfl
  | succ depth ih =>
    rw [aodbmSearchRecursive, aodbmSearchPathRecursive, if_pos h, map_bind, map_bind]
    congr 1
    funext type
    split
    · rfl
    · split
      · rw [map_bind, map_bind]
        congr 1
        funext sz
        rw [map_bind, map_bind]
        congr 1
        funext off
        rw [map_bind, map_bind, searchLoop_eq k sz _ off nodeKey, bind_map_left]
        exact searchPathLoop_congr sz _ off h fun child key hkey =>
          ih child (⟨nodeKey, node⟩ :: path) hkey
      · rfl

/-- The empty key is not above any key. -/
theorem aodbmDataLe_nil (k : Data) : aodbmDataLe B [] k = true := by
  rw [aodbmDataLe_eq]
  exact decide_eq_true (rank_nil_le B k)

theorem search_eq_searchPath (ver : Nat) (k : Data) :
    some <$> aodbmSearch B ver k =
      (fun stack => stack.head?.map PathNode.node) <$> aodbmSearchPath B ver k := by
  unfold aodbmSearch aodbmSearchPath
  split
  · rfl
  · exact searchRecursive_eq maxDepth (ver + 8) [] (aodbmDataLe_nil k)

/-! ## The descents along the way -/

/-- The key of the child that is taken is not above `k`. -/
theorem child_le {first : Nat} {es : List (Data × Nat)} {c : Data × Nat}
    (hlo : aodbmDataLe B lo k = true) (hpassed : ∀ e ∈ es, aodbmDataLt B k e.1 = false)
    (hchild : ((lo, first) :: es).getLast? = some c) : aodbmDataLe B c.1 k = true := by
  rcases List.mem_cons.mp (List.mem_of_getLast? hchild) with rfl | hmem
  · exact hlo
  · exact aodbmDataLe_of_not_lt (Bool.eq_false_iff.mp (hpassed c hmem))

/-- No key on the way is above `k`. -/
theorem Way.le (hw : Way B file k off lo way) (hlo : aodbmDataLe B lo k = true) :
    ∀ step ∈ way, aodbmDataLe B step.1.key k = true := by
  induction hw with
  | leaf => simpa using hlo
  | branch node passed stop child rest ih =>
    exact List.forall_mem_cons.mpr ⟨hlo, ih (child_le hlo passed child)⟩

/-- The stack of `aodbm_search_path` holds the nodes of the way, the leaf on top. -/
theorem Way.eval_searchPath (hw : Way B db.file k off lo way) {depth : Nat}
    (hdepth : way.length ≤ depth) (hlo : aodbmDataLe B lo k = true) (path : List PathNode) :
    eval (aodbmSearchPathRecursive B k depth off lo path) db =
      .ok ((way.map Prod.fst).reverse ++ path, db) := by
  induction hw generalizing depth path with
  | leaf node passed stop =>
    cases depth with
    | zero => simp at hdepth
    | succ depth =>
      rw [aodbmSearchPathRecursive, if_pos hlo, eval, run_bind_ok (eval_leafType node), if_pos rfl]
      rfl
  | @branch off first lo es fs c way node passed stop child rest ih =>
    cases depth with
    | zero => simp at hdepth
    | succ depth =>
      have hscan := eval_searchPathLoop_split node.branchKids node.fits.2.2 passed stop child
      have hrest := ih (Nat.le_of_succ_le_succ hdepth) (child_le hlo passed child)
        (⟨lo, off⟩ :: path)
      rw [aodbmSearchPathRecursive, if_pos hlo, eval, run_bind_ok (eval_branchType node),
        if_neg (by decide), if_pos rfl, run_bind_ok (eval_branchCount node),
        run_bind_ok (eval_branchFirst node), run_bind_ok hscan, List.map_cons, List.reverse_cons,
        List.append_assoc]
      exact hrest

/-- The stack of the iterator holds the positions on the way, the one in the leaf on top. -/
theorem Way.eval_goto (hw : Way B db.file k off lo way) {depth : Nat}
    (hdepth : way.length ≤ depth) (path : List ItNodeInfo) :
    eval (iteratorGotoRecursive B k depth path off) db =
      .ok ((way.map Prod.snd).reverse ++ path, db) := by
  induction hw generalizing depth path with
  | leaf node passed stop =>
    cases depth with
    | zero => simp at hdepth
    | succ depth =>
      have hscan := eval_gotoLeafLoop_split (n := 0) node.leafRecs node.fits.2 passed stop
      rw [Nat.zero_add] at hscan
      rw [iteratorGotoRecursive, eval, run_bind_ok (eval_leafType node),
        run_bind_ok (eval_leafCount node), if_pos rfl, run_bind_ok hscan]
      rfl
  | @branch off first lo es fs c way node passed stop child rest ih =>
    cases depth with
    | zero => simp at hdepth
    | succ depth =>
      have hscan := eval_gotoBranchLoop_split (n := 0) node.branchKids node.fits.2.2 passed stop
        child
      have hrest := ih (Nat.le_of_succ_le_succ hdepth)
        (⟨off + 13 + (encKids B es).length, es.length, (es ++ fs).length⟩ :: path)
      rw [Nat.zero_add] at hscan
      rw [iteratorGotoRecursive, eval, run_bind_ok (eval_branchType node),
        run_bind_ok (eval_branchCount node), if_neg (by decide), if_pos rfl,
        run_bind_ok (eval_branchFirst node), run_bind_ok hscan, List.map_cons, List.reverse_cons,
        List.append_assoc]
      exact hrest

/-! ## Ways in a tree -/

theorem ChildAt.of_branch {first c : Nat} {es : List (Data × Nat)}
    (hc : ChildAt B file off c) (node : NodeAt B file off (.branch first es)) :
    c = first ∨ ∃ e ∈ es, c = e.2 := by
  obtain ⟨first', es', node', hchild⟩ := hc
  obtain ⟨rfl, rfl⟩ := Node.branch.inj (node.unique node')
  exact hchild

/-- A finite tree has no cycle. -/
theorem EncodedTree.acyclic (ht : EncodedTree B file off) :
    ¬ TransGen (ChildAt B file) off off := by
  -- a cycle through a node is a cycle through one of its children
  have hturn : ∀ {off c : Nat}, ChildAt B file off c → ReflTransGen (ChildAt B file) c off →
      TransGen (ChildAt B file) c c := fun hc hback => TransGen.tail' hback hc
  induction ht with
  | leaf node =>
    intro hcycle
    obtain ⟨c, ⟨first, es, node', -⟩, -⟩ := TransGen.head'_iff.mp hcycle
    exact Node.noConfusion (node.unique node')
  | branch node left rest ihleft ihrest =>
    intro hcycle
    obtain ⟨c, hc, hback⟩ := TransGen.head'_iff.mp hcycle
    rcases hc.of_branch node with rfl | ⟨e, he, rfl⟩
    · exact ihleft (hturn hc hback)
    · exact ihrest e he (hturn hc hback)

/-- In a tree every key has a way. -/
theorem EncodedTree.exists_way (ht : EncodedTree B file off) (k lo : Data) :
    ∃ way, Way B file k off lo way := by
  induction ht generalizing lo with
  | @leaf off rs node =>
    obtain ⟨ys, zs, rfl, hpassed, hstop⟩ := exists_split (fun r : Rec => aodbmDataLe B k r.1) rs
    exact ⟨_, .leaf node hpassed hstop⟩
  | @branch off first es node left rest ihleft ihrest =>
    obtain ⟨ys, zs, rfl, hpassed, hstop⟩ :=
      exists_split (fun e : Data × Nat => aodbmDataLt B k e.1) es
    obtain ⟨c, hc⟩ : ∃ c, ((lo, first) :: ys).getLast? = some c :=
      ⟨_, List.getLast?_eq_some_getLast (List.cons_ne_nil _ _)⟩
    have hchild : ∃ way, Way B file k c.2 c.1 way := by
      rcases List.mem_cons.mp (List.mem_of_getLast? hc) with rfl | hmem
      · exact ihleft lo
      · exact ihrest c (List.mem_append_left _ hmem) c.1
    obtain ⟨way, hway⟩ := hchild
    exact ⟨_, .branch node hpassed hstop hc hway⟩

/-- The nodes of a way in a tree are different, and each one stands below the first. -/
theorem Way.nodup (hw : Way B file k off lo way) (ht : EncodedTree B file off) :
    (way.map fun step => step.1.node).Nodup ∧
      ∀ step ∈ way, ReflTransGen (ChildAt B file) off step.1.node := by
  induction hw with
  | leaf => exact ⟨by simp, List.forall_mem_singleton.mpr .refl⟩
  | @branch off first lo es fs c way node passed stop child rest ih =>
    have hc : ChildAt B file off c.2 := by
      refine ⟨first, es ++ fs, node, ?_⟩
      rcases List.mem_cons.mp (List.mem_of_getLast? child) with rfl | hmem
      · exact Or.inl rfl
      · exact Or.inr ⟨c, List.mem_append_left _ hmem, rfl⟩
    have hbelow : EncodedTree B file c.2 := by
      cases ht with
      | leaf node' => exact Node.noConfusion (node.unique node')
      | branch node' left rest' =>
        rcases hc.of_branch node' with heq | ⟨e, he, heq⟩
        · exact heq ▸ left
        · exact heq ▸ rest' e he
    obtain ⟨hnodup, hreach⟩ := ih hbelow
    refine ⟨?_, List.forall_mem_cons.mpr ⟨.refl, fun step hstep => .head hc (hreach step hstep)⟩⟩
    rw [List.map_cons, List.nodup_cons]
    refine ⟨fun hmem => ?_, hnodup⟩
    obtain ⟨step, hstep, heq⟩ := List.mem_map.mp hmem
    have hback : ReflTransGen (ChildAt B file) c.2 off := by
      have := hreach step hstep
      rwa [heq] at this
    exact ht.acyclic (TransGen.head' hc hback)

/-- Offsets are numbers of 64 bits, so a way has at most `2 ^ 64` nodes. -/
theorem Way.length_le (hw : Way B file k off lo way) (ht : EncodedTree B file off)
    (hoff : off < 2 ^ 64) : way.length ≤ maxDepth := by
  have hlt : ∀ step ∈ way, step.1.node < 2 ^ 64 := by
    clear ht
    induction hw with
    | leaf => simpa using hoff
    | branch node passed stop child rest ih =>
      refine List.forall_mem_cons.mpr ⟨hoff, ih ?_⟩
      rcases List.mem_cons.mp (List.mem_of_getLast? child) with rfl | hmem
      · exact node.fits.1
      · exact (node.fits.2.2 _ (List.mem_append_left _ hmem)).2
  have hsub : (way.map fun step => step.1.node) ⊆ List.range (2 ^ 64) := by
    intro off hmem
    obtain ⟨step, hstep, rfl⟩ := List.mem_map.mp hmem
    exact List.mem_range.mpr (hlt step hstep)
  have hcount := ((hw.nodup ht).1.subperm hsub).length_le
  rwa [List.length_map, List.length_range] at hcount

/-- In a tree of encoded nodes, sorted or not, there is one way for each key, and the three
descents follow it from the root to the same leaf. `aodbm_search_path` returns its nodes, the
leaf on top, none with a key above the one that is searched; `aodbm_search` takes the same
steps and returns the leaf; an iterator is left in each of its nodes. -/
theorem descents_agree {ver : Nat} (hver : ver ≠ 0) (hoff : ver + 8 < 2 ^ 64)
    (ht : EncodedTree B db.file (ver + 8)) (k : Data) :
    ∃ way leaf, Way B db.file k (ver + 8) [] way ∧ way.getLast? = some leaf ∧
      eval (aodbmSearchPath B ver k) db = .ok ((way.map Prod.fst).reverse, db) ∧
      eval (aodbmSearch B ver k) db = .ok (leaf.1.node, db) ∧
      some <$> aodbmSearch B ver k =
        (fun stack => stack.head?.map PathNode.node) <$> aodbmSearchPath B ver k ∧
      eval (iteratorGotoRecursive B k maxDepth [] (ver + 8)) db =
        .ok ((way.map Prod.snd).reverse, db) ∧
      ∀ step ∈ way, aodbmDataLe B step.1.key k = true := by
  obtain ⟨way, hw⟩ := ht.exists_way k []
  have hdepth := hw.length_le ht hoff
  have hnil := aodbmDataLe_nil (B := B) k
  have hne : way ≠ [] := by cases hw <;> exact List.cons_ne_nil _ _
  have hpath : eval (aodbmSearchPath B ver k) db = .ok ((way.map Prod.fst).reverse, db) := by
    have hrec := hw.eval_searchPath hdepth hnil []
    rw [List.append_nil] at hrec
    rw [aodbmSearchPath, if_neg hver]
    exact hrec
  have hgoto := hw.eval_goto hdepth []
  rw [List.append_nil] at hgoto
  have hsteps := search_eq_searchPath (B := B) ver k
  have hlast := List.getLast?_eq_some_getLast hne
  have htop : ((way.map Prod.fst).reverse.head?.map PathNode.node) =
      some (way.getLast hne).1.node := by
    rw [List.head?_reverse, List.getLast?_map, hlast]
    rfl
  have hsearch : eval (aodbmSearch B ver k) db = .ok ((way.getLast hne).1.node, db) := by
    have hmap := congrArg (fun p => eval p db) hsteps
    simp only [eval] at hmap hpath
    rw [run_map, run_map, hpath] at hmap
    simp only [htop] at hmap
    cases hs : run Db.handle (aodbmSearch B ver k) db with
    | error e =>
      rw [hs] at hmap
      cases hmap
    | ok r =>
      rw [hs] at hmap
      have hr : r.1 = (way.getLast hne).1.node ∧ r.2 = db := by simpa [Prod.ext_iff] using hmap
      rw [eval, hs, ← hr.1, ← hr.2]
  exact ⟨way, way.getLast hne, hw, hlast, hpath, hsearch, hsteps, hgoto, hw.le hnil⟩

/-- A file with an empty leaf and a version whose root has separators out of order. -/
def unsortedDb : Db :=
  ⟨Node.enc smallBuild (.leaf []) ++ (List.replicate 8 0 ++
    Node.enc smallBuild (.branch 0 [([2], 0), ([1], 0)])), 52, 0⟩

theorem unsorted_tree : EncodedTree smallBuild unsortedDb.file (5 + 8) := by
  have hleaf : NodeAt smallBuild unsortedDb.file 0 (.leaf []) :=
    ⟨⟨[], _, rfl, rfl⟩, by simp [Node.Fits]⟩
  have hroot : NodeAt smallBuild unsortedDb.file (5 + 8) (.branch 0 [([2], 0), ([1], 0)]) := by
    refine ⟨⟨Node.enc smallBuild (.leaf []) ++ List.replicate 8 0, [], ?_, rfl⟩,
      by simp [Node.Fits]⟩
    simp [unsortedDb]
  exact .branch hroot (.leaf hleaf) (by simpa using EncodedTree.leaf hleaf)

/-- The descents agree on a key that the separators out of order send to the first child. -/
theorem descents_agree_unsorted : ∃ way leaf, Way smallBuild unsortedDb.file [1] (5 + 8) [] way ∧
    way.getLast? = some leaf ∧
    eval (aodbmSearchPath smallBuild 5 [1]) unsortedDb =
      .ok ((way.map Prod.fst).reverse, unsortedDb) ∧
    eval (aodbmSearch smallBuild 5 [1]) unsortedDb = .ok (leaf.1.node, unsortedDb) :=
  let ⟨way, leaf, hw, hlast, hpath, hsearch, _⟩ :=
    descents_agree (by decide) (by decide) unsorted_tree [1]
  ⟨way, leaf, hw, hlast, hpath, hsearch⟩

end Aodbm
