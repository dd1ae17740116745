import Aodbm.Iterate
import Aodbm.TreeUpdate

/-!
# Iteration

`IterAt` ties the stack of an iterator to the records it has still to return: what is left
of its leaf, and below each branch of the stack the children that are left.

Results:
1. `ContentsAt.newIterator`, `eval_iteratorGoto`: the records of a new iterator, and
   of one that was moved to a key.
2. `IterAt.next`: a call returns the first record that is left, or the `NULL` record.
3. `IterAt.drain`: any number of calls.
-/

namespace Aodbm

open Effects Records Bytes

variable (B : Build)

/-- A leaf of the stack with the records that are left. -/
structure LeafPos (file : Data) (it : ItNodeInfo) (rs : List Rec) : Prop where
  seg : SegAt file it.pos (encRecs B rs)
  fits : ∀ r ∈ rs, r.1.length < 2 ^ 32 ∧ r.2.length < 2 ^ 32
  count : it.n + rs.length = it.sz

/-- A branch of the stack with the children that are left, which have height `h`. -/
structure BranchPos (file : Data) (h : Nat) (it : ItNodeInfo) (cs : List Kid) : Prop where
  seg : SegAt file it.pos (encKids B (kidPairs cs))
  fits : ∀ kc ∈ kidPairs cs, kc.1.length < 2 ^ 32 ∧ kc.2 < 2 ^ 64
  count : it.n + cs.length = it.sz
  kids : ∀ c ∈ cs, SubtreeAt B file h c.ref c.recs

/-- The branches of the stack above level `h`, and the records below what is left of them. -/
def StackAt (file : Data) : Nat → List ItNodeInfo → List Rec → Prop
  | _, [], rem => rem = []
  | h, branch :: path, rem => ∃ cs rem', BranchPos B file h branch cs ∧
    StackAt file (h + 1) path rem' ∧ rem = below cs ++ rem'

/-- The stack with its leaf. -/
def TopAt (file : Data) (path : List ItNodeInfo) (rem : List Rec) : Prop :=
  ∃ leaf path' rs rem', path = leaf :: path' ∧ LeafPos B file leaf rs ∧
    StackAt B file 0 path' rem' ∧ rem = rs ++ rem'

/-- The iterator has the records `rem` left. -/
def IterAt (file : Data) (it : Iterator) (rem : List Rec) : Prop :=
  (it.path = [] ∧ rem = []) ∨ TopAt B file it.path rem

/-- The results of `n` calls of `aodbm_iterator_next`. -/
def drain : Nat → Iterator → Op (List (Option Rec))
  | 0, _ => pure []
  | n + 1, it => do
    let (r, it) ← aodbmIteratorNext B it
    let rs ← drain n it
    pure (r :: rs)

variable {B}
variable {db : Db} {file file' : Data} {h off : Nat} {k : Data} {rs rem : List Rec}
  {path : List ItNodeInfo} {it : Iterator}

theorem stackAt_nil (file : Data) (h : Nat) : StackAt B file h [] [] := rfl

/-! ## Appends -/

theorem StackAt.mono (hs : StackAt B file h path rem) (hf : file <+: file') :
    StackAt B file' h path rem := by
  induction path generalizing h rem with
  | nil => exact hs
  | cons b path ih =>
    obtain ⟨cs, rem', hb, hrest, hrem⟩ := hs
    exact ⟨cs, rem', ⟨hb.seg.mono hf, hb.fits, hb.count, fun c hc => (hb.kids c hc).mono hf⟩,
      ih hrest, hrem⟩

theorem IterAt.mono (hi : IterAt B file it rem) (hf : file <+: file') :
    IterAt B file' it rem := by
  rcases hi with hi | ⟨leaf, path', rs, rem', hpath, hleaf, hstack, hrem⟩
  · exact Or.inl hi
  · exact Or.inr ⟨leaf, path', rs, rem', hpath,
      ⟨hleaf.seg.mono hf, hleaf.fits, hleaf.count⟩, hstack.mono hf, hrem⟩

/-! ## Descents that build the stack -/

/-- `construct_iterator` goes to the first leaf below a node. -/
theorem eval_constructIterator {depth : Nat} (hdepth : h < depth)
    (hs : SubtreeAt B db.file h off rs) (hst : StackAt B db.file h path rem) :
    ∃ leaf path' ls rem', eval (constructIterator B depth path off) db =
        .ok (leaf :: path', db) ∧ LeafPos B db.file leaf ls ∧ ls ≠ [] ∧
      StackAt B db.file 0 path' rem' ∧ rs ++ rem = ls ++ rem' ∧ path.length ≤ path'.length := by
  induction h generalizing depth off rs path rem with
  | zero =>
    obtain ⟨depth, rfl⟩ : ∃ d, depth = d + 1 := ⟨depth - 1, by omega⟩
    have hleaf := hs.leafAt
    refine ⟨⟨off + 5, 0, rs.length⟩, path, rs, rem, ?_,
      ⟨hleaf.leafRecs, hleaf.fits.2, Nat.zero_add _⟩, hs.ne_nil, hst, rfl, le_refl _⟩
    rw [constructIterator, eval, run_bind_ok (eval_leafType hleaf),
      run_bind_ok (eval_leafCount hleaf), if_pos rfl]
    rfl
  | succ h ih =>
    obtain ⟨depth, rfl⟩ : ∃ d, depth = d + 1 := ⟨depth - 1, by omega⟩
    obtain ⟨cs, hb, rfl⟩ := hs.rootAt
    obtain ⟨c, cs, rfl⟩ := List.exists_cons_of_ne_nil hb.ne
    have hnode : NodeAt B db.file off (.branch c.ref (kidPairs cs)) := hb.node
    have hstack : StackAt B db.file h (⟨off + 13, 0, (kidPairs cs).length⟩ :: path)
        (below cs ++ rem) :=
      ⟨cs, rem, ⟨hnode.branchKids, hnode.fits.2.2, by simp [kidPairs],
        fun d hd => (hb.kids d (List.mem_cons_of_mem _ hd)).2.2⟩, hst, rfl⟩
    have hd : h < depth := by omega
    obtain ⟨leaf, path', ls, rem', heval, hleaf, hne, hst', hrem, hlen⟩ :=
      ih hd (hb.kids c List.mem_cons_self).2.2 hstack
    refine ⟨leaf, path', ls, rem', ?_, hleaf, hne, hst', ?_, by simp at hlen; omega⟩
    · rw [constructIterator, eval, run_bind_ok (eval_branchType hnode),
        run_bind_ok (eval_branchCount hnode), if_neg (by decide), if_pos rfl,
        run_bind_ok (eval_branchFirst hnode)]
      exact heval
    · rw [below_cons, List.append_assoc]
      exact hrem

/-- The scan of a leaf passes the records `rs`, whose keys are below `k`, and stops at the
first one that is not. -/
theorem eval_gotoLeafLoop_split {rs ss : List Rec} {n pos : Nat}
    (hseg : SegAt db.file pos (encRecs B (rs ++ ss)))
    (hfits : ∀ r ∈ rs ++ ss, r.1.length < 2 ^ 32 ∧ r.2.length < 2 ^ 32)
    (hpassed : ∀ r ∈ rs, aodbmDataLe B k r.1 = false)
    (hstop : ∀ s ∈ ss.head?, aodbmDataLe B k s.1 = true) :
    eval (gotoLeafLoop B k (rs ++ ss).length n pos) db =
      .ok ((n + rs.length, pos + (encRecs B rs).length), db) := by
  induction rs generalizing n pos with
  | nil =>
    cases ss with
    | nil => rfl
    | cons s ss =>
      obtain ⟨hkey, -, -⟩ := eval_readRec hseg (hfits s (by simp))
      rw [List.nil_append, List.length_cons, gotoLeafLoop, eval, run_bind_ok hkey,
        if_pos (hstop s rfl)]
      rfl
  | cons r rs ih =>
    obtain ⟨hkey, hval, hrest⟩ := eval_readRec hseg (hfits r (by simp))
    have hnext := ih (n := n + 1) hrest (fun s hs => hfits s (List.mem_cons_of_mem _ hs))
      fun s hs => hpassed s (List.mem_cons_of_mem _ hs)
    have hpos : pos + (encRecs B (r :: rs)).length =
        pos + r.1.length + 4 + r.2.length + 4 + (encRecs B rs).length :=
      (encRecs_succ_pos r rs).symm
    rw [Nat.add_right_comm] at hval
    rw [Nat.add_right_comm _ r.1.length 4, Nat.add_right_comm _ r.2.length 4] at hnext hpos
    rw [List.cons_append, List.length_cons, gotoLeafLoop, eval, run_bind_ok hkey,
      if_neg (Bool.not_eq_true _ ▸ hpassed r List.mem_cons_self), run_bind_ok hval, hpos,
      List.length_cons, Nat.add_comm rs.length, ← Nat.add_assoc]
    exact hnext

/-- The scan of a branch passes the separators `es`, which are not above `k`, and stops at the
first one that is. -/
theorem eval_gotoBranchLoop_split {es fs : List (Data × Nat)} {n pos off : Nat} {lo : Data}
    {c : Data × Nat} (hseg : SegAt db.file pos (encKids B (es ++ fs)))
    (hfits : ∀ kc ∈ es ++ fs, kc.1.length < 2 ^ 32 ∧ kc.2 < 2 ^ 64)
    (hpassed : ∀ e ∈ es, aodbmDataLt B k e.1 = false)
    (hstop : ∀ f ∈ fs.head?, aodbmDataLt B k f.1 = true)
    (hchild : ((lo, off) :: es).getLast? = some c) :
    eval (gotoBranchLoop B k (es ++ fs).length n pos off) db =
      .ok ((n + es.length, pos + (encKids B es).length, c.2), db) := by
  induction es generalizing n pos off lo with
  | nil =>
    have hc : (lo, off) = c := Option.some.inj hchild
    subst hc
    cases fs with
    | nil => rfl
    | cons f fs =>
      obtain ⟨hkey, -, -⟩ := eval_readKid hseg (hfits f (by simp))
      rw [List.nil_append, List.length_cons, gotoBranchLoop, eval, run_bind_ok hkey,
        if_pos (hstop f rfl)]
      rfl
  | cons e es ih =>
    obtain ⟨hkey, hoff, hrest⟩ := eval_readKid hseg (hfits e (by simp))
    rw [List.getLast?_cons_cons] at hchild
    have hnext := ih (n := n + 1) hrest (fun kc hkc => hfits kc (List.mem_cons_of_mem _ hkc))
      (fun d hd => hpassed d (List.mem_cons_of_mem _ hd)) hchild
    have hpos : pos + (encKids B (e :: es)).length =
        pos + e.1.length + 4 + 8 + (encKids B es).length := by
      rw [encKids_cons, List.length_append, encKid_length]
      omega
    rw [Nat.add_right_comm pos e.1.length 4] at hoff hnext hpos
    rw [List.cons_append, List.length_cons, gotoBranchLoop, eval, run_bind_ok hkey,
      if_neg (Bool.not_eq_true _ ▸ hpassed e List.mem_cons_self), run_bind_ok hoff, hpos,
      List.length_cons, Nat.add_comm es.length, ← Nat.add_assoc]
    exact hnext

/-- In a leaf the records behind the scan are those that are not below `k`. -/
theorem eval_gotoLeafLoop {n pos : Nat} (hseg : SegAt db.file pos (encRecs B rs))
    (hfits : ∀ r ∈ rs, r.1.length < 2 ^ 32 ∧ r.2.length < 2 ^ 32) (hs : Sorted (rank B) rs) :
    ∃ l r pos', rs = l ++ r ∧ eval (gotoLeafLoop B k rs.length n pos) db =
        .ok ((n + l.length, pos'), db) ∧ SegAt db.file pos' (encRecs B r) ∧
      rs.filter (fun s => rank B k ≤ rank B s.1) = r := by
  obtain ⟨l, r, rfl, hpassed, hstop⟩ := exists_split (fun s : Rec => aodbmDataLe B k s.1) rs
  have heval := eval_gotoLeafLoop_split (n := n) hseg hfits hpassed hstop
  rw [encRecs_append] at hseg
  refine ⟨l, r, _, rfl, heval, hseg.right, ?_⟩
  simp only [aodbmDataLe_eq, decide_eq_false_iff_not, decide_eq_true_eq] at hpassed hstop
  have hl : l.filter (fun s => rank B k ≤ rank B s.1) = [] :=
    List.filter_eq_nil_iff.mpr fun s hs => by simpa using hpassed s hs
  have hr : r.filter (fun s => rank B k ≤ rank B s.1) = r := by
    refine List.filter_eq_self.mpr fun s hs' => decide_eq_true ?_
    -- the records are sorted, and the first one is not below `k`
    obtain ⟨t, r, rfl⟩ := List.exists_cons_of_ne_nil (List.ne_nil_of_mem hs')
    have hsorted := (List.pairwise_append.mp hs).2.1
    rcases List.mem_cons.mp hs' with rfl | hmem
    · exact hstop s rfl
    · exact (hstop t rfl).trans ((List.pairwise_cons.mp hsorted).1 s hmem).le
  rw [List.filter_append, hl, hr, List.nil_append]

/-- The scan of a branch stops at the child the key belongs below. -/
theorem eval_gotoBranchLoop {n pos : Nat} (cur : Kid) (cs : List Kid)
    (hseg : SegAt db.file pos (encKids B (kidPairs cs)))
    (hfits : ∀ kc ∈ kidPairs cs, kc.1.length < 2 ^ 32 ∧ kc.2 < 2 ^ 64)
    (hcur : rank B cur.key ≤ rank B k)
    (hsep : (cur :: cs).Pairwise fun c d => rank B c.key < rank B d.key) :
    ∃ l c r pos', cur :: cs = l ++ c :: r ∧ Routes (rank B) k c r ∧
      eval (gotoBranchLoop B k cs.length n pos cur.ref) db =
        .ok ((n + l.length, pos', c.ref), db) ∧ SegAt db.file pos' (encKids B (kidPairs r)) := by
  obtain ⟨es, l, c, r, hpairs, hcs, hn, hroute, hpassed, hstop, hchild⟩ :=
    exists_passed cur cs hcur hsep
  have hlen : (kidPairs cs).length = cs.length := List.length_map ..
  rw [hpairs] at hseg hfits hlen
  have heval := eval_gotoBranchLoop_split (n := n) hseg hfits hpassed hstop hchild
  rw [encKids_append] at hseg
  rw [hlen, hn] at heval
  exact ⟨l, c, r, _, hcs, hroute, heval, hseg.right⟩

/-- A key that is routed to a child: the records not below it are those below the child
and all those behind the child. -/
theorem filter_routed {c : Kid} {l r : List Kid} (hroute : Routes (rank B) k c r)
    (hord : Ordered (rank B) (l ++ c :: r)) :
    (below (l ++ c :: r)).filter (fun s => rank B k ≤ rank B s.1) =
      c.recs.filter (fun s => rank B k ≤ rank B s.1) ++ below r := by
  have hl : (below l).filter (fun s => rank B k ≤ rank B s.1) = [] :=
    List.filter_eq_nil_iff.mpr fun s hs => by simpa using hroute.left hord s hs
  have hr : (below r).filter (fun s => rank B k ≤ rank B s.1) = below r :=
    List.filter_eq_self.mpr fun s hs => by simpa using (hroute.right hord s hs).le
  rw [below_append, below_cons, List.filter_append, List.filter_append, hl, hr, List.nil_append]

/-- `aodbm_iterator_goto` goes to the first record that is not below the key. -/
theorem eval_iteratorGotoRecursive {depth : Nat} {lo : Data} (hdepth : h < depth)
    (hs : SubtreeAt B db.file h off rs) (hlo : ∀ r ∈ rs, rank B lo ≤ rank B r.1)
    (hk : rank B lo ≤ rank B k) (hst : StackAt B db.file h path rem) :
    ∃ path', eval (iteratorGotoRecursive B k depth path off) db = .ok (path', db) ∧
      TopAt B db.file path' (rs.filter (fun s => rank B k ≤ rank B s.1) ++ rem) := by
  induction h generalizing depth off rs lo path rem with
  | zero =>
    obtain ⟨depth, rfl⟩ : ∃ d, depth = d + 1 := ⟨depth - 1, by omega⟩
    have hleaf := hs.leafAt
    obtain ⟨l, r, pos, hsplit, heval, hseg, hfilter⟩ :=
      eval_gotoLeafLoop (k := k) (n := 0) hleaf.leafRecs hleaf.fits.2 hs.sorted
    refine ⟨⟨pos, 0 + l.length, rs.length⟩ :: path, ?_, ⟨_, path, r, rem, rfl,
      ⟨hseg, fun s hs => hleaf.fits.2 s (by rw [hsplit]; exact List.mem_append_right _ hs),
        by rw [hsplit, List.length_append, Nat.zero_add]⟩, hst, by rw [hfilter]⟩⟩
    rw [iteratorGotoRecursive, eval, run_bind_ok (eval_leafType hleaf),
      run_bind_ok (eval_leafCount hleaf), if_pos rfl, run_bind_ok heval]
    rfl
  | succ h ih =>
    obtain ⟨depth, rfl⟩ : ∃ d, depth = d + 1 := ⟨depth - 1, by omega⟩
    obtain ⟨cs, hb, rfl⟩ := hs.branchAt hlo
    obtain ⟨d, ds, rfl⟩ := List.exists_cons_of_ne_nil hb.ne
    have hhead : d.key = lo := hb.head d rfl
    subst hhead
    have hnode : NodeAt B db.file off (.branch d.ref (kidPairs ds)) := hb.node
    obtain ⟨l, c, r, pos, hcs, hroute, heval, hseg⟩ := eval_gotoBranchLoop (n := 0) d ds
      hnode.branchKids hnode.fits.2.2 hk (hb.ordered.seps.imp And.left)
    have hord := hb.ordered
    have hkids := hb.kids
    rw [hcs] at hord hkids ⊢
    have hlen : l.length + r.length = ds.length := by
      have := congrArg List.length hcs
      simp only [List.length_cons, List.length_append] at this
      omega
    have hfits : ∀ kc ∈ kidPairs r, kc.1.length < 2 ^ 32 ∧ kc.2 < 2 ^ 64 := by
      intro kc hkc
      refine hnode.fits.2.2 kc ?_
      have hsub : r.Sublist ds := by
        cases l with
        | nil =>
          obtain ⟨rfl, rfl⟩ := List.cons.inj hcs
          exact List.Sublist.refl _
        | cons e l =>
          obtain ⟨rfl, rfl⟩ := List.cons.inj hcs
          exact (List.sublist_cons_self c r).trans (List.sublist_append_right l _)
      exact (hsub.map _).subset hkc
    have hstack : StackAt B db.file h (⟨pos, 0 + l.length, (kidPairs ds).length⟩ :: path)
        (below r ++ rem) :=
      ⟨r, rem, ⟨hseg, hfits, by simp [kidPairs, hlen],
        fun e he => (hkids e (by simp [he])).2.2⟩, hst, rfl⟩
    have hd : h < depth := by omega
    obtain ⟨path', hgoto, htop⟩ := ih hd (hkids c (by simp)).2.2 (hord.lower c (by simp))
      hroute.1 hstack
    refine ⟨path', ?_, ?_⟩
    · have hlen' : (kidPairs ds).length = ds.length := List.length_map ..
      rw [iteratorGotoRecursive, eval, run_bind_ok (eval_branchType hnode),
        run_bind_ok (eval_branchCount hnode), if_neg (by decide), if_pos rfl,
        run_bind_ok (eval_branchFirst hnode), hlen', run_bind_ok heval]
      rw [hlen'] at hgoto
      exact hgoto
    · rw [filter_routed hroute hord, List.append_assoc]
      exact htop

/-! ## New iterators -/

/-- An empty root leaf gives a stack without records. -/
theorem topAt_empty (hleaf : NodeAt B file off (.leaf [])) :
    TopAt B file [⟨off + 5, 0, 0⟩] [] :=
  ⟨⟨off + 5, 0, 0⟩, [], [], [], rfl,
    ⟨hleaf.leafRecs, fun _ hr => absurd hr List.not_mem_nil, rfl⟩, rfl, rfl⟩

/-- `aodbm_new_iterator` has all records of the version to return. -/
theorem ContentsAt.newIterator {ver : Nat} (hc : ContentsAt B db.file ver rs)
    (hf : db.file.length < 2 ^ 63) :
    ∃ it, eval (aodbmNewIterator B ver) db = .ok (it, db) ∧ IterAt B db.file it rs ∧
      it.ver = ver := by
  rcases hc with ⟨rfl, rfl⟩ | ⟨hver, ht⟩
  · exact ⟨⟨[], 0⟩, rfl, Or.inl ⟨rfl, rfl⟩, rfl⟩
  rw [aodbmNewIterator, if_pos hver, eval]
  rcases ht with ⟨hleaf, rfl⟩ | ⟨h, hs⟩
  · have heval : eval (constructIterator B maxDepth [] (ver + 8)) db =
        .ok ([⟨ver + 8 + 5, 0, 0⟩], db) := by
      rw [maxDepth_eq, constructIterator, eval, run_bind_ok (eval_leafType hleaf),
        run_bind_ok (eval_leafCount hleaf), if_pos rfl]
      rfl
    rw [run_bind_ok heval]
    exact ⟨_, rfl, Or.inr (topAt_empty hleaf), rfl⟩
  · obtain ⟨leaf, path, ls, rem, heval, hleaf, _, hst, hrem, _⟩ :=
      eval_constructIterator (hs.lt_maxDepth hf) hs (stackAt_nil db.file h)
    rw [List.append_nil] at hrem
    rw [run_bind_ok heval]
    exact ⟨_, rfl, Or.inr ⟨leaf, path, ls, rem, rfl, hleaf, hst, hrem⟩, rfl⟩

/-- On a version other than 0, `aodbm_iterator_goto` leaves the records not below the key. -/
theorem eval_iteratorGoto {ver : Nat} (ht : TreeAt B db.file (ver + 8) rs)
    (hf : db.file.length < 2 ^ 63) (hit : it.ver = ver) (k : Data) :
    ∃ it', eval (aodbmIteratorGoto B it k) db = .ok (it', db) ∧
      IterAt B db.file it' (rs.filter fun s => rank B k ≤ rank B s.1) ∧ it'.ver = ver := by
  rw [aodbmIteratorGoto, hit, eval]
  rcases ht with ⟨hleaf, rfl⟩ | ⟨h, hs⟩
  · have heval : eval (iteratorGotoRecursive B k maxDepth [] (ver + 8)) db =
        .ok ([⟨ver + 8 + 5, 0, 0⟩], db) := by
      rw [maxDepth_eq, iteratorGotoRecursive, eval, run_bind_ok (eval_leafType hleaf),
        run_bind_ok (eval_leafCount hleaf), if_pos rfl]
      rfl
    rw [run_bind_ok heval]
    exact ⟨_, rfl, Or.inr (topAt_empty hleaf), rfl⟩
  · obtain ⟨path', heval, htop⟩ := eval_iteratorGotoRecursive (hs.lt_maxDepth hf) hs
      (fun r _ => rank_nil_le B r.1) (rank_nil_le B k) (stackAt_nil db.file h)
    rw [List.append_nil] at htop
    rw [run_bind_ok heval]
    exact ⟨_, rfl, Or.inr htop, rfl⟩

/-! ## The next record -/

/-- The loop that drops exhausted branches: it ends at the next leaf, or at the end. -/
theorem eval_nextLeafLoop (hf : db.file.length < 2 ^ 63) (hst : StackAt B db.file h path rem) :
    (rem = [] ∧ eval (nextLeafLoop B path) db = .ok (none, db)) ∨
      ∃ leaf branch path' ls rem',
        eval (nextLeafLoop B path) db = .ok (some (leaf :: branch :: path'), db) ∧
        LeafPos B db.file leaf ls ∧ ls ≠ [] ∧ StackAt B db.file 0 (branch :: path') rem' ∧
        rem = ls ++ rem' := by
  induction path generalizing h rem with
  | nil => exact Or.inl ⟨hst, rfl⟩
  | cons branch path ih =>
    obtain ⟨cs, rem', hb, hrest, rfl⟩ := hst
    have hcount := hb.count
    unfold nextLeafLoop
    cases cs with
    | nil =>
      rw [if_neg (by simp only [List.length_nil] at hcount; omega)]
      exact ih hrest
    | cons c cs =>
      obtain ⟨hkey, hoff, hseg⟩ := eval_readKid hb.seg (hb.fits _ List.mem_cons_self)
      simp only at hkey hoff hseg
      rw [Nat.add_right_comm] at hoff
      rw [Nat.add_right_comm _ c.key.length 4] at hseg
      have hc := hb.kids c List.mem_cons_self
      have hstack : StackAt B db.file h
          (⟨branch.pos + 4 + c.key.length + 8, branch.n + 1, branch.sz⟩ :: path)
          (below cs ++ rem') :=
        ⟨cs, rem', ⟨hseg, fun kc hkc => hb.fits kc (List.mem_cons_of_mem _ hkc),
          by simp only [List.length_cons] at hcount ⊢; omega,
          fun d hd => hb.kids d (List.mem_cons_of_mem _ hd)⟩, hrest, rfl⟩
      obtain ⟨leaf, path', ls, rem'', heval, hleaf, hne, hst', hrem, hlen⟩ :=
        eval_constructIterator (hc.lt_maxDepth hf) hc hstack
      cases path' with
      | nil => simp at hlen
      | cons branch' path' =>
        refine Or.inr ⟨leaf, branch', path', ls, rem'', ?_, hleaf, hne, hst', ?_⟩
        · rw [if_pos (by simp only [List.length_cons] at hcount; omega), eval, run_bind_ok hkey,
            run_bind_ok hoff, run_bind_ok heval]
          rfl
        · rw [below_cons, List.append_assoc]
          exact hrem

theorem eval_nextRecord {leaf : ItNodeInfo} {r : Rec} (ver : Nat)
    (hleaf : LeafPos B db.file leaf (r :: rs)) (hst : StackAt B db.file 0 path rem) :
    ∃ it', eval (nextRecord B leaf path ver) db = .ok ((some r, it'), db) ∧
      IterAt B db.file it' (rs ++ rem) ∧ it'.ver = ver := by
  obtain ⟨hkey, hval, hrest⟩ := eval_readRec hleaf.seg (hleaf.fits r List.mem_cons_self)
  rw [Nat.add_right_comm] at hval
  rw [Nat.add_right_comm _ r.1.length 4, Nat.add_right_comm _ r.2.length 4] at hrest
  have hcount := hleaf.count
  refine ⟨⟨⟨leaf.pos + 4 + r.1.length + 4 + r.2.length, leaf.n + 1, leaf.sz⟩ :: path, ver⟩, ?_,
    Or.inr ⟨_, path, rs, rem, rfl, ⟨hrest, fun s hs =>
      hleaf.fits s (List.mem_cons_of_mem _ hs), ?_⟩, hst, rfl⟩, rfl⟩
  · rw [nextRecord, eval, run_bind_ok hkey, run_bind_ok hval]
    rfl
  · simp only [List.length_cons] at hcount ⊢
    omega

/-- A call returns the first record that is left, and the `NULL` record at the end. -/
theorem IterAt.next (hi : IterAt B db.file it rem) (hf : db.file.length < 2 ^ 63) :
    ∃ it', eval (aodbmIteratorNext B it) db = .ok ((rem.head?, it'), db) ∧
      IterAt B db.file it' rem.tail ∧ it'.ver = it.ver := by
  obtain ⟨path, ver⟩ := it
  rcases hi with ⟨hpath, rfl⟩ | ⟨leaf, path', rs, rem', hpath, hleaf, hst, rfl⟩
  · simp only at hpath
    subst hpath
    exact ⟨_, rfl, Or.inl ⟨rfl, rfl⟩, rfl⟩
  simp only at hpath
  subst hpath
  have hcount := hleaf.count
  simp only [aodbmIteratorNext]
  cases rs with
  | cons r rs =>
    rw [if_neg (by simp only [List.length_cons] at hcount; omega)]
    exact eval_nextRecord ver hleaf hst
  | nil =>
    rw [if_pos (by simpa using hcount), List.nil_append]
    rcases eval_nextLeafLoop hf hst with ⟨rfl, heval⟩ |
      ⟨leaf', branch, path'', ls, rem'', heval, hleaf', hne, hst', rfl⟩
    · rw [eval, run_bind_ok heval]
      exact ⟨_, rfl, Or.inl ⟨rfl, rfl⟩, rfl⟩
    · obtain ⟨r, ls, rfl⟩ := List.exists_cons_of_ne_nil hne
      rw [eval, run_bind_ok heval]
      exact eval_nextRecord ver hleaf' hst'

/-- `n` calls return the first `n` records that are left, and `NULL` records behind them. -/
theorem IterAt.drain (hi : IterAt B db.file it rem) (hf : db.file.length < 2 ^ 63) (n : Nat) :
    eval (drain B n it) db =
      .ok ((rem.map some ++ List.replicate n none).take n, db) := by
  induction n generalizing it rem with
  | zero => rfl
  | succ n ih =>
    obtain ⟨it', heval, hi', _⟩ := hi.next hf
    rw [Aodbm.drain, eval, run_bind_ok heval]
    simp only
    rw [run_bind_ok (ih hi'), run_pure]
    cases rem with
    | nil => simp [List.replicate_succ]
    | cons r rem =>
      simp only [List.head?_cons, List.tail_cons, List.map_cons, List.cons_append,
        List.take_succ_cons, Except.ok.injEq, Prod.mk.injEq, List.cons.injEq, true_and, and_true]
      rw [List.replicate_succ', ← List.append_assoc]
      exact (List.take_append_of_le_length (by simp)).symm

end Aodbm
