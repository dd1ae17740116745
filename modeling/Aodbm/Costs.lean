import Mathlib.Data.Nat.Log
import Aodbm.Heights

/-!
# How often the file is read

The reads of the operations are bounded by the levels of the tree, and so by the logarithm of the
insertions that the version comes from.

Results:
1. `readCount_get`, `readCount_has`, `readCount_set`, `readCount_del`: the reads of the operations
   on a tree.
2. `operation_cost`: the reads in runs of any calls with short blocks.
-/

namespace Aodbm

open Effects Records Bytes

def Eff.reads : Eff → Nat
  | .readAt .. => 1
  | _ => 0

/-- How often the function reads from the file. -/
def readCount {α : Type} (p : Op α) (db : Db) : Nat := cost Eff.reads Db.handle p db

variable (B : Build)

/-- The tree of the version has at most `n` levels of branches. Version 0 has no tree. -/
def LevelsLe (file : Data) (ver n : Nat) : Prop :=
  ver ≠ 0 → ∀ h rs, SubtreeAt B file h (ver + 8) rs → h ≤ n

variable {B}
variable {α β : Type} {db : Db} {h m n off pos : Nat} {k lo : Data} {rs top : List Rec}

/-! ## Rules -/

theorem readCount_pure (a : α) : readCount (pure a) db = 0 := rfl

/-- What is read does not change the handle. -/
theorem readCount_seq {Q : α → Prop} {p : Op α} {f : α → Op β} (hp : Reads Q p)
    (hm : readCount p db ≤ m)
    (hf : ∀ a, eval p db = .ok (a, db) → readCount (f a) db ≤ n) :
    readCount (p >>= f) db ≤ m + n := by
  refine cost_seq_le hm fun a db' hrun => ?_
  obtain ⟨rfl, -⟩ := hp.eval hrun
  exact hf a hrun

theorem readCount_ok {p : Op α} {f : α → Op β} {a : α} (hp : eval p db = .ok (a, db)) :
    readCount (p >>= f) db = readCount p db + readCount (f a) db :=
  cost_bind_ok hp

theorem readCount_read (off sz : Nat) : readCount (aodbmRead off sz) db = 1 := by
  unfold aodbmRead
  rw [readCount_ok eval_lockRw, readCount_ok (eval_seekAndRead off sz), readCount_ok eval_unlockRw]
  cases readFile db.file off sz <;> rfl

theorem readCount_readType (off : Nat) : readCount (readType off) db ≤ 1 :=
  readCount_seq (n := 0) (reads_read _ _) (readCount_read off 1).le fun _ _ => Nat.le_refl 0

theorem readCount_read32 (off : Nat) : readCount (aodbmRead32 B off) db ≤ 1 :=
  readCount_seq (n := 0) (reads_read _ _) (readCount_read off 4).le fun _ _ => Nat.le_refl 0

theorem readCount_read64 (off : Nat) : readCount (aodbmRead64 B off) db ≤ 1 :=
  readCount_seq (n := 0) (reads_read _ _) (readCount_read off 8).le fun _ _ => Nat.le_refl 0

theorem readCount_readData (off : Nat) : readCount (aodbmReadData B off) db ≤ 2 :=
  readCount_seq (n := 1) (reads_read32 B _) (readCount_read32 _) fun sz _ =>
    (readCount_read _ sz).le

/-- A loop body that reads a key and a value. -/
theorem readCount_record {off : Nat} {next : Data → Nat} {f : Data → Data → Op α}
    (hf : ∀ key val, readCount (f key val) db ≤ n) :
    readCount (aodbmReadData B off >>= fun key => aodbmReadData B (next key) >>= f key) db ≤
      n + 4 := by
  have hrest : ∀ key, readCount (aodbmReadData B (next key) >>= f key) db ≤ 2 + n := fun key =>
    readCount_seq (reads_readData B _) (readCount_readData _) fun val _ => hf key val
  refine (readCount_seq (reads_readData B off) (readCount_readData off) fun key _ =>
    hrest key).trans ?_
  omega

/-- A loop body that reads a key and an offset. -/
theorem readCount_kid {off : Nat} {f : Data → Op α} (hf : ∀ key, readCount (f key) db ≤ 1 + n) :
    readCount (aodbmReadData B off >>= f) db ≤ n + 3 := by
  refine (readCount_seq (reads_readData B off) (readCount_readData off) fun key _ =>
    hf key).trans ?_
  omega

/-! ## The loops -/

theorem readCount_searchPathLoop (n pos off : Nat) (prevKey : Data) :
    readCount (searchPathLoop B k n pos off prevKey) db ≤ 3 * n := by
  induction n generalizing pos off prevKey with
  | zero => exact Nat.le_refl 0
  | succ n ih =>
    rw [Nat.mul_succ]
    refine readCount_kid fun key => ?_
    split
    · exact Nat.zero_le _
    · exact readCount_seq (reads_read64 B _) (readCount_read64 _) fun off _ => ih _ _ _

theorem readCount_searchLoop (n pos off : Nat) :
    readCount (searchLoop B k n pos off) db ≤ 3 * n := by
  rw [searchLoop_eq k n pos off [], readCount, cost_map]
  exact readCount_searchPathLoop n pos off []

theorem readCount_getLoop (n pos : Nat) : readCount (getLoop B k n pos) db ≤ 4 * n := by
  induction n generalizing pos with
  | zero => exact Nat.le_refl 0
  | succ n ih =>
    rw [Nat.mul_succ]
    refine readCount_record fun key val => ?_
    split
    · exact Nat.zero_le _
    · exact ih _

theorem readCount_hasLoop (n pos : Nat) : readCount (hasLoop B k n pos) db ≤ 4 * n := by
  rw [hasLoop_eq, readCount, cost_map]
  exact readCount_getLoop n pos

theorem readCount_duplicateLoop (n i pos : Nat) (data : Rope) (key1 : Option Data) :
    readCount (duplicateLoop B n i pos data key1) db ≤ 4 * n := by
  induction n generalizing i pos data key1 with
  | zero => exact Nat.le_refl 0
  | succ n ih =>
    rw [Nat.mul_succ]
    exact readCount_record fun key val => ih _ _ _ _

theorem readCount_duplicateLeafRange (pos n : Nat) :
    readCount (duplicateLeafRange B pos n) db ≤ 4 * n :=
  readCount_seq (n := 0) (reads_duplicateLoop B _ _ _ _ _) (readCount_duplicateLoop _ _ _ _ _)
    fun _ _ => Nat.le_refl 0

theorem readCount_removeLoop (n pos : Nat) (removed : Bool) (aKey : Option Data) (data : Rope) :
    readCount (removeLoop B k n pos removed aKey data) db ≤ 4 * n := by
  induction n generalizing pos removed aKey data with
  | zero => exact Nat.le_refl 0
  | succ n ih =>
    rw [Nat.mul_succ]
    refine readCount_record fun key val => ?_
    split
    · exact ih _ _ _ _
    · exact ih _ _ _ _

theorem readCount_modifyLoop (rmA rmB n pos : Nat) (pa pb : Option (Data × Nat))
    (ab : Branch × Branch) : readCount (modifyLoop B rmA rmB n pos pa pb ab) db ≤ 3 * n := by
  induction n generalizing pos pa pb ab with
  | zero => exact Nat.le_refl 0
  | succ n ih =>
    rw [Nat.mul_succ]
    exact readCount_kid fun key =>
      readCount_seq (reads_read64 B _) (readCount_read64 _) fun off _ => ih _ _ _ _

/-- The scan of an insertion leaves the records behind the place of the new one to `f`. -/
theorem readCount_insertLoop {iRec : Rope} {n i pos : Nat} {data : Rope} {key1 : Option Data}
    {f : LeafScan → Op α} {c : Nat}
    (hf : ∀ scan, readCount (f scan) db ≤ 4 * (i + n - scan.i - 1) + c) :
    readCount (insertLoop B k iRec n i pos data key1 >>= f) db ≤ 4 * n + c := by
  induction n generalizing i pos data key1 with
  | zero =>
    have hscan := hf ⟨data, key1, pos, i, false⟩
    simp only [Nat.add_zero, Nat.sub_self, Nat.zero_sub] at hscan
    exact hscan
  | succ n ih =>
    unfold insertLoop
    simp only [bind_assoc]
    rw [Nat.mul_succ, Nat.add_right_comm]
    refine readCount_record fun dKey dVal => ?_
    by_cases hstop : aodbmDataCmp B k dKey ≠ 1
    · simp only [if_pos hstop, pure_bind]
      refine (hf _).trans ?_
      dsimp only
      omega
    · simp only [if_neg hstop]
      refine ih fun scan => (hf scan).trans ?_
      rw [Nat.add_right_comm i 1 n, Nat.add_assoc]

/-- The records behind it are copied. -/
theorem readCount_insertIntoLeafRange (x : Data) (pos num : Nat) (insertEnd : Bool) :
    readCount (insertIntoLeafRange B k x pos num insertEnd) db ≤ 4 * num := by
  refine readCount_insertLoop (c := 0) fun scan => ?_
  rw [Nat.zero_add, Nat.add_zero]
  split
  · split
    · exact readCount_seq (n := 0) (reads_duplicateLeafRange B _ _)
        (readCount_duplicateLeafRange _ _) fun _ _ => Nat.le_refl 0
    · exact Nat.zero_le _
  · split <;> exact Nat.zero_le _

theorem readCount_insertIntoLeaf (x : Data) (pos : Nat) :
    readCount (insertIntoLeaf B k x pos) db ≤ 4 * B.maxNodeSize + 1 := by
  have heven := B.even
  rw [Nat.add_comm]
  refine readCount_seq (reads_read32 B pos) (readCount_read32 pos) fun sz _ => ?_
  dsimp only
  split
  · have hhalf : 4 * B.maxNodeSize = 4 * (B.maxNodeSize / 2) + 4 * (B.maxNodeSize / 2) := by omega
    rw [hhalf]
    refine readCount_seq (reads_insertIntoLeafRange B _ _ _ _ _)
      (readCount_insertIntoLeafRange x _ _ _) fun aRange _ => ?_
    split
    · exact readCount_seq (n := 0) (reads_duplicateLeafRange B _ _)
        (readCount_duplicateLeafRange _ _) fun _ _ => Nat.le_refl 0
    · exact readCount_seq (n := 0) (reads_insertIntoLeafRange B _ _ _ _ _)
        (readCount_insertIntoLeafRange x _ _ _) fun _ _ => Nat.le_refl 0
  · split
    · exact Nat.zero_le _
    · split
      · next hlt =>
        refine (readCount_seq (n := 0) (reads_insertIntoLeafRange B _ _ _ _ _)
          (readCount_insertIntoLeafRange x _ _ _) fun _ _ => ?_).trans
            (Nat.mul_le_mul_left 4 hlt.le)
        exact Nat.le_refl 0
      · exact Nat.zero_le _

theorem readCount_removeFromLeaf {n : Nat} (hsz : eval (aodbmRead32 B pos) db = .ok (n, db)) :
    readCount (removeFromLeaf B k pos) db ≤ 4 * n + 1 := by
  unfold removeFromLeaf
  rw [readCount_ok hsz, Nat.add_comm (4 * n)]
  exact Nat.add_le_add (readCount_read32 pos) (readCount_seq (n := 0)
    (reads_removeLoop B _ _ _ _ _ _) (readCount_removeLoop _ _ _ _ _) fun _ _ => Nat.le_refl 0)

/-! ## The descents -/

/-- The number that a branch stores is one less than that of its children. -/
theorem BranchAt.count_lt {cs : List Kid} (hb : BranchAt B db.file h off lo cs) {sz : Nat}
    (hsz : eval (aodbmRead32 B (off + 1)) db = .ok (sz, db)) : sz + 1 < B.maxNodeSize := by
  have hcount := hb.count
  obtain ⟨c, cs, rfl⟩ := List.exists_cons_of_ne_nil hb.ne
  have hnode : NodeAt B db.file off (.branch c.ref (kidPairs cs)) := hb.node
  rw [eval_branchCount hnode] at hsz
  cases hsz
  rwa [kidPairs, List.length_map]

/-- A level of either descent, whose scan reads `m` times, costs at most `3 * M` reads. -/
theorem BranchAt.readCount_level {cs : List Kid} (hb : BranchAt B db.file h off lo cs) {sz : Nat}
    (hsz : eval (aodbmRead32 B (off + 1)) db = .ok (sz, db)) (hm : m ≤ 3 * sz) :
    readCount (readType off) db + (readCount (aodbmRead32 B (off + 1)) db +
      (readCount (aodbmRead64 B (off + 5)) db + (m + n))) ≤ n + 3 * B.maxNodeSize := by
  have hcount := hb.count_lt hsz
  have htype : readCount (readType off) db ≤ 1 := readCount_readType off
  have hsize : readCount (aodbmRead32 B (off + 1)) db ≤ 1 := readCount_read32 _
  have hfirst : readCount (aodbmRead64 B (off + 5)) db ≤ 1 := readCount_read64 _
  omega

theorem readCount_searchRecursive {depth : Nat} (hdepth : h < depth)
    (hs : SubtreeAt B db.file h off rs) (hlo : ∀ r ∈ rs, rank B lo ≤ rank B r.1)
    (hk : rank B lo ≤ rank B k) :
    ∃ leaf ls, eval (aodbmSearchRecursive B k depth off) db = .ok (leaf, db) ∧
      SubtreeAt B db.file 0 leaf ls ∧
      readCount (aodbmSearchRecursive B k depth off) db ≤ 3 * B.maxNodeSize * h + 1 := by
  induction h generalizing depth off rs lo with
  | zero =>
    obtain ⟨depth, rfl⟩ : ∃ d, depth = d + 1 := ⟨depth - 1, by omega⟩
    have htype := eval_leafType hs.leafAt
    refine ⟨off, rs, ?_, hs, ?_⟩
    · rw [aodbmSearchRecursive, eval, run_bind_ok htype, if_pos rfl]
      rfl
    · rw [aodbmSearchRecursive, readCount_ok htype, if_pos rfl, readCount_pure]
      exact readCount_readType off
  | succ h ih =>
    obtain ⟨depth, rfl⟩ : ∃ d, depth = d + 1 := ⟨depth - 1, by omega⟩
    obtain ⟨cs, hb, rfl⟩ := hs.branchAt hlo
    obtain ⟨first, sz, l, c, r, rfl, hroute, htype, hsz, hfirst, hscan⟩ := hb.eval_child hk
    have hd : h < depth := by omega
    obtain ⟨leaf, ls, heval, hleaf, hcost⟩ := ih hd (hb.kids c (by simp)).2.2
      (hb.ordered.lower c (by simp)) hroute.1
    have hscan' : eval (searchLoop B k sz (off + 5 + 8) first) db = .ok (c.ref, db) := by
      rw [searchLoop_eq k sz _ first lo, map_eq_pure_bind, eval, run_bind_ok hscan]
      rfl
    refine ⟨leaf, ls, ?_, hleaf, ?_⟩
    · rw [aodbmSearchRecursive, eval, run_bind_ok htype, if_neg (by decide), if_pos rfl,
        run_bind_ok hsz, run_bind_ok hfirst, run_bind_ok hscan']
      exact heval
    · rw [aodbmSearchRecursive, readCount_ok htype, if_neg (by decide), if_pos rfl,
        readCount_ok hsz, readCount_ok hfirst, readCount_ok hscan', Nat.mul_succ]
      refine (hb.readCount_level hsz (readCount_searchLoop sz _ first)).trans ?_
      rw [Nat.add_right_comm]
      exact Nat.add_le_add_right hcost _

theorem readCount_searchPathRecursive {depth : Nat} (hdepth : h < depth) (path : List PathNode)
    (hs : SubtreeAt B db.file h off rs) (hlo : ∀ r ∈ rs, rank B lo ≤ rank B r.1)
    (hk : rank B lo ≤ rank B k) :
    readCount (aodbmSearchPathRecursive B k depth off lo path) db ≤
      3 * B.maxNodeSize * h + 1 := by
  have hle : aodbmDataLe B lo k = true := by
    rw [aodbmDataLe_eq]
    exact decide_eq_true hk
  induction h generalizing depth off rs lo path with
  | zero =>
    obtain ⟨depth, rfl⟩ : ∃ d, depth = d + 1 := ⟨depth - 1, by omega⟩
    rw [aodbmSearchPathRecursive, if_pos hle, readCount_ok (eval_leafType hs.leafAt), if_pos rfl,
      readCount_pure]
    exact readCount_readType off
  | succ h ih =>
    obtain ⟨depth, rfl⟩ : ∃ d, depth = d + 1 := ⟨depth - 1, by omega⟩
    obtain ⟨cs, hb, rfl⟩ := hs.branchAt hlo
    obtain ⟨first, sz, l, c, r, rfl, hroute, htype, hsz, hfirst, hscan⟩ := hb.eval_child hk
    have hd : h < depth := by omega
    have hcost := ih hd (⟨lo, off⟩ :: path) (hb.kids c (by simp)).2.2
      (hb.ordered.lower c (by simp)) hroute.1 (by
        rw [aodbmDataLe_eq]
        exact decide_eq_true hroute.1)
    rw [aodbmSearchPathRecursive, if_pos hle, readCount_ok htype, if_neg (by decide), if_pos rfl,
      readCount_ok hsz, readCount_ok hfirst, readCount_ok hscan, Nat.mul_succ]
    refine (hb.readCount_level hsz (readCount_searchPathLoop sz _ first lo)).trans ?_
    rw [Nat.add_right_comm]
    exact Nat.add_le_add_right hcost _

/-! ## The operations -/

theorem BranchAt.subtreeAt {cs : List Kid} (hb : BranchAt B db.file h off lo cs) :
    SubtreeAt B db.file (h + 1) off (below cs) :=
  ⟨branchOf cs, hb.node, cs, rfl, hb.ne, hb.count, hb.ordered, rfl, hb.kids⟩

/-- The way up from a node passes all levels above it. -/
theorem Above.levels {path : List PathNode} (ha : Above B db.file k h off lo rs path top)
    (hs : SubtreeAt B db.file h off rs) :
    SubtreeAt B db.file (h + path.length) (rootOf off path) top := by
  induction ha with
  | root => exact hs
  | @child h off lo c l r path top hb hroute habove ih =>
    have hup := ih hb.subtreeAt
    rwa [Nat.add_right_comm] at hup

theorem readCount_modifyBranch {cs : List Kid} (hb : BranchAt B db.file h off lo cs)
    (key : Data) (a : Nat) (aKey : Option Data) (b : Nat) (bKey : Option Data) (rmA rmB : Nat) :
    readCount (modifyBranch B off key a aKey b bKey rmA rmB) db ≤ 3 * B.maxNodeSize := by
  obtain ⟨sz, hsz⟩ : ∃ sz, eval (aodbmRead32 B (off + 1)) db = .ok (sz, db) := by
    obtain ⟨c, cs, rfl⟩ := List.exists_cons_of_ne_nil hb.ne
    have hnode : NodeAt B db.file off (.branch c.ref (kidPairs cs)) := hb.node
    exact ⟨_, eval_branchCount hnode⟩
  have hcount := hb.count_lt hsz
  have hbound : readCount (modifyBranch B off key a aKey b bKey rmA rmB) db ≤
      1 + (1 + (3 * sz + 0)) := by
    unfold modifyBranch
    rw [readCount_ok hsz]
    exact Nat.add_le_add (readCount_read32 _) (readCount_seq (reads_read64 B _) (readCount_read64 _)
      fun _ _ => readCount_seq (reads_modifyLoop B _ _ _ _ _ _ _)
        (readCount_modifyLoop _ _ _ _ _ _ _) fun _ _ => Nat.le_refl 0)
  omega

theorem readCount_deref (node : Option Rope) : readCount (deref node) db = 0 := by
  cases node <;> rfl

theorem readCount_constructRoot (prev appendPos : Nat) (data : Rope) (dataSz : Nat)
    (nodes : ModifyResult) :
    readCount (constructRoot B prev appendPos data dataSz nodes) db = 0 := by
  rcases nodes with ⟨_ | a, _ | aKey, _ | b, _ | bKey⟩ <;> rfl

/-- The way up reads one branch a level. -/
theorem readCount_setLoop {path : List PathNode} (ha : Above B db.file k h off lo rs path top)
    (appendPos : Nat) (data : Rope) (dataSz : Nat) (nodes : ModifyResult) :
    readCount (setLoop B appendPos path data dataSz nodes off) db ≤
      3 * B.maxNodeSize * path.length := by
  induction ha generalizing data dataSz nodes with
  | root => exact Nat.zero_le _
  | @child h off lo c l r path top hb hroute habove ih =>
    rw [List.length_cons, Nat.mul_succ, Nat.add_comm, ← Nat.zero_add (_ + _)]
    unfold setLoop
    refine readCount_seq (reads_deref _) (readCount_deref _).le fun aNode _ => ?_
    exact readCount_seq (reads_modifyBranch B _ _ _ _ _ _ _ _)
      (readCount_modifyBranch hb _ _ _ _ _ _ _) fun nodes _ => ih _ _ _

theorem readCount_delLoop {path : List PathNode} (ha : Above B db.file k h off lo rs path top)
    (appendPos : Nat) (data : Rope) (dataSz : Nat) (nodes : ModifyResult) :
    readCount (delLoop B appendPos path data dataSz nodes off) db ≤
      3 * B.maxNodeSize * path.length := by
  induction ha generalizing data dataSz nodes with
  | root => exact Nat.zero_le _
  | @child h off lo c l r path top hb hroute habove ih =>
    rw [List.length_cons, Nat.mul_succ, Nat.add_comm]
    have hrest : ∀ (a b sz : Nat) (aKey bKey : Option Data) (data : Rope),
        readCount (modifyBranch B off lo a aKey b bKey c.ref 0 >>= fun nodes =>
          delLoop B appendPos path data sz nodes off) db ≤
          3 * B.maxNodeSize + 3 * B.maxNodeSize * path.length := fun _ _ _ _ _ _ =>
      readCount_seq (reads_modifyBranch B _ _ _ _ _ _ _ _)
        (readCount_modifyBranch hb _ _ _ _ _ _ _) fun nodes _ => ih _ _ _
    have hplaced : ∀ {aNode : Option Rope} {f : Rope → Op (Rope × Nat × ModifyResult)},
        (∀ a, readCount (f a) db ≤ 3 * B.maxNodeSize + 3 * B.maxNodeSize * path.length) →
        readCount (deref aNode >>= f) db ≤
          3 * B.maxNodeSize + 3 * B.maxNodeSize * path.length := fun hf =>
      (readCount_seq (reads_deref _) (readCount_deref _).le fun a _ => hf a).trans
        (Nat.zero_add _).le
    unfold delLoop
    rcases nodes with ⟨aNode, _ | aKey, _ | bNode, bKey⟩
    · exact hrest _ _ _ _ _ _
    · exact hrest _ _ _ _ _ _
    · exact hplaced fun _ => hrest _ _ _ _ _ _
    · exact hplaced fun _ => hrest _ _ _ _ _ _

section Operations
variable {ver leaf : Nat} {ls : List Rec} {path : List PathNode}

theorem LeafWay.length_le (hway : LeafWay B db k ver rs lo leaf ls path) (hver : ver ≠ 0)
    (hH : LevelsLe B db.file ver n) : path.length ≤ n := by
  obtain ⟨-, -, -, -, -, hroot, habove, -⟩ := hway
  cases habove with
  | root => exact Nat.zero_le n
  | @child _ off lo c l r path _ hb hroute hrest =>
    have hup := (Above.child hb hroute hrest).levels (hb.kids c (by simp)).2.2
    rw [hroot, Nat.zero_add] at hup
    exact hH hver _ _ hup

/-- The leaf of a search holds at most `M` records. -/
theorem readCount_search (hver : ver ≠ 0) (ht : TreeAt B db.file (ver + 8) rs)
    (hf : db.file.length < 2 ^ 63) (hH : LevelsLe B db.file ver n) :
    ∃ leaf ls, eval (aodbmSearch B ver k) db = .ok (leaf, db) ∧
      NodeAt B db.file leaf (.leaf ls) ∧ ls.length ≤ B.maxNodeSize ∧
      readCount (aodbmSearch B ver k) db ≤ 3 * B.maxNodeSize * n + 1 := by
  unfold aodbmSearch
  rw [if_neg hver]
  rcases ht with ⟨hleaf, -⟩ | ⟨h, hs⟩
  · have htype := eval_leafType hleaf
    rw [maxDepth_eq, aodbmSearchRecursive]
    refine ⟨ver + 8, [], ?_, hleaf, Nat.zero_le _, ?_⟩
    · rw [eval, run_bind_ok htype, if_pos rfl]
      rfl
    · rw [readCount_ok htype, if_pos rfl, readCount_pure]
      exact (readCount_readType _).trans (Nat.le_add_left 1 _)
  · obtain ⟨leaf, ls, heval, hleaf, hcost⟩ := readCount_searchRecursive (hs.lt_maxDepth hf) hs
      (fun r _ => rank_nil_le B r.1) (rank_nil_le B k)
    have hnode := hleaf.leafAt
    obtain ⟨_, _, hok⟩ := hleaf
    exact ⟨leaf, ls, heval, hnode, hok.2.2.1,
      hcost.trans (Nat.add_le_add_right (Nat.mul_le_mul_left _ (hH hver _ _ hs)) 1)⟩

theorem readCount_get (hc : ContentsAt B db.file ver rs) (hdb : db.Synced)
    (hH : LevelsLe B db.file ver n) :
    readCount (aodbmGet B ver k) db ≤ 3 * B.maxNodeSize * n + (4 * B.maxNodeSize + 2) := by
  rcases hc with ⟨rfl, -⟩ | ⟨hver, ht⟩
  · exact Nat.zero_le _
  obtain ⟨leaf, ls, hsearch, hleaf, hcount, hcost⟩ := readCount_search (k := k) hver ht hdb.bound hH
  rw [aodbmGet, if_neg hver, readCount_ok hsearch, readCount_ok (eval_leafCount hleaf)]
  have hsz : readCount (aodbmRead32 B (leaf + 1)) db ≤ 1 := readCount_read32 _
  have hloop : readCount (getLoop B k ls.length (leaf + 5)) db ≤ 4 * ls.length :=
    readCount_getLoop _ _
  omega

theorem readCount_has (hc : ContentsAt B db.file ver rs) (hdb : db.Synced)
    (hH : LevelsLe B db.file ver n) :
    readCount (aodbmHas B ver k) db ≤ 3 * B.maxNodeSize * n + (4 * B.maxNodeSize + 2) := by
  rcases hc with ⟨rfl, -⟩ | ⟨hver, ht⟩
  · exact Nat.zero_le _
  obtain ⟨leaf, ls, hsearch, hleaf, hcount, hcost⟩ := readCount_search (k := k) hver ht hdb.bound hH
  rw [aodbmHas, if_neg hver, readCount_ok hsearch, readCount_ok (eval_leafCount hleaf)]
  have hsz : readCount (aodbmRead32 B (leaf + 1)) db ≤ 1 := readCount_read32 _
  have hloop : readCount (hasLoop B k ls.length (leaf + 5)) db ≤ 4 * ls.length :=
    readCount_hasLoop _ _
  omega

theorem readCount_searchPath (hver : ver ≠ 0) (ht : TreeAt B db.file (ver + 8) rs)
    (hf : db.file.length < 2 ^ 63) (hH : LevelsLe B db.file ver n) :
    readCount (aodbmSearchPath B ver k) db ≤ 3 * B.maxNodeSize * n + 1 := by
  have hk := rank_nil_le B k
  have hle : aodbmDataLe B [] k = true := by
    rw [aodbmDataLe_eq]
    exact decide_eq_true hk
  unfold aodbmSearchPath
  rw [if_neg hver]
  rcases ht with ⟨hleaf, -⟩ | ⟨h, hs⟩
  · rw [maxDepth_eq, aodbmSearchPathRecursive, if_pos hle, readCount_ok (eval_leafType hleaf),
      if_pos rfl, readCount_pure]
    exact (readCount_readType _).trans (Nat.le_add_left 1 _)
  · exact (readCount_searchPathRecursive (hs.lt_maxDepth hf) [] hs (fun r _ => rank_nil_le B r.1)
      hk).trans (Nat.add_le_add_right (Nat.mul_le_mul_left _ (hH hver _ _ hs)) 1)

/-- What `aodbm_set` reads: the way down, the leaf, and the way up. -/
theorem readCount_setResult (hc : ContentsAt B db.file ver rs) (hdb : db.Synced)
    (hH : LevelsLe B db.file ver n) (x : Data) (appendPos : Nat) :
    readCount (setResult B ver k x appendPos) db ≤
      6 * B.maxNodeSize * n + (4 * B.maxNodeSize + 3) := by
  rcases hc with ⟨rfl, -⟩ | ⟨hver, ht⟩
  · exact Nat.zero_le _
  obtain ⟨lo, leaf, ls, path, hway⟩ := ht.leafWay hver hdb.bound k
  have hlen := hway.length_le hver hH
  have hdown := readCount_searchPath (k := k) hver ht hdb.bound hH
  have htype : readCount (readType (ver + 8)) db ≤ 1 := readCount_readType _
  have hsum : 6 * B.maxNodeSize * n = 3 * B.maxNodeSize * n + 3 * B.maxNodeSize * n := by
    rw [← Nat.add_mul, ← Nat.add_mul]
  -- from the leaf on, whatever is done with the leaves that were made
  have hleaf : ∀ {m : Nat} (pos : Nat) (f : ModifyResult → Op RootResult),
      (∀ nodes, readCount (f nodes) db ≤ m) →
      readCount (insertIntoLeaf B k x pos >>= f) db ≤ 4 * B.maxNodeSize + 1 + m := fun pos f hf =>
    readCount_seq (reads_insertIntoLeaf B _ _ _) (readCount_insertIntoLeaf x pos)
      fun nodes _ => hf nodes
  have hroot : ∀ data sz nodes, readCount (constructRoot B ver appendPos data sz nodes) db ≤ 0 :=
    fun _ _ _ => (readCount_constructRoot _ _ _ _ _).le
  have hup : ∀ nodes : ModifyResult, readCount (setLoop B appendPos path aodbmRopeEmpty 0 nodes leaf
      >>= fun r => constructRoot B ver appendPos r.1 r.2.1 r.2.2) db ≤ 3 * B.maxNodeSize * n :=
    fun nodes => (readCount_seq (reads_setLoop B _ _ _ _ _ _ rfl)
      (readCount_setLoop hway.above _ _ _ _) fun _ _ => hroot _ _ _).trans
        (Nat.mul_le_mul_left _ hlen)
  rw [setResult, if_neg hver]
  rcases hway.search with ⟨rfl, rfl⟩ | ⟨hread, hsearch⟩
  · rw [readCount_ok (eval_leafType hway.node), if_pos rfl]
    refine (Nat.add_le_add htype (hleaf _ _ (hroot _ _))).trans ?_
    omega
  · rw [readCount_ok hread, if_neg (by decide), readCount_ok hsearch]
    refine (Nat.add_le_add htype (Nat.add_le_add hdown (hleaf _ _ hup))).trans ?_
    omega

/-- What `aodbm_del` reads after it has found the key. -/
theorem readCount_delResult (hver : ver ≠ 0) (ht : TreeAt B db.file (ver + 8) rs)
    (hdb : db.Synced) (hH : LevelsLe B db.file ver n) (appendPos : Nat) :
    readCount (delResult B ver k appendPos) db ≤
      6 * B.maxNodeSize * n + (4 * B.maxNodeSize + 3) := by
  obtain ⟨lo, leaf, ls, path, hway⟩ := ht.leafWay hver hdb.bound k
  have hlen := hway.length_le hver hH
  have hdown := readCount_searchPath (k := k) hver ht hdb.bound hH
  have htype : readCount (readType (ver + 8)) db ≤ 1 := readCount_readType _
  have hsum : 6 * B.maxNodeSize * n = 3 * B.maxNodeSize * n + 3 * B.maxNodeSize * n := by
    rw [← Nat.add_mul, ← Nat.add_mul]
  have hcount := hway.count
  have hleaf : ∀ {m : Nat} (f : ModifyResult → Op RootResult),
      (∀ nodes, readCount (f nodes) db ≤ m) →
      readCount (removeFromLeaf B k (leaf + 1) >>= f) db ≤ 4 * ls.length + 1 + m := fun f hf =>
    readCount_seq (reads_removeFromLeaf B _ _) (readCount_removeFromLeaf (eval_leafCount hway.node))
      fun nodes _ => hf nodes
  have hroot : ∀ data sz nodes, readCount (constructRoot B ver appendPos data sz nodes) db ≤ 0 :=
    fun _ _ _ => (readCount_constructRoot _ _ _ _ _).le
  have hup : ∀ nodes : ModifyResult, readCount (delLoop B appendPos path aodbmRopeEmpty 0 nodes leaf
      >>= fun r => constructRoot B ver appendPos r.1 r.2.1 r.2.2) db ≤ 3 * B.maxNodeSize * n :=
    fun nodes => (readCount_seq (reads_delLoop B _ _ _ _ _ _ rfl)
      (readCount_delLoop hway.above _ _ _ _) fun _ _ => hroot _ _ _).trans
        (Nat.mul_le_mul_left _ hlen)
  rw [delResult]
  rcases hway.search with ⟨rfl, rfl⟩ | ⟨hread, hsearch⟩
  · rw [readCount_ok (eval_leafType hway.node), if_pos rfl]
    refine (Nat.add_le_add htype (hleaf _ (hroot _ _))).trans ?_
    omega
  · rw [readCount_ok hread, if_neg (by decide), if_pos rfl, readCount_ok hsearch]
    refine (Nat.add_le_add htype (Nat.add_le_add hdown (hleaf _ hup))).trans ?_
    omega

theorem unread_writeDataBlock (bs : Data) :
    Only (fun e => Eff.reads e = 0) (aodbmWriteDataBlock B bs) :=
  only_bind (only_perform rfl) fun _ => only_bind (only_perform rfl) fun _ =>
    only_bind (only_perform rfl) fun _ => only_bind (only_perform rfl) fun _ => only_perform rfl

/-- What is done under the lock: only the function that builds the data reads. -/
theorem readCount_update {Q : RootResult → Prop} {f : Nat → Op RootResult} {last : Op Unit}
    (hf : Reads Q (f db.fileSize)) (hn : readCount (f db.fileSize) db ≤ n)
    (hlast : Only (fun e => Eff.reads e = 0) last) :
    readCount (lockRw >>= fun _ => aodbmFileSize >>= fun fileSize => f fileSize >>= fun result =>
      aodbmWriteDataBlock B result.dat >>= fun _ => last >>= fun _ => pure result.root) db ≤ n := by
  have hlock : readCount lockRw db = 0 := rfl
  have hsize : readCount aodbmFileSize db = 0 := rfl
  rw [readCount_ok eval_lockRw, readCount_ok eval_fileSize, hlock, hsize, Nat.zero_add,
    Nat.zero_add]
  refine readCount_seq (n := 0) hf hn fun result _ => (cost_only ?_ db).le
  exact only_bind (unread_writeDataBlock _) fun _ => only_bind hlast fun _ => only_pure ..

theorem readCount_set (hc : ContentsAt B db.file ver rs) (hdb : db.Synced)
    (hH : LevelsLe B db.file ver n) (x : Data) :
    readCount (aodbmSet B ver k x) db ≤ 6 * B.maxNodeSize * n + (4 * B.maxNodeSize + 3) :=
  readCount_update (reads_setResult B _ _ _ _) (readCount_setResult hc hdb hH x _)
    (only_perform rfl)

theorem readCount_del (hc : ContentsAt B db.file ver rs) (hdb : db.Synced)
    (hH : LevelsLe B db.file ver n) :
    readCount (aodbmDel B ver k) db ≤ 9 * B.maxNodeSize * n + (8 * B.maxNodeSize + 5) := by
  have hhas := readCount_has (k := k) hc hdb hH
  rcases hc with ⟨rfl, -⟩ | ⟨hver, ht⟩
  · exact Nat.zero_le _
  have hsum : 9 * B.maxNodeSize * n = 3 * B.maxNodeSize * n + 6 * B.maxNodeSize * n := by
    rw [← Nat.add_mul, ← Nat.add_mul]
  rw [aodbmDel, if_neg hver]
  refine (readCount_seq (reads_has B _ _) hhas
    (n := 6 * B.maxNodeSize * n + (4 * B.maxNodeSize + 3)) fun has _ => ?_).trans (by omega)
  split
  · exact Nat.zero_le _
  · exact readCount_update (reads_delResult B _ _ _) (readCount_delResult hver ht hdb hH _)
      (only_perform rfl)

end Operations

/-! ## Runs -/

/-- In runs of any calls with short blocks, the reads of an operation on a version are bounded by
the logarithm of the insertions that the version comes from. Deletions do not make it worse,
although they merge nothing. -/
theorem operation_cost {w : World} {num : Nat → Nat} (hw : Insertions B w num) {s : Snapshot}
    (hs : s ∈ w.snaps) (k x : Data) :
    readCount (aodbmGet B s.ver k) w.db ≤
        3 * B.maxNodeSize * Nat.log (B.maxNodeSize / 2) (num s.ver) + (4 * B.maxNodeSize + 2) ∧
      readCount (aodbmHas B s.ver k) w.db ≤
        3 * B.maxNodeSize * Nat.log (B.maxNodeSize / 2) (num s.ver) + (4 * B.maxNodeSize + 2) ∧
      readCount (aodbmSet B s.ver k x) w.db ≤
        6 * B.maxNodeSize * Nat.log (B.maxNodeSize / 2) (num s.ver) + (4 * B.maxNodeSize + 3) ∧
      readCount (aodbmDel B s.ver k) w.db ≤
        9 * B.maxNodeSize * Nat.log (B.maxNodeSize / 2) (num s.ver) + (8 * B.maxNodeSize + 5) := by
  have hinv := inv_of_reachable hw.reachable
  have hdb := hinv.synced
  obtain ⟨rs, hc, -⟩ := hinv.contents hs
  have hH : LevelsLe B w.db.file s.ver (Nat.log (B.maxNodeSize / 2) (num s.ver)) := by
    intro hver h rs hsub
    have hsum := height_bound hw hs hver hsub
    cases h with
    | zero => exact Nat.zero_le _
    | succ h =>
      have hM := B.four_le
      rw [Finset.sum_range_succ] at hsum
      exact Nat.le_log_of_pow_le (by omega) ((Nat.le_add_left _ _).trans hsum)
  exact ⟨readCount_get hc hdb hH, readCount_has hc hdb hH, readCount_set hc hdb hH x,
    readCount_del hc hdb hH⟩

/-- On the version of the fifth key, whose tree has two levels. -/
theorem operation_cost_fiveSets : ∃ w num, Insertions smallBuild w num ∧ num 222 = 5 ∧
    ∃ s ∈ w.snaps, s.ver = 222 ∧ readCount (aodbmGet smallBuild 222 [3]) w.db ≤ 42 ∧
      readCount (aodbmHas smallBuild 222 [3]) w.db ≤ 42 ∧
      readCount (aodbmSet smallBuild 222 [3] []) w.db ≤ 67 ∧
      readCount (aodbmDel smallBuild 222 [3]) w.db ≤ 109 := by
  obtain ⟨w, num, hw, -, ⟨s, hs, hver⟩, hnum⟩ := five_times
  have hlog : Nat.log (smallBuild.maxNodeSize / 2) 5 = 2 :=
    Nat.log_eq_of_pow_le_of_lt_pow (by decide) (by decide)
  have hcost := operation_cost hw hs [3] []
  rw [hver, hnum, hlog] at hcost
  exact ⟨w, num, hw, hnum, s, hs, hver, hcost⟩

end Aodbm
