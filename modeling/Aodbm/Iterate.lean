import Aodbm.Search

/-!
# Iterators (`aodbm.c`)

An iterator is a stack of positions, one for each level of the tree, with the
leaf on top. Every function returns the iterator it leaves behind.
-/

namespace Aodbm

open Effects

variable (B : Build)

/-- `it_node_info`. -/
structure ItNodeInfo where
  pos : Nat
  n : Nat
  sz : Nat
deriving DecidableEq, Repr

/-- `aodbm_iterator`, the stack with its top first. -/
structure Iterator where
  path : List ItNodeInfo
  ver : Nat
deriving DecidableEq, Repr

/-- `construct_iterator` on the stack of the iterator. -/
def constructIterator : Nat → List ItNodeInfo → Nat → Op (List ItNodeInfo)
  | 0, _, _ => .fail .diverges
  | depth + 1, path, node => do
    let type ← readType node
    let size ← aodbmRead32 B (node + 1)
    if type = leafType then pure (⟨node + 5, 0, size⟩ :: path)
    else if type = branchType then do
      let n ← aodbmRead64 B (node + 5)
      constructIterator depth (⟨node + 13, 0, size⟩ :: path) n
    else .fail .unknownNodeType

def aodbmNewIterator (ver : Nat) : Op Iterator :=
  if ver ≠ 0 then do
    let path ← constructIterator B maxDepth [] (ver + 8)
    pure ⟨path, ver⟩
  else pure ⟨[], ver⟩

/-- The scan of a leaf in `aodbm_iterator_goto_recursive`: `left` records are left,
the next has index `n`. -/
def gotoLeafLoop (key : Data) : Nat → Nat → Nat → Op (Nat × Nat)
  | 0, n, pos => pure (n, pos)
  | left + 1, n, pos => do
    let sKey ← aodbmReadData B pos
    if aodbmDataLe B key sKey then pure (n, pos)
    else do
      let sVal ← aodbmReadData B (pos + 4 + sKey.length)
      gotoLeafLoop key left (n + 1) (pos + 4 + sKey.length + 4 + sVal.length)

/-- The scan of a branch in `aodbm_iterator_goto_recursive`. -/
def gotoBranchLoop (key : Data) : Nat → Nat → Nat → Nat → Op (Nat × Nat × Nat)
  | 0, n, pos, off => pure (n, pos, off)
  | left + 1, n, pos, off => do
    let sKey ← aodbmReadData B pos
    if aodbmDataLt B key sKey then pure (n, pos, off)
    else do
      let off ← aodbmRead64 B (pos + 4 + sKey.length)
      gotoBranchLoop key left (n + 1) (pos + 4 + sKey.length + 8) off

def iteratorGotoRecursive (key : Data) : Nat → List ItNodeInfo → Nat → Op (List ItNodeInfo)
  | 0, _, _ => .fail .diverges
  | depth + 1, path, node => do
    let type ← readType node
    let size ← aodbmRead32 B (node + 1)
    if type = leafType then do
      let (n, pos) ← gotoLeafLoop B key size 0 (node + 5)
      pure (⟨pos, n, size⟩ :: path)
    else if type = branchType then do
      let off ← aodbmRead64 B (node + 5)
      let (n, pos, off) ← gotoBranchLoop B key size 0 (node + 5 + 8) off
      iteratorGotoRecursive key depth (⟨pos, n, size⟩ :: path) off
    else .fail .unknownNodeType

/-- There is no test for version 0 here: the node at `0 + 8` is read. -/
def aodbmIteratorGoto (it : Iterator) (key : Data) : Op Iterator := do
  let path ← iteratorGotoRecursive B key maxDepth [] (it.ver + 8)
  pure ⟨path, it.ver⟩

def aodbmIterateFrom (ver : Nat) (key : Data) : Op Iterator := aodbmIteratorGoto B ⟨[], ver⟩ key

/-- The loop that advances to the next leaf: exhausted branches are dropped, the
first other one is advanced and the stack below it is built again. The result is
the new stack, leaf on top, or `none` when no branch is left. -/
def nextLeafLoop : List ItNodeInfo → Op (Option (List ItNodeInfo))
  | [] => pure none
  | branch :: path =>
    if branch.n < branch.sz then do
      let key ← aodbmReadData B branch.pos
      let node ← aodbmRead64 B (branch.pos + 4 + key.length)
      let path ← constructIterator B maxDepth
        (⟨branch.pos + 4 + key.length + 8, branch.n + 1, branch.sz⟩ :: path) node
      pure (some path)
    else nextLeafLoop path

/-- The end of `aodbm_iterator_next`: the next record of the leaf. -/
def nextRecord (leaf : ItNodeInfo) (path : List ItNodeInfo) (ver : Nat) :
    Op (Option (Data × Data) × Iterator) := do
  let key ← aodbmReadData B leaf.pos
  let val ← aodbmReadData B (leaf.pos + 4 + key.length)
  pure (some (key, val),
    ⟨⟨leaf.pos + 4 + key.length + 4 + val.length, leaf.n + 1, leaf.sz⟩ :: path, ver⟩)

/-- The record is `none` for the one with `NULL` key and value. The source pops
the new leaf off the stack and tests whether the rest is empty, so both are here. -/
def aodbmIteratorNext (it : Iterator) : Op (Option (Data × Data) × Iterator) :=
  match it.path with
  | [] => pure (none, it)
  | leaf :: path =>
    if leaf.n = leaf.sz then do
      let next ← nextLeafLoop B path
      match next with
      | none => pure (none, ⟨[], it.ver⟩)
      | some [] => pure (none, ⟨[], it.ver⟩)
      | some [_] => pure (none, ⟨[], it.ver⟩)
      | some (leaf :: branch :: path) => nextRecord B leaf (branch :: path) it.ver
    else nextRecord B leaf path it.ver

end Aodbm
