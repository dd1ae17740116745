import Aodbm.Search

/-!
# Updates (`aodbm.c`)

Leaves, branches and roots of the new path, and `aodbm_set` and `aodbm_del`.
-/

namespace Aodbm

open Effects

variable (B : Build)

/-! ## Leaves -/

def aodbmBranch (a : Nat) (key : Data) (b : Nat) : Rope :=
  aodbmRopeAppend
    (aodbmRopeMerge
      (aodbmRopeAppend (aodbmData2ToRope [branchType] (aodbmDataFrom32 B 1)) (aodbmDataFrom64 B a))
      (makeBlock B key))
    (aodbmDataFrom64 B b)

def aodbmLeafNode (key val : Data) : Rope :=
  aodbmRopeMerge (aodbmData2ToRope [leafType] (aodbmDataFrom32 B 1)) (makeRecord B key val)

/-- `range_result`. -/
structure RangeResult where
  node : Rope
  key : Option Data
  endPos : Nat
  sz : Nat
  inserted : Bool

def addHeader (result : RangeResult) : RangeResult :=
  { result with
    node := aodbmRopeMerge (aodbmData2ToRope [leafType] (aodbmDataFrom32 B result.sz))
      result.node }

/-- The loop of `duplicate_leaf_range`: `n` records are left, the next has index `i`. -/
def duplicateLoop : Nat → Nat → Nat → Rope → Option Data → Op (Rope × Option Data × Nat)
  | 0, _, pos, data, key1 => pure (data, key1, pos)
  | n + 1, i, pos, data, key1 => do
    let dKey ← aodbmReadData B pos
    let dVal ← aodbmReadData B (pos + dKey.length + 4)
    duplicateLoop n (i + 1) (pos + dKey.length + 4 + dVal.length + 4)
      (aodbmRopeMerge data (makeRecord B dKey dVal)) (if i = 0 then some dKey else key1)

def duplicateLeafRange (startPos num : Nat) : Op RangeResult := do
  let (data, key1, pos) ← duplicateLoop B num 0 startPos aodbmRopeEmpty none
  pure { node := data, key := key1, endPos := pos, sz := num, inserted := false }

/-- The state of the loop of `insert_into_leaf_range` when it ends: `i` is the
index it stopped at and `inserted` the local flag, set only by a break. -/
structure LeafScan where
  data : Rope
  key1 : Option Data
  pos : Nat
  i : Nat
  inserted : Bool

def insertLoop (key : Data) (iRec : Rope) :
    Nat → Nat → Nat → Rope → Option Data → Op LeafScan
  | 0, i, pos, data, key1 => pure ⟨data, key1, pos, i, false⟩
  | n + 1, i, pos, data, key1 => do
    let dKey ← aodbmReadData B pos
    let dVal ← aodbmReadData B (pos + dKey.length + 4)
    let pos := pos + dKey.length + 4 + dVal.length + 4
    let cmp := aodbmDataCmp B key dKey
    let key1 := if cmp ≠ 1 ∧ i = 0 then some key else key1
    let key1 := if cmp ≠ 0 ∧ key1 = none ∧ i = 0 then some dKey else key1
    let data := if cmp ≠ 1 then aodbmRopeMerge data iRec else data
    let data := if cmp ≠ 0 then aodbmRopeMerge data (makeRecord B dKey dVal) else data
    if cmp ≠ 1 then pure ⟨data, key1, pos, i, decide (cmp = -1)⟩
    else insertLoop key iRec n (i + 1) pos data key1

def insertIntoLeafRange (key val : Data) (startPos num : Nat) (insertEnd : Bool) :
    Op RangeResult := do
  let iRec := makeRecord B key val
  let scan ← insertLoop B key iRec num 0 startPos aodbmRopeEmpty none
  if scan.i < num then
    -- the loop was broken
    if num - scan.i ≠ 1 then do
      let dup ← duplicateLeafRange B scan.pos (num - scan.i - 1)
      pure { node := aodbmRopeMerge scan.data dup.node, key := scan.key1, endPos := dup.endPos,
             sz := num + (if scan.inserted then 1 else 0), inserted := true }
    else
      pure { node := scan.data, key := scan.key1, endPos := scan.pos,
             sz := num + (if scan.inserted then 1 else 0), inserted := true }
  else if insertEnd then
    pure { node := aodbmRopeMerge scan.data iRec, key := scan.key1, endPos := scan.pos,
           sz := num + 1, inserted := true }
  else
    pure { node := scan.data, key := scan.key1, endPos := scan.pos, sz := num,
           inserted := false }

/-- `modify_result`: the nodes that replace a node, with the first key of each. -/
structure ModifyResult where
  aNode : Option Rope
  aKey : Option Data
  bNode : Option Rope
  bKey : Option Data
deriving DecidableEq

/-- "pos is positioned just after the type byte" -/
def insertIntoLeaf (key val : Data) (pos : Nat) : Op ModifyResult := do
  let sz ← aodbmRead32 B pos
  let pos := pos + 4
  if sz = B.maxNodeSize then do
    let aRange ← insertIntoLeafRange B key val pos (B.maxNodeSize / 2) false
    let bRange ←
      if aRange.inserted then duplicateLeafRange B aRange.endPos (B.maxNodeSize / 2)
      else insertIntoLeafRange B key val aRange.endPos (B.maxNodeSize / 2) true
    pure { aNode := some (addHeader B aRange).node, aKey := aRange.key,
           bNode := some (addHeader B bRange).node, bKey := bRange.key }
  else if sz = 0 then
    pure { aNode := some (aodbmLeafNode B key val), aKey := some key, bNode := none, bKey := none }
  else if sz < B.maxNodeSize then do
    let range ← insertIntoLeafRange B key val pos sz true
    pure { aNode := some (addHeader B range).node, aKey := range.key, bNode := none, bKey := none }
  else .fail .sizeBeyondMax

/-- The loop of `remove_from_leaf`; a record is kept once one was removed. -/
def removeLoop (key : Data) :
    Nat → Nat → Bool → Option Data → Rope → Op (Bool × Option Data × Rope)
  | 0, _, removed, aKey, data => pure (removed, aKey, data)
  | n + 1, pos, removed, aKey, data => do
    let rKey ← aodbmReadData B pos
    let rVal ← aodbmReadData B (pos + 4 + rKey.length)
    let pos := pos + 4 + rKey.length + 4 + rVal.length
    if !removed && aodbmDataEq rKey key then removeLoop key n pos true aKey data
    else
      removeLoop key n pos removed (if aKey = none then some rKey else aKey)
        (aodbmRopeMerge data (makeRecord B rKey rVal))

def removeFromLeaf (key : Data) (pos : Nat) : Op ModifyResult := do
  let sz ← aodbmRead32 B pos
  let (removed, aKey, data) ← removeLoop B key sz (pos + 4) false none aodbmRopeEmpty
  let header := aodbmData2ToRope [leafType]
    (aodbmDataFrom32 B (sz - (if removed then 1 else 0)))
  pure { aNode := some (aodbmRopeMerge header data), aKey := aKey, bNode := none, bKey := none }

/-! ## Branches -/

/-- `branch`: the key of the first child is kept outside the bytes. `data` is
`NULL` as long as `key` is, and empty here. -/
structure Branch where
  data : Rope
  key : Option Data
  sz : Nat

def branchInit : Branch := ⟨[], none, 0⟩

def addToBranch (node : Branch) (key : Data) (off : Nat) : Branch :=
  match node.key with
  | none =>
    { data := aodbmDataToRope (aodbmDataFrom64 B off), key := some key, sz := node.sz + 1 }
  | some _ =>
    { node with
      data := aodbmRopeMerge node.data (aodbmRopeAppend (makeBlock B key) (aodbmDataFrom64 B off)),
      sz := node.sz + 1 }

def addToBranches (ab : Branch × Branch) (key : Data) (off : Nat) : Branch × Branch :=
  if ab.1.sz < B.maxNodeSize / 2 then (addToBranch B ab.1 key off, ab.2)
  else (ab.1, addToBranch B ab.2 key off)

/-- `merge_branches`, the first branch after it. -/
def mergeBranches (a b : Branch) : Branch :=
  if b.sz > 0 then
    { a with
      sz := a.sz + b.sz,
      data := aodbmRopeMerge (aodbmRopeMerge a.data (makeBlock B (b.key.getD []))) b.data }
  else a

def branchToRope (br : Branch) : Rope :=
  aodbmRopeMerge (aodbmData2ToRope [branchType] (aodbmDataFrom32 B (br.sz - 1))) br.data

/-- Place a pending node before the child with separator `key`. The flag
`a_placed` (`b_placed`) and the pair it guards are one optional pair here, which
is `none` once the node is placed. -/
def placeBefore (key : Data) (pending : Option (Data × Nat)) (ab : Branch × Branch) :
    Option (Data × Nat) × (Branch × Branch) :=
  match pending with
  | some (k, off) => if aodbmDataLt B k key then (none, addToBranches B ab k off) else (pending, ab)
  | none => (none, ab)

/-- Place a node that is still pending after the last child. -/
def placeLast (pending : Option (Data × Nat)) (ab : Branch × Branch) : Branch × Branch :=
  match pending with
  | some (k, off) => addToBranches B ab k off
  | none => ab

/-- The loop of `modify_branch` over the `n` keys left from `pos` on. -/
def modifyLoop (rmA rmB : Nat) :
    Nat → Nat → Option (Data × Nat) → Option (Data × Nat) → Branch × Branch →
      Op (Option (Data × Nat) × Option (Data × Nat) × (Branch × Branch))
  | 0, _, pa, pb, ab => pure (pa, pb, ab)
  | n + 1, pos, pa, pb, ab => do
    let key ← aodbmReadData B pos
    let off ← aodbmRead64 B (pos + 4 + key.length)
    let (pa, ab) := placeBefore B key pa ab
    let (pb, ab) := placeBefore B key pb ab
    let ab := if off ≠ rmA ∧ off ≠ rmB then addToBranches B ab key off else ab
    modifyLoop rmA rmB n (pos + 4 + key.length + 8) pa pb ab

/-- The end of `modify_branch`: one or two nodes, or none. -/
def splitBranches (a b : Branch) : ModifyResult :=
  if b.sz < B.maxNodeSize / 2 then
    if (mergeBranches B a b).sz = 0 then ⟨none, none, none, none⟩
    else ⟨some (branchToRope B (mergeBranches B a b)), (mergeBranches B a b).key, none, none⟩
  else ⟨some (branchToRope B a), a.key, some (branchToRope B b), b.key⟩

def modifyBranch (node : Nat) (nodeKey : Data) (nodeA : Nat) (aKey : Option Data) (nodeB : Nat)
    (bKey : Option Data) (rmA rmB : Nat) : Op ModifyResult := do
  let sz ← aodbmRead32 B (node + 1)
  let off ← aodbmRead64 B (node + 1 + 4)
  let ab := if off ≠ rmA ∧ off ≠ rmB then addToBranches B (branchInit, branchInit) nodeKey off
    else (branchInit, branchInit)
  let (pa, pb, ab) ← modifyLoop B rmA rmB sz (node + 1 + 4 + 8)
    (aKey.map fun k => (k, nodeA)) (bKey.map fun k => (k, nodeB)) ab
  let ab := placeLast B pa ab
  let ab := placeLast B pb ab
  pure (splitBranches B ab.1 ab.2)

/-! ## Roots -/

/-- `root_result`. -/
structure RootResult where
  dat : Data
  root : Nat

/-- A node whose rope is followed; the source has no check for `NULL`. -/
def deref (node : Option Rope) : Op Rope :=
  match node with
  | some r => pure r
  | none => .fail .nullPointer

def constructRoot (prev appendPos : Nat) (data : Rope) (dataSz : Nat) (nodes : ModifyResult) :
    Op RootResult :=
  match nodes.bKey with
  | none =>
    match nodes.aKey with
    | none =>
      let data := aodbmRopeAppend data (aodbmDataFrom64 B prev)
      let data := aodbmRopeAppend data [leafType]
      let data := aodbmRopeAppend data (aodbmDataFrom32 B 0)
      pure { dat := aodbmRopeToData data, root := appendPos + dataSz }
    | some _ => do
      let aNode ← deref nodes.aNode
      let aNode := aodbmRopePrepend (aodbmDataFrom64 B prev) aNode
      pure { dat := aodbmRopeToData (aodbmRopeMerge data aNode), root := dataSz + appendPos }
  | some bKey => do
    let aNode ← deref nodes.aNode
    let a := dataSz + appendPos
    let data := aodbmRopeMerge data aNode
    let dataSz := dataSz + aodbmRopeSize aNode
    let bNode ← deref nodes.bNode
    let b := dataSz + appendPos
    let data := aodbmRopeMerge data bNode
    let dataSz := dataSz + aodbmRopeSize bNode
    let br := aodbmRopePrepend (aodbmDataFrom64 B prev) (aodbmBranch B a bKey b)
    pure { dat := aodbmRopeToData (aodbmRopeMerge data br), root := dataSz + appendPos }

/-! ## `aodbm_set` -/

/-- The loop of `aodbm_set` over the branches of the path, from the lowest one up.
`data_sz` is a `uint32_t` here. -/
def setLoop (appendPos : Nat) :
    List PathNode → Rope → Nat → ModifyResult → Nat → Op (Rope × Nat × ModifyResult)
  | [], data, dataSz, nodes, _ => pure (data, dataSz, nodes)
  | node :: path, data, dataSz, nodes, prevNode => do
    let aNode ← deref nodes.aNode
    let a := dataSz + appendPos
    let data := aodbmRopeMerge data aNode
    let dataSz := (dataSz + aodbmRopeSize aNode) % 2 ^ 32
    let (b, data, dataSz) :=
      match nodes.bNode with
      | none => (0, data, dataSz)
      | some bNode =>
        (dataSz + appendPos, aodbmRopeMerge data bNode,
          (dataSz + aodbmRopeSize bNode) % 2 ^ 32)
    let nodes ← modifyBranch B node.node node.key a nodes.aKey b nodes.bKey prevNode 0
    setLoop appendPos path data dataSz nodes node.node

/-- What `aodbm_set` builds under the lock. The test for a branch is the
assignment `type = 'b'`, so every type but `'l'` is taken for a branch. -/
def setResult (ver : Nat) (key val : Data) (appendPos : Nat) : Op RootResult :=
  if ver = 0 then
    pure { dat := aodbmRopeToData
            (aodbmRopePrepend (aodbmDataFrom64 B ver) (aodbmLeafNode B key val)),
           root := appendPos }
  else do
    let type ← readType (ver + 8)
    if type = leafType then do
      let leaf ← insertIntoLeaf B key val (ver + 9)
      constructRoot B ver appendPos aodbmRopeEmpty 0 leaf
    else do
      let path ← aodbmSearchPath B ver key
      match path with
      | [] => .fail .nullPointer
      | leaf :: path =>
        let nodes ← insertIntoLeaf B key val (leaf.node + 1)
        let (data, dataSz, nodes) ← setLoop B appendPos path aodbmRopeEmpty 0 nodes leaf.node
        constructRoot B ver appendPos data dataSz nodes

/-- The last step locks `rw` again, as the source does. -/
def aodbmSet (ver : Nat) (key val : Data) : Op Nat := do
  lockRw
  let fileSize ← aodbmFileSize
  let result ← setResult B ver key val (fileSize + 5)
  aodbmWriteDataBlock B result.dat
  lockRw
  pure result.root

/-! ## `aodbm_del` -/

/-- The loop of `aodbm_del`; `data_sz` is a `uint64_t` here. -/
def delLoop (appendPos : Nat) :
    List PathNode → Rope → Nat → ModifyResult → Nat → Op (Rope × Nat × ModifyResult)
  | [], data, dataSz, nodes, _ => pure (data, dataSz, nodes)
  | node :: path, data, dataSz, nodes, prevNode => do
    let (a, data, dataSz) ←
      match nodes.aKey with
      | none => pure (0, data, dataSz)
      | some _ => do
        let aNode ← deref nodes.aNode
        pure (dataSz + appendPos, aodbmRopeMerge data aNode, dataSz + aodbmRopeSize aNode)
    let (b, data, dataSz) :=
      match nodes.bNode with
      | none => (0, data, dataSz)
      | some bNode =>
        (dataSz + appendPos, aodbmRopeMerge data bNode, dataSz + aodbmRopeSize bNode)
    let nodes ← modifyBranch B node.node node.key a nodes.aKey b nodes.bKey prevNode 0
    delLoop appendPos path data dataSz nodes node.node

/-- What `aodbm_del` builds under the lock. -/
def delResult (ver : Nat) (key : Data) (appendPos : Nat) : Op RootResult := do
  let type ← readType (ver + 8)
  if type = leafType then do
    let res ← removeFromLeaf B key (ver + 9)
    constructRoot B ver appendPos aodbmRopeEmpty 0 res
  else if type = branchType then do
    let path ← aodbmSearchPath B ver key
    match path with
    | [] => .fail .nullPointer
    | leaf :: path =>
      let nodes ← removeFromLeaf B key (leaf.node + 1)
      let (data, dataSz, nodes) ← delLoop B appendPos path aodbmRopeEmpty 0 nodes leaf.node
      constructRoot B ver appendPos data dataSz nodes
  else .fail .unknownNodeType

def aodbmDel (ver : Nat) (key : Data) : Op Nat :=
  if ver = 0 then pure 0
  else do
    let has ← aodbmHas B ver key
    if !has then pure ver
    else do
      lockRw
      let fileSize ← aodbmFileSize
      let result ← delResult B ver key (fileSize + 5)
      aodbmWriteDataBlock B result.dat
      unlockRw
      pure result.root

end Aodbm
