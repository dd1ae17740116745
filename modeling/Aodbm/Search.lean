import Aodbm.Io

/-!
# Descents and lookups (`aodbm_internal.c`, `aodbm.c`)

The two descents from the root of a version to the leaf of a key, and the lookups.

Data format of the source:
* `v` to `v + 8`: previous version; the root node stands at `v + 8`;
* `node`: type byte; `node + 1`: number of records or keys;
* branch, from `node + 5`: offset, then `(key, offset)` pairs;
* leaf, from `node + 5`: `(key, val)` pairs.

A recursion carries the number of levels it may still take. There are `2 ^ 64`
offsets, so a descent of more levels has come to some node twice and never ends.
-/

namespace Aodbm

open Effects

/-- The number of offsets, and so a bound on the levels of a descent that ends. -/
def maxDepth : Nat := 2 ^ 64

variable (B : Build)

/-! ## `aodbm_search` -/

/-- The scan of a branch for the child of `key`: `n` keys are left from `pos` on,
and `off` is the child before the next one. -/
def searchLoop (key : Data) : Nat → Nat → Nat → Op Nat
  | 0, _, off => pure off
  | n + 1, pos, off => do
    let dat ← aodbmReadData B pos
    if aodbmDataLt B key dat then pure off
    else do
      let off ← aodbmRead64 B (pos + dat.length + 4)
      searchLoop key n (pos + dat.length + 4 + 8) off

def aodbmSearchRecursive (key : Data) : Nat → Nat → Op Nat
  | 0, _ => .fail .diverges
  | depth + 1, node => do
    let type ← readType node
    if type = leafType then pure node
    else if type = branchType then do
      let sz ← aodbmRead32 B (node + 1)
      let off ← aodbmRead64 B (node + 5)
      let child ← searchLoop B key sz (node + 5 + 8) off
      aodbmSearchRecursive key depth child
    else .fail .unknownNodeType

/-- "returns the offset of the leaf node that the key belongs in" -/
def aodbmSearch (version : Nat) (key : Data) : Op Nat :=
  if version = 0 then .fail .zeroVersion
  else aodbmSearchRecursive B key maxDepth (version + 8)

/-! ## `aodbm_search_path` -/

/-- `aodbm_path_node`. -/
structure PathNode where
  key : Data
  node : Nat
deriving DecidableEq, Repr

/-- The scan of a branch that also keeps the last key it passed. -/
def searchPathLoop (key : Data) : Nat → Nat → Nat → Data → Op (Nat × Data)
  | 0, _, off, prevKey => pure (off, prevKey)
  | n + 1, pos, off, prevKey => do
    let dat ← aodbmReadData B pos
    if aodbmDataLt B key dat then pure (off, prevKey)
    else do
      let off ← aodbmRead64 B (pos + dat.length + 4)
      searchPathLoop key n (pos + dat.length + 4 + 8) off dat

/-- The stack is a list with its top first. -/
def aodbmSearchPathRecursive (key : Data) :
    Nat → Nat → Data → List PathNode → Op (List PathNode)
  | 0, _, _, _ => .fail .diverges
  | depth + 1, node, nodeKey, path =>
    if aodbmDataLe B nodeKey key then do
      let type ← readType node
      if type = leafType then pure (⟨nodeKey, node⟩ :: path)
      else if type = branchType then do
        let sz ← aodbmRead32 B (node + 1)
        let off ← aodbmRead64 B (node + 5)
        let child ← searchPathLoop B key sz (node + 5 + 8) off nodeKey
        aodbmSearchPathRecursive key depth child.1 child.2 (⟨nodeKey, node⟩ :: path)
      else .fail .unknownNodeType
    else .fail .assertion

def aodbmSearchPath (ver : Nat) (key : Data) : Op (List PathNode) :=
  if ver = 0 then .fail .zeroVersion
  else aodbmSearchPathRecursive B key maxDepth (ver + 8) [] []

/-! ## `aodbm_has` and `aodbm_get` -/

def hasLoop (key : Data) : Nat → Nat → Op Bool
  | 0, _ => pure false
  | n + 1, pos => do
    let rKey ← aodbmReadData B pos
    let rVal ← aodbmReadData B (pos + rKey.length + 4)
    if aodbmDataEq key rKey then pure true
    else hasLoop key n (pos + rKey.length + 4 + rVal.length + 4)

def aodbmHas (ver : Nat) (key : Data) : Op Bool :=
  if ver = 0 then pure false
  else do
    let leafNode ← aodbmSearch B ver key
    let sz ← aodbmRead32 B (leafNode + 1)
    hasLoop B key sz (leafNode + 5)

def getLoop (key : Data) : Nat → Nat → Op (Option Data)
  | 0, _ => pure none
  | n + 1, pos => do
    let rKey ← aodbmReadData B pos
    let rVal ← aodbmReadData B (pos + rKey.length + 4)
    if aodbmDataEq key rKey then pure (some rVal)
    else getLoop key n (pos + rKey.length + 4 + rVal.length + 4)

/-- `none` is the `NULL` of an absent key. -/
def aodbmGet (ver : Nat) (key : Data) : Op (Option Data) :=
  if ver = 0 then pure none
  else do
    let leafNode ← aodbmSearch B ver key
    let sz ← aodbmRead32 B (leafNode + 1)
    getLoop B key sz (leafNode + 5)

/-! ## Ancestry -/

def aodbmPreviousVersion (ver : Nat) : Op Nat := aodbmRead64 B ver

/-- The recursion of `aodbm_is_based_on` with a bound on its steps. -/
def isBasedOnRecursive (b : Nat) : Nat → Nat → Op Bool
  | 0, _ => .fail .diverges
  | depth + 1, a =>
    if b = 0 then pure true
    else if a = 0 then pure false
    else if a < b then pure false
    else if a = b then pure true
    else do
      let prev ← aodbmPreviousVersion B a
      isBasedOnRecursive b depth prev

/-- "is a based on b?" -/
def aodbmIsBasedOn (a b : Nat) : Op Bool := isBasedOnRecursive B b maxDepth a

/-- The recursion of `aodbm_common_ancestor` with a bound on its steps. -/
def commonAncestorRecursive : Nat → Nat → Nat → Op Nat
  | 0, _, _ => .fail .diverges
  | depth + 1, a, b =>
    if a = b then pure a
    else if a = 0 ∨ b = 0 then pure 0
    else if a > b then do
      let prev ← aodbmPreviousVersion B a
      commonAncestorRecursive depth prev b
    else do
      let prev ← aodbmPreviousVersion B b
      commonAncestorRecursive depth a prev

/-- A walk over more than `2 ^ 128` pairs of offsets has come to some pair twice. -/
def aodbmCommonAncestor (a b : Nat) : Op Nat :=
  commonAncestorRecursive B (maxDepth * maxDepth) a b

end Aodbm
