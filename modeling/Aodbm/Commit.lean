import Aodbm.Update

/-!
# The current version, commits and changesets (`aodbm.c`)
-/

namespace Aodbm

open Effects

variable (B : Build)

def aodbmCurrent : Op Nat := do
  lockVersion
  let result ← getCur
  unlockVersion
  pure result

def aodbmCommit (version : Nat) : Op Bool := do
  lockVersion
  let cur ← getCur
  let result ← aodbmIsBasedOn B version cur
  if result then do
    -- "write the new head"
    aodbmWriteVersion B version
    setCur version
    unlockVersion
    pure result
  else do
    unlockVersion
    pure result

def aodbmCommitInit (version : Nat) : Op Bool := do
  lockVersion
  let cur ← getCur
  aodbmIsBasedOn B version cur

def aodbmCommitFinish (version : Nat) : Op Unit := do
  aodbmWriteVersion B version
  setCur version
  unlockVersion

def aodbmCommitAbort : Op Unit := unlockVersion

/-- `aodbm_change`: `AODBM_MODIFY` or `AODBM_REMOVE`. -/
inductive Change where
  | modify (key val : Data)
  | remove (key : Data)
deriving DecidableEq, Repr

/-- `aodbm_apply` on the changes of the list, in the order its iterator gives them. -/
def aodbmApply (ver : Nat) : List Change → Op Nat
  | [] => pure ver
  | .modify key val :: ch => do
    let ver ← aodbmSet B ver key val
    aodbmApply ver ch
  | .remove key :: ch => do
    let ver ← aodbmDel B ver key
    aodbmApply ver ch

end Aodbm
