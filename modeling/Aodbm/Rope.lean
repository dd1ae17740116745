import Aodbm.Data

/-!
# Ropes (`aodbm_rope.c`) and the blocks built from them

A rope is "just a list of aodbm_data objects". The functions ending in `_di` also
free their arguments; a value has no owner here, so the two forms are one.
-/

namespace Aodbm

abbrev Rope := List Data

variable (B : Build)

def aodbmDataToRope (dat : Data) : Rope := [dat]

def aodbmRopeEmpty : Rope := aodbmDataToRope []

def aodbmRopeSize (rope : Rope) : Nat := (rope.map List.length).sum

def aodbmRopeToData (rope : Rope) : Data := rope.flatten

def aodbmRopeAppend (rope : Rope) (dat : Data) : Rope := rope ++ [dat]

def aodbmRopePrepend (dat : Data) (rope : Rope) : Rope := dat :: rope

def aodbmRopeMerge (a b : Rope) : Rope := a ++ b

def aodbmData2ToRope (a b : Data) : Rope := aodbmRopeAppend (aodbmDataToRope a) b

/-- The type byte of a leaf, `"l"`. -/
def leafType : UInt8 := 0x6c

/-- The type byte of a branch, `"b"`. -/
def branchType : UInt8 := 0x62

/-- A length is a `size_t`; the field that holds it is a `uint32_t`. -/
def makeBlock (dat : Data) : Rope :=
  aodbmData2ToRope (aodbmDataFrom32 B (dat.length % 2 ^ 32)) dat

def makeRecord (key val : Data) : Rope := aodbmRopeMerge (makeBlock B key) (makeBlock B val)

theorem ropeSize_eq (rope : Rope) : aodbmRopeSize rope = (aodbmRopeToData rope).length := by
  unfold aodbmRopeSize aodbmRopeToData
  rw [List.length_flatten]

@[simp] theorem toData_empty : aodbmRopeToData aodbmRopeEmpty = [] := rfl

@[simp] theorem toData_ofData (dat : Data) : aodbmRopeToData (aodbmDataToRope dat) = dat := by
  simp [aodbmRopeToData, aodbmDataToRope]

@[simp] theorem toData_append (rope : Rope) (dat : Data) :
    aodbmRopeToData (aodbmRopeAppend rope dat) = aodbmRopeToData rope ++ dat := by
  simp [aodbmRopeToData, aodbmRopeAppend]

@[simp] theorem toData_prepend (dat : Data) (rope : Rope) :
    aodbmRopeToData (aodbmRopePrepend dat rope) = dat ++ aodbmRopeToData rope := by
  simp [aodbmRopeToData, aodbmRopePrepend]

@[simp] theorem toData_merge (a b : Rope) :
    aodbmRopeToData (aodbmRopeMerge a b) = aodbmRopeToData a ++ aodbmRopeToData b := by
  simp [aodbmRopeToData, aodbmRopeMerge]

@[simp] theorem toData_data2 (a b : Data) :
    aodbmRopeToData (aodbmData2ToRope a b) = a ++ b := by
  simp [aodbmData2ToRope]

end Aodbm
