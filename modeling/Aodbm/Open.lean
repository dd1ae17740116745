import Aodbm.Io

/-!
# Opening a file (`aodbm_open`)

The scan of `aodbm_open` on the bytes of the file. No other thread has the handle
yet, so this is a function of the file.
-/

namespace Aodbm

variable (B : Build)

/-- The loop of `aodbm_open`. `pos` is the position of the stream, `fileSize` the
field `file_size`; `actualSize` was taken before the loop. `aodbm_truncate` cuts
the file and sets `file_size`. Every round reads a type byte, which bounds their number. -/
def openLoop (file : Data) (actualSize : Nat) : Nat → Nat → Nat → Nat → Except Err Db
  | 0, _, _, _ => .error .diverges
  | rounds + 1, pos, fileSize, cur =>
    let blockBegin := fileSize
    match readFile file pos 1 with
    | none => .ok ⟨file, fileSize, cur⟩
    | some type =>
      if type = [versionBlock] then
        match readFile file (pos + 1) 8 with
        | none => .ok ⟨file.take blockBegin, blockBegin, cur⟩
        | some ver => openLoop file actualSize rounds (pos + 1 + 8) (fileSize + 1 + 8) (to64 B ver)
      else if type = [dataBlock] then
        match readFile file (pos + 1) 4 with
        | none => .ok ⟨file.take blockBegin, blockBegin, cur⟩
        | some sz =>
          if fileSize + 1 + 4 + to32 B sz > actualSize then
            .ok ⟨file.take blockBegin, blockBegin, cur⟩
          else
            openLoop file actualSize rounds (pos + 1 + 4 + to32 B sz)
              (fileSize + 1 + 4 + to32 B sz) cur
      else .error .unknownBlockType

def aodbmOpen (file : Data) : Except Err Db :=
  openLoop B file file.length (file.length + 1) 0 0 0

end Aodbm
