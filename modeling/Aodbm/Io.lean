import Aodbm.Lib.Program
import Aodbm.Rope

/-!
# The file and the handle (`aodbm_internal.c`)

The effects of the library on its handle, the reading and writing functions built
from them, and their sequential meaning on the state of one handle.

The stream is opened with mode `"a+b"`, so every write goes to the end of the
file. Offsets are `off_t` of 64 bits: a write that would end past `2 ^ 63 - 1`
fails, and `aodbm_write_bytes` then ends the process. Positions stay below that
bound, so they are natural numbers here.
-/

namespace Aodbm

open Effects Bytes

/-- How a call can end without returning. Each is an abort of the process, except
`eof`: the source ignores the failed read and goes on with uninitialised memory. -/
inductive Err where
  /-- A read at or beyond the end of the file. -/
  | eof
  /-- `AODBM_OS_ERROR`. -/
  | osError
  /-- "unknown node type" -/
  | unknownNodeType
  /-- "found a node with a size beyond MAX_NODE_SIZE" -/
  | sizeBeyondMax
  /-- "error, given the 0 version for a search" -/
  | zeroVersion
  /-- "error, unknown block type" -/
  | unknownBlockType
  /-- The assertion in `aodbm_search_path_recursive`. -/
  | assertion
  /-- A `NULL` pointer is followed. -/
  | nullPointer
  /-- A recursion that never ends. -/
  | diverges
  /-- A mutex that is never released is waited for. -/
  | blocked
  /-- Memory outside of a mapping is read, or in a mapping behind the last page of the file. -/
  | badAddress
deriving DecidableEq, Repr

/-- The steps a thread takes on the handle. -/
inductive Eff where
  | lockRw
  | unlockRw
  | lockVersion
  | unlockVersion
  | getFileSize
  | readAt (off sz : Nat)
  | write (bytes : Data)
  | flush
  | getCur
  | setCur (ver : Nat)

/-- The answers: `readAt` fails when the file ends inside the range. -/
@[reducible] def Eff.Res : Eff → Type
  | .getFileSize => Nat
  | .readAt .. => Option Data
  | .getCur => Nat
  | _ => Unit

/-- A function of the library. -/
abbrev Op (α : Type) := Prog Eff Eff.Res Err α

/-- The data of `struct aodbm`: the file, `file_size` and `cur`. -/
structure Db where
  file : Data
  fileSize : Nat
  cur : Nat
deriving DecidableEq, Repr

/-- A handle on an empty file. -/
def Db.empty : Db := ⟨[], 0, 0⟩

/-- What `fseeko` and `fread` give: `none` when the file ends too early. -/
def readFile (file : Data) (off sz : Nat) : Option Data :=
  if ((file.drop off).take sz).length = sz then some ((file.drop off).take sz) else none

/-- The effects on the data of the handle. One thread running alone never waits,
so the mutexes do nothing here. -/
def Db.handle : Handler Eff Eff.Res Err Db
  | .lockRw, db => .ok ((), db)
  | .unlockRw, db => .ok ((), db)
  | .lockVersion, db => .ok ((), db)
  | .unlockVersion, db => .ok ((), db)
  | .getFileSize, db => .ok (db.fileSize, db)
  | .readAt off sz, db => .ok (readFile db.file off sz, db)
  | .write bs, db =>
    if db.file.length + bs.length < 2 ^ 63 then
      .ok ((), { db with file := db.file ++ bs, fileSize := db.fileSize + bs.length })
    else .error .osError
  | .flush, db => .ok ((), db)
  | .getCur, db => .ok (db.cur, db)
  | .setCur ver, db => .ok ((), { db with cur := ver })

/-- The sequential meaning of a function of the library. -/
abbrev eval {α : Type} (p : Op α) (db : Db) : Except Err (α × Db) := run Db.handle p db

/-! ## Steps -/

def lockRw : Op Unit := Prog.perform Eff.lockRw
def unlockRw : Op Unit := Prog.perform Eff.unlockRw
def lockVersion : Op Unit := Prog.perform Eff.lockVersion
def unlockVersion : Op Unit := Prog.perform Eff.unlockVersion
def aodbmFileSize : Op Nat := Prog.perform Eff.getFileSize
def getCur : Op Nat := Prog.perform Eff.getCur
def setCur (ver : Nat) : Op Unit := Prog.perform (Eff.setCur ver)

/-- `aodbm_write_bytes`: the bytes go to the end of the file and `file_size` is advanced. -/
def aodbmWriteBytes (bs : Data) : Op Unit := Prog.perform (Eff.write bs)

def fflush : Op Unit := Prog.perform Eff.flush

/-- `aodbm_seek` and `aodbm_read_bytes`. -/
def seekAndRead (off sz : Nat) : Op (Option Data) := Prog.perform (Eff.readAt off sz)

variable (B : Build)

/-! ## Reading -/

/-- `aodbm_read` without `AODBM_USE_MMAP`. -/
def aodbmRead (off sz : Nat) : Op Data := do
  lockRw
  let bs ← seekAndRead off sz
  unlockRw
  match bs with
  | some bs => pure bs
  | none => .fail .eof

/-- `char type; aodbm_read(db, node, 1, &type);` -/
def readType (node : Nat) : Op UInt8 := do
  let bs ← aodbmRead node 1
  pure (bs.headD 0)

def aodbmRead32 (off : Nat) : Op Nat := do
  let bs ← aodbmRead off 4
  pure (to32 B bs)

def aodbmRead64 (off : Nat) : Op Nat := do
  let bs ← aodbmRead off 8
  pure (to64 B bs)

def aodbmReadData (off : Nat) : Op Data := do
  let sz ← aodbmRead32 B off
  aodbmRead (off + 4) sz

/-! ## Writing -/

/-- The type byte of a data block, `"d"`. -/
def dataBlock : UInt8 := 0x64

/-- The type byte of a version record, `"v"`. -/
def versionBlock : UInt8 := 0x76

/-- The length goes through `htonl`, which takes a `uint32_t`. -/
def aodbmWriteDataBlock (data : Data) : Op Unit := do
  lockRw
  aodbmWriteBytes [dataBlock]
  aodbmWriteBytes (aodbmDataFrom32 B (data.length % 2 ^ 32))
  aodbmWriteBytes data
  unlockRw

def aodbmWriteVersion (ver : Nat) : Op Unit := do
  lockRw
  aodbmWriteBytes [versionBlock]
  aodbmWriteBytes (aodbmDataFrom64 B ver)
  fflush
  unlockRw

/-! ## What the steps do to the data of the handle -/

section Eval
variable {B} {α : Type} {db : Db}

@[simp] theorem eval_lockRw : eval lockRw db = .ok ((), db) := rfl
@[simp] theorem eval_unlockRw : eval unlockRw db = .ok ((), db) := rfl
@[simp] theorem eval_lockVersion : eval lockVersion db = .ok ((), db) := rfl
@[simp] theorem eval_unlockVersion : eval unlockVersion db = .ok ((), db) := rfl
@[simp] theorem eval_fileSize : eval aodbmFileSize db = .ok (db.fileSize, db) := rfl
@[simp] theorem eval_getCur : eval getCur db = .ok (db.cur, db) := rfl
@[simp] theorem eval_setCur (ver : Nat) :
    eval (setCur ver) db = .ok ((), { db with cur := ver }) := rfl
@[simp] theorem eval_fflush : eval fflush db = .ok ((), db) := rfl
@[simp] theorem eval_seekAndRead (off sz : Nat) :
    eval (seekAndRead off sz) db = .ok (readFile db.file off sz, db) := rfl

/-- The handle after some bytes were appended. -/
def Db.append (db : Db) (bs : Data) : Db :=
  { db with file := db.file ++ bs, fileSize := db.fileSize + bs.length }

theorem eval_writeBytes {bs : Data} (h : db.file.length + bs.length < 2 ^ 63) :
    eval (aodbmWriteBytes bs) db = .ok ((), db.append bs) := by
  unfold aodbmWriteBytes eval
  rw [run_perform]
  exact if_pos h

theorem eval_writeBytes_error {bs : Data} (h : ¬ db.file.length + bs.length < 2 ^ 63) :
    eval (aodbmWriteBytes bs) db = .error .osError := by
  unfold aodbmWriteBytes eval
  rw [run_perform]
  exact if_neg h

theorem Db.append_append (bs cs : Data) : (db.append bs).append cs = db.append (bs ++ cs) := by
  simp [Db.append, Nat.add_assoc]

theorem readFile_segAt {file bs : Data} {off : Nat} (h : SegAt file off bs) :
    readFile file off bs.length = some bs := by
  unfold readFile
  rw [h.read, if_pos rfl]

theorem readFile_eq_some {file bs : Data} {off sz : Nat} (h : readFile file off sz = some bs) :
    bs = (file.drop off).take sz ∧ bs.length = sz := by
  unfold readFile at h
  split at h
  · next hl =>
    cases h
    exact ⟨rfl, hl⟩
  · cases h

/-- A read that succeeds gives the same bytes after every append. -/
theorem readFile_append {file bs : Data} {off sz : Nat} (t : Data)
    (h : readFile file off sz = some bs) : readFile (file ++ t) off sz = some bs := by
  obtain ⟨hbs, hl⟩ := readFile_eq_some h
  unfold readFile
  rcases eq_or_ne sz 0 with rfl | hsz
  · simp [List.eq_nil_of_length_eq_zero hl]
  · have hlen : off + sz ≤ file.length := by
      rw [hbs, List.length_take, List.length_drop] at hl
      omega
    have : ((file ++ t).drop off).take sz = bs := by
      rw [hbs, List.drop_append_of_le_length (by omega),
        List.take_append_of_le_length (by simp; omega)]
    rw [this, if_pos hl]

/-- A read ends the call if the file is too short. -/
theorem eval_read_cases (off sz : Nat) (db : Db) :
    eval (aodbmRead off sz) db =
      match readFile db.file off sz with
      | some bs => .ok (bs, db)
      | none => .error .eof := by
  rw [aodbmRead, eval, run_bind_ok eval_lockRw, run_bind_ok (eval_seekAndRead _ _),
    run_bind_ok eval_unlockRw]
  cases readFile db.file off sz <;> rfl

theorem eval_read {bs : Data} {off : Nat} (h : SegAt db.file off bs) :
    eval (aodbmRead off bs.length) db = .ok (bs, db) := by
  rw [eval_read_cases, readFile_segAt h]

theorem eval_readType {t : UInt8} {off : Nat} (h : SegAt db.file off [t]) :
    eval (readType off) db = .ok (t, db) := by
  unfold readType eval
  rw [show (1 : Nat) = [t].length from rfl, run_bind_ok (eval_read h)]
  rfl

theorem eval_read32 {n off : Nat} (h : SegAt db.file off (aodbmDataFrom32 B n))
    (hn : n < 2 ^ 32) : eval (aodbmRead32 B off) db = .ok (n, db) := by
  unfold aodbmRead32 eval
  rw [show (4 : Nat) = (aodbmDataFrom32 B n).length from (from32_length n).symm,
    run_bind_ok (eval_read h), to32_from32 hn]
  rfl

theorem eval_read64 {n off : Nat} (h : SegAt db.file off (aodbmDataFrom64 B n))
    (hn : n < 2 ^ 64) : eval (aodbmRead64 B off) db = .ok (n, db) := by
  unfold aodbmRead64 eval
  rw [show (8 : Nat) = (aodbmDataFrom64 B n).length from (from64_length n).symm,
    run_bind_ok (eval_read h), to64_from64 hn]
  rfl

end Eval

end Aodbm
