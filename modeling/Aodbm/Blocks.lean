import Aodbm.Node
import Aodbm.Open

/-!
# Blocks

The file is a sequence of blocks: data blocks, which hold the nodes of one update, and
version records. `aodbm_open` scans them.

Results:
1. `writes_dataBlock`, `writes_version`: the two writers append one block each.
2. `openBlocks`: the scan keeps the complete blocks, drops a torn block behind them and
   finds the version of the last version record.
3. `encBlocks_prefix`: a prefix of blocks is a sequence of blocks and a torn block.
-/

namespace Aodbm

open Effects Bytes

variable (B : Build)

inductive Block where
  /-- The payload of an update. -/
  | data (payload : Data)
  /-- The record of a commit. -/
  | version (ver : Nat)
deriving DecidableEq

def Block.enc : Block → Data
  | .data payload =>
    [dataBlock] ++ aodbmDataFrom32 B (payload.length % 2 ^ 32) ++ payload
  | .version ver => [versionBlock] ++ aodbmDataFrom64 B ver

/-- The length and the version fit their fields. -/
def Block.Fits : Block → Prop
  | .data payload => payload.length < 2 ^ 32
  | .version ver => ver < 2 ^ 64

def encBlocks (bs : List Block) : Data := bs.flatMap (Block.enc B)

/-- `cur` after the blocks, when it was `cur` before them. -/
def lastVersion (cur : Nat) : List Block → Nat
  | [] => cur
  | .data _ :: bs => lastVersion cur bs
  | .version ver :: bs => lastVersion ver bs

/-- The beginning of a block that was not completed. -/
def Torn (rest : Data) : Prop :=
  ∃ b : Block, b.Fits ∧ rest <+: b.enc B ∧ rest.length < (b.enc B).length

variable {B}
variable {db : Db}

@[simp] theorem encBlocks_nil : encBlocks B [] = [] := rfl

@[simp] theorem encBlocks_cons (b : Block) (bs : List Block) :
    encBlocks B (b :: bs) = b.enc B ++ encBlocks B bs := rfl

@[simp] theorem encBlocks_append (bs cs : List Block) :
    encBlocks B (bs ++ cs) = encBlocks B bs ++ encBlocks B cs := by
  simp [encBlocks]

@[simp] theorem data_enc_length (payload : Data) :
    (Block.enc B (.data payload)).length = 5 + payload.length := by
  simp [Block.enc]
  omega

@[simp] theorem version_enc_length (ver : Nat) : (Block.enc B (.version ver)).length = 9 := by
  simp [Block.enc]

theorem lastVersion_append (cur : Nat) (bs cs : List Block) :
    lastVersion cur (bs ++ cs) = lastVersion (lastVersion cur bs) cs := by
  induction bs generalizing cur with
  | nil => rfl
  | cons b bs ih => cases b <;> exact ih _

/-! ## Writing -/

/-- The program appends `bs`, or fails because the file would get too long. -/
def Writes {α : Type} (p : Op α) (bs : Data) (r : α) : Prop :=
  ∀ db, eval p db =
    if db.file.length + bs.length < 2 ^ 63 then .ok (r, db.append bs) else .error .osError

theorem Writes.last {α : Type} {p : Op α} {r : α} (bs : Data) (hp : ∀ db, eval p db = .ok (r, db)) :
    Writes (aodbmWriteBytes bs >>= fun _ => p) bs r := by
  intro db
  by_cases hb : db.file.length + bs.length < 2 ^ 63
  · rw [eval, run_bind_ok (eval_writeBytes hb), if_pos hb]
    exact hp _
  · rw [eval, run_bind_error (eval_writeBytes_error hb), if_neg hb]

theorem Writes.cons {α : Type} {p : Op α} {r : α} (bs : Data) {cs : Data} (hp : Writes p cs r) :
    Writes (aodbmWriteBytes bs >>= fun _ => p) (bs ++ cs) r := by
  intro db
  have hlen : (db.append bs).file.length = db.file.length + bs.length := List.length_append
  rw [List.length_append, ← Nat.add_assoc, ← Db.append_append, ← hlen]
  by_cases hb : db.file.length + bs.length < 2 ^ 63
  · rw [eval, run_bind_ok (eval_writeBytes hb)]
    exact hp _
  · rw [eval, run_bind_error (eval_writeBytes_error hb), if_neg (by omega)]

theorem writes_dataBlock (data : Data) :
    Writes (aodbmWriteDataBlock B data) (Block.enc B (.data data)) () := by
  intro db
  rw [aodbmWriteDataBlock, eval, run_bind_ok eval_lockRw, Block.enc, List.append_assoc]
  exact ((Writes.last data fun _ => eval_unlockRw).cons _).cons _ db

theorem writes_version (ver : Nat) :
    Writes (aodbmWriteVersion B ver) (Block.enc B (.version ver)) () := by
  intro db
  rw [aodbmWriteVersion, eval, run_bind_ok eval_lockRw, Block.enc]
  exact ((Writes.last _ fun _ => by rw [eval, run_bind_ok eval_fflush]; rfl).cons _) db

/-! ## Scanning -/

theorem readFile_none {file : Data} {off sz : Nat} (hsz : 0 < sz) (h : file.length < off + sz) :
    readFile file off sz = none := by
  unfold readFile
  rw [if_neg]
  rw [List.length_take, List.length_drop]
  omega

/-- At the end of the complete blocks, the scan stops, and cuts off a torn block. -/
theorem openLoop_torn {done rest : Data} (hrest : Torn B rest) (rounds cur : Nat) :
    openLoop B (done ++ rest) (done ++ rest).length (rounds + 1) done.length done.length cur =
      .ok ⟨done, done.length, cur⟩ := by
  obtain ⟨b, hfits, ⟨t, ht⟩, hlt⟩ := hrest
  rw [openLoop]
  cases rest with
  | nil =>
    rw [readFile_none (by decide) (by simp), List.append_nil]
  | cons type rest =>
    have htype : readFile (done ++ type :: rest) done.length 1 = some [type] := by
      have hseg : SegAt (done ++ type :: rest) done.length [type] := by
        have := segAt_mid done [type] rest
        simpa using this
      exact readFile_segAt hseg
    have htake : (done ++ type :: rest).take done.length = done := by simp
    rw [htype]
    cases b with
    -- a version record is cut in its number
    | version ver =>
      have hty : type = versionBlock := by
        simp only [Block.enc, List.cons_append, List.cons.injEq, List.nil_append] at ht
        exact ht.1
      rw [version_enc_length] at hlt
      simp only [hty, if_true]
      rw [readFile_none (by decide) (by simp at hlt ⊢; omega)]
      simp
    | data payload =>
      simp only [Block.enc, List.cons_append, List.cons.injEq, List.nil_append] at ht
      obtain ⟨hty, htail⟩ := ht
      rw [data_enc_length] at hlt
      simp only [hty, List.cons.injEq, and_true, if_true]
      rw [if_neg (by decide)]
      -- a data block can be cut in its length or in its payload
      by_cases h4 : rest.length < 4
      · rw [readFile_none (by decide) (by simp; omega)]
        simp
      · have hsz : readFile (done ++ dataBlock :: rest) (done.length + 1) 4 =
            some (aodbmDataFrom32 B (payload.length % 2 ^ 32)) := by
          have hpre : aodbmDataFrom32 B (payload.length % 2 ^ 32) <+: rest :=
            List.prefix_of_prefix_length_le ⟨payload, rfl⟩ ⟨t, htail⟩ (by simpa using h4)
          obtain ⟨u, rfl⟩ := hpre
          have hseg := segAt_mid (done ++ [dataBlock])
            (aodbmDataFrom32 B (payload.length % 2 ^ 32)) u
          have hread := readFile_segAt hseg
          simpa using hread
        rw [hsz]
        simp only
        rw [to32_from32 (Nat.mod_lt _ (by decide)), Nat.mod_eq_of_lt hfits, if_pos]
        · simp
        · simp at hlt ⊢
          omega

/-- A complete block is skipped. -/
theorem openLoop_block {b : Block} (hfits : b.Fits) (done rest : Data) (rounds cur : Nat) :
    openLoop B (done ++ b.enc B ++ rest) (done ++ b.enc B ++ rest).length (rounds + 1)
        done.length done.length cur =
      openLoop B (done ++ b.enc B ++ rest) (done ++ b.enc B ++ rest).length rounds
        (done ++ b.enc B).length (done ++ b.enc B).length (lastVersion cur [b]) := by
  rw [openLoop]
  have hseg := segAt_mid done (b.enc B) rest
  generalize done ++ b.enc B ++ rest = file at hseg ⊢
  have hend := hseg.le
  cases b with
  | version ver =>
    have htype := readFile_segAt hseg.left
    have hver := readFile_segAt hseg.right
    simp only [List.length_singleton, from64_length] at htype hver
    simp only [htype, hver, if_true]
    rw [to64_from64 hfits, List.length_append, version_enc_length]
    rfl
  | data payload =>
    have htype := readFile_segAt hseg.left.left
    have hsz := readFile_segAt hseg.left.right
    simp only [List.length_singleton, from32_length] at htype hsz
    have hne : [dataBlock] ≠ [versionBlock] := by decide
    simp only [htype, hsz, if_neg hne, if_true]
    rw [data_enc_length] at hend
    rw [to32_from32 (Nat.mod_lt _ (by decide)), Nat.mod_eq_of_lt hfits, if_neg (by omega),
      List.length_append, data_enc_length]
    have hpos : done.length + 1 + 4 + payload.length = done.length + (5 + payload.length) := by
      omega
    rw [hpos]
    rfl

/-- Complete blocks are skipped. -/
theorem openLoop_blocks {bs : List Block} (hfits : ∀ b ∈ bs, b.Fits) (done rest : Data)
    (rounds cur : Nat) :
    openLoop B (done ++ encBlocks B bs ++ rest) (done ++ encBlocks B bs ++ rest).length
        (rounds + bs.length) done.length done.length cur =
      openLoop B (done ++ encBlocks B bs ++ rest) (done ++ encBlocks B bs ++ rest).length rounds
        (done ++ encBlocks B bs).length (done ++ encBlocks B bs).length (lastVersion cur bs) := by
  induction bs generalizing done cur with
  | nil => simp [lastVersion]
  | cons b bs ih =>
    have hstep := openLoop_block (B := B) (hfits b List.mem_cons_self) done
      (encBlocks B bs ++ rest) (rounds + bs.length) cur
    have hnext := ih (fun c hc => hfits c (List.mem_cons_of_mem _ hc)) (done ++ b.enc B)
      (lastVersion cur [b])
    rw [encBlocks_cons, List.length_cons, ← Nat.add_assoc]
    simp only [List.append_assoc] at hstep hnext ⊢
    rw [hstep, hnext]
    congr 1
    exact (lastVersion_append cur [b] bs).symm

theorem encBlocks_count (bs : List Block) : bs.length ≤ (encBlocks B bs).length := by
  induction bs with
  | nil => simp
  | cons b bs ih =>
    have hb : 0 < (b.enc B).length := by cases b <;> simp
    rw [encBlocks_cons, List.length_append, List.length_cons]
    omega

/-- `aodbm_open` goes past the complete blocks. -/
theorem open_eq {bs : List Block} (hfits : ∀ b ∈ bs, b.Fits) (rest : Data) :
    ∃ rounds, aodbmOpen B (encBlocks B bs ++ rest) = openLoop B (encBlocks B bs ++ rest)
      (encBlocks B bs ++ rest).length (rounds + 1) (encBlocks B bs).length
      (encBlocks B bs).length (lastVersion 0 bs) := by
  have hcount := encBlocks_count (B := B) bs
  refine ⟨(encBlocks B bs ++ rest).length - bs.length, ?_⟩
  have hskip := openLoop_blocks (B := B) hfits [] rest
    ((encBlocks B bs ++ rest).length - bs.length + 1) 0
  simp only [List.nil_append, List.length_nil] at hskip
  rw [← hskip, aodbmOpen]
  congr 1
  rw [List.length_append]
  omega

/-- `aodbm_open` keeps the complete blocks and finds the last version. -/
theorem openBlocks {bs : List Block} (hfits : ∀ b ∈ bs, b.Fits) {rest : Data}
    (hrest : Torn B rest) :
    aodbmOpen B (encBlocks B bs ++ rest) =
      .ok ⟨encBlocks B bs, (encBlocks B bs).length, lastVersion 0 bs⟩ := by
  obtain ⟨rounds, heq⟩ := open_eq (B := B) hfits rest
  rw [heq]
  exact openLoop_torn hrest rounds _

theorem torn_of_append {b : Block} {rest pad : Data} (hb : b.Fits) (h : b.enc B = rest ++ pad)
    (hpad : pad ≠ []) : Torn B rest := by
  have hpos := List.length_pos_iff.mpr hpad
  refine ⟨b, hb, h ▸ List.prefix_append _ _, ?_⟩
  rw [h, List.length_append]
  omega

theorem Torn.mono {rest rest' : Data} (h : Torn B rest) (hpre : rest' <+: rest) : Torn B rest' := by
  obtain ⟨b, hb, henc, hlen⟩ := h
  exact ⟨b, hb, hpre.trans henc, hpre.length_le.trans_lt hlen⟩

theorem torn_nil : Torn B [] := ⟨.version 0, by simp [Block.Fits], by simp, by simp⟩

/-- A prefix of blocks is a sequence of complete blocks and a torn block, and no more
blocks of the file are complete in it. -/
theorem encBlocks_prefix {bs : List Block} (hfits : ∀ b ∈ bs, b.Fits) {P : Data}
    (hP : P <+: encBlocks B bs) :
    ∃ done todo rest, bs = done ++ todo ∧ P = encBlocks B done ++ rest ∧ Torn B rest ∧
      ∀ b ∈ todo.head?, rest.length < (b.enc B).length := by
  induction bs generalizing P with
  | nil =>
    have hnil : P = [] := List.prefix_nil.mp hP
    exact ⟨[], [], [], rfl, by simp [hnil], torn_nil, by simp⟩
  | cons b bs ih =>
    rw [encBlocks_cons] at hP
    by_cases hlt : P.length < (b.enc B).length
    · refine ⟨[], b :: bs, P, rfl, rfl, ⟨b, hfits b List.mem_cons_self, ?_, hlt⟩,
        by simpa using hlt⟩
      exact List.prefix_of_prefix_length_le hP (List.prefix_append _ _) hlt.le
    · have hb : b.enc B <+: P :=
        List.prefix_of_prefix_length_le (List.prefix_append _ _) hP (by omega)
      obtain ⟨Q, rfl⟩ := hb
      obtain ⟨done, todo, rest, rfl, rfl, htorn, hnext⟩ :=
        ih (fun c hc => hfits c (List.mem_cons_of_mem _ hc))
          ((List.prefix_append_right_inj _).mp hP)
      exact ⟨b :: done, todo, rest, rfl, by simp, htorn, hnext⟩

end Aodbm
