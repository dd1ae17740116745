import Aodbm.Blocks
import Aodbm.Commit
import Aodbm.TreeUpdate

/-!
# What the operations do

One specification for each operation on a version whose records are known.

Results:
1. `ContentsAt.get`, `ContentsAt.has`: lookups, version 0 included.
2. `ContentsAt.set`, `ContentsAt.del`: updates append one data block with a version, and
   a deletion of an absent key appends nothing.
3. `ContentsAt.set_rewritten`, `ContentsAt.del_rewritten`: the nodes in that block.
-/

namespace Aodbm

open Effects Records Bytes

variable {B : Build}
variable {db : Db} {ver : Nat} {rs : List Rec}

/-- The handle is in step with its file. -/
structure Db.Synced (db : Db) : Prop where
  size : db.fileSize = db.file.length
  bound : db.file.length < 2 ^ 63

theorem ContentsAt.get (hc : ContentsAt B db.file ver rs) (hdb : db.Synced) (k : Data) :
    eval (aodbmGet B ver k) db = .ok (rs.lookup k, db) := by
  rcases hc with ⟨rfl, rfl⟩ | ⟨hver, ht⟩
  · rfl
  · exact eval_get hver ht hdb.bound

theorem ContentsAt.has (hc : ContentsAt B db.file ver rs) (hdb : db.Synced) (k : Data) :
    eval (aodbmHas B ver k) db = .ok ((rs.lookup k).isSome, db) := by
  rcases hc with ⟨rfl, rfl⟩ | ⟨hver, ht⟩
  · rfl
  · exact eval_has hver ht hdb.bound

/-- What an update of the version `ver` to the records `new` does: it appends one data
block, which makes a version, or fails because the file would get too long. -/
structure Updates (B : Build) (db : Db) (ver : Nat) (new : List Rec) (op : Op Nat)
    (payload : Data) (root : Nat) : Prop where
  run : eval op db =
    if db.file.length + (Block.enc B (.data payload)).length < 2 ^ 63 then
      .ok (root, db.append (Block.enc B (.data payload)))
    else .error .osError
  above : db.file.length < root
  first : ver = 0 → root = db.file.length + 5
  version : payload.length < 2 ^ 32 →
    VersionAt B (db.file ++ Block.enc B (.data payload)) root ver new

theorem Builds.updates {new : List Rec} {result : RootResult} {op : Op Nat} (hdb : db.Synced)
    (hb : Builds B db.file (db.file.length + 5) ver new result)
    (hop : eval op db =
      if db.file.length + (Block.enc B (.data result.dat)).length < 2 ^ 63 then
        .ok (result.root, db.append (Block.enc B (.data result.dat)))
      else .error .osError) :
    Updates B db ver new op result.dat result.root where
  run := hop
  above := by
    have := hb.above
    omega
  first := hb.first
  version hlen := by
    have hpre : (db.file ++ ([dataBlock] ++
        aodbmDataFrom32 B (result.dat.length % 2 ^ 32))).length = db.file.length + 5 := by simp
    have hver := hb.version hpre (List.prefix_append _ _) (by omega)
      (by have := hdb.bound; omega) hlen
    rwa [List.append_assoc] at hver

/-- `aodbm_set` appends what it built under the lock. -/
theorem eval_aodbmSet {k x : Data} {result : RootResult} (hdb : db.Synced)
    (hres : eval (setResult B ver k x (db.file.length + 5)) db = .ok (result, db)) :
    eval (aodbmSet B ver k x) db =
      if db.file.length + (Block.enc B (.data result.dat)).length < 2 ^ 63 then
        .ok (result.root, db.append (Block.enc B (.data result.dat)))
      else .error .osError := by
  rw [aodbmSet, eval, run_bind_ok eval_lockRw, run_bind_ok eval_fileSize, hdb.size,
    run_bind_ok hres]
  have hw := writes_dataBlock (B := B) result.dat db
  split at hw
  · next hfits =>
    rw [if_pos hfits, run_bind_ok hw]
    rfl
  · next hfull => rw [if_neg hfull, run_bind_error hw]

theorem eval_aodbmSet_error {k x : Data} {e : Err} (hsize : db.fileSize = db.file.length)
    (hres : eval (setResult B ver k x (db.file.length + 5)) db = .error e) :
    eval (aodbmSet B ver k x) db = .error e := by
  rw [aodbmSet, eval, run_bind_ok eval_lockRw, run_bind_ok eval_fileSize, hsize]
  exact run_bind_error hres

/-- `aodbm_set` on version 0 appends a leaf with one record. -/
theorem eval_set_zero {db : Db} (hdb : db.fileSize = db.file.length) (k x : Data)
    (hfits : db.file.length + (Block.enc B (.data (aodbmDataFrom64 B 0 ++
      Node.enc B (.leaf [(k, x)])))).length < 2 ^ 63) :
    eval (aodbmSet B 0 k x) db = .ok (db.file.length + 5, db.append (Block.enc B
      (.data (aodbmDataFrom64 B 0 ++ Node.enc B (.leaf [(k, x)]))))) := by
  have hw := writes_dataBlock (B := B) (aodbmDataFrom64 B 0 ++ Node.enc B (.leaf [(k, x)])) db
  rw [if_pos hfits] at hw
  rw [aodbmSet, eval, run_bind_ok eval_lockRw, run_bind_ok eval_fileSize, hdb, setResult_zero,
    pure_bind, run_bind_ok hw]
  rfl

/-- `aodbm_set` updates the key. -/
theorem ContentsAt.set (hc : ContentsAt B db.file ver rs) (hdb : db.Synced) (k x : Data) :
    ∃ payload root,
      Updates B db ver (upsert (rank B) k x rs) (aodbmSet B ver k x) payload root := by
  obtain ⟨result, hres, hb, -⟩ := setResult_spec hc hdb.bound k x (db.file.length + 5)
  exact ⟨result.dat, result.root, hb.updates hdb (eval_aodbmSet hdb hres)⟩

/-- `aodbm_del` of a key that is there appends what it built under the lock. -/
theorem eval_aodbmDel {k : Data} {result : RootResult} (hdb : db.Synced) (hver : ver ≠ 0)
    (hhas : eval (aodbmHas B ver k) db = .ok (true, db))
    (hres : eval (delResult B ver k (db.file.length + 5)) db = .ok (result, db)) :
    eval (aodbmDel B ver k) db =
      if db.file.length + (Block.enc B (.data result.dat)).length < 2 ^ 63 then
        .ok (result.root, db.append (Block.enc B (.data result.dat)))
      else .error .osError := by
  rw [aodbmDel, if_neg hver, eval, run_bind_ok hhas]
  simp only [Bool.not_true, Bool.false_eq_true, if_false]
  rw [run_bind_ok eval_lockRw, run_bind_ok eval_fileSize, hdb.size, run_bind_ok hres]
  have hw := writes_dataBlock (B := B) result.dat db
  split at hw
  · next hfits =>
    rw [if_pos hfits, run_bind_ok hw, run_bind_ok eval_unlockRw]
    rfl
  · next hfull => rw [if_neg hfull, run_bind_error hw]

theorem eval_aodbmDel_error {k : Data} {e : Err} (hsize : db.fileSize = db.file.length)
    (hver : ver ≠ 0) (hhas : eval (aodbmHas B ver k) db = .ok (true, db))
    (hres : eval (delResult B ver k (db.file.length + 5)) db = .error e) :
    eval (aodbmDel B ver k) db = .error e := by
  rw [aodbmDel, if_neg hver, eval, run_bind_ok hhas]
  simp only [Bool.not_true, Bool.false_eq_true, if_false]
  rw [run_bind_ok eval_lockRw, run_bind_ok eval_fileSize, hsize]
  exact run_bind_error hres

/-- `aodbm_del` removes a key that is there. -/
theorem ContentsAt.del (hc : ContentsAt B db.file ver rs) (hdb : db.Synced) {k : Data}
    (hk : (rs.lookup k).isSome) :
    ∃ payload root, Updates B db ver (erase k rs) (aodbmDel B ver k) payload root := by
  have hhas := hc.has hdb k
  rw [hk] at hhas
  rcases hc with ⟨rfl, rfl⟩ | ⟨hver, ht⟩
  · simp at hk
  obtain ⟨result, hres, hb, -⟩ := delResult_spec hver ht hdb.bound k (db.file.length + 5)
  exact ⟨result.dat, result.root, hb.updates hdb (eval_aodbmDel hdb hver hhas hres)⟩

/-! ## The nodes of an update -/

/-- The file `file'` that an update of `ver` leaves, and the version `v` it returns: from the
leaf of the key up the nodes of the way are replaced, and behind the last of them stands the
new root. `leaf` is the offset of the old leaf and `parts` are the records of the new ones. -/
structure Rewritten (B : Build) (file : Data) (ver : Nat) (k : Data) (leaf : Nat)
    (parts : List (List Rec)) (payload new : Data) (ns : List (Data × Node)) (file' : Data)
    (v : Nat) : Prop where
  block : file' = file ++ Block.enc B (.data payload)
  size : payload.length < 2 ^ 32
  climb : Climb B file k (ver + 8) 0 leaf
    (file ++ ([dataBlock] ++ aodbmDataFrom32 B (payload.length % 2 ^ 32))) (parts.map leafEntry)
    new ns
  root : file' = new ++ (encNodes B (underRoot ns) ++
    (aodbmDataFrom64 B ver ++ (topNode B new.length ns).enc B))
  returned : v = new.length + (encNodes B (underRoot ns)).length

/-- What `setResult` or `delResult` built has been appended. -/
theorem Rewrites.rewritten {k : Data} {leaf v : Nat} {parts : List (List Rec)}
    {result : RootResult} {db' : Db} (hdb : db.Synced)
    (hr : Rewrites B db.file (db.file.length + 5) ver k leaf parts result)
    (run : (if db.file.length + (Block.enc B (.data result.dat)).length < 2 ^ 63 then
        .ok (result.root, db.append (Block.enc B (.data result.dat)))
      else .error .osError : Except Err (Nat × Db)) = .ok (v, db'))
    (hshort : db'.file.length < db.file.length + (5 + 2 ^ 32)) :
    ∃ new ns, Rewritten B db.file ver k leaf parts result.dat new ns db'.file v := by
  split at run
  · cases run
    have hlen : result.dat.length < 2 ^ 32 := by
      simp only [Db.append, List.length_append, data_enc_length] at hshort
      omega
    have hbound := hdb.bound
    have hpre : (db.file ++ ([dataBlock] ++
        aodbmDataFrom32 B (result.dat.length % 2 ^ 32))).length = db.file.length + 5 := by simp
    obtain ⟨new, ns, hclimb, hdat, hroot⟩ :=
      hr.climb hpre (List.prefix_append _ _) (by omega) hlen
    rw [List.append_assoc] at hdat
    exact ⟨new, ns, rfl, hlen, hclimb, hdat, hroot⟩
  · cases run

/-- The nodes that `aodbm_set` writes. -/
theorem ContentsAt.set_rewritten (hc : ContentsAt B db.file ver rs) (hdb : db.Synced)
    (hver : ver ≠ 0) {k x : Data} {v : Nat} {db' : Db}
    (run : eval (aodbmSet B ver k x) db = .ok (v, db'))
    (hshort : db'.file.length < db.file.length + (5 + 2 ^ 32)) :
    ∃ leaf ls parts payload new ns, NodeAt B db.file leaf (.leaf ls) ∧
      Grown B ls.length (parts.map List.length) ∧
      Rewritten B db.file ver k leaf parts payload new ns db'.file v := by
  obtain ⟨result, hres, -, hr⟩ := setResult_spec hc hdb.bound k x (db.file.length + 5)
  obtain ⟨leaf, ls, parts, hleaf, hgrown, hr⟩ := hr hver
  rw [eval_aodbmSet hdb hres] at run
  obtain ⟨new, ns, h⟩ := hr.rewritten hdb run hshort
  exact ⟨leaf, ls, parts, _, new, ns, hleaf, hgrown, h⟩

/-- The nodes that `aodbm_del` writes when the key is there. -/
theorem ContentsAt.del_rewritten (hc : ContentsAt B db.file ver rs) (hdb : db.Synced)
    (hver : ver ≠ 0) {k : Data} {v : Nat} {db' : Db}
    (hhas : eval (aodbmHas B ver k) db = .ok (true, db))
    (run : eval (aodbmDel B ver k) db = .ok (v, db'))
    (hshort : db'.file.length < db.file.length + (5 + 2 ^ 32)) :
    ∃ leaf ls parts payload new ns, NodeAt B db.file leaf (.leaf ls) ∧ parts.length ≤ 1 ∧
      Rewritten B db.file ver k leaf parts payload new ns db'.file v := by
  rcases hc with ⟨h0, _⟩ | ⟨_, ht⟩
  · exact absurd h0 hver
  obtain ⟨result, hres, -, leaf, ls, parts, hleaf, hone, hr⟩ :=
    delResult_spec hver ht hdb.bound k (db.file.length + 5)
  rw [eval_aodbmDel hdb hver hhas hres] at run
  obtain ⟨new, ns, h⟩ := hr.rewritten hdb run hshort
  exact ⟨leaf, ls, parts, _, new, ns, hleaf, hone, h⟩

/-- `aodbm_del` of an absent key returns the version itself and appends nothing. -/
theorem ContentsAt.del_absent (hc : ContentsAt B db.file ver rs) (hdb : db.Synced) {k : Data}
    (hk : rs.lookup k = none) : eval (aodbmDel B ver k) db = .ok (ver, db) := by
  have hhas := hc.has hdb k
  rw [hk] at hhas
  unfold aodbmDel
  split
  · next h =>
    rw [h]
    rfl
  · rw [eval, run_bind_ok hhas]
    rfl

end Aodbm
