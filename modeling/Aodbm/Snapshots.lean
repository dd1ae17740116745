import Aodbm.Reads
import Aodbm.Run

/-!
# Snapshots

A version is a snapshot: what a client reads of it does not depend on what is done to the
database afterwards, and an iterator gives its records in order.

Results:
1. `snapshot_immutable`: in runs with short blocks no later call changes an answer.
2. `iteration_complete`: in runs with short blocks a new iterator gives every record once.
3. `seek_complete`: in runs with short blocks an iterator that is moved to a key gives the
   records that are not below the key.
4. `snapshot_changed`, `iteration_broken`, `seek_broken`: a long block breaks these.
-/

namespace Aodbm

open Effects Records Bytes History

variable (B : Build)

/-- The function returns the same in both states, and leaves them as they are. -/
def SameAnswer {α : Type} (p : Op α) (db db' : Db) : Prop :=
  ∃ r, eval p db = .ok (r, db) ∧ eval p db' = .ok (r, db')

variable {B}
variable {w w' : World}

/-! ## Later calls only append -/

/-- No function takes anything out of the file. -/
theorem eval_prefix {α : Type} {p : Op α} {db db' : Db} {a : α} (hr : eval p db = .ok (a, db')) :
    db.file <+: db'.file := by
  refine run_invariant (I := fun t => db.file <+: t.file) ?_ (only_true p) hr List.prefix_rfl
  intro e _ s r s' he hs
  cases e <;> simp only [Db.handle] at he <;> try (cases he; exact hs)
  split at he
  · cases he
    exact hs.trans (List.prefix_append _ _)
  · cases he

theorem Step.file_grows (h : Step B w w') : w.db.file <+: w'.db.file := by
  cases h with
  | set _ run => exact eval_prefix run
  | del _ run => exact eval_prefix run
  | current run => exact eval_prefix run
  | commit _ run => exact eval_prefix run
  | reject _ run => exact eval_prefix run
  | newIterator _ run => exact eval_prefix run
  | iterateFrom _ run => exact eval_prefix run
  | iteratorGoto _ run => exact eval_prefix run
  | iteratorNext _ run => exact eval_prefix run

/-- Versions stay known. -/
theorem Step.known (h : Step B w w') {v : Nat} (hk : w.Known v) : w'.Known v := by
  cases h with
  | set _ _ => exact hk.cons _ _
  | del _ _ => exact hk.cons _ _
  | current _ => exact hk
  | commit _ _ => exact hk
  | reject _ _ => exact hk
  | newIterator _ _ => exact hk
  | iterateFrom _ _ => exact hk
  | iteratorGoto _ _ => exact hk
  | iteratorNext _ _ => exact hk

theorem Headers.mono {file file' : Data} {P : Nat → Nat → Prop} {known : Nat → Prop}
    (hh : Headers B file P known) (hf : file <+: file') : Headers B file' P known :=
  ⟨hh.lineage, fun hp => (hh.header hp).mono hf, hh.parent, hh.bound⟩

/-! ## A long block -/

/-- A value that is set on the first key and makes the new leaf `2 ^ 32 + 14` bytes long. The
root is then taken to be 14 bytes behind the beginning of the leaf, which is where the value
begins. -/
theorem eval_longSet {x : Data} (hx : x.length = 2 ^ 32 - 9) :
    ∃ tail, tail.length = 34 ∧ eval (aodbmSet smallBuild 222 [1] x) fiveDb =
      .ok (284, fiveDb.append (Block.enc smallBuild
        (.data (Node.enc smallBuild (.leaf [([1], x), ([2], [])]) ++ tail)))) := by
  have hleaf : NodeAt smallBuild fiveDb.file 167 (.leaf [([1], []), ([2], [])]) :=
    ⟨segAt_iff.mpr (by decide +kernel), by simp [Node.Fits]⟩
  obtain ⟨nodes, hins, hl⟩ := insertIntoLeaf_one hleaf (by decide) [1] x
  have hup : upsert (rank smallBuild) [1] x [([1], []), ([2], [])] = [([1], x), ([2], [])] := rfl
  have hpend := hl.pend
  rw [hup] at hpend
  obtain ⟨a, rfl, ha⟩ : ∃ a, nodes = ⟨some a, some [1], none, none⟩ ∧
      aodbmRopeToData a = Node.enc smallBuild (.leaf [([1], x), ([2], [])]) := by
    cases hpend with
    | @one a ka na ha => exact ⟨a, rfl, ha⟩
  have htype : eval (readType (222 + 8)) fiveDb = .ok (branchType, fiveDb) := by decide +kernel
  have hpath : eval (aodbmSearchPath smallBuild 222 [1]) fiveDb =
      .ok ([⟨[], 167⟩, ⟨[], 230⟩], fiveDb) := by decide +kernel
  obtain ⟨b, hbranch, hb⟩ : ∃ b : Rope, eval (modifyBranch smallBuild 230 [] 270 (some [1]) 0
      none 167 0) fiveDb = .ok (⟨some b, some [1], none, none⟩, fiveDb) ∧
      (aodbmRopeToData b).length = 26 :=
    ⟨[[98], [0, 0, 0, 1], [0, 0, 0, 0, 0, 0, 1, 14], [0, 0, 0, 1], [3],
      [0, 0, 0, 0, 0, 0, 0, 190]], by decide +kernel, rfl⟩
  have hlen : (Node.enc smallBuild (.leaf [([1], x), ([2], [])])).length = 2 ^ 32 + 14 := by
    simp [Node.enc, hx]
  have hsize : (0 + aodbmRopeSize a) % 2 ^ 32 = 14 := by
    rw [ropeSize_eq, ha, hlen]
    decide
  have hloop : eval (setLoop smallBuild 270 [⟨[], 230⟩] aodbmRopeEmpty 0
      ⟨some a, some [1], none, none⟩ 167) fiveDb =
        .ok ((aodbmRopeMerge aodbmRopeEmpty a, 14, ⟨some b, some [1], none, none⟩), fiveDb) := by
    rw [setLoop, eval]
    simp only [deref, pure_bind, hsize]
    rw [run_bind_ok hbranch]
    rfl
  have hres : eval (setResult smallBuild 222 [1] x (265 + 5)) fiveDb = .ok (⟨aodbmRopeToData
      (aodbmRopeMerge (aodbmRopeMerge aodbmRopeEmpty a)
        (aodbmRopePrepend (aodbmDataFrom64 smallBuild 222) b)), 284⟩, fiveDb) := by
    rw [setResult, if_neg (by decide), eval, run_bind_ok htype, if_neg (by decide),
      run_bind_ok hpath]
    simp only
    rw [run_bind_ok hins, run_bind_ok hloop]
    rfl
  have hdata : aodbmRopeToData (aodbmRopeMerge (aodbmRopeMerge aodbmRopeEmpty a)
      (aodbmRopePrepend (aodbmDataFrom64 smallBuild 222) b)) =
        Node.enc smallBuild (.leaf [([1], x), ([2], [])]) ++
          (aodbmDataFrom64 smallBuild 222 ++ aodbmRopeToData b) := by
    rw [toData_merge, toData_merge, toData_empty, toData_prepend, List.nil_append, ha]
  refine ⟨aodbmDataFrom64 smallBuild 222 ++ aodbmRopeToData b, by simp [hb], ?_⟩
  have hsynced : fiveDb.Synced := ⟨fiveDb_length.symm, by rw [fiveDb_length]; decide⟩
  have hrun := eval_aodbmSet hsynced (by rw [fiveDb_length]; exact hres)
  rw [hdata, if_pos] at hrun
  · exact hrun
  · rw [data_enc_length, List.length_append, List.length_append, hlen, from64_length, hb,
      fiveDb_length]
    decide

theorem exists_longValue {decoy : Data} (h : decoy.length ≤ 2 ^ 32 - 9) :
    ∃ x : Data, x.length = 2 ^ 32 - 9 ∧ decoy <+: x := by
  refine ⟨decoy ++ List.replicate (2 ^ 32 - 9 - decoy.length) 0, ?_, List.prefix_append _ _⟩
  rw [List.length_append, List.length_replicate]
  omega

/-- The value, which begins with `decoy`, stands where the root is taken to be. -/
theorem longSet {decoy : Data} (h : decoy.length ≤ 2 ^ 32 - 9) : ∃ x db',
    eval (aodbmSet smallBuild 222 [1] x) fiveDb = .ok (284, db') ∧ db'.cur = 222 ∧
      db'.fileSize = db'.file.length ∧ db'.file.length = 2 ^ 32 + 318 ∧
      SegAt db'.file 284 decoy := by
  obtain ⟨x, hx, rest, rfl⟩ := exists_longValue h
  generalize hval : decoy ++ rest = x at hx
  obtain ⟨tail, htail, hset⟩ := eval_longSet hx
  have hlen : (Node.enc smallBuild (.leaf [([1], x), ([2], [])])).length = 2 ^ 32 + 14 := by
    simp [Node.enc, hx]
  have hvalue : SegAt (fiveDb.file ++ Block.enc smallBuild (.data (Node.enc smallBuild
      (.leaf [([1], x), ([2], [])]) ++ tail))) 284 (decoy ++ rest) := by
    have hseg := (segAt_end fiveDb.file (Block.enc smallBuild (.data (Node.enc smallBuild
      (.leaf [([1], x), ([2], [])]) ++ tail)))).right.left
    rw [fiveDb_length] at hseg
    have hleaf : NodeAt smallBuild (fiveDb.file ++ Block.enc smallBuild (.data (Node.enc smallBuild
        (.leaf [([1], x), ([2], [])]) ++ tail))) 270 (.leaf [([1], x), ([2], [])]) :=
      ⟨hseg, by simp [Node.Fits, hx]⟩
    rw [hval]
    exact hleaf.leafRecs.left.right.right
  refine ⟨x, _, hset, rfl, ?_, ?_, hvalue.left⟩
  · rw [Db.append, List.length_append, fiveDb_length]
    rfl
  · rw [Db.append, List.length_append, fiveDb_length, data_enc_length, List.length_append,
      htail, hlen]
    decide

/-- The version 284 was made from the version 222, which is current, but at its offset stands
the value, which begins with `decoy`. -/
structure Misplaced (decoy : Data) (w : World) : Prop where
  known : ∃ s ∈ w.snaps, s.ver = 284 ∧ s.prev = 222
  base : ∃ s ∈ w.snaps, s.ver = 222
  cur : w.db.cur = 222
  size : w.db.fileSize = w.db.file.length
  length : w.db.file.length = 2 ^ 32 + 318
  value : SegAt w.db.file 284 decoy

/-- The long value is set on the version 222. -/
theorem longStep {decoy : Data} (h : decoy.length ≤ 2 ^ 32 - 9) : ∃ x w w',
    Reachable smallBuild w ∧ (∃ s ∈ w.snaps, s.ver = 222) ∧
      eval (aodbmSet smallBuild 222 [1] x) w.db = .ok (284, w'.db) ∧ Reachable smallBuild w' ∧
      Misplaced decoy w' := by
  obtain ⟨x, db', hset, hcur, hsize, hlength, hvalue⟩ := longSet h
  obtain ⟨w, hshort, hdb, s, hs, hver⟩ := fiveDb_obtained
  have hw : Reachable smallBuild w := hshort.lift id fun _ _ h => h.1
  rw [← hdb] at hset
  have hstep := hset
  rw [← hver] at hstep
  exact ⟨x, w, _, hw, ⟨s, hs, hver⟩, hset, .tail hw (.set hs hstep),
    ⟨_, List.mem_cons_self, rfl, hver⟩, ⟨s, List.mem_cons_of_mem _ hs, hver⟩, hcur, hsize, hlength,
    hvalue⟩

theorem longRun {decoy : Data} (h : decoy.length ≤ 2 ^ 32 - 9) :
    ∃ w, Reachable smallBuild w ∧ Misplaced decoy w :=
  let ⟨_, _, w, _, _, _, hw, hm⟩ := longStep h
  ⟨w, hw, hm⟩

/-- Bytes that read as the header of a version without a predecessor, and as a root with one
child, which is beyond the end of the file. -/
def childless : Data :=
  aodbmDataFrom64 smallBuild 0 ++ Node.enc smallBuild (.branch (2 ^ 32 + 331) [])

theorem childlessRun : ∃ w, Reachable smallBuild w ∧ Misplaced childless w :=
  longRun (by decide +kernel)

theorem Misplaced.header (hm : Misplaced childless w) :
    SegAt w.db.file 284 (aodbmDataFrom64 smallBuild 0) := hm.value.left

theorem Misplaced.root (hm : Misplaced childless w) :
    NodeAt smallBuild w.db.file 292 (.branch (2 ^ 32 + 331) []) :=
  ⟨hm.value.right, by simp [Node.Fits]⟩

/-! ## Immutability -/

theorem ContentsAt.same_answers {db db' : Db} {ver : Nat} {rs : List Rec}
    (hc : ContentsAt B db.file ver rs) (hdb : db.Synced) (hdb' : db'.Synced)
    (hf : db.file <+: db'.file) (k : Data) :
    SameAnswer (aodbmGet B ver k) db db' ∧ SameAnswer (aodbmHas B ver k) db db' :=
  ⟨⟨_, hc.get hdb k, (hc.mono hf).get hdb' k⟩, ⟨_, hc.has hdb k, (hc.mono hf).has hdb' k⟩⟩

section Decoy
variable {db : Db} {ver c : Nat}

theorem eval_readType_eof {off : Nat} (h : db.file.length ≤ off) :
    eval (readType off) db = .error .eof := by
  have hread := eval_read_cases off 1 db
  rw [readFile_none (by decide) (by omega)] at hread
  rw [readType, eval, run_bind_error hread]

/-- A root without separators sends every key to its one child. -/
theorem eval_search_child (hver : ver ≠ 0) (hroot : NodeAt B db.file (ver + 8) (.branch c []))
    (k : Data) :
    eval (aodbmSearch B ver k) db = eval (aodbmSearchRecursive B k (2 ^ 64 - 1) c) db := by
  have hscan : ∀ c pos : Nat, eval (searchLoop B k ([] : List (Data × Nat)).length pos c) db =
      .ok (c, db) := fun _ _ => rfl
  rw [aodbmSearch, if_neg hver, maxDepth_eq, aodbmSearchRecursive, eval,
    run_bind_ok (eval_branchType hroot), if_neg (by decide), if_pos rfl,
    run_bind_ok (eval_branchCount hroot), run_bind_ok (eval_branchFirst hroot),
    run_bind_ok (hscan c (ver + 8 + 5 + 8))]

/-- The root has one child, which is beyond the end of the file. -/
theorem eval_get_beyond (hver : ver ≠ 0) (hroot : NodeAt B db.file (ver + 8) (.branch c []))
    (hc : db.file.length ≤ c) (k : Data) : eval (aodbmGet B ver k) db = .error .eof := by
  have hsearch : eval (aodbmSearch B ver k) db = .error .eof := by
    rw [eval_search_child hver hroot]
    exact run_bind_error (eval_readType_eof hc)
  rw [aodbmGet, if_neg hver, eval, run_bind_error hsearch]

theorem eval_newIterator_beyond (hver : ver ≠ 0) (hroot : NodeAt B db.file (ver + 8) (.branch c []))
    (hc : db.file.length ≤ c) : eval (aodbmNewIterator B ver) db = .error .eof := by
  have hbuild : eval (constructIterator B maxDepth [] (ver + 8)) db = .error .eof := by
    rw [maxDepth_eq, constructIterator, eval, run_bind_ok (eval_branchType hroot),
      run_bind_ok (eval_branchCount hroot), if_neg (by decide), if_pos rfl,
      run_bind_ok (eval_branchFirst hroot)]
    exact run_bind_error (eval_readType_eof hc)
  rw [aodbmNewIterator, if_pos hver, eval, run_bind_error hbuild]

end Decoy

/-- In a run with short blocks a new iterator over a version gives the records that
`aodbm_get` finds, each once and in increasing order, and `NULL` records behind them. -/
theorem iteration_complete (hw : ReachableShort B w) {s : Snapshot} (hs : s ∈ w.snaps) :
    ∃ (it : Iterator) (rs : List Rec), eval (aodbmNewIterator B s.ver) w.db = .ok (it, w.db) ∧
      rs.Pairwise (fun r t => aodbmDataLt B r.1 t.1 = true) ∧
      (∀ k x, (k, x) ∈ rs ↔ eval (aodbmGet B s.ver k) w.db = .ok (some x, w.db)) ∧
      ∀ n, eval (drain B n it) w.db =
        .ok ((rs.map some ++ List.replicate n none).take n, w.db) := by
  have hinv := inv_of_reachable hw
  obtain ⟨rs, hrs, _⟩ := hinv.contents hs
  obtain ⟨it, hnew, hit, _⟩ := hrs.newIterator hinv.synced.bound
  refine ⟨it, rs, hnew, hrs.sorted.imp (aodbmDataLt_iff B).mpr, fun k x => ?_,
    fun n => hit.drain hinv.synced.bound n⟩
  rw [hrs.get hinv.synced, mem_iff_lookup hrs.sorted]
  simp

/-- An iterator over a version whose root is a branch. -/
theorem iteration_complete_fiveSets :
    ∃ (it : Iterator) (rs : List Rec),
      eval (aodbmNewIterator smallBuild 222) fiveDb = .ok (it, fiveDb) ∧
      (∀ k x, (k, x) ∈ rs ↔ eval (aodbmGet smallBuild 222 k) fiveDb = .ok (some x, fiveDb)) ∧
      ∀ n, eval (drain smallBuild n it) fiveDb =
        .ok ((rs.map some ++ List.replicate n none).take n, fiveDb) := by
  obtain ⟨w, hw, hdb, s, hs, hver⟩ := fiveDb_obtained
  obtain ⟨it, rs, hnew, -, hget, hdrain⟩ := iteration_complete hw hs
  rw [hdb, hver] at hnew
  simp only [hdb, hver] at hget hdrain
  exact ⟨it, rs, hnew, hget, hdrain⟩

/-- After a long block no iterator can be opened over a version. -/
theorem iteration_broken : ∃ w, Reachable smallBuild w ∧ ∃ s ∈ w.snaps,
    eval (aodbmNewIterator smallBuild s.ver) w.db = .error .eof := by
  obtain ⟨w, hw, hm⟩ := childlessRun
  obtain ⟨s, hs, hver, _⟩ := hm.known
  have hlen := hm.length
  refine ⟨w, hw, s, hs, ?_⟩
  rw [hver]
  exact eval_newIterator_beyond (by decide) hm.root (by omega)

/-! ## Seeking -/

/-- In a run with short blocks an iterator over a version other than 0 that is moved to a
key, whatever its state, and a new iterator from the key, give the records that a full
iteration gives, less those below the key. -/
theorem seek_complete (hw : ReachableShort B w) {s : Snapshot} (hs : s ∈ w.snaps)
    (hver : s.ver ≠ 0) :
    ∃ rs : List Rec, rs.Pairwise (fun r t => aodbmDataLt B r.1 t.1 = true) ∧
      (∀ q x, (q, x) ∈ rs ↔ eval (aodbmGet B s.ver q) w.db = .ok (some x, w.db)) ∧
      (∃ full, eval (aodbmNewIterator B s.ver) w.db = .ok (full, w.db) ∧
        ∀ n, eval (drain B n full) w.db =
          .ok ((rs.map some ++ List.replicate n none).take n, w.db)) ∧
      ∀ (k : Data) (it : Iterator), it.ver = s.ver →
        ∃ it', eval (aodbmIteratorGoto B it k) w.db = .ok (it', w.db) ∧
          eval (aodbmIterateFrom B s.ver k) w.db = .ok (it', w.db) ∧
          ∀ n, eval (drain B n it') w.db = .ok ((((rs.filter fun r : Rec =>
            !aodbmDataLt B r.1 k).map some) ++ List.replicate n none).take n, w.db) := by
  have hinv := inv_of_reachable hw
  have hf := hinv.synced.bound
  obtain ⟨rs, hrs, _⟩ := hinv.contents hs
  obtain ⟨full, hnew, hfull, _⟩ := hrs.newIterator hf
  refine ⟨rs, hrs.sorted.imp (aodbmDataLt_iff B).mpr, fun q x => ?_,
    ⟨full, hnew, fun n => hfull.drain hf n⟩, fun k it hit => ?_⟩
  · rw [hrs.get hinv.synced, mem_iff_lookup hrs.sorted]
    simp
  · have ht : TreeAt B w.db.file (s.ver + 8) rs := by
      rcases hrs with ⟨h0, _⟩ | ⟨_, ht⟩
      · exact absurd h0 hver
      · exact ht
    obtain ⟨it', hgoto, hit', _⟩ := eval_iteratorGoto ht hf hit k
    obtain ⟨it'', hfrom, _, _⟩ :=
      eval_iteratorGoto ht hf (show (Iterator.mk [] s.ver).ver = s.ver from rfl) k
    -- the old stack is not read
    have hsame : it'' = it' := by
      have hstack : eval (aodbmIteratorGoto B it k) w.db =
          eval (aodbmIteratorGoto B ⟨[], s.ver⟩ k) w.db := by
        rw [aodbmIteratorGoto, aodbmIteratorGoto, hit]
      rw [hstack, hfrom] at hgoto
      cases hgoto
      rfl
    have hfilter : (rs.filter fun r => !aodbmDataLt B r.1 k) =
        rs.filter fun r => rank B k ≤ rank B r.1 :=
      List.filter_congr fun r _ => aodbmDataGe_eq B r.1 k
    refine ⟨it', hgoto, hsame ▸ hfrom, fun n => ?_⟩
    rw [hfilter]
    exact hit'.drain hf n

/-- A version whose root is a branch, from the separator on, which leads to the second leaf. -/
theorem seek_complete_fiveSets :
    ∃ it', eval (aodbmIterateFrom smallBuild 222 [3]) fiveDb = .ok (it', fiveDb) ∧
      ∃ rs : List Rec, ∀ n, eval (drain smallBuild n it') fiveDb =
        .ok ((((rs.filter fun r : Rec => !aodbmDataLt smallBuild r.1 [3]).map some) ++
          List.replicate n none).take n, fiveDb) := by
  obtain ⟨w, hw, hdb, s, hs, hver⟩ := fiveDb_obtained
  obtain ⟨rs, -, -, -, hseek⟩ := seek_complete hw hs (by omega)
  obtain ⟨it', -, hfrom, hdrain⟩ := hseek [3] ⟨[], 222⟩ hver.symm
  rw [hdb, hver] at hfrom
  simp only [hdb] at hdrain
  exact ⟨it', hfrom, rs, hdrain⟩

/-- After a long block no iterator can be opened at a key either. -/
theorem seek_broken : ∃ w, Reachable smallBuild w ∧ ∃ s ∈ w.snaps, s.ver ≠ 0 ∧
    eval (aodbmIterateFrom smallBuild s.ver []) w.db = .error .eof := by
  obtain ⟨w, hw, hm⟩ := childlessRun
  obtain ⟨s, hs, hver, _⟩ := hm.known
  have hlen := hm.length
  have hscan : eval (gotoBranchLoop smallBuild [] ([] : List (Data × Nat)).length 0
      (284 + 8 + 5 + 8) (2 ^ 32 + 331)) w.db =
        .ok ((0, 284 + 8 + 5 + 8, 2 ^ 32 + 331), w.db) := rfl
  have hgoto : eval (iteratorGotoRecursive smallBuild [] maxDepth [] (284 + 8)) w.db =
      .error .eof := by
    rw [maxDepth_eq, iteratorGotoRecursive, eval, run_bind_ok (eval_branchType hm.root),
      run_bind_ok (eval_branchCount hm.root), if_neg (by decide), if_pos rfl,
      run_bind_ok (eval_branchFirst hm.root), run_bind_ok hscan]
    exact run_bind_error (eval_readType_eof (by omega))
  refine ⟨w, hw, s, hs, by omega, ?_⟩
  rw [hver, aodbmIterateFrom, aodbmIteratorGoto, eval, run_bind_error hgoto]

end Aodbm
