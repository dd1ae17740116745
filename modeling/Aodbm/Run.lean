import Aodbm.Operations
import Aodbm.Ancestry
import Aodbm.Iteration
import Mathlib.Logic.Function.Basic

/-!
# Runs

A `World` is the handle together with what its clients have obtained: the versions, each
with the map it stands for, the iterators, and the commits that succeeded. `Step` is one
completed call of one client, on any version or iterator that was obtained before, so a
run is any interleaving of any number of clients at the granularity of calls.

`Inv` is the invariant of the runs whose data blocks are shorter than `2 ^ 32` bytes.

Results:
1. `Inv.step`: every call keeps the invariant.
2. `inv_of_reachable`: every state that short blocks lead to has it.
-/

namespace Aodbm

open Effects Records Bytes History

variable (B : Build)

/-- A version that was returned: the version it was made from and the map it stands for. -/
structure Snapshot where
  ver : Nat
  prev : Nat
  contents : Data → Option Data

/-- A commit that was accepted: its version and the end of its record in the file. -/
structure Commit where
  ver : Nat
  fin : Nat

/-- See the module description. The newest commit is the first. -/
structure World where
  db : Db
  snaps : List Snapshot
  commits : List Commit
  iters : List Iterator

/-- An empty file; version 0 is the empty map. -/
def World.init : World := ⟨Db.empty, [⟨0, 0, fun _ => none⟩], [], []⟩

/-- One completed call. -/
inductive Step : World → World → Prop where
  | set {w : World} {s : Snapshot} {k x : Data} {v : Nat} {db : Db} (known : s ∈ w.snaps)
      (run : eval (aodbmSet B s.ver k x) w.db = .ok (v, db)) :
      Step w { w with
        db := db, snaps := ⟨v, s.ver, Function.update s.contents k (some x)⟩ :: w.snaps }
  | del {w : World} {s : Snapshot} {k : Data} {v : Nat} {db : Db} (known : s ∈ w.snaps)
      (run : eval (aodbmDel B s.ver k) w.db = .ok (v, db)) :
      Step w { w with
        db := db
        snaps := ⟨v, if v = s.ver then s.prev else s.ver,
          Function.update s.contents k none⟩ :: w.snaps }
  | current {w : World} {v : Nat} {db : Db} (run : eval aodbmCurrent w.db = .ok (v, db)) :
      Step w { w with db := db }
  | commit {w : World} {s : Snapshot} {db : Db} (known : s ∈ w.snaps)
      (run : eval (aodbmCommit B s.ver) w.db = .ok (true, db)) :
      Step w { w with db := db, commits := ⟨s.ver, db.file.length⟩ :: w.commits }
  | reject {w : World} {s : Snapshot} {db : Db} (known : s ∈ w.snaps)
      (run : eval (aodbmCommit B s.ver) w.db = .ok (false, db)) :
      Step w { w with db := db }
  | newIterator {w : World} {s : Snapshot} {it : Iterator} {db : Db} (known : s ∈ w.snaps)
      (run : eval (aodbmNewIterator B s.ver) w.db = .ok (it, db)) :
      Step w { w with db := db, iters := it :: w.iters }
  | iterateFrom {w : World} {s : Snapshot} {k : Data} {it : Iterator} {db : Db}
      (known : s ∈ w.snaps) (run : eval (aodbmIterateFrom B s.ver k) w.db = .ok (it, db)) :
      Step w { w with db := db, iters := it :: w.iters }
  | iteratorGoto {w : World} {it it' : Iterator} {k : Data} {db : Db} (opened : it ∈ w.iters)
      (run : eval (aodbmIteratorGoto B it k) w.db = .ok (it', db)) :
      Step w { w with db := db, iters := it' :: w.iters }
  | iteratorNext {w : World} {it it' : Iterator} {r : Option Rec} {db : Db}
      (opened : it ∈ w.iters) (run : eval (aodbmIteratorNext B it) w.db = .ok ((r, it'), db)) :
      Step w { w with db := db, iters := it' :: w.iters }

/-- The block that the call wrote, if any, has a payload shorter than `2 ^ 32` bytes. -/
def Short (w w' : World) : Prop := w'.db.file.length < w.db.file.length + (5 + 2 ^ 32)

instance (w w' : World) : Decidable (Short w w') := inferInstanceAs (Decidable (_ < _))

/-- States of runs without restriction. -/
def Reachable (w : World) : Prop := Relation.ReflTransGen (Step B) World.init w

/-- A call that writes a short block, or none. -/
def ShortStep (w w' : World) : Prop := Step B w w' ∧ Short w w'

/-- States of runs with short blocks. -/
def ReachableShort (w : World) : Prop := Relation.ReflTransGen (ShortStep B) World.init w

/-- The version was returned to a client, or is version 0. -/
def World.Known (w : World) (v : Nat) : Prop := ∃ s ∈ w.snaps, s.ver = v

/-- `a` was made from `p`. -/
def World.Parent (w : World) (a p : Nat) : Prop := ∃ s ∈ w.snaps, s.ver = a ∧ s.prev = p ∧ a ≠ 0

/-- `a` is `b` or was made from it in some steps. -/
def World.BasedOn (w : World) (a b : Nat) : Prop := Based w.Parent a b

/-! ## The invariant -/

/-- The version and all versions it is based on stand in the file. -/
inductive Hist (file : Data) : Nat → Prop where
  | zero : Hist file 0
  | ver {v p : Nat} {rs : List Rec} (at_ : VersionAt B file v p rs) (lt : p < v)
      (prev : Hist file p) : Hist file v

/-- The file holds what the version stands for. -/
structure SnapAt (file : Data) (s : Snapshot) : Prop where
  contents : ∃ rs, ContentsAt B file s.ver rs ∧ ∀ q, s.contents q = rs.lookup q
  header : s.ver ≠ 0 → s.prev < s.ver ∧ SegAt file s.ver (aodbmDataFrom64 B s.prev)
  hist : Hist B file s.ver

/-- The blocks of the file. Each version that was committed stands before its record with
all versions it is based on, and only data blocks follow the record of the last commit. -/
structure Layout (w : World) (bs : List Block) : Prop where
  file : w.db.file = encBlocks B bs
  fits : ∀ b ∈ bs, b.Fits
  cur : w.db.cur = lastVersion 0 bs
  stored : ∀ {bs₁ bs₂ : List Block} {v : Nat}, bs = bs₁ ++ .version v :: bs₂ →
    Hist B (encBlocks B bs₁) v
  last : ∀ c ∈ w.commits.head?, ∃ bs₁ bs₂, bs = bs₁ ++ .version c.ver :: bs₂ ∧
    c.fin = (encBlocks B (bs₁ ++ [.version c.ver])).length ∧ ∀ b ∈ bs₂, ∃ p, b = .data p

structure Inv (w : World) : Prop where
  synced : w.db.Synced
  layout : ∃ bs, Layout B w bs
  snaps : ∀ s ∈ w.snaps, SnapAt B w.db.file s
  parents : ∀ s ∈ w.snaps, w.Known s.prev
  zero : w.Known 0
  cur : w.Known w.db.cur
  head : ∀ c ∈ w.commits.head?, c.ver = w.db.cur
  fresh : w.commits = [] → w.db.cur = 0
  chain : (w.commits.map Commit.ver).Pairwise w.BasedOn
  iters : ∀ it ∈ w.iters, w.Known it.ver ∧ ∃ rem, IterAt B w.db.file it rem
  /-- What a reader at offset 8 finds, were it to take 0 for the offset of a version. -/
  front : w.db.file = [] ∨ SegAt w.db.file 8 [0]

variable {B}
variable {w w' : World} {file file' : Data}

theorem VersionAt.mono {v p : Nat} {rs : List Rec} (hv : VersionAt B file v p rs)
    (hf : file <+: file') : VersionAt B file' v p rs :=
  ⟨hv.header.mono hf, hv.tree.mono hf⟩

theorem ContentsAt.mono {v : Nat} {rs : List Rec} (hc : ContentsAt B file v rs)
    (hf : file <+: file') : ContentsAt B file' v rs :=
  hc.imp_right fun h => ⟨h.1, h.2.mono hf⟩

theorem Hist.mono {v : Nat} (hh : Hist B file v) (hf : file <+: file') : Hist B file' v := by
  induction hh with
  | zero => exact .zero
  | ver hat hlt _ ih => exact .ver (hat.mono hf) hlt ih

theorem SnapAt.mono {s : Snapshot} (hs : SnapAt B file s) (hf : file <+: file') :
    SnapAt B file' s := by
  obtain ⟨⟨rs, hrs, hq⟩, hheader, hhist⟩ := hs
  exact ⟨⟨rs, hrs.mono hf, hq⟩, fun h => ⟨(hheader h).1, (hheader h).2.mono hf⟩, hhist.mono hf⟩

theorem ContentsAt.ver_lt {v : Nat} {rs : List Rec} (hc : ContentsAt B file v rs)
    (hv : v ≠ 0) : v + 8 < file.length := by
  obtain ⟨h0, _⟩ | ⟨_, ht⟩ := hc
  · exact absurd h0 hv
  have hnode : ∃ n, NodeAt B file (v + 8) n := by
    rcases ht with ⟨hn, _⟩ | ⟨_, n, hn, _⟩
    · exact ⟨_, hn⟩
    · exact ⟨n, hn⟩
  obtain ⟨n, hn⟩ := hnode
  have hlen : 0 < (n.enc B).length := by cases n <;> simp [Node.enc]
  have := hn.seg.le
  omega

/-- In an empty file there is only version 0. -/
theorem SnapAt.ver_eq_zero {s : Snapshot} (hs : SnapAt B file s) (hf : file = []) : s.ver = 0 := by
  obtain ⟨rs, hrs, _⟩ := hs.contents
  by_contra h0
  have := hrs.ver_lt h0
  simp [hf] at this

/-- The invariant gives the ancestry walks what they rely on. -/
theorem Inv.headers (hw : Inv B w) : Headers B w.db.file w.Parent w.Known where
  lineage := {
    unique := by
      rintro a b c ⟨s, hs, rfl, rfl, ha⟩ ⟨t, ht, hts, rfl, _⟩
      obtain ⟨hlt, hseg⟩ := (hw.snaps s hs).header ha
      obtain ⟨hlt', hseg'⟩ := (hw.snaps t ht).header (hts ▸ ha)
      obtain ⟨rs, hc, _⟩ := (hw.snaps s hs).contents
      have hbound := hc.ver_lt ha
      have hf := hw.synced.bound
      have heq := hseg.unique (hts ▸ hseg') (by simp)
      rw [← to64_from64 (B := B) (n := s.prev) (by omega), heq, to64_from64 (by omega)]
    older := by
      rintro a b ⟨s, hs, rfl, rfl, ha⟩
      exact ((hw.snaps s hs).header ha).1 }
  header := by
    rintro a p ⟨s, hs, rfl, rfl, ha⟩
    exact ((hw.snaps s hs).header ha).2
  parent := by
    rintro a ⟨s, hs, rfl⟩ ha
    exact ⟨s.prev, ⟨s, hs, rfl, rfl, ha⟩, hw.parents s hs⟩
  bound := by
    rintro a ⟨s, hs, rfl⟩
    by_cases ha : s.ver = 0
    · omega
    · obtain ⟨rs, hc, _⟩ := (hw.snaps s hs).contents
      have := hc.ver_lt ha
      have := hw.synced.bound
      omega

/-! ## The calls keep the invariant -/

theorem Inv.init : Inv B World.init where
  synced := ⟨rfl, by simp [World.init, Db.empty]⟩
  layout := ⟨[], rfl, by simp, rfl, by simp, by simp [World.init]⟩
  snaps := by
    intro s hs
    rw [List.mem_singleton.mp hs]
    exact ⟨⟨[], Or.inl ⟨rfl, rfl⟩, fun _ => rfl⟩, fun h => absurd rfl h, .zero⟩
  parents := by
    intro s hs
    rw [List.mem_singleton.mp hs]
    exact ⟨_, List.mem_singleton_self _, rfl⟩
  zero := ⟨_, List.mem_singleton_self _, rfl⟩
  cur := ⟨_, List.mem_singleton_self _, rfl⟩
  head := by simp [World.init]
  fresh := fun _ => rfl
  chain := List.Pairwise.nil
  iters := by simp [World.init]
  front := Or.inl rfl

theorem World.Known.cons {v : Nat} (h : w.Known v) (db : Db) (s : Snapshot) :
    World.Known { w with db := db, snaps := s :: w.snaps } v :=
  let ⟨t, ht, htv⟩ := h
  ⟨t, List.mem_cons_of_mem _ ht, htv⟩

theorem World.BasedOn.cons {a b : Nat} (h : w.BasedOn a b) (db : Db) (s : Snapshot) :
    World.BasedOn { w with db := db, snaps := s :: w.snaps } a b :=
  Based.mono (fun _ _ ⟨t, ht, h⟩ => ⟨t, List.mem_cons_of_mem _ ht, h⟩) h

/-- An update that appended a short block. -/
theorem Inv.update (hw : Inv B w) {s : Snapshot} (hs : s ∈ w.snaps) {new : List Rec} {op : Op Nat}
    {payload : Data} {root : Nat} (hu : Updates B w.db s.ver new op payload root)
    (hfits : w.db.file.length + (Block.enc B (.data payload)).length < 2 ^ 63)
    (hlen : payload.length < 2 ^ 32) {c : Data → Option Data} (hc : ∀ q, c q = new.lookup q) :
    Inv B { w with
      db := w.db.append (Block.enc B (.data payload)), snaps := ⟨root, s.ver, c⟩ :: w.snaps } := by
  have hpre : w.db.file <+: w.db.file ++ Block.enc B (.data payload) := List.prefix_append _ _
  have hver := hu.version hlen
  have hroot := hu.above
  have hlt : s.ver < root := by
    obtain ⟨rs, hrs, _⟩ := (hw.snaps s hs).contents
    by_cases h0 : s.ver = 0
    · omega
    · have := hrs.ver_lt h0
      omega
  obtain ⟨bs, hbs⟩ := hw.layout
  refine ⟨⟨?_, ?_⟩, ⟨bs ++ [.data payload], ?_, ?_, ?_, ?_, ?_⟩, ?_, ?_, hw.zero.cons _ _,
    hw.cur.cons _ _, hw.head, hw.fresh, ?_, ?_, ?_⟩
  · simp [Db.append, hw.synced.size]
  · simpa [Db.append] using hfits
  · simp [Db.append, hbs.file]
  · intro b hb
    rcases List.mem_append.mp hb with hb | hb
    · exact hbs.fits b hb
    · rw [List.mem_singleton.mp hb]
      exact hlen
  · rw [lastVersion_append]
    exact hbs.cur
  · intro bs₁ bs₂ v h
    -- a version record of the new file is one of the old file
    obtain ⟨bs₂, rfl⟩ : ∃ t, bs₂ = t ++ [.data payload] := by
      rcases List.eq_nil_or_concat bs₂ with rfl | ⟨t, b, rfl⟩
      · have := (List.append_inj' h rfl).2
        simp at this
      · rw [List.concat_eq_append, ← List.cons_append, ← List.append_assoc] at h
        have hb := (List.append_inj' h rfl).2
        exact ⟨t, by rw [List.concat_eq_append, ← hb]⟩
    rw [← List.cons_append, ← List.append_assoc] at h
    exact hbs.stored (List.append_inj' h rfl).1
  · intro c' hc'
    obtain ⟨bs₁, bs₂, h1, h2, h3⟩ := hbs.last c' hc'
    refine ⟨bs₁, bs₂ ++ [.data payload], by rw [h1]; simp, h2, fun b hb => ?_⟩
    rcases List.mem_append.mp hb with hb | hb
    · exact h3 b hb
    · exact ⟨payload, List.mem_singleton.mp hb⟩
  · intro t ht
    rcases List.mem_cons.mp ht with rfl | ht
    · exact ⟨⟨new, Or.inr ⟨by simp only; omega, hver.tree⟩, hc⟩, fun _ => ⟨hlt, hver.header⟩,
        .ver hver hlt ((hw.snaps s hs).hist.mono hpre)⟩
    · exact (hw.snaps t ht).mono hpre
  · intro t ht
    rcases List.mem_cons.mp ht with rfl | ht
    · exact World.Known.cons ⟨s, hs, rfl⟩ _ _
    · exact (hw.parents t ht).cons _ _
  · exact hw.chain.imp fun h => h.cons _ _
  · intro it hit
    obtain ⟨hk, rem, hrem⟩ := hw.iters it hit
    exact ⟨hk.cons _ _, rem, hrem.mono hpre⟩
  · right
    rcases hw.front with h | h
    · -- the first data block begins with the header of a version made from version 0
      have h0 : s.ver = 0 := (hw.snaps s hs).ver_eq_zero h
      have hheader := hver.header
      rw [hu.first h0, h0, from64_zero, h] at hheader
      have hzeros : SegAt ([] ++ Block.enc B (.data payload)) 5
          ([0, 0, 0] ++ ([0] ++ [0, 0, 0, 0])) := hheader
      simpa [Db.append, h] using hzeros.right.left
    · exact h.mono hpre

/-- An iterator that was obtained. -/
theorem Inv.opened (hw : Inv B w) {it : Iterator} {rem : List Rec} (hk : w.Known it.ver)
    (hit : IterAt B w.db.file it rem) : Inv B { w with iters := it :: w.iters } := by
  refine ⟨hw.synced, hw.layout.imp fun bs hbs => ⟨hbs.file, hbs.fits, hbs.cur, hbs.stored,
    hbs.last⟩, hw.snaps, hw.parents, hw.zero, hw.cur, hw.head, hw.fresh, hw.chain, ?_, hw.front⟩
  intro it' hit'
  rcases List.mem_cons.mp hit' with rfl | hit'
  · exact ⟨hk, rem, hit⟩
  · exact hw.iters it' hit'

/-- A version that is returned once more, as by `aodbm_del` of an absent key. -/
theorem Inv.again (hw : Inv B w) {s : Snapshot} (hs : s ∈ w.snaps) :
    Inv B { w with snaps := s :: w.snaps } := by
  have hmem : ∀ t ∈ s :: w.snaps, t ∈ w.snaps := fun t ht =>
    (List.mem_cons.mp ht).elim (fun h => h ▸ hs) id
  refine ⟨hw.synced, hw.layout.imp fun bs hbs => ⟨hbs.file, hbs.fits, hbs.cur, hbs.stored,
    hbs.last⟩, fun t ht => hw.snaps t (hmem t ht), fun t ht => (hw.parents t (hmem t ht)).cons _ _,
    hw.zero.cons _ _, hw.cur.cons _ _, hw.head, hw.fresh, hw.chain.imp fun h => h.cons _ _,
    fun it hit => ?_, hw.front⟩
  obtain ⟨hk, hrem⟩ := hw.iters it hit
  exact ⟨hk.cons _ _, hrem⟩

/-- A commit that was accepted. -/
theorem Inv.committed (hw : Inv B w) {s : Snapshot} (hs : s ∈ w.snaps)
    (hbased : w.BasedOn s.ver w.db.cur)
    (hfits : w.db.file.length + (Block.enc B (.version s.ver)).length < 2 ^ 63) :
    Inv B { w with
      db := { w.db.append (Block.enc B (.version s.ver)) with cur := s.ver }
      commits := ⟨s.ver, (w.db.append (Block.enc B (.version s.ver))).file.length⟩ ::
        w.commits } := by
  have hpre : w.db.file <+: w.db.file ++ Block.enc B (.version s.ver) := List.prefix_append _ _
  have hs' := hw.snaps s hs
  have hbound := hw.headers.bound ⟨s, hs, rfl⟩
  obtain ⟨bs, hbs⟩ := hw.layout
  refine ⟨⟨?_, ?_⟩, ⟨bs ++ [.version s.ver], ?_, ?_, ?_, ?_, ?_⟩, ?_, hw.parents, hw.zero,
    ⟨s, hs, rfl⟩, ?_, ?_, ?_, ?_, ?_⟩
  · simp [Db.append, hw.synced.size]
  · simpa [Db.append] using hfits
  · simp [Db.append, hbs.file]
  · intro b hb
    rcases List.mem_append.mp hb with hb | hb
    · exact hbs.fits b hb
    · rw [List.mem_singleton.mp hb]
      exact lt_trans hbound (by decide)
  · rw [lastVersion_append]
    rfl
  · intro bs₁ bs₂ v h
    rcases List.eq_nil_or_concat bs₂ with rfl | ⟨t, b, rfl⟩
    · -- the new record: the version and its ancestors stand in the old file
      obtain ⟨rfl, hv⟩ := List.append_inj' h rfl
      simp only [List.cons.injEq, Block.version.injEq, and_true] at hv
      rw [← hbs.file, ← hv]
      exact hs'.hist
    · rw [List.concat_eq_append, ← List.cons_append, ← List.append_assoc] at h
      exact hbs.stored (List.append_inj' h rfl).1
  · intro c hc
    simp only [List.head?_cons, Option.mem_def, Option.some.injEq] at hc
    subst hc
    exact ⟨bs, [], rfl, by simp [Db.append, hbs.file], by simp⟩
  · exact fun t ht => (hw.snaps t ht).mono hpre
  · intro c hc
    simp only [List.head?_cons, Option.mem_def, Option.some.injEq] at hc
    subst hc
    rfl
  · intro h
    cases h
  · -- the last commit before this one was of the version that was current
    refine pairwise_commit hw.chain fun c hc => ?_
    cases hcs : w.commits with
    | nil => simp [hcs] at hc
    | cons d ds =>
      simp only [hcs, List.map_cons, List.head?_cons, Option.mem_def, Option.some.injEq] at hc
      subst hc
      rw [hw.head d (by simp [hcs])]
      exact hbased
  · intro it hit
    obtain ⟨hk, rem, hrem⟩ := hw.iters it hit
    exact ⟨hk, rem, hrem.mono hpre⟩
  · right
    rcases hw.front with h | h
    · -- the first record is for version 0
      have h0 : s.ver = 0 := hs'.ver_eq_zero h
      refine ⟨[versionBlock, 0, 0, 0, 0, 0, 0, 0], [], ?_, rfl⟩
      simp [Db.append, h, h0, Block.enc, from64_zero]
    · exact h.mono hpre

/-- An iterator over version 0 cannot be moved: the byte at offset 8 is no node. -/
theorem seek_zero {db : Db} (hfront : db.file = [] ∨ SegAt db.file 8 [0]) {it : Iterator}
    (h0 : it.ver = 0) (k : Data) :
    eval (aodbmIteratorGoto B it k) db = .error .eof ∨
      eval (aodbmIteratorGoto B it k) db = .error .unknownNodeType := by
  rw [aodbmIteratorGoto, h0, maxDepth_eq, iteratorGotoRecursive, eval]
  -- what is read at offset 8 is the end of the file or a byte 0, which is no node type
  rcases hfront with h | h
  · have hnone : readFile db.file (0 + 8) 1 = none := by
      rw [h]
      rfl
    have htype : run Db.handle (readType (0 + 8)) db = .error .eof := by
      have := eval_read_cases (0 + 8) 1 db
      rw [hnone] at this
      rw [readType, run_bind_error this]
    left
    rw [run_bind_error (run_bind_error htype)]
  · have htype : run Db.handle (readType (0 + 8)) db = .ok (0, db) := eval_readType h
    cases hsize : readFile db.file (0 + 8 + 1) 4 with
    | none =>
      have hcount : run Db.handle (aodbmRead32 B (0 + 8 + 1)) db = .error .eof := by
        have := eval_read_cases (0 + 8 + 1) 4 db
        rw [hsize] at this
        rw [aodbmRead32, run_bind_error this]
      left
      rw [run_bind_error]
      rw [run_bind_ok htype, run_bind_error hcount]
    | some bs =>
      have hcount : run Db.handle (aodbmRead32 B (0 + 8 + 1)) db = .ok (to32 B bs, db) := by
        have := eval_read_cases (0 + 8 + 1) 4 db
        rw [hsize] at this
        rw [aodbmRead32, run_bind_ok this]
        rfl
      right
      rw [run_bind_error]
      rw [run_bind_ok htype, run_bind_ok hcount, if_neg (by decide), if_neg (by decide)]
      rfl

/-- The records of a known version. -/
theorem Inv.contents (hw : Inv B w) {s : Snapshot} (hs : s ∈ w.snaps) :
    ∃ rs, ContentsAt B w.db.file s.ver rs ∧ ∀ q, s.contents q = rs.lookup q :=
  (hw.snaps s hs).contents

/-- What a seek leaves when it returns. -/
theorem Inv.seek (hw : Inv B w) {it it' : Iterator} {k : Data} {db : Db} (hk : w.Known it.ver)
    (run : eval (aodbmIteratorGoto B it k) w.db = .ok (it', db)) :
    db = w.db ∧ it'.ver = it.ver ∧ ∃ rem, IterAt B w.db.file it' rem := by
  by_cases h0 : it.ver = 0
  · rcases seek_zero (B := B) hw.front h0 k with h | h <;> rw [h] at run <;> cases run
  · obtain ⟨s, hs, hver⟩ := hk
    obtain ⟨rs, hrs, _⟩ := hw.contents hs
    rcases hrs with ⟨h, _⟩ | ⟨_, ht⟩
    · exact absurd (hver ▸ h) h0
    · obtain ⟨it'', heval, hit, hver'⟩ := eval_iteratorGoto ht hw.synced.bound hver.symm k
      rw [heval] at run
      cases run
      exact ⟨rfl, hver'.trans hver, _, hit⟩

/-- Every completed call that writes a short block, or none, keeps the invariant. -/
theorem Inv.step (hw : Inv B w) (h : ShortStep B w w') : Inv B w' := by
  obtain ⟨hstep, hshort⟩ := h
  have hf := hw.synced.bound
  cases hstep with
  | @set s k x v db known run =>
    obtain ⟨rs, hrs, hq⟩ := hw.contents known
    obtain ⟨payload, root, hu⟩ := hrs.set hw.synced k x
    rw [hu.run] at run
    split at run
    · next hfits =>
      cases run
      have hlen : payload.length < 2 ^ 32 := by
        simp only [Short, Db.append, List.length_append, data_enc_length] at hshort
        omega
      refine hw.update known hu hfits hlen fun q => ?_
      rw [lookup_upsert rs hrs.sorted k q x, Function.update_apply, hq]
    · cases run
  | @del s k v db known run =>
    obtain ⟨rs, hrs, hq⟩ := hw.contents known
    have hnew : ∀ q, Function.update s.contents k none q = (erase k rs).lookup q := by
      intro q
      rw [lookup_erase, Function.update_apply, hq]
    -- without the key `aodbm_del` writes nothing and returns the version it was given
    cases hk : rs.lookup k with
    | none =>
      rw [hrs.del_absent hw.synced hk] at run
      cases run
      have hsame : Function.update s.contents k none = s.contents :=
        Function.update_eq_self_iff.mpr ((hq k).trans hk).symm
      rw [if_pos rfl, hsame]
      exact hw.again known
    | some y =>
      obtain ⟨payload, root, hu⟩ := hrs.del hw.synced (k := k) (by rw [hk]; rfl)
      rw [hu.run] at run
      split at run
      · next hfits =>
        cases run
        have hlen : payload.length < 2 ^ 32 := by
          simp only [Short, Db.append, List.length_append, data_enc_length] at hshort
          omega
        -- the new root stands behind the old end of the file
        have hne : v ≠ s.ver := by
          have := hu.above
          by_cases h0 : s.ver = 0
          · omega
          · have := hrs.ver_lt h0
            omega
        rw [if_neg hne]
        exact hw.update known hu hfits hlen hnew
      · cases run
  | current run =>
    cases run
    exact hw
  | @commit s db known run =>
    obtain ⟨r, hr, heval⟩ := eval_commit hw.headers ⟨s, known, rfl⟩
    rw [heval] at run
    cases r with
    | false => cases run
    | true =>
      rw [if_pos rfl] at run
      split at run
      · next hfits =>
        cases run
        exact hw.committed known (hr.mp rfl) hfits
      · cases run
  -- a refused commit has written nothing
  | @reject s db known run =>
    obtain ⟨r, hr, heval⟩ := eval_commit hw.headers ⟨s, known, rfl⟩
    rw [heval] at run
    cases r with
    | false =>
      cases run
      exact hw
    | true =>
      rw [if_pos rfl] at run
      split at run <;> cases run
  | @newIterator s it db known run =>
    obtain ⟨rs, hrs, _⟩ := hw.contents known
    obtain ⟨it', heval, hit, hver⟩ := hrs.newIterator hf
    rw [heval] at run
    cases run
    exact hw.opened ⟨s, known, hver.symm⟩ hit
  | @iterateFrom s k it db known run =>
    have hk : w.Known s.ver := ⟨s, known, rfl⟩
    obtain ⟨rfl, hver, rem, hit⟩ := hw.seek hk run
    exact hw.opened (hver ▸ hk) hit
  | @iteratorGoto it it' k db opened run =>
    obtain ⟨hk, _⟩ := hw.iters it opened
    obtain ⟨rfl, hver, rem, hit⟩ := hw.seek hk run
    exact hw.opened (hver ▸ hk) hit
  | @iteratorNext it it' r db opened run =>
    obtain ⟨hk, rem, hit⟩ := hw.iters it opened
    obtain ⟨it'', heval, hit', hver⟩ := hit.next hf
    rw [heval] at run
    cases run
    exact hw.opened (hver ▸ hk) hit'

/-- Every state of a run with short blocks has the invariant. -/
theorem inv_of_reachable (h : ReachableShort B w) : Inv B w := by
  induction h with
  | refl => exact Inv.init
  | tail _ hstep ih => exact ih.step hstep

/-- `aodbm_open` on the whole file finds the state of the handle. -/
theorem Inv.reopen (hw : Inv B w) : aodbmOpen B w.db.file = .ok w.db := by
  obtain ⟨bs, hbs⟩ := hw.layout
  have hopen := openBlocks (B := B) hbs.fits torn_nil
  rw [List.append_nil, ← hbs.file, ← hbs.cur, ← hw.synced.size] at hopen
  exact hopen

/-! ## A short run -/

/-- The smallest build, on a little-endian host with unsigned `char`. -/
def smallBuild : Build := ⟨4, rfl, Nat.le_refl 4, false, false⟩

/-- The first two blocks of the run: key 2 is set, then key 1. -/
def shortFile : Data :=
  [100, 0, 0, 0, 23, 0, 0, 0, 0, 0, 0, 0, 0, 108, 0, 0, 0, 1, 0, 0, 0, 1, 2, 0, 0, 0, 1, 20] ++
    [100, 0, 0, 0, 33, 0, 0, 0, 0, 0, 0, 0, 5, 108, 0, 0, 0, 2, 0, 0, 0, 1, 1, 0, 0, 0, 1, 10,
      0, 0, 0, 1, 2, 0, 0, 0, 1, 20]

/-- The first version of the run. -/
def shortFirst : Snapshot := ⟨5, 0, Function.update (fun _ => none) [2] (some [20])⟩

/-- The second version of the run. -/
def shortSecond : Snapshot := ⟨33, 5, Function.update shortFirst.contents [1] (some [10])⟩

/-- The two versions are set, the second is committed and an iterator over it is opened. -/
def shortRun : World where
  db := ⟨shortFile ++ [118, 0, 0, 0, 0, 0, 0, 0, 33], 75, 33⟩
  snaps := [shortSecond, shortFirst, ⟨0, 0, fun _ => none⟩]
  commits := [⟨33, 75⟩]
  iters := [⟨[⟨46, 0, 2⟩], 33⟩]

theorem shortRun_reachable : ReachableShort smallBuild shortRun := by
  have h1 : eval (aodbmSet smallBuild 0 [2] [20]) Db.empty =
      .ok (5, ⟨shortFile.take 28, 28, 0⟩) := by decide +kernel
  have h2 : eval (aodbmSet smallBuild 5 [1] [10]) ⟨shortFile.take 28, 28, 0⟩ =
      .ok (33, ⟨shortFile, 66, 0⟩) := by decide +kernel
  have h3 : eval (aodbmCommit smallBuild 33) ⟨shortFile, 66, 0⟩ = .ok (true, shortRun.db) := by
    decide +kernel
  have h4 : eval (aodbmNewIterator smallBuild 33) shortRun.db =
      .ok (⟨[⟨46, 0, 2⟩], 33⟩, shortRun.db) := by decide +kernel
  let w₁ : World := ⟨⟨shortFile.take 28, 28, 0⟩, [shortFirst, ⟨0, 0, fun _ => none⟩], [], []⟩
  let w₂ : World := ⟨⟨shortFile, 66, 0⟩, shortRun.snaps, [], []⟩
  let w₃ : World := { shortRun with iters := [] }
  have s1 : ShortStep smallBuild World.init w₁ :=
    ⟨.set (s := ⟨0, 0, fun _ => none⟩) (List.mem_singleton_self _) h1, by decide⟩
  have s2 : ShortStep smallBuild w₁ w₂ := ⟨.set (s := shortFirst) List.mem_cons_self h2, by decide⟩
  have s3 : ShortStep smallBuild w₂ w₃ :=
    ⟨.commit (s := shortSecond) List.mem_cons_self h3, by decide⟩
  have s4 : ShortStep smallBuild w₃ shortRun :=
    ⟨.newIterator (s := shortSecond) List.mem_cons_self h4, by decide⟩
  exact .tail (.tail (.tail (.tail .refl s1) s2) s3) s4

/-! ## A run with a branch -/

/-- Five keys are set, which makes a branch over two leaves, and the version is committed. -/
def fiveFile : Data :=
  [100, 0, 0, 0, 22, 0, 0, 0, 0, 0, 0, 0, 0, 108, 0, 0, 0, 1, 0, 0, 0, 1, 1, 0, 0, 0, 0] ++
  [100, 0, 0, 0, 31, 0, 0, 0, 0, 0, 0, 0, 5, 108, 0, 0, 0, 2, 0, 0, 0, 1, 1, 0, 0, 0, 0,
    0, 0, 0, 1, 2, 0, 0, 0, 0] ++
  [100, 0, 0, 0, 40, 0, 0, 0, 0, 0, 0, 0, 32, 108, 0, 0, 0, 3, 0, 0, 0, 1, 1, 0, 0, 0, 0,
    0, 0, 0, 1, 2, 0, 0, 0, 0, 0, 0, 0, 1, 3, 0, 0, 0, 0] ++
  [100, 0, 0, 0, 49, 0, 0, 0, 0, 0, 0, 0, 68, 108, 0, 0, 0, 4, 0, 0, 0, 1, 1, 0, 0, 0, 0,
    0, 0, 0, 1, 2, 0, 0, 0, 0, 0, 0, 0, 1, 3, 0, 0, 0, 0, 0, 0, 0, 1, 4, 0, 0, 0, 0] ++
  [100, 0, 0, 0, 89, 108, 0, 0, 0, 2, 0, 0, 0, 1, 1, 0, 0, 0, 0, 0, 0, 0, 1, 2, 0, 0, 0, 0,
    108, 0, 0, 0, 3, 0, 0, 0, 1, 3, 0, 0, 0, 0, 0, 0, 0, 1, 4, 0, 0, 0, 0, 0, 0, 0, 1, 5,
    0, 0, 0, 0, 0, 0, 0, 0, 0, 0, 0, 113, 98, 0, 0, 0, 1, 0, 0, 0, 0, 0, 0, 0, 167,
    0, 0, 0, 1, 3, 0, 0, 0, 0, 0, 0, 0, 190] ++
  [118, 0, 0, 0, 0, 0, 0, 0, 222]

def fiveDb : Db := ⟨fiveFile, 265, 222⟩

theorem fiveDb_length : fiveDb.file.length = 265 := by decide +kernel

/-- The five keys are set one after the other. -/
theorem fiveSets :
    eval (aodbmSet smallBuild 0 [1] []) Db.empty = .ok (5, ⟨fiveFile.take 27, 27, 0⟩) ∧
    eval (aodbmSet smallBuild 5 [2] []) ⟨fiveFile.take 27, 27, 0⟩ =
      .ok (32, ⟨fiveFile.take 63, 63, 0⟩) ∧
    eval (aodbmSet smallBuild 32 [3] []) ⟨fiveFile.take 63, 63, 0⟩ =
      .ok (68, ⟨fiveFile.take 108, 108, 0⟩) ∧
    eval (aodbmSet smallBuild 68 [4] []) ⟨fiveFile.take 108, 108, 0⟩ =
      .ok (113, ⟨fiveFile.take 162, 162, 0⟩) ∧
    eval (aodbmSet smallBuild 113 [5] []) ⟨fiveFile.take 162, 162, 0⟩ =
      .ok (222, ⟨fiveFile.take 256, 256, 0⟩) :=
  ⟨by decide +kernel, by decide +kernel, by decide +kernel, by decide +kernel, by decide +kernel⟩

/-- A run with short blocks leads to the handle and has returned the version. -/
def Obtained (db : Db) (v : Nat) : Prop :=
  ∃ w, ReachableShort smallBuild w ∧ w.db = db ∧ ∃ s ∈ w.snaps, s.ver = v

theorem Obtained.set {db db' : Db} {v v' : Nat} {k x : Data} (h : Obtained db v)
    (run : eval (aodbmSet smallBuild v k x) db = .ok (v', db'))
    (hshort : db'.file.length < db.file.length + (5 + 2 ^ 32)) : Obtained db' v' := by
  obtain ⟨w, hw, rfl, s, hs, rfl⟩ := h
  exact ⟨_, .tail hw ⟨.set hs run, hshort⟩, rfl, _, List.mem_cons_self, rfl⟩

theorem Obtained.commit {db db' : Db} {v : Nat} (h : Obtained db v)
    (run : eval (aodbmCommit smallBuild v) db = .ok (true, db'))
    (hshort : db'.file.length < db.file.length + (5 + 2 ^ 32)) : Obtained db' v := by
  obtain ⟨w, hw, rfl, s, hs, rfl⟩ := h
  exact ⟨_, .tail hw ⟨.commit hs run, hshort⟩, rfl, s, hs, rfl⟩

theorem fiveDb_obtained : Obtained fiveDb 222 := by
  have h0 : Obtained Db.empty 0 := ⟨World.init, .refl, rfl, _, List.mem_singleton_self _, rfl⟩
  obtain ⟨h1, h2, h3, h4, h5⟩ := fiveSets
  have h6 : eval (aodbmCommit smallBuild 222) ⟨fiveFile.take 256, 256, 0⟩ =
      .ok (true, fiveDb) := by decide +kernel
  have hfive : Obtained ⟨fiveFile.take 256, 256, 0⟩ 222 :=
    ((((h0.set h1 (by decide +kernel)).set h2 (by decide +kernel)).set h3
      (by decide +kernel)).set h4 (by decide +kernel)).set h5 (by decide +kernel)
  exact hfive.commit h6 (by decide +kernel)

/-- The root of the version is a branch over two leaves. -/
theorem fiveRoot : NodeAt smallBuild fiveDb.file 230 (.branch 167 [([3], 190)]) :=
  ⟨segAt_iff.mpr (by decide +kernel), by simp [Node.Fits]⟩

theorem fiveSecondLeaf :
    NodeAt smallBuild fiveDb.file 190 (.leaf [([3], []), ([4], []), ([5], [])]) :=
  ⟨segAt_iff.mpr (by decide +kernel), by simp [Node.Fits]⟩

end Aodbm
