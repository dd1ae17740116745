import Aodbm.Snapshots

/-!
# Byte order

The two kinds of host: on a big-endian one the macro `ntohll` exchanges the halves of a
64-bit number, on a little-endian one it does not.

Results:
1. `from32_eq`, `from64_eq`: the bytes of a number on each kind of host.
2. `from64_onHost_iff`: the bytes of a 64-bit number are the same exactly when its halves are.
3. `host_independent`: a run that writes only such numbers writes the same bytes on both
   kinds of host, and each reads what the other wrote.
4. `hosts_differ`: a single commit, whose file another host misreads.
-/

namespace Aodbm

open Effects Records Bytes History

/-- The same build on a host of the given byte order. -/
def Build.onHost (B : Build) (e : Bool) : Build := { B with bigEndian := e }

/-- The halves of the 64-bit number are equal. -/
def Symmetric (n : Nat) : Prop := n % 2 ^ 32 = n / 2 ^ 32

instance (n : Nat) : Decidable (Symmetric n) := inferInstanceAs (Decidable (_ = _))

variable {B : Build} {e e' : Bool}

/-! ## Numbers -/

/-- On either kind of host a 32-bit number is written in network order. -/
theorem from32_eq (n : Nat) : aodbmDataFrom32 B n = (leBytes 4 n).reverse := by
  unfold aodbmDataFrom32 toMem ntohl
  split
  · rfl
  · have h := leBytes_leNat (leBytes 4 n).reverse
    rwa [List.length_reverse, leBytes_length] at h

/-- A 64-bit number is written as its two halves, which a big-endian host exchanges. -/
theorem from64_eq {n : Nat} (hn : n < 2 ^ 64) :
    aodbmDataFrom64 B n =
      if B.bigEndian then aodbmDataFrom32 B (n % 2 ^ 32) ++ aodbmDataFrom32 B (n / 2 ^ 32)
      else aodbmDataFrom32 B (n / 2 ^ 32) ++ aodbmDataFrom32 B (n % 2 ^ 32) := by
  have hlo := ntohl_lt (B := B) (n := n % 2 ^ 32) (by omega)
  have hhi := ntohl_lt (B := B) (n := n / 2 ^ 32) (by omega)
  have hmod : (ntohl B (n % 2 ^ 32) * 2 ^ 32 + ntohl B (n / 2 ^ 32)) % 256 ^ 4 =
      ntohl B (n / 2 ^ 32) := by
    omega
  have hdiv : (ntohl B (n % 2 ^ 32) * 2 ^ 32 + ntohl B (n / 2 ^ 32)) / 256 ^ 4 =
      ntohl B (n % 2 ^ 32) := by
    omega
  have hbytes := leBytes_add 4 4 (ntohl B (n % 2 ^ 32) * 2 ^ 32 + ntohl B (n / 2 ^ 32))
  rw [hmod, hdiv] at hbytes
  unfold aodbmDataFrom64 aodbmDataFrom32 toMem
  rw [ntohll_eq hn, hbytes]
  split
  · rw [List.reverse_append]
  · rfl

@[simp] theorem from32_onHost (n : Nat) :
    aodbmDataFrom32 (B.onHost e) n = aodbmDataFrom32 B n := by
  rw [from32_eq, from32_eq]

/-- A 64-bit number is written alike on both kinds of host exactly when its halves are equal. -/
theorem from64_onHost_iff {n : Nat} (hn : n < 2 ^ 64) (hne : e ≠ e') :
    aodbmDataFrom64 (B.onHost e) n = aodbmDataFrom64 (B.onHost e') n ↔ Symmetric n := by
  have hhalves : ∀ {a b : Nat}, a < 2 ^ 32 → b < 2 ^ 32 →
      (aodbmDataFrom32 B a ++ aodbmDataFrom32 B b = aodbmDataFrom32 B b ++ aodbmDataFrom32 B a ↔
        a = b) := by
    intro a b ha hb
    constructor
    · intro h
      have hab := (List.append_inj h (by simp)).1
      rw [← to32_from32 (B := B) ha, hab, to32_from32 hb]
    · rintro rfl
      rfl
  rw [from64_eq hn, from64_eq hn]
  simp only [from32_onHost]
  cases e <;> cases e'
  · exact absurd rfl hne
  · exact (hhalves (by omega) (by omega)).trans eq_comm
  · exact hhalves (by omega) (by omega)
  · exact absurd rfl hne

theorem from64_onHost {n : Nat} (hn : n < 2 ^ 64) (hs : Symmetric n) :
    aodbmDataFrom64 (B.onHost e) n = aodbmDataFrom64 (B.onHost e') n := by
  by_cases hee : e = e'
  · rw [hee]
  · exact (from64_onHost_iff hn hee).mpr hs

/-! ## Leaves and blocks -/

theorem leaf_enc_onHost (rs : List Rec) :
    Node.enc (B.onHost e) (.leaf rs) = Node.enc B (.leaf rs) := by
  have hdata : encData (B.onHost e) = encData B := by
    funext d
    simp only [encData, from32_onHost]
  simp only [Node.enc, from32_onHost, encRecs]
  congr 2
  funext r
  simp only [encRec, hdata]

theorem data_enc_onHost (payload : Data) :
    Block.enc (B.onHost e) (.data payload) = Block.enc B (.data payload) := by
  simp only [Block.enc, from32_onHost]

theorem version_enc_onHost {v : Nat} (hv : v < 2 ^ 64) (hs : Symmetric v) :
    Block.enc (B.onHost e) (.version v) = Block.enc (B.onHost e') (.version v) := by
  simp only [Block.enc]
  rw [from64_onHost hv hs]

theorem leafAt_onHost {file : Data} {off : Nat} {rs : List Rec}
    (h : NodeAt (B.onHost e) file off (.leaf rs)) : NodeAt (B.onHost e') file off (.leaf rs) := by
  refine ⟨?_, h.fits⟩
  have hseg := h.seg
  rw [leaf_enc_onHost] at hseg ⊢
  exact hseg

/-! ## Updates of a single leaf -/

/-- The records of a version whose tree is one leaf, or of version 0. -/
def RootLeaf (B : Build) (file : Data) (v : Nat) (rs : List Rec) : Prop :=
  v = 0 ∧ rs = [] ∨ v ≠ 0 ∧ NodeAt B file (v + 8) (.leaf rs)

theorem RootLeaf.mono {file file' : Data} {v : Nat} {rs : List Rec} (h : RootLeaf B file v rs)
    (hf : file <+: file') : RootLeaf B file' v rs :=
  h.imp_right fun h => ⟨h.1, h.2.mono hf⟩

theorem RootLeaf.onHost {file : Data} {v : Nat} {rs : List Rec}
    (h : RootLeaf (B.onHost e) file v rs) : RootLeaf (B.onHost e') file v rs :=
  h.imp_right fun h => ⟨h.1, leafAt_onHost h.2⟩

/-- The records of the leaf are those of the version. -/
theorem RootLeaf.contents {file : Data} {v : Nat} {rs ls : List Rec} (h : RootLeaf B file v ls)
    (hc : ContentsAt B file v rs) : ls = rs ∧ rs.length ≤ B.maxNodeSize := by
  rcases h with ⟨hv, rfl⟩ | ⟨hv, hleaf⟩
  · rcases hc with ⟨_, rfl⟩ | ⟨h, _⟩
    · exact ⟨rfl, Nat.zero_le _⟩
    · exact absurd hv h
  · rcases hc with ⟨h, _⟩ | ⟨_, ht⟩
    · exact absurd h hv
    · rcases ht.leaf_or_branch with ⟨hroot, hcount⟩ | ⟨h, hsub⟩
      · exact ⟨Node.leaf.inj (hleaf.unique hroot), hcount⟩
      · exact absurd hleaf hsub.not_leaf

/-- The block of an update of `v` whose tree is one leaf with the records `rs`. -/
def leafBlock (B : Build) (v : Nat) (rs : List Rec) : Data :=
  Block.enc B (.data (aodbmDataFrom64 B v ++ Node.enc B (.leaf rs)))

/-- An update of `v` that writes one leaf, in a block of its own. -/
def WritesLeaf (B : Build) (op : Op Nat) (db : Db) (v : Nat) (rs : List Rec) : Prop :=
  eval op db =
    if db.file.length + (leafBlock B v rs).length < 2 ^ 63 then
      .ok (db.file.length + 5, db.append (leafBlock B v rs))
    else .error .osError

theorem leafBlock_onHost {v : Nat} (hv : v < 2 ^ 64) (hs : Symmetric v) (rs : List Rec) :
    leafBlock (B.onHost e) v rs = leafBlock (B.onHost e') v rs := by
  unfold leafBlock
  rw [data_enc_onHost, data_enc_onHost, leaf_enc_onHost, leaf_enc_onHost, from64_onHost hv hs]

/-- One leaf or none becomes the root. -/
theorem constructRoot_leaf {nodes : ModifyResult} {parts : List (List Rec)} {new : List Rec}
    (hl : Leaves B nodes parts new) (hone : parts.length ≤ 1) (v appendPos : Nat) :
    constructRoot B v appendPos aodbmRopeEmpty 0 nodes =
      pure ⟨aodbmDataFrom64 B v ++ Node.enc B (.leaf new), appendPos⟩ := by
  have hnew := hl.recs
  rw [constructRoot_eq hl.pend]
  match parts, hone with
  | [], _ =>
    rw [← hnew]
    simp [topNode, underRoot, encNodes]
  | [p], _ =>
    rw [← hnew]
    simp [topNode, underRoot, encNodes, leafEntry]

variable {db : Db} {v : Nat} {rs : List Rec}

theorem RootLeaf.set (h : RootLeaf B db.file v rs) (hdb : db.Synced)
    (hlt : rs.length < B.maxNodeSize) (k x : Data) :
    WritesLeaf B (aodbmSet B v k x) db v (upsert (rank B) k x rs) := by
  have hres : eval (setResult B v k x (db.file.length + 5)) db =
      .ok (⟨aodbmDataFrom64 B v ++ Node.enc B (.leaf (upsert (rank B) k x rs)),
        db.file.length + 5⟩, db) := by
    rcases h with ⟨rfl, rfl⟩ | ⟨hv, hleaf⟩
    · rw [setResult_zero]
      rfl
    · obtain ⟨nodes, heval, hl⟩ := insertIntoLeaf_one hleaf hlt k x
      rw [setResult, if_neg hv, eval, run_bind_ok (eval_leafType hleaf), if_pos rfl,
        run_bind_ok heval, constructRoot_leaf hl (le_refl 1)]
      rfl
  have hset := eval_aodbmSet hdb hres
  exact hset

theorem RootLeaf.del (h : RootLeaf B db.file v rs) (hdb : db.Synced)
    (hc : ContentsAt B db.file v rs) {k : Data} (hk : (rs.lookup k).isSome) :
    WritesLeaf B (aodbmDel B v k) db v (erase k rs) := by
  have hhas := hc.has hdb k
  rw [hk] at hhas
  have hcount := (h.contents hc).2
  rcases h with ⟨_, rfl⟩ | ⟨hv, hleaf⟩
  · simp at hk
  · obtain ⟨nodes, parts, heval, hl, hone⟩ := removeFromLeaf_spec hleaf hcount hc.sorted k
    have hres : eval (delResult B v k (db.file.length + 5)) db =
        .ok (⟨aodbmDataFrom64 B v ++ Node.enc B (.leaf (erase k rs)), db.file.length + 5⟩,
          db) := by
      rw [delResult, eval, run_bind_ok (eval_leafType hleaf), if_pos rfl, run_bind_ok heval,
        constructRoot_leaf hl hone]
      rfl
    have hdel := eval_aodbmDel hdb hv hhas hres
    exact hdel

/-- The new root is a leaf too. -/
theorem WritesLeaf.root {op : Op Nat} {r : Nat} {db' : Db} (h : WritesLeaf B op db v rs)
    (run : eval op db = .ok (r, db'))
    (hshort : db'.file.length < db.file.length + (5 + 2 ^ 32)) : RootLeaf B db'.file r rs := by
  unfold WritesLeaf at h
  rw [h] at run
  split at run
  · cases run
    simp only [Db.append, leafBlock, List.length_append, data_enc_length, from64_length] at hshort
    have hseg := (segAt_end db.file (leafBlock B v rs)).right.right
    simp only [List.length_append, List.length_singleton, from32_length, from64_length] at hseg
    exact Or.inr ⟨by omega, hseg, leaf_fits (B := B) (by omega)⟩
  · cases run

/-! ## Runs -/

/-- A call that may write. -/
inductive WriteCall where
  | set (ver : Nat) (key val : Data)
  | del (ver : Nat) (key : Data)
  | commit (ver : Nat)

/-- The call is made in the first state and leads to the second. -/
inductive Makes (B : Build) : WriteCall → World → World → Prop where
  | set {w : World} {s : Snapshot} {k x : Data} {v : Nat} {db : Db} (known : s ∈ w.snaps)
      (run : eval (aodbmSet B s.ver k x) w.db = .ok (v, db)) :
      Makes B (.set s.ver k x) w { w with
        db := db, snaps := ⟨v, s.ver, Function.update s.contents k (some x)⟩ :: w.snaps }
  | del {w : World} {s : Snapshot} {k : Data} {v : Nat} {db : Db} (known : s ∈ w.snaps)
      (run : eval (aodbmDel B s.ver k) w.db = .ok (v, db)) :
      Makes B (.del s.ver k) w { w with
        db := db
        snaps := ⟨v, if v = s.ver then s.prev else s.ver,
          Function.update s.contents k none⟩ :: w.snaps }
  | commit {w : World} {s : Snapshot} {db : Db} (known : s ∈ w.snaps)
      (run : eval (aodbmCommit B s.ver) w.db = .ok (true, db)) :
      Makes B (.commit s.ver) w { w with
        db := db, commits := ⟨s.ver, db.file.length⟩ :: w.commits }
  | reject {w : World} {s : Snapshot} {db : Db} (known : s ∈ w.snaps)
      (run : eval (aodbmCommit B s.ver) w.db = .ok (false, db)) :
      Makes B (.commit s.ver) w { w with db := db }

/-- Every 64-bit number that the call writes in this state has equal halves. An update writes
the version it is given and, unless the tree of the version is one leaf that is not full, the
offsets of children; a commit writes the version. -/
def WriteCall.Plain (B : Build) (w : World) : WriteCall → Prop
  | .set v _ _ => Symmetric v ∧ ∃ rs, RootLeaf B w.db.file v rs ∧ rs.length < B.maxNodeSize
  | .del v k => Symmetric v ∨ ∃ s ∈ w.snaps, s.ver = v ∧ s.contents k = none
  | .commit v => Symmetric v ∨ ¬ w.BasedOn v w.db.cur

/-- The state that the calls lead to, when each of them satisfies the condition. The last call
is the first of the list. -/
inductive Run (B : Build) (C : WriteCall → World → World → Prop) :
    List WriteCall → World → Prop where
  | start : Run B C [] World.init
  | call {c : WriteCall} {cs : List WriteCall} {w w' : World} (run : Run B C cs w)
      (makes : Makes B c w w') (cond : C c w w') : Run B C (c :: cs) w'

/-- The call writes nothing that the other kind of host writes in a different way, and a short
block. -/
def PlainShort (B : Build) (c : WriteCall) (w w' : World) : Prop := c.Plain B w ∧ Short w w'

variable {c : WriteCall} {cs : List WriteCall} {w w' : World}

theorem Makes.step (h : Makes B c w w') : Step B w w' := by
  cases h with
  | set known run => exact .set known run
  | del known run => exact .del known run
  | commit known run => exact .commit known run
  | reject known run => exact .reject known run

theorem Run.reachableShort (h : Run B (PlainShort B) cs w) : ReachableShort B w := by
  induction h with
  | start => exact .refl
  | call _ makes cond ih => exact ih.tail ⟨makes.step, cond.2⟩

/-- The tree of every version is one leaf. -/
def AllLeaves (B : Build) (w : World) : Prop := ∀ s ∈ w.snaps, ∃ rs, RootLeaf B w.db.file s.ver rs

theorem Inv.ver_lt (hw : Inv B w) {s : Snapshot} (hs : s ∈ w.snaps) : s.ver < 2 ^ 64 :=
  lt_trans (hw.headers.bound ⟨s, hs, rfl⟩) (by decide)

/-- The same update on both kinds of host. -/
theorem WritesLeaf.same {op op' : Op Nat} (h : WritesLeaf (B.onHost e) op db v rs)
    (h' : WritesLeaf (B.onHost e') op' db v rs) (hv : v < 2 ^ 64) (hs : Symmetric v) :
    eval op db = eval op' db := by
  unfold WritesLeaf at h h'
  rw [h, h', leafBlock_onHost hv hs]

theorem WriteCall.Plain.onHost (h : c.Plain (B.onHost e) w) : c.Plain (B.onHost e') w := by
  cases c with
  | set v k x =>
    obtain ⟨hs, rs, hr, hlt⟩ := h
    exact ⟨hs, rs, hr.onHost, hlt⟩
  | del v k => exact h
  | commit v => exact h

/-- A plain call does the same on the other kind of host. -/
theorem Makes.onHost (hw : Inv (B.onHost e) w) (hw' : Inv (B.onHost e') w)
    (hl : AllLeaves (B.onHost e) w) (h : Makes (B.onHost e) c w w')
    (hp : c.Plain (B.onHost e) w) : Makes (B.onHost e') c w w' := by
  cases h with
  | @set _ s k x v db known run =>
    obtain ⟨hs, rs, hr, hlt⟩ := hp
    have hr' : RootLeaf (B.onHost e') w.db.file s.ver rs := hr.onHost
    have hsame := (hr.set hw.synced hlt k x).same (hr'.set hw'.synced hlt k x)
      (hw.ver_lt known) hs
    exact .set known (hsame.symm.trans run)
  | @del _ s k v db known run =>
    obtain ⟨rs, hrs, hq⟩ := hw.contents known
    obtain ⟨rs', hrs', hq'⟩ := hw'.contents known
    cases hk : s.contents k with
    -- an absent key: neither host writes anything
    | none =>
      rw [hrs.del_absent hw.synced ((hq k).symm.trans hk)] at run
      exact .del known ((hrs'.del_absent hw'.synced ((hq' k).symm.trans hk)).trans run)
    | some y =>
      obtain ⟨ls, hr⟩ := hl s known
      obtain ⟨rfl, _⟩ := hr.contents hrs
      have hr' : RootLeaf (B.onHost e') w.db.file s.ver ls := hr.onHost
      obtain ⟨rfl, _⟩ := hr'.contents hrs'
      have hsome : (ls.lookup k).isSome := by rw [← hq, hk]; rfl
      have hs : Symmetric s.ver := by
        rcases hp with hs | ⟨t, ht, hts, habsent⟩
        · exact hs
        · -- the two snapshots of the version have the same records
          obtain ⟨ts, hts', htq⟩ := hw.contents ht
          rw [hts] at hts'
          obtain ⟨rfl, _⟩ := hr.contents hts'
          rw [← htq, habsent] at hsome
          cases hsome
      have hsame := (hr.del hw.synced hrs hsome).same (hr'.del hw'.synced hrs' hsome)
        (hw.ver_lt known) hs
      exact .del known (hsame.symm.trans run)
  | @commit _ s db known run =>
    obtain ⟨r, hr, heval⟩ := eval_commit hw.headers ⟨s, known, rfl⟩
    obtain ⟨r', hr', heval'⟩ := eval_commit hw'.headers ⟨s, known, rfl⟩
    -- both hosts decide alike, because `Inv` ties the headers to the history on each of them
    obtain rfl : r = r' := Bool.eq_iff_iff.mpr (hr.trans hr'.symm)
    rw [heval] at run
    cases r with
    | false => cases run
    | true =>
      -- an accepted commit writes the number of the version
      have hs : Symmetric s.ver := hp.resolve_right fun h => h (hr.mp rfl)
      rw [version_enc_onHost (hw.ver_lt known) hs, ← heval'] at run
      exact .commit known run
  | @reject _ s db known run =>
    obtain ⟨r, hr, heval⟩ := eval_commit hw.headers ⟨s, known, rfl⟩
    obtain ⟨r', hr', heval'⟩ := eval_commit hw'.headers ⟨s, known, rfl⟩
    obtain rfl : r = r' := Bool.eq_iff_iff.mpr (hr.trans hr'.symm)
    rw [heval] at run
    cases r with
    | false => exact .reject known (heval'.trans run)
    | true =>
      rw [if_pos rfl] at run
      split at run <;> cases run

/-- The tree of a version that a plain call returns is one leaf. -/
theorem AllLeaves.step (hw : Inv B w) (hl : AllLeaves B w) (h : Makes B c w w')
    (hp : PlainShort B c w w') : AllLeaves B w' := by
  obtain ⟨hp, hshort⟩ := hp
  -- what is in the file stays a leaf when blocks are appended
  have hold : ∀ {db : Db}, w.db.file <+: db.file →
      ∀ s ∈ w.snaps, ∃ rs, RootLeaf B db.file s.ver rs :=
    fun hf s hs => (hl s hs).imp fun _ h => h.mono hf
  have hgrows := h.step.file_grows
  cases h with
  | @set _ s k x v db known run =>
    intro t ht
    obtain ⟨_, rs, hr, hlt⟩ := hp
    rcases List.mem_cons.mp ht with rfl | ht
    · exact ⟨_, (hr.set hw.synced hlt k x).root run hshort⟩
    · exact hold hgrows t ht
  | @del _ s k v db known run =>
    intro t ht
    obtain ⟨ls, hr⟩ := hl s known
    obtain ⟨rs, hrs, hq⟩ := hw.contents known
    obtain ⟨rfl, _⟩ := hr.contents hrs
    rcases List.mem_cons.mp ht with rfl | ht
    · cases hk : ls.lookup k with
      | none =>
        rw [hrs.del_absent hw.synced hk] at run
        cases run
        exact ⟨ls, hr⟩
      | some y => exact ⟨_, (hr.del hw.synced hrs (by rw [hk]; rfl)).root run hshort⟩
    · exact hold hgrows t ht
  | commit known run => exact hold hgrows
  | reject known run => exact hold hgrows

/-- Plain calls lead to the same state on the other kind of host. -/
theorem Run.onHost (h : Run (B.onHost e) (PlainShort (B.onHost e)) cs w) :
    Run (B.onHost e') (PlainShort (B.onHost e')) cs w ∧ AllLeaves (B.onHost e) w := by
  induction h with
  | start =>
    refine ⟨.start, fun s hs => ?_⟩
    rw [List.mem_singleton.mp hs]
    exact ⟨[], Or.inl ⟨rfl, rfl⟩⟩
  | call run makes cond ih =>
    obtain ⟨run', hl⟩ := ih
    have hw := inv_of_reachable run.reachableShort
    have hw' := inv_of_reachable run'.reachableShort
    exact ⟨.call run' (makes.onHost hw hw' hl cond.1) ⟨cond.1.onHost, cond.2⟩,
      hl.step hw makes cond⟩

/-- The file format of runs whose 64-bit numbers have equal halves: the other kind of host
writes the same bytes in the same run, and opens the file with the same current version; the
previous versions and the values of all keys are the same on both. -/
theorem host_independent (run : Run (B.onHost e) (PlainShort (B.onHost e)) cs w) (e' : Bool) :
    Run (B.onHost e') (PlainShort (B.onHost e')) cs w ∧
    aodbmOpen (B.onHost e') w.db.file = .ok w.db ∧
    ∀ s ∈ w.snaps,
      (s.ver ≠ 0 → eval (aodbmPreviousVersion (B.onHost e) s.ver) w.db = .ok (s.prev, w.db) ∧
        eval (aodbmPreviousVersion (B.onHost e') s.ver) w.db = .ok (s.prev, w.db)) ∧
      ∀ k, eval (aodbmGet (B.onHost e) s.ver k) w.db = .ok (s.contents k, w.db) ∧
        eval (aodbmGet (B.onHost e') s.ver k) w.db = .ok (s.contents k, w.db) := by
  have run' : Run (B.onHost e') (PlainShort (B.onHost e')) cs w := run.onHost.1
  have hw := inv_of_reachable run.reachableShort
  have hw' := inv_of_reachable run'.reachableShort
  have hprev : ∀ {f : Bool} {s : Snapshot}, Inv (B.onHost f) w → s ∈ w.snaps → s.ver ≠ 0 →
      eval (aodbmPreviousVersion (B.onHost f) s.ver) w.db = .ok (s.prev, w.db) :=
    fun h hs h0 => h.headers.eval_previous ⟨_, hs, rfl⟩ ⟨_, hs, rfl, rfl, h0⟩
  have hget : ∀ {f : Bool} {s : Snapshot}, Inv (B.onHost f) w → s ∈ w.snaps → ∀ k,
      eval (aodbmGet (B.onHost f) s.ver k) w.db = .ok (s.contents k, w.db) := by
    intro f s h hs k
    obtain ⟨rs, hrs, hq⟩ := h.contents hs
    rw [hq]
    exact hrs.get h.synced k
  exact ⟨run', hw'.reopen, fun s hs => ⟨fun h0 => ⟨hprev hw hs h0, hprev hw' hs h0⟩,
    fun k => ⟨hget hw hs k, hget hw' hs k⟩⟩⟩

/-- The file of a big-endian host with one key, read on a little-endian one. -/
theorem host_independent_single :
    let file : Data := [100, 0, 0, 0, 23, 0, 0, 0, 0, 0, 0, 0, 0, 108, 0, 0, 0, 1,
      0, 0, 0, 1, 2, 0, 0, 0, 1, 20]
    eval (aodbmSet (smallBuild.onHost true) 0 [2] [20]) Db.empty = .ok (5, ⟨file, 28, 0⟩) ∧
    aodbmOpen (smallBuild.onHost false) file = .ok ⟨file, 28, 0⟩ := by
  intro file
  have hset : eval (aodbmSet (smallBuild.onHost true) 0 [2] [20]) Db.empty =
      .ok (5, ⟨file, 28, 0⟩) := by decide +kernel
  have hrun : Run (smallBuild.onHost true) (PlainShort (smallBuild.onHost true))
      [.set 0 [2] [20]] ⟨⟨file, 28, 0⟩, [shortFirst, ⟨0, 0, fun _ => none⟩], [], []⟩ :=
    .call .start (.set (s := ⟨0, 0, fun _ => none⟩) (List.mem_singleton_self _) hset)
      ⟨⟨by decide, [], Or.inl ⟨rfl, rfl⟩, by decide⟩, by decide⟩
  exact ⟨hset, (host_independent hrun false).2.1⟩

/-- One key is set and the version is committed. The commit records differ, and a big-endian
host that opens the file of a little-endian one finds another current version. -/
theorem hosts_differ :
    let calls : List WriteCall := [.commit 5, .set 0 [] []]
    ∃ w w', Run (smallBuild.onHost false) (fun _ _ _ => True) calls w ∧
      Run (smallBuild.onHost true) (fun _ _ _ => True) calls w' ∧ w.db.file ≠ w'.db.file ∧
      w.db.cur = 5 ∧
      aodbmOpen (smallBuild.onHost true) w.db.file = .ok ⟨w.db.file, 35, 5 * 2 ^ 32⟩ := by
  intro calls
  let leaf : Data := [100, 0, 0, 0, 21, 0, 0, 0, 0, 0, 0, 0, 0, 108, 0, 0, 0, 1,
    0, 0, 0, 0, 0, 0, 0, 0]
  let little : Db := ⟨leaf ++ [118, 0, 0, 0, 0, 0, 0, 0, 5], 35, 5⟩
  let big : Db := ⟨leaf ++ [118, 0, 0, 0, 5, 0, 0, 0, 0], 35, 5⟩
  let five : Snapshot := ⟨5, 0, Function.update (fun _ => none) [] (some [])⟩
  have run : ∀ {f : Bool} (db : Db),
      eval (aodbmSet (smallBuild.onHost f) 0 [] []) Db.empty = .ok (5, ⟨leaf, 26, 0⟩) →
      eval (aodbmCommit (smallBuild.onHost f) 5) ⟨leaf, 26, 0⟩ = .ok (true, db) →
      Run (smallBuild.onHost f) (fun _ _ _ => True) calls
        ⟨db, [five, ⟨0, 0, fun _ => none⟩], [⟨5, db.file.length⟩], []⟩ := by
    intro f db hset hcommit
    exact .call (.call .start (.set (s := ⟨0, 0, fun _ => none⟩) (List.mem_singleton_self _) hset)
      trivial) (.commit (s := five) List.mem_cons_self hcommit) trivial
  refine ⟨_, _, run little ?_ ?_, run big ?_ ?_, ?_, rfl, ?_⟩
  all_goals decide +kernel

end Aodbm
