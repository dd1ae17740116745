import Aodbm.BranchUpdate
import Aodbm.LeafUpdate
import Aodbm.Reads

/-!
# The format of nodes

Every reader steps through a node in the same way: the count behind the type byte, then
one field after the other, where each position is computed from the lengths read before.
`readLeaf` and `readBranch` are this stepping by itself. `LeafReads` and `BranchReads` say
what it finds in a rope, wherever the bytes of the rope are placed.

Results:
1. `node_round_trip`: leaves and branches built by the encoders are read back.
2. `LeafReads.short`, `BranchReads.short`: no reader returns a key or a value of
   `2 ^ 32` bytes or more.
-/

namespace Aodbm

open Effects Bytes

/-! ## The stepping of the readers -/

section Stepping
variable (B : Build)

/-- The record at `pos`, and the position behind it. -/
def readRecord (pos : Nat) : Op (Rec × Nat) := do
  let key ← aodbmReadData B pos
  let val ← aodbmReadData B (pos + key.length + 4)
  pure ((key, val), pos + key.length + 4 + val.length + 4)

/-- The key at `pos` with the offset after it, and the position behind both. -/
def readEntry (pos : Nat) : Op (Entry × Nat) := do
  let key ← aodbmReadData B pos
  let off ← aodbmRead64 B (pos + key.length + 4)
  pure ((key, off), pos + key.length + 4 + 8)

/-- A loop over `n` items: the items, and the position behind the last. -/
def readMany {α : Type} (readOne : Nat → Op (α × Nat)) : Nat → Nat → Op (List α × Nat)
  | 0, pos => pure ([], pos)
  | n + 1, pos => do
    let (a, pos) ← readOne pos
    let (as, pos) ← readMany readOne n pos
    pure (a :: as, pos)

/-- The count of a leaf, its records, and the position behind it. -/
def readLeaf (node : Nat) : Op (Nat × List Rec × Nat) := do
  let type ← readType node
  if type = leafType then do
    let sz ← aodbmRead32 B (node + 1)
    let (rs, pos) ← readMany (readRecord B) sz (node + 5)
    pure (sz, rs, pos)
  else .fail .unknownNodeType

/-- The count of a branch, its first offset, the pairs after it, and the position behind it. -/
def readBranch (node : Nat) : Op (Nat × Nat × List Entry × Nat) := do
  let type ← readType node
  if type = branchType then do
    let sz ← aodbmRead32 B (node + 1)
    let off ← aodbmRead64 B (node + 5)
    let (es, pos) ← readMany (readEntry B) sz (node + 5 + 8)
    pure (sz, off, es, pos)
  else .fail .unknownNodeType

/-- Wherever the rope is placed, the readers find a leaf with the records `rs`. -/
def LeafReads (rope : Rope) (rs : List Rec) : Prop :=
  ∀ (db : Db) (p : Nat), SegAt db.file p (aodbmRopeToData rope) →
    eval (readLeaf B p) db = .ok ((rs.length, rs, p + aodbmRopeSize rope), db)

/-- Wherever the rope is placed, the readers find a branch with the first offset `first` and
the pairs `es`. -/
def BranchReads (rope : Rope) (first : Nat) (es : List Entry) : Prop :=
  ∀ (db : Db) (p : Nat), SegAt db.file p (aodbmRopeToData rope) →
    eval (readBranch B p) db = .ok ((es.length, first, es, p + aodbmRopeSize rope), db)

/-- The branch in the rope has the given entries. The key of the first is kept outside. -/
def BranchIs (key : Option Data) (rope : Rope) : List Entry → Prop
  | [] => False
  | e :: es => key = some e.1 ∧ BranchReads B rope e.2 es

end Stepping

/-! ## The encoders -/

section Encoders
variable (B : Build)

/-- Records as the loops over a leaf put them together. -/
def recordsRope (rs : List Rec) : Rope :=
  rs.foldl (fun data r => aodbmRopeMerge data (makeRecord B r.1 r.2)) aodbmRopeEmpty

/-- A leaf: the header and the records. -/
def leafRope (rs : List Rec) : Rope :=
  (addHeader B ⟨recordsRope B rs, none, 0, rs.length, false⟩).node

/-- Two branches filled with the entries, one after the other. -/
def branchesOf (es : List Entry) : Branch × Branch :=
  es.foldl (fun ab e => addToBranches B ab e.1 e.2) (branchInit, branchInit)

end Encoders

variable {B : Build} {db : Db} {pos : Nat}

section Many
variable {α : Type} {readOne : Nat → Op (α × Nat)}

/-- Items that are read one by one are read by the loop. -/
theorem eval_readMany {enc : α → Data} {as : List α}
    (hone : ∀ a ∈ as, ∀ pos, SegAt db.file pos (enc a) →
      eval (readOne pos) db = .ok ((a, pos + (enc a).length), db))
    (hseg : SegAt db.file pos (as.flatMap enc)) :
    eval (readMany readOne as.length pos) db =
      .ok ((as, pos + (as.flatMap enc).length), db) := by
  induction as generalizing pos with
  | nil => rfl
  | cons a as ih =>
    rw [List.flatMap_cons] at hseg
    have hrest := ih (fun b hb => hone b (List.mem_cons_of_mem _ hb)) hseg.right
    rw [List.length_cons, readMany, eval, run_bind_ok (hone a List.mem_cons_self pos hseg.left),
      run_bind_ok hrest, List.flatMap_cons, List.length_append, ← Nat.add_assoc]
    rfl

/-- What holds of every single item holds of all. -/
theorem readMany_all {P : α → Prop}
    (hone : ∀ {pos : Nat} {a : α} {next : Nat} {db' : Db},
      eval (readOne pos) db = .ok ((a, next), db') → db' = db ∧ P a)
    {n next : Nat} {as : List α} {db' : Db}
    (hr : eval (readMany readOne n pos) db = .ok ((as, next), db')) : ∀ a ∈ as, P a := by
  induction n generalizing pos as with
  | zero =>
    cases hr
    exact fun a ha => absurd ha List.not_mem_nil
  | succ n ih =>
    obtain ⟨⟨a, p₁⟩, db₁, hfirst, hrest⟩ := run_bind_eq_ok.mp hr
    obtain ⟨⟨bs, p₂⟩, db₂, hmany, hlast⟩ := run_bind_eq_ok.mp hrest
    obtain ⟨rfl, ha⟩ := hone hfirst
    cases hlast
    intro b hb
    rcases List.mem_cons.mp hb with rfl | hb
    · exact ha
    · exact ih hmany b hb

end Many

/-! ## No reader returns a long block -/

theorem eval_read_ok {off sz : Nat} {bs : Data} {db' : Db}
    (hr : eval (aodbmRead off sz) db = .ok (bs, db')) : db' = db ∧ bs.length = sz := by
  rw [eval_read_cases] at hr
  split at hr
  · next h =>
    cases hr
    exact ⟨rfl, (readFile_eq_some h).2⟩
  · cases hr

theorem eval_readData_short {d : Data} {db' : Db}
    (hr : eval (aodbmReadData B pos) db = .ok (d, db')) : db' = db ∧ d.length < 2 ^ 32 := by
  obtain ⟨sz, db₁, hsz, hd⟩ := run_bind_eq_ok.mp hr
  obtain ⟨bs, db₂, hbs, hpure⟩ := run_bind_eq_ok.mp hsz
  obtain ⟨rfl, hlen⟩ := eval_read_ok hbs
  cases hpure
  obtain ⟨rfl, hdlen⟩ := eval_read_ok hd
  exact ⟨rfl, hdlen ▸ to32_lt hlen⟩

theorem readRecord_short {r : Rec} {next : Nat} {db' : Db}
    (hr : eval (readRecord B pos) db = .ok ((r, next), db')) :
    db' = db ∧ r.1.length < 2 ^ 32 ∧ r.2.length < 2 ^ 32 := by
  obtain ⟨key, db₁, hkey, hrest⟩ := run_bind_eq_ok.mp hr
  obtain ⟨val, db₂, hval, hpure⟩ := run_bind_eq_ok.mp hrest
  obtain ⟨rfl, hk⟩ := eval_readData_short hkey
  obtain ⟨rfl, hv⟩ := eval_readData_short hval
  cases hpure
  exact ⟨rfl, hk, hv⟩

theorem readEntry_short {e : Entry} {next : Nat} {db' : Db}
    (hr : eval (readEntry B pos) db = .ok ((e, next), db')) :
    db' = db ∧ e.1.length < 2 ^ 32 := by
  obtain ⟨key, db₁, hkey, hrest⟩ := run_bind_eq_ok.mp hr
  obtain ⟨off, db₂, hoff, hpure⟩ := run_bind_eq_ok.mp hrest
  obtain ⟨rfl, hk⟩ := eval_readData_short hkey
  obtain ⟨bs, db₃, hbs, hret⟩ := run_bind_eq_ok.mp hoff
  obtain ⟨rfl, -⟩ := eval_read_ok hbs
  cases hret
  cases hpure
  exact ⟨rfl, hk⟩

/-- A handle on a file that begins with the given bytes. -/
theorem segAt_self (bs : Data) : SegAt (Db.mk bs bs.length 0).file 0 bs := ⟨[], [], by simp, rfl⟩

theorem LeafReads.short {rope : Rope} {rs : List Rec} (h : LeafReads B rope rs) :
    ∀ r ∈ rs, r.1.length < 2 ^ 32 ∧ r.2.length < 2 ^ 32 := by
  have hr := h _ 0 (segAt_self _)
  obtain ⟨type, db₁, htype, hrest⟩ := run_bind_eq_ok.mp hr
  split at hrest
  · obtain ⟨sz, db₂, -, hrest⟩ := run_bind_eq_ok.mp hrest
    obtain ⟨⟨as, next⟩, db₃, hmany, hpure⟩ := run_bind_eq_ok.mp hrest
    cases hpure
    exact readMany_all readRecord_short hmany
  · cases hrest

theorem BranchReads.short {rope : Rope} {first : Nat} {es : List Entry}
    (h : BranchReads B rope first es) : ∀ e ∈ es, e.1.length < 2 ^ 32 := by
  have hr := h _ 0 (segAt_self _)
  obtain ⟨type, db₁, htype, hrest⟩ := run_bind_eq_ok.mp hr
  split at hrest
  · obtain ⟨sz, db₂, -, hrest⟩ := run_bind_eq_ok.mp hrest
    obtain ⟨off, db₃, -, hrest⟩ := run_bind_eq_ok.mp hrest
    obtain ⟨⟨as, next⟩, db₄, hmany, hpure⟩ := run_bind_eq_ok.mp hrest
    cases hpure
    exact readMany_all readEntry_short hmany
  · cases hrest

/-- The count of a leaf is read from a field of 32 bits. -/
theorem LeafReads.count {rope : Rope} {rs : List Rec} (h : LeafReads B rope rs) :
    rs.length < 2 ^ 32 := by
  have hr := h _ 0 (segAt_self _)
  obtain ⟨type, db₁, htype, hrest⟩ := run_bind_eq_ok.mp hr
  split at hrest
  · obtain ⟨sz, db₂, hsz, hrest⟩ := run_bind_eq_ok.mp hrest
    obtain ⟨⟨as, next⟩, db₃, -, hpure⟩ := run_bind_eq_ok.mp hrest
    obtain ⟨bs, db₄, hbs, hret⟩ := run_bind_eq_ok.mp hsz
    cases hpure
    have hcount : to32 B bs = rs.length := congrArg Prod.fst (Except.ok.inj hret)
    exact hcount ▸ to32_lt (eval_read_ok hbs).2
  · cases hrest

/-! ## What is encoded is read back -/

theorem eval_readRecord {r : Rec} (hr : r.1.length < 2 ^ 32 ∧ r.2.length < 2 ^ 32)
    (hseg : SegAt db.file pos (encRec B r)) :
    eval (readRecord B pos) db = .ok ((r, pos + (encRec B r).length), db) := by
  have hrecs : SegAt db.file pos (encRecs B [r]) := by simpa using hseg
  obtain ⟨hkey, hval, -⟩ := eval_readRec hrecs hr
  rw [readRecord, eval, run_bind_ok hkey, run_bind_ok hval, encRec_length]
  simp only [Nat.add_assoc]
  rfl

theorem eval_readEntry {e : Entry} (he : e.1.length < 2 ^ 32 ∧ e.2 < 2 ^ 64)
    (hseg : SegAt db.file pos (encKid B e)) :
    eval (readEntry B pos) db = .ok ((e, pos + (encKid B e).length), db) := by
  have hkids : SegAt db.file pos (encKids B [e]) := by simpa using hseg
  obtain ⟨hkey, hoff, -⟩ := eval_readKid hkids he
  rw [readEntry, eval, run_bind_ok hkey, run_bind_ok hoff, encKid_length]
  simp only [Nat.add_assoc]
  rfl

/-- The bytes of a leaf are read as that leaf. -/
theorem leafReads_of_enc {rope : Rope} {rs : List Rec}
    (hrope : aodbmRopeToData rope = Node.enc B (.leaf rs)) (hfits : (Node.leaf rs).Fits) :
    LeafReads B rope rs := by
  intro db p hseg
  rw [hrope] at hseg
  have hnode : NodeAt B db.file p (.leaf rs) := ⟨hseg, hfits⟩
  have hmany := eval_readMany (fun r hr _ => eval_readRecord (hfits.2 r hr)) hnode.leafRecs
  have hsize : p + aodbmRopeSize rope = p + 5 + (rs.flatMap (encRec B)).length := by
    rw [ropeSize_eq, hrope]
    simp only [Node.enc, encRecs, List.length_append, from32_length, List.length_singleton]
    omega
  rw [readLeaf, eval, run_bind_ok (eval_leafType hnode), if_pos rfl,
    run_bind_ok (eval_leafCount hnode), run_bind_ok hmany, hsize]
  rfl

/-- The bytes of a branch are read as that branch. -/
theorem branchReads_of_enc {rope : Rope} {first : Nat} {es : List Entry}
    (hrope : aodbmRopeToData rope = Node.enc B (.branch first es))
    (hfits : (Node.branch first es).Fits) : BranchReads B rope first es := by
  intro db p hseg
  rw [hrope] at hseg
  have hnode : NodeAt B db.file p (.branch first es) := ⟨hseg, hfits⟩
  have hmany := eval_readMany (fun e he _ => eval_readEntry (hfits.2.2 e he)) hnode.branchKids
  have hsize : p + aodbmRopeSize rope = p + 13 + (es.flatMap (encKid B)).length := by
    rw [ropeSize_eq, hrope]
    simp only [Node.enc, encKids, List.length_append, from32_length, from64_length,
      List.length_singleton]
    omega
  rw [readBranch, eval, run_bind_ok (eval_branchType hnode), if_pos rfl,
    run_bind_ok (eval_branchCount hnode), run_bind_ok (eval_branchFirst hnode),
    run_bind_ok hmany, hsize]
  rfl

@[simp] theorem toData_recordsRope (rs : List Rec) :
    aodbmRopeToData (recordsRope B rs) = encRecs B rs := by
  have hacc : ∀ data : Rope, aodbmRopeToData (rs.foldl
      (fun data r => aodbmRopeMerge data (makeRecord B r.1 r.2)) data) =
      aodbmRopeToData data ++ encRecs B rs := by
    induction rs with
    | nil => simp
    | cons r rs ih =>
      intro data
      rw [List.foldl_cons, ih]
      simp
  simpa [recordsRope] using hacc aodbmRopeEmpty

theorem toData_leafRope (rs : List Rec) :
    aodbmRopeToData (leafRope B rs) = Node.enc B (.leaf rs) := by
  simp [leafRope, addHeader, Node.enc]

theorem halves_branchesOf (es : List Entry) : Halves B (branchesOf B es) es := by
  have := (halves_init (B := B)).addAll es
  rwa [List.nil_append] at this

/-- A branch that holds entries is read back as these, if they fit the format. -/
theorem Holds.branchIs {br : Branch} {es : List Entry} (hb : Holds B br es) (hne : es ≠ [])
    (hfits : (entryNode es).Fits) : BranchIs B br.key (branchToRope B br) es := by
  obtain ⟨e, es, rfl⟩ := List.exists_cons_of_ne_nil hne
  obtain ⟨hkey, hrope⟩ := hb.rope hne
  exact ⟨hkey, branchReads_of_enc hrope hfits⟩

/-- The two branches together hold all entries. -/
theorem holds_merged (es : List Entry) :
    Holds B (mergeBranches B (branchesOf B es).1 (branchesOf B es).2) es := by
  have hM := B.four_le
  obtain ⟨hl, hr⟩ := halves_branchesOf (B := B) es
  have hmerged := hl.merge hr fun h => by
    have hlen := congrArg List.length h
    simp only [List.length_take, List.length_nil] at hlen
    exact List.drop_of_length_le (by omega)
  rwa [List.take_append_drop] at hmerged

/-- Nodes are read as they were encoded, and copied as they stand: leaves made of a header and
records; branches, joined or not; the root over two nodes; and every run of records. -/
theorem node_round_trip (B : Build) :
    (∀ rs : List Rec, (Node.leaf rs).Fits → LeafReads B (leafRope B rs) rs) ∧
      (∀ key val : Data, key.length < 2 ^ 32 → val.length < 2 ^ 32 →
        LeafReads B (aodbmLeafNode B key val) [(key, val)]) ∧
      (∀ es : List Entry,
        ∀ branch ∈ [(mergeBranches B (branchesOf B es).1 (branchesOf B es).2, es),
            ((branchesOf B es).1, es.take (B.maxNodeSize / 2)),
            ((branchesOf B es).2, es.drop (B.maxNodeSize / 2))],
          branch.2 ≠ [] → (entryNode branch.2).Fits →
            BranchIs B branch.1.key (branchToRope B branch.1) branch.2) ∧
      (∀ (a b : Nat) (key : Data), a < 2 ^ 64 → b < 2 ^ 64 → key.length < 2 ^ 32 →
        BranchReads B (aodbmBranch B a key b) a [(key, b)]) ∧
      ∀ (db : Db) (pos : Nat) (rs : List Rec),
        (∀ r ∈ rs, r.1.length < 2 ^ 32 ∧ r.2.length < 2 ^ 32) →
        SegAt db.file pos (aodbmRopeToData (recordsRope B rs)) →
          ∃ range, eval (duplicateLeafRange B pos rs.length) db = .ok (range, db) ∧
            aodbmRopeToData range.node = aodbmRopeToData (recordsRope B rs) ∧
            range.endPos = pos + aodbmRopeSize (recordsRope B rs) := by
  refine ⟨?leaf, ?record, ?branches, ?root, ?copy⟩
  case leaf => exact fun rs hfits => leafReads_of_enc (toData_leafRope rs) hfits
  case record =>
    intro key val hkey hval
    have hrope : aodbmRopeToData (aodbmLeafNode B key val) = Node.enc B (.leaf [(key, val)]) := by
      simp [aodbmLeafNode, Node.enc]
    have hfits : (Node.leaf [(key, val)]).Fits :=
      ⟨by simp, List.forall_mem_singleton.mpr ⟨hkey, hval⟩⟩
    exact leafReads_of_enc hrope hfits
  case branches =>
    intro es branch hbranch hne hfits
    have hhalves := halves_branchesOf (B := B) es
    simp only [List.mem_cons, List.not_mem_nil, or_false] at hbranch
    -- the joined branch holds all entries, the two halves those before and after the middle
    rcases hbranch with rfl | rfl | rfl
    · exact (holds_merged es).branchIs hne hfits
    · exact hhalves.left.branchIs hne hfits
    · exact hhalves.right.branchIs hne hfits
  case root =>
    intro a b key ha hb hkey
    have hrope : aodbmRopeToData (aodbmBranch B a key b) = Node.enc B (.branch a [(key, b)]) := by
      simp [aodbmBranch, Node.enc, encKid]
    have hfits : (Node.branch a [(key, b)]).Fits :=
      ⟨ha, by simp, List.forall_mem_singleton.mpr ⟨hkey, hb⟩⟩
    exact branchReads_of_enc hrope hfits
  case copy =>
    intro db pos rs hshort hseg
    rw [toData_recordsRope] at hseg
    obtain ⟨range, heval, hrange⟩ := eval_duplicateLeafRange hseg hshort
    refine ⟨range, heval, ?_, ?_⟩
    · rw [hrange.node, toData_recordsRope]
    · rw [hrange.pos, ropeSize_eq, toData_recordsRope]

/-- A leaf whose first record is empty. -/
example : aodbmRopeToData (leafRope ⟨4, rfl, Nat.le_refl 4, false, false⟩
    [([], []), ([7], [1, 2])]) =
    [108, 0, 0, 0, 2, 0, 0, 0, 0, 0, 0, 0, 0, 0, 0, 0, 1, 7, 0, 0, 0, 2, 1, 2] := by
  decide +kernel

end Aodbm
