import Aodbm.Update

/-!
# Nodes in the file

`NodeAt B file off n`: the complete node `n` stands in the file at offset `off`, in
the format the source documents. The readers give back what the node holds, and a
position holds at most one node.
-/

namespace Aodbm

open Effects Bytes

/-- A record of a leaf. -/
abbrev Rec := Data × Data

/-- The contents of a node: the records of a leaf, or the first offset of a branch
and its `(key, offset)` pairs. -/
inductive Node where
  | leaf (recs : List Rec)
  | branch (first : Nat) (rest : List (Data × Nat))

variable (B : Build)

/-- The bytes of `make_block`. -/
def encData (d : Data) : Data := aodbmDataFrom32 B (d.length % 2 ^ 32) ++ d

/-- The bytes of `make_record`. -/
def encRec (r : Rec) : Data := encData B r.1 ++ encData B r.2

def encRecs (rs : List Rec) : Data := rs.flatMap (encRec B)

/-- The bytes of a key and the offset after it in a branch. -/
def encKid (kc : Data × Nat) : Data := encData B kc.1 ++ aodbmDataFrom64 B kc.2

def encKids (kcs : List (Data × Nat)) : Data := kcs.flatMap (encKid B)

def Node.enc : Node → Data
  | .leaf rs => [leafType] ++ aodbmDataFrom32 B rs.length ++ encRecs B rs
  | .branch first rest =>
    [branchType] ++ aodbmDataFrom32 B rest.length ++ (aodbmDataFrom64 B first ++ encKids B rest)

/-- Every length and every offset fits its field. -/
def Node.Fits : Node → Prop
  | .leaf rs => rs.length < 2 ^ 32 ∧ ∀ r ∈ rs, r.1.length < 2 ^ 32 ∧ r.2.length < 2 ^ 32
  | .branch first rest => first < 2 ^ 64 ∧ rest.length < 2 ^ 32 ∧
    ∀ kc ∈ rest, kc.1.length < 2 ^ 32 ∧ kc.2 < 2 ^ 64

/-- The node `n` stands in the file at `off`. -/
structure NodeAt (file : Data) (off : Nat) (n : Node) : Prop where
  seg : SegAt file off (n.enc B)
  fits : n.Fits

variable {B}

@[simp] theorem toData_makeBlock (d : Data) : aodbmRopeToData (makeBlock B d) = encData B d := by
  simp [makeBlock, encData]

@[simp] theorem toData_makeRecord (k v : Data) :
    aodbmRopeToData (makeRecord B k v) = encRec B (k, v) := by
  simp [makeRecord, encRec]

@[simp] theorem encData_length (d : Data) : (encData B d).length = d.length + 4 := by
  simp [encData]
  omega

@[simp] theorem encRec_length (r : Rec) :
    (encRec B r).length = r.1.length + 4 + (r.2.length + 4) := by
  simp [encRec]

@[simp] theorem encKid_length (kc : Data × Nat) :
    (encKid B kc).length = kc.1.length + 4 + 8 := by
  simp [encKid]

@[simp] theorem encRecs_nil : encRecs B [] = [] := rfl

@[simp] theorem encRecs_cons (r : Rec) (rs : List Rec) :
    encRecs B (r :: rs) = encRec B r ++ encRecs B rs := rfl

@[simp] theorem encRecs_append (rs ss : List Rec) :
    encRecs B (rs ++ ss) = encRecs B rs ++ encRecs B ss := by
  simp [encRecs]

@[simp] theorem encKids_nil : encKids B [] = [] := rfl

@[simp] theorem encKids_cons (kc : Data × Nat) (kcs : List (Data × Nat)) :
    encKids B (kc :: kcs) = encKid B kc ++ encKids B kcs := rfl

@[simp] theorem encKids_append (kcs lcs : List (Data × Nat)) :
    encKids B (kcs ++ lcs) = encKids B kcs ++ encKids B lcs := by
  simp [encKids]

/-- The bytes of a record are not shorter than its key and value. -/
theorem encRecs_length_ge {rs : List Rec} {r : Rec} (h : r ∈ rs) :
    r.1.length + r.2.length + 8 ≤ (encRecs B rs).length := by
  induction rs with
  | nil => cases h
  | cons s rs ih =>
    rw [encRecs_cons, List.length_append, encRec_length]
    rcases List.mem_cons.mp h with rfl | h
    · omega
    · have := ih h
      omega

theorem encRecs_length_count (rs : List Rec) : 8 * rs.length ≤ (encRecs B rs).length := by
  induction rs with
  | nil => simp
  | cons s rs ih =>
    rw [encRecs_cons, List.length_append, encRec_length, List.length_cons]
    omega

theorem encRecs_succ_pos {pos : Nat} (r : Rec) (rs : List Rec) :
    pos + r.1.length + 4 + r.2.length + 4 + (encRecs B rs).length =
      pos + (encRecs B (r :: rs)).length := by
  rw [encRecs_cons, List.length_append, encRec_length]
  omega

theorem encKids_length_ge {kcs : List (Data × Nat)} {kc : Data × Nat} (h : kc ∈ kcs) :
    kc.1.length + 12 ≤ (encKids B kcs).length := by
  induction kcs with
  | nil => cases h
  | cons s kcs ih =>
    rw [encKids_cons, List.length_append, encKid_length]
    rcases List.mem_cons.mp h with rfl | h
    · omega
    · have := ih h
      omega

theorem encKids_length_count (kcs : List (Data × Nat)) :
    12 * kcs.length ≤ (encKids B kcs).length := by
  induction kcs with
  | nil => simp
  | cons s kcs ih =>
    rw [encKids_cons, List.length_append, encKid_length, List.length_cons]
    omega

/-- A leaf whose bytes are fewer than `2 ^ 32` fits the format. -/
theorem leaf_fits {rs : List Rec} (h : (Node.enc B (.leaf rs)).length < 2 ^ 32) :
    (Node.leaf rs).Fits := by
  simp only [Node.enc, List.length_append, from32_length, List.length_singleton] at h
  refine ⟨?_, fun r hr => ?_⟩
  · have := encRecs_length_count (B := B) rs
    omega
  · have := encRecs_length_ge (B := B) hr
    omega

/-- A branch whose bytes are fewer than `2 ^ 32` fits the format if its offsets do. -/
theorem branch_fits {c : Nat} {kcs : List (Data × Nat)}
    (h : (Node.enc B (.branch c kcs)).length < 2 ^ 32) (hc : c < 2 ^ 64)
    (hkcs : ∀ kc ∈ kcs, kc.2 < 2 ^ 64) : (Node.branch c kcs).Fits := by
  simp only [Node.enc, List.length_append, from32_length, from64_length,
    List.length_singleton] at h
  refine ⟨hc, ?_, fun kc hkc => ⟨?_, hkcs kc hkc⟩⟩
  · have := encKids_length_count (B := B) kcs
    omega
  · have := encKids_length_ge (B := B) hkc
    omega

section Read
variable {db : Db} {file file' : Data} {off : Nat}

theorem eval_readData {d : Data} (h : SegAt db.file off (encData B d))
    (hd : d.length < 2 ^ 32) : eval (aodbmReadData B off) db = .ok (d, db) := by
  have hd' : d.length % 2 ^ 32 = d.length := Nat.mod_eq_of_lt hd
  unfold encData at h
  rw [hd'] at h
  have h4 := h.right
  rw [from32_length] at h4
  unfold aodbmReadData eval
  rw [run_bind_ok (eval_read32 h.left hd)]
  exact eval_read h4

theorem NodeAt.mono {n : Node} (h : NodeAt B file off n) (hf : file <+: file') :
    NodeAt B file' off n :=
  ⟨h.seg.mono hf, h.fits⟩

theorem NodeAt.of_prefix {n : Node} (h : NodeAt B file off n) (hf : file' <+: file)
    (hle : off + (n.enc B).length ≤ file'.length) : NodeAt B file' off n :=
  ⟨h.seg.of_prefix hf hle, h.fits⟩

theorem NodeAt.leafType {rs : List Rec} (h : NodeAt B file off (.leaf rs)) :
    SegAt file off [leafType] := h.seg.left.left

theorem NodeAt.leafCount {rs : List Rec} (h : NodeAt B file off (.leaf rs)) :
    SegAt file (off + 1) (aodbmDataFrom32 B rs.length) := h.seg.left.right

theorem NodeAt.leafRecs {rs : List Rec} (h : NodeAt B file off (.leaf rs)) :
    SegAt file (off + 5) (encRecs B rs) := by
  have := h.seg.right
  simpa using this

theorem NodeAt.branchType {c : Nat} {kcs : List (Data × Nat)}
    (h : NodeAt B file off (.branch c kcs)) : SegAt file off [branchType] := h.seg.left.left

theorem NodeAt.branchCount {c : Nat} {kcs : List (Data × Nat)}
    (h : NodeAt B file off (.branch c kcs)) :
    SegAt file (off + 1) (aodbmDataFrom32 B kcs.length) := h.seg.left.right

theorem NodeAt.branchFirst {c : Nat} {kcs : List (Data × Nat)}
    (h : NodeAt B file off (.branch c kcs)) : SegAt file (off + 5) (aodbmDataFrom64 B c) := by
  have := h.seg.right.left
  simpa using this

theorem NodeAt.branchKids {c : Nat} {kcs : List (Data × Nat)}
    (h : NodeAt B file off (.branch c kcs)) : SegAt file (off + 13) (encKids B kcs) := by
  have := h.seg.right.right
  simpa [Nat.add_assoc] using this

/-! ## A position holds at most one node -/

theorem encData_unique {d e : Data} (hd : SegAt file off (encData B d))
    (he : SegAt file off (encData B e)) (hd' : d.length < 2 ^ 32) (he' : e.length < 2 ^ 32) :
    d = e := by
  unfold encData at hd he
  rw [Nat.mod_eq_of_lt hd'] at hd
  rw [Nat.mod_eq_of_lt he'] at he
  have hlen := hd.left.unique he.left (by simp)
  have hde : d.length = e.length := by rw [← to32_from32 (B := B) hd', hlen, to32_from32 he']
  have h1 := hd.right
  have h2 := he.right
  rw [from32_length] at h1 h2
  exact h1.unique h2 hde

theorem encRecs_unique {rs ss : List Rec} (hl : rs.length = ss.length)
    (hr : SegAt file off (encRecs B rs)) (hs : SegAt file off (encRecs B ss))
    (hr' : ∀ r ∈ rs, r.1.length < 2 ^ 32 ∧ r.2.length < 2 ^ 32)
    (hs' : ∀ r ∈ ss, r.1.length < 2 ^ 32 ∧ r.2.length < 2 ^ 32) : rs = ss := by
  induction rs generalizing ss off with
  | nil => exact (List.length_eq_zero_iff.mp hl.symm).symm
  | cons r rs ih =>
    cases ss with
    | nil => simp at hl
    | cons s ss =>
      rw [encRecs_cons] at hr hs
      obtain ⟨h1, h2⟩ := hr' r List.mem_cons_self
      obtain ⟨h3, h4⟩ := hs' s List.mem_cons_self
      have hk : r.1 = s.1 := encData_unique hr.left.left hs.left.left h1 h3
      have hvr := hr.left.right
      have hvs := hs.left.right
      rw [encData_length] at hvr hvs
      have hv : r.2 = s.2 := encData_unique hvr (hk ▸ hvs) h2 h4
      have hrs : r = s := Prod.ext hk hv
      subst hrs
      rw [ih (by simpa using hl) hr.right hs.right
        (fun t ht => hr' t (List.mem_cons_of_mem _ ht))
        (fun t ht => hs' t (List.mem_cons_of_mem _ ht))]

theorem encKids_unique {ks ls : List (Data × Nat)} (hl : ks.length = ls.length)
    (hk : SegAt file off (encKids B ks)) (hl' : SegAt file off (encKids B ls))
    (hkf : ∀ kc ∈ ks, kc.1.length < 2 ^ 32 ∧ kc.2 < 2 ^ 64)
    (hlf : ∀ kc ∈ ls, kc.1.length < 2 ^ 32 ∧ kc.2 < 2 ^ 64) : ks = ls := by
  induction ks generalizing ls off with
  | nil => exact (List.length_eq_zero_iff.mp hl.symm).symm
  | cons k ks ih =>
    cases ls with
    | nil => simp at hl
    | cons l ls =>
      rw [encKids_cons] at hk hl'
      obtain ⟨h1, h2⟩ := hkf k List.mem_cons_self
      obtain ⟨h3, h4⟩ := hlf l List.mem_cons_self
      have hkey : k.1 = l.1 := encData_unique hk.left.left hl'.left.left h1 h3
      have hvk := hk.left.right
      have hvl := hl'.left.right
      rw [encData_length] at hvk hvl
      have hoff := hvk.unique (hkey ▸ hvl) (by simp)
      have href : k.2 = l.2 := by rw [← to64_from64 (B := B) h2, hoff, to64_from64 h4]
      have hkl : k = l := Prod.ext hkey href
      subst hkl
      rw [ih (by simpa using hl) hk.right hl'.right
        (fun t ht => hkf t (List.mem_cons_of_mem _ ht))
        (fun t ht => hlf t (List.mem_cons_of_mem _ ht))]

/-- A position of the file holds at most one node. -/
theorem NodeAt.unique {n m : Node} (hn : NodeAt B file off n) (hm : NodeAt B file off m) :
    n = m := by
  have hne : Aodbm.leafType ≠ Aodbm.branchType := by decide
  cases n with
  | leaf rs =>
    cases m with
    | leaf ss =>
      have hc := hn.leafCount.unique hm.leafCount (by simp)
      have hl : rs.length = ss.length := by
        rw [← to32_from32 (B := B) hn.fits.1, hc, to32_from32 hm.fits.1]
      rw [encRecs_unique hl hn.leafRecs hm.leafRecs hn.fits.2 hm.fits.2]
    | branch c ks =>
      have := hn.leafType.unique hm.branchType rfl
      exact absurd (List.singleton_inj.mp this) hne
  | branch c ks =>
    cases m with
    | leaf ss =>
      have := hm.leafType.unique hn.branchType rfl
      exact absurd (List.singleton_inj.mp this) hne
    | branch d ls =>
      have hcount := hn.branchCount.unique hm.branchCount (by simp)
      have hl : ks.length = ls.length := by
        rw [← to32_from32 (B := B) hn.fits.2.1, hcount, to32_from32 hm.fits.2.1]
      have hfirst := hn.branchFirst.unique hm.branchFirst (by simp)
      have hc : c = d := by rw [← to64_from64 (B := B) hn.fits.1, hfirst, to64_from64 hm.fits.1]
      rw [hc, encKids_unique hl hn.branchKids hm.branchKids hn.fits.2.2 hm.fits.2.2]

/-! ## What the readers find in a node -/

theorem eval_leafType {rs : List Rec} (h : NodeAt B db.file off (.leaf rs)) :
    eval (readType off) db = .ok (Aodbm.leafType, db) := eval_readType h.leafType

theorem eval_leafCount {rs : List Rec} (h : NodeAt B db.file off (.leaf rs)) :
    eval (aodbmRead32 B (off + 1)) db = .ok (rs.length, db) := eval_read32 h.leafCount h.fits.1

theorem eval_branchType {c : Nat} {kcs : List (Data × Nat)}
    (h : NodeAt B db.file off (.branch c kcs)) :
    eval (readType off) db = .ok (Aodbm.branchType, db) := eval_readType h.branchType

theorem eval_branchCount {c : Nat} {kcs : List (Data × Nat)}
    (h : NodeAt B db.file off (.branch c kcs)) :
    eval (aodbmRead32 B (off + 1)) db = .ok (kcs.length, db) :=
  eval_read32 h.branchCount h.fits.2.1

theorem eval_branchFirst {c : Nat} {kcs : List (Data × Nat)}
    (h : NodeAt B db.file off (.branch c kcs)) :
    eval (aodbmRead64 B (off + 5)) db = .ok (c, db) := eval_read64 h.branchFirst h.fits.1

/-- The two reads of a record. -/
theorem eval_readRec {r : Rec} {rs : List Rec} {pos : Nat}
    (h : SegAt db.file pos (encRecs B (r :: rs)))
    (hr : r.1.length < 2 ^ 32 ∧ r.2.length < 2 ^ 32) :
    eval (aodbmReadData B pos) db = .ok (r.1, db) ∧
      eval (aodbmReadData B (pos + r.1.length + 4)) db = .ok (r.2, db) ∧
      SegAt db.file (pos + r.1.length + 4 + r.2.length + 4) (encRecs B rs) := by
  rw [encRecs_cons] at h
  have hv := h.left.right
  have hrest := h.right
  rw [encData_length] at hv
  rw [encRec_length] at hrest
  refine ⟨eval_readData h.left.left hr.1, ?_, ?_⟩
  · rw [Nat.add_assoc]
    exact eval_readData hv hr.2
  · have he : pos + r.1.length + 4 + r.2.length + 4 =
        pos + (r.1.length + 4 + (r.2.length + 4)) := by omega
    rw [he]
    exact hrest

/-- The two reads of a key and the offset after it. -/
theorem eval_readKid {kc : Data × Nat} {kcs : List (Data × Nat)} {pos : Nat}
    (h : SegAt db.file pos (encKids B (kc :: kcs)))
    (hk : kc.1.length < 2 ^ 32 ∧ kc.2 < 2 ^ 64) :
    eval (aodbmReadData B pos) db = .ok (kc.1, db) ∧
      eval (aodbmRead64 B (pos + kc.1.length + 4)) db = .ok (kc.2, db) ∧
      SegAt db.file (pos + kc.1.length + 4 + 8) (encKids B kcs) := by
  rw [encKids_cons] at h
  have hv := h.left.right
  have hrest := h.right
  rw [encData_length] at hv
  rw [encKid_length] at hrest
  refine ⟨eval_readData h.left.left hk.1, ?_, ?_⟩
  · rw [Nat.add_assoc]
    exact eval_read64 hv hk.2
  · have he : pos + kc.1.length + 4 + 8 = pos + (kc.1.length + 4 + 8) := by omega
    rw [he]
    exact hrest

end Read

end Aodbm
