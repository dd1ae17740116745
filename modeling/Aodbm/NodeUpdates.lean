import Mathlib.Data.List.TakeDrop
import Aodbm.NodeFormat
import Aodbm.Run

/-!
# Updates of one node

What a reader finds in the nodes that replace a branch or a leaf. A key or a value of
`2 ^ 32` bytes or more does not fit its field: `make_block` writes its length modulo
`2 ^ 32`, so that the node is not read back as it was meant.

Results:
1. `branch_splice`: `modify_branch` puts the replacement where the child was, and splits a
   branch of `M` entries or more, exactly if the keys it places fit their fields.
2. `leaf_insertion`: `insert_into_leaf` puts the record at its place, and splits a full leaf,
   exactly if the key and the value fit their fields.
-/

namespace Aodbm

open Effects Records Bytes

/-! ## Branches -/

section Branches
variable (B : Build)

/-- A reader finds the entries in the nodes that `modify_branch` returns: in none if there are
no entries, in one if there are fewer than `M`, and in two otherwise. -/
inductive BranchesRead : ModifyResult → List Entry → Prop where
  | none : BranchesRead ⟨none, none, none, none⟩ []
  | one {a : Rope} {ka : Option Data} {es : List Entry} (few : es.length < B.maxNodeSize)
      (ha : BranchIs B ka a es) : BranchesRead ⟨some a, ka, none, none⟩ es
  | two {a b : Rope} {ka kb : Option Data} {es : List Entry} (many : B.maxNodeSize ≤ es.length)
      (ha : BranchIs B ka a (es.take (B.maxNodeSize / 2)))
      (hb : BranchIs B kb b (es.drop (B.maxNodeSize / 2))) :
      BranchesRead ⟨some a, ka, some b, kb⟩ es

/-- The entries that replace a child: none, one or two. -/
def replacement (a : Nat) (aKey : Option Data) (b : Nat) (bKey : Option Data) : List Entry :=
  (aKey.map fun k => (k, a)).toList ++ (bKey.map fun k => (k, b)).toList

/-- Keys in increasing order. -/
def Increasing (es : List Entry) : Prop := es.Pairwise fun d e => rank B d.1 < rank B e.1

variable {B}
variable {db : Db} {off : Nat} {es l r : List Entry} {c : Entry} {ab : Branch × Branch}

theorem length_le_of_rank_lt {a b : Data} (h : rank B a < rank B b) : a.length ≤ b.length := by
  unfold rank at h
  rw [Prod.Lex.toLex_lt_toLex] at h
  rcases h with h | h
  · exact h.le
  · exact h.1.le

/-- The key that is kept outside is not longer than the next one. -/
theorem BranchIs.short {key : Option Data} {rope : Rope} (h : BranchIs B key rope es)
    (hinc : Increasing B es) (hlen : 1 < es.length) : ∀ e ∈ es, e.1.length < 2 ^ 32 := by
  cases es with
  | nil => exact absurd h id
  | cons d es =>
    obtain ⟨e, hnext⟩ := List.exists_mem_of_length_pos (l := es) (by simpa using hlen)
    have htail := h.2.short
    intro f hf
    rcases List.mem_cons.mp hf with rfl | hf
    · have hle := length_le_of_rank_lt ((List.pairwise_cons.mp hinc).1 e hnext)
      exact lt_of_le_of_lt hle (htail e hnext)
    · exact htail f hf

/-- Unless a branch has one entry only, all its keys fit their fields. -/
theorem BranchesRead.short {nodes : ModifyResult} (h : BranchesRead B nodes es)
    (hinc : Increasing B es) : es.length = 1 ∨ ∀ e ∈ es, e.1.length < 2 ^ 32 := by
  have hM := B.four_le
  cases h with
  | none => exact Or.inr fun e he => absurd he List.not_mem_nil
  | one few ha =>
    by_cases hone : es.length = 1
    · exact Or.inl hone
    · refine Or.inr (ha.short hinc ?_)
      cases es with
      | nil => exact absurd ha id
      | cons d es => simp only [List.length_cons] at hone ⊢; omega
  | two many ha hb =>
    rw [← List.take_append_drop (B.maxNodeSize / 2) es] at hinc
    obtain ⟨h1, h2, -⟩ := List.pairwise_append.mp hinc
    refine Or.inr fun e he => ?_
    rw [← List.take_append_drop (B.maxNodeSize / 2) es] at he
    rcases List.mem_append.mp he with he | he
    · exact ha.short h1 (by rw [List.length_take]; omega) e he
    · exact hb.short h2 (by rw [List.length_drop]; omega) e he

/-- The parts of a branch that fit the format are read back. -/
theorem splitBranches_read (hab : Halves B ab es)
    (hfits : ∀ p ∈ halve B es, (entryNode p).Fits) :
    BranchesRead B (splitBranches B ab.1 ab.2) es := by
  have hM := B.four_le
  have heven := B.even
  have hpend := splitBranches_pend hab
  have hread : ∀ {rope : Rope} {p : List Entry}, p ∈ halve B es →
      aodbmRopeToData rope = (branchEntry p).2.enc B →
      BranchIs B (some (branchEntry p).1) rope p := by
    intro rope p hp hrope
    obtain ⟨e, p, rfl⟩ := List.exists_cons_of_ne_nil (halve_ne hp)
    exact ⟨rfl, branchReads_of_enc hrope (hfits _ hp)⟩
  cases es with
  | nil =>
    have hnone : splitBranches B ab.1 ab.2 = ⟨none, none, none, none⟩ := by
      have hl : ab.1.sz = 0 := by simpa using hab.left.sz
      have hr : ab.2.sz = 0 := by simpa using hab.right.sz
      have hjoin : (mergeBranches B ab.1 ab.2).sz = 0 := by simp [mergeBranches, hl, hr]
      rw [splitBranches, if_pos (by omega), if_pos hjoin]
    rw [hnone]
    exact .none
  | cons d es =>
  generalize splitBranches B ab.1 ab.2 = nodes at hpend
  unfold halve at hpend hread
  split at hpend
  · next hfew =>
    rw [if_pos hfew] at hread
    cases hpend with
    | one ka ha => exact .one (by omega) (hread List.mem_cons_self ha)
  · next hmany =>
    rw [if_neg hmany] at hread
    cases hpend with
    | two ka kb ha hb =>
      exact .two (by omega) (hread List.mem_cons_self ha)
        (hread (List.mem_cons_of_mem _ List.mem_cons_self) hb)

theorem mem_replacement {a b : Nat} {aKey bKey : Option Data} {e : Entry} :
    e ∈ replacement a aKey b bKey ↔
      (∃ k ∈ aKey, e = (k, a)) ∨ ∃ k ∈ bKey, e = (k, b) := by
  simp [replacement, eq_comm]

/-- The new entries increase, like the old ones. -/
theorem increasing_spliced {a b : Nat} {aKey bKey : Option Data}
    (hkeys : Increasing B (l ++ c :: r))
    (hplace : ∀ e ∈ replacement a aKey b bKey,
      rank B c.1 ≤ rank B e.1 ∧ ∀ d ∈ r, rank B e.1 < rank B d.1)
    (hab : ∀ ka ∈ aKey, ∀ kb ∈ bKey, rank B ka < rank B kb) :
    Increasing B (l ++ replacement a aKey b bKey ++ r) := by
  obtain ⟨hl, hcr, hlc⟩ := List.pairwise_append.mp hkeys
  obtain ⟨hc, hr⟩ := List.pairwise_cons.mp hcr
  have hrepl : Increasing B (replacement a aKey b bKey) := by
    cases aKey with
    | none => cases bKey <;> simp [replacement, Increasing]
    | some ka =>
      cases bKey with
      | none => simp [replacement, Increasing]
      | some kb => simpa [replacement, Increasing] using hab ka rfl kb rfl
  refine List.pairwise_append.mpr ⟨List.pairwise_append.mpr ⟨hl, hrepl, ?_⟩, hr, ?_⟩
  · intro d hd e he
    exact (hlc d hd c List.mem_cons_self).trans_le (hplace e he).1
  · intro d hd e he
    rcases List.mem_append.mp hd with hd | hd
    · exact hlc d hd e (List.mem_cons_of_mem _ he)
    · exact (hplace d hd).2 e he

/-- Entries fit the format when the keys behind the first one do. -/
theorem entryNode_fits (hne : es ≠ []) : (entryNode es).Fits ↔
    es.length ≤ 2 ^ 32 ∧ (∀ e ∈ es, e.2 < 2 ^ 64) ∧ ∀ e ∈ es.tail, e.1.length < 2 ^ 32 := by
  obtain ⟨d, es, rfl⟩ := List.exists_cons_of_ne_nil hne
  rw [List.forall_mem_cons, List.length_cons, List.tail_cons]
  constructor
  · rintro ⟨hd, hcount, hes⟩
    exact ⟨hcount, ⟨hd, fun e he => (hes e he).2⟩, fun e he => (hes e he).1⟩
  · rintro ⟨hcount, ⟨hd, hoff⟩, hkey⟩
    exact ⟨hd, hcount, fun e he => ⟨hkey e he, hoff e he⟩⟩

/-- What stands behind the first new entry fits the format, if the keys that are placed do. -/
theorem spliced_fits {a b : Nat} {aKey bKey : Option Data} (ha : a < 2 ^ 64) (hb : b < 2 ^ 64)
    (hnode : (entryNode (l ++ c :: r)).Fits)
    (hshort : (l ++ replacement a aKey b bKey ++ r).length = 1 ∨
      ∀ e ∈ replacement a aKey b bKey, e.1.length < 2 ^ 32) :
    (∀ e ∈ l ++ replacement a aKey b bKey ++ r, e.2 < 2 ^ 64) ∧
      ∀ e ∈ (l ++ replacement a aKey b bKey ++ r).tail, e.1.length < 2 ^ 32 := by
  obtain ⟨-, hoff, hkey⟩ := (entryNode_fits (by simp)).mp hnode
  refine ⟨fun e he => ?_, fun e he => ?_⟩
  · simp only [List.mem_append] at he
    rcases he with (he | he) | he
    · exact hoff e (by simp [he])
    · rcases mem_replacement.mp he with ⟨k, -, rfl⟩ | ⟨k, -, rfl⟩
      · exact ha
      · exact hb
    · exact hoff e (by simp [he])
  · rcases hshort with hone | hshort
    · obtain ⟨d, hd⟩ := List.length_eq_one_iff.mp hone
      rw [hd] at he
      exact absurd he List.not_mem_nil
    · cases l with
      | nil =>
        have hmem : e ∈ replacement a aKey b bKey ∨ e ∈ r := by
          simpa using List.mem_of_mem_tail he
        exact hmem.elim (hshort e) (hkey e)
      | cons d l =>
        have hmem : e ∈ l ∨ e ∈ replacement a aKey b bKey ∨ e ∈ r := by
          simpa [or_assoc] using he
        rcases hmem with hl | hnew | hr
        · exact hkey e (List.mem_append_left _ hl)
        · exact hshort e hnew
        · exact hkey e (List.mem_append_right _ (List.mem_cons_of_mem _ hr))

theorem mem_halve {p : List Entry} (hp : p ∈ halve B es) :
    (p = es ∧ es.length < B.maxNodeSize) ∨ p = es.take (B.maxNodeSize / 2) ∨
      p = es.drop (B.maxNodeSize / 2) := by
  have hM := B.four_le
  have heven := B.even
  unfold halve at hp
  split at hp
  · split at hp
    · cases hp
    · exact Or.inl ⟨List.mem_singleton.mp hp, by omega⟩
  · exact Or.inr (List.mem_pair.mp hp)

/-- The parts of entries fit the format when all entries behind the first do. -/
theorem halve_fits (hM : B.maxNodeSize ≤ 2 ^ 32) (hlen : es.length ≤ 2 ^ 32 + 1)
    (hoff : ∀ e ∈ es, e.2 < 2 ^ 64) (hkey : ∀ e ∈ es.tail, e.1.length < 2 ^ 32) :
    ∀ p ∈ halve B es, (entryNode p).Fits := by
  have h4 := B.four_le
  have hfits : ∀ {p : List Entry}, p ≠ [] → p.length ≤ 2 ^ 32 → (∀ e ∈ p, e ∈ es) →
      (∀ e ∈ p.tail, e ∈ es.tail) → (entryNode p).Fits := fun hne hcount hsub htail =>
    (entryNode_fits hne).mpr
      ⟨hcount, fun e he => hoff e (hsub e he), fun e he => hkey e (htail e he)⟩
  intro p hp
  have hne := halve_ne hp
  rcases mem_halve hp with ⟨rfl, hfew⟩ | rfl | rfl
  · exact hfits hne (by omega) (fun e he => he) (fun e he => he)
  · refine hfits hne (by rw [List.length_take]; omega) (fun e he => List.mem_of_mem_take he) ?_
    intro e he
    rw [List.tail_take_eq_take_tail] at he
    exact List.mem_of_mem_take he
  · refine hfits hne (by rw [List.length_drop]; omega) (fun e he => List.mem_of_mem_drop he) ?_
    -- the second half does not contain the first entry
    intro e he
    have hmem := List.mem_of_mem_tail he
    obtain ⟨n, hn⟩ : ∃ n, B.maxNodeSize / 2 = n + 1 := ⟨B.maxNodeSize / 2 - 1, by omega⟩
    rw [hn, ← List.drop_tail] at hmem
    exact List.mem_of_mem_drop hmem

/-- The nodes that `modify_branch` returns hold the old entries with the replacement in the
place of the child, exactly if the keys that are placed fit their fields. `MAX_NODE_SIZE` is
compared with counts of type `uint32_t`. -/
theorem branch_splice {nodeKey : Data} {a b : Nat} {aKey bKey : Option Data}
    (hM : B.maxNodeSize ≤ 2 ^ 32)
    (hnode : NodeAt B db.file off (entryNode (l ++ c :: r)))
    (hfirst : (l ++ c :: r).head?.map Prod.fst = some nodeKey)
    (hkeys : Increasing B (l ++ c :: r))
    (hrefs : (l ++ c :: r).Pairwise fun d e => d.2 ≠ e.2) (hpos : ∀ d ∈ l ++ c :: r, d.2 ≠ 0)
    (ha : a < 2 ^ 64) (hb : b < 2 ^ 64)
    (hplace : ∀ e ∈ replacement a aKey b bKey,
      rank B c.1 ≤ rank B e.1 ∧ ∀ d ∈ r.head?, rank B e.1 < rank B d.1)
    (hab : ∀ ka ∈ aKey, ∀ kb ∈ bKey, rank B ka < rank B kb) :
    (∃ nodes, eval (modifyBranch B off nodeKey a aKey b bKey c.2 0) db = .ok (nodes, db) ∧
        BranchesRead B nodes (l ++ replacement a aKey b bKey ++ r)) ↔
      (l ++ replacement a aKey b bKey ++ r).length = 1 ∨
        ∀ e ∈ replacement a aKey b bKey, e.1.length < 2 ^ 32 := by
  have hplace' : ∀ e ∈ replacement a aKey b bKey,
      rank B c.1 ≤ rank B e.1 ∧ ∀ d ∈ r, rank B e.1 < rank B d.1 := by
    intro e he
    refine ⟨(hplace e he).1, fun d hd => ?_⟩
    obtain ⟨-, hcr, -⟩ := List.pairwise_append.mp hkeys
    cases r with
    | nil => exact absurd hd List.not_mem_nil
    | cons f r =>
      have hlt := (hplace e he).2 f rfl
      rcases List.mem_cons.mp hd with rfl | hd
      · exact hlt
      · exact hlt.trans ((List.pairwise_cons.mp (List.pairwise_cons.mp hcr).2).1 d hd)
  obtain ⟨e, es, hes⟩ := List.exists_cons_of_ne_nil (l := l ++ c :: r) (by simp)
  have hkey : e.1 = nodeKey := by simpa [hes] using hfirst
  subst hkey
  have hhalves := halves_spliced hkeys hrefs hpos
    (fun p hp => hplace' p (List.mem_append_left _ (Option.mem_toList.mpr hp)))
    (fun p hp => hplace' p (List.mem_append_right _ (Option.mem_toList.mpr hp))) hes
  rw [List.append_assoc l] at hhalves
  have heval := eval_modifyBranch a b c.2 0 aKey bKey (hes ▸ hnode)
  constructor
  · rintro ⟨nodes, -, hread⟩
    refine (hread.short (increasing_spliced hkeys hplace' hab)).imp_right fun hshort d hd => ?_
    exact hshort d (by simp [hd])
  · intro hshort
    obtain ⟨hoff, hkey⟩ := spliced_fits ha hb hnode.fits hshort
    have hcount : (l ++ replacement a aKey b bKey ++ r).length ≤ 2 ^ 32 + 1 := by
      have hold := hnode.fits
      rw [hes] at hold
      have hlen := congrArg List.length hes
      have htwo : (replacement a aKey b bKey).length ≤ 2 := by
        cases aKey <;> cases bKey <;> simp [replacement]
      have := hold.2.1
      simp only [List.length_append, List.length_cons] at hlen ⊢
      omega
    exact ⟨_, heval, splitBranches_read hhalves (halve_fits hM hcount hoff hkey)⟩

/-- A branch with two children, at offsets 1 and 2. -/
def twoKids : List Entry := [([], 1), ([1], 2)]

/-- A file that holds this branch only. -/
def twoKidsDb : Db := ⟨Node.enc smallBuild (entryNode twoKids), 26, 0⟩

theorem twoKids_at : NodeAt smallBuild twoKidsDb.file 0 (entryNode twoKids) :=
  ⟨⟨[], [], by simp [twoKidsDb], rfl⟩, by simp [twoKids, entryNode, Node.Fits]⟩

/-- The second child is replaced by two nodes. -/
theorem branch_splice_twoKids :
    ∃ nodes, eval (modifyBranch smallBuild 0 [] 3 (some [1]) 4 (some [2]) 2 0) twoKidsDb =
        .ok (nodes, twoKidsDb) ∧ BranchesRead smallBuild nodes [([], 1), ([1], 3), ([2], 4)] :=
  (@branch_splice smallBuild twoKidsDb 0 [([], 1)] [] ([1], 2) [] 3 4 (some [1]) (some [2])
    (by decide) twoKids_at rfl (by unfold Increasing; decide) (by decide) (by decide)
    (by decide) (by decide) (by decide) (by decide)).mpr (Or.inr (by decide))

/-- The second child is replaced by one node, under a key of `2 ^ 32` bytes. -/
theorem splice_unreadable :
    NodeAt smallBuild twoKidsDb.file 0 (entryNode twoKids) ∧
      ¬ ∃ nodes, eval (modifyBranch smallBuild 0 [] 3 (some (List.replicate (2 ^ 32) 0)) 0 none 2 0)
          twoKidsDb = .ok (nodes, twoKidsDb) ∧
        BranchesRead smallBuild nodes [([], 1), (List.replicate (2 ^ 32) 0, 3)] := by
  refine ⟨twoKids_at, ?_⟩
  generalize hk : List.replicate (2 ^ 32) (0 : UInt8) = k
  have hlen : k.length = 2 ^ 32 := hk ▸ List.length_replicate
  rintro ⟨nodes, -, hread⟩
  have hinc : Increasing smallBuild [([], 1), (k, 3)] := by
    have hlt : rank smallBuild [] < rank smallBuild k :=
      Prod.Lex.toLex_lt_toLex.mpr (Or.inl (by simp [hlen]))
    simpa [Increasing] using hlt
  rcases hread.short hinc with hone | hshort
  · simp at hone
  · have hlt : k.length < 2 ^ 32 := hshort (k, 3) (by simp)
    omega

end Branches

/-! ## Leaves -/

section Leaves
variable (B : Build)

/-- The leaf in the rope has the given records, the first of them under the given key. -/
def LeafIs (key : Option Data) (rope : Rope) : List Rec → Prop
  | [] => False
  | r :: rs => key = some r.1 ∧ LeafReads B rope (r :: rs)

/-- A reader finds the records in the nodes that replace a leaf of `n` records: in one leaf if
it was not full, and otherwise in two that are at least half full. -/
inductive LeavesRead (n : Nat) : ModifyResult → List Rec → Prop where
  | one {a : Rope} {ka : Option Data} {rs : List Rec} (few : n < B.maxNodeSize)
      (ha : LeafIs B ka a rs) : LeavesRead n ⟨some a, ka, none, none⟩ rs
  | two {a b : Rope} {ka kb : Option Data} {rs ss : List Rec} (full : n = B.maxNodeSize)
      (ha : LeafIs B ka a rs) (hb : LeafIs B kb b ss) (hrs : B.maxNodeSize / 2 ≤ rs.length)
      (hss : B.maxNodeSize / 2 ≤ ss.length) :
      LeavesRead n ⟨some a, ka, some b, kb⟩ (rs ++ ss)

/-- The record of the key `k` is replaced, or the new one is put at its sorted place. -/
inductive RecordInserted (k x : Data) : List Rec → List Rec → Prop where
  | replaced (l : List Rec) (v : Data) (t : List Rec) :
      RecordInserted k x (l ++ (k, v) :: t) (l ++ (k, x) :: t)
  | added (l t : List Rec) (absent : ∀ r ∈ l ++ t, r.1 ≠ k)
      (before : ∀ r ∈ l, aodbmDataLe B r.1 k) (after : ∀ r ∈ t, aodbmDataLt B k r.1) :
      RecordInserted k x (l ++ t) (l ++ (k, x) :: t)

variable {B}
variable {db : Db} {off n : Nat} {k x : Data} {rs new : List Rec} {nodes : ModifyResult}

theorem RecordInserted.mem (h : RecordInserted B k x rs new) : (k, x) ∈ new := by
  cases h <;> simp

theorem RecordInserted.length (h : RecordInserted B k x rs new) :
    (new.length = rs.length ∧ ∃ r ∈ rs, r.1 = k) ∨
      new.length = rs.length + 1 ∧ ∀ r ∈ rs, r.1 ≠ k := by
  cases h with
  | replaced l v t => exact Or.inl ⟨by simp, (k, v), by simp, rfl⟩
  | added l t absent before after => exact Or.inr ⟨by simp; omega, absent⟩

theorem RecordInserted.cons {r : Rec} (h : RecordInserted B k x rs new) (hne : r.1 ≠ k)
    (hle : aodbmDataLe B r.1 k) : RecordInserted B k x (r :: rs) (r :: new) := by
  cases h with
  | replaced l v t => exact .replaced (r :: l) v t
  | added l t absent before after =>
    exact .added (r :: l) t (List.forall_mem_cons.mpr ⟨hne, absent⟩)
      (List.forall_mem_cons.mpr ⟨hle, before⟩) after

/-- On sorted records an update is an insertion. -/
theorem inserted_upsert (hs : Sorted (rank B) rs) (k x : Data) :
    RecordInserted B k x rs (upsert (rank B) k x rs) := by
  induction rs with
  | nil =>
    exact .added [] [] (fun r hr => absurd hr List.not_mem_nil)
      (fun r hr => absurd hr List.not_mem_nil) fun r hr => absurd hr List.not_mem_nil
  | cons r rs ih =>
    obtain ⟨hr, hrs⟩ := List.pairwise_cons.mp hs
    unfold upsert
    split
    · next hk =>
      subst hk
      exact .replaced [] r.2 rs
    · next hk =>
      split
      · next hlt =>
        have habove : ∀ s ∈ r :: rs, rank B k < rank B s.1 :=
          List.forall_mem_cons.mpr ⟨hlt, fun s hmem => hlt.trans (hr s hmem)⟩
        refine .added [] (r :: rs) (fun s hmem hsk => ?_)
          (fun s hmem => absurd hmem List.not_mem_nil)
          fun s hmem => (aodbmDataLt_iff B).mpr (habove s hmem)
        exact absurd (hsk ▸ habove s hmem) (lt_irrefl _)
      · next hnlt =>
        have hle : aodbmDataLe B r.1 k = true := by
          rw [aodbmDataLe, aodbmDataGt, aodbmDataLt_eq, decide_eq_false hnlt]
          rfl
        exact (ih hrs).cons (fun h => hk h.symm) hle

theorem LeafIs.short {key : Option Data} {rope : Rope} (h : LeafIs B key rope rs) :
    rs.length < 2 ^ 32 ∧ ∀ r ∈ rs, r.1.length < 2 ^ 32 ∧ r.2.length < 2 ^ 32 := by
  cases rs with
  | nil => exact absurd h id
  | cons r rs => exact ⟨h.2.count, h.2.short⟩

theorem LeavesRead.short (h : LeavesRead B n nodes new) :
    (n < B.maxNodeSize → new.length < 2 ^ 32) ∧
      ∀ r ∈ new, r.1.length < 2 ^ 32 ∧ r.2.length < 2 ^ 32 := by
  cases h with
  | one few ha => exact ⟨fun _ => ha.short.1, ha.short.2⟩
  | two full ha hb hrs hss =>
    refine ⟨fun hlt => absurd full hlt.ne, fun r hr => ?_⟩
    rcases List.mem_append.mp hr with hr | hr
    · exact ha.short.2 r hr
    · exact hb.short.2 r hr

/-- A leaf whose records fit the format is read back. -/
theorem leafIs_of_enc {rope : Rope} (hrope : aodbmRopeToData rope = (leafEntry rs).2.enc B)
    (hne : rs ≠ []) (hfits : (Node.leaf rs).Fits) : LeafIs B (some (leafEntry rs).1) rope rs := by
  obtain ⟨r, rs, rfl⟩ := List.exists_cons_of_ne_nil hne
  exact ⟨rfl, leafReads_of_enc hrope hfits⟩

/-- One leaf is read back. -/
theorem Leaves.read_one (hl : Leaves B nodes [new] new) (few : n < B.maxNodeSize)
    (hfits : (Node.leaf new).Fits) : LeavesRead B n nodes new := by
  obtain ⟨hne, -⟩ := hl.part new (List.mem_singleton_self new)
  have hpend := hl.pend
  rw [List.map_singleton] at hpend
  cases hpend with
  | one ka ha => exact .one few (leafIs_of_enc ha hne hfits)

/-- Two halves are read back. -/
theorem Leaves.read_two {parts : List (List Rec)} {sizeA sizeB : Nat}
    (hl : Leaves B nodes parts new) (full : n = B.maxNodeSize) (hn : n < 2 ^ 32)
    (hsizes : parts.map List.length = [sizeA, sizeB]) (ha : B.maxNodeSize / 2 ≤ sizeA)
    (hb : B.maxNodeSize / 2 ≤ sizeB)
    (hshort : ∀ r ∈ new, r.1.length < 2 ^ 32 ∧ r.2.length < 2 ^ 32) :
    LeavesRead B n nodes new := by
  obtain ⟨p, ps, rfl, rfl, hps⟩ := List.map_eq_cons_iff.mp hsizes
  obtain ⟨q, rfl, rfl⟩ := List.map_eq_singleton_iff.mp hps
  obtain rfl : p ++ q = new := by simpa using hl.recs
  obtain ⟨hp, hplen⟩ := hl.part p (by simp)
  obtain ⟨hq, hqlen⟩ := hl.part q (by simp)
  have hpfits : (Node.leaf p).Fits :=
    ⟨by omega, fun r hr => hshort r (List.mem_append_left _ hr)⟩
  have hqfits : (Node.leaf q).Fits :=
    ⟨by omega, fun r hr => hshort r (List.mem_append_right _ hr)⟩
  have hpend := hl.pend
  rw [List.map_cons, List.map_singleton] at hpend
  cases hpend with
  | two ka kb hencA hencB =>
    exact .two full (leafIs_of_enc hencA hp hpfits) (leafIs_of_enc hencB hq hqfits) ha hb

/-- The leaves that `insert_into_leaf` returns hold the old records with the new one at its
place, exactly if the new key and value fit their fields, and the count does, too. -/
theorem leaf_insertion (hleaf : NodeAt B db.file off (.leaf rs))
    (hcount : rs.length ≤ B.maxNodeSize) (hs : Sorted (rank B) rs) (k x : Data) :
    (∃ nodes new, eval (insertIntoLeaf B k x (off + 1)) db = .ok (nodes, db) ∧
        LeavesRead B rs.length nodes new ∧ RecordInserted B k x rs new) ↔
      k.length < 2 ^ 32 ∧ x.length < 2 ^ 32 ∧
        (rs.length + 1 < 2 ^ 32 ∨ ∃ r ∈ rs, r.1 = k) := by
  have hM := B.four_le
  have heven := B.even
  have hfits := hleaf.fits
  constructor
  · rintro ⟨nodes, new, -, hread, hins⟩
    obtain ⟨hlen, hshort⟩ := hread.short
    obtain ⟨hk, hx⟩ := hshort (k, x) hins.mem
    refine ⟨hk, hx, ?_⟩
    rcases hins.length with ⟨-, hmem⟩ | ⟨hnew, -⟩
    · exact Or.inr hmem
    · have hold : rs.length < 2 ^ 32 := hfits.1
      rcases Nat.lt_or_eq_of_le hcount with hlt | hfull
      · exact Or.inl (hnew ▸ hlen hlt)
      · exact Or.inl (by omega)
  · rintro ⟨hk, hx, hroom⟩
    have hins := inserted_upsert (B := B) hs k x
    have hshort : ∀ r ∈ upsert (rank B) k x rs, r.1.length < 2 ^ 32 ∧ r.2.length < 2 ^ 32 := by
      intro r hr
      rcases mem_upsert hr with rfl | hr
      · exact ⟨hk, hx⟩
      · exact hfits.2 r hr
    rcases Nat.lt_or_eq_of_le hcount with hlt | hfull
    · obtain ⟨nodes, heval, hl⟩ := insertIntoLeaf_one hleaf hlt k x
      refine ⟨nodes, _, heval, hl.read_one hlt ⟨?_, hshort⟩, hins⟩
      -- the count field has room for one more, or no more is needed
      have hold : rs.length < 2 ^ 32 := hfits.1
      rcases hins.length with ⟨hsame, -⟩ | ⟨hmore, habsent⟩
      · omega
      · rcases hroom with hroom | ⟨r, hr, hrk⟩
        · omega
        · exact absurd hrk (habsent r hr)
    · obtain ⟨nodes, parts, heval, hl, hgrown⟩ := insertIntoLeaf_spec hleaf hcount k x
      rcases hgrown with ⟨hlt, -⟩ | ⟨sizeA, sizeB, hsizes, ha, hb⟩
      · exact absurd hfull hlt.ne
      · exact ⟨nodes, _, heval, hl.read_two hfull hfits.1 hsizes ha hb hshort, hins⟩

/-- Two records. -/
def twoRecs : List Rec := [([1], [10]), ([3], [30])]

/-- A file that holds their leaf only. -/
def twoRecsDb : Db := ⟨Node.enc smallBuild (.leaf twoRecs), 25, 0⟩

theorem twoRecs_at : NodeAt smallBuild twoRecsDb.file 0 (.leaf twoRecs) :=
  ⟨⟨[], [], by simp [twoRecsDb], rfl⟩, by simp [twoRecs, Node.Fits]⟩

/-- A record is put between two others. -/
theorem leaf_insertion_middle :
    ∃ nodes new, eval (insertIntoLeaf smallBuild [2] [20] 1) twoRecsDb = .ok (nodes, twoRecsDb) ∧
      LeavesRead smallBuild 2 nodes new ∧ RecordInserted smallBuild [2] [20] twoRecs new :=
  (leaf_insertion twoRecs_at (by decide) (by unfold Sorted; decide) [2] [20]).mpr
    ⟨by decide, by decide, Or.inl (by decide)⟩

/-- A file that holds a leaf without records. -/
def noRecsDb : Db := ⟨Node.enc smallBuild (.leaf []), 5, 0⟩

/-- A value of `2 ^ 32` bytes is put into an empty leaf. -/
theorem insertion_unreadable :
    NodeAt smallBuild noRecsDb.file 0 (.leaf []) ∧
      ¬ ∃ nodes new, eval (insertIntoLeaf smallBuild [] (List.replicate (2 ^ 32) 0) 1) noRecsDb =
          .ok (nodes, noRecsDb) ∧ LeavesRead smallBuild 0 nodes new ∧
        RecordInserted smallBuild [] (List.replicate (2 ^ 32) 0) [] new := by
  generalize hx : List.replicate (2 ^ 32) (0 : UInt8) = x
  have hlen : x.length = 2 ^ 32 := hx ▸ List.length_replicate
  refine ⟨⟨⟨[], [], by simp [noRecsDb], rfl⟩, by simp [Node.Fits]⟩, ?_⟩
  rintro ⟨nodes, new, -, hread, hins⟩
  have hlt : x.length < 2 ^ 32 := (hread.short.2 ([], x) hins.mem).2
  omega

end Leaves

end Aodbm
