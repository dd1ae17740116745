import Aodbm.Pending

/-!
# Updates of a leaf

What `insert_into_leaf` and `remove_from_leaf` make of the records of a leaf: one or two
leaves that hold the updated records, or none when the last record is removed.

Results:
1. `insertIntoLeaf_spec`, `removeFromLeaf_spec`: the leaves that replace the old one.
2. `noTwin_of_size`: leaves shorter than `2 ^ 32` bytes hold no two keys that differ
   but compare as equal.
3. `Leaves.fit`: leaves with sorted records are well-formed nodes.
-/

namespace Aodbm

open Effects Records Bytes

variable (B : Build)

/-- A leaf with its first key. -/
def leafEntry (rs : List Rec) : Data × Node := ((rs.head?.map Prod.fst).getD [], .leaf rs)

/-- The `range_result` of a scan that came to the position `endPos` and copied `out`. -/
structure RangeIs (range : RangeResult) (out : List Rec) (endPos : Nat) : Prop where
  node : aodbmRopeToData range.node = encRecs B out
  key : range.key = out.head?.map Prod.fst
  sz : range.sz = out.length
  pos : range.endPos = endPos

/-- The leaves that replace a leaf: none is empty or too large, and together they hold the
records `new`. -/
structure Leaves (nodes : ModifyResult) (parts : List (List Rec)) (new : List Rec) : Prop where
  pend : Pend B nodes (parts.map leafEntry)
  recs : parts.flatten = new
  part : ∀ p ∈ parts, p ≠ [] ∧ p.length ≤ B.maxNodeSize

/-- What an insertion makes of a node with `n` entries: one with no fewer, if it is not full,
or two that are half full. -/
def Grown (n : Nat) (sizes : List Nat) : Prop :=
  (n < B.maxNodeSize ∧ ∃ m, sizes = [m] ∧ n ≤ m) ∨
    ∃ a b, sizes = [a, b] ∧ B.maxNodeSize / 2 ≤ a ∧ B.maxNodeSize / 2 ≤ b

/-- The scan passed the record `r` on its way to the place of `k`. -/
def Passed (k : Data) (r : Rec) : Prop := k ≠ r.1 ∧ ¬ rank B k < rank B r.1

instance (k : Data) (r : Rec) : Decidable (Passed B k r) := inferInstanceAs (Decidable (_ ∧ _))

/-- The leaves that replace one with the records `rs`: a full leaf is split, and the new record
is in the second half when its place is behind the first one. -/
def leafParts (k x : Data) (rs : List Rec) : List (List Rec) :=
  if rs.length < B.maxNodeSize then [upsert (rank B) k x rs]
  else if ∀ r ∈ rs.take (B.maxNodeSize / 2), Passed B k r then
    [rs.take (B.maxNodeSize / 2), upsert (rank B) k x (rs.drop (B.maxNodeSize / 2))]
  else [upsert (rank B) k x (rs.take (B.maxNodeSize / 2)), rs.drop (B.maxNodeSize / 2)]

/-- How the scan of `insert_into_leaf_range` over the records `rs` from `start` on ends, when
`acc` was copied before: it goes past all records, or it stops at the first one that the
new record replaces or precedes. -/
inductive ScanEnd (file : Data) (k x : Data) (acc rs : List Rec) (start : Nat)
    (scan : LeafScan) : Prop where
  | through (passed : ∀ r ∈ rs, Passed B k r)
      (data : aodbmRopeToData scan.data = encRecs B (acc ++ rs))
      (key : scan.key1 = (acc ++ rs).head?.map Prod.fst)
      (pos : scan.pos = start + (encRecs B rs).length) (i : scan.i = acc.length + rs.length)
  | stopped {l t : List Rec} {r : Rec} (split : rs = l ++ r :: t)
      (passed : ∀ s ∈ l, Passed B k s) (stop : ¬ Passed B k r)
      (data : aodbmRopeToData scan.data =
        encRecs B (acc ++ l ++ (k, x) :: if k = r.1 then [] else [r]))
      (key : scan.key1 = (acc ++ l ++ [(k, x)]).head?.map Prod.fst)
      (rest : SegAt file scan.pos (encRecs B t))
      (pos : scan.pos + (encRecs B t).length = start + (encRecs B rs).length)
      (i : scan.i = acc.length + l.length) (inserted : scan.inserted = decide (k ≠ r.1))

variable {B}
variable {db : Db} {file : Data} {h off pos : Nat} {k x lo : Data} {rs : List Rec}

theorem aodbmDataCmp_eq (a b : Data) :
    aodbmDataCmp B a b = if a = b then 0 else if rank B a < rank B b then -1 else 1 := by
  unfold aodbmDataCmp
  rw [aodbmDataEq_eq, aodbmDataLt_eq]
  simp only [decide_eq_true_eq]

theorem aodbmDataCmp_passed {r : Rec} (hr : Passed B k r) : aodbmDataCmp B k r.1 = 1 := by
  rw [aodbmDataCmp_eq, if_neg hr.1, if_neg hr.2]

/-! ## Copying -/

theorem eval_duplicateLoop {i : Nat} {data : Rope} {acc : List Rec}
    (hseg : SegAt db.file pos (encRecs B rs))
    (hfits : ∀ r ∈ rs, r.1.length < 2 ^ 32 ∧ r.2.length < 2 ^ 32)
    (hdata : aodbmRopeToData data = encRecs B acc) (hi : i = acc.length) :
    ∃ data', eval (duplicateLoop B rs.length i pos data (acc.head?.map Prod.fst)) db =
        .ok ((data', (acc ++ rs).head?.map Prod.fst, pos + (encRecs B rs).length), db) ∧
      aodbmRopeToData data' = encRecs B (acc ++ rs) := by
  induction rs generalizing i pos data acc with
  | nil => exact ⟨data, by simp [duplicateLoop], by simpa using hdata⟩
  | cons r rs ih =>
    obtain ⟨hkey, hval, hrest⟩ := eval_readRec hseg (hfits r List.mem_cons_self)
    have hcopy : aodbmRopeToData (aodbmRopeMerge data (makeRecord B r.1 r.2)) =
        encRecs B (acc ++ [r]) := by simp [hdata]
    have hcount : i + 1 = (acc ++ [r]).length := by simp [hi]
    obtain ⟨data', heval, hdata'⟩ := ih hrest
      (fun s hs => hfits s (List.mem_cons_of_mem _ hs)) hcopy hcount
    refine ⟨data', ?_, by simpa using hdata'⟩
    have hhead : (if i = 0 then some r.1 else acc.head?.map Prod.fst) =
        (acc ++ [r]).head?.map Prod.fst := by
      cases acc <;> simp [hi]
    rw [List.length_cons, duplicateLoop, eval, run_bind_ok hkey, run_bind_ok hval, hhead]
    rw [encRecs_succ_pos, List.append_assoc] at heval
    exact heval

theorem eval_duplicateLeafRange (hseg : SegAt db.file pos (encRecs B rs))
    (hfits : ∀ r ∈ rs, r.1.length < 2 ^ 32 ∧ r.2.length < 2 ^ 32) :
    ∃ range, eval (duplicateLeafRange B pos rs.length) db = .ok (range, db) ∧
      RangeIs B range rs (pos + (encRecs B rs).length) := by
  obtain ⟨data', heval, hdata'⟩ := eval_duplicateLoop hseg hfits
    (show aodbmRopeToData aodbmRopeEmpty = encRecs B [] from rfl) rfl
  refine ⟨⟨data', rs.head?.map Prod.fst, pos + (encRecs B rs).length, rs.length, false⟩, ?_,
    ⟨hdata', rfl, rfl, rfl⟩⟩
  rw [duplicateLeafRange, eval]
  exact run_bind_ok heval

/-! ## Insertion -/

theorem eval_insertLoop {i : Nat} {data iRec : Rope} {acc : List Rec}
    (hseg : SegAt db.file pos (encRecs B rs))
    (hfits : ∀ r ∈ rs, r.1.length < 2 ^ 32 ∧ r.2.length < 2 ^ 32)
    (hrec : aodbmRopeToData iRec = encRec B (k, x))
    (hdata : aodbmRopeToData data = encRecs B acc) (hi : i = acc.length) :
    ∃ scan, eval (insertLoop B k iRec rs.length i pos data (acc.head?.map Prod.fst)) db =
        .ok (scan, db) ∧ ScanEnd B db.file k x acc rs pos scan := by
  induction rs generalizing i pos data acc with
  | nil =>
    exact ⟨_, rfl, .through (fun r hr => absurd hr List.not_mem_nil) (by simpa using hdata)
      (by simp) (by simp) (by simpa using hi)⟩
  | cons r rs ih =>
    obtain ⟨hkey, hval, hrest⟩ := eval_readRec hseg (hfits r List.mem_cons_self)
    by_cases hr : Passed B k r
    · -- the record is copied and the scan goes on
      have hcmp := aodbmDataCmp_passed hr
      have hhead : (if acc.head?.map Prod.fst = none ∧ i = 0 then some r.1
          else acc.head?.map Prod.fst) = (acc ++ [r]).head?.map Prod.fst := by
        cases acc <;> simp [hi]
      have hmem : ∀ {l : List Rec}, (∀ s ∈ l, Passed B k s) → ∀ s ∈ r :: l, Passed B k s :=
        fun hl s hs => (List.mem_cons.mp hs).elim (fun h => h ▸ hr) (hl s)
      have hcopy : aodbmRopeToData (aodbmRopeMerge data (makeRecord B r.1 r.2)) =
          encRecs B (acc ++ [r]) := by simp [hdata]
      have hcount : i + 1 = (acc ++ [r]).length := by simp [hi]
      obtain ⟨scan, heval, hscan⟩ := ih hrest
        (fun s hs => hfits s (List.mem_cons_of_mem _ hs)) hcopy hcount
      refine ⟨scan, ?_, ?_⟩
      · rw [List.length_cons, insertLoop, eval, run_bind_ok hkey, run_bind_ok hval]
        simp only [hcmp, ne_eq, not_true_eq_false, false_and, if_false, one_ne_zero,
          not_false_eq_true, true_and, if_true, hhead]
        exact heval
      · cases hscan with
        | through hall h1 h2 h3 h4 =>
          exact .through (hmem hall) (by simpa using h1) (by simpa using h2)
            (by rw [h3, encRecs_succ_pos]) (by rw [h4]; simp; omega)
        | @stopped l t s hsplit hl hs h1 h2 h3 h4 h5 h6 =>
          exact .stopped (by rw [hsplit, List.cons_append]) (hmem hl) hs
            (by simpa using h1) (by simpa using h2) h3 (by rw [h4, encRecs_succ_pos])
            (by rw [h5]; simp; omega) h6
    · -- the loop breaks here
      have hcmp : k = r.1 ∧ aodbmDataCmp B k r.1 = 0 ∨ k ≠ r.1 ∧ aodbmDataCmp B k r.1 = -1 := by
        rw [aodbmDataCmp_eq]
        by_cases hk : k = r.1
        · exact Or.inl ⟨hk, if_pos hk⟩
        · have hlt : rank B k < rank B r.1 := by_contra fun hn => hr ⟨hk, hn⟩
          exact Or.inr ⟨hk, by rw [if_neg hk, if_pos hlt]⟩
      have hne : aodbmDataCmp B k r.1 ≠ 1 := by
        rcases hcmp with ⟨_, hc⟩ | ⟨_, hc⟩ <;> rw [hc] <;> decide
      refine ⟨?scan, ?run, ?ends⟩
      case run =>
        rw [List.length_cons, insertLoop, eval, run_bind_ok hkey, run_bind_ok hval]
        simp only [if_pos hne]
        rfl
      refine .stopped (List.nil_append _).symm (fun s hs => absurd hs List.not_mem_nil) hr ?_ ?_
        hrest (encRecs_succ_pos r rs) ?_ ?_
      · rcases hcmp with ⟨hk, hc⟩ | ⟨hk, hc⟩
        · rw [hc]
          simp [hk, hdata, hrec]
        · rw [hc]
          simp [hk, hdata, hrec]
      · cases acc <;> simp [hi, hne]
      · simp [hi]
      · rcases hcmp with ⟨hk, hc⟩ | ⟨hk, hc⟩
        · simp only [hc]
          simp [hk]
        · simp [hc, hk]

/-- The update of a list at the record where the scan stops. -/
theorem upsert_stopped {l t : List Rec} {r : Rec} (hl : ∀ s ∈ l, Passed B k s)
    (hr : ¬ Passed B k r) :
    upsert (rank B) k x (l ++ r :: t) = l ++ (k, x) :: (if k = r.1 then [] else [r]) ++ t := by
  rw [upsert_passed (rank B) x _ hl, upsert]
  by_cases hk : k = r.1
  · simp [hk]
  · have hlt : rank B k < rank B r.1 := by_contra fun hn => hr ⟨hk, hn⟩
    simp [hk, hlt]

/-- A range with the new record, if the scan stops in it or `insertEnd` is set. -/
theorem eval_insertIntoLeafRange (hseg : SegAt db.file pos (encRecs B rs))
    (hfits : ∀ r ∈ rs, r.1.length < 2 ^ 32 ∧ r.2.length < 2 ^ 32) (hne : rs ≠ [])
    (insertEnd : Bool) :
    ∃ range, eval (insertIntoLeafRange B k x pos rs.length insertEnd) db = .ok (range, db) ∧
      ((∀ r ∈ rs, Passed B k r) ∧ range.inserted = insertEnd ∧
          RangeIs B range (if insertEnd then rs ++ [(k, x)] else rs)
            (pos + (encRecs B rs).length) ∨
        (∃ r ∈ rs, ¬ Passed B k r) ∧ range.inserted = true ∧
          RangeIs B range (upsert (rank B) k x rs) (pos + (encRecs B rs).length)) := by
  obtain ⟨scan, hscan, hend⟩ := eval_insertLoop hseg hfits (toData_makeRecord k x)
    (show aodbmRopeToData aodbmRopeEmpty = encRecs B [] from rfl) rfl
  have hscan' : eval (insertLoop B k (makeRecord B k x) rs.length 0 pos aodbmRopeEmpty none) db =
      .ok (scan, db) := hscan
  simp only [insertIntoLeafRange]
  rw [eval, run_bind_ok hscan']
  cases hend with
  | through hall h1 h2 h3 h4 =>
    simp only [List.nil_append] at h1 h2
    simp only [List.length_nil, Nat.zero_add] at h4
    rw [if_neg (by omega)]
    cases insertEnd with
    | true =>
      refine ⟨_, rfl, Or.inl ⟨hall, rfl, ?_⟩⟩
      refine ⟨by simp [h1], ?_, by simp, h3⟩
      rw [h2]
      cases rs with
      | nil => exact absurd rfl hne
      | cons r rs => rfl
    | false => exact ⟨_, rfl, Or.inl ⟨hall, rfl, h1, h2, rfl, h3⟩⟩
  | @stopped l t r hsplit hl hr h1 h2 h3 h4 h5 h6 =>
    simp only [List.nil_append] at h1 h2
    simp only [List.length_nil, Nat.zero_add] at h5
    have hlen : rs.length = l.length + (t.length + 1) := by
      rw [hsplit, List.length_append, List.length_cons]
    have hup := upsert_stopped (x := x) (t := t) hl hr
    rw [← hsplit] at hup
    have hhead : scan.key1 = (upsert (rank B) k x rs).head?.map Prod.fst := by
      rw [h2, hup]
      cases l <;> simp
    have hsz : rs.length + (if scan.inserted then 1 else 0) =
        (upsert (rank B) k x rs).length := by
      rw [hup, hlen, h6]
      by_cases hk : k = r.1
      · simp [hk]
      · simp [hk]
        omega
    have hstop : ∃ s ∈ rs, ¬ Passed B k s := ⟨r, by rw [hsplit]; simp, hr⟩
    rw [if_pos (by omega)]
    cases t with
    | nil =>
      rw [if_neg (by simp only [List.length_nil] at hlen; omega)]
      refine ⟨_, rfl, Or.inr ⟨hstop, rfl, ?_⟩⟩
      refine ⟨?_, hhead, hsz, by simpa using h4⟩
      simpa [hup] using h1
    | cons s t =>
      have hnum : rs.length - scan.i - 1 = (s :: t).length := by omega
      rw [if_pos (by simp only [List.length_cons] at hlen; omega), hnum]
      obtain ⟨dup, hdup, hdata, -, -, hpos⟩ := eval_duplicateLeafRange h3 fun u hu =>
        hfits u (by rw [hsplit]; simp [List.mem_cons.mp hu])
      rw [run_bind_ok hdup]
      refine ⟨_, rfl, Or.inr ⟨hstop, rfl, ?_⟩⟩
      refine ⟨?_, hhead, hsz, hpos.trans h4⟩
      simp [hup, h1, hdata]

/-- With `insertEnd` set the range always gets the new record. -/
theorem eval_insertIntoLastRange (hseg : SegAt db.file pos (encRecs B rs))
    (hfits : ∀ r ∈ rs, r.1.length < 2 ^ 32 ∧ r.2.length < 2 ^ 32) (hne : rs ≠ []) :
    ∃ range, eval (insertIntoLeafRange B k x pos rs.length true) db = .ok (range, db) ∧
      RangeIs B range (upsert (rank B) k x rs) (pos + (encRecs B rs).length) := by
  obtain ⟨range, heval, hcase⟩ := eval_insertIntoLeafRange (k := k) (x := x) hseg hfits hne true
  refine ⟨range, heval, ?_⟩
  rcases hcase with ⟨hpassed, -, hrange⟩ | ⟨-, -, hrange⟩
  · have hend := upsert_passed (rank B) x [] hpassed
    rw [List.append_nil] at hend
    exact hend ▸ hrange
  · exact hrange

theorem RangeIs.leaf {range : RangeResult} {out : List Rec} {endPos : Nat}
    (hr : RangeIs B range out endPos) :
    aodbmRopeToData (addHeader B range).node = Node.enc B (.leaf out) := by
  simp [addHeader, hr.node, hr.sz, Node.enc]

theorem RangeIs.leafEntry {range : RangeResult} {out : List Rec} {endPos : Nat}
    (hr : RangeIs B range out endPos) (hne : out ≠ []) :
    ∃ key, range.key = some key ∧ leafEntry out = (key, .leaf out) := by
  obtain ⟨r, out, rfl⟩ := List.exists_cons_of_ne_nil hne
  exact ⟨r.1, hr.key, rfl⟩

/-- Two ranges become two leaves. -/
theorem leaves_two {a b : RangeResult} {outA outB : List Rec} {endA endB : Nat}
    (ha : RangeIs B a outA endA) (hb : RangeIs B b outB endB)
    (hA : outA ≠ [] ∧ outA.length ≤ B.maxNodeSize) (hB : outB ≠ [] ∧ outB.length ≤ B.maxNodeSize) :
    Leaves B ⟨some (addHeader B a).node, a.key, some (addHeader B b).node, b.key⟩ [outA, outB]
      (outA ++ outB) := by
  obtain ⟨ka, hka, hea⟩ := ha.leafEntry hA.1
  obtain ⟨kb, hkb, heb⟩ := hb.leafEntry hB.1
  refine ⟨?_, by simp, by simp [hA, hB]⟩
  rw [hka, hkb, List.map_cons, List.map_singleton, hea, heb]
  exact .two ka kb ha.leaf hb.leaf

/-- One range becomes one leaf. -/
theorem leaves_one {a : RangeResult} {out : List Rec} {endA : Nat} (ha : RangeIs B a out endA)
    (hA : out ≠ [] ∧ out.length ≤ B.maxNodeSize) :
    Leaves B ⟨some (addHeader B a).node, a.key, none, none⟩ [out] out := by
  obtain ⟨ka, hka, hea⟩ := ha.leafEntry hA.1
  refine ⟨?_, by simp, by simp [hA]⟩
  rw [hka, List.map_singleton, hea]
  exact .one ka ha.leaf

/-- Insertion into a leaf that is not full: one leaf. -/
theorem insertIntoLeaf_one (hleaf : NodeAt B db.file off (.leaf rs))
    (hcount : rs.length < B.maxNodeSize) (k x : Data) :
    ∃ nodes, eval (insertIntoLeaf B k x (off + 1)) db = .ok (nodes, db) ∧
      Leaves B nodes [upsert (rank B) k x rs] (upsert (rank B) k x rs) := by
  rw [insertIntoLeaf, eval, run_bind_ok (eval_leafCount hleaf), if_neg hcount.ne]
  rcases eq_or_ne rs [] with rfl | hempty
  · refine ⟨_, rfl, .one k ?_, rfl, by simp [upsert]; omega⟩
    simp [aodbmLeafNode, Node.enc, upsert]
  · have hpos : rs.length ≠ 0 := fun h => hempty (List.length_eq_zero_iff.mp h)
    obtain ⟨a, ha, harange⟩ :=
      eval_insertIntoLastRange (k := k) (x := x) hleaf.leafRecs hleaf.fits.2 hempty
    have hlen := upsert_length (rank B) k x rs
    rw [if_neg hpos, if_pos hcount, run_bind_ok ha]
    exact ⟨_, rfl, leaves_one harange ⟨upsert_ne_nil k x rs, by omega⟩⟩

/-- Insertion into a leaf: one leaf, or two halves of a full one. -/
theorem insertIntoLeaf_parts (hleaf : NodeAt B db.file off (.leaf rs))
    (hcount : rs.length ≤ B.maxNodeSize) (k x : Data) :
    ∃ nodes, eval (insertIntoLeaf B k x (off + 1)) db = .ok (nodes, db) ∧
      Leaves B nodes (leafParts B k x rs) (upsert (rank B) k x rs) ∧
      Grown B rs.length ((leafParts B k x rs).map List.length) := by
  have hM := B.four_le
  have heven := B.even
  have hfits := hleaf.fits.2
  have hrecs := hleaf.leafRecs
  unfold leafParts
  by_cases hfull : rs.length = B.maxNodeSize
  · -- the leaf is full: the first half is scanned, then the second
    rw [if_neg (by omega)]
    have hsplit := List.take_append_drop (B.maxNodeSize / 2) rs
    have hl1 : (rs.take (B.maxNodeSize / 2)).length = B.maxNodeSize / 2 := by simp; omega
    have hl2 : (rs.drop (B.maxNodeSize / 2)).length = B.maxNodeSize / 2 := by simp; omega
    -- from here on the halves are any two lists of half the size
    generalize rs.take (B.maxNodeSize / 2) = r1 at hsplit hl1 ⊢
    generalize rs.drop (B.maxNodeSize / 2) = r2 at hsplit hl2 ⊢
    subst hsplit
    have h1 : r1 ≠ [] := by rintro rfl; simp at hl1; omega
    have h2 : r2 ≠ [] := by rintro rfl; simp at hl2; omega
    rw [encRecs_append] at hrecs
    have hf1 : ∀ r ∈ r1, r.1.length < 2 ^ 32 ∧ r.2.length < 2 ^ 32 := fun r hr =>
      hfits r (List.mem_append_left _ hr)
    have hf2 : ∀ r ∈ r2, r.1.length < 2 ^ 32 ∧ r.2.length < 2 ^ 32 := fun r hr =>
      hfits r (List.mem_append_right _ hr)
    obtain ⟨a, ha, hcase⟩ := eval_insertIntoLeafRange (k := k) (x := x) hrecs.left hf1 h1 false
    rw [hl1] at ha
    rw [insertIntoLeaf, eval, run_bind_ok (eval_leafCount hleaf), if_pos hfull, run_bind_ok ha]
    have hlen1 := upsert_length (rank B) k x r1
    have hlen2 := upsert_length (rank B) k x r2
    rcases hcase with ⟨hpassed, hins, harange⟩ | ⟨hstop, hins, harange⟩
    · -- the new record belongs to the second half
      rw [if_neg Bool.false_ne_true] at harange
      obtain ⟨b, hb, hbrange⟩ :=
        eval_insertIntoLastRange (k := k) (x := x) hrecs.right hf2 h2
      rw [hl2, ← harange.pos] at hb
      rw [hins, if_neg Bool.false_ne_true, run_bind_ok hb, if_pos hpassed]
      have hup := upsert_passed (rank B) x r2 hpassed
      exact ⟨_, rfl, hup ▸ leaves_two harange hbrange ⟨h1, by omega⟩
        ⟨upsert_ne_nil k x r2, by omega⟩, Or.inr ⟨_, _, rfl, hl1.ge, by omega⟩⟩
    · -- the new record is in the first half
      obtain ⟨b, hb, hbrange⟩ := eval_duplicateLeafRange hrecs.right hf2
      rw [hl2, ← harange.pos] at hb
      rw [hins, if_pos rfl, run_bind_ok hb, if_neg (by simpa using hstop)]
      have hup := upsert_append_right (rank B) (k := k) x r2 (m := r1) <| by
        obtain ⟨r, hr, hnot⟩ := hstop
        exact ⟨r, hr, by simpa [Passed, or_iff_not_imp_left] using hnot⟩
      exact ⟨_, rfl, hup ▸ leaves_two harange hbrange
        ⟨upsert_ne_nil k x r1, by omega⟩ ⟨h2, by omega⟩, Or.inr ⟨_, _, rfl, by omega, hl2.ge⟩⟩
  · rw [if_pos (by omega)]
    obtain ⟨nodes, heval, hl⟩ := insertIntoLeaf_one hleaf (by omega) k x
    have hlen := upsert_length (rank B) k x rs
    exact ⟨nodes, heval, hl, Or.inl ⟨by omega, _, rfl, by omega⟩⟩

theorem insertIntoLeaf_spec (hleaf : NodeAt B db.file off (.leaf rs))
    (hcount : rs.length ≤ B.maxNodeSize) (k x : Data) :
    ∃ nodes parts, eval (insertIntoLeaf B k x (off + 1)) db = .ok (nodes, db) ∧
      Leaves B nodes parts (upsert (rank B) k x rs) ∧
      Grown B rs.length (parts.map List.length) :=
  let ⟨nodes, h⟩ := insertIntoLeaf_parts hleaf hcount k x
  ⟨nodes, _, h⟩

/-! ## Removal -/

/-- The removal scan drops the first record of the key, if none was dropped before. -/
theorem eval_removeLoop (removed : Bool) {data : Rope} {acc : List Rec}
    (hseg : SegAt db.file pos (encRecs B rs))
    (hfits : ∀ r ∈ rs, r.1.length < 2 ^ 32 ∧ r.2.length < 2 ^ 32)
    (hdata : aodbmRopeToData data = encRecs B acc) :
    ∃ data', eval (removeLoop B k rs.length pos removed (acc.head?.map Prod.fst) data) db =
        .ok ((removed || rs.any fun r => r.1 = k, (acc ++ if removed then rs
          else rs.eraseP fun r => r.1 = k).head?.map Prod.fst, data'), db) ∧
      aodbmRopeToData data' =
        encRecs B (acc ++ if removed then rs else rs.eraseP fun r => r.1 = k) := by
  induction rs generalizing pos removed data acc with
  | nil => exact ⟨data, by simp [removeLoop], by simpa using hdata⟩
  | cons r rs ih =>
    obtain ⟨hkey, hval, hrest⟩ := eval_readRec hseg (hfits r List.mem_cons_self)
    rw [Nat.add_right_comm] at hval
    rw [Nat.add_right_comm _ r.1.length 4, Nat.add_right_comm _ r.2.length 4] at hrest
    have hfits' : ∀ s ∈ rs, s.1.length < 2 ^ 32 ∧ s.2.length < 2 ^ 32 := fun s hs =>
      hfits s (List.mem_cons_of_mem _ hs)
    rw [List.length_cons, removeLoop, eval, run_bind_ok hkey, run_bind_ok hval, aodbmDataEq_eq]
    by_cases hdrop : removed = false ∧ r.1 = k
    · obtain ⟨rfl, hk⟩ := hdrop
      obtain ⟨data', heval, hdata'⟩ := ih true hrest hfits' hdata
      refine ⟨data', ?_, ?_⟩
      · simpa [hk] using heval
      · simpa [hk] using hdata'
    · have hkept : removed = false → r.1 ≠ k := fun h hk => hdrop ⟨h, hk⟩
      have hcond : (!removed && decide (r.1 = k)) = false := by
        cases removed with
        | true => rfl
        | false => simp [hkept rfl]
      have hhead : (if acc.head?.map Prod.fst = none then some r.1
          else acc.head?.map Prod.fst) = (acc ++ [r]).head?.map Prod.fst := by
        cases acc <;> simp
      have hcopy : aodbmRopeToData (aodbmRopeMerge data (makeRecord B r.1 r.2)) =
          encRecs B (acc ++ [r]) := by simp [hdata]
      obtain ⟨data', heval, hdata'⟩ := ih removed hrest hfits' hcopy
      have hout : (acc ++ [r]) ++ (if removed then rs else rs.eraseP fun s => s.1 = k) =
          acc ++ if removed then r :: rs else (r :: rs).eraseP fun s => s.1 = k := by
        cases removed with
        | true => simp
        | false => simp [hkept rfl]
      have hany : (removed || (r :: rs).any fun s => s.1 = k) =
          (removed || rs.any fun s => s.1 = k) := by
        cases removed with
        | true => rfl
        | false => simp [hkept rfl]
      rw [hout] at heval hdata'
      refine ⟨data', ?_, hdata'⟩
      simp only [hcond, Bool.false_eq_true, if_false, hhead, hany]
      exact heval

/-- Removal from a leaf: one leaf, or none when the only record goes. -/
theorem removeFromLeaf_spec (hleaf : NodeAt B db.file off (.leaf rs))
    (hcount : rs.length ≤ B.maxNodeSize) (hs : Sorted (rank B) rs) (k : Data) :
    ∃ nodes parts, eval (removeFromLeaf B k (off + 1)) db = .ok (nodes, db) ∧
      Leaves B nodes parts (erase k rs) ∧ parts.length ≤ 1 := by
  obtain ⟨data, heval, hdata⟩ := eval_removeLoop (k := k) false
    hleaf.leafRecs hleaf.fits.2 (show aodbmRopeToData aodbmRopeEmpty = encRecs B [] from rfl)
  simp only [Bool.false_or, List.nil_append, Bool.false_eq_true, if_false,
    eraseP_eq_erase hs, List.head?_nil, Option.map_none] at heval hdata
  have hcnt : rs.length - (if (rs.any fun r => decide (r.1 = k)) then 1 else 0) =
      (erase k rs).length := by
    rw [← eraseP_eq_erase hs, List.length_eraseP]
    split <;> rfl
  have hrope : aodbmRopeToData (aodbmRopeMerge (aodbmData2ToRope [leafType]
      (aodbmDataFrom32 B (erase k rs).length)) data) = Node.enc B (.leaf (erase k rs)) := by
    simp [hdata, Node.enc]
  have hle : (erase k rs).length ≤ B.maxNodeSize :=
    le_trans (List.length_filter_le _ _) hcount
  rw [removeFromLeaf, eval, run_bind_ok (eval_leafCount hleaf), run_bind_ok heval]
  simp only [hcnt]
  refine ⟨_, if erase k rs = [] then [] else [erase k rs], rfl, ⟨?_, ?_, ?_⟩, ?_⟩
  · cases he : erase k rs with
    | nil => exact .none
    | cons r rs' =>
      rw [he] at hrope
      exact .one r.1 hrope
  · split
    · next he => rw [he, List.flatten_nil]
    · simp
  · split
    · exact fun p hp => absurd hp List.not_mem_nil
    · next he => simpa using ⟨he, hle⟩
  · split <;> simp

/-! ## What the new leaves are good for -/

theorem encNodes_leaves_ge (parts : List (List Rec)) :
    (encRecs B parts.flatten).length ≤ (encNodes B (parts.map leafEntry)).length := by
  induction parts with
  | nil => simp
  | cons p parts ih =>
    rw [List.flatten_cons, encRecs_append, List.map_cons, encNodes_cons, List.length_append,
      List.length_append]
    simp only [leafEntry, Node.enc, List.length_append]
    omega

/-- Two different records take their bytes separately. -/
theorem encRecs_length_two {r s : Rec} (hr : r ∈ rs) (hs : s ∈ rs) (hne : r ≠ s) :
    r.1.length + s.1.length ≤ (encRecs B rs).length := by
  induction rs with
  | nil => cases hr
  | cons t rs ih =>
    rw [encRecs_cons, List.length_append, encRec_length]
    rcases List.mem_cons.mp hr with rfl | hr'
    · rcases List.mem_cons.mp hs with rfl | hs'
      · exact absurd rfl hne
      · have := encRecs_length_ge (B := B) hs'
        omega
    · rcases List.mem_cons.mp hs with rfl | hs'
      · have := encRecs_length_ge (B := B) hr'
        omega
      · have := ih hr' hs'
        omega

/-- Keys that differ but compare as equal are longer than `2 ^ 31` bytes each, so two of them
do not fit in leaves of fewer than `2 ^ 32` bytes. -/
theorem noTwin_of_size (hlen : (encRecs B (upsert (rank B) k x rs)).length < 2 ^ 32) :
    NoTwin (rank B) k rs := by
  intro r hr hrank
  by_contra hne
  have hlong : 2 ^ 31 < k.length := by
    by_contra hle
    exact hne (rank_inj B hrank.symm (not_lt.mp hle)).symm
  have heq : r.1.length = k.length := by
    unfold rank at hrank
    simp only [EmbeddingLike.apply_eq_iff_eq, Prod.mk.injEq] at hrank
    exact hrank.1
  have hold : r ∈ upsert (rank B) k x rs := mem_upsert_of_ne hr hne
  have := encRecs_length_two (B := B) hold (mem_upsert_self k x rs)
    (fun h => hne (congrArg Prod.fst h))
  simp only at this
  omega

/-- New leaves with sorted records are well-formed nodes. -/
theorem Leaves.fit {nodes : ModifyResult} {parts : List (List Rec)} {new : List Rec}
    (hl : Leaves B nodes parts new) (hs : Sorted (rank B) new)
    (hlo : ∀ r ∈ new, rank B lo ≤ rank B r.1) : Fit B file 0 lo new (parts.map leafEntry) := by
  have hbelow : below (parts.map fun p : List Rec =>
      (⟨(leafEntry p).1, .leaf p, p⟩ : Pending)) = new := by
    rw [← hl.recs, below, List.flatMap_map, List.flatMap_id']
  have hhead : ∀ p ∈ parts, ∃ r t, p = r :: t ∧ (leafEntry p).1 = r.1 := by
    intro p hp
    obtain ⟨r, t, rfl⟩ := List.exists_cons_of_ne_nil (hl.part p hp).1
    exact ⟨r, t, rfl, rfl⟩
  refine ⟨parts.map fun p => ⟨(leafEntry p).1, .leaf p, p⟩, ?_, ?_, hbelow, ?_⟩
  · rw [List.map_map]
    rfl
  · refine Ordered.of_sorted (hbelow ▸ hs) fun c hc => ?_
    obtain ⟨p, hp, rfl⟩ := List.mem_map.mp hc
    exact hhead p hp
  · intro c hc
    obtain ⟨p, hp, rfl⟩ := List.mem_map.mp hc
    obtain ⟨r, t, rfl, hkey⟩ := hhead p hp
    have hsub : (r :: t).Sublist new := hl.recs ▸ List.sublist_flatten_of_mem hp
    refine ⟨?_, rfl, (hl.part _ hp).1, (hl.part _ hp).2, hs.sublist hsub⟩
    rw [hkey]
    exact hlo r (hsub.subset List.mem_cons_self)

/-- The leaves with a new record fit, as soon as their bytes are fewer than `2 ^ 32`. -/
theorem Leaves.fit_upsert {nodes : ModifyResult} {parts : List (List Rec)}
    (hl : Leaves B nodes parts (upsert (rank B) k x rs)) (hs : Sorted (rank B) rs)
    (hlo : ∀ r ∈ rs, rank B lo ≤ rank B r.1) (hk : rank B lo ≤ rank B k)
    (hlen : (encNodes B (parts.map leafEntry)).length < 2 ^ 32) :
    Fit B file 0 lo (upsert (rank B) k x rs) (parts.map leafEntry) := by
  have hge := encNodes_leaves_ge (B := B) parts
  rw [hl.recs] at hge
  refine hl.fit (hs.upsert x (noTwin_of_size (lt_of_le_of_lt hge hlen))) fun r hr => ?_
  rcases mem_upsert hr with rfl | hr
  · exact hk
  · exact hlo r hr

theorem Leaves.fit_erase {nodes : ModifyResult} {parts : List (List Rec)}
    (hl : Leaves B nodes parts (erase k rs)) (hs : Sorted (rank B) rs)
    (hlo : ∀ r ∈ rs, rank B lo ≤ rank B r.1) :
    Fit B file 0 lo (erase k rs) (parts.map leafEntry) :=
  hl.fit (hs.erase k) fun r hr => hlo r (List.mem_of_mem_filter hr)

theorem Leaves.ne_nil {nodes : ModifyResult} {parts : List (List Rec)} {new : List Rec}
    (hl : Leaves B nodes parts new) (hne : new ≠ []) : parts.map leafEntry ≠ [] := by
  intro h
  rw [← hl.recs, List.map_eq_nil_iff.mp h] at hne
  exact hne rfl

end Aodbm
