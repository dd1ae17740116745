import Aodbm.Descent
import Aodbm.Pending

/-!
# Updates of a branch

`modify_branch` copies the entries of a branch into two new ones, without the child that
was replaced and with the nodes that replace it, and then joins them if they are small.

Results:
1. `modifyBranch_spec`: the entries that are copied, in order, and what is made of them.
2. `splitBranches_pend`: the one or two branches, or none, made from entries.
3. `Fit.branch`: nodes that fit in place of a child give branches that fit.
-/

namespace Aodbm

open Effects Records Bytes

variable (B : Build)

/-- A separator and an offset. -/
abbrev Entry := Data × Nat

/-- The bytes of entries in a branch: the separator of the first is not stored. -/
def encEntries : List Entry → Data
  | [] => []
  | e :: es => aodbmDataFrom64 B e.2 ++ encKids B es

/-- The node with the given entries. -/
def entryNode : List Entry → Node
  | [] => .branch 0 []
  | e :: es => .branch e.2 es

/-- The `branch` holds the entries. -/
structure Holds (br : Branch) (es : List Entry) : Prop where
  data : aodbmRopeToData br.data = encEntries B es
  key : br.key = es.head?.map Prod.fst
  sz : br.sz = es.length

/-- The entries are in the two branches: the first is filled up to `M / 2` entries. -/
structure Halves (ab : Branch × Branch) (es : List Entry) : Prop where
  left : Holds B ab.1 (es.take (B.maxNodeSize / 2))
  right : Holds B ab.2 (es.drop (B.maxNodeSize / 2))

/-- The entries of the pending nodes when they are written from `p` on. -/
def placed : Nat → List (Data × Node) → List Entry
  | _, [] => []
  | p, n :: ns => (n.1, p) :: placed (p + (n.2.enc B).length) ns

/-- What `modifyLoop` does with the entries it reads. -/
def modifyEntries (rmA rmB : Nat) : List Entry → Option Entry → Option Entry → Branch × Branch →
    Option Entry × Option Entry × (Branch × Branch)
  | [], pa, pb, ab => (pa, pb, ab)
  | e :: es, pa, pb, ab =>
    let (pa, ab) := placeBefore B e.1 pa ab
    let (pb, ab) := placeBefore B e.1 pb ab
    modifyEntries rmA rmB es pa pb
      (if e.2 ≠ rmA ∧ e.2 ≠ rmB then addToBranches B ab e.1 e.2 else ab)

/-- Copying the entries `ds` without the child `rm`. Offset 0 is never that of a child. -/
def keep (rm : Nat) (ds : List Entry) (ab : Branch × Branch) : Branch × Branch :=
  ds.foldl (fun ab e => if e.2 ≠ rm ∧ e.2 ≠ 0 then addToBranches B ab e.1 e.2 else ab) ab

/-- The two branches of `modify_branch` at its end: `e` is the first entry of the old branch. -/
def modified (rmA rmB : Nat) (e : Entry) (es : List Entry) (pa pb : Option Entry) :
    Branch × Branch :=
  let r := modifyEntries B rmA rmB es pa pb
    (if e.2 ≠ rmA ∧ e.2 ≠ rmB then addToBranches B (branchInit, branchInit) e.1 e.2
      else (branchInit, branchInit))
  placeLast B r.2.1 (placeLast B r.1 r.2.2)

/-- The key of an entry that is to be placed belongs in the place of the child `c`. -/
def Between (c : Kid) (r : List Kid) (e : Entry) : Prop :=
  rank B c.key ≤ rank B e.1 ∧ ∀ d ∈ r, rank B e.1 < rank B d.key

/-- The parts that the entries of a branch are split into when it is written. -/
def halve {α : Type} (es : List α) : List (List α) :=
  if es.length - B.maxNodeSize / 2 < B.maxNodeSize / 2 then
    if es.isEmpty then [] else [es]
  else [es.take (B.maxNodeSize / 2), es.drop (B.maxNodeSize / 2)]

/-- A branch with its first key. -/
def branchEntry (es : List Entry) : Data × Node := ((es.head?.map Prod.fst).getD [], entryNode es)

variable {B}
variable {db : Db} {file : Data} {h off pos : Nat} {k lo : Data} {ab : Branch × Branch}
  {es : List Entry} {pa pb : Option Entry}

/-! ## Adding entries -/

theorem holds_init : Holds B branchInit [] := ⟨rfl, rfl, rfl⟩

theorem Holds.add {br : Branch} (hb : Holds B br es) (e : Entry) :
    Holds B (addToBranch B br e.1 e.2) (es ++ [e]) := by
  obtain ⟨hdata, hkey, hsz⟩ := hb
  unfold addToBranch
  cases es with
  | nil =>
    rw [hkey]
    exact ⟨by simp [encEntries], rfl, by simp [hsz]⟩
  | cons d es =>
    rw [hkey]
    exact ⟨by simp [hdata, encEntries, encKid], by simp, by simp [hsz]⟩

theorem halves_init : Halves B (branchInit, branchInit) [] :=
  ⟨by simpa using holds_init, by simpa using holds_init⟩

theorem Halves.add (hab : Halves B ab es) (e : Entry) :
    Halves B (addToBranches B ab e.1 e.2) (es ++ [e]) := by
  obtain ⟨hl, hr⟩ := hab
  have hsz := hl.sz
  rw [List.length_take] at hsz
  unfold addToBranches
  by_cases hlt : es.length < B.maxNodeSize / 2
  · rw [if_pos (by omega)]
    rw [List.take_of_length_le hlt.le] at hl
    rw [List.drop_of_length_le hlt.le] at hr
    refine ⟨?_, ?_⟩
    · rw [List.take_of_length_le (by rw [List.length_append, List.length_singleton]; omega)]
      exact hl.add e
    · rw [List.drop_of_length_le (by rw [List.length_append, List.length_singleton]; omega)]
      exact hr
  · rw [if_neg (by omega)]
    refine ⟨?_, ?_⟩
    · rw [List.take_append_of_le_length (by omega)]
      exact hl
    · rw [List.drop_append_of_le_length (by omega)]
      exact hr.add e

/-- Placing a pending entry adds it or keeps it pending. -/
theorem Halves.before (hab : Halves B ab es) (key : Data) (pa : Option Entry) :
    ∃ es', Halves B (placeBefore B key pa ab).2 es' ∧ es.length ≤ es'.length ∧
      es.length + pa.toList.length =
        es'.length + (placeBefore B key pa ab).1.toList.length := by
  cases pa with
  | none => exact ⟨es, hab, le_refl _, rfl⟩
  | some e =>
    simp only [placeBefore]
    split
    · exact ⟨es ++ [e], hab.add e, by simp, by simp⟩
    · exact ⟨es, hab, le_refl _, rfl⟩

theorem Halves.last (hab : Halves B ab es) (pa : Option Entry) :
    Halves B (placeLast B pa ab) (es ++ pa.toList) := by
  cases pa with
  | none =>
    rw [Option.toList_none, List.append_nil]
    exact hab
  | some e => exact hab.add e

theorem Halves.addAll (hab : Halves B ab es) (ds : List Entry) :
    Halves B (ds.foldl (fun ab e => addToBranches B ab e.1 e.2) ab) (es ++ ds) := by
  induction ds generalizing ab es with
  | nil => simpa using hab
  | cons d ds ih =>
    have := ih (hab.add d)
    rwa [List.append_assoc] at this

/-! ## The loop over the entries -/

theorem eval_modifyLoop {rmA rmB : Nat} (hseg : SegAt db.file pos (encKids B es))
    (hfits : ∀ e ∈ es, e.1.length < 2 ^ 32 ∧ e.2 < 2 ^ 64) (pa pb : Option Entry)
    (ab : Branch × Branch) :
    eval (modifyLoop B rmA rmB es.length pos pa pb ab) db =
      .ok (modifyEntries B rmA rmB es pa pb ab, db) := by
  induction es generalizing pos pa pb ab with
  | nil => rfl
  | cons e es ih =>
    obtain ⟨hkey, hoff, hrest⟩ := eval_readKid hseg (hfits e List.mem_cons_self)
    rw [Nat.add_right_comm] at hoff
    rw [Nat.add_right_comm pos] at hrest
    rw [List.length_cons, modifyLoop, eval, run_bind_ok hkey, run_bind_ok hoff]
    exact ih hrest (fun d hd => hfits d (List.mem_cons_of_mem _ hd)) _ _ _

/-- Whatever is pending, entries are only added, and a pending one is not lost. -/
theorem Halves.entries (hab : Halves B ab es) (rmA rmB : Nat) (ds : List Entry)
    (pa pb : Option Entry) :
    ∃ es', Halves B (modifyEntries B rmA rmB ds pa pb ab).2.2 es' ∧
      es.length + pa.toList.length ≤
        es'.length + (modifyEntries B rmA rmB ds pa pb ab).1.toList.length := by
  induction ds generalizing ab es pa pb with
  | nil => exact ⟨es, hab, le_refl _⟩
  | cons d ds ih =>
    obtain ⟨es₁, h₁, -, hlen₁⟩ := hab.before d.1 pa
    obtain ⟨es₂, h₂, hlen₂, -⟩ := h₁.before d.1 pb
    have hstep : ∃ es₃, Halves B (if d.2 ≠ rmA ∧ d.2 ≠ rmB then addToBranches B
        (placeBefore B d.1 pb (placeBefore B d.1 pa ab).2).2 d.1 d.2
        else (placeBefore B d.1 pb (placeBefore B d.1 pa ab).2).2) es₃ ∧
        es₂.length ≤ es₃.length := by
      split
      · exact ⟨es₂ ++ [d], h₂.add d, by simp⟩
      · exact ⟨es₂, h₂, le_refl _⟩
    obtain ⟨es₃, h₃, hlen₃⟩ := hstep
    obtain ⟨es', h', hlen'⟩ := ih h₃ (placeBefore B d.1 pa ab).1
      (placeBefore B d.1 pb (placeBefore B d.1 pa ab).2).1
    exact ⟨es', h', le_trans (by omega) hlen'⟩

theorem placeBefore_skip {key : Data} (h : ∀ p ∈ pa, ¬ rank B p.1 < rank B key)
    (ab : Branch × Branch) : placeBefore B key pa ab = (pa, ab) := by
  cases pa with
  | none => rfl
  | some p =>
    have hnot : aodbmDataLt B p.1 key = false := by
      rw [aodbmDataLt_eq]
      exact decide_eq_false (h p rfl)
    simp [placeBefore, hnot]

theorem placeBefore_place {key : Data} (h : ∀ p ∈ pa, rank B p.1 < rank B key)
    (ab : Branch × Branch) : placeBefore B key pa ab = (none, placeLast B pa ab) := by
  cases pa with
  | none => rfl
  | some p =>
    have hlt : aodbmDataLt B p.1 key = true := (aodbmDataLt_iff B).mpr (h p rfl)
    simp [placeBefore, placeLast, hlt]

/-- Before entries with keys not above it, a pending node is not placed. -/
theorem modifyEntries_skip (rm : Nat) {ds : List Entry} (rest : List Entry)
    (ha : ∀ d ∈ ds, ∀ p ∈ pa, ¬ rank B p.1 < rank B d.1)
    (hb : ∀ d ∈ ds, ∀ p ∈ pb, ¬ rank B p.1 < rank B d.1) (ab : Branch × Branch) :
    modifyEntries B rm 0 (ds ++ rest) pa pb ab =
      modifyEntries B rm 0 rest pa pb (keep B rm ds ab) := by
  induction ds generalizing ab with
  | nil => rfl
  | cons d ds ih =>
    rw [List.cons_append, modifyEntries]
    simp only [placeBefore_skip (ha d List.mem_cons_self),
      placeBefore_skip (hb d List.mem_cons_self)]
    exact ih (fun e he => ha e (List.mem_cons_of_mem _ he))
      (fun e he => hb e (List.mem_cons_of_mem _ he)) _

/-- Before the first entry with a greater key, or at the end, the pending nodes are placed. -/
theorem modifyEntries_place {rm : Nat} {ds : List Entry}
    (ha : ∀ d ∈ ds, ∀ p ∈ pa, rank B p.1 < rank B d.1)
    (hb : ∀ d ∈ ds, ∀ p ∈ pb, rank B p.1 < rank B d.1) (ab : Branch × Branch) :
    let r := modifyEntries B rm 0 ds pa pb ab
    placeLast B r.2.1 (placeLast B r.1 r.2.2) =
      keep B rm ds (placeLast B pb (placeLast B pa ab)) := by
  cases ds with
  | nil => rfl
  | cons d ds =>
    have hnone : ∀ ab : Branch × Branch,
        modifyEntries B rm 0 ds none none ab = (none, none, keep B rm ds ab) := by
      intro ab
      have hskip : ∀ d ∈ ds, ∀ p ∈ (none : Option Entry), ¬ rank B p.1 < rank B d.1 := by simp
      have := modifyEntries_skip rm [] hskip hskip ab
      rwa [List.append_nil] at this
    rw [modifyEntries]
    simp only [placeBefore_place (ha d List.mem_cons_self),
      placeBefore_place (hb d List.mem_cons_self), hnone]
    rfl

theorem keep_of_ne {rm : Nat} {ds : List Entry} (h : ∀ d ∈ ds, d.2 ≠ rm ∧ d.2 ≠ 0)
    (ab : Branch × Branch) :
    keep B rm ds ab = ds.foldl (fun ab e => addToBranches B ab e.1 e.2) ab := by
  induction ds generalizing ab with
  | nil => rfl
  | cons d ds ih =>
    have hd := h d List.mem_cons_self
    rw [keep, List.foldl_cons, if_pos hd, List.foldl_cons]
    exact ih (fun e he => h e (List.mem_cons_of_mem _ he)) _

theorem keep_removed {rm : Nat} (ds : List Entry) (k : Data) (ab : Branch × Branch) :
    keep B rm (ds ++ [(k, rm)]) ab = keep B rm ds ab := by
  simp [keep]

/-! ## The branches that are made -/

theorem halve_ne {α : Type} {es p : List α} (hp : p ∈ halve B es) : p ≠ [] := by
  have hM := B.four_le
  have heven := B.even
  unfold halve at hp
  rintro rfl
  split at hp
  · split at hp
    · cases hp
    · next hne => exact hne (by rw [← List.mem_singleton.mp hp]; rfl)
  · simp only [List.mem_cons, List.not_mem_nil, or_false] at hp
    rcases hp with hp | hp
    · have := congrArg List.length hp
      simp only [List.length_take, List.length_nil] at this
      omega
    · have := congrArg List.length hp
      simp only [List.length_drop, List.length_nil] at this
      omega

theorem halve_mem {α : Type} {es p : List α} (hp : p ∈ halve B es)
    (hlen : es.length ≤ B.maxNodeSize) : p ≠ [] ∧ p.length < B.maxNodeSize := by
  have hM := B.four_le
  have heven := B.even
  refine ⟨halve_ne hp, ?_⟩
  unfold halve at hp
  split at hp
  · split at hp
    · cases hp
    · rw [List.mem_singleton.mp hp]
      omega
  · simp only [List.mem_cons, List.not_mem_nil, or_false] at hp
    rcases hp with rfl | rfl
    · rw [List.length_take]
      omega
    · rw [List.length_drop]
      omega

theorem halve_length_le {α : Type} (es : List α) : (halve B es).length ≤ 2 := by
  unfold halve
  split
  · split <;> simp
  · simp

/-- Entries of one branch stay in one branch. -/
theorem halve_length_le_one {α : Type} {es : List α} (h : es.length < B.maxNodeSize) :
    (halve B es).length ≤ 1 := by
  have heven := B.even
  unfold halve
  rw [if_pos (by omega)]
  split <;> simp

theorem halve_flatten {α : Type} (es : List α) : (halve B es).flatten = es := by
  unfold halve
  split
  · split
    · next h => simp [List.isEmpty_iff.mp h]
    · simp
  · simp

theorem halve_map {α β : Type} (f : α → β) (es : List α) :
    halve B (es.map f) = (halve B es).map (List.map f) := by
  unfold halve
  rw [List.length_map, List.isEmpty_map, ← List.map_take, ← List.map_drop]
  split
  · split <;> rfl
  · rfl

theorem Holds.rope {br : Branch} (hb : Holds B br es) (hne : es ≠ []) :
    br.key = some (branchEntry es).1 ∧
      aodbmRopeToData (branchToRope B br) = (branchEntry es).2.enc B := by
  obtain ⟨e, es, rfl⟩ := List.exists_cons_of_ne_nil hne
  refine ⟨hb.key, ?_⟩
  simp [branchToRope, hb.data, hb.sz, branchEntry, entryNode, encEntries, Node.enc]

theorem Holds.merge {a b : Branch} {ea eb : List Entry} (ha : Holds B a ea) (hb : Holds B b eb)
    (h : ea = [] → eb = []) : Holds B (mergeBranches B a b) (ea ++ eb) := by
  unfold mergeBranches
  cases eb with
  | nil =>
    rw [if_neg (by rw [hb.sz]; exact Nat.lt_irrefl 0), List.append_nil]
    exact ha
  | cons e eb =>
    obtain ⟨d, ea, rfl⟩ := List.exists_cons_of_ne_nil (l := ea) fun h' => by
      cases h h'
    rw [if_pos (by rw [hb.sz]; exact Nat.succ_pos _)]
    refine ⟨?_, ha.key, ?_⟩
    · simp [ha.data, hb.data, hb.key, encEntries, encKid]
    · rw [List.length_append, ha.sz, hb.sz]

/-- The result of `modify_branch` from its two branches. -/
theorem splitBranches_pend (hab : Halves B ab es) :
    Pend B (splitBranches B ab.1 ab.2) ((halve B es).map branchEntry) := by
  have hM := B.four_le
  have heven := B.even
  obtain ⟨hl, hr⟩ := hab
  unfold splitBranches halve
  rw [hr.sz, List.length_drop]
  split
  · -- the two branches are joined
    have hjoin : Holds B (mergeBranches B ab.1 ab.2) es := by
      have := hl.merge hr fun h => by
        have := congrArg List.length h
        simp only [List.length_take, List.length_nil] at this
        exact List.drop_of_length_le (by omega)
      rwa [List.take_append_drop] at this
    by_cases hne : es = []
    · rw [if_pos (by rw [hjoin.sz, hne]; rfl), if_pos (by rw [hne]; rfl)]
      exact .none
    · have hsz : (mergeBranches B ab.1 ab.2).sz ≠ 0 := by
        rw [hjoin.sz]
        exact fun h => hne (List.length_eq_zero_iff.mp h)
      obtain ⟨hkey, hrope⟩ := hjoin.rope hne
      rw [if_neg hsz, if_neg (by simpa using hne), hkey]
      exact .one _ hrope
  · next hbig =>
    have ht : es.take (B.maxNodeSize / 2) ≠ [] := fun h => by
      have := congrArg List.length h
      simp only [List.length_take, List.length_nil] at this
      omega
    have hd : es.drop (B.maxNodeSize / 2) ≠ [] := fun h => by
      have := congrArg List.length h
      simp only [List.length_drop, List.length_nil] at this
      omega
    obtain ⟨hka, hra⟩ := hl.rope ht
    obtain ⟨hkb, hrb⟩ := hr.rope hd
    rw [hka, hkb]
    exact .two _ _ hra hrb

/-! ## `modify_branch` -/

theorem eval_modifyBranch {e : Entry} {es : List Entry} (a b rmA rmB : Nat)
    (aKey bKey : Option Data) (hn : NodeAt B db.file off (entryNode (e :: es))) :
    eval (modifyBranch B off e.1 a aKey b bKey rmA rmB) db =
      .ok (splitBranches B
        (modified B rmA rmB e es (aKey.map fun k => (k, a)) (bKey.map fun k => (k, b))).1
        (modified B rmA rmB e es (aKey.map fun k => (k, a)) (bKey.map fun k => (k, b))).2, db) := by
  rw [modifyBranch, eval, run_bind_ok (eval_branchCount hn), run_bind_ok (eval_branchFirst hn),
    run_bind_ok (eval_modifyLoop hn.branchKids hn.fits.2.2 _ _ _)]
  rfl

/-- Whatever is to be placed, it is not lost. -/
theorem halves_modified (rmA rmB : Nat) (e : Entry) (es : List Entry) (pa pb : Option Entry) :
    ∃ ds, Halves B (modified B rmA rmB e es pa pb) ds ∧ pa.toList.length ≤ ds.length := by
  have hstart : ∃ ds, Halves B (if e.2 ≠ rmA ∧ e.2 ≠ rmB then
      addToBranches B (branchInit, branchInit) e.1 e.2 else (branchInit, branchInit)) ds := by
    split
    · exact ⟨_, halves_init.add e⟩
    · exact ⟨_, halves_init⟩
  obtain ⟨ds, hds⟩ := hstart
  obtain ⟨ds', hds', hlen⟩ := hds.entries rmA rmB es pa pb
  refine ⟨_, (hds'.last _).last _, ?_⟩
  simp only [List.length_append]
  omega

/-- The entries `pa` and `pb` are placed where the entry `c` is removed. -/
theorem halves_spliced {l r : List Entry} {c e : Entry}
    (hkeys : (l ++ c :: r).Pairwise fun d e => rank B d.1 < rank B e.1)
    (hrefs : (l ++ c :: r).Pairwise fun d e => d.2 ≠ e.2) (hpos : ∀ d ∈ l ++ c :: r, d.2 ≠ 0)
    (ha : ∀ p ∈ pa, rank B c.1 ≤ rank B p.1 ∧ ∀ d ∈ r, rank B p.1 < rank B d.1)
    (hb : ∀ p ∈ pb, rank B c.1 ≤ rank B p.1 ∧ ∀ d ∈ r, rank B p.1 < rank B d.1)
    (hes : l ++ c :: r = e :: es) :
    Halves B (modified B c.2 0 e es pa pb) (l ++ pa.toList ++ pb.toList ++ r) := by
  obtain ⟨_, _, hkeys_l⟩ := List.pairwise_append.mp hkeys
  obtain ⟨_, hrefs_cr, hrefs_l⟩ := List.pairwise_append.mp hrefs
  have hother_r : ∀ d ∈ r, d.2 ≠ c.2 ∧ d.2 ≠ 0 := fun d hd =>
    ⟨((List.pairwise_cons.mp hrefs_cr).1 d hd).symm, hpos d (by simp [hd])⟩
  have hkeep_r := keep_of_ne (B := B) hother_r
  have hplace : ∀ {q : Option Entry},
      (∀ p ∈ q, rank B c.1 ≤ rank B p.1 ∧ ∀ d ∈ r, rank B p.1 < rank B d.1) →
      ∀ d ∈ r, ∀ p ∈ q, rank B p.1 < rank B d.1 := fun hq d hd p hp => (hq p hp).2 d hd
  cases l with
  | nil =>
    obtain ⟨rfl, rfl⟩ := List.cons.inj hes
    have hall := (((halves_init (B := B)).last pa).last pb).addAll r
    have hmod : modified B c.2 0 c r pa pb =
        keep B c.2 r (placeLast B pb (placeLast B pa (branchInit, branchInit))) := by
      rw [modified, if_neg fun h => h.1 rfl]
      exact modifyEntries_place (hplace ha) (hplace hb) _
    rw [← hkeep_r, ← hmod] at hall
    exact hall
  | cons d l =>
    obtain ⟨rfl, rfl⟩ := List.cons.inj hes
    have hd : d.2 ≠ c.2 ∧ d.2 ≠ 0 :=
      ⟨hrefs_l d List.mem_cons_self c List.mem_cons_self, hpos d (by simp)⟩
    have hother_l : ∀ e ∈ l, e.2 ≠ c.2 ∧ e.2 ≠ 0 := fun e he =>
      ⟨hrefs_l e (List.mem_cons_of_mem _ he) c List.mem_cons_self, hpos e (by simp [he])⟩
    have hkeep_l := keep_of_ne (B := B) hother_l
    have hskip : ∀ {q : Option Entry},
        (∀ p ∈ q, rank B c.1 ≤ rank B p.1 ∧ ∀ d ∈ r, rank B p.1 < rank B d.1) →
        ∀ d ∈ l ++ [c], ∀ p ∈ q, ¬ rank B p.1 < rank B d.1 := by
      intro q hq e he p hp
      rcases List.mem_append.mp he with he | he
      · have hlt := hkeys_l e (List.mem_cons_of_mem _ he) c List.mem_cons_self
        exact not_lt.mpr (hlt.le.trans (hq p hp).1)
      · rw [List.mem_singleton.mp he]
        exact not_lt.mpr (hq p hp).1
    have hall := (((((halves_init (B := B)).add d).addAll l).last pa).last pb).addAll r
    rw [← hkeep_l, ← hkeep_r] at hall
    have hmod : modified B c.2 0 d (l ++ c :: r) pa pb =
        keep B c.2 r (placeLast B pb (placeLast B pa (keep B c.2 l
          (addToBranches B (branchInit, branchInit) d.1 d.2)))) := by
      rw [modified, if_pos hd, List.append_cons, modifyEntries_skip _ _ (hskip ha) (hskip hb),
        keep_removed]
      exact modifyEntries_place (hplace ha) (hplace hb) _
    rw [← hmod] at hall
    exact hall

/-- What is placed in the place of a child comes between its neighbours. -/
theorem halves_routed {l r : List Kid} {c : Kid} (hb : BranchAt B file h off lo (l ++ c :: r))
    (ha : ∀ p ∈ pa, Between B c r p) (hbp : ∀ p ∈ pb, Between B c r p) {e : Entry}
    {es : List Entry} (hes : kidPairs (l ++ c :: r) = e :: es) :
    Halves B (modified B c.ref 0 e es pa pb)
      (kidPairs l ++ pa.toList ++ pb.toList ++ kidPairs r) := by
  have hpairs : kidPairs (l ++ c :: r) = kidPairs l ++ (c.key, c.ref) :: kidPairs r := by
    simp [kidPairs]
  have hkeys : (kidPairs (l ++ c :: r)).Pairwise fun d e => rank B d.1 < rank B e.1 :=
    List.pairwise_map.mpr (hb.ordered.seps.imp fun hcd => hcd.1)
  have hrefs : (kidPairs (l ++ c :: r)).Pairwise fun d e => d.2 ≠ e.2 :=
    List.pairwise_map.mpr (kids_distinct hb.ordered fun d hd => (hb.kids d hd).2.2)
  have hpos : ∀ d ∈ kidPairs (l ++ c :: r), d.2 ≠ 0 := by
    intro e he
    obtain ⟨d, hd, rfl⟩ := List.mem_map.mp he
    exact (hb.kids d hd).1.ne'
  have hplace : ∀ {q : Option Entry}, (∀ p ∈ q, Between B c r p) → ∀ p ∈ q,
      rank B c.key ≤ rank B p.1 ∧ ∀ d ∈ kidPairs r, rank B p.1 < rank B d.1 := by
    intro q hq p hp
    refine ⟨(hq p hp).1, fun e he => ?_⟩
    obtain ⟨d, hd, rfl⟩ := List.mem_map.mp he
    exact (hq p hp).2 d hd
  rw [hpairs] at hkeys hrefs hpos hes
  exact halves_spliced hkeys hrefs hpos (hplace ha) (hplace hbp) hes

/-- `modify_branch` never fails, and it makes a node when there is one to place. When what is
placed belongs there, it stands between the neighbours of the child that is removed. -/
theorem modifyBranch_spec {l r : List Kid} {c : Kid} {a b : Nat} {aKey bKey : Option Data}
    (hb : BranchAt B db.file h off lo (l ++ c :: r)) (hpa : pa = aKey.map fun k => (k, a))
    (hpb : pb = bKey.map fun k => (k, b)) :
    ∃ nodes ns, eval (modifyBranch B off lo a aKey b bKey c.ref 0) db = .ok (nodes, db) ∧
      Pend B nodes ns ∧ (aKey.isSome → ns ≠ []) ∧
      ((∀ p ∈ pa.toList ++ pb.toList, Between B c r p) →
        ns = (halve B (kidPairs l ++ (pa.toList ++ pb.toList) ++ kidPairs r)).map branchEntry) := by
  obtain ⟨d, ds, hds⟩ := List.exists_cons_of_ne_nil hb.ne
  have hhead : d.key = lo := hb.head d (by rw [hds]; rfl)
  have hnode : NodeAt B db.file off (entryNode ((d.key, d.ref) :: kidPairs ds)) := by
    have := hb.node
    rwa [hds] at this
  have heval := eval_modifyBranch a b c.ref 0 aKey bKey hnode
  have hfull : ∀ {es : List Entry}, pa.toList.length ≤ es.length → aKey.isSome →
      (halve B es).map branchEntry ≠ [] := by
    intro es hlen hkey hnil
    obtain ⟨ka, rfl⟩ := Option.isSome_iff_exists.mp hkey
    have hflat := halve_flatten (B := B) es
    rw [List.map_eq_nil_iff.mp hnil] at hflat
    rw [← hflat, hpa] at hlen
    simp at hlen
  subst hhead
  by_cases hbetween : ∀ p ∈ pa.toList ++ pb.toList, Between B c r p
  · have hhalves := halves_routed hb
      (fun p hp => hbetween p (List.mem_append_left _ (Option.mem_toList.mpr hp)))
      (fun p hp => hbetween p (List.mem_append_right _ (Option.mem_toList.mpr hp)))
      (show kidPairs (l ++ c :: r) = (d.key, d.ref) :: kidPairs ds by rw [hds]; rfl)
    rw [List.append_assoc (kidPairs l)] at hhalves
    subst hpa hpb
    refine ⟨_, _, heval, splitBranches_pend hhalves, hfull ?_, fun _ => rfl⟩
    simp only [List.length_append]
    omega
  · obtain ⟨es, hes, hlen⟩ := halves_modified (B := B) c.ref 0 (d.key, d.ref) (kidPairs ds) pa pb
    subst hpa hpb
    exact ⟨_, _, heval, splitBranches_pend hes, hfull hlen, fun h => absurd h hbetween⟩

/-- The separator of a branch bounds those of its children. -/
theorem BranchAt.lo_le {cs : List Kid} (hb : BranchAt B file h off lo cs) :
    ∀ c ∈ cs, rank B lo ≤ rank B c.key := by
  obtain ⟨c, cs, rfl⟩ := List.exists_cons_of_ne_nil hb.ne
  have hhead : c.key = lo := hb.head c rfl
  intro d hd
  rcases List.mem_cons.mp hd with rfl | hd
  · exact hhead ▸ le_refl _
  · exact hhead ▸ ((ordered_cons.mp hb.ordered).2.1 d hd).1.le

/-- Children that stand in the file, cut into branches of legal sizes. -/
theorem fit_branches {parts : List (List Kid)} (hord : Ordered (rank B) parts.flatten)
    (hpart : ∀ p ∈ parts, p ≠ [] ∧ p.length < B.maxNodeSize)
    (hlo : ∀ c ∈ parts.flatten, rank B lo ≤ rank B c.key)
    (hkids : ∀ c ∈ parts.flatten, 0 < c.ref ∧ c.ref < file.length ∧
      SubtreeAt B file h c.ref c.recs) :
    Fit B file (h + 1) lo (below parts.flatten)
      (parts.map fun p => branchEntry (kidPairs p)) := by
  have hhead : ∀ p ∈ parts, ∃ c t, p = c :: t ∧ (branchEntry (kidPairs p)).1 = c.key ∧
      (branchEntry (kidPairs p)).2 = branchOf p := by
    intro p hp
    obtain ⟨c, t, rfl⟩ := List.exists_cons_of_ne_nil (hpart p hp).1
    exact ⟨c, t, rfl, rfl, rfl⟩
  refine ⟨parts.map fun p => ⟨(branchEntry (kidPairs p)).1, branchOf p, below p⟩, ?_, ?_, ?_, ?_⟩
  · rw [List.map_map]
    refine List.map_congr_left fun p hp => ?_
    obtain ⟨c, t, rfl, -, hnode⟩ := hhead p hp
    exact Prod.ext rfl hnode
  · refine hord.groups fun p hp => ?_
    obtain ⟨c, t, hct, hkey, -⟩ := hhead p hp
    exact ⟨c, t, hct, hkey, rfl⟩
  · rw [below_flatten, below, List.flatMap_map]
  · intro n hn
    obtain ⟨p, hp, rfl⟩ := List.mem_map.mp hn
    have hmem : ∀ c ∈ p, c ∈ parts.flatten := fun c hc => List.mem_flatten.mpr ⟨p, hp, hc⟩
    obtain ⟨c, t, hct, hkey, -⟩ := hhead p hp
    refine ⟨?_, p, rfl, (hpart p hp).1, (hpart p hp).2, ?_, rfl, fun d hd => hkids d (hmem d hd)⟩
    · rw [hkey]
      exact hlo c (hmem c (by rw [hct]; exact List.mem_cons_self))
    · exact hord.part hp

theorem kidPairs_place (p : Nat) (ps : List Pending) :
    kidPairs (place B p ps) = placed B p (ps.map Pending.entry) := by
  induction ps generalizing p with
  | nil => rfl
  | cons n ps ih =>
    rw [List.map_cons, placed, ← ih]
    rfl

/-- Pending nodes with the records that replace those of a child stay between the
neighbours of that child. -/
theorem pending_bounds {f : List Rec → List Rec} {c : Kid} {l r : List Kid} {ps : List Pending}
    (hf : LocalAt (rank B) k f) (hroute : Routes (rank B) k c r)
    (hord : Ordered (rank B) (l ++ c :: r)) (hps : Ordered (rank B) ps)
    (hbelow : below ps = f c.recs) (hne : ∀ p ∈ ps, p.recs ≠ []) :
    ∀ p ∈ ps, ∀ d ∈ r, rank B p.key < rank B d.key ∧ ∀ s ∈ p.recs, rank B s.1 < rank B d.key := by
  intro p hp d hd
  have hrecs : ∀ s ∈ p.recs, rank B s.1 < rank B d.key := by
    intro s hs
    rcases hf.mem (hbelow ▸ mem_below.mpr ⟨p, hp, hs⟩) with hk | hc
    · exact hk ▸ hroute.2 d hd
    · obtain ⟨_, hcr, _⟩ := ordered_append.mp hord
      exact ((ordered_cons.mp hcr).2.1 d hd).2 s hc
  obtain ⟨s, hs⟩ := List.exists_mem_of_ne_nil _ (hne p hp)
  exact ⟨lt_of_le_of_lt (hps.lower p hp s hs) (hrecs s hs), hrecs⟩

/-- In the place of a child, nodes that fit give branches that fit. -/
theorem Fit.branch {f : List Rec → List Rec} {c : Kid} {l r : List Kid} {new : Data}
    {ns : List (Data × Node)} (hf : LocalAt (rank B) k f)
    (hb : BranchAt B file h off lo (l ++ c :: r)) (hroute : Routes (rank B) k c r)
    (hnew : file <+: new) (hfit : Fit B new h c.key (f c.recs) ns) (hcount : ns.length ≤ 2)
    (hend : (new ++ encNodes B ns).length ≤ 2 ^ 64) (hlen : (encNodes B ns).length < 2 ^ 32) :
    (∀ p ∈ placed B new.length ns, Between B c r p) ∧
      Fit B (new ++ encNodes B ns) (h + 1) lo (f (below (l ++ c :: r)))
        ((halve B (kidPairs l ++ placed B new.length ns ++ kidPairs r)).map branchEntry) := by
  obtain ⟨ps, rfl, hps, hbelow, hok⟩ := hfit
  have hle := hnew.length_le
  have hoff := hb.node.seg.le
  have hnewpos : 0 < new.length := by
    have := (hb.kids c (by simp)).2.1
    omega
  have hbounds := pending_bounds hf hroute hb.ordered hps hbelow fun p hp => (hok p hp).2.ne_nil
  have hkey : ∀ d ∈ place B new.length ps, rank B c.key ≤ rank B d.key := fun d hd => by
    obtain ⟨p, hp, hkey, -⟩ := place_key hd
    exact hkey ▸ (hok p hp).1
  refine ⟨fun q hq => ?_, ?_⟩
  · rw [← kidPairs_place] at hq
    obtain ⟨d, hd, rfl⟩ := List.mem_map.mp hq
    refine ⟨hkey d hd, ?_⟩
    obtain ⟨p, hp, hkey, -⟩ := place_key hd
    simp only [hkey]
    exact fun d hd => (hbounds p hp d hd).1
  have hkids : kidPairs l ++ placed B new.length (ps.map Pending.entry) ++ kidPairs r =
      kidPairs (l ++ place B new.length ps ++ r) := by
    rw [← kidPairs_place]
    simp [kidPairs]
  rw [hkids, kidPairs, halve_map, List.map_map]
  have hflat := halve_flatten (B := B) (l ++ place B new.length ps ++ r)
  have hrecs : f (below (l ++ c :: r)) =
      below (halve B (l ++ place B new.length ps ++ r)).flatten := by
    rw [hflat, hf.route hroute hb.ordered, below_append, below_append, below_place, hbelow]
  rw [hrecs]
  refine fit_branches ?_ ?_ ?_ ?_
  · rw [hflat]
    refine hb.ordered.splice (hps.congr (place_congr _ _)) hkey fun d hd e he => ?_
    obtain ⟨p, hp, hkey, hrecs⟩ := place_key hd
    exact hkey ▸ hrecs ▸ hbounds p hp e he
  · intro p hp
    refine halve_mem hp ?_
    have := hb.count
    simp only [List.length_append, List.length_cons, place_length, List.length_map] at *
    omega
  · rw [hflat]
    intro d hd
    simp only [List.mem_append] at hd
    rcases hd with (hd | hd) | hd
    · exact hb.lo_le d (by simp [hd])
    · exact (hb.lo_le c (by simp)).trans (hkey d hd)
    · exact hb.lo_le d (by simp [hd])
  · rw [hflat]
    have hold : ∀ d ∈ l ++ c :: r, 0 < d.ref ∧
        d.ref < (new ++ encNodes B (ps.map Pending.entry)).length ∧
        SubtreeAt B (new ++ encNodes B (ps.map Pending.entry)) h d.ref d.recs := by
      intro d hd
      obtain ⟨h1, h2, h3⟩ := hb.kids d hd
      refine ⟨h1, ?_, h3.mono (hnew.trans (List.prefix_append _ _))⟩
      rw [List.length_append]
      omega
    intro d hd
    simp only [List.mem_append] at hd
    rcases hd with (hd | hd) | hd
    · exact hold d (by simp [hd])
    · exact place_subtrees hnewpos (fun p hp => (hok p hp).2) hend hlen d hd
    · exact hold d (by simp [hd])

end Aodbm
