import Aodbm.Lib.Records
import Aodbm.Node

/-!
# The tree below a version

`NodeOk B file h pos n rs`: the node `n`, if it stood at `pos`, would be the root of
a well-formed tree of height `h` in the file with the records `rs`. Its children
stand in the file, below `pos`. `TreeAt` is the tree of a version, whose root may
also be an empty leaf.

Results:
1. `NodeOk.mono`: appends keep every tree.
2. `NodeOk.sorted`, `NodeOk.ne_nil`: the records are sorted, and there are some.
3. `NodeOk.unique`: the tree determines its height and records.
4. `kids_distinct`: the children of a branch are different nodes.
-/

namespace Aodbm

open Records Bytes

/-- A child of a branch: its separator, its offset and the records below it. -/
abbrev Kid := Child Data Data Nat

/-- The pairs that a branch stores for its children after the first. -/
def kidPairs (cs : List Kid) : List (Data × Nat) := cs.map fun c => (c.key, c.ref)

/-- The branch with the given children. The separator of the first is not stored. -/
def branchOf : List Kid → Node
  | [] => .branch 0 []
  | c :: cs => .branch c.ref (kidPairs cs)

variable (B : Build)

/-- See the module description. A leaf has between one and `M` records with strictly
increasing keys. A branch has between one and `M - 1` children; their separators
increase strictly and cut their records; each child has a non-zero offset below the
branch, at which a complete node stands, and all have the same height. -/
def NodeOk (file : Data) : Nat → Nat → Node → List Rec → Prop
  | 0, _, n, rs => n = .leaf rs ∧ rs ≠ [] ∧ rs.length ≤ B.maxNodeSize ∧ Sorted (rank B) rs
  | h + 1, pos, n, rs => ∃ cs : List Kid,
    n = branchOf cs ∧ cs ≠ [] ∧ cs.length < B.maxNodeSize ∧ Ordered (rank B) cs ∧
    rs = below cs ∧
    ∀ c ∈ cs, 0 < c.ref ∧ c.ref < pos ∧ ∃ m, NodeAt B file c.ref m ∧ NodeOk file h c.ref m c.recs

/-- The well-formed tree of height `h` whose root stands at `off`. -/
def SubtreeAt (file : Data) (h off : Nat) (rs : List Rec) : Prop :=
  ∃ n, NodeAt B file off n ∧ NodeOk B file h off n rs

/-- The tree of a version: only its root may be a leaf without records. -/
def TreeAt (file : Data) (off : Nat) (rs : List Rec) : Prop :=
  (NodeAt B file off (.leaf []) ∧ rs = []) ∨ ∃ h, SubtreeAt B file h off rs

variable {B}
variable {file file' : Data} {h off pos : Nat} {n : Node} {rs : List Rec}

/-- What is appended to the file, and a higher place for the root, keep the tree. -/
theorem NodeOk.mono (hn : NodeOk B file h pos n rs) (hf : file <+: file') {pos' : Nat}
    (hp : pos ≤ pos') : NodeOk B file' h pos' n rs := by
  induction h generalizing pos pos' n rs with
  | zero => exact hn
  | succ h ih =>
    obtain ⟨cs, h1, h2, h3, h4, h5, h6⟩ := hn
    refine ⟨cs, h1, h2, h3, h4, h5, fun c hc => ?_⟩
    obtain ⟨hpos, hlt, m, hm, hok⟩ := h6 c hc
    exact ⟨hpos, by omega, m, hm.mono hf, ih hok (le_refl _)⟩

theorem SubtreeAt.mono (hs : SubtreeAt B file h off rs) (hf : file <+: file') :
    SubtreeAt B file' h off rs :=
  let ⟨n, hn, hok⟩ := hs
  ⟨n, hn.mono hf, hok.mono hf (le_refl _)⟩

theorem TreeAt.mono (ht : TreeAt B file off rs) (hf : file <+: file') :
    TreeAt B file' off rs := by
  rcases ht with ⟨hn, hrs⟩ | ⟨h, hs⟩
  · exact Or.inl ⟨hn.mono hf, hrs⟩
  · exact Or.inr ⟨h, hs.mono hf⟩

theorem NodeOk.sorted (hn : NodeOk B file h pos n rs) : Sorted (rank B) rs := by
  induction h generalizing pos n rs with
  | zero => exact hn.2.2.2
  | succ h ih =>
    obtain ⟨cs, _, _, _, h4, rfl, h6⟩ := hn
    exact h4.sorted fun c hc => let ⟨_, _, _, _, hok⟩ := h6 c hc; ih hok

/-- Below every node other than an empty root there are records. -/
theorem NodeOk.ne_nil (hn : NodeOk B file h pos n rs) : rs ≠ [] := by
  induction h generalizing pos n rs with
  | zero => exact hn.2.1
  | succ h ih =>
    obtain ⟨cs, _, h2, _, _, rfl, h6⟩ := hn
    cases cs with
    | nil => exact absurd rfl h2
    | cons c cs =>
      obtain ⟨_, _, m, _, hok⟩ := h6 c List.mem_cons_self
      rw [below_cons]
      exact List.append_ne_nil_of_left_ne_nil (ih hok) _

theorem SubtreeAt.sorted (hs : SubtreeAt B file h off rs) : Sorted (rank B) rs :=
  let ⟨_, _, hok⟩ := hs
  hok.sorted

theorem SubtreeAt.ne_nil (hs : SubtreeAt B file h off rs) : rs ≠ [] :=
  let ⟨_, _, hok⟩ := hs
  hok.ne_nil

theorem TreeAt.sorted (ht : TreeAt B file off rs) : Sorted (rank B) rs := by
  rcases ht with ⟨_, rfl⟩ | ⟨_, hs⟩
  · exact List.Pairwise.nil
  · exact hs.sorted

/-- The height of a tree is bounded by the offset of its root, since offsets decrease. -/
theorem NodeOk.height_lt (hn : NodeOk B file h pos n rs) : h ≤ pos := by
  induction h generalizing pos n rs with
  | zero => exact Nat.zero_le _
  | succ h ih =>
    obtain ⟨cs, _, h2, _, _, _, h6⟩ := hn
    obtain ⟨c, hc⟩ := List.exists_mem_of_ne_nil _ h2
    obtain ⟨_, hlt, m, _, hok⟩ := h6 c hc
    have := ih hok
    omega

theorem SubtreeAt.height_lt (hs : SubtreeAt B file h off rs) : h ≤ off :=
  let ⟨_, _, hok⟩ := hs
  hok.height_lt

/-- Two branches with the same stored pairs have the same offsets and separators, in order. -/
theorem branchOf_inj {cs ds : List Kid} (hcs : cs ≠ []) (hds : ds ≠ [])
    (h : branchOf cs = branchOf ds) :
    cs.map Child.ref = ds.map Child.ref ∧ cs.length = ds.length := by
  cases cs with
  | nil => exact absurd rfl hcs
  | cons c cs =>
    cases ds with
    | nil => exact absurd rfl hds
    | cons d ds =>
      simp only [branchOf, kidPairs, Node.branch.injEq] at h
      have hrefs := congrArg (List.map Prod.snd) h.2
      have hlen := congrArg List.length h.2
      simp only [List.map_map, List.length_map] at hrefs hlen
      exact ⟨by simpa [h.1, Function.comp_def] using hrefs, by simp [hlen]⟩

/-- Lists of children with the same offsets, and the same records at each offset,
have the same records. -/
theorem below_congr {cs ds : List Kid} (hrefs : cs.map Child.ref = ds.map Child.ref)
    (hrecs : ∀ c ∈ cs, ∀ d ∈ ds, c.ref = d.ref → c.recs = d.recs) : below cs = below ds := by
  induction cs generalizing ds with
  | nil =>
    have : ds = [] := List.map_eq_nil_iff.mp hrefs.symm
    rw [this]
  | cons c cs ih =>
    cases ds with
    | nil => simp at hrefs
    | cons d ds =>
      simp only [List.map_cons, List.cons.injEq] at hrefs
      rw [below_cons, below_cons,
        hrecs c List.mem_cons_self d List.mem_cons_self hrefs.1,
        ih hrefs.2 fun a ha b hb =>
          hrecs a (List.mem_cons_of_mem _ ha) b (List.mem_cons_of_mem _ hb)]

/-- A node is the root of at most one tree. -/
theorem NodeOk.unique {h' pos' : Nat} {rs' : List Rec} (hn : NodeOk B file h pos n rs)
    (hn' : NodeOk B file h' pos' n rs') : h = h' ∧ rs = rs' := by
  induction h generalizing h' pos pos' n rs rs' with
  | zero =>
    cases h' with
    | zero =>
      have := hn.1.symm.trans hn'.1
      exact ⟨rfl, by injection this⟩
    | succ h' =>
      obtain ⟨cs, hcs, h2, _⟩ := hn'
      rw [hn.1] at hcs
      cases cs <;> cases hcs
  | succ h ih =>
    cases h' with
    | zero =>
      obtain ⟨cs, hcs, h2, _⟩ := hn
      rw [hn'.1] at hcs
      cases cs <;> cases hcs
    | succ h' =>
      obtain ⟨cs, rfl, h2, _, _, rfl, h6⟩ := hn
      obtain ⟨ds, hcd, h2', _, _, rfl, h6'⟩ := hn'
      have same : ∀ c ∈ cs, ∀ d ∈ ds, c.ref = d.ref → h = h' ∧ c.recs = d.recs := by
        intro c hc d hd hr
        obtain ⟨_, _, m, hm, hok⟩ := h6 c hc
        obtain ⟨_, _, m', hm', hok'⟩ := h6' d hd
        have hmm : m = m' := hm.unique (hr ▸ hm')
        subst hmm
        exact ih hok hok'
      have hrefs := (branchOf_inj h2 h2' hcd).1
      refine ⟨?_, below_congr hrefs fun c hc d hd hr => (same c hc d hd hr).2⟩
      obtain ⟨c, cs, rfl⟩ := List.exists_cons_of_ne_nil h2
      obtain ⟨d, ds, rfl⟩ := List.exists_cons_of_ne_nil h2'
      simp only [List.map_cons, List.cons.injEq] at hrefs
      rw [(same c List.mem_cons_self d List.mem_cons_self hrefs.1).1]

theorem SubtreeAt.unique {h' : Nat} {rs' : List Rec} (hs : SubtreeAt B file h off rs)
    (hs' : SubtreeAt B file h' off rs') : h = h' ∧ rs = rs' := by
  obtain ⟨n, hn, hok⟩ := hs
  obtain ⟨m, hm, hok'⟩ := hs'
  have hnm : n = m := hn.unique hm
  subst hnm
  exact hok.unique hok'

/-- Two children of one branch never share an offset: their records would be the same. -/
theorem kids_distinct {cs : List Kid} (ho : Ordered (rank B) cs)
    (hs : ∀ c ∈ cs, SubtreeAt B file h c.ref c.recs) :
    cs.Pairwise fun c d => c.ref ≠ d.ref := by
  refine List.Pairwise.imp_of_mem ?_ ho.seps
  intro c d hc hd hcd href
  have hsame := ((hs c hc).unique (href ▸ hs d hd)).2
  obtain ⟨r, hr⟩ := List.exists_mem_of_ne_nil _ (hs c hc).ne_nil
  have h1 := hcd.2 r hr
  have h2 := ho.lower d hd r (hsame ▸ hr)
  exact absurd h1 (not_lt.mpr h2)

/-- The records below a node, without reference to its height. -/
theorem TreeAt.unique {rs' : List Rec} (ht : TreeAt B file off rs)
    (ht' : TreeAt B file off rs') : rs = rs' := by
  have hempty : ∀ {ss : List Rec}, NodeAt B file off (.leaf []) →
      (∃ h, SubtreeAt B file h off ss) → False := by
    rintro ss hn ⟨h, m, hm, hok⟩
    have hnm := hn.unique hm
    subst hnm
    cases h with
    | zero =>
      obtain ⟨h1, h2, _⟩ := hok
      injection h1 with h1
      exact h2 h1.symm
    | succ h =>
      obtain ⟨cs, hcs, h2, _⟩ := hok
      cases cs <;> cases hcs
  rcases ht with ⟨hn, rfl⟩ | ⟨h, hs⟩ <;> rcases ht' with ⟨hn', rfl⟩ | ⟨h', hs'⟩
  · rfl
  · exact (hempty hn ⟨h', hs'⟩).elim
  · exact (hempty hn' ⟨h, hs⟩).elim
  · exact (hs.unique hs').2

end Aodbm
