import Aodbm.Tree

/-!
# Nodes that wait to be written

An update works from the leaf up. At each level the old node is replaced by the nodes
of a `modify_result`, none, one or two of them, which are written after everything
that was placed so far. `Fit` says that they will stand for the given records there.

Results:
1. `place_subtrees`: once their bytes are appended, the nodes are subtrees at known offsets.
2. `constructRoot_spec`: the root made from the last nodes is the root of the tree.
-/

namespace Aodbm

open Effects Records Bytes

variable (B : Build)

/-- A node that waits to be written: its first key, the node, the records below it. -/
abbrev Pending := Child Data Data Node

/-- The keys and ropes of a `modify_result` are those of the given nodes. A leaf that
was emptied has no key, and then its rope is not used. -/
inductive Pend : ModifyResult → List (Data × Node) → Prop where
  | none {a : Option Rope} : Pend ⟨a, none, none, none⟩ []
  | one {a : Rope} (ka : Data) {na : Node} (ha : aodbmRopeToData a = na.enc B) :
      Pend ⟨some a, some ka, none, none⟩ [(ka, na)]
  | two {a b : Rope} (ka kb : Data) {na nb : Node} (ha : aodbmRopeToData a = na.enc B)
      (hb : aodbmRopeToData b = nb.enc B) :
      Pend ⟨some a, some ka, some b, some kb⟩ [(ka, na), (kb, nb)]

/-- The bytes of the nodes, in the order in which they are written. -/
def encNodes (ns : List (Data × Node)) : Data := ns.flatMap fun n => n.2.enc B

/-- The children that the nodes become when they are written from `p` on. -/
def place : Nat → List Pending → List Kid
  | _, [] => []
  | p, n :: ns => ⟨n.key, p, n.recs⟩ :: place (p + (n.ref.enc B).length) ns

/-- The key and the node that a `modify_result` has of a pending node. -/
def Pending.entry (n : Pending) : Data × Node := (n.key, n.ref)

/-- Written at the end of `file`, the nodes are trees of height `h` with the records
`rs`, in order, and `lo` is a lower bound of their keys. -/
def Fit (file : Data) (h : Nat) (lo : Data) (rs : List Rec) (ns : List (Data × Node)) : Prop :=
  ∃ ps : List Pending, ns = ps.map Pending.entry ∧ Ordered (rank B) ps ∧ below ps = rs ∧
    ∀ p ∈ ps, rank B lo ≤ rank B p.key ∧ NodeOk B file h file.length p.ref p.recs

variable {B}
variable {db : Db} {file : Data} {h off prev : Nat} {lo : Data} {rs : List Rec}
  {ns : List (Data × Node)}

@[simp] theorem encNodes_nil : encNodes B [] = [] := rfl

@[simp] theorem encNodes_cons (n : Data × Node) (ns : List (Data × Node)) :
    encNodes B (n :: ns) = n.2.enc B ++ encNodes B ns := rfl

theorem place_congr (p : Nat) (ps : List Pending) :
    ps.map (fun c => (c.key, c.recs)) = (place B p ps).map fun d => (d.key, d.recs) := by
  induction ps generalizing p with
  | nil => rfl
  | cons n ps ih =>
    rw [place, List.map_cons, List.map_cons, ih]

theorem below_place (p : Nat) (ps : List Pending) : below (place B p ps) = below ps := by
  induction ps generalizing p with
  | nil => rfl
  | cons n ps ih => rw [place, below_cons, below_cons, ih]

theorem place_key {p : Nat} {ps : List Pending} {d : Kid} (hd : d ∈ place B p ps) :
    ∃ n ∈ ps, d.key = n.key ∧ d.recs = n.recs := by
  have hmem := List.mem_map_of_mem (f := fun d : Kid => (d.key, d.recs)) hd
  rw [← place_congr] at hmem
  obtain ⟨n, hn, heq⟩ := List.mem_map.mp hmem
  simp only [Prod.mk.injEq] at heq
  exact ⟨n, hn, heq.1.symm, heq.2.symm⟩

@[simp] theorem place_length (p : Nat) (ps : List Pending) : (place B p ps).length = ps.length := by
  have := congrArg List.length (place_congr (B := B) p ps)
  simpa using this.symm

/-- A node whose children stand in the file fits the format as soon as its length does. -/
theorem NodeOk.fits {pos : Nat} {n : Node} (hn : NodeOk B file h pos n rs) (hpos : pos ≤ 2 ^ 64)
    (hlen : (n.enc B).length < 2 ^ 32) : n.Fits := by
  cases h with
  | zero =>
    obtain ⟨rfl, _⟩ := hn
    exact leaf_fits hlen
  | succ h =>
    obtain ⟨cs, rfl, hne, _, _, _, hkids⟩ := hn
    obtain ⟨c, cs, rfl⟩ := List.exists_cons_of_ne_nil hne
    have hc := (hkids c List.mem_cons_self).2.1
    refine branch_fits hlen (by omega) fun kc hkc => ?_
    obtain ⟨d, hd, rfl⟩ := List.mem_map.mp hkc
    have hd := (hkids d (List.mem_cons_of_mem _ hd)).2.1
    simp only
    omega

/-- Appended to the file, a node is a subtree at the old end of the file. -/
theorem NodeOk.append {n : Node} (hn : NodeOk B file h file.length n rs)
    (hpos : file.length ≤ 2 ^ 64) (hlen : (n.enc B).length < 2 ^ 32) :
    SubtreeAt B (file ++ n.enc B) h file.length rs :=
  ⟨n, ⟨segAt_end file _, hn.fits hpos hlen⟩, hn.mono (List.prefix_append _ _) (le_refl _)⟩

/-- Pending nodes fit the format as soon as their bytes are few enough. -/
theorem Fit.fits (hfit : Fit B file h lo rs ns) (hpos : file.length ≤ 2 ^ 64)
    (hlen : (encNodes B ns).length < 2 ^ 32) : ∀ n ∈ ns, n.2.Fits := by
  obtain ⟨ps, rfl, _, _, hok⟩ := hfit
  intro n hn
  obtain ⟨p, hp, rfl⟩ := List.mem_map.mp hn
  refine (hok p hp).2.fits hpos (lt_of_le_of_lt ?_ hlen)
  have hmem : Node.enc B p.ref ∈ (ps.map Pending.entry).map fun n => n.2.enc B :=
    List.mem_map.mpr ⟨p.entry, hn, rfl⟩
  rw [encNodes, List.flatMap_def]
  exact (List.infix_of_mem_flatten hmem).length_le

/-- Once their bytes are appended, the pending nodes are subtrees. -/
theorem place_subtrees {ps : List Pending} (hfile : 0 < file.length)
    (hps : ∀ p ∈ ps, NodeOk B file h file.length p.ref p.recs)
    (hend : (file ++ encNodes B (ps.map Pending.entry)).length ≤ 2 ^ 64)
    (hlen : (encNodes B (ps.map Pending.entry)).length < 2 ^ 32) :
    ∀ c ∈ place B file.length ps, 0 < c.ref ∧
      c.ref < (file ++ encNodes B (ps.map Pending.entry)).length ∧
      SubtreeAt B (file ++ encNodes B (ps.map Pending.entry)) h c.ref c.recs := by
  induction ps generalizing file with
  | nil => exact fun c hc => absurd hc List.not_mem_nil
  | cons n ps ih =>
    rw [List.map_cons, encNodes_cons, ← List.append_assoc] at hend ⊢
    rw [List.map_cons, encNodes_cons, List.length_append] at hlen
    rw [List.length_append, List.length_append] at hend
    have hfirst := (hps n List.mem_cons_self).append (B := B) (by omega)
      (by simpa [Pending.entry] using Nat.lt_of_le_of_lt (Nat.le_add_right _ _) hlen)
    have hnpos : 0 < (n.ref.enc B).length := by
      cases n.ref <;> simp [Node.enc]
    intro c hc
    rw [place] at hc
    rcases List.mem_cons.mp hc with rfl | hc
    · refine ⟨hfile, ?_, hfirst.mono (List.prefix_append _ _)⟩
      simp only [List.length_append, Pending.entry]
      omega
    · have hrest : ∀ p ∈ ps, NodeOk B (file ++ n.ref.enc B) h (file ++ n.ref.enc B).length
          p.ref p.recs := fun p hp =>
        (hps p (List.mem_cons_of_mem _ hp)).mono (List.prefix_append _ _) (by simp)
      have hpos : 0 < (file ++ n.ref.enc B).length := by
        rw [List.length_append]
        omega
      refine ih hpos hrest ?_ (by omega) c (by simpa using hc)
      simpa [Pending.entry, Nat.add_assoc] using hend

/-! ## Roots -/

/-- What is written before a root node: the previous version. -/
theorem segAt_root (file : Data) (prev : Nat) (n : Node) :
    SegAt (file ++ (aodbmDataFrom64 B prev ++ n.enc B)) file.length (aodbmDataFrom64 B prev) ∧
      SegAt (file ++ (aodbmDataFrom64 B prev ++ n.enc B)) (file.length + 8) (n.enc B) := by
  have hseg := segAt_end file (aodbmDataFrom64 B prev ++ n.enc B)
  have hr := hseg.right
  rw [from64_length] at hr
  exact ⟨hseg.left, hr⟩

/-- A version: the offset of the version before it, and its tree. -/
structure VersionAt (B : Build) (file : Data) (ver prev : Nat) (rs : List Rec) : Prop where
  header : SegAt file ver (aodbmDataFrom64 B prev)
  tree : TreeAt B file (ver + 8) rs

/-- A root node written after its header makes a version. -/
theorem NodeOk.version {n : Node} (hn : NodeOk B file h file.length n rs)
    (hpos : file.length ≤ 2 ^ 64) (hlen : (n.enc B).length < 2 ^ 32) (prev : Nat) :
    VersionAt B (file ++ (aodbmDataFrom64 B prev ++ n.enc B)) file.length prev rs := by
  obtain ⟨h1, h2⟩ := segAt_root (B := B) file prev n
  exact ⟨h1, Or.inr ⟨h, n, ⟨h2, hn.fits hpos hlen⟩, hn.mono (List.prefix_append _ _) (by omega)⟩⟩

/-- The empty leaf written after its header makes a version without records. -/
theorem versionAt_empty (file : Data) (prev : Nat) :
    VersionAt B (file ++ (aodbmDataFrom64 B prev ++ Node.enc B (.leaf [])))
      file.length prev [] := by
  obtain ⟨h1, h2⟩ := segAt_root (B := B) file prev (.leaf [])
  exact ⟨h1, Or.inl ⟨⟨h2, by simp [Node.Fits]⟩, rfl⟩⟩

/-- A branch over the pending nodes, written behind them, is a node again. -/
theorem nodeOk_place {ps : List Pending} (hne : ps ≠ []) (hcount : ps.length < B.maxNodeSize)
    (hord : Ordered (rank B) ps) (hfile : 0 < file.length)
    (hps : ∀ p ∈ ps, NodeOk B file h file.length p.ref p.recs)
    (hend : (file ++ encNodes B (ps.map Pending.entry)).length ≤ 2 ^ 64)
    (hlen : (encNodes B (ps.map Pending.entry)).length < 2 ^ 32) :
    NodeOk B (file ++ encNodes B (ps.map Pending.entry)) (h + 1)
      (file ++ encNodes B (ps.map Pending.entry)).length (branchOf (place B file.length ps))
      (below ps) := by
  have hplen : (place B file.length ps).length = ps.length := place_length _ _
  refine ⟨place B file.length ps, rfl, fun h => hne ?_, by omega, hord.congr (place_congr _ _),
    (below_place _ _).symm, place_subtrees hfile hps hend hlen⟩
  rw [h] at hplen
  exact List.length_eq_zero_iff.mp hplen.symm

/-- `construct_root` never fails, its bytes contain the nodes, and the root it makes is
the root of a version with the records of the nodes. -/
theorem constructRoot_spec {nodes : ModifyResult} (hp : Pend B nodes ns) (prev appendPos : Nat)
    (data : Rope) (dataSz : Nat) :
    ∃ dat root, constructRoot B prev appendPos data dataSz nodes = pure ⟨dat, root⟩ ∧
      appendPos ≤ root ∧ (aodbmRopeToData data).length + (encNodes B ns).length ≤ dat.length ∧
      ∀ {pre : Data} {h : Nat} {lo : Data} {rs : List Rec}, pre.length = appendPos →
        0 < appendPos → appendPos ≤ 2 ^ 63 + 5 → dat.length < 2 ^ 32 →
        dataSz = (aodbmRopeToData data).length → Fit B (pre ++ aodbmRopeToData data) h lo rs ns →
        VersionAt B (pre ++ dat) root prev rs := by
  cases hp with
  -- nothing is left of the tree: the root is an empty leaf
  | none =>
    refine ⟨aodbmRopeToData data ++ (aodbmDataFrom64 B prev ++ Node.enc B (.leaf [])),
      appendPos + dataSz, by simp [constructRoot, Node.enc], Nat.le_add_right _ _, by simp, ?_⟩
    rintro pre h lo rs rfl - - - rfl ⟨ps, hps, -, rfl, -⟩
    have hnil : ps = [] := List.map_eq_nil_iff.mp hps.symm
    subst hnil
    rw [← List.append_assoc, ← List.length_append]
    exact versionAt_empty (pre ++ aodbmRopeToData data) prev
  -- the one node is the root itself, and no node is placed under it
  | @one a ka na ha =>
    refine ⟨aodbmRopeToData data ++ (aodbmDataFrom64 B prev ++ na.enc B), dataSz + appendPos,
      by simp [constructRoot, deref, ha], Nat.le_add_left _ _, by simp, ?_⟩
    rintro pre h lo rs rfl - hle hlen rfl ⟨ps, hps, -, rfl, hok⟩
    obtain ⟨p, rfl, hentry⟩ := List.map_eq_singleton_iff.mp hps.symm
    obtain ⟨rfl, rfl⟩ := Prod.mk.inj hentry
    simp only [List.length_append, from64_length] at hlen
    rw [← List.append_assoc, Nat.add_comm, ← List.length_append]
    have hver := (hok p List.mem_cons_self).2.version (by rw [List.length_append]; omega)
      (by omega) prev
    simpa using hver
  | @two a b ka kb na nb ha hb =>
    refine ⟨aodbmRopeToData data ++ (na.enc B ++ nb.enc B) ++ (aodbmDataFrom64 B prev ++
        Node.enc B (.branch (dataSz + appendPos) [(kb, dataSz + (na.enc B).length + appendPos)])),
      dataSz + (na.enc B).length + (nb.enc B).length + appendPos,
      by simp [constructRoot, deref, ha, hb, ropeSize_eq, aodbmBranch, Node.enc, encKid],
      Nat.le_add_left _ _, by simp, ?_⟩
    rintro pre h lo rs rfl hpos hle hlen rfl ⟨ps, hps, hord, rfl, hok⟩
    obtain ⟨p, qs, rfl, hentry, hqs⟩ := List.map_eq_cons_iff.mp hps.symm
    obtain ⟨q, rfl, hentry'⟩ := List.map_eq_singleton_iff.mp hqs
    obtain ⟨rfl, rfl⟩ := Prod.mk.inj hentry
    obtain ⟨rfl, rfl⟩ := Prod.mk.inj hentry'
    have hbytes : encNodes B ([p, q].map Pending.entry) = p.ref.enc B ++ q.ref.enc B := by
      simp [Pending.entry]
    -- the offsets are those at which the two nodes are placed behind the data
    have hplace : branchOf (place B (pre ++ aodbmRopeToData data).length [p, q]) =
        .branch ((aodbmRopeToData data).length + pre.length)
          [(q.key, (aodbmRopeToData data).length + (p.ref.enc B).length + pre.length)] := by
      rw [List.length_append, Nat.add_comm pre.length]
      simp only [place, branchOf, kidPairs, List.map_cons, List.map_nil]
      rw [Nat.add_right_comm]
    simp only [List.length_append, from64_length] at hlen
    have hfile : 0 < (pre ++ aodbmRopeToData data).length := by
      rw [List.length_append]
      omega
    have hbranch := nodeOk_place (List.cons_ne_nil p [q])
      (by have := B.four_le; simp only [List.length_cons, List.length_nil]; omega) hord hfile
      (fun n hn => (hok n hn).2)
      (by simp only [hbytes, List.length_append]; omega)
      (by simp only [hbytes, List.length_append]; omega)
    rw [hplace, hbytes] at hbranch
    have hver := hbranch.version (by simp only [List.length_append]; omega) (by omega) prev
    have hroot : (pre ++ aodbmRopeToData data ++ (p.ref.enc B ++ q.ref.enc B)).length =
        (aodbmRopeToData data).length + (p.ref.enc B).length + (q.ref.enc B).length +
          pre.length := by
      simp only [List.length_append]
      omega
    rw [hroot] at hver
    simpa using hver

end Aodbm
