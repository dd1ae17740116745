import Mathlib.Data.List.Nodup
import Aodbm.Operations

/-!
# Nodes in a row

An update writes its nodes one after the other, and the branches among them have references to
the nodes that were written before.

Results:
1. `row_nodeAt`: where the nodes of a row stand.
2. `halve_refs`, `topNode_refs`: the references of the branches that an update makes.
-/

namespace Aodbm

open Effects Records Bytes

variable (B : Build)

/-- The offsets of the children of a node, from left to right. -/
def Node.refs : Node → List Nat
  | .leaf _ => []
  | .branch first rest => first :: rest.map Prod.snd

def Node.isLeaf : Node → Bool
  | .leaf _ => true
  | .branch _ _ => false

/-- The records of a leaf, or the children of a branch. -/
def Node.size : Node → Nat
  | .leaf rs => rs.length
  | .branch _ rest => rest.length + 1

/-- The bytes of nodes that are written one after the other. -/
def encList (ns : List Node) : Data := ns.flatMap (Node.enc B)

/-- Where the nodes stand when they are written from `p` on. -/
def offsets : Nat → List Node → List Nat
  | _, [] => []
  | p, n :: ns => p :: offsets (p + (n.enc B).length) ns

variable {B}
variable {file : Data} {p : Nat} {ns : List Node}

@[simp] theorem encList_nil : encList B [] = [] := rfl

@[simp] theorem encList_cons (n : Node) (ns : List Node) :
    encList B (n :: ns) = n.enc B ++ encList B ns := rfl

@[simp] theorem encList_append (ms ns : List Node) :
    encList B (ms ++ ns) = encList B ms ++ encList B ns := List.flatMap_append

theorem encList_snd (es : List (Data × Node)) : encList B (es.map Prod.snd) = encNodes B es := by
  rw [encList, encNodes, List.flatMap_map]

theorem enc_pos (n : Node) : 0 < (n.enc B).length := by
  cases n <;> simp [Node.enc]

theorem offsets_append (p : Nat) (ms ns : List Node) :
    offsets B p (ms ++ ns) = offsets B p ms ++ offsets B (p + (encList B ms).length) ns := by
  induction ms generalizing p with
  | nil => rfl
  | cons m ms ih =>
    rw [List.cons_append, offsets, offsets, ih, encList_cons, List.length_append, Nat.add_assoc,
      List.cons_append]

@[simp] theorem offsets_length (p : Nat) (ns : List Node) :
    (offsets B p ns).length = ns.length := by
  induction ns generalizing p with
  | nil => rfl
  | cons n ns ih => rw [offsets, List.length_cons, ih, List.length_cons]

theorem offsets_mem {x : Nat} (hx : x ∈ offsets B p ns) :
    p ≤ x ∧ x < p + (encList B ns).length := by
  induction ns generalizing p with
  | nil => cases hx
  | cons n ns ih =>
    have hn := enc_pos (B := B) n
    rw [encList_cons, List.length_append]
    rw [offsets] at hx
    rcases List.mem_cons.mp hx with rfl | hx
    · omega
    · have := ih hx
      omega

theorem offsets_nodup (p : Nat) (ns : List Node) : (offsets B p ns).Nodup := by
  induction ns generalizing p with
  | nil => exact List.nodup_nil
  | cons n ns ih =>
    have hn := enc_pos (B := B) n
    refine List.nodup_cons.mpr ⟨fun hp => ?_, ih _⟩
    have := (offsets_mem hp).1
    omega

theorem placed_snd (p : Nat) (es : List (Data × Node)) :
    (placed B p es).map Prod.snd = offsets B p (es.map Prod.snd) := by
  induction es generalizing p with
  | nil => rfl
  | cons e es ih => rw [placed, List.map_cons, List.map_cons, offsets, ih]

/-- Behind a file, the nodes of a row stand at their offsets. -/
theorem row_nodeAt (file : Data) (hfits : ∀ n ∈ ns, n.Fits) :
    ∀ x ∈ offsets B file.length ns, ∃ n ∈ ns, NodeAt B (file ++ encList B ns) x n := by
  induction ns generalizing file with
  | nil => exact fun x hx => absurd hx List.not_mem_nil
  | cons n ns ih =>
    intro x hx
    rw [encList_cons, ← List.append_assoc]
    rw [offsets, ← List.length_append] at hx
    rcases List.mem_cons.mp hx with rfl | hx
    · exact ⟨n, List.mem_cons_self, ⟨segAt_mid _ _ _, hfits n List.mem_cons_self⟩⟩
    · obtain ⟨m, hm, hat⟩ :=
        ih (file ++ n.enc B) (fun m hm => hfits m (List.mem_cons_of_mem _ hm)) x hx
      exact ⟨m, List.mem_cons_of_mem _ hm, hat⟩

/-! ## References -/

theorem branchOf_refs {cs : List Kid} (hne : cs ≠ []) : (branchOf cs).refs = cs.map Child.ref := by
  obtain ⟨c, cs, rfl⟩ := List.exists_cons_of_ne_nil hne
  simp [branchOf, Node.refs, kidPairs]

/-- The references of the branches that entries are split into. -/
theorem halve_refs (es : List Entry) :
    (((halve B es).map branchEntry).map Prod.snd).flatMap Node.refs = es.map Prod.snd := by
  have hrefs : ∀ part ∈ halve B es, (branchEntry part).2.refs = part.map Prod.snd := by
    intro part hpart
    cases part with
    | nil => exact absurd rfl (halve_ne hpart)
    | cons e part => rfl
  have hflat := congrArg (List.map Prod.snd) (halve_flatten (B := B) es)
  rw [List.map_flatten] at hflat
  rw [List.flatMap_def, List.map_map, List.map_map, ← hflat]
  exact congrArg List.flatten (List.map_congr_left hrefs)

/-- The root over more than one node has their offsets. -/
theorem topNode_refs (q : Nat) (a b : Data × Node) (ns : List (Data × Node)) :
    (topNode B q (a :: b :: ns)).refs = offsets B q ((a :: b :: ns).map Prod.snd) := by
  rw [← placed_snd]
  rfl

theorem topNode_fits {q : Nat} {ns : List (Data × Node)} (hns : ∀ n ∈ ns, n.2.Fits)
    (hlen : ((topNode B q ns).enc B).length < 2 ^ 32) (hq : q + (encNodes B ns).length < 2 ^ 64) :
    (topNode B q ns).Fits := by
  rcases ns with _ | ⟨a, _ | ⟨b, ns⟩⟩
  · simp [topNode, Node.Fits]
  · exact hns a List.mem_cons_self
  · have hrefs : ∀ x ∈ (topNode B q (a :: b :: ns)).refs, x < 2 ^ 64 := by
      intro x hx
      rw [topNode_refs] at hx
      have := (offsets_mem hx).2
      rw [encList_snd] at this
      omega
    exact branch_fits hlen (hrefs _ List.mem_cons_self) fun kc hkc =>
      hrefs _ (List.mem_cons_of_mem _ (List.mem_map_of_mem hkc))

theorem encNodes_le (q : Nat) (ns : List (Data × Node)) : (encNodes B ns).length ≤
    (encNodes B (underRoot ns)).length + ((topNode B q ns).enc B).length := by
  rcases ns with _ | ⟨a, _ | ⟨b, ns⟩⟩
  · simp
  · simp [underRoot, topNode]
  · exact Nat.le_add_right _ _

/-- The root that an update writes fits the format. -/
theorem Rewritten.top_fits {file' payload new k : Data} {ver leaf v : Nat}
    {parts : List (List Rec)} {es : List (Data × Node)} (hf : file.length < 2 ^ 63)
    (hr : Rewritten B file ver k leaf parts payload new es file' v)
    (hnew : file.length + 5 ≤ new.length) (hes : ∀ n ∈ es, n.2.Fits) :
    (topNode B new.length es).Fits := by
  have hsize := hr.size
  have hlen := congrArg List.length (hr.block.symm.trans hr.root)
  simp only [List.length_append, data_enc_length, from64_length] at hlen
  have hle := encNodes_le (B := B) new.length es
  exact topNode_fits hes (by omega) (by omega)

end Aodbm
