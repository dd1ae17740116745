import Aodbm.LeafUpdate
import Aodbm.BranchUpdate

/-!
# The new path of an update

The loops of `aodbm_set` and `aodbm_del` climb from the leaf of the key to the root and
replace one node a level. The invariant of both: written behind the bytes that were
placed so far, the pending nodes hold the updated records of the old node.

Results:
1. `setResult_spec`: `aodbm_set` builds a version with the updated records.
2. `delResult_spec`: `aodbm_del` builds a version without the records of the key.
3. `Rewrites`: which nodes both write, in which order.
-/

namespace Aodbm

open Effects Records Bytes

variable {B : Build}
variable {db : Db} {h off appendPos : Nat} {k lo : Data} {rs top : List Rec}
  {path : List PathNode} {nodes : ModifyResult} {ns : List (Data × Node)}

theorem Pend.length_le (hp : Pend B nodes ns) : ns.length ≤ 2 := by
  cases hp <;> simp

/-- One level of an update. `data₁` is what was placed before, `data₂` what is placed with
the pending nodes, and the arguments of `modify_branch` are the places of these. -/
theorem level_spec {f : List Rec → List Rec} (hf : LocalAt (rank B) k f) {c : Kid}
    {l r : List Kid} (hb : BranchAt B db.file h off lo (l ++ c :: r))
    (hroute : Routes (rank B) k c r) (hp : Pend B nodes ns) (a b : Nat) :
    ∃ nodes' ns', eval (modifyBranch B off lo a nodes.aKey b nodes.bKey c.ref 0) db =
        .ok (nodes', db) ∧ Pend B nodes' ns' ∧ (ns ≠ [] → ns' ≠ []) ∧
      ∀ {new : Data}, db.file <+: new → (new ++ encNodes B ns).length ≤ 2 ^ 64 →
        (encNodes B ns).length < 2 ^ 32 →
        (nodes.aKey.map fun k => (k, a)).toList ++ (nodes.bKey.map fun k => (k, b)).toList =
          placed B new.length ns →
        Fit B new h c.key (f c.recs) ns →
        Fit B (new ++ encNodes B ns) (h + 1) lo (f (below (l ++ c :: r))) ns' ∧
          ns' = (halve B (kidPairs l ++ placed B new.length ns ++ kidPairs r)).map branchEntry := by
  obtain ⟨nodes', ns', heval, hp', hne, hns'⟩ :=
    modifyBranch_spec hb (rfl : _ = nodes.aKey.map fun k => (k, a))
      (rfl : _ = nodes.bKey.map fun k => (k, b))
  refine ⟨nodes', ns', heval, hp', fun h => hne ?_, fun hnew hend hlen hplaced hfit => ?_⟩
  · cases hp with
    | none => exact absurd rfl h
    | one => rfl
    | two => rfl
  · obtain ⟨hbetween, hfit'⟩ := hfit.branch hf hb hroute hnew hp.length_le hend hlen
    rw [← hplaced] at hbetween hfit' ⊢
    rw [hns' hbetween]
    exact ⟨hfit', rfl⟩

/-- The way up from the node at `off` of height `h` to the one at `root`. Behind the bytes
`new` the nodes `ns` replace the node at `off`; when the way has ended, the nodes `ns'`
behind the bytes `new'` are to replace the one at `root`. -/
inductive Climb (B : Build) (file : Data) (k : Data) (root : Nat) :
    Nat → Nat → Data → List (Data × Node) → Data → List (Data × Node) → Prop where
  | root {h : Nat} {new : Data} {ns : List (Data × Node)} (fits : ∀ n ∈ ns, n.2.Fits) :
      Climb B file k root h root new ns new ns
  | level {h off : Nat} {lo new new' : Data} {c : Kid} {l r : List Kid}
      {ns ns' : List (Data × Node)} (branch : BranchAt B file h off lo (l ++ c :: r))
      (routes : Routes (rank B) k c r) (fits : ∀ n ∈ ns, n.2.Fits)
      (rest : Climb B file k root (h + 1) off (new ++ encNodes B ns)
        ((halve B (kidPairs l ++ placed B new.length ns ++ kidPairs r)).map branchEntry) new' ns') :
      Climb B file k root h c.ref new ns new' ns'

/-- What a loop over the path leaves behind, when it starts with the pending nodes `ns` for
a node of height `h` with the records `rs`: nodes that stand for the records of the root. -/
structure Climbed (B : Build) (file : Data) (appendPos : Nat) (new : List Rec → List Rec)
    (h : Nat) (lo : Data) (rs top : List Rec) (data : Rope) (dataSz : Nat)
    (ns : List (Data × Node)) (data' : Rope) (dataSz' : Nat) (ns' : List (Data × Node)) :
    Prop where
  ne : ns ≠ [] → ns' ≠ []
  size : (aodbmRopeToData data).length + (encNodes B ns).length ≤
    (aodbmRopeToData data').length + (encNodes B ns').length
  fit : ∀ {pre : Data}, pre.length = appendPos → file <+: pre → appendPos ≤ 2 ^ 63 + 5 →
    (aodbmRopeToData data').length + (encNodes B ns').length < 2 ^ 32 →
    dataSz = (aodbmRopeToData data).length →
    Fit B (pre ++ aodbmRopeToData data) h lo (new rs) ns →
    dataSz' = (aodbmRopeToData data').length ∧
      ∃ h' lo', Fit B (pre ++ aodbmRopeToData data') h' lo' (new top) ns'

/-- Besides, what a loop over the path did on its way to `root`. -/
structure Climbs (B : Build) (file : Data) (k : Data) (root appendPos : Nat)
    (new : List Rec → List Rec) (h off : Nat) (lo : Data) (rs top : List Rec) (data : Rope)
    (dataSz : Nat) (ns : List (Data × Node)) (data' : Rope) (dataSz' : Nat)
    (ns' : List (Data × Node)) : Prop
    extends Climbed B file appendPos new h lo rs top data dataSz ns data' dataSz' ns' where
  climb : ∀ {pre : Data}, pre.length = appendPos → file <+: pre → appendPos ≤ 2 ^ 63 + 5 →
    (aodbmRopeToData data').length + (encNodes B ns').length < 2 ^ 32 →
    dataSz = (aodbmRopeToData data).length →
    Fit B (pre ++ aodbmRopeToData data) h lo (new rs) ns →
    Climb B file k root h off (pre ++ aodbmRopeToData data) ns (pre ++ aodbmRopeToData data') ns'

theorem Climbs.refl {file : Data} {new : List Rec → List Rec} {data : Rope} {dataSz : Nat} :
    Climbs B file k off appendPos new h off lo rs rs data dataSz ns data dataSz ns where
  ne := id
  size := le_refl _
  fit _ _ _ _ hsz hfit := ⟨hsz, h, lo, hfit⟩
  climb := by
    intro pre hpre _ hle hlen _ hfit
    refine .root (hfit.fits ?_ (by omega))
    rw [List.length_append]
    omega

section Level
variable {f : List Rec → List Rec} {c : Kid} {l r : List Kid} {file : Data}
  {ns₂ ns₃ : List (Data × Node)} {data data₂ data₃ : Rope} {sz sz₂ sz₃ : Nat} {es : List Entry}

/-- One level: the nodes that are pending behind it fit behind the data that was placed. -/
theorem fit_level {pre : Data}
    (hlevel : ∀ {new : Data}, file <+: new → (new ++ encNodes B ns).length ≤ 2 ^ 64 →
      (encNodes B ns).length < 2 ^ 32 → es = placed B new.length ns →
      Fit B new h c.key (f c.recs) ns →
      Fit B (new ++ encNodes B ns) (h + 1) lo (f (below (l ++ c :: r))) ns₂ ∧
        ns₂ = (halve B (kidPairs l ++ placed B new.length ns ++ kidPairs r)).map branchEntry)
    (hdata : aodbmRopeToData data₂ = aodbmRopeToData data ++ encNodes B ns)
    (hsz : sz = (aodbmRopeToData data).length → (aodbmRopeToData data₂).length < 2 ^ 32 →
      es = placed B (sz + appendPos) ns ∧ sz₂ = (aodbmRopeToData data₂).length)
    (hpre : pre.length = appendPos) (hfile : file <+: pre) (hle : appendPos ≤ 2 ^ 63 + 5)
    (hlen : (aodbmRopeToData data₂).length < 2 ^ 32) (hsz' : sz = (aodbmRopeToData data).length)
    (hfit : Fit B (pre ++ aodbmRopeToData data) h c.key (f c.recs) ns) :
    sz₂ = (aodbmRopeToData data₂).length ∧
      Fit B (pre ++ aodbmRopeToData data₂) (h + 1) lo (f (below (l ++ c :: r))) ns₂ ∧
      ns₂ = (halve B (kidPairs l ++ placed B (pre ++ aodbmRopeToData data).length ns ++
        kidPairs r)).map branchEntry := by
  obtain ⟨hplaced, hsz₂⟩ := hsz hsz' hlen
  rw [hdata, List.length_append] at hlen
  have hnew : (pre ++ aodbmRopeToData data).length = sz + appendPos := by
    rw [List.length_append, hpre, hsz', Nat.add_comm]
  obtain ⟨hfit₂, hns₂⟩ := hlevel (hfile.trans (List.prefix_append pre (aodbmRopeToData data)))
    (by rw [List.length_append, hnew]; omega) (by omega) (by rw [hnew]; exact hplaced) hfit
  rw [List.append_assoc, ← hdata] at hfit₂
  exact ⟨hsz₂, hfit₂, hns₂⟩

/-- One level and the rest of the way. -/
theorem Climbs.level {root : Nat} (hb : BranchAt B file h off lo (l ++ c :: r))
    (hroute : Routes (rank B) k c r) (hne : ns ≠ [] → ns₂ ≠ [])
    (hlevel : ∀ {new : Data}, file <+: new → (new ++ encNodes B ns).length ≤ 2 ^ 64 →
      (encNodes B ns).length < 2 ^ 32 → es = placed B new.length ns →
      Fit B new h c.key (f c.recs) ns →
      Fit B (new ++ encNodes B ns) (h + 1) lo (f (below (l ++ c :: r))) ns₂ ∧
        ns₂ = (halve B (kidPairs l ++ placed B new.length ns ++ kidPairs r)).map branchEntry)
    (hdata : aodbmRopeToData data₂ = aodbmRopeToData data ++ encNodes B ns)
    (hsz : sz = (aodbmRopeToData data).length → (aodbmRopeToData data₂).length < 2 ^ 32 →
      es = placed B (sz + appendPos) ns ∧ sz₂ = (aodbmRopeToData data₂).length)
    (rest : Climbs B file k root appendPos f (h + 1) off lo (below (l ++ c :: r)) top data₂ sz₂
      ns₂ data₃ sz₃ ns₃) :
    Climbs B file k root appendPos f h c.ref c.key c.recs top data sz ns data₃ sz₃ ns₃ where
  ne h := rest.ne (hne h)
  size := by
    have := rest.size
    rw [hdata, List.length_append] at this
    omega
  fit := by
    intro pre hpre hfile hle hlen hsz' hfit
    have hsize := rest.size
    obtain ⟨hsz₂, hfit₂, _⟩ :=
      fit_level hlevel hdata hsz hpre hfile hle (by omega) hsz' hfit
    exact rest.fit hpre hfile hle hlen hsz₂ hfit₂
  climb := by
    intro pre hpre hfile hle hlen hsz' hfit
    have hsize := rest.size
    obtain ⟨hsz₂, hfit₂, hns₂⟩ :=
      fit_level hlevel hdata hsz hpre hfile hle (by omega) hsz' hfit
    have hrest := rest.climb hpre hfile hle hlen hsz₂ hfit₂
    rw [hdata, List.length_append] at hsize
    rw [hdata, hns₂, ← List.append_assoc] at hrest
    refine .level hb hroute (hfit.fits ?_ (by omega)) hrest
    rw [List.length_append]
    omega

/-- A round of either loop: the pending nodes are placed behind `data`, which makes it `data₂`,
`modify_branch` makes the nodes of the next level, and the loop goes on with `next`. -/
theorem eval_round {root : Nat} {next : ModifyResult → Op (Rope × Nat × ModifyResult)}
    (hf : LocalAt (rank B) k f) (hb : BranchAt B db.file h off lo (l ++ c :: r))
    (hroute : Routes (rank B) k c r) (hp : Pend B nodes ns) (a b : Nat)
    (hdata : aodbmRopeToData data₂ = aodbmRopeToData data ++ encNodes B ns)
    (hsz : sz = (aodbmRopeToData data).length → (aodbmRopeToData data₂).length < 2 ^ 32 →
      (nodes.aKey.map fun k => (k, a)).toList ++ (nodes.bKey.map fun k => (k, b)).toList =
          placed B (sz + appendPos) ns ∧ sz₂ = (aodbmRopeToData data₂).length)
    (hnext : ∀ nodes₂ ns₂, Pend B nodes₂ ns₂ → (ns ≠ [] → ns₂ ≠ []) →
      ∃ data' sz' nodes' ns', eval (next nodes₂) db = .ok ((data', sz', nodes'), db) ∧
        Pend B nodes' ns' ∧ Climbs B db.file k root appendPos f (h + 1) off lo
          (below (l ++ c :: r)) top data₂ sz₂ ns₂ data' sz' ns') :
    ∃ data' sz' nodes' ns',
      eval (modifyBranch B off lo a nodes.aKey b nodes.bKey c.ref 0 >>= next) db =
        .ok ((data', sz', nodes'), db) ∧ Pend B nodes' ns' ∧
      Climbs B db.file k root appendPos f h c.ref c.key c.recs top data sz ns data' sz' ns' := by
  obtain ⟨nodes₂, ns₂, heval, hp₂, hne₂, hlevel⟩ := level_spec hf hb hroute hp a b
  obtain ⟨data', sz', nodes', ns', hrest, hp', hclimb⟩ := hnext nodes₂ ns₂ hp₂ hne₂
  exact ⟨data', sz', nodes', ns', (run_bind_ok heval).trans hrest, hp',
    .level hb hroute hne₂ hlevel hdata hsz hclimb⟩

end Level

/-- The loop of `aodbm_set`. It needs a node to place at every level. -/
theorem eval_setLoop (appendPos : Nat) {f : List Rec → List Rec} (hf : LocalAt (rank B) k f)
    (habove : Above B db.file k h off lo rs path top) (hp : Pend B nodes ns) (hne : ns ≠ [])
    (data : Rope) (dataSz : Nat) :
    ∃ data' dataSz' nodes' ns', eval (setLoop B appendPos path data dataSz nodes off) db =
        .ok ((data', dataSz', nodes'), db) ∧ Pend B nodes' ns' ∧
      Climbs B db.file k (rootOf off path) appendPos f h off lo rs top data dataSz ns data' dataSz'
        ns' := by
  induction habove generalizing nodes ns data dataSz with
  | root => exact ⟨data, dataSz, nodes, ns, rfl, hp, .refl⟩
  | @child h off lo c l r path top hb hroute _ ih =>
    rw [setLoop]
    cases hp with
    | none => exact absurd rfl hne
    | @one a ka na ha =>
      simp only [deref, pure_bind]
      refine eval_round hf hb hroute (.one ka ha) (dataSz + appendPos) 0 (by simp [ha])
        (fun hsz hlen => ⟨rfl, ?_⟩) fun nodes₂ ns₂ hp₂ hne₂ => ih hp₂ (hne₂ hne) _ _
      -- the `uint32_t` counter has not wrapped, because the data is short
      rw [toData_merge, List.length_append] at hlen ⊢
      rw [ropeSize_eq, hsz, Nat.mod_eq_of_lt hlen]
    | @two a b ka kb na nb ha hb' =>
      simp only [deref, pure_bind]
      refine eval_round hf hb hroute (.two ka kb ha hb') (dataSz + appendPos) _
        (by simp [ha, hb']) (fun hsz hlen => ?_) fun nodes₂ ns₂ hp₂ hne₂ => ih hp₂ (hne₂ hne) _ _
      simp only [toData_merge, List.length_append] at hlen ⊢
      rw [ropeSize_eq, ropeSize_eq, hsz, Nat.mod_eq_of_lt (a := _ + _) (by omega),
        Nat.mod_eq_of_lt hlen]
      exact ⟨by simp [placed, ha, Nat.add_right_comm], rfl⟩

/-- The loop of `aodbm_del`, which may also come without a node to place. -/
theorem eval_delLoop (appendPos : Nat) {f : List Rec → List Rec} (hf : LocalAt (rank B) k f)
    (habove : Above B db.file k h off lo rs path top) (hp : Pend B nodes ns)
    (data : Rope) (dataSz : Nat) :
    ∃ data' dataSz' nodes' ns', eval (delLoop B appendPos path data dataSz nodes off) db =
        .ok ((data', dataSz', nodes'), db) ∧ Pend B nodes' ns' ∧
      Climbs B db.file k (rootOf off path) appendPos f h off lo rs top data dataSz ns data' dataSz'
        ns' := by
  induction habove generalizing nodes ns data dataSz with
  | root => exact ⟨data, dataSz, nodes, ns, rfl, hp, .refl⟩
  | @child h off lo c l r path top hb hroute _ ih =>
    rw [delLoop]
    cases hp with
    | @none a =>
      simp only [pure_bind]
      exact eval_round hf hb hroute (.none (a := a)) 0 0 (by simp) (fun hsz _ => ⟨rfl, hsz⟩)
        fun nodes₂ ns₂ hp₂ _ => ih hp₂ data dataSz
    | @one a ka na ha =>
      simp only [deref, pure_bind]
      refine eval_round hf hb hroute (.one ka ha) (dataSz + appendPos) 0 (by simp [ha])
        (fun hsz _ => ⟨rfl, ?_⟩) fun nodes₂ ns₂ hp₂ _ => ih hp₂ _ _
      rw [toData_merge, List.length_append, ropeSize_eq, hsz]
    | @two a b ka kb na nb ha hb' =>
      simp only [deref, pure_bind]
      refine eval_round hf hb hroute (.two ka kb ha hb') (dataSz + appendPos) _
        (by simp [ha, hb']) (fun hsz _ => ?_) fun nodes₂ ns₂ hp₂ _ => ih hp₂ _ _
      rw [toData_merge, toData_merge, List.length_append, List.length_append, ropeSize_eq,
        ropeSize_eq, hsz]
      exact ⟨by simp [placed, ha, Nat.add_right_comm], rfl⟩

/-! ## The results of `aodbm_set` and `aodbm_del` -/

/-- The records of a version: version 0 has none. -/
def ContentsAt (B : Build) (file : Data) (ver : Nat) (rs : List Rec) : Prop :=
  (ver = 0 ∧ rs = []) ∨ (ver ≠ 0 ∧ TreeAt B file (ver + 8) rs)

theorem ContentsAt.sorted {file : Data} {ver : Nat} (hc : ContentsAt B file ver rs) :
    Sorted (rank B) rs := by
  rcases hc with ⟨_, rfl⟩ | ⟨_, ht⟩
  · exact List.Pairwise.nil
  · exact ht.sorted

/-- Where the pieces of an update meet: the data block that was built, written behind what
ends at `appendPos`, makes a version there. -/
structure Builds (B : Build) (file : Data) (appendPos ver : Nat) (new : List Rec)
    (result : RootResult) : Prop where
  above : appendPos ≤ result.root
  first : ver = 0 → result.root = appendPos
  version : ∀ {pre : Data}, pre.length = appendPos → file <+: pre → 0 < appendPos →
    appendPos ≤ 2 ^ 63 + 5 → result.dat.length < 2 ^ 32 →
    VersionAt B (pre ++ result.dat) result.root ver new

/-- What `construct_root` places under the root it makes. -/
def underRoot : List (Data × Node) → List (Data × Node)
  | a :: b :: ns => a :: b :: ns
  | _ => []

/-- The root that is made from the last nodes, which were to be written from `p` on. -/
def topNode (B : Build) (p : Nat) : List (Data × Node) → Node
  | [] => .leaf []
  | [n] => n.2
  | ns => entryNode (placed B p ns)

/-- The bytes that an update writes: the leaves `parts` replace the leaf of the key, which is
at `leaf`, and then a node a level is replaced up to the root of the version `ver`. -/
structure Rewrites (B : Build) (file : Data) (appendPos ver : Nat) (k : Data) (leaf : Nat)
    (parts : List (List Rec)) (result : RootResult) : Prop where
  climb : ∀ {pre : Data}, pre.length = appendPos → file <+: pre → appendPos ≤ 2 ^ 63 + 5 →
    result.dat.length < 2 ^ 32 →
    ∃ new ns, Climb B file k (ver + 8) 0 leaf pre (parts.map leafEntry) new ns ∧
      pre ++ result.dat = new ++ (encNodes B (underRoot ns) ++
        (aodbmDataFrom64 B ver ++ (topNode B new.length ns).enc B)) ∧
      result.root = new.length + (encNodes B (underRoot ns)).length

theorem constructRoot_eq (hp : Pend B nodes ns) (prev appendPos : Nat) (data : Rope)
    (dataSz : Nat) :
    constructRoot B prev appendPos data dataSz nodes =
      pure ⟨aodbmRopeToData data ++ (encNodes B (underRoot ns) ++
        (aodbmDataFrom64 B prev ++ (topNode B (dataSz + appendPos) ns).enc B)),
        dataSz + appendPos + (encNodes B (underRoot ns)).length⟩ := by
  cases hp with
  | none => simp [constructRoot, underRoot, topNode, Node.enc, Nat.add_comm]
  | one ka ha => simp [constructRoot, deref, ha, underRoot, topNode]
  | @two a b ka kb na nb ha hb =>
    simp only [underRoot, topNode, placed, entryNode, encNodes_cons, encNodes_nil, List.append_nil]
    generalize na.enc B = encA at ha ⊢
    generalize nb.enc B = encB at hb ⊢
    simp [constructRoot, deref, ha, hb, ropeSize_eq, aodbmBranch, Node.enc, encKid,
      Nat.add_assoc, Nat.add_comm]

/-- What is made of the nodes that the way up ends with. -/
theorem eval_climbedRoot {f : List Rec → List Rec} {parts : List (List Rec)} {ver leaf : Nat}
    {data' : Rope} {sz' : Nat} {ns' : List (Data × Node)} {ls : List Rec} (hver : ver ≠ 0)
    (hp : Pend B nodes ns')
    (hclimb : Climbs B db.file k (ver + 8) appendPos f 0 leaf lo ls top aodbmRopeEmpty 0
      (parts.map leafEntry) data' sz' ns')
    (hfit : ∀ {file : Data}, (encNodes B (parts.map leafEntry)).length < 2 ^ 32 →
      Fit B file 0 lo (f ls) (parts.map leafEntry)) :
    ∃ result, eval (constructRoot B ver appendPos data' sz' nodes) db = .ok (result, db) ∧
      Builds B db.file appendPos ver (f top) result ∧
      Rewrites B db.file appendPos ver k leaf parts result := by
  obtain ⟨dat, root, heval, habove, hsize, hbuilt⟩ := constructRoot_spec hp ver appendPos data' sz'
  have hclimbed := hclimb.size
  simp only [toData_empty, List.length_nil, Nat.zero_add] at hclimbed
  refine ⟨⟨dat, root⟩, by rw [heval, eval, run_pure], ⟨habove, fun h => absurd h hver, ?_⟩, ⟨?_⟩⟩
  · intro pre hpre hfile hpos hle hlen
    simp only at hlen
    obtain ⟨hsz, h', lo', hfit'⟩ := hclimb.fit hpre hfile hle (by omega) rfl (hfit (by omega))
    exact hbuilt hpre hpos hle hlen hsz hfit'
  · intro pre hpre hfile hle hlen
    simp only at hlen
    obtain ⟨hsz, _⟩ := hclimb.fit hpre hfile hle (by omega) rfl (hfit (by omega))
    have hway := hclimb.climb hpre hfile hle (by omega) rfl (hfit (by omega))
    have hnew : (pre ++ aodbmRopeToData data').length = sz' + appendPos := by
      rw [List.length_append, hpre, hsz, Nat.add_comm]
    rw [constructRoot_eq hp] at heval
    obtain ⟨rfl, rfl⟩ := RootResult.mk.inj (Prog.pure.inj heval)
    rw [toData_empty, List.append_nil] at hway
    exact ⟨_, ns', hway, by rw [hnew, List.append_assoc], by rw [hnew]⟩

/-- Where an update of the version `ver` begins: the leaf of the key `k`, which holds `ls`, and
the branches from there up to the root. -/
structure LeafWay (B : Build) (db : Db) (k : Data) (ver : Nat) (rs : List Rec) (lo : Data)
    (leaf : Nat) (ls : List Rec) (path : List PathNode) : Prop where
  node : NodeAt B db.file leaf (.leaf ls)
  count : ls.length ≤ B.maxNodeSize
  sorted : Sorted (rank B) ls
  lower : ∀ r ∈ ls, rank B lo ≤ rank B r.1
  key : rank B lo ≤ rank B k
  root : rootOf leaf path = ver + 8
  above : Above B db.file k 0 leaf lo ls path rs
  search : path = [] ∧ leaf = ver + 8 ∨
    eval (readType (ver + 8)) db = .ok (branchType, db) ∧
      eval (aodbmSearchPath B ver k) db = .ok (⟨lo, leaf⟩ :: path, db)

theorem TreeAt.leafWay {ver : Nat} (hver : ver ≠ 0) (ht : TreeAt B db.file (ver + 8) rs)
    (hf : db.file.length < 2 ^ 63) (k : Data) :
    ∃ lo leaf ls path, LeafWay B db k ver rs lo leaf ls path := by
  have hlo : ∀ r ∈ rs, rank B [] ≤ rank B r.1 := fun r _ => rank_nil_le B r.1
  have hs := ht.sorted
  rcases ht.leaf_or_branch with ⟨hleaf, hcount⟩ | ⟨h, hsub⟩
  · exact ⟨[], ver + 8, rs, [], hleaf, hcount, hs, hlo, rank_nil_le B k, rfl, .root,
      Or.inl ⟨rfl, rfl⟩⟩
  · obtain ⟨cs, hb, _⟩ := hsub.branchAt hlo
    obtain ⟨_, _, _, _, _, _, _, htype, _⟩ := hb.eval_child (rank_nil_le B k)
    obtain ⟨lo, leaf, ls, path, hsearch, hleaf, hlo', hk, hroot, habove⟩ :=
      eval_searchPath (k := k) hver hsub hf
    have hnode := hleaf.leafAt
    have hsl := hleaf.sorted
    obtain ⟨_, _, hok⟩ := hleaf
    exact ⟨lo, leaf, ls, path, hnode, hok.2.2.1, hsl, hlo', hk, hroot, habove,
      Or.inr ⟨htype, hsearch⟩⟩

section Start
variable {ver leaf sz : Nat} {ls : List Rec} {nodes' : ModifyResult} {data : Rope}

/-- `aodbm_set` changes the leaf, goes up, and makes a root. A root that is a leaf has no way
up, and the loop does nothing. -/
theorem LeafWay.eval_setResult {x : Data} (hw : LeafWay B db k ver rs lo leaf ls path)
    (hver : ver ≠ 0) (hleaf : eval (insertIntoLeaf B k x (leaf + 1)) db = .ok (nodes, db))
    (hloop : eval (setLoop B appendPos path aodbmRopeEmpty 0 nodes leaf) db =
      .ok ((data, sz, nodes'), db)) :
    eval (setResult B ver k x appendPos) db =
      eval (constructRoot B ver appendPos data sz nodes') db := by
  have hnode := hw.node
  rw [setResult, if_neg hver, eval]
  rcases hw.search with ⟨rfl, rfl⟩ | ⟨htype, hsearch⟩
  · cases hloop
    rw [run_bind_ok (eval_leafType hnode), if_pos rfl, run_bind_ok hleaf]
  · rw [run_bind_ok htype, if_neg (by decide), run_bind_ok hsearch]
    simp only
    rw [run_bind_ok hleaf, run_bind_ok hloop]

/-- `aodbm_del` goes the same way. -/
theorem LeafWay.eval_delResult (hw : LeafWay B db k ver rs lo leaf ls path)
    (hleaf : eval (removeFromLeaf B k (leaf + 1)) db = .ok (nodes, db))
    (hloop : eval (delLoop B appendPos path aodbmRopeEmpty 0 nodes leaf) db =
      .ok ((data, sz, nodes'), db)) :
    eval (delResult B ver k appendPos) db =
      eval (constructRoot B ver appendPos data sz nodes') db := by
  have hnode := hw.node
  rw [delResult, eval]
  rcases hw.search with ⟨rfl, rfl⟩ | ⟨htype, hsearch⟩
  · cases hloop
    rw [run_bind_ok (eval_leafType hnode), if_pos rfl, run_bind_ok hleaf]
  · rw [run_bind_ok htype, if_neg (by decide), if_pos rfl, run_bind_ok hsearch]
    simp only
    rw [run_bind_ok hleaf, run_bind_ok hloop]

end Start

/-- Version 0 has no tree to follow. -/
theorem setResult_zero (k x : Data) (appendPos : Nat) : setResult B 0 k x appendPos =
    pure ⟨aodbmDataFrom64 B 0 ++ Node.enc B (.leaf [(k, x)]), appendPos⟩ := by
  rw [setResult, if_pos rfl]
  simp [aodbmLeafNode, Node.enc]

/-- What `aodbm_set` builds from the leaf of the key, and the leaves that it makes of it. -/
theorem LeafWay.setResult {ver leaf : Nat} {ls : List Rec}
    (hway : LeafWay B db k ver rs lo leaf ls path) (hver : ver ≠ 0) (x : Data) (appendPos : Nat) :
    ∃ result parts, eval (setResult B ver k x appendPos) db = .ok (result, db) ∧
      Builds B db.file appendPos ver (upsert (rank B) k x rs) result ∧
      parts.flatten = upsert (rank B) k x ls ∧ Grown B ls.length (parts.map List.length) ∧
      Rewrites B db.file appendPos ver k leaf parts result := by
  obtain ⟨nodes, parts, hins, hl, hgrown⟩ := insertIntoLeaf_spec hway.node hway.count k x
  obtain ⟨data, sz, nodes', ns', hloop, hp', hclimb⟩ := eval_setLoop appendPos
    (localAt_upsert k x) hway.above hl.pend (hl.ne_nil (upsert_ne_nil k x ls)) aodbmRopeEmpty 0
  rw [hway.root] at hclimb
  obtain ⟨result, hroot, hbuilds, hrewrites⟩ := eval_climbedRoot hver hp' hclimb
    fun hlen => hl.fit_upsert hway.sorted hway.lower hway.key hlen
  exact ⟨result, parts, (hway.eval_setResult hver hins hloop).trans hroot, hbuilds, hl.recs,
    hgrown, hrewrites⟩

/-- What `aodbm_del` builds. -/
theorem LeafWay.delResult {ver leaf : Nat} {ls : List Rec}
    (hway : LeafWay B db k ver rs lo leaf ls path) (hver : ver ≠ 0) (appendPos : Nat) :
    ∃ result parts, eval (delResult B ver k appendPos) db = .ok (result, db) ∧
      Builds B db.file appendPos ver (erase k rs) result ∧
      parts.flatten = erase k ls ∧ parts.length ≤ 1 ∧
      Rewrites B db.file appendPos ver k leaf parts result := by
  obtain ⟨nodes, parts, hrem, hl, hone⟩ :=
    removeFromLeaf_spec hway.node hway.count hway.sorted k
  obtain ⟨data, sz, nodes', ns', hloop, hp', hclimb⟩ := eval_delLoop appendPos
    (localAt_erase k) hway.above hl.pend aodbmRopeEmpty 0
  rw [hway.root] at hclimb
  obtain ⟨result, hroot, hbuilds, hrewrites⟩ := eval_climbedRoot hver hp' hclimb
    fun _ => hl.fit_erase hway.sorted hway.lower
  exact ⟨result, parts, (hway.eval_delResult hrem hloop).trans hroot, hbuilds, hl.recs, hone,
    hrewrites⟩

/-- `aodbm_set` builds a version with the new record, and never fails before it writes. -/
theorem setResult_spec {ver : Nat} (hc : ContentsAt B db.file ver rs)
    (hf : db.file.length < 2 ^ 63) (k x : Data) (appendPos : Nat) :
    ∃ result, eval (setResult B ver k x appendPos) db = .ok (result, db) ∧
      Builds B db.file appendPos ver (upsert (rank B) k x rs) result ∧
      (ver ≠ 0 → ∃ leaf ls parts, NodeAt B db.file leaf (.leaf ls) ∧
        Grown B ls.length (parts.map List.length) ∧
        Rewrites B db.file appendPos ver k leaf parts result) := by
  rcases hc with ⟨rfl, rfl⟩ | ⟨hver, ht⟩
  · refine ⟨_, by rw [setResult_zero]; rfl, ⟨le_refl _, fun _ => rfl, ?_⟩,
      fun h => absurd rfl h⟩
    rintro pre rfl _ _ hle hlen
    simp only [List.length_append, from64_length] at hlen
    have hok : NodeOk B pre 0 pre.length (.leaf [(k, x)]) [(k, x)] :=
      ⟨rfl, by simp, by have := B.four_le; simp; omega, List.pairwise_singleton _ _⟩
    exact hok.version (by omega) (by omega) 0
  · obtain ⟨lo, leaf, ls, path, hway⟩ := ht.leafWay hver hf k
    obtain ⟨result, parts, heval, hbuilds, -, hgrown, hrewrites⟩ := hway.setResult hver x appendPos
    exact ⟨result, heval, hbuilds, fun _ => ⟨leaf, ls, parts, hway.node, hgrown, hrewrites⟩⟩

/-- `aodbm_del` builds a version without the key, and never fails before it writes. -/
theorem delResult_spec {ver : Nat} (hver : ver ≠ 0) (ht : TreeAt B db.file (ver + 8) rs)
    (hf : db.file.length < 2 ^ 63) (k : Data) (appendPos : Nat) :
    ∃ result, eval (delResult B ver k appendPos) db = .ok (result, db) ∧
      Builds B db.file appendPos ver (erase k rs) result ∧
      ∃ leaf ls parts, NodeAt B db.file leaf (.leaf ls) ∧ parts.length ≤ 1 ∧
        Rewrites B db.file appendPos ver k leaf parts result := by
  obtain ⟨lo, leaf, ls, path, hway⟩ := ht.leafWay hver hf k
  obtain ⟨result, parts, heval, hbuilds, -, hone, hrewrites⟩ := hway.delResult hver appendPos
  exact ⟨result, heval, hbuilds, leaf, ls, parts, hway.node, hone, hrewrites⟩

end Aodbm
