import Aodbm.Run

/-!
# The length of a block

`aodbm_set` counts the bytes of the new path in a `uint32_t`, and the header of a data block has
four bytes for the length. The number of bytes that an update writes is known before it starts,
from the tree and the record.

Results:
1. `setResult_size`: the payload of an update is `setSize` bytes long.
2. `block_length`: what the header of the block declares, and the offsets in the block, are right
   exactly when `setSize` is below `2 ^ 32`.
3. `length_wrapped`: one long value, behind which the file cannot be opened.
-/

namespace Aodbm

open Effects Records Bytes History

variable (B : Build)

/-! ## The size of an update -/

/-- The bytes of a leaf. -/
def leafSize (rs : List Rec) : Nat := 5 + (rs.map fun r => r.1.length + 4 + (r.2.length + 4)).sum

/-- The bytes of a branch whose children have the keys `ks`; the first key is not written. -/
def branchSize (ks : List Data) : Nat := 13 + (ks.tail.map fun k => k.length + 4 + 8).sum

/-- The keys left and right of the child that a descent takes, for each branch on the way, from
the lowest one up. -/
abbrev Levels := List (List Data × List Data)

/-- The bytes of an update. The nodes `ns`, each with its first key and its size, replace the
lowest node of the way, then the keys of the branch above change, and one or two branches replace
it. The last node, or a branch over the last two, is the root, behind its header. -/
def updateSize : Levels → List (Data × Nat) → Nat
  | [], [n] => 8 + n.2
  | [], ns => (ns.map Prod.snd).sum + (8 + branchSize (ns.map Prod.fst))
  | (l, r) :: levels, ns =>
    (ns.map Prod.snd).sum + updateSize levels
      ((halve B (l ++ ns.map Prod.fst ++ r)).map fun ks => (ks.headD [], branchSize ks))

/-- The bytes that `aodbm_set` writes behind the header of the block, when the leaf of the key
has the records `ls`. -/
def setSize (k x : Data) (ls : List Rec) (levels : Levels) : Nat :=
  updateSize B levels ((leafParts B k x ls).map fun p =>
    ((p.head?.map Prod.fst).getD [], leafSize p))

/-- The way from the root to the node at the given offset, which its parent knows under `lo`. -/
inductive Route (file : Data) (k : Data) (root : Nat) : Nat → Data → Levels → Prop where
  | root {lo : Data} : Route file k root root lo []
  | level {off : Nat} {lo : Data} {c : Kid} {l r : List Kid} {levels : Levels}
      (branch : NodeAt B file off (branchOf (l ++ c :: r)))
      (first : ∀ d ∈ (l ++ c :: r).head?, d.key = lo) (routes : Routes (rank B) k c r)
      (above : Route file k root off lo levels) :
      Route file k root c.ref c.key ((l.map Child.key, r.map Child.key) :: levels)

/-- The records of the leaf of `k` in the version, and the keys on the way to it. -/
inductive WayTo (file : Data) (k : Data) : Nat → List Rec → Levels → Prop where
  | zero : WayTo file k 0 [] []
  | leaf {ver leaf : Nat} {lo : Data} {ls : List Rec} {levels : Levels} (version : ver ≠ 0)
      (node : NodeAt B file leaf (.leaf ls)) (route : Route B file k (ver + 8) leaf lo levels) :
      WayTo file k ver ls levels

variable {B}

/-- Nodes with their sizes. -/
def sized (B : Build) (ns : List (Data × Node)) : List (Data × Nat) :=
  ns.map fun n => (n.1, (n.2.enc B).length)

theorem leafSize_eq (rs : List Rec) : (Node.enc B (.leaf rs)).length = leafSize rs := by
  have hrecs : (encRecs B rs).length =
      (rs.map fun r => r.1.length + 4 + (r.2.length + 4)).sum := by
    induction rs with
    | nil => rfl
    | cons r rs ih => simp [ih]
  simp [Node.enc, leafSize, hrecs]
  omega

theorem branchSize_eq {es : List Entry} :
    ((entryNode es).enc B).length = branchSize (es.map Prod.fst) := by
  have hkids : ∀ es : List Entry, (encKids B es).length =
      ((es.map Prod.fst).map fun k => k.length + 4 + 8).sum := by
    intro es
    induction es with
    | nil => rfl
    | cons e es ih => simp only [encKids_cons, List.length_append, encKid_length, ih,
        List.map_cons, List.sum_cons]
  cases es with
  | nil => simp [entryNode, branchSize, Node.enc]
  | cons e es =>
    simp only [entryNode, branchSize, Node.enc, List.length_append, hkids, from32_length,
      from64_length, List.length_singleton, List.map_cons, List.tail_cons]
    omega

theorem sized_sum (ns : List (Data × Node)) :
    ((sized B ns).map Prod.snd).sum = (encNodes B ns).length := by
  induction ns with
  | nil => rfl
  | cons n ns ih =>
    simp only [sized, List.map_cons, List.sum_cons, encNodes_cons, List.length_append] at ih ⊢
    rw [ih]

theorem sized_keys (ns : List (Data × Node)) : (sized B ns).map Prod.fst = ns.map Prod.fst := by
  simp [sized]

theorem sized_branches (es : List Entry) :
    sized B ((halve B es).map branchEntry) =
      (halve B (es.map Prod.fst)).map fun ks => (ks.headD [], branchSize ks) := by
  rw [halve_map, List.map_map, sized, List.map_map]
  refine List.map_congr_left fun p _ => ?_
  simp only [Function.comp, branchEntry, branchSize_eq]
  cases p <;> rfl

/-- The payload that `construct_root` makes. -/
theorem root_size {nodes : ModifyResult} {ns : List (Data × Node)} (hp : Pend B nodes ns)
    (hne : ns ≠ []) (prev appendPos : Nat) (data : Rope) (dataSz : Nat) :
    ∃ result, constructRoot B prev appendPos data dataSz nodes = pure result ∧
      result.dat.length = (aodbmRopeToData data).length + updateSize B [] (sized B ns) := by
  refine ⟨_, constructRoot_eq hp prev appendPos data dataSz, ?_⟩
  rw [List.length_append]
  congr 1
  cases hp with
  | none => exact absurd rfl hne
  | one ka _ => simp [underRoot, topNode, sized, updateSize]
  | @two a b ka kb na nb _ _ =>
    simp only [underRoot, topNode, List.length_append, from64_length, branchSize_eq]
    rw [updateSize, sized_sum, sized_keys]
    · rfl
    · simp [sized]

/-! ## The keys of the new nodes -/

/-- The first keys of the nodes are not below `lo`, nor above all records that the nodes hold. -/
def Keyed (B : Build) (lo : Data) (rs : List Rec) (ns : List (Data × Node)) : Prop :=
  ∀ n ∈ ns, rank B lo ≤ rank B n.1 ∧ ∃ r ∈ rs, rank B n.1 ≤ rank B r.1

variable {db : Db} {file : Data} {h off appendPos : Nat} {k lo x : Data} {rs top : List Rec}
  {path : List PathNode} {nodes : ModifyResult} {ns : List (Data × Node)}
  {f : List Rec → List Rec} {c : Kid} {l r : List Kid}

theorem keyed_leaves {parts : List (List Rec)} {new : List Rec} (hparts : parts.flatten = new)
    (hne : ∀ p ∈ parts, p ≠ []) (hlo : ∀ r ∈ new, rank B lo ≤ rank B r.1) :
    Keyed B lo new (parts.map leafEntry) := by
  intro n hn
  obtain ⟨p, hp, rfl⟩ := List.mem_map.mp hn
  obtain ⟨r, t, rfl⟩ := List.exists_cons_of_ne_nil (hne p hp)
  have hr : r ∈ new := hparts ▸ List.mem_flatten.mpr ⟨_, hp, List.mem_cons_self⟩
  exact ⟨hlo r hr, r, hr, le_refl _⟩

/-- The nodes belong between the neighbours of the node that they replace. -/
theorem Keyed.between (hkeyed : Keyed B c.key (f c.recs) ns) (hf : LocalAt (rank B) k f)
    (hb : BranchAt B file h off lo (l ++ c :: r)) (hroute : Routes (rank B) k c r)
    {es : List Entry} (hes : es.map Prod.fst = ns.map Prod.fst) : ∀ e ∈ es, Between B c r e := by
  intro e he
  obtain ⟨n, hn, hkey⟩ : ∃ n ∈ ns, n.1 = e.1 :=
    List.mem_map.mp (hes ▸ List.mem_map_of_mem (f := Prod.fst) he)
  obtain ⟨hlo, s, hs, hle⟩ := hkeyed n hn
  rw [hkey] at hlo hle
  refine ⟨hlo, fun d hd => lt_of_le_of_lt hle ?_⟩
  rcases hf.mem hs with hk | hc
  · exact hk ▸ hroute.2 d hd
  · obtain ⟨_, hcr, _⟩ := ordered_append.mp hb.ordered
    exact ((ordered_cons.mp hcr).2.1 d hd).2 s hc

/-- The keys of the branches that are made of the children and the new nodes. -/
theorem Keyed.branches (hkeyed : Keyed B c.key (f c.recs) ns) (hf : LocalAt (rank B) k f)
    (hb : BranchAt B file h off lo (l ++ c :: r)) (hroute : Routes (rank B) k c r)
    {es : List Entry} (hes : es.map Prod.fst = ns.map Prod.fst) :
    Keyed B lo (f (below (l ++ c :: r)))
      ((halve B (kidPairs l ++ es ++ kidPairs r)).map branchEntry) := by
  have hsame : ∀ d ∈ l ++ c :: r, d ∈ l ∨ d ∈ r →
      rank B lo ≤ rank B d.key ∧ ∃ s ∈ f (below (l ++ c :: r)), rank B d.key ≤ rank B s.1 := by
    intro d hd hside
    obtain ⟨_, _, m, _, hok⟩ := hb.kids d hd
    obtain ⟨s, hs⟩ := List.exists_mem_of_ne_nil _ hok.ne_nil
    refine ⟨hb.lo_le d hd, s, ?_, hb.ordered.lower d hd s hs⟩
    rw [hf.route hroute hb.ordered]
    rcases hside with hside | hside
    · exact List.mem_append_left _ (List.mem_append_left _ (mem_below.mpr ⟨d, hside, hs⟩))
    · exact List.mem_append_right _ (mem_below.mpr ⟨d, hside, hs⟩)
  intro n hn
  obtain ⟨p, hp, rfl⟩ := List.mem_map.mp hn
  obtain ⟨e, t, rfl⟩ := List.exists_cons_of_ne_nil (halve_ne hp)
  have he : e ∈ kidPairs l ++ es ++ kidPairs r := by
    rw [← halve_flatten (B := B) (kidPairs l ++ es ++ kidPairs r)]
    exact List.mem_flatten.mpr ⟨_, hp, List.mem_cons_self⟩
  simp only [List.mem_append] at he
  rcases he with (he | he) | he
  · obtain ⟨d, hd, rfl⟩ := List.mem_map.mp he
    exact hsame d (by simp [hd]) (Or.inl hd)
  · obtain ⟨n, hn, hkey⟩ : ∃ n ∈ ns, n.1 = e.1 :=
      List.mem_map.mp (hes ▸ List.mem_map_of_mem (f := Prod.fst) he)
    obtain ⟨hlo, s, hs, hle⟩ := hkeyed n hn
    rw [hkey] at hlo hle
    refine ⟨le_trans (hb.lo_le c (by simp)) hlo, s, ?_, hle⟩
    rw [hf.route hroute hb.ordered]
    exact List.mem_append_left _ (List.mem_append_right _ hs)
  · obtain ⟨d, hd, rfl⟩ := List.mem_map.mp he
    exact hsame d (by simp [hd]) (Or.inr hd)

/-- One level of an update, for nodes of any size. -/
theorem level_size (hf : LocalAt (rank B) k f) (hb : BranchAt B db.file h off lo (l ++ c :: r))
    (hroute : Routes (rank B) k c r) (hp : Pend B nodes ns) (hne : ns ≠ [])
    (hkeyed : Keyed B c.key (f c.recs) ns) (a b : Nat) :
    ∃ nodes' ns', eval (modifyBranch B off lo a nodes.aKey b nodes.bKey c.ref 0) db =
        .ok (nodes', db) ∧ Pend B nodes' ns' ∧ ns' ≠ [] ∧
      Keyed B lo (f (below (l ++ c :: r))) ns' ∧
      sized B ns' = (halve B (l.map Child.key ++ (sized B ns).map Prod.fst ++
        r.map Child.key)).map fun ks => (ks.headD [], branchSize ks) := by
  obtain ⟨nodes', ns', heval, hp', hne', hns'⟩ :=
    modifyBranch_spec hb (rfl : _ = nodes.aKey.map fun k => (k, a))
      (rfl : _ = nodes.bKey.map fun k => (k, b))
  have hes : ((nodes.aKey.map fun k => (k, a)).toList ++
      (nodes.bKey.map fun k => (k, b)).toList).map Prod.fst = ns.map Prod.fst := by
    cases hp <;> rfl
  have hkids : ∀ cs : List Kid, (kidPairs cs).map Prod.fst = cs.map Child.key := by
    intro cs
    simp [kidPairs]
  have heq := hns' (hkeyed.between hf hb hroute hes)
  refine ⟨nodes', ns', heval, hp', hne' ?_, heq ▸ hkeyed.branches hf hb hroute hes, ?_⟩
  · cases hp with
    | none => exact absurd rfl hne
    | one => rfl
    | two => rfl
  · rw [heq, sized_branches, List.map_append, List.map_append, hes, sized_keys, hkids, hkids]

/-- The loop of `aodbm_set` leaves the bytes that the rest of the way takes. -/
theorem setLoop_size (appendPos : Nat) (hf : LocalAt (rank B) k f)
    (habove : Above B db.file k h off lo rs path top) (hp : Pend B nodes ns) (hne : ns ≠ [])
    (hkeyed : Keyed B lo (f rs) ns) (data : Rope) (dataSz : Nat) :
    ∃ levels data' dataSz' nodes' ns', Route B db.file k (rootOf off path) off lo levels ∧
      eval (setLoop B appendPos path data dataSz nodes off) db =
        .ok ((data', dataSz', nodes'), db) ∧ Pend B nodes' ns' ∧ ns' ≠ [] ∧
      (aodbmRopeToData data').length + updateSize B [] (sized B ns') =
        (aodbmRopeToData data).length + updateSize B levels (sized B ns) := by
  induction habove generalizing nodes ns data dataSz with
  | root => exact ⟨[], data, dataSz, nodes, ns, .root, rfl, hp, hne, rfl⟩
  | @child h off lo c l r path top hb hroute _ ih =>
    have hstep : ∀ (a b : Nat) (data₂ : Rope) (sz₂ : Nat),
        aodbmRopeToData data₂ = aodbmRopeToData data ++ encNodes B ns →
        (∀ nodes₂, eval (modifyBranch B off lo a nodes.aKey b nodes.bKey c.ref 0) db =
            .ok (nodes₂, db) →
          eval (setLoop B appendPos (⟨lo, off⟩ :: path) data dataSz nodes c.ref) db =
            eval (setLoop B appendPos path data₂ sz₂ nodes₂ off) db) →
        ∃ levels data' dataSz' nodes' ns',
          Route B db.file k (rootOf c.ref (⟨lo, off⟩ :: path)) c.ref c.key levels ∧
          eval (setLoop B appendPos (⟨lo, off⟩ :: path) data dataSz nodes c.ref) db =
            .ok ((data', dataSz', nodes'), db) ∧ Pend B nodes' ns' ∧ ns' ≠ [] ∧
          (aodbmRopeToData data').length + updateSize B [] (sized B ns') =
            (aodbmRopeToData data).length + updateSize B levels (sized B ns) := by
      intro a b data₂ sz₂ hdata hloop
      obtain ⟨nodes₂, ns₂, heval, hp₂, hne₂, hkeyed₂, hsized⟩ :=
        level_size hf hb hroute hp hne hkeyed a b
      obtain ⟨levels, data', sz', nodes', ns', hr, hrest, hp', hne', hsize⟩ :=
        ih hp₂ hne₂ hkeyed₂ data₂ sz₂
      refine ⟨_, data', sz', nodes', ns', .level hb.node hb.head hroute hr,
        (hloop nodes₂ heval).trans hrest, hp', hne', ?_⟩
      rw [hsize, hsized, hdata, List.length_append, updateSize, sized_sum, Nat.add_assoc]
    cases hp with
    | none => exact absurd rfl hne
    | @one a ka na ha =>
      refine hstep (dataSz + appendPos) 0 (aodbmRopeMerge data a)
        ((dataSz + aodbmRopeSize a) % 2 ^ 32) (by simp [ha]) fun nodes₂ heval => ?_
      rw [setLoop, eval]
      simp only [deref, pure_bind]
      rw [run_bind_ok heval]
    | @two a b ka kb na nb ha hb' =>
      refine hstep (dataSz + appendPos) ((dataSz + aodbmRopeSize a) % 2 ^ 32 + appendPos)
        (aodbmRopeMerge (aodbmRopeMerge data a) b)
        (((dataSz + aodbmRopeSize a) % 2 ^ 32 + aodbmRopeSize b) % 2 ^ 32)
        (by simp [ha, hb']) fun nodes₂ heval => ?_
      rw [setLoop, eval]
      simp only [deref, pure_bind]
      rw [run_bind_ok heval]

/-- The leaves of an insertion, sized. -/
theorem sized_leaves (parts : List (List Rec)) :
    sized B (parts.map leafEntry) =
      parts.map fun p => ((p.head?.map Prod.fst).getD [], leafSize p) := by
  rw [sized, List.map_map]
  refine List.map_congr_left fun p _ => ?_
  simp only [Function.comp, leafEntry, leafSize_eq]

/-- `aodbm_set` builds `setSize` bytes. -/
theorem setResult_size {ver : Nat} (hc : ContentsAt B db.file ver rs)
    (hf : db.file.length < 2 ^ 63) (k x : Data) (appendPos : Nat) :
    ∃ ls levels result, WayTo B db.file k ver ls levels ∧
      eval (setResult B ver k x appendPos) db = .ok (result, db) ∧
      result.dat.length = setSize B k x ls levels := by
  rcases hc with ⟨rfl, rfl⟩ | ⟨hver, ht⟩
  · have hparts : leafParts B k x [] = [[(k, x)]] := by
      rw [leafParts, if_pos (by have := B.four_le; rw [List.length_nil]; omega)]
      rfl
    refine ⟨[], [], _, .zero, by rw [setResult_zero]; rfl, ?_⟩
    rw [setSize, hparts, List.length_append, from64_length, leafSize_eq]
    rfl
  · obtain ⟨lo, leaf, ls, path, hway⟩ := ht.leafWay hver hf k
    obtain ⟨nodes, hins, hl, _⟩ := insertIntoLeaf_parts hway.node hway.count k x
    have hkeyed : Keyed B lo (upsert (rank B) k x ls) ((leafParts B k x ls).map leafEntry) := by
      refine keyed_leaves hl.recs (fun p hp => (hl.part p hp).1) fun r hr => ?_
      rcases mem_upsert hr with rfl | hr
      · exact hway.key
      · exact hway.lower r hr
    obtain ⟨levels, data, sz, nodes', ns', hroute, hloop, hp', hne', hsize⟩ :=
      setLoop_size appendPos (localAt_upsert k x) hway.above hl.pend
        (hl.ne_nil (upsert_ne_nil k x ls)) hkeyed aodbmRopeEmpty 0
    obtain ⟨result, hbuilt, hdat⟩ := root_size hp' hne' ver appendPos data sz
    rw [hway.root] at hroute
    refine ⟨ls, levels, result, .leaf hver hway.node hroute, ?_, ?_⟩
    · rw [hway.eval_setResult hver hins hloop, hbuilt]
      rfl
    · rw [hdat, hsize, sized_leaves, toData_empty, List.length_nil, Nat.zero_add]
      rfl

/-! ## Lengths and offsets -/

/-- What `aodbm_set` appended when it returned `v`: a block whose length field is right, which
the scan of `aodbm_open` therefore skips as a whole, and in which every offset is that of what it
points to. -/
structure Declares (B : Build) (db : Db) (ver : Nat) (k : Data) (v : Nat) (db' : Db) : Prop where
  block : ∃ len payload, len.length = 4 ∧
    db'.file = db.file ++ ([dataBlock] ++ len ++ payload) ∧ to32 B len = payload.length
  scan : ∀ rest rounds cur,
    openLoop B (db'.file ++ rest) (db'.file ++ rest).length (rounds + 1) db.file.length
        db.file.length cur =
      openLoop B (db'.file ++ rest) (db'.file ++ rest).length rounds db'.file.length
        db'.file.length cur
  header : SegAt db'.file v (aodbmDataFrom64 B ver)
  offsets : ver ≠ 0 → ∃ leaf ls parts payload new ns, NodeAt B db.file leaf (.leaf ls) ∧
    Rewritten B db.file ver k leaf parts payload new ns db'.file v

variable {w : World} {s : Snapshot}

/-- In runs with short blocks the file is opened as it was left, and the block that `aodbm_set`
appends to it is right about its length and its offsets exactly when `setSize` is below
`2 ^ 32`. -/
theorem block_length (hw : ReachableShort B w) (hs : s ∈ w.snaps) (k x : Data) :
    aodbmOpen B w.db.file = .ok w.db ∧
    ∃ ls levels, WayTo B w.db.file k s.ver ls levels ∧
      (eval (aodbmSet B s.ver k x) w.db = .error .osError ∨
        ∃ v db', eval (aodbmSet B s.ver k x) w.db = .ok (v, db') ∧
          (Declares B w.db s.ver k v db' ↔ setSize B k x ls levels < 2 ^ 32)) := by
  have hinv := inv_of_reachable hw
  refine ⟨hinv.reopen, ?_⟩
  obtain ⟨rs, hrs, _⟩ := hinv.contents hs
  obtain ⟨ls, levels, result, hway, hres, hsize⟩ :=
    setResult_size hrs hinv.synced.bound k x (w.db.file.length + 5)
  obtain ⟨_, hbuilt, hb, _⟩ := setResult_spec hrs hinv.synced.bound k x (w.db.file.length + 5)
  obtain rfl := (Prod.mk.inj (Except.ok.inj (hres.symm.trans hbuilt))).1
  have hset := eval_aodbmSet hinv.synced hres
  refine ⟨ls, levels, hway, ?_⟩
  by_cases hroom : w.db.file.length + (Block.enc B (.data result.dat)).length < 2 ^ 63
  · rw [if_pos hroom] at hset
    refine Or.inr ⟨_, _, hset, ?_⟩
    rw [← hsize]
    constructor
    · rintro ⟨⟨len, payload, hlen, hfile, hdeclared⟩, -, -, -⟩
      have hbytes := List.append_cancel_left hfile
      have hpayload := congrArg List.length hbytes
      simp only [data_enc_length, List.length_append, List.length_singleton, hlen] at hpayload
      have := to32_lt (B := B) hlen
      omega
    · intro hshort
      have hlen : (w.db.append (Block.enc B (.data result.dat))).file.length <
          w.db.file.length + (5 + 2 ^ 32) := by
        rw [Db.append, List.length_append, data_enc_length]
        omega
      refine ⟨⟨_, _, from32_length _, rfl, ?_⟩, fun rest rounds cur => ?_, ?_, fun hver => ?_⟩
      · rw [to32_from32 (Nat.mod_lt _ (by decide)), Nat.mod_eq_of_lt hshort]
      · exact openLoop_block (b := .data result.dat) hshort w.db.file rest rounds cur
      · exact ((hb.updates hinv.synced (eval_aodbmSet hinv.synced hres)).version hshort).header
      · obtain ⟨leaf, ls', parts, payload, new, ns, hleaf, _, hr⟩ :=
          hrs.set_rewritten hinv.synced hver hset hlen
        exact ⟨leaf, ls', parts, payload, new, ns, hleaf, hr⟩
  · rw [if_neg hroom] at hset
    exact Or.inl hset

/-- In the version whose root is a branch the key 6 leads to the second leaf. -/
theorem five_route {off : Nat} {lo : Data} {levels : Levels}
    (h : Route smallBuild fiveDb.file [6] 230 off lo levels) :
    off = 230 ∧ levels = [] ∨ off = 190 ∧ ∃ key, levels = [([key], [])] := by
  induction h with
  | root => exact .inl ⟨rfl, rfl⟩
  | @level off lo c l r levels branch _ routes _ ih =>
    rcases ih with ⟨rfl, rfl⟩ | ⟨rfl, -⟩
    · have hnode := branch.unique fiveRoot
      cases l with
      | nil =>
        injection hnode with _ hkids
        obtain ⟨d, rfl, hd⟩ := List.map_eq_singleton_iff.mp hkids
        have hlt := (aodbmDataLt_iff smallBuild).mpr (routes.2 d List.mem_cons_self)
        have hkey : d.key = [3] := congrArg Prod.fst hd
        rw [hkey] at hlt
        exact absurd hlt (by decide)
      | cons a l =>
        injection hnode with _ hkids
        obtain ⟨d, hsplit, hd⟩ := List.map_eq_singleton_iff.mp hkids
        rcases List.append_eq_singleton_iff.mp hsplit with ⟨rfl, hlast⟩ | ⟨-, hnil⟩
        · cases hlast
          exact .inr ⟨congrArg Prod.snd hd, a.key, rfl⟩
        · cases hnil
    · cases l <;> cases branch.unique fiveSecondLeaf

/-- A record in the second leaf below a branch. -/
theorem block_length_fiveSets :
    ∃ v db', eval (aodbmSet smallBuild 222 [6] []) fiveDb = .ok (v, db') ∧
      Declares smallBuild fiveDb 222 [6] v db' := by
  obtain ⟨w, hw, hdb, s, hs, hver⟩ := fiveDb_obtained
  obtain ⟨-, ls, levels, hway, hset⟩ := block_length hw hs [6] []
  rw [hdb, hver] at hway hset
  have hsize : setSize smallBuild [6] [] ls levels < 2 ^ 32 := by
    cases hway with
    | leaf _ node route =>
      rcases five_route route with ⟨rfl, -⟩ | ⟨rfl, key, rfl⟩
      · cases node.unique fiveRoot
      · cases node.unique fiveSecondLeaf
        have hlen : setSize smallBuild [6] [] [([3], []), ([4], []), ([5], [])]
            [([key], [])] = 75 := rfl
        rw [hlen]
        decide
  rcases hset with herror | ⟨v, db', hset, hiff⟩
  · have hok : (eval (aodbmSet smallBuild 222 [6] []) fiveDb).isOk = true := by decide +kernel
    rw [herror] at hok
    cases hok
  · exact ⟨v, db', hset, hiff.mpr hsize⟩

theorem exists_data (n : Nat) : ∃ x : Data, x.length = n :=
  ⟨List.replicate n 0, List.length_replicate⟩

/-- A value of `2 ^ 32 - 1` bytes fits its length field, but the block declares 20 bytes, and
`aodbm_open` takes the last byte of the value's length for the type of the next block. -/
theorem length_wrapped :
    ∃ x : Data, x.length = 2 ^ 32 - 1 ∧ ∃ db',
      eval (aodbmSet smallBuild 0 [] x) World.init.db = .ok (5, db') ∧
      db'.file.take 5 = [100, 0, 0, 0, 20] ∧ db'.file.length = 5 + (2 ^ 32 + 20) ∧
      ¬ Declares smallBuild World.init.db 0 [] 5 db' ∧
      aodbmOpen smallBuild db'.file = .error .unknownBlockType := by
  obtain ⟨x, hlen⟩ := exists_data (2 ^ 32 - 1)
  let header : Data := [100, 0, 0, 0, 20, 0, 0, 0, 0, 0, 0, 0, 0, 108, 0, 0, 0, 1, 0, 0, 0, 0,
    255, 255, 255, 255]
  have hx : x.length % 2 ^ 32 = 4294967295 := by omega
  have hpayload : (aodbmDataFrom64 smallBuild 0 ++
      Node.enc smallBuild (.leaf [([], x)])).length = 2 ^ 32 + 20 := by
    rw [List.length_append, from64_length, leafSize_eq, leafSize]
    simp only [List.map_cons, List.map_nil, List.sum_cons, List.sum_nil, List.length_nil]
    omega
  -- 20 is what is left of the length of the payload modulo `2 ^ 32`
  have henc : Block.enc smallBuild (.data (aodbmDataFrom64 smallBuild 0 ++
      Node.enc smallBuild (.leaf [([], x)]))) = header ++ x := by
    have h20 : (2 ^ 32 + 20) % 2 ^ 32 = 20 := by decide
    rw [Block.enc, hpayload, h20]
    simp only [Node.enc, encRecs_cons, encRecs_nil, encRec, encData, hx, List.append_nil]
    have h1 : aodbmDataFrom32 smallBuild 4294967295 = [255, 255, 255, 255] := by decide
    have h2 : [dataBlock] ++ aodbmDataFrom32 smallBuild 20 ++ (aodbmDataFrom64 smallBuild 0 ++
        ([leafType] ++ aodbmDataFrom32 smallBuild 1 ++ aodbmDataFrom32 smallBuild 0)) =
          [100, 0, 0, 0, 20, 0, 0, 0, 0, 0, 0, 0, 0, 108, 0, 0, 0, 1, 0, 0, 0, 0] := by decide
    rw [h1, List.length_singleton, List.length_nil, Nat.zero_mod]
    have h3 := congrArg (fun l => l ++ ([255, 255, 255, 255] ++ x)) h2
    simp only [List.append_assoc] at h3 ⊢
    exact h3
  have hset : eval (aodbmSet smallBuild 0 [] x) Db.empty =
      .ok (5, Db.empty.append (header ++ x)) := by
    rw [← henc]
    refine eval_set_zero rfl [] x ?_
    rw [data_enc_length, hpayload]
    decide
  have hfile : (header ++ x).length = 5 + (2 ^ 32 + 20) := by
    rw [← henc, data_enc_length, hpayload]
  refine ⟨x, hlen, _, hset, rfl, hfile, fun h => ?_, ?_⟩
  · -- no four bytes hold the length of what was written
    obtain ⟨len, payload, hfour, heq, hdeclared⟩ := h.block
    have hlt := to32_lt (B := smallBuild) hfour
    have := (congrArg List.length heq).symm.trans hfile
    simp only [List.length_append, List.length_singleton, hfour] at this
    have hempty : World.init.db.file.length = 0 := rfl
    omega
  · -- the scan skips 20 bytes
    have hread : ∀ {off : Nat} {bs : Data}, SegAt header off bs →
        readFile (header ++ x) off bs.length = some bs := fun h => readFile_segAt (h.append x)
    have htype : readFile (header ++ x) 0 1 = some [dataBlock] :=
      hread (segAt_iff.mpr (by decide) : SegAt header 0 [dataBlock])
    have hlength : readFile (header ++ x) (0 + 1) 4 = some [0, 0, 0, 20] :=
      hread (segAt_iff.mpr (by decide) : SegAt header 1 [0, 0, 0, 20])
    have hnext : readFile (header ++ x) (0 + 1 + 4 + 20) 1 = some [255] :=
      hread (segAt_iff.mpr (by decide) : SegAt header 25 [255])
    obtain ⟨m, hm⟩ : ∃ m, (header ++ x).length + 1 = m + 2 := ⟨2 ^ 32 + 24, by omega⟩
    have h20 : to32 smallBuild [0, 0, 0, 20] = 20 := by decide
    change aodbmOpen smallBuild (header ++ x) = _
    rw [aodbmOpen, hm, openLoop]
    simp only [htype, hlength, h20, if_neg (by decide : ¬ [dataBlock] = [versionBlock]), if_true]
    rw [if_neg (by omega), openLoop]
    simp only [hnext, if_neg (by decide : ¬ [(255 : UInt8)] = [versionBlock]),
      if_neg (by decide : ¬ [(255 : UInt8)] = [dataBlock])]

end Aodbm
