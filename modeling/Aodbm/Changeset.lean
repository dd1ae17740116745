import Aodbm.Ancestors
import Aodbm.ListInvariant

/-!
# Changesets (`aodbm_changeset.c`, `aodbm_apply`)

A changeset is a linked list of changes. Clients build changesets and merge them; applying one
walks its list and makes an update for each change.

Results:
1. `changes_of_reachable`: the lists hold the changes in the order in which they were added.
2. `applyChangeset_eq`: the walk over the list performs its changes one after the other.
3. `performs`: what performing changes does in runs with short blocks.
4. `apply_merge`: a merged changeset is applied as one after the other; applying is a fold.
5. `apply_broken`: a long block breaks this.
-/

namespace Aodbm

open Effects Records Bytes History Chains

/-- `aodbm_changeset`. -/
structure AodbmChangeset where
  list : Ptr
deriving DecidableEq

def aodbmChangesetEmpty (list : Ptr) : ListOp Change AodbmChangeset := do
  aodbmListEmpty list
  pure ⟨list⟩

def aodbmChangesetAddModify (changeset : AodbmChangeset) (node : Ptr) (key val : Data) :
    ListOp Change Unit := aodbmListPushBack changeset.list node (.modify key val)

def aodbmChangesetAddRemove (changeset : AodbmChangeset) (node : Ptr) (key : Data) :
    ListOp Change Unit := aodbmListPushBack changeset.list node (.remove key)

def aodbmChangesetMergeDi (a b : AodbmChangeset) : ListOp Change AodbmChangeset := do
  let list ← aodbmListMergeDi a.list b.list
  pure ⟨list⟩

section Apply
variable (B : Build)

/-- A list function within a function on the handle, which leaves the list as it is. -/
def onHeap {α β : Type} (heap : Heap α) (p : ListOp α β) : Op β :=
  match exec p heap with
  | .ok (x, _) => pure x
  | .error _ => Prog.fail .nullPointer

/-- The dispatch of `aodbm_apply`. The test for a removal is an assignment and holds always;
a change that is no modification is a removal. -/
def performChange (change : Change) (ver : Nat) : Op Nat :=
  match change with
  | .modify key val => aodbmSet B ver key val
  | .remove key => aodbmDel B ver key

/-- The loop of `aodbm_apply`, for at most the given number of rounds. -/
def applyLoop (heap : Heap Change) : Nat → ListIterator → Nat → Op Nat
  | 0, _, _ => .fail .diverges
  | rounds + 1, it, ver =>
    if aodbmListIteratorIsFinished it then pure ver
    else do
      let change ← onHeap heap (aodbmListIteratorGet it)
      let ver ← performChange B change ver
      let it ← onHeap heap (aodbmListIteratorNext it)
      applyLoop heap rounds it ver

/-- `aodbm_apply`: an iterator is moved over the list. The changes themselves are never written. -/
def applyChangeset (heap : Heap Change) (rounds ver : Nat) (ch : AodbmChangeset) : Op Nat := do
  let it ← onHeap heap (aodbmListBegin ch.list)
  applyLoop B heap rounds it ver

end Apply

/-- The map after a change. -/
def Change.on (c : Change) (m : Data → Option Data) : Data → Option Data :=
  match c with
  | .modify key val => Function.update m key (some val)
  | .remove key => Function.update m key none

/-- The map after some changes, the first one first. -/
def applied (cs : List Change) (m : Data → Option Data) : Data → Option Data :=
  cs.foldl (fun m c => c.on m) m

/-! ## Runs -/

/-- The heap of the changesets, and the changes that were added to each and not merged into
another one. -/
structure Changesets where
  heap : Heap Change
  changes : Ptr → Option (List Change)

def Changesets.init : Changesets := ⟨Heap.empty, fun _ => none⟩

/-- One call of a function on changesets. New nodes and lists are at addresses not in use. -/
inductive ChangesetStep : Changesets → Changesets → Prop where
  | empty {h : Changesets} {l : Ptr} {ch : AodbmChangeset} {heap : Heap Change}
      (unused : h.heap.lists l = none)
      (run : exec (aodbmChangesetEmpty l) h.heap = .ok (ch, heap)) :
      ChangesetStep h ⟨heap, Function.update h.changes ch.list (some [])⟩
  | addModify {h : Changesets} {ch : AodbmChangeset} {cs : List Change} {node : Ptr}
      {key val : Data} {heap : Heap Change} (known : h.changes ch.list = some cs)
      (unused : h.heap.nodes node = none)
      (run : exec (aodbmChangesetAddModify ch node key val) h.heap = .ok ((), heap)) :
      ChangesetStep h
        ⟨heap, Function.update h.changes ch.list (some (cs ++ [.modify key val]))⟩
  | addRemove {h : Changesets} {ch : AodbmChangeset} {cs : List Change} {node : Ptr}
      {key : Data} {heap : Heap Change} (known : h.changes ch.list = some cs)
      (unused : h.heap.nodes node = none)
      (run : exec (aodbmChangesetAddRemove ch node key) h.heap = .ok ((), heap)) :
      ChangesetStep h ⟨heap, Function.update h.changes ch.list (some (cs ++ [.remove key]))⟩
  | merge {h : Changesets} {a b r : AodbmChangeset} {cs ds : List Change}
      {heap : Heap Change} (ne : a ≠ b) (left : h.changes a.list = some cs)
      (right : h.changes b.list = some ds)
      (run : exec (aodbmChangesetMergeDi a b) h.heap = .ok (r, heap)) :
      ChangesetStep h ⟨heap, Function.update (Function.update h.changes r.list
        (some (cs ++ ds))) b.list none⟩

/-- States of the changesets. -/
def ChangesetReachable (h : Changesets) : Prop :=
  Relation.ReflTransGen ChangesetStep Changesets.init h

/-- The lists are linked and hold the changes. -/
def Changesets.Backed (h : Changesets) : Prop :=
  ∃ seqs : Seqs Change, Owns h.heap seqs ∧
    ∀ l, h.changes l = (seqs l).map fun xs => xs.map Prod.snd

variable {h : Changesets} {cs ds : List Change}

/-- A list that holds the changes. -/
theorem changes_linked {seqs : Seqs Change} {l : Ptr}
    (hseqs : ∀ l, h.changes l = (seqs l).map fun xs => xs.map Prod.snd)
    (hl : h.changes l = some cs) : ∃ xs, seqs l = some xs ∧ xs.map Prod.snd = cs := by
  rw [hseqs] at hl
  exact Option.map_eq_some_iff.mp hl

/-- What a push does to the lists, it does to the changes. -/
theorem Changesets.Backed.push (hb : h.Backed) {l node : Ptr} (hl : h.changes l = some cs)
    (hn : h.heap.nodes node = none) {c : Change} {heap : Heap Change}
    (run : exec (aodbmListPushBack l node c) h.heap = .ok ((), heap)) :
    Changesets.Backed ⟨heap, Function.update h.changes l (some (cs ++ [c]))⟩ := by
  obtain ⟨seqs, howns, hseqs⟩ := hb
  obtain ⟨xs, hxs, rfl⟩ := changes_linked hseqs hl
  obtain ⟨heap', hrun, howns'⟩ := howns.pushBack hxs hn c
  rw [run] at hrun
  cases hrun
  refine ⟨_, howns', fun m => ?_⟩
  rcases eq_or_ne m l with rfl | hm
  · simp
  · simp [hm, hseqs]

/-- Two changesets of a state are merged into the first. -/
theorem Changesets.Backed.mergeDi (hb : h.Backed) {a b : AodbmChangeset} (hab : a ≠ b)
    (ha : h.changes a.list = some cs) (hb' : h.changes b.list = some ds) :
    ∃ heap, exec (aodbmChangesetMergeDi a b) h.heap = .ok (a, heap) ∧
      Changesets.Backed ⟨heap, Function.update (Function.update h.changes a.list
        (some (cs ++ ds))) b.list none⟩ := by
  obtain ⟨seqs, howns, hseqs⟩ := hb
  obtain ⟨xs, hxs, rfl⟩ := changes_linked hseqs ha
  obtain ⟨ys, hys, rfl⟩ := changes_linked hseqs hb'
  have hne : a.list ≠ b.list := by
    intro h
    cases a
    cases b
    exact hab (congrArg AodbmChangeset.mk h)
  have hexec := exec_merge (howns.linked hxs) (howns.linked hys) (howns.apart hne hxs hys)
  refine ⟨_, run_bind_ok hexec, _, howns.merge hne hxs hys, fun m => ?_⟩
  rcases eq_or_ne m b.list with rfl | hm
  · simp
  · rcases eq_or_ne m a.list with rfl | hm'
    · simp [hm]
    · simp [hm, hm', hseqs]

theorem ChangesetStep.backed {h h' : Changesets} (hs : ChangesetStep h h') (hb : h.Backed) :
    h'.Backed := by
  cases hs with
  | @empty l ch heap unused run =>
    cases run
    obtain ⟨seqs, howns, hseqs⟩ := hb
    have hl : seqs l = none := by
      by_contra hsome
      obtain ⟨xs, hxs⟩ := Option.ne_none_iff_exists'.mp hsome
      rw [(howns.linked hxs).header] at unused
      cases unused
    refine ⟨_, howns.newList hl, fun m => ?_⟩
    rcases eq_or_ne m l with rfl | hm
    · simp
    · simp [hm, hseqs]
  | addModify known unused run => exact hb.push known unused run
  | addRemove known unused run => exact hb.push known unused run
  | merge ne left right run =>
    obtain ⟨heap', hrun, hbacked⟩ := hb.mergeDi ne left right
    rw [run] at hrun
    cases hrun
    exact hbacked

/-- However the changesets were built, the lists hold their changes. -/
theorem changes_of_reachable (hh : ChangesetReachable h) : h.Backed := by
  induction hh with
  | refl => exact ⟨_, Owns.empty, fun _ => rfl⟩
  | tail _ hstep ih => exact hstep.backed ih

/-! ## Applying a changeset -/

variable {B : Build}

theorem onHeap_ok {α β : Type} {heap heap' : Heap α} {p : ListOp α β} {x : β}
    (hp : exec p heap = .ok (x, heap')) : onHeap heap p = pure x := by
  rw [onHeap, hp]

theorem aodbmApply_cons (c : Change) (cs : List Change) (ver : Nat) :
    aodbmApply B ver (c :: cs) = performChange B c ver >>= fun v => aodbmApply B v cs := by
  cases c <;> rfl

theorem applyLoop_eq {heap : Heap Change} {l : Ptr} {xs : List (Ptr × Change)}
    {start : Option Ptr} (hc : Chain heap.nodes start none xs) {rounds : Nat}
    (hr : xs.length < rounds) (ver : Nat) :
    applyLoop B heap rounds ⟨first xs none, l⟩ ver = aodbmApply B ver (xs.map Prod.snd) := by
  induction xs generalizing start rounds ver with
  | nil =>
    obtain ⟨rounds, rfl⟩ := Nat.exists_eq_add_one.mpr hr
    rfl
  | cons x xs ih =>
    obtain ⟨hx, hxs⟩ := hc
    obtain ⟨rounds, rfl⟩ := Nat.exists_eq_add_one.mpr (Nat.zero_lt_of_lt hr)
    have hget : exec (aodbmListIteratorGet ⟨some x.1, l⟩) heap = .ok (x.2, heap) := by
      simp [aodbmListIteratorGet, run_map, hx]
    have hnext : exec (aodbmListIteratorNext ⟨some x.1, l⟩) heap =
        .ok (⟨first xs none, l⟩, heap) := by
      simp [aodbmListIteratorNext, run_map, hx]
    have hrest := fun v => ih hxs (Nat.lt_of_succ_lt_succ hr) v
    rw [applyLoop, first_cons, if_neg (by simp [aodbmListIteratorIsFinished]), onHeap_ok hget,
      onHeap_ok hnext]
    simp only [pure_bind, hrest, List.map_cons, aodbmApply_cons]

/-- `aodbm_apply` performs the changes of the list in its order. -/
theorem applyChangeset_eq {heap : Heap Change} {ch : AodbmChangeset}
    {xs : List (Ptr × Change)} (hl : Linked heap ch.list xs) {rounds : Nat}
    (hr : xs.length < rounds) (ver : Nat) :
    applyChangeset B heap rounds ver ch = aodbmApply B ver (xs.map Prod.snd) := by
  have hbegin : exec (aodbmListBegin ch.list) heap = .ok (⟨first xs none, ch.list⟩, heap) := by
    simp [aodbmListBegin, run_map, hl.header]
  rw [applyChangeset, onHeap_ok hbegin, pure_bind]
  exact applyLoop_eq hl.chain hr ver

theorem Changesets.Backed.apply_eq (hb : h.Backed) {ch : AodbmChangeset}
    (hch : h.changes ch.list = some cs) {rounds : Nat} (hr : cs.length < rounds) (ver : Nat) :
    applyChangeset B h.heap rounds ver ch = aodbmApply B ver cs := by
  obtain ⟨seqs, howns, hseqs⟩ := hb
  obtain ⟨xs, hxs, rfl⟩ := changes_linked hseqs hch
  exact applyChangeset_eq (howns.linked hxs) (by simpa using hr) ver

theorem aodbmApply_append (cs ds : List Change) (ver : Nat) :
    aodbmApply B ver (cs ++ ds) = aodbmApply B ver cs >>= fun v => aodbmApply B v ds := by
  induction cs generalizing ver with
  | nil => rw [List.nil_append, aodbmApply, pure_bind]
  | cons c cs ih => simp only [List.cons_append, aodbmApply_cons, bind_assoc, ih]

/-! ## Applying a changeset to a version -/

variable {w w' : World}

/-- Every update that performing the changes makes writes a short block. -/
def ShortChanges (B : Build) : List Change → Nat → Db → Prop
  | [], _, _ => True
  | c :: cs, ver, db => ∀ v db', eval (performChange B c ver) db = .ok (v, db') →
      db'.file.length < db.file.length + (5 + 2 ^ 32) ∧ ShortChanges B cs v db'

theorem Step.snaps_subset (h : Step B w w') : w.snaps ⊆ w'.snaps := by
  cases h with
  | set _ _ => exact List.subset_cons_self ..
  | del _ _ => exact List.subset_cons_self ..
  | current _ => exact List.Subset.refl _
  | commit _ _ => exact List.Subset.refl _
  | reject _ _ => exact List.Subset.refl _
  | newIterator _ _ => exact List.Subset.refl _
  | iterateFrom _ _ => exact List.Subset.refl _
  | iteratorGoto _ _ => exact List.Subset.refl _
  | iteratorNext _ _ => exact List.Subset.refl _

theorem World.BasedOn.mono {a b : Nat} (h : w.BasedOn a b) (hs : w.snaps ⊆ w'.snaps) :
    w'.BasedOn a b :=
  Based.mono (fun _ _ ⟨t, ht, h⟩ => ⟨t, hs ht, h⟩) h

/-- A version that some changes of `s` led to. -/
structure Performed (B : Build) (w : World) (s : Snapshot) (cs : List Change) (w' : World)
    (t : Snapshot) : Prop where
  steps : Relation.ReflTransGen (ShortStep B) w w'
  mem : t ∈ w'.snaps
  contents : t.contents = applied cs s.contents
  based : w'.BasedOn t.ver s.ver

/-- The version that an update returned was made from the one that was updated. -/
theorem World.basedOn_head {s t : Snapshot} (ht : t ∈ w.snaps) (hprev : t.prev = s.ver)
    (h0 : t.ver ≠ 0) : w.BasedOn t.ver s.ver :=
  .single ⟨t, ht, rfl, hprev, h0⟩

/-- One change is a step of the run. -/
theorem Inv.performsOne (hw : Inv B w) {s : Snapshot} (hs : s ∈ w.snaps) (c : Change) :
    eval (performChange B c s.ver) w.db = .error .osError ∨
      ∃ v db, eval (performChange B c s.ver) w.db = .ok (v, db) ∧
        (db.file.length < w.db.file.length + (5 + 2 ^ 32) →
          ∃ w' t, Performed B w s [c] w' t ∧ w'.db = db ∧ t.ver = v) := by
  obtain ⟨rs, hrs, hq⟩ := hw.contents hs
  cases c with
  | modify k x =>
    obtain ⟨payload, root, hu⟩ := hrs.set hw.synced k x
    have hrun := hu.run
    split at hrun
    · refine Or.inr ⟨_, _, hrun, fun hshort => ⟨_, _, ⟨.single ⟨.set hs hrun, hshort⟩,
        List.mem_cons_self, rfl, ?_⟩, rfl, rfl⟩⟩
      have hroot := hu.above
      exact World.basedOn_head List.mem_cons_self rfl (by simp only; omega)
    · exact Or.inl hrun
  | remove k =>
    cases hk : rs.lookup k with
    | none =>
      have hrun := hrs.del_absent hw.synced hk
      refine Or.inr ⟨_, _, hrun, fun hshort => ⟨_, _, ⟨.single ⟨.del hs hrun, hshort⟩,
        List.mem_cons_self, rfl, .refl _⟩, rfl, rfl⟩⟩
    | some x =>
      obtain ⟨payload, root, hu⟩ := hrs.del hw.synced (k := k) (by simp [hk])
      have hrun := hu.run
      split at hrun
      · refine Or.inr ⟨_, _, hrun, fun hshort => ⟨_, _, ⟨.single ⟨.del hs hrun, hshort⟩,
          List.mem_cons_self, rfl, ?_⟩, rfl, rfl⟩⟩
        have hroot := hu.above
        -- the step compares the versions, but the new root is another one
        by_cases hv : root = s.ver
        · rw [hv]
          exact .refl _
        · exact World.basedOn_head List.mem_cons_self (if_neg hv) (by simp only; omega)
      · exact Or.inl hrun

/-- Changes after a change. -/
theorem Performed.trans {w₁ w₂ : World} {s t u : Snapshot} {c : Change} {cs : List Change}
    (h : Performed B w s [c] w₁ t) (h' : Performed B w₁ t cs w₂ u) :
    Performed B w s (c :: cs) w₂ u where
  steps := h.steps.trans h'.steps
  mem := h'.mem
  contents := by
    rw [h'.contents, h.contents]
    rfl
  based := by
    have hsub : w₁.snaps ⊆ w₂.snaps := by
      have hsteps := h'.steps
      clear h' h
      induction hsteps with
      | refl => exact List.Subset.refl _
      | tail _ hstep ih => exact List.Subset.trans ih hstep.1.snaps_subset
    exact h'.based.trans (h.based.mono hsub)

/-- Performing changes leads to a version with the map after the changes, which is based on the
version they were performed on. The library ends the process if the file would get too long. -/
theorem performs (hw : ReachableShort B w) {s : Snapshot} (hs : s ∈ w.snaps)
    (hshort : ShortChanges B cs s.ver w.db) :
    eval (aodbmApply B s.ver cs) w.db = .error .osError ∨
      ∃ w' t, Performed B w s cs w' t ∧ eval (aodbmApply B s.ver cs) w.db = .ok (t.ver, w'.db) := by
  induction cs generalizing w s with
  | nil => exact Or.inr ⟨w, s, ⟨.refl, hs, rfl, .refl _⟩, rfl⟩
  | cons c cs ih =>
    rw [aodbmApply_cons, eval]
    rcases (inv_of_reachable hw).performsOne hs c with herr | ⟨v, db, hrun, hstep⟩
    · exact Or.inl (run_bind_error herr)
    · obtain ⟨hlen, hrest⟩ := hshort v db hrun
      obtain ⟨w₁, t, hone, rfl, rfl⟩ := hstep hlen
      rw [run_bind_ok hrun]
      rcases ih (hw.trans hone.steps) hone.mem hrest with herr | ⟨w₂, u, hall, hrun'⟩
      · exact Or.inl herr
      · exact Or.inr ⟨w₂, u, hone.trans hall, hrun'⟩

/-- The function returns a version that is based on `s` and holds the map of `s` with the
changes performed, or it ends the process because the file would get too long. -/
def Applies (B : Build) (w : World) (s : Snapshot) (cs : List Change) (p : Op Nat) : Prop :=
  eval p w.db = .error .osError ∨ ∃ v db, eval p w.db = .ok (v, db) ∧
    (∀ k, eval (aodbmGet B v k) db = .ok (applied cs s.contents k, db)) ∧
    eval (aodbmIsBasedOn B v s.ver) db = .ok (true, db)

theorem applies_of_short (hw : ReachableShort B w) {s : Snapshot} (hs : s ∈ w.snaps)
    (hshort : ShortChanges B cs s.ver w.db) : Applies B w s cs (aodbmApply B s.ver cs) := by
  rcases performs hw hs hshort with herr | ⟨w', t, hp, hrun⟩
  · exact Or.inl herr
  · have hinv := inv_of_reachable (hw.trans hp.steps)
    obtain ⟨rs, hrs, hq⟩ := hinv.contents hp.mem
    refine Or.inr ⟨_, _, hrun, fun k => ?_, (hinv.says_iff ⟨t, hp.mem, rfl⟩ _).mpr hp.based⟩
    rw [← hp.contents, hq]
    exact hrs.get hinv.synced k

/-- In a run with short blocks, and if the updates of its changes write short blocks, applying
a changeset gives the fold of its changes over the contents of the version, and a version based
on it. The merge of two changesets holds the changes of both, and applying it makes the same
updates as applying one after the other. -/
theorem apply_merge (hw : ReachableShort B w) {s : Snapshot} (hs : s ∈ w.snaps)
    (hh : ChangesetReachable h) {a b : AodbmChangeset} (hab : a ≠ b)
    (ha : h.changes a.list = some cs) (hb : h.changes b.list = some ds) :
    (∀ k, eval (aodbmGet B s.ver k) w.db = .ok (s.contents k, w.db)) ∧
      (ShortChanges B cs s.ver w.db → ∀ rounds, cs.length < rounds →
        Applies B w s cs (applyChangeset B h.heap rounds s.ver a)) ∧
      ∃ heap, exec (aodbmChangesetMergeDi a b) h.heap = .ok (a, heap) ∧
        ∀ rounds, (cs ++ ds).length < rounds →
          applyChangeset B heap rounds s.ver a =
            (applyChangeset B h.heap rounds s.ver a >>= fun v =>
              applyChangeset B h.heap rounds v b) ∧
          (ShortChanges B (cs ++ ds) s.ver w.db →
            Applies B w s (cs ++ ds) (applyChangeset B heap rounds s.ver a)) := by
  have hinv := inv_of_reachable hw
  have hbacked := changes_of_reachable hh
  refine ⟨fun k => ?_, fun hshort rounds hr => ?_, ?_⟩
  · obtain ⟨rs, hrs, hq⟩ := hinv.contents hs
    rw [hq]
    exact hrs.get hinv.synced k
  · rw [hbacked.apply_eq ha hr]
    exact applies_of_short hw hs hshort
  · obtain ⟨heap, hmerge, hbacked'⟩ := hbacked.mergeDi hab ha hb
    -- the changesets are different, so their lists are
    have hne : a.list ≠ b.list := fun heq => hab (by cases a; cases b; simpa using heq)
    refine ⟨heap, hmerge, fun rounds hr => ?_⟩
    have hlen : cs.length < rounds ∧ ds.length < rounds := by
      rw [List.length_append] at hr
      omega
    have happly : applyChangeset B heap rounds s.ver a = aodbmApply B s.ver (cs ++ ds) :=
      hbacked'.apply_eq (by simp [hne]) hr s.ver
    rw [happly]
    refine ⟨?_, applies_of_short hw hs⟩
    simp only [hbacked.apply_eq ha hlen.1, hbacked.apply_eq hb hlen.2]
    exact aodbmApply_append cs ds s.ver

/-- A changeset that removes a key and one that adds it. -/
theorem exists_twoChangesets (k x : Data) : ∃ h, ChangesetReachable h ∧
    h.changes 0 = some [.remove k] ∧ h.changes 2 = some [.modify k x] := by
  have h₁ : ChangesetReachable _ := .single (.empty (l := 0) rfl rfl)
  have h₂ : ChangesetReachable _ :=
    h₁.tail (@ChangesetStep.addRemove _ ⟨0⟩ _ 1 k _ rfl rfl rfl)
  have h₃ : ChangesetReachable _ := h₂.tail (.empty (l := 2) rfl rfl)
  have h₄ : ChangesetReachable _ :=
    h₃.tail (@ChangesetStep.addModify _ ⟨2⟩ _ 3 k x _ rfl rfl rfl)
  exact ⟨_, h₄, rfl, rfl⟩

/-- The short run after key 2 is removed from its second version. -/
def removedDb : Db := shortRun.db.append [100, 0, 0, 0, 23, 0, 0, 0, 0, 0, 0, 0, 33, 108, 0, 0, 0,
  1, 0, 0, 0, 1, 1, 0, 0, 0, 1, 10]

/-- Key 2 is removed from the second version of the short run and added again. -/
theorem apply_merge_shortRun : ∃ heap : Heap Change, ∀ rounds, 2 < rounds →
    Applies smallBuild shortRun shortSecond [.remove [2], .modify [2] [21]]
      (applyChangeset smallBuild heap rounds 33 ⟨0⟩) := by
  obtain ⟨h, hh, h0, h2⟩ := exists_twoChangesets [2] [21]
  obtain ⟨_, _, heap, _, hmerge⟩ := apply_merge shortRun_reachable (s := shortSecond)
    List.mem_cons_self hh (a := ⟨0⟩) (b := ⟨2⟩) (by decide) h0 h2
  refine ⟨heap, fun rounds hr => (hmerge rounds hr).2 ?_⟩
  have hfirst : eval (performChange smallBuild (.remove [2]) 33) shortRun.db =
      .ok (80, removedDb) := by decide +kernel
  have hsecond : eval (performChange smallBuild (.modify [2] [21]) 80) removedDb =
      .ok (108, removedDb.append [100, 0, 0, 0, 33, 0, 0, 0, 0, 0, 0, 0, 80, 108, 0, 0, 0, 2,
        0, 0, 0, 1, 1, 0, 0, 0, 1, 10, 0, 0, 0, 1, 2, 0, 0, 0, 1, 21]) := by
    decide +kernel
  intro v db h
  rw [show shortSecond.ver = 33 from rfl, hfirst] at h
  cases h
  refine ⟨by decide, fun v db h => ?_⟩
  rw [hsecond] at h
  cases h
  exact ⟨by decide +kernel, trivial⟩

/-- After a long block the version that `aodbm_apply` returns has no contents: a lookup reads
beyond the end of the file. -/
theorem apply_broken : ∃ w, Reachable smallBuild w ∧ ∃ s ∈ w.snaps, ∃ h, ChangesetReachable h ∧
    ∃ (ch : AodbmChangeset) (cs : List Change), h.changes ch.list = some cs ∧
      ∀ rounds, cs.length < rounds → ∃ v db,
        eval (applyChangeset smallBuild h.heap rounds s.ver ch) w.db = .ok (v, db) ∧
          eval (aodbmGet smallBuild v []) db = .error .eof := by
  have hchildless : childless.length ≤ 2 ^ 32 - 9 := by decide +kernel
  obtain ⟨x, w, w', hw, ⟨s, hs, hver⟩, hset, -, hm⟩ := longStep hchildless
  obtain ⟨h, hh, -, hch⟩ := exists_twoChangesets [1] x
  have hlen := hm.length
  refine ⟨w, hw, s, hs, h, hh, ⟨2⟩, _, hch, fun rounds hr => ⟨284, w'.db, ?_, ?_⟩⟩
  · rw [(changes_of_reachable hh).apply_eq hch hr, hver]
    exact run_bind_ok hset
  · exact eval_get_beyond (by decide) hm.root (by omega) []

end Aodbm
