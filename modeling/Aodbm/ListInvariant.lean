import Aodbm.LinkedList
import Mathlib.Data.List.Basic
import Mathlib.Logic.Relation

/-!
# What the lists represent

Every list stands for a sequence of nodes. Each function changes it as its name says,
except that `aodbm_list_insert` on the last node leaves the tail of the list behind.

Results:
1. `exec_pushFront` to `exec_merge`: the heap that each function leaves.
2. `Owns.call`: a call keeps the lists apart and linked, and changes one sequence.
3. `list_represents`: the calls that do what their names say are those that do not
   insert behind the last node.
-/

namespace Aodbm

open Effects Chains

variable {α : Type}

/-- The list at `l` is the chain `xs`, and its header says so. -/
structure Linked (heap : Heap α) (l : Ptr) (xs : List (Ptr × α)) : Prop where
  header : heap.lists l = some ⟨first xs none, last xs none, xs.length⟩
  chain : Chain heap.nodes none none xs
  nodup : (addrs xs).Nodup

/-- The heap with new nodes and a new header at `l`. -/
def Heap.with (heap : Heap α) (nodes : Cells Ptr α) (l : Ptr) (hd : AodbmList) : Heap α :=
  ⟨nodes, Function.update heap.lists l (some hd)⟩

variable {heap heap' : Heap α} {l p node : Ptr} {xs ys : List (Ptr × α)} {x : Ptr × α}
  {n : Option Ptr} {item : α}

@[simp] theorem exec_newNode : run Heap.handle (createListNode p item) heap =
    .ok ((), ⟨put heap.nodes p ⟨none, none, item⟩, heap.lists⟩) := rfl

@[simp] theorem exec_freeNode : run Heap.handle (freeNode p) heap =
    .ok ((), ⟨free heap.nodes p, heap.lists⟩) := rfl

@[simp] theorem exec_getNode : run Heap.handle (getNode p) heap =
    match heap.nodes p with
    | some c => .ok (c, heap)
    | none => .error .badPointer := run_perform ..

@[simp] theorem exec_setNext : run Heap.handle (setNext p n) heap =
    match heap.nodes p with
    | some _ => .ok ((), ⟨linkNext heap.nodes (some p) n, heap.lists⟩)
    | none => .error .badPointer := run_perform ..

@[simp] theorem exec_setPrev : run Heap.handle (setPrev p n) heap =
    match heap.nodes p with
    | some _ => .ok ((), ⟨linkPrev heap.nodes (some p) n, heap.lists⟩)
    | none => .error .badPointer := run_perform ..

@[simp] theorem exec_freeList : run Heap.handle (freeList (α := α) l) heap =
    .ok ((), ⟨heap.nodes, Function.update heap.lists l none⟩) := rfl

@[simp] theorem exec_getList : run Heap.handle (getList l) heap =
    match heap.lists l with
    | some hd => .ok (hd, heap)
    | none => .error .badPointer := run_perform ..

@[simp] theorem exec_setHead : run Heap.handle (setHead l n) heap =
    heap.setList l fun hd => { hd with head := n } := run_perform ..

@[simp] theorem exec_setTail : run Heap.handle (setTail l n) heap =
    heap.setList l fun hd => { hd with tail := n } := run_perform ..

@[simp] theorem exec_addLen {k : Nat} : run Heap.handle (addLen l k) heap =
    heap.setList l fun hd => { hd with len := hd.len + k } := by
  rw [addLen, run_bind, exec_getList, Heap.setList]
  cases h : heap.lists l with
  | none => rfl
  | some hd => simp [run_perform, Heap.handle, Heap.setList, h]

@[simp] theorem exec_decLen : run Heap.handle (decLen l) heap =
    heap.setList l fun hd => { hd with len := hd.len - 1 } := by
  rw [decLen, run_bind, exec_getList, Heap.setList]
  cases h : heap.lists l with
  | none => rfl
  | some hd => simp [run_perform, Heap.handle, Heap.setList, h]

theorem Linked.ne (hl : Linked heap l xs) (hn : heap.nodes node = none) : node ∉ addrs xs := by
  intro h
  obtain ⟨c, hc⟩ := hl.chain.isSome h
  rw [hn] at hc
  cases hc

theorem exec_pushFront (hl : Linked heap l xs) (hn : heap.nodes node = none) :
    exec (aodbmListPushFront l node item) heap =
      .ok ((), heap.with (spliced heap.nodes [] xs node item) l
        ⟨some node, last ((node, item) :: xs) none, xs.length + 1⟩) := by
  have hhead := hl.header
  cases xs with
  | nil =>
    simp [aodbmListPushFront, run_bind, setOnly, hhead, Heap.setList, Heap.with, spliced, linkNext,
      linkPrev, put]
  | cons x xs =>
    have hx := hl.chain.1
    have hne : node ≠ x.1 := fun h => hl.ne hn (by simp [h])
    simp [aodbmListPushFront, run_bind, hhead, hx, hne.symm, Heap.setList, Heap.with,
      spliced, linkNext, linkPrev, put, Function.update_comm hne]

theorem exec_pushBack (hl : Linked heap l xs) (hn : heap.nodes node = none) :
    exec (aodbmListPushBack l node item) heap =
      .ok ((), heap.with (spliced heap.nodes xs [] node item) l
        ⟨first (xs ++ [(node, item)]) none, some node, xs.length + 1⟩) := by
  have hhead := hl.header
  obtain rfl | ⟨xs, x, rfl⟩ := xs.eq_nil_or_concat'
  · simp [aodbmListPushBack, run_bind, setOnly, hhead, Heap.setList, Heap.with, spliced, linkNext,
      linkPrev, put]
  · have hx := hl.chain.cell
    have hne : node ≠ x.1 := fun h => hl.ne hn (by simp [h])
    obtain ⟨a, ha⟩ : ∃ a, first xs (some x.1) = some a := by cases xs <;> simp
    simp [aodbmListPushBack, run_bind, hhead, ha, hx, hne.symm, Heap.setList, Heap.with,
      spliced, linkNext, linkPrev, put, Function.update_comm hne]

theorem exec_remove (hl : Linked heap l (xs ++ x :: ys)) :
    exec (aodbmListRemove ⟨some x.1, l⟩) heap =
      .ok (⟨if ys = [] then last xs none else first ys none, l⟩,
        heap.with (unlinked heap.nodes xs ys x.1) l
        ⟨first (xs ++ ys) none, last (xs ++ ys) none, (xs ++ ys).length⟩) := by
  have hhead := hl.header
  have hx := hl.chain.cell
  obtain rfl | ⟨xs, w, rfl⟩ := xs.eq_nil_or_concat'
  · cases ys with
    | nil =>
      simp [aodbmListRemove, run_bind, run_map, hhead, hx, Heap.setList, Heap.with, unlinked,
        joined, linkNext, linkPrev]
    | cons y ys =>
      simp only [List.nil_append] at hl
      obtain ⟨hcx, hcy, _⟩ := hl.chain
      simp [aodbmListRemove, run_bind, run_map, hhead, hcx, hcy, Heap.setList, Heap.with,
        unlinked, joined, linkNext, linkPrev]
  · have hcw : heap.nodes w.1 = some ⟨some x.1, last xs none, w.2⟩ := by
      have h := hl.chain
      rw [List.append_assoc] at h
      exact h.cell
    cases ys with
    | nil =>
      simp [aodbmListRemove, run_bind, run_map, hhead, hx, hcw, Heap.setList, Heap.with, unlinked,
        joined, linkNext, linkPrev]
    | cons y ys =>
      have hcy : heap.nodes y.1 = some ⟨first ys none, some x.1, y.2⟩ := by
        have h : Chain heap.nodes none none ((xs ++ [w] ++ [x]) ++ y :: ys) := by
          simpa using hl.chain
        simpa using h.cell
      have hne : y.1 ≠ w.1 := by
        have hd := hl.nodup
        simp only [addrs_append, addrs_cons, List.nodup_append] at hd
        exact fun h => hd.2.2 w.1 (by simp) y.1 (by simp) h.symm
      simp [aodbmListRemove, run_bind, run_map, hhead, hx, hcw, hcy, hne, Heap.setList, Heap.with,
        unlinked, joined, linkNext, linkPrev]

theorem exec_popFront (hl : Linked heap l (x :: ys)) : exec (aodbmListPopFront l) heap =
    .ok (some x.2, heap.with (unlinked heap.nodes [] ys x.1) l
      ⟨first ys none, last ys none, ys.length⟩) := by
  have hhead := hl.header
  have hx := hl.chain.1
  cases ys with
  | nil =>
    simp [aodbmListPopFront, run_bind, run_map, hhead, hx, Heap.setList, Heap.with, unlinked,
      joined,
      linkNext, linkPrev]
  | cons y ys =>
    have hy := hl.chain.2.1
    simp [aodbmListPopFront, run_bind, run_map, hhead, hx, hy, Heap.setList, Heap.with, unlinked,
      joined, linkNext, linkPrev]

theorem exec_popBack (hl : Linked heap l (xs ++ [x])) : exec (aodbmListPopBack l) heap =
    .ok (some x.2, heap.with (unlinked heap.nodes xs [] x.1) l
      ⟨first xs none, last xs none, xs.length⟩) := by
  have hhead := hl.header
  have hx := hl.chain.cell
  obtain rfl | ⟨xs, w, rfl⟩ := xs.eq_nil_or_concat'
  · simp [aodbmListPopBack, run_bind, run_map, hhead, hx, Heap.setList, Heap.with, unlinked, joined,
      linkNext, linkPrev]
  · have hw : heap.nodes w.1 = some ⟨some x.1, last xs none, w.2⟩ := by
      have h : Chain heap.nodes none none (xs ++ w :: [x]) := by simpa using hl.chain
      exact h.cell
    simp [aodbmListPopBack, run_bind, run_map, hhead, hx, hw, Heap.setList, Heap.with, unlinked,
      joined, linkNext, linkPrev]

theorem exec_insert (hl : Linked heap l (xs ++ x :: ys)) (hn : heap.nodes node = none) :
    exec (aodbmListInsert ⟨some x.1, l⟩ node item) heap =
      .ok ((), heap.with (spliced heap.nodes (xs ++ [x]) ys node item) l
        ⟨first (xs ++ x :: ys) none, last (xs ++ x :: ys) none, (xs ++ x :: ys).length + 1⟩) := by
  have hhead := hl.header
  have hx := hl.chain.cell
  have hne : node ≠ x.1 := fun h => hl.ne hn (by simp [h])
  cases ys with
  | nil =>
    simp [aodbmListInsert, run_bind, hhead, hx, hne.symm, Heap.setList, Heap.with, spliced,
      linkNext,
      linkPrev, put, Function.update_comm hne]
  | cons y ys =>
    have hy : heap.nodes y.1 = some ⟨first ys none, some x.1, y.2⟩ := by
      have h : Chain heap.nodes none none ((xs ++ [x]) ++ y :: ys) := by simpa using hl.chain
      simpa using h.cell
    have hny : node ≠ y.1 := fun h => hl.ne hn (by simp [h])
    have hxy : y.1 ≠ x.1 := by
      have hd := hl.nodup
      simp only [addrs_append, addrs_cons, List.nodup_append, List.nodup_cons] at hd
      exact fun h => hd.2.1.1 (by simp [h])
    simp [aodbmListInsert, run_bind, hhead, hx, hy, hne.symm, hny.symm, hxy.symm,
      Heap.setList, Heap.with, spliced, linkNext, linkPrev, put,
      Function.update_comm hne, Function.update_comm hny]

theorem exec_insert_empty (hl : Linked heap l []) :
    exec (aodbmListInsert ⟨none, l⟩ node item) heap =
      .ok ((), heap.with (spliced heap.nodes [] [] node item) l ⟨some node, some node, 1⟩) := by
  have hhead := hl.header
  simp [aodbmListInsert, run_bind, hhead, Heap.setList, Heap.with, spliced, linkNext, linkPrev, put]

theorem exec_merge {a b : Ptr} (ha : Linked heap a xs) (hb : Linked heap b ys)
    (hd : ∀ p ∈ addrs xs, p ∉ addrs ys) : exec (aodbmListMergeDi a b) heap =
      .ok (a, ⟨joined heap.nodes xs ys, Function.update (Function.update heap.lists a
        (some ⟨first (xs ++ ys) none, last (xs ++ ys) none, (xs ++ ys).length⟩)) b none⟩) := by
  have hha := ha.header
  have hhb := hb.header
  obtain rfl | ⟨xs, x, rfl⟩ := xs.eq_nil_or_concat'
  · cases ys with
    | nil =>
      simp [aodbmListMergeDi, run_bind, run_map, hha, hhb, Heap.setList, joined, linkNext, linkPrev]
    | cons y ys =>
      have hy := hb.chain.1
      obtain ⟨t, ht⟩ : ∃ t, last ys (some y.1) = some t := by
        obtain rfl | ⟨ys, z, rfl⟩ := ys.eq_nil_or_concat' <;> simp
      simp [aodbmListMergeDi, run_bind, run_map, hha, hhb, hy, ht, Heap.setList, joined, linkNext,
        linkPrev]
  · have hx := ha.chain.cell
    obtain ⟨h, hh⟩ : ∃ h, first xs (some x.1) = some h := by cases xs <;> simp
    cases ys with
    | nil =>
      simp [aodbmListMergeDi, run_bind, run_map, hha, hhb, hx, hh, Heap.setList, joined, linkNext,
        linkPrev]
    | cons y ys =>
      have hy := hb.chain.1
      have hxy : y.1 ≠ x.1 := fun h => hd x.1 (by simp) (by simp [h])
      obtain ⟨t, ht⟩ : ∃ t, last ys (some y.1) = some t := by
        obtain rfl | ⟨ys, z, rfl⟩ := ys.eq_nil_or_concat' <;> simp
      have hlen : xs.length + 1 + (ys.length + 1) = xs.length + (ys.length + 1 + 1) := by omega
      simp [aodbmListMergeDi, run_bind, run_map, hha, hhb, hx, hh, hy, ht, hxy, hlen, Heap.setList,
        joined, linkNext, linkPrev]

/-! ## Changes of one list -/

/-- Only the list at `l` changed, from `xs` to `xs'`, which has new nodes that were free. -/
structure Changes (heap heap' : Heap α) (l : Ptr) (xs xs' : List (Ptr × α)) : Prop where
  linked : Linked heap' l xs'
  nodes : ∀ p, p ∉ addrs xs → p ∉ addrs xs' → heap'.nodes p = heap.nodes p
  lists : ∀ m, m ≠ l → heap'.lists m = heap.lists m
  fresh : ∀ p ∈ addrs xs', p ∈ addrs xs ∨ heap.nodes p = none

@[simp] theorem with_nodes (nodes : Cells Ptr α) (hd : AodbmList) :
    (heap.with nodes l hd).nodes = nodes := rfl

@[simp] theorem with_lists (nodes : Cells Ptr α) (hd : AodbmList) :
    (heap.with nodes l hd).lists = Function.update heap.lists l (some hd) := rfl

theorem Linked.splice (hl : Linked heap l (xs ++ ys)) (hn : heap.nodes node = none) (item : α) :
    Changes heap (heap.with (spliced heap.nodes xs ys node item) l
      ⟨first (xs ++ (node, item) :: ys) none, last (xs ++ (node, item) :: ys) none,
        (xs ++ ys).length + 1⟩) l (xs ++ ys) (xs ++ (node, item) :: ys) where
  linked := by
    refine ⟨?_, hl.chain.splice hl.nodup (hl.ne hn) item, ?_⟩
    · simp [Nat.add_assoc]
    · rw [addrs_append, addrs_cons, List.perm_middle.nodup_iff, ← addrs_append, List.nodup_cons]
      exact ⟨hl.ne hn, hl.nodup⟩
  nodes p hp hp' := by
    rw [addrs_append, List.mem_append, not_or] at hp
    refine spliced_of_ne (fun h => hp.1 (last_mem h)) (fun h => hp.2 (first_mem h)) fun h => ?_
    simp [h] at hp'
  lists m hm := Function.update_of_ne hm ..
  fresh p hp := by
    simp only [addrs_append, addrs_cons, List.mem_append, List.mem_cons] at hp ⊢
    rcases hp with hp | rfl | hp
    · exact Or.inl (Or.inl hp)
    · exact Or.inr hn
    · exact Or.inl (Or.inr hp)

theorem Linked.unlink (hl : Linked heap l (xs ++ x :: ys)) :
    Changes heap (heap.with (unlinked heap.nodes xs ys x.1) l
      ⟨first (xs ++ ys) none, last (xs ++ ys) none, (xs ++ ys).length⟩) l (xs ++ x :: ys)
      (xs ++ ys) where
  linked := by
    refine ⟨by simp, hl.chain.unlink hl.nodup, ?_⟩
    have hd := hl.nodup
    rw [addrs_append, addrs_cons, List.perm_middle.nodup_iff, ← addrs_append] at hd
    exact hd.of_cons
  nodes p hp _ := by
    simp only [addrs_append, addrs_cons, List.mem_append, List.mem_cons, not_or] at hp
    exact unlinked_of_ne (fun h => hp.1 (last_mem h)) (fun h => hp.2.2 (first_mem h)) hp.2.1
  lists m hm := Function.update_of_ne hm ..
  fresh p hp := by
    simp only [addrs_append, addrs_cons, List.mem_append, List.mem_cons] at hp ⊢
    exact Or.inl (hp.imp_right Or.inr)

/-! ## All lists of a heap -/

/-- The sequences that the lists stand for: `none` where there is no list. -/
abbrev Seqs (α : Type) := Ptr → Option (List (Ptr × α))

/-- Every list is linked, and no two share a node. -/
structure Owns (heap : Heap α) (seqs : Seqs α) : Prop where
  linked : ∀ {l xs}, seqs l = some xs → Linked heap l xs
  apart : ∀ {l m xs ys}, l ≠ m → seqs l = some xs → seqs m = some ys →
    ∀ p ∈ addrs xs, p ∉ addrs ys

variable {seqs : Seqs α} {xs' : List (Ptr × α)}

theorem Owns.empty : Owns (Heap.empty : Heap α) fun _ => none where
  linked h := by cases h
  apart _ h := by cases h

/-- A list that was not changed is linked as before. -/
theorem Linked.frame (hl : Linked heap l xs) (hlists : heap'.lists l = heap.lists l)
    (hnodes : ∀ p ∈ addrs xs, heap'.nodes p = heap.nodes p) : Linked heap' l xs :=
  ⟨hlists.trans hl.header, hl.chain.frame hnodes, hl.nodup⟩

theorem Owns.change (ho : Owns heap seqs) (hl : seqs l = some xs)
    (hc : Changes heap heap' l xs xs') : Owns heap' (Function.update seqs l (some xs')) := by
  -- the nodes of other lists are neither among the old nor among the new ones
  have other : ∀ {m ys}, m ≠ l → seqs m = some ys → ∀ p ∈ addrs ys,
      p ∉ addrs xs ∧ p ∉ addrs xs' := by
    intro m ys hm hys p hp
    have hxs := ho.apart hm hys hl p hp
    refine ⟨hxs, fun hp' => ?_⟩
    rcases hc.fresh p hp' with hp' | hp'
    · exact hxs hp'
    · exact (ho.linked hys).ne hp' hp
  constructor
  · intro m ys hys
    rcases eq_or_ne m l with rfl | hm
    · rw [Function.update_self] at hys
      cases hys
      exact hc.linked
    · rw [Function.update_of_ne hm] at hys
      refine (ho.linked hys).frame (hc.lists m hm) fun p hp => ?_
      obtain ⟨h1, h2⟩ := other hm hys p hp
      exact hc.nodes p h1 h2
  · intro m m' ys zs hne hys hzs p hp
    rcases eq_or_ne m l with rfl | hm
    · rw [Function.update_self] at hys
      rw [Function.update_of_ne hne.symm] at hzs
      cases hys
      exact fun hp' => (other hne.symm hzs p hp').2 hp
    · rw [Function.update_of_ne hm] at hys
      rcases eq_or_ne m' l with rfl | hm'
      · rw [Function.update_self] at hzs
        cases hzs
        exact (other hm hys p hp).2
      · rw [Function.update_of_ne hm'] at hzs
        exact ho.apart hne hys hzs p hp

/-- A new list. -/
theorem Owns.newList (ho : Owns heap seqs) (hl : seqs l = none) :
    Owns ⟨heap.nodes, Function.update heap.lists l (some ⟨none, none, 0⟩)⟩
      (Function.update seqs l (some [])) := by
  constructor
  · intro m ys hys
    rcases eq_or_ne m l with rfl | hm
    · rw [Function.update_self] at hys
      cases hys
      exact ⟨Function.update_self .., trivial, List.nodup_nil⟩
    · rw [Function.update_of_ne hm] at hys
      exact (ho.linked hys).frame (Function.update_of_ne hm ..) fun _ _ => rfl
  · intro m m' ys zs hne hys hzs p hp
    rcases eq_or_ne m l with rfl | hm
    · rw [Function.update_self] at hys
      cases hys
      cases hp
    · rw [Function.update_of_ne hm] at hys
      rcases eq_or_ne m' l with rfl | hm'
      · rw [Function.update_self] at hzs
        cases hzs
        exact List.not_mem_nil
      · rw [Function.update_of_ne hm'] at hzs
        exact ho.apart hne hys hzs p hp

/-- An item behind the others of its list. -/
theorem Owns.pushBack (ho : Owns heap seqs) (hl : seqs l = some xs) (hn : heap.nodes node = none)
    (item : α) : ∃ heap', exec (aodbmListPushBack l node item) heap = .ok ((), heap') ∧
      Owns heap' (Function.update seqs l (some (xs ++ [(node, item)]))) := by
  have hlinked := ho.linked hl
  refine ⟨_, exec_pushBack hlinked hn, ?_⟩
  rw [← List.append_nil xs] at hlinked
  have hs := hlinked.splice hn item
  simp only [List.append_nil] at hs
  simpa using ho.change hl hs

/-- An item before the others of its list. -/
theorem Owns.pushFront (ho : Owns heap seqs) (hl : seqs l = some xs) (hn : heap.nodes node = none)
    (item : α) : ∃ heap', exec (aodbmListPushFront l node item) heap = .ok ((), heap') ∧
      Owns heap' (Function.update seqs l (some ((node, item) :: xs))) := by
  have hlinked := ho.linked hl
  have hfront : Linked heap l ([] ++ xs) := hlinked
  exact ⟨_, exec_pushFront hlinked hn, ho.change hl (hfront.splice hn item)⟩

/-- The first item leaves its list, if there is one. -/
theorem Owns.popFront (ho : Owns heap seqs) (hl : seqs l = some xs) :
    ∃ heap', exec (aodbmListPopFront l) heap = .ok (xs.head?.map Prod.snd, heap') ∧
      Owns heap' (Function.update seqs l (some xs.tail)) := by
  have hlinked := ho.linked hl
  cases xs with
  | nil =>
    refine ⟨heap, by simp [aodbmListPopFront, run_bind, hlinked.header], ?_⟩
    rwa [List.tail_nil, Function.update_eq_self_iff.mpr hl.symm]
  | cons x xs =>
    have hfront : Linked heap l ([] ++ x :: xs) := hlinked
    exact ⟨_, exec_popFront hlinked, ho.change hl hfront.unlink⟩

/-- The last item leaves its list, if there is one. -/
theorem Owns.popBack (ho : Owns heap seqs) (hl : seqs l = some xs) :
    ∃ heap', exec (aodbmListPopBack l) heap = .ok (xs.getLast?.map Prod.snd, heap') ∧
      Owns heap' (Function.update seqs l (some xs.dropLast)) := by
  have hlinked := ho.linked hl
  obtain rfl | ⟨xs, x, rfl⟩ := xs.eq_nil_or_concat'
  · refine ⟨heap, by simp [aodbmListPopBack, run_bind, hlinked.header], ?_⟩
    rwa [List.dropLast_nil, Function.update_eq_self_iff.mpr hl.symm]
  · have hs := hlinked.unlink
    rw [List.append_nil] at hs
    refine ⟨_, by simpa using exec_popBack hlinked, ?_⟩
    rw [List.dropLast_concat]
    exact ho.change hl hs

/-- An item behind a node that is not the last one of its list. -/
theorem Owns.insert (ho : Owns heap seqs) (hl : seqs l = some (xs ++ x :: y :: ys))
    (hn : heap.nodes node = none) (item : α) :
    ∃ heap', exec (aodbmListInsert ⟨some x.1, l⟩ node item) heap = .ok ((), heap') ∧
      Owns heap' (Function.update seqs l (some (xs ++ x :: (node, item) :: y :: ys))) := by
  have hlinked := ho.linked hl
  have hmid : Linked heap l ((xs ++ [x]) ++ y :: ys) := by simpa using hlinked
  have hs := hmid.splice hn item
  refine ⟨_, exec_insert hlinked hn, ?_⟩
  simpa using ho.change hl (by simpa using hs)

/-- The node that an iterator stands on leaves its list. -/
theorem Owns.remove (ho : Owns heap seqs) (hl : seqs l = some (xs ++ x :: ys)) :
    ∃ it heap', exec (aodbmListRemove ⟨some x.1, l⟩) heap = .ok (it, heap') ∧
      Owns heap' (Function.update seqs l (some (xs ++ ys))) :=
  have hlinked := ho.linked hl
  ⟨_, _, exec_remove hlinked, ho.change hl hlinked.unlink⟩

/-- Two lists become one. -/
theorem Owns.merge {a b : Ptr} (ho : Owns heap seqs) (hab : a ≠ b) (ha : seqs a = some xs)
    (hb : seqs b = some ys) :
    Owns ⟨joined heap.nodes xs ys, Function.update (Function.update heap.lists a
        (some ⟨first (xs ++ ys) none, last (xs ++ ys) none, (xs ++ ys).length⟩)) b none⟩
      (Function.update (Function.update seqs a (some (xs ++ ys))) b none) := by
  have hla := ho.linked ha
  have hlb := ho.linked hb
  have hdisj := ho.apart hab ha hb
  have hnd : (addrs (xs ++ ys)).Nodup := by
    rw [addrs_append, List.nodup_append]
    exact ⟨hla.nodup, hlb.nodup, fun p hp q hq h => hdisj p hp (h ▸ hq)⟩
  constructor
  · intro m zs hzs
    by_cases hmb : m = b
    · rw [hmb, Function.update_self] at hzs
      cases hzs
    · rw [Function.update_of_ne hmb] at hzs
      rcases eq_or_ne m a with rfl | hma
      · rw [Function.update_self] at hzs
        cases hzs
        refine ⟨?_, hla.chain.join hlb.chain hnd, hnd⟩
        exact (Function.update_of_ne hmb ..).trans (Function.update_self ..)
      · rw [Function.update_of_ne hma] at hzs
        refine (ho.linked hzs).frame ?_ fun p hp => joined_of_ne ?_ ?_
        · exact (Function.update_of_ne hmb ..).trans (Function.update_of_ne hma ..)
        · exact fun h => ho.apart hma hzs ha p hp (last_mem h)
        · exact fun h => ho.apart hmb hzs hb p hp (first_mem h)
  · intro m m' zs zs' hne hzs hzs' p hp hp'
    -- the lists there are now: the joined one, and those that are neither `a` nor `b`
    have sub : ∀ {m zs},
        Function.update (Function.update seqs a (some (xs ++ ys))) b none m = some zs →
        m ≠ b ∧ (m = a ∧ zs = xs ++ ys ∨ m ≠ a ∧ seqs m = some zs) := by
      intro m zs h
      by_cases hmb : m = b
      · rw [hmb, Function.update_self] at h
        cases h
      · rw [Function.update_of_ne hmb] at h
        refine ⟨hmb, ?_⟩
        by_cases hma : m = a
        · rw [hma, Function.update_self] at h
          cases h
          exact Or.inl ⟨hma, rfl⟩
        · rw [Function.update_of_ne hma] at h
          exact Or.inr ⟨hma, h⟩
    -- the nodes of the joined list are no other list's
    have clash : ∀ {m zs}, m ≠ b → m ≠ a → seqs m = some zs → p ∈ addrs zs →
        p ∉ addrs (xs ++ ys) := by
      intro m zs hmb hma h hp
      rw [addrs_append, List.mem_append, not_or]
      exact ⟨ho.apart hma h ha p hp, ho.apart hmb h hb p hp⟩
    obtain ⟨hmb, hm⟩ := sub hzs
    obtain ⟨hmb', hm'⟩ := sub hzs'
    rcases hm with ⟨hma, rfl⟩ | ⟨hma, hm⟩ <;> rcases hm' with ⟨hma', rfl⟩ | ⟨hma', hm'⟩
    · exact hne (hma.trans hma'.symm)
    · exact clash hmb' hma' hm' hp' hp
    · exact clash hmb hma hm hp hp'
    · exact ho.apart hne hm hm' p hp hp'

/-! ## Calls -/

inductive ListCall (α : Type) where
  | empty (list : Ptr)
  | pushFront (list node : Ptr) (item : α)
  | pushBack (list node : Ptr) (item : α)
  | popFront (list : Ptr)
  | popBack (list : Ptr)
  | merge (a b : Ptr)
  | insert (it : ListIterator) (node : Ptr) (item : α)
  | remove (it : ListIterator)

/-- The call, with the item it returns. -/
def ListCall.op : ListCall α → ListOp α (Option α)
  | .empty l => do
    aodbmListEmpty l
    pure none
  | .pushFront l node item => do
    aodbmListPushFront l node item
    pure none
  | .pushBack l node item => do
    aodbmListPushBack l node item
    pure none
  | .popFront l => aodbmListPopFront l
  | .popBack l => aodbmListPopBack l
  | .merge a b => do
    let _ ← aodbmListMergeDi a b
    pure none
  | .insert it node item => do
    aodbmListInsert it node item
    pure none
  | .remove it => do
    let _ ← aodbmListRemove it
    pure none

/-- Lists that exist, free addresses for new nodes and lists, two distinct lists to merge,
and iterators on a node of their list or finished. -/
def ListCall.Valid (heap : Heap α) (seqs : Seqs α) : ListCall α → Prop
  | .empty l => seqs l = none
  | .pushFront l node _ | .pushBack l node _ => seqs l ≠ none ∧ heap.nodes node = none
  | .popFront l | .popBack l => seqs l ≠ none
  | .merge a b => a ≠ b ∧ seqs a ≠ none ∧ seqs b ≠ none
  | .insert it node _ => heap.nodes node = none ∧ ∃ xs, seqs it.list = some xs ∧
    match it.cur with
    | some p => p ∈ addrs xs
    | none => xs = []
  | .remove it => ∃ xs, seqs it.list = some xs ∧
    match it.cur with
    | some p => p ∈ addrs xs
    | none => True

/-- The sequence with `y` just after the node at `p`. -/
def insertAfter (p : Ptr) (y : Ptr × α) : List (Ptr × α) → List (Ptr × α)
  | [] => []
  | x :: xs => if x.1 = p then x :: y :: xs else x :: insertAfter p y xs

/-- The sequences after the call, as its name says. -/
def ListCall.after (seqs : Seqs α) : ListCall α → Seqs α
  | .empty l => Function.update seqs l (some [])
  | .pushFront l node item => Function.update seqs l ((seqs l).map fun xs => (node, item) :: xs)
  | .pushBack l node item => Function.update seqs l ((seqs l).map fun xs => xs ++ [(node, item)])
  | .popFront l => Function.update seqs l ((seqs l).map List.tail)
  | .popBack l => Function.update seqs l ((seqs l).map List.dropLast)
  | .merge a b => Function.update (Function.update seqs a
      ((seqs a).map fun xs => xs ++ (seqs b).getD [])) b none
  | .insert it node item => Function.update seqs it.list ((seqs it.list).map fun xs =>
    match it.cur with
    | some p => insertAfter p (node, item) xs
    | none => [(node, item)])
  | .remove it => Function.update seqs it.list ((seqs it.list).map fun xs =>
    match it.cur with
    | some p => xs.filter fun x => x.1 ≠ p
    | none => xs)

/-- The item that the call returns. -/
def ListCall.result (seqs : Seqs α) : ListCall α → Option α
  | .popFront l => (seqs l).bind fun xs => xs.head?.map Prod.snd
  | .popBack l => (seqs l).bind fun xs => xs.getLast?.map Prod.snd
  | _ => none

/-- An item is inserted behind the last node of a list. -/
def ListCall.InsertsLast (seqs : Seqs α) : ListCall α → Prop
  | .insert it _ _ => ∃ xs, seqs it.list = some xs ∧ it.cur ≠ none ∧ it.cur = last xs none
  | _ => False

theorem insertAfter_append (y : Ptr × α) (hd : (addrs (xs ++ x :: ys)).Nodup) :
    insertAfter x.1 y (xs ++ x :: ys) = xs ++ x :: y :: ys := by
  induction xs with
  | nil => simp [insertAfter]
  | cons z xs ih =>
    rw [List.cons_append, addrs_cons, List.nodup_cons] at hd
    have hne : z.1 ≠ x.1 := fun h => hd.1 (by simp [h])
    rw [List.cons_append, insertAfter, if_neg hne, ih hd.2]
    rfl

theorem filter_append_cons (hd : (addrs (xs ++ x :: ys)).Nodup) :
    (xs ++ x :: ys).filter (fun z => z.1 ≠ x.1) = xs ++ ys := by
  rw [addrs_append, addrs_cons, List.perm_middle.nodup_iff, ← addrs_append, List.nodup_cons] at hd
  have hkeep : ∀ z ∈ xs ++ ys, z.1 ≠ x.1 := fun z hz h => hd.1 (h ▸ List.mem_map_of_mem hz)
  rw [List.filter_append, List.filter_cons_of_neg (by simp), ← List.filter_append,
    List.filter_eq_self]
  exact fun z hz => by simpa using hkeep z hz

/-- A call that does not insert behind the last node does what its name says. -/
theorem Owns.call (ho : Owns heap seqs) {c : ListCall α} (hc : c.Valid heap seqs)
    (hlast : ¬ c.InsertsLast seqs) :
    ∃ heap', exec c.op heap = .ok (c.result seqs, heap') ∧ Owns heap' (c.after seqs) := by
  cases c with
  | empty l => exact ⟨_, rfl, ho.newList hc⟩
  | pushFront l node item =>
    obtain ⟨hl, hn⟩ := hc
    obtain ⟨xs, hxs⟩ := Option.ne_none_iff_exists'.mp hl
    obtain ⟨heap', hrun, howns⟩ := ho.pushFront hxs hn item
    refine ⟨heap', run_bind_ok hrun, ?_⟩
    rwa [ListCall.after, hxs]
  | pushBack l node item =>
    obtain ⟨hl, hn⟩ := hc
    obtain ⟨xs, hxs⟩ := Option.ne_none_iff_exists'.mp hl
    obtain ⟨heap', hrun, howns⟩ := ho.pushBack hxs hn item
    refine ⟨heap', run_bind_ok hrun, ?_⟩
    rwa [ListCall.after, hxs]
  | popFront l =>
    obtain ⟨xs, hxs⟩ := Option.ne_none_iff_exists'.mp hc
    rw [ListCall.after, ListCall.result, hxs]
    exact ho.popFront hxs
  | popBack l =>
    obtain ⟨xs, hxs⟩ := Option.ne_none_iff_exists'.mp hc
    rw [ListCall.after, ListCall.result, hxs]
    exact ho.popBack hxs
  | merge a b =>
    obtain ⟨hab, ha, hb⟩ := hc
    obtain ⟨xs, hxs⟩ := Option.ne_none_iff_exists'.mp ha
    obtain ⟨ys, hys⟩ := Option.ne_none_iff_exists'.mp hb
    have hexec := exec_merge (ho.linked hxs) (ho.linked hys) (ho.apart hab hxs hys)
    refine ⟨_, run_bind_ok hexec, ?_⟩
    rw [ListCall.after, hxs, hys]
    exact ho.merge hab hxs hys
  | insert it node item =>
    obtain ⟨hn, xs, hxs, hit⟩ := hc
    obtain ⟨cur, l⟩ := it
    rw [ListCall.after, hxs, Option.map_some]
    cases cur with
    | none =>
      simp only at hit
      subst hit
      have hlinked := ho.linked hxs
      have hempty : Linked heap l ([] ++ []) := hlinked
      exact ⟨_, run_bind_ok (exec_insert_empty hlinked), ho.change hxs (hempty.splice hn item)⟩
    | some p =>
      obtain ⟨x, hx, rfl⟩ := List.mem_map.mp hit
      obtain ⟨xs, ys, rfl⟩ := List.append_of_mem hx
      -- behind the last node the code loses the new one; here another node follows
      obtain ⟨y, ys, rfl⟩ : ∃ y zs, ys = y :: zs := by
        refine List.exists_cons_of_ne_nil fun h => hlast ⟨_, hxs, by simp, by simp [h]⟩
      obtain ⟨heap', hrun, howns⟩ := ho.insert hxs hn item
      refine ⟨heap', run_bind_ok hrun, ?_⟩
      simp only [insertAfter_append _ (ho.linked hxs).nodup]
      exact howns
  | remove it =>
    obtain ⟨xs, hxs, hit⟩ := hc
    obtain ⟨cur, l⟩ := it
    rw [ListCall.after, hxs, Option.map_some]
    cases cur with
    | none =>
      refine ⟨heap, rfl, ?_⟩
      rwa [Function.update_eq_self_iff.mpr hxs.symm]
    | some p =>
      obtain ⟨x, hx, rfl⟩ := List.mem_map.mp hit
      obtain ⟨xs, ys, rfl⟩ := List.append_of_mem hx
      obtain ⟨it, heap', hrun, howns⟩ := ho.remove hxs
      refine ⟨heap', run_bind_ok hrun, ?_⟩
      simp only [filter_append_cons (ho.linked hxs).nodup]
      exact howns

/-! ## What a list gives back -/

/-- Walks from the two ends find the nodes of `xs`, in opposite orders; the length and the
two ends of the header are those of `xs`. -/
def Represents (heap : Heap α) (l : Ptr) (xs : List (Ptr × α)) : Prop :=
  ∃ hd, heap.lists l = some hd ∧ hd.len = xs.length ∧
    (hd.head = none ↔ xs = []) ∧ (hd.tail = none ↔ xs = []) ∧
    ∀ k, xs.length ≤ k → follow Cell.next heap.nodes k hd.head = xs ∧
      follow Cell.prev heap.nodes k hd.tail = xs.reverse

def repeatOp {β : Type} (p : ListOp α β) : Nat → ListOp α (List β)
  | 0 => pure []
  | n + 1 => do
    let x ← p
    let xs ← repeatOp p n
    pure (x :: xs)

/-- The loop over a list with an iterator, as `aodbm_apply` has it. -/
def iterate (move : ListIterator → ListOp α ListIterator) : Nat → ListIterator → ListOp α (List α)
  | 0, _ => pure []
  | n + 1, it =>
    if aodbmListIteratorIsFinished it then pure []
    else do
      let x ← aodbmListIteratorGet it
      let it ← move it
      let xs ← iterate move n it
      pure (x :: xs)

/-- Pops from either end and iterations in either direction give the items once each. -/
structure Serves (heap : Heap α) (l : Ptr) (items : List α) : Prop where
  popFront : ∀ n, ∃ heap', exec (repeatOp (aodbmListPopFront l) (items.length + n)) heap =
    .ok (items.map some ++ List.replicate n none, heap')
  popBack : ∀ n, ∃ heap', exec (repeatOp (aodbmListPopBack l) (items.length + n)) heap =
    .ok (items.reverse.map some ++ List.replicate n none, heap')
  forward : ∀ n, items.length ≤ n → exec (do
    let it ← aodbmListBegin l
    iterate aodbmListIteratorNext n it) heap = .ok (items, heap)
  backward : ∀ n, items.length ≤ n → exec (do
    let it ← aodbmListBack l
    iterate aodbmListIteratorPrev n it) heap = .ok (items.reverse, heap)

theorem Linked.represents (hl : Linked heap l xs) : Represents heap l xs :=
  ⟨_, hl.header, rfl, first_eq_none, last_eq_none, fun _ hk =>
    ⟨hl.chain.follow_next hk, hl.chain.follow_prev hk⟩⟩

theorem exec_pops_empty {p : ListOp α (Option α)} (hp : exec p heap = .ok (none, heap)) (n : Nat) :
    exec (repeatOp p n) heap = .ok (List.replicate n none, heap) := by
  induction n with
  | zero => rfl
  | succ n ih =>
    rw [repeatOp, exec, run_bind_ok hp, run_bind_ok ih]
    rfl

theorem Linked.popsFront (hl : Linked heap l xs) (n : Nat) :
    ∃ heap', exec (repeatOp (aodbmListPopFront l) (xs.length + n)) heap =
      .ok ((xs.map Prod.snd).map some ++ List.replicate n none, heap') := by
  induction xs generalizing heap with
  | nil =>
    have hpop : exec (aodbmListPopFront l) heap = .ok (none, heap) := by
      simp [aodbmListPopFront, run_bind, hl.header]
    exact ⟨heap, by simpa using exec_pops_empty hpop n⟩
  | cons x xs ih =>
    have hfront : Linked heap l ([] ++ x :: xs) := hl
    obtain ⟨heap', hrest⟩ := ih hfront.unlink.linked
    refine ⟨heap', ?_⟩
    rw [List.length_cons, Nat.add_right_comm, repeatOp, exec, run_bind_ok (exec_popFront hl)]
    rw [exec] at hrest
    exact run_bind_ok hrest

theorem Linked.popsBack (hl : Linked heap l xs) (n : Nat) :
    ∃ heap', exec (repeatOp (aodbmListPopBack l) (xs.length + n)) heap =
      .ok ((xs.map Prod.snd).reverse.map some ++ List.replicate n none, heap') := by
  induction xs using List.reverseRecOn generalizing heap with
  | nil =>
    have hpop : exec (aodbmListPopBack l) heap = .ok (none, heap) := by
      simp [aodbmListPopBack, run_bind, hl.header]
    exact ⟨heap, by simpa using exec_pops_empty hpop n⟩
  | append_singleton xs x ih =>
    have hs := hl.unlink
    simp only [List.append_nil] at hs
    obtain ⟨heap', hrest⟩ := ih hs.linked
    refine ⟨heap', ?_⟩
    rw [List.length_append, List.length_singleton, Nat.add_right_comm, repeatOp, exec,
      run_bind_ok (exec_popBack hl)]
    rw [exec] at hrest
    rw [run_bind_ok hrest]
    simp

theorem Chain.forward {start : Option Ptr} (hc : Chain heap.nodes start none xs) {k : Nat}
    (hk : xs.length ≤ k) : exec (iterate aodbmListIteratorNext k ⟨first xs none, l⟩) heap =
      .ok (xs.map Prod.snd, heap) := by
  induction xs generalizing start k with
  | nil => cases k <;> rfl
  | cons x xs ih =>
    obtain ⟨hx, hxs⟩ := hc
    cases k with
    | zero => cases hk
    | succ k =>
      have hrest := ih hxs (Nat.le_of_succ_le_succ hk)
      rw [exec] at hrest
      simp [iterate, aodbmListIteratorIsFinished, aodbmListIteratorGet, aodbmListIteratorNext,
        run_bind, run_map, hx, hrest]

theorem Chain.backward {stop : Option Ptr} (hc : Chain heap.nodes none stop xs) {k : Nat}
    (hk : xs.length ≤ k) : exec (iterate aodbmListIteratorPrev k ⟨last xs none, l⟩) heap =
      .ok ((xs.map Prod.snd).reverse, heap) := by
  induction xs using List.reverseRecOn generalizing stop k with
  | nil => cases k <;> rfl
  | append_singleton xs x ih =>
    obtain ⟨hxs, hx, -⟩ := chain_append.mp hc
    rw [List.length_append, List.length_singleton] at hk
    cases k with
    | zero => cases hk
    | succ k =>
      have hrest := ih hxs (Nat.le_of_succ_le_succ hk)
      rw [exec] at hrest
      simp [iterate, aodbmListIteratorIsFinished, aodbmListIteratorGet, aodbmListIteratorPrev,
        run_bind, run_map, hx, hrest]

theorem Linked.serves (hl : Linked heap l xs) : Serves heap l (xs.map Prod.snd) where
  popFront n := by simpa using hl.popsFront n
  popBack n := by simpa using hl.popsBack n
  forward n hn := by
    have hbegin : exec (aodbmListBegin l) heap = .ok (⟨first xs none, l⟩, heap) := by
      simp [aodbmListBegin, run_map, hl.header]
    rw [exec, run_bind_ok hbegin]
    exact Chain.forward hl.chain (by simpa using hn)
  backward n hn := by
    have hback : exec (aodbmListBack l) heap = .ok (⟨last xs none, l⟩, heap) := by
      simp [aodbmListBack, run_map, hl.header]
    rw [exec, run_bind_ok hback]
    exact Chain.backward hl.chain (by simpa using hn)

/-! ## Runs -/

/-- A heap and the sequences that its lists are to stand for. -/
structure Lists (α : Type) where
  heap : Heap α
  seqs : Seqs α

def Lists.init : Lists α := ⟨Heap.empty, fun _ => none⟩

/-- A call that does not insert behind the last node of a list. -/
inductive ListStep : Lists α → Lists α → Prop
  | call {w : Lists α} {c : ListCall α} {r : Option α} {heap : Heap α}
      (valid : c.Valid w.heap w.seqs) (inside : ¬ c.InsertsLast w.seqs)
      (run : exec c.op w.heap = .ok (r, heap)) : ListStep w ⟨heap, c.after w.seqs⟩

/-- The call changes the lists and returns an item as its name says. -/
def ListCall.Faithful (w : Lists α) (c : ListCall α) : Prop :=
  ∃ heap, exec c.op w.heap = .ok (c.result w.seqs, heap) ∧
    ∀ l xs, c.after w.seqs l = some xs → Represents heap l xs

variable {w : Lists α}

theorem owns_of_run (hw : Relation.ReflTransGen ListStep Lists.init w) : Owns w.heap w.seqs := by
  induction hw with
  | refl => exact Owns.empty
  | tail _ hstep ih =>
    obtain ⟨valid, inside, run⟩ := hstep
    obtain ⟨heap', hrun, howns⟩ := ih.call valid inside
    rw [run] at hrun
    cases hrun
    exact howns

/-- A node inserted behind the last one is not found from the tail. -/
theorem Owns.insertsLast (ho : Owns heap seqs) {it : ListIterator} (hn : heap.nodes node = none)
    (hc : (ListCall.insert it node item).InsertsLast seqs) :
    ¬ (ListCall.insert it node item).Faithful ⟨heap, seqs⟩ := by
  rintro ⟨heap', hrun, hrep⟩
  obtain ⟨xs, hxs, hcur, hlast⟩ := hc
  obtain ⟨cur, l⟩ := it
  simp only at hxs hcur hlast
  subst hlast
  have hlinked := ho.linked hxs
  obtain rfl | ⟨xs, x, rfl⟩ := xs.eq_nil_or_concat'
  · exact hcur rfl
  · rw [last_append, last_cons, last_nil, ListCall.op, exec,
      run_bind_ok (exec_insert hlinked hn)] at hrun
    cases hrun
    obtain ⟨hd, hhd, -, -, -, hwalk⟩ := hrep l (xs ++ [x, (node, item)]) (by
      simp [ListCall.after, hxs, insertAfter_append _ hlinked.nodup])
    have hsame : (Function.update heap.lists l _) l = some hd := hhd
    rw [Function.update_self] at hsame
    cases hsame
    -- from the old tail the walk finds the old nodes only
    have hlinked' : Linked heap l ((xs ++ [x]) ++ []) := by rwa [List.append_nil]
    have hchain := (chain_append.mp (hlinked'.splice hn item).linked.chain).1
    have hback := (hwalk _ (Nat.le_refl _)).2
    have hold := hchain.follow_prev (k := (xs ++ [x, (node, item)]).length) (by simp)
    simp only [last_append, last_cons, last_nil, with_nodes] at hback hold
    have := congrArg List.length (hold.symm.trans hback)
    simp at this

/-- Every list that was reached stands for its sequence and serves it, and a valid call does
what its name says exactly when it does not insert behind the last node. -/
theorem list_represents (hw : Relation.ReflTransGen ListStep Lists.init w) :
    (∀ l xs, w.seqs l = some xs → Represents w.heap l xs ∧ Serves w.heap l (xs.map Prod.snd)) ∧
      ∀ c : ListCall α, c.Valid w.heap w.seqs → (c.Faithful w ↔ ¬ c.InsertsLast w.seqs) := by
  have ho := owns_of_run hw
  refine ⟨fun l xs hxs => ⟨(ho.linked hxs).represents, (ho.linked hxs).serves⟩, fun c hc => ?_⟩
  constructor
  · intro hfaithful hlast
    cases c with
    | insert it node item => exact ho.insertsLast hc.1 hlast hfaithful
    | _ => exact hlast
  · intro hinside
    obtain ⟨heap', hrun, howns⟩ := ho.call hc hinside
    exact ⟨heap', hrun, fun l xs hxs => (howns.linked hxs).represents⟩

/-- A list with the item 10 in a node at address 1. -/
theorem exists_oneItem : ∃ w : Lists Nat, Relation.ReflTransGen ListStep Lists.init w ∧
    w.seqs 0 = some [(1, 10)] ∧ w.heap.nodes 2 = none := by
  have h₁ : ListStep (Lists.init : Lists Nat) _ :=
    .call (c := .empty 0) rfl id rfl
  refine ⟨_, (Relation.ReflTransGen.single h₁).tail
    (.call (c := .pushBack 0 1 10) ⟨by decide, rfl⟩ id rfl), rfl, rfl⟩

/-- Another item can be pushed to this list, and it cannot be inserted behind the first. -/
theorem list_represents_oneItem : ∃ w : Lists Nat, Represents w.heap 0 [(1, 10)] ∧
    (ListCall.pushBack 0 2 20).Faithful w ∧ ¬ (ListCall.insert ⟨some 1, 0⟩ 2 20).Faithful w := by
  obtain ⟨w, hw, hseqs, hfree⟩ := exists_oneItem
  obtain ⟨hlists, hcalls⟩ := list_represents hw
  refine ⟨w, (hlists 0 _ hseqs).1, ?_, fun h => ?_⟩
  · exact (hcalls (.pushBack 0 2 20) ⟨by simp [hseqs], hfree⟩).mpr id
  · exact (hcalls (.insert ⟨some 1, 0⟩ 2 20) ⟨hfree, _, hseqs, List.mem_cons_self⟩).mp h
      ⟨_, hseqs, by simp, rfl⟩

/-- An item inserted behind the only one: the list has length 2, it does not stand for any
sequence, and the new item is never popped from its end. -/
theorem insert_last_lost : ∃ heap : Heap Nat,
    exec (do
      aodbmListEmpty 0
      aodbmListPushBack 0 1 10
      let it ← aodbmListBegin 0
      aodbmListInsert it 2 20) Heap.empty = .ok ((), heap) ∧
    (∀ xs, ¬ Represents heap 0 xs) ∧
    (exec (repeatOp (aodbmListPopBack 0) 2) heap).map Prod.fst = .ok [some 10, none] := by
  refine ⟨_, rfl, ?_, rfl⟩
  rintro xs ⟨hd, hhd, hlen, -, -, hwalk⟩
  cases hhd
  have hlen : 2 = xs.length := hlen
  have hback := congrArg List.length (hwalk 2 (Nat.le_of_eq hlen.symm)).2
  have hone : 1 = xs.length := hback.trans List.length_reverse
  omega

end Aodbm
