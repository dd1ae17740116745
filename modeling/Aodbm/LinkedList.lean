import Aodbm.Lib.Chains
import Aodbm.Lib.Program

/-!
# Linked lists (`aodbm_list.c`)

The list functions as programs on a heap of nodes and list headers. `malloc` may return
any address that is not in use, so the address of a new node is an argument.
-/

namespace Aodbm

open Effects Chains

/-- An address. `NULL` is `none` of an optional address. -/
abbrev Ptr := Nat

/-- `list_node`. -/
abbrev ListNode (α : Type) := Cell Ptr α

/-- `aodbm_list`. -/
structure AodbmList where
  head : Option Ptr
  tail : Option Ptr
  len : Nat
deriving DecidableEq

/-- `aodbm_list_iterator`. -/
structure ListIterator where
  cur : Option Ptr
  list : Ptr
deriving DecidableEq

structure Heap (α : Type) where
  nodes : Cells Ptr α
  lists : Ptr → Option AodbmList

inductive ListErr where
  /-- `NULL` or an address that is not in use is followed. -/
  | badPointer
  /-- "unknown location" -/
  | unknownLocation
deriving DecidableEq

inductive ListEff (α : Type) where
  | newNode (p : Ptr) (item : α)
  | freeNode (p : Ptr)
  | getNode (p : Ptr)
  | setNext (p : Ptr) (n : Option Ptr)
  | setPrev (p : Ptr) (n : Option Ptr)
  | newList (l : Ptr)
  | freeList (l : Ptr)
  | getList (l : Ptr)
  | setHead (l : Ptr) (n : Option Ptr)
  | setTail (l : Ptr) (n : Option Ptr)
  | setLen (l : Ptr) (len : Nat)

@[reducible] def ListEff.Res {α : Type} : ListEff α → Type
  | .getNode _ => ListNode α
  | .getList _ => AodbmList
  | _ => Unit

/-- A function on lists with items in `α`. -/
abbrev ListOp (α β : Type) := Prog (ListEff α) ListEff.Res ListErr β

section Effects
variable {α : Type}

def Heap.empty : Heap α := ⟨fun _ => none, fun _ => none⟩

/-- A field of a list header is written. -/
def Heap.setList (heap : Heap α) (l : Ptr) (f : AodbmList → AodbmList) :
    Except ListErr (Unit × Heap α) :=
  match heap.lists l with
  | some hd => .ok ((), { heap with lists := Function.update heap.lists l (some (f hd)) })
  | none => .error .badPointer

/-- The pointers of a new node are not initialised. Every caller sets them. -/
def Heap.handle : Handler (ListEff α) ListEff.Res ListErr (Heap α)
  | .newNode p item, heap => .ok ((), { heap with nodes := put heap.nodes p ⟨none, none, item⟩ })
  | .freeNode p, heap => .ok ((), { heap with nodes := free heap.nodes p })
  | .getNode p, heap =>
    match heap.nodes p with
    | some c => .ok (c, heap)
    | none => .error .badPointer
  | .setNext p n, heap =>
    match heap.nodes p with
    | some _ => .ok ((), { heap with nodes := linkNext heap.nodes (some p) n })
    | none => .error .badPointer
  | .setPrev p n, heap =>
    match heap.nodes p with
    | some _ => .ok ((), { heap with nodes := linkPrev heap.nodes (some p) n })
    | none => .error .badPointer
  | .newList l, heap =>
    .ok ((), { heap with lists := Function.update heap.lists l (some ⟨none, none, 0⟩) })
  | .freeList l, heap => .ok ((), { heap with lists := Function.update heap.lists l none })
  | .getList l, heap =>
    match heap.lists l with
    | some hd => .ok (hd, heap)
    | none => .error .badPointer
  | .setHead l n, heap => heap.setList l fun hd => { hd with head := n }
  | .setTail l n, heap => heap.setList l fun hd => { hd with tail := n }
  | .setLen l len, heap => heap.setList l fun hd => { hd with len := len }

/-- The meaning of a list function on a heap. -/
abbrev exec {β : Type} (p : ListOp α β) (heap : Heap α) : Except ListErr (β × Heap α) :=
  run Heap.handle p heap

def createListNode (node : Ptr) (item : α) : ListOp α Unit :=
  Prog.perform (ListEff.newNode node item)
def freeNode (p : Ptr) : ListOp α Unit := Prog.perform (ListEff.freeNode p)
def getNode (p : Ptr) : ListOp α (ListNode α) := Prog.perform (ListEff.getNode p)
def setNext (p : Ptr) (n : Option Ptr) : ListOp α Unit := Prog.perform (ListEff.setNext p n)
def setPrev (p : Ptr) (n : Option Ptr) : ListOp α Unit := Prog.perform (ListEff.setPrev p n)
def freeList (l : Ptr) : ListOp α Unit := Prog.perform (ListEff.freeList l)
def getList (l : Ptr) : ListOp α AodbmList := Prog.perform (ListEff.getList l)
def setHead (l : Ptr) (n : Option Ptr) : ListOp α Unit := Prog.perform (ListEff.setHead l n)
def setTail (l : Ptr) (n : Option Ptr) : ListOp α Unit := Prog.perform (ListEff.setTail l n)

/-- `list->len += n` -/
def addLen (l : Ptr) (n : Nat) : ListOp α Unit := do
  let hd ← getList l
  Prog.perform (ListEff.setLen l (hd.len + n))

/-- `list->len -= 1` -/
def decLen (l : Ptr) : ListOp α Unit := do
  let hd ← getList l
  Prog.perform (ListEff.setLen l (hd.len - 1))

end Effects

/-! ## The functions -/

section Functions
variable {α : Type}

def aodbmListEmpty (list : Ptr) : ListOp α Unit := Prog.perform (ListEff.newList list)

/-- The first node of an empty list. -/
def setOnly (list node : Ptr) : ListOp α Unit := do
  setNext node none
  setPrev node none
  setHead list (some node)
  setTail list (some node)

def aodbmListPushFront (list node : Ptr) (item : α) : ListOp α Unit := do
  createListNode node item
  let l ← getList list
  let _ ← match l.head with
    | none => setOnly list node
    | some head => do
      setPrev head (some node)
      setNext node (some head)
      setPrev node none
      setHead list (some node)
  addLen list 1

def aodbmListPushBack (list node : Ptr) (item : α) : ListOp α Unit := do
  createListNode node item
  let l ← getList list
  let _ ← match l.head, l.tail with
    | none, _ => setOnly list node
    | some _, none => Prog.fail .badPointer
    | some _, some tail => do
      setNext tail (some node)
      setPrev node (some tail)
      setNext node none
      setTail list (some node)
  addLen list 1

/-- `none` is the `NULL` of an empty list. -/
def aodbmListPopFront (list : Ptr) : ListOp α (Option α) := do
  let l ← getList list
  match l.head with
  | none => pure none
  | some head => do
    let node ← getNode head
    setHead list node.next
    let _ ← match node.next with
      | some next => setPrev next none
      | none => setTail list none
    freeNode head
    decLen list
    pure (some node.item)

def aodbmListPopBack (list : Ptr) : ListOp α (Option α) := do
  let l ← getList list
  match l.tail with
  | none => pure none
  | some tail => do
    let node ← getNode tail
    setTail list node.prev
    let _ ← match node.prev with
      | some prev => setNext prev none
      | none => setHead list none
    freeNode tail
    decLen list
    pure (some node.item)

def aodbmListMergeDi (a b : Ptr) : ListOp α Ptr := do
  let la ← getList a
  let lb ← getList b
  let _ ← match la.tail with
    | some tail => setNext tail lb.head
    | none => pure ()
  let _ ← match lb.head with
    | some head => setPrev head la.tail
    | none => pure ()
  let _ ← match la.head with
    | none => setHead a lb.head
    | some _ => pure ()
  let _ ← match lb.tail with
    | some _ => setTail a lb.tail
    | none => pure ()
  addLen a lb.len
  freeList b
  pure a

def aodbmListBegin (list : Ptr) : ListOp α ListIterator := do
  let l ← getList list
  pure ⟨l.head, list⟩

def aodbmListBack (list : Ptr) : ListOp α ListIterator := do
  let l ← getList list
  pure ⟨l.tail, list⟩

def aodbmListIteratorNext (it : ListIterator) : ListOp α ListIterator :=
  match it.cur with
  | none => pure it
  | some cur => do
    let node ← getNode cur
    pure { it with cur := node.next }

def aodbmListIteratorPrev (it : ListIterator) : ListOp α ListIterator :=
  match it.cur with
  | none => pure it
  | some cur => do
    let node ← getNode cur
    pure { it with cur := node.prev }

def aodbmListIteratorIsFinished (it : ListIterator) : Bool := it.cur.isNone

def aodbmListIteratorGet (it : ListIterator) : ListOp α α :=
  match it.cur with
  | none => Prog.fail .badPointer
  | some cur => do
    let node ← getNode cur
    pure node.item

/-- The tail of the list stays as it is, also when the iterator is on the last node. -/
def aodbmListInsert (it : ListIterator) (node : Ptr) (item : α) : ListOp α Unit := do
  createListNode node item
  let _ ← match it.cur with
    | some cur => do
      let c ← getNode cur
      let _ ← match c.next with
        | some next => setPrev next (some node)
        | none => pure ()
      setNext node c.next
      setPrev node (some cur)
      setNext cur (some node)
    | none => do
      let l ← getList it.list
      match l.head with
      | some _ => Prog.fail .unknownLocation
      | none => do
        setHead it.list (some node)
        setTail it.list (some node)
        setNext node none
        setPrev node none
  addLen it.list 1

def aodbmListRemove (it : ListIterator) : ListOp α ListIterator :=
  match it.cur with
  | none => pure it
  | some cur => do
    let c ← getNode cur
    let _ ← match c.prev with
      | some prev => setNext prev c.next
      | none => setHead it.list c.next
    let _ ← match c.next with
      | some next => setPrev next c.prev
      | none => setTail it.list c.prev
    freeNode cur
    decLen it.list
    pure { it with cur := if c.next.isSome then c.next else c.prev }

end Functions

end Aodbm
