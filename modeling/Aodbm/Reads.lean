import Aodbm.Commit
import Aodbm.Iterate
import Aodbm.Node

/-!
# Functions that only read

`Reads Q p`: all that `p` does to the handle are calls of `aodbm_read`, and whatever bytes
these give, a result of `p` satisfies `Q`.

Results:
1. `Reads.eval`, `Reads.wp`: such a function leaves the handle as it is, under every reading
   of the effects that `aodbm_read` leaves as it is.
2. `reads_setResult`, `reads_delResult`: where the header of a new root stands in the data
   that was built, and which offset is returned for it.
3. `eval_cur`: updates leave the current version as it is.
-/

namespace Aodbm

open Effects Bytes

inductive Reads {α : Type} (Q : α → Prop) : Op α → Prop where
  | pure {a : α} (h : Q a) : Reads Q (.pure a)
  | fail (e : Err) : Reads Q (.fail e)
  | read (off sz : Nat) {f : Data → Op α} (h : ∀ bs, Reads Q (f bs)) :
      Reads Q (aodbmRead off sz >>= f)

section Rules
variable {α β : Type} {Q : α → Prop} {Q' : β → Prop} {p : Op α} {f : α → Op β}

theorem Reads.bind (hp : Reads Q p) (hf : ∀ a, Q a → Reads Q' (f a)) : Reads Q' (p >>= f) := by
  induction hp with
  | pure h => exact hf _ h
  | fail e => exact .fail e
  | read off sz _ ih =>
    rw [Prog.bind_assoc']
    exact .read off sz ih

theorem Reads.mono {Q₁ : α → Prop} (hp : Reads Q p) (hQ : ∀ a, Q a → Q₁ a) : Reads Q₁ p := by
  induction hp with
  | pure h => exact .pure (hQ _ h)
  | fail e => exact .fail e
  | read off sz _ ih => exact .read off sz ih

/-- A sequence whose second part does not care for the value of the first. -/
theorem Reads.then (hp : Reads (fun _ : α => True) p) (hf : ∀ a, Reads Q' (f a)) :
    Reads Q' (p >>= f) :=
  hp.bind fun a _ => hf a

theorem Reads.ite {c : Prop} [Decidable c] {q : Op α} (hp : c → Reads Q p)
    (hq : ¬ c → Reads Q q) : Reads Q (if c then p else q) := by
  split
  · next h => exact hp h
  · next h => exact hq h

theorem reads_read (off sz : Nat) : Reads (fun _ => True) (aodbmRead off sz) := by
  have h : Reads (fun _ => True) (aodbmRead off sz >>= Prog.pure) :=
    .read off sz fun _ => .pure trivial
  rwa [Prog.bind_pure'] at h

/-- Reading changes nothing. -/
theorem Reads.eval (hp : Reads Q p) {db db' : Db} {a : α}
    (hr : Aodbm.eval p db = .ok (a, db')) : db' = db ∧ Q a := by
  induction hp with
  | pure h =>
    cases hr
    exact ⟨rfl, h⟩
  | fail e => cases hr
  | read off sz _ ih =>
    obtain ⟨bs, db₁, hread, hrest⟩ := run_bind_eq_ok.mp hr
    have hsame : db₁ = db := by
      rw [← Aodbm.eval, eval_read_cases] at hread
      split at hread
      · cases hread
        rfl
      · cases hread
    exact ih bs (hsame ▸ hrest)

/-- Under every reading of the effects that `aodbm_read` leaves as it is. -/
theorem Reads.wp {γ : Type} {S : Spec Eff Eff.Res γ} (hS : S.Mono) {g : γ}
    (hread : ∀ off sz, Effects.wp S (aodbmRead off sz) (fun _ g' => g' = g) g)
    (hp : Reads Q p) : Effects.wp S p (fun a g' => Q a ∧ g' = g) g := by
  induction hp with
  | pure h => exact ⟨h, rfl⟩
  | fail e => trivial
  | read off sz _ ih => exact wp_seq hS (hread off sz) fun bs g' hg => hg ▸ ih bs

end Rules

variable (B : Build)

/-- The function only reads. -/
abbrev Reader {α : Type} (p : Op α) : Prop := Reads (fun _ => True) p

theorem reads_readType (node : Nat) : Reader (readType node) :=
  (reads_read _ _).then fun _ => .pure trivial

theorem reads_read32 (off : Nat) : Reader (aodbmRead32 B off) :=
  (reads_read _ _).then fun _ => .pure trivial

theorem reads_read64 (off : Nat) : Reader (aodbmRead64 B off) :=
  (reads_read _ _).then fun _ => .pure trivial

theorem reads_readData (off : Nat) : Reader (aodbmReadData B off) :=
  (reads_read32 B _).then fun _ => reads_read _ _

/-! ## Searches -/

theorem reads_searchLoop (key : Data) (n pos off : Nat) : Reader (searchLoop B key n pos off) := by
  induction n generalizing pos off with
  | zero => exact .pure trivial
  | succ n ih =>
    exact (reads_readData B _).then fun _ => .ite (fun _ => .pure trivial) fun _ =>
      (reads_read64 B _).then fun _ => ih _ _

theorem reads_searchRecursive (key : Data) (depth node : Nat) :
    Reader (aodbmSearchRecursive B key depth node) := by
  induction depth generalizing node with
  | zero => exact .fail _
  | succ depth ih =>
    exact (reads_readType _).then fun _ => .ite (fun _ => .pure trivial) fun _ =>
      .ite (fun _ => (reads_read32 B _).then fun _ => (reads_read64 B _).then fun _ =>
        (reads_searchLoop B key _ _ _).then fun _ => ih _) fun _ => .fail _

theorem reads_search (ver : Nat) (key : Data) : Reader (aodbmSearch B ver key) :=
  .ite (fun _ => .fail _) fun _ => reads_searchRecursive B key _ _

theorem reads_searchPathLoop (key : Data) (n pos off : Nat) (prevKey : Data) :
    Reader (searchPathLoop B key n pos off prevKey) := by
  induction n generalizing pos off prevKey with
  | zero => exact .pure trivial
  | succ n ih =>
    exact (reads_readData B _).then fun _ => .ite (fun _ => .pure trivial) fun _ =>
      (reads_read64 B _).then fun _ => ih _ _ _

theorem reads_searchPathRecursive (key : Data) (depth node : Nat) (nodeKey : Data)
    (path : List PathNode) :
    Reader (aodbmSearchPathRecursive B key depth node nodeKey path) := by
  induction depth generalizing node nodeKey path with
  | zero => exact .fail _
  | succ depth ih =>
    exact .ite (fun _ => (reads_readType _).then fun _ => .ite (fun _ => .pure trivial) fun _ =>
      .ite (fun _ => (reads_read32 B _).then fun _ => (reads_read64 B _).then fun _ =>
        (reads_searchPathLoop B key _ _ _ _).then fun _ => ih _ _ _) fun _ => .fail _)
      fun _ => .fail _

theorem reads_searchPath (ver : Nat) (key : Data) : Reader (aodbmSearchPath B ver key) :=
  .ite (fun _ => .fail _) fun _ => reads_searchPathRecursive B key _ _ _ _

theorem reads_hasLoop (key : Data) (n pos : Nat) : Reader (hasLoop B key n pos) := by
  induction n generalizing pos with
  | zero => exact .pure trivial
  | succ n ih =>
    exact (reads_readData B _).then fun _ => (reads_readData B _).then fun _ =>
      .ite (fun _ => .pure trivial) fun _ => ih _

theorem reads_has (ver : Nat) (key : Data) : Reader (aodbmHas B ver key) :=
  .ite (fun _ => .pure trivial) fun _ => (reads_search B _ _).then fun _ =>
    (reads_read32 B _).then fun _ => reads_hasLoop B key _ _

theorem reads_getLoop (key : Data) (n pos : Nat) : Reader (getLoop B key n pos) := by
  induction n generalizing pos with
  | zero => exact .pure trivial
  | succ n ih =>
    exact (reads_readData B _).then fun _ => (reads_readData B _).then fun _ =>
      .ite (fun _ => .pure trivial) fun _ => ih _

theorem reads_get (ver : Nat) (key : Data) : Reader (aodbmGet B ver key) :=
  .ite (fun _ => .pure trivial) fun _ => (reads_search B _ _).then fun _ =>
    (reads_read32 B _).then fun _ => reads_getLoop B key _ _

theorem reads_isBasedOnRecursive (b depth a : Nat) : Reader (isBasedOnRecursive B b depth a) := by
  induction depth generalizing a with
  | zero => exact .fail _
  | succ depth ih =>
    exact .ite (fun _ => .pure trivial) fun _ => .ite (fun _ => .pure trivial) fun _ =>
      .ite (fun _ => .pure trivial) fun _ => .ite (fun _ => .pure trivial) fun _ =>
        (reads_read64 B _).then fun _ => ih _

theorem reads_isBasedOn (a b : Nat) : Reader (aodbmIsBasedOn B a b) :=
  reads_isBasedOnRecursive B b _ a

/-! ## Iterators -/

theorem reads_constructIterator (depth : Nat) (path : List ItNodeInfo) (node : Nat) :
    Reader (constructIterator B depth path node) := by
  induction depth generalizing path node with
  | zero => exact .fail _
  | succ depth ih =>
    exact (reads_readType _).then fun _ => (reads_read32 B _).then fun _ =>
      .ite (fun _ => .pure trivial) fun _ => .ite (fun _ => (reads_read64 B _).then fun _ => ih _ _)
        fun _ => .fail _

theorem reads_newIterator (ver : Nat) : Reader (aodbmNewIterator B ver) :=
  .ite (fun _ => (reads_constructIterator B _ _ _).then fun _ => .pure trivial)
    fun _ => .pure trivial

theorem reads_gotoLeafLoop (key : Data) (left n pos : Nat) :
    Reader (gotoLeafLoop B key left n pos) := by
  induction left generalizing n pos with
  | zero => exact .pure trivial
  | succ left ih =>
    exact (reads_readData B _).then fun _ => .ite (fun _ => .pure trivial) fun _ =>
      (reads_readData B _).then fun _ => ih _ _

theorem reads_gotoBranchLoop (key : Data) (left n pos off : Nat) :
    Reader (gotoBranchLoop B key left n pos off) := by
  induction left generalizing n pos off with
  | zero => exact .pure trivial
  | succ left ih =>
    exact (reads_readData B _).then fun _ => .ite (fun _ => .pure trivial) fun _ =>
      (reads_read64 B _).then fun _ => ih _ _ _

theorem reads_iteratorGotoRecursive (key : Data) (depth : Nat) (path : List ItNodeInfo)
    (node : Nat) : Reader (iteratorGotoRecursive B key depth path node) := by
  induction depth generalizing path node with
  | zero => exact .fail _
  | succ depth ih =>
    exact (reads_readType _).then fun _ => (reads_read32 B _).then fun _ =>
      .ite (fun _ => (reads_gotoLeafLoop B key _ _ _).then fun _ => .pure trivial) fun _ =>
        .ite (fun _ => (reads_read64 B _).then fun _ =>
          (reads_gotoBranchLoop B key _ _ _ _).then fun _ => ih _ _) fun _ => .fail _

theorem reads_iteratorGoto (it : Iterator) (key : Data) : Reader (aodbmIteratorGoto B it key) :=
  (reads_iteratorGotoRecursive B key _ _ _).then fun _ => .pure trivial

theorem reads_nextLeafLoop (path : List ItNodeInfo) : Reader (nextLeafLoop B path) := by
  induction path with
  | nil => exact .pure trivial
  | cons branch path ih =>
    exact .ite (fun _ => (reads_readData B _).then fun _ => (reads_read64 B _).then fun _ =>
      (reads_constructIterator B _ _ _).then fun _ => .pure trivial) fun _ => ih

theorem reads_nextRecord (leaf : ItNodeInfo) (path : List ItNodeInfo) (ver : Nat) :
    Reader (nextRecord B leaf path ver) :=
  (reads_readData B _).then fun _ => (reads_readData B _).then fun _ => .pure trivial

theorem reads_iteratorNext (it : Iterator) : Reader (aodbmIteratorNext B it) := by
  unfold aodbmIteratorNext
  split
  · exact .pure trivial
  · refine .ite (fun _ => (reads_nextLeafLoop B _).then fun next => ?_) fun _ =>
      reads_nextRecord B _ _ _
    split
    · exact .pure trivial
    · exact .pure trivial
    · exact .pure trivial
    · exact reads_nextRecord B _ _ _

/-! ## The nodes of an update -/

theorem reads_duplicateLoop (n i pos : Nat) (data : Rope) (key1 : Option Data) :
    Reader (duplicateLoop B n i pos data key1) := by
  induction n generalizing i pos data key1 with
  | zero => exact .pure trivial
  | succ n ih =>
    exact (reads_readData B _).then fun _ => (reads_readData B _).then fun _ => ih _ _ _ _

theorem reads_duplicateLeafRange (startPos num : Nat) :
    Reader (duplicateLeafRange B startPos num) :=
  (reads_duplicateLoop B _ _ _ _ _).then fun _ => .pure trivial

theorem reads_insertLoop (key : Data) (iRec : Rope) (n i pos : Nat) (data : Rope)
    (key1 : Option Data) : Reader (insertLoop B key iRec n i pos data key1) := by
  induction n generalizing i pos data key1 with
  | zero => exact .pure trivial
  | succ n ih =>
    exact (reads_readData B _).then fun _ => (reads_readData B _).then fun _ =>
      .ite (fun _ => .pure trivial) fun _ => ih _ _ _ _

theorem reads_insertIntoLeafRange (key val : Data) (startPos num : Nat) (insertEnd : Bool) :
    Reader (insertIntoLeafRange B key val startPos num insertEnd) :=
  (reads_insertLoop B _ _ _ _ _ _ _).then fun _ => .ite
    (fun _ => .ite (fun _ => (reads_duplicateLeafRange B _ _).then fun _ => .pure trivial)
      fun _ => .pure trivial)
    fun _ => .ite (fun _ => .pure trivial) fun _ => .pure trivial

theorem reads_insertIntoLeaf (key val : Data) (pos : Nat) :
    Reader (insertIntoLeaf B key val pos) :=
  (reads_read32 B _).then fun _ => .ite
    (fun _ => (reads_insertIntoLeafRange B _ _ _ _ _).then fun _ => .ite
      (fun _ => (reads_duplicateLeafRange B _ _).then fun _ => .pure trivial)
      fun _ => (reads_insertIntoLeafRange B _ _ _ _ _).then fun _ => .pure trivial)
    fun _ => .ite (fun _ => .pure trivial) fun _ => .ite
      (fun _ => (reads_insertIntoLeafRange B _ _ _ _ _).then fun _ => .pure trivial)
      fun _ => .fail _

theorem reads_removeLoop (key : Data) (n pos : Nat) (removed : Bool) (aKey : Option Data)
    (data : Rope) : Reader (removeLoop B key n pos removed aKey data) := by
  induction n generalizing pos removed aKey data with
  | zero => exact .pure trivial
  | succ n ih =>
    exact (reads_readData B _).then fun _ => (reads_readData B _).then fun _ =>
      .ite (fun _ => ih _ _ _ _) fun _ => ih _ _ _ _

theorem reads_removeFromLeaf (key : Data) (pos : Nat) : Reader (removeFromLeaf B key pos) :=
  (reads_read32 B _).then fun _ => (reads_removeLoop B _ _ _ _ _ _).then fun _ => .pure trivial

theorem reads_modifyLoop (rmA rmB n pos : Nat) (pa pb : Option (Data × Nat))
    (ab : Branch × Branch) : Reader (modifyLoop B rmA rmB n pos pa pb ab) := by
  induction n generalizing pos pa pb ab with
  | zero => exact .pure trivial
  | succ n ih =>
    exact (reads_readData B _).then fun _ => (reads_read64 B _).then fun _ => ih _ _ _ _

theorem reads_modifyBranch (node : Nat) (nodeKey : Data) (nodeA : Nat) (aKey : Option Data)
    (nodeB : Nat) (bKey : Option Data) (rmA rmB : Nat) :
    Reader (modifyBranch B node nodeKey nodeA aKey nodeB bKey rmA rmB) :=
  (reads_read32 B _).then fun _ => (reads_read64 B _).then fun _ =>
    (reads_modifyLoop B _ _ _ _ _ _ _).then fun _ => .pure trivial

theorem reads_deref (node : Option Rope) : Reader (deref node) := by
  cases node with
  | none => exact .fail _
  | some r => exact .pure trivial

/-! ## The root of an update -/

/-- The data that was built ends with the header of a version made from `prev` and a root
node. `low` are the bytes that were placed before the nodes of the last level, `top` those
of the last level when it is not the root. `returned` is the offset that is returned. -/
def RootAt (prev : Nat) (result : RootResult) (returned : Data → Data → Nat) : Prop :=
  ∃ low top root, result.dat = low ++ top ++ (aodbmDataFrom64 B prev ++ root) ∧
    result.root = returned low top

variable {B} in
theorem RootAt.ne_nil {prev : Nat} {result : RootResult} {returned : Data → Data → Nat}
    (h : RootAt B prev result returned) : result.dat ≠ [] := by
  obtain ⟨low, top, root, hdat, -⟩ := h
  intro hnil
  have hlen := congrArg List.length (hdat.symm.trans hnil)
  simp at hlen

theorem reads_constructRoot (prev appendPos : Nat) (data : Rope) (dataSz : Nat)
    (nodes : ModifyResult) :
    Reads (fun result => ∃ top root, result.dat =
        aodbmRopeToData data ++ top ++ (aodbmDataFrom64 B prev ++ root) ∧
        result.root = appendPos + dataSz + top.length)
      (constructRoot B prev appendPos data dataSz nodes) := by
  unfold constructRoot
  split
  · split
    · exact .pure ⟨[], [leafType] ++ aodbmDataFrom32 B 0, by simp, rfl⟩
    · refine Reads.then (reads_deref _) fun a => .pure ⟨[], aodbmRopeToData a, by simp, ?_⟩
      exact Nat.add_comm _ _
  · next bKey _ =>
    refine Reads.then (reads_deref _) fun a => Reads.then (reads_deref _) fun b =>
      .pure ⟨aodbmRopeToData a ++ aodbmRopeToData b, aodbmRopeToData (aodbmBranch B
        (dataSz + appendPos) bKey (dataSz + aodbmRopeSize a + appendPos)), ?_, ?_⟩
    · simp only [toData_merge, toData_prepend, List.append_assoc]
    · simp only [ropeSize_eq, List.length_append]
      omega

/-- The size that `aodbm_set` keeps is that of the data, up to a multiple of `2 ^ 32`. -/
theorem reads_setLoop (appendPos : Nat) (path : List PathNode) (data : Rope) (dataSz : Nat)
    (nodes : ModifyResult) (prevNode : Nat)
    (hsz : dataSz = (aodbmRopeToData data).length % 2 ^ 32) :
    Reads (fun r => r.2.1 = (aodbmRopeToData r.1).length % 2 ^ 32)
      (setLoop B appendPos path data dataSz nodes prevNode) := by
  induction path generalizing data dataSz nodes prevNode with
  | nil => exact .pure hsz
  | cons node path ih =>
    unfold setLoop
    refine Reads.then (reads_deref _) fun a => ?_
    have hmod : ∀ (d c : Rope) (n : Nat), n = (aodbmRopeToData d).length % 2 ^ 32 →
        (n + aodbmRopeSize c) % 2 ^ 32 =
          (aodbmRopeToData (aodbmRopeMerge d c)).length % 2 ^ 32 := by
      intro d c n hn
      rw [toData_merge, List.length_append, ropeSize_eq, hn, Nat.mod_add_mod]
    cases nodes.bNode with
    | none => exact (reads_modifyBranch B _ _ _ _ _ _ _ _).then fun _ => ih _ _ _ _ (hmod _ _ _ hsz)
    | some b =>
      exact (reads_modifyBranch B _ _ _ _ _ _ _ _).then fun _ =>
        ih _ _ _ _ (hmod _ _ _ (hmod _ _ _ hsz))

/-- The size that `aodbm_del` keeps is that of the data. -/
theorem reads_delLoop (appendPos : Nat) (path : List PathNode) (data : Rope) (dataSz : Nat)
    (nodes : ModifyResult) (prevNode : Nat) (hsz : dataSz = (aodbmRopeToData data).length) :
    Reads (fun r => r.2.1 = (aodbmRopeToData r.1).length)
      (delLoop B appendPos path data dataSz nodes prevNode) := by
  induction path generalizing data dataSz nodes prevNode with
  | nil => exact .pure hsz
  | cons node path ih =>
    unfold delLoop
    have hadd : ∀ (d c : Rope) (n : Nat), n = (aodbmRopeToData d).length →
        n + aodbmRopeSize c = (aodbmRopeToData (aodbmRopeMerge d c)).length := by
      intro d c n hn
      rw [toData_merge, List.length_append, ropeSize_eq, hn]
    rcases nodes with ⟨aNode, _ | aKey, _ | bNode, bKey⟩
    · exact (reads_modifyBranch B _ _ _ _ _ _ _ _).then fun _ => ih _ _ _ _ hsz
    · exact (reads_modifyBranch B _ _ _ _ _ _ _ _).then fun _ => ih _ _ _ _ (hadd _ _ _ hsz)
    · exact Reads.then (reads_deref _) fun _ =>
        (reads_modifyBranch B _ _ _ _ _ _ _ _).then fun _ => ih _ _ _ _ (hadd _ _ _ hsz)
    · exact Reads.then (reads_deref _) fun _ => (reads_modifyBranch B _ _ _ _ _ _ _ _).then fun _ =>
        ih _ _ _ _ (hadd _ _ _ (hadd _ _ _ hsz))

/-- `aodbm_set` returns the offset of the header of its root, less a multiple of `2 ^ 32`
when the bytes below the last level are that many. -/
theorem reads_setResult (ver : Nat) (key val : Data) (appendPos : Nat) :
    Reads (fun result => RootAt B ver result fun low top =>
        appendPos + low.length % 2 ^ 32 + top.length)
      (setResult B ver key val appendPos) := by
  unfold setResult
  refine .ite (fun h0 => .pure ⟨[], [], aodbmRopeToData (aodbmLeafNode B key val), ?_, rfl⟩)
    fun _ => (reads_readType _).then fun _ => .ite (fun _ => ?_) fun _ => ?_
  · simp
  · refine (reads_insertIntoLeaf B _ _ _).then fun leaf =>
      (reads_constructRoot B ver appendPos aodbmRopeEmpty 0 leaf).mono ?_
    rintro result ⟨top, root, hdat, hroot⟩
    exact ⟨[], top, root, hdat, hroot⟩
  · refine (reads_searchPath B _ _).then fun path => ?_
    cases path with
    | nil => exact .fail _
    | cons leaf path =>
      refine (reads_insertIntoLeaf B _ _ _).then fun nodes =>
        (reads_setLoop B appendPos path aodbmRopeEmpty 0 nodes leaf.node rfl).bind ?_
      rintro ⟨data, dataSz, nodes⟩ (hsz : dataSz = _)
      refine (reads_constructRoot B ver appendPos data dataSz nodes).mono ?_
      rintro result ⟨top, root, hdat, hroot⟩
      exact ⟨aodbmRopeToData data, top, root, hdat, by rw [hroot, hsz]⟩

/-- `aodbm_del` returns the offset of the header of its root. -/
theorem reads_delResult (ver : Nat) (key : Data) (appendPos : Nat) :
    Reads (fun result => RootAt B ver result fun low top => appendPos + low.length + top.length)
      (delResult B ver key appendPos) := by
  unfold delResult
  refine (reads_readType _).then fun _ => .ite (fun _ => ?_) fun _ => .ite (fun _ => ?_) fun _ =>
    .fail _
  · refine (reads_removeFromLeaf B _ _).then fun leaf =>
      (reads_constructRoot B ver appendPos aodbmRopeEmpty 0 leaf).mono ?_
    rintro result ⟨top, root, hdat, hroot⟩
    exact ⟨[], top, root, hdat, hroot⟩
  · refine (reads_searchPath B _ _).then fun path => ?_
    cases path with
    | nil => exact .fail _
    | cons leaf path =>
      refine (reads_removeFromLeaf B _ _).then fun nodes =>
        (reads_delLoop B appendPos path aodbmRopeEmpty 0 nodes leaf.node rfl).bind ?_
      rintro ⟨data, dataSz, nodes⟩ (hsz : dataSz = _)
      refine (reads_constructRoot B ver appendPos data dataSz nodes).mono ?_
      rintro result ⟨top, root, hdat, hroot⟩
      exact ⟨aodbmRopeToData data, top, root, hdat, by rw [hroot, hsz]⟩

/-! ## The effects of an update -/

/-- An update leaves the current version and its mutex alone. -/
def Eff.OfUpdate : Eff → Prop
  | .lockVersion | .unlockVersion | .getCur | .setCur _ => False
  | _ => True

theorem ofUpdate_read (off sz : Nat) : Only Eff.OfUpdate (aodbmRead off sz) := by
  refine ⟨trivial, fun _ => ⟨trivial, fun bs => ⟨trivial, fun _ => ?_⟩⟩⟩
  cases bs <;> trivial

theorem Reads.ofUpdate {α : Type} {Q : α → Prop} {p : Op α} (hp : Reads Q p) :
    Only Eff.OfUpdate p := by
  induction hp with
  | pure h => trivial
  | fail e => trivial
  | read off sz _ ih => exact only_bind (ofUpdate_read off sz) ih

theorem ofUpdate_writeDataBlock (data : Data) :
    Only Eff.OfUpdate (aodbmWriteDataBlock B data) :=
  only_bind (only_perform trivial) fun _ => only_bind (only_perform trivial) fun _ =>
    only_bind (only_perform trivial) fun _ => only_bind (only_perform trivial) fun _ =>
      only_perform trivial

theorem ofUpdate_set (ver : Nat) (key val : Data) : Only Eff.OfUpdate (aodbmSet B ver key val) :=
  only_bind (only_perform trivial) fun _ => only_bind (only_perform trivial) fun n =>
    only_bind (reads_setResult B ver key val (n + 5)).ofUpdate fun result =>
      only_bind (ofUpdate_writeDataBlock B result.dat) fun _ =>
        only_bind (only_perform trivial) fun _ => trivial

theorem ofUpdate_del (ver : Nat) (key : Data) : Only Eff.OfUpdate (aodbmDel B ver key) := by
  unfold aodbmDel
  split
  · trivial
  · refine only_bind (reads_has B ver key).ofUpdate fun has => ?_
    split
    · trivial
    · exact only_bind (only_perform trivial) fun _ => only_bind (only_perform trivial) fun n =>
        only_bind (reads_delResult B ver key (n + 5)).ofUpdate fun result =>
          only_bind (ofUpdate_writeDataBlock B result.dat) fun _ =>
            only_bind (only_perform trivial) fun _ => trivial

theorem ofUpdate_apply (ver : Nat) (cs : List Change) :
    Only Eff.OfUpdate (aodbmApply B ver cs) := by
  induction cs generalizing ver with
  | nil => trivial
  | cons c cs ih =>
    cases c with
    | modify key val => exact only_bind (ofUpdate_set B ver key val) ih
    | remove key => exact only_bind (ofUpdate_del B ver key) ih

/-- The current version stays the same. -/
theorem eval_cur {α : Type} {p : Op α} (hp : Only Eff.OfUpdate p) {db db' : Db} {a : α}
    (hr : eval p db = .ok (a, db')) : db'.cur = db.cur := by
  refine run_invariant (I := fun d => d.cur = db.cur) ?_ hp hr rfl
  intro e he d r d' hstep hd
  cases e with
  | write bs =>
    simp only [Db.handle] at hstep
    split at hstep
    · cases hstep
      exact hd
    · cases hstep
  | setCur v => exact he.elim
  | _ =>
    cases hstep
    exact hd

end Aodbm
