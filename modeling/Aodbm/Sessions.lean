import Aodbm.Lib.VersionStore
import Aodbm.Snapshots

/-!
# Sessions

A process has the file open, and its clients call the public functions. Iterators are handles
here: a call moves the iterator in place. The stream keeps bytes in its buffer; only those before
the last `fflush` are sure to be in the file, and a process that is killed leaves the file cut
somewhere behind them. The next process opens what is left.

Results:
1. `stream_run`: the buffer makes no difference to what a function does.
2. `Stream.Ok.run`, `flushed_commit`: nothing goes back into the buffer, and a commit that is
   accepted leaves nothing there.
-/

namespace Aodbm

open Effects VersionStores

/-- The handle, and the number of bytes that were there at the last `fflush`. -/
structure Stream where
  db : Db
  flushed : Nat
deriving DecidableEq

/-- The effects on the stream. The system may take bytes out of the buffer at other times, too,
which only makes more of them sure. -/
def Stream.handle : Handler Eff Eff.Res Err Stream
  | .flush, s => .ok ((), { s with flushed := s.db.file.length })
  | e, s => (Db.handle e s.db).map fun r => (r.1, { s with db := r.2 })

/-- A process with its iterators. -/
structure Session where
  stream : Stream
  iters : List Iterator
deriving DecidableEq

namespace Session

abbrev Call := VersionStores.Call Nat Data Data
abbrev Reply := VersionStores.Reply Nat Data Data
abbrev Event := VersionStores.Event Nat Data Data

/-- A process that has just opened the file. -/
def start (db : Db) : Session := ⟨⟨db, db.file.length⟩, []⟩

/-- The function is run, and its result is the reply. -/
def run {α : Type} (s : Session) (p : Op α) (reply : α → Reply) : Except Err (Reply × Session) :=
  (Effects.run Stream.handle p s.stream).map fun r => (reply r.1, { s with stream := r.2 })

/-- The function opens an iterator. -/
def openIterator (s : Session) (p : Op Iterator) : Except Err (Reply × Session) :=
  (Effects.run Stream.handle p s.stream).map fun r =>
    (.cursor s.iters.length, ⟨r.2, s.iters ++ [r.1]⟩)

/-- The function moves the iterator in place. -/
def moveIterator {α : Type} (s : Session) (i : Nat) (p : Iterator → Op (α × Iterator))
    (reply : α → Reply) : Except Err (Reply × Session) :=
  match s.iters[i]? with
  | some it => (Effects.run Stream.handle (p it) s.stream).map fun r =>
      (reply r.1.1, ⟨r.2, s.iters.set i r.1.2⟩)
  | none => .error .nullPointer

variable (B : Build)

/-- A public call. -/
def perform (s : Session) : Call → Except Err (Reply × Session)
  | .set ver key val => s.run (aodbmSet B ver key val) .version
  | .del ver key => s.run (aodbmDel B ver key) .version
  | .get ver key => s.run (aodbmGet B ver key) .value
  | .has ver key => s.run (aodbmHas B ver key) .flag
  | .current => s.run aodbmCurrent .version
  | .commit ver => s.run (aodbmCommit B ver) .flag
  | .isBasedOn a b => s.run (aodbmIsBasedOn B a b) .flag
  | .previousVersion ver => s.run (aodbmPreviousVersion B ver) .version
  | .commonAncestor a b => s.run (aodbmCommonAncestor B a b) .version
  | .newIterator ver => s.openIterator (aodbmNewIterator B ver)
  | .iterateFrom ver key => s.openIterator (aodbmIterateFrom B ver key)
  | .iteratorGoto i key =>
    s.moveIterator i (fun it => Prod.mk () <$> aodbmIteratorGoto B it key) fun _ => .moved
  | .iteratorNext i => s.moveIterator i (aodbmIteratorNext B) .record

/-- The block that the call wrote, if any, has a payload shorter than `2 ^ 32` bytes. -/
def Short (s s' : Session) : Prop :=
  s'.stream.db.file.length < s.stream.db.file.length + (5 + 2 ^ 32)

instance (s s' : Session) : Decidable (s.Short s') := inferInstanceAs (Decidable (_ < _))

/-- A call that returns, or the end of the process and the beginning of the next one. A process
that closes the file leaves all of it. -/
inductive Next : Session → Event → Session → Prop where
  | call {s s' : Session} {c : Call} {r : Reply} (run : s.perform B c = .ok (r, s'))
      (short : s.Short s') : Next s (.call c r) s'
  | kill {s : Session} {P : Data} {db : Db} (pending : Option Call)
      (cut : P <+: s.stream.db.file) (left : s.stream.flushed ≤ P.length)
      (opened : aodbmOpen B P = .ok db) : Next s (.kill pending) (start db)
  /-- In the middle of a call, which has written a part of its block. -/
  | killIn {s s₁ : Session} {c : Call} {r : Reply} {P : Data} {db : Db}
      (run : s.perform B c = .ok (r, s₁)) (short : s.Short s₁)
      (cut : P <+: s₁.stream.db.file) (left : s.stream.flushed ≤ P.length)
      (opened : aodbmOpen B P = .ok db) : Next s (.kill (some c)) (start db)

end Session

/-! ## The buffer -/

variable {B : Build} {α : Type} {p : Op α} {s s' : Stream} {a : α}

theorem handle_db (e : Eff) (s : Stream) :
    (Stream.handle e s).map (fun r => (r.1, r.2.db)) = Db.handle e s.db := by
  cases e with
  | flush => rfl
  | write bs =>
    show ((Db.handle (.write bs) s.db).map _).map _ = _
    cases Db.handle (.write bs) s.db <;> rfl
  | _ => rfl

/-- The buffer makes no difference to what a function does. -/
theorem stream_run (p : Op α) (s : Stream) :
    (run Stream.handle p s).map (fun r => (r.1, r.2.db)) = eval p s.db := by
  induction p generalizing s with
  | pure a => rfl
  | fail e => rfl
  | op e k ih =>
    have hstep := handle_db e s
    rw [run_op, eval, run_op, ← hstep]
    cases Stream.handle e s with
    | error x => rfl
    | ok r => exact ih r.1 r.2

theorem stream_of_eval {db : Db} (h : eval p s.db = .ok (a, db)) :
    ∃ s', run Stream.handle p s = .ok (a, s') ∧ s'.db = db := by
  rw [← stream_run] at h
  cases hr : run Stream.handle p s with
  | error x =>
    rw [hr] at h
    cases h
  | ok r =>
    rw [hr] at h
    cases h
    exact ⟨r.2, rfl, rfl⟩

theorem stream_error {x : Err} (h : eval p s.db = .error x) :
    run Stream.handle p s = .error x := by
  rw [← stream_run] at h
  cases hr : run Stream.handle p s with
  | error y =>
    rw [hr] at h
    cases h
    rfl
  | ok r =>
    rw [hr] at h
    cases h

/-- The bytes that are sure to be in the file are some of those that were written. -/
def Stream.Ok (s : Stream) : Prop := s.flushed ≤ s.db.file.length

/-- Nothing goes back into the buffer. -/
theorem Stream.Ok.run (hs : s.Ok) (h : run Stream.handle p s = .ok (a, s')) :
    s'.Ok ∧ s.flushed ≤ s'.flushed := by
  refine run_invariant (I := fun t => t.Ok ∧ s.flushed ≤ t.flushed) ?_ (only_true p) h
    ⟨hs, Nat.le_refl _⟩
  rintro e - t r t' he ⟨hok, hle⟩
  cases e with
  | flush =>
    cases he
    exact ⟨Nat.le_refl _, Nat.le_trans hle hok⟩
  | write bs =>
    simp only [Stream.handle, Db.handle] at he
    split at he
    · cases he
      have hgrows : t.db.file.length ≤ (t.db.file ++ bs).length := by simp
      exact ⟨Nat.le_trans hok hgrows, hle⟩
    · cases he
  | _ =>
    cases he
    exact ⟨hok, hle⟩

/-- A commit that is accepted leaves nothing in the buffer. -/
theorem flushed_commit {ver : Nat} (h : run Stream.handle (aodbmCommit B ver) s = .ok (true, s')) :
    s'.flushed = s'.db.file.length := by
  simp only [aodbmCommit, run_bind_eq_ok] at h
  obtain ⟨_, s₁, _, _, s₂, _, r, s₃, _, h⟩ := h
  cases r with
  | false =>
    simp only [Bool.false_eq_true, if_false, run_bind_eq_ok] at h
    obtain ⟨_, _, _, h⟩ := h
    cases h
  | true =>
    simp only [if_true, aodbmWriteVersion, run_bind_eq_ok] at h
    -- nothing is written behind the `fflush`
    obtain ⟨_, s₄, ⟨_, _, _, _, _, _, _, _, _, _, s₅, hflush, hunlock⟩, _, s₆, hset, _, s₇, hfree,
      hlast⟩ := h
    cases hflush
    cases hunlock
    cases hset
    cases hfree
    cases hlast
    rfl

end Aodbm
