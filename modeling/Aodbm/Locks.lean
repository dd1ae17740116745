import Aodbm.Changeset
import Aodbm.Lib.Mutexes

/-!
# Locks

The handle with its mutexes, shared by threads: `rw` is recursive, `version` is not. One effect
of a thread is done when it does not have to wait.

`ClientStep` is one completed call of one thread. `aodbm_commit_init` begins a pair that the
same thread ends with `aodbm_commit_finish` or `aodbm_commit_abort`.

Results:
1. `Reads.balanced`: what only reads leaves the mutexes as they are.
2. `relocks_set`, `balanced_del`: `aodbm_set` leaves `rw` locked twice more.
3. `ClientStep.keeps`: every call leaves the mutexes as it found them, except for that.
4. `lock_balance`: the mutexes of a thread are those on entry exactly when it has set nothing.
5. `lock_lost`: after `aodbm_set` another thread waits for ever.
-/

namespace Aodbm

open Effects Mutexes

abbrev Thread := Nat

/-- `rw` and the owner of `version`. -/
structure Locks where
  rw : RecMutex Thread
  version : Option Thread
deriving DecidableEq

/-- The handle. -/
structure LockedDb where
  db : Db
  locks : Locks
deriving DecidableEq

/-- The effects of a thread. It does not wait for a mutex here: a call in which it would have to
is not completed. -/
def LockedDb.handle (t : Thread) : Handler Eff Eff.Res Err LockedDb
  | .lockRw, s =>
    match s.locks.rw.lock t with
    | some rw => .ok ((), { s with locks := { s.locks with rw := rw } })
    | none => .error .blocked
  | .unlockRw, s => .ok ((), { s with locks := { s.locks with rw := s.locks.rw.unlock t } })
  | .lockVersion, s =>
    if s.locks.version = none then
      .ok ((), { s with locks := { s.locks with version := some t } })
    else .error .blocked
  | .unlockVersion, s => .ok ((), { s with locks := { s.locks with version := none } })
  | e, s => (Db.handle e s.db).map fun r => (r.1, { s with db := r.2 })

/-- What a thread does to the mutexes. -/
def lockSpec (t : Thread) : Spec Eff Eff.Res Locks
  | .lockRw, Q, g => ∀ rw, g.rw.lock t = some rw → Q () { g with rw := rw }
  | .unlockRw, Q, g => Q () { g with rw := g.rw.unlock t }
  | .lockVersion, Q, g => g.version = none → Q () { g with version := some t }
  | .unlockVersion, Q, g => Q () { g with version := none }
  | _, Q, g => ∀ r, Q r g

variable {t u : Thread} {g g' : Locks} {s s' : LockedDb}

theorem lockSpec_mono : (lockSpec t).Mono := by
  intro e Q Q' hQ g h
  cases e with
  | lockRw => exact fun rw hrw => hQ _ _ (h rw hrw)
  | unlockRw => exact hQ _ _ h
  | lockVersion => exact fun hv => hQ _ _ (h hv)
  | unlockVersion => exact hQ _ _ h
  | _ => exact fun r => hQ _ _ (h r)

/-- The handler keeps to the specification. -/
theorem lockSpec_step (e : Eff) (Q : e.Res → Locks → Prop) (r : e.Res)
    (hS : lockSpec t e Q s.locks) (he : LockedDb.handle t e s = .ok (r, s')) : Q r s'.locks := by
  cases e with
  | lockRw =>
    simp only [LockedDb.handle] at he
    split at he
    · next rw hrw =>
      cases he
      exact hS rw hrw
    · cases he
  | unlockRw =>
    cases he
    exact hS
  | lockVersion =>
    simp only [LockedDb.handle] at he
    split at he
    · next hv =>
      cases he
      exact hS hv
    · cases he
  | unlockVersion =>
    cases he
    exact hS
  | write bs =>
    simp only [LockedDb.handle] at he
    cases hdb : Db.handle (.write bs) s.db with
    | error x =>
      rw [hdb] at he
      cases he
    | ok r' =>
      rw [hdb] at he
      cases he
      exact hS _
  | _ =>
    cases he
    exact hS _

/-- A completed run ends with mutexes that the specification allows. -/
theorem locks_of_run {α : Type} {p : Op α} {a : α} {Q : α → Locks → Prop}
    (hp : wp (lockSpec t) p Q s.locks) (hr : run (LockedDb.handle t) p s = .ok (a, s')) :
    Q a s'.locks := by
  have hstep : ∀ (e : Eff) (Q : e.Res → Locks → Prop) (s : LockedDb) (g : Locks) (r : e.Res)
      (s' : LockedDb), s.locks = g → lockSpec t e Q g → LockedDb.handle t e s = .ok (r, s') →
      ∃ g', s'.locks = g' ∧ Q r g' := by
    rintro e Q s _ r s' rfl hS he
    exact ⟨_, rfl, lockSpec_step e Q r hS he⟩
  obtain ⟨g', rfl, hQ⟩ := wp_run hstep rfl hp hr
  exact hQ

/-- Applying the change sets a key. -/
def Change.isModify : Change → Bool
  | .modify .. => true
  | .remove _ => false

/-! ## The functions -/

/-- When the function is completed, the thread has locked `rw` some times more. -/
def Relocks {α : Type} (t : Thread) (n : Nat) (p : Op α) : Prop :=
  ∀ g, wp (lockSpec t) p (fun _ g' => g.rw.lockTimes t n = some g'.rw ∧ g'.version = g.version) g

/-- The function leaves the mutexes as they are. -/
abbrev KeepsLocks {α : Type} (t : Thread) (p : Op α) : Prop := Relocks t 0 p

section Rules
variable {α β : Type} {n k : Nat} {p : Op α} {f : α → Op β}

theorem Relocks.pure (a : α) : KeepsLocks t (Pure.pure a : Op α) := fun _ => ⟨rfl, rfl⟩

theorem Relocks.bind (hp : Relocks t n p) (hf : ∀ a, Relocks t k (f a)) :
    Relocks t (n + k) (p >>= f) := by
  intro g
  refine wp_seq lockSpec_mono (hp g) fun a g₁ ⟨h₁, hv₁⟩ => ?_
  refine wp_mono lockSpec_mono (fun b g₂ ⟨h₂, hv₂⟩ => ⟨?_, hv₂.trans hv₁⟩) (hf a g₁)
  rw [lockTimes_add, h₁]
  exact h₂

theorem KeepsLocks.then (hp : KeepsLocks t p) (hf : ∀ a, Relocks t n (f a)) :
    Relocks t n (p >>= f) := by
  have h := hp.bind hf
  rwa [Nat.zero_add] at h

/-- Between a lock and an unlock of `rw`. -/
theorem KeepsLocks.locked (hp : KeepsLocks t p) : KeepsLocks t (do
    lockRw
    let a ← p
    unlockRw
    Pure.pure a) := by
  intro g rw hrw
  change wp (lockSpec t) (p >>= fun a => do
    unlockRw
    Pure.pure a) _ _
  refine wp_seq lockSpec_mono (hp { g with rw := rw }) fun a g₁ ⟨h₁, hv⟩ => ⟨?_, hv⟩
  cases h₁
  rw [unlock_lock hrw]
  rfl

end Rules

theorem balanced_read (off sz : Nat) (g : Locks) :
    wp (lockSpec t) (aodbmRead off sz) (fun _ g' => g' = g) g := by
  intro rw hrw bs
  have hunlock : ({ g with rw := rw.unlock t } : Locks) = g := by rw [unlock_lock hrw]
  cases bs with
  | none => trivial
  | some bs => exact hunlock

/-- What only reads leaves the mutexes as they are. -/
theorem Reads.balanced {α : Type} {Q : α → Prop} {p : Op α} (hp : Reads Q p) :
    KeepsLocks t p := by
  intro g
  refine wp_mono lockSpec_mono ?_ (hp.wp lockSpec_mono fun off sz => balanced_read off sz g)
  rintro a _ ⟨_, rfl⟩
  exact ⟨rfl, rfl⟩

theorem relocks_lockRw : Relocks t 1 lockRw := by
  intro g rw hrw
  refine ⟨?_, rfl⟩
  rw [RecMutex.lockTimes, hrw]
  rfl

theorem balanced_fileSize : KeepsLocks t aodbmFileSize := fun _ _ => ⟨rfl, rfl⟩

variable (B : Build)

theorem balanced_writeDataBlock (data : Data) : KeepsLocks t (aodbmWriteDataBlock B data) := by
  intro g rw hrw _ _ _
  exact ⟨congrArg some (unlock_lock hrw).symm, rfl⟩

theorem balanced_writeVersion (ver : Nat) : KeepsLocks t (aodbmWriteVersion B ver) := by
  intro g rw hrw _ _ _
  exact ⟨congrArg some (unlock_lock hrw).symm, rfl⟩

/-- `aodbm_set` locks at its end what it locked at its beginning. -/
theorem relocks_set (ver : Nat) (key val : Data) : Relocks t 2 (aodbmSet B ver key val) := by
  have hend : ∀ root : Nat, Relocks t 1 (lockRw >>= fun _ => (pure root : Op Nat)) :=
    fun root => relocks_lockRw.bind fun _ => Relocks.pure root
  exact relocks_lockRw.bind fun _ => balanced_fileSize.then fun fileSize =>
    KeepsLocks.then (reads_setResult B ver key val (fileSize + 5)).balanced fun result =>
      (balanced_writeDataBlock B result.dat).then fun _ => hend result.root

theorem balanced_del (ver : Nat) (key : Data) : KeepsLocks t (aodbmDel B ver key) := by
  unfold aodbmDel
  split
  · exact Relocks.pure 0
  · refine KeepsLocks.then (reads_has B ver key).balanced fun has => ?_
    split
    · exact Relocks.pure ver
    · intro g rw hrw
      have hbody : KeepsLocks t (do
          let fileSize ← aodbmFileSize
          let result ← delResult B ver key (fileSize + 5)
          aodbmWriteDataBlock B result.dat
          pure result.root) :=
        balanced_fileSize.then fun fileSize =>
          KeepsLocks.then (reads_delResult B ver key (fileSize + 5)).balanced fun result =>
            (balanced_writeDataBlock B result.dat).then fun _ => Relocks.pure result.root
      have hall := hbody.locked g rw hrw
      simpa only [bind_assoc, pure_bind] using hall

theorem balanced_current : KeepsLocks t aodbmCurrent := by
  intro g hv r
  exact ⟨rfl, hv.symm⟩

/-- A commit that is begun takes `version`. -/
theorem wp_commitInit (ver : Nat) (g : Locks) : wp (lockSpec t) (aodbmCommitInit B ver)
    (fun _ g' => g' = { g with version := some t }) g := by
  intro hv cur
  refine wp_mono lockSpec_mono ?_
    ((reads_isBasedOn B ver cur).balanced { g with version := some t })
  rintro r ⟨rw, version⟩ ⟨hrw, rfl⟩
  cases hrw
  rfl

/-- A commit that is ended releases `version`. -/
theorem wp_commitFinish (ver : Nat) (g : Locks) : wp (lockSpec t) (aodbmCommitFinish B ver)
    (fun _ g' => g' = { g with version := none }) g := by
  refine wp_seq lockSpec_mono (balanced_writeVersion B ver g) ?_
  rintro _ ⟨rw, version⟩ ⟨hrw, rfl⟩ _
  cases hrw
  rfl

theorem balanced_commit (ver : Nat) : KeepsLocks t (aodbmCommit B ver) := by
  intro g
  have hcommit : ∀ r : Bool, wp (lockSpec t) (if r then (do
        aodbmWriteVersion B ver
        setCur ver
        unlockVersion
        pure r : Op Bool) else (do
        unlockVersion
        pure r))
      (fun _ g' => g' = { g with version := none }) { g with version := some t } := by
    intro r
    cases r with
    | false => rfl
    | true =>
      refine wp_seq lockSpec_mono (balanced_writeVersion B ver { g with version := some t }) ?_
      rintro _ ⟨rw, version⟩ ⟨hrw, rfl⟩ _
      cases hrw
      rfl
  -- `version` is held from here on; the history is read under it
  intro hv cur
  change wp (lockSpec t) (aodbmIsBasedOn B ver cur >>= _) _ _
  refine wp_seq lockSpec_mono
    ((reads_isBasedOn B ver cur).balanced { g with version := some t }) ?_
  rintro r ⟨rw, version⟩ ⟨hrw, rfl⟩
  cases hrw
  refine wp_mono lockSpec_mono ?_ (hcommit r)
  rintro _ _ rfl
  exact ⟨rfl, hv.symm⟩

/-- Applying some changes locks `rw` twice for each key that is set. -/
theorem relocks_apply (ver : Nat) (cs : List Change) :
    Relocks t (2 * cs.countP Change.isModify) (aodbmApply B ver cs) := by
  induction cs generalizing ver with
  | nil => exact Relocks.pure ver
  | cons c cs ih =>
    rw [aodbmApply_cons]
    cases c with
    | modify k x =>
      have h := (relocks_set B ver k x).bind (k := 2 * cs.countP Change.isModify) (t := t)
        fun v => ih v
      have hcount : 2 * (Change.modify k x :: cs).countP Change.isModify =
          2 + 2 * cs.countP Change.isModify := by
        rw [List.countP_cons_of_pos rfl]
        omega
      rw [hcount]
      exact h
    | remove k =>
      rw [List.countP_cons_of_neg (by simp [Change.isModify])]
      exact (balanced_del B ver k).then fun v => ih v

/-! ## Calls -/

/-- A call that takes the mutexes and gives them back, or should. -/
inductive Request where
  | set (ver : Nat) (key val : Data)
  | del (ver : Nat) (key : Data)
  | get (ver : Nat) (key : Data)
  | has (ver : Nat) (key : Data)
  | commit (ver : Nat)
  | current
  | newIterator (ver : Nat)
  | iterateFrom (ver : Nat) (key : Data)
  | iteratorGoto (it : Iterator) (key : Data)
  | iteratorNext (it : Iterator)
  | apply (ver : Nat) (cs : List Change)

/-- The call, without its result. -/
def Request.op : Request → Op Unit
  | .set ver key val => do let _ ← aodbmSet B ver key val
  | .del ver key => do let _ ← aodbmDel B ver key
  | .get ver key => do let _ ← aodbmGet B ver key
  | .has ver key => do let _ ← aodbmHas B ver key
  | .commit ver => do let _ ← aodbmCommit B ver
  | .current => do let _ ← aodbmCurrent
  | .newIterator ver => do let _ ← aodbmNewIterator B ver
  | .iterateFrom ver key => do let _ ← aodbmIterateFrom B ver key
  | .iteratorGoto it key => do let _ ← aodbmIteratorGoto B it key
  | .iteratorNext it => do let _ ← aodbmIteratorNext B it
  | .apply ver cs => do let _ ← aodbmApply B ver cs

/-- How often the call runs `aodbm_set`. -/
def Request.sets : Request → Nat
  | .set .. => 1
  | .apply _ cs => cs.countP Change.isModify
  | _ => 0

/-- A call locks `rw` twice for each `aodbm_set`, and changes nothing else. -/
theorem relocks_request (c : Request) : Relocks t (2 * c.sets) (c.op B) := by
  have drop : ∀ {α : Type} {n : Nat} {p : Op α}, Relocks t n p →
      Relocks t n (do let _ ← p : Op Unit) := fun hp => hp.bind fun _ => Relocks.pure ()
  cases c with
  | set ver key val => exact drop (relocks_set B ver key val)
  | del ver key => exact drop (balanced_del B ver key)
  | get ver key => exact drop (reads_get B ver key).balanced
  | has ver key => exact drop (reads_has B ver key).balanced
  | commit ver => exact drop (balanced_commit B ver)
  | current => exact drop balanced_current
  | newIterator ver => exact drop (reads_newIterator B ver).balanced
  | iterateFrom ver key => exact drop (reads_iteratorGoto B ⟨[], ver⟩ key).balanced
  | iteratorGoto it key => exact drop (reads_iteratorGoto B it key).balanced
  | iteratorNext it => exact drop (reads_iteratorNext B it).balanced
  | apply ver cs => exact drop (relocks_apply B ver cs)

/-! ## Interleaved calls -/

/-- The handle, the thread that is between `aodbm_commit_init` and the end of the commit, and
how often each thread has run `aodbm_set`. -/
structure Clients where
  shared : LockedDb
  pair : Option Thread
  sets : Thread → Nat

def Clients.init (db : Db) : Clients := ⟨⟨db, ⟨.free, none⟩⟩, none, fun _ => 0⟩

/-- One completed call of one thread. -/
inductive ClientStep : Clients → Clients → Prop where
  | call {w : Clients} {t : Thread} {c : Request} {s : LockedDb}
      (run : run (LockedDb.handle t) (c.op B) w.shared = .ok ((), s)) :
      ClientStep w { w with shared := s, sets := Function.update w.sets t (w.sets t + c.sets) }
  | init {w : Clients} {t : Thread} {ver : Nat} {r : Bool} {s : LockedDb}
      (run : run (LockedDb.handle t) (aodbmCommitInit B ver) w.shared = .ok (r, s)) :
      ClientStep w { w with shared := s, pair := some t }
  | finish {w : Clients} {t : Thread} {ver : Nat} {s : LockedDb} (mine : w.pair = some t)
      (run : run (LockedDb.handle t) (aodbmCommitFinish B ver) w.shared = .ok ((), s)) :
      ClientStep w { w with shared := s, pair := none }
  | abort {w : Clients} {t : Thread} {s : LockedDb} (mine : w.pair = some t)
      (run : run (LockedDb.handle t) aodbmCommitAbort w.shared = .ok ((), s)) :
      ClientStep w { w with shared := s, pair := none }

/-- States of any number of threads that began with free mutexes. -/
def ClientReachable (w : Clients) : Prop :=
  ∃ db, Relation.ReflTransGen (ClientStep B) (Clients.init db) w

/-- Each thread has locked `rw` twice for each `aodbm_set`, and `version` is held by the thread
that is in the middle of a commit. -/
structure Clients.Ok (w : Clients) : Prop where
  rw : ∀ t, w.shared.locks.rw.depth t = 2 * w.sets t
  version : w.shared.locks.version = w.pair

variable {B}
variable {w w' : Clients}

theorem ClientStep.keeps (h : ClientStep B w w') (hw : w.Ok) : w'.Ok := by
  cases h with
  | @call t c s run =>
    obtain ⟨hrw, hversion⟩ := locks_of_run (relocks_request B c _) run
    refine ⟨fun u => ?_, hversion.trans hw.version⟩
    rcases eq_or_ne u t with rfl | hu
    · simp only [Function.update_self]
      rw [depth_lockTimes hrw, hw.rw]
      omega
    · simp only [Function.update_of_ne hu]
      rw [lockTimes_other (Ne.symm hu) hrw, hw.rw]
  | init run =>
    have hlocks := locks_of_run (wp_commitInit B _ _) run
    exact ⟨fun u => by simp only [hlocks, hw.rw], by simp only [hlocks]⟩
  | finish mine run =>
    have hlocks := locks_of_run (wp_commitFinish B _ _) run
    exact ⟨fun u => by simp only [hlocks, hw.rw], by simp only [hlocks]⟩
  | abort mine run =>
    cases run
    exact ⟨hw.rw, rfl⟩

theorem clients_ok (h : ClientReachable B w) : w.Ok := by
  obtain ⟨db, hrun⟩ := h
  induction hrun with
  | refl => exact ⟨fun _ => rfl, rfl⟩
  | tail _ hstep ih => exact hstep.keeps ih

/-- In any interleaving of calls, for a thread that is not in the middle of a commit the mutexes
are what they were for it before some calls exactly when none of its calls has run `aodbm_set`.
When no commit is in progress, both mutexes are free, so that any thread gets them, exactly when
no thread has run `aodbm_set` since the beginning. -/
theorem lock_balance (hw : ClientReachable B w)
    (hrun : Relation.ReflTransGen (ClientStep B) w w') :
    (∀ t, w.pair ≠ some t → w'.pair ≠ some t →
      (w'.shared.locks.rw.depth t = w.shared.locks.rw.depth t ∧
        (w'.shared.locks.version = some t ↔ w.shared.locks.version = some t) ↔
        w'.sets t = w.sets t)) ∧
      (w'.pair = none → ((w'.shared.locks = ⟨.free, none⟩ ∧
        ∀ t, (w'.shared.locks.rw.lock t).isSome) ↔ ∀ t, w'.sets t = 0)) := by
  have hok := clients_ok hw
  have hok' : w'.Ok := by
    obtain ⟨db, hbefore⟩ := hw
    exact clients_ok ⟨db, hbefore.trans hrun⟩
  refine ⟨fun t hpair hpair' => ?_, fun hidle => ?_⟩
  · have hv : (w'.shared.locks.version = some t ↔ w.shared.locks.version = some t) := by
      rw [hok.version, hok'.version]
      exact iff_of_false hpair' hpair
    -- each call of `aodbm_set` leaves `rw` locked twice more than before
    rw [and_iff_left hv, hok.rw, hok'.rw]
    omega
  · constructor
    · rintro ⟨hfree, -⟩ t
      have hdepth := hok'.rw t
      rw [hfree] at hdepth
      have hzero : 0 = 2 * w'.sets t := hdepth
      omega
    · intro hzero
      have hfree : w'.shared.locks.rw = .free := eq_free fun t => by rw [hok'.rw, hzero]
      have hversion := hok'.version.trans hidle
      refine ⟨?_, fun t => ?_⟩
      · cases hlocks : w'.shared.locks
        rw [hlocks] at hfree hversion
        cases hfree
        cases hversion
        rfl
      · rw [hfree]
        rfl

/-- Thread 1 commits version 0 of an empty database, and the mutexes are free again. -/
theorem lock_balance_commit : ∃ w, ClientReachable smallBuild w ∧ w.shared.db.file ≠ [] ∧
    w.shared.locks = ⟨.free, none⟩ := by
  have hcommit : run (LockedDb.handle 1) (Request.op smallBuild (.commit 0))
      (Clients.init Db.empty).shared =
        .ok ((), ⟨⟨[118, 0, 0, 0, 0, 0, 0, 0, 0], 9, 0⟩, ⟨.free, none⟩⟩) := by decide +kernel
  have hrun := Relation.ReflTransGen.single (ClientStep.call hcommit)
  have hidle := (lock_balance ⟨Db.empty, .refl⟩ hrun).2 rfl
  refine ⟨_, ⟨Db.empty, hrun⟩, by simp, (hidle.mpr fun t => ?_).1⟩
  rcases eq_or_ne t 1 with rfl | ht
  · rfl
  · simp [Clients.init, ht]

/-- After an update by thread 0 no call is in progress, and yet thread 0 holds `rw` twice and a
lookup by thread 1 waits for it for ever. -/
theorem lock_lost : ∃ w, ClientReachable smallBuild w ∧ w.pair = none ∧
    w.shared.locks.rw.depth 0 = 2 ∧
    run (LockedDb.handle 1) (aodbmGet smallBuild 5 []) w.shared = .error .blocked := by
  have hset : run (LockedDb.handle 0) (Request.op smallBuild (.set 0 [] []))
      (Clients.init Db.empty).shared = .ok ((), ⟨⟨[100, 0, 0, 0, 21, 0, 0, 0, 0, 0, 0, 0, 0, 108,
        0, 0, 0, 1, 0, 0, 0, 0, 0, 0, 0, 0], 26, 0⟩, ⟨.held 0 1, none⟩⟩) := by decide +kernel
  exact ⟨_, ⟨Db.empty, Relation.ReflTransGen.single (.call hset)⟩, rfl, rfl, by decide +kernel⟩

end Aodbm
