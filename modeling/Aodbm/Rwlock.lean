import Mathlib.Logic.Relation
import Aodbm.Lib.Threads

/-!
# The reader-writer lock

A call holds `mut` from its start to its end, except inside `pthread_cond_wait`. So it is made of
segments, and nothing else happens during a segment. `RwState.step` runs one segment of one
thread.

A thread may leave `pthread_cond_wait` at any time, signalled or not. Which locks a thread has,
and whether it was signalled, the code does not record; the state does.

Results:
1. `step_cases`: what a segment can do.
2. `Kept.step`: the counters count, and a thread that waits unsignalled has to wait.
3. `rwlock_sound`: what holds in every state of every run.
4. `readers_not_threads`: a thread that reads twice counts twice, and `size_t` wraps.
-/

namespace Aodbm

open Threads

/-- The counters are `size_t`. -/
def sizeInc (n : Nat) : Nat := (n + 1) % 2 ^ 64

def sizeDec (n : Nat) : Nat := (n + (2 ^ 64 - 1)) % 2 ^ 64

structure Rwlock where
  readers : Nat
  writersWaiting : Nat
  isWriting : Bool
deriving DecidableEq

/-- `aodbm_rwlock_init`. -/
def aodbmRwlockInit : Rwlock := ⟨0, 0, false⟩

/-- How a segment ends. -/
inductive Ending where
  /-- In `pthread_cond_wait`. -/
  | waits
  | returns
  | returnsBool (result : Bool)
  /-- `AODBM_CUSTOM_ERROR`. -/
  | fails (msg : String)
deriving DecidableEq

structure Segment where
  lock : Rwlock
  ending : Ending
  broadcast : Bool
deriving DecidableEq

/-! ## The functions -/

namespace Rwlock

/-- The condition of the loop in `aodbm_rwlock_rdlock`. -/
def rdlockWaits (lock : Rwlock) : Bool := lock.isWriting || lock.writersWaiting != 0

/-- The condition of the loop in `aodbm_rwlock_wrlock`. -/
def wrlockWaits (lock : Rwlock) : Bool := lock.readers != 0 || lock.isWriting

/-- `aodbm_rwlock_rdlock` from a test of the condition on. -/
def rdlockLoop (lock : Rwlock) : Segment :=
  if lock.rdlockWaits then ⟨lock, .waits, false⟩
  else ⟨{ lock with readers := sizeInc lock.readers }, .returns, false⟩

/-- `aodbm_rwlock_wrlock` from a test of the condition on. -/
def wrlockLoop (lock : Rwlock) : Segment :=
  if lock.wrlockWaits then ⟨lock, .waits, false⟩
  else
    ⟨{ lock with isWriting := true, writersWaiting := sizeDec lock.writersWaiting }, .returns,
      false⟩

end Rwlock

/-- `aodbm_rwlock_rdlock`. -/
def aodbmRwlockRdlock (lock : Rwlock) : Segment := lock.rdlockLoop

/-- `aodbm_rwlock_wrlock`. -/
def aodbmRwlockWrlock (lock : Rwlock) : Segment :=
  { lock with writersWaiting := sizeInc lock.writersWaiting }.wrlockLoop

/-- `aodbm_rwlock_unlock`. -/
def aodbmRwlockUnlock (lock : Rwlock) : Segment :=
  if lock.isWriting then ⟨{ lock with isWriting := false }, .returns, true⟩
  else if 0 < lock.readers then
    let readers := sizeDec lock.readers
    ⟨{ lock with readers := readers }, .returns, readers == 0⟩
  else ⟨lock, .fails "invalid rwlock state", false⟩

/-- `aodbm_rwlock_tryrdlock`. -/
def aodbmRwlockTryrdlock (lock : Rwlock) : Segment :=
  let result := !lock.isWriting && lock.writersWaiting == 0
  ⟨if result then { lock with readers := sizeInc lock.readers } else lock, .returnsBool result,
    false⟩

/-- `aodbm_rwlock_trywrlock`. -/
def aodbmRwlockTrywrlock (lock : Rwlock) : Segment :=
  let result := lock.readers == 0 && !lock.isWriting
  ⟨if result then { lock with isWriting := true } else lock, .returnsBool result, false⟩

/-! ## The threads -/

inductive RwCall where
  | rdlock
  | wrlock
  | unlock
  | tryrdlock
  | trywrlock
deriving DecidableEq

/-- In no call, or in `pthread_cond_wait` inside a call. -/
inductive Place where
  | outside
  | inRdlock (signalled : Bool)
  | inWrlock (signalled : Bool)
deriving DecidableEq

namespace Place

def signal : Place → Place
  | outside => outside
  | inRdlock _ => inRdlock true
  | inWrlock _ => inWrlock true

def waiting : Place → Bool
  | outside => false
  | _ => true

def signalled : Place → Bool
  | outside => false
  | inRdlock b => b
  | inWrlock b => b

/-- Inside `aodbm_rwlock_wrlock`. -/
def writers : Place → Nat
  | inWrlock _ => 1
  | _ => 0

@[simp] theorem writers_outside : outside.writers = 0 := rfl

@[simp] theorem writers_inRdlock (b : Bool) : (inRdlock b).writers = 0 := rfl

@[simp] theorem writers_inWrlock (b : Bool) : (inWrlock b).writers = 1 := rfl

theorem writers_signal (p : Place) : p.signal.writers = p.writers := by
  cases p <;> rfl

end Place

/-- A thread with the locks that it has taken and not given back. -/
structure RwThread where
  place : Place
  readLocks : Nat
  writeLocks : Nat
deriving DecidableEq

namespace RwThread

def signal (th : RwThread) : RwThread := { th with place := th.place.signal }

/-- The lock that an unlock gives back. -/
def release (th : RwThread) : RwThread :=
  if 0 < th.writeLocks then { th with writeLocks := th.writeLocks - 1 }
  else { th with readLocks := th.readLocks - 1 }

theorem release_readLocks (th : RwThread) : th.release.readLocks ≤ th.readLocks := by
  unfold release
  split
  · exact Nat.le_refl _
  · exact Nat.sub_le _ _

theorem release_place (th : RwThread) : th.release.place = th.place := by
  unfold release
  split <;> rfl

/-- The thread after the call has got what it asked for. -/
def got (th : RwThread) : RwCall → RwThread
  | .rdlock | .tryrdlock => { th with place := .outside, readLocks := th.readLocks + 1 }
  | .wrlock | .trywrlock => { th with place := .outside, writeLocks := th.writeLocks + 1 }
  | .unlock => th.release

/-- The thread after a segment of the call. -/
def after (th : RwThread) (c : RwCall) : Ending → RwThread
  | .waits => { th with place := if c = .wrlock then .inWrlock false else .inRdlock false }
  | .returns | .returnsBool true => th.got c
  | .returnsBool false | .fails _ => th

end RwThread

/-- What a thread does next. -/
inductive RwMove where
  | call (c : RwCall)
  /-- It leaves `pthread_cond_wait`. -/
  | wake
deriving DecidableEq

/-- The first segment of a call. -/
def RwCall.enter : RwCall → Rwlock → Segment
  | .rdlock => aodbmRwlockRdlock
  | .wrlock => aodbmRwlockWrlock
  | .unlock => aodbmRwlockUnlock
  | .tryrdlock => aodbmRwlockTryrdlock
  | .trywrlock => aodbmRwlockTrywrlock

/-- The segment that the thread runs. Only a thread that has a lock unlocks. -/
def RwThread.segment (th : RwThread) (lock : Rwlock) : RwMove → Option (RwCall × Segment)
  | .call c =>
    if th.place = .outside ∧ (c = .unlock → 0 < th.readLocks + th.writeLocks) then
      some (c, c.enter lock)
    else none
  | .wake =>
    match th.place with
    | .outside => none
    | .inRdlock _ => some (.rdlock, lock.rdlockLoop)
    | .inWrlock _ => some (.wrlock, lock.wrlockLoop)

structure RwState where
  lock : Rwlock
  threads : List RwThread
deriving DecidableEq

namespace RwState

/-- The state after the segment. -/
def run (s : RwState) (i : Nat) (th : RwThread) (c : RwCall) (seg : Segment) : RwState :=
  let threads := s.threads.set i (th.after c seg.ending)
  ⟨seg.lock, if seg.broadcast then threads.map RwThread.signal else threads⟩

/-- One segment of one thread. -/
def step (s : RwState) (i : Nat) (m : RwMove) : Option (Ending × RwState) := do
  let th ← s.threads[i]?
  let (c, seg) ← th.segment s.lock m
  some (seg.ending, s.run i th c seg)

/-- The lock is new, and no thread has it. -/
def start (n : Nat) : RwState := ⟨aodbmRwlockInit, List.replicate n ⟨.outside, 0, 0⟩⟩

def Steps (s s' : RwState) : Prop := ∃ i m e, s.step i m = some (e, s')

/-- Any run of `n` threads leads to this state. -/
def Reachable (n : Nat) (s : RwState) : Prop := Relation.ReflTransGen Steps (start n) s

/-- The read locks that the threads have. -/
def readLocks (s : RwState) : Nat := total RwThread.readLocks s.threads

/-- The write locks that the threads have. -/
def writeLocks (s : RwState) : Nat := total RwThread.writeLocks s.threads

/-- The number of threads that have a read lock. -/
def readHolders (s : RwState) : Nat := holders RwThread.readLocks s.threads

/-- The number of threads that have the write lock. -/
def writeHolders (s : RwState) : Nat := holders RwThread.writeLocks s.threads

/-- The number of threads inside `aodbm_rwlock_wrlock`. -/
def inWrlock (s : RwState) : Nat := total (fun th => th.place.writers) s.threads

/-- What the counters count fits in a `size_t`. -/
def InRange (s : RwState) : Prop := s.readLocks < 2 ^ 64 ∧ s.inWrlock < 2 ^ 64

/-! ## What a segment can do -/

/-- `Moved s i th e s'`: thread `i`, which is `th`, goes from `s` to `s'` in one segment that ends
with `e`. -/
inductive Moved (s : RwState) (i : Nat) (th : RwThread) : Ending → RwState → Prop
  | readWaits (hth : th.place.writers = 0) (hw : s.lock.rdlockWaits = true) :
      Moved s i th .waits
        ⟨s.lock, s.threads.set i { th with place := .inRdlock false }⟩
  | reads (hth : th.place.writers = 0) (hw : s.lock.rdlockWaits = false) (e : Ending)
      (he : e = .returns ∨ e = .returnsBool true) :
      Moved s i th e
        ⟨{ s.lock with readers := sizeInc s.lock.readers },
          s.threads.set i { th with place := .outside, readLocks := th.readLocks + 1 }⟩
  | writeEnters (hth : th.place = .outside) (hw : s.lock.wrlockWaits = true) :
      Moved s i th .waits
        ⟨{ s.lock with writersWaiting := sizeInc s.lock.writersWaiting },
          s.threads.set i { th with place := .inWrlock false }⟩
  | writeWaits (hth : th.place.writers = 1) (hw : s.lock.wrlockWaits = true) :
      Moved s i th .waits
        ⟨s.lock, s.threads.set i { th with place := .inWrlock false }⟩
  | writes (hw : s.lock.wrlockWaits = false) (waiting : Nat) (e : Ending)
      (he : e = .returns ∨ e = .returnsBool true)
      (hwaiting : (th.place = .outside ∧ waiting = sizeDec (sizeInc s.lock.writersWaiting)) ∨
        (th.place.writers = 1 ∧ waiting = sizeDec s.lock.writersWaiting) ∨
        (th.place = .outside ∧ waiting = s.lock.writersWaiting)) :
      Moved s i th e
        ⟨{ s.lock with isWriting := true, writersWaiting := waiting },
          s.threads.set i { th with place := .outside, writeLocks := th.writeLocks + 1 }⟩
  | tryFails : Moved s i th (.returnsBool false) ⟨s.lock, s.threads.set i th⟩
  | unlocksWrite (hth : th.place = .outside) (hhas : 0 < th.readLocks + th.writeLocks)
      (hw : s.lock.isWriting = true) :
      Moved s i th .returns
        ⟨{ s.lock with isWriting := false }, (s.threads.set i th.release).map RwThread.signal⟩
  | unlocksLast (hth : th.place = .outside) (hhas : 0 < th.readLocks + th.writeLocks)
      (hw : s.lock.isWriting = false) (hr : 0 < s.lock.readers)
      (hlast : sizeDec s.lock.readers = 0) :
      Moved s i th .returns
        ⟨{ s.lock with readers := sizeDec s.lock.readers },
          (s.threads.set i th.release).map RwThread.signal⟩
  | unlocksRead (hth : th.place = .outside) (hhas : 0 < th.readLocks + th.writeLocks)
      (hw : s.lock.isWriting = false) (hr : 0 < s.lock.readers)
      (hmore : sizeDec s.lock.readers ≠ 0) :
      Moved s i th .returns
        ⟨{ s.lock with readers := sizeDec s.lock.readers }, s.threads.set i th.release⟩
  | invalid (hhas : 0 < th.readLocks + th.writeLocks) (hw : s.lock.isWriting = false)
      (hr : s.lock.readers = 0) :
      Moved s i th (.fails "invalid rwlock state") ⟨s.lock, s.threads.set i th⟩

variable {s s' : RwState} {i n : Nat} {m : RwMove} {e : Ending} {th : RwThread}

theorem moved_rdlockLoop (hth : th.place.writers = 0) :
    Moved s i th s.lock.rdlockLoop.ending (s.run i th .rdlock s.lock.rdlockLoop) := by
  unfold Rwlock.rdlockLoop
  split
  · next hw => exact .readWaits hth hw
  · next hw => exact .reads hth (by simpa using hw) .returns (.inl rfl)

/-- After `aodbm_rwlock_wrlock` has been entered. -/
theorem moved_wrlockLoop (hth : th.place.writers = 1) :
    Moved s i th s.lock.wrlockLoop.ending (s.run i th .wrlock s.lock.wrlockLoop) := by
  unfold Rwlock.wrlockLoop
  split
  · next hw => exact .writeWaits hth hw
  · next hw => exact .writes (by simpa using hw) _ .returns (.inl rfl) (.inr (.inl ⟨hth, rfl⟩))

theorem moved_wrlock (hth : th.place = .outside) :
    Moved s i th (aodbmRwlockWrlock s.lock).ending
      (s.run i th .wrlock (aodbmRwlockWrlock s.lock)) := by
  unfold aodbmRwlockWrlock Rwlock.wrlockLoop
  split
  · next hw => exact .writeEnters hth hw
  · next hw =>
    have hw' : s.lock.wrlockWaits = false := by simpa [Rwlock.wrlockWaits] using hw
    exact .writes hw' _ .returns (.inl rfl) (.inl ⟨hth, rfl⟩)

theorem moved_unlock (hth : th.place = .outside) (hhas : 0 < th.readLocks + th.writeLocks) :
    Moved s i th (aodbmRwlockUnlock s.lock).ending
      (s.run i th .unlock (aodbmRwlockUnlock s.lock)) := by
  unfold aodbmRwlockUnlock
  split
  · next hw => exact .unlocksWrite hth hhas hw
  · next hw =>
    have hw' : s.lock.isWriting = false := by simpa using hw
    split
    · next hr =>
      by_cases hlast : sizeDec s.lock.readers = 0
      · have := Moved.unlocksLast (i := i) hth hhas hw' hr hlast
        simpa [run, RwThread.after, RwThread.got, hlast] using this
      · have := Moved.unlocksRead (i := i) hth hhas hw' hr hlast
        simpa [run, RwThread.after, RwThread.got, hlast] using this
    · next hr => exact .invalid hhas hw' (by omega)

theorem moved_tryrdlock (hth : th.place = .outside) :
    Moved s i th (aodbmRwlockTryrdlock s.lock).ending
      (s.run i th .tryrdlock (aodbmRwlockTryrdlock s.lock)) := by
  have hout : th.place.writers = 0 := by
    rw [hth]
    rfl
  cases hw : s.lock.rdlockWaits with
  | true =>
    have hres : (!s.lock.isWriting && s.lock.writersWaiting == 0) = false := by
      unfold Rwlock.rdlockWaits at hw
      cases hwr : s.lock.isWriting <;> simp_all
    simpa [aodbmRwlockTryrdlock, hres, run, RwThread.after] using Moved.tryFails
  | false =>
    have hres : (!s.lock.isWriting && s.lock.writersWaiting == 0) = true := by
      unfold Rwlock.rdlockWaits at hw
      simp_all
    have := Moved.reads (i := i) hout hw (.returnsBool true) (.inr rfl)
    simpa [aodbmRwlockTryrdlock, hres, run, RwThread.after, RwThread.got] using this

theorem moved_trywrlock (hth : th.place = .outside) :
    Moved s i th (aodbmRwlockTrywrlock s.lock).ending
      (s.run i th .trywrlock (aodbmRwlockTrywrlock s.lock)) := by
  cases hw : s.lock.wrlockWaits with
  | true =>
    have hres : (s.lock.readers == 0 && !s.lock.isWriting) = false := by
      unfold Rwlock.wrlockWaits at hw
      cases hwr : s.lock.isWriting <;> simp_all
    simpa [aodbmRwlockTrywrlock, hres, run, RwThread.after] using Moved.tryFails
  | false =>
    have hres : (s.lock.readers == 0 && !s.lock.isWriting) = true := by
      unfold Rwlock.wrlockWaits at hw
      simp_all
    have := Moved.writes (i := i) hw s.lock.writersWaiting (.returnsBool true) (.inr rfl)
      (.inr (.inr ⟨hth, rfl⟩))
    simpa [aodbmRwlockTrywrlock, hres, run, RwThread.after, RwThread.got] using this

/-- Which segments there are. -/
theorem step_cases (h : s.step i m = some (e, s')) :
    ∃ th, s.threads[i]? = some th ∧ Moved s i th e s' := by
  unfold step at h
  obtain ⟨th, hth, h⟩ := Option.bind_eq_some_iff.mp h
  obtain ⟨⟨c, seg⟩, hseg, h⟩ := Option.bind_eq_some_iff.mp h
  simp only [Option.some.injEq, Prod.mk.injEq] at h
  obtain ⟨rfl, rfl⟩ := h
  refine ⟨th, hth, ?_⟩
  cases m with
  | call c' =>
    simp only [RwThread.segment] at hseg
    split at hseg
    · next hcond =>
      obtain ⟨hout, hhas⟩ := hcond
      cases hseg
      cases c with
      | rdlock => exact moved_rdlockLoop (by rw [hout]; rfl)
      | wrlock => exact moved_wrlock hout
      | unlock => exact moved_unlock hout (hhas rfl)
      | tryrdlock => exact moved_tryrdlock hout
      | trywrlock => exact moved_trywrlock hout
    · cases hseg
  | wake =>
    cases hp : th.place with
    | outside => simp [RwThread.segment, hp] at hseg
    | inRdlock b =>
      simp only [RwThread.segment, hp] at hseg
      cases hseg
      exact moved_rdlockLoop (by rw [hp]; rfl)
    | inWrlock b =>
      simp only [RwThread.segment, hp] at hseg
      cases hseg
      exact moved_wrlockLoop (by rw [hp]; rfl)

/-! ## The invariant -/

/-- What the counters count. -/
structure Counted (s : RwState) : Prop where
  inRange : s.InRange
  readers : s.lock.readers = s.readLocks
  writing : s.lock.isWriting.toNat = s.writeLocks
  apart : s.lock.isWriting = true → s.lock.readers = 0
  waiting : s.lock.writersWaiting = s.inWrlock

/-- If the thread waits and has not been signalled, it has to wait. -/
def MustWait (lock : Rwlock) : Place → Prop
  | .inRdlock false => lock.rdlockWaits = true
  | .inWrlock false => lock.wrlockWaits = true
  | _ => True

structure Kept (s : RwState) : Prop extends Counted s where
  mustWait : ∀ th ∈ s.threads, MustWait s.lock th.place

theorem sizeInc_eq {k : Nat} (h : k + 1 < 2 ^ 64) : sizeInc k = k + 1 := Nat.mod_eq_of_lt h

theorem sizeDec_eq {k : Nat} (h : 0 < k) (hk : k < 2 ^ 64) : sizeDec k = k - 1 := by
  unfold sizeDec
  omega

theorem sizeDec_sizeInc {k : Nat} (hk : k < 2 ^ 64) : sizeDec (sizeInc k) = k := by
  unfold sizeDec sizeInc
  omega

theorem sizeInc_mod (k : Nat) : sizeInc (k % 2 ^ 64) = (k + 1) % 2 ^ 64 :=
  Nat.mod_add_mod k (2 ^ 64) 1

-- Lean does not get to count up to `2 ^ 64`.
attribute [irreducible] sizeInc sizeDec

/-- The locks a thread has are among all. -/
theorem le_readLocks (hi : s.threads[i]? = some th) : th.readLocks ≤ s.readLocks := le_total hi

theorem le_writeLocks (hi : s.threads[i]? = some th) : th.writeLocks ≤ s.writeLocks := le_total hi

theorem le_inWrlock (hi : s.threads[i]? = some th) : th.place.writers ≤ s.inWrlock :=
  le_total (w := fun th => th.place.writers) hi

section Replace
variable {lock : Rwlock} {th' : RwThread}

theorem readLocks_set (hi : s.threads[i]? = some th) (lock : Rwlock) (th' : RwThread) :
    (RwState.mk lock (s.threads.set i th')).readLocks + th.readLocks =
      s.readLocks + th'.readLocks := total_set hi th'

theorem readLocks_set_le (hi : s.threads[i]? = some th) (h : th'.readLocks ≤ th.readLocks) :
    (RwState.mk lock (s.threads.set i th')).readLocks ≤ s.readLocks := by
  have := readLocks_set hi lock th'
  omega

theorem writeLocks_set (hi : s.threads[i]? = some th) (lock : Rwlock) (th' : RwThread) :
    (RwState.mk lock (s.threads.set i th')).writeLocks + th.writeLocks =
      s.writeLocks + th'.writeLocks := total_set hi th'

theorem inWrlock_set (hi : s.threads[i]? = some th) (lock : Rwlock) (th' : RwThread) :
    (RwState.mk lock (s.threads.set i th')).inWrlock + th.place.writers =
      s.inWrlock + th'.place.writers :=
  total_set (w := fun th => th.place.writers) hi th'

theorem InRange.readLocks_lt (hrange : (RwState.mk lock (s.threads.set i th')).InRange)
    (hi : s.threads[i]? = some th) : s.readLocks + th'.readLocks < 2 ^ 64 + th.readLocks := by
  have := readLocks_set hi lock th'
  have := hrange.1
  omega

theorem InRange.inWrlock_lt (hrange : (RwState.mk lock (s.threads.set i th')).InRange)
    (hi : s.threads[i]? = some th) :
    s.inWrlock + th'.place.writers < 2 ^ 64 + th.place.writers := by
  have := inWrlock_set hi lock th'
  have := hrange.2
  omega

/-- The thread has no more than before. -/
theorem InRange.set (hs : s.InRange) (hi : s.threads[i]? = some th) (lock : Rwlock)
    (th' : RwThread) (hr : th'.readLocks ≤ th.readLocks)
    (hw : th'.place.writers ≤ th.place.writers) :
    (RwState.mk lock (s.threads.set i th')).InRange := by
  have h₁ := readLocks_set hi lock th'
  have h₂ := inWrlock_set hi lock th'
  obtain ⟨h₃, h₄⟩ := hs
  exact ⟨by omega, by omega⟩

/-- Each counter changes as what the thread has. -/
theorem Counted.replace (hs : Counted s) (hi : s.threads[i]? = some th)
    (hrange : (RwState.mk lock (s.threads.set i th')).InRange)
    (hr : lock.readers + th.readLocks = s.lock.readers + th'.readLocks)
    (hw : lock.isWriting.toNat + th.writeLocks = s.lock.isWriting.toNat + th'.writeLocks)
    (ha : lock.isWriting = true → lock.readers = 0)
    (hww : lock.writersWaiting + th.place.writers = s.lock.writersWaiting + th'.place.writers) :
    Counted ⟨lock, s.threads.set i th'⟩ where
  inRange := hrange
  readers := by
    have := readLocks_set hi lock th'
    have := hs.readers
    show lock.readers = _
    omega
  writing := by
    have := writeLocks_set hi lock th'
    have := hs.writing
    show lock.isWriting.toNat = _
    omega
  apart := ha
  waiting := by
    have := inWrlock_set hi lock th'
    have := hs.waiting
    show lock.writersWaiting = _
    omega

theorem mustWait_replace (hs : Kept s)
    (hread : s.lock.rdlockWaits = true → lock.rdlockWaits = true)
    (hwrite : s.lock.wrlockWaits = true → lock.wrlockWaits = true)
    (hnew : MustWait lock th'.place) :
    ∀ u ∈ s.threads.set i th', MustWait lock u.place := by
  refine forall_mem_set (fun u hu => ?_) hnew
  have hold := hs.mustWait u hu
  cases hp : u.place with
  | outside => exact trivial
  | inRdlock b =>
    cases b with
    | true => exact trivial
    | false =>
      rw [hp] at hold
      exact hread hold
  | inWrlock b =>
    cases b with
    | true => exact trivial
    | false =>
      rw [hp] at hold
      exact hwrite hold

end Replace

section Signal
variable {lock : Rwlock} {ts : List RwThread}

theorem inWrlock_signal :
    (RwState.mk lock (ts.map RwThread.signal)).inWrlock = (RwState.mk lock ts).inWrlock :=
  total_map fun th => Place.writers_signal th.place

theorem readLocks_signal :
    (RwState.mk lock (ts.map RwThread.signal)).readLocks = (RwState.mk lock ts).readLocks :=
  total_map fun _ => rfl

theorem writeLocks_signal :
    (RwState.mk lock (ts.map RwThread.signal)).writeLocks = (RwState.mk lock ts).writeLocks :=
  total_map fun _ => rfl

theorem inRange_signal :
    (RwState.mk lock (ts.map RwThread.signal)).InRange ↔ (RwState.mk lock ts).InRange := by
  unfold InRange
  rw [readLocks_signal, inWrlock_signal]

/-- After a broadcast nobody waits unsignalled. -/
theorem Counted.broadcast (hs : Counted ⟨lock, ts⟩) :
    Kept ⟨lock, ts.map RwThread.signal⟩ where
  inRange := inRange_signal.mpr hs.inRange
  readers := by
    rw [readLocks_signal]
    exact hs.readers
  writing := by
    rw [writeLocks_signal]
    exact hs.writing
  apart := hs.apart
  waiting := by
    rw [inWrlock_signal]
    exact hs.waiting
  mustWait := by
    intro th hth
    obtain ⟨u, _, rfl⟩ := List.mem_map.mp hth
    unfold RwThread.signal
    cases u.place <;> exact trivial

end Signal

theorem rdlockWaits_eq_false {lock : Rwlock} (h : lock.rdlockWaits = false) :
    lock.isWriting = false ∧ lock.writersWaiting = 0 := by
  simpa [Rwlock.rdlockWaits] using h

theorem wrlockWaits_eq_false {lock : Rwlock} (h : lock.wrlockWaits = false) :
    lock.readers = 0 ∧ lock.isWriting = false := by
  simpa [Rwlock.wrlockWaits] using h

/-- Who unlocks a lock that is written has the write lock. -/
theorem release_writing (hs : Counted s) (hi : s.threads[i]? = some th)
    (hhas : 0 < th.readLocks + th.writeLocks) (hw : s.lock.isWriting = true) :
    th.writeLocks = 1 ∧ th.readLocks = 0 := by
  have hr := hs.apart hw
  have hread := hs.readers
  have hwrite := hs.writing
  have := le_readLocks hi
  have := le_writeLocks hi
  rw [hw] at hwrite
  simp only [Bool.toNat_true] at hwrite
  omega

/-- Who unlocks a lock that is not written has a read lock. -/
theorem release_reading (hs : Counted s) (hi : s.threads[i]? = some th)
    (hhas : 0 < th.readLocks + th.writeLocks) (hw : s.lock.isWriting = false) :
    th.writeLocks = 0 ∧ 0 < th.readLocks := by
  have hwrite := hs.writing
  have := le_writeLocks hi
  rw [hw] at hwrite
  simp only [Bool.toNat_false] at hwrite
  omega

/-! ## One segment -/

theorem Kept.reads (hs : Kept s) (hi : s.threads[i]? = some th) (hth : th.place.writers = 0)
    (hw : s.lock.rdlockWaits = false)
    (hrange : (RwState.mk { s.lock with readers := sizeInc s.lock.readers }
      (s.threads.set i { th with place := .outside, readLocks := th.readLocks + 1 })).InRange) :
    Kept ⟨{ s.lock with readers := sizeInc s.lock.readers },
      s.threads.set i { th with place := .outside, readLocks := th.readLocks + 1 }⟩ := by
  obtain ⟨hfree, hnone⟩ := rdlockWaits_eq_false hw
  have hinc : sizeInc s.lock.readers = s.lock.readers + 1 := by
    refine sizeInc_eq ?_
    have hlt := hrange.readLocks_lt hi
    have hcount := hs.readers
    simp only at hlt
    omega
  refine ⟨hs.toCounted.replace hi hrange ?_ ?_ ?_ ?_, mustWait_replace hs ?_ ?_ trivial⟩
  · simp only [hinc]
    omega
  · simp only
  · intro hwr
    rw [hfree] at hwr
    cases hwr
  · simp only [hth, Place.writers_outside]
  · intro hread
    rw [hw] at hread
    cases hread
  · intro _
    simp [Rwlock.wrlockWaits, hinc]

theorem Kept.writeEnters (hs : Kept s) (hi : s.threads[i]? = some th) (hth : th.place = .outside)
    (hw : s.lock.wrlockWaits = true)
    (hrange : (RwState.mk { s.lock with writersWaiting := sizeInc s.lock.writersWaiting }
      (s.threads.set i { th with place := .inWrlock false })).InRange) :
    Kept ⟨{ s.lock with writersWaiting := sizeInc s.lock.writersWaiting },
      s.threads.set i { th with place := .inWrlock false }⟩ := by
  have hinc : sizeInc s.lock.writersWaiting = s.lock.writersWaiting + 1 := by
    refine sizeInc_eq ?_
    have hlt := hrange.inWrlock_lt hi
    have hcount := hs.waiting
    simp only [hth, Place.writers_outside, Place.writers_inWrlock] at hlt
    omega
  refine ⟨hs.toCounted.replace hi hrange ?_ ?_ hs.apart ?_, mustWait_replace hs ?_ id hw⟩
  · simp only
  · simp only
  · simp only [hth, hinc, Place.writers_outside, Place.writers_inWrlock]
  · intro _
    simp [Rwlock.rdlockWaits, hinc]

/-- A thread that gets the write lock leaves nobody behind: while the lock is written everybody
has to wait, so the decrement of `writers_waiting` needs no broadcast. -/
theorem Kept.writes (hs : Kept s) (hi : s.threads[i]? = some th)
    (hw : s.lock.wrlockWaits = false) {waiting : Nat}
    (hwaiting : waiting + th.place.writers = s.lock.writersWaiting)
    (hrange : (RwState.mk { s.lock with isWriting := true, writersWaiting := waiting }
      (s.threads.set i
        { th with place := .outside, writeLocks := th.writeLocks + 1 })).InRange) :
    Kept ⟨{ s.lock with isWriting := true, writersWaiting := waiting },
      s.threads.set i { th with place := .outside, writeLocks := th.writeLocks + 1 }⟩ := by
  obtain ⟨hnone, hfree⟩ := wrlockWaits_eq_false hw
  refine ⟨hs.toCounted.replace hi hrange ?_ ?_ ?_ ?_, mustWait_replace hs ?_ ?_ trivial⟩
  · simp only
  · simp only [hfree, Bool.toNat_true, Bool.toNat_false]
    omega
  · intro _
    exact hnone
  · simp only [Place.writers_outside]
    omega
  · intro _
    simp [Rwlock.rdlockWaits]
  · intro _
    simp [Rwlock.wrlockWaits]

/-- The counter in each of the three ways to the write lock. -/
theorem Counted.waiting_of_writes (hs : Counted s) (hi : s.threads[i]? = some th) {waiting : Nat}
    (h : (th.place = .outside ∧ waiting = sizeDec (sizeInc s.lock.writersWaiting)) ∨
      (th.place.writers = 1 ∧ waiting = sizeDec s.lock.writersWaiting) ∨
      (th.place = .outside ∧ waiting = s.lock.writersWaiting)) :
    waiting + th.place.writers = s.lock.writersWaiting := by
  have hrange := hs.inRange.2
  have hcount := hs.waiting
  rcases h with ⟨hth, hwaiting⟩ | ⟨hth, hwaiting⟩ | ⟨hth, hwaiting⟩
  · rw [sizeDec_sizeInc (by omega)] at hwaiting
    simp only [hwaiting, hth, Place.writers_outside, Nat.add_zero]
  · have hin := le_inWrlock hi
    rw [sizeDec_eq (by omega) (by omega)] at hwaiting
    omega
  · simp only [hwaiting, hth, Place.writers_outside, Nat.add_zero]

theorem Counted.unlocksWrite (hs : Counted s) (hi : s.threads[i]? = some th)
    (hhas : 0 < th.readLocks + th.writeLocks) (hw : s.lock.isWriting = true) :
    Counted ⟨{ s.lock with isWriting := false }, s.threads.set i th.release⟩ := by
  obtain ⟨hwrite, hread⟩ := release_writing hs hi hhas hw
  have hrel : th.release = { th with writeLocks := th.writeLocks - 1 } := by
    simp [RwThread.release, hwrite]
  rw [hrel]
  refine hs.replace hi (hs.inRange.set hi _ _ (Nat.le_refl _) (Nat.le_refl _)) ?_ ?_ ?_ ?_
  · simp only
  · simp only [hwrite, hw, Bool.toNat_true, Bool.toNat_false]
  · intro h
    cases h
  · simp only

theorem Counted.unlocksRead (hs : Counted s) (hi : s.threads[i]? = some th)
    (hhas : 0 < th.readLocks + th.writeLocks) (hw : s.lock.isWriting = false) :
    Counted ⟨{ s.lock with readers := sizeDec s.lock.readers }, s.threads.set i th.release⟩ := by
  obtain ⟨hwrite, hread⟩ := release_reading hs hi hhas hw
  have hrel : th.release = { th with readLocks := th.readLocks - 1 } := by
    simp [RwThread.release, hwrite]
  have hdec : sizeDec s.lock.readers = s.lock.readers - 1 := by
    have hall := le_readLocks hi
    have hcount := hs.readers
    have hlt := hs.inRange.1
    exact sizeDec_eq (by omega) (by omega)
  rw [hrel]
  refine hs.replace hi (hs.inRange.set hi _ _ (Nat.sub_le _ _) (Nat.le_refl _)) ?_ ?_ ?_ ?_
  · have hall := le_readLocks hi
    have hcount := hs.readers
    simp only [hdec]
    omega
  · simp only
  · intro h
    simp only [hw, Bool.false_eq_true] at h
  · simp only

theorem rdlockWaits_readers (lock : Rwlock) (k : Nat) :
    ({ lock with readers := k } : Rwlock).rdlockWaits = lock.rdlockWaits := rfl

theorem wrlockWaits_readers (lock : Rwlock) {k : Nat} (hk : k ≠ 0) :
    ({ lock with readers := k } : Rwlock).wrlockWaits = true := by
  simp [Rwlock.wrlockWaits, hk]

/-- While there are readers left, who waits for them still has to wait. -/
theorem Kept.unlocksRead (hs : Kept s) (hi : s.threads[i]? = some th) (hth : th.place = .outside)
    (hhas : 0 < th.readLocks + th.writeLocks) (hw : s.lock.isWriting = false)
    (hmore : sizeDec s.lock.readers ≠ 0) :
    Kept ⟨{ s.lock with readers := sizeDec s.lock.readers }, s.threads.set i th.release⟩ := by
  have hnew : MustWait { s.lock with readers := sizeDec s.lock.readers } th.release.place := by
    rw [th.release_place, hth]
    exact trivial
  have hread := rdlockWaits_readers s.lock (sizeDec s.lock.readers)
  have hwrite := wrlockWaits_readers s.lock hmore
  exact ⟨hs.toCounted.unlocksRead hi hhas hw,
    mustWait_replace hs (fun h => hread.trans h) (fun _ => hwrite) hnew⟩

/-- The thread is as it was, except where it waits. -/
theorem Kept.stays (hs : Kept s) (hi : s.threads[i]? = some th) {p : Place}
    (hp : p.writers = th.place.writers) (hwait : MustWait s.lock p) :
    Kept ⟨s.lock, s.threads.set i { th with place := p }⟩ := by
  have hrange := hs.inRange.set hi s.lock { th with place := p } (Nat.le_refl _) (Nat.le_of_eq hp)
  refine ⟨hs.toCounted.replace hi hrange ?_ ?_ hs.apart ?_, mustWait_replace hs id id hwait⟩
  · simp only
  · simp only
  · simp only [hp]

/-- Every segment keeps the invariant, as long as the counters do not wrap. -/
theorem Kept.step (hs : Kept s) (h : s.step i m = some (e, s')) (hrange : s'.InRange) :
    Kept s' := by
  obtain ⟨th, hi, hmoved⟩ := step_cases h
  have hself : Kept ⟨s.lock, s.threads.set i th⟩ :=
    hs.stays hi rfl (hs.mustWait th (List.mem_of_getElem? hi))
  cases hmoved with
  | readWaits hth hw => exact hs.stays hi hth.symm hw
  | reads hth hw e he => exact hs.reads hi hth hw hrange
  | writeEnters hth hw => exact hs.writeEnters hi hth hw hrange
  | writeWaits hth hw => exact hs.stays hi hth.symm hw
  | writes hw waiting e he hwaiting =>
    exact hs.writes hi hw (hs.toCounted.waiting_of_writes hi hwaiting) hrange
  | tryFails => exact hself
  | unlocksWrite hth hhas hw => exact (hs.toCounted.unlocksWrite hi hhas hw).broadcast
  | unlocksLast hth hhas hw hr hlast =>
    exact (hs.toCounted.unlocksRead hi hhas hw).broadcast
  | unlocksRead hth hhas hw hr hmore => exact hs.unlocksRead hi hth hhas hw hmore
  | invalid hhas hw hr => exact hself

/-! ## Runs -/

theorem kept_start (n : Nat) : Kept (start n) where
  inRange := by
    unfold InRange RwState.readLocks inWrlock
    simp [start, total_replicate, Place.writers]
  readers := by
    unfold RwState.readLocks
    simp [start, aodbmRwlockInit, total_replicate]
  writing := by
    unfold RwState.writeLocks
    simp [start, aodbmRwlockInit, total_replicate]
  apart := fun _ => rfl
  waiting := by
    unfold inWrlock
    simp [start, aodbmRwlockInit, total_replicate, Place.writers]
  mustWait := by
    intro th hth
    obtain ⟨_, rfl⟩ := List.mem_replicate.mp hth
    exact trivial

/-- Any run of `n` threads in which the counters do not wrap leads to this state. -/
def Reached (n : Nat) (s : RwState) : Prop :=
  Relation.ReflTransGen (fun s s' => Steps s s' ∧ s'.InRange) (start n) s

theorem Reached.kept (h : Reached n s) : Kept s := by
  induction h with
  | refl => exact kept_start n
  | tail _ hstep ih =>
    obtain ⟨⟨i, m, e, hstep⟩, hrange⟩ := hstep
    exact ih.step hstep hrange

/-- What holds between two segments. -/
structure Sound (s : RwState) : Prop where
  readers : s.lock.readers = s.readLocks
  readHolders : (∀ th ∈ s.threads, th.readLocks ≤ 1) → s.lock.readers = s.readHolders
  writing : s.lock.isWriting = true ↔ s.writeHolders = 1
  single : s.writeLocks ≤ 1
  apart : s.lock.isWriting = true → s.lock.readers = 0
  waiting : s.lock.writersWaiting = s.inWrlock
  unsignalled : ∀ th ∈ s.threads,
    (th.place = .inRdlock false → s.lock.rdlockWaits = true) ∧
    (th.place = .inWrlock false → s.lock.wrlockWaits = true)
  /-- A lock that nobody has does not leave only unsignalled threads behind. -/
  handed : s.readLocks = 0 → s.writeLocks = 0 → (∃ th ∈ s.threads, th.place.waiting = true) →
    ∃ th ∈ s.threads, th.place.waiting = true ∧ th.place.signalled = true

/-- Somebody is counted by `writers_waiting`. -/
theorem exists_inWrlock (h : 0 < s.inWrlock) : ∃ th ∈ s.threads, ∃ b, th.place = .inWrlock b := by
  have hpos : 0 < holders (fun th : RwThread => th.place.writers) s.threads := holders_pos h
  obtain ⟨th, hth, hw⟩ := List.countP_pos_iff.mp hpos
  refine ⟨th, hth, ?_⟩
  cases hp : th.place with
  | outside => simp [hp] at hw
  | inRdlock b => simp [hp] at hw
  | inWrlock b => exact ⟨b, rfl⟩

/-- Of a free lock: who is inside `aodbm_rwlock_wrlock` has been signalled, and if nobody is, so
has who is inside `aodbm_rwlock_rdlock`. -/
theorem Kept.handed (hs : Kept s) (hr : s.readLocks = 0) (hw : s.writeLocks = 0)
    (hwait : ∃ th ∈ s.threads, th.place.waiting = true) :
    ∃ th ∈ s.threads, th.place.waiting = true ∧ th.place.signalled = true := by
  have hfree : s.lock.isWriting = false := by
    have := hs.writing
    rw [hw] at this
    exact Bool.toNat_eq_zero.mp this
  have hnone : s.lock.readers = 0 := hs.readers.trans hr
  rcases Nat.eq_zero_or_pos s.inWrlock with hin | hin
  · obtain ⟨th, hth, hwaits⟩ := hwait
    have hmust := hs.mustWait th hth
    refine ⟨th, hth, hwaits, ?_⟩
    cases hp : th.place with
    | outside => simp [hp, Place.waiting] at hwaits
    | inRdlock b =>
      cases b with
      | true => rfl
      | false => simp [hp, MustWait, Rwlock.rdlockWaits, hfree, hs.waiting, hin] at hmust
    | inWrlock b =>
      have hone := le_total (w := fun th : RwThread => th.place.writers)
        (List.getElem?_of_mem hth).choose_spec
      have hzero : total (fun th : RwThread => th.place.writers) s.threads = 0 := hin
      simp [hzero, hp] at hone
  · obtain ⟨th, hth, b, hp⟩ := exists_inWrlock hin
    have hmust := hs.mustWait th hth
    refine ⟨th, hth, by rw [hp]; rfl, ?_⟩
    cases b with
    | true =>
      rw [hp]
      rfl
    | false => simp [hp, MustWait, Rwlock.wrlockWaits, hfree, hnone] at hmust

theorem Kept.sound (hs : Kept s) : Sound s where
  readers := hs.readers
  readHolders := fun h => hs.readers.trans (total_eq_holders h)
  writing := by
    have hle : s.writeHolders ≤ s.writeLocks := holders_le_total
    have hpos : 0 < s.writeLocks → 0 < s.writeHolders := holders_pos
    have hcount := hs.writing
    cases hw : s.lock.isWriting with
    | true =>
      rw [hw] at hcount
      simp only [Bool.toNat_true] at hcount
      simp only [true_iff]
      omega
    | false =>
      rw [hw] at hcount
      simp only [Bool.toNat_false] at hcount
      simp only [Bool.false_eq_true, false_iff]
      omega
  single := by
    rw [← hs.writing]
    exact Bool.toNat_le _
  apart := hs.apart
  waiting := hs.waiting
  unsignalled := by
    intro th hth
    have hmust := hs.mustWait th hth
    refine ⟨fun hp => ?_, fun hp => ?_⟩
    · rw [hp] at hmust
      exact hmust
    · rw [hp] at hmust
      exact hmust
  handed := hs.handed

/-- A thread that has a lock can give it back. -/
theorem Kept.step_ne_fails (hs : Kept s) (h : s.step i m = some (e, s')) (msg : String) :
    e ≠ .fails msg := by
  obtain ⟨th, hi, hmoved⟩ := step_cases h
  cases hmoved with
  | reads hth hw e he =>
    rcases he with rfl | rfl
    · exact fun h => nomatch h
    · exact fun h => nomatch h
  | writes hw waiting e he hwaiting =>
    rcases he with rfl | rfl
    · exact fun h => nomatch h
    · exact fun h => nomatch h
  | invalid hhas hw hr =>
    obtain ⟨_, hread⟩ := release_reading hs.toCounted hi hhas hw
    have hall := le_readLocks hi
    have hcount := hs.readers
    omega
  | _ => exact fun h => nomatch h

/-- No read lock is taken while a thread waits to write. -/
theorem Kept.step_readLocks (hs : Kept s) (h : s.step i m = some (e, s'))
    (hmore : s.readLocks < s'.readLocks) : s.inWrlock = 0 := by
  obtain ⟨th, hi, hmoved⟩ := step_cases h
  cases hmoved with
  | reads hth hw e he => exact hs.waiting.symm.trans (rdlockWaits_eq_false hw).2
  | unlocksWrite hth hhas hw =>
    rw [readLocks_signal] at hmore
    exact absurd hmore (Nat.not_lt.mpr (readLocks_set_le hi th.release_readLocks))
  | unlocksLast hth hhas hw hr hlast =>
    rw [readLocks_signal] at hmore
    exact absurd hmore (Nat.not_lt.mpr (readLocks_set_le hi th.release_readLocks))
  | unlocksRead hth hhas hw hr hmore' =>
    exact absurd hmore (Nat.not_lt.mpr (readLocks_set_le hi th.release_readLocks))
  | _ => exact absurd hmore (Nat.not_lt.mpr (readLocks_set_le hi (Nat.le_refl _)))

/-- The lock in every run of any number of threads that unlock only what they have. -/
theorem rwlock_sound (h : Reached n s) :
    s.Sound ∧ ∀ i m e s', s.step i m = some (e, s') →
      (∀ msg, e ≠ .fails msg) ∧ (s.readLocks < s'.readLocks → s.inWrlock = 0) :=
  ⟨h.kept.sound, fun _ _ _ _ hstep =>
    ⟨h.kept.step_ne_fails hstep, h.kept.step_readLocks hstep⟩⟩

/-- Two threads: the first reads, the second waits to write. -/
theorem rwlock_sound_waiting :
    Sound ⟨⟨1, 1, false⟩, [⟨.outside, 1, 0⟩, ⟨.inWrlock false, 0, 0⟩]⟩ := by
  have hread : (start 2).step 0 (.call .rdlock) =
      some (.returns, ⟨⟨1, 0, false⟩, [⟨.outside, 1, 0⟩, ⟨.outside, 0, 0⟩]⟩) := by
    decide +kernel
  have hwait : (RwState.mk ⟨1, 0, false⟩ [⟨.outside, 1, 0⟩, ⟨.outside, 0, 0⟩]).step 1
      (.call .wrlock) =
      some (.waits, ⟨⟨1, 1, false⟩, [⟨.outside, 1, 0⟩, ⟨.inWrlock false, 0, 0⟩]⟩) := by
    decide +kernel
  have hreached : Reached 2 ⟨⟨1, 1, false⟩, [⟨.outside, 1, 0⟩, ⟨.inWrlock false, 0, 0⟩]⟩ :=
    .tail (.tail .refl ⟨⟨0, _, _, hread⟩, by unfold InRange; decide +kernel⟩)
      ⟨⟨1, _, _, hwait⟩, by unfold InRange; decide +kernel⟩
  exact (rwlock_sound hreached).1

/-- A thread may read as often as it likes. -/
theorem reachable_readers (k : Nat) :
    Reachable 1 ⟨⟨k % 2 ^ 64, 0, false⟩, [⟨.outside, k, 0⟩]⟩ := by
  induction k with
  | zero => exact .refl
  | succ k ih =>
    refine ih.tail ⟨0, .call .rdlock, .returns, ?_⟩
    rw [← sizeInc_mod]
    rfl

/-- The readers are not the threads that read: `rdlock` and then `tryrdlock` of one thread counts
twice. After `2 ^ 64` of them the counter is 0 again. -/
theorem readers_not_threads :
    (∃ s, Reachable 1 s ∧ s.lock.readers = 2 ∧ s.readHolders = 1) ∧
    ∃ s, Reachable 1 s ∧ s.lock.readers = 0 ∧ s.readHolders = 1 ∧ s.readLocks = 2 ^ 64 := by
  have hfirst : (start 1).step 0 (.call .rdlock) =
      some (.returns, ⟨⟨1, 0, false⟩, [⟨.outside, 1, 0⟩]⟩) := by
    decide +kernel
  have hsecond : (RwState.mk ⟨1, 0, false⟩ [⟨.outside, 1, 0⟩]).step 0 (.call .tryrdlock) =
      some (.returnsBool true, ⟨⟨2, 0, false⟩, [⟨.outside, 2, 0⟩]⟩) := by
    decide +kernel
  refine ⟨⟨_, .tail (.tail .refl ⟨0, _, _, hfirst⟩) ⟨0, _, _, hsecond⟩, rfl, ?_⟩, ?_⟩
  · decide +kernel
  · refine ⟨_, reachable_readers (2 ^ 64), Nat.mod_self _, ?_, ?_⟩
    · decide +kernel
    · decide +kernel

end RwState

end Aodbm
