import Mathlib.Data.Option.Basic
import Mathlib.Tactic.Common

/-!
# Recursive mutexes

A recursive mutex is free, or a thread holds it and has locked it some number of times, its
depth.

Results:
1. `lock_eq_some`: when a thread gets the mutex, and what it gets.
2. `unlock_lock`: an unlock takes back a lock.
3. `depth_lockTimes`, `lockTimes_other`: the depth after some locks, for the thread and for
   others.
-/

namespace Mutexes

variable {τ : Type}

/-- Held means locked `more + 1` times. -/
inductive RecMutex (τ : Type) where
  | free
  | held (owner : τ) (more : Nat)
deriving DecidableEq

variable [DecidableEq τ]

/-- How many times the thread has locked the mutex. -/
def RecMutex.depth (t : τ) : RecMutex τ → Nat
  | .free => 0
  | .held owner more => if owner = t then more + 1 else 0

/-- The mutex after the thread got it; `none` if the thread has to wait. -/
def RecMutex.lock (t : τ) : RecMutex τ → Option (RecMutex τ)
  | .free => some (.held t 0)
  | .held owner more => if owner = t then some (.held t (more + 1)) else none

/-- A thread that does not hold the mutex changes nothing. -/
def RecMutex.unlock (t : τ) : RecMutex τ → RecMutex τ
  | .free => .free
  | .held owner 0 => if owner = t then .free else .held owner 0
  | .held owner (more + 1) => if owner = t then .held owner more else .held owner (more + 1)

/-- The thread gets the mutex some times. -/
def RecMutex.lockTimes (t : τ) : Nat → RecMutex τ → Option (RecMutex τ)
  | 0, m => some m
  | n + 1, m => (m.lock t).bind (lockTimes t n)

variable {t u : τ} {m m' m'' : RecMutex τ} {n k : Nat}

/-- A thread gets a mutex that is free or its own. -/
theorem lock_eq_some :
    m.lock t = some m' ↔ m' = .held t (m.depth t) ∧ (m = .free ∨ 0 < m.depth t) := by
  cases m with
  | free => simp [RecMutex.lock, RecMutex.depth, eq_comm]
  | held owner more =>
    by_cases h : owner = t
    · simp [RecMutex.lock, RecMutex.depth, h, eq_comm]
    · simp [RecMutex.lock, RecMutex.depth, h]

theorem unlock_lock (h : m.lock t = some m') : m'.unlock t = m := by
  cases m with
  | free =>
    cases h
    simp [RecMutex.unlock]
  | held owner more =>
    rcases eq_or_ne owner t with rfl | ht
    · simp only [RecMutex.lock, if_true, Option.some.injEq] at h
      subst h
      simp [RecMutex.unlock]
    · simp [RecMutex.lock, ht] at h

theorem depth_lock (h : m.lock t = some m') : m'.depth t = m.depth t + 1 := by
  obtain ⟨rfl, _⟩ := lock_eq_some.mp h
  simp [RecMutex.depth]

/-- A mutex that another thread holds is not got. -/
theorem lock_eq_none (htu : t ≠ u) (h : 0 < m.depth u) : m.lock t = none := by
  cases m with
  | free => simp [RecMutex.depth] at h
  | held owner more =>
    by_cases hu : owner = u
    · simp [RecMutex.lock, hu, htu.symm]
    · simp [RecMutex.depth, hu] at h

/-- Who waits for a mutex waits for one that has locked it. -/
theorem exists_owner (h : m.lock t = none) : ∃ u, 0 < m.depth u := by
  cases m with
  | free => cases h
  | held owner more =>
    refine ⟨owner, ?_⟩
    rw [RecMutex.depth, if_pos rfl]
    exact Nat.succ_pos more

theorem depth_lock_other (htu : t ≠ u) (h : m.lock t = some m') : m'.depth u = m.depth u := by
  obtain ⟨rfl, hm⟩ := lock_eq_some.mp h
  have hu : m.depth u = 0 := by
    by_contra hne
    rw [lock_eq_none htu (Nat.pos_of_ne_zero hne)] at h
    cases h
  rw [hu, RecMutex.depth, if_neg htu]

theorem lockTimes_add (n k : Nat) (m : RecMutex τ) :
    m.lockTimes t (n + k) = (m.lockTimes t n).bind (RecMutex.lockTimes t k) := by
  induction n generalizing m with
  | zero => simp [RecMutex.lockTimes]
  | succ n ih =>
    rw [Nat.add_right_comm, RecMutex.lockTimes, RecMutex.lockTimes, Option.bind_assoc]
    congr 1
    funext m'
    exact ih m'

theorem depth_lockTimes (h : m.lockTimes t n = some m') : m'.depth t = m.depth t + n := by
  induction n generalizing m with
  | zero =>
    cases h
    rfl
  | succ n ih =>
    obtain ⟨m₁, h₁, hrest⟩ := Option.bind_eq_some_iff.mp h
    rw [ih hrest, depth_lock h₁]
    omega

theorem lockTimes_other (htu : t ≠ u) (h : m.lockTimes t n = some m') :
    m'.depth u = m.depth u := by
  induction n generalizing m with
  | zero =>
    cases h
    rfl
  | succ n ih =>
    obtain ⟨m₁, h₁, hrest⟩ := Option.bind_eq_some_iff.mp h
    rw [ih hrest, depth_lock_other htu h₁]

theorem depth_unlock : (m.unlock t).depth t = m.depth t - 1 := by
  cases m with
  | free => rfl
  | held owner more =>
    by_cases ht : owner = t
    · cases more with
      | zero => simp [RecMutex.unlock, RecMutex.depth, ht]
      | succ more => simp [RecMutex.unlock, RecMutex.depth, ht]
    · cases more with
      | zero => simp [RecMutex.unlock, RecMutex.depth, ht]
      | succ more => simp [RecMutex.unlock, RecMutex.depth, ht]

theorem depth_unlock_other (htu : t ≠ u) : (m.unlock t).depth u = m.depth u := by
  cases m with
  | free => rfl
  | held owner more =>
    rcases eq_or_ne owner t with rfl | ht
    · cases more with
      | zero => simp [RecMutex.unlock, RecMutex.depth, htu]
      | succ more => simp [RecMutex.unlock, RecMutex.depth, htu]
    · cases more with
      | zero => simp [RecMutex.unlock, ht]
      | succ more => simp [RecMutex.unlock, ht]

/-- One thread at most has locked a mutex. -/
theorem owner_unique (ht : 0 < m.depth t) (hu : 0 < m.depth u) : t = u := by
  cases m with
  | free => simp [RecMutex.depth] at ht
  | held owner more =>
    have howner : owner = t := by
      by_contra hne
      simp [RecMutex.depth, hne] at ht
    have howner' : owner = u := by
      by_contra hne
      simp [RecMutex.depth, hne] at hu
    exact howner.symm.trans howner'

/-- A mutex that no thread has locked is free. -/
theorem eq_free (h : ∀ t, m.depth t = 0) : m = .free := by
  cases m with
  | free => rfl
  | held owner more =>
    have := h owner
    simp [RecMutex.depth] at this

end Mutexes
