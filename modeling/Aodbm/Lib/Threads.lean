import Mathlib.Algebra.Group.Nat.Defs
import Mathlib.Logic.Function.Basic
import Mathlib.Tactic.Common

/-!
# Counts over threads

The threads are a list, and each has some number of something. One thread takes a step: one
entry of the list is replaced.

Results:
1. `total_set`: the change of the total is the change of the thread.
2. `holders_le_total`, `holders_pos`, `total_eq_holders`: the threads that have something at
   all, against the total.
3. `add_le_total`, `total_le_length`: a thread, or two, or all, against the total.
-/

namespace Threads

variable {σ : Type} {w : σ → Nat} {ts : List σ} {i : Nat} {a : σ}

/-- What the threads have together. -/
def total (w : σ → Nat) : List σ → Nat
  | [] => 0
  | t :: ts => w t + total w ts

/-- The number of threads that have something. -/
def holders (w : σ → Nat) (ts : List σ) : Nat := ts.countP fun t => 0 < w t

@[simp] theorem total_nil : total w [] = 0 := rfl

@[simp] theorem total_cons (t : σ) : total w (t :: ts) = w t + total w ts := rfl

/-- Written without a subtraction. -/
theorem total_set (h : ts[i]? = some a) (b : σ) :
    total w (ts.set i b) + w a = total w ts + w b := by
  induction ts generalizing i with
  | nil => simp at h
  | cons t ts ih =>
    cases i with
    | zero =>
      simp only [List.getElem?_cons_zero, Option.some.injEq] at h
      subst h
      simp only [List.set_cons_zero, total_cons]
      omega
    | succ i =>
      have := ih h
      simp only [List.set_cons_succ, total_cons]
      omega

theorem total_map {f : σ → σ} (hf : ∀ t, w (f t) = w t) : total w (ts.map f) = total w ts := by
  induction ts with
  | nil => rfl
  | cons t ts ih => rw [List.map_cons, total_cons, total_cons, hf, ih]

theorem total_replicate (n : Nat) : total w (List.replicate n a) = n * w a := by
  induction n with
  | zero => simp
  | succ n ih => rw [List.replicate_succ, total_cons, ih, Nat.succ_mul, Nat.add_comm]

/-- One thread has no more than all. -/
theorem le_total (h : ts[i]? = some a) : w a ≤ total w ts := by
  induction ts generalizing i with
  | nil => simp at h
  | cons t ts ih =>
    rw [total_cons]
    cases i with
    | zero =>
      simp only [List.getElem?_cons_zero, Option.some.injEq] at h
      subst h
      exact Nat.le_add_right _ _
    | succ i => exact Nat.le_trans (ih h) (Nat.le_add_left _ _)

theorem holders_le_total : holders w ts ≤ total w ts := by
  induction ts with
  | nil => exact Nat.le_refl 0
  | cons t ts ih =>
    unfold holders at ih ⊢
    rw [List.countP_cons, total_cons]
    split
    · next h =>
      have := of_decide_eq_true h
      omega
    · omega

theorem holders_pos (h : 0 < total w ts) : 0 < holders w ts := by
  induction ts with
  | nil => exact absurd h (Nat.lt_irrefl 0)
  | cons t ts ih =>
    unfold holders at ih ⊢
    rw [List.countP_cons]
    rw [total_cons] at h
    by_cases ht : 0 < w t
    · simp [ht]
    · have := ih (by omega)
      omega

/-- If no thread has more than one, the total is the number of threads that have one. -/
theorem total_eq_holders (h : ∀ t ∈ ts, w t ≤ 1) : total w ts = holders w ts := by
  induction ts with
  | nil => rfl
  | cons t ts ih =>
    have ih' := ih fun u hu => h u (List.mem_cons_of_mem _ hu)
    have ht := h t List.mem_cons_self
    unfold holders at ih' ⊢
    rw [List.countP_cons, total_cons, ih']
    by_cases hpos : 0 < w t
    · simp only [hpos, decide_true, if_true]
      omega
    · simp only [hpos, decide_false, Bool.false_eq_true, if_false]
      omega

/-- What one step leaves to prove of a property of every thread. -/
theorem forall_mem_set {P : σ → Prop} {b : σ} (h : ∀ t ∈ ts, P t) (hb : P b) :
    ∀ t ∈ ts.set i b, P t := by
  intro t ht
  rcases List.mem_or_eq_of_mem_set ht with ht | rfl
  · exact h t ht
  · exact hb

/-- Two threads have no more than all. -/
theorem add_le_total {j : Nat} {b : σ} (hi : ts[i]? = some a) (hj : ts[j]? = some b)
    (hij : i ≠ j) : w a + w b ≤ total w ts := by
  induction ts generalizing i j with
  | nil => simp at hi
  | cons t ts ih =>
    rw [total_cons]
    cases i with
    | zero =>
      obtain ⟨j, rfl⟩ := Nat.exists_eq_succ_of_ne_zero hij.symm
      rw [List.getElem?_cons_zero, Option.some.injEq] at hi
      subst hi
      have hle : w b ≤ total w ts := le_total hj
      exact Nat.add_le_add_left hle _
    | succ i =>
      cases j with
      | zero =>
        rw [List.getElem?_cons_zero, Option.some.injEq] at hj
        subst hj
        rw [Nat.add_comm]
        have hle : w a ≤ total w ts := le_total hi
        exact Nat.add_le_add_left hle _
      | succ j =>
        have hlt := ih hi hj fun h => hij (congrArg _ h)
        exact Nat.le_trans hlt (Nat.le_add_left _ _)

/-- If no thread has more than one, the total is no more than the number of threads. -/
theorem total_le_length (h : ∀ t ∈ ts, w t ≤ 1) : total w ts ≤ ts.length := by
  rw [total_eq_holders h]
  exact List.countP_le_length

/-- Threads that are numbered. -/
theorem ofFn_update {n : Nat} (g : Fin n → σ) (t : Fin n) (b : σ) :
    List.ofFn (Function.update g t b) = (List.ofFn g).set t b := by
  refine List.ext_getElem (by simp) fun i hi _ => ?_
  rw [List.getElem_ofFn, List.getElem_set, List.getElem_ofFn]
  by_cases h : (t : Nat) = i
  · subst h
    rw [if_pos rfl]
    exact Function.update_self t b g
  · rw [if_neg h, Function.update_of_ne fun heq => h (congrArg Fin.val heq.symm)]

end Threads
