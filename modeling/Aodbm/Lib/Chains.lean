import Mathlib.Data.List.Induction
import Mathlib.Logic.Function.Basic
import Mathlib.Tactic.Common

/-!
# Doubly linked chains

Cells in a store point to their neighbours. `Chain cells start stop xs`: the cells at the
addresses of `xs` hold its items, point to each other in both directions in this order,
and the outer pointers are `start` and `stop`.

Results:
1. `chain_append`: a chain falls apart into two, each with the ends of the other.
2. `Chain.frame`: a chain only depends on its own cells.
3. `Chain.linkNext`, `Chain.linkPrev`: an outer pointer can be replaced.
4. `Chain.join`, `Chain.splice`, `Chain.unlink`: two chains are joined, a cell is put into
   a chain or taken out of it.
5. `Chain.follow_next`, `Chain.follow_prev`: walks in both directions find the chain.
-/

namespace Chains

variable {ι α : Type}

structure Cell (ι α : Type) where
  next : Option ι
  prev : Option ι
  item : α

/-- A store of cells: `none` is an address that is not in use. -/
abbrev Cells (ι α : Type) := ι → Option (Cell ι α)

def addrs (xs : List (ι × α)) : List ι := xs.map Prod.fst

/-- The address of the first cell, or `stop`. -/
def first : List (ι × α) → Option ι → Option ι
  | [], stop => stop
  | x :: _, _ => some x.1

/-- The address of the last cell, or `start`. -/
def last : List (ι × α) → Option ι → Option ι
  | [], start => start
  | x :: xs, _ => last xs (some x.1)

def Chain (cells : Cells ι α) : Option ι → Option ι → List (ι × α) → Prop
  | _, _, [] => True
  | start, stop, x :: xs =>
    cells x.1 = some ⟨first xs stop, start, x.2⟩ ∧ Chain cells (some x.1) stop xs

/-- The cells met in at most `n` steps from the address `p` on. -/
def follow (step : Cell ι α → Option ι) (cells : Cells ι α) : Nat → Option ι → List (ι × α)
  | 0, _ => []
  | _ + 1, none => []
  | n + 1, some p =>
    match cells p with
    | none => []
    | some c => (p, c.item) :: follow step cells n (step c)

section Store
variable [DecidableEq ι]

def put (cells : Cells ι α) (p : ι) (c : Cell ι α) : Cells ι α := Function.update cells p (some c)

def free (cells : Cells ι α) (p : ι) : Cells ι α := Function.update cells p none

/-- Replace the next pointer of a cell, if there is one. -/
def linkNext (cells : Cells ι α) : Option ι → Option ι → Cells ι α
  | none, _ => cells
  | some p, n => Function.update cells p ((cells p).map fun c => { c with next := n })

/-- Replace the previous pointer of a cell, if there is one. -/
def linkPrev (cells : Cells ι α) : Option ι → Option ι → Cells ι α
  | none, _ => cells
  | some p, n => Function.update cells p ((cells p).map fun c => { c with prev := n })

/-- The last cell of `xs` and the first cell of `ys` point to each other. -/
def joined (cells : Cells ι α) (xs ys : List (ι × α)) : Cells ι α :=
  linkPrev (linkNext cells (last xs none) (first ys none)) (first ys none) (last xs none)

/-- A cell at `p` between the last cell of `xs` and the first cell of `ys`. -/
def spliced (cells : Cells ι α) (xs ys : List (ι × α)) (p : ι) (item : α) : Cells ι α :=
  put (linkNext (linkPrev cells (first ys none) (some p)) (last xs none) (some p)) p
    ⟨first ys none, last xs none, item⟩

/-- The cell at `p` between `xs` and `ys` is taken out. -/
def unlinked (cells : Cells ι α) (xs ys : List (ι × α)) (p : ι) : Cells ι α :=
  free (joined cells xs ys) p

end Store

variable {cells cells' : Cells ι α} {start stop n : Option ι} {xs ys : List (ι × α)} {p : ι}

/-! ## The two ends -/

@[simp] theorem addrs_nil : addrs ([] : List (ι × α)) = [] := rfl

@[simp] theorem addrs_cons (x : ι × α) (xs : List (ι × α)) :
    addrs (x :: xs) = x.1 :: addrs xs := rfl

@[simp] theorem addrs_append (xs ys : List (ι × α)) : addrs (xs ++ ys) = addrs xs ++ addrs ys := by
  simp [addrs]

@[simp] theorem first_nil (stop : Option ι) : first ([] : List (ι × α)) stop = stop := rfl

@[simp] theorem first_cons (x : ι × α) (xs : List (ι × α)) (stop : Option ι) :
    first (x :: xs) stop = some x.1 := rfl

@[simp] theorem last_nil (start : Option ι) : last ([] : List (ι × α)) start = start := rfl

@[simp] theorem last_cons (x : ι × α) (xs : List (ι × α)) (start : Option ι) :
    last (x :: xs) start = last xs (some x.1) := rfl

@[simp] theorem first_append (xs ys : List (ι × α)) (stop : Option ι) :
    first (xs ++ ys) stop = first xs (first ys stop) := by
  cases xs <;> rfl

@[simp] theorem last_append (xs ys : List (ι × α)) (start : Option ι) :
    last (xs ++ ys) start = last ys (last xs start) := by
  induction xs generalizing start with
  | nil => rfl
  | cons x xs ih => exact ih (some x.1)

theorem first_eq_none : first xs none = none ↔ xs = [] := by
  cases xs <;> simp

theorem last_eq_none : last xs none = none ↔ xs = [] := by
  cases xs using List.reverseRecOn <;> simp

theorem first_mem (h : first xs none = some p) : p ∈ addrs xs := by
  cases xs with
  | nil => cases h
  | cons x xs =>
    cases h
    exact List.mem_cons_self

theorem last_mem (h : last xs none = some p) : p ∈ addrs xs := by
  cases xs using List.reverseRecOn with
  | nil => cases h
  | append_singleton xs x =>
    rw [last_append, last_cons, last_nil] at h
    cases h
    simp

/-! ## Chains -/

@[simp] theorem chain_nil : Chain cells start stop [] := trivial

theorem chain_append : Chain cells start stop (xs ++ ys) ↔
    Chain cells start (first ys stop) xs ∧ Chain cells (last xs start) stop ys := by
  induction xs generalizing start with
  | nil => simp
  | cons x xs ih =>
    rw [List.cons_append, Chain, Chain, ih, first_append, last_cons, and_assoc]

theorem Chain.frame (h : Chain cells start stop xs) (hsame : ∀ p ∈ addrs xs, cells' p = cells p) :
    Chain cells' start stop xs := by
  induction xs generalizing start with
  | nil => trivial
  | cons x xs ih =>
    obtain ⟨hx, hxs⟩ := h
    refine ⟨?_, ih hxs fun p hp => hsame p (List.mem_cons_of_mem _ hp)⟩
    rw [hsame x.1 List.mem_cons_self, hx]

/-- The cell at an address of the chain. -/
theorem Chain.cell {l r : List (ι × α)} {x : ι × α} (h : Chain cells start stop (l ++ x :: r)) :
    cells x.1 = some ⟨first r stop, last l start, x.2⟩ := (chain_append.mp h).2.1

theorem Chain.isSome (h : Chain cells start stop xs) (hp : p ∈ addrs xs) :
    ∃ c, cells p = some c := by
  obtain ⟨x, hx, rfl⟩ := List.mem_map.mp hp
  obtain ⟨l, r, rfl⟩ := List.append_of_mem hx
  exact ⟨_, h.cell⟩

section Store
variable [DecidableEq ι]

@[simp] theorem put_same (c : Cell ι α) : put cells p c p = some c := Function.update_self ..

theorem put_of_ne {q : ι} (c : Cell ι α) (h : q ≠ p) : put cells p c q = cells q :=
  Function.update_of_ne h ..

@[simp] theorem free_same : free cells p p = none := Function.update_self ..

theorem free_of_ne {q : ι} (h : q ≠ p) : free cells p q = cells q := Function.update_of_ne h ..

theorem linkNext_of_ne {a : Option ι} {q : ι} (h : a ≠ some q) :
    linkNext cells a n q = cells q := by
  cases a with
  | none => rfl
  | some p => exact Function.update_of_ne (fun hq => h (congrArg some hq.symm)) ..

theorem linkPrev_of_ne {a : Option ι} {q : ι} (h : a ≠ some q) :
    linkPrev cells a n q = cells q := by
  cases a with
  | none => rfl
  | some p => exact Function.update_of_ne (fun hq => h (congrArg some hq.symm)) ..

/-- The last cell of a chain may point elsewhere. -/
theorem Chain.linkNext (h : Chain cells none stop xs) (hd : (addrs xs).Nodup) (n : Option ι) :
    Chain (linkNext cells (last xs none) n) none n xs := by
  cases xs using List.reverseRecOn with
  | nil => trivial
  | append_singleton xs x =>
    obtain ⟨hxs, hx, -⟩ := chain_append.mp h
    rw [addrs_append, List.nodup_append] at hd
    rw [last_append, last_cons, last_nil]
    refine chain_append.mpr ⟨hxs.frame fun p hp => linkNext_of_ne fun h => ?_, ?_, trivial⟩
    · exact hd.2.2 p hp x.1 (by simp) (Option.some.inj h).symm
    · simp [Chains.linkNext, hx]

/-- The first cell of a chain may point back elsewhere. -/
theorem Chain.linkPrev (h : Chain cells start none xs) (hd : (addrs xs).Nodup) (n : Option ι) :
    Chain (linkPrev cells (first xs none) n) n none xs := by
  cases xs with
  | nil => trivial
  | cons x xs =>
    obtain ⟨hx, hxs⟩ := h
    rw [addrs_cons, List.nodup_cons] at hd
    refine ⟨by simp [Chains.linkPrev, hx], hxs.frame fun p hp => linkPrev_of_ne fun h => ?_⟩
    exact hd.1 (Option.some.inj h ▸ hp)

theorem joined_of_ne {q : ι} (hx : last xs none ≠ some q) (hy : first ys none ≠ some q) :
    joined cells xs ys q = cells q :=
  (linkPrev_of_ne hy).trans (linkNext_of_ne hx)

theorem spliced_of_ne {q : ι} {item : α} (hx : last xs none ≠ some q) (hy : first ys none ≠ some q)
    (hp : q ≠ p) : spliced cells xs ys p item q = cells q :=
  (put_of_ne _ hp).trans ((linkNext_of_ne hx).trans (linkPrev_of_ne hy))

theorem unlinked_of_ne {q : ι} (hx : last xs none ≠ some q) (hy : first ys none ≠ some q)
    (hp : q ≠ p) : unlinked cells xs ys p q = cells q :=
  (free_of_ne hp).trans (joined_of_ne hx hy)

theorem Chain.join (hx : Chain cells none stop xs) (hy : Chain cells start none ys)
    (hd : (addrs (xs ++ ys)).Nodup) : Chain (joined cells xs ys) none none (xs ++ ys) := by
  rw [addrs_append, List.nodup_append] at hd
  obtain ⟨hxs, hys, hne⟩ := hd
  have hy' : Chain (Chains.linkNext cells (last xs none) (first ys none)) start none ys :=
    hy.frame fun p hp => linkNext_of_ne fun h => hne p (last_mem h) p hp rfl
  refine chain_append.mpr ⟨?_, hy'.linkPrev hys _⟩
  exact (hx.linkNext hxs _).frame fun p hp => linkPrev_of_ne fun h => hne p hp p (first_mem h) rfl

theorem Chain.splice (h : Chain cells none none (xs ++ ys)) (hd : (addrs (xs ++ ys)).Nodup)
    (hp : p ∉ addrs (xs ++ ys)) (item : α) :
    Chain (spliced cells xs ys p item) none none (xs ++ (p, item) :: ys) := by
  obtain ⟨hx, hy⟩ := chain_append.mp h
  rw [addrs_append, List.nodup_append] at hd
  rw [addrs_append, List.mem_append, not_or] at hp
  obtain ⟨hxs, hys, hne⟩ := hd
  have hx' : Chain (Chains.linkPrev cells (first ys none) (some p)) none (first ys none) xs :=
    hx.frame fun q hq => linkPrev_of_ne fun h => hne q hq q (first_mem h) rfl
  refine chain_append.mpr ⟨(hx'.linkNext hxs (some p)).frame fun q hq => ?_, put_same _, ?_⟩
  · exact put_of_ne _ fun h => hp.1 (h ▸ hq)
  · refine (hy.linkPrev hys (some p)).frame fun q hq => ?_
    have hqp : q ≠ p := fun h => hp.2 (h ▸ hq)
    rw [spliced, put_of_ne _ hqp]
    exact linkNext_of_ne fun h => hne q (last_mem h) q hq rfl

theorem Chain.unlink {x : ι × α} (h : Chain cells none none (xs ++ x :: ys))
    (hd : (addrs (xs ++ x :: ys)).Nodup) :
    Chain (unlinked cells xs ys x.1) none none (xs ++ ys) := by
  obtain ⟨hx, -, hy⟩ := chain_append.mp h
  rw [addrs_append, addrs_cons, List.perm_middle.nodup_iff, ← addrs_append, List.nodup_cons] at hd
  exact (hx.join hy hd.2).frame fun q hq => free_of_ne fun h => hd.1 (h ▸ hq)

end Store

/-! ## Walks -/

theorem Chain.follow_next (h : Chain cells start none xs) {k : Nat} (hk : xs.length ≤ k) :
    follow Cell.next cells k (first xs none) = xs := by
  induction xs generalizing start k with
  | nil => cases k <;> rfl
  | cons x xs ih =>
    obtain ⟨hx, hxs⟩ := h
    cases k with
    | zero => cases hk
    | succ k =>
      rw [first_cons, follow, hx]
      simp only
      rw [ih hxs (Nat.le_of_succ_le_succ hk)]

theorem Chain.follow_prev (h : Chain cells none stop xs) {k : Nat} (hk : xs.length ≤ k) :
    follow Cell.prev cells k (last xs none) = xs.reverse := by
  induction xs using List.reverseRecOn generalizing stop k with
  | nil => cases k <;> rfl
  | append_singleton xs x ih =>
    obtain ⟨hxs, hx, -⟩ := chain_append.mp h
    rw [List.length_append, List.length_singleton] at hk
    cases k with
    | zero => cases hk
    | succ k =>
      rw [last_append, last_cons, last_nil, follow, hx]
      simp only
      rw [ih hxs (Nat.le_of_succ_le_succ hk), List.reverse_append]
      rfl

end Chains
