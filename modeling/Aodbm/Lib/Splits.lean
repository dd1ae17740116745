import Mathlib.Algebra.BigOperators.Intervals
import Mathlib.Algebra.Order.BigOperators.Group.List
import Mathlib.Data.List.Forall2
import Mathlib.Tactic.Common

/-!
# Trees whose nodes are split

A node that gets `2 * q` entries is split into halves, and its parent gets one more child. Entries
are taken away in any way, and nothing is merged. Each insertion pays 1. What it pays is kept at
the nodes that have more than `q` entries, until a split uses it up.

Results:
1. `row_split`: what is kept at a node that is split pays for one more child of its parent.
2. `Paid.replace`: one level, where some nodes replace a child.
3. `covered_one`, `covered_top`: the whole tree, whose levels the insertions have paid for.
-/

namespace Splits

variable {ν : Type}

/-- A node: a leaf with some entries, or a branch with its children. -/
inductive Form (ν : Type) where
  | leaf (size : Nat)
  | branch (kids : List ν)

/-- At the node and below it no more than `c` is kept. `F` says which nodes stand where. -/
def Paid (F : ν → Form ν → Prop) (q : Nat) : Nat → Nat → Form ν → Prop
  | 0, c, .leaf size => size ≤ q + c
  | h + 1, c, .branch kids => ∃ cs : List Nat,
    List.Forall₂ (fun k x => ∃ f, F k f ∧ Paid F q h x f) kids cs ∧
      cs.sum + q ^ (h + 1) * (kids.length - q) ≤ c
  | _, _, _ => False

variable {F F' : ν → Form ν → Prop} {q h c c' δ : Nat} {kids l vs r : List ν} {fs : List (Form ν)}
  {cs : List Nat} {f : Form ν}

/-- The same of the node that stands somewhere. -/
def PaidAt (F : ν → Form ν → Prop) (q h : Nat) (k : ν) (x : Nat) : Prop :=
  ∃ f, F k f ∧ Paid F q h x f

/-- Nodes that replace one for which `c` is kept: each further one has to be paid as a child. -/
def Row (F : ν → Form ν → Prop) (q h c : Nat) (fs : List (Form ν)) : Prop :=
  ∃ cs, List.Forall₂ (fun f x => Paid F q h x f) fs cs ∧
    cs.sum + q ^ (h + 1) * fs.length ≤ c + q ^ (h + 1)

theorem Paid.mono (h₁ : Paid F q h c f) (hF : ∀ k f, F k f → F' k f) : Paid F' q h c f := by
  induction h generalizing c f with
  | zero =>
    cases f with
    | leaf size => exact h₁
    | branch kids => exact h₁
  | succ h ih =>
    cases f with
    | leaf size => exact h₁
    | branch kids =>
      obtain ⟨cs, hkids, hsum⟩ := h₁
      refine ⟨cs, hkids.imp fun k x hk => ?_, hsum⟩
      obtain ⟨f, hf, hpaid⟩ := hk
      exact ⟨f, hF k f hf, ih hpaid⟩

theorem PaidAt.mono {k : ν} (h₁ : PaidAt F q h k c) (hF : ∀ k f, F k f → F' k f) :
    PaidAt F' q h k c := by
  obtain ⟨f, hf, hpaid⟩ := h₁
  exact ⟨f, hF k f hf, hpaid.mono hF⟩

theorem Paid.le (h₁ : Paid F q h c f) (hc : c ≤ c') : Paid F q h c' f := by
  cases h with
  | zero =>
    cases f with
    | leaf size => exact Nat.le_trans h₁ (Nat.add_le_add_left hc q)
    | branch kids => exact h₁
  | succ h =>
    cases f with
    | leaf size => exact h₁
    | branch kids =>
      obtain ⟨cs, hkids, hsum⟩ := h₁
      exact ⟨cs, hkids, hsum.trans hc⟩

theorem Row.le (h₁ : Row F q h c fs) (hc : c ≤ c') : Row F q h c' fs := by
  obtain ⟨cs, hfs, hsum⟩ := h₁
  exact ⟨cs, hfs, hsum.trans (Nat.add_le_add_right hc _)⟩

theorem Row.mono (h₁ : Row F q h c fs) (hF : ∀ k f, F k f → F' k f) : Row F' q h c fs := by
  obtain ⟨cs, hfs, hsum⟩ := h₁
  exact ⟨cs, hfs.imp fun f x hp => hp.mono hF, hsum⟩

/-! ## One level -/

theorem sum_map_sub {sizes : List Nat} (hall : ∀ m ∈ sizes, q ≤ m) :
    (sizes.map (· - q)).sum + q * sizes.length = sizes.sum := by
  induction sizes with
  | nil => rfl
  | cons m sizes ih =>
    have hm := hall m List.mem_cons_self
    have hsum := ih fun n hn => hall n (List.mem_cons_of_mem _ hn)
    rw [List.map_cons, List.sum_cons, List.sum_cons, List.length_cons, Nat.mul_add, Nat.mul_one]
    omega

/-- The leaves that replace a leaf with `n` entries. -/
theorem row_leaves {sizes : List Nat} {n : Nat} (hold : n ≤ q + c) (hsum : sizes.sum ≤ n + δ)
    (hsizes : sizes.length ≤ 1 ∨ ∀ m ∈ sizes, q ≤ m) :
    Row F q 0 (c + δ) (sizes.map .leaf) := by
  refine ⟨sizes.map (· - q), ?_, ?_⟩
  · rw [List.forall₂_map_left_iff, List.forall₂_map_right_iff, List.forall₂_same]
    exact fun m _ => le_add_tsub
  · rw [List.length_map, Nat.zero_add, Nat.pow_one]
    rcases hsizes with hlen | hall
    · rcases sizes with _ | ⟨m, _ | ⟨n, sizes⟩⟩
      · exact Nat.le_trans (Nat.zero_le _) (Nat.le_add_left q (c + δ))
      · simp only [List.map_cons, List.map_nil, List.sum_singleton, List.length_singleton] at *
        omega
      · simp at hlen
    · rw [sum_map_sub hall]
      omega

/-- The parts of a list: it is empty, or stays as it is, or it is split. -/
inductive Parts (q : Nat) (kids : List ν) : List (List ν) → Prop where
  | none (empty : kids = []) : Parts q kids []
  | one : Parts q kids [kids]
  | two (full : 2 * q ≤ kids.length) : Parts q kids [kids.take q, kids.drop q]

/-- What is kept at a node that is split pays for one more child of its parent. -/
theorem row_split {parts : List (List ν)} (hkids : List.Forall₂ (PaidAt F q h) kids cs)
    (hparts : Parts q kids parts) :
    Row F q (h + 1) (cs.sum + q ^ (h + 1) * (kids.length - q)) (parts.map .branch) := by
  cases hparts with
  | none => exact ⟨[], .nil, Nat.le_add_left _ _⟩
  | one =>
    refine ⟨[cs.sum + q ^ (h + 1) * (kids.length - q)], .cons ⟨cs, hkids, Nat.le_refl _⟩ .nil, ?_⟩
    simp
  | two full =>
    have hhalf : q + q ≤ kids.length := by rwa [← Nat.two_mul]
    have hlen : (kids.take q).length = q :=
      List.length_take_of_le ((Nat.le_add_right q q).trans hhalf)
    refine ⟨[(cs.take q).sum, (cs.drop q).sum + q ^ (h + 1) * ((kids.drop q).length - q)],
      .cons ⟨cs.take q, List.forall₂_take q hkids, ?_⟩
        (.cons ⟨cs.drop q, List.forall₂_drop q hkids, Nat.le_refl _⟩ .nil), ?_⟩
    · rw [hlen, Nat.sub_self, Nat.mul_zero, Nat.add_zero]
    · have hsum : (cs.take q).sum + (cs.drop q).sum = cs.sum := List.sum_take_add_sum_drop cs q
      have hrest : kids.length - q = (kids.length - q - q) + q :=
        (Nat.sub_add_cancel (Nat.le_sub_of_add_le hhalf)).symm
      have hpow : q ^ (h + 1) * (kids.length - q) =
          q ^ (h + 1) * (kids.length - q - q) + q ^ (h + 1 + 1) := by
        rw [Nat.pow_succ q (h + 1), ← Nat.mul_add, ← hrest]
      simp only [List.sum_cons, List.sum_nil, List.length_drop, List.map_cons, List.map_nil,
        List.length_cons, List.length_nil]
      omega

/-- What is kept at a branch when `n` nodes replace a child. -/
theorem replace_sum {A S Q x s n : Nat} (hold : A + x + Q * (s + 1 - q) ≤ c)
    (hnew : S + Q * n ≤ x + δ + Q) (hnone : n = 0 → S = 0) : A + S + Q * (s + n - q) ≤ c + δ := by
  rcases Nat.eq_zero_or_pos n with rfl | hpos
  · have hle : Q * (s - q) ≤ Q * (s + 1 - q) :=
      Nat.mul_le_mul_left Q (Nat.sub_le_sub_right (Nat.le_succ s) q)
    rw [hnone rfl, Nat.add_zero, Nat.add_zero]
    omega
  · obtain ⟨m, rfl⟩ : ∃ m, n = m + 1 := Nat.exists_eq_succ_of_ne_zero hpos.ne'
    have hle : Q * (s + (m + 1) - q) ≤ Q * (s + 1 - q) + Q * m := by
      rw [← Nat.mul_add]
      exact Nat.mul_le_mul_left Q (by omega)
    rw [Nat.mul_add, Nat.mul_one] at hnew
    omega

theorem forall₂_split {α β : Type} {R : α → β → Prop} {l r : List α} {k : α} {ds : List β}
    (hall : List.Forall₂ R (l ++ k :: r) ds) : ∃ cl x cr, ds = cl ++ x :: cr ∧
      List.Forall₂ R l cl ∧ R k x ∧ List.Forall₂ R r cr := by
  induction l generalizing ds with
  | nil =>
    cases hall with
    | cons hk hr => exact ⟨[], _, _, rfl, .nil, hk, hr⟩
  | cons y l ih =>
    cases hall with
    | cons hy hrest =>
      obtain ⟨cl, x, cr, rfl, hl, hk, hr⟩ := ih hrest
      exact ⟨_ :: cl, x, cr, rfl, .cons hy hl, hk, hr⟩

/-- Nodes that stand somewhere. -/
theorem paidAt_of_stands (hat : List.Forall₂ F vs fs)
    (hpaid : List.Forall₂ (fun f x => Paid F q h x f) fs cs) :
    List.Forall₂ (PaidAt F q h) vs cs := by
  induction hat generalizing cs with
  | nil =>
    cases hpaid
    exact .nil
  | cons hf _ ih =>
    cases hpaid with
    | cons hx hxs => exact .cons ⟨_, hf, hx⟩ (ih hxs)

/-- One level: when some nodes replace a child, the parts of the branch replace the branch. -/
theorem Paid.replace {k : ν} (hpaid : Paid F q (h + 1) c (.branch (l ++ k :: r))) :
    ∃ x, PaidAt F q h k x ∧ ∀ {δ : Nat} {F' : ν → Form ν → Prop} {vs : List ν}
      {fs : List (Form ν)} {parts : List (List ν)}, (∀ k f, F k f → F' k f) →
      List.Forall₂ F' vs fs → Row F' q h (x + δ) fs → Parts q (l ++ vs ++ r) parts →
      Row F' q (h + 1) (c + δ) (parts.map .branch) := by
  obtain ⟨ds, hkids, hsum⟩ := hpaid
  obtain ⟨cl, x, cr, rfl, hl, hk, hr⟩ := forall₂_split hkids
  refine ⟨x, hk, fun {δ F' vs fs parts} hF hat hrow hparts => ?_⟩
  obtain ⟨cs, hfs, hnew⟩ := hrow
  have hvs := paidAt_of_stands hat hfs
  rw [← hat.length_eq] at hnew
  have hmono : ∀ {ks : List ν} {es : List Nat}, List.Forall₂ (PaidAt F q h) ks es →
      List.Forall₂ (PaidAt F' q h) ks es := fun hks => hks.imp fun _ _ hp => hp.mono hF
  have hall := List.rel_append (List.rel_append (hmono hl) hvs) (hmono hr)
  refine (row_split hall hparts).le ?_
  have hnone : vs.length = 0 → cs.sum = 0 := by
    intro hzero
    rw [List.length_eq_zero_iff] at hzero
    subst hzero
    cases hvs
    rfl
  have hold : cl.sum + cr.sum + x + q ^ (h + 1) * (l.length + r.length + 1 - q) ≤ c := by
    simp only [List.sum_append, List.sum_cons, List.length_append, List.length_cons] at hsum
    rw [← Nat.add_assoc l.length] at hsum
    omega
  have hlevel := replace_sum hold hnew hnone
  have hlen : (l ++ vs ++ r).length = l.length + r.length + vs.length := by
    rw [List.length_append, List.length_append, Nat.add_right_comm]
  simp only [List.sum_append]
  rw [hlen]
  omega

/-! ## The whole tree -/

/-- A tree of `h` levels of branches that `n` insertions have led to. -/
def Covered (F : ν → Form ν → Prop) (q n h : Nat) (f : Form ν) : Prop :=
  ∃ c, Paid F q h c f ∧ c + ∑ i ∈ Finset.range h, q ^ (i + 1) ≤ n

theorem Covered.mono (hcov : Covered F q c h f) (hF : ∀ k f, F k f → F' k f) :
    Covered F' q c h f := by
  obtain ⟨d, hpaid, hle⟩ := hcov
  exact ⟨d, hpaid.mono hF, hle⟩

/-- One node is left, and it is the root. -/
theorem covered_one {n : Nat} (hrow : Row F q h (c + δ) [f])
    (hle : c + ∑ i ∈ Finset.range h, q ^ (i + 1) ≤ n) : Covered F q (n + δ) h f := by
  obtain ⟨cs, hfs, hsum⟩ := hrow
  cases hfs with
  | cons hf hnil =>
    cases hnil
    simp only [List.sum_singleton, List.length_singleton, Nat.mul_one] at hsum
    exact ⟨_, hf, by omega⟩

/-- A new root over two nodes or more. -/
theorem covered_top {n : Nat} (hq : 2 ≤ q) (hlen : 2 ≤ fs.length) (hrow : Row F q h (c + δ) fs)
    (hle : c + ∑ i ∈ Finset.range h, q ^ (i + 1) ≤ n) (hat : List.Forall₂ F kids fs) :
    Covered F q (n + δ) (h + 1) (.branch kids) := by
  obtain ⟨cs, hfs, hsum⟩ := hrow
  refine ⟨_, ⟨cs, paidAt_of_stands hat hfs, Nat.le_refl _⟩, ?_⟩
  have hless : q ^ (h + 1) * (fs.length - q + 1) ≤ q ^ (h + 1) * (fs.length - 1) :=
    Nat.mul_le_mul_left _ (by omega)
  have hrest : q ^ (h + 1) * fs.length = q ^ (h + 1) * (fs.length - 1) + q ^ (h + 1) := by
    rw [← Nat.mul_succ, Nat.succ_eq_add_one, Nat.sub_add_cancel (by omega)]
  rw [Nat.mul_add, Nat.mul_one] at hless
  rw [Finset.sum_range_succ, hat.length_eq]
  omega

end Splits
