import Aodbm.Hash

/-!
# The growth of the hash table

A table that grows inserts its items into a larger one, and these insertions may grow that one
again. What decreases is the number of items: a growth that begins in the middle of another
begins with the items that have been moved so far.

Results:
1. `insertRecursive_length`: an insertion adds one item at most.
2. `insertRecursive_ends`: a recursion as deep as the number of items is enough.
3. `insertRecursive_agrees`: more depth makes no difference then.
4. `growth_terminates`: `aodbm_hash_insert` ends, and growths within a growth begin with fewer
   items.
-/

namespace Aodbm

section Growth
variable {α : Type} {H : Hashing α} {ht ht' t t' : AodbmHash α} {x val : α} {b depth : Nat}
  {xs : List α}

/-! ## The number of items -/

theorem length_items (ht : AodbmHash α) : ht.items.length = ht.data.countP Option.isSome := by
  rw [AodbmHash.items]
  induction ht.data with
  | nil => rfl
  | cons y ys ih =>
    cases y with
    | none => simpa using ih
    | some z => simpa using ih

theorem length_items_put (h : freeSlot H ht x = some b) :
    (ht.set b (some x)).items.length = ht.items.length + 1 := by
  obtain ⟨hb, hnone⟩ := freeSlot_some h
  have hlt : b < ht.data.length := positions_lt hb
  have hempty : ht.data[b].isSome = false := by
    rw [AodbmHash.slot, List.getElem?_eq_getElem hlt, Option.getD_some] at hnone
    rw [hnone]
    rfl
  rw [length_items, length_items, AodbmHash.set, List.countP_set hlt]
  simp [hempty]

theorem length_items_doubled : (doubled ht).items.length = 0 :=
  List.length_eq_zero_iff.mpr (List.eq_nil_iff_forall_not_mem.mpr fun _ => items_empty _)

theorem foldlM_length {f : AodbmHash α → α → Except HashErr (AodbmHash α)}
    (hf : ∀ {t x t'}, f t x = .ok t' → t'.items.length ≤ t.items.length + 1)
    (h : xs.foldlM f t = .ok t') : t'.items.length ≤ t.items.length + xs.length := by
  induction xs generalizing t with
  | nil =>
    cases h
    exact Nat.le_refl _
  | cons x xs ih =>
    rw [List.foldlM_cons] at h
    cases hx : f t x with
    | error e =>
      rw [hx] at h
      cases h
    | ok t₁ =>
      rw [hx] at h
      have h₁ := hf hx
      have h₂ := ih h
      rw [List.length_cons]
      omega

/-- An insertion adds one item at most. -/
theorem insertRecursive_length (depth : Nat) (h : insertRecursive H depth ht val = .ok ht') :
    ht'.items.length ≤ ht.items.length + 1 := by
  induction depth generalizing ht val ht' with
  | zero => cases h
  | succ depth ih =>
    rw [insertRecursive] at h
    split at h
    · next b hb =>
      cases h
      exact Nat.le_of_eq (length_items_put hb)
    · split at h
      · cases h
      · have hle := foldlM_length (fun hx => ih hx) h
        rw [length_items_doubled] at hle
        omega

/-! ## The recursion -/

theorem foldlM_ends
    (hf : ∀ {t x}, t.items.length < depth → insertRecursive H depth t x ≠ .error .diverges)
    (h : t.items.length + xs.length ≤ depth) :
    xs.foldlM (insertRecursive H depth) t ≠ .error .diverges := by
  induction xs generalizing t with
  | nil => exact fun h => by cases h
  | cons x xs ih =>
    rw [List.length_cons] at h
    have hx := hf (t := t) (x := x) (by omega)
    rw [List.foldlM_cons]
    cases hrun : insertRecursive H depth t x with
    | error e =>
      rw [hrun] at hx
      exact fun h => hx (by cases h; rfl)
    | ok t₁ =>
      have hlen := insertRecursive_length depth hrun
      exact ih (by omega)

/-- The number of items bounds the depth of the recursion: an item is inserted into a table
that holds only those before it. -/
theorem insertRecursive_ends (h : ht.items.length < depth) :
    insertRecursive H depth ht val ≠ .error .diverges := by
  induction depth generalizing ht val with
  | zero => omega
  | succ depth ih =>
    rw [insertRecursive]
    split
    · exact fun h => by cases h
    · split
      · exact fun h => by cases h
      · refine foldlM_ends (fun hlt => ih hlt) ?_
        rw [length_items_doubled]
        omega

/-- A loop whose body agrees with another one wherever that does not run out of depth. -/
theorem foldlM_agrees {f g : AodbmHash α → α → Except HashErr (AodbmHash α)}
    (hfg : ∀ {t x}, f t x ≠ .error .diverges → g t x = f t x)
    (h : xs.foldlM f t ≠ .error .diverges) : xs.foldlM g t = xs.foldlM f t := by
  induction xs generalizing t with
  | nil => rfl
  | cons x xs ih =>
    rw [List.foldlM_cons] at h
    rw [List.foldlM_cons, List.foldlM_cons]
    have hx : f t x ≠ .error .diverges := by
      intro hx
      rw [hx] at h
      exact h rfl
    rw [hfg hx]
    cases hrun : f t x with
    | error e => rfl
    | ok t₁ =>
      rw [hrun] at h
      exact ih h

theorem insertRecursive_succ (h : insertRecursive H depth ht val ≠ .error .diverges) :
    insertRecursive H (depth + 1) ht val = insertRecursive H depth ht val := by
  induction depth generalizing ht val with
  | zero => exact absurd rfl h
  | succ depth ih =>
    rw [insertRecursive] at h
    rw [insertRecursive, insertRecursive]
    split
    · rfl
    · next hnone =>
      rw [hnone] at h
      simp only at h
      split
      · rfl
      · next hfits =>
        rw [if_neg hfits] at h
        exact foldlM_agrees (fun hx => ih hx) h

/-- A recursion that ends is not changed by more depth. -/
theorem insertRecursive_agrees {more : Nat} (hle : depth ≤ more)
    (h : insertRecursive H depth ht val ≠ .error .diverges) :
    insertRecursive H more ht val = insertRecursive H depth ht val := by
  obtain ⟨k, rfl⟩ := Nat.exists_eq_add_of_le hle
  clear hle
  induction k with
  | zero => rfl
  | succ k ih =>
    rw [← ih, ← Nat.add_assoc]
    exact insertRecursive_succ (ih ▸ h)

/-! ## Growths within a growth -/

/-- In the rehash loop of the growth of `ht` the item `x` is inserted into `t`, all of whose
probe positions for it are taken: `t` grows. -/
def Nests (H : Hashing α) (ht t : AodbmHash α) : Prop :=
  ∃ ys x zs depth, ht.items = ys ++ x :: zs ∧
    ys.foldlM (insertRecursive H depth) (doubled ht) = .ok t ∧ freeSlot H t x = none

/-- The items that have been moved are fewer than all items. -/
theorem Nests.fewer (h : Nests H ht t) : t.items.length < ht.items.length := by
  obtain ⟨ys, x, zs, depth, hitems, hrun, -⟩ := h
  have hlen := foldlM_length (fun hx => insertRecursive_length depth hx) hrun
  rw [length_items_doubled] at hlen
  rw [hitems, List.length_append, List.length_cons]
  omega

/-- The size doubles with each level, so the recursion of `aodbm_hash_insert` ends. -/
theorem insert_ends : aodbmHashInsert H ht val ≠ .error .diverges := by
  by_cases hlt : ht.sz < 2 ^ 32
  · exact insert_not_diverges hlt
  · rw [aodbmHashInsert, insertRecursive]
    split
    · exact fun h => by cases h
    · rw [if_pos (by omega)]
      exact fun h => by cases h

/-- `aodbm_hash_insert` on any table ends, or the size would wrap. It is the recursion that may
be as deep as there are items in the table, or deeper. The growths that begin within a growth,
at any level, begin with fewer items. -/
theorem growth_terminates (H : Hashing α) (ht : AodbmHash α) (val : α) :
    ((∃ ht', aodbmHashInsert H ht val = .ok ht') ∨ aodbmHashInsert H ht val = .error .wraps) ∧
      (∀ depth, ht.items.length < depth →
        insertRecursive H depth ht val = aodbmHashInsert H ht val) ∧
      ∀ t, Relation.TransGen (Nests H) ht t → t.items.length < ht.items.length := by
  refine ⟨?_, fun depth hdepth => ?_, fun t ht => ?_⟩
  · cases h : aodbmHashInsert H ht val with
    | ok ht' => exact Or.inl ⟨ht', rfl⟩
    | error e =>
      cases e with
      | wraps => exact Or.inr rfl
      | diverges => exact absurd h insert_ends
  · have hends : insertRecursive H depth ht val ≠ .error .diverges := insertRecursive_ends hdepth
    have hinsert : aodbmHashInsert H ht val ≠ .error .diverges := insert_ends
    rcases Nat.le_total depth 32 with hle | hle
    · exact (insertRecursive_agrees hle hends).symm
    · exact insertRecursive_agrees hle hinsert
  · induction ht with
    | single h => exact h.fewer
    | tail _ h ih => exact Nat.lt_trans h.fewer ih

end Growth

end Aodbm
