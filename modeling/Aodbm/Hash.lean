import Mathlib.Algebra.Group.Nat.Defs
import Mathlib.Data.List.Basic
import Mathlib.Logic.Relation
import Mathlib.Tactic.Common

/-!
# The hash table (`aodbm_hash.c`)

Open addressing with five probe positions for each item. A table in which all five are
taken is replaced by one of twice the size, into which the old items are inserted; the
new item is not.

Results:
1. `insert_not_diverges`: the recursion of the growth ends.
2. `Placed.get_iff`: an item is found exactly when an equal one is stored.
3. `probe_invariant`: items stand at their probe positions, which deletions do not change.
4. `insert_keeps`: an insertion keeps what is found, and its own item, when a probe
   position is free, or an equal item is stored already and the old items find room in
   the larger table. On tables without equal items it does so only then.
-/

namespace Aodbm

/-- `AODBM_HASH_BUCKETS`. -/
def hashBuckets : Nat := 5

/-- `hash`: the mixing function of the probe sequence. -/
def hash (a : UInt32) : UInt32 :=
  let a := (a + 0x7ed55d16) + (a <<< (12 : UInt32))
  let a := (a ^^^ 0xc761c23c) ^^^ (a >>> (19 : UInt32))
  let a := (a + 0x165667b1) + (a <<< (5 : UInt32))
  let a := (a + 0xd3a2646c) ^^^ (a <<< (9 : UInt32))
  let a := (a + 0xfd7046c5) + (a <<< (3 : UInt32))
  (a ^^^ 0xb55a4f09) ^^^ (a >>> (16 : UInt32))

/-- The functions given to `aodbm_new_hash`. The second argument of `eq` may be `NULL`.
It is an equivalence on items, never true of `NULL`, and equal items have equal hashes. -/
structure Hashing (α : Type) where
  hashFunction : α → UInt32
  eq : α → Option α → Bool
  refl : ∀ x, eq x (some x) = true
  symm : ∀ {x y}, eq x (some y) = true → eq y (some x) = true
  trans : ∀ {x y z}, eq x (some y) = true → eq y (some z) = true → eq x (some z) = true
  null : ∀ x, eq x none = false
  same : ∀ {x y}, eq x (some y) = true → hashFunction x = hashFunction y

/-- `aodbm_hash`: `sz` is the length of `data`, and never 0. An empty slot is `NULL`. -/
structure AodbmHash (α : Type) where
  data : List (Option α)
  pos : 0 < data.length
deriving DecidableEq

namespace AodbmHash

variable {α : Type}

def sz (ht : AodbmHash α) : Nat := ht.data.length

def slot (ht : AodbmHash α) (b : Nat) : Option α := (ht.data[b]?).getD none

def set (ht : AodbmHash α) (b : Nat) (x : Option α) : AodbmHash α :=
  ⟨ht.data.set b x, by simpa using ht.pos⟩

/-- The items in the order of their slots. -/
def items (ht : AodbmHash α) : List α := ht.data.filterMap id

end AodbmHash

inductive HashErr where
  /-- Twice the size does not fit an `unsigned int`. -/
  | wraps
  /-- The recursion does not end. -/
  | diverges
deriving DecidableEq

section Functions
variable {α : Type}

/-- A table of `n` empty slots. -/
def emptyTable (n : Nat) (h : 0 < n) : AodbmHash α := ⟨List.replicate n none, by simpa using h⟩

def aodbmNewHash (sz : UInt32) : AodbmHash α :=
  if h : sz.toNat = 0 then emptyTable 16 (by decide)
  else emptyTable sz.toNat (Nat.pos_of_ne_zero h)

/-- The empty slots of twice the size that a full table is moved to. -/
def doubled (ht : AodbmHash α) : AodbmHash α :=
  emptyTable (ht.sz * 2) (Nat.mul_pos ht.pos Nat.two_pos)

/-- The loop over the probe positions, up to the first slot with `p`. -/
def probeLoop (ht : AodbmHash α) (p : Option α → Bool) : Nat → UInt32 → Option Nat
  | 0, _ => none
  | n + 1, key =>
    if p (ht.slot (key.toNat % ht.sz)) then some (key.toNat % ht.sz)
    else probeLoop ht p n (hash key)

variable (H : Hashing α)

/-- The first empty one of the probe positions of `val`. -/
def freeSlot (ht : AodbmHash α) (val : α) : Option Nat :=
  probeLoop ht Option.isNone hashBuckets (H.hashFunction val)

/-- The recursion of `aodbm_hash_insert`, with a bound on its depth. -/
def insertRecursive : Nat → AodbmHash α → α → Except HashErr (AodbmHash α)
  | 0, _, _ => .error .diverges
  | depth + 1, ht, val =>
    match freeSlot H ht val with
    | some b => .ok (ht.set b (some val))
    | none =>
      if 2 ^ 32 ≤ ht.sz * 2 then .error .wraps
      else ht.items.foldlM (insertRecursive depth) (doubled ht)

/-- The size doubles at each level and does not wrap, so 32 levels are enough. -/
def aodbmHashInsert (ht : AodbmHash α) (val : α) : Except HashErr (AodbmHash α) :=
  insertRecursive H 32 ht val

def aodbmHashDel (ht : AodbmHash α) (data : α) : AodbmHash α :=
  match probeLoop ht (H.eq data) hashBuckets (H.hashFunction data) with
  | some b => ht.set b none
  | none => ht

def aodbmHashGet (ht : AodbmHash α) (data : α) : Option α :=
  match probeLoop ht (H.eq data) hashBuckets (H.hashFunction data) with
  | some b => ht.slot b
  | none => none

end Functions

/-! ## Probe positions -/

section Probes
variable {α : Type}

/-- The positions that the loop visits in a table of size `sz`. -/
def probes (sz : Nat) : Nat → UInt32 → List Nat
  | 0, _ => []
  | n + 1, key => key.toNat % sz :: probes sz n (hash key)

/-- The probe positions of an item. -/
def positions (H : Hashing α) (ht : AodbmHash α) (x : α) : List Nat :=
  probes ht.sz hashBuckets (H.hashFunction x)

/-- Every item stands at one of its probe positions. -/
def Placed (H : Hashing α) (ht : AodbmHash α) : Prop :=
  ∀ b y, ht.slot b = some y → b ∈ positions H ht y

/-- An item equal to `x` is in the table. -/
def Stored (H : Hashing α) (ht : AodbmHash α) (x : α) : Prop :=
  ∃ y ∈ ht.items, H.eq x (some y) = true

variable {H : Hashing α} {ht ht' t t' : AodbmHash α} {x y val : α} {b : Nat}

theorem probeLoop_some {p : Option α → Bool} {n : Nat} {key : UInt32}
    (h : probeLoop ht p n key = some b) : b ∈ probes ht.sz n key ∧ p (ht.slot b) = true := by
  induction n generalizing key with
  | zero => cases h
  | succ n ih =>
    rw [probeLoop] at h
    split at h
    · next hp =>
      cases h
      exact ⟨List.mem_cons_self, hp⟩
    · obtain ⟨hb, hp⟩ := ih h
      exact ⟨List.mem_cons_of_mem _ hb, hp⟩

theorem probeLoop_none {p : Option α → Bool} {n : Nat} {key : UInt32}
    (h : probeLoop ht p n key = none) (hb : b ∈ probes ht.sz n key) : ¬ p (ht.slot b) = true := by
  induction n generalizing key with
  | zero => cases hb
  | succ n ih =>
    rw [probeLoop] at h
    split at h
    · cases h
    · next hp =>
      rcases List.mem_cons.mp hb with rfl | hb
      · exact hp
      · exact ih h hb

theorem probes_lt {sz n : Nat} {key : UInt32} (hsz : 0 < sz) (hb : b ∈ probes sz n key) :
    b < sz := by
  induction n generalizing key with
  | zero => cases hb
  | succ n ih =>
    rcases List.mem_cons.mp hb with rfl | hb
    · exact Nat.mod_lt _ hsz
    · exact ih hb

theorem positions_lt (hb : b ∈ positions H ht x) : b < ht.sz := probes_lt ht.pos hb

@[simp] theorem sz_set (b : Nat) (x : Option α) : (ht.set b x).sz = ht.sz := by
  simp [AodbmHash.set, AodbmHash.sz]

theorem slot_set (hb : b < ht.sz) (x : Option α) (c : Nat) :
    (ht.set b x).slot c = if c = b then x else ht.slot c := by
  unfold AodbmHash.sz at hb
  simp only [AodbmHash.set, AodbmHash.slot, List.getElem?_set]
  rcases eq_or_ne c b with rfl | hcb
  · simp [hb]
  · rw [if_neg (Ne.symm hcb), if_neg hcb]

@[simp] theorem sz_doubled : (doubled ht).sz = ht.sz * 2 := List.length_replicate

theorem slot_empty {n : Nat} (h : 0 < n) (b : Nat) : (emptyTable (α := α) n h).slot b = none := by
  simp only [emptyTable, AodbmHash.slot, List.getElem?_replicate]
  split <;> rfl

theorem mem_items : y ∈ ht.items ↔ ∃ b, ht.slot b = some y := by
  rw [AodbmHash.items, List.mem_filterMap]
  simp only [id_eq, exists_eq_right, List.mem_iff_getElem?, AodbmHash.slot]
  refine exists_congr fun b => ?_
  cases ht.data[b]? <;> simp

theorem Placed.empty {n : Nat} (h : 0 < n) : Placed H (emptyTable n h) := by
  intro b y hb
  rw [slot_empty] at hb
  cases hb

theorem items_empty {n : Nat} (h : 0 < n) : y ∉ (emptyTable n h).items := by
  rw [mem_items]
  rintro ⟨b, hb⟩
  rw [slot_empty] at hb
  cases hb

theorem freeSlot_some (h : freeSlot H ht x = some b) :
    b ∈ positions H ht x ∧ ht.slot b = none :=
  (probeLoop_some h).imp_right Option.isNone_iff_eq_none.mp

/-- An item that found an empty position stands there, and nothing else changed. -/
theorem mem_items_put (h : freeSlot H ht x = some b) :
    y ∈ (ht.set b (some x)).items ↔ y = x ∨ y ∈ ht.items := by
  obtain ⟨hb, hnone⟩ := freeSlot_some h
  simp only [mem_items, slot_set (positions_lt hb)]
  constructor
  · rintro ⟨c, hc⟩
    split at hc
    · exact Or.inl (Option.some.inj hc).symm
    · exact Or.inr ⟨c, hc⟩
  · rintro (rfl | ⟨c, hc⟩)
    · exact ⟨b, if_pos rfl⟩
    · refine ⟨c, ?_⟩
      rw [if_neg fun h => ?_, hc]
      rw [h, hnone] at hc
      cases hc

theorem Placed.put (hp : Placed H ht) (h : freeSlot H ht x = some b) :
    Placed H (ht.set b (some x)) := by
  obtain ⟨hb, -⟩ := freeSlot_some h
  intro c y hc
  rw [slot_set (positions_lt hb)] at hc
  unfold positions
  rw [sz_set]
  split at hc
  · next hcb =>
    rw [hcb, ← Option.some.inj hc]
    exact hb
  · exact hp c y hc

theorem Placed.del (hp : Placed H ht) (x : α) : Placed H (aodbmHashDel H ht x) := by
  unfold aodbmHashDel
  split
  · next b h =>
    obtain ⟨hb, -⟩ := probeLoop_some h
    intro c y hc
    rw [slot_set (probes_lt ht.pos hb)] at hc
    unfold positions
    rw [sz_set]
    split at hc
    · cases hc
    · exact hp c y hc
  · exact hp

/-- An item is found exactly when an equal one is stored. -/
theorem Placed.get_iff (hp : Placed H ht) : aodbmHashGet H ht x ≠ none ↔ Stored H ht x := by
  unfold aodbmHashGet
  split
  · next b h =>
    obtain ⟨-, heq⟩ := probeLoop_some h
    cases hb : ht.slot b with
    | none =>
      rw [hb, H.null] at heq
      cases heq
    | some y =>
      rw [hb] at heq
      exact iff_of_true (Option.some_ne_none y) ⟨y, mem_items.mpr ⟨b, hb⟩, heq⟩
  · next h =>
    refine iff_of_false (fun h => h rfl) ?_
    rintro ⟨y, hy, heq⟩
    -- an equal item stands at a probe position of `x`, which the loop visited
    obtain ⟨b, hb⟩ := mem_items.mp hy
    have hmem := hp b y hb
    rw [positions, ← H.same heq] at hmem
    exact probeLoop_none h hmem (hb ▸ heq)

/-- What is found is equal to what was looked for. -/
theorem get_eq (h : aodbmHashGet H ht x = some y) : H.eq x (some y) = true := by
  unfold aodbmHashGet at h
  split at h
  · next b hb => exact h ▸ (probeLoop_some hb).2
  · cases h

end Probes

/-! ## Growth -/

section Growth
variable {α : Type} {H : Hashing α} {ht ht' t t' : AodbmHash α} {x y val : α} {xs : List α}
  {depth : Nat}

/-- What an insertion may change: sizes grow and stay below the limit, items keep to their
positions, and only the new item may be added. -/
structure Grows (H : Hashing α) (ht ht' : AodbmHash α) (new : List α) : Prop where
  sz : ht.sz ≤ ht'.sz
  lt : ht'.sz < 2 ^ 32
  placed : Placed H ht'
  items : ∀ y ∈ ht'.items, y ∈ new ∨ y ∈ ht.items

theorem Grows.single {c : Prop} [Decidable c] (h : Grows H ht ht' (if c then [] else [val])) :
    Grows H ht ht' [val] := by
  refine ⟨h.sz, h.lt, h.placed, fun y hy => (h.items y hy).imp_left fun hy => ?_⟩
  split at hy
  · cases hy
  · exact hy

theorem foldlM_grows {f : AodbmHash α → α → Except HashErr (AodbmHash α)}
    (hf : ∀ {t x t'}, f t x = .ok t' → Placed H t → t.sz < 2 ^ 32 → Grows H t t' [x])
    (h : xs.foldlM f t = .ok t') (hp : Placed H t) (hlt : t.sz < 2 ^ 32) : Grows H t t' xs := by
  induction xs generalizing t with
  | nil =>
    cases h
    exact ⟨Nat.le_refl _, hlt, hp, fun y hy => Or.inr hy⟩
  | cons x xs ih =>
    rw [List.foldlM_cons] at h
    cases hx : f t x with
    | error e =>
      rw [hx] at h
      cases h
    | ok t₁ =>
      rw [hx] at h
      have h₁ := hf hx hp hlt
      have h₂ := ih h h₁.placed h₁.lt
      refine ⟨Nat.le_trans h₁.sz h₂.sz, h₂.lt, h₂.placed, fun y hy => ?_⟩
      rcases h₂.items y hy with hy | hy
      · exact Or.inl (List.mem_cons_of_mem _ hy)
      · rcases h₁.items y hy with hy | hy
        · exact Or.inl (by rw [List.mem_singleton.mp hy]; exact List.mem_cons_self)
        · exact Or.inr hy

/-- An insertion that ends well grows the table by its item, or by nothing. -/
theorem insertRecursive_grows (depth : Nat) (h : insertRecursive H depth ht val = .ok ht')
    (hp : Placed H ht) (hlt : ht.sz < 2 ^ 32) :
    Grows H ht ht' (if freeSlot H ht val = none then [] else [val]) := by
  induction depth generalizing ht val ht' with
  | zero => cases h
  | succ depth ih =>
    rw [insertRecursive] at h
    split at h
    · next b hb =>
      cases h
      rw [if_neg (by rw [hb]; exact Option.some_ne_none b)]
      refine ⟨Nat.le_of_eq (sz_set ..).symm, by rwa [sz_set], hp.put hb, fun y hy => ?_⟩
      exact ((mem_items_put hb).mp hy).imp_left List.mem_singleton.mpr
    · next hnone =>
      rw [if_pos hnone]
      split at h
      · cases h
      · next hfits =>
        have hstep : ∀ {t x t'}, insertRecursive H depth t x = .ok t' → Placed H t →
            t.sz < 2 ^ 32 → Grows H t t' [x] := fun hx hpt hltt => (ih hx hpt hltt).single
        have hg := foldlM_grows hstep h (Placed.empty _) (by rw [sz_doubled]; omega)
        refine ⟨?_, hg.lt, hg.placed, fun y hy => Or.inr ?_⟩
        · have := hg.sz
          rw [sz_doubled] at this
          omega
        · exact (hg.items y hy).resolve_right (items_empty _)

theorem foldlM_not_diverges {f : AodbmHash α → α → Except HashErr (AodbmHash α)}
    (hf : ∀ {t' x}, Placed H t' → t'.sz < 2 ^ 32 → t.sz ≤ t'.sz → f t' x ≠ .error .diverges ∧
      ∀ t₁, f t' x = .ok t₁ → Placed H t₁ ∧ t₁.sz < 2 ^ 32 ∧ t'.sz ≤ t₁.sz)
    (hp : Placed H t') (hlt : t'.sz < 2 ^ 32) (hle : t.sz ≤ t'.sz) :
    xs.foldlM f t' ≠ .error .diverges := by
  induction xs generalizing t' with
  | nil => exact fun h => by cases h
  | cons x xs ih =>
    obtain ⟨hx, hok⟩ := hf (x := x) hp hlt hle
    rw [List.foldlM_cons]
    cases ht : f t' x with
    | error e =>
      rw [ht] at hx
      exact fun h => hx (by cases h; rfl)
    | ok t₁ =>
      obtain ⟨hp₁, hlt₁, hle₁⟩ := hok t₁ ht
      exact ih hp₁ hlt₁ (Nat.le_trans hle hle₁)

/-- A recursion of this depth would multiply the size by `2 ^ depth`, which does not fit. -/
theorem insertRecursive_not_diverges (depth : Nat) (hlt : ht.sz < 2 ^ 32)
    (hdepth : 2 ^ 32 ≤ ht.sz * 2 ^ depth) :
    insertRecursive H depth ht val ≠ .error .diverges := by
  induction depth generalizing ht val with
  | zero => omega
  | succ depth ih =>
    rw [insertRecursive]
    split
    · exact fun h => by cases h
    · split
      · exact fun h => by cases h
      · next hfits =>
        have hlt₀ : (doubled ht).sz < 2 ^ 32 := by
          rw [sz_doubled]
          omega
        refine foldlM_not_diverges (H := H) (fun hp hlt' hle => ⟨?_, ?_⟩) (Placed.empty _) hlt₀
          (Nat.le_refl _)
        · rename_i t x
          rw [sz_doubled] at hle
          refine ih hlt' (Nat.le_trans hdepth ?_)
          calc ht.sz * 2 ^ (depth + 1) = ht.sz * 2 * 2 ^ depth := by
                rw [Nat.pow_succ', Nat.mul_assoc]
            _ ≤ t.sz * 2 ^ depth := Nat.mul_le_mul_right _ hle
        · intro t₁ h₁
          have hg := insertRecursive_grows depth h₁ hp hlt'
          exact ⟨hg.placed, hg.lt, hg.sz⟩

/-- The recursion of an insertion ends. -/
theorem insert_not_diverges (hlt : ht.sz < 2 ^ 32) :
    aodbmHashInsert H ht val ≠ .error .diverges := by
  refine insertRecursive_not_diverges 32 hlt ?_
  have : 1 ≤ ht.sz := ht.pos
  omega

/-! ## Insertions -/

/-- An item put into the first empty one of its positions, if there is one. -/
def settle (H : Hashing α) (ht : AodbmHash α) (x : α) : Option (AodbmHash α) :=
  (freeSlot H ht x).map fun b => ht.set b (some x)

/-- The items, put in their order into a table of twice the size, all find empty positions. -/
def Settles (H : Hashing α) (ht : AodbmHash α) : Prop :=
  (ht.items.foldlM (settle H) (doubled ht)).isSome

/-- No two items of the table are equal. -/
def Distinct (H : Hashing α) (ht : AodbmHash α) : Prop :=
  ht.items.Pairwise fun x y => ¬ H.eq x (some y) = true

/-- The insertion returns, its item is found, and what was found still is. -/
def Keeps (H : Hashing α) (ht : AodbmHash α) (val : α) : Prop :=
  ∃ ht', aodbmHashInsert H ht val = .ok ht' ∧
    (∃ y, aodbmHashGet H ht' val = some y ∧ H.eq val (some y) = true) ∧
    ∀ x, aodbmHashGet H ht x ≠ none → aodbmHashGet H ht' x ≠ none

/-- A probe position is empty; or an equal item is there, and the old ones can be moved. -/
def Room (H : Hashing α) (ht : AodbmHash α) (val : α) : Prop :=
  freeSlot H ht val ≠ none ∨ aodbmHashGet H ht val ≠ none ∧ Settles H ht

/-- Items that find empty positions are inserted without growth. -/
theorem foldlM_settle (depth : Nat) (h : xs.foldlM (settle H) t = some t') :
    xs.foldlM (insertRecursive H (depth + 1)) t = .ok t' ∧
      ∀ y, y ∈ t'.items ↔ y ∈ xs ∨ y ∈ t.items := by
  induction xs generalizing t with
  | nil =>
    cases h
    exact ⟨rfl, fun y => by simp⟩
  | cons x xs ih =>
    rw [List.foldlM_cons] at h ⊢
    cases hb : freeSlot H t x with
    | none =>
      rw [settle, hb] at h
      cases h
    | some b =>
      rw [settle, hb] at h
      obtain ⟨hrest, hitems⟩ := ih h
      rw [insertRecursive, hb]
      refine ⟨hrest, fun y => ?_⟩
      rw [hitems y, mem_items_put hb, List.mem_cons]
      grind

/-- The first item without an empty position. -/
theorem exists_stuck (h : xs.foldlM (settle H) t = none) : ∃ ys b zs t₁, xs = ys ++ b :: zs ∧
    ys.foldlM (settle H) t = some t₁ ∧ freeSlot H t₁ b = none := by
  induction xs generalizing t with
  | nil => cases h
  | cons x xs ih =>
    rw [List.foldlM_cons] at h
    cases hb : freeSlot H t x with
    | none => exact ⟨[], x, xs, t, rfl, rfl, hb⟩
    | some b =>
      rw [settle, hb] at h
      obtain ⟨ys, c, zs, t₁, rfl, hys, hc⟩ := ih h
      refine ⟨x :: ys, c, zs, t₁, rfl, ?_, hc⟩
      rw [List.foldlM_cons, settle, hb]
      exact hys

/-- An item that is stuck is lost, if no other one is equal to it. -/
theorem Distinct.settles (hd : Distinct H ht) (hlt : ht.sz * 2 < 2 ^ 32)
    (h : ht.items.foldlM (insertRecursive H (depth + 1)) (doubled ht) = .ok ht')
    (hkeep : ∀ x ∈ ht.items, Stored H ht' x) : Settles H ht := by
  rw [Settles, Option.isSome_iff_ne_none]
  intro hnone
  obtain ⟨ys, b, zs, t₁, hsplit, hys, hstuck⟩ := exists_stuck hnone
  obtain ⟨hplaced, hitems⟩ := foldlM_settle depth hys
  rw [Distinct, hsplit, List.pairwise_append, List.pairwise_cons] at hd
  have hstep : ∀ {t x t'}, insertRecursive H (depth + 1) t x = .ok t' → Placed H t →
      t.sz < 2 ^ 32 → Grows H t t' [x] :=
    fun hx hpt hltt => (insertRecursive_grows _ hx hpt hltt).single
  have hg₁ := foldlM_grows hstep hplaced (Placed.empty _) (by rwa [sz_doubled])
  rw [hsplit, List.foldlM_append, hplaced] at h
  have h : (b :: zs).foldlM (insertRecursive H (depth + 1)) t₁ = .ok ht' := h
  rw [List.foldlM_cons] at h
  cases hb : insertRecursive H (depth + 1) t₁ b with
  | error e =>
    rw [hb] at h
    cases h
  | ok t₂ =>
    rw [hb] at h
    have hg₂ := insertRecursive_grows _ hb hg₁.placed hg₁.lt
    rw [if_pos hstuck] at hg₂
    have hg₃ := foldlM_grows hstep h hg₂.placed hg₂.lt
    obtain ⟨y, hy, heq⟩ := hkeep b (by rw [hsplit]; simp)
    rcases hg₃.items y hy with hz | hy
    · exact hd.2.1.1 y hz heq
    · have hy := (hg₂.items y hy).resolve_left List.not_mem_nil
      rcases (hitems y).mp hy with hy | hy
      · exact hd.2.2 y hy b List.mem_cons_self (H.symm heq)
      · exact items_empty _ hy

/-! ## Runs -/

/-- Insertions and deletions. -/
inductive HashStep (H : Hashing α) : AodbmHash α → AodbmHash α → Prop
  | insert {ht ht' : AodbmHash α} {val : α} (run : aodbmHashInsert H ht val = .ok ht') :
      HashStep H ht ht'
  | del (ht : AodbmHash α) (data : α) : HashStep H ht (aodbmHashDel H ht data)

/-- The tables reached from `aodbm_new_hash`. -/
def Reached (H : Hashing α) (ht : AodbmHash α) : Prop :=
  ∃ sz, Relation.ReflTransGen (HashStep H) (aodbmNewHash sz) ht

theorem Reached.placed (h : Reached H ht) : Placed H ht ∧ ht.sz < 2 ^ 32 := by
  obtain ⟨sz, hrun⟩ := h
  induction hrun with
  | refl =>
    unfold aodbmNewHash
    split
    · exact ⟨Placed.empty _, by simp [emptyTable, AodbmHash.sz]⟩
    · refine ⟨Placed.empty _, ?_⟩
      rw [emptyTable, AodbmHash.sz, List.length_replicate]
      exact sz.toNat_lt
  | tail _ hstep ih =>
    obtain ⟨hp, hlt⟩ := ih
    cases hstep with
    | insert run =>
      have hg := insertRecursive_grows 32 run hp hlt
      exact ⟨hg.placed, hg.lt⟩
    | del data =>
      refine ⟨hp.del data, ?_⟩
      unfold aodbmHashDel
      split
      · rwa [sz_set]
      · exact hlt

/-- An insertion that does not wrap the size keeps its item and what was found if there is
room for it; on a table without equal items, only then. -/
theorem insert_keeps (hr : Reached H ht) (hwrap : aodbmHashInsert H ht val ≠ .error .wraps) :
    (Room H ht val → Keeps H ht val) ∧
      (Keeps H ht val → freeSlot H ht val ≠ none ∨ aodbmHashGet H ht val ≠ none) ∧
      (Distinct H ht → (Keeps H ht val ↔ Room H ht val)) := by
  obtain ⟨hp, hlt⟩ := hr.placed
  have hend : ∃ ht', aodbmHashInsert H ht val = .ok ht' := by
    cases h : aodbmHashInsert H ht val with
    | ok ht' => exact ⟨ht', rfl⟩
    | error e =>
      cases e with
      | wraps => exact absurd h hwrap
      | diverges => exact absurd h (insert_not_diverges hlt)
  obtain ⟨ht', hrun⟩ := hend
  have hg := insertRecursive_grows 32 hrun hp hlt
  -- what the items of the new table say about what is found in it
  have found : (Stored H ht' val ∧ ∀ x ∈ ht.items, Stored H ht' x) → Keeps H ht val := by
    rintro ⟨hval, hold⟩
    refine ⟨ht', hrun, ?_, fun x hx => ?_⟩
    · obtain ⟨y, hy⟩ := Option.ne_none_iff_exists'.mp (hg.placed.get_iff.mpr hval)
      exact ⟨y, hy, get_eq hy⟩
    · obtain ⟨y, hy, heq⟩ := hp.get_iff.mp hx
      obtain ⟨z, hz, heq'⟩ := hold y hy
      exact hg.placed.get_iff.mpr ⟨z, hz, H.trans heq heq'⟩
  have kept : Keeps H ht val → ∀ x ∈ ht.items, Stored H ht' x := by
    rintro ⟨ht₁, hrun₁, _, hold⟩ x hx
    rw [hrun] at hrun₁
    cases hrun₁
    exact hg.placed.get_iff.mp (hold x (hp.get_iff.mpr ⟨x, hx, H.refl x⟩))
  have grown : freeSlot H ht val = none → ht.sz * 2 < 2 ^ 32 ∧
      ht.items.foldlM (insertRecursive H (30 + 1)) (doubled ht) = .ok ht' := by
    intro hnone
    rw [aodbmHashInsert, insertRecursive, hnone] at hrun
    simp only at hrun
    split at hrun
    · cases hrun
    · next hfits => exact ⟨Nat.lt_of_not_le hfits, hrun⟩
  have room : Room H ht val → Keeps H ht val := by
    intro h
    apply found
    cases hb : freeSlot H ht val with
    | some b =>
      rw [aodbmHashInsert, insertRecursive, hb] at hrun
      cases hrun
      exact ⟨⟨val, (mem_items_put hb).mpr (Or.inl rfl), H.refl val⟩,
        fun x hx => ⟨x, (mem_items_put hb).mpr (Or.inr hx), H.refl x⟩⟩
    | none =>
      obtain ⟨hget, hsettles⟩ := h.resolve_left fun h => h hb
      obtain ⟨t, hfold⟩ := Option.isSome_iff_exists.mp hsettles
      obtain ⟨hplaced, hitems⟩ := foldlM_settle 30 hfold
      rw [(grown hb).2] at hplaced
      cases hplaced
      have hold : ∀ x ∈ ht.items, x ∈ ht'.items := fun x hx => (hitems x).mpr (Or.inl hx)
      obtain ⟨y, hy, heq⟩ := hp.get_iff.mp hget
      exact ⟨⟨y, hold y hy, heq⟩, fun x hx => ⟨x, hold x hx, H.refl x⟩⟩
  have need : Keeps H ht val → freeSlot H ht val ≠ none ∨ aodbmHashGet H ht val ≠ none := by
    rintro ⟨ht₁, hrun₁, ⟨y, hy, -⟩, -⟩
    rw [hrun] at hrun₁
    cases hrun₁
    refine or_iff_not_imp_left.mpr fun hnone => ?_
    -- a full table does not take the new item
    rw [not_not.mp hnone, if_pos rfl] at hg
    obtain ⟨z, hz, heq⟩ := hg.placed.get_iff.mp (Option.ne_none_iff_exists'.mpr ⟨y, hy⟩)
    exact hp.get_iff.mpr ⟨z, (hg.items z hz).resolve_left List.not_mem_nil, heq⟩
  refine ⟨room, need, fun hd => ⟨fun h => ?_, room⟩⟩
  refine or_iff_not_imp_left.mpr fun hnone => ⟨(need h).resolve_left hnone, ?_⟩
  obtain ⟨hfits, hfold⟩ := grown (not_not.mp hnone)
  exact hd.settles hfits hfold (kept h)

/-- In every table that is reached the items stand at their probe positions, lookups find
what is stored, and a deletion empties one slot with an equal item, if there is one, and hides
no other item. -/
theorem probe_invariant (hr : Reached H ht) :
    Placed H ht ∧
      (∀ x, aodbmHashGet H ht x ≠ none ↔ ∃ b y, ht.slot b = some y ∧ H.eq x (some y) = true) ∧
      ∀ x, (∃ b y, ht.slot b = some y ∧ H.eq x (some y) = true ∧
          (∀ c, (aodbmHashDel H ht x).slot c = if c = b then none else ht.slot c) ∧
          ∀ c z, c ≠ b → ht.slot c = some z → aodbmHashGet H (aodbmHashDel H ht x) z ≠ none) ∨
        (∀ b y, ht.slot b = some y → ¬ H.eq x (some y) = true) ∧ aodbmHashDel H ht x = ht := by
  obtain ⟨hp, -⟩ := hr.placed
  have hstored : ∀ {x}, Stored H ht x ↔ ∃ b y, ht.slot b = some y ∧ H.eq x (some y) = true := by
    intro x
    simp only [Stored, mem_items]
    grind
  refine ⟨hp, fun x => hp.get_iff.trans hstored, fun x => ?_⟩
  cases h : probeLoop ht (H.eq x) hashBuckets (H.hashFunction x) with
  | none =>
    have hget : aodbmHashGet H ht x = none := by rw [aodbmHashGet, h]
    have hdel : aodbmHashDel H ht x = ht := by rw [aodbmHashDel, h]
    refine Or.inr ⟨fun b y hb heq => ?_, hdel⟩
    exact hp.get_iff.mpr ⟨y, mem_items.mpr ⟨b, hb⟩, heq⟩ hget
  | some b =>
    obtain ⟨hb, heq⟩ := probeLoop_some h
    have hdel : aodbmHashDel H ht x = ht.set b none := by rw [aodbmHashDel, h]
    have hslot := slot_set (probes_lt ht.pos hb) none
    obtain ⟨y, hy⟩ : ∃ y, ht.slot b = some y := by
      cases hy : ht.slot b with
      | none =>
        rw [hy, H.null] at heq
        cases heq
      | some y => exact ⟨y, rfl⟩
    rw [hy] at heq
    refine Or.inl ⟨b, y, hy, heq, fun c => by rw [hdel, hslot], fun c z hc hz => ?_⟩
    -- the item stands where it stood, and no position is passed over
    refine (hp.del x).get_iff.mpr ⟨z, mem_items.mpr ⟨c, ?_⟩, H.refl z⟩
    rw [hdel, hslot, if_neg hc, hz]

/-- The functions of the hash table test. -/
def intHashing : Hashing UInt32 where
  hashFunction x := x
  eq x y := y == some x
  refl x := by simp
  symm h := by simpa using (by simpa using h : _ = _).symm
  trans h h' := by simp_all
  null x := rfl
  same h := by simp_all

/-- A table with one slot, which is taken. -/
def oneSlot : AodbmHash UInt32 := ⟨[some 10], by decide⟩

/-- The item that is there can be inserted again, and no other one can. -/
theorem insert_keeps_oneSlot : Keeps intHashing oneSlot 10 ∧ ¬ Keeps intHashing oneSlot 20 := by
  have hrun : aodbmHashInsert intHashing (aodbmNewHash 1) 10 = .ok oneSlot := by decide
  have hr : Reached intHashing oneSlot := ⟨1, .single (.insert hrun)⟩
  have hwrap : aodbmHashInsert intHashing oneSlot 10 ≠ .error .wraps := by decide
  have hwrap' : aodbmHashInsert intHashing oneSlot 20 ≠ .error .wraps := by decide
  obtain ⟨hroom, -, -⟩ := insert_keeps hr hwrap
  obtain ⟨-, hneed, -⟩ := insert_keeps hr hwrap'
  have hsettles : Settles intHashing oneSlot := by
    unfold Settles
    decide
  exact ⟨hroom (Or.inr ⟨by decide, hsettles⟩), fun h => absurd (hneed h) (by decide)⟩

/-- Two slots have become four, and 40 has not found the slot of 20 empty. -/
def grownTable : AodbmHash UInt32 := ⟨[some 20, none, some 10, some 40], by decide⟩

theorem grownTable_reached : Reached intHashing grownTable := by
  let first : AodbmHash UInt32 := ⟨[some 10, none], by decide⟩
  let second : AodbmHash UInt32 := ⟨[some 10, some 20], by decide⟩
  let third : AodbmHash UInt32 := ⟨[some 20, none, some 10, none], by decide⟩
  have h1 : aodbmHashInsert intHashing (aodbmNewHash 2) 10 = .ok first := by decide
  have h2 : aodbmHashInsert intHashing first 20 = .ok second := by decide
  have h3 : aodbmHashInsert intHashing second 30 = .ok third := by decide
  have h4 : aodbmHashInsert intHashing third 40 = .ok grownTable := by decide
  exact ⟨2, .tail (.tail (.tail (.single (.insert h1)) (.insert h2)) (.insert h3)) (.insert h4)⟩

/-- When 20 is deleted, 40 is found behind its empty slot. -/
theorem probe_invariant_grown : Placed intHashing grownTable ∧
    aodbmHashGet intHashing (aodbmHashDel intHashing grownTable 20) 40 ≠ none := by
  obtain ⟨hp, -, hdel⟩ := probe_invariant grownTable_reached
  refine ⟨hp, ?_⟩
  rcases hdel 20 with ⟨b, y, hb, heq, -, hkeeps⟩ | ⟨hnone, -⟩
  · refine hkeeps 3 40 ?_ rfl
    rintro rfl
    cases hb
    exact absurd heq (by decide)
  · exact absurd (by decide) (hnone 0 20 rfl)

/-- In a table of size 1 the second item is not found after its insertion. -/
theorem second_insert_lost : ∃ ht, aodbmHashInsert intHashing (aodbmNewHash 1) 10 = .ok ht ∧
    ∃ ht', aodbmHashInsert intHashing ht 20 = .ok ht' ∧ aodbmHashGet intHashing ht' 20 = none :=
  ⟨oneSlot, by decide, ⟨[some 10, none], by decide⟩, by decide, by decide⟩

end Growth

end Aodbm
