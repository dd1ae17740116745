import Aodbm.Lib.Bytes
import Mathlib.Data.Nat.Bitwise
import Mathlib.Data.Prod.Lex
import Mathlib.Data.List.Lex
import Mathlib.Tactic.Order

/-!
# Data blocks (`aodbm_data.c`)

The build and the host the library runs on, the comparison functions of keys, and
the conversion of numbers to bytes.

Results:
1. `aodbmDataLt_iff`: the comparison loop is the order of the rank of the keys:
   shorter first, then lexicographic in the host's char order, on the bytes an
   `int` index can reach.
2. `rank_inj`: two different keys of one rank are longer than `2 ^ 31` bytes.
3. `key_order`: on keys below `2 ^ 31` bytes the comparison functions agree on one strict
   order.
4. `to32_from32`, `to64_from64` and their converses: on either kind of host a
   number written to the file is the number read back.
-/

namespace Aodbm

open Bytes

/-- A block of bytes: `struct aodbm_data`, its `sz` being the length. -/
abbrev Data := List UInt8

/-- What the source leaves to the build and to the host.
`maxNodeSize` is `MAX_NODE_SIZE`: "this number must be even and >= 4". -/
structure Build where
  maxNodeSize : Nat
  even : maxNodeSize % 2 = 0
  four_le : 4 ≤ maxNodeSize
  /-- Whether plain `char` is signed. -/
  charSigned : Bool
  /-- The host's byte order. -/
  bigEndian : Bool

variable (B : Build)

/-! ## Comparison -/

/-- The value of a byte as a plain `char`. -/
def charVal (c : UInt8) : Int :=
  if B.charSigned && decide (128 ≤ c.toNat) then (c.toNat : Int) - 256 else c.toNat

/-- The loop of `aodbm_data_lt` on blocks of one size, from index `p` on. The
index is an `int`: past `2 ^ 31 - 1` it turns negative, the test `p < a->sz`
compares it as a huge `size_t`, and the loop ends. -/
def dataLtLoop : Nat → Data → Data → Bool
  | p, x :: xs, y :: ys =>
    if p = 2 ^ 31 then false
    else if charVal B x < charVal B y then true
    else if charVal B x > charVal B y then false
    else dataLtLoop (p + 1) xs ys
  | _, _, _ => false

def aodbmDataLt (a b : Data) : Bool :=
  if a.length < b.length then true
  else if a.length > b.length then false
  else dataLtLoop B 0 a b

def aodbmDataGt (a b : Data) : Bool := aodbmDataLt B b a

def aodbmDataLe (a b : Data) : Bool := !aodbmDataGt B a b

def aodbmDataGe (a b : Data) : Bool := !aodbmDataLt B a b

/-- The loop of `aodbm_data_eq` on blocks of one size. Its index is a `uint32_t`, so that the loop
of the source ends on blocks of less than `2 ^ 32` bytes, or at a difference below that. -/
def dataEqLoop : Data → Data → Bool
  | x :: xs, y :: ys => if x ≠ y then false else dataEqLoop xs ys
  | _, _ => true

def aodbmDataEq (a b : Data) : Bool :=
  if a.length ≠ b.length then false else dataEqLoop a b

def aodbmDataCmp (a b : Data) : Int :=
  if aodbmDataEq a b then 0 else if aodbmDataLt B a b then -1 else 1

/-- What the comparison of keys looks at: the size, then the bytes below `2 ^ 31`. -/
def rank (a : Data) : ℕ ×ₗ List ℤ := toLex (a.length, (a.take (2 ^ 31)).map (charVal B))

theorem charVal_inj {x y : UInt8} (h : charVal B x = charVal B y) : x = y := by
  have hx := x.toNat_lt
  have hy := y.toNat_lt
  apply UInt8.toNat_inj.mp
  unfold charVal at h
  cases hc : B.charSigned with
  | false =>
    simp only [hc, Bool.false_and, Bool.false_eq_true, if_false] at h
    omega
  | true =>
    simp only [hc, Bool.true_and, decide_eq_true_eq] at h
    split at h <;> split at h <;> omega

theorem dataLtLoop_iff {p : Nat} {a b : Data} (hp : p ≤ 2 ^ 31) (hab : a.length = b.length) :
    dataLtLoop B p a b = true ↔
      (a.take (2 ^ 31 - p)).map (charVal B) < (b.take (2 ^ 31 - p)).map (charVal B) := by
  induction a generalizing p b with
  | nil =>
    have hb : b = [] := List.length_eq_zero_iff.mp hab.symm
    simp [hb, dataLtLoop]
  | cons x a ih =>
    cases b with
    | nil => simp at hab
    | cons y b =>
      unfold dataLtLoop
      by_cases hpe : p = 2 ^ 31
      · simp [hpe]
      · rw [if_neg hpe]
        obtain ⟨n, hn⟩ : ∃ n, 2 ^ 31 - p = n + 1 := ⟨2 ^ 31 - p - 1, by omega⟩
        have hn' : 2 ^ 31 - (p + 1) = n := by omega
        have := ih (p := p + 1) (b := b) (by omega) (by simpa using hab)
        rw [hn'] at this
        rw [hn, List.take_succ_cons, List.take_succ_cons, List.map_cons, List.map_cons,
          List.cons_lt_cons_iff]
        split
        · next hlt => simp [hlt]
        · next hnlt =>
          split
          · next hgt => simp [hnlt, ne_of_gt hgt]
          · next hngt =>
            have heq : charVal B x = charVal B y := by omega
            simp [heq, this]

/-- The comparison loop decides the order of the ranks. -/
theorem aodbmDataLt_iff {a b : Data} : aodbmDataLt B a b = true ↔ rank B a < rank B b := by
  unfold aodbmDataLt rank
  rw [Prod.Lex.toLex_lt_toLex]
  split
  · next h => simp [h]
  · next h =>
    split
    · next h' => simp [h, ne_of_gt h']
    · next h' =>
      have hab : a.length = b.length := by omega
      rw [dataLtLoop_iff B (by omega) hab]
      simp [hab]

theorem aodbmDataLt_eq (a b : Data) : aodbmDataLt B a b = decide (rank B a < rank B b) := by
  rw [Bool.eq_iff_iff, decide_eq_true_iff, aodbmDataLt_iff]

theorem aodbmDataLe_eq (a b : Data) : aodbmDataLe B a b = decide (rank B a ≤ rank B b) := by
  unfold aodbmDataLe aodbmDataGt
  rw [aodbmDataLt_eq, ← decide_not, decide_eq_decide, not_lt]

theorem aodbmDataGe_eq (a b : Data) : aodbmDataGe B a b = decide (rank B b ≤ rank B a) := by
  unfold aodbmDataGe
  rw [aodbmDataLt_eq, ← decide_not, decide_eq_decide, not_lt]

/-- Keys of one rank that an `int` index can scan are equal. -/
theorem rank_inj {a b : Data} (h : rank B a = rank B b) (ha : a.length ≤ 2 ^ 31) : a = b := by
  unfold rank at h
  simp only [EmbeddingLike.apply_eq_iff_eq, Prod.mk.injEq] at h
  obtain ⟨hl, hm⟩ := h
  rw [List.take_of_length_le ha, List.take_of_length_le (hl ▸ ha)] at hm
  exact List.map_injective_iff.mpr (fun x y => charVal_inj B) hm

/-- The empty key is the least one. -/
theorem rank_nil_le (a : Data) : rank B [] ≤ rank B a := by
  unfold rank
  rw [Prod.Lex.toLex_le_toLex]
  cases a with
  | nil => simp
  | cons x a => simp

theorem dataEqLoop_iff {a b : Data} (hab : a.length = b.length) :
    dataEqLoop a b = true ↔ a = b := by
  induction a generalizing b with
  | nil =>
    have hb : b = [] := List.length_eq_zero_iff.mp hab.symm
    simp [hb, dataEqLoop]
  | cons x a ih =>
    cases b with
    | nil => simp at hab
    | cons y b =>
      unfold dataEqLoop
      split
      · next h => simp [h]
      · next h =>
        rw [ih (by simpa using hab)]
        simp [not_not.mp h]

theorem aodbmDataEq_eq (a b : Data) : aodbmDataEq a b = decide (a = b) := by
  rw [Bool.eq_iff_iff, decide_eq_true_iff]
  unfold aodbmDataEq
  split
  · next h =>
    constructor
    · intro h'
      cases h'
    · rintro rfl
      exact absurd rfl h
  · next h => exact dataEqLoop_iff (not_not.mp h)

/-- Lexicographic order in the host's char order. -/
def CharLt (a b : Data) : Prop := List.Lex (fun x y => charVal B x < charVal B y) a b

theorem charLt_iff {a b : Data} : CharLt B a b ↔ a.map (charVal B) < b.map (charVal B) := by
  constructor
  · intro h
    induction h with
    | nil => simp
    | rel h => exact List.cons_lt_cons_iff.mpr (Or.inl h)
    | cons _ ih => exact List.cons_lt_cons_iff.mpr (Or.inr ⟨rfl, ih⟩)
  · intro h
    induction a generalizing b with
    | nil =>
      cases b with
      | nil => simp at h
      | cons y b => exact .nil
    | cons x a ih =>
      cases b with
      | nil => simp at h
      | cons y b =>
        rw [List.map_cons, List.map_cons, List.cons_lt_cons_iff] at h
        rcases h with h | ⟨hxy, h⟩
        · exact .rel h
        · obtain rfl := charVal_inj B hxy
          exact .cons (ih h)

/-- Below `2 ^ 31` bytes the loop sees all bytes. -/
theorem aodbmDataLt_short {a b : Data} (ha : a.length < 2 ^ 31) (hb : b.length < 2 ^ 31) :
    aodbmDataLt B a b = true ↔ a.length < b.length ∨ a.length = b.length ∧ CharLt B a b := by
  rw [aodbmDataLt_iff, charLt_iff, rank, rank, Prod.Lex.toLex_lt_toLex,
    List.take_of_length_le ha.le, List.take_of_length_le hb.le]

/-- Of two keys below `2 ^ 31` bytes one is less than the other or they are equal, which
`aodbm_data_cmp` reports. The order is that of the lengths, then lexicographic. -/
theorem key_order {a b c : Data} (ha : a.length < 2 ^ 31) (hb : b.length < 2 ^ 31) :
    (aodbmDataLt B a b = true ∧ aodbmDataEq a b = false ∧ aodbmDataLt B b a = false ∧
        aodbmDataCmp B a b = -1 ∨
      aodbmDataLt B a b = false ∧ aodbmDataEq a b = true ∧ aodbmDataLt B b a = false ∧
        aodbmDataCmp B a b = 0 ∨
      aodbmDataLt B a b = false ∧ aodbmDataEq a b = false ∧ aodbmDataLt B b a = true ∧
        aodbmDataCmp B a b = 1) ∧
    (aodbmDataEq a b = true ↔ a = b) ∧
    (aodbmDataLt B a b = true → aodbmDataLt B b c = true → aodbmDataLt B a c = true) ∧
    (aodbmDataLt B a b = true ↔ a.length < b.length ∨ a.length = b.length ∧ CharLt B a b) ∧
    (aodbmDataLe B a b = true ↔ aodbmDataLt B a b = true ∨ a = b) ∧
    (aodbmDataGe B a b = true ↔ aodbmDataLt B b a = true ∨ a = b) ∧
    aodbmDataLe B [] a = true := by
  have hle : ∀ {x y : Data}, x.length < 2 ^ 31 →
      (rank B x ≤ rank B y ↔ rank B x < rank B y ∨ x = y) := by
    intro x y hx
    rw [le_iff_lt_or_eq]
    exact or_congr_right ⟨fun h => rank_inj B h hx.le, fun h => h ▸ rfl⟩
  refine ⟨?_, by rw [aodbmDataEq_eq, decide_eq_true_iff], ?_, aodbmDataLt_short B ha hb, ?_, ?_, ?_⟩
  · unfold aodbmDataCmp
    rw [aodbmDataEq_eq, aodbmDataLt_eq, aodbmDataLt_eq]
    -- the rank of short keys is injective, so equal ranks are equal keys
    rcases lt_trichotomy (rank B a) (rank B b) with h | h | h
    · have hne : a ≠ b := fun hab => absurd h (by rw [hab]; exact lt_irrefl _)
      simp [h, hne, not_lt_of_gt h]
    · obtain rfl := rank_inj B h ha.le
      simp
    · have hne : a ≠ b := fun hab => absurd h (by rw [hab]; exact lt_irrefl _)
      simp [h, hne, not_lt_of_gt h]
  · simp only [aodbmDataLt_iff]
    exact lt_trans
  · rw [aodbmDataLe_eq, decide_eq_true_iff, aodbmDataLt_iff]
    exact hle ha
  · rw [aodbmDataGe_eq, decide_eq_true_iff, aodbmDataLt_iff, hle hb]
    exact or_congr_right eq_comm
  · rw [aodbmDataLe_eq, decide_eq_true_iff]
    exact rank_nil_le B a

/-- On a host with signed `char` the byte 200 is below the byte 1. -/
theorem key_order_signed : CharLt ⟨4, rfl, Nat.le_refl 4, true, false⟩ [200] [1] := by
  have hlt := (key_order ⟨4, rfl, Nat.le_refl 4, true, false⟩ (a := [200]) (b := [1]) (c := [])
    (by decide) (by decide)).2.2.2.1.mp (by decide)
  exact (hlt.resolve_left (by decide)).2

/-! ## Numbers in memory and in the file -/

/-- The bytes of a `uint32_t` or `uint64_t` of `n` bytes in the host's memory. -/
def toMem (n v : Nat) : Data := if B.bigEndian then (leBytes n v).reverse else leBytes n v

/-- The number that stands in the host's memory. -/
def ofMem (bs : Data) : Nat := if B.bigEndian then leNat bs.reverse else leNat bs

/-- `ntohl` and `htonl`: byte reversal on a little-endian host, the identity otherwise. -/
def ntohl (n : Nat) : Nat := if B.bigEndian then n else leNat (leBytes 4 n).reverse

/-- The macro `ntohll`, which is also `htonll`. -/
def ntohll (x : Nat) : Nat :=
  (ntohl B (((x <<< 32 % 2 ^ 64) >>> 32) % 2 ^ 32)) <<< 32 ||| ntohl B ((x >>> 32) % 2 ^ 32)

def aodbmDataFrom32 (n : Nat) : Data := toMem B 4 (ntohl B n)

def aodbmDataFrom64 (n : Nat) : Data := toMem B 8 (ntohll B n)

/-- A `uint32_t` read from the file: the bytes are put in memory, then converted. -/
def to32 (bs : Data) : Nat := ntohl B (ofMem B bs)

/-- A `uint64_t` read from the file. -/
def to64 (bs : Data) : Nat := ntohll B (ofMem B bs)

variable {B}

@[simp] theorem toMem_length (n v : Nat) : (toMem B n v).length = n := by
  unfold toMem
  split <;> simp

theorem ofMem_toMem {n v : Nat} (hv : v < 256 ^ n) : ofMem B (toMem B n v) = v := by
  unfold ofMem toMem
  split
  · rw [List.reverse_reverse, leNat_leBytes hv]
  · exact leNat_leBytes hv

theorem toMem_ofMem (bs : Data) : toMem B bs.length (ofMem B bs) = bs := by
  unfold ofMem toMem
  split
  · have := leBytes_leNat bs.reverse
    rw [List.length_reverse] at this
    rw [this, List.reverse_reverse]
  · exact leBytes_leNat bs

theorem ofMem_lt (bs : Data) : ofMem B bs < 256 ^ bs.length := by
  unfold ofMem
  split
  · simpa using leNat_lt bs.reverse
  · exact leNat_lt bs

theorem ntohl_lt {n : Nat} (hn : n < 2 ^ 32) : ntohl B n < 2 ^ 32 := by
  unfold ntohl
  split
  · exact hn
  · have := leNat_lt (leBytes 4 n).reverse
    simpa using this

theorem ntohl_ntohl {n : Nat} (hn : n < 2 ^ 32) : ntohl B (ntohl B n) = n := by
  unfold ntohl
  split
  · rfl
  · have h := leBytes_leNat (leBytes 4 n).reverse
    rw [List.length_reverse, leBytes_length] at h
    rw [h, List.reverse_reverse, leNat_leBytes (by simpa using hn)]

theorem ntohll_eq {x : Nat} (hx : x < 2 ^ 64) :
    ntohll B x = ntohl B (x % 2 ^ 32) * 2 ^ 32 + ntohl B (x / 2 ^ 32) := by
  have hhi : x / 2 ^ 32 < 2 ^ 32 := by omega
  have hlo : (x <<< 32 % 2 ^ 64) >>> 32 = x % 2 ^ 32 := by
    rw [Nat.shiftLeft_eq, Nat.shiftRight_eq_div_pow]
    omega
  unfold ntohll
  rw [hlo, Nat.shiftRight_eq_div_pow, Nat.mod_mod, Nat.mod_eq_of_lt hhi,
    ← Nat.shiftLeft_add_eq_or_of_lt (ntohl_lt hhi), Nat.shiftLeft_eq]

theorem ntohll_lt {x : Nat} (hx : x < 2 ^ 64) : ntohll B x < 2 ^ 64 := by
  have h1 := ntohl_lt (B := B) (n := x % 2 ^ 32) (by omega)
  have h2 := ntohl_lt (B := B) (n := x / 2 ^ 32) (by omega)
  rw [ntohll_eq hx]
  omega

/-- Whatever the host does with the halves, doing it twice restores the number. -/
theorem ntohll_ntohll {x : Nat} (hx : x < 2 ^ 64) : ntohll B (ntohll B x) = x := by
  have h1 := ntohl_lt (B := B) (n := x % 2 ^ 32) (by omega)
  have h2 := ntohl_lt (B := B) (n := x / 2 ^ 32) (by omega)
  have hlo : ntohll B x % 2 ^ 32 = ntohl B (x / 2 ^ 32) := by rw [ntohll_eq hx]; omega
  have hhi : ntohll B x / 2 ^ 32 = ntohl B (x % 2 ^ 32) := by rw [ntohll_eq hx]; omega
  rw [ntohll_eq (ntohll_lt hx), hlo, hhi, ntohl_ntohl (by omega), ntohl_ntohl (by omega)]
  omega

theorem ntohl_zero : ntohl B 0 = 0 := by
  unfold ntohl
  split
  · rfl
  · decide

theorem from64_zero : aodbmDataFrom64 B 0 = List.replicate 8 0 := by
  have hzero : ntohll B 0 = 0 := by
    rw [ntohll_eq (by decide)]
    simp [ntohl_zero]
  unfold aodbmDataFrom64 toMem
  rw [hzero]
  split <;> decide

@[simp] theorem from32_length (n : Nat) : (aodbmDataFrom32 B n).length = 4 := toMem_length ..

@[simp] theorem from64_length (n : Nat) : (aodbmDataFrom64 B n).length = 8 := toMem_length ..

theorem to32_from32 {n : Nat} (hn : n < 2 ^ 32) : to32 B (aodbmDataFrom32 B n) = n := by
  unfold to32 aodbmDataFrom32
  rw [ofMem_toMem (by simpa using ntohl_lt hn), ntohl_ntohl hn]

theorem to64_from64 {n : Nat} (hn : n < 2 ^ 64) : to64 B (aodbmDataFrom64 B n) = n := by
  unfold to64 aodbmDataFrom64
  rw [ofMem_toMem (by simpa using ntohll_lt hn), ntohll_ntohll hn]

theorem to32_lt {bs : Data} (h : bs.length = 4) : to32 B bs < 2 ^ 32 := by
  have := ofMem_lt (B := B) bs
  rw [h] at this
  exact ntohl_lt (by simpa using this)

theorem to64_lt {bs : Data} (h : bs.length = 8) : to64 B bs < 2 ^ 64 := by
  have := ofMem_lt (B := B) bs
  rw [h] at this
  exact ntohll_lt (by simpa using this)

theorem from32_to32 {bs : Data} (h : bs.length = 4) : aodbmDataFrom32 B (to32 B bs) = bs := by
  have hlt := ofMem_lt (B := B) bs
  rw [h] at hlt
  unfold aodbmDataFrom32 to32
  rw [ntohl_ntohl (by simpa using hlt)]
  have := toMem_ofMem (B := B) bs
  rwa [h] at this

theorem from64_to64 {bs : Data} (h : bs.length = 8) : aodbmDataFrom64 B (to64 B bs) = bs := by
  have hlt := ofMem_lt (B := B) bs
  rw [h] at hlt
  unfold aodbmDataFrom64 to64
  rw [ntohll_ntohll (by simpa using hlt)]
  have := toMem_ofMem (B := B) bs
  rwa [h] at this

end Aodbm
