import Mathlib.Data.List.Basic
import Mathlib.Tactic.Ring

/-!
# Segments of a file and fixed-width numbers

`SegAt f p x`: the list `x` stands in the file `f` at position `p`. Segments
survive every append, which is what an append-only file offers its readers.
`leBytes n v` and `leNat` are the little-endian bytes of a number of fixed width.
-/

namespace Bytes

/-! ## Segments -/

section Seg
variable {α : Type}

/-- The list `x` stands in `f` at position `p`. -/
def SegAt (f : List α) (p : Nat) (x : List α) : Prop :=
  ∃ pre post, f = pre ++ x ++ post ∧ pre.length = p

variable {f g x y : List α} {p : Nat}

theorem segAt_append : SegAt f p (x ++ y) ↔ SegAt f p x ∧ SegAt f (p + x.length) y := by
  constructor
  · rintro ⟨pre, post, rfl, rfl⟩
    exact ⟨⟨pre, y ++ post, by simp, rfl⟩, ⟨pre ++ x, post, by simp, by simp⟩⟩
  · rintro ⟨⟨pre, post, hf, hp⟩, ⟨pre', post', hf', hp'⟩⟩
    have hpre : pre' = pre ++ x ∧ y ++ post' = post := by
      apply List.append_inj
      · rw [← List.append_assoc, ← hf', hf]
      · rw [hp', List.length_append, hp]
    exact ⟨pre, post', by rw [hf', hpre.1, List.append_assoc pre], hp⟩

theorem SegAt.left (h : SegAt f p (x ++ y)) : SegAt f p x := (segAt_append.mp h).1

theorem SegAt.right (h : SegAt f p (x ++ y)) : SegAt f (p + x.length) y := (segAt_append.mp h).2

theorem SegAt.le (h : SegAt f p x) : p + x.length ≤ f.length := by
  obtain ⟨pre, post, rfl, rfl⟩ := h
  simp only [List.length_append]
  omega

/-- What stands in a file stands there after every append. -/
theorem SegAt.append (h : SegAt f p x) (t : List α) : SegAt (f ++ t) p x := by
  obtain ⟨pre, post, rfl, rfl⟩ := h
  exact ⟨pre, post ++ t, by simp, rfl⟩

theorem SegAt.mono (h : SegAt f p x) (hfg : f <+: g) : SegAt g p x := by
  obtain ⟨t, rfl⟩ := hfg
  exact h.append t

/-- A segment that ends inside a prefix of the file stands in that prefix. -/
theorem SegAt.of_prefix (h : SegAt f p x) (hgf : g <+: f) (hp : p + x.length ≤ g.length) :
    SegAt g p x := by
  obtain ⟨pre, post, hf, rfl⟩ := h
  obtain ⟨t, ht⟩ := hgf
  have hx : pre ++ x <+: g := by
    refine List.prefix_of_prefix_length_le ⟨post, rfl⟩ ⟨t, ht.trans hf⟩ ?_
    simpa using hp
  obtain ⟨post', hpost⟩ := hx
  exact ⟨pre, post', hpost.symm, rfl⟩

theorem segAt_end (f x : List α) : SegAt (f ++ x) f.length x := ⟨f, [], by simp, rfl⟩

theorem segAt_mid (f x t : List α) : SegAt (f ++ x ++ t) f.length x := ⟨f, t, rfl, rfl⟩

/-- Reading `x.length` elements at the position of a segment gives the segment. -/
theorem SegAt.read (h : SegAt f p x) : (f.drop p).take x.length = x := by
  obtain ⟨pre, post, rfl, rfl⟩ := h
  simp

theorem segAt_iff : SegAt f p x ↔ p ≤ f.length ∧ (f.drop p).take x.length = x := by
  constructor
  · intro h
    exact ⟨by have := h.le; omega, h.read⟩
  · rintro ⟨hp, hx⟩
    refine ⟨f.take p, f.drop (p + x.length), ?_, by simpa using hp⟩
    conv_lhs => rw [← List.take_append_drop p f]
    rw [List.append_assoc, ← List.drop_drop]
    conv_lhs => rw [← List.take_append_drop x.length (f.drop p)]
    rw [hx]

/-- The segment of a given length at a position is unique. -/
theorem SegAt.unique (hx : SegAt f p x) (hy : SegAt f p y) (hl : x.length = y.length) : x = y := by
  rw [← hx.read, ← hy.read, hl]

end Seg

/-! ## Numbers of fixed width -/

/-- The `n` little-endian bytes of a number. -/
def leBytes : Nat → Nat → List UInt8
  | 0, _ => []
  | n + 1, v => UInt8.ofNat (v % 256) :: leBytes n (v / 256)

/-- The number that little-endian bytes stand for. -/
def leNat : List UInt8 → Nat
  | [] => 0
  | b :: bs => b.toNat + 256 * leNat bs

@[simp] theorem leBytes_length (n v : Nat) : (leBytes n v).length = n := by
  induction n generalizing v with
  | zero => rfl
  | succ n ih => simp [leBytes, ih]

theorem leNat_lt (bs : List UInt8) : leNat bs < 256 ^ bs.length := by
  induction bs with
  | nil => simp [leNat]
  | cons b bs ih =>
    have hb := b.toNat_lt
    simp only [leNat, List.length_cons, pow_succ]
    omega

theorem leNat_leBytes {n v : Nat} (hv : v < 256 ^ n) : leNat (leBytes n v) = v := by
  induction n generalizing v with
  | zero =>
    have : v = 0 := by simpa using hv
    rw [this]
    rfl
  | succ n ih =>
    have hdiv : v / 256 < 256 ^ n := by
      rw [Nat.div_lt_iff_lt_mul (by decide)]
      simpa [pow_succ] using hv
    simp only [leBytes, leNat, ih hdiv]
    have hmod : (UInt8.ofNat (v % 256)).toNat = v % 256 := by
      simp [UInt8.toNat_ofNat']
    rw [hmod]
    omega

theorem leBytes_leNat (bs : List UInt8) : leBytes bs.length (leNat bs) = bs := by
  induction bs with
  | nil => rfl
  | cons b bs ih =>
    have hb := b.toNat_lt
    have hmod : (b.toNat + 256 * leNat bs) % 256 = b.toNat := by omega
    have hdiv : (b.toNat + 256 * leNat bs) / 256 = leNat bs := by omega
    simp only [List.length_cons, leNat, leBytes, hmod, hdiv, ih, UInt8.ofNat_toNat]

/-- Little-endian bytes of a number split at any width. -/
theorem leBytes_add (m n v : Nat) :
    leBytes (m + n) v = leBytes m (v % 256 ^ m) ++ leBytes n (v / 256 ^ m) := by
  induction m generalizing v with
  | zero => simp [leBytes]
  | succ m ih =>
    rw [Nat.add_right_comm, leBytes, ih, leBytes, List.cons_append]
    have hmod : v % 256 ^ (m + 1) % 256 = v % 256 := by
      rw [pow_succ, Nat.mul_comm, Nat.mod_mul_right_mod]
    have hdiv : v % 256 ^ (m + 1) / 256 = v / 256 % 256 ^ m := by
      rw [pow_succ, Nat.mul_comm, Nat.mod_mul_right_div_self]
    have hdd : v / 256 / 256 ^ m = v / 256 ^ (m + 1) := by
      rw [Nat.div_div_eq_div_mul, pow_succ, Nat.mul_comm]
    rw [hmod, hdiv, hdd]

end Bytes
