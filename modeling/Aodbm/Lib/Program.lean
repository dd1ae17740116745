import Mathlib.Tactic.Common

/-!
# Programs over a signature of effects

A `Prog E R ε α` is a sequential program as a tree: it issues an effect `e : E`,
continues with the answer of type `R e`, and ends with a value or an error. The
same tree is given several meanings by *handlers*, and each of them can also be
executed one effect at a time, so one definition of a program serves the
sequential reading (`run`), the reading with locks, and the interleaved one.

Results:
1. `run_bind`: the meaning of a sequence.
2. `run_invariant`: what every effect preserves, a run preserves.
3. `run_simulates`: a simulation between two handlers, one effect at a time,
   lifts to whole runs, for programs that use only the effects it is proved for.
4. `wpe_bind`, `wp_run`: weakest preconditions over a ghost state, and their soundness
   for runs.
5. `wp_replace`: effects that are programs of other effects.
6. `cost_bind`, `cost_seq_le`: what the effects of a run cost.
-/

namespace Effects

/-- A program with effects `E`, answers `R`, errors `ε` and result `α`. -/
inductive Prog (E : Type) (R : E → Type) (ε α : Type) where
  | pure (a : α)
  | fail (e : ε)
  | op (e : E) (k : R e → Prog E R ε α)

namespace Prog

variable {E : Type} {R : E → Type} {ε α β σ : Type}

/-- Sequencing: every result of the first program is handed to `f`. -/
def bind : Prog E R ε α → (α → Prog E R ε β) → Prog E R ε β
  | .pure a, f => f a
  | .fail e, _ => .fail e
  | .op e k, f => .op e fun r => (k r).bind f

instance : Monad (Prog E R ε) where
  pure := Prog.pure
  bind := Prog.bind

/-- The program that issues one effect and returns its answer. -/
def perform (e : E) : Prog E R ε (R e) := .op e .pure

@[simp] theorem pure_bind' (a : α) (f : α → Prog E R ε β) : (Prog.pure a >>= f) = f a := rfl

@[simp] theorem fail_bind (e : ε) (f : α → Prog E R ε β) : (Prog.fail e >>= f) = .fail e := rfl

@[simp] theorem op_bind (e : E) (k : R e → Prog E R ε α) (f : α → Prog E R ε β) :
    (Prog.op e k >>= f) = .op e fun r => k r >>= f := rfl

theorem bind_pure' (p : Prog E R ε α) : (p >>= Prog.pure) = p := by
  induction p with
  | pure a => rfl
  | fail e => rfl
  | op e k ih => simp only [op_bind, ih]

theorem bind_assoc' {γ : Type} (p : Prog E R ε α) (f : α → Prog E R ε β) (g : β → Prog E R ε γ) :
    ((p >>= f) >>= g) = p >>= fun a => f a >>= g := by
  induction p with
  | pure a => rfl
  | fail e => rfl
  | op e k ih => simp only [op_bind, ih]

instance : LawfulMonad (Prog E R ε) :=
  LawfulMonad.mk' _ bind_pure' (fun _ _ => rfl) bind_assoc'

end Prog

/-- A handler answers one effect in a state, or stops with an error. -/
abbrev Handler (E : Type) (R : E → Type) (ε σ : Type) := (e : E) → σ → Except ε (R e × σ)

section Run
variable {E : Type} {R : E → Type} {ε α β σ : Type}

/-- The sequential meaning of a program under a handler. -/
def run (h : Handler E R ε σ) : Prog E R ε α → σ → Except ε (α × σ)
  | .pure a, s => .ok (a, s)
  | .fail e, _ => .error e
  | .op e k, s =>
    match h e s with
    | .ok (r, s') => run h (k r) s'
    | .error e => .error e

variable {h : Handler E R ε σ}

@[simp] theorem run_pure (a : α) (s : σ) :
    run h (Pure.pure a : Prog E R ε α) s = .ok (a, s) := rfl

@[simp] theorem run_ret (a : α) (s : σ) : run h (Prog.pure a) s = .ok (a, s) := rfl

@[simp] theorem run_fail (e : ε) (s : σ) :
    run h (Prog.fail e : Prog E R ε α) s = .error e := rfl

theorem run_op (e : E) (k : R e → Prog E R ε α) (s : σ) :
    run h (.op e k) s =
      match h e s with
      | .ok (r, s') => run h (k r) s'
      | .error e => .error e := by
  rw [run]

/-- A sequence runs its first program and hands the result and the state on. -/
theorem run_bind (p : Prog E R ε α) (f : α → Prog E R ε β) (s : σ) :
    run h (p >>= f) s =
      match run h p s with
      | .ok (a, s') => run h (f a) s'
      | .error e => .error e := by
  induction p generalizing s with
  | pure a => rfl
  | fail e => rfl
  | op e k ih =>
    simp only [Prog.op_bind, run_op]
    cases h e s with
    | error e => rfl
    | ok rs => exact ih rs.1 rs.2

/-- The rule used step by step: a first program that ends with `a` is replaced by `a`. -/
theorem run_bind_ok {p : Prog E R ε α} {f : α → Prog E R ε β} {s s' : σ} {a : α}
    (hp : run h p s = .ok (a, s')) : run h (p >>= f) s = run h (f a) s' := by
  rw [run_bind, hp]

theorem run_bind_error {p : Prog E R ε α} {f : α → Prog E R ε β} {s : σ} {e : ε}
    (hp : run h p s = .error e) : run h (p >>= f) s = .error e := by
  rw [run_bind, hp]

/-- Inversion of a sequence that ended well. -/
theorem run_bind_eq_ok {p : Prog E R ε α} {f : α → Prog E R ε β} {s s' : σ} {b : β} :
    run h (p >>= f) s = .ok (b, s') ↔
      ∃ a s₁, run h p s = .ok (a, s₁) ∧ run h (f a) s₁ = .ok (b, s') := by
  rw [run_bind]
  constructor
  · intro hr
    cases hp : run h p s with
    | error e => rw [hp] at hr; cases hr
    | ok as => rw [hp] at hr; exact ⟨as.1, as.2, rfl, hr⟩
  · rintro ⟨a, s₁, hp, hf⟩
    rw [hp]
    exact hf

theorem run_map (f : α → β) (p : Prog E R ε α) (s : σ) :
    run h (f <$> p) s =
      match run h p s with
      | .ok (a, s') => .ok (f a, s')
      | .error e => .error e := by
  rw [← bind_pure_comp, run_bind]
  rfl

theorem run_perform (e : E) (s : σ) : run h (Prog.perform e) s = h e s := by
  unfold Prog.perform
  rw [run_op]
  cases h e s with
  | error e => rfl
  | ok rs => rfl

/-! ## Costs -/

/-- What the effects of a run cost together, when each has its own cost. -/
def cost (w : E → Nat) (h : Handler E R ε σ) : Prog E R ε α → σ → Nat
  | .pure _, _ => 0
  | .fail _, _ => 0
  | .op e k, s =>
    w e +
      match h e s with
      | .ok (r, s') => cost w h (k r) s'
      | .error _ => 0

variable {w : E → Nat} {m n : Nat}

theorem cost_bind (p : Prog E R ε α) (f : α → Prog E R ε β) (s : σ) :
    cost w h (p >>= f) s = cost w h p s +
      match run h p s with
      | .ok (a, s') => cost w h (f a) s'
      | .error _ => 0 := by
  induction p generalizing s with
  | pure a => exact (Nat.zero_add _).symm
  | fail e => rfl
  | op e k ih =>
    simp only [Prog.op_bind, run_op, cost]
    cases h e s with
    | error e => rfl
    | ok rs =>
      show _ + cost w h (k rs.1 >>= f) rs.2 = _
      rw [ih rs.1 rs.2, Nat.add_assoc]

theorem cost_bind_ok {p : Prog E R ε α} {f : α → Prog E R ε β} {s s' : σ} {a : α}
    (hp : run h p s = .ok (a, s')) : cost w h (p >>= f) s = cost w h p s + cost w h (f a) s' := by
  rw [cost_bind, hp]

theorem cost_map (f : α → β) (p : Prog E R ε α) (s : σ) :
    cost w h (f <$> p) s = cost w h p s := by
  rw [← bind_pure_comp, cost_bind]
  cases run h p s <;> rfl

/-- The rule for a sequence whose first part may save what the second one spends. -/
theorem cost_bind_le {p : Prog E R ε α} {f : α → Prog E R ε β} {s : σ} (hp : cost w h p s ≤ n)
    (hf : ∀ a s', run h p s = .ok (a, s') → cost w h p s + cost w h (f a) s' ≤ n) :
    cost w h (p >>= f) s ≤ n := by
  rw [cost_bind]
  cases hrun : run h p s with
  | error e => exact hp
  | ok as => exact hf as.1 as.2 hrun

theorem cost_seq_le {p : Prog E R ε α} {f : α → Prog E R ε β} {s : σ} (hp : cost w h p s ≤ m)
    (hf : ∀ a s', run h p s = .ok (a, s') → cost w h (f a) s' ≤ n) :
    cost w h (p >>= f) s ≤ m + n :=
  cost_bind_le (Nat.le_add_right_of_le hp) fun a s' hrun => Nat.add_le_add hp (hf a s' hrun)

end Run

/-! ## Effects a program may use -/

section Only
variable {E : Type} {R : E → Type} {ε α β : Type}

/-- Every effect the program can issue, whatever the answers are, satisfies `P`. -/
def Only (P : E → Prop) : Prog E R ε α → Prop
  | .pure _ => True
  | .fail _ => True
  | .op e k => P e ∧ ∀ r, Only P (k r)

@[simp] theorem only_pure (P : E → Prop) (a : α) : Only P (Pure.pure a : Prog E R ε α) := trivial

@[simp] theorem only_fail (P : E → Prop) (e : ε) : Only P (Prog.fail e : Prog E R ε α) := trivial

theorem only_perform {P : E → Prop} {e : E} (he : P e) :
    Only P (Prog.perform e : Prog E R ε (R e)) := ⟨he, fun _ => trivial⟩

theorem only_bind {P : E → Prop} {p : Prog E R ε α} {f : α → Prog E R ε β}
    (hp : Only P p) (hf : ∀ a, Only P (f a)) : Only P (p >>= f) := by
  induction p with
  | pure a => exact hf a
  | fail e => trivial
  | op e k ih => exact ⟨hp.1, fun r => ih r (hp.2 r)⟩

/-- Every program uses only effects. -/
theorem only_true (p : Prog E R ε α) : Only (fun _ => True) p := by
  induction p with
  | pure a => trivial
  | fail e => trivial
  | op e k ih => exact ⟨trivial, ih⟩

/-- Effects that cost nothing. -/
theorem cost_only {σ : Type} {w : E → Nat} {h : Handler E R ε σ} {p : Prog E R ε α}
    (hp : Only (fun e => w e = 0) p) (s : σ) : cost w h p s = 0 := by
  induction p generalizing s with
  | pure a => rfl
  | fail e => rfl
  | op e k ih =>
    unfold cost
    rw [hp.1, Nat.zero_add]
    cases h e s with
    | error e => rfl
    | ok rs => exact ih rs.1 (hp.2 rs.1) rs.2

end Only

/-! ## Invariants and simulations -/

section Rules
variable {E : Type} {R : E → Type} {ε α σ σ' : Type}

/-- A property of the state that every permitted effect preserves holds after a run. -/
theorem run_invariant {h : Handler E R ε σ} {P : E → Prop} {I : σ → Prop}
    (step : ∀ e, P e → ∀ s r s', h e s = .ok (r, s') → I s → I s')
    {p : Prog E R ε α} (hp : Only P p) {s s' : σ} {a : α}
    (hr : run h p s = .ok (a, s')) (hs : I s) : I s' := by
  induction p generalizing s with
  | pure b =>
    simp only [run_ret, Except.ok.injEq, Prod.mk.injEq] at hr
    exact hr.2 ▸ hs
  | fail e => simp at hr
  | op e k ih =>
    rw [run_op] at hr
    cases he : h e s with
    | error x => rw [he] at hr; cases hr
    | ok rs =>
      rw [he] at hr
      exact ih rs.1 (hp.2 rs.1) hr (step e hp.1 s rs.1 rs.2 he hs)

/-- A simulation of one handler by another, effect by effect, is one of whole runs. -/
theorem run_simulates {h : Handler E R ε σ} {h' : Handler E R ε σ'} {P : E → Prop}
    {Rel : σ → σ' → Prop}
    (step : ∀ e, P e → ∀ s t r s', Rel s t → h e s = .ok (r, s') →
      ∃ t', h' e t = .ok (r, t') ∧ Rel s' t')
    {p : Prog E R ε α} (hp : Only P p) {s s' : σ} {t : σ'} {a : α}
    (hst : Rel s t) (hr : run h p s = .ok (a, s')) :
    ∃ t', run h' p t = .ok (a, t') ∧ Rel s' t' := by
  induction p generalizing s t with
  | pure b =>
    simp only [run_ret, Except.ok.injEq, Prod.mk.injEq] at hr
    exact ⟨t, by rw [run_ret, hr.1], hr.2 ▸ hst⟩
  | fail e => simp at hr
  | op e k ih =>
    rw [run_op] at hr
    cases he : h e s with
    | error x => rw [he] at hr; cases hr
    | ok rs =>
      rw [he] at hr
      obtain ⟨t₁, ht₁, hrel⟩ := step e hp.1 s t rs.1 rs.2 hst he
      obtain ⟨t', ht', hrel'⟩ := ih rs.1 (hp.2 rs.1) hrel hr
      exact ⟨t', by rw [run_op, ht₁]; exact ht', hrel'⟩

end Rules

/-! ## Weakest preconditions -/

section Wp
variable {E : Type} {R : E → Type} {ε α β σ γ : Type}

/-- What an effect asks of the ghost state, and what holds of its answer and of the ghost
state behind it: a transformer of postconditions. -/
abbrev Spec (E : Type) (R : E → Type) (γ : Type) := (e : E) → (R e → γ → Prop) → γ → Prop

/-- A weaker postcondition asks for no more. -/
def Spec.Mono (S : Spec E R γ) : Prop :=
  ∀ e (Q Q' : R e → γ → Prop), (∀ r g, Q r g → Q' r g) → ∀ g, S e Q g → S e Q' g

/-- The program meets the specifications of its effects, fails only where `F` allows it and, if it
does not fail, ends with `Q`. -/
def wpe (S : Spec E R γ) (F : ε → γ → Prop) : Prog E R ε α → (α → γ → Prop) → γ → Prop
  | .pure a, Q, g => Q a g
  | .fail e, _, g => F e g
  | .op e k, Q, g => S e (fun r => wpe S F (k r) Q) g

/-- A program that may fail anywhere. -/
abbrev wp (S : Spec E R γ) (p : Prog E R ε α) (Q : α → γ → Prop) (g : γ) : Prop :=
  wpe S (fun _ _ => True) p Q g

variable {S : Spec E R γ} {F : ε → γ → Prop} {p : Prog E R ε α} {f : α → Prog E R ε β} {g : γ}

@[simp] theorem wpe_pure (a : α) (Q : α → γ → Prop) :
    wpe S F (Pure.pure a : Prog E R ε α) Q g = Q a g := rfl

@[simp] theorem wpe_ret (a : α) (Q : α → γ → Prop) :
    wpe S F (.pure a : Prog E R ε α) Q g = Q a g := rfl

@[simp] theorem wpe_fail (e : ε) (Q : α → γ → Prop) : wpe S F (.fail e) Q g = F e g := rfl

@[simp] theorem wpe_perform (e : E) (Q : R e → γ → Prop) :
    wpe S F (Prog.perform e : Prog E R ε (R e)) Q g = S e Q g := rfl

/-- A sequence: the second program starts where the first one ends. -/
theorem wpe_bind (Q : β → γ → Prop) :
    wpe S F (p >>= f) Q g = wpe S F p (fun a => wpe S F (f a) Q) g := by
  induction p generalizing g with
  | pure a => rfl
  | fail e => rfl
  | op e k ih =>
    rw [Prog.op_bind, wpe, wpe]
    congr 1
    funext r g'
    exact ih r

theorem wpe_mono (hS : S.Mono) {Q Q' : α → γ → Prop} (hQ : ∀ a g, Q a g → Q' a g)
    (hp : wpe S F p Q g) : wpe S F p Q' g := by
  induction p generalizing g with
  | pure a => exact hQ a g hp
  | fail e => exact hp
  | op e k ih => exact hS e _ _ (fun r g' h => ih r h) g hp

theorem wpe_weaken (hS : S.Mono) {F' : ε → γ → Prop} {Q : α → γ → Prop}
    (hF : ∀ e g, F e g → F' e g) (hp : wpe S F p Q g) : wpe S F' p Q g := by
  induction p generalizing g with
  | pure a => exact hp
  | fail e => exact hF e g hp
  | op e k ih => exact hS e _ _ (fun r g' h => ih r h) g hp

/-- The rule used step by step: what the first program guarantees is enough for the rest. -/
theorem wpe_seq (hS : S.Mono) {Q : α → γ → Prop} {Q' : β → γ → Prop} (hp : wpe S F p Q g)
    (hf : ∀ a g, Q a g → wpe S F (f a) Q' g) : wpe S F (p >>= f) Q' g := by
  rw [wpe_bind]
  exact wpe_mono hS hf hp

theorem wp_bind (Q : β → γ → Prop) : wp S (p >>= f) Q g = wp S p (fun a => wp S (f a) Q) g :=
  wpe_bind Q

theorem wp_mono (hS : S.Mono) {Q Q' : α → γ → Prop} (hQ : ∀ a g, Q a g → Q' a g)
    (hp : wp S p Q g) : wp S p Q' g :=
  wpe_mono hS hQ hp

theorem wp_seq (hS : S.Mono) {Q : α → γ → Prop} {Q' : β → γ → Prop} (hp : wp S p Q g)
    (hf : ∀ a g, Q a g → wp S (f a) Q' g) : wp S (p >>= f) Q' g :=
  wpe_seq hS hp hf

/-- A handler that keeps to the specifications of its effects ends with what the program
guarantees. -/
theorem wp_run {h : Handler E R ε σ} {Rel : σ → γ → Prop}
    (step : ∀ e Q s g r s', Rel s g → S e Q g → h e s = .ok (r, s') → ∃ g', Rel s' g' ∧ Q r g')
    {Q : α → γ → Prop} {s s' : σ} {a : α} (hrel : Rel s g) (hp : wp S p Q g)
    (hr : run h p s = .ok (a, s')) : ∃ g', Rel s' g' ∧ Q a g' := by
  induction p generalizing s g with
  | pure b =>
    simp only [run_ret, Except.ok.injEq, Prod.mk.injEq] at hr
    exact ⟨g, hr.2 ▸ hrel, hr.1 ▸ hp⟩
  | fail e => simp at hr
  | op e k ih =>
    rw [run_op] at hr
    cases he : h e s with
    | error x => rw [he] at hr; cases hr
    | ok rs =>
      rw [he] at hr
      obtain ⟨g', hrel', hk⟩ := step e _ s g rs.1 rs.2 hrel hp he
      exact ih rs.1 hrel' hk hr

end Wp

/-! ## Effects that are made of others -/

section Replace
variable {E E' : Type} {R : E → Type} {R' : E' → Type} {ε ε' α γ : Type}

/-- Every effect is a program of other effects, and every error one of other errors. -/
def Prog.replace (f : (e : E) → Prog E' R' ε' (R e)) (err : ε → ε') :
    Prog E R ε α → Prog E' R' ε' α
  | .pure a => .pure a
  | .fail e => .fail (err e)
  | .op e k => f e >>= fun r => (k r).replace f err

/-- The effects have the specifications of their programs. -/
theorem wp_replace {S : Spec E' R' γ} {f : (e : E) → Prog E' R' ε' (R e)} {err : ε → ε'}
    {p : Prog E R ε α} {Q : α → γ → Prop} {g : γ} :
    wp S (p.replace f err) Q g = wp (fun e Q g => wp S (f e) Q g) p Q g := by
  induction p generalizing g with
  | pure a => rfl
  | fail e => rfl
  | op e k ih =>
    rw [Prog.replace, wp_bind]
    refine congrArg (fun Q' => wp S (f e) Q' g) ?_
    funext r g'
    exact ih r

end Replace

end Effects
