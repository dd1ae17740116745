import Mathlib.Logic.Function.Basic
import Mathlib.Logic.Relation
import Aodbm.Lib.Program

/-!
# Programs of threads, effect by effect

Threads run calls. Each call is a program, and one step is one effect of one thread, so that the
effects of the threads interleave in any order. An effect may be observed.

Each thread is proved by itself, with a ghost state of its own: what it may rely on. An effect of
one thread must leave the ghost states of the others right.

Results:
1. `Proof.run`: in every state of every interleaving, what is left of the program of each thread
   meets its specification.
2. `reaches_of_run`: a thread that is alone with the shared state runs its program to the end.
-/

namespace Interleaving

open Effects

variable {E : Type} {R : E → Type} {ε τ σ δ κ α γ : Type}

/-- The shared state `σ`, the calls `κ` with their programs, and what is observed. -/
structure System (E : Type) (R : E → Type) (ε τ σ δ κ α : Type) where
  handle : τ → Handler E R ε σ
  observe : E → List δ
  prog : κ → Prog E R ε α

/-- A thread inside a call: what is left of it and what it has let be observed. -/
structure Client (E : Type) (R : E → Type) (ε δ κ α : Type) where
  job : κ
  rest : Prog E R ε α
  seen : List δ

/-- The threads on the shared state, with all that has been observed. -/
structure Pool (E : Type) (R : E → Type) (ε τ σ δ κ α : Type) where
  shared : σ
  clients : τ → Option (Client E R ε δ κ α)
  log : List (τ × δ)

/-- No thread has called anything. -/
def Pool.start (s : σ) : Pool E R ε τ σ δ κ α := ⟨s, fun _ => none, []⟩

/-- The thread has not begun a call, or its last call has returned. -/
def Pool.Idle (p : Pool E R ε τ σ δ κ α) (t : τ) : Prop :=
  p.clients t = none ∨ ∃ job a seen, p.clients t = some ⟨job, .pure a, seen⟩

variable [DecidableEq τ]

/-- One step, of a system whose effects and calls are restricted. -/
inductive Step (M : System E R ε τ σ δ κ α) (allowed : E → Prop) (admitted : κ → Prop) :
    Pool E R ε τ σ δ κ α → Pool E R ε τ σ δ κ α → Prop where
  | call {p : Pool E R ε τ σ δ κ α} {t : τ} {job : κ} (idle : p.Idle t) (may : admitted job) :
      Step M allowed admitted p
        { p with clients := Function.update p.clients t (some ⟨job, M.prog job, []⟩) }
  | effect {p : Pool E R ε τ σ δ κ α} {t : τ} {job : κ} {e : E} {k : R e → Prog E R ε α}
      {seen : List δ} {r : R e} {s : σ} (next : p.clients t = some ⟨job, .op e k, seen⟩)
      (may : allowed e) (answer : M.handle t e p.shared = .ok (r, s)) :
      Step M allowed admitted p
        ⟨s, Function.update p.clients t (some ⟨job, k r, seen ++ M.observe e⟩),
          p.log ++ (M.observe e).map (Prod.mk t)⟩

variable {M : System E R ε τ σ δ κ α} {allowed : E → Prop} {admitted : κ → Prop}
variable {p p' : Pool E R ε τ σ δ κ α}

/-! ## Proofs of threads -/

/-- What is proved of each effect and of each call. -/
structure Proof (M : System E R ε τ σ δ κ α) (allowed : E → Prop) (admitted : κ → Prop)
    (γ : Type) where
  spec : Spec E R γ
  /-- The shared state and what has been observed fit the ghost states of the threads. -/
  Holds : σ → List (τ × δ) → (τ → γ) → Prop
  post : κ → α → γ → Prop
  /-- A thread can begin a call. -/
  Ready : γ → Prop
  seen : γ → List δ
  post_ready : ∀ job a g, post job a g → Ready g
  effect : ∀ {t : τ} {e : E} {Q : R e → γ → Prop} {s s' : σ} {log : List (τ × δ)} {g : τ → γ}
    {r : R e}, Holds s log g → spec e Q (g t) → allowed e → M.handle t e s = .ok (r, s') →
    ∃ own, Holds s' (log ++ (M.observe e).map (Prod.mk t)) (Function.update g t own) ∧
      seen own = seen (g t) ++ M.observe e ∧ Q r own
  call : ∀ {t : τ} {job : κ} {s : σ} {log : List (τ × δ)} {g : τ → γ}, Holds s log g →
    Ready (g t) → admitted job →
    ∃ own, Holds s log (Function.update g t own) ∧ seen own = [] ∧
      wp spec (M.prog job) (post job) own

/-- What is left of the call meets its specification. -/
structure Fulfils (P : Proof M allowed admitted γ) (g : γ) (c : Client E R ε δ κ α) : Prop where
  seen : P.seen g = c.seen
  rest : wp P.spec c.rest (P.post c.job) g

/-- The invariant of a pool. -/
structure Proof.Inv (P : Proof M allowed admitted γ) (p : Pool E R ε τ σ δ κ α) (g : τ → γ) :
    Prop where
  holds : P.Holds p.shared p.log g
  ready : ∀ t, p.clients t = none → P.Ready (g t)
  clients : ∀ t c, p.clients t = some c → Fulfils P (g t) c

variable {P : Proof M allowed admitted γ} {g : τ → γ}

theorem Proof.Inv.ready_of_idle (h : P.Inv p g) {t : τ} (hidle : p.Idle t) : P.Ready (g t) := by
  rcases hidle with hnone | ⟨job, a, seen, hsome⟩
  · exact h.ready t hnone
  · exact P.post_ready job a (g t) (h.clients t _ hsome).rest

/-- One thread goes on, and its ghost state with it. -/
theorem Proof.Inv.update (h : P.Inv p g) {t : τ} {s : σ} {log : List (τ × δ)} {own : γ}
    {c : Client E R ε δ κ α} (hholds : P.Holds s log (Function.update g t own))
    (hc : Fulfils P own c) :
    P.Inv ⟨s, Function.update p.clients t (some c), log⟩ (Function.update g t own) where
  holds := hholds
  ready := by
    intro u hu
    rcases eq_or_ne u t with rfl | hut
    · simp only [Function.update_self] at hu
      cases hu
    · simp only [Function.update_of_ne hut] at hu ⊢
      exact h.ready u hu
  clients := by
    intro u d hd
    rcases eq_or_ne u t with rfl | hut
    · simp only [Function.update_self, Option.some.injEq] at hd ⊢
      exact hd ▸ hc
    · simp only [Function.update_of_ne hut] at hd ⊢
      exact h.clients u d hd

theorem Proof.Inv.step (h : P.Inv p g) (hstep : Step M allowed admitted p p') :
    ∃ g', P.Inv p' g' := by
  cases hstep with
  | call idle may =>
    obtain ⟨own, hholds, hseen, hwp⟩ := P.call h.holds (h.ready_of_idle idle) may
    exact ⟨_, h.update hholds ⟨hseen, hwp⟩⟩
  | effect next may answer =>
    have hc := h.clients _ _ next
    obtain ⟨own, hholds, hseen, hwp⟩ := P.effect h.holds hc.rest may answer
    exact ⟨_, h.update hholds ⟨hseen.trans (congrArg (· ++ _) hc.seen), hwp⟩⟩

/-- What is proved of each thread holds in every interleaving. -/
theorem Proof.run {s : σ} (hstart : P.Holds s [] g) (hready : ∀ t, P.Ready (g t))
    (hrun : Relation.ReflTransGen (Step M allowed admitted) (Pool.start s) p) :
    ∃ g, P.Inv p g := by
  induction hrun with
  | refl => exact ⟨g, hstart, fun t _ => hready t, fun t c hc => nomatch hc⟩
  | tail _ hstep ih =>
    obtain ⟨g', hinv⟩ := ih
    exact hinv.step hstep

/-! ## One thread alone -/

/-- The effects that are allowed. -/
def guarded (allowed : E → Prop) [DecidablePred allowed] (x : ε) (h : Handler E R ε σ) :
    Handler E R ε σ :=
  fun e s => if allowed e then h e s else .error x

variable [DecidablePred allowed] {x : ε}

/-- The other threads take no step while the thread ends its call. -/
theorem reaches_rest {t : τ} {job : κ} {rest : Prog E R ε α} {seen : List δ} {a : α} {s : σ}
    (hc : p.clients t = some ⟨job, rest, seen⟩)
    (hrun : run (guarded allowed x (M.handle t)) rest p.shared = .ok (a, s)) :
    ∃ p', Relation.ReflTransGen (Step M allowed admitted) p p' ∧ p'.shared = s ∧
      ∃ seen', p'.clients t = some ⟨job, .pure a, seen'⟩ := by
  induction rest generalizing p seen with
  | pure b =>
    cases hrun
    exact ⟨p, .refl, rfl, seen, hc⟩
  | fail e => cases hrun
  | op e k ih =>
    rw [run_op] at hrun
    unfold guarded at hrun
    by_cases he : allowed e
    · rw [if_pos he] at hrun
      cases hanswer : M.handle t e p.shared with
      | error y =>
        rw [hanswer] at hrun
        cases hrun
      | ok rs =>
        rw [hanswer] at hrun
        have hstep : Step M allowed admitted p _ := .effect hc he hanswer
        have hrest : run (guarded allowed x (M.handle t)) (k rs.1) rs.2 = .ok (a, s) := hrun
        obtain ⟨p', hreach, hend⟩ := ih rs.1 (p := ⟨rs.2, Function.update p.clients t
          (some ⟨job, k rs.1, seen ++ M.observe e⟩), p.log ++ (M.observe e).map (Prod.mk t)⟩)
          (Function.update_self _ _ _) hrest
        exact ⟨p', .head hstep hreach, hend⟩
    · rw [if_neg he] at hrun
      cases hrun

/-- A thread alone runs its call to the end. -/
theorem reaches_of_run {t : τ} {job : κ} {a : α} {s : σ} (hidle : p.Idle t) (hjob : admitted job)
    (hrun : run (guarded allowed x (M.handle t)) (M.prog job) p.shared = .ok (a, s)) :
    ∃ p', Relation.ReflTransGen (Step M allowed admitted) p p' ∧ p'.shared = s ∧
      ∃ seen, p'.clients t = some ⟨job, .pure a, seen⟩ := by
  obtain ⟨p', hrest, hend⟩ := reaches_rest (p := { p with
    clients := Function.update p.clients t (some ⟨job, M.prog job, []⟩) })
    (Function.update_self _ _ _) hrun
  exact ⟨p', .head (.call hidle hjob) hrest, hend⟩

end Interleaving
