import Aodbm.Lib.Traces

/-!
# Atomic objects

An atomic object answers each call at one moment between the call and the return. Threads whose
effects interleave are an atomic object if all that can be seen of them can be seen of the object.

The ghost state of a thread tells whether its call has been answered already. An effect of a
thread may be the moment of its own call, and of no other.

Results:
1. `AtomicProof.Inv.trace`: what is proved of each thread makes the threads an atomic object.
-/

namespace Interleaving

open Effects

variable {E : Type} {R : E → Type} {ε τ σ δ κ α γ ω : Type}

/-- Whether a thread is in a call, and whether its moment has been. -/
inductive Status (κ α : Type) where
  | idle
  | asked (job : κ)
  | answered (job : κ) (a : α)

structure Atomic (ω τ κ α : Type) where
  state : ω
  status : τ → Status κ α

/-- Nobody has called. -/
def Atomic.start (x : ω) : Atomic ω τ κ α := ⟨x, fun _ => .idle⟩

/-- One thread goes on. -/
inductive Acts (obj : ω → κ → α → ω → Prop) : ω → Status κ α → ω → Status κ α → Prop where
  | stay (x : ω) (status : Status κ α) : Acts obj x status x status
  | act {x x' : ω} {job : κ} {a : α} (moment : obj x job a x') :
      Acts obj x (.asked job) x' (.answered job a)

theorem Acts.mono {obj obj' : ω → κ → α → ω → Prop} {x x' : ω} {status status' : Status κ α}
    (h : Acts obj x status x' status')
    (hobj : ∀ {job : κ} {a : α}, obj x job a x' → obj' x job a x') :
    Acts obj' x status x' status' := by
  cases h with
  | stay => exact .stay _ _
  | act moment => exact .act (hobj moment)

theorem Acts.asked {obj : ω → κ → α → ω → Prop} {x x' : ω} {status : Status κ α} {job : κ}
    (h : Acts obj x status x' (.asked job)) : status = .asked job := by
  cases h
  rfl

section Steps
variable [DecidableEq τ]

inductive AtomicStep (obj : ω → κ → α → ω → Prop) :
    Atomic ω τ κ α → Option (Visible τ κ α) → Atomic ω τ κ α → Prop where
  | call {q : Atomic ω τ κ α} {t : τ} {job : κ} (idle : q.status t = .idle) :
      AtomicStep obj q (some (.call t job))
        ⟨q.state, Function.update q.status t (.asked job)⟩
  | act {q : Atomic ω τ κ α} {t : τ} {job : κ} {a : α} {x : ω} (asked : q.status t = .asked job)
      (moment : obj q.state job a x) :
      AtomicStep obj q none ⟨x, Function.update q.status t (.answered job a)⟩
  | ret {q : Atomic ω τ κ α} {t : τ} {job : κ} {a : α} (answered : q.status t = .answered job a) :
      AtomicStep obj q (some (.ret t a)) ⟨q.state, Function.update q.status t .idle⟩

/-! ## Proofs of threads -/

/-- What is proved of each effect, each call and each return. -/
structure AtomicProof (M : System E R ε τ σ δ κ α) (obj : ω → κ → α → ω → Prop)
    (admitted : κ → Prop) (γ : Type) where
  spec : Spec E R γ
  /-- Where a call may fail. -/
  wrong : ε → γ → Prop := fun _ _ => True
  status : γ → Status κ α
  /-- The shared state and that of the object fit the ghost states of the threads. -/
  Holds : σ → ω → (τ → γ) → Prop
  post : κ → α → γ → Prop
  /-- Outside of calls. -/
  Ready : γ → Prop
  idle : ∀ {o : γ}, Ready o → status o = .idle
  effect : ∀ {t : τ} {e : E} {Q : R e → γ → Prop} {s s' : σ} {x : ω} {g : τ → γ} {r : R e},
    Holds s x g → spec e Q (g t) → M.handle t e s = .ok (r, s') →
    ∃ x' own, Holds s' x' (Function.update g t own) ∧ Q r own ∧
      Acts obj x (status (g t)) x' (status own)
  call : ∀ {t : τ} {job : κ} {s : σ} {x : ω} {g : τ → γ}, Holds s x g → Ready (g t) →
    admitted job → ∃ own, Holds s x (Function.update g t own) ∧ status own = .asked job ∧
      wpe spec wrong (M.prog job) (post job) own
  /-- A call that has only read may be answered when it returns. -/
  ret : ∀ {t : τ} {job : κ} {a : α} {s : σ} {x : ω} {g : τ → γ}, Holds s x g → post job a (g t) →
    ∃ own, Holds s x (Function.update g t own) ∧ Ready own ∧
      (status (g t) = .answered job a ∨ status (g t) = .asked job ∧ obj x job a x)

variable {M : System E R ε τ σ δ κ α} {obj : ω → κ → α → ω → Prop} {admitted : κ → Prop}
variable {q : Atomic ω τ κ α} {s s' : σ} {x x' : ω} {g : τ → γ} {t : τ} {own : γ}

/-- The object is where the threads are. -/
structure AtomicProof.Fits (P : AtomicProof M obj admitted γ) (s : σ) (q : Atomic ω τ κ α)
    (g : τ → γ) : Prop where
  holds : P.Holds s q.state g
  status : ∀ t, q.status t = P.status (g t)

variable {P : AtomicProof M obj admitted γ}

/-- One thread goes on, and its ghost state with it. -/
theorem AtomicProof.Fits.update (h : P.Fits s q g)
    (hholds : P.Holds s' x' (Function.update g t own)) :
    P.Fits s' ⟨x', Function.update q.status t (P.status own)⟩ (Function.update g t own) where
  holds := hholds
  status := by
    intro u
    rcases eq_or_ne u t with rfl | hu
    · simp only [Function.update_self]
    · simp only [Function.update_of_ne hu]
      exact h.status u

/-- The object goes on as one of its threads does. -/
theorem Acts.traces {t : τ} {status : Status κ α} {x : ω}
    (h : Acts obj q.state (q.status t) x status) :
    Traces (AtomicStep obj) q [] ⟨x, Function.update q.status t status⟩ := by
  generalize hst : q.status t = st at h
  cases h with
  | stay =>
    have hsame : (⟨q.state, Function.update q.status t status⟩ : Atomic ω τ κ α) = q := by
      rw [← hst, Function.update_eq_self]
    rw [hsame]
    exact .nil q
  | act moment => exact .silent (.act hst moment) (.nil _)

variable {q₀ : Atomic ω τ κ α} {es : List (Visible τ κ α)} {job : κ} {a : α}

/-- The object follows an effect of a thread. -/
theorem AtomicProof.Fits.effect (h : P.Fits s q g) (htrace : Traces (AtomicStep obj) q₀ es q)
    (hholds : P.Holds s' x' (Function.update g t own))
    (hacts : Acts obj q.state (P.status (g t)) x' (P.status own)) :
    ∃ q', Traces (AtomicStep obj) q₀ es q' ∧ P.Fits s' q' (Function.update g t own) := by
  rw [← h.status] at hacts
  refine ⟨_, ?_, h.update hholds⟩
  have hall := htrace.append hacts.traces
  rwa [List.append_nil] at hall

theorem AtomicProof.Fits.call (h : P.Fits s q g) (htrace : Traces (AtomicStep obj) q₀ es q)
    (hready : P.Ready (g t)) (hholds : P.Holds s q.state (Function.update g t own))
    (hasked : P.status own = .asked job) :
    ∃ q', Traces (AtomicStep obj) q₀ (es ++ [.call t job]) q' ∧
      P.Fits s q' (Function.update g t own) := by
  have hcall : AtomicStep obj q (some (.call t job))
      ⟨q.state, Function.update q.status t (.asked job)⟩ :=
    .call ((h.status t).trans (P.idle hready))
  have h' := h.update hholds
  rw [hasked] at h'
  exact ⟨_, htrace.append (.seen hcall (.nil _)), h'⟩

theorem AtomicProof.Fits.ret (h : P.Fits s q g) (htrace : Traces (AtomicStep obj) q₀ es q)
    (hholds : P.Holds s q.state (Function.update g t own)) (hready : P.Ready own)
    (hlast : P.status (g t) = .answered job a ∨
      P.status (g t) = .asked job ∧ obj q.state job a q.state) :
    ∃ q', Traces (AtomicStep obj) q₀ (es ++ [.ret t a]) q' ∧
      P.Fits s q' (Function.update g t own) := by
  have h' := h.update hholds
  rw [P.idle hready] at h'
  rw [← h.status] at hlast
  rcases hlast with hanswered | ⟨hasked, moment⟩
  · exact ⟨_, htrace.append (.seen (.ret hanswered) (.nil _)), h'⟩
  · -- the moment of a call that has only read
    have hact : AtomicStep obj q none
        ⟨q.state, Function.update q.status t (.answered job a)⟩ := .act hasked moment
    have hret : AtomicStep obj ⟨q.state, Function.update q.status t (.answered job a)⟩
        (some (.ret t a)) _ := .ret (Function.update_self t _ _)
    rw [Function.update_idem] at hret
    exact ⟨_, htrace.append (.silent hact (.seen hret (.nil _))), h'⟩

/-- The object can follow the threads. -/
def AtomicProof.follows (P : AtomicProof M obj admitted γ) (q₀ : Atomic ω τ κ α) :
    TraceProof M admitted γ where
  spec := P.spec
  wrong := P.wrong
  Holds s es g := ∃ q, Traces (AtomicStep obj) q₀ es q ∧ P.Fits s q g
  post := P.post
  Ready := P.Ready
  effect := by
    rintro t e Q s s' es g r ⟨q, htrace, hfits⟩ hS he
    obtain ⟨x', own, hholds, hQ, hacts⟩ := P.effect hfits.holds hS he
    exact ⟨own, hfits.effect htrace hholds hacts, hQ⟩
  call := by
    rintro t job s es g ⟨q, htrace, hfits⟩ hready may
    obtain ⟨own, hholds, hasked, hwp⟩ := P.call hfits.holds hready may
    exact ⟨own, hfits.call htrace hready hholds hasked, hwp⟩
  ret := by
    rintro t job a s es g ⟨q, htrace, hfits⟩ hpost
    obtain ⟨own, hholds, hready, hlast⟩ := P.ret hfits.holds hpost
    exact ⟨own, hfits.ret htrace hholds hready hlast, hready⟩

variable {p p' : Pool E R ε τ σ δ κ α}

/-- The object is where the threads are, and they go on as they should. -/
structure AtomicProof.Inv (P : AtomicProof M obj admitted γ) (p : Pool E R ε τ σ δ κ α)
    (q : Atomic ω τ κ α) (g : τ → γ) : Prop where
  fits : P.Fits p.shared q g
  ready : ∀ t, p.clients t = none → P.Ready (g t)
  rest : ∀ t c, p.clients t = some c → wpe P.spec P.wrong c.rest (P.post c.job) (g t)

/-- What is seen of the threads can be seen of the object. -/
theorem AtomicProof.Inv.trace (h : P.Inv p q g) (hrun : Traces (Moves M admitted) p es p') :
    ∃ q' g', Traces (AtomicStep obj) q es q' ∧ P.Inv p' q' g' := by
  have hstart : (P.follows q).Inv p [] g := ⟨⟨q, .nil q, h.fits⟩, h.ready, h.rest⟩
  obtain ⟨g', hinv⟩ := hstart.trace hrun
  obtain ⟨q', htrace, hfits⟩ := hinv.holds
  exact ⟨q', g', htrace, hfits, hinv.ready, hinv.rest⟩

/-- Threads that have not called anything. -/
theorem AtomicProof.start (hholds : P.Holds s x g) (hready : ∀ t, P.Ready (g t)) :
    P.Inv (Pool.start s) (Atomic.start x) g where
  fits := ⟨hholds, fun t => (P.idle (hready t)).symm⟩
  ready t _ := hready t
  rest := nofun

end Steps

end Interleaving
