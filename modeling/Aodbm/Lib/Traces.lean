import Aodbm.Lib.Interleaving
import Mathlib.Logic.Hydra

/-!
# What is seen of threads

From outside, one sees when a thread calls and when a call returns, and with what; the effects of
the threads in between are silent. As in a proof of threads, each thread has a ghost state.

Results:
1. `TraceProof.trace`: what is proved of each effect, each call and each return holds of every run.
2. `silent_acc`: threads of which finitely many are in a call cannot go on for ever.
3. `traces_rest`, `traces_call`: a thread that nothing comes between.
-/

namespace Interleaving

open Effects

variable {E : Type} {R : E → Type} {ε τ σ δ κ α γ ν : Type}

/-- What is seen of a run; a step may be silent. -/
inductive Traces (step : σ → Option ν → σ → Prop) : σ → List ν → σ → Prop where
  | nil (s : σ) : Traces step s [] s
  | silent {s s₁ s₂ : σ} {es : List ν} (first : step s none s₁) (rest : Traces step s₁ es s₂) :
      Traces step s es s₂
  | seen {s s₁ s₂ : σ} {e : ν} {es : List ν} (first : step s (some e) s₁)
      (rest : Traces step s₁ es s₂) : Traces step s (e :: es) s₂

theorem Traces.append {step : σ → Option ν → σ → Prop} {s s₁ s₂ : σ} {es fs : List ν}
    (h : Traces step s es s₁) (h' : Traces step s₁ fs s₂) : Traces step s (es ++ fs) s₂ := by
  induction h with
  | nil => exact h'
  | silent first _ ih => exact .silent first (ih h')
  | seen first _ ih => exact .seen first (ih h')

inductive Visible (τ κ α : Type) where
  | call (t : τ) (job : κ)
  | ret (t : τ) (a : α)

section Steps
variable [DecidableEq τ]

/-- One step of the threads, and what is seen of it. -/
inductive Moves (M : System E R ε τ σ δ κ α) (admitted : κ → Prop) :
    Pool E R ε τ σ δ κ α → Option (Visible τ κ α) → Pool E R ε τ σ δ κ α → Prop where
  | call {p : Pool E R ε τ σ δ κ α} {t : τ} {job : κ} (idle : p.clients t = none)
      (may : admitted job) :
      Moves M admitted p (some (.call t job))
        { p with clients := Function.update p.clients t (some ⟨job, M.prog job, []⟩) }
  | effect {p : Pool E R ε τ σ δ κ α} {t : τ} {job : κ} {e : E} {k : R e → Prog E R ε α}
      {seen : List δ} {r : R e} {s : σ} (next : p.clients t = some ⟨job, .op e k, seen⟩)
      (answer : M.handle t e p.shared = .ok (r, s)) :
      Moves M admitted p none
        ⟨s, Function.update p.clients t (some ⟨job, k r, seen ++ M.observe e⟩),
          p.log ++ (M.observe e).map (Prod.mk t)⟩
  | ret {p : Pool E R ε τ σ δ κ α} {t : τ} {job : κ} {a : α} {seen : List δ}
      (done : p.clients t = some ⟨job, .pure a, seen⟩) :
      Moves M admitted p (some (.ret t a))
        { p with clients := Function.update p.clients t none }

/-! ## Proofs of threads -/

/-- What is proved of each effect, each call and each return. -/
structure TraceProof (M : System E R ε τ σ δ κ α) (admitted : κ → Prop) (γ : Type) where
  spec : Spec E R γ
  /-- Where a call may fail. -/
  wrong : ε → γ → Prop := fun _ _ => True
  /-- The shared state and what was seen so far fit the ghost states of the threads. -/
  Holds : σ → List (Visible τ κ α) → (τ → γ) → Prop
  post : κ → α → γ → Prop
  /-- Outside of calls. -/
  Ready : γ → Prop
  effect : ∀ {t : τ} {e : E} {Q : R e → γ → Prop} {s s' : σ} {es : List (Visible τ κ α)}
    {g : τ → γ} {r : R e}, Holds s es g → spec e Q (g t) → M.handle t e s = .ok (r, s') →
    ∃ own, Holds s' es (Function.update g t own) ∧ Q r own
  call : ∀ {t : τ} {job : κ} {s : σ} {es : List (Visible τ κ α)} {g : τ → γ}, Holds s es g →
    Ready (g t) → admitted job → ∃ own, Holds s (es ++ [.call t job]) (Function.update g t own) ∧
      wpe spec wrong (M.prog job) (post job) own
  ret : ∀ {t : τ} {job : κ} {a : α} {s : σ} {es : List (Visible τ κ α)} {g : τ → γ},
    Holds s es g → post job a (g t) →
    ∃ own, Holds s (es ++ [.ret t a]) (Function.update g t own) ∧ Ready own

variable {M : System E R ε τ σ δ κ α} {admitted : κ → Prop}
variable {p p' : Pool E R ε τ σ δ κ α} {g : τ → γ} {es fs : List (Visible τ κ α)}

structure TraceProof.Inv (P : TraceProof M admitted γ) (p : Pool E R ε τ σ δ κ α)
    (es : List (Visible τ κ α)) (g : τ → γ) : Prop where
  holds : P.Holds p.shared es g
  ready : ∀ t, p.clients t = none → P.Ready (g t)
  rest : ∀ t c, p.clients t = some c → wpe P.spec P.wrong c.rest (P.post c.job) (g t)

variable {P : TraceProof M admitted γ}

/-- One thread goes on, and its ghost state with it. -/
theorem TraceProof.Inv.update (h : P.Inv p es g) {t : τ} {s : σ} {log : List (τ × δ)} {own : γ}
    {c : Option (Client E R ε δ κ α)} (hholds : P.Holds s fs (Function.update g t own))
    (hready : c = none → P.Ready own)
    (hrest : ∀ c' ∈ c, wpe P.spec P.wrong c'.rest (P.post c'.job) own) :
    P.Inv ⟨s, Function.update p.clients t c, log⟩ fs (Function.update g t own) where
  holds := hholds
  ready := by
    intro u hu
    rcases eq_or_ne u t with rfl | hut
    · simp only [Function.update_self] at hu ⊢
      exact hready hu
    · simp only [Function.update_of_ne hut] at hu ⊢
      exact h.ready u hu
  rest := by
    intro u d hd
    rcases eq_or_ne u t with rfl | hut
    · simp only [Function.update_self] at hd ⊢
      exact hrest d hd
    · simp only [Function.update_of_ne hut] at hd ⊢
      exact h.rest u d hd

theorem TraceProof.Inv.step (h : P.Inv p es g) {e : Option (Visible τ κ α)}
    (hstep : Moves M admitted p e p') : ∃ g', P.Inv p' (es ++ e.toList) g' := by
  cases hstep with
  | call idle may =>
    obtain ⟨own, hholds, hwp⟩ := P.call h.holds (h.ready _ idle) may
    refine ⟨_, h.update hholds nofun ?_⟩
    rintro _ ⟨⟩
    exact hwp
  | effect next answer =>
    obtain ⟨own, hholds, hwp⟩ := P.effect h.holds (h.rest _ _ next) answer
    rw [← List.append_nil es] at hholds
    refine ⟨_, h.update hholds nofun ?_⟩
    rintro _ ⟨⟩
    exact hwp
  | ret done =>
    obtain ⟨own, hholds, hready⟩ := P.ret h.holds (h.rest _ _ done)
    exact ⟨_, h.update hholds (fun _ => hready) nofun⟩

theorem TraceProof.Inv.trace (h : P.Inv p es g) (hrun : Traces (Moves M admitted) p fs p') :
    ∃ g', P.Inv p' (es ++ fs) g' := by
  induction hrun generalizing es g with
  | nil =>
    rw [List.append_nil]
    exact ⟨g, h⟩
  | silent first _ ih =>
    obtain ⟨g₁, h₁⟩ := h.step first
    rw [Option.toList_none, List.append_nil] at h₁
    exact ih h₁
  | @seen _ _ _ e _ first _ ih =>
    obtain ⟨g₁, h₁⟩ := h.step first
    obtain ⟨g', h'⟩ := ih h₁
    rw [Option.toList_some, List.append_assoc] at h'
    exact ⟨g', h'⟩

/-- Threads that have not called anything. -/
theorem TraceProof.trace {s : σ} (hstart : P.Holds s [] g) (hready : ∀ t, P.Ready (g t))
    (hrun : Traces (Moves M admitted) (Pool.start s) es p) : ∃ g', P.Inv p es g' := by
  have hinv : P.Inv (Pool.start s) [] g := ⟨hstart, fun t _ => hready t, nofun⟩
  exact hinv.trace hrun

/-! ## An end -/

/-- What is left of a program after one effect is smaller. -/
def Sub (a b : Prog E R ε α) : Prop := ∃ e k r, b = .op e k ∧ a = k r

theorem sub_wf : WellFounded (Sub : Prog E R ε α → Prog E R ε α → Prop) := by
  refine ⟨fun p => ?_⟩
  induction p with
  | pure a => exact ⟨_, fun _ ⟨_, _, _, h, _⟩ => nomatch h⟩
  | fail e => exact ⟨_, fun _ ⟨_, _, _, h, _⟩ => nomatch h⟩
  | op e k ih =>
    refine ⟨_, ?_⟩
    rintro _ ⟨e', k', r, h, rfl⟩
    cases h
    exact ih r

/-- What is left of the programs of these threads. -/
def Pool.left (p : Pool E R ε τ σ δ κ α) (ts : List τ) : Multiset (Prog E R ε α) :=
  (ts.filterMap fun t => (p.clients t).map Client.rest : List (Prog E R ε α))

omit [DecidableEq τ] in
theorem left_split {us vs : List τ} {t : τ} {c : Client E R ε δ κ α} (hc : p.clients t = some c) :
    p.left (us ++ t :: vs) = c.rest ::ₘ (p.left us + p.left vs) := by
  simp only [Pool.left, List.filterMap_append, List.filterMap_cons, hc, Option.map_some,
    ← Multiset.coe_add, ← Multiset.cons_coe, Multiset.add_cons]

/-- A thread that is not among them goes on. -/
theorem left_update {ts : List τ} {t : τ} (ht : t ∉ ts) (c : Option (Client E R ε δ κ α)) (s : σ)
    (log : List (τ × δ)) : Pool.left ⟨s, Function.update p.clients t c, log⟩ ts = p.left ts := by
  refine congrArg _ (List.filterMap_congr fun u hu => ?_)
  show (Function.update p.clients t c u).map Client.rest = _
  rw [Function.update_of_ne (ne_of_mem_of_not_mem hu ht)]

/-- An effect leaves less of one program. -/
theorem left_effect {ts : List τ} (hnodup : ts.Nodup) {t : τ} (ht : t ∈ ts)
    {c c' : Client E R ε δ κ α} (hc : p.clients t = some c) (hless : Sub c'.rest c.rest) (s : σ)
    (log : List (τ × δ)) : Relation.CutExpand Sub
      (Pool.left ⟨s, Function.update p.clients t (some c'), log⟩ ts) (p.left ts) := by
  obtain ⟨us, vs, rfl⟩ := List.append_of_mem ht
  have hnot := (List.nodup_cons.mp (List.nodup_middle.mp hnodup)).1
  rw [List.mem_append, not_or] at hnot
  obtain ⟨hus, hvs⟩ := hnot
  rw [left_split hc, left_split (p := ⟨s, Function.update p.clients t (some c'), log⟩)
    (Function.update_self _ _ _), left_update hus, left_update hvs]
  refine ⟨{c'.rest}, c.rest, ?_, ?_⟩
  · intro a ha
    rw [Multiset.mem_singleton.mp ha]
    exact hless
  · generalize p.left us + p.left vs = others
    calc c'.rest ::ₘ others + {c.rest} = c.rest ::ₘ c'.rest ::ₘ others := by
          rw [add_comm, Multiset.singleton_add]
      _ = c'.rest ::ₘ c.rest ::ₘ others := Multiset.cons_swap _ _ _
      _ = c.rest ::ₘ others + {c'.rest} := by rw [add_comm, Multiset.singleton_add]

/-- Threads of which finitely many are in a call cannot go on for ever without a call or a
return, whatever the order of their effects. -/
theorem silent_acc {ts : List τ} (hnodup : ts.Nodup) (hts : ∀ t, p.clients t ≠ none → t ∈ ts) :
    Acc (fun p' p => Moves M admitted p none p') p := by
  have hwf := (sub_wf (E := E) (R := R) (ε := ε) (α := α)).cutExpand
  generalize hleft : p.left ts = left
  induction left using hwf.induction generalizing p with
  | _ left ih =>
    refine ⟨p, fun p' hstep => ?_⟩
    cases hstep with
    | @effect t job e k seen r s next answer =>
      have hmem : t ∈ ts := hts t (by simp [next])
      refine ih _ ?_ ?_ rfl
      · rw [← hleft]
        exact left_effect hnodup hmem next ⟨e, k, r, rfl, rfl⟩ _ _
      · intro u hu
        rcases eq_or_ne u t with rfl | hut
        · exact hmem
        · refine hts u fun hnone => hu ?_
          show Function.update p.clients t _ u = none
          rw [Function.update_of_ne hut]
          exact hnone

theorem client_of_update {f : τ → Option (Client E R ε δ κ α)} {t u : τ}
    {c : Option (Client E R ε δ κ α)} (h : Function.update f u c t ≠ none) :
    t = u ∧ c ≠ none ∨ f t ≠ none := by
  rcases eq_or_ne t u with rfl | hu
  · rw [Function.update_self] at h
    exact .inl ⟨rfl, h⟩
  · rw [Function.update_of_ne hu] at h
    exact .inr h

/-- Who is in a call was in it before, or has called now. -/
theorem client_of_step {e : Option (Visible τ κ α)} (hstep : Moves M admitted p e p') {t : τ}
    (ht : p'.clients t ≠ none) : p.clients t ≠ none ∨ ∃ job, e = some (.call t job) := by
  cases hstep with
  | call =>
    rcases client_of_update ht with ⟨rfl, -⟩ | hclient
    · exact .inr ⟨_, rfl⟩
    · exact .inl hclient
  | effect next =>
    rcases client_of_update ht with ⟨rfl, -⟩ | hclient
    · exact .inl (next ▸ Option.some_ne_none _)
    · exact .inl hclient
  | ret =>
    rcases client_of_update ht with ⟨-, hnone⟩ | hclient
    · exact absurd rfl hnone
    · exact .inl hclient

/-- Who is in a call has called. -/
theorem called_of_client (hrun : Traces (Moves M admitted) p es p') {t : τ}
    (ht : p'.clients t ≠ none) : p.clients t ≠ none ∨ ∃ job, .call t job ∈ es := by
  induction hrun with
  | nil => exact .inl ht
  | silent first _ ih =>
    rcases ih ht with hclient | hcall
    · rcases client_of_step first hclient with hclient | ⟨job, hnone⟩
      · exact .inl hclient
      · cases hnone
    · exact .inr hcall
  | seen first _ ih =>
    rcases ih ht with hclient | ⟨job, hcall⟩
    · rcases client_of_step first hclient with hclient | ⟨job, hsome⟩
      · exact .inl hclient
      · cases hsome
        exact .inr ⟨job, List.mem_cons_self⟩
    · exact .inr ⟨job, List.mem_cons_of_mem _ hcall⟩

/-! ## Calls that nothing comes between -/

/-- A thread goes on with its call to the end. -/
theorem traces_rest {t : τ} {job : κ} {f : Prog E R ε α} {seen : List δ} {a : α} {s : σ}
    (hc : p.clients t = some ⟨job, f, seen⟩) (hrun : run (M.handle t) f p.shared = .ok (a, s)) :
    ∃ p', Traces (Moves M admitted) p [] p' ∧ p'.shared = s ∧
      (∃ seen', p'.clients t = some ⟨job, .pure a, seen'⟩) ∧
      ∀ u, u ≠ t → p'.clients u = p.clients u := by
  induction f generalizing p seen with
  | pure b =>
    cases hrun
    exact ⟨p, .nil p, rfl, ⟨seen, hc⟩, fun _ _ => rfl⟩
  | fail e => cases hrun
  | op e k ih =>
    rw [run_op] at hrun
    cases hanswer : M.handle t e p.shared with
    | error x =>
      rw [hanswer] at hrun
      cases hrun
    | ok rs =>
      obtain ⟨r, s₁⟩ := rs
      rw [hanswer] at hrun
      let p₁ : Pool E R ε τ σ δ κ α :=
        ⟨s₁, Function.update p.clients t (some ⟨job, k r, seen ++ M.observe e⟩),
          p.log ++ (M.observe e).map (Prod.mk t)⟩
      have hstep : Moves M admitted p none p₁ := .effect hc hanswer
      obtain ⟨p', htrace, hshared, hdone, hothers⟩ :=
        ih r (p := p₁) (Function.update_self t _ _) hrun
      refine ⟨p', .silent hstep htrace, hshared, hdone, fun u hu => ?_⟩
      rw [hothers u hu]
      exact Function.update_of_ne hu _ _

/-- A call that is made and returns. -/
theorem traces_call {t : τ} {job : κ} {a : α} {s : σ} (hidle : p.clients t = none)
    (may : admitted job) (hrun : run (M.handle t) (M.prog job) p.shared = .ok (a, s)) :
    ∃ p', Traces (Moves M admitted) p [.call t job, .ret t a] p' ∧ p'.shared = s ∧
      p'.clients = p.clients := by
  let p₁ : Pool E R ε τ σ δ κ α :=
    { p with clients := Function.update p.clients t (some ⟨job, M.prog job, []⟩) }
  have hcall : Moves M admitted p (some (.call t job)) p₁ := .call hidle may
  obtain ⟨p', htrace, hshared, ⟨seen, hdone⟩, hothers⟩ :=
    traces_rest (p := p₁) (Function.update_self t _ _) hrun
  have hret : Moves M admitted p' (some (.ret t a))
      { p' with clients := Function.update p'.clients t none } := .ret hdone
  refine ⟨_, .seen hcall (htrace.append (.seen hret (.nil _))), hshared, ?_⟩
  show Function.update p'.clients t none = p.clients
  refine Function.update_eq_iff.mpr ⟨hidle.symm, fun u hu => ?_⟩
  rw [hothers u hu]
  exact Function.update_of_ne hu _ _

/-! ## More of the shared state -/

section Lift
variable {σ' : Type} {N : System E R ε τ σ' δ κ α} {f : σ' → σ} {P : Pool E R ε τ σ' δ κ α}

/-- The same threads on a shared state that has more in it. -/
structure Extends (f : σ' → σ) (P : Pool E R ε τ σ' δ κ α) (p : Pool E R ε τ σ δ κ α) : Prop where
  shared : f P.shared = p.shared
  clients : P.clients = p.clients

/-- What is added never gets in the way of a thread. -/
structure Adds (f : σ' → σ) (N : System E R ε τ σ' δ κ α) (M : System E R ε τ σ δ κ α) : Prop where
  prog : N.prog = M.prog
  observe : N.observe = M.observe
  handle : ∀ {t : τ} {e : E} {r : R e} {S : σ'} {s : σ}, M.handle t e (f S) = .ok (r, s) →
    ∃ S', N.handle t e S = .ok (r, S') ∧ f S' = s

theorem Adds.step (hadds : Adds f N M) (h : Extends f P p) {e : Option (Visible τ κ α)}
    (hstep : Moves M admitted p e p') :
    ∃ P', Moves N admitted P e P' ∧ Extends f P' p' := by
  cases hstep with
  | @call t job idle may =>
    have hidle : P.clients t = none := by
      rw [h.clients]
      exact idle
    refine ⟨_, .call hidle may, h.shared, ?_⟩
    rw [h.clients, hadds.prog]
  | @effect t job e k seen r s next answer =>
    have hnext : P.clients t = some ⟨job, .op e k, seen⟩ := by
      rw [h.clients]
      exact next
    rw [← h.shared] at answer
    obtain ⟨S', hanswer, hshared⟩ := hadds.handle answer
    refine ⟨_, .effect hnext hanswer, hshared, ?_⟩
    rw [h.clients, hadds.observe]
  | @ret t job a seen done =>
    have hdone : P.clients t = some ⟨job, .pure a, seen⟩ := by
      rw [h.clients]
      exact done
    refine ⟨_, .ret hdone, h.shared, ?_⟩
    rw [h.clients]

theorem Adds.trace (hadds : Adds f N M) (h : Extends f P p)
    (hrun : Traces (Moves M admitted) p es p') :
    ∃ P', Traces (Moves N admitted) P es P' ∧ Extends f P' p' := by
  induction hrun generalizing P with
  | nil => exact ⟨P, .nil P, h⟩
  | silent first _ ih =>
    obtain ⟨P₁, hfirst, h₁⟩ := hadds.step h first
    obtain ⟨P', hrest, h'⟩ := ih h₁
    exact ⟨P', .silent hfirst hrest, h'⟩
  | seen first _ ih =>
    obtain ⟨P₁, hfirst, h₁⟩ := hadds.step h first
    obtain ⟨P', hrest, h'⟩ := ih h₁
    exact ⟨P', .seen hfirst hrest, h'⟩

end Lift

end Steps

end Interleaving
