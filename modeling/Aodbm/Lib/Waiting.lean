import Aodbm.Lib.Traces

/-!
# Threads that wait

The handler refuses an effect that is not possible yet with the error `blocked`: the thread waits,
and its effect may be possible later. Any other error ends the call.

Results:
1. `client_cases`: a thread that is in a call waits, returns, has failed or goes on.
2. `returns_of_quiet`: if whoever waits waits for a thread that goes on or has failed, then all
   calls return once no effect is possible any more, unless one has failed.
-/

namespace Interleaving

open Effects

variable {E : Type} {R : E → Type} {ε τ σ δ κ α : Type}
variable (M : System E R ε τ σ δ κ α) (blocked : ε) (p : Pool E R ε τ σ δ κ α) (t : τ)

/-- The next effect of the call is not possible yet. -/
def Waits : Prop := ∃ job e k seen,
  p.clients t = some ⟨job, .op e k, seen⟩ ∧ M.handle t e p.shared = .error blocked

/-- The next effect of the call is possible. -/
def Goes : Prop := ∃ job e k seen r,
  p.clients t = some ⟨job, .op e k, seen⟩ ∧ M.handle t e p.shared = .ok r

/-- The call has ended with an error. -/
def Fails (x : ε) : Prop := ∃ c, p.clients t = some c ∧
  (c.rest = .fail x ∨ x ≠ blocked ∧ ∃ e k, c.rest = .op e k ∧ M.handle t e p.shared = .error x)

/-- The call has its answer, and returns. -/
def Returns : Prop := ∃ job a seen, p.clients t = some ⟨job, .pure a, seen⟩

variable {M blocked p t}

/-- A thread that is in a call waits, returns, has failed or goes on. -/
theorem client_cases (ht : p.clients t ≠ none) : Waits M blocked p t ∨ Returns p t ∨
    (∃ x, Fails M blocked p t x) ∨ Goes M p t := by
  obtain ⟨⟨job, rest, seen⟩, hclient⟩ := Option.ne_none_iff_exists'.mp ht
  cases rest with
  | pure a => exact .inr (.inl ⟨job, a, seen, hclient⟩)
  | fail x => exact .inr (.inr (.inl ⟨x, _, hclient, .inl rfl⟩))
  | op e k =>
    cases hanswer : M.handle t e p.shared with
    | ok r => exact .inr (.inr (.inr ⟨job, e, k, seen, r, hclient, hanswer⟩))
    | error x =>
      by_cases hx : x = blocked
      · subst hx
        exact .inl ⟨job, e, k, seen, hclient, hanswer⟩
      · exact .inr (.inr (.inl ⟨x, _, hclient, .inr ⟨hx, e, k, rfl, hanswer⟩⟩))

/-- A thread that is in a call and neither waits nor returns. -/
def Busy (M : System E R ε τ σ δ κ α) (blocked : ε) (p : Pool E R ε τ σ δ κ α) (t : τ) : Prop :=
  p.clients t ≠ none ∧ ¬ Waits M blocked p t ∧ ¬ Returns p t

theorem Busy.goes_or_fails (h : Busy M blocked p t) :
    Goes M p t ∨ ∃ x, Fails M blocked p t x := by
  obtain ⟨ht, hwaits, hreturns⟩ := h
  rcases client_cases ht with hwait | hreturn | hfails | hgoes
  · exact absurd hwait hwaits
  · exact absurd hreturn hreturns
  · exact .inr hfails
  · exact .inl hgoes

variable [DecidableEq τ] {admitted : κ → Prop}

theorem Goes.moves (h : Goes M p t) : ∃ p', Moves M admitted p none p' := by
  obtain ⟨job, e, k, seen, r, hclient, hanswer⟩ := h
  exact ⟨_, .effect hclient hanswer⟩

/-- Whoever waits waits for a thread that goes on or has failed: then all calls return once no
effect is possible any more, unless one has failed. -/
theorem returns_of_quiet
    (hwaits : ∀ t, Waits M blocked p t → ∃ u, Goes M p u ∨ ∃ x, Fails M blocked p u x)
    (hquiet : ∀ p', ¬ Moves M admitted p none p') :
    (∃ u x, Fails M blocked p u x) ∨ ∀ t, p.clients t ≠ none → Returns p t := by
  have hstill : ∀ u, ¬ Goes M p u := by
    intro u hgoes
    have hmoves : ∃ p', Moves M admitted p none p' := hgoes.moves
    obtain ⟨p', hstep⟩ := hmoves
    exact hquiet p' hstep
  by_contra hnot
  rw [not_or, not_exists] at hnot
  obtain ⟨hfails, hnot⟩ := hnot
  refine hnot fun t ht => ?_
  rcases client_cases ht with hwait | hreturns | hfail | hgoes
  · obtain ⟨u, hgoes | hfail⟩ := hwaits t hwait
    · exact absurd hgoes (hstill u)
    · exact absurd hfail (hfails u)
  · exact hreturns
  · exact absurd hfail (hfails t)
  · exact absurd hgoes (hstill t)

end Interleaving
