import Aodbm.Lib.History
import Mathlib.Logic.Function.Basic

/-!
# Sequences of overwrites

An overwrite gives one key a value. A sequence of overwrites depends on its order only at keys
that it writes more than once: the last one decides.

Results:
1. `overwrites_of_not_touches`, `overwrites_congr`: a key that is not written keeps its value, and
   the value of one that is written does not depend on the map before.
2. `Trail.overwrites_back`: the steps back along a trail, each after the one before, lead to its
   end.
3. `Trail.overwrites_iff`: the steps forward along a trail, but performed from the newest to the
   oldest, lead to its beginning exactly when the oldest step that writes a key decides its value.
-/

namespace History

variable {ι γ κ β : Type} [DecidableEq κ] (key : γ → κ) (val : γ → β)

/-- The map after some overwrites, the first one first. -/
def overwrites (cs : List γ) (m : κ → β) : κ → β :=
  cs.foldl (fun m c => Function.update m (key c) (val c)) m

/-- Some overwrite writes the key. -/
def Touches (cs : List γ) (q : κ) : Prop := ∃ c ∈ cs, key c = q

instance (cs : List γ) (q : κ) : Decidable (Touches key cs q) :=
  inferInstanceAs (Decidable (∃ c ∈ cs, key c = q))

variable {key val} {cs ds : List γ} {m n : κ → β} {q : κ}

@[simp] theorem overwrites_nil : overwrites key val [] m = m := rfl

@[simp] theorem overwrites_append :
    overwrites key val (cs ++ ds) m = overwrites key val ds (overwrites key val cs m) :=
  List.foldl_append

theorem overwrites_of_not_touches (h : ¬ Touches key cs q) : overwrites key val cs m q = m q := by
  induction cs generalizing m with
  | nil => rfl
  | cons c cs ih =>
    have hc : q ≠ key c := fun hq => h ⟨c, List.mem_cons_self, hq.symm⟩
    have hcs : ¬ Touches key cs q := fun ⟨d, hd, hq⟩ => h ⟨d, List.mem_cons_of_mem _ hd, hq⟩
    rw [overwrites, List.foldl_cons]
    exact (ih hcs).trans (Function.update_of_ne hc _ _)

theorem overwrites_congr (h : Touches key cs q) :
    overwrites key val cs m q = overwrites key val cs n q := by
  induction cs generalizing m n with
  | nil =>
    obtain ⟨c, hc, _⟩ := h
    cases hc
  | cons c cs ih =>
    rw [overwrites, overwrites, List.foldl_cons, List.foldl_cons]
    by_cases hcs : Touches key cs q
    · exact ih hcs
    · have hq : key c = q := by
        obtain ⟨d, hd, hq⟩ := h
        rcases List.mem_cons.mp hd with rfl | hd
        · exact hq
        · exact absurd ⟨d, hd, hq⟩ hcs
      have hlast : ∀ m : κ → β,
          overwrites key val cs (Function.update m (key c) (val c)) q = val c := by
        intro m
        rw [overwrites_of_not_touches hcs, ← hq, Function.update_self]
      exact (hlast m).trans (hlast n).symm

omit [DecidableEq κ] in
theorem touches_flatMap {f : ι → List γ} {vs : List ι} :
    Touches key (vs.flatMap f) q ↔ ∃ v ∈ vs, Touches key (f v) q := by
  constructor
  · rintro ⟨c, hc, hq⟩
    obtain ⟨v, hv, hcv⟩ := List.mem_flatMap.mp hc
    exact ⟨v, hv, c, hcv, hq⟩
  · rintro ⟨v, hv, c, hc, hq⟩
    exact ⟨c, List.mem_flatMap.mpr ⟨v, hv, hc⟩, hq⟩

/-! ## Along a trail -/

section Along
variable {P : ι → ι → Prop} {f : ι → List γ} {M : ι → κ → β} {a c : ι} {vs : List ι}

theorem Trail.overwrites_back (ht : Trail P a vs c)
    (hf : ∀ {v p : ι}, P v p → overwrites key val (f v) (M v) = M p) :
    overwrites key val (vs.flatMap f) (M a) = M c := by
  induction ht with
  | nil a => rfl
  | cons hp _ ih =>
    rw [List.flatMap_cons, overwrites_append, hf hp]
    exact ih

/-- A key that no step of the trail writes has one value on it. -/
theorem Trail.untouched (ht : Trail P a vs c)
    (hf : ∀ {v p : ι}, P v p → overwrites key val (f v) (M p) = M v)
    (h : ∀ v ∈ vs, ¬ Touches key (f v) q) : M a q = M c q := by
  induction ht with
  | nil a => rfl
  | cons hp _ ih =>
    rw [← hf hp, overwrites_of_not_touches (h _ List.mem_cons_self)]
    exact ih fun v hv => h v (List.mem_cons_of_mem _ hv)

/-- The oldest step of the trail that writes the key. -/
def Oldest (key : γ → κ) (f : ι → List γ) (vs : List ι) (q : κ) (v : ι) : Prop :=
  ∃ newer older, vs = newer ++ v :: older ∧ Touches key (f v) q ∧
    ∀ u ∈ older, ¬ Touches key (f u) q

theorem exists_oldest (h : ∃ v ∈ vs, Touches key (f v) q) : ∃ v, Oldest key f vs q v := by
  induction vs with
  | nil =>
    obtain ⟨v, hv, _⟩ := h
    cases hv
  | cons v vs ih =>
    by_cases hvs : ∃ u ∈ vs, Touches key (f u) q
    · obtain ⟨u, newer, older, rfl, hu, holder⟩ := ih hvs
      exact ⟨u, v :: newer, older, rfl, hu, holder⟩
    · obtain ⟨u, hu, htouches⟩ := h
      rcases List.mem_cons.mp hu with rfl | hu
      · exact ⟨u, [], vs, rfl, htouches, fun t ht htt => hvs ⟨t, ht, htt⟩⟩
      · exact absurd ⟨u, hu, htouches⟩ hvs

theorem Trail.mem_parent (ht : Trail P a vs c) {v : ι} (hv : v ∈ vs) : ∃ p, P v p := by
  induction ht with
  | nil a => cases hv
  | cons hp _ ih =>
    rcases List.mem_cons.mp hv with rfl | hv
    · exact ⟨_, hp⟩
    · exact ih hv

/-- From the newest step to the oldest, the oldest one that writes a key comes last. -/
theorem Trail.overwrites_oldest (ht : Trail P a vs c)
    (hf : ∀ {v p : ι}, P v p → overwrites key val (f v) (M p) = M v) {v : ι}
    (hv : Oldest key f vs q v) : overwrites key val (vs.flatMap f) m q = M v q := by
  obtain ⟨newer, older, rfl, htouches, holder⟩ := hv
  obtain ⟨p, hp⟩ := ht.mem_parent (v := v) (by simp)
  have hrest : ¬ Touches key (older.flatMap f) q := fun h =>
    let ⟨u, hu, hq⟩ := touches_flatMap.mp h
    holder u hu hq
  rw [List.flatMap_append, List.flatMap_cons, overwrites_append, overwrites_append,
    overwrites_of_not_touches hrest, ← hf hp]
  exact overwrites_congr htouches

theorem Trail.overwrites_iff (ht : Trail P a vs c)
    (hf : ∀ {v p : ι}, P v p → overwrites key val (f v) (M p) = M v) :
    overwrites key val (vs.flatMap f) (M c) = M a ↔
      ∀ q v, Oldest key f vs q v → M v q = M a q := by
  constructor
  · intro h q v hv
    rw [← ht.overwrites_oldest hf hv, h]
  · intro h
    funext q
    by_cases hq : ∃ v ∈ vs, Touches key (f v) q
    · obtain ⟨v, hv⟩ := exists_oldest hq
      rw [ht.overwrites_oldest hf hv, h q v hv]
    · have hnone : ∀ v ∈ vs, ¬ Touches key (f v) q := fun v hv htv => hq ⟨v, hv, htv⟩
      rw [overwrites_of_not_touches fun h => hq (touches_flatMap.mp h), ht.untouched hf hnone]

end Along

end History
