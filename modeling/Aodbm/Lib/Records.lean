import Mathlib.Data.List.Basic
import Mathlib.Data.List.TakeWhile
import Mathlib.Order.Basic
import Mathlib.Tactic.Order

/-!
# Sorted records and search trees of records

Records are pairs `(key, value)`, kept in the order of a *rank*: a function of
the key into a linear order. The rank need not be injective, so `rank k < rank k'`
is in general only a strict weak order on keys; equality of keys is decided
separately. Two different keys of one rank are *twins*, and an update keeps a
list strictly sorted exactly when it does not bring in a twin.

The second half is about one level of a search tree: an ordered list of children,
each with a separator key, a reference and the records below it.
-/

namespace Records

variable {α β ι ρ : Type} [LinearOrder ρ] (rank : α → ρ)

/-- Entries up to the first one at which `p` holds. -/
theorem exists_split {α : Type} (p : α → Bool) (xs : List α) :
    ∃ ys zs, xs = ys ++ zs ∧ (∀ y ∈ ys, p y = false) ∧ ∀ z ∈ zs.head?, p z = true := by
  refine ⟨xs.takeWhile fun x => !p x, xs.dropWhile fun x => !p x,
    List.takeWhile_append_dropWhile.symm, fun y hy => ?_, fun z hz => ?_⟩
  · simpa using List.mem_takeWhile_imp hy
  · have hne : xs.dropWhile (fun x => !p x) ≠ [] := by
      rintro hnil
      rw [hnil] at hz
      cases hz
    have hhead := List.head_dropWhile_not (fun x => !p x) hne
    rw [List.head?_eq_some_head hne] at hz
    cases hz
    simpa using hhead

/-! ## Sorted lists of records -/

/-- Strictly increasing in the rank of the keys. -/
def Sorted (rs : List (α × β)) : Prop := rs.Pairwise fun r s => rank r.1 < rank s.1

/-- No record of the list has a different key of the same rank as `k`. -/
def NoTwin (k : α) (rs : List (α × β)) : Prop := ∀ r ∈ rs, rank r.1 = rank k → r.1 = k

section Update
variable [DecidableEq α]

/-- Replace the record of key `k`, or put a new one at its sorted place. -/
def upsert (k : α) (x : β) : List (α × β) → List (α × β)
  | [] => [(k, x)]
  | r :: rs =>
    if k = r.1 then (k, x) :: rs
    else if rank k < rank r.1 then (k, x) :: r :: rs
    else r :: upsert k x rs

/-- Drop the records of key `k`. -/
def erase (k : α) (rs : List (α × β)) : List (α × β) := rs.filter fun r => r.1 ≠ k

variable {rank}

theorem lookup_cons_if [BEq α] [LawfulBEq α] (q : α) (r : α × β) (rs : List (α × β)) :
    (r :: rs).lookup q = if q = r.1 then some r.2 else rs.lookup q := by
  rw [List.lookup_cons]
  by_cases hq : q = r.1
  · simp [hq]
  · simp [hq, beq_eq_false_iff_ne.mpr hq]

theorem upsert_ne_nil (k : α) (x : β) (rs : List (α × β)) : upsert rank k x rs ≠ [] := by
  cases rs with
  | nil => simp [upsert]
  | cons r rs =>
    unfold upsert
    split
    · simp
    · split <;> simp

theorem mem_upsert {k : α} {x : β} {rs : List (α × β)} {r : α × β}
    (h : r ∈ upsert rank k x rs) : r = (k, x) ∨ r ∈ rs := by
  induction rs with
  | nil => exact Or.inl (List.mem_singleton.mp h)
  | cons s rs ih =>
    unfold upsert at h
    split at h
    · rcases List.mem_cons.mp h with h | h
      · exact Or.inl h
      · exact Or.inr (List.mem_cons_of_mem _ h)
    · split at h
      · exact List.mem_cons.mp h
      · rcases List.mem_cons.mp h with h | h
        · exact Or.inr (h ▸ List.mem_cons_self)
        · exact (ih h).imp_right (List.mem_cons_of_mem _)

theorem mem_upsert_self (k : α) (x : β) (rs : List (α × β)) : (k, x) ∈ upsert rank k x rs := by
  induction rs with
  | nil => exact List.mem_singleton_self _
  | cons s rs ih =>
    unfold upsert
    split
    · exact List.mem_cons_self
    · split
      · exact List.mem_cons_self
      · exact List.mem_cons_of_mem _ ih

theorem mem_upsert_of_ne {k : α} {x : β} {rs : List (α × β)} {r : α × β}
    (h : r ∈ rs) (hk : r.1 ≠ k) : r ∈ upsert rank k x rs := by
  induction rs with
  | nil => cases h
  | cons s rs ih =>
    unfold upsert
    split
    · next hks =>
      rcases List.mem_cons.mp h with h | h
      · exact absurd (h ▸ hks.symm) hk
      · exact List.mem_cons_of_mem _ h
    · split
      · exact List.mem_cons_of_mem _ h
      · rcases List.mem_cons.mp h with h | h
        · exact h ▸ List.mem_cons_self
        · exact List.mem_cons_of_mem _ (ih h)

theorem upsert_length (rank : α → ρ) (k : α) (x : β) (rs : List (α × β)) :
    rs.length ≤ (upsert rank k x rs).length ∧ (upsert rank k x rs).length ≤ rs.length + 1 := by
  induction rs with
  | nil => simp [upsert]
  | cons s rs ih =>
    unfold upsert
    split
    · simp
    · split
      · simp
      · simp only [List.length_cons]
        omega

theorem Sorted.erase {rs : List (α × β)} (h : Sorted rank rs) (k : α) :
    Sorted rank (erase k rs) :=
  List.Pairwise.filter _ h

/-- Without a twin of the new key, an update keeps the list strictly sorted. -/
theorem Sorted.upsert {rs : List (α × β)} (hs : Sorted rank rs) {k : α} (x : β)
    (hk : NoTwin rank k rs) : Sorted rank (upsert rank k x rs) := by
  induction rs with
  | nil => simp [Records.upsert, Sorted]
  | cons r rs ih =>
    obtain ⟨hr, hrs⟩ := List.pairwise_cons.mp hs
    unfold Records.upsert
    split
    · next hkr =>
      exact List.pairwise_cons.mpr ⟨fun s hs' => hkr ▸ hr s hs', hrs⟩
    · next hkr =>
      split
      · next hlt =>
        refine List.pairwise_cons.mpr ⟨fun s hs' => ?_, hs⟩
        rcases List.mem_cons.mp hs' with rfl | hs'
        · exact hlt
        · exact lt_trans hlt (hr s hs')
      · next hnlt =>
        have hne : rank r.1 ≠ rank k := fun he =>
          hkr (hk r List.mem_cons_self he).symm
        have hlt : rank r.1 < rank k := lt_of_le_of_ne (not_lt.mp hnlt) hne
        refine List.pairwise_cons.mpr ⟨fun s hs' => ?_, ih hrs fun s hs' =>
          hk s (List.mem_cons_of_mem _ hs')⟩
        rcases mem_upsert hs' with rfl | hs'
        · exact hlt
        · exact hr s hs'

theorem lookup_upsert [BEq α] [LawfulBEq α] (rs : List (α × β)) (hs : Sorted rank rs) (k q : α)
    (x : β) : (upsert rank k x rs).lookup q = if q = k then some x else rs.lookup q := by
  induction rs with
  | nil => simp only [upsert, lookup_cons_if]
  | cons r rs ih =>
    obtain ⟨hr, hrs⟩ := List.pairwise_cons.mp hs
    unfold upsert
    split
    · next hkr =>
      rw [lookup_cons_if, lookup_cons_if, ← hkr]
      split <;> rfl
    · next hkr =>
      split
      · rw [lookup_cons_if]
      · rw [lookup_cons_if, lookup_cons_if, ih hrs]
        by_cases hqr : q = r.1
        · rw [if_pos hqr, if_pos hqr, if_neg fun h : q = k => hkr (h ▸ hqr)]
        · rw [if_neg hqr, if_neg hqr]

/-- Sorted records hold a record exactly when the lookup of its key finds it. -/
theorem mem_iff_lookup [BEq α] [LawfulBEq α] {rs : List (α × β)} (hs : Sorted rank rs) {k : α}
    {x : β} : (k, x) ∈ rs ↔ rs.lookup k = some x := by
  induction rs with
  | nil => simp
  | cons r rs ih =>
    obtain ⟨hr, hrs⟩ := List.pairwise_cons.mp hs
    rw [List.mem_cons, lookup_cons_if, ih hrs]
    by_cases hkr : k = r.1
    · have hnone : rs.lookup k = none := List.lookup_eq_none_iff.mpr fun s hmem => by
        have hlt := hr s hmem
        simp only [bne_iff_ne, ne_eq]
        rintro rfl
        exact absurd (hkr ▸ hlt) (lt_irrefl _)
      rw [if_pos hkr, hnone]
      constructor
      · rintro (h | h)
        · rw [← h]
        · cases h
      · intro h
        exact Or.inl (Prod.ext hkr (Option.some.inj h).symm)
    · rw [if_neg hkr]
      exact or_iff_right fun h => hkr (congrArg Prod.fst h)

theorem lookup_erase [BEq α] [LawfulBEq α] (k q : α) (rs : List (α × β)) :
    (erase k rs).lookup q = if q = k then none else rs.lookup q := by
  induction rs with
  | nil => simp [erase]
  | cons r rs ih =>
    unfold erase at ih ⊢
    rw [List.filter_cons]
    by_cases hrk : r.1 = k
    · rw [if_neg (by simpa using hrk), ih, lookup_cons_if, hrk]
      split <;> rfl
    · rw [if_pos (by simpa using hrk), lookup_cons_if, lookup_cons_if, ih]
      by_cases hqr : q = r.1
      · rw [if_pos hqr, if_pos hqr, if_neg fun h : q = k => hrk (hqr ▸ h)]
      · rw [if_neg hqr, if_neg hqr]

/-- An update goes past the records whose keys are neither `k` nor above it. -/
theorem upsert_passed (rank : α → ρ) {k : α} (x : β) {l : List (α × β)} (rs : List (α × β))
    (hl : ∀ s ∈ l, k ≠ s.1 ∧ ¬ rank k < rank s.1) :
    upsert rank k x (l ++ rs) = l ++ upsert rank k x rs := by
  induction l with
  | nil => rfl
  | cons s l ih =>
    obtain ⟨hne, hnlt⟩ := hl s List.mem_cons_self
    rw [List.cons_append, upsert, if_neg hne, if_neg hnlt,
      ih fun t ht => hl t (List.mem_cons_of_mem _ ht), List.cons_append]

/-- An update that found its place leaves what comes after it alone. -/
theorem upsert_append_right (rank : α → ρ) {k : α} (x : β) {m : List (α × β)} (r : List (α × β))
    (hm : ∃ s ∈ m, k = s.1 ∨ rank k < rank s.1) :
    upsert rank k x (m ++ r) = upsert rank k x m ++ r := by
  induction m with
  | nil =>
    obtain ⟨s, hs, _⟩ := hm
    cases hs
  | cons s m ih =>
    rw [List.cons_append, upsert, upsert]
    split
    · rfl
    · next hne =>
      split
      · rfl
      · next hnlt =>
        obtain ⟨t, ht, hkt⟩ := hm
        rcases List.mem_cons.mp ht with rfl | ht
        · exact absurd hkt (not_or.mpr ⟨hne, hnlt⟩)
        · rw [ih ⟨t, ht, hkt⟩, List.cons_append]

/-- An update of a key that lies between the outer parts only touches the middle. -/
theorem upsert_append {k : α} (x : β) {l m r : List (α × β)}
    (hl : ∀ s ∈ l, rank s.1 < rank k) (hr : ∀ s ∈ r, rank k < rank s.1) :
    upsert rank k x (l ++ m ++ r) = l ++ upsert rank k x m ++ r := by
  have hpassed : ∀ s ∈ l, k ≠ s.1 ∧ ¬ rank k < rank s.1 := fun s hs =>
    ⟨fun h => absurd (h ▸ hl s hs) (lt_irrefl _), not_lt.mpr (hl s hs).le⟩
  rw [List.append_assoc, upsert_passed rank x _ hpassed, List.append_assoc]
  congr 1
  induction m with
  | nil =>
    cases r with
    | nil => rfl
    | cons s r =>
      have hlt := hr s List.mem_cons_self
      have hne : k ≠ s.1 := fun h => absurd (h ▸ hlt) (lt_irrefl _)
      simp [upsert, hne, hlt]
  | cons s m ih =>
    rw [List.cons_append, upsert, upsert]
    split
    · rfl
    · split
      · rfl
      · rw [ih, List.cons_append]

/-- In a sorted list the first record of a key is its only one. -/
theorem eraseP_eq_erase {k : α} {rs : List (α × β)} (hs : Sorted rank rs) :
    rs.eraseP (fun r => r.1 = k) = erase k rs := by
  induction rs with
  | nil => rfl
  | cons r rs ih =>
    obtain ⟨hr, hrs⟩ := List.pairwise_cons.mp hs
    unfold erase at ih ⊢
    by_cases hk : r.1 = k
    · have hkeep : rs.filter (fun s => s.1 ≠ k) = rs := List.filter_eq_self.mpr fun s hs' => by
        have : s.1 ≠ k := fun h => absurd (h.trans hk.symm ▸ hr s hs') (lt_irrefl _)
        simpa using this
      rw [List.eraseP_cons_of_pos (by simpa using hk), List.filter_cons_of_neg (by simpa using hk),
        hkeep]
    · rw [List.eraseP_cons_of_neg (by simpa using hk), List.filter_cons_of_pos (by simpa using hk),
        ih hrs]

theorem erase_append {k : α} {l m r : List (α × β)}
    (hl : ∀ s ∈ l, rank s.1 < rank k) (hr : ∀ s ∈ r, rank k < rank s.1) :
    erase k (l ++ m ++ r) = l ++ erase k m ++ r := by
  have hne {s : α × β} (h : rank s.1 ≠ rank k) : s.1 ≠ k := fun he => h (he ▸ rfl)
  have hl' : erase k l = l :=
    List.filter_eq_self.mpr fun s hs => by simpa using hne (hl s hs).ne
  have hr' : erase k r = r :=
    List.filter_eq_self.mpr fun s hs => by simpa using hne (hr s hs).ne'
  unfold erase at hl' hr' ⊢
  rw [List.filter_append, List.filter_append, hl', hr']

omit [DecidableEq α] in
theorem lookup_append_mid [BEq α] [LawfulBEq α] {k : α} {l m r : List (α × β)}
    (hl : ∀ s ∈ l, rank s.1 < rank k) (hr : ∀ s ∈ r, rank k < rank s.1) :
    (l ++ m ++ r).lookup k = m.lookup k := by
  have hl' : l.lookup k = none := List.lookup_eq_none_iff.mpr fun s hs => by
    have : k ≠ s.1 := fun h => absurd (h ▸ hl s hs) (lt_irrefl _)
    simpa using this
  have hr' : r.lookup k = none := List.lookup_eq_none_iff.mpr fun s hs => by
    have : k ≠ s.1 := fun h => absurd (h ▸ hr s hs) (lt_irrefl _)
    simpa using this
  rw [List.lookup_append, List.lookup_append, hl', hr', Option.or_none, Option.none_or]

end Update

/-! ## Children of a branch -/

/-- A child as its branch sees it: separator, reference, and the records below it. -/
structure Child (α β ι : Type) where
  key : α
  ref : ι
  recs : List (α × β)

/-- All records below a list of children, in order. -/
def below (cs : List (Child α β ι)) : List (α × β) := cs.flatMap Child.recs

/-- Separators increase strictly, and each cuts the records before it from those below it. -/
structure Ordered (cs : List (Child α β ι)) : Prop where
  seps : cs.Pairwise fun c d => rank c.key < rank d.key ∧ ∀ r ∈ c.recs, rank r.1 < rank d.key
  lower : ∀ c ∈ cs, ∀ r ∈ c.recs, rank c.key ≤ rank r.1

section Children
variable {rank}

@[simp] theorem below_nil : below ([] : List (Child α β ι)) = [] := rfl

@[simp] theorem below_cons (c : Child α β ι) (cs : List (Child α β ι)) :
    below (c :: cs) = c.recs ++ below cs := rfl

@[simp] theorem below_append (cs ds : List (Child α β ι)) :
    below (cs ++ ds) = below cs ++ below ds := by
  simp [below]

theorem mem_below {cs : List (Child α β ι)} {r : α × β} :
    r ∈ below cs ↔ ∃ c ∈ cs, r ∈ c.recs := by
  simp [below]

theorem Ordered.nil : Ordered rank ([] : List (Child α β ι)) :=
  ⟨List.Pairwise.nil, fun _ hc => absurd hc List.not_mem_nil⟩

theorem ordered_append {cs ds : List (Child α β ι)} :
    Ordered rank (cs ++ ds) ↔ Ordered rank cs ∧ Ordered rank ds ∧
      ∀ c ∈ cs, ∀ d ∈ ds, rank c.key < rank d.key ∧ ∀ r ∈ c.recs, rank r.1 < rank d.key := by
  constructor
  · intro h
    obtain ⟨h1, h2, h3⟩ := List.pairwise_append.mp h.seps
    exact ⟨⟨h1, fun c hc => h.lower c (List.mem_append_left _ hc)⟩,
      ⟨h2, fun c hc => h.lower c (List.mem_append_right _ hc)⟩, h3⟩
  · rintro ⟨hc, hd, hcd⟩
    refine ⟨List.pairwise_append.mpr ⟨hc.seps, hd.seps, hcd⟩, fun e he => ?_⟩
    rcases List.mem_append.mp he with he | he
    · exact hc.lower e he
    · exact hd.lower e he

theorem ordered_cons {c : Child α β ι} {cs : List (Child α β ι)} :
    Ordered rank (c :: cs) ↔ (∀ r ∈ c.recs, rank c.key ≤ rank r.1) ∧
      (∀ d ∈ cs, rank c.key < rank d.key ∧ ∀ r ∈ c.recs, rank r.1 < rank d.key) ∧
      Ordered rank cs := by
  constructor
  · intro h
    obtain ⟨h1, h2⟩ := List.pairwise_cons.mp h.seps
    exact ⟨h.lower c List.mem_cons_self, h1, h2, fun d hd => h.lower d (List.mem_cons_of_mem _ hd)⟩
  · rintro ⟨h1, h2, h3⟩
    refine ⟨List.pairwise_cons.mpr ⟨h2, h3.seps⟩, fun d hd => ?_⟩
    rcases List.mem_cons.mp hd with rfl | hd
    · exact h1
    · exact h3.lower d hd

/-- The separator of the first child bounds every record below the branch. -/
theorem Ordered.head_le {c : Child α β ι} {cs : List (Child α β ι)}
    (h : Ordered rank (c :: cs)) : ∀ r ∈ below (c :: cs), rank c.key ≤ rank r.1 := by
  obtain ⟨h1, h2, h3⟩ := ordered_cons.mp h
  intro r hr
  rw [below_cons, List.mem_append] at hr
  rcases hr with hr | hr
  · exact h1 r hr
  · obtain ⟨d, hd, hrd⟩ := mem_below.mp hr
    exact (h2 d hd).1.le.trans (h3.lower d hd r hrd)

/-- Records that are sorted below each child are sorted below the branch. -/
theorem Ordered.sorted {cs : List (Child α β ι)} (h : Ordered rank cs)
    (hs : ∀ c ∈ cs, Sorted rank c.recs) : Sorted rank (below cs) := by
  induction cs with
  | nil => exact List.Pairwise.nil
  | cons c cs ih =>
    obtain ⟨_, h2, h3⟩ := ordered_cons.mp h
    refine List.pairwise_append.mpr ⟨hs c List.mem_cons_self,
      ih h3 fun d hd => hs d (List.mem_cons_of_mem _ hd), fun r hr s hs' => ?_⟩
    obtain ⟨d, hd, hsd⟩ := mem_below.mp hs'
    exact lt_of_lt_of_le ((h2 d hd).2 r hr) (h3.lower d hd s hsd)

/-- The key `k` belongs below the child `c`: not below its separator, and below every later one. -/
def Routes (rank : α → ρ) (k : α) (c : Child α β ι) (r : List (Child α β ι)) : Prop :=
  rank c.key ≤ rank k ∧ ∀ d ∈ r, rank k < rank d.key

/-- A scan that passes the children whose separators are not above `k` ends behind the child
the key belongs below. -/
theorem exists_routes {k : α} (cur : Child α β ι) (cs : List (Child α β ι))
    (hcur : rank cur.key ≤ rank k)
    (hsep : (cur :: cs).Pairwise fun c d => rank c.key < rank d.key) :
    ∃ ds r l c, cs = ds ++ r ∧ cur :: ds = l ++ [c] ∧ Routes rank k c r ∧
      ∀ d ∈ ds, rank d.key ≤ rank k := by
  induction cs generalizing cur with
  | nil =>
    exact ⟨[], [], [], cur, rfl, rfl, ⟨hcur, fun d hd => absurd hd List.not_mem_nil⟩,
      fun d hd => absurd hd List.not_mem_nil⟩
  | cons d cs ih =>
    have hsep' := (List.pairwise_cons.mp hsep).2
    rcases lt_or_ge (rank k) (rank d.key) with hlt | hle
    · -- the scan ends before `d`, so the key is below `cur`
      refine ⟨[], d :: cs, [], cur, rfl, rfl, ⟨hcur, fun e he => ?_⟩,
        fun e he => absurd he List.not_mem_nil⟩
      rcases List.mem_cons.mp he with rfl | he
      · exact hlt
      · exact hlt.trans ((List.pairwise_cons.mp hsep').1 e he)
    · obtain ⟨ds, r, l, c, rfl, hlast, hroute, hpassed⟩ := ih d hle hsep'
      exact ⟨d :: ds, r, cur :: l, c, rfl, by rw [hlast, List.cons_append], hroute,
        List.forall_mem_cons.mpr ⟨hle, hpassed⟩⟩

theorem Routes.left {k : α} {c : Child α β ι} {l r : List (Child α β ι)}
    (hk : Routes rank k c r) (h : Ordered rank (l ++ c :: r)) :
    ∀ s ∈ below l, rank s.1 < rank k := by
  obtain ⟨_, _, h3⟩ := ordered_append.mp h
  intro s hs
  obtain ⟨d, hd, hsd⟩ := mem_below.mp hs
  exact lt_of_lt_of_le ((h3 d hd c List.mem_cons_self).2 s hsd) hk.1

theorem Routes.right {k : α} {c : Child α β ι} {l r : List (Child α β ι)}
    (hk : Routes rank k c r) (h : Ordered rank (l ++ c :: r)) :
    ∀ s ∈ below r, rank k < rank s.1 := by
  obtain ⟨_, h2, _⟩ := ordered_append.mp h
  obtain ⟨_, _, h3⟩ := ordered_cons.mp h2
  intro s hs
  obtain ⟨d, hd, hsd⟩ := mem_below.mp hs
  exact lt_of_lt_of_le (hk.2 d hd) (h3.lower d hd s hsd)

section Route
variable [DecidableEq α]

omit [DecidableEq α] in
/-- A routed key is looked up below its child. -/
theorem Routes.lookup [BEq α] [LawfulBEq α] {k : α} {c : Child α β ι} {l r : List (Child α β ι)}
    (hk : Routes rank k c r) (h : Ordered rank (l ++ c :: r)) :
    (below (l ++ c :: r)).lookup k = c.recs.lookup k := by
  have := lookup_append_mid (m := c.recs) (hk.left h) (hk.right h)
  simpa using this

/-- A routed key is updated below its child. -/
theorem Routes.upsert {k : α} {c : Child α β ι} {l r : List (Child α β ι)} (x : β)
    (hk : Routes rank k c r) (h : Ordered rank (l ++ c :: r)) :
    Records.upsert rank k x (below (l ++ c :: r)) =
      below l ++ Records.upsert rank k x c.recs ++ below r := by
  have := upsert_append x (m := c.recs) (hk.left h) (hk.right h)
  simpa using this

/-- A routed key is deleted below its child. -/
theorem Routes.erase {k : α} {c : Child α β ι} {l r : List (Child α β ι)}
    (hk : Routes rank k c r) (h : Ordered rank (l ++ c :: r)) :
    Records.erase k (below (l ++ c :: r)) = below l ++ Records.erase k c.recs ++ below r := by
  have := erase_append (m := c.recs) (hk.left h) (hk.right h)
  simpa using this

end Route

/-- Replacing one child by others that stay inside its interval keeps a branch ordered. -/
theorem Ordered.splice {c : Child α β ι} {l r ns : List (Child α β ι)}
    (h : Ordered rank (l ++ c :: r)) (hns : Ordered rank ns)
    (hlo : ∀ n ∈ ns, rank c.key ≤ rank n.key)
    (hhi : ∀ n ∈ ns, ∀ d ∈ r, rank n.key < rank d.key ∧ ∀ s ∈ n.recs, rank s.1 < rank d.key) :
    Ordered rank (l ++ ns ++ r) := by
  obtain ⟨h1, h2, h3⟩ := ordered_append.mp h
  obtain ⟨_, _, hr⟩ := ordered_cons.mp h2
  refine ordered_append.mpr ⟨ordered_append.mpr ⟨h1, hns, fun a ha n hn => ?_⟩, hr, ?_⟩
  · have hac := h3 a ha c List.mem_cons_self
    exact ⟨lt_of_lt_of_le hac.1 (hlo n hn), fun s hs => lt_of_lt_of_le (hac.2 s hs) (hlo n hn)⟩
  · intro a ha d hd
    rcases List.mem_append.mp ha with ha | ha
    · exact h3 a ha d (List.mem_cons_of_mem _ hd)
    · exact hhi a ha d hd

/-- The first separator may be any lower bound of the records below the first child. -/
theorem Ordered.rekey {c : Child α β ι} {cs : List (Child α β ι)} {k : α}
    (h : Ordered rank (c :: cs)) (hne : c.recs ≠ []) (hk : ∀ r ∈ c.recs, rank k ≤ rank r.1) :
    Ordered rank ({ c with key := k } :: cs) := by
  obtain ⟨_, h2, h3⟩ := ordered_cons.mp h
  obtain ⟨r, hr⟩ := List.exists_mem_of_ne_nil _ hne
  exact ordered_cons.mpr ⟨hk, fun d hd =>
    ⟨lt_of_le_of_lt (hk r hr) ((h2 d hd).2 r hr), (h2 d hd).2⟩, h3⟩

/-- Order does not depend on the references. -/
theorem Ordered.congr {κ : Type} {cs : List (Child α β ι)} {ds : List (Child α β κ)}
    (h : cs.map (fun c => (c.key, c.recs)) = ds.map fun d => (d.key, d.recs))
    (ho : Ordered rank cs) : Ordered rank ds := by
  induction cs generalizing ds with
  | nil =>
    have : ds = [] := List.map_eq_nil_iff.mp h.symm
    exact this ▸ Ordered.nil
  | cons c cs ih =>
    cases ds with
    | nil => simp at h
    | cons d ds =>
      simp only [List.map_cons, List.cons.injEq, Prod.mk.injEq] at h
      obtain ⟨⟨hkey, hrecs⟩, htail⟩ := h
      obtain ⟨h1, h2, h3⟩ := ordered_cons.mp ho
      refine ordered_cons.mpr ⟨hkey ▸ hrecs ▸ h1, fun e he => ?_, ih htail h3⟩
      obtain ⟨c', hc', he'⟩ : ∃ c' ∈ cs, (c'.key, c'.recs) = (e.key, e.recs) := by
        have : (e.key, e.recs) ∈ cs.map fun c => (c.key, c.recs) :=
          htail ▸ List.mem_map_of_mem (f := fun d : Child α β κ => (d.key, d.recs)) he
        exact List.mem_map.mp this
      have hek : c'.key = e.key := congrArg Prod.fst he'
      exact hkey ▸ hrecs ▸ hek ▸ h2 c' hc'

/-- A sorted list that is cut into non-empty parts, each keyed by its first record. -/
theorem Ordered.of_sorted {cs : List (Child α β ι)} (hs : Sorted rank (below cs))
    (hkey : ∀ c ∈ cs, ∃ r t, c.recs = r :: t ∧ c.key = r.1) : Ordered rank cs := by
  induction cs with
  | nil => exact Ordered.nil
  | cons c cs ih =>
    obtain ⟨hc, hcs, hbetween⟩ := List.pairwise_append.mp hs
    obtain ⟨r, t, hrecs, hr⟩ := hkey c List.mem_cons_self
    refine ordered_cons.mpr ⟨fun s hs' => ?_, fun d hd => ?_,
      ih hcs fun d hd => hkey d (List.mem_cons_of_mem _ hd)⟩
    · rw [hrecs] at hs' hc
      rw [hr]
      rcases List.mem_cons.mp hs' with rfl | hs'
      · exact le_refl _
      · exact (List.rel_of_pairwise_cons hc hs').le
    · obtain ⟨r', t', hrecs', hr'⟩ := hkey d (List.mem_cons_of_mem _ hd)
      have hmem : r' ∈ below cs := mem_below.mpr ⟨d, hd, by simp [hrecs']⟩
      rw [hr, hr']
      exact ⟨hbetween r (by simp [hrecs]) r' hmem, fun s hs' => hbetween s hs' r' hmem⟩

/-- Every group of neighbouring children is ordered. -/
theorem Ordered.part {parts : List (List (Child α β ι))} (h : Ordered rank parts.flatten)
    {p : List (Child α β ι)} (hp : p ∈ parts) : Ordered rank p :=
  ⟨(List.pairwise_flatten.mp h.seps).1 p hp,
    fun c hc => h.lower c (List.mem_flatten.mpr ⟨p, hp, hc⟩)⟩

theorem below_flatten (parts : List (List (Child α β ι))) :
    below parts.flatten = parts.flatMap below := by
  induction parts with
  | nil => rfl
  | cons p parts ih => rw [List.flatten_cons, below_append, ih, List.flatMap_cons]

/-- Groups of neighbouring children are ordered like the children themselves, when each
group takes the key of its first child. -/
theorem Ordered.groups {κ : Type} {parts : List (List (Child α β ι))}
    {g : List (Child α β ι) → Child α β κ} (h : Ordered rank parts.flatten)
    (hg : ∀ p ∈ parts, ∃ c t, p = c :: t ∧ (g p).key = c.key ∧ (g p).recs = below p) :
    Ordered rank (parts.map g) := by
  induction parts with
  | nil => exact Ordered.nil
  | cons p parts ih =>
    obtain ⟨c, t, rfl, hkey, hrecs⟩ := hg p List.mem_cons_self
    obtain ⟨h1, h2, h3⟩ := ordered_append.mp h
    rw [List.map_cons]
    refine ordered_cons.mpr ⟨?_, fun d hd => ?_,
      ih h2 fun q hq => hg q (List.mem_cons_of_mem _ hq)⟩
    · rw [hkey, hrecs]
      exact h1.head_le
    · obtain ⟨q, hq, rfl⟩ := List.mem_map.mp hd
      obtain ⟨c', t', rfl, hkey', _⟩ := hg q (List.mem_cons_of_mem _ hq)
      have hc' : c' ∈ parts.flatten := List.mem_flatten.mpr ⟨_, hq, List.mem_cons_self⟩
      rw [hkey, hrecs, hkey']
      refine ⟨(h3 c List.mem_cons_self c' hc').1, fun s hs => ?_⟩
      obtain ⟨e, he, hse⟩ := mem_below.mp hs
      exact (h3 e he c' hc').2 s hse

/-- A rewriting of the records that only concerns the key `k`: on an ordered list of
children it happens below the child that `k` is routed to. -/
structure LocalAt (rank : α → ρ) (k : α) (f : List (α × β) → List (α × β)) : Prop where
  mem : ∀ {rs : List (α × β)} {s : α × β}, s ∈ f rs → s.1 = k ∨ s ∈ rs
  route : ∀ {ι : Type} {c : Child α β ι} {l r : List (Child α β ι)}, Routes rank k c r →
    Ordered rank (l ++ c :: r) → f (below (l ++ c :: r)) = below l ++ f c.recs ++ below r

theorem localAt_upsert [DecidableEq α] (k : α) (x : β) :
    LocalAt rank k (Records.upsert rank k x) where
  mem hs := (mem_upsert hs).imp_left (congrArg Prod.fst)
  route hk h := hk.upsert x h

theorem localAt_erase [DecidableEq α] (k : α) : LocalAt rank k (Records.erase (β := β) k) where
  mem hs := Or.inr (List.mem_of_mem_filter hs)
  route hk h := hk.erase h

end Children

end Records
