import Mathlib.Logic.Function.Basic
import Aodbm.Lib.History
import Aodbm.Lib.Simulation

/-!
# Stores of versions

A store keeps versions of a map from keys to values. An update makes a new version and changes
no other; one of the versions is current, and becomes another one only by a commit of a version
that is based on it. The process may be killed at any time: the current version and what it is
based on are kept, and the other versions are lost with the cursors.

The store names its versions in `ν`, where 0 is the empty map from which all begin.

Results:
1. `Next.keeps`: what the current version is based on is kept by every event.
2. `committed_kept`: after a commit the version is there in every later state, with its contents,
   and the current version is based on it.
3. `Step.known`, `Step.closed`: no call loses a version or names one that is not there.
-/

namespace VersionStores

open History Simulations

variable {ν κ χ : Type}

/-- A version: what it was made from and what it holds. -/
structure Entry (ν κ χ : Type) where
  parent : ν
  contents : κ → Option χ

/-- A position in the records of a version: those that are still to come. -/
structure Cursor (ν κ χ : Type) where
  ver : ν
  rest : List (κ × χ)

structure Store (ν κ χ : Type) where
  entry : ν → Option (Entry ν κ χ)
  current : ν
  cursors : List (Cursor ν κ χ)

inductive Call (ν κ : Type) (χ : Type) where
  | set (ver : ν) (key : κ) (val : χ)
  | del (ver : ν) (key : κ)
  | get (ver : ν) (key : κ)
  | has (ver : ν) (key : κ)
  | current
  | commit (ver : ν)
  | isBasedOn (a b : ν)
  | previousVersion (ver : ν)
  | commonAncestor (a b : ν)
  | newIterator (ver : ν)
  | iterateFrom (ver : ν) (key : κ)
  | iteratorGoto (i : Nat) (key : κ)
  | iteratorNext (i : Nat)
deriving DecidableEq

inductive Reply (ν κ χ : Type) where
  | version (ver : ν)
  | flag (b : Bool)
  | value (x : Option χ)
  | cursor (i : Nat)
  | moved
  | record (r : Option (κ × χ))
deriving DecidableEq

/-- A call that returned, or the end of the process, perhaps in the middle of a call. -/
inductive Event (ν κ χ : Type) where
  | call (c : Call ν κ χ) (r : Reply ν κ χ)
  | kill (pending : Option (Call ν κ χ))

/-- The records in the order of their keys. -/
structure Listing (lt : κ → κ → Bool) (m : κ → Option χ) (rs : List (κ × χ)) : Prop where
  sorted : rs.Pairwise fun r s => lt r.1 s.1 = true
  mem : ∀ k x, (k, x) ∈ rs ↔ m k = some x

namespace Store

section Definitions
variable [Zero ν]

/-- `a` was made from `p`. -/
def Parent (s : Store ν κ χ) (a p : ν) : Prop := ∃ e, s.entry a = some e ∧ e.parent = p ∧ a ≠ 0

/-- `a` is `b` or was made from it in some steps. -/
def BasedOn (s : Store ν κ χ) (a b : ν) : Prop := Based s.Parent a b

/-- The store with the empty version only. -/
def empty [DecidableEq ν] : Store ν κ χ where
  entry := Function.update (fun _ => none) 0 (some ⟨0, fun _ => none⟩)
  current := 0
  cursors := []

/-- A version is added. -/
def add [DecidableEq ν] (s : Store ν κ χ) (ver : ν) (e : Entry ν κ χ) : Store ν κ χ :=
  { s with entry := Function.update s.entry ver (some e) }

/-- The cursors are others. -/
def withCursors (s : Store ν κ χ) (cursors : List (Cursor ν κ χ)) : Store ν κ χ :=
  { s with cursors := cursors }

/-- What is left when the process is killed. -/
structure Survives (s s' : Store ν κ χ) : Prop where
  entry : ∀ v e, s'.entry v = some e ↔ s.entry v = some e ∧ s.BasedOn s.current v
  current : s'.current = s.current
  cursors : s'.cursors = []

end Definitions

section Events
variable [Zero ν] [DecidableEq ν] [DecidableEq κ] (lt : κ → κ → Bool)

/-- A call and its reply. -/
inductive Step : Store ν κ χ → Call ν κ χ → Reply ν κ χ → Store ν κ χ → Prop where
  | set {s : Store ν κ χ} {ver v : ν} {e : Entry ν κ χ} {k : κ} {x : χ}
      (known : s.entry ver = some e) (fresh : s.entry v = none) :
      Step s (.set ver k x) (.version v) (s.add v ⟨ver, Function.update e.contents k (some x)⟩)
  | del {s : Store ν κ χ} {ver v : ν} {e : Entry ν κ χ} {k : κ} (known : s.entry ver = some e)
      (present : e.contents k ≠ none) (fresh : s.entry v = none) :
      Step s (.del ver k) (.version v) (s.add v ⟨ver, Function.update e.contents k none⟩)
  | delAbsent {s : Store ν κ χ} {ver : ν} {e : Entry ν κ χ} {k : κ}
      (known : s.entry ver = some e) (absent : e.contents k = none) :
      Step s (.del ver k) (.version ver) s
  | get {s : Store ν κ χ} {ver : ν} {e : Entry ν κ χ} {k : κ} (known : s.entry ver = some e) :
      Step s (.get ver k) (.value (e.contents k)) s
  | has {s : Store ν κ χ} {ver : ν} {e : Entry ν κ χ} {k : κ} (known : s.entry ver = some e) :
      Step s (.has ver k) (.flag (e.contents k).isSome) s
  | current {s : Store ν κ χ} : Step s .current (.version s.current) s
  | commit {s : Store ν κ χ} {ver : ν} {e : Entry ν κ χ} (known : s.entry ver = some e)
      (based : s.BasedOn ver s.current) :
      Step s (.commit ver) (.flag true) { s with current := ver }
  | reject {s : Store ν κ χ} {ver : ν} {e : Entry ν κ χ} (known : s.entry ver = some e)
      (based : ¬ s.BasedOn ver s.current) : Step s (.commit ver) (.flag false) s
  | isBasedOn {s : Store ν κ χ} {a b : ν} {r : Bool} (based : r = true ↔ s.BasedOn a b) :
      Step s (.isBasedOn a b) (.flag r) s
  | previousVersion {s : Store ν κ χ} {ver p : ν} (parent : s.Parent ver p) :
      Step s (.previousVersion ver) (.version p) s
  | commonAncestor {s : Store ν κ χ} {a b c : ν} (left : s.BasedOn a c) (right : s.BasedOn b c)
      (nearest : ∀ d, s.BasedOn a d → s.BasedOn b d → s.BasedOn c d) :
      Step s (.commonAncestor a b) (.version c) s
  | newIterator {s : Store ν κ χ} {ver : ν} {e : Entry ν κ χ} {rs : List (κ × χ)}
      (known : s.entry ver = some e) (lists : Listing lt e.contents rs) :
      Step s (.newIterator ver) (.cursor s.cursors.length)
        (s.withCursors (s.cursors ++ [⟨ver, rs⟩]))
  | iterateFrom {s : Store ν κ χ} {ver : ν} {e : Entry ν κ χ} {k : κ} {rs : List (κ × χ)}
      (known : s.entry ver = some e) (lists : Listing lt e.contents rs) :
      Step s (.iterateFrom ver k) (.cursor s.cursors.length)
        (s.withCursors (s.cursors ++ [⟨ver, rs.filter fun r => !lt r.1 k⟩]))
  | iteratorGoto {s : Store ν κ χ} {i : Nat} {c : Cursor ν κ χ} {e : Entry ν κ χ} {k : κ}
      {rs : List (κ × χ)} (opened : s.cursors[i]? = some c) (known : s.entry c.ver = some e)
      (lists : Listing lt e.contents rs) :
      Step s (.iteratorGoto i k) .moved
        (s.withCursors (s.cursors.set i ⟨c.ver, rs.filter fun r => !lt r.1 k⟩))
  | iteratorNext {s : Store ν κ χ} {i : Nat} {c : Cursor ν κ χ} (opened : s.cursors[i]? = some c) :
      Step s (.iteratorNext i) (.record c.rest.head?)
        (s.withCursors (s.cursors.set i ⟨c.ver, c.rest.tail⟩))

/-- An event. A call in the middle of which the process is killed may have been done. -/
inductive Next : Store ν κ χ → Event ν κ χ → Store ν κ χ → Prop where
  | call {s s' : Store ν κ χ} {c : Call ν κ χ} {r : Reply ν κ χ} (step : Step lt s c r s') :
      Next s (.call c r) s'
  | kill {s s' : Store ν κ χ} (pending : Option (Call ν κ χ)) (survives : s.Survives s') :
      Next s (.kill pending) s'
  | killDone {s s₁ s' : Store ν κ χ} {c : Call ν κ χ} {r : Reply ν κ χ} (step : Step lt s c r s₁)
      (survives : s₁.Survives s') : Next s (.kill (some c)) s'

/-- What clients may ask for: versions and cursors that the store has. The empty version has no
parent, and a cursor over it is not moved. -/
def Asks (s : Store ν κ χ) : Call ν κ χ → Prop
  | .set ver _ _ | .del ver _ | .get ver _ | .has ver _ | .commit ver | .newIterator ver =>
    s.entry ver ≠ none
  | .current => True
  | .isBasedOn a b | .commonAncestor a b => s.entry a ≠ none ∧ s.entry b ≠ none
  | .previousVersion ver | .iterateFrom ver _ => s.entry ver ≠ none ∧ ver ≠ 0
  | .iteratorGoto i _ => ∃ c, s.cursors[i]? = some c ∧ c.ver ≠ 0
  | .iteratorNext i => ∃ c, s.cursors[i]? = some c

/-- The process may be killed in the middle of a call that the client may ask for. -/
def Admits (s : Store ν κ χ) : Event ν κ χ → Prop
  | .call c _ | .kill (some c) => s.Asks c
  | .kill none => True

end Events

/-! ## What is kept -/

variable [Zero ν] {lt : κ → κ → Bool}
variable {s s' t : Store ν κ χ} {a b v : ν} {e : Entry ν κ χ}

/-- The version is there with these contents, and the current version is based on it. -/
structure Holds (s : Store ν κ χ) (v : ν) (e : Entry ν κ χ) : Prop where
  entry : s.entry v = some e
  based : s.BasedOn s.current v

theorem Holds.withCursors (h : s.Holds a e) (cursors : List (Cursor ν κ χ)) :
    (s.withCursors cursors).Holds a e := ⟨h.entry, h.based⟩

/-- A version that becomes current is based on what the one before was based on. -/
theorem Holds.commit (h : s.Holds a e) (hbased : s.BasedOn v s.current) :
    Holds { s with current := v } a e := ⟨h.entry, hbased.trans h.based⟩

/-- On the way from the current version down every version survives. -/
theorem Survives.based (h : s.Survives s') (hb : s.BasedOn s.current v) :
    s'.BasedOn s'.current v := by
  rw [h.current]
  induction hb with
  | refl => exact Based.refl _
  | tail hab hp ih =>
    obtain ⟨e, he, hparent⟩ := hp
    have hthere : s'.entry _ = some e := (h.entry _ e).mpr ⟨he, hab⟩
    exact ih.tail ⟨e, hthere, hparent⟩

theorem Survives.holds (h : s.Survives s') (hv : s.Holds v e) : s'.Holds v e :=
  ⟨(h.entry v e).mpr ⟨hv.entry, hv.based⟩, h.based hv.based⟩

section Add
variable [DecidableEq ν]

omit [Zero ν] in
theorem entry_add (hfresh : s.entry v = none) (h : s.entry a = some e) (e' : Entry ν κ χ) :
    (s.add v e').entry a = some e := by
  have hne : a ≠ v := by
    rintro rfl
    rw [hfresh] at h
    cases h
  show Function.update s.entry v (some e') a = some e
  rw [Function.update_of_ne hne]
  exact h

/-- A new version leaves the others with what they are based on. -/
theorem BasedOn.add (hfresh : s.entry v = none) (h : s.BasedOn a b) (e' : Entry ν κ χ) :
    (s.add v e').BasedOn a b :=
  Based.mono (fun _ _ ⟨e, he, hp⟩ => ⟨e, entry_add hfresh he e', hp⟩) h

theorem Holds.add (h : s.Holds a e) (hfresh : s.entry v = none) (e' : Entry ν κ χ) :
    (s.add v e').Holds a e :=
  ⟨entry_add hfresh h.entry e', h.based.add hfresh e'⟩

variable [DecidableEq κ]

/-- A call keeps what the current version is based on. -/
theorem Step.keeps {c : Call ν κ χ} {r : Reply ν κ χ} (h : Step lt s c r s') (hv : s.Holds v e) :
    s'.Holds v e := by
  cases h with
  | set _ fresh => exact hv.add fresh _
  | del _ _ fresh => exact hv.add fresh _
  | commit _ based => exact hv.commit based
  | newIterator => exact hv.withCursors _
  | iterateFrom => exact hv.withCursors _
  | iteratorGoto => exact hv.withCursors _
  | iteratorNext => exact hv.withCursors _
  | _ => exact hv

/-- An event keeps what the current version is based on. -/
theorem Next.keeps {ev : Event ν κ χ} (h : Next lt s ev s') (hv : s.Holds v e) : s'.Holds v e := by
  cases h with
  | call step => exact step.keeps hv
  | kill _ survives => exact survives.holds hv
  | killDone step survives => exact survives.holds (step.keeps hv)

/-- What the current version is based on is kept by every run. -/
theorem Holds.run {es : List (Event ν κ χ)} (hv : s.Holds v e) (hrun : Runs (Next lt) s es t) :
    t.Holds v e := by
  refine Runs.invariant (I := fun s₁ => s₁.Holds v e) ?_ hrun hv
  intro s₁ ev s₂ hv₁ hnext
  exact hnext.keeps hv₁

/-- After a commit the version is there in every later state, with its contents, and the current
version is based on it: later commits and the end of the process lose nothing. -/
theorem committed_kept {es : List (Event ν κ χ)} (hcommit : Step lt s (.commit v) (.flag true) s')
    (hrun : Runs (Next lt) s' es t) : ∃ e, s.entry v = some e ∧ t.Holds v e := by
  cases hcommit with
  | @commit _ _ known _ =>
    have hnow : Holds { s with current := v } v _ := ⟨known, Based.refl v⟩
    exact ⟨_, known, hnow.run hrun⟩

/-! ## What clients are given -/

omit [Zero ν] [DecidableEq κ] in
theorem add_known (h : s.entry a ≠ none) (v : ν) (e : Entry ν κ χ) :
    (s.add v e).entry a ≠ none := by
  show Function.update s.entry v (some e) a ≠ none
  rcases eq_or_ne a v with rfl | hne
  · rw [Function.update_self]
    exact Option.some_ne_none e
  · rw [Function.update_of_ne hne]
    exact h

/-- A call loses no version. -/
theorem Step.known {c : Call ν κ χ} {r : Reply ν κ χ} (h : Step lt s c r s')
    (hv : s.entry v ≠ none) : s'.entry v ≠ none := by
  cases h with
  | set => exact add_known hv _ _
  | del => exact add_known hv _ _
  | _ => exact hv

/-- The versions that are named in the store are there. -/
structure Closed (s : Store ν κ χ) : Prop where
  current : s.entry s.current ≠ none
  parent : ∀ {a p : ν}, s.Parent a p → s.entry p ≠ none

omit [DecidableEq κ] in
theorem closed_empty : (empty : Store ν κ χ).Closed where
  current := by simp [empty]
  parent := by
    rintro a p ⟨e, he, -, ha⟩
    simp [empty, ha] at he

omit [DecidableEq κ] in
theorem Closed.add (hs : s.Closed) {ver : ν} (hver : s.entry ver ≠ none) (v : ν)
    (m : κ → Option χ) : (s.add v ⟨ver, m⟩).Closed where
  current := add_known hs.current v _
  parent := by
    rintro a p ⟨e, he, rfl, ha⟩
    refine add_known ?_ v _
    change Function.update s.entry v (some ⟨ver, m⟩) a = some e at he
    rcases eq_or_ne a v with rfl | hne
    · rw [Function.update_self] at he
      cases he
      exact hver
    · rw [Function.update_of_ne hne] at he
      exact hs.parent ⟨e, he, rfl, ha⟩

theorem Step.closed {c : Call ν κ χ} {r : Reply ν κ χ} (h : Step lt s c r s') (hs : s.Closed) :
    s'.Closed := by
  cases h with
  | set known => exact hs.add (Option.ne_none_iff_exists'.mpr ⟨_, known⟩) _ _
  | del known => exact hs.add (Option.ne_none_iff_exists'.mpr ⟨_, known⟩) _ _
  | commit known => exact ⟨Option.ne_none_iff_exists'.mpr ⟨_, known⟩, hs.parent⟩
  | _ => exact ⟨hs.current, hs.parent⟩

omit [DecidableEq ν] [DecidableEq κ] in
theorem Survives.closed (h : s.Survives s') (hs : s.Closed) : s'.Closed where
  current := by
    obtain ⟨e, he⟩ := Option.ne_none_iff_exists'.mp hs.current
    rw [h.current, (h.entry _ e).mpr ⟨he, Based.refl _⟩]
    exact Option.some_ne_none e
  parent := by
    rintro a p ⟨e, he, hp, ha⟩
    obtain ⟨hthere, hbased⟩ := (h.entry a e).mp he
    have hparent : s.Parent a p := ⟨e, hthere, hp, ha⟩
    obtain ⟨e', he'⟩ := Option.ne_none_iff_exists'.mp (hs.parent hparent)
    rw [(h.entry p e').mpr ⟨he', hbased.tail hparent⟩]
    exact Option.some_ne_none e'

/-- A commit that is accepted. -/
theorem Step.committed (h : Step lt s (.commit v) (.flag true) s') : ∃ e, s'.Holds v e := by
  cases h with
  | commit known => exact ⟨_, known, Based.refl v⟩

omit [DecidableEq ν] [DecidableEq κ] in
/-- What a version is based on is there too. -/
theorem Closed.basedOn (hs : s.Closed) (h : s.BasedOn a b) (ha : s.entry a ≠ none) :
    s.entry b ≠ none :=
  Based.inherit (p := fun v => s.entry v ≠ none) (fun hp _ => hs.parent hp) h ha

end Add

end Store

end VersionStores
