import Aodbm.Run
import Aodbm.Lib.Waiting
import Aodbm.SharedMap

/-!
# Mapped reads of many threads

What holds of the threads on one mapping in every state of every interleaving. Each thread has a
ghost state, which says what it may rely on: the file and the mapping grow, `mapping_size` stays
while it has `mmap_mut`, and what it has mapped is there until `mapping_size` is set.

Results:
1. `Gripped.effect`: every effect of a thread leaves the others what they rely on.
2. `mapping_safe`: no thread copies from outside of the mapping, or while it is replaced.
3. `mapping_ends`: the calls come to an end.
4. `mapping_reads`: what a read gives, whatever the other threads do meanwhile.
-/

namespace Aodbm

open Effects Mutexes Interleaving Threads

variable {n : Nat} {P : Platform}

/-! ## All threads -/

/-- The handle in order, with a mapping of this length. -/
structure Mapped.Whole (m : Mapped) (region : Nat) : Prop where
  synced : m.db.Synced
  flushed : m.flushed ≤ m.db.file.length
  unmapped : m.mapped = false → m.mappingSize = 0
  /-- The mapping is no shorter than `mapping_size`, and no longer than the file. -/
  covers : m.mappingSize ≤ region
  inside : region ≤ m.db.file.length

/-- The handle of any thread grows. -/
structure Mapped.Grows (m m' : Mapped) : Prop where
  file : m.db.file <+: m'.db.file
  flushed : m.flushed ≤ m'.flushed
  size : m.mappingSize ≤ m'.mappingSize

/-- What a thread knows of the handle. -/
structure Knows (m : Mapped) (region : Nat) (o : Grip) : Prop where
  size : o.size ≤ m.db.file.length
  low : o.low ≤ m.mappingSize
  exact : ∀ k ∈ o.exact, o.access.holds ∧ k = m.mappingSize
  pending : ∀ k ∈ o.pending, o.access = .writes ∧ k = region ∧ m.mapped = true
  began : o.began.db.file <+: m.db.file
  flushed : o.began.flushed ≤ m.flushed
  file : o.file <+: m.db.file

structure Gripped (s : SharedMap n) (g : Fin n → Grip) : Prop where
  whole : s.map.Whole s.region
  counted : (lockState s.lock fun t => (g t).access).Counted
  depth : ∀ t, (g t).depth = s.rw.depth t
  knows : ∀ t, Knows s.map s.region (g t)

variable {m m' : Mapped} {region region' : Nat} {o : Grip} {off sz : Nat}

theorem Mapped.Grows.refl (m : Mapped) : m.Grows m :=
  ⟨List.prefix_rfl, Nat.le_refl _, Nat.le_refl _⟩

theorem Mapped.Whole.ok (h : m.Whole region) : m.Ok :=
  ⟨h.synced, h.flushed, h.covers.trans h.inside, h.unmapped⟩

theorem Mapped.Whole.flush (h : m.Whole region) : m.flush.Whole region :=
  ⟨h.synced, Nat.le_refl _, h.unmapped, h.covers, h.inside⟩

theorem Mapped.Whole.write (h : m.Whole region) {bs : Data}
    (hfits : m.db.file.length + bs.length < 2 ^ 63) : (m.write P bs).Whole region := by
  obtain ⟨hsynced, hflushed, -, hunmapped⟩ := h.ok.write (P := P) hfits
  refine ⟨hsynced, hflushed, hunmapped, h.covers, h.inside.trans ?_⟩
  simp only [Mapped.write, Db.append, List.length_append, Nat.le_add_right]

theorem Mapped.Whole.flush_grows (h : m.Whole region) : m.Grows m.flush :=
  ⟨List.prefix_rfl, h.flushed, Nat.le_refl _⟩

theorem Mapped.write_grows (m : Mapped) (bs : Data) : m.Grows (m.write P bs) :=
  ⟨List.prefix_append _ _, Nat.le_max_left _ _, Nat.le_refl _⟩

namespace Knows

/-- What the other threads do to the handle. -/
theorem mono (h : Knows m region o) (hgrows : m.Grows m')
    (hsame : o.access.holds → m'.mappingSize = m.mappingSize ∧ region' = region ∧
      m'.mapped = m.mapped) : Knows m' region' o where
  size := h.size.trans hgrows.file.length_le
  low := h.low.trans hgrows.size
  exact := by
    intro k hk
    obtain ⟨hholds, rfl⟩ := h.exact k hk
    exact ⟨hholds, (hsame hholds).1.symm⟩
  pending := by
    intro k hk
    obtain ⟨hwrites, rfl, hmapped⟩ := h.pending k hk
    obtain ⟨-, hregion, hsame⟩ := hsame (by rw [hwrites]; rfl)
    exact ⟨hwrites, hregion.symm, hsame.trans hmapped⟩
  began := h.began.trans hgrows.file
  flushed := h.flushed.trans hgrows.flushed
  file := h.file.trans hgrows.file

theorem moves (h : Knows m region o) (hout : o.access.holds = false) (a : Access) :
    Knows m region { o with access := a } where
  size := h.size
  low := h.low
  exact := by
    intro k hk
    rw [(h.exact k hk).1] at hout
    cases hout
  pending := by
    intro k hk
    rw [(h.pending k hk).1] at hout
    cases hout
  began := h.began
  flushed := h.flushed
  file := h.file

end Knows

/-! ## What is found -/

theorem Found.mono {began : Mapped} {file file' : Data} {r : Option Data}
    (h : Found began file off sz r) (hfile : file <+: file') : Found began file' off sz r where
  eof := h.eof
  bytes := by
    intro bs hbs
    obtain ⟨hlen, hinside, hbytes⟩ := h.bytes bs hbs
    refine ⟨hlen, fun hpos => (hinside hpos).trans hfile.length_le, fun i hi => ?_⟩
    have hlt : off + i < file.length :=
      (Nat.add_lt_add_left hi off).trans_le (hinside (Nat.zero_lt_of_lt hi))
    rcases hbytes i hi with hsame | hzero
    · rw [hsame, List.getElem?_eq_getElem hlt, hfile.getElem hlt]
      exact .inl (List.getElem?_eq_getElem _).symm
    · exact .inr hzero

/-- From the stream. -/
theorem Knows.found_seek (h : Knows m region o) (off sz : Nat) :
    Found o.began m.db.file off sz (readFile m.db.file off sz) where
  eof := by
    intro hnone
    by_contra hge
    obtain ⟨bs, hbs⟩ := readFile_inside ((Nat.not_lt.mp hge).trans h.began.length_le)
    rw [hnone] at hbs
    cases hbs
  bytes := by
    intro bs hbs
    obtain ⟨hlen, hbytes⟩ := readFile_iff.mp hbs
    refine ⟨hlen, fun hpos => ?_, fun i hi => .inl (hbytes i hi).symm⟩
    obtain ⟨rfl, hlen⟩ := readFile_eq_some hbs
    rw [List.length_take, List.length_drop] at hlen
    omega

/-- From the mapping. -/
theorem Knows.found_copy (h : Knows m region o) (hwhole : m.Whole region)
    (hlow : off + sz ≤ o.low) {bs : Data} (hbs : readFile (m.shown P) off sz = some bs) :
    Found o.began m.db.file off sz (some bs) where
  eof := nofun
  bytes := by
    rintro _ ⟨⟩
    obtain ⟨hlen, hbytes⟩ := readFile_iff.mp hbs
    refine ⟨hlen, fun _ => ?_, fun i hi => ?_⟩
    · exact ((hlow.trans h.low).trans hwhole.covers).trans hwhole.inside
    · have hshown := hbytes i hi
      rw [shown_getElem hwhole.ok] at hshown
      by_cases hflushed : off + i < m.flushed
      · rw [if_pos hflushed] at hshown
        exact .inl hshown.symm
      · rw [if_neg hflushed] at hshown
        have hbuffer := h.flushed.trans (Nat.not_lt.mp hflushed)
        by_cases hpage : off + i < pagesEnd P m.flushed
        · rw [if_pos hpage] at hshown
          exact .inr ⟨hshown.symm, hbuffer⟩
        · rw [if_neg hpage, List.getElem?_eq_getElem (hlen.symm ▸ hi)] at hshown
          cases hshown

/-! ## The effects -/

section Effects
variable {s s' : SharedMap n} {g : Fin n → Grip} {t u : Fin n} {own : Grip}

theorem Gripped.holds_alone (h : Gripped s g) (ht : (g t).access = .writes)
    (hu : (g u).access.holds) : u = t :=
  alone_of_writes h.counted ht hu

/-- A thread does something, and only who writes does it to the mapping. -/
theorem Gripped.update (h : Gripped s g) (hwhole : s'.map.Whole s'.region)
    (hgrows : s.map.Grows s'.map)
    (hcounted : (lockState s'.lock
      (Function.update (fun u => (g u).access) t own.access)).Counted)
    (hdepth : own.depth = s'.rw.depth t) (hdepths : ∀ u, u ≠ t → s'.rw.depth u = s.rw.depth u)
    (hown : Knows s'.map s'.region own)
    (hsame : (g t).access = .writes ∨ s'.map.mappingSize = s.map.mappingSize ∧
      s'.region = s.region ∧ s'.map.mapped = s.map.mapped) :
    Gripped s' (Function.update g t own) where
  whole := hwhole
  counted := by
    have hcomp : (fun u => (Function.update g t own u).access) =
        Function.update (fun u => (g u).access) t own.access :=
      Function.comp_update Grip.access g t own
    rw [hcomp]
    exact hcounted
  depth := by
    refine (Function.forall_update_iff g fun u o => o.depth = s'.rw.depth u).mpr
      ⟨hdepth, fun u hu => ?_⟩
    rw [h.depth, hdepths u hu]
  knows := by
    refine (Function.forall_update_iff g fun _ o => Knows s'.map s'.region o).mpr
      ⟨hown, fun u hu => (h.knows u).mono hgrows fun hholds => ?_⟩
    rcases hsame with hwrites | hsame
    · exact absurd (h.holds_alone hwrites hholds) hu
    · exact hsame

/-- It leaves `mmap_mut` and `rw` alone. -/
theorem Gripped.works (h : Gripped s g) (hlock : s'.lock = s.lock) (hrw : s'.rw = s.rw)
    (hwhole : s'.map.Whole s'.region) (hgrows : s.map.Grows s'.map)
    (haccess : own.access = (g t).access) (hdepth : own.depth = (g t).depth)
    (hown : Knows s'.map s'.region own)
    (hsame : (g t).access = .writes ∨ s'.map.mappingSize = s.map.mappingSize ∧
      s'.region = s.region ∧ s'.map.mapped = s.map.mapped) :
    Gripped s' (Function.update g t own) := by
  refine h.update hwhole hgrows ?_ ?_ (fun u _ => by rw [hrw]) hown hsame
  · rw [hlock, haccess, Function.update_eq_self_iff.mpr rfl]
    exact h.counted
  · rw [hdepth, h.depth, hrw]

/-- It learns something. -/
theorem Gripped.learns (h : Gripped s g) (haccess : own.access = (g t).access)
    (hdepth : own.depth = (g t).depth) (hown : Knows s.map s.region own) :
    Gripped s (Function.update g t own) :=
  h.works rfl rfl h.whole (.refl _) haccess hdepth hown (.inr ⟨rfl, rfl, rfl⟩)

/-- It takes `mmap_mut` or gives it back. -/
theorem Gripped.accesses (h : Gripped s g) {lock : Rwlock}
    (hcounted : (lockState lock
      (Function.update (fun u => (g u).access) t own.access)).Counted)
    (hdepth : own.depth = (g t).depth) (hown : Knows s.map s.region own) :
    Gripped { s with lock := lock } (Function.update g t own) :=
  h.update h.whole (.refl _) hcounted (hdepth.trans (h.depth t)) (fun _ _ => rfl) hown
    (.inr ⟨rfl, rfl, rfl⟩)

theorem Knows.unlocks (h : Knows s.map s.region (g t)) (hpending : (g t).pending = none) :
    Knows s.map s.region { g t with access := .outside, exact := none } where
  size := h.size
  low := h.low
  exact := nofun
  pending := by
    intro k hk
    rw [show (g t).pending = some k from hk] at hpending
    cases hpending
  began := h.began
  flushed := h.flushed
  file := h.file

/-- `mmap` or `mremap`. -/
theorem Gripped.maps (h : Gripped s g) (ht : (g t).access = .writes) {k : Nat}
    (hsize : k ≤ (g t).size) (hexact : ∃ j ∈ (g t).exact, j ≤ k) :
    Gripped { s with map := { s.map with mapped := true }, region := k }
      (Function.update g t { g t with pending := some k }) := by
  have hknows := h.knows t
  obtain ⟨j, hj, hle⟩ := hexact
  have hcovers : s.map.mappingSize ≤ k := (hknows.exact j hj).2 ▸ hle
  have hinside := hsize.trans hknows.size
  refine h.works rfl rfl ⟨h.whole.synced, h.whole.flushed, nofun, hcovers, hinside⟩
    ⟨List.prefix_rfl, Nat.le_refl _, Nat.le_refl _⟩ rfl rfl ?_ (.inl ht)
  refine ⟨hknows.size, hknows.low, hknows.exact, ?_, hknows.began, hknows.flushed, hknows.file⟩
  rintro _ ⟨⟩
  exact ⟨ht, rfl, rfl⟩

/-- `mapping_size` is set to the length of the mapping. -/
theorem Gripped.sets (h : Gripped s g) (ht : (g t).access = .writes) {k : Nat}
    (hpending : (g t).pending = some k) :
    Gripped { s with map := { s.map with mappingSize := k } }
      (Function.update g t { g t with low := k, exact := some k, pending := none }) := by
  have hknows := h.knows t
  obtain ⟨-, rfl, hmapped⟩ := hknows.pending k hpending
  refine h.works rfl rfl ⟨h.whole.synced, h.whole.flushed, ?_, Nat.le_refl _, h.whole.inside⟩
    ⟨List.prefix_rfl, Nat.le_refl _, h.whole.covers⟩ rfl rfl ?_ (.inl ht)
  · intro hnot
    rw [show s.map.mapped = false from hnot] at hmapped
    cases hmapped
  · refine ⟨hknows.size, Nat.le_refl _, ?_, nofun, hknows.began, hknows.flushed, hknows.file⟩
    rintro _ ⟨⟩
    exact ⟨by rw [ht]; rfl, rfl⟩

/-- The thread has read the file, or the mapping. -/
theorem Gripped.finds (h : Gripped s g) :
    Gripped s (Function.update g t { g t with file := s.map.db.file }) := by
  have hknows := h.knows t
  exact h.learns rfl rfl ⟨hknows.size, hknows.low, hknows.exact, hknows.pending, hknows.began,
    hknows.flushed, List.prefix_rfl⟩

theorem Gripped.copies (h : Gripped s g) {bs : Data} (hlow : off + sz ≤ (g t).low)
    (he : SharedMap.handle P t (.eff (.copy off sz)) s = .ok (bs, s')) :
    s' = s ∧ Found (g t).began s.map.db.file off sz (some bs) := by
  simp only [SharedMap.handle] at he
  split at he
  · next hzero =>
    cases he
    refine ⟨rfl, nofun, ?_⟩
    rintro _ ⟨⟩
    exact ⟨hzero.symm, fun hpos => absurd hzero hpos.ne', fun i hi => absurd hzero hi.ne_bot⟩
  · split at he
    · cases he
    · split at he
      · next hbs =>
        cases he
        exact ⟨rfl, (h.knows t).found_copy h.whole hlow hbs⟩
      · cases he

/-- It takes `rw` or gives it back. -/
theorem Gripped.locks (h : Gripped s g) {rw : RecMutex (Fin n)} {depth : Nat}
    (hdepth : depth = rw.depth t) (hdepths : ∀ u, u ≠ t → rw.depth u = s.rw.depth u) :
    Gripped { s with rw := rw } (Function.update g t { g t with depth := depth }) := by
  have hknows := h.knows t
  refine h.update h.whole (.refl _) ?_ hdepth hdepths ?_ (.inr ⟨rfl, rfl, rfl⟩)
  · rw [Function.update_eq_self_iff.mpr rfl]
    exact h.counted
  · exact ⟨hknows.size, hknows.low, hknows.exact, hknows.pending, hknows.began, hknows.flushed,
      hknows.file⟩

theorem Gripped.seeks (h : Gripped s g) : Gripped { s with map := s.map.flush }
    (Function.update g t { g t with file := s.map.db.file }) := by
  have hgrows := h.whole.flush_grows
  have hknows : Knows s.map.flush s.region (g t) :=
    (h.knows t).mono hgrows fun _ => ⟨rfl, rfl, rfl⟩
  refine h.works rfl rfl h.whole.flush hgrows rfl rfl ?_ (.inr ⟨rfl, rfl, rfl⟩)
  exact ⟨hknows.size, hknows.low, hknows.exact, hknows.pending, hknows.began, hknows.flushed,
    List.prefix_rfl⟩

/-- The thread reads `mapping`, which is `NULL` as long as nothing is mapped. -/
theorem Gripped.reads_mapping (h : Gripped s g) (hholds : (g t).access.holds) :
    Gripped s (Function.update g t
      { g t with exact := if s.map.mapped then (g t).exact else some 0 }) := by
  have hknows := h.knows t
  refine h.learns rfl rfl ⟨hknows.size, hknows.low, ?_, hknows.pending, hknows.began,
    hknows.flushed, hknows.file⟩
  intro k hk
  cases hmapped : s.map.mapped with
  | false =>
    simp only [hmapped] at hk
    cases hk
    exact ⟨hholds, (h.whole.unmapped hmapped).symm⟩
  | true =>
    simp only [hmapped] at hk
    exact hknows.exact k hk

theorem Gripped.reads_size (h : Gripped s g) (hholds : (g t).access.holds) :
    Gripped s (Function.update g t
      { g t with low := s.map.mappingSize, exact := some s.map.mappingSize }) := by
  have hknows := h.knows t
  refine h.learns rfl rfl ⟨hknows.size, Nat.le_refl _, ?_, hknows.pending, hknows.began,
    hknows.flushed, hknows.file⟩
  rintro _ ⟨⟩
  exact ⟨hholds, rfl⟩

/-- An effect of a thread. -/
theorem Gripped.effect (hn : n < 2 ^ 64) {e : SEff} {Q : e.Res → Grip → Prop} {r : e.Res}
    (h : Gripped s g) (hS : gripSpec e Q (g t)) (he : SharedMap.handle P t e s = .ok (r, s')) :
    ∃ own, Gripped s' (Function.update g t own) ∧ own.began = (g t).began ∧ Q r own := by
  have hknows := h.knows t
  cases e with
  | enterWrlock =>
    cases he
    obtain ⟨hout, hQ⟩ := hS
    have hnot : (g t).access.holds = false := by rw [hout]; rfl
    exact ⟨{ g t with access := .enters }, h.accesses (counted_enter hn h.counted hout) rfl
      (hknows.moves hnot _), rfl, hQ⟩
  | write bs =>
    simp only [SharedMap.handle] at he
    split at he
    · next hfits =>
      cases he
      have hgrows := s.map.write_grows (P := P) bs
      exact ⟨g t, h.works rfl rfl (h.whole.write hfits) hgrows rfl rfl
        (hknows.mono hgrows fun _ => ⟨rfl, rfl, rfl⟩) (.inr ⟨rfl, rfl, rfl⟩), rfl, hS.2⟩
    · cases he
  | flush =>
    cases he
    have hgrows := h.whole.flush_grows
    exact ⟨g t, h.works rfl rfl h.whole.flush hgrows rfl rfl
      (hknows.mono hgrows fun _ => ⟨rfl, rfl, rfl⟩) (.inr ⟨rfl, rfl, rfl⟩), rfl, hS.2⟩
  | eff e =>
    cases e with
    | rdlock =>
      simp only [SharedMap.handle] at he
      split at he
      · cases he
      · next hfree =>
        cases he
        obtain ⟨hout, hQ⟩ := hS
        have hnot : (g t).access.holds = false := by rw [hout]; rfl
        have hcounted := counted_rdlock hn h.counted hout (Bool.eq_false_of_not_eq_true hfree)
        exact ⟨{ g t with access := .reads }, h.accesses hcounted rfl (hknows.moves hnot _), rfl,
          hQ⟩
    | wrlock =>
      simp only [SharedMap.handle] at he
      split at he
      · cases he
      · next hfree =>
        cases he
        obtain ⟨henters, hQ⟩ := hS
        have hnot : (g t).access.holds = false := by rw [henters]; rfl
        have hcounted := counted_wrlock hn h.counted henters (Bool.eq_false_of_not_eq_true hfree)
        exact ⟨{ g t with access := .writes }, h.accesses hcounted rfl (hknows.moves hnot _), rfl,
          hQ⟩
    | unlock =>
      obtain ⟨hholds, hpending, hQ⟩ := hS
      obtain ⟨hreturns, hcounted⟩ := counted_unlock h.counted hholds
      simp only [SharedMap.handle, if_pos hreturns] at he
      cases he
      exact ⟨{ g t with access := .outside, exact := none }, h.accesses hcounted rfl
        (hknows.unlocks hpending), rfl, hQ⟩
    | lockRw =>
      simp only [SharedMap.handle] at he
      split at he
      · next rw hrw =>
        cases he
        refine ⟨{ g t with depth := (g t).depth + 1 }, h.locks ?_ fun u hu =>
          depth_lock_other hu.symm hrw, rfl, hS.2⟩
        rw [depth_lock hrw, h.depth]
      · cases he
    | unlockRw =>
      cases he
      refine ⟨{ g t with depth := (g t).depth - 1 }, h.locks ?_ fun u hu =>
        depth_unlock_other hu.symm, rfl, hS.2⟩
      rw [depth_unlock, h.depth]
    | getFileSize =>
      cases he
      refine ⟨{ g t with size := s.map.db.fileSize }, h.learns rfl rfl ?_, rfl, hS _⟩
      exact ⟨h.whole.synced.size.le, hknows.low, hknows.exact, hknows.pending, hknows.began,
        hknows.flushed, hknows.file⟩
    | getMapping =>
      cases he
      exact ⟨_, h.reads_mapping hS.1, rfl, hS.2 _⟩
    | getMappingSize =>
      cases he
      exact ⟨_, h.reads_size hS.1, rfl, hS.2 _ hknows.low⟩
    | setMappingSize k =>
      cases he
      exact ⟨_, h.sets hS.1 hS.2.1, rfl, hS.2.2⟩
    | mmap k =>
      cases he
      exact ⟨_, h.maps hS.1 hS.2.1 hS.2.2.1, rfl, hS.2.2.2⟩
    | mremap k =>
      cases he
      exact ⟨_, h.maps hS.1 hS.2.1 hS.2.2.1, rfl, hS.2.2.2⟩
    | copy off sz =>
      obtain ⟨rfl, hfound⟩ := h.copies hS.2.1 he
      exact ⟨_, h.finds, rfl, hS.2.2 _ _ hfound⟩
    | seekAndRead off sz =>
      cases he
      exact ⟨_, h.seeks, rfl, hS.2 _ _ (hknows.found_seek off sz)⟩

end Effects

/-! ## Runs -/

variable {p : Mappers n} {g : Fin n → Grip} {t u : Fin n}
  {es : List (Visible (Fin n) MapJob (Option Data))}

variable (P) in
/-- All threads together; `began` is fixed for each. -/
def grips (hn : n < 2 ^ 64) (began : Fin n → Mapped) :
    TraceProof (mappers P n) MapJob.Fits Grip where
  spec := gripSpec
  Holds s _ g := Gripped s g ∧ ∀ t, (g t).began = began t
  post := Grip.Ends
  Ready := Grip.Ready
  effect := by
    intro t e Q s s' es g r h hS he
    obtain ⟨own, hgripped, hbegan, hQ⟩ := h.1.effect hn hS he
    refine ⟨own, ⟨hgripped, ?_⟩, hQ⟩
    exact (Function.forall_update_iff g fun u o => o.began = began u).mpr
      ⟨hbegan.trans (h.2 t), fun u _ => h.2 u⟩
  call := by
    intro t job s es g h hready hfits
    rw [← Function.update_eq_self t g] at h
    exact ⟨g t, h, Grip.wp_op hready hfits⟩
  ret := by
    intro t job a s es g h hends
    rw [← Function.update_eq_self t g] at h
    exact ⟨g t, h, hends.toReady⟩

theorem counted_start (hn : n < 2 ^ 64) :
    (lockState aodbmRwlockInit fun _ : Fin n => .outside).Counted := by
  have hrange := inRange_lockState hn aodbmRwlockInit fun _ : Fin n => .outside
  have hnone : ∀ w : RwThread → Nat, w Access.outside.thread = 0 →
      total w (lockState aodbmRwlockInit fun _ : Fin n => .outside).threads = 0 := by
    intro w hw
    rw [lockState, List.ofFn_const, total_replicate, hw, Nat.mul_zero]
  exact ⟨hrange, (hnone RwThread.readLocks rfl).symm, (hnone RwThread.writeLocks rfl).symm,
    fun hwriting => absurd hwriting Bool.false_ne_true,
    (hnone (fun th => th.place.writers) rfl).symm⟩

/-- What the threads may rely on in every state of every interleaving. -/
theorem gripped_of_trace (hn : n < 2 ^ 64) (hm : m.Ok)
    (hrun : Traces (Moves (mappers P n) MapJob.Fits) (Mappers.start m) es p) :
    ∃ g, (grips P hn fun _ => m).Inv p es g := by
  have hknows : Knows m m.mappingSize ⟨.outside, 0, 0, 0, none, none, m, []⟩ :=
    ⟨Nat.zero_le _, Nat.zero_le _, nofun, nofun, List.prefix_rfl, Nat.le_refl _, List.nil_prefix⟩
  have hstart : Gripped (Mappers.start m : Mappers n).shared
      fun _ => ⟨.outside, 0, 0, 0, none, none, m, []⟩ :=
    ⟨⟨hm.synced, hm.flushed, hm.unmapped, Nat.le_refl _, hm.mapping⟩, counted_start hn,
      fun _ => rfl, fun _ => hknows⟩
  exact TraceProof.trace (P := grips P hn fun _ => m) ⟨hstart, fun _ => rfl⟩
    (fun _ => ⟨⟨rfl, rfl⟩, rfl⟩) hrun

/-! ## Safety -/

/-- The thread is about to have this effect. -/
def Mappers.Next (p : Mappers n) (t : Fin n) (e : SEff) : Prop :=
  ∃ job k seen, p.clients t = some ⟨job, .op e k, seen⟩

/-- The mapping is replaced, or its length is set. -/
def SEff.Remaps : SEff → Prop
  | .eff (.mmap _) | .eff (.mremap _) | .eff (.setMappingSize _) => True
  | _ => False

theorem shown_length (m : Mapped) (h : m.flushed ≤ m.db.file.length) :
    (m.shown P).length = pagesEnd P m.flushed := by
  rw [Mapped.shown, List.length_append, List.length_take_of_le h, List.length_replicate]
  exact Nat.add_sub_cancel' (le_pagesEnd _)

/-- A copy from the mapping succeeds if the end of the range is not behind the last page of the
bytes that have left the buffer. -/
theorem copy_iff {s : SharedMap n} (hwhole : s.map.Whole s.region) (hin : off + sz ≤ s.region) :
    (∃ r, SharedMap.handle P t (.eff (.copy off sz)) s = .ok r) ↔
      sz = 0 ∨ off + sz ≤ pagesEnd P s.map.flushed := by
  simp only [SharedMap.handle]
  rcases Nat.eq_zero_or_pos sz with rfl | hpos
  · simp
  · rw [if_neg hpos.ne', if_neg (Nat.not_lt.mpr hin), or_iff_right hpos.ne',
      ← shown_length s.map hwhole.flushed]
    constructor
    · rintro ⟨r, hr⟩
      split at hr
      · next bs hbs =>
        obtain ⟨rfl, hlen⟩ := readFile_eq_some hbs
        rw [List.length_take, List.length_drop] at hlen
        omega
      · cases hr
    · intro hle
      obtain ⟨bs, hbs⟩ := readFile_inside hle
      exact ⟨_, by rw [hbs]⟩

section Opened
variable {B : Build} {file : Data} (hn : n < 2 ^ 64) (hfile : file.length < 2 ^ 63)
  (hopen : aodbmOpenMmap P B file = .ok m)
  (hrun : Traces (Moves (mappers P n) MapJob.Fits) (Mappers.start m) es p)
include hn hfile hopen hrun

/-- In every state of every interleaving: who unlocks `mmap_mut` has it, and who copies from the
mapping copies from inside of it, while no thread replaces it. The copy fails only if the bytes are
on a page that is not in the file yet. -/
theorem mapping_safe :
    (∀ t, p.Next t (.eff .unlock) → ∃ r, SharedMap.handle P t (.eff .unlock) p.shared = .ok r) ∧
    ∀ t off sz, p.Next t (.eff (.copy off sz)) →
      off + sz ≤ p.shared.region ∧ (∀ u e, p.Next u e → ¬ e.Remaps) ∧
      ((∃ r, SharedMap.handle P t (.eff (.copy off sz)) p.shared = .ok r) ↔
        sz = 0 ∨ off + sz ≤ pagesEnd P p.shared.map.flushed) := by
  obtain ⟨g, hinv⟩ := gripped_of_trace hn (open_ok hfile hopen) hrun
  obtain ⟨hgripped, -⟩ : Gripped p.shared g ∧ _ := hinv.holds
  constructor
  · rintro t ⟨job, k, seen, hclient⟩
    obtain ⟨hholds, -, -⟩ := hinv.rest t _ hclient
    obtain ⟨hreturns, -⟩ := counted_unlock hgripped.counted hholds
    exact ⟨_, if_pos hreturns⟩
  · rintro t off sz ⟨job, k, seen, hclient⟩
    obtain ⟨hreads, hlow, -⟩ := hinv.rest t _ hclient
    have hin : off + sz ≤ p.shared.region :=
      (hlow.trans (hgripped.knows t).low).trans hgripped.whole.covers
    refine ⟨hin, ?_, copy_iff hgripped.whole hin⟩
    rintro u e ⟨job', k', seen', hclient'⟩ hremaps
    have hwp := hinv.rest u _ hclient'
    have hwrites : (g u).access = .writes := by
      cases e with
      | eff e =>
        cases e with
        | mmap k => exact hwp.1
        | mremap k => exact hwp.1
        | setMappingSize k => exact hwp.1
        | _ => cases hremaps
      | _ => cases hremaps
    -- who writes is alone
    have hsame := hgripped.holds_alone hwrites (Grip.holds_of_reads hreads)
    subst hsame
    rw [hreads] at hwrites
    cases hwrites

end Opened

/-- Pages of 32 bytes. -/
def smallPages : Platform := ⟨32, by decide, 0, fun _ => 0⟩

/-- The file of the short run is opened; the mapping is 64 bytes long. -/
def shortMapped : Mapped := ⟨shortRun.db, 75, true, 64⟩

theorem shortMapped_open :
    aodbmOpenMmap smallPages smallBuild shortRun.db.file = .ok shortMapped := by
  decide +kernel

theorem read_fits : (MapJob.read 0 4).Fits := by
  rintro _ ⟨⟩
  decide

/-- Thread 1 reads the first bytes of the file. -/
def reading : Mappers 2 where
  shared := ⟨shortMapped, 64, aodbmRwlockInit, .free⟩
  clients := Function.update (fun _ => none) 1
    (some ⟨.read 0 4, (MapJob.read 0 4).op smallPages, []⟩)
  log := []

theorem reading_called : Moves (mappers smallPages 2) MapJob.Fits (Mappers.start shortMapped)
    (some (.call 1 (.read 0 4))) reading := .call rfl read_fits

/-- It is about to copy them. -/
theorem copying_reached : ∃ p : Mappers 2, Traces (Moves (mappers smallPages 2) MapJob.Fits)
    (Mappers.start shortMapped) [.call 1 (.read 0 4)] p ∧ p.Next 1 (.eff (.copy 0 4)) := by
  have hlock : Moves (mappers smallPages 2) MapJob.Fits reading none _ :=
    .effect (t := 1) rfl rfl
  exact ⟨_, .seen reading_called (.silent hlock (.silent (.effect (t := 1) rfl rfl) (.nil _))),
    _, _, _, rfl⟩

theorem mapping_safe_copying : ∃ p : Mappers 2, p.Next 1 (.eff (.copy 0 4)) ∧
    0 + 4 ≤ p.shared.region ∧ ∀ u e, p.Next u e → ¬ e.Remaps := by
  obtain ⟨p, hrun, hnext⟩ := copying_reached
  obtain ⟨-, hcopy⟩ := mapping_safe (by decide) (by decide) shortMapped_open hrun
  obtain ⟨hin, halone, -⟩ := hcopy 1 0 4 hnext
  exact ⟨p, hnext, hin, halone⟩

/-! ## Waiting -/

section Waiting
variable {hn : n < 2 ^ 64} {began : Fin n → Mapped} (h : (grips P hn began).Inv p es g)
include h

end Waiting

section Opened
variable {B : Build} {file : Data} (hn : n < 2 ^ 64) (hfile : file.length < 2 ^ 63)
  (hopen : aodbmOpenMmap P B file = .ok m)
  (hrun : Traces (Moves (mappers P n) MapJob.Fits) (Mappers.start m) es p)
include hn hfile hopen hrun

end Opened

section Opened
variable {B : Build} {file : Data} (hn : n < 2 ^ 64) (hfile : file.length < 2 ^ 63)
  (hopen : aodbmOpenMmap P B file = .ok m)
  (hrun : Traces (Moves (mappers P n) MapJob.Fits) (Mappers.start m) es p)
include hn hfile hopen hrun

/-- A read of a thread that begins after `p` gives the bytes that are in the file when it ends,
whatever the others do meanwhile; only a byte that was in the buffer at `p` may be read as zero. It
reads beyond the end only if the range was beyond the end at `p`. -/
theorem mapping_reads {fs : List (Visible (Fin n) MapJob (Option Data))} {p' : Mappers n}
    (hidle : p.clients t = none) (hgoes : Traces (Moves (mappers P n) MapJob.Fits) p fs p')
    {job : MapJob} {r : Option Data} {seen : List Empty}
    (hclient : p'.clients t = some ⟨job, .pure r, seen⟩) (hrange : job.range = some (off, sz)) :
    Found p.shared.map p'.shared.map.db.file off sz r := by
  obtain ⟨g, hinv⟩ := gripped_of_trace hn (open_ok hfile hopen) hrun
  obtain ⟨hgripped, hbegan⟩ : Gripped p.shared g ∧ _ := hinv.holds
  -- the thread is outside of a call, and remembers the handle
  have hknows := hgripped.knows t
  have hready : Grip.Ready (g t) := hinv.ready t hidle
  let own : Grip := { g t with began := p.shared.map }
  have hholds : Gripped p.shared (Function.update g t own) := hgripped.learns rfl rfl
    ⟨hknows.size, hknows.low, hknows.exact, hknows.pending, List.prefix_rfl, Nat.le_refl _,
      hknows.file⟩
  have hfirst : (grips P hn (Function.update (fun _ => m) t p.shared.map)).Inv p es
      (Function.update g t own) := by
    refine ⟨⟨hholds, fun u => ?_⟩, fun u hu => ?_, fun u c hc => ?_⟩
    · rcases eq_or_ne u t with rfl | hut
      · rw [Function.update_self, Function.update_self]
      · rw [Function.update_of_ne hut, Function.update_of_ne hut, hbegan]
    · rcases eq_or_ne u t with rfl | hut
      · rw [Function.update_self]
        exact ⟨⟨hready.access, hready.pending⟩, hready.depth⟩
      · rw [Function.update_of_ne hut]
        exact hinv.ready u hu
    · have hut : u ≠ t := by
        rintro rfl
        rw [hidle] at hc
        cases hc
      rw [Function.update_of_ne hut]
      exact hinv.rest u c hc
  obtain ⟨g', hinv'⟩ := hfirst.trace hgoes
  obtain ⟨hgripped', hbegan'⟩ : Gripped p'.shared g' ∧ _ := hinv'.holds
  have hends : Grip.Ends job r (g' t) := hinv'.rest t _ hclient
  have hfound := hends.found _ hrange
  rw [hbegan' t, Function.update_self] at hfound
  exact hfound.mono (hgripped'.knows t).file

end Opened

/-- The first bytes of the file are read. -/
theorem mapping_reads_first : ∃ p : Mappers 2,
    Found shortMapped p.shared.map.db.file 0 4 (some [100, 0, 0, 0]) := by
  have hread : run ((mappers smallPages 2).handle 1) ((mappers smallPages 2).prog (.read 0 4))
      ⟨shortMapped, 64, aodbmRwlockInit, .free⟩ =
      .ok (some [100, 0, 0, 0], ⟨shortMapped, 64, aodbmRwlockInit, .free⟩) := by decide +kernel
  have hclient : reading.clients 1 =
      some ⟨.read 0 4, (mappers smallPages 2).prog (.read 0 4), []⟩ := rfl
  obtain ⟨p, hrest, -, ⟨seen, hclient⟩, -⟩ := traces_rest hclient hread
  exact ⟨p, mapping_reads (by decide) (by decide) shortMapped_open (.nil _) rfl
    (.seen reading_called hrest) hclient rfl⟩

end Aodbm
