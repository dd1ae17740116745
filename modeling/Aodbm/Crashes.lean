import Aodbm.Ancestors
import Aodbm.Reads
import Aodbm.Recovery
import Aodbm.Scan

/-!
# Crashes

What a run goes on with after the process was killed: `aodbm_open` finds the complete blocks that
are left, and of the versions those that the current one is based on.

Results:
1. `ShortStep.tidy`: what is known of the blocks of a run besides `Inv`.
2. `Tidy.opens`: if the record of the last commit is left, the same version is current.
3. `Inv.killed`: what is left has the invariant of the runs again.
-/

namespace Aodbm

open Effects Records Bytes History

variable {B : Build} {w w' : World} {P : Data} {bs cs done todo : List Block}

/-! ## What an update has done -/

section Update
variable {db db' : Db} {ver v root : Nat} {new : List Rec} {op : Op Nat} {payload : Data}

/-- The block that an update that returned has appended. -/
structure Appends (B : Build) (db db' : Db) (v : Nat) (payload : Data) : Prop where
  written : db' = db.append (Block.enc B (.data payload))
  above : db.file.length < v
  long : 4 ≤ payload.length
  short : payload.length < 2 ^ 32

/-- Version 0 is not written. -/
theorem Appends.ne_zero (h : Appends B db db' v payload) : v ≠ 0 :=
  Nat.ne_of_gt (Nat.lt_of_le_of_lt (Nat.zero_le _) h.above)

theorem Updates.returned (hu : Updates B db ver new op payload root)
    (run : eval op db = .ok (v, db'))
    (hshort : db'.file.length < db.file.length + (5 + 2 ^ 32)) : Appends B db db' v payload := by
  rw [hu.run] at run
  split at run
  · cases run
    have hlen : payload.length < 2 ^ 32 := by
      simp only [Db.append, List.length_append, data_enc_length] at hshort
      omega
    refine ⟨rfl, hu.above, ?_, hlen⟩
    -- the header of the new version is within the block
    have hheader := (hu.version hlen).header.le
    have habove := hu.above
    simp only [from64_length, List.length_append, data_enc_length] at hheader
    omega
  · cases run

theorem Inv.set_returned (hw : Inv B w) {s : Snapshot} (hs : s ∈ w.snaps) {k x : Data}
    (run : eval (aodbmSet B s.ver k x) w.db = .ok (v, db'))
    (hshort : db'.file.length < w.db.file.length + (5 + 2 ^ 32)) :
    ∃ payload, Appends B w.db db' v payload := by
  obtain ⟨rs, hrs, _⟩ := hw.contents hs
  obtain ⟨payload, root, hu⟩ := hrs.set hw.synced k x
  exact ⟨payload, hu.returned run hshort⟩

/-- Without the key `aodbm_del` writes nothing and returns the version it was given. -/
theorem Inv.del_returned (hw : Inv B w) {s : Snapshot} (hs : s ∈ w.snaps) {k : Data}
    (run : eval (aodbmDel B s.ver k) w.db = .ok (v, db'))
    (hshort : db'.file.length < w.db.file.length + (5 + 2 ^ 32)) :
    (s.contents k = none ∧ v = s.ver ∧ db' = w.db) ∨
      (s.contents k ≠ none ∧ ∃ payload, Appends B w.db db' v payload) := by
  obtain ⟨rs, hrs, hq⟩ := hw.contents hs
  rw [hq k]
  cases hk : rs.lookup k with
  | none =>
    rw [hrs.del_absent hw.synced hk] at run
    cases run
    exact Or.inl ⟨rfl, rfl, rfl⟩
  | some y =>
    obtain ⟨payload, root, hu⟩ := hrs.del hw.synced (k := k) (by rw [hk]; rfl)
    exact Or.inr ⟨Option.some_ne_none y, payload, hu.returned run hshort⟩

/-- A commit that returned has appended its record if it was accepted, and nothing otherwise. -/
theorem Inv.commit_returned (hw : Inv B w) {s : Snapshot} (hs : s ∈ w.snaps) {r : Bool}
    (run : eval (aodbmCommit B s.ver) w.db = .ok (r, db')) :
    (r = true ↔ w.BasedOn s.ver w.db.cur) ∧
      if r then db' = { w.db.append (Block.enc B (.version s.ver)) with cur := s.ver }
      else db' = w.db := by
  obtain ⟨r', hr', heval⟩ := eval_commit hw.headers ⟨s, hs, rfl⟩
  rw [heval] at run
  cases r' with
  | false =>
    cases run
    exact ⟨hr', rfl⟩
  | true =>
    rw [if_pos rfl] at run
    split at run
    · cases run
      exact ⟨hr', rfl⟩
    · cases run

end Update

/-! ## The blocks of a run -/

/-- A file is made of one sequence of blocks only. -/
theorem encBlocks_inj (hbs : ∀ b ∈ bs, b.Fits) (hcs : ∀ c ∈ cs, c.Fits)
    (h : encBlocks B bs = encBlocks B cs) : bs = cs := by
  have hpos : ∀ b : Block, b.enc B ≠ [] := fun b hb => by
    have := congrArg List.length hb
    cases b <;> simp at this
  induction bs generalizing cs with
  | nil =>
    cases cs with
    | nil => rfl
    | cons c cs =>
      rw [encBlocks_nil, encBlocks_cons] at h
      exact absurd (List.append_eq_nil_iff.mp h.symm).1 (hpos c)
  | cons b bs ih =>
    cases cs with
    | nil =>
      rw [encBlocks_nil, encBlocks_cons] at h
      exact absurd (List.append_eq_nil_iff.mp h).1 (hpos b)
    | cons c cs =>
      rw [encBlocks_cons, encBlocks_cons] at h
      have hb : Block.enc B b <+: Block.enc B b ++ encBlocks B bs := List.prefix_append _ _
      have hc : Block.enc B c <+: Block.enc B b ++ encBlocks B bs := by
        rw [h]
        exact List.prefix_append _ _
      obtain rfl : b = c :=
        block_unique (hbs b List.mem_cons_self) (hcs c List.mem_cons_self) hb hc
      have hrest : encBlocks B bs = encBlocks B cs := List.append_cancel_left h
      rw [ih (fun b hb => hbs b (List.mem_cons_of_mem _ hb))
        (fun c hc => hcs c (List.mem_cons_of_mem _ hc)) hrest]

/-- What else is known of a run: version 0 was made from nothing, every data block holds a header,
and without a commit there are no version records. -/
structure Tidy (B : Build) (w : World) : Prop where
  zero : ∀ s ∈ w.snaps, s.ver = 0 → s.prev = 0
  long : ∀ bs, Layout B w bs → ∀ p, .data p ∈ bs → 4 ≤ p.length
  plain : ∀ bs, Layout B w bs → w.commits = [] → ∀ b ∈ bs, ∃ p, b = .data p

/-- The blocks after one more was appended. -/
theorem Layout.snoc (h : Layout B w bs) (h' : Layout B w' cs) {b : Block} (hb : b.Fits)
    (hfile : w'.db.file = w.db.file ++ b.enc B) : cs = bs ++ [b] := by
  refine encBlocks_inj (B := B) h'.fits (fun c hc => ?_) ?_
  · rcases List.mem_append.mp hc with hc | hc
    · exact h.fits c hc
    · exact List.mem_singleton.mp hc ▸ hb
  · rw [← h'.file, hfile, h.file, encBlocks_append, encBlocks_cons, encBlocks_nil, List.append_nil]

theorem Layout.same (h : Layout B w bs) (h' : Layout B w' cs) (hfile : w'.db.file = w.db.file) :
    cs = bs := encBlocks_inj (B := B) h'.fits h.fits (by rw [← h'.file, hfile, h.file])

theorem Tidy.init : Tidy B World.init := by
  have hlayout : Layout B World.init [] := ⟨rfl, by simp, rfl, by simp, by simp [World.init]⟩
  refine ⟨fun s hs _ => ?_, fun bs hbs p hp => ?_, fun bs hbs _ b hb => ?_⟩
  · rw [List.mem_singleton.mp hs]
  · rw [hlayout.same hbs rfl] at hp
    cases hp
  · rw [hlayout.same hbs rfl] at hb
    cases hb

/-- A data block with a header is appended. -/
theorem Tidy.data (ht : Tidy B w) (hw : Inv B w) (hcommits : w'.commits = w.commits)
    (hzero : ∀ s ∈ w'.snaps, s.ver = 0 → s.prev = 0) {p : Data} (hlong : 4 ≤ p.length)
    (hshort : p.length < 2 ^ 32) (hfile : w'.db.file = w.db.file ++ Block.enc B (.data p)) :
    Tidy B w' := by
  obtain ⟨bs, hbs⟩ := hw.layout
  have hfits : Block.Fits (.data p) := hshort
  refine ⟨hzero, fun cs hcs q hq => ?_, fun cs hcs hnil b hb => ?_⟩
  · rw [hbs.snoc hcs hfits hfile] at hq
    rcases List.mem_append.mp hq with hq | hq
    · exact ht.long bs hbs q hq
    · cases List.mem_singleton.mp hq
      exact hlong
  · rw [hbs.snoc hcs hfits hfile] at hb
    rcases List.mem_append.mp hb with hb | hb
    · exact ht.plain bs hbs (hcommits ▸ hnil) b hb
    · exact ⟨p, List.mem_singleton.mp hb⟩

/-- Nothing is written. -/
theorem Tidy.reads (ht : Tidy B w) (hw : Inv B w) (hcommits : w'.commits = w.commits)
    (hzero : ∀ s ∈ w'.snaps, s.ver = 0 → s.prev = 0) (hfile : w'.db.file = w.db.file) :
    Tidy B w' := by
  obtain ⟨bs, hbs⟩ := hw.layout
  refine ⟨hzero, fun cs hcs => ?_, fun cs hcs hnil => ?_⟩
  · rw [hbs.same hcs hfile]
    exact ht.long bs hbs
  · rw [hbs.same hcs hfile]
    exact ht.plain bs hbs (hcommits ▸ hnil)

/-- The record of a commit is appended. -/
theorem Tidy.commit (ht : Tidy B w) (hw : Inv B w) {v : Nat} (hv : v < 2 ^ 64)
    (hcommits : w'.commits ≠ []) (hsnaps : w'.snaps = w.snaps)
    (hfile : w'.db.file = w.db.file ++ Block.enc B (.version v)) : Tidy B w' := by
  obtain ⟨bs, hbs⟩ := hw.layout
  have hfits : Block.Fits (.version v) := hv
  refine ⟨hsnaps ▸ ht.zero, fun cs hcs q hq => ?_, fun cs hcs hnil => absurd hnil hcommits⟩
  rw [hbs.snoc hcs hfits hfile] at hq
  rcases List.mem_append.mp hq with hq | hq
  · exact ht.long bs hbs q hq
  · cases List.mem_singleton.mp hq

/-- Every completed call that writes a short block, or none, keeps this. -/
theorem Tidy.step (ht : Tidy B w) (hw : Inv B w) (h : ShortStep B w w') : Tidy B w' := by
  have hw' := hw.step h
  obtain ⟨hstep, hshort⟩ := h
  cases hstep with
  | @set s k x v db known run =>
    obtain ⟨payload, hp⟩ := hw.set_returned known run hshort
    refine ht.data hw rfl (fun t hmem h0 => ?_) hp.long hp.short (by rw [hp.written]; rfl)
    rcases List.mem_cons.mp hmem with rfl | hmem
    · exact absurd h0 hp.ne_zero
    · exact ht.zero t hmem h0
  | @del s k v db known run =>
    rcases hw.del_returned known run hshort with ⟨_, rfl, rfl⟩ | ⟨_, payload, hp⟩
    · refine ht.reads hw rfl (fun t hmem h0 => ?_) rfl
      rcases List.mem_cons.mp hmem with rfl | hmem
      · rw [if_pos rfl]
        exact ht.zero s known h0
      · exact ht.zero t hmem h0
    · refine ht.data hw rfl (fun t hmem h0 => ?_) hp.long hp.short (by rw [hp.written]; rfl)
      rcases List.mem_cons.mp hmem with rfl | hmem
      · exact absurd h0 hp.ne_zero
      · exact ht.zero t hmem h0
  | @commit s db known run =>
    obtain ⟨_, hdb⟩ := hw.commit_returned known run
    have hbound := hw.headers.bound ⟨s, known, rfl⟩
    refine ht.commit hw (lt_trans hbound (by decide)) (List.cons_ne_nil _ _) rfl ?_
    rw [if_pos rfl] at hdb
    rw [hdb]
    rfl
  | @reject s db known run =>
    obtain ⟨_, hdb⟩ := hw.commit_returned known run
    exact ht.reads hw rfl ht.zero (congrArg Db.file hdb)
  | current run =>
    cases run
    exact ht.reads hw rfl ht.zero rfl
  | newIterator _ run =>
    obtain ⟨rfl, _⟩ := (reads_newIterator B _).eval run
    exact ht.reads hw rfl ht.zero rfl
  | iterateFrom _ run =>
    obtain ⟨rfl, _⟩ := (reads_iteratorGoto B _ _).eval run
    exact ht.reads hw rfl ht.zero rfl
  | iteratorGoto _ run =>
    obtain ⟨rfl, _⟩ := (reads_iteratorGoto B _ _).eval run
    exact ht.reads hw rfl ht.zero rfl
  | iteratorNext _ run =>
    obtain ⟨rfl, _⟩ := (reads_iteratorNext B _).eval run
    exact ht.reads hw rfl ht.zero rfl

/-! ## What is left -/

/-- The blocks `done` are left of a run, among them the record of the last commit. -/
structure Remains (B : Build) (w : World) (done todo : List Block) : Prop where
  inv : Inv B w
  tidy : Tidy B w
  layout : Layout B w (done ++ todo)
  fin : ∀ c ∈ w.commits.head?, c.fin ≤ (encBlocks B done).length

/-- The world after the process was killed and `aodbm_open` has kept the blocks `done`. -/
structure Killed (B : Build) (w : World) (done : List Block) (w' : World) : Prop where
  db : w'.db = ⟨encBlocks B done, (encBlocks B done).length, lastVersion 0 done⟩
  snaps : ∀ s, s ∈ w'.snaps ↔ s ∈ w.snaps ∧ w.BasedOn w.db.cur s.ver
  commits : w'.commits = w.commits
  iters : w'.iters = []

theorem exists_killed (w : World) (done : List Block) : ∃ w', Killed B w done w' := by
  classical
  exact ⟨⟨⟨encBlocks B done, (encBlocks B done).length, lastVersion 0 done⟩,
    w.snaps.filter fun s => w.BasedOn w.db.cur s.ver, w.commits, []⟩, rfl, by simp, rfl, rfl⟩

namespace Remains

theorem file_prefix (h : Remains B w done todo) : encBlocks B done <+: w.db.file := by
  rw [h.layout.file, encBlocks_append]
  exact List.prefix_append _ _

/-- A commit leaves its record, with data blocks only behind it. -/
theorem last (h : Remains B w done todo) : ∀ c ∈ w.commits.head?, ∃ bs₁ bs₂,
    done = bs₁ ++ .version c.ver :: bs₂ ∧ c.fin = (encBlocks B (bs₁ ++ [.version c.ver])).length ∧
      ∀ b ∈ bs₂, ∃ p, b = .data p := by
  intro c hc
  obtain ⟨bs₁, bs₂, hsplit, hend, hdata⟩ := h.layout.last c hc
  have hcut : CutAt B (encBlocks B (done ++ todo)) (encBlocks B done) done todo := by
    refine ⟨rfl, h.layout.fits, List.prefix_refl _, fun b _ => ?_⟩
    rw [encBlocks_append, encBlocks_cons, encBlocks_nil, List.append_nil, List.length_append]
    exact Nat.lt_add_of_pos_right (block_pos b)
  obtain ⟨bs₃, hdone, rfl⟩ := hcut.keeps hsplit (hend ▸ h.fin c hc)
  exact ⟨bs₁, bs₃, hdone, hend, fun b hb => hdata b (List.mem_append_left _ hb)⟩

/-- The same version is current. -/
theorem cur (h : Remains B w done todo) : lastVersion 0 done = w.db.cur := by
  cases hc : w.commits with
  | nil =>
    rw [h.inv.fresh hc]
    exact lastVersion_data (fun b hb => h.tidy.plain _ h.layout hc b (List.mem_append_left _ hb)) 0
  | cons c cs =>
    have hhead : c ∈ w.commits.head? := by rw [hc]; rfl
    obtain ⟨bs₁, bs₂, hdone, _, hdata⟩ := h.last c hhead
    rw [hdone, lastVersion_append, ← h.inv.head c hhead]
    exact lastVersion_data hdata c.ver

/-- The current version stands in the blocks that are kept with all that it is based on. -/
theorem hist (h : Remains B w done todo) {v : Nat} (hv : w.BasedOn w.db.cur v) :
    Hist B (encBlocks B done) v :=
  h.inv.hist_basedOn h.file_prefix (h.cur ▸ h.layout.found) hv

/-- So does what a client knows of it. -/
theorem snapAt (h : Remains B w done todo) {s : Snapshot} (hs : s ∈ w.snaps)
    (hv : w.BasedOn w.db.cur s.ver) : SnapAt B (encBlocks B done) s := by
  have hhist := h.hist hv
  have hsnap := h.inv.snaps s hs
  obtain ⟨rs, hrs, hq⟩ := hsnap.contents
  refine ⟨?_, fun h0 => ⟨(hsnap.header h0).1, ?_⟩, hhist⟩
  · generalize s.ver = v at *
    cases hhist with
    | zero =>
      obtain ⟨_, rfl⟩ | ⟨h0, _⟩ := hrs
      · exact ⟨[], Or.inl ⟨rfl, rfl⟩, hq⟩
      · exact absurd rfl h0
    | @ver _ p rs' hat hlt _ =>
      have h0 : v ≠ 0 := Nat.ne_of_gt (Nat.lt_of_le_of_lt (Nat.zero_le p) hlt)
      obtain ⟨hz, _⟩ | ⟨_, ht⟩ := hrs
      · exact absurd hz h0
      · -- both trees stand at the same place of the whole file
        obtain rfl := ht.unique (hat.tree.mono h.file_prefix)
        exact ⟨rs, Or.inr ⟨h0, hat.tree⟩, hq⟩
  · have hseg := (hsnap.header h0).2
    generalize s.ver = v at *
    cases hhist with
    | zero => exact absurd rfl h0
    | ver hat _ _ =>
      rw [hseg.unique (hat.header.mono h.file_prefix) (by simp)]
      exact hat.header

/-- What is read at offset 8. -/
theorem front (h : Remains B w done todo) :
    encBlocks B done = [] ∨ SegAt (encBlocks B done) 8 [0] := by
  cases hd : done with
  | nil => exact Or.inl rfl
  | cons b bs =>
    have hlong : 8 + 1 ≤ (b.enc B).length := by
      cases hb : b with
      | data p =>
        have hp := h.tidy.long _ h.layout p (by simp [hd, hb])
        rw [data_enc_length]
        omega
      | version v => simp
    have hle : 8 + 1 ≤ (encBlocks B (b :: bs)).length := by
      rw [encBlocks_cons, List.length_append]
      exact Nat.le_add_right_of_le hlong
    have hpre : encBlocks B (b :: bs) <+: w.db.file := hd ▸ h.file_prefix
    rcases h.inv.front with hnil | hseg
    · rw [hnil, List.prefix_nil] at hpre
      rw [hpre] at hle
      cases hle
    · exact Or.inr (hseg.of_prefix hpre hle)

end Remains

/-- The current version is based on every version that was committed. -/
theorem Inv.committed_basedOn (hw : Inv B w) {v : Nat} (hv : v ∈ w.commits.map Commit.ver) :
    w.BasedOn w.db.cur v := by
  cases hc : w.commits with
  | nil =>
    rw [hc] at hv
    cases hv
  | cons c cs =>
    have hchain := hw.chain
    rw [← hw.head c (by rw [hc]; rfl)]
    rw [hc, List.map_cons] at hv hchain
    rcases List.mem_cons.mp hv with rfl | hv
    · exact Based.refl _
    · exact (List.pairwise_cons.mp hchain).1 v hv

namespace Killed

/-- What is based on the current version stays based on it. -/
theorem basedOn (h : Killed B w done w') {a b : Nat} (ha : w.BasedOn w.db.cur a)
    (hab : w.BasedOn a b) : w'.BasedOn a b := by
  induction hab with
  | refl => exact Based.refl _
  | tail hac hp ih =>
    obtain ⟨s, hs, hsv, hsp, h0⟩ := hp
    exact ih.tail ⟨s, (h.snaps s).mpr ⟨hs, hsv ▸ ha.trans hac⟩, hsv, hsp, h0⟩

theorem known (h : Killed B w done w') {v : Nat} (hk : w.Known v)
    (hv : w.BasedOn w.db.cur v) : w'.Known v := by
  obtain ⟨s, hs, rfl⟩ := hk
  exact ⟨s, (h.snaps s).mpr ⟨hs, hv⟩, rfl⟩

/-- The commits are left. -/
theorem chain (h : Killed B w done w') (hw : Inv B w) :
    (w'.commits.map Commit.ver).Pairwise w'.BasedOn := by
  rw [h.commits]
  refine hw.chain.imp_of_mem fun ha _ hab => ?_
  exact h.basedOn (hw.committed_basedOn ha) hab

/-- What is left is a state as in a run. -/
theorem inv (h : Killed B w done w') (hrem : Remains B w done todo) : Inv B w' := by
  have hw := hrem.inv
  have hcur : w'.db.cur = w.db.cur := by
    rw [h.db]
    exact hrem.cur
  have hfile : w'.db.file = encBlocks B done := by rw [h.db]
  refine {
    synced := ?_
    layout := ⟨done, hfile, ?_, ?_, ?_, ?_⟩
    snaps := ?_
    parents := ?_
    zero := h.known hw.zero (hw.headers.zero hw.cur)
    cur := hcur ▸ h.known hw.cur (Based.refl _)
    head := ?_
    fresh := ?_
    chain := h.chain hw
    iters := ?_
    front := hfile ▸ hrem.front }
  · rw [h.db]
    exact ⟨rfl, lt_of_le_of_lt hrem.file_prefix.length_le hw.synced.bound⟩
  · exact fun b hb => hrem.layout.fits b (List.mem_append_left _ hb)
  · rw [h.db]
  · rintro bs₁ bs₂ v rfl
    have hsplit : bs₁ ++ .version v :: bs₂ ++ todo = bs₁ ++ .version v :: (bs₂ ++ todo) := by simp
    exact hrem.layout.stored hsplit
  · rw [h.commits]
    exact hrem.last
  · intro s hs
    obtain ⟨hs, hv⟩ := (h.snaps s).mp hs
    exact hfile ▸ hrem.snapAt hs hv
  · intro s hs
    obtain ⟨hs, hv⟩ := (h.snaps s).mp hs
    by_cases h0 : s.ver = 0
    · rw [hrem.tidy.zero s hs h0]
      exact h.known hw.zero (hw.headers.zero hw.cur)
    · exact h.known (hw.parents s hs) (hv.tail ⟨s, hs, rfl, rfl, h0⟩)
  · rw [h.commits, hcur]
    exact hw.head
  · rw [h.commits, hcur]
    exact hw.fresh
  · intro it hit
    rw [h.iters] at hit
    cases hit

/-- So is what else is known of it. -/
theorem tidy (h : Killed B w done w') (hrem : Remains B w done todo) : Tidy B w' := by
  obtain ⟨bs, hbs⟩ := (h.inv hrem).layout
  have hdone : bs = done := by
    refine encBlocks_inj (B := B) hbs.fits (fun b hb => ?_) (by rw [← hbs.file, h.db])
    exact hrem.layout.fits b (List.mem_append_left _ hb)
  refine ⟨fun s hs => hrem.tidy.zero s ((h.snaps s).mp hs).1, fun cs hcs p hp => ?_,
    fun cs hcs hnil b hb => ?_⟩
  · rw [hbs.same hcs rfl, hdone] at hp
    exact hrem.tidy.long _ hrem.layout p (List.mem_append_left _ hp)
  · rw [hbs.same hcs rfl, hdone] at hb
    exact hrem.tidy.plain _ hrem.layout (h.commits ▸ hnil) b (List.mem_append_left _ hb)

end Killed

/-- What `aodbm_open` does with any beginning of the file that holds the record of the last
commit: it keeps some blocks, and the same version is current. -/
theorem Inv.killed (hw : Inv B w) (ht : Tidy B w) (hP : P <+: w.db.file)
    (hfin : ∀ c ∈ w.commits.head?, c.fin ≤ P.length) :
    ∃ done todo w', Remains B w done todo ∧ Killed B w done w' ∧ aodbmOpen B P = .ok w'.db := by
  obtain ⟨bs, hbs⟩ := hw.layout
  have hfile := hbs.file
  obtain ⟨done, todo, rest, rfl, hcut, rfl, htorn⟩ := exists_cut hbs.fits (hfile ▸ hP)
  obtain ⟨w', hkilled⟩ := exists_killed (B := B) w done
  have hfits : ∀ b ∈ done, b.Fits := fun b hb => hbs.fits b (List.mem_append_left _ hb)
  refine ⟨done, todo, w', ⟨hw, ht, hbs, fun c hc => ?_⟩, hkilled, ?_⟩
  · obtain ⟨bs₁, bs₂, hsplit, hend, _⟩ := hbs.last c hc
    obtain ⟨bs₃, hdone, _⟩ := hcut.keeps hsplit (hend ▸ hfin c hc)
    have hpre : encBlocks B (bs₁ ++ [.version c.ver]) <+: encBlocks B done := by
      rw [hdone, List.append_cons bs₁ _ bs₃, encBlocks_append _ bs₃]
      exact List.prefix_append _ _
    exact hend ▸ hpre.length_le
  · rw [hkilled.db]
    exact openBlocks hfits htorn

end Aodbm
