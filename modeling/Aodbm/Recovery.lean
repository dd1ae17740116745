import Aodbm.Run

/-!
# Recovery

What `aodbm_open` finds in a prefix of the file of a run: a crash can cut the file at any
byte.

Results:
1. `exists_cut`: every prefix ends in one block, or behind the last one.
2. `recovery`: the complete blocks are kept, the last committed version among them is the
   current one, and it and its ancestors answer as before.
-/

namespace Aodbm

open Effects Bytes History

variable (B : Build)

/-- `P` holds the blocks `done` of the file and less than one of the blocks `todo`. -/
structure CutAt (file P : Data) (done todo : List Block) : Prop where
  blocks : file = encBlocks B (done ++ todo)
  fits : ∀ b ∈ done ++ todo, b.Fits
  holds : encBlocks B done <+: P
  breaks : ∀ b ∈ todo.head?, P.length < (encBlocks B (done ++ [b])).length

variable {B}
variable {w : World} {file P : Data} {bs done todo : List Block}

theorem exists_cut (hfits : ∀ b ∈ bs, b.Fits) (hP : P <+: encBlocks B bs) :
    ∃ done todo rest, bs = done ++ todo ∧ CutAt B (encBlocks B bs) P done todo ∧
      P = encBlocks B done ++ rest ∧ Torn B rest := by
  obtain ⟨done, todo, rest, rfl, rfl, htorn, hnext⟩ := encBlocks_prefix hfits hP
  refine ⟨done, todo, rest, rfl, ⟨rfl, hfits, List.prefix_append _ _, fun b hb => ?_⟩, rfl, htorn⟩
  have := hnext b hb
  simp only [encBlocks_append, encBlocks_cons, encBlocks_nil, List.append_nil, List.length_append]
  omega

/-- The last version record is the first one, or there is one with only data behind it. -/
theorem lastVersion_split (bs : List Block) (cur : Nat) :
    (lastVersion cur bs = cur ∧ ∀ b ∈ bs, ∃ p, b = .data p) ∨
      ∃ bs₁ bs₂, bs = bs₁ ++ .version (lastVersion cur bs) :: bs₂ := by
  induction bs generalizing cur with
  | nil => exact Or.inl ⟨rfl, by simp⟩
  | cons b bs ih =>
    cases b with
    | data p =>
      rcases ih cur with ⟨hcur, hdata⟩ | ⟨bs₁, bs₂, h⟩
      · refine Or.inl ⟨hcur, fun b hb => ?_⟩
        rcases List.mem_cons.mp hb with rfl | hb
        · exact ⟨p, rfl⟩
        · exact hdata b hb
      · exact Or.inr ⟨.data p :: bs₁, bs₂, by simpa [lastVersion] using h⟩
    | version v =>
      right
      rcases ih v with ⟨hcur, _⟩ | ⟨bs₁, bs₂, h⟩
      · exact ⟨[], bs, by simp [lastVersion, hcur]⟩
      · exact ⟨.version v :: bs₁, bs₂, by simpa [lastVersion] using h⟩

theorem lastVersion_data (hdata : ∀ b ∈ bs, ∃ p, b = .data p) (cur : Nat) :
    lastVersion cur bs = cur := by
  induction bs with
  | nil => rfl
  | cons b bs ih =>
    obtain ⟨p, rfl⟩ := hdata b List.mem_cons_self
    exact ih fun b hb => hdata b (List.mem_cons_of_mem _ hb)

/-- The version that is found stands in the blocks that are kept, with its ancestors. -/
theorem Layout.found (hl : Layout B w (done ++ todo)) :
    Hist B (encBlocks B done) (lastVersion 0 done) := by
  rcases lastVersion_split done 0 with ⟨hcur, _⟩ | ⟨bs₁, bs₂, h⟩
  · rw [hcur]
    exact .zero
  · have hsplit : done ++ todo = bs₁ ++ .version (lastVersion 0 done) :: (bs₂ ++ todo) := by
      rw [← List.cons_append, ← List.append_assoc, ← h]
    have hstored : Hist B (encBlocks B bs₁) (lastVersion 0 done) := hl.stored hsplit
    refine hstored.mono ?_
    rw [h, encBlocks_append]
    exact List.prefix_append _ _

/-- A version that stands in a part of the file stands there with what it is based on. -/
theorem Inv.hist_basedOn (hw : Inv B w) (hfile : file <+: w.db.file) {a b : Nat}
    (hh : Hist B file a) (hab : w.BasedOn a b) : Hist B file b := by
  refine hab.inherit (fun {a p} hp ha => ?_) hh
  have hseg := hw.headers.header hp
  have hlt := hw.headers.lineage.older hp
  cases ha with
  | zero => omega
  | @ver _ q rs hat hqa hq =>
    have hbound : a < 2 ^ 64 := by
      obtain ⟨s, hs, hsa, _⟩ := hp
      exact lt_trans (hw.headers.bound ⟨s, hs, hsa⟩) (by decide)
    have heq := hseg.unique (hat.header.mono hfile) (by simp)
    have hpq : p = q := by
      rw [← to64_from64 (B := B) (n := p) (by omega), heq, to64_from64 (by omega)]
    exact hpq ▸ hq

/-- A version that stands in a part of the file answers there as in the whole file. -/
theorem Hist.same_answers {db db' : Db} {v : Nat} (hh : Hist B db.file v) (hdb : db.Synced)
    (hdb' : db'.Synced) (hf : db.file <+: db'.file) (k : Data) :
    ∃ x, eval (aodbmGet B v k) db = .ok (x, db) ∧ eval (aodbmGet B v k) db' = .ok (x, db') ∧
      eval (aodbmHas B v k) db = .ok (x.isSome, db) ∧
      eval (aodbmHas B v k) db' = .ok (x.isSome, db') := by
  obtain ⟨rs, hc⟩ : ∃ rs, ContentsAt B db.file v rs := by
    cases hh with
    | zero => exact ⟨[], Or.inl ⟨rfl, rfl⟩⟩
    | ver hat hlt _ => exact ⟨_, Or.inr ⟨by omega, hat.tree⟩⟩
  exact ⟨rs.lookup k, hc.get hdb k, (hc.mono hf).get hdb' k, hc.has hdb k, (hc.mono hf).has hdb' k⟩

/-- The record of the last commit is among the blocks that are kept when `P` reaches its end. -/
theorem CutAt.keeps (hcut : CutAt B file P done todo) {bs₁ bs₂ : List Block} {b : Block}
    (hbs : done ++ todo = bs₁ ++ b :: bs₂) (hlen : (encBlocks B (bs₁ ++ [b])).length ≤ P.length) :
    ∃ bs₃, done = bs₁ ++ b :: bs₃ ∧ bs₂ = bs₃ ++ todo := by
  rw [← List.singleton_append, ← List.append_assoc] at hbs
  rcases List.append_eq_append_iff.mp hbs with ⟨t, hdone, htodo⟩ | ⟨t, rfl, rfl⟩
  · cases t with
    | nil =>
      rw [List.append_nil] at hdone
      exact ⟨[], hdone.symm, htodo.symm⟩
    | cons c t =>
      -- the first block that is not kept would end before the record
      have hbreak := hcut.breaks c (by simp [htodo])
      have hc : done ++ [c] ++ t = bs₁ ++ [b] := by rw [hdone]; simp
      rw [← hc, encBlocks_append, List.length_append] at hlen
      omega
  · exact ⟨t, by simp, rfl⟩

/-- `aodbm_open` on any prefix of the file of a run: it keeps the complete blocks, and the
version of the last complete version record, which with its ancestors answers as before; an
accepted commit whose record is complete is not lost; nothing is lost of a whole file. -/
theorem recovery (hw : ReachableShort B w) (hP : P <+: w.db.file) :
    ∃ done todo db, CutAt B w.db.file P done todo ∧ aodbmOpen B P = .ok db ∧
      db = ⟨encBlocks B done, (encBlocks B done).length, lastVersion 0 done⟩ ∧
      (∀ v, w.BasedOn db.cur v → ∀ k, ∃ x,
        eval (aodbmGet B v k) db = .ok (x, db) ∧ eval (aodbmGet B v k) w.db = .ok (x, w.db) ∧
        eval (aodbmHas B v k) db = .ok (x.isSome, db) ∧
        eval (aodbmHas B v k) w.db = .ok (x.isSome, w.db)) ∧
      (∀ c ∈ w.commits.head?, c.fin ≤ P.length → db.cur = c.ver) ∧
      (P = w.db.file → db = w.db) := by
  have hinv := inv_of_reachable hw
  obtain ⟨bs, hbs⟩ := hinv.layout
  have hfile := hbs.file
  obtain ⟨done, todo, rest, rfl, hcut, rfl, htorn⟩ := exists_cut hbs.fits (hfile ▸ hP)
  rw [← hfile] at hcut
  have hpre : encBlocks B done <+: w.db.file := by
    rw [hfile, encBlocks_append]
    exact List.prefix_append _ _
  have hfits : ∀ b ∈ done, b.Fits := fun b hb => hcut.fits b (List.mem_append_left _ hb)
  have hopen := openBlocks hfits htorn
  refine ⟨done, todo, _, hcut, hopen, rfl, fun v hv k => ?_, fun c hc hfin => ?_, fun hall => ?_⟩
  · have hsynced : Db.Synced ⟨encBlocks B done, (encBlocks B done).length, lastVersion 0 done⟩ :=
      ⟨rfl, lt_of_le_of_lt hpre.length_le hinv.synced.bound⟩
    exact (hinv.hist_basedOn hpre hbs.found hv).same_answers hsynced hinv.synced hpre k
  · -- behind the last commit there are data blocks only
    obtain ⟨bs₁, bs₂, hsplit, hend, hdata⟩ := hbs.last c hc
    obtain ⟨bs₃, rfl, rfl⟩ := hcut.keeps hsplit (hend ▸ hfin)
    rw [lastVersion_append]
    exact lastVersion_data (fun b hb => hdata b (List.mem_append_left _ hb)) c.ver
  · -- the whole file: no block is left over
    rw [hall, hinv.reopen] at hopen
    exact (Except.ok.inj hopen).symm

/-- The short run, cut in the record of its commit. -/
theorem recovery_shortRun :
    ∃ db, aodbmOpen smallBuild (shortRun.db.file.take 70) = .ok db ∧
      db = ⟨shortFile, 66, 0⟩ := by
  obtain ⟨done, todo, db, _, hopen, _⟩ :=
    recovery shortRun_reachable (List.take_prefix 70 shortRun.db.file)
  have hdb : aodbmOpen smallBuild (shortRun.db.file.take 70) = .ok ⟨shortFile, 66, 0⟩ := by
    decide +kernel
  exact ⟨db, hopen, Except.ok.inj (hopen.symm.trans hdb)⟩

end Aodbm
