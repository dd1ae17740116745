import Aodbm.Blocks

/-!
# The scan of arbitrary bytes

Any file is a sequence of complete blocks and a rest: nothing, a torn block, or a byte that
no block begins with. The complete blocks are determined by the file.

Results:
1. `exists_blocks`: every file is of this form.
2. `Ends.longest`: there is no longer sequence of complete blocks.
3. `open_scan`: `aodbm_open` keeps the longest sequence of complete blocks, or stops the
   process at a byte that begins no block; what it keeps it keeps again.
-/

namespace Aodbm

open Bytes

variable (B : Build)

/-- The next byte is neither `'d'` nor `'v'`. -/
def Unknown (rest : Data) : Prop :=
  ∃ t tail, rest = t :: tail ∧ t ≠ dataBlock ∧ t ≠ versionBlock

/-- No complete block begins here. -/
def Ends (rest : Data) : Prop := Torn B rest ∨ Unknown rest

/-- The longest sequence of complete blocks at the beginning of the file. -/
structure Longest (file : Data) (bs : List Block) : Prop where
  fits : ∀ b ∈ bs, b.Fits
  begins : encBlocks B bs <+: file
  longest : ∀ cs, (∀ c ∈ cs, c.Fits) → encBlocks B cs <+: file → encBlocks B cs <+: encBlocks B bs

variable {B}
variable {b c : Block} {bs cs : List Block} {file rest tail : Data}

/-! ## One block -/

/-- At most one block begins a file. -/
theorem block_unique (hb : b.Fits) (hc : c.Fits) (hbf : b.enc B <+: file) (hcf : c.enc B <+: file) :
    b = c := by
  have hsb : SegAt file 0 (b.enc B) := by
    obtain ⟨t, rfl⟩ := hbf
    exact segAt_mid [] _ t
  have hsc : SegAt file 0 (c.enc B) := by
    obtain ⟨t, rfl⟩ := hcf
    exact segAt_mid [] _ t
  have hne : ([dataBlock] : Data) ≠ [versionBlock] := by decide
  cases b with
  | data p =>
    cases c with
    | data q =>
      have hlen := hsb.left.right.unique hsc.left.right (by simp)
      have hpq : p.length = q.length := by
        have := congrArg (to32 B) hlen
        rwa [to32_from32 (Nat.mod_lt _ (by decide)), to32_from32 (Nat.mod_lt _ (by decide)),
          Nat.mod_eq_of_lt hb, Nat.mod_eq_of_lt hc] at this
      have hp := hsb.right
      have hq := hsc.right
      simp only [List.length_append, List.length_singleton, from32_length] at hp hq
      rw [hp.unique hq hpq]
    | version v => exact absurd (hsb.left.left.unique hsc.left rfl) hne
  | version v =>
    cases c with
    | data q => exact absurd (hsc.left.left.unique hsb.left rfl) hne
    | version u =>
      have h := hsb.right.unique hsc.right (by simp)
      have := congrArg (to64 B) h
      rw [to64_from64 hb, to64_from64 hc] at this
      rw [this]

/-- Some bytes are too few for a field of length `n`, or begin with one. -/
theorem fill_or_split (n : Nat) (xs : Data) :
    (∃ fill, fill ≠ [] ∧ (xs ++ fill).length = n) ∨ ∃ ys zs, ys.length = n ∧ xs = ys ++ zs := by
  rcases lt_or_ge xs.length n with hlt | hle
  · refine Or.inl ⟨List.replicate (n - xs.length) 0, ?_, ?_⟩
    · rw [ne_eq, List.replicate_eq_nil_iff]
      omega
    · rw [List.length_append, List.length_replicate]
      omega
  · exact Or.inr ⟨xs.take n, xs.drop n, by rw [List.length_take]; omega,
      (List.take_append_drop n xs).symm⟩

/-- A file ends where no block begins, or begins with a block. -/
theorem ends_or_block (file : Data) :
    Ends B file ∨ ∃ (b : Block) (rest : Data), b.Fits ∧ file = b.enc B ++ rest := by
  cases file with
  | nil => exact Or.inl (Or.inl torn_nil)
  | cons t tail =>
    rcases eq_or_ne t versionBlock with rfl | hv
    · rcases fill_or_split 8 tail with ⟨fill, hne, hlen⟩ | ⟨ver, rest, hlen, rfl⟩
      · refine Or.inl (Or.inl (torn_of_append (b := .version (to64 B (tail ++ fill)))
          (to64_lt hlen) ?_ hne))
        rw [Block.enc, from64_to64 hlen]
        simp
      · refine Or.inr ⟨.version (to64 B ver), rest, to64_lt hlen, ?_⟩
        rw [Block.enc, from64_to64 hlen]
        simp
    rcases eq_or_ne t dataBlock with rfl | hd
    · rcases fill_or_split 4 tail with ⟨fill, hne, hlen⟩ | ⟨sz, rest, hlen, rfl⟩
      · -- the file ends in the length: any payload as long as the filled length says completes it
        have hlt := to32_lt (B := B) hlen
        obtain ⟨payload, hpay⟩ : ∃ p : Data, p.length = to32 B (tail ++ fill) :=
          ⟨List.replicate _ 0, List.length_replicate⟩
        have hpad : fill ++ payload ≠ [] := List.append_ne_nil_of_left_ne_nil hne _
        refine Or.inl (Or.inl (torn_of_append (b := .data payload) ?_ ?_ hpad))
        · rwa [Block.Fits, hpay]
        · rw [Block.enc, hpay, Nat.mod_eq_of_lt hlt, from32_to32 hlen]
          simp
      · have hlt := to32_lt (B := B) hlen
        rcases fill_or_split (to32 B sz) rest with ⟨fill, hne, hpay⟩ | ⟨payload, rest, hpay, rfl⟩
        · -- the file ends in the payload
          refine Or.inl (Or.inl (torn_of_append (b := .data (rest ++ fill)) ?_ ?_ hne))
          · rwa [Block.Fits, hpay]
          · rw [Block.enc, hpay, Nat.mod_eq_of_lt hlt, from32_to32 hlen]
            simp
        · refine Or.inr ⟨.data payload, rest, ?_, ?_⟩
          · rwa [Block.Fits, hpay]
          · rw [Block.enc, hpay, Nat.mod_eq_of_lt hlt, from32_to32 hlen]
            simp
    · exact Or.inl (Or.inr ⟨t, tail, rfl, hd, hv⟩)

/-! ## All blocks -/

theorem block_pos (b : Block) : 0 < (b.enc B).length := by
  cases b <;> simp

/-- Every file is a sequence of complete blocks and a rest in which none begins. -/
theorem exists_blocks (file : Data) :
    ∃ bs rest, (∀ b ∈ bs, b.Fits) ∧ file = encBlocks B bs ++ rest ∧ Ends B rest := by
  obtain ⟨n, hn⟩ : ∃ n, file.length = n := ⟨_, rfl⟩
  induction n using Nat.strongRecOn generalizing file with
  | ind n ih =>
    rcases ends_or_block (B := B) file with hends | ⟨b, rest, hb, rfl⟩
    · exact ⟨[], file, by simp, rfl, hends⟩
    · have hpos := block_pos (B := B) b
      obtain ⟨bs, tail, hbs, rfl, hends⟩ := ih rest.length
        (by rw [← hn, List.length_append]; omega) rest rfl
      refine ⟨b :: bs, tail, ?_, by simp, hends⟩
      intro c hc
      rcases List.mem_cons.mp hc with rfl | hc
      · exact hb
      · exact hbs c hc

/-- Where the file ends no block begins. -/
theorem Ends.no_block (h : Ends B rest) (hc : c.Fits) : ¬ c.enc B <+: rest := by
  intro hpre
  rcases h with ⟨b, hb, hrest, hlt⟩ | ⟨t, tail, rfl, hd, hv⟩
  · have hbc : b = c := block_unique hb hc (List.prefix_refl _) (hpre.trans hrest)
    have := hpre.length_le
    rw [hbc] at hlt
    omega
  · obtain ⟨u, hu⟩ := hpre
    cases c with
    | data p => exact hd (List.cons.inj hu).1.symm
    | version v => exact hv (List.cons.inj hu).1.symm

/-- Complete blocks up to where none begins are the longest sequence of complete blocks. -/
theorem Ends.longest (h : Ends B rest) (hbs : ∀ b ∈ bs, b.Fits) :
    Longest B (encBlocks B bs ++ rest) bs := by
  refine ⟨hbs, List.prefix_append _ _, fun cs hcs hpre => ?_⟩
  induction bs generalizing cs with
  | nil =>
    cases cs with
    | nil => exact List.nil_prefix
    | cons c cs =>
      rw [encBlocks_cons] at hpre
      exact absurd ((List.prefix_append _ _).trans hpre) (h.no_block (hcs c List.mem_cons_self))
  | cons b bs ih =>
    cases cs with
    | nil => exact List.nil_prefix
    | cons c cs =>
      simp only [encBlocks_cons, List.append_assoc] at hpre ⊢
      have hbc : b = c := block_unique (hbs b List.mem_cons_self) (hcs c List.mem_cons_self)
        (List.prefix_append _ _) ((List.prefix_append _ _).trans hpre)
      subst hbc
      rw [List.prefix_append_right_inj] at hpre ⊢
      exact ih (fun d hd => hbs d (List.mem_cons_of_mem _ hd)) cs
        (fun d hd => hcs d (List.mem_cons_of_mem _ hd)) hpre

/-! ## `aodbm_open` -/

theorem openLoop_unknown {done : Data} (h : Unknown rest) (rounds cur : Nat) :
    openLoop B (done ++ rest) (done ++ rest).length (rounds + 1) done.length done.length cur =
      .error .unknownBlockType := by
  obtain ⟨t, tail, rfl, hd, hv⟩ := h
  have htype : readFile (done ++ t :: tail) done.length 1 = some [t] := by
    have hseg : SegAt (done ++ t :: tail) done.length [t] := by
      simpa using segAt_mid done [t] tail
    exact readFile_segAt hseg
  rw [openLoop, htype]
  simp [hd, hv]

/-- `aodbm_open` on any file: with the longest sequence of complete blocks, either a byte
behind it begins no block, and the process is stopped; or the file is cut to these blocks,
behind which there is at most a torn one, and opening what is left gives the same. -/
theorem open_scan (file : Data) : ∃ bs rest, Longest B file bs ∧ file = encBlocks B bs ++ rest ∧
    (Unknown rest ∧ aodbmOpen B file = .error .unknownBlockType ∨
      Torn B rest ∧ ∃ db, aodbmOpen B file = .ok db ∧ db.file = encBlocks B bs ∧
        db.fileSize = db.file.length ∧ db.cur = lastVersion 0 bs ∧
        aodbmOpen B db.file = .ok db) := by
  obtain ⟨bs, rest, hbs, rfl, hends⟩ := exists_blocks (B := B) file
  refine ⟨bs, rest, hends.longest hbs, rfl, ?_⟩
  rcases hends with htorn | hunknown
  · refine Or.inr ⟨htorn, _, openBlocks hbs htorn, rfl, rfl, rfl, ?_⟩
    have := openBlocks hbs (torn_nil (B := B))
    rwa [List.append_nil] at this
  · obtain ⟨rounds, heq⟩ := open_eq (B := B) hbs rest
    exact Or.inl ⟨hunknown, heq.trans (openLoop_unknown hunknown rounds _)⟩

/-- What `aodbm_open` keeps of the file. -/
theorem open_synced {db : Db} (h : aodbmOpen B file = .ok db) :
    db.fileSize = db.file.length ∧ db.file.length ≤ file.length := by
  obtain ⟨bs, rest, -, hfile, ⟨-, herror⟩ | ⟨-, db', hok, hcut, hsize, -⟩⟩ :=
    open_scan (B := B) file
  · rw [herror] at h
    cases h
  · rw [hok] at h
    cases h
    refine ⟨hsize, ?_⟩
    rw [hcut, hfile, List.length_append]
    exact Nat.le_add_right _ _

end Aodbm
