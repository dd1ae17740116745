import Aodbm.Scan
import Aodbm.Snapshots

/-!
# The memory-mapped build (`AODBM_USE_MMAP`)

The stream keeps some of the bytes that were written in its buffer. A shared mapping of the
file does not show these: behind the bytes that have left the buffer it shows zeros up to the
end of the page, and behind that nothing. `aodbm_read` copies from the mapping when the range
lies in complete pages below `file_size`, whether or not these pages have left the buffer.

Results:
1. `Mapped.Ok.kept`: what every function keeps.
2. `eval_readMmap_stream`, `eval_readMmap_mapping`: the two ways of `aodbm_read`.
3. `mmap_simulates`: a function whose reads are all faithful does what it does without mapping.
4. `mmap_agrees`: when a read gives the bytes that the other build gives.
5. `mmap_differs`: a version that was set after a commit is read as zeros.
-/

namespace Aodbm

open Effects Bytes

/-- The page size and the buffering of the stream: how many bytes the buffer holds, and up to
which position bytes leave it early, by the length of the file before a write. -/
structure Platform where
  pageSize : Nat
  pageSize_pos : 0 < pageSize
  bufSize : Nat
  early : Nat → Nat

/-- The handle of the mapped build. `db.file` has all bytes given to `fwrite`, of which the
first `flushed` have left the buffer; `mapped` is `mapping != NULL`. -/
structure Mapped where
  db : Db
  flushed : Nat
  mapped : Bool
  mappingSize : Nat
deriving DecidableEq

/-- The steps of `aodbm_read` in this build. The first three are those on `mmap_mut`. -/
inductive MEff where
  | rdlock
  | wrlock
  | unlock
  | lockRw
  | unlockRw
  | getFileSize
  | getMapping
  | getMappingSize
  | setMappingSize (size : Nat)
  | mmap (size : Nat)
  | mremap (size : Nat)
  | copy (off sz : Nat)
  | seekAndRead (off sz : Nat)

@[reducible] def MEff.Res : MEff → Type
  | .getFileSize | .getMappingSize => Nat
  | .getMapping => Bool
  | .copy .. => Data
  | .seekAndRead .. => Option Data
  | _ => Unit

abbrev MOp (α : Type) := Prog MEff MEff.Res Err α

variable (P : Platform)

/-! ## `aodbm_read` -/

/-- The end of the mapped branch: `memcpy`, and `mmap_mut` is released. -/
def copyFromMapping (off sz : Nat) : MOp (Option Data) := do
  let bs ← Prog.perform (MEff.copy off sz)
  Prog.perform MEff.unlock
  pure (some bs)

/-- `aodbm_read` with `AODBM_USE_MMAP`. `none` is a read beyond the end of the file. The source
names `file_size` twice in the computation of the new size, without `rw`; here it is loaded once. -/
def aodbmReadMmap (off sz : Nat) : MOp (Option Data) := do
  Prog.perform MEff.rdlock
  let mappingSize ← Prog.perform MEff.getMappingSize
  if mappingSize < (off + sz) % 2 ^ 64 then do
    let fileSize ← Prog.perform MEff.getFileSize
    let newSize := fileSize - fileSize % P.pageSize
    if newSize < (off + sz) % 2 ^ 64 then do
      Prog.perform MEff.unlock
      Prog.perform MEff.lockRw
      let bs ← Prog.perform (MEff.seekAndRead off sz)
      Prog.perform MEff.unlockRw
      pure bs
    else do
      Prog.perform MEff.unlock
      Prog.perform MEff.wrlock
      let mapping ← Prog.perform MEff.getMapping
      if !mapping then do
        Prog.perform (MEff.mmap newSize)
        Prog.perform (MEff.setMappingSize newSize)
      else do
        let mappingSize ← Prog.perform MEff.getMappingSize
        if mappingSize < newSize then do
          Prog.perform (MEff.mremap newSize)
          Prog.perform (MEff.setMappingSize newSize)
        else pure ()
      Prog.perform MEff.unlock
      Prog.perform MEff.rdlock
      copyFromMapping off sz
  else copyFromMapping off sz

/-! ## The stream and the mapping -/

/-- The end of the last page of a file of this length. -/
def pagesEnd (len : Nat) : Nat := (len + P.pageSize - 1) / P.pageSize * P.pageSize

/-- What a shared mapping shows: the bytes that have left the buffer, and zeros up to the end
of the last page. -/
def Mapped.shown (m : Mapped) : Data :=
  m.db.file.take m.flushed ++ List.replicate (pagesEnd P m.flushed - m.flushed) 0

/-- `memcpy` from the mapping. -/
def Mapped.memcpy (m : Mapped) (off sz : Nat) : Except Err Data :=
  if sz = 0 then .ok []
  else if m.mappingSize < off + sz then .error .badAddress
  else
    match readFile (m.shown P) off sz with
    | some bs => .ok bs
    | none => .error .badAddress

/-- `fwrite` may leave bytes in the buffer, as many as it holds. -/
def Mapped.write (m : Mapped) (bs : Data) : Mapped :=
  { m with
    db := m.db.append bs
    flushed := max m.flushed (max (m.db.file.length + bs.length - P.bufSize)
      (min (P.early m.db.file.length) (m.db.file.length + bs.length))) }

def Mapped.flush (m : Mapped) : Mapped := { m with flushed := m.db.file.length }

/-- `fseeko` writes what is in the buffer. `mmap` and `mremap` do not fail here. -/
def Mapped.step : Handler MEff MEff.Res Err Mapped
  | .rdlock, m | .wrlock, m | .unlock, m | .lockRw, m | .unlockRw, m => .ok ((), m)
  | .getFileSize, m => .ok (m.db.fileSize, m)
  | .getMapping, m => .ok (m.mapped, m)
  | .getMappingSize, m => .ok (m.mappingSize, m)
  | .setMappingSize size, m => .ok ((), { m with mappingSize := size })
  | .mmap _, m | .mremap _, m => .ok ((), { m with mapped := true })
  | .copy off sz, m => (m.memcpy P off sz).map fun bs => (bs, m)
  | .seekAndRead off sz, m => .ok (readFile m.db.file off sz, m.flush)

/-- The effects of the library in this build. `aodbm_read` takes `rw` only when it reads from
the stream, which makes no difference to one thread. -/
def Mapped.handle : Handler Eff Eff.Res Err Mapped
  | .lockRw, m | .unlockRw, m | .lockVersion, m | .unlockVersion, m => .ok ((), m)
  | .getFileSize, m => .ok (m.db.fileSize, m)
  | .readAt off sz, m => run (Mapped.step P) (aodbmReadMmap P off sz) m
  | .write bs, m =>
    if m.db.file.length + bs.length < 2 ^ 63 then .ok ((), m.write P bs) else .error .osError
  | .flush, m => .ok ((), m.flush)
  | .getCur, m => .ok (m.db.cur, m)
  | .setCur ver, m => .ok ((), { m with db := { m.db with cur := ver } })

/-- The meaning of a function of the library in this build. -/
abbrev evalMmap {α : Type} (p : Op α) (m : Mapped) : Except Err (α × Mapped) :=
  run (Mapped.handle P) p m

/-- `aodbm_open` in this build. All that is left of the file has been written to it. -/
def aodbmOpenMmap (B : Build) (file : Data) : Except Err Mapped := do
  let db ← aodbmOpen B file
  let sz := db.fileSize - db.fileSize % P.pageSize
  if sz ≠ 0 then pure ⟨db, db.file.length, true, sz⟩
  else pure ⟨db, db.file.length, false, 0⟩

variable {P}
variable {B : Build} {m m' : Mapped} {off sz : Nat}

/-! ## What every function keeps -/

structure Mapped.Ok (m : Mapped) : Prop where
  synced : m.db.Synced
  flushed : m.flushed ≤ m.db.file.length
  mapping : m.mappingSize ≤ m.db.file.length
  unmapped : m.mapped = false → m.mappingSize = 0

variable (P) in
/-- The range is neither in the mapping nor in the complete pages below `file_size`. -/
def Mapped.UsesStream (m : Mapped) (off sz : Nat) : Prop :=
  m.mappingSize < (off + sz) % 2 ^ 64 ∧
    m.db.fileSize - m.db.fileSize % P.pageSize < (off + sz) % 2 ^ 64

variable (P) in
/-- The mapping made larger, if it has to be. -/
def Mapped.remap (m : Mapped) (off sz : Nat) : Mapped :=
  if m.mappingSize < (off + sz) % 2 ^ 64 then
    { m with mapped := true, mappingSize := m.db.fileSize - m.db.fileSize % P.pageSize }
  else m

@[simp] theorem remap_db : (m.remap P off sz).db = m.db := by
  unfold Mapped.remap
  split <;> rfl

@[simp] theorem remap_flushed : (m.remap P off sz).flushed = m.flushed := by
  unfold Mapped.remap
  split <;> rfl

theorem eval_readMmap_stream (h : m.UsesStream P off sz) :
    run (Mapped.step P) (aodbmReadMmap P off sz) m =
      .ok (readFile m.db.file off sz, m.flush) := by
  obtain ⟨h1, h2⟩ := h
  simp [-Nat.reducePow, aodbmReadMmap, run_bind, run_map, run_perform, Mapped.step, h1, h2]

theorem run_copy (m : Mapped) : run (Mapped.step P) (copyFromMapping off sz) m =
    (m.memcpy P off sz).map fun bs => (some bs, m) := by
  rw [copyFromMapping, run_bind, run_perform, Mapped.step]
  cases m.memcpy P off sz <;> rfl

theorem eval_readMmap_mapping (h : ¬ m.UsesStream P off sz) :
    run (Mapped.step P) (aodbmReadMmap P off sz) m =
      ((m.remap P off sz).memcpy P off sz).map fun bs => (some bs, m.remap P off sz) := by
  by_cases h1 : m.mappingSize < (off + sz) % 2 ^ 64
  · have h2 : ¬ m.db.fileSize - m.db.fileSize % P.pageSize < (off + sz) % 2 ^ 64 :=
      fun h2 => h ⟨h1, h2⟩
    rw [Mapped.remap, if_pos h1, ← run_copy]
    cases hmap : m.mapped with
    | false =>
      simp [-Nat.reducePow, aodbmReadMmap, run_bind, run_perform, Mapped.step, h1, h2, hmap]
    | true =>
      have h3 : m.mappingSize < m.db.fileSize - m.db.fileSize % P.pageSize := by omega
      simp [-Nat.reducePow, aodbmReadMmap, run_bind, run_perform, Mapped.step, h1, h2, h3, hmap]
  · rw [Mapped.remap, if_neg h1, ← run_copy]
    simp [-Nat.reducePow, aodbmReadMmap, run_bind, run_perform, Mapped.step, h1]

theorem Mapped.Ok.flush (hm : m.Ok) : m.flush.Ok :=
  ⟨hm.synced, Nat.le_refl _, hm.mapping, hm.unmapped⟩

theorem Mapped.Ok.remap (hm : m.Ok) : (m.remap P off sz).Ok := by
  unfold Mapped.remap
  split
  · have hsize := hm.synced.size
    exact ⟨hm.synced, hm.flushed, by simp only; omega, fun h => by cases h⟩
  · exact hm

theorem Mapped.Ok.write (hm : m.Ok) {bs : Data} (hfits : m.db.file.length + bs.length < 2 ^ 63) :
    (m.write P bs).Ok := by
  have hflushed := hm.flushed
  have hmapping := hm.mapping
  refine ⟨⟨?_, ?_⟩, ?_, ?_, hm.unmapped⟩ <;> simp only [Mapped.write, Db.append,
    List.length_append]
  · rw [hm.synced.size]
  · exact hfits
  · omega
  · omega

/-- Every effect keeps the state in order. -/
theorem Mapped.Ok.effect (hm : m.Ok) {e : Eff} {r : e.Res}
    (h : Mapped.handle P e m = .ok (r, m')) : m'.Ok := by
  cases e with
  | readAt off sz =>
    simp only [Mapped.handle] at h
    -- a read through the stream flushes, one through the mapping may remap
    by_cases hs : m.UsesStream P off sz
    · rw [eval_readMmap_stream hs] at h
      cases h
      exact hm.flush
    · rw [eval_readMmap_mapping hs] at h
      cases hcopy : (m.remap P off sz).memcpy P off sz with
      | error x =>
        rw [hcopy] at h
        cases h
      | ok bs =>
        rw [hcopy] at h
        cases h
        exact hm.remap
  | write bs =>
    simp only [Mapped.handle] at h
    split at h
    · next hfits =>
      cases h
      exact hm.write hfits
    · cases h
  | flush =>
    cases h
    exact hm.flush
  | setCur ver =>
    cases h
    exact ⟨⟨hm.synced.size, hm.synced.bound⟩, hm.flushed, hm.mapping, hm.unmapped⟩
  | _ =>
    cases h
    exact hm

theorem Mapped.Ok.kept (hm : m.Ok) {α : Type} {p : Op α} {a : α}
    (h : evalMmap P p m = .ok (a, m')) : m'.Ok := by
  refine run_invariant (I := Mapped.Ok) ?_ (only_true p) h hm
  intro e _ s r s' he hs
  exact hs.effect he

/-! ## What the mapping shows -/

variable (P) in
/-- The bytes of the range that are in the buffer are zeros, on the last page of the others. -/
def Mapped.Shows (m : Mapped) (off sz : Nat) : Prop :=
  ∀ i, off ≤ i → i < off + sz → m.flushed ≤ i →
    i < pagesEnd P m.flushed ∧ m.db.file[i]? = some 0

/-- A read that succeeds gives the bytes of the range. -/
theorem readFile_iff {file bs : Data} :
    readFile file off sz = some bs ↔ bs.length = sz ∧ ∀ j < sz, file[off + j]? = bs[j]? := by
  have hget : ∀ j < sz, ((file.drop off).take sz)[j]? = file[off + j]? := fun j hj => by
    rw [List.getElem?_take_of_lt hj, List.getElem?_drop]
  constructor
  · intro h
    obtain ⟨rfl, hlen⟩ := readFile_eq_some h
    exact ⟨hlen, fun j hj => (hget j hj).symm⟩
  · rintro ⟨rfl, h⟩
    have hsame : (file.drop off).take bs.length = bs := by
      refine List.ext_getElem? fun j => ?_
      by_cases hj : j < bs.length
      · rw [hget j hj, h j hj]
      · rw [List.getElem?_eq_none (Nat.not_lt.mp hj), List.getElem?_eq_none]
        rw [List.length_take]
        omega
    rw [readFile, hsame, if_pos rfl]

theorem le_pagesEnd (len : Nat) : len ≤ pagesEnd P len := by
  have hpos := P.pageSize_pos
  have hdiv := Nat.div_add_mod (len + P.pageSize - 1) P.pageSize
  have hmod := Nat.mod_lt (len + P.pageSize - 1) hpos
  rw [pagesEnd, Nat.mul_comm]
  omega

theorem shown_getElem (hm : m.Ok) (i : Nat) : (m.shown P)[i]? =
    if i < m.flushed then m.db.file[i]?
    else if i < pagesEnd P m.flushed then some 0 else none := by
  have hlen : (m.db.file.take m.flushed).length = m.flushed :=
    List.length_take_of_le hm.flushed
  rw [Mapped.shown]
  by_cases hi : i < m.flushed
  · rw [if_pos hi, List.getElem?_append_left (by omega), List.getElem?_take_of_lt hi]
  · rw [if_neg hi, List.getElem?_append_right (by omega), List.getElem?_replicate, hlen]
    have := le_pagesEnd (P := P) m.flushed
    by_cases hp : i < pagesEnd P m.flushed
    · rw [if_pos hp, if_pos (by omega)]
    · rw [if_neg hp, if_neg (by omega)]

/-- One byte is shown as it is in the file. -/
theorem shown_iff (hm : m.Ok) {i : Nat} (hi : i < m.db.file.length) :
    (m.shown P)[i]? = m.db.file[i]? ↔
      (m.flushed ≤ i → i < pagesEnd P m.flushed ∧ m.db.file[i]? = some 0) := by
  rw [shown_getElem hm]
  by_cases hf : i < m.flushed
  · simp [hf]
  · rw [if_neg hf, List.getElem?_eq_getElem hi]
    by_cases hp : i < pagesEnd P m.flushed
    · simp [hp, Nat.not_lt.mp hf, eq_comm]
    · simp [hp, Nat.not_lt.mp hf]

/-- A copy gives the bytes of the file exactly when the mapping shows them. -/
theorem memcpy_iff (hm : m.Ok) {bs : Data} (hr : readFile m.db.file off sz = some bs)
    (hin : off + sz ≤ m.mappingSize) : m.memcpy P off sz = .ok bs ↔ m.Shows P off sz := by
  obtain ⟨hlen, hbs⟩ := readFile_iff.mp hr
  have hbound := hm.mapping
  rcases eq_or_ne sz 0 with rfl | hsz
  · have hnil : bs = [] := List.eq_nil_of_length_eq_zero hlen
    simp [Mapped.memcpy, Mapped.Shows, hnil]
    intro i h1 h2
    omega
  · have hcopy : m.memcpy P off sz = .ok bs ↔ readFile (m.shown P) off sz = some bs := by
      rw [Mapped.memcpy, if_neg hsz, if_neg (by omega)]
      cases readFile (m.shown P) off sz <;> simp
    rw [hcopy, readFile_iff]
    constructor
    · rintro ⟨_, h⟩ i h1 h2
      have hj := (h (i - off) (by omega)).trans (hbs (i - off) (by omega)).symm
      rw [Nat.add_sub_cancel' h1] at hj
      exact (shown_iff hm (by omega)).mp hj
    · intro h
      refine ⟨hlen, fun j hj => ((shown_iff hm (by omega)).mpr ?_).trans (hbs j hj)⟩
      exact h (off + j) (by omega) (by omega)

/-! ## Reads in the two builds -/

theorem readFile_inside {file : Data} (h : off + sz ≤ file.length) :
    ∃ bs, readFile file off sz = some bs := by
  refine ⟨_, if_pos ?_⟩
  rw [List.length_take, List.length_drop]
  omega

theorem evalMmap_aodbmRead (m : Mapped) : evalMmap P (aodbmRead off sz) m =
    match run (Mapped.step P) (aodbmReadMmap P off sz) m with
    | .ok (some bs, m') => .ok (bs, m')
    | .ok (none, _) => .error .eof
    | .error e => .error e := by
  have hlock : run (Mapped.handle P) lockRw m = .ok ((), m) := rfl
  have hread : run (Mapped.handle P) (seekAndRead off sz) m =
      run (Mapped.step P) (aodbmReadMmap P off sz) m := run_perform ..
  rw [aodbmRead, evalMmap, run_bind_ok hlock, run_bind, hread]
  cases run (Mapped.step P) (aodbmReadMmap P off sz) m with
  | error e => rfl
  | ok r =>
    obtain ⟨bs, m'⟩ := r
    cases bs <;> rfl

/-- Inside the file `aodbm_read` gives the bytes of the file exactly when it reads them from
the stream or the mapping shows them. -/
theorem Mapped.Ok.read_iff (hm : m.Ok) {bs : Data} (hr : readFile m.db.file off sz = some bs)
    (h : off + sz ≤ m.db.file.length) :
    (∃ m', run (Mapped.step P) (aodbmReadMmap P off sz) m = .ok (some bs, m') ∧ m'.db = m.db) ↔
      m.UsesStream P off sz ∨ m.Shows P off sz := by
  by_cases hs : m.UsesStream P off sz
  · rw [eval_readMmap_stream hs, hr]
    exact ⟨fun _ => Or.inl hs, fun _ => ⟨_, rfl, rfl⟩⟩
  · have hbound := hm.synced.bound
    have hmod : (off + sz) % 2 ^ 64 = off + sz := Nat.mod_eq_of_lt (by omega)
    have hin : off + sz ≤ (m.remap P off sz).mappingSize := by
      unfold Mapped.remap
      unfold Mapped.UsesStream at hs
      rw [hmod] at hs ⊢
      split
      · next hlt => exact Nat.not_lt.mp fun h2 => hs ⟨hlt, h2⟩
      · next hge => exact Nat.not_lt.mp hge
    have hshows : (m.remap P off sz).Shows P off sz ↔ m.Shows P off sz := by simp [Mapped.Shows]
    have hremap : (m.remap P off sz).Ok := hm.remap
    have hcopy := memcpy_iff (P := P) hremap (by simpa using hr) hin
    rw [eval_readMmap_mapping hs, ← hshows, ← hcopy, or_iff_right hs]
    cases (m.remap P off sz).memcpy P off sz with
    | error e => simp [Except.map]
    | ok bs' => simp [Except.map]

/-! ## Functions in the two builds -/

variable (P) in
/-- The reads that the function makes when it is run in `m` are faithful. -/
def Faithful {α : Type} : Op α → Mapped → Prop
  | .pure _, _ => True
  | .fail _, _ => True
  | .op e k, m =>
    (∀ off sz, e = .readAt off sz → off + sz ≤ m.db.fileSize ∧
      (m.UsesStream P off sz ∨ m.Shows P off sz)) ∧
    match Mapped.handle P e m with
    | .ok (r, m') => Faithful (k r) m'
    | .error _ => True

/-- One effect does to the data of the handle what it does in the other build. -/
theorem Mapped.Ok.simulates (hm : m.Ok) {e : Eff} (he : ∀ off sz, e = .readAt off sz →
    off + sz ≤ m.db.fileSize ∧ (m.UsesStream P off sz ∨ m.Shows P off sz)) :
    (Mapped.handle P e m).map (fun r => (r.1, r.2.db)) = Db.handle e m.db := by
  cases e with
  | readAt off sz =>
    obtain ⟨hin, hread⟩ := he off sz rfl
    rw [hm.synced.size] at hin
    obtain ⟨bs, hbs⟩ := readFile_inside hin
    obtain ⟨m', hrun, hdb⟩ := (hm.read_iff hbs hin).mpr hread
    simp only [Mapped.handle, Db.handle, hrun, hbs, Except.map, hdb]
  | write bs =>
    simp only [Mapped.handle, Db.handle]
    split <;> rfl
  | _ => rfl

/-- A function all whose reads are faithful does the same in both builds. -/
theorem mmap_simulates (hm : m.Ok) {α : Type} {p : Op α} (hp : Faithful P p m) :
    (evalMmap P p m).map (fun r => (r.1, r.2.db)) = eval p m.db := by
  induction p generalizing m with
  | pure a => rfl
  | fail e => rfl
  | op e k ih =>
    rw [Faithful] at hp
    obtain ⟨he, hk⟩ := hp
    have hstep := hm.simulates he
    rw [evalMmap, eval, run_op, run_op, ← hstep]
    cases hrun : Mapped.handle P e m with
    | error x => rfl
    | ok r =>
      rw [hrun] at hk
      exact ih r.1 (hm.effect hrun) hk

/-! ## Runs -/

variable (P B) in
/-- One call, on any version. -/
inductive MappedStep : Mapped → Mapped → Prop where
  | set {m m' : Mapped} {ver v : Nat} {k x : Data}
      (run : evalMmap P (aodbmSet B ver k x) m = .ok (v, m')) : MappedStep m m'
  | del {m m' : Mapped} {ver v : Nat} {k : Data}
      (run : evalMmap P (aodbmDel B ver k) m = .ok (v, m')) : MappedStep m m'
  | commit {m m' : Mapped} {ver : Nat} {r : Bool}
      (run : evalMmap P (aodbmCommit B ver) m = .ok (r, m')) : MappedStep m m'
  | read {m m' : Mapped} {off sz : Nat} {bs : Data}
      (run : evalMmap P (aodbmRead off sz) m = .ok (bs, m')) : MappedStep m m'

variable (P B) in
/-- A file is opened, and some calls are made. -/
def MappedReachable (m : Mapped) : Prop :=
  ∃ file m₀, file.length < 2 ^ 63 ∧ aodbmOpenMmap P B file = .ok m₀ ∧
    Relation.ReflTransGen (MappedStep P B) m₀ m

theorem open_ok {file : Data} (hfile : file.length < 2 ^ 63)
    (h : aodbmOpenMmap P B file = .ok m) : m.Ok := by
  unfold aodbmOpenMmap at h
  cases hopen : aodbmOpen B file with
  | error e =>
    rw [hopen] at h
    cases h
  | ok db =>
    obtain ⟨hsize, hlen⟩ := open_synced hopen
    have hsynced : db.Synced := ⟨hsize, by omega⟩
    rw [hopen] at h
    simp only [bind, Except.bind, pure, Except.pure] at h
    split at h
    · cases h
      exact ⟨hsynced, Nat.le_refl _, by simp only; omega, fun h => by cases h⟩
    · cases h
      exact ⟨hsynced, Nat.le_refl _, Nat.zero_le _, fun _ => rfl⟩

theorem ok_of_reachable (hm : MappedReachable P B m) : m.Ok := by
  obtain ⟨file, m₀, hfile, hopen, hrun⟩ := hm
  induction hrun with
  | refl => exact open_ok hfile hopen
  | tail _ hstep ih =>
    cases hstep with
    | set run => exact ih.kept run
    | del run => exact ih.kept run
    | commit run => exact ih.kept run
    | read run => exact ih.kept run

/-- In every state that is reached, a read inside the file gives in both builds the same bytes
exactly when it is made from the stream, or no byte of the range is still in the buffer, or
those that are happen to be zeros on the last page of the bytes that are not. -/
theorem mmap_agrees (hm : MappedReachable P B m) (h : off + sz ≤ m.db.fileSize) :
    (∃ bs m', eval (aodbmRead off sz) m.db = .ok (bs, m.db) ∧
      evalMmap P (aodbmRead off sz) m = .ok (bs, m') ∧ m'.db = m.db) ↔
      m.UsesStream P off sz ∨ m.Shows P off sz := by
  have hok := ok_of_reachable hm
  rw [hok.synced.size] at h
  obtain ⟨bs, hbs⟩ := readFile_inside h
  rw [← hok.read_iff hbs h, eval_read_cases, evalMmap_aodbmRead, hbs]
  constructor
  · rintro ⟨bs', m', hplain, hmapped, hdb⟩
    cases hplain
    refine ⟨m', ?_, hdb⟩
    split at hmapped
    · next hrun =>
      cases hmapped
      exact hrun
    · cases hmapped
    · cases hmapped
  · rintro ⟨m', hrun, hdb⟩
    rw [hrun]
    exact ⟨bs, m', rfl, rfl, hdb⟩

/-! ## A stale page -/

/-- The handle after bytes were written that stay in the buffer. -/
def Mapped.append (m : Mapped) (bs : Data) : Mapped := { m with db := m.db.append bs }

theorem Mapped.append_append (bs cs : Data) : (m.append bs).append cs = m.append (bs ++ cs) := by
  simp [Mapped.append, Db.append_append]

/-- A stream that writes only when it has to keeps what fits the buffer. -/
theorem evalMmap_writeBytes (hlazy : ∀ n, P.early n = 0) {bs : Data}
    (hfits : m.db.file.length + bs.length < 2 ^ 63)
    (hbuf : m.db.file.length + bs.length ≤ m.flushed + P.bufSize) :
    run (Mapped.handle P) (aodbmWriteBytes bs) m = .ok ((), m.append bs) := by
  have hmax : max m.flushed (max (m.db.file.length + bs.length - P.bufSize)
      (min (P.early m.db.file.length) (m.db.file.length + bs.length))) = m.flushed := by
    rw [hlazy]
    omega
  have hwrite : m.write P bs = m.append bs := by rw [Mapped.write, hmax, Mapped.append]
  rw [aodbmWriteBytes, run_perform, ← hwrite]
  exact if_pos hfits

/-- A block that fits the buffer stays there. -/
theorem evalMmap_dataBlock (hlazy : ∀ n, P.early n = 0) {data : Data}
    (hfits : m.db.file.length + (Block.enc B (.data data)).length < 2 ^ 63)
    (hbuf : m.db.file.length + (Block.enc B (.data data)).length ≤ m.flushed + P.bufSize) :
    run (Mapped.handle P) (aodbmWriteDataBlock B data) m =
      .ok ((), m.append (Block.enc B (.data data))) := by
  rw [data_enc_length] at hfits hbuf
  have hlock : run (Mapped.handle P) lockRw m = .ok ((), m) := rfl
  have hwrites : ∀ bs cs : Data, (bs ++ cs).length ≤ 5 + data.length →
      run (Mapped.handle P) (aodbmWriteBytes cs) (m.append bs) = .ok ((), m.append (bs ++ cs)) := by
    intro bs cs hlen
    rw [List.length_append] at hlen
    rw [evalMmap_writeBytes hlazy
      (by simp only [Mapped.append, Db.append, List.length_append]; omega)
      (by simp only [Mapped.append, Db.append, List.length_append]; omega), Mapped.append_append]
  have hnil : m.append [] = m := by simp [Mapped.append, Db.append]
  have htype := hwrites [] [dataBlock]
    (by simp only [List.nil_append, List.length_singleton]; omega)
  have hsize := hwrites [dataBlock] (aodbmDataFrom32 B (data.length % 2 ^ 32))
    (by simp only [List.length_append, List.length_singleton, from32_length]; omega)
  have hdata := hwrites ([dataBlock] ++ aodbmDataFrom32 B (data.length % 2 ^ 32)) data
    (by simp only [List.length_append, List.length_singleton, from32_length]; omega)
  rw [hnil, List.nil_append] at htype
  rw [aodbmWriteDataBlock, run_bind_ok hlock, run_bind_ok htype, run_bind_ok hsize,
    run_bind_ok hdata]
  rfl

/-- Pages and a buffer of 4096 bytes, and a stream that writes only when it has to. -/
def pagePlatform : Platform := ⟨4096, by decide, 4096, fun _ => 0⟩

/-- A version is set and committed. -/
def committed : Mapped where
  db := ⟨[100, 0, 0, 0, 21, 0, 0, 0, 0, 0, 0, 0, 0, 108, 0, 0, 0, 1, 0, 0, 0, 0, 0, 0, 0, 0] ++
    [118, 0, 0, 0, 0, 0, 0, 0, 5], 35, 5⟩
  flushed := 35
  mapped := false
  mappingSize := 0

/-- What the next version adds to the file: a leaf with a value of 4060 bytes. -/
def overPage : Block :=
  .data (aodbmDataFrom64 smallBuild 0 ++ Node.enc smallBuild (.leaf [([], List.replicate 4060 0)]))

/-- The file is longer than a page, and most of it is in the buffer. -/
def stale : Mapped := committed.append (overPage.enc smallBuild)

theorem overPage_length : (overPage.enc smallBuild).length = 4086 := by
  have hgen : ∀ x : Data, x.length = 4060 → (Block.enc smallBuild (.data
      (aodbmDataFrom64 smallBuild 0 ++ Node.enc smallBuild (.leaf [([], x)])))).length = 4086 := by
    intro x hx
    rw [data_enc_length]
    simp [Node.enc, hx]
  exact hgen _ List.length_replicate

theorem stale_length : stale.db.file.length = 4121 := by
  rw [stale, Mapped.append, Db.append, List.length_append, overPage_length]
  rfl

theorem stale_reachable : MappedReachable pagePlatform smallBuild stale := by
  have h1 : evalMmap pagePlatform (aodbmSet smallBuild 0 [] []) ⟨Db.empty, 0, false, 0⟩ =
      .ok (5, ⟨⟨committed.db.file.take 26, 26, 0⟩, 0, false, 0⟩) := by decide +kernel
  have h2 : evalMmap pagePlatform (aodbmCommit smallBuild 5)
      ⟨⟨committed.db.file.take 26, 26, 0⟩, 0, false, 0⟩ = .ok (true, committed) := by
    decide +kernel
  have hblock : run (Mapped.handle pagePlatform) (aodbmWriteDataBlock smallBuild
      (aodbmDataFrom64 smallBuild 0 ++
        Node.enc smallBuild (.leaf [([], List.replicate 4060 0)]))) committed =
      .ok ((), stale) := by
    have hlen := overPage_length
    rw [overPage] at hlen
    exact evalMmap_dataBlock (fun _ => rfl) (by rw [hlen]; decide) (by rw [hlen]; decide)
  have h3 : evalMmap pagePlatform (aodbmSet smallBuild 0 [] (List.replicate 4060 0)) committed =
      .ok (40, stale) := by
    have hlock : run (Mapped.handle pagePlatform) lockRw committed = .ok ((), committed) := rfl
    have hsize : run (Mapped.handle pagePlatform) aodbmFileSize committed =
      .ok (35, committed) := rfl
    rw [aodbmSet, evalMmap, run_bind_ok hlock, run_bind_ok hsize, setResult_zero, pure_bind,
      run_bind_ok hblock]
    rfl
  exact ⟨[], ⟨Db.empty, 0, false, 0⟩, by decide, rfl, ((Relation.ReflTransGen.single
    (.set h1)).tail (.commit h2)).tail (.set h3)⟩

/-- The first byte of this file is shown by the mapping. -/
theorem mmap_agrees_stale : ∃ bs m', eval (aodbmRead 0 1) stale.db = .ok (bs, stale.db) ∧
    evalMmap pagePlatform (aodbmRead 0 1) stale = .ok (bs, m') ∧ m'.db = stale.db := by
  have hin : 0 + 1 ≤ stale.db.fileSize := by
    rw [(ok_of_reachable stale_reachable).synced.size, stale_length]
    decide
  refine (mmap_agrees stale_reachable hin).mpr (Or.inr fun i _ hlt hle => ?_)
  have hflushed : 35 ≤ i := hle
  omega

/-- The root of the newest version is a leaf, which reads as a zero byte, so that a lookup ends
the process. -/
theorem mmap_differs : MappedReachable pagePlatform smallBuild stale ∧
    48 + 1 ≤ stale.db.fileSize ∧ eval (aodbmRead 48 1) stale.db = .ok ([leafType], stale.db) ∧
    (∃ m', evalMmap pagePlatform (aodbmRead 48 1) stale = .ok ([0], m')) ∧
    evalMmap pagePlatform (aodbmGet smallBuild 40 []) stale = .error .unknownNodeType := by
  have hok := ok_of_reachable stale_reachable
  have hlen := stale_length
  have hsize := hok.synced.size
  have hplain : SegAt stale.db.file 48 [leafType] := by
    have hseg := (segAt_end committed.db.file (overPage.enc smallBuild)).right.right.left.left
    rw [List.length_append, from32_length, from64_length] at hseg
    exact hseg
  have hstream : ¬ stale.UsesStream pagePlatform 48 1 := by
    rintro ⟨-, h⟩
    rw [hsize, hlen] at h
    revert h
    decide
  -- the byte is behind those that have left the buffer, and on their page
  have hzero : (stale.remap pagePlatform 48 1).memcpy pagePlatform 48 1 = .ok [0] := by
    have hmapping : (stale.remap pagePlatform 48 1).mappingSize = 4096 := by
      have hlt : stale.mappingSize < (48 + 1) % 2 ^ 64 := by decide
      rw [Mapped.remap, if_pos hlt, hsize, hlen]
      rfl
    have hread : readFile ((stale.remap pagePlatform 48 1).shown pagePlatform) 48 1 = some [0] := by
      refine readFile_iff.mpr ⟨rfl, fun j hj => ?_⟩
      obtain rfl : j = 0 := by omega
      rw [shown_getElem hok.remap, remap_flushed]
      rfl
    rw [Mapped.memcpy, if_neg (by decide), hmapping, if_neg (by decide), hread]
  have hread : run (Mapped.step pagePlatform) (aodbmReadMmap pagePlatform 48 1) stale =
      .ok (some [0], stale.remap pagePlatform 48 1) := by
    rw [eval_readMmap_mapping hstream, hzero]
    rfl
  have hstale : evalMmap pagePlatform (aodbmRead 48 1) stale =
      .ok ([0], stale.remap pagePlatform 48 1) := by
    rw [evalMmap_aodbmRead, hread]
  have htype : run (Mapped.handle pagePlatform) (readType 48) stale =
      .ok (0, stale.remap pagePlatform 48 1) := run_bind_ok hstale
  have hsearch : run (Mapped.handle pagePlatform) (aodbmSearch smallBuild 40 []) stale =
      .error .unknownNodeType := by
    rw [aodbmSearch, if_neg (by decide), maxDepth_eq, aodbmSearchRecursive, run_bind_ok htype]
    rfl
  refine ⟨stale_reachable, by omega, eval_read hplain, ⟨_, hstale⟩, ?_⟩
  rw [aodbmGet, if_neg (by decide), evalMmap, run_bind_error hsearch]

end Aodbm
