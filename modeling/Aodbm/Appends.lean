import Aodbm.Lib.Interleaving
import Aodbm.Locks
import Aodbm.Scan
import Aodbm.Snapshots

/-!
# The positions of the blocks

Any number of threads call `aodbm_set`, `aodbm_del` and `aodbm_commit`, and one step is one
effect of one thread: a mutex that is taken or given back, `file_size`, a read, or one `fwrite`.
`aodbm_set` and `aodbm_del` compute the offsets in a block from `file_size` long before they
write it.

A thread owns the end of the file while it holds `rw`. `Own` is what it knows there: the file,
and which writes of a block it has done.

Results:
1. `wp_reads`: what a thread reads it would also read from any later file.
2. `wp_set`, `wp_del`, `wp_commit`: a call does at its end what it does alone on the file that it
   found.
3. `append_positions`: blocks are whole, and what is returned is the offset of a header.
4. `position_astray`: in `aodbm_set` the offset is lost when the block is long.
-/

namespace Aodbm

open Effects Bytes Mutexes Interleaving Records

variable (B : Build)

/-! ## The calls -/

/-- A call that writes. -/
inductive Job where
  | set (ver : Nat) (key val : Data)
  | del (ver : Nat) (key : Data)
  | commit (version : Nat)

/-- The version that the call is given. -/
def Job.ver : Job → Nat
  | .set ver _ _ => ver
  | .del ver _ => ver
  | .commit version => version

/-- A version is a `uint64_t`. -/
def Job.Fits (j : Job) : Prop := j.ver < 2 ^ 64

/-- The call with its result; that of `aodbm_commit` is a `bool`. -/
def Job.op : Job → Op Nat
  | .set ver key val => aodbmSet B ver key val
  | .del ver key => aodbmDel B ver key
  | .commit version => do
    let result ← aodbmCommit B version
    pure result.toNat

/-- The records after the call. -/
def Job.records : Job → List Rec → List Rec
  | .set _ key val, rs => upsert (rank B) key val rs
  | .del _ key, rs => erase key rs
  | .commit _, rs => rs

/-- What goes to the file. -/
def Eff.written : Eff → List Data
  | .write bs => [bs]
  | _ => []

/-- No write is of `2 ^ 32` bytes or more. -/
def Eff.Short : Eff → Prop
  | .write bs => bs.length < 2 ^ 32
  | _ => True

instance : DecidablePred Eff.Short
  | .write bs => inferInstanceAs (Decidable (bs.length < 2 ^ 32))
  | .lockRw => isTrue trivial
  | .unlockRw => isTrue trivial
  | .lockVersion => isTrue trivial
  | .unlockVersion => isTrue trivial
  | .getFileSize => isTrue trivial
  | .readAt .. => isTrue trivial
  | .flush => isTrue trivial
  | .getCur => isTrue trivial
  | .setCur _ => isTrue trivial

/-- The threads on one handle; the writes are observed. -/
def writers : System Eff Eff.Res Err Thread LockedDb Data Job Nat where
  handle := LockedDb.handle
  observe := Eff.written
  prog := Job.op B

abbrev Writers := Pool Eff Eff.Res Err Thread LockedDb Data Job Nat

/-- The handle as `aodbm_open` leaves it, with its mutexes free. -/
def Writers.start (db : Db) : Writers := Pool.start ⟨db, ⟨.free, none⟩⟩

/-- States of any interleaving in which every write is short. -/
def Writers.ReachableShort (db : Db) (p : Writers) : Prop :=
  Relation.ReflTransGen (Interleaving.Step (writers B) Eff.Short Job.Fits) (Writers.start db) p

/-- States of any interleaving. -/
def Writers.Reachable (db : Db) (p : Writers) : Prop :=
  Relation.ReflTransGen (Interleaving.Step (writers B) (fun _ => True) Job.Fits)
    (Writers.start db) p

/-! ## The writes of a block -/

/-- One call of `fwrite` each. -/
def Block.writes : Block → List Data
  | .data payload => [[dataBlock], aodbmDataFrom32 B (payload.length % 2 ^ 32), payload]
  | .version ver => [[versionBlock], aodbmDataFrom64 B ver]

/-- The writes of blocks, with the thread that wrote each block. -/
def blockLog (ws : List (Thread × Block)) : List (Thread × Data) :=
  ws.flatMap fun w => (w.2.writes B).map (Prod.mk w.1)

/-- The first writes of a block. -/
def Begun (part : List Data) : Prop := ∃ b : Block, b.Fits ∧ part <+: b.writes B

variable {B}

theorem writes_flatten (b : Block) : (b.writes B).flatten = b.enc B := by
  cases b <;> simp [Block.writes, Block.enc]

theorem blockLog_flatten (ws : List (Thread × Block)) :
    ((blockLog B ws).map Prod.snd).flatten = encBlocks B (ws.map Prod.snd) := by
  induction ws with
  | nil => rfl
  | cons w ws ih =>
    have hhead : (((w.2.writes B).map (Prod.mk w.1)).map Prod.snd).flatten = w.2.enc B := by
      rw [List.map_map, ← writes_flatten]
      congr 1
      exact List.map_id' _
    simp only [blockLog, List.flatMap_cons, List.map_append, List.flatten_append, List.map_cons,
      encBlocks_cons] at ih ⊢
    rw [hhead, ih]

theorem blockLog_append_one (ws : List (Thread × Block)) (t : Thread) (b : Block) :
    blockLog B (ws ++ [(t, b)]) = blockLog B ws ++ (b.writes B).map (Prod.mk t) := by
  simp [blockLog]

theorem begun_nil : Begun B [] := ⟨.version 0, by simp [Block.Fits], List.nil_prefix⟩

/-- What was begun is torn, or whole without being known to be: a payload may be empty. -/
theorem Begun.torn {part : List Data} (h : Begun B part) :
    Torn B part.flatten ∨ ∃ b : Block, b.Fits ∧ part.flatten = b.enc B := by
  obtain ⟨b, hfits, t, ht⟩ := h
  have henc : part.flatten ++ t.flatten = b.enc B := by
    rw [← writes_flatten, ← ht, List.flatten_append]
  rcases eq_or_ne t.flatten [] with hnil | hne
  · exact .inr ⟨b, hfits, by rw [← henc, hnil, List.append_nil]⟩
  · exact .inl (torn_of_append hfits henc.symm hne)

/-! ## What a thread knows -/

/-- How often the thread holds `rw`, the file when it last looked, the writes of a block that it
has begun, and all its writes since the beginning of the call. -/
structure Own where
  depth : Nat
  file : Data
  part : List Data
  wrote : List Data

/-- The effects of a thread. While it holds `rw` nobody else changes the file. -/
def ownSpec (B : Build) : Spec Eff Eff.Res Own
  | .lockRw, Q, g => ∀ file, g.file <+: file → (0 < g.depth → file = g.file) →
    Q () { g with depth := g.depth + 1, file := file }
  | .unlockRw, Q, g => (g.depth ≤ 1 → g.part = []) ∧ Q () { g with depth := g.depth - 1 }
  | .getFileSize, Q, g => ∀ n, (0 < g.depth → n = g.file.length) → Q n g
  | .readAt off sz, Q, g => ∀ r, (0 < g.depth → r = readFile g.file off sz) → Q r g
  | .write bs, Q, g => bs.length < 2 ^ 32 → g.file.length + bs.length < 2 ^ 63 →
    0 < g.depth ∧
      ((∃ b : Block, b.Fits ∧ g.part ++ [bs] = b.writes B ∧
          Q () { g with file := g.file ++ bs, part := [], wrote := g.wrote ++ [bs] }) ∨
        Begun B (g.part ++ [bs]) ∧
          Q () { g with
            file := g.file ++ bs, part := g.part ++ [bs], wrote := g.wrote ++ [bs] })
  | _, Q, g => ∀ r, Q r g

theorem ownSpec_mono : (ownSpec B).Mono := by
  intro e Q Q' hQ g h
  cases e with
  | lockRw => exact fun file hfile hsame => hQ _ _ (h file hfile hsame)
  | unlockRw => exact ⟨h.1, hQ _ _ h.2⟩
  | getFileSize => exact fun n hn => hQ _ _ (h n hn)
  | readAt off sz => exact fun r hr => hQ _ _ (h r hr)
  | write bs =>
    intro hshort hlen
    obtain ⟨hdepth, ⟨b, hfits, hwrites, hq⟩ | ⟨hbegun, hq⟩⟩ := h hshort hlen
    · exact ⟨hdepth, .inl ⟨b, hfits, hwrites, hQ _ _ hq⟩⟩
    · exact ⟨hdepth, .inr ⟨hbegun, hQ _ _ hq⟩⟩
  | _ => exact fun r => hQ _ _ (h r)

/-! ## What the threads know together -/

/-- What the threads know is right, and the writes are whole blocks, with those of the block that
one thread has begun at the end. `base` is the file that was opened. -/
structure Apart (B : Build) (base : Data) (s : LockedDb) (log : List (Thread × Data))
    (g : Thread → Own) : Prop where
  depth : ∀ t, (g t).depth = s.locks.rw.depth t
  older : ∀ t, (g t).file <+: s.db.file
  held : ∀ t, 0 < (g t).depth → (g t).file = s.db.file
  outside : ∀ t, (g t).depth = 0 → (g t).part = []
  begun : ∀ t, Begun B (g t).part
  blocks : ∃ ws : List (Thread × Block), (∀ w ∈ ws, w.2.Fits) ∧ ∃ t,
    log = blockLog B ws ++ (g t).part.map (Prod.mk t) ∧ ∀ u, u ≠ t → (g u).part = []
  file : s.db.file = base ++ (log.map Prod.snd).flatten
  size : s.db.fileSize = s.db.file.length

variable {base : Data} {s s' : LockedDb} {log : List (Thread × Data)} {g : Thread → Own}
variable {t u : Thread} {own : Own}

/-- The thread locks, unlocks or looks, and leaves the file as it is. -/
theorem Apart.looks (h : Apart B base s log g) (hfile : s'.db.file = s.db.file)
    (hsize : s'.db.fileSize = s.db.fileSize) (hdepth : own.depth = s'.locks.rw.depth t)
    (hothers : ∀ u, u ≠ t → s'.locks.rw.depth u = s.locks.rw.depth u)
    (holder : own.file <+: s.db.file) (hheld : 0 < own.depth → own.file = s.db.file)
    (hout : own.depth = 0 → own.part = []) (hpart : own.part = (g t).part) :
    Apart B base s' log (Function.update g t own) := by
  have hparts : ∀ u, (Function.update g t own u).part = (g u).part :=
    (Function.forall_update_iff g fun u o => o.part = (g u).part).mpr ⟨hpart, fun _ _ => rfl⟩
  constructor
  case depth =>
    refine (Function.forall_update_iff g fun u o => o.depth = s'.locks.rw.depth u).mpr
      ⟨hdepth, fun u hu => ?_⟩
    rw [h.depth, hothers u hu]
  case older =>
    rw [hfile]
    exact (Function.forall_update_iff g fun _ o => o.file <+: s.db.file).mpr
      ⟨holder, fun u _ => h.older u⟩
  case held =>
    rw [hfile]
    exact (Function.forall_update_iff g fun _ o => 0 < o.depth → o.file = s.db.file).mpr
      ⟨hheld, fun u _ => h.held u⟩
  case outside =>
    exact (Function.forall_update_iff g fun _ o => o.depth = 0 → o.part = []).mpr
      ⟨hout, fun u _ => h.outside u⟩
  case begun =>
    intro u
    rw [hparts]
    exact h.begun u
  -- no block goes on, so the same thread is the one that is in the middle of one
  case blocks =>
    obtain ⟨ws, hfits, u, hlog, hnone⟩ := h.blocks
    refine ⟨ws, hfits, u, ?_, fun v hv => ?_⟩
    · rw [hparts]
      exact hlog
    · rw [hparts]
      exact hnone v hv
  case file => rw [hfile, h.file]
  case size => rw [hsize, hfile, h.size]

/-- While a thread holds `rw`, the block in progress is its own. -/
theorem Apart.log_of_held (h : Apart B base s log g) (hheld : 0 < (g t).depth) :
    ∃ ws : List (Thread × Block), (∀ w ∈ ws, w.2.Fits) ∧
      log = blockLog B ws ++ (g t).part.map (Prod.mk t) ∧ ∀ u, u ≠ t → (g u).part = [] := by
  have hnone : ∀ u, u ≠ t → (g u).part = [] := by
    intro u hu
    refine h.outside u ?_
    by_contra hne
    refine hu (owner_unique (m := s.locks.rw) ?_ ?_)
    · rw [← h.depth]
      exact Nat.pos_of_ne_zero hne
    · rw [← h.depth]
      exact hheld
  obtain ⟨ws, hfits, v, hlog, hothers⟩ := h.blocks
  refine ⟨ws, hfits, ?_, hnone⟩
  rcases eq_or_ne v t with rfl | hv
  · exact hlog
  · rw [hnone v hv] at hlog
    rw [hothers t (Ne.symm hv)]
    exact hlog

/-- The thread that holds `rw` writes. `part` are the writes of the block that it is in then, and
`done` is the block, if it is complete. -/
theorem Apart.writes (h : Apart B base s log g) (hheld : 0 < (g t).depth) {bs : Data}
    {part : List Data} {wrote : List Data} (done : Option Block) (hfits : ∀ b ∈ done, b.Fits)
    (hdone : ∀ b ∈ done, (g t).part ++ [bs] = b.writes B ∧ part = [])
    (hpart : done = none → part = (g t).part ++ [bs]) (hbegun : Begun B part) :
    Apart B base { s with db := s.db.append bs } (log ++ [(t, bs)])
      (Function.update g t ⟨(g t).depth, s.db.file ++ bs, part, wrote⟩) := by
  obtain ⟨ws, hws, hlog, hnone⟩ := h.log_of_held hheld
  constructor
  case depth =>
    exact (Function.forall_update_iff g fun u o => o.depth = s.locks.rw.depth u).mpr
      ⟨h.depth t, fun u _ => h.depth u⟩
  case older =>
    exact (Function.forall_update_iff g fun _ o => o.file <+: s.db.file ++ bs).mpr
      ⟨List.prefix_rfl, fun u _ => (h.older u).trans (List.prefix_append _ _)⟩
  -- nobody else holds `rw`, so nobody else says that the file is as it was
  case held =>
    refine (Function.forall_update_iff g fun _ o => 0 < o.depth → o.file = s.db.file ++ bs).mpr
      ⟨fun _ => rfl, fun u hu hdepth => ?_⟩
    rw [h.depth] at hdepth hheld
    exact absurd (owner_unique hdepth hheld) hu
  case outside =>
    exact (Function.forall_update_iff g fun _ o => o.depth = 0 → o.part = []).mpr
      ⟨fun hdepth => absurd hdepth hheld.ne', fun u _ => h.outside u⟩
  case begun =>
    exact (Function.forall_update_iff g fun _ o => Begun B o.part).mpr
      ⟨hbegun, fun u _ => h.begun u⟩
  case blocks =>
    have hothers : ∀ u, u ≠ t →
        (Function.update g t ⟨(g t).depth, s.db.file ++ bs, part, wrote⟩ u).part = [] := by
      intro u hu
      rw [Function.update_of_ne hu]
      exact hnone u hu
    cases done with
    | none =>
      refine ⟨ws, hws, t, ?_, hothers⟩
      rw [Function.update_self, hpart rfl, hlog]
      simp
    | some b =>
      obtain ⟨hwrites, rfl⟩ := hdone b rfl
      refine ⟨ws ++ [(t, b)], ?_, t, ?_, hothers⟩
      · intro w hw
        rcases List.mem_append.mp hw with hw | hw
        · exact hws w hw
        · rw [List.mem_singleton.mp hw]
          exact hfits b rfl
      · rw [Function.update_self, hlog, blockLog_append_one, ← hwrites]
        simp
  case file =>
    rw [List.map_append, List.flatten_append, ← List.append_assoc, ← h.file]
    simp [Db.append]
  case size =>
    simp [Db.append, h.size]

/-- Nothing changes. -/
theorem Apart.same (h : Apart B base s log g) (hfile : s'.db.file = s.db.file)
    (hsize : s'.db.fileSize = s.db.fileSize) (hrw : s'.locks.rw = s.locks.rw) (t : Thread) :
    Apart B base s' log (Function.update g t (g t)) :=
  h.looks hfile hsize (by rw [hrw, h.depth]) (fun u _ => by rw [hrw]) (h.older t) (h.held t)
    (h.outside t) rfl

theorem Apart.quiet (h : Apart B base s log g) : Apart B base s (log ++ []) g := by
  rwa [List.append_nil]

/-- An effect of a thread that keeps to the specification. -/
theorem Apart.effect {e : Eff} {Q : e.Res → Own → Prop} {r : e.Res} (h : Apart B base s log g)
    (hS : ownSpec B e Q (g t)) (hshort : e.Short) (he : LockedDb.handle t e s = .ok (r, s')) :
    ∃ own, Apart B base s' (log ++ e.written.map (Prod.mk t)) (Function.update g t own) ∧
      own.wrote = (g t).wrote ++ e.written ∧ Q r own := by
  have hwrote : (g t).wrote = (g t).wrote ++ [] := (List.append_nil _).symm
  cases e with
  | lockRw =>
    simp only [LockedDb.handle] at he
    split at he
    · next rw hrw =>
      cases he
      have hdepth := depth_lock hrw
      refine ⟨{ g t with depth := (g t).depth + 1, file := s.db.file }, ?_, hwrote,
        hS s.db.file (h.older t) fun hpos => (h.held t hpos).symm⟩
      refine Apart.quiet (h.looks rfl rfl ?_ (fun u hu => depth_lock_other hu.symm hrw)
        List.prefix_rfl (fun _ => rfl) (fun hzero => absurd hzero (Nat.succ_ne_zero _)) rfl)
      rw [hdepth, h.depth]
    · cases he
  -- `ownSpec` lets go of the last hold on `rw` only between blocks
  | unlockRw =>
    cases he
    obtain ⟨hpart, hQ⟩ := hS
    refine ⟨{ g t with depth := (g t).depth - 1 }, ?_, hwrote, hQ⟩
    refine Apart.quiet (h.looks rfl rfl ?_ (fun u hu => depth_unlock_other hu.symm) (h.older t)
      ?_ ?_ rfl)
    · rw [depth_unlock, h.depth]
    · intro hpos
      exact h.held t (by simp only at hpos; omega)
    · intro hzero
      exact hpart (by simp only at hzero; omega)
  | lockVersion =>
    simp only [LockedDb.handle] at he
    split at he
    · cases he
      exact ⟨g t, Apart.quiet (h.same (by rfl) (by rfl) (by rfl) t), hwrote, hS ()⟩
    · cases he
  | unlockVersion =>
    cases he
    exact ⟨g t, Apart.quiet (h.same (by rfl) (by rfl) (by rfl) t), hwrote, hS ()⟩
  -- whoever holds `rw` knows the file, and with it its length
  | getFileSize =>
    cases he
    exact ⟨g t, Apart.quiet (h.same (by rfl) (by rfl) (by rfl) t), hwrote,
      hS _ fun hpos => by rw [h.held t hpos, h.size]⟩
  | readAt off sz =>
    cases he
    exact ⟨g t, Apart.quiet (h.same (by rfl) (by rfl) (by rfl) t), hwrote,
      hS _ fun hpos => by rw [h.held t hpos]⟩
  | write bs =>
    by_cases hfits : s.db.file.length + bs.length < 2 ^ 63
    · have heq : LockedDb.handle t (.write bs) s = .ok ((), { s with db := s.db.append bs }) := by
        simp only [LockedDb.handle, Db.handle, if_pos hfits]
        rfl
      rw [heq] at he
      cases he
      have holder := (h.older t).length_le
      obtain ⟨hpos, hcases⟩ := hS hshort (by omega)
      have hfile := h.held t hpos
      rcases hcases with ⟨b, hb, hwrites, hQ⟩ | ⟨hbegun, hQ⟩
      · rw [hfile] at hQ
        refine ⟨_, h.writes hpos (some b) ?_ ?_ (by simp) begun_nil, rfl, hQ⟩
        · rintro _ ⟨⟩
          exact hb
        · rintro _ ⟨⟩
          exact ⟨hwrites, rfl⟩
      · rw [hfile] at hQ
        exact ⟨_, h.writes hpos none (by simp) (by simp) (fun _ => rfl) hbegun, rfl, hQ⟩
    · -- a file of `2 ^ 63` bytes ends the process
      have heq : LockedDb.handle t (.write bs) s = .error .osError := by
        simp only [LockedDb.handle, Db.handle, if_neg hfits]
        rfl
      rw [heq] at he
      cases he
  | flush =>
    cases he
    exact ⟨g t, Apart.quiet (h.same (by rfl) (by rfl) (by rfl) t), hwrote, hS ()⟩
  | getCur =>
    cases he
    exact ⟨g t, Apart.quiet (h.same (by rfl) (by rfl) (by rfl) t), hwrote, hS _⟩
  | setCur ver =>
    cases he
    exact ⟨g t, Apart.quiet (h.same (by rfl) (by rfl) (by rfl) t), hwrote, hS ()⟩

/-! ## Reading -/

/-- The thread has looked at the file, which may have grown unless it held `rw`. -/
structure Later (g g' : Own) : Prop where
  depth : g'.depth = g.depth
  file : g.file <+: g'.file
  held : 0 < g.depth → g'.file = g.file
  part : g'.part = g.part
  wrote : g'.wrote = g.wrote

variable {o o' : Own}

theorem Later.refl (o : Own) : Later o o := ⟨rfl, List.prefix_rfl, fun _ => rfl, rfl, rfl⟩

theorem Later.trans {o'' : Own} (h : Later o o') (h' : Later o' o'') : Later o o'' where
  depth := h'.depth.trans h.depth
  file := h.file.trans h'.file
  held hpos := (h'.held (h.depth ▸ hpos)).trans (h.held hpos)
  part := h'.part.trans h.part
  wrote := h'.wrote.trans h.wrote

/-- What is read does not change any more. -/
theorem wp_read (off sz : Nat) (hpart : o.part = []) :
    wp (ownSpec B) (aodbmRead off sz) (fun bs o' => Later o o' ∧
      ∀ late, o'.file <+: late → readFile late off sz = some bs) o := by
  intro file hfile hsame r hr
  refine ⟨fun _ => hpart, ?_⟩
  have hread : r = readFile file off sz := hr (Nat.succ_pos _)
  cases r with
  | none => trivial
  | some bs =>
    refine ⟨⟨rfl, hfile, hsame, rfl, rfl⟩, ?_⟩
    rintro _ ⟨rest, rfl⟩
    exact readFile_append rest hread.symm

/-- A function that only reads answers what it would answer on any later file, however its reads
are interleaved with the writes of others. -/
theorem wp_reads {α : Type} {Q : α → Prop} {f : Op α} (hf : Reads Q f) (hpart : o.part = []) :
    wp (ownSpec B) f (fun a o' => Later o o' ∧ Q a ∧
      ∀ db : Db, o'.file <+: db.file → eval f db = .ok (a, db)) o := by
  induction hf generalizing o with
  | pure h => exact ⟨.refl o, h, fun db _ => rfl⟩
  | fail e => trivial
  | read off sz _ ih =>
    refine wp_seq ownSpec_mono (wp_read off sz hpart) fun bs o₁ ⟨hlater, hread⟩ => ?_
    refine wp_mono ownSpec_mono ?_ (ih bs (hlater.part.trans hpart))
    rintro a o₂ ⟨hlater', ha, hrest⟩
    refine ⟨hlater.trans hlater', ha, fun db hdb => ?_⟩
    have heval := eval_read_cases off sz db
    rw [hread db.file (hlater'.file.trans hdb)] at heval
    rw [eval, run_bind_ok heval]
    exact hrest db hdb

/-! ## Writing -/

theorem begun_type : Begun B [[dataBlock]] :=
  ⟨.data [], by simp [Block.Fits], by simp [Block.writes]⟩

/-- Any length may follow. -/
theorem begun_length (n : Nat) :
    Begun B [[dataBlock], aodbmDataFrom32 B (n % 2 ^ 32)] := by
  have hlt : n % 2 ^ 32 < 2 ^ 32 := Nat.mod_lt _ (by decide)
  have hlen : (List.replicate (n % 2 ^ 32) (0 : UInt8)).length = n % 2 ^ 32 :=
    List.length_replicate
  refine ⟨.data (List.replicate (n % 2 ^ 32) 0), ?_, ?_⟩
  · rw [Block.Fits, hlen]
    exact hlt
  · rw [Block.writes, hlen, Nat.mod_eq_of_lt hlt]
    exact ⟨[List.replicate (n % 2 ^ 32) 0], rfl⟩

theorem begun_version : Begun B [[versionBlock]] :=
  ⟨.version 0, by simp [Block.Fits], by simp [Block.writes]⟩

/-- The thread has written the block, and is outside of it. -/
structure Wrote (B : Build) (b : Block) (o o' : Own) : Prop where
  depth : o'.depth = o.depth
  file : o'.file = o.file ++ b.enc B
  part : o'.part = []
  wrote : o'.wrote = o.wrote ++ b.writes B

/-- `aodbm_write_data_block` of a thread that holds `rw`. -/
theorem wp_writeDataBlock (data : Data) (hdepth : 0 < o.depth) (hpart : o.part = []) :
    wp (ownSpec B) (aodbmWriteDataBlock B data) (fun _ o' => Wrote B (.data data) o o' ∧
      data.length < 2 ^ 32 ∧ o'.file.length < 2 ^ 63) o := by
  intro file hfile hsame
  obtain rfl := hsame hdepth
  intro _ _
  refine ⟨Nat.succ_pos _, .inr ⟨?_, ?_⟩⟩
  · simp only [hpart, List.nil_append]
    exact begun_type
  intro _ _
  refine ⟨Nat.succ_pos _, .inr ⟨?_, ?_⟩⟩
  · simp only [hpart, List.nil_append]
    exact begun_length data.length
  intro hshort hfits
  refine ⟨Nat.succ_pos _, .inl ⟨.data data, hshort, ?_, fun _ => rfl, ?_, hshort, ?_⟩⟩
  · simp only [hpart, Block.writes, List.nil_append, List.cons_append]
  · constructor
    · rfl
    · simp [Block.enc]
    · rfl
    · simp [Block.writes]
  · rw [← List.length_append] at hfits
    exact hfits

/-- `aodbm_write_version`. -/
theorem wp_writeVersion {ver : Nat} (hver : ver < 2 ^ 64) (hpart : o.part = []) :
    wp (ownSpec B) (aodbmWriteVersion B ver) (fun _ o' => o'.part = []) o := by
  intro file hfile hsame _ _
  refine ⟨Nat.succ_pos _, .inr ⟨?_, ?_⟩⟩
  · simp only [hpart, List.nil_append]
    exact begun_version
  intro _ _
  refine ⟨Nat.succ_pos _, .inl ⟨.version ver, hver, ?_, ?_⟩⟩
  · simp only [hpart, Block.writes, List.nil_append, List.cons_append]
  intro _
  exact ⟨fun _ => rfl, rfl⟩

/-! ## The calls of a thread -/

/-- On the file `before` the call alone returns the same and appends the same block, which stands
in the file. What is returned is the offset of the header in it: `low` is before the header and
`root` behind it. -/
structure Landed (B : Build) (op : Op Nat) (ver v : Nat) (file before payload low root : Data) :
    Prop where
  run : ∀ cur, eval op ⟨before, before.length, cur⟩ =
    .ok (v, Db.append ⟨before, before.length, cur⟩ (Block.enc B (.data payload)))
  size : payload.length < 2 ^ 32
  bound : before.length < 2 ^ 63
  block : before ++ Block.enc B (.data payload) <+: file
  header : payload = low ++ (aodbmDataFrom64 B ver ++ root)
  offset : v = before.length + 5 + low.length

/-- While it held `rw`, the thread has built a block on its file and has written it. -/
structure Appended (B : Build) (P : Nat → RootResult → Prop) (build : Nat → Op RootResult)
    (o : Own) (result : RootResult) (o' : Own) : Prop where
  built : ∀ db : Db, o.file <+: db.file →
    eval (build (o.file.length + 5)) db = .ok (result, db)
  placed : P (o.file.length + 5) result
  size : result.dat.length < 2 ^ 32
  bound : (o.file ++ Block.enc B (.data result.dat)).length < 2 ^ 63
  file : o'.file = o.file ++ Block.enc B (.data result.dat)
  part : o'.part = []

/-- From the reading of `file_size` to the end of the write. -/
theorem wp_append {α : Type} {P : Nat → RootResult → Prop} {build : Nat → Op RootResult}
    {f : RootResult → Op α} {Q : α → Own → Prop} (hbuild : ∀ pos, Reads (P pos) (build pos))
    (hdepth : 0 < o.depth) (hpart : o.part = [])
    (hf : ∀ result o', Appended B P build o result o' → wp (ownSpec B) (f result) Q o') :
    wp (ownSpec B) (do
      let fileSize ← aodbmFileSize
      let result ← build (fileSize + 5)
      aodbmWriteDataBlock B result.dat
      f result) Q o := by
  intro n hn
  obtain rfl := hn hdepth
  change wp (ownSpec B) (build (o.file.length + 5) >>= _) _ _
  refine wp_seq ownSpec_mono (wp_reads (hbuild _) hpart)
    fun result o₁ ⟨hlater, hresult, heval⟩ => ?_
  have hheld : o₁.file = o.file := hlater.held hdepth
  have hdepth₁ : 0 < o₁.depth := hlater.depth ▸ hdepth
  refine wp_seq ownSpec_mono (wp_writeDataBlock result.dat hdepth₁ (hlater.part.trans hpart))
    fun _ o₂ ⟨hwrote, hshort, hfits⟩ => hf result o₂ ?_
  rw [hwrote.file, hheld] at hfits
  rw [hheld] at heval
  constructor
  case built => exact heval
  case placed => exact hresult
  case size => exact hshort
  case bound => exact hfits
  case file => rw [hwrote.file, hheld]
  case part => exact hwrote.part

section Append
variable {P : Nat → RootResult → Prop} {build : Nat → Op RootResult} {result : RootResult}

theorem Appended.bound_before (h : Appended B P build o result o') :
    o.file.length < 2 ^ 63 := by
  have := h.bound
  rw [List.length_append] at this
  omega

theorem Appended.synced (h : Appended B P build o result o') (cur : Nat) :
    Db.Synced ⟨o.file, o.file.length, cur⟩ := ⟨rfl, h.bound_before⟩

/-- The header is behind the lower nodes and the nodes of the last level. -/
theorem RootAt.header {ver pos : Nat} {returned : Data → Data → Nat}
    (h : RootAt B ver result returned)
    (hreturned : ∀ low top : Data, low.length < 2 ^ 32 →
      returned low top = pos + low.length + top.length)
    (hsize : result.dat.length < 2 ^ 32) :
    ∃ low root, result.dat = low ++ (aodbmDataFrom64 B ver ++ root) ∧
      result.root = pos + low.length := by
  obtain ⟨low, top, root, hdat, hroot⟩ := h
  have hlow : low.length < 2 ^ 32 := by
    rw [hdat, List.length_append, List.length_append] at hsize
    omega
  refine ⟨low ++ top, root, hdat, ?_⟩
  rw [hroot, hreturned low top hlow, List.length_append]
  omega

end Append

variable {ver : Nat} {k x : Data}

/-- A thread that sets a key. -/
theorem wp_set (hpart : o.part = []) :
    wp (ownSpec B) (aodbmSet B ver k x) (fun v o' => o'.part = [] ∧
      ∃ before payload low root,
        Landed B (aodbmSet B ver k x) ver v o'.file before payload low root) o := by
  intro file hfile hsame
  refine wp_append (reads_setResult B ver k x) (Nat.succ_pos _) hpart fun result o₁ h => ?_
  intro file' hfile' _
  obtain ⟨low, root, hdat, hroot⟩ := h.placed.header
    (fun low top hlow => by rw [Nat.mod_eq_of_lt hlow]) h.size
  refine ⟨h.part, file, result.dat, low, root, ?_⟩
  constructor
  case run =>
    intro cur
    have hrun := eval_aodbmSet (h.synced cur) (h.built _ List.prefix_rfl)
    rwa [← List.length_append, if_pos h.bound] at hrun
  case size => exact h.size
  case bound => exact h.bound_before
  case block => exact h.file ▸ hfile'
  case header => exact hdat
  case offset => exact hroot

/-- A thread that deletes a key. It looks for the key before it locks. -/
theorem wp_del (hpart : o.part = []) :
    wp (ownSpec B) (aodbmDel B ver k) (fun v o' => o'.part = [] ∧
      (o'.wrote = o.wrote ∧ v = ver ∨ ∃ before payload low root,
        Landed B (aodbmDel B ver k) ver v o'.file before payload low root)) o := by
  nth_rewrite 1 [aodbmDel]
  by_cases hver : ver = 0
  · rw [if_pos hver]
    exact ⟨hpart, .inl ⟨rfl, hver.symm⟩⟩
  · rw [if_neg hver]
    refine wp_seq ownSpec_mono (wp_reads (reads_has B ver k) hpart) ?_
    intro has o₁ hafter
    obtain ⟨hlooked, -, hhas⟩ := hafter
    have hpart₁ : o₁.part = [] := hlooked.part.trans hpart
    cases has with
    | false => exact ⟨hpart₁, .inl ⟨hlooked.wrote, rfl⟩⟩
    | true =>
      intro file hfile _
      refine wp_append (reads_delResult B ver k) (Nat.succ_pos _) hpart₁ fun result o₂ h => ?_
      obtain ⟨low, root, hdat, hroot⟩ := h.placed.header (fun _ _ _ => rfl) h.size
      refine ⟨fun _ => h.part, h.part, .inr ⟨file, result.dat, low, root, ?_⟩⟩
      constructor
      case run =>
        intro cur
        have hrun := eval_aodbmDel (h.synced cur) hver (hhas _ hfile)
          (h.built _ List.prefix_rfl)
        rwa [← List.length_append, if_pos h.bound] at hrun
      case size => exact h.size
      case bound => exact h.bound_before
      case block => exact ⟨[], by rw [List.append_nil, h.file]⟩
      case header => exact hdat
      case offset => exact hroot

/-- A thread that commits a version. It writes without `version` being of any use: what keeps the
others from writing is `rw`. -/
theorem wp_commit (hver : ver < 2 ^ 64) (hpart : o.part = []) :
    wp (ownSpec B) (aodbmCommit B ver) (fun _ o' => o'.part = []) o := by
  intro _ cur
  change wp (ownSpec B) (aodbmIsBasedOn B ver cur >>= _) _ _
  refine wp_seq ownSpec_mono (wp_reads (reads_isBasedOn B ver cur) hpart)
    fun result o₁ ⟨hlater, _⟩ => ?_
  cases result with
  | false => exact fun _ => hlater.part.trans hpart
  | true =>
    refine wp_seq ownSpec_mono (wp_writeVersion hver (hlater.part.trans hpart)) fun _ o₂ h₂ => ?_
    exact fun _ _ => h₂

/-- What a call has done when it returns. -/
def Job.Done (B : Build) (v : Nat) (o : Own) : Job → Prop
  | .set ver k x => ∃ before payload low root,
      Landed B (aodbmSet B ver k x) ver v o.file before payload low root
  | .del ver k => o.wrote = [] ∧ v = ver ∨ ∃ before payload low root,
      Landed B (aodbmDel B ver k) ver v o.file before payload low root
  | .commit _ => True

theorem wp_job {j : Job} (hj : j.Fits) (hpart : o.part = []) (hwrote : o.wrote = []) :
    wp (ownSpec B) (j.op B) (fun v o' => o'.part = [] ∧ j.Done B v o') o := by
  cases j with
  | set ver k x => exact wp_set hpart
  | del ver k =>
    have h : wp (ownSpec B) (aodbmDel B ver k) _ o := wp_del hpart
    rw [hwrote] at h
    exact h
  | commit ver =>
    refine wp_seq ownSpec_mono (wp_commit hj hpart) fun _ _ h => ?_
    exact ⟨h, trivial⟩

/-- All threads together. -/
def writersProof (B : Build) (base : Data) : Proof (writers B) Eff.Short Job.Fits Own where
  spec := ownSpec B
  Holds := Apart B base
  post j v o := o.part = [] ∧ j.Done B v o
  Ready o := o.part = []
  seen := Own.wrote
  post_ready _ _ _ h := h.1
  effect h hS hshort he := h.effect hS hshort he
  call := by
    intro t j s log g h hready hj
    have hdepth : (g t).depth = s.locks.rw.depth t := h.depth t
    refine ⟨{ g t with wrote := [] }, h.looks rfl rfl hdepth (fun _ _ => rfl) (h.older t)
      (h.held t) (h.outside t) rfl, rfl, ?_⟩
    exact wp_job hj hready rfl

/-! ## Every interleaving -/

/-- The version `v` that `op` returned for an update of `ver`. Its header stands at its offset,
and if `ver` was a version in the file that was found, so is `v` now, with the new records. -/
structure Returned (B : Build) (op : Op Nat) (ver v : Nat) (new : List Rec → List Rec)
    (file : Data) : Prop where
  stored : ∃ before payload low root, Landed B op ver v file before payload low root ∧
    ∀ rs, ContentsAt B before ver rs → VersionAt B file v ver (new rs)
  header : SegAt file v (aodbmDataFrom64 B ver)

/-- No append position goes astray. `db` is the handle as it was opened. -/
structure Orderly (B : Build) (db : Db) (p : Writers) : Prop where
  /-- The writes are those of whole blocks, each by one thread, and of the block that one thread
  has begun, which holds `rw`. -/
  log : ∃ ws : List (Thread × Block), (∀ w ∈ ws, w.2.Fits) ∧ ∃ t part, Begun B part ∧
    p.log = blockLog B ws ++ part.map (Prod.mk t) ∧
    (part ≠ [] → 0 < p.shared.locks.rw.depth t)
  file : p.shared.db.file = db.file ++ (p.log.map Prod.snd).flatten
  blocks : ∃ bs rest, (∀ b ∈ bs, b.Fits) ∧ Torn B rest ∧
    p.shared.db.file = encBlocks B bs ++ rest
  size : p.shared.db.fileSize = p.shared.db.file.length
  set : ∀ t ver k x v wrote, p.clients t = some ⟨.set ver k x, .pure v, wrote⟩ →
    Returned B (aodbmSet B ver k x) ver v (upsert (rank B) k x) p.shared.db.file
  del : ∀ t ver k v wrote, p.clients t = some ⟨.del ver k, .pure v, wrote⟩ → wrote ≠ [] →
    Returned B (aodbmDel B ver k) ver v (erase k) p.shared.db.file

section Landed
variable {op : Op Nat} {v : Nat} {file file' before payload low root : Data}

theorem Landed.mono (h : Landed B op ver v file before payload low root) (hf : file <+: file') :
    Landed B op ver v file' before payload low root where
  run := h.run
  size := h.size
  bound := h.bound
  block := h.block.trans hf
  header := h.header
  offset := h.offset

/-- The header is in the block. -/
theorem Landed.seg (h : Landed B op ver v file before payload low root) :
    SegAt file v (aodbmDataFrom64 B ver) := by
  have hseg := (segAt_end before (Block.enc B (.data payload))).right
  rw [h.header] at hseg
  have hheader := hseg.right.left
  have hlen : before.length + ([dataBlock] ++ aodbmDataFrom32 B
      ((low ++ (aodbmDataFrom64 B ver ++ root)).length % 2 ^ 32)).length + low.length = v := by
    rw [h.offset]
    simp
  rw [hlen] at hheader
  have hblock := h.block
  rw [h.header] at hblock
  exact hheader.mono hblock

/-- What the call does alone on a version, it has done. -/
theorem Landed.version {new : List Rec} (h : Landed B op ver v file before payload low root)
    (hu : ∃ payload root, Updates B ⟨before, before.length, 0⟩ ver new op payload root) :
    VersionAt B file v ver new := by
  obtain ⟨payload', root', hupdates⟩ := hu
  have hrun := hupdates.run
  rw [h.run] at hrun
  split at hrun
  · simp only [Except.ok.injEq, Prod.mk.injEq] at hrun
    obtain ⟨rfl, hdb⟩ := hrun
    have hfile : before ++ Block.enc B (.data payload) =
        before ++ Block.enc B (.data payload') := congrArg Db.file hdb
    have hsize : payload'.length < 2 ^ 32 := by
      have hlen := congrArg List.length hfile
      simp only [List.length_append, data_enc_length] at hlen
      have := h.size
      omega
    have hversion := hupdates.version hsize
    rw [← hfile] at hversion
    exact hversion.mono h.block
  · cases hrun

theorem Landed.returned_set (h : Landed B (aodbmSet B ver k x) ver v file before payload low root) :
    Returned B (aodbmSet B ver k x) ver v (upsert (rank B) k x) file where
  stored := ⟨before, payload, low, root, h, fun _ hc =>
    h.version (hc.set ⟨rfl, h.bound⟩ k x)⟩
  header := h.seg

/-- A call that has written has found the key. -/
theorem Landed.returned_del (h : Landed B (aodbmDel B ver k) ver v file before payload low root) :
    Returned B (aodbmDel B ver k) ver v (erase k) file where
  stored := by
    refine ⟨before, payload, low, root, h, fun rs hc => h.version ?_⟩
    have hsynced : Db.Synced ⟨before, before.length, 0⟩ := ⟨rfl, h.bound⟩
    refine hc.del hsynced ?_
    by_contra hnone
    rw [Option.not_isSome_iff_eq_none] at hnone
    have hrun := hc.del_absent hsynced hnone
    rw [h.run] at hrun
    simp only [Except.ok.injEq, Prod.mk.injEq] at hrun
    have hlen := congrArg (fun d : Db => d.file.length) hrun.2
    simp [Db.append] at hlen
  header := h.seg

end Landed

variable {p : Writers} {db : Db}

theorem apart_start (db : Db) (hsize : db.fileSize = db.file.length) :
    Apart B db.file ⟨db, ⟨.free, none⟩⟩ [] fun _ => ⟨0, [], [], []⟩ where
  depth _ := rfl
  older _ := List.nil_prefix
  held _ hpos := absurd hpos (Nat.lt_irrefl 0)
  outside _ _ := rfl
  begun _ := begun_nil
  blocks := ⟨[], by simp, 0, rfl, fun _ _ => rfl⟩
  file := by simp
  size := hsize

/-- The file is complete blocks and the block in progress. -/
theorem Apart.torn (h : Apart B base s log g) {bs : List Block} (hfits : ∀ b ∈ bs, b.Fits)
    (hbase : base = encBlocks B bs) : ∃ bs rest, (∀ b ∈ bs, b.Fits) ∧ Torn B rest ∧
      s.db.file = encBlocks B bs ++ rest := by
  obtain ⟨ws, hws, t, hlog, -⟩ := h.blocks
  have hpart : (((g t).part.map (Prod.mk t)).map Prod.snd) = (g t).part := by
    rw [List.map_map]
    exact List.map_id' _
  have hfile : s.db.file = encBlocks B (bs ++ ws.map Prod.snd) ++ (g t).part.flatten := by
    rw [h.file, hlog, List.map_append, List.flatten_append, blockLog_flatten, hpart, hbase,
      encBlocks_append, List.append_assoc]
  have hall : ∀ b ∈ bs ++ ws.map Prod.snd, b.Fits := by
    intro b hb
    rcases List.mem_append.mp hb with hb | hb
    · exact hfits b hb
    · obtain ⟨w, hw, rfl⟩ := List.mem_map.mp hb
      exact hws w hw
  rcases (h.begun t).torn with htorn | ⟨b, hb, hpart⟩
  · exact ⟨_, _, hall, htorn, hfile⟩
  · refine ⟨bs ++ ws.map Prod.snd ++ [b], [], ?_, torn_nil, ?_⟩
    · intro c hc
      rcases List.mem_append.mp hc with hc | hc
      · exact hall c hc
      · rw [List.mem_singleton.mp hc]
        exact hb
    · rw [hfile, hpart]
      simp

/-- In every interleaving of the effects of any number of threads, on a file that was opened, as
long as no write is of `2 ^ 32` bytes or more. -/
theorem append_positions {file : Data} (hopen : aodbmOpen B file = .ok db)
    (hrun : Writers.ReachableShort B db p) : Orderly B db p := by
  obtain ⟨bs, rest, hlongest, -, ⟨-, herror⟩ | ⟨-, db', hok, hfile, hsize, -⟩⟩ :=
    open_scan (B := B) file
  · rw [herror] at hopen
    cases hopen
  rw [hopen] at hok
  cases hok
  obtain ⟨g, hinv⟩ := Proof.run (P := writersProof B db.file) (apart_start db hsize)
    (fun _ => rfl) hrun
  have h : Apart B db.file p.shared p.log g := hinv.holds
  constructor
  case log =>
    obtain ⟨ws, hws, t, hlog, -⟩ := h.blocks
    refine ⟨ws, hws, t, (g t).part, h.begun t, hlog, fun hne => ?_⟩
    rw [← h.depth]
    exact Nat.pos_of_ne_zero fun hzero => hne (h.outside t hzero)
  case file => exact h.file
  case blocks => exact h.torn hlongest.fits hfile
  case size => exact h.size
  case set =>
    intro t ver k x v wrote hc
    obtain ⟨-, before, payload, low, root, hstored⟩ := (hinv.clients t _ hc).rest
    exact (hstored.mono (h.older t)).returned_set
  case del =>
    intro t ver k v wrote hc hwrote
    have hfulfils := hinv.clients t _ hc
    obtain ⟨-, ⟨hnone, -⟩ | ⟨before, payload, low, root, hstored⟩⟩ := hfulfils.rest
    · exact absurd (hfulfils.seen.symm.trans hnone) hwrote
    · exact (hstored.mono (h.older t)).returned_del

/-- Thread 0 sets a key in an empty file. -/
theorem append_positions_set : ∃ p : Writers, Orderly smallBuild Db.empty p ∧
    p.shared.db.file.length = 26 ∧
    ∃ wrote, p.clients 0 = some ⟨.set 0 [] [], .pure 5, wrote⟩ := by
  have hset : run (guarded Eff.Short .blocked (LockedDb.handle 0))
      (aodbmSet smallBuild 0 [] []) ⟨Db.empty, ⟨.free, none⟩⟩ =
        .ok (5, ⟨⟨[100, 0, 0, 0, 21, 0, 0, 0, 0, 0, 0, 0, 0, 108, 0, 0, 0, 1, 0, 0, 0, 0,
          0, 0, 0, 0], 26, 0⟩, ⟨.held 0 1, none⟩⟩) := by decide +kernel
  have hidle : (Writers.start Db.empty).Idle 0 := .inl rfl
  have hjob : (Job.set 0 [] []).Fits := by
    unfold Job.Fits
    decide
  obtain ⟨p, hreach, hshared, wrote, hclient⟩ :=
    reaches_of_run (M := writers smallBuild) hidle hjob hset
  have hopen : aodbmOpen smallBuild [] = .ok Db.empty := by decide +kernel
  exact ⟨p, append_positions hopen hreach, by rw [hshared]; rfl, wrote, hclient⟩

/-! ## One thread alone -/

theorem only_read (off sz : Nat) : Only (fun e => e ≠ .lockVersion) (aodbmRead off sz) := by
  refine ⟨by simp, fun _ => ⟨by simp, fun bs => ⟨by simp, fun _ => ?_⟩⟩⟩
  cases bs <;> trivial

theorem Reads.only {α : Type} {Q : α → Prop} {f : Op α} (hf : Reads Q f) :
    Only (fun e => e ≠ .lockVersion) f := by
  induction hf with
  | pure h => trivial
  | fail e => trivial
  | read off sz _ ih => exact only_bind (only_read off sz) ih

theorem only_writeDataBlock (data : Data) :
    Only (fun e => e ≠ .lockVersion) (aodbmWriteDataBlock B data) :=
  only_bind (only_perform (by simp)) fun _ => only_bind (only_perform (by simp)) fun _ =>
    only_bind (only_perform (by simp)) fun _ => only_bind (only_perform (by simp)) fun _ =>
      only_perform (by simp)

theorem only_set (ver : Nat) (k x : Data) :
    Only (fun e => e ≠ .lockVersion) (aodbmSet B ver k x) :=
  only_bind (only_perform (by simp)) fun _ => only_bind (only_perform (by simp)) fun n =>
    only_bind (reads_setResult B ver k x (n + 5)).only fun result =>
      only_bind (only_writeDataBlock result.dat) fun _ =>
        only_bind (only_perform (by simp)) fun _ => trivial

/-- A thread that finds `rw` free or its own does not wait for it. -/
theorem run_locked {α : Type} {f : Op α} {db db' : Db} {a : α} {t : Thread}
    (hf : Only (fun e => e ≠ .lockVersion) f) (hr : eval f db = .ok (a, db')) :
    ∃ locks, run (LockedDb.handle t) f ⟨db, ⟨.free, none⟩⟩ = .ok (a, ⟨db', locks⟩) := by
  let Rel : Db → LockedDb → Prop := fun d s =>
    s.db = d ∧ (s.locks.rw = .free ∨ 0 < s.locks.rw.depth t)
  have hstep : ∀ e, e ≠ Eff.lockVersion → ∀ d (s : LockedDb) r d', Rel d s →
      Db.handle e d = .ok (r, d') → ∃ s', LockedDb.handle t e s = .ok (r, s') ∧ Rel d' s' := by
    rintro e he d s r d' ⟨rfl, hown⟩ hanswer
    cases e with
    | lockRw =>
      cases hanswer
      have hlock : s.locks.rw.lock t = some (.held t (s.locks.rw.depth t)) :=
        lock_eq_some.mpr ⟨rfl, hown⟩
      refine ⟨{ s with locks := { s.locks with rw := .held t (s.locks.rw.depth t) } }, ?_, rfl,
        .inr ?_⟩
      · simp only [LockedDb.handle, hlock]
      · simp only [depth_lock hlock]
        exact Nat.succ_pos _
    | unlockRw =>
      cases hanswer
      refine ⟨_, rfl, rfl, ?_⟩
      rcases hown with hfree | hpos
      · rw [hfree]
        exact .inl rfl
      · by_cases hlast : s.locks.rw.depth t = 1
        · refine .inl (eq_free fun u => ?_)
          rcases eq_or_ne t u with rfl | hu
          · rw [depth_unlock, hlast]
          · rw [depth_unlock_other hu]
            by_contra hne
            exact hu (owner_unique hpos (Nat.pos_of_ne_zero hne))
        · refine .inr ?_
          rw [depth_unlock]
          omega
    | lockVersion => exact absurd rfl he
    | unlockVersion =>
      cases hanswer
      exact ⟨_, rfl, rfl, hown⟩
    | write bs =>
      refine ⟨{ s with db := d' }, ?_, rfl, hown⟩
      simp only [LockedDb.handle, hanswer]
      rfl
    | _ =>
      cases hanswer
      exact ⟨_, rfl, rfl, hown⟩
  have hrel : Rel db ⟨db, ⟨.free, none⟩⟩ := ⟨rfl, .inl rfl⟩
  obtain ⟨⟨_, locks⟩, hrun, rfl, _⟩ := run_simulates hstep hf hrel hr
  exact ⟨locks, hrun⟩

theorem run_guarded {α : Type} {f : Op α} {s : LockedDb} {t : Thread} {x : Err} :
    run (guarded (fun _ => True) x (LockedDb.handle t)) f s = run (LockedDb.handle t) f s := by
  have hsame : guarded (fun _ => True) x (LockedDb.handle t) = LockedDb.handle t := by
    funext e s
    exact if_pos trivial
  rw [hsame]

/-- A long value is set on a tree of two levels. The version that is returned is the offset of
the value, which begins with eight zeros, and not that of the header. -/
theorem position_astray : ∃ x p wrote, aodbmOpen smallBuild fiveFile = .ok fiveDb ∧
    Writers.Reachable smallBuild fiveDb p ∧
    p.clients 0 = some ⟨.set 222 [1] x, .pure 284, wrote⟩ ∧
    ¬ SegAt p.shared.db.file 284 (aodbmDataFrom64 smallBuild 222) ∧
    ¬ Orderly smallBuild fiveDb p := by
  have hlen : (aodbmDataFrom64 smallBuild 0).length ≤ 2 ^ 32 - 9 := by
    rw [from64_length]
    decide
  obtain ⟨x, db', hset, -, -, -, hzero⟩ := longSet hlen
  obtain ⟨locks, hlocked⟩ := run_locked (t := 0) (only_set 222 [1] x) hset
  have hrun := hlocked
  rw [← run_guarded (x := .blocked)] at hrun
  have hidle : (Writers.start fiveDb).Idle 0 := .inl rfl
  have hjob : (Job.set 222 [1] x).Fits := by
    change 222 < 2 ^ 64
    decide
  obtain ⟨p, hreach, hshared, wrote, hclient⟩ :=
    reaches_of_run (M := writers smallBuild) hidle hjob hrun
  have hopen : aodbmOpen smallBuild fiveFile = .ok fiveDb := by decide +kernel
  have hastray : ¬ SegAt p.shared.db.file 284 (aodbmDataFrom64 smallBuild 222) := by
    intro hseg
    rw [hshared] at hseg
    have heq := hseg.unique hzero (by simp)
    exact absurd heq (by decide)
  exact ⟨x, p, wrote, hopen, hreach, hclient, hastray, fun horderly =>
    hastray (horderly.set 0 222 [1] x 284 wrote hclient).header⟩

end Aodbm
