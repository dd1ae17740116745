import Aodbm.Lib.Atomicity
import Aodbm.Locks
import Aodbm.Operations
import Aodbm.Scan

/-!
# The threads are one after the other

Any number of threads make any calls, and one step is one effect of one thread. From outside this
cannot be told from calls that are made one at a time, each on the whole handle.

The moment of a call that writes is the last write of its block, and that of a commit the `fflush`
behind its record. The record is in the file before the field `cur` is set; nobody sees this, since
`version` is held. The moment of `aodbm_current`, and of a commit that is refused, is the release
of `version`. What only reads may be answered when it returns, since its answer is the same on
every later file.

Results:
1. `Joined.effect`: the effects of a thread leave alone what the others rely on.
2. `wp_demand`: a call has been answered when it returns, or may be answered then.
3. `linearized`: every interleaving is a sequential run of the calls.
-/

namespace Aodbm

open Effects Mutexes Interleaving

variable (B : Build)

/-! ## The calls -/

/-- A call that only reads. -/
inductive Look where
  | get (ver : Nat) (key : Data)
  | has (ver : Nat) (key : Data)
  | isBasedOn (a b : Nat)
  | previousVersion (ver : Nat)
  | commonAncestor (a b : Nat)
  | newIterator (ver : Nat)
  | iterateFrom (ver : Nat) (key : Data)
  | iteratorGoto (it : Iterator) (key : Data)
  | iteratorNext (it : Iterator)

inductive Demand where
  | set (ver : Nat) (key val : Data)
  | del (ver : Nat) (key : Data)
  | commit (version : Nat)
  | current
  | look (l : Look)

inductive Answer where
  | version (ver : Nat)
  | flag (b : Bool)
  | value (x : Option Data)
  | iterator (it : Iterator)
  | record (r : Option (Data × Data)) (it : Iterator)
deriving DecidableEq

def Look.op : Look → Op Answer
  | .get ver key => do
    let val ← aodbmGet B ver key
    pure (.value val)
  | .has ver key => do
    let has ← aodbmHas B ver key
    pure (.flag has)
  | .isBasedOn a b => do
    let result ← aodbmIsBasedOn B a b
    pure (.flag result)
  | .previousVersion ver => do
    let prev ← aodbmPreviousVersion B ver
    pure (.version prev)
  | .commonAncestor a b => do
    let c ← aodbmCommonAncestor B a b
    pure (.version c)
  | .newIterator ver => do
    let it ← aodbmNewIterator B ver
    pure (.iterator it)
  | .iterateFrom ver key => do
    let it ← aodbmIterateFrom B ver key
    pure (.iterator it)
  | .iteratorGoto it key => do
    let it ← aodbmIteratorGoto B it key
    pure (.iterator it)
  | .iteratorNext it => do
    let (r, it) ← aodbmIteratorNext B it
    pure (.record r it)

/-- The call with its result. -/
def Demand.op : Demand → Op Answer
  | .set ver key val => do
    let v ← aodbmSet B ver key val
    pure (.version v)
  | .del ver key => do
    let v ← aodbmDel B ver key
    pure (.version v)
  | .commit version => do
    let result ← aodbmCommit B version
    pure (.flag result)
  | .current => do
    let v ← aodbmCurrent
    pure (.version v)
  | .look l => l.op B

/-- The threads on one handle. -/
def callers : System Eff Eff.Res Err Thread LockedDb Empty Demand Answer where
  handle := LockedDb.handle
  observe := fun _ => []
  prog := Demand.op B

/-- A call that is made at one moment, with nobody else in a call. -/
def Alone (x : Db) (d : Demand) (a : Answer) (x' : Db) : Prop := eval (d.op B) x = .ok (a, x')

variable {B}

theorem reads_commonAncestorRecursive (depth a b : Nat) :
    Reader (commonAncestorRecursive B depth a b) := by
  induction depth generalizing a b with
  | zero => exact .fail _
  | succ depth ih =>
    rw [commonAncestorRecursive]
    exact .ite (fun _ => .pure trivial) fun _ => .ite (fun _ => .pure trivial) fun _ =>
      .ite (fun _ => (reads_read64 B a).then fun _ => ih _ _)
        fun _ => (reads_read64 B b).then fun _ => ih _ _

theorem reads_look (l : Look) : Reader (l.op B) := by
  cases l with
  | get ver key => exact (reads_get B ver key).then fun _ => .pure trivial
  | has ver key => exact (reads_has B ver key).then fun _ => .pure trivial
  | isBasedOn a b => exact (reads_isBasedOn B a b).then fun _ => .pure trivial
  | previousVersion ver => exact (reads_read64 B ver).then fun _ => .pure trivial
  | commonAncestor a b =>
    exact Reads.then (reads_commonAncestorRecursive _ a b) fun _ => .pure trivial
  | newIterator ver => exact (reads_newIterator B ver).then fun _ => .pure trivial
  | iterateFrom ver key => exact (reads_iteratorGoto B ⟨[], ver⟩ key).then fun _ => .pure trivial
  | iteratorGoto it key => exact (reads_iteratorGoto B it key).then fun _ => .pure trivial
  | iteratorNext it => exact (reads_iteratorNext B it).then fun _ => .pure trivial

/-! ## What a thread knows -/

/-- Whether the call of the thread has been answered, how often it holds `rw`, the file of complete
blocks when it last looked, what it has written of a block, and the current version while it holds
`version`. `late` is set between the record of a commit and the change of the field. -/
structure Seat where
  status : Status Demand Answer
  depth : Nat
  file : Data
  part : List Data
  cur : Option Nat
  late : Bool

namespace Seat

/-- The block that is completed by the write is the whole effect of the call. -/
def Appends (B : Build) (o : Seat) (bs : Data) (d : Demand) (a : Answer) : Prop :=
  ∀ x : Db, x.file = o.file → x.fileSize = x.file.length →
    Alone B x d a (x.append (o.part.flatten ++ bs))

/-- So is the record that was written, with the change of the current version. -/
def Records (B : Build) (o : Seat) (d : Demand) (a : Answer) (cur ver : Nat) : Prop :=
  ∀ x : Db, x.file = o.file → x.fileSize = x.file.length → x.cur = cur →
    Alone B x d a { x.append o.part.flatten with cur := ver }

/-- On every later file the call has this answer and writes nothing. -/
def Settled (B : Build) (o : Seat) (d : Demand) (a : Answer) : Prop :=
  ∀ x : Db, o.file <+: x.file → x.fileSize = x.file.length → (∀ c ∈ o.cur, x.cur = c) →
    Alone B x d a x

end Seat

/-- The effects of a thread. From the first write of a block to the last one, or to the `fflush`
behind a record, it only writes. -/
def seatSpec (B : Build) : Spec Eff Eff.Res Seat
  | .lockRw, Q, o => o.part = [] ∧ ∀ file, o.file <+: file → (0 < o.depth → file = o.file) →
    Q () { o with depth := o.depth + 1, file := file }
  | .unlockRw, Q, o => o.part = [] ∧ Q () { o with depth := o.depth - 1 }
  | .lockVersion, Q, o => o.part = [] ∧ ∀ cur, Q () { o with cur := some cur }
  | .unlockVersion, Q, o => o.part = [] ∧ o.cur ≠ none ∧ o.late = false ∧
    (Q () { o with cur := none } ∨ ∃ d a, o.status = .asked d ∧ o.Settled B d a ∧
      Q () { o with cur := none, status := .answered d a })
  | .getFileSize, Q, o => o.part = [] ∧ 0 < o.depth ∧ Q o.file.length o
  | .readAt off sz, Q, o => o.part = [] ∧ 0 < o.depth ∧ Q (readFile o.file off sz) o
  | .write bs, Q, o => 0 < o.depth ∧ (bs.length < 2 ^ 32 → Torn B o.part.flatten) ∧
    ((o.file ++ o.part.flatten ++ bs).length < 2 ^ 63 →
    Q () { o with part := o.part ++ [bs] } ∨ ∃ d ver, o.status = .asked d ∧
      o.Appends B bs d (.version ver) ∧ Q () { o with
        file := o.file ++ o.part.flatten ++ bs, part := [], status := .answered d (.version ver) })
  | .flush, Q, o => 0 < o.depth ∧ ∃ d a cur ver, o.status = .asked d ∧ o.cur = some cur ∧
      o.Records B d a cur ver ∧ Q () { o with
        file := o.file ++ o.part.flatten, part := [], status := .answered d a, cur := some ver,
        late := true }
  | .getCur, Q, o => o.part = [] ∧ ∃ cur, o.cur = some cur ∧ o.late = false ∧ Q cur o
  | .setCur ver, Q, o => o.part = [] ∧ o.cur = some ver ∧ Q () { o with late := false }

/-- A call fails only between blocks, before it has been answered, and it fails as the call alone
does on the file that the thread has seen. -/
def Seat.Fails (B : Build) (e : Err) (o : Seat) : Prop :=
  o.part = [] ∧ ∃ d, o.status = .asked d ∧ ∀ x : Db, x.file = o.file →
    x.fileSize = x.file.length → (∀ c ∈ o.cur, x.cur = c) → eval (d.op B) x = .error e

theorem seatSpec_mono : (seatSpec B).Mono := by
  intro e Q Q' hQ o h
  cases e with
  | lockRw => exact ⟨h.1, fun file hfile hsame => hQ _ _ (h.2 file hfile hsame)⟩
  | unlockRw => exact ⟨h.1, hQ _ _ h.2⟩
  | lockVersion => exact ⟨h.1, fun cur => hQ _ _ (h.2 cur)⟩
  | unlockVersion =>
    obtain ⟨hpart, hcur, hlate, hq | ⟨d, a, hasked, hsettled, hq⟩⟩ := h
    · exact ⟨hpart, hcur, hlate, .inl (hQ _ _ hq)⟩
    · exact ⟨hpart, hcur, hlate, .inr ⟨d, a, hasked, hsettled, hQ _ _ hq⟩⟩
  | getFileSize => exact ⟨h.1, h.2.1, hQ _ _ h.2.2⟩
  | readAt off sz => exact ⟨h.1, h.2.1, hQ _ _ h.2.2⟩
  | write bs =>
    refine ⟨h.1, h.2.1, fun hfits => ?_⟩
    rcases h.2.2 hfits with hq | ⟨d, ver, hasked, happ, hq⟩
    · exact .inl (hQ _ _ hq)
    · exact .inr ⟨d, ver, hasked, happ, hQ _ _ hq⟩
  | flush =>
    obtain ⟨hdepth, d, a, cur, ver, hasked, hcur, hrec, hq⟩ := h
    exact ⟨hdepth, d, a, cur, ver, hasked, hcur, hrec, hQ _ _ hq⟩
  | getCur =>
    obtain ⟨hpart, cur, hcur, hlate, hq⟩ := h
    exact ⟨hpart, cur, hcur, hlate, hQ _ _ hq⟩
  | setCur ver => exact ⟨h.1, h.2.1, hQ _ _ h.2.2⟩

/-! ## What the threads know together -/

/-- The file is that of the object, with what the thread that holds `rw` has begun. -/
structure Files (s : LockedDb) (x : Db) (g : Thread → Seat) : Prop where
  depth : ∀ t, (g t).depth = s.locks.rw.depth t
  older : ∀ t, (g t).file <+: x.file
  held : ∀ t, 0 < (g t).depth →
    (g t).file = x.file ∧ s.db.file = x.file ++ (g t).part.flatten
  outside : ∀ t, (g t).depth = 0 → (g t).part = []
  whole : (∀ t, (g t).depth = 0) → s.db.file = x.file
  size : s.db.fileSize = s.db.file.length
  complete : x.fileSize = x.file.length

/-- So is the current version, unless the thread that holds `version` is late. -/
structure Curs (s : LockedDb) (x : Db) (g : Thread → Seat) : Prop where
  owner : ∀ t, (g t).cur ≠ none ↔ s.locks.version = some t
  known : ∀ t, ∀ c ∈ (g t).cur, x.cur = c
  late : ∀ t, (g t).late = true → (g t).cur ≠ none
  cur : (∀ t, (g t).late = false) → s.db.cur = x.cur

structure Joined (s : LockedDb) (x : Db) (g : Thread → Seat) : Prop where
  files : Files s x g
  curs : Curs s x g

variable {s s' : LockedDb} {x x' : Db} {g : Thread → Seat} {t u : Thread} {own : Seat}

/-- A thread that can lock `rw` knows all that is in the file. -/
theorem Files.of_lock (h : Files s x g) {rw : RecMutex Thread}
    (hrw : s.locks.rw.lock t = some rw) : s.db.file = x.file ++ (g t).part.flatten := by
  obtain ⟨-, hfree | hpos⟩ := lock_eq_some.mp hrw
  · have hzero : ∀ u, (g u).depth = 0 := by
      intro u
      rw [h.depth, hfree]
      rfl
    rw [h.outside t (hzero t), h.whole hzero]
    simp
  · rw [← h.depth] at hpos
    exact (h.held t hpos).2

/-- Between blocks the file is what the thread that holds `rw` knows. -/
theorem Files.between (h : Files s x g) (hheld : 0 < (g t).depth) (hpart : (g t).part = []) :
    s.db.file = (g t).file := by
  obtain ⟨hfile, hbytes⟩ := h.held t hheld
  rw [hbytes, hpart, List.flatten_nil, List.append_nil, hfile]

/-- The thread locks, unlocks or looks, and nobody writes. -/
theorem Files.looks (h : Files s x g) (hfile : s'.db.file = s.db.file)
    (hsize : s'.db.fileSize = s.db.fileSize) (hdepth : own.depth = s'.locks.rw.depth t)
    (hothers : ∀ u, u ≠ t → s'.locks.rw.depth u = s.locks.rw.depth u)
    (holder : own.file <+: x.file)
    (hheld : 0 < own.depth → own.file = x.file ∧ s.db.file = x.file ++ own.part.flatten)
    (hout : own.depth = 0 → own.part = []) (hpart : own.part = (g t).part) :
    Files s' x (Function.update g t own) := by
  constructor
  case depth =>
    refine (Function.forall_update_iff g fun u o => o.depth = s'.locks.rw.depth u).mpr
      ⟨hdepth, fun u hu => ?_⟩
    rw [h.depth, hothers u hu]
  case older =>
    exact (Function.forall_update_iff g fun _ o => o.file <+: x.file).mpr
      ⟨holder, fun u _ => h.older u⟩
  case held =>
    rw [hfile]
    exact (Function.forall_update_iff g fun _ o => 0 < o.depth →
      o.file = x.file ∧ s.db.file = x.file ++ o.part.flatten).mpr ⟨hheld, fun u _ => h.held u⟩
  case outside =>
    exact (Function.forall_update_iff g fun _ o => o.depth = 0 → o.part = []).mpr
      ⟨hout, fun u _ => h.outside u⟩
  -- whoever gives `rw` back is between blocks
  case whole =>
    intro hall
    obtain ⟨hzero, hrest⟩ := (Function.forall_update_iff g fun _ o => o.depth = 0).mp hall
    rw [hfile]
    rcases Nat.eq_zero_or_pos (g t).depth with hdepth | hpos
    · refine h.whole fun u => ?_
      rcases eq_or_ne u t with rfl | hu
      · exact hdepth
      · exact hrest u hu
    · rw [(h.held t hpos).2, ← hpart, hout hzero]
      simp
  case size => rw [hsize, hfile, h.size]
  case complete => exact h.complete

/-- The thread that holds `rw` writes, and the object has the bytes or not. -/
theorem Files.writes (h : Files s x g) (hheld : 0 < (g t).depth) {bs : Data}
    (hdepth : own.depth = (g t).depth) (hgrow : x.file <+: x'.file) (hfile : own.file = x'.file)
    (hbytes : x'.file ++ own.part.flatten = x.file ++ (g t).part.flatten ++ bs)
    (hcomplete : x'.fileSize = x'.file.length) :
    Files { s with db := s.db.append bs } x' (Function.update g t own) := by
  have hwritten : s.db.file ++ bs = x'.file ++ own.part.flatten := by
    rw [(h.held t hheld).2, hbytes]
  constructor
  case depth =>
    refine (Function.forall_update_iff g fun u o => o.depth = s.locks.rw.depth u).mpr
      ⟨?_, fun u _ => h.depth u⟩
    rw [hdepth, h.depth]
  case older =>
    exact (Function.forall_update_iff g fun _ o => o.file <+: x'.file).mpr
      ⟨hfile ▸ List.prefix_rfl, fun u _ => (h.older u).trans hgrow⟩
  -- nobody else holds `rw`, so nobody else says that the file is as it was
  case held =>
    refine (Function.forall_update_iff g fun _ o => 0 < o.depth →
      o.file = x'.file ∧ s.db.file ++ bs = x'.file ++ o.part.flatten).mpr
        ⟨fun _ => ⟨hfile, hwritten⟩, fun u hu hdepth => ?_⟩
    rw [h.depth] at hdepth hheld
    exact absurd (owner_unique hdepth hheld) hu
  case outside =>
    exact (Function.forall_update_iff g fun _ o => o.depth = 0 → o.part = []).mpr
      ⟨fun hzero => absurd (hdepth.symm.trans hzero) hheld.ne', fun u _ => h.outside u⟩
  case whole =>
    intro hall
    have hzero := (Function.forall_update_iff g fun _ o => o.depth = 0).mp hall |>.1
    exact absurd (hdepth.symm.trans hzero) hheld.ne'
  case size => simp [Db.append, h.size]
  case complete => exact hcomplete

/-- A thread that does not hold `version` knows nothing of the current version. -/
theorem Curs.outside (h : Curs s x g) (hversion : s.locks.version ≠ some u) :
    (g u).cur = none ∧ (g u).late = false := by
  have hnone : (g u).cur = none := by
    by_contra hne
    exact hversion ((h.owner u).mp hne)
  refine ⟨hnone, ?_⟩
  by_contra hlate
  exact h.late u (Bool.eq_true_of_not_eq_false hlate) hnone

/-- Nobody but the thread can hold `version`. -/
theorem Curs.alone (h : Curs s x g) (hversion : s.locks.version = none ∨ s.locks.version = some t) :
    ∀ u, u ≠ t → (g u).cur = none ∧ (g u).late = false := by
  intro u hu
  refine h.outside fun howner => ?_
  rcases hversion with hversion | hversion
  · rw [hversion] at howner
    cases howner
  · rw [hversion] at howner
    exact hu (Option.some.inj howner).symm

/-- Without a thread that is late the field is that of the object. -/
theorem Curs.same_cur (h : Curs s x g)
    (hversion : s.locks.version = none ∨ s.locks.version = some t) (hlate : (g t).late = false) :
    s.db.cur = x.cur := by
  refine h.cur fun u => ?_
  rcases eq_or_ne u t with rfl | hu
  · exact hlate
  · exact (h.alone hversion u hu).2

/-- The thread does nothing to `version` and to the field. -/
theorem Curs.looks (h : Curs s x g) (hversion : s'.locks.version = s.locks.version)
    (hdb : s'.db.cur = s.db.cur) (hx : x'.cur = x.cur) (hcur : own.cur = (g t).cur)
    (hlate : own.late = (g t).late) : Curs s' x' (Function.update g t own) where
  owner := by
    rw [hversion]
    refine (Function.forall_update_iff g fun u o =>
      o.cur ≠ none ↔ s.locks.version = some u).mpr ⟨?_, fun u _ => h.owner u⟩
    rw [hcur]
    exact h.owner t
  known := by
    rw [hx]
    refine (Function.forall_update_iff g fun _ o => ∀ c ∈ o.cur, x.cur = c).mpr
      ⟨?_, fun u _ => h.known u⟩
    rw [hcur]
    exact h.known t
  late := by
    refine (Function.forall_update_iff g fun _ o => o.late = true → o.cur ≠ none).mpr
      ⟨?_, fun u _ => h.late u⟩
    rw [hcur, hlate]
    exact h.late t
  cur := by
    intro hall
    obtain ⟨hmine, hrest⟩ := (Function.forall_update_iff g fun _ o => o.late = false).mp hall
    rw [hdb, hx]
    refine h.cur fun u => ?_
    rcases eq_or_ne u t with rfl | hu
    · rw [← hlate]
      exact hmine
    · exact hrest u hu

/-- The thread takes `version`, gives it back, or changes the current version while it holds it. -/
theorem Curs.turn (hothers : ∀ u, u ≠ t → (g u).cur = none ∧ (g u).late = false)
    (hversion : s'.locks.version = none ∨ s'.locks.version = some t)
    (howner : own.cur ≠ none ↔ s'.locks.version = some t) (hknown : ∀ c ∈ own.cur, x'.cur = c)
    (hlate : own.late = true → own.cur ≠ none) (hcur : own.late = false → s'.db.cur = x'.cur) :
    Curs s' x' (Function.update g t own) where
  owner := by
    refine (Function.forall_update_iff g fun u o =>
      o.cur ≠ none ↔ s'.locks.version = some u).mpr ⟨howner, fun u hu => ?_⟩
    rw [(hothers u hu).1]
    rcases hversion with hversion | hversion
    · simp [hversion]
    · simp [hversion, hu.symm]
  known := by
    refine (Function.forall_update_iff g fun _ o => ∀ c ∈ o.cur, x'.cur = c).mpr
      ⟨hknown, fun u hu => ?_⟩
    rw [(hothers u hu).1]
    nofun
  late := by
    refine (Function.forall_update_iff g fun _ o => o.late = true → o.cur ≠ none).mpr
      ⟨hlate, fun u hu => ?_⟩
    rw [(hothers u hu).2]
    nofun
  cur hall := hcur ((Function.forall_update_iff g fun _ o => o.late = false).mp hall).1

/-- Nothing changes. -/
theorem Joined.same (h : Joined s x g) (hdb : s'.db = s.db) (hlocks : s'.locks = s.locks)
    (t : Thread) : Joined s' x (Function.update g t (g t)) := by
  have hdepth : (g t).depth = s'.locks.rw.depth t := by rw [hlocks, h.files.depth]
  constructor
  · exact h.files.looks (by rw [hdb]) (by rw [hdb]) hdepth (fun u _ => by rw [hlocks])
      (h.files.older t) (h.files.held t) (h.files.outside t) rfl
  · exact h.curs.looks (by rw [hlocks]) (by rw [hdb]) rfl rfl rfl

/-- The status may change too. -/
theorem Joined.answers (h : Joined s x g) (hfile : own.file = (g t).file)
    (hdepth : own.depth = (g t).depth) (hpart : own.part = (g t).part)
    (hcur : own.cur = (g t).cur) (hlate : own.late = (g t).late) :
    Joined s x (Function.update g t own) := by
  obtain ⟨status, depth, file, part, cur, late⟩ := own
  dsimp only at hfile hdepth hpart hcur hlate
  subst hfile hdepth hpart hcur hlate
  exact ⟨h.files.looks rfl rfl (h.files.depth t) (fun _ _ => rfl) (h.files.older t)
    (h.files.held t) (h.files.outside t) rfl, h.curs.looks rfl rfl rfl rfl rfl⟩

/-- The moment of a call is at the effect `e`. A commit is accepted only at an `fflush`. -/
structure MomentAt (B : Build) (e : Eff) (x : Db) (d : Demand) (a : Answer) (x' : Db) : Prop where
  alone : Alone B x d a x'
  flush : e = .flush ∨ x' = x ∨ ∃ ver, a = .version ver

/-- The moment of the call of a thread. -/
theorem acts_answered {e : Eff} {d : Demand} {a : Answer} {status : Status Demand Answer}
    (hasked : status = .asked d) (alone : Alone B x d a x')
    (flush : e = .flush ∨ x' = x ∨ ∃ ver, a = .version ver) :
    Acts (MomentAt B e) x status x' (.answered d a) := by
  rw [hasked]
  exact .act ⟨alone, flush⟩

/-- A write of a thread that keeps to the specification. -/
theorem Joined.write (h : Joined s x g) {bs : Data} {Q : Unit → Seat → Prop}
    (hS : seatSpec B (.write bs) Q (g t)) (hfits : s.db.file.length + bs.length < 2 ^ 63) :
    ∃ x' own, Joined { s with db := s.db.append bs } x' (Function.update g t own) ∧ Q () own ∧
      Acts (MomentAt B (.write bs)) x (g t).status x' own.status ∧ (g t).file <+: own.file := by
  obtain ⟨hheld, -, hS⟩ := hS
  obtain ⟨hfile, hbytes⟩ := h.files.held t hheld
  have hlen : ((g t).file ++ (g t).part.flatten ++ bs).length < 2 ^ 63 := by
    rw [hfile, ← hbytes, List.length_append]
    exact hfits
  have hgrow : x.file <+: x.file ++ ((g t).part.flatten ++ bs) := List.prefix_append _ _
  rcases hS hlen with hQ | ⟨d, ver, hasked, happ, hQ⟩
  -- the block is not complete
  · refine ⟨x, _, ⟨?_, ?_⟩, hQ, .stay _ _, List.prefix_rfl⟩
    · refine h.files.writes hheld rfl List.prefix_rfl hfile ?_ h.files.complete
      simp
    · exact h.curs.looks rfl rfl rfl rfl rfl
  · have hmoment := happ x hfile.symm h.files.complete
    refine ⟨_, _, ⟨?_, ?_⟩, hQ, acts_answered hasked hmoment (.inr (.inr ⟨ver, rfl⟩)), ?_⟩
    · refine h.files.writes hheld rfl hgrow ?_ ?_ ?_
      · simp [Db.append, hfile]
      · simp [Db.append]
      · simp [Db.append, h.files.complete]
    · exact h.curs.looks rfl rfl rfl rfl rfl
    · exact (List.prefix_append _ _).trans (List.prefix_append _ _)

/-- The `fflush` behind the record of a commit: the field is not changed yet. -/
theorem Joined.flush (h : Joined s x g) {Q : Unit → Seat → Prop}
    (hS : seatSpec B .flush Q (g t)) :
    ∃ x' own, Joined s x' (Function.update g t own) ∧ Q () own ∧
      Acts (MomentAt B .flush) x (g t).status x' own.status ∧ (g t).file <+: own.file := by
  obtain ⟨hheld, d, a, cur, ver, hasked, hcur, hrec, hQ⟩ := hS
  obtain ⟨hfile, hbytes⟩ := h.files.held t hheld
  have hversion : s.locks.version = some t := (h.curs.owner t).mp (by simp [hcur])
  have hmoment := hrec x hfile.symm h.files.complete (h.curs.known t cur hcur)
  let x' : Db := { x.append (g t).part.flatten with cur := ver }
  let own : Seat := { g t with
    file := (g t).file ++ (g t).part.flatten, part := [], status := .answered d a, cur := some ver,
    late := true }
  refine ⟨x', own, ⟨?_, ?_⟩, hQ, acts_answered hasked hmoment (.inl rfl), List.prefix_append _ _⟩
  -- no byte is written
  · have hfiles : Files { s with db := s.db.append [] } x' (Function.update g t own) := by
      refine h.files.writes hheld rfl (List.prefix_append _ _) ?_ ?_ ?_
      · simp [own, x', Db.append, hfile]
      · simp [own, x', Db.append]
      · simp [x', Db.append, h.files.complete]
    have hsame : s.db.append [] = s.db := by simp [Db.append]
    rw [hsame] at hfiles
    exact hfiles
  · exact .turn (h.curs.alone (.inr hversion)) (.inr hversion) (by simp [own, hversion])
      (by simp [own, x']) (by simp [own]) (by simp [own])

/-- An effect of a thread that keeps to the specification. -/
theorem Joined.effect {e : Eff} {Q : e.Res → Seat → Prop} {r : e.Res} (h : Joined s x g)
    (hS : seatSpec B e Q (g t)) (he : LockedDb.handle t e s = .ok (r, s')) :
    ∃ x' own, Joined s' x' (Function.update g t own) ∧ Q r own ∧
      Acts (MomentAt B e) x (g t).status x' own.status ∧ (g t).file <+: own.file := by
  cases e with
  | lockRw =>
    simp only [LockedDb.handle] at he
    split at he
    · next rw hrw =>
      cases he
      have hdepth := depth_lock hrw
      refine ⟨x, { g t with depth := (g t).depth + 1, file := x.file }, ⟨?_, ?_⟩,
        hS.2 x.file (h.files.older t) fun hpos => (h.files.held t hpos).1.symm, .stay _ _,
        h.files.older t⟩
      · refine h.files.looks rfl rfl ?_ (fun u hu => depth_lock_other hu.symm hrw)
          List.prefix_rfl (fun _ => ⟨rfl, h.files.of_lock hrw⟩)
          (fun hzero => absurd hzero (Nat.succ_ne_zero _)) rfl
        rw [hdepth, h.files.depth]
      · exact h.curs.looks rfl rfl rfl rfl rfl
    · cases he
  -- `seatSpec` lets go of `rw` only between blocks
  | unlockRw =>
    cases he
    obtain ⟨hpart, hQ⟩ := hS
    refine ⟨x, { g t with depth := (g t).depth - 1 }, ⟨?_, ?_⟩, hQ, .stay _ _, List.prefix_rfl⟩
    · refine h.files.looks rfl rfl ?_ (fun u hu => depth_unlock_other hu.symm) (h.files.older t)
        ?_ ?_ rfl
      · rw [depth_unlock, h.files.depth]
      · intro hpos
        exact h.files.held t (lt_of_lt_of_le hpos (Nat.sub_le _ _))
      · exact fun _ => hpart
    · exact h.curs.looks rfl rfl rfl rfl rfl
  | lockVersion =>
    simp only [LockedDb.handle] at he
    split at he
    · next hfree =>
      cases he
      have hothers := h.curs.alone (t := t) (.inl hfree)
      have hmine := (h.curs.outside (u := t) (by simp [hfree])).2
      refine ⟨x, { g t with cur := some x.cur }, ⟨?_, ?_⟩, hS.2 x.cur, .stay _ _,
        List.prefix_rfl⟩
      · exact h.files.looks rfl rfl (h.files.depth t) (fun _ _ => rfl) (h.files.older t)
          (h.files.held t) (h.files.outside t) rfl
      · refine .turn hothers (.inr rfl) (by simp) (by simp) (by simp) fun _ => ?_
        exact h.curs.same_cur (.inl hfree) hmine
    · cases he
  | unlockVersion =>
    cases he
    obtain ⟨-, hcur, hlate, hQ⟩ := hS
    have hversion : s.locks.version = some t := (h.curs.owner t).mp hcur
    have hgiven : ∀ status, Joined ⟨s.db, ⟨s.locks.rw, none⟩⟩ x
        (Function.update g t { g t with cur := none, status := status }) := by
      intro status
      constructor
      · exact h.files.looks rfl rfl (h.files.depth t) (fun _ _ => rfl) (h.files.older t)
          (h.files.held t) (h.files.outside t) rfl
      · refine .turn (h.curs.alone (.inr hversion)) (.inl rfl) (by simp) (by simp) ?_ fun _ => ?_
        · simp [hlate]
        · exact h.curs.same_cur (.inr hversion) hlate
    rcases hQ with hQ | ⟨d, a, hasked, hsettled, hQ⟩
    · exact ⟨x, _, hgiven (g t).status, hQ, .stay _ _, List.prefix_rfl⟩
    · have hmoment := hsettled x (h.files.older t) h.files.complete (h.curs.known t)
      exact ⟨x, _, hgiven (.answered d a), hQ, acts_answered hasked hmoment (.inr (.inl rfl)),
        List.prefix_rfl⟩
  | getFileSize =>
    cases he
    obtain ⟨hpart, hpos, hQ⟩ := hS
    refine ⟨x, g t, h.same rfl rfl t, ?_, .stay _ _, List.prefix_rfl⟩
    rw [← h.files.between hpos hpart, ← h.files.size] at hQ
    exact hQ
  | readAt off sz =>
    cases he
    obtain ⟨hpart, hpos, hQ⟩ := hS
    refine ⟨x, g t, h.same rfl rfl t, ?_, .stay _ _, List.prefix_rfl⟩
    rw [← h.files.between hpos hpart] at hQ
    exact hQ
  | write bs =>
    by_cases hfits : s.db.file.length + bs.length < 2 ^ 63
    · have heq : LockedDb.handle t (.write bs) s = .ok ((), { s with db := s.db.append bs }) := by
        simp only [LockedDb.handle, Db.handle, if_pos hfits]
        rfl
      rw [heq] at he
      cases he
      exact h.write hS hfits
    · -- a file of `2 ^ 63` bytes ends the process
      have heq : LockedDb.handle t (.write bs) s = .error .osError := by
        simp only [LockedDb.handle, Db.handle, if_neg hfits]
        rfl
      rw [heq] at he
      cases he
  | flush =>
    cases he
    exact h.flush hS
  | getCur =>
    cases he
    obtain ⟨-, cur, hcur, hlate, hQ⟩ := hS
    refine ⟨x, g t, h.same rfl rfl t, ?_, .stay _ _, List.prefix_rfl⟩
    have hversion : s.locks.version = some t := (h.curs.owner t).mp (by simp [hcur])
    have hsame : s.db.cur = cur := by
      rw [h.curs.same_cur (.inr hversion) hlate]
      exact h.curs.known t cur hcur
    rw [← hsame] at hQ
    exact hQ
  | setCur ver =>
    cases he
    obtain ⟨-, hcur, hQ⟩ := hS
    have hversion : s.locks.version = some t := (h.curs.owner t).mp (by simp [hcur])
    have hknown := h.curs.known t
    refine ⟨x, { g t with late := false }, ⟨?_, ?_⟩, hQ, .stay _ _, List.prefix_rfl⟩
    · exact h.files.looks rfl rfl (h.files.depth t) (fun _ _ => rfl) (h.files.older t)
        (h.files.held t) (h.files.outside t) rfl
    · refine .turn (h.curs.alone (.inr hversion)) (.inr hversion) ?_ hknown (by simp) fun _ => ?_
      · simp [hcur, hversion]
      · exact (hknown ver hcur).symm

/-! ## Reading -/

namespace Seat
variable {o : Seat}

/-- What the file may be when the thread looks again. -/
structure Looks (o : Seat) (file : Data) : Prop where
  older : o.file <+: file
  held : 0 < o.depth → file = o.file

theorem Looks.refl (o : Seat) : o.Looks o.file := ⟨List.prefix_rfl, fun _ => rfl⟩

theorem Looks.trans {file file' : Data} (h : o.Looks file)
    (h' : { o with file := file }.Looks file') : o.Looks file' where
  older := h.older.trans h'.older
  held hpos := (h'.held hpos).trans (h.held hpos)

/-- What only reads fails on the file that the thread has seen. -/
def ReadFails {α : Type} (f : Op α) (o : Seat) (e : Err) (o' : Seat) : Prop :=
  ∃ file, o.Looks file ∧ o' = { o with file := file } ∧
    ∀ x : Db, x.file = file → eval f x = .error e

/-- What is read does not change any more. -/
theorem wp_read (off sz : Nat) (hpart : o.part = []) :
    wpe (seatSpec B) (ReadFails (aodbmRead off sz) o) (aodbmRead off sz)
      (fun bs o' => ∃ file, o.Looks file ∧ o' = { o with file := file } ∧
        ∀ late, file <+: late → readFile late off sz = some bs) o := by
  refine ⟨hpart, fun file hfile hsame => ⟨hpart, Nat.succ_pos _, hpart, ?_⟩⟩
  cases hread : readFile file off sz with
  | none =>
    refine ⟨file, ⟨hfile, hsame⟩, rfl, fun x hx => ?_⟩
    rw [eval_read_cases, hx, hread]
  | some bs =>
    refine ⟨file, ⟨hfile, hsame⟩, rfl, ?_⟩
    rintro _ ⟨rest, rfl⟩
    exact readFile_append rest hread

/-- What only reads answers what it would answer on any later file. -/
theorem wp_reads {α : Type} {Q : α → Prop} {f : Op α} (hf : Reads Q f) (hpart : o.part = []) :
    wpe (seatSpec B) (ReadFails f o) f (fun a o' => ∃ file, o.Looks file ∧
      o' = { o with file := file } ∧ Q a ∧
        ∀ db : Db, file <+: db.file → eval f db = .ok (a, db)) o := by
  induction hf generalizing o with
  | pure h => exact ⟨o.file, .refl o, rfl, h, fun db _ => rfl⟩
  | fail e => exact ⟨o.file, .refl o, rfl, fun _ _ => rfl⟩
  | read off sz _ ih =>
    refine wpe_seq seatSpec_mono (wpe_weaken seatSpec_mono ?_ (wp_read off sz hpart)) ?_
    · rintro e _ ⟨file, hlooks, rfl, hfails⟩
      exact ⟨file, hlooks, rfl, fun x hx => run_bind_error (hfails x hx)⟩
    · rintro bs _ ⟨file, hlooks, rfl, hread⟩
      have hfirst : ∀ db : Db, file <+: db.file → eval (aodbmRead off sz) db = .ok (bs, db) := by
        intro db hdb
        rw [eval_read_cases, hread db.file hdb]
      refine wpe_weaken seatSpec_mono ?_ (wpe_mono seatSpec_mono ?_ (ih bs hpart))
      · rintro e _ ⟨file', hlooks', rfl, hfails⟩
        refine ⟨file', hlooks.trans hlooks', rfl, fun x hx => ?_⟩
        rw [eval, run_bind_ok (hfirst x (hx ▸ hlooks'.older))]
        exact hfails x hx
      · rintro a _ ⟨file', hlooks', rfl, ha, hrest⟩
        refine ⟨file', hlooks.trans hlooks', rfl, ha, fun db hdb => ?_⟩
        rw [eval, run_bind_ok (hfirst db (hlooks'.older.trans hdb))]
        exact hrest db hdb

/-! ## Writing -/

/-- The first byte of a block is not one. -/
theorem torn_dataBlock : Torn B [dataBlock] := by
  have hfits : Block.Fits (.data []) := Nat.two_pow_pos 32
  have henc : Block.enc B (.data []) = [dataBlock] ++ aodbmDataFrom32 B 0 := List.append_nil _
  refine torn_of_append hfits henc fun hnil => ?_
  have hlen := congrArg List.length hnil
  simp at hlen

theorem torn_versionBlock : Torn B [versionBlock] := by
  have hfits : Block.Fits (.version 0) := Nat.two_pow_pos 64
  have henc : Block.enc B (.version 0) = [versionBlock] ++ aodbmDataFrom64 B 0 := rfl
  refine torn_of_append hfits henc fun hnil => ?_
  have hlen := congrArg List.length hnil
  simp at hlen

/-- A thread that holds `rw` writes the block, and with it its call is answered. -/
theorem wp_writeDataBlock {data : Data} {d : Demand} (ver : Nat) (hdata : data ≠ [])
    (hdepth : 0 < o.depth) (hpart : o.part = []) (hasked : o.status = .asked d)
    (hmoment : (o.file ++ Block.enc B (.data data)).length < 2 ^ 63 → ∀ x : Db, x.file = o.file →
      x.fileSize = x.file.length →
      Alone B x d (.version ver) (x.append (Block.enc B (.data data)))) :
    wpe (seatSpec B) (Fails B) (aodbmWriteDataBlock B data) (fun _ o' => o' = { o with
      file := o.file ++ Block.enc B (.data data), status := .answered d (.version ver) }) o := by
  have henc : (o.part ++ [[dataBlock]] ++ [aodbmDataFrom32 B (data.length % 2 ^ 32)]).flatten ++
      data = Block.enc B (.data data) := by
    simp [hpart, Block.enc]
  refine ⟨hpart, fun file hfile hsame => ?_⟩
  obtain rfl := hsame hdepth
  refine ⟨Nat.succ_pos _, fun _ => ?_, fun _ => .inl ⟨Nat.succ_pos _, fun _ => ?_, fun _ =>
    .inl ⟨Nat.succ_pos _, fun hshort => ?_, fun hfits => .inr ⟨d, ver, hasked,
      fun x hx hsize => ?_, rfl, ?_⟩⟩⟩⟩
  · rw [hpart]
    exact torn_nil
  · rw [hpart]
    exact torn_dataBlock
  · exact torn_of_append (b := .data data) hshort henc.symm hdata
  · rw [List.append_assoc, henc] at hfits
    rw [henc]
    exact hmoment hfits x hx hsize
  · show Seat.mk (.answered d (.version ver)) o.depth (o.file ++ (o.part ++ [[dataBlock]] ++
      [aodbmDataFrom32 B (data.length % 2 ^ 32)]).flatten ++ data) [] o.cur o.late = _
    rw [List.append_assoc o.file, henc, hpart]

/-- The record of a commit, while the thread holds `version`. -/
theorem wp_writeVersion {ver cur : Nat} {d : Demand} {a : Answer} (hpart : o.part = [])
    (hcur : o.cur = some cur) (hasked : o.status = .asked d)
    (hmoment : ∀ x : Db, o.file <+: x.file → x.fileSize = x.file.length → x.cur = cur →
      (x.file ++ Block.enc B (.version ver)).length < 2 ^ 63 →
      Alone B x d a { x.append (Block.enc B (.version ver)) with cur := ver }) :
    wpe (seatSpec B) (Fails B) (aodbmWriteVersion B ver) (fun _ o' => ∃ file,
      o' = { o with file := file, status := .answered d a, cur := some ver, late := true }) o := by
  have henc : (o.part ++ [[versionBlock]] ++ [aodbmDataFrom64 B ver]).flatten =
      Block.enc B (.version ver) := by
    simp [hpart, Block.enc]
  refine ⟨hpart, fun file hfile _ => ⟨Nat.succ_pos _, fun _ => ?_, fun _ => .inl
    ⟨Nat.succ_pos _, fun _ => ?_, fun hfits => .inl ⟨Nat.succ_pos _, d, a, cur, ver, hasked, hcur,
      fun x hx hsize hxcur => ?_, rfl, ?_⟩⟩⟩⟩
  · rw [hpart]
    exact torn_nil
  · rw [hpart]
    exact torn_versionBlock
  · have hwritten : (o.part ++ [[versionBlock]]).flatten ++ aodbmDataFrom64 B ver =
        Block.enc B (.version ver) := by
      simp [hpart, Block.enc]
    rw [List.append_assoc, hwritten] at hfits
    rw [henc]
    rw [← hx] at hfits
    refine hmoment x ?_ hsize hxcur hfits
    rw [hx]
    exact hfile
  · refine ⟨file ++ Block.enc B (.version ver), ?_⟩
    show Seat.mk (.answered d a) o.depth (file ++ (o.part ++ [[versionBlock]] ++
      [aodbmDataFrom64 B ver]).flatten) [] (some ver) true = _
    rw [henc, hpart]

/-! ## The calls of a thread -/

/-- The call has just been made. -/
structure Begins (d : Demand) (o : Seat) : Prop where
  asked : o.status = .asked d
  part : o.part = []
  cur : o.cur = none
  late : o.late = false

/-- The call returns `a`. -/
structure Ends (B : Build) (d : Demand) (a : Answer) (o : Seat) : Prop where
  answered : o.status = .answered d a ∨ o.status = .asked d ∧ o.Settled B d a
  part : o.part = []
  cur : o.cur = none
  late : o.late = false

/-- Between calls. -/
structure Ready (o : Seat) : Prop where
  idle : o.status = .idle
  part : o.part = []
  cur : o.cur = none
  late : o.late = false

variable {d : Demand} {ver : Nat} {k v : Data}

/-- From the reading of `file_size` to the end of the write. -/
theorem wp_append {α : Type} {returned : Nat → Data → Data → Nat}
    {build : Nat → Op RootResult} {f : RootResult → Op α} {Q : α → Seat → Prop}
    (hbuild : ∀ pos, Reads (fun result => RootAt B ver result (returned pos)) (build pos))
    (hdepth : 0 < o.depth) (h : o.Begins d)
    (hmoment : ∀ (result : RootResult) (x : Db), x.Synced → x.file = o.file →
      eval (build (x.file.length + 5)) x = .ok (result, x) →
      x.file.length + (Block.enc B (.data result.dat)).length < 2 ^ 63 →
      Alone B x d (.version result.root) (x.append (Block.enc B (.data result.dat))))
    (hfails : ∀ (e : Err) (x : Db), x.file = o.file → x.fileSize = x.file.length →
      eval (build (x.file.length + 5)) x = .error e → eval (d.op B) x = .error e)
    (hf : ∀ (result : RootResult) (file : Data), wpe (seatSpec B) (Fails B) (f result) Q
      { o with file := file, status := .answered d (.version result.root) }) :
    wpe (seatSpec B) (Fails B) (do
      let fileSize ← aodbmFileSize
      let result ← build (fileSize + 5)
      aodbmWriteDataBlock B result.dat
      f result) Q o := by
  refine ⟨h.part, hdepth, ?_⟩
  change wpe (seatSpec B) (Fails B) (build (o.file.length + 5) >>= _) _ _
  refine wpe_seq seatSpec_mono (wpe_weaken seatSpec_mono ?_ (wp_reads (hbuild _) h.part)) ?_
  · rintro e _ ⟨file, hlooks, rfl, herror⟩
    obtain rfl := hlooks.held hdepth
    refine ⟨h.part, d, h.asked, fun x hx hxsize _ => hfails e x hx hxsize ?_⟩
    rw [congrArg List.length (show x.file = o.file from hx)]
    exact herror x hx
  rintro result _ ⟨file, hlooks, rfl, hroot, heval⟩
  obtain rfl := hlooks.held hdepth
  refine wpe_seq seatSpec_mono (wp_writeDataBlock result.root hroot.ne_nil hdepth h.part h.asked ?_)
    ?_
  · intro hfits x hx hxsize
    rw [List.length_append, ← hx] at hfits
    have hbuilt := heval x (hx ▸ List.prefix_rfl)
    rw [← hx] at hbuilt
    exact hmoment result x ⟨hxsize, lt_of_le_of_lt (Nat.le_add_right _ _) hfits⟩ hx hbuilt hfits
  · rintro _ _ rfl
    exact hf result _

/-- A thread that sets a key. -/
theorem wp_set (h : o.Begins (.set ver k v)) :
    wpe (seatSpec B) (Fails B) (aodbmSet B ver k v)
      (fun r => Ends B (.set ver k v) (.version r)) o := by
  refine ⟨h.part, fun file _ _ => ?_⟩
  have h' : ({ o with depth := o.depth + 1, file := file } : Seat).Begins (.set ver k v) :=
    ⟨h.asked, h.part, h.cur, h.late⟩
  refine wp_append (reads_setResult B ver k v) (Nat.succ_pos _) h' ?_ ?_ ?_
  · intro result x hx _ hbuilt hfits
    have hrun := eval_aodbmSet hx hbuilt
    rw [if_pos hfits] at hrun
    rw [Alone, Demand.op, eval, run_bind_ok hrun]
    rfl
  · exact fun e x _ hsize herror => run_bind_error (eval_aodbmSet_error hsize herror)
  -- the second lock is never given back
  · exact fun _ _ => ⟨h.part, fun _ _ _ => ⟨.inl rfl, h.part, h.cur, h.late⟩⟩

/-- A thread that deletes a key. It looks for the key before it locks. -/
theorem wp_del (h : o.Begins (.del ver k)) :
    wpe (seatSpec B) (Fails B) (aodbmDel B ver k)
      (fun r => Ends B (.del ver k) (.version r)) o := by
  by_cases hver : ver = 0
  · rw [aodbmDel, if_pos hver]
    refine ⟨.inr ⟨h.asked, fun x _ _ _ => ?_⟩, h.part, h.cur, h.late⟩
    rw [Alone, Demand.op, aodbmDel, if_pos hver]
    rfl
  · rw [aodbmDel, if_neg hver]
    refine wpe_seq seatSpec_mono (wpe_weaken seatSpec_mono ?_
      (wp_reads (reads_has B ver k) h.part)) ?_
    · rintro e _ ⟨file, -, rfl, herror⟩
      refine ⟨h.part, _, h.asked, fun x hx _ _ => ?_⟩
      rw [Demand.op, aodbmDel, if_neg hver]
      exact run_bind_error (run_bind_error (herror x hx))
    rintro has _ ⟨file, hlooks, rfl, -, hhas⟩
    cases has with
    | false =>
      refine ⟨.inr ⟨h.asked, fun x hx _ _ => ?_⟩, h.part, h.cur, h.late⟩
      rw [Alone, Demand.op, aodbmDel, if_neg hver, eval, Prog.bind_assoc', run_bind_ok (hhas x hx)]
      rfl
    | true =>
      refine ⟨h.part, fun file' hfile' _ => ?_⟩
      have h' : ({ o with depth := o.depth + 1, file := file' } : Seat).Begins (.del ver k) :=
        ⟨h.asked, h.part, h.cur, h.late⟩
      refine wp_append (reads_delResult B ver k) (Nat.succ_pos _) h' ?_ ?_ ?_
      · intro result x hx hxfile hbuilt hfits
        have hfound := hhas x (hxfile ▸ hfile')
        have hrun := eval_aodbmDel hx hver hfound hbuilt
        rw [if_pos hfits] at hrun
        rw [Alone, Demand.op, eval, run_bind_ok hrun]
        rfl
      · intro e x hx hsize herror
        have hfound := hhas x (hx ▸ hfile')
        exact run_bind_error (eval_aodbmDel_error hsize hver hfound herror)
      · intro result _
        exact ⟨h.part, .inl rfl, h.part, h.cur, h.late⟩

/-- A thread that commits a version. -/
theorem wp_commit (h : o.Begins (.commit ver)) :
    wpe (seatSpec B) (Fails B) (aodbmCommit B ver)
      (fun r => Ends B (.commit ver) (.flag r)) o := by
  refine ⟨h.part, fun cur => ⟨h.part, cur, rfl, h.late, ?_⟩⟩
  change wpe (seatSpec B) (Fails B) (aodbmIsBasedOn B ver cur >>= _) _ _
  refine wpe_seq seatSpec_mono (wpe_weaken seatSpec_mono ?_
    (wp_reads (reads_isBasedOn B ver cur) h.part)) ?_
  · rintro e _ ⟨file, -, rfl, herror⟩
    refine ⟨h.part, _, h.asked, fun x hx _ hxcur => ?_⟩
    rw [← show x.cur = cur from hxcur cur rfl] at herror
    exact run_bind_error (eval_commit_error (herror x hx))
  rintro result _ ⟨file, hlooks, rfl, -, hbased⟩
  have hcommit : ∀ x : Db, file <+: x.file → x.cur = cur →
      eval (aodbmIsBasedOn B ver x.cur) x = .ok (result, x) := by
    intro x hx hxcur
    rw [hxcur]
    exact hbased x hx
  cases result with
  | false =>
    refine ⟨h.part, by simp, h.late, .inr ⟨_, .flag false, h.asked, fun x hx _ hxcur => ?_,
      .inl rfl, h.part, rfl, h.late⟩⟩
    have hrun := eval_commit_of (hcommit x hx (hxcur cur rfl))
    rw [Alone, Demand.op, eval, run_bind_ok hrun]
    rfl
  | true =>
    refine wpe_seq seatSpec_mono (wp_writeVersion (a := .flag true) h.part rfl h.asked ?_) ?_
    · intro x hx _ hxcur hfits
      have hrun := eval_commit_of (hcommit x hx hxcur)
      rw [if_pos rfl, if_pos (List.length_append ▸ hfits)] at hrun
      rw [Alone, Demand.op, eval, run_bind_ok hrun]
      rfl
    · rintro _ _ ⟨file', rfl⟩
      exact ⟨h.part, rfl, h.part, by simp, rfl, .inl ⟨.inl rfl, h.part, rfl, rfl⟩⟩

theorem wp_current (h : o.Begins .current) :
    wpe (seatSpec B) (Fails B) aodbmCurrent (fun r => Ends B .current (.version r)) o := by
  refine ⟨h.part, fun cur => ⟨h.part, cur, rfl, h.late, h.part, by simp, h.late, .inr ⟨_,
    .version cur, h.asked, fun x _ _ hx => ?_, .inl rfl, h.part, rfl, h.late⟩⟩⟩
  rw [← hx cur rfl]
  rfl

/-- A call has been answered when it returns, or may be answered then. -/
theorem wp_demand (h : o.Begins d) :
    wpe (seatSpec B) (Fails B) (d.op B) (fun a => Ends B d a) o := by
  cases d with
  | set ver k v => exact wpe_seq seatSpec_mono (wp_set h) fun _ _ hends => hends
  | del ver k => exact wpe_seq seatSpec_mono (wp_del h) fun _ _ hends => hends
  | commit ver => exact wpe_seq seatSpec_mono (wp_commit h) fun _ _ hends => hends
  | current => exact wpe_seq seatSpec_mono (wp_current h) fun _ _ hends => hends
  | look l =>
    refine wpe_weaken seatSpec_mono ?_ (wpe_mono seatSpec_mono ?_ (wp_reads (reads_look l) h.part))
    · rintro e _ ⟨file, -, rfl, herror⟩
      exact ⟨h.part, _, h.asked, fun x hx _ _ => herror x hx⟩
    · rintro a _ ⟨file, hlooks, rfl, -, heval⟩
      exact ⟨.inr ⟨h.asked, fun x hx _ _ => heval x hx⟩, h.part, h.cur, h.late⟩

end Seat

/-- All threads together. -/
def callersProof (B : Build) : AtomicProof (callers B) (Alone B) (fun _ => True) Seat where
  spec := seatSpec B
  wrong := Seat.Fails B
  status := Seat.status
  Holds := Joined
  post := Seat.Ends B
  Ready := Seat.Ready
  idle h := h.idle
  effect h hS he := by
    obtain ⟨x', own, hjoined, hQ, hacts, -⟩ := h.effect hS he
    exact ⟨x', own, hjoined, hQ, hacts.mono fun moment => moment.alone⟩
  call := by
    intro t d s x g h hready _
    exact ⟨{ g t with status := .asked d }, h.answers rfl rfl rfl rfl rfl, rfl,
      Seat.wp_demand ⟨rfl, hready.part, hready.cur, hready.late⟩⟩
  ret := by
    intro t d a s x g h hends
    refine ⟨{ g t with status := .idle }, h.answers rfl rfl rfl rfl rfl,
      ⟨rfl, hends.part, hends.cur, hends.late⟩, hends.answered.imp_right ?_⟩
    rintro ⟨hasked, hsettled⟩
    exact ⟨hasked, hsettled x (h.files.older t) h.files.complete (h.curs.known t)⟩

/-! ## Every interleaving -/

abbrev Callers := Pool Eff Eff.Res Err Thread LockedDb Empty Demand Answer

/-- The handle as `aodbm_open` leaves it, with its mutexes free. -/
def Callers.start (db : Db) : Callers := Pool.start ⟨db, ⟨.free, none⟩⟩

theorem joined_start (db : Db) (hsize : db.fileSize = db.file.length) :
    Joined ⟨db, ⟨.free, none⟩⟩ db fun _ => ⟨.idle, 0, [], [], none, false⟩ where
  files := {
    depth := fun _ => rfl
    older := fun _ => List.nil_prefix
    held := fun _ hpos => absurd hpos (Nat.lt_irrefl 0)
    outside := fun _ _ => rfl
    whole := fun _ => rfl
    size := hsize
    complete := hsize }
  curs := {
    owner := fun _ => by simp
    known := nofun
    late := nofun
    cur := fun _ => rfl }

/-- The complete blocks are those of the object. -/
theorem Files.prefix (h : Files s x g) : x.file <+: s.db.file := by
  by_cases hall : ∀ t, (g t).depth = 0
  · exact h.whole hall ▸ List.prefix_rfl
  · obtain ⟨t, ht⟩ := not_forall.mp hall
    rw [(h.held t (Nat.pos_of_ne_zero ht)).2]
    exact List.prefix_append _ _

/-- When all threads are between calls, the handle is the object. -/
theorem Joined.ready (h : Joined s x g) (hready : ∀ t, (g t).Ready) : s.db = x := by
  have hfile : s.db.file = x.file := by
    by_cases hall : ∀ t, (g t).depth = 0
    · exact h.files.whole hall
    · obtain ⟨t, ht⟩ := not_forall.mp hall
      rw [(h.files.held t (Nat.pos_of_ne_zero ht)).2, (hready t).part]
      simp
  have hsize : s.db.fileSize = x.fileSize := by
    rw [h.files.size, h.files.complete, hfile]
  have hcur := h.curs.cur fun t => (hready t).late
  calc s.db = ⟨s.db.file, s.db.fileSize, s.db.cur⟩ := rfl
    _ = x := by rw [hfile, hsize, hcur]

/-- Thread 1 asks for the current version, and thread 0 sets a key before the answer. -/
def overlap : List (Visible Thread Demand Answer) :=
  [.call 1 .current, .call 0 (.set 0 [] []), .ret 0 (.version 5), .ret 1 (.version 0)]

theorem overlap_trace : ∃ p : Callers,
    Traces (Moves (callers smallBuild) fun _ => True) (Callers.start Db.empty) overlap p ∧
      p.shared.db.file.length = 26 := by
  let s : LockedDb := ⟨⟨[100, 0, 0, 0, 21, 0, 0, 0, 0, 0, 0, 0, 0, 108, 0, 0, 0, 1, 0, 0, 0, 0,
    0, 0, 0, 0], 26, 0⟩, ⟨.held 0 1, none⟩⟩
  have hset : run ((callers smallBuild).handle 0) ((callers smallBuild).prog (.set 0 [] []))
      ⟨Db.empty, ⟨.free, none⟩⟩ = .ok (.version 5, s) := by decide +kernel
  have hcurrent : run ((callers smallBuild).handle 1) ((callers smallBuild).prog .current) s =
      .ok (.version 0, s) := by decide +kernel
  let p₁ : Callers := ⟨⟨Db.empty, ⟨.free, none⟩⟩,
    Function.update (fun _ => none) 1 (some ⟨.current, Demand.current.op smallBuild, []⟩), []⟩
  have hcall : Moves (callers smallBuild) (fun _ => True) (Callers.start Db.empty)
      (some (.call 1 .current)) p₁ := .call rfl trivial
  have hbetween : ∃ p₂, Traces (Moves (callers smallBuild) fun _ => True) p₁
      [.call 0 (.set 0 [] []), .ret 0 (.version 5)] p₂ ∧ p₂.shared = s ∧
      p₂.clients = p₁.clients := traces_call rfl trivial hset
  obtain ⟨p₂, htrace₂, hshared₂, hclients₂⟩ := hbetween
  have hclient : p₂.clients 1 = some ⟨.current, Demand.current.op smallBuild, []⟩ := by
    rw [hclients₂]
    rfl
  rw [← hshared₂] at hcurrent
  obtain ⟨p₃, htrace₃, hshared₃, ⟨seen, hdone⟩, -⟩ := traces_rest (M := callers smallBuild)
    hclient hcurrent
  have hret : Moves (callers smallBuild) (fun _ => True) p₃ (some (.ret 1 (.version 0))) _ :=
    .ret hdone
  refine ⟨_, .seen hcall (htrace₂.append (htrace₃.append (.seen hret (.nil _)))), ?_⟩
  rw [hshared₃, hshared₂]
  rfl

/-- What is seen of any number of threads that make any calls on a file that was opened can be
seen of a handle that answers each call at one moment. -/
theorem linearized {file : Data} {db : Db} {p : Callers} {es : List (Visible Thread Demand Answer)}
    (hopen : aodbmOpen B file = .ok db)
    (hrun : Traces (Moves (callers B) fun _ => True) (Callers.start db) es p) :
    ∃ q, Traces (AtomicStep (Alone B)) (Atomic.start db) es q ∧
      q.state.file <+: p.shared.db.file ∧
      ((∀ t, p.clients t = none) → p.shared.db = q.state) := by
  have hstart := AtomicProof.start (P := callersProof B) (joined_start db (open_synced hopen).1)
    fun _ => ⟨rfl, rfl, rfl, rfl⟩
  obtain ⟨q, g, htrace, hinv⟩ := hstart.trace hrun
  have hjoined : Joined p.shared q.state g := hinv.fits.holds
  exact ⟨q, htrace, hjoined.files.prefix, fun hidle =>
    hjoined.ready fun t => hinv.ready t (hidle t)⟩

theorem linearized_set : ∃ (p : Callers) (q : Atomic Db Thread Demand Answer),
    Traces (AtomicStep (Alone smallBuild)) (Atomic.start Db.empty) overlap q ∧
    q.state.file <+: p.shared.db.file ∧
    ((∀ t, p.clients t = none) → p.shared.db = q.state) := by
  obtain ⟨p, htrace, -⟩ := overlap_trace
  have hopen : aodbmOpen smallBuild [] = .ok Db.empty := by decide +kernel
  exact ⟨p, linearized hopen htrace⟩

end Aodbm
