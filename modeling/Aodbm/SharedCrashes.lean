import Aodbm.SharedStore

/-!
# Threads whose process is killed

Any number of threads make calls, their effects interleave, and at any time the process is killed:
the file keeps what was there at the last `fflush`, and some of the bytes behind it. The threads of
the next process open what is left. They know of the versions that were committed, and learn of
others again.

Results:
1. `file_cases`: what is in the file while calls are in the middle of their effects.
2. `Recalls.restarts`: what `aodbm_open` finds is what the store keeps.
3. `Lifetime.step`: a process goes on, or the next one begins.
4. `processes_store`: every run of such processes is one of the store, and a commit that returned
   to some thread is never lost.
-/

namespace Aodbm

open Effects Interleaving VersionStores Simulations

inductive Happening where
  | seen (e : Visible Thread Demand Answer)
  | kill

/-- The file is short, also with what a thread is about to write. -/
structure Process.Short (p : Process) : Prop where
  file : p.shared.locked.db.file.length < 2 ^ 32
  next : ∀ {t : Thread} {job : Demand} {bs : Data} {k : Unit → Op Answer} {seen : List Empty},
    p.clients t = some ⟨job, .op (.write bs) k, seen⟩ →
      p.shared.locked.db.file.length + bs.length < 2 ^ 32

/-- One effect, call or return of a thread, or the end of the process and the beginning of the next
one. A process that is killed leaves what was there at the last `fflush`, and some of the bytes
behind it. -/
inductive ProcessStep (B : Build) : Process → Option Happening → Process → Prop where
  | effect {p p' : Process} (move : Moves (sharers B) (fun _ => True) p none p')
      (short : p'.shared.locked.db.file.length < 2 ^ 32) : ProcessStep B p none p'
  | seen {p p' : Process} {e : Visible Thread Demand Answer}
      (move : Moves (sharers B) (fun _ => True) p (some e) p')
      (short : p'.shared.locked.db.file.length < 2 ^ 32) : ProcessStep B p (some (.seen e)) p'
  | kill {p : Process} {P : Data} {db : Db} (short : p.Short)
      (cut : P <+: p.shared.locked.db.file) (left : p.shared.flushed ≤ P.length)
      (opened : aodbmOpen B P = .ok db) : ProcessStep B p (some .kill) (Process.start db)

/-- The store with its threads, which are gone when the process is killed. -/
inductive SharedStep (B : Build) : SharedStore → Option Happening → SharedStore → Prop where
  | act {b b' : SharedStore} (step : AtomicStep (StoreMoment B) b none b') :
      SharedStep B b none b'
  | seen {b b' : SharedStore} {e : Visible Thread Demand Answer}
      (step : AtomicStep (StoreMoment B) b (some e) b') : SharedStep B b (some (.seen e)) b'
  | kill {b : SharedStore} {a : Store Nat Data Data} (survives : b.state.Survives a) :
      SharedStep B b (some .kill) (Atomic.start a)

/-! ## What the threads know -/

/-- The version that the call commits. -/
def Demand.commits : Demand → Option Nat
  | .commit ver => some ver
  | _ => none

/-- The versions that were given, those of which a commit returned, and what the threads commit. -/
structure Knowledge where
  known : List Nat
  kept : List Nat
  commits : Thread → Option Nat

namespace Knowledge

def start : Knowledge := ⟨[0], [0], fun _ => none⟩

/-- Behind the end of a process the commits are known. -/
def next (k : Knowledge) : Happening → Knowledge
  | .seen (.call t d) => { k with commits := Function.update k.commits t d.commits }
  | .seen (.ret t a) =>
    { known := a.given ++ k.known
      kept := if a = .flag true then (k.commits t).toList ++ k.kept else k.kept
      commits := Function.update k.commits t none }
  | .kill => ⟨k.kept, k.kept, fun _ => none⟩

/-- The threads name what they know. -/
def Allows (k : Knowledge) : Happening → Prop
  | .seen (.call _ d) => d.From (· ∈ k.known)
  | _ => True

instance (k : Knowledge) : DecidablePred k.Allows
  | .seen (.call _ d) => inferInstanceAs (Decidable (d.From (· ∈ k.known)))
  | .seen (.ret ..) => isTrue trivial
  | .kill => isTrue trivial

end Knowledge

/-- The threads name only versions that were given to one of them since the process began, or
committed before. -/
def Informed : Knowledge → List Happening → Prop
  | _, [] => True
  | k, h :: hs => k.Allows h ∧ Informed (k.next h) hs

instance decidableInformed : (k : Knowledge) → (hs : List Happening) → Decidable (Informed k hs)
  | _, [] => isTrue trivial
  | k, h :: hs =>
    have := decidableInformed (k.next h) hs
    inferInstanceAs (Decidable (k.Allows h ∧ Informed (k.next h) hs))

variable {B : Build} {q q' : SharedHandle} {b b' : SharedStore} {k : Knowledge} {t : Thread}
  {d : Demand} {r : Answer} {x' : Stream}

/-- The store is where the handle is, and has what was committed. -/
structure Recalls (B : Build) (q : SharedHandle) (b : SharedStore) (k : Knowledge) : Prop where
  follows : Follows B q b k.known
  kept : ∀ v ∈ k.kept, ∃ e, b.state.Holds v e
  asked : ∀ t d, q.status t = .asked d → k.commits t = d.commits
  answered : ∀ t d r, q.status t = .answered d r → k.commits t = d.commits
  done : ∀ t v, q.status t = .answered (.commit v) (.flag true) → ∃ e, b.state.Holds v e

theorem Recalls.call (h : Recalls B q b k) (hd : k.Allows (.seen (.call t d))) :
    Recalls B ⟨q.state, Function.update q.status t (.asked d)⟩
      ⟨b.state, Function.update b.status t (.asked d)⟩ (k.next (.seen (.call t d))) where
  follows := h.follows.call hd
  kept := h.kept
  asked := by
    refine (Function.forall_update_iff q.status fun u st => ∀ d', st = .asked d' →
      Function.update k.commits t d.commits u = d'.commits).mpr ⟨?_, fun u hu d' hst => ?_⟩
    · rintro _ ⟨⟩
      exact Function.update_self _ _ _
    · rw [Function.update_of_ne hu]
      exact h.asked u d' hst
  answered := by
    refine (Function.forall_update_iff q.status fun u st => ∀ d' r', st = .answered d' r' →
      Function.update k.commits t d.commits u = d'.commits).mpr ⟨nofun, fun u hu d' r' hst => ?_⟩
    rw [Function.update_of_ne hu]
    exact h.answered u d' r' hst
  done := (Function.forall_update_iff q.status fun u st => ∀ v,
    st = .answered (.commit v) (.flag true) → ∃ e, b.state.Holds v e).mpr
      ⟨nofun, fun u _ => h.done u⟩

theorem Recalls.ret (h : Recalls B q b k) (hr : q.status t = .answered d r) :
    Recalls B ⟨q.state, Function.update q.status t .idle⟩
      ⟨b.state, Function.update b.status t .idle⟩ (k.next (.seen (.ret t r))) where
  follows := h.follows.ret hr
  kept := by
    intro v hv
    show ∃ e, b.state.Holds v e
    change v ∈ (if r = .flag true then (k.commits t).toList ++ k.kept else k.kept) at hv
    split at hv
    · next hflag =>
      subst hflag
      rcases List.mem_append.mp hv with hv | hv
      · rw [h.answered t d _ hr] at hv
        cases d with
        | commit ver =>
          obtain rfl := List.mem_singleton.mp hv
          exact h.done t v hr
        | _ => cases hv
      · exact h.kept v hv
    · exact h.kept v hv
  asked := by
    refine (Function.forall_update_iff q.status fun u st => ∀ d', st = .asked d' →
      Function.update k.commits t none u = d'.commits).mpr ⟨nofun, fun u hu d' hst => ?_⟩
    rw [Function.update_of_ne hu]
    exact h.asked u d' hst
  answered := by
    refine (Function.forall_update_iff q.status fun u st => ∀ d' r', st = .answered d' r' →
      Function.update k.commits t none u = d'.commits).mpr ⟨nofun, fun u hu d' r' hst => ?_⟩
    rw [Function.update_of_ne hu]
    exact h.answered u d' r' hst
  done := (Function.forall_update_iff q.status fun u st => ∀ v,
    st = .answered (.commit v) (.flag true) → ∃ e, b.state.Holds v e).mpr
      ⟨nofun, fun u _ => h.done u⟩

theorem Recalls.act (h : Recalls B q b k) (hd : q.status t = .asked d)
    (hrun : OnStream B q.state d r x') (hshort : x'.db.file.length < 2 ^ 32) :
    ∃ a', StoreMoment B b.state d r a' ∧
      Recalls B ⟨x', Function.update q.status t (.answered d r)⟩
        ⟨a', Function.update b.status t (.answered d r)⟩ k := by
  obtain ⟨a', hmoment, hfollows⟩ := h.follows.act hd hrun hshort
  obtain ⟨c, reply, hasking, hstep⟩ := hmoment
  have hkeeps : ∀ v, (∃ e, b.state.Holds v e) → ∃ e, a'.Holds v e := by
    rintro v ⟨e, he⟩
    exact ⟨e, hstep.keeps he⟩
  refine ⟨a', ⟨c, reply, hasking, hstep⟩, hfollows, fun v hv => hkeeps v (h.kept v hv), ?_, ?_, ?_⟩
  · exact (Function.forall_update_iff q.status fun u st => ∀ d', st = .asked d' →
      k.commits u = d'.commits).mpr ⟨nofun, fun u _ => h.asked u⟩
  · refine (Function.forall_update_iff q.status fun u st => ∀ d' r', st = .answered d' r' →
      k.commits u = d'.commits).mpr ⟨?_, fun u _ => h.answered u⟩
    rintro _ _ ⟨⟩
    exact h.asked t d hd
  · refine (Function.forall_update_iff q.status fun u st => ∀ v,
      st = .answered (.commit v) (.flag true) → ∃ e, a'.Holds v e).mpr
        ⟨?_, fun u _ v hst => hkeeps v (h.done u v hst)⟩
    rintro v ⟨⟩
    cases hasking
    exact hstep.committed

/-- What is known behind some events. -/
def Knowledge.after (k : Knowledge) (hs : List Happening) : Knowledge := hs.foldl Knowledge.next k

theorem Knowledge.after_append (k : Knowledge) (hs hs' : List Happening) :
    k.after (hs ++ hs') = (k.after hs).after hs' := List.foldl_append

theorem informed_append {hs hs' : List Happening} :
    Informed k (hs ++ hs') ↔ Informed k hs ∧ Informed (k.after hs) hs' := by
  induction hs generalizing k with
  | nil => exact ⟨fun h => ⟨trivial, h⟩, fun h => h.2⟩
  | cons h hs ih =>
    rw [List.cons_append, Informed, ih, Informed, and_assoc]
    rfl

variable {es : List (Visible Thread Demand Answer)}

/-- The store goes on as the stream does. -/
theorem Recalls.traces (h : Recalls B q b k) (hrun : Traces (AtomicStep (OnStream B)) q es q')
    (hinformed : Informed k (es.map .seen))
    (hshort : q'.state.db.file.length < 2 ^ 32) :
    ∃ b', Traces (SharedStep B) b (es.map .seen) b' ∧
      Recalls B q' b' (k.after (es.map .seen)) := by
  induction hrun generalizing b k with
  | nil => exact ⟨b, .nil b, h⟩
  | silent first rest ih =>
    cases first with
    | act asked moment =>
      have hgrows := traces_grow rest
      have hlen := hgrows.length_le
      obtain ⟨a', hmoment, hrecalls⟩ := h.act asked moment (lt_of_le_of_lt hlen hshort)
      obtain ⟨b', htrace, h'⟩ := ih hrecalls hinformed hshort
      rw [← h.follows.status] at asked
      exact ⟨b', .silent (.act (.act asked hmoment)) htrace, h'⟩
  | seen first _ ih =>
    cases first with
    | call idle =>
      obtain ⟨b', htrace, h'⟩ := ih (h.call hinformed.1) hinformed.2 hshort
      rw [← h.follows.status] at idle
      exact ⟨b', .seen (.seen (.call idle)) htrace, h'⟩
    | ret answered =>
      obtain ⟨b', htrace, h'⟩ := ih (h.ret answered) hinformed.2 hshort
      rw [← h.follows.status] at answered
      exact ⟨b', .seen (.seen (.ret answered)) htrace, h'⟩

/-! ## The end of a process -/

variable {a : Store Nat Data Data} {w : World} {P : Data} {db : Db}

/-- The threads of the next process. -/
theorem Recalls.restart (h : Recalls B q b k) (hsurvives : b.state.Survives a)
    (hmeans : Means B w (Session.start db) a) :
    Recalls B (Atomic.start (Session.start db).stream) (Atomic.start a) (k.next .kill) where
  follows := {
    stands := ⟨⟨w, hmeans⟩, hsurvives.closed h.follows.stands.closed⟩
    status := rfl
    known := by
      intro v hv
      obtain ⟨e, he⟩ := h.kept v hv
      show a.entry v ≠ none
      rw [(hsurvives.holds he).entry]
      exact Option.some_ne_none e
    asked := nofun
    answered := nofun }
  kept := by
    intro v hv
    obtain ⟨e, he⟩ := h.kept v hv
    exact ⟨e, hsurvives.holds he⟩
  asked := nofun
  answered := nofun
  done := nofun

/-- The record of a commit at which more bytes become sure. -/
theorem Recalls.record (h : Recalls B q b k) (hd : q.status t = .asked d)
    (hrun : OnStream B q.state d r x') (hflushed : x'.flushed ≠ q.state.flushed) :
    ∃ v < 2 ^ 64, x'.db.file = q.state.db.file ++ Block.enc B (.version v) := by
  rcases flushes_of_run hrun with hsame | ⟨v, rfl, rfl, -⟩
  · exact absurd hsame hflushed
  obtain ⟨w, hmeans⟩ := h.follows.stands.means
  obtain ⟨e, -, hsnap⟩ := hmeans.snap (h.follows.asked t _ hd)
  obtain ⟨result, _, hcommit, hlast⟩ := run_bind_eq_ok.mp hrun.alone
  cases hlast
  have hcommit' : eval (aodbmCommit B v) w.db = .ok (true, x'.db) := hmeans.db ▸ hcommit
  obtain ⟨-, hdb⟩ := hmeans.inv.commit_returned hsnap hcommit'
  rw [if_pos rfl] at hdb
  refine ⟨v, lt_trans (hmeans.inv.headers.bound ⟨_, hsnap, rfl⟩) (by decide), ?_⟩
  rw [hdb, ← hmeans.db]
  rfl

/-- The store, perhaps after the moment of a call, is killed, and goes on as the next process. -/
def Restarts (B : Build) (b : SharedStore) (k : Knowledge) (db : Db) : Prop :=
  ∃ b' a, Traces (SharedStep B) b [] b' ∧ b'.state.Survives a ∧
    Recalls B (Atomic.start (Session.start db).stream) (Atomic.start a) (k.next .kill)

/-- What is left when the process is killed in the middle of a block. -/
theorem Recalls.killed (h : Recalls B q b k) {rest : Data} (hrest : Torn B rest)
    (hP : P <+: q.state.db.file ++ rest) (hleft : q.state.flushed ≤ P.length)
    (hopen : aodbmOpen B P = .ok db) : Restarts B b k db := by
  obtain ⟨w, hmeans⟩ := h.follows.stands.means
  obtain ⟨w', a, hsurvives, hmeans'⟩ := hmeans.killed_torn hrest (hmeans.db ▸ hP) hleft hopen
  exact ⟨b, a, .nil b, hsurvives, h.restart hsurvives hmeans'⟩

/-- What is left when it is killed between the last write of a call and its moment. -/
theorem Recalls.killed_moment (h : Recalls B q b k) (hd : q.status t = .asked d)
    (hrun : OnStream B q.state d r x') (hshort : x'.db.file.length < 2 ^ 32)
    (hP : P <+: x'.db.file) (hleft : q.state.flushed ≤ P.length)
    (hopen : aodbmOpen B P = .ok db) : Restarts B b k db := by
  by_cases hsure : x'.flushed ≤ P.length
  · obtain ⟨a', hmoment, hrecalls⟩ := h.act hd hrun hshort
    have hP' : P <+: x'.db.file ++ [] := by
      rw [List.append_nil]
      exact hP
    obtain ⟨b', a, htrace, hsurvives, hagain⟩ := hrecalls.killed torn_nil hP' hsure hopen
    rw [← h.follows.status] at hd
    exact ⟨b', a, .silent (.act (.act hd hmoment)) htrace, hsurvives, hagain⟩
  -- the record of the commit is not complete
  · have hmore := Nat.not_le.mp hsure
    obtain ⟨w, hmeans⟩ := h.follows.stands.means
    have hok : x'.flushed ≤ x'.db.file.length := (Stream.Ok.run hmeans.ok hrun).1
    obtain ⟨v, hv, hfile⟩ := h.record hd hrun (hleft.trans_lt hmore).ne'
    have hlt := hmore.trans_le hok
    rw [hfile, show _ = w.db from hmeans.db] at hP hlt
    obtain ⟨w', a, hsurvives, hmeans'⟩ := hmeans.killed_record hv hP hlt hleft hopen
    exact ⟨b, a, .nil b, hsurvives, h.restart hsurvives hmeans'⟩

/-! ## Every run -/

variable {p p' : Process} {g : Thread → Seat}

/-- In the middle of calls the file is that of the stream, with a block that is not complete, or
with the record of a commit whose `fflush` comes next. -/
theorem file_cases (h : (sharersProof B).Inv p q g) (hshort : p.Short) :
    (∃ rest, Torn B rest ∧ p.shared.locked.db.file = q.state.db.file ++ rest) ∨
      ∃ t d a x', q.status t = .asked d ∧ OnStream B q.state d a x' ∧
        p.shared.locked.db.file = x'.db.file := by
  have hbuffered : Buffered p.shared q.state g := h.fits.holds
  have hfiles := hbuffered.joined.files
  by_cases hall : ∀ t, (g t).depth = 0
  · refine .inl ⟨[], torn_nil, ?_⟩
    rw [hfiles.whole hall, List.append_nil]
  obtain ⟨t, ht⟩ := not_forall.mp hall
  obtain ⟨hfile, hbytes⟩ := hfiles.held t (Nat.pos_of_ne_zero ht)
  have hbetween : (g t).part = [] → ∃ rest, Torn B rest ∧
      p.shared.locked.db.file = q.state.db.file ++ rest := by
    intro hpart
    refine ⟨[], torn_nil, ?_⟩
    rw [hbytes, hpart, List.flatten_nil]
  cases hclient : p.clients t with
  | none =>
    have hready : Seat.Ready (g t) := h.ready t hclient
    exact .inl (hbetween hready.part)
  | some c =>
    obtain ⟨job, rest, seen⟩ := c
    have hwp := h.rest t _ hclient
    cases rest with
    | pure a =>
      have hends : Seat.Ends B job a (g t) := hwp
      exact .inl (hbetween hends.part)
    | fail x => exact .inl (hbetween hwp.1)
    | op e k =>
      cases e with
      | write bs =>
        have hnext := hshort.next hclient
        exact .inl ⟨_, hwp.2.1 (lt_of_le_of_lt (Nat.le_add_left _ _) hnext), hbytes⟩
      -- the record is complete
      | flush =>
        obtain ⟨-, d, a, cur, ver, hasked, hcur, hrec, -⟩ := hwp
        have hmoment := hrec q.state.db hfile.symm hfiles.complete
          (hbuffered.joined.curs.known t cur hcur)
        obtain ⟨x', hrun, hdb⟩ := stream_of_eval hmoment
        refine .inr ⟨t, d, a, x', (h.fits.status t).trans hasked, hrun, ?_⟩
        rw [hbytes, hdb]
        rfl
      | lockRw => exact .inl (hbetween hwp.1)
      | unlockRw => exact .inl (hbetween hwp.1)
      | lockVersion => exact .inl (hbetween hwp.1)
      | unlockVersion => exact .inl (hbetween hwp.1)
      | getFileSize => exact .inl (hbetween hwp.1)
      | readAt off sz => exact .inl (hbetween hwp.1)
      | getCur => exact .inl (hbetween hwp.1)
      | setCur ver => exact .inl (hbetween hwp.1)

/-- A process may be killed at any time. -/
theorem Recalls.restarts (h : Recalls B q b k) (hinv : (sharersProof B).Inv p q g)
    (hshort : p.Short) (hP : P <+: p.shared.locked.db.file)
    (hleft : p.shared.flushed ≤ P.length) (hopen : aodbmOpen B P = .ok db) :
    Restarts B b k db := by
  have hbuffered : Buffered p.shared q.state g := hinv.fits.holds
  have hsure := hbuffered.flushed.trans hleft
  rcases file_cases hinv hshort with ⟨rest, hrest, hfile⟩ | ⟨t, d, a, x', hd, hrun, hfile⟩
  · rw [hfile] at hP
    exact h.killed hrest hP hsure hopen
  · have hlen := hshort.file
    rw [hfile] at hP hlen
    exact h.killed_moment hd hrun hlen hP hsure hopen

theorem stream_short (h : (sharersProof B).Inv p q g) :
    q.state.db.file.length ≤ p.shared.locked.db.file.length := by
  have hbuffered : Buffered p.shared q.state g := h.fits.holds
  exact hbuffered.joined.files.prefix.length_le

/-- What was seen of the process that runs. -/
def sinceKill (hs : List Happening) : List (Visible Thread Demand Answer) :=
  hs.foldl (fun es h => match h with
    | .seen e => es ++ [e]
    | .kill => []) []

theorem sinceKill_seen (hs : List Happening) (e : Visible Thread Demand Answer) :
    sinceKill (hs ++ [.seen e]) = sinceKill hs ++ [e] := by
  rw [sinceKill, List.foldl_append]
  rfl

theorem sinceKill_kill (hs : List Happening) : sinceKill (hs ++ [.kill]) = [] := by
  rw [sinceKill, List.foldl_append]
  rfl

/-- A process since it opened the file, with the store that it found and what was known then. -/
structure Lifetime (B : Build) (db : Db) (a : Store Nat Data Data) (before hs : List Happening)
    (p : Process) : Prop where
  events : hs = before ++ (sinceKill hs).map .seen
  size : db.fileSize = db.file.length
  stored : Traces (SharedStep B) (Atomic.start Store.empty) before (Atomic.start a)
  recalls : Recalls B (Atomic.start (Session.start db).stream) (Atomic.start a)
    (Knowledge.start.after before)
  informed : Informed (Knowledge.start.after before) ((sinceKill hs).map .seen)
  moves : Traces (Moves (sharers B) fun _ => True) (Process.start db) (sinceKill hs) p
  short : p.shared.locked.db.file.length < 2 ^ 32

variable {before hs hs' : List Happening}

/-- The store when the process runs. -/
theorem Lifetime.store (h : Lifetime B db a before hs p) : ∃ q g b, (sharersProof B).Inv p q g ∧
    Traces (SharedStep B) (Atomic.start Store.empty) hs b ∧
    Recalls B q b (Knowledge.start.after hs) := by
  obtain ⟨q, g, htrace, hinv⟩ := (sharers_start h.size).trace h.moves
  obtain ⟨b, hstore, hrecalls⟩ := h.recalls.traces htrace h.informed
    (lt_of_le_of_lt (stream_short hinv) h.short)
  rw [h.events, Knowledge.after_append]
  exact ⟨q, g, b, hinv, h.stored.append hstore, hrecalls⟩

/-- A process goes on, or the next one begins. -/
theorem Lifetime.step (h : Lifetime B db a before hs p) {y : Option Happening}
    (hinformed : Informed (Knowledge.start.after hs) y.toList) (hstep : ProcessStep B p y p') :
    ∃ db' a' before', Lifetime B db' a' before' (hs ++ y.toList) p' := by
  cases hstep with
  | effect move short =>
    rw [Option.toList_none, List.append_nil]
    have hmoves := h.moves.append (.silent move (.nil _))
    rw [List.append_nil] at hmoves
    exact ⟨db, a, before, h.events, h.size, h.stored, h.recalls, h.informed, hmoves, short⟩
  | @seen _ e move short =>
    have hsince := sinceKill_seen hs e
    refine ⟨db, a, before, ?_, h.size, h.stored, h.recalls, ?_, ?_, short⟩
    · rw [Option.toList_some, hsince, List.map_append, ← List.append_assoc, ← h.events]
      rfl
    · rw [Option.toList_some, hsince, List.map_append, informed_append, ← Knowledge.after_append,
        ← h.events]
      exact ⟨h.informed, hinformed⟩
    · rw [Option.toList_some, hsince]
      exact h.moves.append (.seen move (.nil _))
  | @kill _ db' short cut left opened =>
    have hsince := sinceKill_kill hs
    obtain ⟨q, g, b, hinv, hstore, hrecalls⟩ := h.store
    obtain ⟨b', a', hlast, hsurvives, hagain⟩ := hrecalls.restarts hinv short cut left opened
    obtain ⟨hsize, hlen⟩ := open_synced opened
    refine ⟨db', a', hs ++ [.kill], ?_, hsize, ?_, ?_, ?_, ?_, ?_⟩
    · rw [Option.toList_some, hsince, List.map_nil, List.append_nil]
    · exact hstore.append (hlast.append (.seen (.kill hsurvives) (.nil _)))
    · rw [Knowledge.after_append]
      exact hagain
    · rw [Option.toList_some, hsince]
      trivial
    · rw [Option.toList_some, hsince]
      exact .nil _
    · exact hlen.trans_lt (cut.length_le.trans_lt h.short)

theorem Lifetime.run (h : Lifetime B db a before hs p)
    (hinformed : Informed (Knowledge.start.after hs) hs')
    (hrun : Traces (ProcessStep B) p hs' p') :
    ∃ db' a' before', Lifetime B db' a' before' (hs ++ hs') p' := by
  induction hrun generalizing hs db a before with
  | nil =>
    rw [List.append_nil]
    exact ⟨db, a, before, h⟩
  | silent first _ ih =>
    obtain ⟨db', a', before', h'⟩ := h.step (y := none) trivial first
    rw [Option.toList_none, List.append_nil] at h'
    exact ih h' hinformed
  | @seen _ _ _ y _ first _ ih =>
    obtain ⟨db', a', before', h'⟩ := h.step (y := some y) ⟨hinformed.1, trivial⟩ first
    rw [← List.singleton_append, ← List.append_assoc]
    refine ih h' ?_
    rw [Knowledge.after_append]
    exact hinformed.2

theorem recalls_start : Recalls B (Atomic.start (Session.start Db.empty).stream)
    (Atomic.start Store.empty) Knowledge.start where
  follows := follows_start
  kept := by
    intro v hv
    obtain rfl := List.mem_singleton.mp hv
    exact ⟨⟨0, fun _ => none⟩, by simp [Atomic.start, Store.empty], History.Based.refl 0⟩
  asked := nofun
  answered := nofun
  done := nofun

/-- The process that runs at the end. -/
theorem last_process (hinformed : Informed Knowledge.start hs)
    (hrun : Traces (ProcessStep B) (Process.start Db.empty) hs p) :
    ∃ db a before, Lifetime B db a before hs p := by
  have hstart : Lifetime B Db.empty Store.empty [] [] (Process.start Db.empty) :=
    ⟨rfl, rfl, .nil _, recalls_start, trivial, .nil _, by decide⟩
  exact hstart.run hinformed hrun

/-- What is seen of processes with any number of threads, each of which may be killed at any time,
can be seen of a store of versions that answers each call at one moment and keeps, when it is
killed, the current version and what that is based on. The store has every version of which a
commit returned, and the current version is based on it. -/
theorem processes_store {hs : List Happening} (hinformed : Informed Knowledge.start hs)
    (hrun : Traces (ProcessStep B) (Process.start Db.empty) hs p) :
    ∃ b, Traces (SharedStep B) (Atomic.start Store.empty) hs b ∧
      ∀ v ∈ (Knowledge.start.after hs).kept, ∃ e, b.state.Holds v e := by
  obtain ⟨db, a, before, h⟩ := last_process hinformed hrun
  obtain ⟨q, g, b, -, hstore, hrecalls⟩ := h.store
  exact ⟨b, hstore, hrecalls.kept⟩

/-! ## A process that is killed -/

/-- The file only grows. -/
theorem locked_grows {e : Eff} {y : e.Res} {s s' : LockedDb}
    (h : LockedDb.handle t e s = .ok (y, s')) : s.db.file <+: s'.db.file := by
  cases e with
  | write bs =>
    simp only [LockedDb.handle, Db.handle] at h
    split at h
    · cases h
      exact List.prefix_append _ _
    · cases h
  | lockRw =>
    simp only [LockedDb.handle] at h
    split at h
    · cases h
      exact List.prefix_rfl
    · cases h
  | lockVersion =>
    simp only [LockedDb.handle] at h
    split at h
    · cases h
      exact List.prefix_rfl
    · cases h
  | _ =>
    cases h
    exact List.prefix_rfl

theorem moves_grow {e : Option (Visible Thread Demand Answer)}
    (hmove : Moves (sharers B) (fun _ => True) p e p') :
    p.shared.locked.db.file <+: p'.shared.locked.db.file := by
  cases hmove with
  | call => exact List.prefix_rfl
  | ret => exact List.prefix_rfl
  | effect next answer => exact locked_grows (handle_locked answer).1

/-- A process that goes on while its file is short. -/
theorem process_traces (hrun : Traces (Moves (sharers B) fun _ => True) p es p')
    (hshort : p'.shared.locked.db.file.length < 2 ^ 32) :
    Traces (ProcessStep B) p (es.map .seen) p' ∧
      p.shared.locked.db.file <+: p'.shared.locked.db.file := by
  induction hrun with
  | nil => exact ⟨.nil _, List.prefix_rfl⟩
  | silent first _ ih =>
    obtain ⟨hrest, hgrows⟩ := ih hshort
    exact ⟨.silent (.effect first (hgrows.length_le.trans_lt hshort)) hrest,
      (moves_grow first).trans hgrows⟩
  | seen first _ ih =>
    obtain ⟨hrest, hgrows⟩ := ih hshort
    exact ⟨.seen (.seen first (hgrows.length_le.trans_lt hshort)) hrest,
      (moves_grow first).trans hgrows⟩

/-- A call that nothing comes between. -/
theorem process_call {t : Thread} {d : Demand} {r : Answer} {s : LockedStream}
    (hidle : p.clients t = none)
    (hrun : run (LockedStream.handle t) (d.op B) p.shared = .ok (r, s))
    (hshort : s.locked.db.file.length < 2 ^ 32) :
    ∃ p', Traces (ProcessStep B) p [.seen (.call t d), .seen (.ret t r)] p' ∧ p'.shared = s ∧
      p'.clients = p.clients := by
  have hcall : ∃ p', Traces (Moves (sharers B) fun _ => True) p [.call t d, .ret t r] p' ∧
      p'.shared = s ∧ p'.clients = p.clients := traces_call hidle trivial hrun
  obtain ⟨p', htrace, hshared, hclients⟩ := hcall
  have hlen : p'.shared.locked.db.file.length < 2 ^ 32 := by
    rw [hshared]
    exact hshort
  exact ⟨p', (process_traces htrace hlen).1, hshared, hclients⟩

/-- Thread 0 sets and commits a key. The process is killed while thread 0 sets another one and
thread 1 waits for `rw`, and the next process finds what was committed. -/
def killedHistory : List Happening :=
  [.seen (.call 0 (.set 0 [2] [20])), .seen (.ret 0 (.version 5)), .seen (.call 0 (.commit 5)),
    .seen (.ret 0 (.flag true)), .seen (.call 1 (.look (.get 5 [2]))),
    .seen (.call 0 (.set 5 [1] [10])), .kill, .seen (.call 1 .current), .seen (.ret 1 (.version 5)),
    .seen (.call 1 (.look (.get 5 [2]))), .seen (.ret 1 (.value (some [20])))]

/-- What thread 0 was about to write. -/
def killedBlock : Data :=
  [100, 0, 0, 0, 33, 0, 0, 0, 0, 0, 0, 0, 5, 108, 0, 0, 0, 2, 0, 0, 0, 1, 1, 0, 0, 0, 1, 10, 0, 0,
    0, 1, 2, 0, 0, 0, 1, 20]

/-- The handle after thread 0 has set the first key. -/
def afterSet : LockedStream := ⟨⟨⟨shortFile.take 28, 28, 0⟩, ⟨.held 0 1, none⟩⟩, 0⟩

def afterCommit : LockedStream := ⟨⟨⟨oneFile, 37, 5⟩, ⟨.held 0 1, none⟩⟩, 37⟩

/-- The second block has been written, and nothing of it is sure. -/
def afterBlock : LockedStream := ⟨⟨⟨oneFile ++ killedBlock, 75, 5⟩, ⟨.held 0 3, none⟩⟩, 37⟩

/-- The handle of the next process. -/
def afterKill : LockedStream := ⟨⟨⟨oneFile, 37, 5⟩, ⟨.free, none⟩⟩, 37⟩

/-- Thread 1 looks for the first key, and waits for `rw`. -/
def lookingClient : Client Eff Eff.Res Err Empty Demand Answer :=
  ⟨.look (.get 5 [2]), Demand.op smallBuild (.look (.get 5 [2])), []⟩

/-- Thread 0 sets the second key. -/
def settingClient : Client Eff Eff.Res Err Empty Demand Answer :=
  ⟨.set 5 [1] [10], Demand.op smallBuild (.set 5 [1] [10]), []⟩

/-- Both threads have called. -/
def bothCalled (s : LockedStream) : Process :=
  ⟨s, Function.update (Function.update (fun _ => none) 1 (some lookingClient)) 0
    (some settingClient), []⟩

/-- The committed version, and then both threads call. -/
theorem killed_calls : ∃ log, Traces (ProcessStep smallBuild) (Process.start Db.empty)
    (killedHistory.take 6) { bothCalled afterCommit with log := log } := by
  have hset : run (LockedStream.handle 0) (Demand.op smallBuild (.set 0 [2] [20]))
      (Process.start Db.empty).shared = .ok (.version 5, afterSet) := by decide +kernel
  have hcommit : run (LockedStream.handle 0) (Demand.op smallBuild (.commit 5)) afterSet =
      .ok (.flag true, afterCommit) := by decide +kernel
  obtain ⟨p₁, htrace₁, hshared₁, hclients₁⟩ := process_call (p := Process.start Db.empty) (t := 0)
    rfl hset (by decide +kernel)
  rw [← hshared₁] at hcommit
  obtain ⟨⟨s, clients, log⟩, htrace₂, hshared₂, hclients₂⟩ :=
    process_call (by rw [hclients₁]; rfl) hcommit (by decide +kernel)
  obtain rfl : s = afterCommit := hshared₂
  obtain rfl : clients = fun _ => none := hclients₂.trans hclients₁
  have hlook : Moves (sharers smallBuild) (fun _ => True) ⟨afterCommit, fun _ => none, log⟩
      (some (.call 1 (.look (.get 5 [2])))) _ := .call rfl trivial
  have hset' : Moves (sharers smallBuild) (fun _ => True)
      ⟨afterCommit, Function.update (fun _ => none) 1 (some lookingClient), log⟩
      (some (.call 0 (.set 5 [1] [10]))) { bothCalled afterCommit with log := log } :=
    .call rfl trivial
  have hshort : afterCommit.locked.db.file.length < 2 ^ 32 := by decide +kernel
  exact ⟨log, htrace₁.append (htrace₂.append (.seen (.seen hlook hshort)
    (.seen (.seen hset' hshort) (.nil _))))⟩

/-- The process is killed while thread 0 writes. -/
theorem killed_reopened : Traces (ProcessStep smallBuild) (Process.start Db.empty)
    (killedHistory.take 7) (Process.start ⟨oneFile, 37, 5⟩) := by
  obtain ⟨log, hcalls⟩ := killed_calls
  have hset : run (LockedStream.handle 0) (Demand.op smallBuild (.set 5 [1] [10])) afterCommit =
      .ok (.version 42, afterBlock) := by decide +kernel
  have hopen : aodbmOpen smallBuild (oneFile ++ killedBlock.take 6) = .ok ⟨oneFile, 37, 5⟩ := by
    decide +kernel
  -- thread 0 has not returned yet
  have hwrites : ∃ p' : Process, Traces (Moves (sharers smallBuild) fun _ => True)
      { bothCalled afterCommit with log := log } [] p' ∧ p'.shared = afterBlock ∧
      (∃ seen, p'.clients 0 = some ⟨.set 5 [1] [10], .pure (.version 42), seen⟩) ∧
      ∀ u, u ≠ 0 → p'.clients u = (bothCalled afterCommit).clients u := traces_rest rfl hset
  obtain ⟨p', hwrites, hshared, ⟨_, hzero⟩, hothers⟩ := hwrites
  have hlen : p'.shared.locked.db.file.length < 2 ^ 32 := by
    rw [hshared]
    decide +kernel
  have hshort : p'.Short := by
    refine ⟨hlen, fun {t job bs k seen} hclient => ?_⟩
    rcases eq_or_ne t 0 with rfl | ht
    · rw [hzero] at hclient
      cases hclient
    · rw [hothers t ht] at hclient
      rcases eq_or_ne t 1 with rfl | ht'
      · cases hclient
      · simp [bothCalled, ht, ht'] at hclient
  have hcut : oneFile ++ killedBlock.take 6 <+: p'.shared.locked.db.file := by
    rw [hshared]
    decide +kernel
  have hleft : p'.shared.flushed ≤ (oneFile ++ killedBlock.take 6).length := by
    rw [hshared]
    decide +kernel
  have hkill : ProcessStep smallBuild p' (some .kill) (Process.start ⟨oneFile, 37, 5⟩) :=
    .kill hshort hcut hleft hopen
  exact hcalls.append ((process_traces hwrites hlen).1.append (.seen hkill (.nil _)))

theorem killed_history : ∃ p, Traces (ProcessStep smallBuild) (Process.start Db.empty)
    killedHistory p := by
  have hcurrent : run (LockedStream.handle 1) (Demand.op smallBuild .current) afterKill =
      .ok (.version 5, afterKill) := by decide +kernel
  have hget : run (LockedStream.handle 1) (Demand.op smallBuild (.look (.get 5 [2]))) afterKill =
      .ok (.value (some [20]), afterKill) := by decide +kernel
  obtain ⟨p₁, htrace₁, hshared₁, hclients₁⟩ := process_call
    (p := Process.start ⟨oneFile, 37, 5⟩) (t := 1) rfl hcurrent (by decide +kernel)
  have hlen : afterKill.locked.db.file.length < 2 ^ 32 := by decide +kernel
  rw [← hshared₁] at hget hlen
  obtain ⟨p₂, htrace₂, -, -⟩ := process_call (by rw [hclients₁]; rfl) hget hlen
  exact ⟨p₂, killed_reopened.append (htrace₁.append htrace₂)⟩

theorem processes_store_killed : ∃ b : SharedStore,
    Traces (SharedStep smallBuild) (Atomic.start Store.empty) killedHistory b ∧
      ∀ v ∈ [5, 0], ∃ e, b.state.Holds v e := by
  obtain ⟨p, hrun⟩ := killed_history
  exact processes_store (by decide) hrun

end Aodbm
