import Aodbm.Linear
import Aodbm.Sessions

/-!
# Threads that share a buffer

The handle of the threads with the buffer of its stream. Each thread may `fflush`, and what is sure
to be in the file then is everything, whoever wrote it.

The object is a stream on which each call is made at one moment. Only the moment of an accepted
commit makes more bytes sure, and it is at the `fflush` of the thread: so all bytes that are sure
for the object are so for the threads.

Results:
1. `flushes_of_run`: a call that makes more bytes sure is an accepted commit.
2. `sharersProof`: the threads are the stream.
-/

namespace Aodbm

open Effects Interleaving

/-- The handle with its mutexes, and the number of bytes that were there at the last `fflush`. -/
structure LockedStream where
  locked : LockedDb
  flushed : Nat
deriving DecidableEq

/-- The effects of a thread. -/
def LockedStream.handle (t : Thread) : Handler Eff Eff.Res Err LockedStream
  | .flush, s => .ok ((), { s with flushed := s.locked.db.file.length })
  | e, s => (LockedDb.handle t e s.locked).map fun r => (r.1, { s with locked := r.2 })

/-- The threads on one handle. -/
def sharers (B : Build) : System Eff Eff.Res Err Thread LockedStream Empty Demand Answer where
  handle := LockedStream.handle
  observe := fun _ => []
  prog := Demand.op B

/-- A call that is made at one moment, with nobody else in a call. -/
def OnStream (B : Build) (x : Stream) (d : Demand) (a : Answer) (x' : Stream) : Prop :=
  run Stream.handle (d.op B) x = .ok (a, x')

abbrev Process := Pool Eff Eff.Res Err Thread LockedStream Empty Demand Answer

/-- A process that has just opened the file. -/
def Process.start (db : Db) : Process := Pool.start ⟨⟨db, ⟨.free, none⟩⟩, db.file.length⟩

variable {B : Build} {s s' : LockedStream} {x x' : Stream} {t : Thread} {d : Demand} {a : Answer}

/-- Without an `fflush` nothing more is sure. -/
theorem handle_quiet {e : Eff} (he : e ≠ .flush) (s : LockedStream) : LockedStream.handle t e s =
    (LockedDb.handle t e s.locked).map fun r => (r.1, { s with locked := r.2 }) := by
  cases e with
  | flush => exact absurd rfl he
  | _ => rfl

theorem handle_locked {e : Eff} {r : e.Res} (h : LockedStream.handle t e s = .ok (r, s')) :
    LockedDb.handle t e s.locked = .ok (r, s'.locked) ∧
      (s'.flushed = s.flushed ∧ e ≠ .flush ∨ s'.flushed = s'.locked.db.file.length) := by
  by_cases he : e = .flush
  · subst he
    cases h
    exact ⟨rfl, .inr rfl⟩
  · rw [handle_quiet he] at h
    cases hdb : LockedDb.handle t e s.locked with
    | error y =>
      rw [hdb] at h
      cases h
    | ok r' =>
      rw [hdb] at h
      cases h
      exact ⟨rfl, .inl ⟨rfl, he⟩⟩

/-- An error is one of the handle. -/
theorem locked_error {e : Eff} {y : Err} (h : LockedStream.handle t e s = .error y) :
    LockedDb.handle t e s.locked = .error y := by
  by_cases he : e = .flush
  · subst he
    cases h
  · rw [handle_quiet he] at h
    cases hdb : LockedDb.handle t e s.locked with
    | ok r =>
      rw [hdb] at h
      cases h
    | error y' =>
      rw [hdb] at h
      cases h
      rfl

/-- The buffer is in nobody's way. -/
theorem sharers_add : Adds LockedStream.locked (sharers B) (callers B) where
  prog := rfl
  observe := rfl
  handle := by
    intro t e r S s h
    have hdb : LockedDb.handle t e S.locked = .ok (r, s) := h
    by_cases he : e = .flush
    · subst he
      cases hdb
      exact ⟨_, rfl, rfl⟩
    · refine ⟨{ S with locked := s }, ?_, rfl⟩
      show LockedStream.handle t e S = _
      rw [handle_quiet he, hdb]
      rfl

/-! ## What a call makes sure -/

/-- Whether there was an `fflush`, and how many bytes were written. -/
structure Written where
  flushed : Bool
  bytes : Nat

def writtenSpec : Spec Eff Eff.Res Written
  | .write bs, Q, o => Q () { o with bytes := o.bytes + bs.length }
  | .flush, Q, o => Q () { o with flushed := true }
  | _, Q, o => ∀ r, Q r o

theorem writtenSpec_mono : writtenSpec.Mono := by
  intro e Q Q' hQ o h
  cases e with
  | write bs => exact hQ _ _ h
  | flush => exact hQ _ _ h
  | _ => exact fun r => hQ _ _ (h r)

namespace Written

variable {o : Written} {ver : Nat} {k v : Data}

theorem wp_read (off sz : Nat) : wp writtenSpec (aodbmRead off sz) (fun _ o' => o' = o) o := by
  intro _ bs
  cases bs with
  | none => exact fun _ => trivial
  | some bs => exact fun _ => rfl

theorem wp_reads {α : Type} {P : α → Prop} {f : Op α} (hf : Reads P f) :
    wp writtenSpec f (fun _ o' => o' = o) o :=
  wp_mono writtenSpec_mono (fun _ _ hend => hend.2)
    (hf.wp writtenSpec_mono fun off sz => wp_read off sz)

/-- From the reading of `file_size` to the end of the write. -/
theorem wp_append {α : Type} {P : Nat → RootResult → Prop} {build : Nat → Op RootResult}
    {f : RootResult → Op α} {Q : α → Written → Prop} (hbuild : ∀ pos, Reads (P pos) (build pos))
    (hf : ∀ result n, wp writtenSpec (f result) Q { o with bytes := n }) :
    wp writtenSpec (do
      let fileSize ← aodbmFileSize
      let result ← build (fileSize + 5)
      aodbmWriteDataBlock B result.dat
      f result) Q o := by
  intro n
  change wp writtenSpec (build (n + 5) >>= _) _ _
  refine wp_seq writtenSpec_mono (wp_reads (hbuild _)) ?_
  rintro result _ rfl
  exact fun _ _ => hf result _

theorem wp_set : wp writtenSpec (aodbmSet B ver k v) (fun _ o' => o'.flushed = o.flushed) o :=
  fun _ => wp_append (reads_setResult B ver k v) fun _ _ _ => rfl

theorem wp_del : wp writtenSpec (aodbmDel B ver k) (fun _ o' => o'.flushed = o.flushed) o := by
  by_cases hver : ver = 0
  · rw [aodbmDel, if_pos hver]
    rfl
  · rw [aodbmDel, if_neg hver]
    refine wp_seq writtenSpec_mono (wp_reads (reads_has B ver k)) ?_
    rintro has o rfl
    cases has with
    | false => rfl
    | true => exact fun _ => wp_append (reads_delResult B ver k) fun _ _ _ => rfl

/-- A commit that is accepted has written a record. -/
theorem wp_commit : wp writtenSpec (aodbmCommit B ver)
    (fun r o' => o'.flushed = o.flushed ∨ r = true ∧ 0 < o'.bytes) o := by
  intro _ cur
  change wp writtenSpec (aodbmIsBasedOn B ver cur >>= _) _ _
  refine wp_seq writtenSpec_mono (wp_reads (reads_isBasedOn B ver cur)) ?_
  rintro result _ rfl
  cases result with
  | false => exact fun _ => .inl rfl
  | true => exact fun _ _ _ _ => .inr ⟨rfl, (Nat.succ_pos _).trans_le (Nat.le_add_right _ _)⟩

theorem wp_demand (d : Demand) : wp writtenSpec (d.op B)
    (fun a o' => o'.flushed = o.flushed ∨ ∃ ver, d = .commit ver ∧ a = .flag true ∧ 0 < o'.bytes)
    o := by
  cases d with
  | set ver k v => exact wp_seq writtenSpec_mono wp_set fun _ _ hflushed => .inl hflushed
  | del ver k => exact wp_seq writtenSpec_mono wp_del fun _ _ hflushed => .inl hflushed
  | commit ver =>
    refine wp_seq writtenSpec_mono wp_commit ?_
    rintro r o' (hflushed | ⟨rfl, hbytes⟩)
    · exact .inl hflushed
    · exact .inr ⟨ver, rfl, rfl, hbytes⟩
  | current => exact fun _ _ _ => .inl rfl
  | look l =>
    refine wp_mono writtenSpec_mono ?_ (wp_reads (reads_look l))
    rintro _ _ rfl
    exact .inl rfl

end Written

/-- The handler keeps to the specification. -/
theorem written_step (x₀ : Stream) (e : Eff) (Q : e.Res → Written → Prop) (x : Stream)
    (o : Written) (r : e.Res) (x' : Stream)
    (h : x.db.file.length = x₀.db.file.length + o.bytes ∧
      (o.flushed = false → x.flushed = x₀.flushed))
    (hS : writtenSpec e Q o) (he : Stream.handle e x = .ok (r, x')) :
    ∃ o', (x'.db.file.length = x₀.db.file.length + o'.bytes ∧
      (o'.flushed = false → x'.flushed = x₀.flushed)) ∧ Q r o' := by
  cases e with
  | write bs =>
    simp only [Stream.handle, Db.handle] at he
    split at he
    · cases he
      refine ⟨{ o with bytes := o.bytes + bs.length }, ⟨?_, h.2⟩, hS⟩
      simp only [List.length_append, h.1, Nat.add_assoc]
    · cases he
  | flush =>
    cases he
    exact ⟨{ o with flushed := true }, ⟨h.1, by simp⟩, hS⟩
  | _ =>
    cases he
    exact ⟨o, h, hS _⟩

/-- A call that makes more bytes sure is an accepted commit, and has written its record. -/
theorem flushes_of_run (h : OnStream B x d a x') :
    x'.flushed = x.flushed ∨
      ∃ ver, d = .commit ver ∧ a = .flag true ∧ x.db.file.length < x'.db.file.length := by
  have hwp := Written.wp_demand (B := B) (o := ⟨false, 0⟩) d
  obtain ⟨o', ⟨hbytes, hquiet⟩, hflushed | ⟨ver, hd, ha, hpos⟩⟩ :=
    wp_run (written_step x) ⟨rfl, fun _ => rfl⟩ hwp h
  · exact .inl (hquiet hflushed)
  · refine .inr ⟨ver, hd, ha, ?_⟩
    rw [hbytes]
    exact Nat.lt_add_of_pos_right hpos

/-! ## The threads and the stream -/

/-- What is sure for the object is sure for the threads. -/
structure Buffered (s : LockedStream) (x : Stream) (g : Thread → Seat) : Prop where
  joined : Joined s.locked x.db g
  ok : x.Ok
  flushed : x.flushed ≤ s.flushed

variable {g : Thread → Seat}

/-- A moment of the handle is one of the stream. Nothing becomes sure, except at an `fflush`. -/
theorem acts_onStream {e : Eff} {db : Db} {status status' : Status Demand Answer} (hok : x.Ok)
    (h : Acts (MomentAt B e) x.db status db status') :
    ∃ x', Acts (OnStream B) x status x' status' ∧ x'.db = db ∧ x'.Ok ∧
      (e ≠ .flush → x'.flushed = x.flushed) := by
  cases h with
  | stay => exact ⟨x, .stay _ _, rfl, hok, fun _ => rfl⟩
  | act moment =>
    obtain ⟨x', hrun, hdb⟩ := stream_of_eval moment.alone
    refine ⟨x', .act hrun, hdb, (hok.run hrun).1, fun he => ?_⟩
    rcases flushes_of_run hrun with hsame | ⟨_, -, rfl, hgrows⟩
    · exact hsame
    · rw [hdb] at hgrows
      rcases moment.flush with heq | hsame | ⟨_, hversion⟩
      · exact absurd heq he
      · rw [hsame] at hgrows
        exact absurd hgrows (lt_irrefl _)
      · cases hversion

theorem Buffered.effect {e : Eff} {Q : e.Res → Seat → Prop} {r : e.Res} (h : Buffered s x g)
    (hS : seatSpec B e Q (g t)) (he : LockedStream.handle t e s = .ok (r, s')) :
    ∃ x' own, Buffered s' x' (Function.update g t own) ∧ Q r own ∧
      Acts (OnStream B) x (g t).status x' own.status ∧ (g t).file <+: own.file := by
  obtain ⟨hdb, hflushed⟩ := handle_locked he
  obtain ⟨db, own, hjoined, hQ, hacts, hgrows⟩ := h.joined.effect hS hdb
  obtain ⟨x', hacts', rfl, hok, hquiet⟩ := acts_onStream h.ok hacts
  refine ⟨x', own, ⟨hjoined, hok, ?_⟩, hQ, hacts', hgrows⟩
  rcases hflushed with ⟨hsame, hne⟩ | hall
  · rw [hsame, hquiet hne]
    exact h.flushed
  · rw [hall]
    have hle := hjoined.files.prefix.length_le
    exact Nat.le_trans hok hle

/-- A call that changes nothing makes nothing sure. -/
theorem OnStream.of_alone (h : Alone B x.db d a x.db) : OnStream B x d a x := by
  obtain ⟨x', hrun, hdb⟩ := stream_of_eval h
  have hflushed : x'.flushed = x.flushed := by
    rcases flushes_of_run hrun with hsame | ⟨_, -, -, hgrows⟩
    · exact hsame
    · rw [hdb] at hgrows
      exact absurd hgrows (lt_irrefl _)
  have hsame : x' = x := by
    cases x
    cases x'
    subst hdb hflushed
    rfl
  rw [hsame] at hrun
  exact hrun

/-- All threads together. -/
def sharersProof (B : Build) : AtomicProof (sharers B) (OnStream B) (fun _ => True) Seat where
  spec := seatSpec B
  wrong := Seat.Fails B
  status := Seat.status
  Holds := Buffered
  post := Seat.Ends B
  Ready := Seat.Ready
  idle h := h.idle
  effect h hS he := by
    obtain ⟨x', own, hbuffered, hQ, hacts, -⟩ := h.effect hS he
    exact ⟨x', own, hbuffered, hQ, hacts⟩
  call := by
    intro t d s x g h hready _
    obtain ⟨own, hjoined, hasked, hwp⟩ := (callersProof B).call h.joined hready trivial
    exact ⟨own, ⟨hjoined, h.ok, h.flushed⟩, hasked, hwp⟩
  ret := by
    intro t d a s x g h hends
    obtain ⟨own, hjoined, hready, hlast⟩ := (callersProof B).ret h.joined hends
    exact ⟨own, ⟨hjoined, h.ok, h.flushed⟩, hready, hlast.imp_right fun ⟨hasked, halone⟩ =>
      ⟨hasked, .of_alone halone⟩⟩

/-- A process that has just opened the file. -/
theorem sharers_start {db : Db} (hsize : db.fileSize = db.file.length) :
    (sharersProof B).Inv (Process.start db) (Atomic.start ⟨db, db.file.length⟩)
      fun _ => ⟨.idle, 0, [], [], none, false⟩ :=
  AtomicProof.start ⟨joined_start db hsize, Nat.le_refl _, Nat.le_refl _⟩
    fun _ => ⟨rfl, rfl, rfl, rfl⟩

end Aodbm
