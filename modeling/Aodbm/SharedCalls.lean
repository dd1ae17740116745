import Aodbm.Progress
import Aodbm.SharedCrashes

/-!
# Calls of threads are answered

The threads of processes that may be killed, as before. What a call reads is in the file when the
call is made, since it names versions that are known by then, and it stays there: on every later
file the call finds what it looks for. So it does not matter when its effects take place.

Results:
1. `StandsFor.served`: a call that names versions of the store is only refused a write.
2. `asked_served`: so is the call of every thread, in every state of every interleaving.
3. `calls_end`: no call fails otherwise, and as long as nobody in the process has called
   `aodbm_set`, every call comes to an end.
-/

namespace Aodbm

open Effects Interleaving VersionStores

variable {B : Build} {d : Demand} {file file' : Data}

/-! ## What a call finds -/

/-- On every later file, only a write of the call can fail. -/
def Demand.Served (B : Build) (d : Demand) (file : Data) : Prop :=
  ∀ x : Db, file <+: x.file → x.Synced → ∀ e, eval (d.op B) x = .error e → e = .osError

theorem Demand.Served.mono (h : d.Served B file) (hfile : file <+: file') : d.Served B file' :=
  fun x hx => h x (hfile.trans hx)

section Errors
variable {α : Type} {p : Op α} {db db' : Db} {a : α} {e : Err}

/-- The call fails only if its function does. -/
theorem eval_call_error {mk : α → Answer} (h : eval (p >>= fun v => pure (mk v)) db = .error e) :
    eval p db = .error e := by
  cases hp : eval p db with
  | ok r =>
    rw [eval, run_bind_ok hp] at h
    cases h
  | error e' =>
    rw [eval, run_bind_error hp] at h
    cases h
    rfl

theorem not_error (hp : eval p db = .ok (a, db')) : eval p db ≠ .error e := by
  rw [hp]
  exact fun h => nomatch h

theorem Updates.refused {op : Op Nat} {ver root : Nat} {new : List Rec} {payload : Data}
    (h : Updates B db ver new op payload root) (herror : eval op db = .error e) : e = .osError := by
  rw [h.run] at herror
  split at herror
  · cases herror
  · cases herror
    rfl

end Errors

variable {x : Stream} {a : Store Nat Data Data}

/-- A call that names versions of the store is only refused a write. -/
theorem StandsFor.served (h : StandsFor B x a) (hd : d.From fun v => a.entry v ≠ none) :
    d.Served B x.db.file := by
  obtain ⟨w, hmeans⟩ := h.means
  intro db hfile hdb e herror
  rw [show x.db = w.db from hmeans.db] at hfile
  have hheaders := hmeans.inv.headers.mono hfile
  have hcontents : ∀ v, a.entry v ≠ none → ∃ rs, ContentsAt B db.file v rs := by
    intro v hv
    obtain ⟨entry, hentry, -⟩ := hmeans.snap hv
    obtain ⟨rs, hrs, -⟩ := hmeans.lists hentry
    exact ⟨rs, hrs.mono hfile⟩
  cases d with
  | set ver k v =>
    obtain ⟨rs, hrs⟩ := hcontents ver hd
    obtain ⟨payload, root, hupdates⟩ := hrs.set hdb k v
    exact hupdates.refused (eval_call_error herror)
  | del ver k =>
    obtain ⟨rs, hrs⟩ := hcontents ver hd
    cases hk : rs.lookup k with
    | none => exact absurd (eval_call_error herror) (not_error (hrs.del_absent hdb hk))
    | some y =>
      obtain ⟨payload, root, hupdates⟩ := hrs.del hdb (k := k) (by rw [hk]; rfl)
      exact hupdates.refused (eval_call_error herror)
  | commit ver =>
    obtain ⟨r, -, heval⟩ := eval_commit hheaders (hmeans.known hd)
    have hcommit := eval_call_error herror
    rw [heval] at hcommit
    split at hcommit
    · split at hcommit
      · cases hcommit
      · cases hcommit
        rfl
    · cases hcommit
  | current => exact absurd (eval_call_error herror) (not_error eval_current)
  | look l =>
    cases l with
    | get ver k =>
      obtain ⟨rs, hrs⟩ := hcontents ver hd
      exact absurd (eval_call_error herror) (not_error (hrs.get hdb k))
    | has ver k =>
      obtain ⟨rs, hrs⟩ := hcontents ver hd
      exact absurd (eval_call_error herror) (not_error (hrs.has hdb k))
    | isBasedOn u v =>
      obtain ⟨r, heval, -⟩ := eval_isBasedOn hheaders (hmeans.known hd.1) v
      exact absurd (eval_call_error herror) (not_error heval)
    | previousVersion ver =>
      obtain ⟨p, hp, -⟩ := hheaders.parent (hmeans.known hd.1) hd.2
      have heval := hheaders.eval_previous (hmeans.known hd.1) hp
      exact absurd (eval_call_error herror) (not_error heval)
    | commonAncestor u v =>
      obtain ⟨c, heval, -⟩ :=
        eval_commonAncestor hheaders (hmeans.known hd.1) (hmeans.known hd.2)
      exact absurd (eval_call_error herror) (not_error heval)
    | _ => exact hd.elim

/-! ## All threads -/

variable {k₀ : Knowledge} {q₀ : SharedHandle} {b₀ : SharedStore} {s : LockedStream}
  {g : Thread → Seat} {t : Thread} {own : Seat} {es : List (Visible Thread Demand Answer)}

/-- The calls of the threads are only refused writes. -/
def AllServed (B : Build) (g : Thread → Seat) : Prop :=
  ∀ t d, (g t).status = .asked d → d.Served B (g t).file

theorem AllServed.update (h : AllServed B g)
    (hown : ∀ d, own.status = .asked d → d.Served B own.file) :
    AllServed B (Function.update g t own) :=
  (Function.forall_update_iff g fun _ o => ∀ d, o.status = .asked d → d.Served B o.file).mpr
    ⟨hown, fun u _ => h u⟩

/-- The call begins with all that is in the file. -/
theorem Buffered.call (h : Buffered s x g) (t : Thread) (d : Demand) :
    Buffered s x (Function.update g t { g t with status := .asked d, file := x.db.file }) where
  joined := {
    files := h.joined.files.looks rfl rfl (h.joined.files.depth t) (fun _ _ => rfl)
      List.prefix_rfl (fun hpos => ⟨rfl, (h.joined.files.held t hpos).2⟩)
      (h.joined.files.outside t) rfl
    curs := h.joined.curs.looks rfl rfl rfl rfl rfl }
  ok := h.ok
  flushed := h.flushed

/-- The calls of the threads are made with what is known, and served. -/
def askersProof (B : Build) (h₀ : Recalls B q₀ b₀ k₀) :
    TraceProof (sharers B) (fun _ => True) Seat where
  spec := seatSpec B
  wrong := Seat.Fails B
  Holds s es g := (∃ q, Traces (AtomicStep (OnStream B)) q₀ es q ∧ (sharersProof B).Fits s q g) ∧
    (Informed k₀ (es.map .seen) → s.locked.db.file.length < 2 ^ 32 → AllServed B g)
  post := Seat.Ends B
  Ready := Seat.Ready
  effect := by
    rintro t e Q s s' es g r ⟨⟨q, htrace, hfits⟩, hserved⟩ hS he
    have hbuffered : Buffered s q.state g := hfits.holds
    obtain ⟨x', own, hbuffered', hQ, hacts, hgrows⟩ := hbuffered.effect hS he
    refine ⟨own, ⟨hfits.effect htrace hbuffered' hacts, fun hinformed hshort => ?_⟩, hQ⟩
    have hall : AllServed B g := hserved hinformed
      (lt_of_le_of_lt (locked_grows (handle_locked he).1).length_le hshort)
    refine hall.update fun d hd => ?_
    rw [hd] at hacts
    exact (hall t d hacts.asked).mono hgrows
  call := by
    rintro t d s es g ⟨⟨q, htrace, hfits⟩, hserved⟩ hready -
    have hbuffered : Buffered s q.state g := hfits.holds
    have hwp : wpe (seatSpec B) (Seat.Fails B) (d.op B) (Seat.Ends B d)
        { g t with status := .asked d, file := q.state.db.file } :=
      Seat.wp_demand ⟨rfl, hready.part, hready.cur, hready.late⟩
    refine ⟨_, ⟨hfits.call htrace hready (hbuffered.call t d) rfl, fun hinformed hshort => ?_⟩, hwp⟩
    rw [List.map_append, informed_append] at hinformed
    obtain ⟨hinformed, hallows, -⟩ := hinformed
    refine (hserved hinformed hshort).update ?_
    rintro _ ⟨⟩
    -- what is known is in the store
    have hlen := hbuffered.joined.files.prefix.length_le
    obtain ⟨b, -, hrecalls⟩ := h₀.traces htrace hinformed (lt_of_le_of_lt hlen hshort)
    have hd : d.From (· ∈ (k₀.after (es.map .seen)).known) := hallows
    exact hrecalls.follows.stands.served (hd.mono hrecalls.follows.known)
  ret := by
    rintro t d r s es g ⟨⟨q, htrace, hfits⟩, hserved⟩ hends
    have hbuffered : Buffered s q.state g := hfits.holds
    obtain ⟨own, hbuffered', hready, hlast⟩ := (sharersProof B).ret hbuffered hends
    refine ⟨own, ⟨hfits.ret htrace hbuffered' hready hlast, fun hinformed hshort => ?_⟩, hready⟩
    rw [List.map_append, informed_append] at hinformed
    refine (hserved hinformed.1 hshort).update fun d' hd => ?_
    rw [hready.idle] at hd
    cases hd

/-! ## The process that runs -/

variable {p p' : Process} {db : Db} {before hs : List Happening}

/-- What the threads know of the stream, in every state of every interleaving. -/
theorem asked_served (h : Lifetime B db a before hs p) : ∃ q g, (sharersProof B).Inv p q g ∧
    AllServed B g := by
  have hstart := (sharers_start (B := B) h.size).fits
  obtain ⟨g, hinv⟩ := TraceProof.trace (P := askersProof B h.recalls) ⟨⟨_, .nil _, hstart⟩, nofun⟩
    (fun _ => ⟨rfl, rfl, rfl, rfl⟩) h.moves
  obtain ⟨⟨q, -, hfits⟩, hserved⟩ := hinv.holds
  exact ⟨q, g, ⟨hfits, hinv.ready, hinv.rest⟩, hserved h.informed h.short⟩

/-! ## The end of a call -/

/-- The threads on the handle without its buffer. -/
def Process.callers (p : Process) : Callers := ⟨p.shared.locked, p.clients, p.log⟩

theorem moves_callers {e : Option (Visible Thread Demand Answer)}
    (h : Moves (sharers B) (fun _ => True) p e p') :
    Moves (callers B) (fun _ => True) p.callers e p'.callers := by
  cases h with
  | call idle may => exact .call idle may
  | effect next answer => exact .effect next (handle_locked answer).1
  | ret done => exact .ret done

theorem traces_callers (h : Traces (Moves (sharers B) fun _ => True) p es p') :
    Traces (Moves (callers B) fun _ => True) p.callers es p'.callers := by
  induction h with
  | nil => exact .nil _
  | silent first _ ih => exact .silent (moves_callers first) ih
  | seen first _ ih => exact .seen (moves_callers first) ih

/-- The buffer lets nobody wait. -/
theorem waits_callers (h : Waits (sharers B) .blocked p t) :
    Waits (callers B) .blocked p.callers t := by
  obtain ⟨job, e, k, seen, hclient, hwait⟩ := h
  exact ⟨job, e, k, seen, hclient, locked_error hwait⟩

/-- An effect that fails is a write that the operating system refuses, or has to wait. -/
theorem handle_error {e : Eff} {s : LockedDb} {x : Err} (h : LockedDb.handle t e s = .error x) :
    x = .blocked ∨ x = .osError := by
  cases e with
  | lockRw =>
    simp only [LockedDb.handle] at h
    split at h
    · cases h
    · cases h
      exact .inl rfl
  | lockVersion =>
    simp only [LockedDb.handle] at h
    split at h
    · cases h
    · cases h
      exact .inl rfl
  | write bs =>
    simp only [LockedDb.handle, Db.handle] at h
    split at h
    · cases h
    · cases h
      exact .inr rfl
  | _ => cases h

/-- No call fails, unless the operating system refuses a write. -/
theorem Lifetime.fails (h : Lifetime B db a before hs p) {x : Err}
    (ht : Fails (sharers B) .blocked p t x) : x = .osError := by
  obtain ⟨q, g, hinv, hserved⟩ := asked_served h
  obtain ⟨c, hclient, hfail | ⟨hx, e, k, -, hanswer⟩⟩ := ht
  · have hwp := hinv.rest t c hclient
    rw [hfail] at hwp
    obtain ⟨-, d, hasked, hfails⟩ : Seat.Fails B x (g t) := hwp
    -- the handle as the thread has seen it
    let db : Db := ⟨(g t).file, (g t).file.length, (g t).cur.getD 0⟩
    have hbuffered : Buffered p.shared q.state g := hinv.fits.holds
    have hlen := ((hbuffered.joined.files.older t).trans hbuffered.joined.files.prefix).length_le
    have hbound : db.file.length < 2 ^ 63 :=
      lt_trans (hlen.trans_lt h.short) (by decide)
    refine hserved t d hasked db List.prefix_rfl ⟨rfl, hbound⟩ x (hfails db rfl rfl ?_)
    intro cur hcur
    show (g t).cur.getD 0 = cur
    rw [Option.mem_def.mp hcur]
    rfl
  · exact (handle_error (locked_error hanswer)).resolve_left hx

/-- Who has called in a run. -/
def callersOf (es : List (Visible Thread Demand Answer)) : List Thread :=
  es.filterMap fun
    | .call t _ => some t
    | .ret .. => none

/-- No call fails, unless the operating system refuses a write, and the effects of the calls that
have begun cannot go on for ever. As long as nobody in the process has called `aodbm_set`, a thread
that waits waits for one that goes on or was refused a write; so when no effect is possible any
more, every call has its answer, unless one was refused a write. -/
theorem calls_end (hinformed : Informed Knowledge.start hs)
    (hrun : Traces (ProcessStep B) (Process.start Db.empty) hs p) :
    (∀ t x, Fails (sharers B) .blocked p t x → x = .osError) ∧
    Acc (fun p' p => Moves (sharers B) (fun _ => True) p none p') p ∧
    ((∀ t d, .call t d ∈ sinceKill hs → d.sets = 0) →
      (∀ t, Waits (sharers B) .blocked p t →
        ∃ u, Goes (sharers B) p u ∨ Fails (sharers B) .blocked p u .osError) ∧
      ((∀ p', ¬ Moves (sharers B) (fun _ => True) p none p') →
        (∃ u, Fails (sharers B) .blocked p u .osError) ∨
          ∀ t, p.clients t ≠ none → Returns p t)) := by
  obtain ⟨db, a, before, h⟩ := last_process hinformed hrun
  refine ⟨fun t x => h.fails, silent_acc (List.nodup_dedup (callersOf (sinceKill hs)))
    fun t ht => ?_, fun hsets => ?_⟩
  · rcases called_of_client h.moves ht with hstart | ⟨d, hcall⟩
    · exact absurd rfl hstart
    · exact List.mem_dedup.mpr (List.mem_filterMap.mpr ⟨_, hcall, rfl⟩)
  · obtain ⟨g, hinv⟩ := held_of_trace (traces_callers h.moves)
    have hwaits : ∀ t, Waits (sharers B) .blocked p t →
        ∃ u, Goes (sharers B) p u ∨ ∃ x, Fails (sharers B) .blocked p u x := by
      intro t ht
      obtain ⟨u, hin, hnot, hreturns⟩ := some_busy hinv hsets (waits_callers ht)
      have hbusy : Busy (sharers B) .blocked p u :=
        ⟨hin, fun hu => hnot (waits_callers hu), hreturns⟩
      exact ⟨u, hbusy.goes_or_fails⟩
    refine ⟨fun t ht => ?_, fun hquiet => ?_⟩
    · obtain ⟨u, hu⟩ := hwaits t ht
      exact ⟨u, hu.imp_right fun ⟨x, hx⟩ => h.fails hx ▸ hx⟩
    · rcases returns_of_quiet hwaits hquiet with ⟨u, x, hx⟩ | hreturns
      · exact .inl ⟨u, h.fails hx ▸ hx⟩
      · exact .inr hreturns

/-- In the next process two threads ask for the current version. -/
def waitingHistory : List Happening :=
  killedHistory.take 7 ++ [.seen (.call 0 .current), .seen (.call 1 .current)]

def currentClient : Client Eff Eff.Res Err Empty Demand Answer :=
  ⟨.current, Demand.current.op smallBuild, []⟩

/-- Thread 0 has called. -/
def asking : Process :=
  ⟨⟨⟨⟨oneFile, 37, 5⟩, ⟨.free, none⟩⟩, 37⟩, Function.update (fun _ => none) 0 (some currentClient),
    []⟩

/-- It has locked `version`. -/
def answering : Process :=
  ⟨⟨⟨⟨oneFile, 37, 5⟩, ⟨.free, some 0⟩⟩, 37⟩, Function.update asking.clients 0 (some
    ⟨.current, .op .getCur fun v => .op .unlockVersion fun _ => .pure (.version v), []⟩), []⟩

/-- Thread 1 has called, too. -/
def waiting : Process :=
  { answering with clients := Function.update answering.clients 1 (some currentClient) }

theorem waiting_reached : Traces (ProcessStep smallBuild) (Process.start Db.empty) waitingHistory
    waiting := by
  have hlen : oneFile.length < 2 ^ 32 := by decide
  have hcall : Moves (sharers smallBuild) (fun _ => True) (Process.start ⟨oneFile, 37, 5⟩)
      (some (.call 0 .current)) asking := .call rfl trivial
  have hclient : asking.clients 0 = some ⟨.current, .op .lockVersion fun _ => .op .getCur fun v =>
      .op .unlockVersion fun _ => .pure (.version v), []⟩ := rfl
  have hlock : Moves (sharers smallBuild) (fun _ => True) asking none answering :=
    .effect hclient rfl
  have hcall' : Moves (sharers smallBuild) (fun _ => True) answering
      (some (.call 1 .current)) waiting := .call rfl trivial
  exact killed_reopened.append (.seen (.seen hcall hlen) (.silent (.effect hlock hlen)
    (.seen (.seen hcall' hlen) (.nil _))))

/-- Thread 1 waits for thread 0. -/
theorem calls_end_waiting : Waits (sharers smallBuild) .blocked waiting 1 ∧
    (∀ t x, Fails (sharers smallBuild) .blocked waiting t x → x = .osError) ∧
    Acc (fun p' p => Moves (sharers smallBuild) (fun _ => True) p none p') waiting ∧
    (∀ t, Waits (sharers smallBuild) .blocked waiting t →
      ∃ u, Goes (sharers smallBuild) waiting u ∨
        Fails (sharers smallBuild) .blocked waiting u .osError) ∧
    ((∀ p', ¬ Moves (sharers smallBuild) (fun _ => True) waiting none p') →
      (∃ u, Fails (sharers smallBuild) .blocked waiting u .osError) ∨
        ∀ t, waiting.clients t ≠ none → Returns waiting t) := by
  have hwaits : Waits (sharers smallBuild) .blocked waiting 1 :=
    ⟨.current, .lockVersion, _, [], rfl, rfl⟩
  obtain ⟨hfails, hends, hgoes⟩ := calls_end (by decide) waiting_reached
  have hsince : sinceKill waitingHistory = [.call 0 .current, .call 1 .current] := rfl
  refine ⟨hwaits, hfails, hends, hgoes fun t d hcall => ?_⟩
  rw [hsince] at hcall
  rcases List.mem_cons.mp hcall with heq | hcall
  · cases heq
    rfl
  · cases List.mem_singleton.mp hcall
    rfl

end Aodbm
