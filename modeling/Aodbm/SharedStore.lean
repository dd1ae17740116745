import Aodbm.SharedStream
import Aodbm.Stores

/-!
# Threads that share the store

What is seen of threads that use only versions that they were given can be seen of a store of
versions that answers each call at one moment. The iterators are left out here: they belong to
one thread each.

Results:
1. `StandsFor.moment`: a call that is answered on the stream is answered so by the store.
2. `threads_store`: every interleaving of the threads is one of the store.
-/

namespace Aodbm

open Effects Interleaving VersionStores Simulations

/-- The call names only versions that are known, and asks for the version before another one only
when there is one. -/
def Demand.From (known : Nat → Prop) : Demand → Prop
  | .set ver _ _ | .del ver _ | .commit ver => known ver
  | .current => True
  | .look (.get ver _) | .look (.has ver _) => known ver
  | .look (.isBasedOn a b) | .look (.commonAncestor a b) => known a ∧ known b
  | .look (.previousVersion ver) => known ver ∧ ver ≠ 0
  | .look _ => False

instance (known : Nat → Prop) [DecidablePred known] : DecidablePred (Demand.From known)
  | .set ver _ _ | .del ver _ | .commit ver => inferInstanceAs (Decidable (known ver))
  | .current => isTrue trivial
  | .look (.get ver _) | .look (.has ver _) => inferInstanceAs (Decidable (known ver))
  | .look (.isBasedOn a b) | .look (.commonAncestor a b) =>
    inferInstanceAs (Decidable (known a ∧ known b))
  | .look (.previousVersion ver) => inferInstanceAs (Decidable (known ver ∧ ver ≠ 0))
  | .look (.newIterator _) | .look (.iterateFrom ..) | .look (.iteratorGoto ..)
  | .look (.iteratorNext _) => isFalse id

/-- The versions that the answer gives. -/
def Answer.given : Answer → List Nat
  | .version ver => [ver]
  | _ => []

/-- The threads name only versions that one of them was given before. -/
def Honest : List Nat → List (Visible Thread Demand Answer) → Prop
  | _, [] => True
  | known, .call _ d :: es => d.From (· ∈ known) ∧ Honest known es
  | known, .ret _ a :: es => Honest (a.given ++ known) es

instance decidableHonest : (known : List Nat) → (es : List (Visible Thread Demand Answer)) →
    Decidable (Honest known es)
  | _, [] => isTrue trivial
  | known, .call _ d :: es =>
    have := decidableHonest known es
    inferInstanceAs (Decidable (d.From (· ∈ known) ∧ Honest known es))
  | known, .ret _ a :: es => decidableHonest (a.given ++ known) es

/-- The call of the store, and the reply that the answer is. -/
inductive Asking : Demand → Session.Call → Answer → Session.Reply → Prop where
  | set (ver : Nat) (k x : Data) (v : Nat) :
      Asking (.set ver k x) (.set ver k x) (.version v) (.version v)
  | del (ver : Nat) (k : Data) (v : Nat) :
      Asking (.del ver k) (.del ver k) (.version v) (.version v)
  | commit (ver : Nat) (b : Bool) : Asking (.commit ver) (.commit ver) (.flag b) (.flag b)
  | current (v : Nat) : Asking .current .current (.version v) (.version v)
  | get (ver : Nat) (k : Data) (x : Option Data) :
      Asking (.look (.get ver k)) (.get ver k) (.value x) (.value x)
  | has (ver : Nat) (k : Data) (b : Bool) :
      Asking (.look (.has ver k)) (.has ver k) (.flag b) (.flag b)
  | isBasedOn (a b : Nat) (r : Bool) :
      Asking (.look (.isBasedOn a b)) (.isBasedOn a b) (.flag r) (.flag r)
  | previousVersion (ver v : Nat) :
      Asking (.look (.previousVersion ver)) (.previousVersion ver) (.version v) (.version v)
  | commonAncestor (a b v : Nat) :
      Asking (.look (.commonAncestor a b)) (.commonAncestor a b) (.version v) (.version v)

/-- The store as an object of threads. -/
def StoreMoment (B : Build) (a : Store Nat Data Data) (d : Demand) (r : Answer)
    (a' : Store Nat Data Data) : Prop :=
  ∃ c reply, Asking d c r reply ∧ a.Step (aodbmDataLt B) c reply a'

variable {B : Build} {w w' : World} {s s' : Session} {a a' : Store Nat Data Data} {x x' : Stream}
  {d : Demand} {r : Answer} {c : Session.Call} {reply : Session.Reply}

theorem Demand.From.mono {K L : Nat → Prop} (h : d.From K) (hKL : ∀ v, K v → L v) : d.From L := by
  cases d with
  | set => exact hKL _ h
  | del => exact hKL _ h
  | commit => exact hKL _ h
  | current => trivial
  | look l =>
    cases l with
    | get => exact hKL _ h
    | has => exact hKL _ h
    | isBasedOn => exact ⟨hKL _ h.1, hKL _ h.2⟩
    | commonAncestor => exact ⟨hKL _ h.1, hKL _ h.2⟩
    | previousVersion => exact ⟨hKL _ h.1, h.2⟩
    | _ => exact h.elim

/-- A call that names versions of the store is one that clients may ask for. -/
theorem Asking.asks (h : Asking d c r reply) (hd : d.From fun v => a.entry v ≠ none) :
    a.Asks c := by
  cases h <;> exact hd

/-- What is given is in the store. -/
theorem Asking.given (h : Asking d c r reply) (hstep : a.Step (aodbmDataLt B) c reply a')
    (ha : a.Closed) (hd : d.From fun v => a.entry v ≠ none) :
    ∀ v ∈ r.given, a'.entry v ≠ none := by
  cases h with
  | set ver k x v =>
    intro u hu
    obtain rfl := List.mem_singleton.mp hu
    cases hstep with
    | set => simp [Store.add]
  | del ver k v =>
    intro u hu
    obtain rfl := List.mem_singleton.mp hu
    cases hstep with
    | del => simp [Store.add]
    | delAbsent => exact hd
  | current v =>
    intro u hu
    obtain rfl := List.mem_singleton.mp hu
    cases hstep with
    | current => exact ha.current
  | previousVersion ver v =>
    intro u hu
    obtain rfl := List.mem_singleton.mp hu
    cases hstep with
    | previousVersion parent => exact ha.parent parent
  | commonAncestor b c v =>
    intro u hu
    obtain rfl := List.mem_singleton.mp hu
    cases hstep with
    | commonAncestor left => exact ha.basedOn left hd.1
  | _ => exact List.forall_mem_nil _

/-! ## One moment -/

/-- The function of a call is that of a session without iterators. -/
theorem session_run {α : Type} {p : Op α} {mk : α → Answer} (reply : α → Session.Reply)
    (h : run Stream.handle (p >>= fun v => pure (mk v)) x = .ok (r, x')) :
    ∃ v, r = mk v ∧ Session.run ⟨x, []⟩ p reply = .ok (reply v, ⟨x', []⟩) := by
  obtain ⟨v, x₁, hp, hlast⟩ := run_bind_eq_ok.mp h
  cases hlast
  refine ⟨v, rfl, ?_⟩
  rw [Session.run, hp]
  rfl

/-- An answer on the stream is one of a session on it. -/
theorem perform_of_stream {known : Nat → Prop} (hd : d.From known) (h : OnStream B x d r x') :
    ∃ c reply, Asking d c r reply ∧ Session.perform B ⟨x, []⟩ c = .ok (reply, ⟨x', []⟩) := by
  cases d with
  | set ver k v =>
    obtain ⟨u, rfl, hrun⟩ := session_run Reply.version h
    exact ⟨_, _, .set ver k v u, hrun⟩
  | del ver k =>
    obtain ⟨u, rfl, hrun⟩ := session_run Reply.version h
    exact ⟨_, _, .del ver k u, hrun⟩
  | commit ver =>
    obtain ⟨u, rfl, hrun⟩ := session_run Reply.flag h
    exact ⟨_, _, .commit ver u, hrun⟩
  | current =>
    obtain ⟨u, rfl, hrun⟩ := session_run Reply.version h
    exact ⟨_, _, .current u, hrun⟩
  | look l =>
    cases l with
    | get ver k =>
      obtain ⟨u, rfl, hrun⟩ := session_run Reply.value h
      exact ⟨_, _, .get ver k u, hrun⟩
    | has ver k =>
      obtain ⟨u, rfl, hrun⟩ := session_run Reply.flag h
      exact ⟨_, _, .has ver k u, hrun⟩
    | isBasedOn a b =>
      obtain ⟨u, rfl, hrun⟩ := session_run Reply.flag h
      exact ⟨_, _, .isBasedOn a b u, hrun⟩
    | previousVersion ver =>
      obtain ⟨u, rfl, hrun⟩ := session_run Reply.version h
      exact ⟨_, _, .previousVersion ver u, hrun⟩
    | commonAncestor a b =>
      obtain ⟨u, rfl, hrun⟩ := session_run Reply.version h
      exact ⟨_, _, .commonAncestor a b u, hrun⟩
    | _ => exact hd.elim

/-- The stream is that of the store, on which no cursor is opened. -/
structure StandsFor (B : Build) (x : Stream) (a : Store Nat Data Data) : Prop where
  means : ∃ w, Means B w ⟨x, []⟩ a
  closed : a.Closed

/-- A call that is answered on the stream is answered so by the store. -/
theorem StandsFor.moment (h : StandsFor B x a) (hd : d.From fun v => a.entry v ≠ none)
    (hrun : OnStream B x d r x') (hshort : x'.db.file.length < 2 ^ 32) :
    ∃ a', StoreMoment B a d r a' ∧ StandsFor B x' a' ∧ (∀ v ∈ r.given, a'.entry v ≠ none) ∧
      ∀ v, a.entry v ≠ none → a'.entry v ≠ none := by
  obtain ⟨c, reply, hasking, hperform⟩ := perform_of_stream hd hrun
  obtain ⟨w, hmeans⟩ := h.means
  rcases hmeans.perform (hasking.asks hd) with herr | ⟨r', s', hr, hstep⟩
  · rw [herr] at hperform
    cases hperform
  · rw [hr] at hperform
    cases hperform
    have hlen : Session.Short ⟨x, []⟩ ⟨x', []⟩ := by
      show x'.db.file.length < x.db.file.length + (5 + 2 ^ 32)
      omega
    obtain ⟨w', a', hcall, hmeans', _⟩ := hstep hlen
    exact ⟨a', ⟨c, reply, hasking, hcall⟩, ⟨⟨w', hmeans'⟩, hcall.closed h.closed⟩,
      hasking.given hcall h.closed hd, fun v hv => hcall.known hv⟩

/-! ## All threads -/

abbrev SharedHandle := Atomic Stream Thread Demand Answer
abbrev SharedStore := Atomic (Store Nat Data Data) Thread Demand Answer

variable {q q' : SharedHandle} {b : SharedStore} {known : List Nat}
  {es : List (Visible Thread Demand Answer)} {t : Thread}

/-- The store is where the handle is. -/
structure Follows (B : Build) (q : SharedHandle) (b : SharedStore) (known : List Nat) : Prop where
  stands : StandsFor B q.state b.state
  status : b.status = q.status
  known : ∀ v ∈ known, b.state.entry v ≠ none
  asked : ∀ t d, q.status t = .asked d → d.From fun v => b.state.entry v ≠ none
  answered : ∀ t d r, q.status t = .answered d r → ∀ v ∈ r.given, b.state.entry v ≠ none

theorem Follows.call (h : Follows B q b known) (hd : d.From (· ∈ known)) :
    Follows B ⟨q.state, Function.update q.status t (.asked d)⟩
      ⟨b.state, Function.update b.status t (.asked d)⟩ known where
  stands := h.stands
  status := by rw [h.status]
  known := h.known
  asked := by
    refine (Function.forall_update_iff q.status fun _ st => ∀ d', st = .asked d' →
      d'.From fun v => b.state.entry v ≠ none).mpr ⟨?_, fun u _ => h.asked u⟩
    rintro _ ⟨⟩
    exact hd.mono h.known
  answered := (Function.forall_update_iff q.status fun _ st => ∀ d' r, st = .answered d' r →
      ∀ v ∈ r.given, b.state.entry v ≠ none).mpr ⟨nofun, fun u _ => h.answered u⟩

theorem Follows.ret (h : Follows B q b known) (hr : q.status t = .answered d r) :
    Follows B ⟨q.state, Function.update q.status t .idle⟩
      ⟨b.state, Function.update b.status t .idle⟩ (r.given ++ known) where
  stands := h.stands
  status := by rw [h.status]
  known := by
    intro v hv
    rcases List.mem_append.mp hv with hv | hv
    · exact h.answered t d r hr v hv
    · exact h.known v hv
  asked := (Function.forall_update_iff q.status fun _ st => ∀ d', st = .asked d' →
      d'.From fun v => b.state.entry v ≠ none).mpr ⟨nofun, fun u _ => h.asked u⟩
  answered := (Function.forall_update_iff q.status fun _ st => ∀ d' r, st = .answered d' r →
      ∀ v ∈ r.given, b.state.entry v ≠ none).mpr ⟨nofun, fun u _ => h.answered u⟩

theorem Follows.act (h : Follows B q b known) (hd : q.status t = .asked d)
    (hrun : OnStream B q.state d r x') (hshort : x'.db.file.length < 2 ^ 32) :
    ∃ a', StoreMoment B b.state d r a' ∧
      Follows B ⟨x', Function.update q.status t (.answered d r)⟩
        ⟨a', Function.update b.status t (.answered d r)⟩ known := by
  obtain ⟨a', hmoment, hstands, hgiven, hkept⟩ := h.stands.moment (h.asked t d hd) hrun hshort
  refine ⟨a', hmoment, hstands, by rw [h.status], fun v hv => hkept v (h.known v hv), ?_, ?_⟩
  · exact (Function.forall_update_iff q.status fun _ st => ∀ d', st = .asked d' →
      d'.From fun v => a'.entry v ≠ none).mpr
        ⟨nofun, fun u _ d' hu => (h.asked u d' hu).mono hkept⟩
  · refine (Function.forall_update_iff q.status fun _ st => ∀ d' r', st = .answered d' r' →
      ∀ v ∈ r'.given, a'.entry v ≠ none).mpr
        ⟨?_, fun u _ d' r' hu v hv => hkept v (h.answered u d' r' hu v hv)⟩
    rintro _ _ ⟨⟩
    exact hgiven

theorem OnStream.alone (h : OnStream B x d r x') : Alone B x.db d r x'.db := by
  rw [Alone, ← stream_run, show run Stream.handle (d.op B) x = _ from h]
  rfl

/-- The file only grows. -/
theorem OnStream.grows (h : OnStream B x d r x') : x.db.file <+: x'.db.file := eval_prefix h.alone

theorem traces_grow (hrun : Traces (AtomicStep (OnStream B)) q es q') :
    q.state.db.file <+: q'.state.db.file := by
  induction hrun with
  | nil => exact List.prefix_rfl
  | silent first _ ih =>
    cases first with
    | act _ moment =>
      have hgrows := moment.grows
      exact hgrows.trans ih
  | seen first _ ih =>
    cases first with
    | call => exact ih
    | ret => exact ih

theorem Follows.traces (h : Follows B q b known) (hhonest : Honest known es)
    (hrun : Traces (AtomicStep (OnStream B)) q es q')
    (hshort : q'.state.db.file.length < 2 ^ 32) :
    ∃ b', Traces (AtomicStep (StoreMoment B)) b es b' := by
  induction hrun generalizing b known with
  | nil => exact ⟨b, .nil b⟩
  | silent first rest ih =>
    cases first with
    | act asked moment =>
      have hgrows := traces_grow rest
      have hlen := hgrows.length_le
      obtain ⟨a', hmoment, hfollows⟩ := h.act asked moment (lt_of_le_of_lt hlen hshort)
      obtain ⟨b', htrace⟩ := ih hfollows hhonest hshort
      rw [← h.status] at asked
      exact ⟨b', .silent (.act asked hmoment) htrace⟩
  | seen first _ ih =>
    cases first with
    | call idle =>
      obtain ⟨b', htrace⟩ := ih (h.call hhonest.1) hhonest.2 hshort
      rw [← h.status] at idle
      exact ⟨b', .seen (.call idle) htrace⟩
    | ret answered =>
      obtain ⟨b', htrace⟩ := ih (h.ret answered) hhonest hshort
      rw [← h.status] at answered
      exact ⟨b', .seen (.ret answered) htrace⟩

theorem follows_start :
    Follows B (Atomic.start (Session.start Db.empty).stream) (Atomic.start Store.empty) [0] where
  stands := ⟨⟨_, Means.init⟩, Store.closed_empty⟩
  status := rfl
  known := by simp [Atomic.start, Store.empty]
  asked := nofun
  answered := nofun

/-- What is seen of any number of threads on a new file, which name only versions that one of them
was given, can be seen of a store of versions that answers each call at one moment. -/
theorem threads_store {p : Callers} (hhonest : Honest [0] es)
    (hrun : Traces (Moves (callers B) fun _ => True) (Callers.start Db.empty) es p)
    (hshort : p.shared.db.file.length < 2 ^ 32) :
    ∃ b, Traces (AtomicStep (StoreMoment B)) (Atomic.start Store.empty) es b := by
  have hextends : Extends LockedStream.locked (Process.start Db.empty) (Callers.start Db.empty) :=
    ⟨rfl, rfl⟩
  obtain ⟨p', hrun', hextends'⟩ := sharers_add.trace hextends hrun
  obtain ⟨q, g, htrace, hinv⟩ := (sharers_start rfl).trace hrun'
  have hbuffered : Buffered p'.shared q.state g := hinv.fits.holds
  have hprefix := hbuffered.joined.files.prefix
  rw [hextends'.shared] at hprefix
  exact follows_start.traces hhonest htrace (lt_of_le_of_lt hprefix.length_le hshort)

/-- The store was given the key after the first call, and answers that call afterwards. -/
theorem threads_store_set : ∃ b : SharedStore, Traces (AtomicStep (StoreMoment smallBuild))
    (Atomic.start Store.empty) overlap b := by
  obtain ⟨p, htrace, hlen⟩ := overlap_trace
  have hshort : p.shared.db.file.length < 2 ^ 32 := by
    rw [hlen]
    decide
  exact threads_store (by decide) htrace hshort

end Aodbm
