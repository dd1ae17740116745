import Aodbm.Crashes
import Aodbm.Sessions
import Mathlib.Data.List.Forall2

/-!
# The database is a store of versions

Whatever the clients do, and wherever the process is killed, the public functions answer as the
store of versions does.

Results:
1. `Means.perform`: a call is answered as in the store, or the file gets too long.
2. `Means.killed`: what `aodbm_open` finds is what the store keeps.
3. `store_refined`: every run is one of the store.
4. `commit_durable`: an accepted commit is kept for ever, with all its records.
-/

namespace Aodbm

open Effects Records History VersionStores Simulations

/-- The iterator stands where the cursor does. -/
structure CursorAt (B : Build) (file : Data) (it : Iterator) (c : Cursor Nat Data Data) : Prop where
  ver : it.ver = c.ver
  at_ : IterAt B file it c.rest

/-- The session and the store that it stands for. The world knows what was returned so far, less
what was lost with a process. -/
structure Means (B : Build) (w : World) (s : Session) (a : Store Nat Data Data) : Prop where
  inv : Inv B w
  tidy : Tidy B w
  db : s.stream.db = w.db
  entry : ∀ v e, a.entry v = some e ↔ ⟨v, e.parent, e.contents⟩ ∈ w.snaps
  current : a.current = w.db.cur
  cursors : List.Forall₂ (CursorAt B w.db.file) s.iters a.cursors
  opened : ∀ c ∈ a.cursors, w.Known c.ver
  ok : s.stream.Ok
  committed : ∀ c ∈ w.commits.head?, c.fin ≤ s.stream.flushed

variable {B : Build} {w w' : World} {s s' : Session} {a a' : Store Nat Data Data}
  {db : Db} {α : Type}

section Lists
variable {β γ : Type} {R : β → γ → Prop} {l : List β} {m : List γ} {b : β} {c : γ}

theorem forall₂_getElem? (h : List.Forall₂ R l m) {i : Nat} (hi : m[i]? = some c) :
    ∃ b, l[i]? = some b ∧ R b c := by
  induction h generalizing i with
  | nil => cases hi
  | @cons b' _ _ _ hbc _ ih =>
    cases i with
    | zero =>
      cases hi
      exact ⟨b', rfl, hbc⟩
    | succ i => exact ih hi

theorem forall₂_set (h : List.Forall₂ R l m) (hbc : R b c) (i : Nat) :
    List.Forall₂ R (l.set i b) (m.set i c) := by
  induction h generalizing i with
  | nil => exact .nil
  | cons hbc' hlm ih =>
    cases i with
    | zero => exact .cons hbc hlm
    | succ i => exact .cons hbc' (ih i)

end Lists

theorem CursorAt.mono {file file' : Data} {it : Iterator} {c : Cursor Nat Data Data}
    (h : CursorAt B file it c) (hf : file <+: file') : CursorAt B file' it c :=
  ⟨h.ver, h.at_.mono hf⟩

namespace Means

theorem init : Means B World.init (Session.start Db.empty) Store.empty where
  inv := Inv.init
  tidy := Tidy.init
  db := rfl
  entry := by
    intro v e
    simp only [Store.empty, World.init, Function.update_apply, List.mem_singleton,
      Snapshot.mk.injEq]
    split
    · next h0 =>
      obtain ⟨p, m⟩ := e
      simp [h0, eq_comm]
    · next h0 => simp [h0]
  current := rfl
  cursors := .nil
  opened := by simp [Store.empty]
  ok := Nat.le_refl _
  committed := by simp [World.init]

/-! ## Versions -/

theorem snap (h : Means B w s a) {v : Nat} (hv : a.entry v ≠ none) :
    ∃ e, a.entry v = some e ∧ Snapshot.mk v e.parent e.contents ∈ w.snaps := by
  obtain ⟨e, he⟩ := Option.ne_none_iff_exists'.mp hv
  exact ⟨e, he, (h.entry v e).mp he⟩

theorem known (h : Means B w s a) {v : Nat} (hv : a.entry v ≠ none) : w.Known v := by
  obtain ⟨e, _, hmem⟩ := h.snap hv
  exact ⟨_, hmem, rfl⟩

theorem entry_snap (h : Means B w s a) {t : Snapshot} (ht : t ∈ w.snaps) :
    a.entry t.ver = some ⟨t.prev, t.contents⟩ := (h.entry _ _).mpr ht

theorem parent_iff (h : Means B w s a) (v p : Nat) : a.Parent v p ↔ w.Parent v p := by
  constructor
  · rintro ⟨e, he, rfl, h0⟩
    exact ⟨_, (h.entry v e).mp he, rfl, rfl, h0⟩
  · rintro ⟨t, ht, rfl, rfl, h0⟩
    exact ⟨_, h.entry_snap ht, rfl, h0⟩

theorem basedOn_iff (h : Means B w s a) (v p : Nat) : a.BasedOn v p ↔ w.BasedOn v p := by
  constructor
  · exact Based.mono fun x y => (h.parent_iff x y).mp
  · exact Based.mono fun x y => (h.parent_iff x y).mpr

/-- The records of a version. -/
theorem lists (h : Means B w s a) {v : Nat} {e : VersionStores.Entry Nat Data Data}
    (he : a.entry v = some e) :
    ∃ rs, ContentsAt B w.db.file v rs ∧ Listing (aodbmDataLt B) e.contents rs ∧
      ∀ q, e.contents q = rs.lookup q := by
  obtain ⟨rs, hrs, hq⟩ := h.inv.contents ((h.entry v e).mp he)
  refine ⟨rs, hrs, ⟨hrs.sorted.imp (aodbmDataLt_iff B).mpr, fun k x => ?_⟩, hq⟩
  rw [mem_iff_lookup hrs.sorted, ← hq]

/-- An iterator that was moved to a key. -/
theorem goto (h : Means B w s a) {v : Nat} {e : VersionStores.Entry Nat Data Data}
    (he : a.entry v = some e) (hv : v ≠ 0) {it : Iterator} (hit : it.ver = v) (k : Data) :
    ∃ rs it', Listing (aodbmDataLt B) e.contents rs ∧
      eval (aodbmIteratorGoto B it k) w.db = .ok (it', w.db) ∧
      CursorAt B w.db.file it' ⟨v, rs.filter fun r => !aodbmDataLt B r.1 k⟩ := by
  obtain ⟨rs, hrs, hlists, _⟩ := h.lists he
  obtain ⟨h0, _⟩ | ⟨_, ht⟩ := hrs
  · exact absurd h0 hv
  obtain ⟨it', heval, hit', hver⟩ := eval_iteratorGoto ht h.inv.synced.bound hit k
  have hfilter : (rs.filter fun r => !aodbmDataLt B r.1 k) =
      rs.filter fun r => rank B k ≤ rank B r.1 :=
    List.filter_congr fun r _ => aodbmDataGe_eq B r.1 k
  exact ⟨rs, it', hlists, heval, hver, hfilter ▸ hit'⟩

theorem entry_known (h : Means B w s a) {v : Nat} (hv : w.Known v) : ∃ e, a.entry v = some e := by
  obtain ⟨t, ht, rfl⟩ := hv
  exact ⟨_, h.entry_snap ht⟩

/-- A version behind the end of the file is not there. -/
theorem fresh (h : Means B w s a) {v : Nat} (hv : w.db.file.length < v) : a.entry v = none := by
  by_contra hne
  obtain ⟨e, _, hmem⟩ := h.snap hne
  obtain ⟨rs, hrs, _⟩ := h.inv.contents hmem
  have hlt : v ≠ 0 → v + 8 < w.db.file.length := hrs.ver_lt
  omega

/-! ## The stream -/

/-- What a function does to the stream. -/
theorem stream (h : Means B w s a) {p : Op α} {x : α} (he : eval p w.db = .ok (x, db)) :
    ∃ t : Stream, run Stream.handle p s.stream = .ok (x, t) ∧ t.db = db ∧ t.Ok ∧
      s.stream.flushed ≤ t.flushed := by
  rw [← h.db] at he
  obtain ⟨t, ht, hdb⟩ := stream_of_eval he
  obtain ⟨hok, hfl⟩ := h.ok.run ht
  exact ⟨t, ht, hdb, hok, hfl⟩

/-- A function that has only read. -/
theorem after (h : Means B w s a) {t : Stream} (hdb : t.db = w.db) (hok : t.Ok)
    (hfl : s.stream.flushed ≤ t.flushed) : Means B w { s with stream := t } a :=
  { h with
    db := hdb
    ok := hok
    committed := fun c hc => Nat.le_trans (h.committed c hc) hfl }

/-- A cursor was opened or moved. -/
theorem withCursors (h : Means B w s a) {its : List Iterator} {cs : List (Cursor Nat Data Data)}
    (hcs : List.Forall₂ (CursorAt B w.db.file) its cs) (hopened : ∀ c ∈ cs, w.Known c.ver) :
    Means B w ⟨s.stream, its⟩ (a.withCursors cs) :=
  { h with
    entry := h.entry
    current := h.current
    cursors := hcs
    opened := hopened }

end Means

/-- The commits after a call: no new one, or one whose record ends the file. -/
def Logged (B : Build) (w w' : World) : Prop :=
  w'.commits = w.commits ∨ ∃ v, v < 2 ^ 64 ∧
    w'.db.file = w.db.file ++ Block.enc B (.version v) ∧
    w'.commits = ⟨v, w'.db.file.length⟩ :: w.commits

/-- The call is answered as by the store, or the file would get too long. -/
def Answered (B : Build) (w : World) (s : Session) (a : Store Nat Data Data) (c : Session.Call) :
    Prop :=
  s.perform B c = .error .osError ∨ ∃ r s', s.perform B c = .ok (r, s') ∧
    (s.Short s' → ∃ w' a', a.Step (aodbmDataLt B) c r a' ∧ Means B w' s' a' ∧ Logged B w w')

namespace Means

/-! ## Calls that only read -/

theorem read (h : Means B w s a) {p : Op α} {x : α} (he : eval p w.db = .ok (x, w.db))
    {c : Session.Call} (reply : α → Session.Reply) (hc : s.perform B c = s.run p reply)
    (hstep : a.Step (aodbmDataLt B) c (reply x) a) : Answered B w s a c := by
  obtain ⟨t, ht, hdb, hok, hfl⟩ := h.stream he
  refine Or.inr ⟨reply x, { s with stream := t }, ?_, fun _ => ⟨w, a, hstep, ?_, Or.inl rfl⟩⟩
  · rw [hc, Session.run, ht]
    rfl
  · exact h.after hdb hok hfl

/-- A new iterator. -/
theorem open_ (h : Means B w s a) {p : Op Iterator} {it : Iterator}
    (he : eval p w.db = .ok (it, w.db)) {d : Cursor Nat Data Data}
    (hit : CursorAt B w.db.file it d) (hk : w.Known d.ver)
    {c : Session.Call} (hc : s.perform B c = s.openIterator p)
    (hstep : a.Step (aodbmDataLt B) c (.cursor a.cursors.length)
      (a.withCursors (a.cursors ++ [d]))) : Answered B w s a c := by
  obtain ⟨t, ht, hdb, hok, hfl⟩ := h.stream he
  refine Or.inr ⟨.cursor s.iters.length, ⟨t, s.iters ++ [it]⟩, ?_, fun _ =>
    ⟨w, a.withCursors (a.cursors ++ [d]), ?_, ?_, Or.inl rfl⟩⟩
  · rw [hc, Session.openIterator, ht]
    rfl
  · rw [h.cursors.length_eq]
    exact hstep
  · refine (h.after hdb hok hfl).withCursors ?_ fun d' hd' => ?_
    · exact List.rel_append h.cursors (.cons hit .nil)
    · rcases List.mem_append.mp hd' with hd' | hd'
      · exact h.opened d' hd'
      · exact List.mem_singleton.mp hd' ▸ hk

/-- An iterator that was moved in place. -/
theorem move (h : Means B w s a) {p : Iterator → Op (α × Iterator)} {x : α} {i : Nat}
    {it it' : Iterator} (hi : s.iters[i]? = some it) (he : eval (p it) w.db = .ok ((x, it'), w.db))
    {d : Cursor Nat Data Data} (hit : CursorAt B w.db.file it' d) (hk : w.Known d.ver)
    {c : Session.Call} (reply : α → Session.Reply)
    (hc : s.perform B c = s.moveIterator i p reply)
    (hstep : a.Step (aodbmDataLt B) c (reply x) (a.withCursors (a.cursors.set i d))) :
    Answered B w s a c := by
  obtain ⟨t, ht, hdb, hok, hfl⟩ := h.stream he
  refine Or.inr ⟨reply x, ⟨t, s.iters.set i it'⟩, ?_, fun _ =>
    ⟨w, a.withCursors (a.cursors.set i d), hstep, ?_, Or.inl rfl⟩⟩
  · rw [hc, Session.moveIterator, hi]
    show (run Stream.handle (p it) s.stream).map _ = _
    rw [ht]
    rfl
  · refine (h.after hdb hok hfl).withCursors (forall₂_set h.cursors hit i) fun d' hd' => ?_
    rcases List.mem_or_eq_of_mem_set hd' with hd' | rfl
    · exact h.opened d' hd'
    · exact hk

/-! ## Calls that write -/

/-- A call that the system refuses. -/
theorem refused (h : Means B w s a) {p : Op α} (he : eval p w.db = .error .osError)
    {c : Session.Call} (reply : α → Session.Reply) (hc : s.perform B c = s.run p reply) :
    Answered B w s a c := by
  rw [← h.db] at he
  left
  rw [hc, Session.run, stream_error he]
  rfl

/-- An update appends a block. -/
theorem update (h : Means B w s a) {p : Op Nat} {v ver : Nat} {new : List Rec} {payload : Data}
    {f : Data → Option Data} (hu : Updates B w.db ver new p payload v)
    (hnext : ∀ db, eval p w.db = .ok (v, db) →
      Step B w { w with db := db, snaps := ⟨v, ver, f⟩ :: w.snaps })
    {c : Session.Call} (hc : s.perform B c = s.run p .version)
    (hstep : a.entry v = none → a.Step (aodbmDataLt B) c (.version v) (a.add v ⟨ver, f⟩)) :
    Answered B w s a c := by
  by_cases hfits : w.db.file.length + (Block.enc B (.data payload)).length < 2 ^ 63
  swap
  · exact h.refused (by rw [hu.run, if_neg hfits]) .version hc
  have he := hu.run
  rw [if_pos hfits] at he
  generalize w.db.append (Block.enc B (.data payload)) = db at he
  obtain ⟨t, ht, hdb, hok, hfl⟩ := h.stream he
  refine Or.inr ⟨.version v, { s with stream := t }, ?_, fun hshort => ?_⟩
  · rw [hc, Session.run, ht]
    rfl
  · have hlen : db.file.length < w.db.file.length + (5 + 2 ^ 32) := by
      rw [Session.Short, h.db] at hshort
      exact hdb ▸ hshort
    have happ := hu.returned he hlen
    have hfresh := h.fresh happ.above
    have hfile : w.db.file <+: db.file := eval_prefix he
    have hshortStep : ShortStep B w _ := ⟨hnext db he, hlen⟩
    refine ⟨_, a.add v ⟨ver, f⟩, hstep hfresh, {
      inv := h.inv.step hshortStep
      tidy := h.tidy.step h.inv hshortStep
      db := hdb
      entry := fun u e => ?_
      current := ?_
      cursors := h.cursors.imp fun _ _ hit => hit.mono hfile
      opened := fun d hd => (h.opened d hd).cons _ _
      ok := hok
      committed := fun d hd => Nat.le_trans (h.committed d hd) hfl }, Or.inl rfl⟩
    · show Function.update a.entry v (some ⟨ver, f⟩) u = some e ↔ _
      rw [Function.update_apply, List.mem_cons]
      split
      · next huv =>
        -- no other version is there
        subst huv
        have hno : Snapshot.mk u e.parent e.contents ∉ w.snaps := fun hmem => by
          rw [(h.entry u e).mpr hmem] at hfresh
          cases hfresh
        obtain ⟨q, g⟩ := e
        simp [hno, eq_comm]
      · next huv =>
        rw [h.entry]
        simp [huv]
    · rw [happ.written]
      exact h.current

/-- A commit that was accepted has its record in the file, and not in the buffer. -/
theorem commit (h : Means B w s a) {t : Snapshot} (ht : t ∈ w.snaps)
    (hrun : eval (aodbmCommit B t.ver) w.db = .ok (true, db)) :
    Answered B w s a (.commit t.ver) := by
  obtain ⟨hr, hdb⟩ := h.inv.commit_returned ht hrun
  rw [if_pos rfl] at hdb
  have hbased : a.BasedOn t.ver a.current := by
    rw [h.basedOn_iff, h.current]
    exact hr.mp rfl
  have hfile : db.file = w.db.file ++ Block.enc B (.version t.ver) := by rw [hdb]; rfl
  have hnext : ShortStep B w
      { w with db := db, commits := ⟨t.ver, db.file.length⟩ :: w.commits } := by
    refine ⟨.commit ht hrun, ?_⟩
    show db.file.length < _
    rw [hfile, List.length_append, version_enc_length]
    omega
  obtain ⟨st, hst, hstdb, hok, hfl⟩ := h.stream hrun
  have hgrows := eval_prefix hrun
  refine Or.inr ⟨.flag true, { s with stream := st }, ?_, fun _ =>
    ⟨{ w with db := db, commits := ⟨t.ver, db.file.length⟩ :: w.commits },
      { a with current := t.ver }, .commit (h.entry_snap ht) hbased, {
      inv := h.inv.step hnext
      tidy := h.tidy.step h.inv hnext
      db := hstdb
      entry := h.entry
      current := by rw [hdb]
      cursors := h.cursors.imp fun _ _ hit => hit.mono hgrows
      opened := h.opened
      ok := hok
      committed := ?_ }, Or.inr ⟨t.ver, ?_, hfile, rfl⟩⟩⟩
  · show (run Stream.handle (aodbmCommit B t.ver) s.stream).map _ = _
    rw [hst]
    rfl
  · intro c hc
    cases hc
    show db.file.length ≤ st.flushed
    rw [flushed_commit hst, hstdb]
  · exact lt_trans (h.inv.headers.bound ⟨t, ht, rfl⟩) (by decide)

/-- Every call that clients may ask for is answered as by the store. -/
theorem perform (h : Means B w s a) {c : Session.Call} (hc : a.Asks c) : Answered B w s a c := by
  have hw := h.inv
  have hf := hw.synced.bound
  cases c with
  | set ver k x =>
    obtain ⟨e, he, hmem⟩ := h.snap hc
    obtain ⟨rs, hrs, _⟩ := h.lists he
    obtain ⟨payload, root, hu⟩ := hrs.set hw.synced k x
    exact h.update hu (fun db hrun => .set hmem hrun) rfl fun hfresh => .set he hfresh
  | del ver k =>
    obtain ⟨e, he, hmem⟩ := h.snap hc
    obtain ⟨rs, hrs, _, hq⟩ := h.lists he
    cases hk : rs.lookup k with
    | none =>
      exact h.read (hrs.del_absent hw.synced hk) .version rfl
        (.delAbsent he ((hq k).trans hk))
    | some y =>
      have hpresent : e.contents k ≠ none := by
        rw [hq, hk]
        exact Option.some_ne_none y
      obtain ⟨payload, root, hu⟩ := hrs.del hw.synced (k := k) (by rw [hk]; rfl)
      refine h.update hu (fun db hrun => ?_) rfl fun hfresh => .del he hpresent hfresh
      have hne : root ≠ ver := by
        rintro rfl
        rw [h.fresh hu.above] at he
        cases he
      have hstep := Step.del hmem hrun
      rw [if_neg hne] at hstep
      exact hstep
  | get ver k =>
    obtain ⟨e, he, _⟩ := h.snap hc
    obtain ⟨rs, hrs, _, hq⟩ := h.lists he
    exact h.read (hrs.get hw.synced k) .value rfl (hq k ▸ .get he)
  | has ver k =>
    obtain ⟨e, he, _⟩ := h.snap hc
    obtain ⟨rs, hrs, _, hq⟩ := h.lists he
    exact h.read (hrs.has hw.synced k) .flag rfl (hq k ▸ .has he)
  | current =>
    exact h.read eval_current .version rfl (h.current ▸ .current)
  | commit ver =>
    obtain ⟨e, he, hmem⟩ := h.snap hc
    obtain ⟨r, hr, heval⟩ := eval_commit hw.headers (h.known hc)
    replace hr : r = true ↔ a.BasedOn ver a.current := by
      rw [h.basedOn_iff, h.current]
      exact hr
    cases r with
    | false => exact h.read heval .flag rfl (.reject he (by simpa using hr))
    | true =>
      rw [if_pos rfl] at heval
      split at heval
      · exact h.commit hmem heval
      · exact h.refused heval .flag rfl
  | isBasedOn u v =>
    obtain ⟨r, heval, hr⟩ := eval_isBasedOn hw.headers (h.known hc.1) v
    rw [show Based w.Parent u v ↔ a.BasedOn u v from (h.basedOn_iff u v).symm] at hr
    exact h.read heval .flag rfl (.isBasedOn hr)
  | previousVersion ver =>
    obtain ⟨p, hp, _⟩ := hw.headers.parent (h.known hc.1) hc.2
    have heval := hw.headers.eval_previous (h.known hc.1) hp
    rw [← h.parent_iff] at hp
    exact h.read heval .version rfl (.previousVersion hp)
  | commonAncestor u v =>
    obtain ⟨x, heval, hu, hv, hd⟩ :=
      eval_commonAncestor hw.headers (h.known hc.1) (h.known hc.2)
    refine h.read heval .version rfl (.commonAncestor ?_ ?_ fun d hud hvd => ?_)
    · exact (h.basedOn_iff u x).mpr hu
    · exact (h.basedOn_iff v x).mpr hv
    · exact (h.basedOn_iff x d).mpr
        (hd d ((h.basedOn_iff u d).mp hud) ((h.basedOn_iff v d).mp hvd))
  | newIterator ver =>
    obtain ⟨e, he, _⟩ := h.snap hc
    obtain ⟨rs, hrs, hlists, _⟩ := h.lists he
    obtain ⟨it, heval, hit, hver⟩ := hrs.newIterator hf
    have hcur : CursorAt B w.db.file it ⟨ver, rs⟩ := ⟨hver, hit⟩
    exact h.open_ heval hcur (h.known hc) rfl (.newIterator he hlists)
  | iterateFrom ver k =>
    obtain ⟨e, he, _⟩ := h.snap hc.1
    have hver : Iterator.ver ⟨[], ver⟩ = ver := rfl
    obtain ⟨rs, it, hlists, heval, hit⟩ := h.goto he hc.2 hver k
    exact h.open_ heval hit (h.known hc.1) rfl (.iterateFrom he hlists)
  | iteratorGoto i k =>
    obtain ⟨d, hd, h0⟩ := hc
    obtain ⟨it, hi, hit⟩ := forall₂_getElem? h.cursors hd
    obtain ⟨e, he⟩ := h.entry_known (h.opened d (List.mem_of_getElem? hd))
    obtain ⟨rs, it', hlists, heval, hit'⟩ := h.goto he h0 hit.ver k
    have hmove : eval (Prod.mk () <$> aodbmIteratorGoto B it k) w.db = .ok (((), it'), w.db) := by
      rw [eval, run_map, show run Db.handle _ w.db = _ from heval]
    exact h.move hi hmove hit' (h.opened d (List.mem_of_getElem? hd))
      (fun _ => .moved) rfl (.iteratorGoto hd he hlists)
  | iteratorNext i =>
    obtain ⟨d, hd⟩ := hc
    obtain ⟨it, hi, hit⟩ := forall₂_getElem? h.cursors hd
    obtain ⟨it', heval, hit', hver⟩ := hit.at_.next hf
    have hcur : CursorAt B w.db.file it' ⟨d.ver, d.rest.tail⟩ := ⟨hver.trans hit.ver, hit'⟩
    exact h.move hi heval hcur (h.opened d (List.mem_of_getElem? hd)) .record rfl
      (.iteratorNext hd)

/-! ## The end of a process -/

/-- The next process finds what the store keeps. -/
theorem killed (h : Means B w s a) {P : Data} (hP : P <+: w.db.file)
    (hfin : ∀ c ∈ w.commits.head?, c.fin ≤ P.length) (hopen : aodbmOpen B P = .ok db) :
    ∃ w' a', a.Survives a' ∧ Means B w' (Session.start db) a' := by
  classical
  obtain ⟨done, todo, w', hrem, hkilled, hopen'⟩ := h.inv.killed h.tidy hP hfin
  obtain rfl : w'.db = db := Except.ok.inj (hopen'.symm.trans hopen)
  have hcur : w'.db.cur = w.db.cur := by
    rw [hkilled.db]
    exact hrem.cur
  let left : Store Nat Data Data :=
    ⟨fun v => if a.BasedOn a.current v then a.entry v else none, a.current, []⟩
  have hentry : ∀ v e, left.entry v = some e ↔ a.entry v = some e ∧ a.BasedOn a.current v := by
    intro v e
    by_cases hv : a.BasedOn a.current v <;> simp [left, hv]
  refine ⟨w', left, ⟨hentry, rfl, rfl⟩, {
    inv := hkilled.inv hrem
    tidy := hkilled.tidy hrem
    db := rfl
    entry := fun v e => ?_
    current := h.current.trans hcur.symm
    cursors := .nil
    opened := fun c hc => absurd hc List.not_mem_nil
    ok := Nat.le_refl _
    committed := fun c hc => ?_ }⟩
  · rw [hentry, h.entry, hkilled.snaps, h.current, h.basedOn_iff]
  · rw [hkilled.commits] at hc
    show c.fin ≤ w'.db.file.length
    rw [hkilled.db]
    exact hrem.fin c hc

/-- A process that is killed while it writes a block: without the whole block nothing of it is
found. -/
theorem killed_torn (h : Means B w s a) {rest P : Data} (hrest : Torn B rest)
    (hP : P <+: w.db.file ++ rest) (hleft : s.stream.flushed ≤ P.length)
    (hopen : aodbmOpen B P = .ok db) :
    ∃ w' a', a.Survives a' ∧ Means B w' (Session.start db) a' := by
  by_cases hle : P.length ≤ w.db.file.length
  · have hpre : P <+: w.db.file :=
      List.prefix_of_prefix_length_le hP (List.prefix_append _ _) hle
    exact h.killed hpre (fun c hc => Nat.le_trans (h.committed c hc) hleft) hopen
  · -- the blocks before it are complete
    obtain ⟨bs, hbs⟩ := h.inv.layout
    have hpre : w.db.file <+: P :=
      List.prefix_of_prefix_length_le (List.prefix_append _ _) hP (by omega)
    obtain ⟨R, rfl⟩ := hpre
    have htorn : Torn B R := hrest.mono ((List.prefix_append_right_inj _).mp hP)
    have hsame : aodbmOpen B (w.db.file ++ R) = aodbmOpen B w.db.file := by
      have hall := openBlocks hbs.fits htorn
      have hnone := openBlocks hbs.fits (torn_nil (B := B))
      rw [List.append_nil] at hnone
      rw [hbs.file, hall, hnone]
    rw [hsame] at hopen
    refine h.killed (List.prefix_refl _) (fun c hc => ?_) hopen
    exact Nat.le_trans (h.committed c hc) (h.db ▸ h.ok)

/-- Without the whole record the commit has not been made. -/
theorem killed_record (h : Means B w s a) {v : Nat} (hv : v < 2 ^ 64) {P : Data}
    (hP : P <+: w.db.file ++ Block.enc B (.version v))
    (hlt : P.length < (w.db.file ++ Block.enc B (.version v)).length)
    (hleft : s.stream.flushed ≤ P.length) (hopen : aodbmOpen B P = .ok db) :
    ∃ w' a', a.Survives a' ∧ Means B w' (Session.start db) a' := by
  by_cases hle : P.length ≤ w.db.file.length
  · have hpre : P <+: w.db.file ++ [] := by
      rw [List.append_nil]
      exact List.prefix_of_prefix_length_le hP (List.prefix_append _ _) hle
    exact h.killed_torn torn_nil hpre hleft hopen
  · have hpre : w.db.file <+: P :=
      List.prefix_of_prefix_length_le (List.prefix_append _ _) hP (by omega)
    obtain ⟨R, rfl⟩ := hpre
    have htorn : Torn B R := by
      refine ⟨.version v, hv, (List.prefix_append_right_inj _).mp hP, ?_⟩
      simp only [List.length_append] at hlt
      omega
    exact h.killed_torn htorn List.prefix_rfl hleft hopen

/-- Every event of a session is one of the store. -/
theorem next (h : Means B w s a) {e : Session.Event} (hmay : a.Admits e)
    (hnext : Session.Next B s e s') :
    ∃ a', Store.Next (aodbmDataLt B) a e a' ∧ ∃ w', Means B w' s' a' := by
  cases hnext with
  | call run hshort =>
    rcases h.perform hmay with herr | ⟨r', s'', hr, hstep⟩
    · rw [herr] at run
      cases run
    · rw [hr] at run
      cases run
      obtain ⟨w', a', hcall, hmeans, _⟩ := hstep hshort
      exact ⟨a', .call hcall, w', hmeans⟩
  | kill pending cut left opened =>
    obtain ⟨w', a', hsurv, hmeans⟩ := h.killed (h.db ▸ cut)
      (fun c hc => Nat.le_trans (h.committed c hc) left) opened
    exact ⟨a', .kill pending hsurv, w', hmeans⟩
  | killIn run hshort cut left opened =>
    rcases h.perform hmay with herr | ⟨r', s'', hr, hstep⟩
    · rw [herr] at run
      cases run
    · rw [hr] at run
      cases run
      obtain ⟨w₁, a₁, hcall, hmeans, hlog⟩ := hstep hshort
      rw [hmeans.db] at cut
      have hold : ∀ c ∈ w.commits.head?, c.fin ≤ _ := fun c hc =>
        Nat.le_trans (h.committed c hc) left
      rcases hlog with hsame | ⟨v, hv, hfile, hcommits⟩
      · obtain ⟨w', a', hsurv, hmeans'⟩ := hmeans.killed cut (hsame ▸ hold) opened
        exact ⟨a', .killDone hcall hsurv, w', hmeans'⟩
      · rcases Nat.lt_or_ge (List.length _) (List.length w₁.db.file) with hlt | hge
        · rw [hfile] at cut hlt
          obtain ⟨w', a', hsurv, hmeans'⟩ := h.killed_record hv cut hlt left opened
          exact ⟨a', .kill _ hsurv, w', hmeans'⟩
        · obtain ⟨w', a', hsurv, hmeans'⟩ := hmeans.killed cut (fun c hc => by
            rw [hcommits] at hc
            cases hc
            exact hge) opened
          exact ⟨a', .killDone hcall hsurv, w', hmeans'⟩

end Means

theorem simulation (B : Build) : Simulation (Session.Next B) (Store.Next (aodbmDataLt B))
    Store.Admits fun s a => ∃ w, Means B w s a where
  follows := fun ⟨_, h⟩ hmay hnext => h.next hmay hnext

/-! ## A session that is killed -/

/-- The file with one version, which is committed. -/
def oneFile : Data := shortFile.take 28 ++ [118, 0, 0, 0, 0, 0, 0, 0, 5]

def oneSet : Session.Event := .call (.set 0 [2] [20]) (.version 5)

def oneCommit : Session.Event := .call (.commit 5) (.flag true)

/-- The process is killed while the second key is set. -/
def oneKill : Session.Event := .kill (some (.set 5 [1] [10]))

theorem oneGuarded : Guarded (Store.Next (aodbmDataLt smallBuild)) Store.Admits Store.empty
    [oneSet, oneCommit, oneKill] := by
  have hknown : (Store.empty : Store Nat Data Data).entry 0 ≠ none := by simp [Store.empty]
  refine guarded_cons hknown fun t₁ h₁ => ?_
  have h5 : t₁.entry 5 ≠ none := by
    cases h₁ with
    | call step =>
      cases step
      simp [Store.add]
  refine guarded_cons h5 fun t₂ h₂ => ?_
  have h5' : t₂.entry 5 ≠ none := by
    cases h₂ with
    | call step =>
      cases step
      exact h5
  exact guarded_cons h5' fun _ _ => guarded_nil

def oneSession : Session := ⟨⟨⟨shortFile.take 28, 28, 0⟩, 0⟩, []⟩

theorem oneStep : Session.Next smallBuild (Session.start Db.empty) oneSet oneSession :=
  .call (by decide +kernel) (by decide +kernel)

theorem oneCommitStep : Session.Next smallBuild oneSession oneCommit
    (Session.start ⟨oneFile, 37, 5⟩) := .call (by decide +kernel) (by decide +kernel)

/-- The block of the second key is torn. -/
theorem oneKillStep : Session.Next smallBuild (Session.start ⟨oneFile, 37, 5⟩) oneKill
    (Session.start ⟨oneFile, 37, 5⟩) := by
  have hrun : (Session.start ⟨oneFile, 37, 5⟩).perform smallBuild (.set 5 [1] [10]) =
      .ok (.version 42, ⟨⟨⟨oneFile ++ [100, 0, 0, 0, 33, 0, 0, 0, 0, 0, 0, 0, 5, 108, 0, 0, 0, 2,
        0, 0, 0, 1, 1, 0, 0, 0, 1, 10, 0, 0, 0, 1, 2, 0, 0, 0, 1, 20], 75, 5⟩, 37⟩, []⟩) := by
    decide +kernel
  refine .killIn (P := oneFile ++ [100, 0, 0, 0, 33, 0]) hrun (by decide +kernel) ⟨_, rfl⟩ ?_ ?_
  · decide +kernel
  · decide +kernel

/-! ## Runs -/

variable {es fs : List Session.Event}

/-- A session whose clients ask for what the store has runs as the store of versions does, over
any number of processes, and every call that is asked for next is answered as by the store, or
the file would get too long. -/
theorem store_refined (hguard : Guarded (Store.Next (aodbmDataLt B)) Store.Admits Store.empty es)
    (hrun : Runs (Session.Next B) (Session.start Db.empty) es s) :
    ∃ a, Runs (Store.Next (aodbmDataLt B)) Store.empty es a ∧ ∀ c, a.Asks c →
      s.perform B c = .error .osError ∨ ∃ r s', s.perform B c = .ok (r, s') ∧
        (s.Short s' → ∃ a', a.Step (aodbmDataLt B) c r a') := by
  obtain ⟨a, hstore, w, hmeans⟩ := (simulation B).runs ⟨_, Means.init⟩ hguard hrun
  refine ⟨a, hstore, fun c hc => ?_⟩
  rcases hmeans.perform hc with herr | ⟨r, s', hr, hstep⟩
  · exact Or.inl herr
  · refine Or.inr ⟨r, s', hr, fun hshort => ?_⟩
    obtain ⟨_, a', hcall, _⟩ := hstep hshort
    exact ⟨a', hcall⟩

/-- The session that is killed is one of the store. -/
theorem store_refined_killed :
    ∃ a, Runs (Store.Next (aodbmDataLt smallBuild)) Store.empty [oneSet, oneCommit, oneKill] a ∧
      ∀ c, a.Asks c → (Session.start ⟨oneFile, 37, 5⟩).perform smallBuild c = .error .osError ∨
        ∃ r s', (Session.start ⟨oneFile, 37, 5⟩).perform smallBuild c = .ok (r, s') ∧
          ((Session.start ⟨oneFile, 37, 5⟩).Short s' →
            ∃ a', a.Step (aodbmDataLt smallBuild) c r a') :=
  store_refined oneGuarded (.cons oneStep (.cons oneCommitStep (.cons oneKillStep (.nil _))))

/-- The call is answered. -/
def Session.Answers (B : Build) (s : Session) (c : Session.Call) (r : Session.Reply) : Prop :=
  ∃ s', s.perform B c = .ok (r, s')

theorem Means.answers (h : Means B w s a) {p : Op α} {x : α} (he : eval p w.db = .ok (x, w.db))
    {c : Session.Call} (reply : α → Session.Reply) (hc : s.perform B c = s.run p reply) :
    s.Answers B c (reply x) := by
  obtain ⟨t, ht, _⟩ := h.stream he
  refine ⟨{ s with stream := t }, ?_⟩
  rw [hc, Session.run, ht]
  rfl

theorem Means.get (h : Means B w s a) {v : Nat} {e : VersionStores.Entry Nat Data Data}
    (he : a.entry v = some e) (k : Data) : s.Answers B (.get v k) (.value (e.contents k)) := by
  obtain ⟨rs, hrs, _, hq⟩ := h.lists he
  have heval := hrs.get h.inv.synced k
  rw [← hq k] at heval
  exact h.answers heval .value rfl

/-- An accepted commit is kept: in every later state of this process and of those behind it the
current version is based on the version, and a lookup in it answers as it did at the commit. -/
theorem commit_durable {v : Nat} {s₁ s₂ : Session}
    (hguard : Guarded (Store.Next (aodbmDataLt B)) Store.Admits Store.empty
      (es ++ .call (.commit v) (.flag true) :: fs))
    (hes : Runs (Session.Next B) (Session.start Db.empty) es s₁)
    (hcommit : Session.Next B s₁ (.call (.commit v) (.flag true)) s₂)
    (hfs : Runs (Session.Next B) s₂ fs s) :
    (∃ u, s.Answers B .current (.version u) ∧ s.Answers B (.isBasedOn u v) (.flag true)) ∧
      ∀ k, ∃ x, s₁.Answers B (.get v k) (.value x) ∧ s.Answers B (.get v k) (.value x) := by
  obtain ⟨hguard₁, hrest⟩ := hguard.split
  obtain ⟨a₁, hrun₁, w₁, hmeans₁⟩ := (simulation B).runs ⟨_, Means.init⟩ hguard₁ hes
  obtain ⟨hmay, hguard₂⟩ := (hrest a₁ hrun₁).cons
  obtain ⟨a₂, hspec, hmeans₂⟩ := (simulation B).follows ⟨w₁, hmeans₁⟩ hmay hcommit
  obtain ⟨a, hrun, w, hmeans⟩ := (simulation B).runs hmeans₂ (hguard₂ a₂ hspec) hfs
  cases hspec with
  | call step =>
    obtain ⟨e, he, hholds⟩ := Store.committed_kept step hrun
    refine ⟨⟨w.db.cur, hmeans.answers eval_current .version rfl, ?_⟩, fun k =>
      ⟨e.contents k, hmeans₁.get he k, hmeans.get hholds.entry k⟩⟩
    obtain ⟨r, heval, hr⟩ := eval_isBasedOn hmeans.inv.headers hmeans.inv.cur v
    have hbased : Based w.Parent w.db.cur v := by
      have hstore := hholds.based
      rw [hmeans.basedOn_iff, hmeans.current] at hstore
      exact hstore
    rw [hr.mpr hbased] at heval
    exact hmeans.answers heval .flag rfl

/-- The committed version is the current one of the next process. -/
theorem commit_durable_killed :
    (∃ u, (Session.start ⟨oneFile, 37, 5⟩).Answers smallBuild .current (.version u) ∧
      (Session.start ⟨oneFile, 37, 5⟩).Answers smallBuild (.isBasedOn u 5) (.flag true)) ∧
    ∀ k, ∃ x, oneSession.Answers smallBuild (.get 5 k) (.value x) ∧
      (Session.start ⟨oneFile, 37, 5⟩).Answers smallBuild (.get 5 k) (.value x) :=
  @commit_durable smallBuild _ [oneSet] [oneKill] 5 _ _ oneGuarded (.cons oneStep (.nil _))
    oneCommitStep (.cons oneKillStep (.nil _))

end Aodbm
