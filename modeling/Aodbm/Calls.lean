import Aodbm.Ancestors

/-!
# The public calls

Every call on versions and iterators that were obtained ends without an error, except that
an iterator over version 0 cannot be moved to a key.

Results:
1. `iters_zero`: an iterator over version 0 has an empty stack.
2. `calls_clean`: the calls that end well and treat version 0 as the empty database are
   those that do not seek at version 0.
-/

namespace Aodbm

open Effects Records Bytes History

variable (B : Build)

/-- The calls that take versions or iterators. -/
inductive Call where
  | has (ver : Nat) (key : Data)
  | get (ver : Nat) (key : Data)
  | set (ver : Nat) (key val : Data)
  | del (ver : Nat) (key : Data)
  | newIterator (ver : Nat)
  | iterateFrom (ver : Nat) (key : Data)
  | iteratorGoto (it : Iterator) (key : Data)
  | iteratorNext (it : Iterator)
  | isBasedOn (a b : Nat)
  | commonAncestor (a b : Nat)

/-- How the call ends, without its result. -/
def Call.outcome (db : Db) : Call → Except Err Unit
  | .has ver key => (eval (aodbmHas B ver key) db).map fun _ => ()
  | .get ver key => (eval (aodbmGet B ver key) db).map fun _ => ()
  | .set ver key val => (eval (aodbmSet B ver key val) db).map fun _ => ()
  | .del ver key => (eval (aodbmDel B ver key) db).map fun _ => ()
  | .newIterator ver => (eval (aodbmNewIterator B ver) db).map fun _ => ()
  | .iterateFrom ver key => (eval (aodbmIterateFrom B ver key) db).map fun _ => ()
  | .iteratorGoto it key => (eval (aodbmIteratorGoto B it key) db).map fun _ => ()
  | .iteratorNext it => (eval (aodbmIteratorNext B it) db).map fun _ => ()
  | .isBasedOn a b => (eval (aodbmIsBasedOn B a b) db).map fun _ => ()
  | .commonAncestor a b => (eval (aodbmCommonAncestor B a b) db).map fun _ => ()

/-- The versions are 0 or were returned, and the iterators were obtained. -/
def Call.Valid (w : World) : Call → Prop
  | .has ver _ | .get ver _ | .set ver _ _ | .del ver _ | .newIterator ver
  | .iterateFrom ver _ => w.Known ver
  | .iteratorGoto it _ => w.Known it.ver
  | .iteratorNext it => it ∈ w.iters
  | .isBasedOn a b | .commonAncestor a b => w.Known a ∧ w.Known b

/-- The iterator gives no record. -/
def Exhausted (db : Db) (it : Iterator) : Prop :=
  ∀ n, eval (drain B n it) db = .ok (List.replicate n none, db)

/-- A call at version 0 does what it does on an empty database. -/
def Call.Empty (db : Db) : Call → Prop
  | .has ver key => ver = 0 → eval (aodbmHas B ver key) db = .ok (false, db)
  | .get ver key => ver = 0 → eval (aodbmGet B ver key) db = .ok (none, db)
  | .set ver key val => ver = 0 → ∀ v db', eval (aodbmSet B ver key val) db = .ok (v, db') →
    db'.file.length < db.file.length + (5 + 2 ^ 32) →
    ∀ q, eval (aodbmGet B v q) db' = .ok (if q = key then some val else none, db')
  | .del ver key => ver = 0 → eval (aodbmDel B ver key) db = .ok (0, db)
  | .newIterator ver => ver = 0 →
    ∃ it, eval (aodbmNewIterator B ver) db = .ok (it, db) ∧ Exhausted B db it
  | .iterateFrom ver key => ver = 0 →
    ∃ it, eval (aodbmIterateFrom B ver key) db = .ok (it, db) ∧ Exhausted B db it
  | .iteratorGoto it key => it.ver = 0 →
    ∃ it', eval (aodbmIteratorGoto B it key) db = .ok (it', db) ∧ Exhausted B db it'
  | .iteratorNext it => it.ver = 0 → eval (aodbmIteratorNext B it) db = .ok ((none, it), db)
  | .isBasedOn a b => a = 0 → eval (aodbmIsBasedOn B a b) db = .ok (decide (b = 0), db)
  | .commonAncestor a b => a = 0 ∨ b = 0 → eval (aodbmCommonAncestor B a b) db = .ok (0, db)

/-- The call returns, or the file gets too long for it, and version 0 is the empty database. -/
def Call.Clean (db : Db) (c : Call) : Prop :=
  (c.outcome B db = .ok () ∨ c.outcome B db = .error .osError) ∧ c.Empty B db

/-- An iterator over version 0 is moved to a key. -/
def Call.SeeksZero : Call → Prop
  | .iterateFrom ver _ => ver = 0
  | .iteratorGoto it _ => it.ver = 0
  | _ => False

variable {B}
variable {w w' : World}

theorem outcome_ok {α : Type} {p : Op α} {db : Db} {r : α × Db} (h : eval p db = .ok r) :
    (eval p db).map (fun _ => ()) = .ok () := by
  rw [h]
  rfl

theorem outcome_error {α : Type} {p : Op α} {db : Db} {e : Err} (h : eval p db = .error e) :
    (eval p db).map (fun _ => ()) = .error e := by
  rw [h]
  rfl

/-! ## Iterators over version 0 -/

/-- What a step does to the iterators over version 0. -/
theorem Inv.iters_step (hw : Inv B w) (h : Step B w w')
    (hz : ∀ it ∈ w.iters, it.ver = 0 → it.path = []) :
    ∀ it ∈ w'.iters, it.ver = 0 → it.path = [] := by
  -- no seek of an iterator over version 0 returns
  have seek : ∀ {it it' : Iterator} {k : Data} {db : Db}, w.Known it.ver →
      eval (aodbmIteratorGoto B it k) w.db = .ok (it', db) → it'.ver = 0 → it'.path = [] := by
    intro it it' k db hk run h0
    obtain ⟨_, hver, _⟩ := hw.seek hk run
    rcases seek_zero (B := B) hw.front (hver.symm.trans h0) k with h | h
    · rw [h] at run
      cases run
    · rw [h] at run
      cases run
  cases h with
  | set _ _ => exact hz
  | del _ _ => exact hz
  | current _ => exact hz
  | commit _ _ => exact hz
  | reject _ _ => exact hz
  | @newIterator s it db known run =>
    intro it' hit' h0
    rcases List.mem_cons.mp hit' with rfl | hit'
    · obtain ⟨rs, hrs, _⟩ := hw.contents known
      obtain ⟨it'', heval, _, hver⟩ := hrs.newIterator hw.synced.bound
      rw [heval] at run
      cases run
      rw [← hver, h0] at heval
      cases heval
      rfl
    · exact hz it' hit' h0
  | @iterateFrom s k it db known run =>
    intro it' hit' h0
    rcases List.mem_cons.mp hit' with rfl | hit'
    · exact seek ⟨s, known, rfl⟩ run h0
    · exact hz it' hit' h0
  | @iteratorGoto it it₁ k db opened run =>
    intro it' hit' h0
    rcases List.mem_cons.mp hit' with rfl | hit'
    · exact seek (hw.iters it opened).1 run h0
    · exact hz it' hit' h0
  -- the stack was empty before the call, and such a call changes nothing
  | @iteratorNext it it₁ r db opened run =>
    intro it' hit' h0
    rcases List.mem_cons.mp hit' with rfl | hit'
    · obtain ⟨_, rem, hrem⟩ := hw.iters it opened
      obtain ⟨it₂, heval, _, hver⟩ := hrem.next hw.synced.bound
      rw [heval] at run
      cases run
      have hpath := hz it opened (hver.symm.trans h0)
      obtain ⟨path, ver⟩ := it
      cases hpath
      have hnext : eval (aodbmIteratorNext B ⟨[], ver⟩) w.db = .ok ((none, ⟨[], ver⟩), w.db) := rfl
      rw [hnext] at heval
      have h := Except.ok.inj heval
      rw [← (Prod.mk.inj (Prod.mk.inj h).1).2]
    · exact hz it' hit' h0

theorem iters_zero (hw : ReachableShort B w) : ∀ it ∈ w.iters, it.ver = 0 → it.path = [] := by
  induction hw with
  | refl => simp [World.init]
  | tail hrun hstep ih => exact (inv_of_reachable hrun).iters_step hstep.1 ih

theorem exhausted_nil (db : Db) (ver : Nat) : Exhausted B db ⟨[], ver⟩ := by
  intro n
  induction n with
  | zero => rfl
  | succ n ih =>
    have hnext : eval (aodbmIteratorNext B ⟨[], ver⟩) db = .ok ((none, ⟨[], ver⟩), db) := rfl
    rw [drain, eval, run_bind_ok hnext]
    simp only
    rw [run_bind_ok ih]
    rfl

/-! ## The calls -/

/-- An update ends well, or the file gets too long. -/
theorem Updates.outcome {db : Db} {ver : Nat} {new : List Rec} {op : Op Nat} {payload : Data}
    {root : Nat} (hu : Updates B db ver new op payload root) :
    (eval op db).map (fun _ => ()) = .ok () ∨ (eval op db).map (fun _ => ()) = .error .osError := by
  rw [hu.run]
  split
  · exact Or.inl rfl
  · exact Or.inr rfl

/-- The first record of an empty database is found, and nothing else. -/
theorem Updates.first_record {db db' : Db} {k x : Data} {payload : Data} {root v : Nat}
    (hdb : db.Synced) (hu : Updates B db 0 [(k, x)] (aodbmSet B 0 k x) payload root)
    (run : eval (aodbmSet B 0 k x) db = .ok (v, db'))
    (hshort : db'.file.length < db.file.length + (5 + 2 ^ 32)) (q : Data) :
    eval (aodbmGet B v q) db' = .ok (if q = k then some x else none, db') := by
  rw [hu.run] at run
  split at run
  · next hfits =>
    cases run
    have hlen : payload.length < 2 ^ 32 := by
      simp only [Db.append, List.length_append, data_enc_length] at hshort
      omega
    have hc : ContentsAt B (db.append (Block.enc B (.data payload))).file root [(k, x)] := by
      have := hu.above
      exact Or.inr ⟨by omega, (hu.version hlen).tree⟩
    have hsynced : Db.Synced (db.append (Block.enc B (.data payload))) :=
      ⟨by simp [Db.append, hdb.size], by simpa [Db.append] using hfits⟩
    have hget := hc.get hsynced q
    rw [lookup_cons_if] at hget
    exact hget
  · cases run

/-- A valid call returns, or finds the file too long, and takes version 0 for the empty
database, exactly when it is not a seek at version 0. -/
theorem calls_clean (hw : ReachableShort B w) {c : Call} (hc : c.Valid w) :
    c.Clean B w.db ↔ ¬ c.SeeksZero := by
  have hinv := inv_of_reachable hw
  have hf := hinv.synced.bound
  -- a seek at version 0 fails
  have zero : ∀ (it : Iterator) (k : Data), it.ver = 0 →
      ¬ ∃ it', eval (aodbmIteratorGoto B it k) w.db = .ok (it', w.db) ∧ Exhausted B w.db it' := by
    rintro it k h0 ⟨it', hgoto, _⟩
    rcases seek_zero (B := B) hinv.front h0 k with h | h <;> rw [h] at hgoto <;> cases hgoto
  -- any other one returns
  have seek : ∀ (it : Iterator) (k : Data), w.Known it.ver → it.ver ≠ 0 →
      ∃ it', eval (aodbmIteratorGoto B it k) w.db = .ok (it', w.db) := by
    rintro it k ⟨s, hs, hver⟩ h0
    obtain ⟨rs, hrs, _⟩ := hinv.contents hs
    rcases hrs with ⟨h, _⟩ | ⟨_, ht⟩
    · exact absurd (hver ▸ h) h0
    · obtain ⟨it', heval, _⟩ := eval_iteratorGoto ht hf hver.symm k
      exact ⟨it', heval⟩
  cases c with
  | has ver key =>
    obtain ⟨s, hs, rfl⟩ := hc
    obtain ⟨rs, hrs, _⟩ := hinv.contents hs
    exact iff_of_true ⟨Or.inl (outcome_ok (hrs.has hinv.synced key)), fun h => by rw [h]; rfl⟩ id
  | get ver key =>
    obtain ⟨s, hs, rfl⟩ := hc
    obtain ⟨rs, hrs, _⟩ := hinv.contents hs
    exact iff_of_true ⟨Or.inl (outcome_ok (hrs.get hinv.synced key)), fun h => by rw [h]; rfl⟩ id
  | set ver key val =>
    obtain ⟨s, hs, rfl⟩ := hc
    obtain ⟨rs, hrs, _⟩ := hinv.contents hs
    obtain ⟨payload, root, hu⟩ := hrs.set hinv.synced key val
    refine iff_of_true ⟨hu.outcome, fun h0 v db' run hshort q => ?_⟩ id
    obtain ⟨_, _, hz⟩ := ContentsAt.set (B := B) (Or.inl ⟨rfl, rfl⟩) hinv.synced key val
    rw [h0] at run
    exact hz.first_record hinv.synced run hshort q
  | del ver key =>
    obtain ⟨s, hs, rfl⟩ := hc
    obtain ⟨rs, hrs, _⟩ := hinv.contents hs
    refine iff_of_true ⟨?_, fun h => by rw [h]; rfl⟩ id
    cases hk : rs.lookup key with
    | none => exact Or.inl (outcome_ok (hrs.del_absent hinv.synced hk))
    | some y =>
      obtain ⟨payload, root, hu⟩ := hrs.del hinv.synced (k := key) (by rw [hk]; rfl)
      exact hu.outcome
  | newIterator ver =>
    obtain ⟨s, hs, rfl⟩ := hc
    obtain ⟨rs, hrs, _⟩ := hinv.contents hs
    obtain ⟨it, heval, _⟩ := hrs.newIterator hf
    refine iff_of_true ⟨Or.inl (outcome_ok heval), fun h0 => ?_⟩ id
    rw [h0]
    exact ⟨⟨[], 0⟩, rfl, exhausted_nil w.db 0⟩
  | iterateFrom ver key =>
    by_cases h0 : ver = 0
    · exact iff_of_false (fun h => zero ⟨[], ver⟩ key h0 (h.2 h0)) fun h => h h0
    · obtain ⟨it', heval⟩ := seek ⟨[], ver⟩ key hc h0
      exact iff_of_true ⟨Or.inl (outcome_ok heval), fun h => absurd h h0⟩ h0
  | iteratorGoto it key =>
    by_cases h0 : it.ver = 0
    · exact iff_of_false (fun h => zero it key h0 (h.2 h0)) fun h => h h0
    · obtain ⟨it', heval⟩ := seek it key hc h0
      exact iff_of_true ⟨Or.inl (outcome_ok heval), fun h => absurd h h0⟩ h0
  | iteratorNext it =>
    obtain ⟨_, rem, hrem⟩ := hinv.iters it hc
    obtain ⟨it', heval, _⟩ := hrem.next hf
    refine iff_of_true ⟨Or.inl (outcome_ok heval), fun h0 => ?_⟩ id
    have hpath := iters_zero hw it hc h0
    obtain ⟨path, ver⟩ := it
    cases hpath
    rfl
  | isBasedOn a b =>
    obtain ⟨r, heval, _⟩ := eval_isBasedOn hinv.headers hc.1 b
    refine iff_of_true ⟨Or.inl (outcome_ok heval), fun h0 => ?_⟩ id
    rw [h0, aodbmIsBasedOn, maxDepth_eq, isBasedOnRecursive]
    by_cases hb : b = 0
    · rw [if_pos hb, hb]
      rfl
    · rw [if_neg hb, if_pos rfl, decide_eq_false hb]
      rfl
  | commonAncestor a b =>
    obtain ⟨c, heval, _⟩ := eval_commonAncestor hinv.headers hc.1 hc.2
    refine iff_of_true ⟨Or.inl (outcome_ok heval), fun h0 => ?_⟩ id
    have hdepth : maxDepth * maxDepth = (2 ^ 128 - 1) + 1 := by decide
    rw [aodbmCommonAncestor, hdepth, commonAncestorRecursive]
    by_cases hab : a = b
    · rw [if_pos hab]
      have ha : a = 0 := by omega
      rw [ha]
      rfl
    · rw [if_neg hab, if_pos h0]
      rfl

/-- In the short run a seek at version 33 is clean, and one at version 0 is not. -/
theorem calls_clean_shortRun :
    (Call.iterateFrom 33 [2]).Clean smallBuild shortRun.db ∧
      ¬ (Call.iterateFrom 0 [2]).Clean smallBuild shortRun.db := by
  have h33 : (Call.iterateFrom 33 [2]).Valid shortRun := ⟨shortSecond, List.mem_cons_self, rfl⟩
  have h0 : (Call.iterateFrom 0 [2]).Valid shortRun :=
    ⟨⟨0, 0, fun _ => none⟩, by simp [shortRun], rfl⟩
  exact ⟨(calls_clean shortRun_reachable h33).mpr (by simp [Call.SeeksZero]),
    fun h => (calls_clean shortRun_reachable h0).mp h rfl⟩

/-- In an empty file `aodbm_iterate_from` at version 0 reads past the end, and after a first
update it takes a zero byte for a node. -/
theorem seek_at_zero :
    (∀ k, (Call.iterateFrom 0 k).outcome smallBuild Db.empty = .error .eof) ∧
      ∃ v db, eval (aodbmSet smallBuild 0 [] []) Db.empty = .ok (v, db) ∧
        (Call.iterateFrom 0 []).outcome smallBuild db = .error .unknownNodeType := by
  refine ⟨fun k => ?_, 5, ⟨[100, 0, 0, 0, 21, 0, 0, 0, 0, 0, 0, 0, 0, 108, 0, 0, 0, 1,
    0, 0, 0, 0, 0, 0, 0, 0], 26, 0⟩, by decide +kernel, ?_⟩
  · have htype : eval (readType (0 + 8)) Db.empty = .error .eof := eval_readType_eof (Nat.zero_le _)
    have hgoto : eval (iteratorGotoRecursive smallBuild k maxDepth [] (0 + 8)) Db.empty =
        .error .eof := by
      rw [maxDepth_eq, iteratorGotoRecursive, eval, run_bind_error htype]
    have heval : eval (aodbmIterateFrom smallBuild 0 k) Db.empty = .error .eof := by
      rw [aodbmIterateFrom, aodbmIteratorGoto, eval, run_bind_error hgoto]
    exact outcome_error heval
  · have heval : eval (aodbmIterateFrom smallBuild 0 []) ⟨[100, 0, 0, 0, 21, 0, 0, 0, 0, 0, 0, 0, 0,
        108, 0, 0, 0, 1, 0, 0, 0, 0, 0, 0, 0, 0], 26, 0⟩ = .error .unknownNodeType := by
      decide +kernel
    exact outcome_error heval

end Aodbm
