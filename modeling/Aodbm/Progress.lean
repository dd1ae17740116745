import Aodbm.Lib.Waiting
import Aodbm.Linear

/-!
# What the threads wait for

A call locks `version` before `rw`, never the other way round. All calls give back what they have
locked, except `aodbm_set`, which locks `rw` once more at its end.

Results:
1. `Hold.wp_demand`: the order in which a call locks, and what it leaves locked.
2. `some_busy`: without `aodbm_set`, a thread that waits waits for one that does not.
3. `one_setter`: `aodbm_set` returns in one thread at most, and then the others wait for ever.
-/

namespace Aodbm

open Effects Mutexes Interleaving

/-- How often the call has run `aodbm_set`. -/
def Demand.sets : Demand → Nat
  | .set .. => 1
  | _ => 0

/-- What was seen of one thread: the call that it is in, and how often `aodbm_set` has returned. -/
structure Seen where
  pending : Option Demand
  sets : Nat

def Seen.next (t : Thread) (y : Seen) : Visible Thread Demand Answer → Seen
  | .call u d => if u = t then { y with pending := some d } else y
  | .ret u _ => if u = t then ⟨none, y.sets + (y.pending.map Demand.sets).getD 0⟩ else y

def seenOf (t : Thread) (es : List (Visible Thread Demand Answer)) : Seen :=
  es.foldl (Seen.next t) ⟨none, 0⟩

/-- The call that the thread is in, how often it holds `rw` and held it when the call began, and
whether it holds `version`. -/
structure Hold where
  job : Option Demand
  depth : Nat
  base : Nat
  version : Bool

/-- `version` is locked only by a thread that does not hold `rw` for its call. -/
def holdSpec : Spec Eff Eff.Res Hold
  | .lockRw, Q, o => Q () { o with depth := o.depth + 1 }
  | .unlockRw, Q, o => o.base < o.depth ∧ Q () { o with depth := o.depth - 1 }
  | .lockVersion, Q, o => o.version = false ∧ o.depth = o.base ∧ Q () { o with version := true }
  | .unlockVersion, Q, o => o.version = true ∧ Q () { o with version := false }
  | _, Q, o => ∀ r, Q r o

theorem holdSpec_mono : holdSpec.Mono := by
  intro e Q Q' hQ o h
  cases e with
  | lockRw => exact hQ _ _ h
  | unlockRw => exact ⟨h.1, hQ _ _ h.2⟩
  | lockVersion => exact ⟨h.1, h.2.1, hQ _ _ h.2.2⟩
  | unlockVersion => exact ⟨h.1, hQ _ _ h.2⟩
  | _ => exact fun r => hQ _ _ (h r)

/-! ## The calls of a thread -/

namespace Hold

variable {B : Build} {o : Hold} {ver : Nat} {k v : Data}

theorem wp_read (off sz : Nat) (h : o.base ≤ o.depth) :
    wp holdSpec (aodbmRead off sz) (fun _ o' => o' = o) o := by
  intro bs
  refine ⟨Nat.lt_succ_of_le h, ?_⟩
  cases bs with
  | none => trivial
  | some bs => rfl

/-- What only reads gives back what it locks. -/
theorem wp_reads {α : Type} {Q : α → Prop} {f : Op α} (hf : Reads Q f) (h : o.base ≤ o.depth) :
    wp holdSpec f (fun _ o' => o' = o) o :=
  wp_mono holdSpec_mono (fun _ _ hend => hend.2)
    (hf.wp holdSpec_mono fun off sz => wp_read off sz h)

theorem wp_writeDataBlock (data : Data) (h : o.base ≤ o.depth) :
    wp holdSpec (aodbmWriteDataBlock B data) (fun _ o' => o' = o) o :=
  fun _ _ _ => ⟨Nat.lt_succ_of_le h, rfl⟩

theorem wp_writeVersion (ver : Nat) (h : o.base ≤ o.depth) :
    wp holdSpec (aodbmWriteVersion B ver) (fun _ o' => o' = o) o :=
  fun _ _ _ => ⟨Nat.lt_succ_of_le h, rfl⟩

/-- From the reading of `file_size` to the end of the write. -/
theorem wp_append {α : Type} {P : Nat → RootResult → Prop} {build : Nat → Op RootResult}
    {f : RootResult → Op α} {Q : α → Hold → Prop} (hbuild : ∀ pos, Reads (P pos) (build pos))
    (h : o.base ≤ o.depth) (hf : ∀ result, wp holdSpec (f result) Q o) :
    wp holdSpec (do
      let fileSize ← aodbmFileSize
      let result ← build (fileSize + 5)
      aodbmWriteDataBlock B result.dat
      f result) Q o := by
  intro n
  change wp holdSpec (build (n + 5) >>= _) _ _
  refine wp_seq holdSpec_mono (wp_reads (hbuild _) h) ?_
  rintro result _ rfl
  refine wp_seq holdSpec_mono (wp_writeDataBlock result.dat h) ?_
  rintro _ _ rfl
  exact hf result

/-- The thread holds what it held when the call began, and `aodbm_set` has locked `rw` twice. -/
structure Ends (d : Demand) (o : Hold) : Prop where
  job : o.job = some d
  depth : o.depth = o.base + 2 * d.sets
  version : o.version = false

/-- Between calls. -/
structure Ready (o : Hold) : Prop where
  job : o.job = none
  depth : o.depth = o.base
  version : o.version = false

theorem wp_set (hdepth : o.depth = o.base) : wp holdSpec (aodbmSet B ver k v)
    (fun _ o' => o' = { o with depth := o.depth + 2 }) o := by
  have hle : o.base ≤ o.depth + 1 := hdepth ▸ Nat.le_succ _
  show wp holdSpec (aodbmFileSize >>= _) _ { o with depth := o.depth + 1 }
  exact wp_append (reads_setResult B ver k v) hle fun _ => rfl

theorem wp_del (hdepth : o.depth = o.base) :
    wp holdSpec (aodbmDel B ver k) (fun _ o' => o' = o) o := by
  by_cases hver : ver = 0
  · rw [aodbmDel, if_pos hver]
    rfl
  · rw [aodbmDel, if_neg hver]
    refine wp_seq holdSpec_mono (wp_reads (reads_has B ver k) hdepth.ge) ?_
    rintro has o rfl
    cases has with
    | false => rfl
    | true =>
      have hlt : o.base < o.depth + 1 := hdepth ▸ Nat.lt_succ_self _
      show wp holdSpec (aodbmFileSize >>= _) _ { o with depth := o.depth + 1 }
      exact wp_append (reads_delResult B ver k) hlt.le fun _ => ⟨hlt, rfl⟩

theorem wp_commit (hdepth : o.depth = o.base) (hversion : o.version = false) :
    wp holdSpec (aodbmCommit B ver) (fun _ o' => o' = o) o := by
  have hsame : ({ o with version := false } : Hold) = o := by rw [← hversion]
  refine ⟨hversion, hdepth, fun cur => ?_⟩
  change wp holdSpec (aodbmIsBasedOn B ver cur >>= _) _ _
  refine wp_seq holdSpec_mono (wp_reads (reads_isBasedOn B ver cur) hdepth.ge) ?_
  rintro result _ rfl
  cases result with
  | false => exact ⟨rfl, hsame⟩
  | true =>
    refine wp_seq holdSpec_mono (wp_writeVersion ver hdepth.ge) ?_
    rintro _ _ rfl
    exact fun _ => ⟨rfl, hsame⟩

/-- The order in which a call locks, and what it leaves locked. -/
theorem wp_demand {d : Demand} (hjob : o.job = some d) (hdepth : o.depth = o.base)
    (hversion : o.version = false) : wp holdSpec (d.op B) (fun _ o' => o'.Ends d) o := by
  cases d with
  | set ver k v =>
    refine wp_seq holdSpec_mono (wp_set hdepth) ?_
    rintro _ _ rfl
    exact ⟨hjob, by rw [hdepth]; rfl, hversion⟩
  | del ver k =>
    refine wp_seq holdSpec_mono (wp_del hdepth) ?_
    rintro _ _ rfl
    exact ⟨hjob, hdepth, hversion⟩
  | commit ver =>
    refine wp_seq holdSpec_mono (wp_commit hdepth hversion) ?_
    rintro _ _ rfl
    exact ⟨hjob, hdepth, hversion⟩
  | current => exact ⟨hversion, hdepth, fun _ => ⟨rfl, hjob, hdepth, rfl⟩⟩
  | look l =>
    refine wp_mono holdSpec_mono ?_ (wp_reads (reads_look l) hdepth.ge)
    rintro _ _ rfl
    exact ⟨hjob, hdepth, hversion⟩

end Hold

/-! ## All threads -/

/-- What the threads hold, and what was seen of them. -/
structure Held (s : LockedDb) (es : List (Visible Thread Demand Answer)) (g : Thread → Hold) :
    Prop where
  depth : ∀ t, (g t).depth = s.locks.rw.depth t
  owner : ∀ t, (g t).version = true ↔ s.locks.version = some t
  base : ∀ t, (g t).base = 2 * (seenOf t es).sets
  base_le : ∀ t, (g t).base ≤ (g t).depth
  job : ∀ t, (g t).job = (seenOf t es).pending

variable {B : Build} {s s' : LockedDb} {es : List (Visible Thread Demand Answer)}
  {g : Thread → Hold} {t u : Thread} {own : Hold} {d : Demand} {a : Answer}

theorem seenOf_append (t : Thread) (es : List (Visible Thread Demand Answer))
    (e : Visible Thread Demand Answer) : seenOf t (es ++ [e]) = (seenOf t es).next t e := by
  rw [seenOf, List.foldl_append]
  rfl

theorem seenOf_call (t : Thread) (d : Demand) (es : List (Visible Thread Demand Answer)) :
    seenOf t (es ++ [.call t d]) = { seenOf t es with pending := some d } := by
  rw [seenOf_append]
  exact if_pos rfl

theorem seenOf_ret (hd : (seenOf t es).pending = some d) (a : Answer) :
    seenOf t (es ++ [.ret t a]) = ⟨none, (seenOf t es).sets + d.sets⟩ := by
  rw [seenOf_append]
  show (if t = t then _ else _) = _
  rw [if_pos rfl, hd]
  rfl

/-- The thread locks or unlocks. -/
theorem Held.update (h : Held s es g) (hdepth : own.depth = s'.locks.rw.depth t)
    (hothers : ∀ u, u ≠ t → s'.locks.rw.depth u = s.locks.rw.depth u)
    (howner : own.version = true ↔ s'.locks.version = some t)
    (howners : ∀ u, u ≠ t → (s'.locks.version = some u ↔ s.locks.version = some u))
    (hbase : own.base = (g t).base) (hle : own.base ≤ own.depth) (hjob : own.job = (g t).job) :
    Held s' es (Function.update g t own) where
  depth := by
    refine (Function.forall_update_iff g fun u o => o.depth = s'.locks.rw.depth u).mpr
      ⟨hdepth, fun u hu => ?_⟩
    rw [h.depth, hothers u hu]
  owner := by
    refine (Function.forall_update_iff g fun u o =>
      o.version = true ↔ s'.locks.version = some u).mpr ⟨howner, fun u hu => ?_⟩
    rw [h.owner, howners u hu]
  base := by
    refine (Function.forall_update_iff g fun u o => o.base = 2 * (seenOf u es).sets).mpr
      ⟨?_, fun u _ => h.base u⟩
    rw [hbase, h.base]
  base_le := (Function.forall_update_iff g fun _ o => o.base ≤ o.depth).mpr
    ⟨hle, fun u _ => h.base_le u⟩
  job := by
    refine (Function.forall_update_iff g fun u o => o.job = (seenOf u es).pending).mpr
      ⟨?_, fun u _ => h.job u⟩
    rw [hjob, h.job]

/-- The thread does nothing to the mutexes. -/
theorem Held.same (h : Held s es g) (hlocks : s'.locks = s.locks) (t : Thread) :
    Held s' es (Function.update g t (g t)) := by
  refine h.update ?_ ?_ ?_ ?_ rfl (h.base_le t) rfl
  · rw [hlocks, h.depth]
  · intro u _
    rw [hlocks]
  · rw [hlocks]
    exact h.owner t
  · intro u _
    rw [hlocks]

/-- An effect of a thread. -/
theorem Held.effect {e : Eff} {Q : e.Res → Hold → Prop} {r : e.Res} (h : Held s es g)
    (hS : holdSpec e Q (g t)) (he : LockedDb.handle t e s = .ok (r, s')) :
    ∃ own, Held s' es (Function.update g t own) ∧ Q r own := by
  cases e with
  | lockRw =>
    simp only [LockedDb.handle] at he
    split at he
    · next rw hrw =>
      cases he
      have hdepth := depth_lock hrw
      refine ⟨{ g t with depth := (g t).depth + 1 }, h.update ?_
        (fun u hu => depth_lock_other hu.symm hrw) (h.owner t) (fun _ _ => Iff.rfl) rfl
        (Nat.le_succ_of_le (h.base_le t)) rfl, hS⟩
      rw [hdepth, h.depth]
    · cases he
  | unlockRw =>
    cases he
    refine ⟨{ g t with depth := (g t).depth - 1 }, h.update ?_
      (fun u hu => depth_unlock_other hu.symm) (h.owner t) (fun _ _ => Iff.rfl) rfl
      (Nat.le_sub_one_of_lt hS.1) rfl, hS.2⟩
    rw [depth_unlock, h.depth]
  | lockVersion =>
    simp only [LockedDb.handle] at he
    split at he
    · next hfree =>
      cases he
      refine ⟨{ g t with version := true }, h.update (h.depth t) (fun _ _ => rfl) (by simp)
        (fun u hu => ?_) rfl (h.base_le t) rfl, hS.2.2⟩
      simp [hfree, hu.symm]
    · cases he
  | unlockVersion =>
    cases he
    have hversion : s.locks.version = some t := (h.owner t).mp hS.1
    refine ⟨{ g t with version := false }, h.update (h.depth t) (fun _ _ => rfl) (by simp)
      (fun u hu => ?_) rfl (h.base_le t) rfl, hS.2⟩
    simp [hversion, hu.symm]
  | write bs =>
    simp only [LockedDb.handle] at he
    cases hdb : Db.handle (.write bs) s.db with
    | error x =>
      rw [hdb] at he
      cases he
    | ok r' =>
      rw [hdb] at he
      cases he
      exact ⟨g t, h.same (by rfl) t, hS _⟩
  | _ =>
    cases he
    exact ⟨g t, h.same (by rfl) t, hS _⟩

/-- A call or a return of the thread is seen. -/
theorem Held.seen (h : Held s es g) {e : Visible Thread Demand Answer}
    (hothers : ∀ u, u ≠ t → seenOf u (es ++ [e]) = seenOf u es) (hdepth : own.depth = (g t).depth)
    (hversion : own.version = (g t).version)
    (hbase : own.base = 2 * (seenOf t (es ++ [e])).sets) (hle : own.base ≤ own.depth)
    (hjob : own.job = (seenOf t (es ++ [e])).pending) :
    Held s (es ++ [e]) (Function.update g t own) where
  depth := (Function.forall_update_iff g fun u o => o.depth = s.locks.rw.depth u).mpr
    ⟨hdepth.trans (h.depth t), fun u _ => h.depth u⟩
  owner := by
    refine (Function.forall_update_iff g fun u o =>
      o.version = true ↔ s.locks.version = some u).mpr ⟨?_, fun u _ => h.owner u⟩
    rw [hversion]
    exact h.owner t
  base := by
    refine (Function.forall_update_iff g fun u o =>
      o.base = 2 * (seenOf u (es ++ [e])).sets).mpr ⟨hbase, fun u hu => ?_⟩
    rw [hothers u hu]
    exact h.base u
  base_le := (Function.forall_update_iff g fun _ o => o.base ≤ o.depth).mpr
    ⟨hle, fun u _ => h.base_le u⟩
  job := by
    refine (Function.forall_update_iff g fun u o =>
      o.job = (seenOf u (es ++ [e])).pending).mpr ⟨hjob, fun u hu => ?_⟩
    rw [hothers u hu]
    exact h.job u

/-- All threads together. -/
def holdsProof (B : Build) (admitted : Demand → Prop) : TraceProof (callers B) admitted Hold where
  spec := holdSpec
  Holds := Held
  post d _ o := o.Ends d
  Ready := Hold.Ready
  effect h hS he := h.effect hS he
  call := by
    intro t d s es g h hready _
    refine ⟨{ g t with job := some d }, h.seen (fun u hu => ?_) rfl rfl ?_ (h.base_le t) ?_,
      Hold.wp_demand rfl hready.depth hready.version⟩
    · rw [seenOf_append]
      exact if_neg hu.symm
    · rw [seenOf_call]
      exact h.base t
    · rw [seenOf_call]
  ret := by
    intro t d a s es g h hends
    have hpending : (seenOf t es).pending = some d := (h.job t).symm.trans hends.job
    refine ⟨{ g t with job := none, base := (g t).depth },
      h.seen (fun u hu => ?_) rfl rfl ?_ le_rfl ?_, ⟨rfl, rfl, hends.version⟩⟩
    · rw [seenOf_append]
      exact if_neg hu.symm
    · rw [seenOf_ret hpending, hends.depth, h.base, Nat.mul_add]
    · rw [seenOf_ret hpending]

/-- What the threads hold in every state of every interleaving. -/
theorem held_of_trace {admitted : Demand → Prop} {db : Db} {p : Callers}
    (hrun : Traces (Moves (callers B) admitted) (Callers.start db) es p) :
    ∃ g, (holdsProof B admitted).Inv p es g := by
  have hstart : Held ⟨db, ⟨.free, none⟩⟩ [] fun _ => ⟨none, 0, 0, false⟩ :=
    ⟨fun _ => rfl, fun _ => by simp, fun _ => rfl, fun _ => le_rfl, fun _ => rfl⟩
  exact TraceProof.trace (P := holdsProof B admitted) hstart (fun _ => ⟨rfl, rfl, rfl⟩) hrun

/-! ## Waiting -/

/-- When a thread has to wait. -/
theorem blocked_iff {e : Eff} : LockedDb.handle t e s = .error .blocked ↔
    e = .lockRw ∧ s.locks.rw.lock t = none ∨ e = .lockVersion ∧ s.locks.version ≠ none := by
  cases e with
  | lockRw =>
    simp only [LockedDb.handle]
    cases s.locks.rw.lock t <;> simp
  | lockVersion =>
    simp only [LockedDb.handle]
    by_cases hfree : s.locks.version = none <;> simp [hfree]
  | write bs =>
    simp only [LockedDb.handle, Db.handle]
    split <;> simp [Except.map]
  | _ => simp [LockedDb.handle, Db.handle, Except.map]

variable {admitted : Demand → Prop} {p p' : Callers} {db : Db}

/-- Nobody has called `aodbm_set`. -/
theorem seenOf_sets (hsets : ∀ u d, .call u d ∈ es → d.sets = 0) (t : Thread) :
    (seenOf t es).sets = 0 ∧ ∀ d ∈ (seenOf t es).pending, d.sets = 0 := by
  induction es using List.reverseRecOn with
  | nil => exact ⟨rfl, nofun⟩
  | append_singleton es e ih =>
    obtain ⟨hzero, hpending⟩ := ih fun u d hd => hsets u d (List.mem_append_left _ hd)
    rw [seenOf_append]
    cases e with
    | call u d =>
      have hd : d.sets = 0 := hsets u d (List.mem_append_right _ List.mem_cons_self)
      rcases eq_or_ne u t with rfl | hut
      · simp [Seen.next, hzero, hd]
      · simp only [Seen.next, if_neg hut]
        exact ⟨hzero, hpending⟩
    | ret u a =>
      rcases eq_or_ne u t with rfl | hut
      · cases hcase : (seenOf u es).pending with
        | none => simp [Seen.next, hzero, hcase]
        | some d => simp [Seen.next, hzero, hcase, hpending d hcase]
      · simp only [Seen.next, if_neg hut]
        exact ⟨hzero, hpending⟩

section NoSets
variable (h : (holdsProof B admitted).Inv p es g) (hsets : ∀ u d, .call u d ∈ es → d.sets = 0)
include h hsets

theorem base_eq_zero (t : Thread) : (g t).base = 0 := by
  have hheld : Held p.shared es g := h.holds
  rw [hheld.base, (seenOf_sets hsets t).1]

/-- A call that returns holds nothing. -/
theorem free_of_returns (ht : Returns p t) : (g t).depth = 0 ∧ (g t).version = false := by
  obtain ⟨job, a, seen, hclient⟩ := ht
  have hends : Hold.Ends job (g t) := h.rest t _ hclient
  have hheld : Held p.shared es g := h.holds
  have hjob : job.sets = 0 :=
    (seenOf_sets hsets t).2 job (by rw [← hheld.job, hends.job]; rfl)
  refine ⟨?_, hends.version⟩
  rw [hends.depth, hjob, base_eq_zero h hsets]

/-- A thread that holds `rw` neither waits nor returns. -/
theorem busy_of_rw (ht : 0 < (g t).depth) : Busy (callers B) .blocked p t := by
  have hheld : Held p.shared es g := h.holds
  have hbase := base_eq_zero h hsets t
  refine ⟨fun hnone => ?_, ?_, fun hret => ?_⟩
  · have hready : Hold.Ready (g t) := h.ready t hnone
    rw [hready.depth, hbase] at ht
    exact ht.false
  · rintro ⟨job, e, k, seen, hclient, hwait⟩
    have hwp := h.rest t _ hclient
    rcases blocked_iff.mp hwait with ⟨rfl, hrw⟩ | ⟨rfl, -⟩
    · rw [hheld.depth] at ht
      rw [lock_eq_some.mpr ⟨rfl, .inr ht⟩] at hrw
      cases hrw
    · have hfree : (g t).depth = (g t).base := hwp.2.1
      rw [hfree, hbase] at ht
      exact ht.false
  · rw [(free_of_returns h hsets hret).1] at ht
    exact ht.false

/-- As long as nobody has called `aodbm_set`, a thread that waits waits for one that is busy. -/
theorem some_busy (ht : Waits (callers B) .blocked p t) : ∃ u, Busy (callers B) .blocked p u := by
  have hheld : Held p.shared es g := h.holds
  have hrw : ∀ u : Thread, p.shared.locks.rw.lock u = none →
      ∃ w, Busy (callers B) .blocked p w := by
    intro u hu
    obtain ⟨w, hw⟩ := exists_owner hu
    refine ⟨w, busy_of_rw h hsets ?_⟩
    rw [hheld.depth]
    exact hw
  obtain ⟨_, e, _, _, -, hwait⟩ := ht
  rcases blocked_iff.mp hwait with ⟨-, hlock⟩ | ⟨-, hversion⟩
  · exact hrw t hlock
  · obtain ⟨u, hu⟩ := Option.ne_none_iff_exists'.mp hversion
    have hown : (g u).version = true := (hheld.owner u).mpr hu
    by_cases hwaits : Waits (callers B) .blocked p u
    · obtain ⟨_, e, _, _, hclient, hwait⟩ := hwaits
      rcases blocked_iff.mp hwait with ⟨-, hlock⟩ | ⟨rfl, -⟩
      · exact hrw u hlock
      · have hnot : (g u).version = false := (h.rest u _ hclient).1
        rw [hown] at hnot
        cases hnot
    · refine ⟨u, fun hnone => ?_, hwaits, fun hret => ?_⟩
      · have hready : Hold.Ready (g u) := h.ready u hnone
        rw [hready.version] at hown
        cases hown
      · rw [(free_of_returns h hsets hret).2] at hown
        cases hown

end NoSets

/-! ## After `aodbm_set` -/

/-- What `aodbm_set` has locked stays locked. -/
theorem held_of_set (h : (holdsProof B admitted).Inv p es g) (ht : 0 < (seenOf t es).sets) :
    0 < p.shared.locks.rw.depth t := by
  have hheld : Held p.shared es g := h.holds
  have hle := hheld.base_le t
  rw [hheld.base, hheld.depth] at hle
  exact (Nat.mul_pos Nat.two_pos ht).trans_le hle

theorem sets_le_next (y : Seen) (e : Visible Thread Demand Answer) :
    y.sets ≤ (y.next t e).sets := by
  cases e with
  | call u d =>
    simp only [Seen.next]
    split <;> exact le_rfl
  | ret u a =>
    simp only [Seen.next]
    split
    · exact Nat.le_add_right _ _
    · exact le_rfl

/-- Who does not lock or unlock `version` leaves it alone. -/
theorem version_of_handle {e : Eff} {r : e.Res} (he : LockedDb.handle t e s = .ok (r, s')) :
    s'.locks.version = s.locks.version ∨ e = .lockVersion ∨ e = .unlockVersion := by
  cases e with
  | lockVersion => exact .inr (.inl rfl)
  | unlockVersion => exact .inr (.inr rfl)
  | lockRw =>
    simp only [LockedDb.handle] at he
    split at he
    · cases he
      exact .inl rfl
    · cases he
  | write bs =>
    simp only [LockedDb.handle] at he
    cases hdb : Db.handle (.write bs) s.db with
    | error x =>
      rw [hdb] at he
      cases he
    | ok r' =>
      rw [hdb] at he
      cases he
      exact .inl rfl
  | _ =>
    cases he
    exact .inl rfl

section AfterSet
variable (h : (holdsProof B admitted).Inv p es g) (ht : 0 < (seenOf t es).sets) (hu : u ≠ t)
  {c : Client Eff Eff.Res Err Empty Demand Answer} {k : Unit → Op Answer}
  (hclient : p.clients u = some c) (hrest : c.rest = .op .lockRw k)
  {e : Option (Visible Thread Demand Answer)} (hstep : Moves (callers B) admitted p e p')
include h ht hu hclient hrest hstep

/-- A thread that waits for `rw` goes on waiting. -/
theorem waits_of_step : p'.clients u = some c := by
  have hother : ∀ v x, u ≠ v → Function.update p.clients v x u = some c := by
    intro v x hv
    rw [Function.update_of_ne hv, hclient]
  cases hstep with
  | call idle =>
    refine hother _ _ ?_
    rintro rfl
    rw [hclient] at idle
    cases idle
  | effect next answer =>
    refine hother _ _ ?_
    rintro rfl
    rw [hclient] at next
    cases next
    cases hrest
    have hlock : LockedDb.handle u .lockRw p.shared = .error .blocked :=
      blocked_iff.mpr (.inl ⟨rfl, lock_eq_none hu (held_of_set h ht)⟩)
    have hanswer : LockedDb.handle u .lockRw p.shared = .ok _ := answer
    rw [hlock] at hanswer
    cases hanswer
  | ret done =>
    refine hother _ _ ?_
    rintro rfl
    rw [hclient] at done
    cases done
    cases hrest

/-- It keeps `version`. -/
theorem version_of_step (hversion : p.shared.locks.version = some u) :
    p'.shared.locks.version = some u := by
  have hwaits := waits_of_step h ht hu hclient hrest hstep
  have hheld : Held p.shared es g := h.holds
  cases hstep with
  | call => exact hversion
  | ret => exact hversion
  | @effect v job e k' seen r s next answer =>
    have hanswer : LockedDb.handle v e p.shared = .ok (r, s) := answer
    rcases version_of_handle hanswer with hsame | rfl | rfl
    · exact hsame.trans hversion
    · have hblocked : LockedDb.handle v .lockVersion p.shared = .error .blocked :=
        blocked_iff.mpr (.inr ⟨rfl, by simp [hversion]⟩)
      rw [hblocked] at hanswer
      cases hanswer
    · have hwp := h.rest v _ next
      have howner := (hheld.owner v).mp hwp.1
      rw [hversion] at howner
      cases howner
      rw [hclient] at next
      cases next
      cases hrest

end AfterSet

/-- Once `aodbm_set` has returned in a thread, it returns in no other thread. A thread that locks
`rw` waits for ever, and if it holds `version`, nobody gets that either. -/
theorem one_setter (hrun : Traces (Moves (callers B) admitted) (Callers.start db) es p)
    (ht : 0 < (seenOf t es).sets) :
    (∀ u, 0 < (seenOf u es).sets → u = t) ∧
    ∀ u, u ≠ t → ∀ c k, p.clients u = some c → c.rest = .op .lockRw k →
      ∀ fs p', Traces (Moves (callers B) admitted) p fs p' → p'.clients u = some c ∧
        (p.shared.locks.version = some u → p'.shared.locks.version = some u) := by
  obtain ⟨g, hinv⟩ := held_of_trace hrun
  refine ⟨fun u hu => owner_unique (held_of_set hinv hu) (held_of_set hinv ht), ?_⟩
  intro u hu c k hclient hrest fs p' hgoes
  clear hrun
  induction hgoes generalizing es g with
  | nil => exact ⟨hclient, id⟩
  | silent first _ ih =>
    have hwaits := waits_of_step hinv ht hu hclient hrest first
    have hkeeps := version_of_step hinv ht hu hclient hrest first
    obtain ⟨g', hinv'⟩ := hinv.step first
    rw [Option.toList_none, List.append_nil] at hinv'
    exact (ih ht _ hinv' hwaits).imp_right fun hrest hversion => hrest (hkeeps hversion)
  | @seen _ _ _ e _ first _ ih =>
    have hwaits := waits_of_step hinv ht hu hclient hrest first
    have hkeeps := version_of_step hinv ht hu hclient hrest first
    obtain ⟨g', hinv'⟩ := hinv.step first
    rw [Option.toList_some] at hinv'
    have hsets : 0 < (seenOf t (es ++ [e])).sets := by
      rw [seenOf_append]
      exact ht.trans_le (sets_le_next _ e)
    exact (ih hsets _ hinv' hwaits).imp_right fun hrest hversion => hrest (hkeeps hversion)

/-- The handle after thread 0 has set the empty key. -/
def setOnce : LockedDb := ⟨⟨[100, 0, 0, 0, 21, 0, 0, 0, 0, 0, 0, 0, 0, 108, 0, 0, 0, 1, 0, 0, 0, 0,
  0, 0, 0, 0], 26, 0⟩, ⟨.held 0 1, none⟩⟩

/-- Thread 1 sets a key, too. -/
def secondSetter : Client Eff Eff.Res Err Empty Demand Answer :=
  ⟨.set 0 [1] [], Demand.op smallBuild (.set 0 [1] []), []⟩

def bothSet (log : List (Thread × Empty)) : Callers :=
  ⟨setOnce, Function.update (fun _ => none) 1 (some secondSetter), log⟩

theorem bothSet_reached : ∃ log, Traces (Moves (callers smallBuild) fun _ => True)
    (Callers.start Db.empty)
    ([.call 0 (.set 0 [] []), .ret 0 (.version 5)] ++ [.call 1 (.set 0 [1] [])])
    (bothSet log) := by
  have hset : run ((callers smallBuild).handle 0) ((callers smallBuild).prog (.set 0 [] []))
      ⟨Db.empty, ⟨.free, none⟩⟩ = .ok (.version 5, setOnce) := by decide +kernel
  have hfirst : ∃ p, Traces (Moves (callers smallBuild) fun _ => True) (Callers.start Db.empty)
      [.call 0 (.set 0 [] []), .ret 0 (.version 5)] p ∧ p.shared = setOnce ∧
      p.clients = (Callers.start Db.empty).clients := traces_call rfl trivial hset
  obtain ⟨⟨_, _, log⟩, htrace, rfl, rfl⟩ := hfirst
  have hcall : Moves (callers smallBuild) (fun _ => True)
      ⟨setOnce, (Callers.start Db.empty).clients, log⟩ (some (.call 1 (.set 0 [1] [])))
      (bothSet log) := .call rfl trivial
  exact ⟨log, htrace.append (.seen hcall (.nil _))⟩

/-- Thread 1 waits for ever. -/
theorem one_setter_waits : ∃ (p : Callers) (c : Client Eff Eff.Res Err Empty Demand Answer),
    p.clients 1 = some c ∧ ∀ fs p',
      Traces (Moves (callers smallBuild) fun _ => True) p fs p' → p'.clients 1 = some c := by
  obtain ⟨log, hrun⟩ := bothSet_reached
  refine ⟨bothSet log, secondSetter, rfl, fun fs p' hgoes => ?_⟩
  exact ((one_setter hrun (t := 0) (by decide)).2 1 (by decide) secondSetter _ rfl rfl fs p'
    hgoes).1

end Aodbm
