import KVStore.LsmIdWrap
import KVStore.LsmLifetimes
import KVStore.LsmRecoveryIds

namespace KVStore

open Lib CrashProgram

def nextFileId (id : FileId) : FileId := (id + 1) % fileIdLimit

theorem iterate_nextFileId {m k : Nat} (h : m + k < fileIdLimit) : nextFileId^[k] m = m + k := by
  induction k with
  | zero => rfl
  | succ k ih =>
    rw [Function.iterate_succ_apply', ih (Nat.lt_of_succ_lt h)]
    exact Nat.mod_eq_of_lt h

theorem below_fileIdLimit {m issued k : Nat} (hc : m ≤ issued + 1) (hl : issued + k < idLimit) :
    m + k < fileIdLimit := by
  simp only [idLimit] at hl
  omega

namespace Env

variable {s s' s'' : Env} {k l : Nat} {id : FileId}

def taken (s s' : Env) : List FileId := List.iterate nextFileId s.nextId (s'.issued - s.issued)

structure Counts (k : Nat) (s s' : Env) : Prop where
  issued : s'.issued = s.issued + k
  nextId : s'.nextId = nextFileId^[k] s.nextId

theorem Counts.trans (h : s.Counts k s') (h' : s'.Counts l s'') : s.Counts (l + k) s'' := by
  refine ⟨?_, ?_⟩
  · rw [h'.issued, h.issued, Nat.add_assoc, Nat.add_comm k]
  · rw [h'.nextId, h.nextId, Function.iterate_add_apply]

theorem SameFiles.counts (h : s.SameFiles s') : s.Counts 0 s' := ⟨h.issued, h.nextId⟩

theorem counts_fetchNextId (s : Env) : s.Counts 1 s.fetchNextId := ⟨rfl, rfl⟩

theorem counts_exec (listing : Listing) {o : Op} (ho : o.ofBackground) (s : Env) :
    ∃ k ≤ 1, s.Counts k (s.exec listing o).2 := by
  have h := s.executes listing o
  generalize (s.exec listing o).2 = s' at h ⊢
  cases h with
  | aside _ _ _ nextId issued => exact ⟨0, Nat.zero_le 1, issued, nextId⟩
  | fetchNextId => exact ⟨1, le_rfl, counts_fetchNextId s⟩
  | place | commit => exact ⟨0, Nat.zero_le 1, rfl, rfl⟩
  | _ => cases ho

theorem Counts.nextId_eq (h : s.Counts k s') (hc : s.nextId ≤ s.issued + 1)
    (hl : s'.issued < idLimit) : s'.nextId = s.nextId + k := by
  rw [h.issued] at hl
  rw [h.nextId, iterate_nextFileId (below_fileIdLimit hc hl)]

theorem Counts.bounds (h : s.Counts k s') (hc : s.nextId ≤ s.issued + 1)
    (hl : s'.issued < idLimit) (hid : id ∈ s.taken s') : s.nextId ≤ id ∧ id < s'.nextId := by
  rw [h.nextId_eq hc hl]
  rw [h.issued] at hl
  rw [taken, h.issued, Nat.add_sub_cancel_left, List.mem_iterate] at hid
  obtain ⟨m, hm, rfl⟩ := hid
  rw [iterate_nextFileId (below_fileIdLimit hc ((Nat.add_lt_add_left hm _).trans hl))]
  exact ⟨Nat.le_add_right _ _, Nat.add_lt_add_left hm _⟩

theorem PastAll.tables_eq_none (h : s.PastAll s.nextId) (hid : s.nextId ≤ id) : s.tables.lookup id = none := by
  apply Option.eq_none_iff_forall_ne_some.mpr
  intro f hf
  exact absurd (h.tables id f hf) (not_lt_of_ge hid)

theorem PastAll.logs_eq_none (h : s.PastAll s.nextId) (hid : s.nextId ≤ id) : s.logs.lookup id = none := by
  apply Option.eq_none_iff_forall_ne_some.mpr
  intro log hlog
  exact absurd (h.logs id log hlog) (not_lt_of_ge hid)

end Env

namespace System

variable {n : Nat} {opts : LsmOptions} {listing : Listing} {s s' : System n}

theorem Step.counts {a : Action n} (h : Step opts listing s a s')
    (hb : s.BackgroundInv True opts listing) : ∃ k ≤ 2, s.env.Counts k s'.env := by
  cases h with
  | call =>
    refine ⟨0, Nat.zero_le 2, ?_⟩
    rw [(enter_cases _ _ _).sameFrozen.1]
    exact ⟨rfl, rfl⟩
  | client next =>
    rcases next.sameFrozen with ⟨hf, _⟩ | ⟨_, _, rfl⟩
    · exact ⟨0, Nat.zero_le 2, hf.counts⟩
    · exact ⟨2, le_rfl, (Env.counts_fetchNextId _).trans (Env.counts_fetchNextId _)⟩
  | background next =>
    rcases hb.exec_cases next with ⟨_, he⟩ | ⟨o, ho, he⟩
    · exact ⟨0, Nat.zero_le 2, he ▸ ⟨rfl, rfl⟩⟩
    · obtain ⟨k, hk, hc⟩ := Env.counts_exec listing ho s.env
      exact ⟨k, hk.trans (Nat.le_succ 1), he ▸ hc⟩
  | unlink | stop => exact ⟨0, Nat.zero_le 2, rfl, rfl⟩

end System

namespace World

variable {n : Nat} {opts : LsmOptions} {listing : Listing} {w w' : World n} {history : List Entry}

theorem Reachable.pastAll {s : System n}
    (h : Reachable opts listing (.running s history)) (hfail : opts.failAt = .none)
    (hl : s.env.issued < idLimit) : s.env.PastAll s.env.nextId ∧ s.env.nextId ≤ s.env.issued + 1 := by
  obtain ⟨⟨live, frozen, flushed, hs⟩, _⟩ := h.inv hfail hl
  obtain ⟨_, hids, _, _⟩ := hs.background.promise.point trivial fun _ => hl
  obtain ⟨_, _, _, _, hlog⟩ := hs.logs
  obtain ⟨retired, _, hlogs⟩ := hlog.logs
  exact ⟨⟨hids.positive, fun id f hf => (hids.tables id f hf).2, fun id log => hlogs.lt_nextId⟩,
    hids.counted⟩

theorem Reachable.owed (h : Reachable opts listing w) (hfail : opts.failAt = .none)
    (hl : w.env.issued < idLimit) : ∀ env io history, w = .recovering env io history →
      io.Requires (lsmMachine listing) (idsOwed kFirstFileId) env := by
  induction h with
  | start =>
    intro env io history he
    cases he
  | @step w w' reached next ih =>
    have hbefore : w.env.issued < idLimit := (next.issued_le hfail).trans_lt hl
    rintro env io history rfl
    cases next with
    | «open» =>
      obtain ⟨hr, _⟩ := reached.inv hfail hbefore
      apply LsmStore.requires_openStore hr
      cases hr with
      | fresh manifest => rw [manifest, Option.map_none, Option.getD_none]
      | durable hd =>
        rw [hd.manifest.committed.manifest]
        exact hd.manifest.committed.positive
    | recover => exact (ih hbefore _ _ _ rfl).2

theorem Reachable.counts {start s : System n}
    {past : List (System n × Action n)} (h : Reachable opts listing (.running start history))
    (hfail : opts.failAt = .none) (hrun : System.Run opts listing start past s)
    (hl : s.env.issued < idLimit) : ∃ k, start.env.Counts k s.env := by
  induction hrun with
  | start => exact ⟨0, rfl, rfl⟩
  | @step past s s' a run next ih =>
    have hstep := System.step_cases hfail next
    have hbefore : s.env.issued < idLimit := hstep.issued_le.trans_lt hl
    obtain ⟨⟨_, _, _, hs⟩, _⟩ := (h.run run).inv hfail hbefore
    obtain ⟨k, hk⟩ := ih hbefore
    obtain ⟨l, _, hl⟩ := hstep.counts hs.background
    exact ⟨_, hk.trans hl⟩

theorem Step.issued_le_add_two (hfail : opts.failAt = .none) (h : Step opts listing w w')
    (hinv : w.Inv opts listing) : w'.env.issued ≤ w.env.issued + 2 := by
  cases h with
  | @recover env o =>
    rcases (env.executes listing o).issued_eq with hsame | rfl
    · exact hsame.le.trans (Nat.le_add_right _ 2)
    · exact Nat.add_le_add_left (Nat.le_succ 1) _
  | run next =>
    obtain ⟨⟨_, _, _, hs⟩, _⟩ := hinv
    obtain ⟨k, hk, hc⟩ := (System.step_cases hfail next).counts hs.background
    exact hc.issued.le.trans (Nat.add_le_add_left hk _)
  | crash left =>
    cases left with
    | between => exact Nat.le_add_right _ 2
    | torn => exact (Env.sameFiles_tearLog _ _).issued.le.trans (Nat.le_add_right _ 2)
  | «open» | opened | refused | crashRecovering => exact Nat.le_add_right _ 2

/-- While ids last, an id that any step takes is in use nowhere: no table and no log
has it, and the running process has not taken it before. -/
theorem Reachable.taken_fresh (h : Reachable opts listing w) (hfail : opts.failAt = .none)
    (hl : w.env.issued + 2 < idLimit) (next : Step opts listing w w') {id : FileId}
    (hid : id ∈ w.env.taken w'.env) :
    kFirstFileId ≤ id ∧ w.env.tables.lookup id = none ∧ w.env.logs.lookup id = none ∧
      ∀ s history, w = .running s history → (∀ t ∈ s.engine.levels.flatten, t.id ≠ id) ∧
        ∀ start past, Reachable opts listing (.running start history) →
          System.Run opts listing start past s → id ∉ start.env.taken s.env := by
  have hbefore : w.env.issued < idLimit := Nat.lt_of_add_right_lt hl
  have hinv := h.inv hfail hbefore
  have hafter : w'.env.issued < idLimit := (next.issued_le_add_two hfail hinv).trans_lt hl
  have hnone : ∀ {s s' : Env}, s'.issued = s.issued → id ∉ s.taken s' := by
    intro s s' he hm
    rw [Env.taken, he, Nat.sub_self] at hm
    cases hm
  cases next with
  | @recover env o k history =>
    rcases (env.executes listing o).issued_eq with hsame | rfl
    · exact absurd hid (hnone hsame)
    · obtain ⟨_, hpast⟩ := (h.owed hfail hbefore _ _ _ rfl).1 hbefore
      have hone : env.taken env.fetchNextId = [env.nextId] := by
        rw [Env.taken, (Env.counts_fetchNextId env).issued, Nat.add_sub_cancel_left]
        rfl
      cases List.mem_singleton.mp (hone ▸ hid)
      refine ⟨hpast.positive, hpast.tables_eq_none le_rfl, hpast.logs_eq_none le_rfl, ?_⟩
      intro s history he
      cases he
  | @run s s' a history next =>
    obtain ⟨hpast, hc⟩ := h.pastAll hfail hbefore
    obtain ⟨⟨_, _, _, hs⟩, _⟩ := hinv
    obtain ⟨k, _, hcounts⟩ := (System.step_cases hfail next).counts hs.background
    obtain ⟨hge, _⟩ := hcounts.bounds hc hafter hid
    refine ⟨hpast.positive.trans hge, hpast.tables_eq_none hge, hpast.logs_eq_none hge, ?_⟩
    rintro _ _ ⟨⟩
    refine ⟨fun t ht he => ?_, fun start past hstart hrun htaken => ?_⟩
    · have hf := hs.background.tablesReadBack (fun _ => hbefore) t ht
      exact absurd (hpast.tables t.id _ hf) (not_lt_of_ge (he ▸ hge))
    · obtain ⟨l, hl⟩ := hstart.counts hfail hrun hbefore
      have hfirst : start.env.issued < idLimit :=
        ((Nat.le_add_right _ l).trans hl.issued.ge).trans_lt hbefore
      have hstartIds := (hstart.pastAll hfail hfirst).2
      exact absurd (hl.bounds hstartIds hbefore htaken).2 (not_lt_of_ge hge)
  | crash left =>
    cases left with
    | between => exact absurd hid (hnone rfl)
    | torn pc => exact absurd hid (hnone (Env.sameFiles_tearLog _ _).issued)
  | «open» | opened | refused | crashRecovering => exact absurd hid (hnone rfl)

/-- A flush after one put takes an id for the table and one for the new log. -/
theorem taken_fresh_rotation :
    ∃ (s s' : System 1), Reachable {} .asStored (.running s []) ∧
      s.step {} .asStored (.client 0) = some s' ∧ s.env.taken s'.env = [2, 3] ∧
      ∀ id ∈ s.env.taken s'.env, kFirstFileId ≤ id ∧ s.env.tables.lookup id = none ∧
        s.env.logs.lookup id = none := by
  let actions : List (Action 1) := calling 0 (.put (text "a") (text "x")) 4 ++
    [.call 0 .flush, .client 0]
  have h : ∃ r ∈ System.runFresh 1 {} actions, r.2.env.issued + 2 < idLimit ∧
      ∃ s' ∈ r.2.step {} .asStored (.client 0), r.2.env.taken s'.env = [2, 3] := by decide +kernel
  obtain ⟨_, s, hreach, hids, s', hstep, htaken⟩ := exists_reachable h
  refine ⟨s, s', hreach, hstep, htaken, fun id hid => ?_⟩
  obtain ⟨hfirst, htables, hlogs, _⟩ := hreach.taken_fresh rfl hids (.run hstep) hid
  exact ⟨hfirst, htables, hlogs⟩

/-- The counter wraps inside a rotation, which does not look: the new log gets id
zero, and its file is created. -/
theorem log_created_below_first_id :
    ∃ (s s' s'' : System 1) (history : List Entry), Reachable {} .asStored (.running s history) ∧
      s.step {} .asStored (.client 0) = some s' ∧ s'.step {} .asStored (.client 0) = some s'' ∧
      ∃ id ∈ s.env.taken s'.env, id < kFirstFileId ∧ s''.env.logs.lookup id ≠ none := by
  let actions : List (Action 1) := calling 0 (.put (text "b") (text "y")) 4 ++
    [.call 0 .flush, .client 0]
  have h : ∃ r ∈ System.runFrom {} .asStored [] (restedStore 4294967294) actions,
      ∃ s' ∈ r.2.step {} .asStored (.client 0), ∃ s'' ∈ s'.step {} .asStored (.client 0),
      ∃ id ∈ r.2.env.taken s'.env, id < kFirstFileId ∧ s''.env.logs.lookup id ≠ none := by decide +kernel
  obtain ⟨_, s, history, hreach, s', hstep, s'', hstep', hlow⟩ := exists_reachable_run (by decide) (by decide) h
  exact ⟨s, s', s'', history, hreach, hstep, hstep', hlow⟩

end World

end KVStore
