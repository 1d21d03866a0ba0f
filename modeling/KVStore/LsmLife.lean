import KVStore.LsmWorld

namespace KVStore

open Lib CrashProgram

namespace Env

/-- The temp file of a table, complete, has moved to its final name. -/
structure Places (s : Env) (id : FileId) (f : TableFile) (s' : Env) : Prop where
  temp : s.tableTemps.lookup id = some (some f)
  tables : s'.tables = s.tables.insert id f
  gone : s'.tableTemps.lookup id = none

def AddsNone (s s' : Env) : Prop :=
  ∀ id f, s'.tables.lookup id = some f → s.tables.lookup id = some f

theorem AddsNone.of_eq {s s' : Env} (h : s'.tables = s.tables) : s.AddsNone s' := by
  intro id f hf
  rwa [h] at hf

theorem AddsNone.of_erase {s s' : Env} {id : FileId} (h : s'.tables = s.tables.erase id) : s.AddsNone s' := by
  intro id' f hf
  rw [h] at hf
  by_cases he : id' = id
  · subst he
    rw [AList.lookup_erase] at hf
    cases hf
  · rwa [AList.lookup_erase_ne he] at hf

theorem exec_places (listing : Listing) (o : Op) (s : Env) :
    s.AddsNone (s.exec listing o).2 ∨
      ∃ id f, o = .renameTable id ∧ s.Places id f (s.exec listing o).2 := by
  have h := s.executes listing o
  generalize (s.exec listing o).2 = s' at h ⊢
  cases h with
  | aside _ tables => exact Or.inl (.of_eq tables)
  | place temp => exact Or.inr ⟨_, _, rfl, temp, rfl, AList.lookup_erase _ _⟩
  | removeTable => exact Or.inl (.of_erase rfl)
  | _ => exact Or.inl (.of_eq rfl)

theorem manifest_exec (listing : Listing) {o : Op} (hne : o ≠ .renameManifest) (s : Env) :
    (s.exec listing o).2.manifest = s.manifest := by
  have h := s.executes listing o
  generalize (s.exec listing o).2 = s' at h ⊢
  cases h with
  | aside manifest => exact manifest
  | commit => exact absurd rfl hne
  | _ => rfl

end Env

namespace System

variable {n : Nat} {opts : LsmOptions} {listing : Listing} {s s' : System n}

theorem BackgroundStep.places (h : BackgroundStep opts listing s s') :
    s.env.AddsNone s'.env ∨
      ∃ id f, s.nextOp = some (.renameTable id) ∧ s.env.Places id f s'.env := by
  have hop : ∀ o : Op, s.nextOp = some o → s.env.AddsNone (s.env.exec listing o).2 ∨
      ∃ id f, s.nextOp = some (.renameTable id) ∧ s.env.Places id f (s.env.exec listing o).2 := by
    intro o ho
    refine (Env.exec_places listing o s.env).imp_right fun ⟨id, f, he, hp⟩ => ⟨id, f, ?_, hp⟩
    rw [ho, he]
  cases h with
  | flushOp pc | compactOp pc | renameOp pc | commitOp pc =>
    apply hop
    rw [nextOp, pc]
  | _ => exact Or.inl (.of_eq rfl)

theorem Step.places {a : Action n} (h : Step opts listing s a s') :
    s.env.AddsNone s'.env ∨
      ∃ id f, s.nextOp = some (.renameTable id) ∧ s.env.Places id f s'.env := by
  cases h with
  | call =>
    left
    apply Env.AddsNone.of_eq
    rw [(enter_cases _ _ _).sameFrozen.1]
    rfl
  | client next =>
    left
    apply Env.AddsNone.of_eq
    rcases next.sameFrozen with ⟨hf, _⟩ | ⟨_, _, rfl⟩
    · exact hf.tables
    · rfl
  | background next => exact next.places
  | unlink => exact Or.inl (.of_erase rfl)
  | stop => exact Or.inl (.of_eq rfl)

theorem Run.issued_le {past : List (System n × Action n)} (h : Run opts listing s past s')
    (hfail : opts.failAt = .none) : s.env.issued ≤ s'.env.issued := by
  induction h with
  | start => exact le_rfl
  | step _ next ih => exact ih.trans (step_cases hfail next).issued_le

end System

namespace World

variable {n : Nat} {opts : LsmOptions} {listing : Listing} {w w' : World n}

def nextOp : World n → Option Op
  | .recovering _ (.op o _) _ => some o
  | .running s _ => s.nextOp
  | _ => none

structure Places (w : World n) (id : FileId) (f : TableFile) (w' : World n) : Prop where
  op : w.nextOp = some (.renameTable id)
  env : w.env.Places id f w'.env

theorem Step.places (hfail : opts.failAt = .none) (h : Step opts listing w w') :
    w.env.AddsNone w'.env ∨ ∃ id f, w.Places id f w' := by
  cases h with
  | recover =>
    refine (Env.exec_places listing _ _).imp_right fun ⟨id, f, he, hp⟩ => ⟨id, f, ?_, hp⟩
    exact congrArg some he
  | run next =>
    refine (System.step_cases hfail next).places.imp_right fun ⟨id, f, hop, hp⟩ => ?_
    exact ⟨id, f, hop, hp⟩
  | crash left =>
    cases left with
    | between => exact Or.inl (.of_eq rfl)
    | torn => exact Or.inl (.of_eq (Env.sameFiles_tearLog _ _).tables)
  | «open» | opened | refused | crashRecovering => exact Or.inl (.of_eq rfl)

/-- A life of a directory from the empty one on, through allowed states only, with
the tables renamed into place in it, newest first. -/
inductive Life (opts : LsmOptions) (listing : Listing) (allowed : World n → Prop) :
    World n → List (FileId × TableFile) → Prop
  | start (ok : allowed (.down .empty [])) : Life opts listing allowed (.down .empty []) []
  | quiet {w w' : World n} {placed : List (FileId × TableFile)}
      (lived : Life opts listing allowed w placed) (next : Step opts listing w w')
      (none : ∀ id f, ¬ w.Places id f w') (ok : allowed w') :
      Life opts listing allowed w' placed
  | place {w w' : World n} {placed : List (FileId × TableFile)} {id : FileId} {f : TableFile}
      (lived : Life opts listing allowed w placed) (next : Step opts listing w w')
      (moved : w.Places id f w') (ok : allowed w') :
      Life opts listing allowed w' ((id, f) :: placed)

variable {allowed : World n → Prop} {placed : List (FileId × TableFile)}

section

variable (h : Life opts listing allowed w placed)
include h

theorem Life.ok : allowed w := by
  cases h <;> assumption

theorem Life.reachable : Reachable opts listing w := by
  induction h with
  | start => exact .start
  | quiet _ next _ _ ih => exact .step ih next
  | place _ next _ _ ih => exact .step ih next

theorem Life.step (next : Step opts listing w w')
    (ok : allowed w') : ∃ placed', Life opts listing allowed w' placed' ∧ placed <:+ placed' := by
  by_cases hp : ∃ id f, w.Places id f w'
  · obtain ⟨id, f, hp⟩ := hp
    exact ⟨_, .place h next hp ok, List.suffix_cons _ _⟩
  · exact ⟨placed, .quiet h next (fun id f hf => hp ⟨id, f, hf⟩) ok, List.suffix_refl _⟩

theorem Life.placed_of_lookup (hfail : opts.failAt = .none) {id : FileId} {f : TableFile}
    (hf : w.env.tables.lookup id = some f) : (id, f) ∈ placed := by
  induction h generalizing id f with
  | start =>
    rw [env, Env.empty] at hf
    cases hf
  | quiet _ next none _ ih =>
    rcases next.places hfail with hnone | ⟨id', f', hp⟩
    · exact ih (hnone id f hf)
    · exact absurd hp (none id' f')
  | @place w w' placed id' f' _ _ moved _ ih =>
    rw [moved.env.tables] at hf
    by_cases he : id = id'
    · subst he
      rw [AList.lookup_insert] at hf
      cases hf
      exact List.mem_cons_self ..
    · rw [AList.lookup_insert_ne he] at hf
      exact List.mem_cons_of_mem _ (ih hf)

end

def IdsLast (w : World n) : Prop := w.env.issued < idLimit

theorem Reachable.life (h : Reachable opts listing w) (hfail : opts.failAt = .none)
    (hl : w.env.issued < idLimit) : ∃ placed, Life opts listing IdsLast w placed := by
  induction h with
  | start => exact ⟨[], .start hl⟩
  | step _ next ih =>
    obtain ⟨placed, hlife⟩ := ih ((next.issued_le hfail).trans_lt hl)
    obtain ⟨placed', hlife', _⟩ := hlife.step next hl
    exact ⟨placed', hlife'⟩

/-- While ids last, the condition allows recovery, and a running store in a good state,
such as one that has just been opened. -/
structure Allows (allowed : World n → Prop) (good : System n → Prop) : Prop where
  recovering : ∀ env io history, env.issued < idLimit → allowed (.recovering env io history)
  running : ∀ s history, s.env.issued < idLimit → good s → allowed (.running s history)
  opened : ∀ env store, good (System.opened n env store)

theorem idLimit_pos : 0 < idLimit := by decide

theorem idsLast_allows (n : Nat) : Allows (IdsLast (n := n)) fun _ => True :=
  ⟨fun _ _ _ hl => hl, fun _ _ hl _ => hl, fun _ _ => trivial⟩

section Extend

variable {good : System n → Prop} (hok : Allows allowed good) {store : Recovered} {history : List Entry}
    {s : System n}

include hok

theorem Life.run {s s' : System n} {history : List Entry} {past : List (System n × Action n)}
    (h : Life opts listing allowed (.running s history) placed) (hfail : opts.failAt = .none)
    (hrun : System.Run opts listing s past s') (hl : s'.env.issued < idLimit)
    (hpast : ∀ p ∈ past, good p.1) (hgood : good s') :
    ∃ placed', Life opts listing allowed (.running s' history) placed' ∧ placed <:+ placed' := by
  induction hrun with
  | start => exact ⟨placed, h, List.suffix_refl _⟩
  | step _ next ih =>
    obtain ⟨hbefore, hpast⟩ := List.forall_mem_cons.mp hpast
    obtain ⟨placed', hlife, hsuffix⟩ :=
      ih ((System.step_cases hfail next).issued_le.trans_lt hl) hpast hbefore
    obtain ⟨placed'', hlife', hsuffix'⟩ := hlife.step (.run next) (hok.running _ _ hl hgood)
    exact ⟨placed'', hlife', hsuffix.trans hsuffix'⟩

theorem Life.recovered {env env' : Env} {io : LsmIo (Except Failure Recovered)}
    (h : Life opts listing allowed (.recovering env io history) placed)
    (hrun : io.run (lsmMachine listing) env = (.ok store, env')) (hl : env'.issued < idLimit) :
    ∃ placed', Life opts listing allowed (.running (System.opened n env' store) history) placed' ∧
      placed <:+ placed' := by
  induction io generalizing env placed with
  | ret =>
    cases hrun
    exact h.step .opened (hok.running _ _ hl (hok.opened _ _))
  | op o k ih =>
    have hissued : (env.exec listing o).2.issued < idLimit := by
      have hle := issued_le_run listing (k (env.exec listing o).1) (env.exec listing o).2
      have hend : (k (env.exec listing o).1).run (lsmMachine listing) (env.exec listing o).2 =
          (.ok store, env') := hrun
      rw [hend] at hle
      exact hle.trans_lt hl
    obtain ⟨placed', hlife, hsuffix⟩ := h.step .recover (hok.recovering _ _ _ hissued)
    obtain ⟨placed'', hlife', hsuffix'⟩ := ih _ hlife hrun
    exact ⟨placed'', hlife', hsuffix.trans hsuffix'⟩

theorem Life.opened {env env' : Env} {store : Recovered} {history : List Entry}
    (h : Life opts listing allowed (.down env history : World n) placed) (hl : env'.issued < idLimit)
    (hrun : (LsmStore.openStore opts).run (lsmMachine listing) env = (.ok store, env')) :
    ∃ placed', Life opts listing allowed (.running (System.opened n env' store) history) placed' ∧
      placed <:+ placed' := by
  have hissued : env.issued < idLimit := by
    have hle := issued_le_run listing (LsmStore.openStore opts) env
    rw [hrun] at hle
    exact hle.trans_lt hl
  obtain ⟨placed', hlife, hsuffix⟩ := h.step .open (hok.recovering _ _ _ hissued)
  obtain ⟨placed'', hlife', hsuffix'⟩ := hlife.recovered hok hrun hl
  exact ⟨placed'', hlife', hsuffix.trans hsuffix'⟩

theorem Life.reopened {env' : Env}
    (h : Life opts listing allowed (.running s history) placed) (hl : env'.issued < idLimit)
    (hdown : ∀ history, allowed (.down s.env history))
    (hrun : (LsmStore.openStore opts).run (lsmMachine listing) s.env = (.ok store, env')) :
    ∃ history' placed', Life opts listing allowed (.running (System.opened n env' store) history')
      placed' ∧ placed <:+ placed' := by
  obtain ⟨placed', hlife, hsuffix⟩ := h.step (.crash .between) (hdown _)
  obtain ⟨placed'', hlife', hsuffix'⟩ := hlife.opened hok hl hrun
  exact ⟨_, placed'', hlife', hsuffix.trans hsuffix'⟩

theorem life_of_runFresh {actions : List (Action n)} {past : List (System n × Action n)}
    (hstart : allowed (.down .empty [])) (hfail : opts.failAt = .none)
    (h : System.runFresh n opts actions = some (past, s)) (hl : s.env.issued < idLimit)
    (hpast : ∀ p ∈ past, good p.1) (hgood : good s) :
    ∃ placed, Life opts .asStored allowed (.running s []) placed := by
  obtain ⟨start, hfresh, hrun⟩ := Option.bind_eq_some_iff.mp h
  replace hrun := System.run_of_runFrom .start hrun
  unfold System.fresh at hfresh
  split at hfresh
  next store env hopen =>
    cases hfresh
    have hissued : env.issued < idLimit := (hrun.issued_le hfail).trans_lt hl
    obtain ⟨placed, hlife, _⟩ := (Life.start hstart).opened hok hissued hopen
    obtain ⟨placed', hlife', _⟩ := hlife.run hok hfail hrun hl hpast hgood
    exact ⟨placed', hlife'⟩
  next => cases hfresh

end Extend

end World

end KVStore
