import KVStore.LsmWakeups
import KVStore.Lib.FairRun

namespace KVStore

open Lib CrashProgram

theorem Background.toGo_of_building {pc : Background} (h : pc.phase = .building) :
    pc.toGo < Background.toGo .waiting := by
  cases pc with
  | flushing => exact System.toGo_lt_of_left Nat.zero_lt_one
  | _ => cases h

/-- What the background thread is at, unless that is the flush of the frozen
memtable, and then this flush. -/
def Phase.operations : Phase → Bool → List Operation
  | .compacting, _ => [.compaction, .flush]
  | .retiring, true => [.flush, .flush]
  | .retiring, false | .resting, _ | .building, _ => [.flush]

/-- How many operations a stalled client has ahead, and that the last of them has
cleared the frozen memtable. -/
def Phase.stage : Phase → Bool → Nat
  | .compacting, _ | .retiring, false => 3
  | .resting, _ | .building, _ => 2
  | .retiring, true => 1

theorem Phase.stage_pos (phase : Phase) (ended : Bool) : 0 < phase.stage ended := by
  cases phase <;> cases ended <;> decide

theorem Engine.LoopTurn.keeps_over {n : Nat} {opts : LsmOptions} {env : Env} {e e' : Engine n}
    (h : LoopTurn opts env e e') (hover : e.stallOver = true) : e'.stallOver = true := by
  cases h with
  | halt => simp [stallOver, haltRun, idle]
  | _ => exact hover

namespace System

variable {n : Nat} {opts : LsmOptions} {listing : Listing} {s s' : System n}

theorem Piece.keeps_over (h : Piece opts s s') (hover : s.engine.stallOver = true) :
    s'.engine.stallOver = true := by
  cases h with
  | @ended _ e _ imm _ idle _ next =>
    refine next.keeps_over ?_
    rcases idle with hidle | hsame
    · simp [Engine.stallOver, hidle]
    · rwa [Engine.stallOver, hsame, imm]
  | loop _ _ next => exact next.keeps_over hover
  | installs _ _ thawed => simp [Engine.stallOver, thawed]
  | inside _ _ imm idle => rwa [Engine.stallOver, idle, imm]

theorem ClientStep.imm_eq {c d : Fin n} (h : ClientStep opts s d s') (hlocked : s.engine.Locked)
    (hc : (s.engine.clients c).locked = true) (hdc : d ≠ c) : s'.engine.imm = s.engine.imm := by
  have hother : ¬ (s.engine.clients d).locked = true := fun hd => hdc (hlocked.holder_unique hd hc)
  cases h with
  | rotateWrite pc | rotateFlush pc =>
    rcases pc with pc | pc <;> exact absurd (congrArg Client.locked pc) hother
  | _ => rfl

theorem exists_backgroundStep (hdefined : s.engine.background ≠ .undefined)
    (hrunning : s.engine.background ≠ .exited) : ∃ s', s.step opts listing .background = some s' := by
  have hsome : ∃ s', s.backgroundStep opts listing = some s' := by
    unfold backgroundStep
    dsimp only
    split
    next => exact ⟨_, rfl⟩
    next pc => exact absurd pc hrunning
    next pc => exact absurd pc hdefined
    all_goals first | exact ⟨_, rfl⟩ | (split <;> exact ⟨_, rfl⟩)
  obtain ⟨s', hs⟩ := hsome
  refine ⟨s', ?_⟩
  simp only [step]
  exact hs

theorem exists_leave {c : Fin n} (hdefined : s.engine.background ≠ .undefined)
    (hstalls : (s.engine.clients c).stalls = true) (hover : s.engine.stallOver = true) :
    ∃ s', s.step opts listing (.client c) = some s' ∧ ¬ (s'.engine.clients c).stalls = true := by
  have hsome : ∃ s', s.clientStep opts c = some s' ∧ ¬ (s'.engine.clients c).stalls = true := by
    cases hpc : s.engine.clients c with
    | stalled e =>
      refine ⟨s.afterStall opts c e, by rw [clientStep, hpc]; exact if_pos hover, fun hstill => ?_⟩
      unfold afterStall at hstill
      split_ifs at hstill <;> cases of_setClient (P := fun pc => pc.stalls = true) hstill
    | flushStalled =>
      refine ⟨s.afterFlushStall c, by rw [clientStep, hpc]; exact if_pos hover, fun hstill => ?_⟩
      unfold afterFlushStall at hstill
      split_ifs at hstill <;> cases of_setClient (P := fun pc => pc.stalls = true) hstill
    | _ =>
      rw [hpc] at hstalls
      cases hstalls
  obtain ⟨s', hs, hleft⟩ := hsome
  refine ⟨s', ?_, hleft⟩
  simp only [step]
  exact hs

end System

namespace Monitor

variable {n : Nat} {opts : LsmOptions} {listing : Listing} {m m' : Monitor n} {c : Fin n} {t : Turn n}
    {turns : List (Turn n)}

def Free (m : Monitor n) (c : Fin n) : Prop :=
  m.blocked c = false ∧ m.system.engine.stallOver = true

instance (m : Monitor n) (c : Fin n) : Decidable (m.Free c) := inferInstanceAs (Decidable (_ ∧ _))

def Stalled (m : Monitor n) (c : Fin n) : Prop := (m.system.engine.clients c).stalls = true

instance (m : Monitor n) (c : Fin n) : Decidable (m.Stalled c) := inferInstanceAs (Decidable (_ = _))

def ahead (m : Monitor n) : List Operation :=
  m.system.engine.background.phase.operations m.system.engine.imm.isSome

theorem Stalled.locked (h : m.Stalled c) : (m.system.engine.clients c).locked = true := by
  unfold Stalled at h
  cases hpc : m.system.engine.clients c <;> rw [hpc] at h <;> first | rfl | cases h

theorem Inv.awake (h : m.Inv) (hstalled : m.Stalled c) (hwaits : ¬ m.Free c) :
    m.asleep = false ∧ m.system.engine.background ≠ .exited := by
  refine ⟨Bool.eq_false_of_not_eq_true fun hasleep => ?_, fun hexited => ?_⟩
  · obtain ⟨hwaiting, hsleep⟩ := h.sleeps hasleep
    have hover : m.system.engine.stallOver = true := by
      refine hsleep.resolve_right fun ⟨d, hd⟩ => ?_
      have hlocked : (m.system.engine.clients d).locked = true := by
        cases hpc : m.system.engine.clients d <;> rw [hpc] at hd <;> first | rfl | cases hd
      obtain rfl := h.locked.holder_unique hlocked hstalled.locked
      unfold Stalled at hstalled
      cases hpc : m.system.engine.clients d <;> simp_all [Client.stalls, Client.rotates]
    have hblocked : m.blocked c = true := by
      by_contra hb
      exact hwaits ⟨Bool.eq_false_of_not_eq_true hb, hover⟩
    rcases h.waits c hblocked hstalled with hstall | hretiring
    · exact absurd (hstall.symm.trans hover) (by decide)
    · rw [hwaiting] at hretiring
      cases hretiring
  · have hidle := h.stopped (h.exits hexited) c
    rw [Stalled, hidle] at hstalled
    cases hstalled

theorem Inv.can_run (h : m.Inv) (hstalled : m.Stalled c) :
    if m.Free c then ∃ m', m.turn opts listing (.act (.client c)) = some m' ∧ ¬ m'.Stalled c
    else ∃ s, m.system.step opts listing .background = some s ∧
      m.turn opts listing (.act .background) = some (m.afterBackground opts s) := by
  split
  next hfree =>
    have hcondition : m.system.engine.condition c = true := by
      unfold Stalled at hstalled
      unfold Engine.condition
      cases hpc : m.system.engine.clients c <;> simp_all [Client.stalls, Free]
    obtain ⟨s, hs, hleft⟩ := @System.exists_leave n opts listing m.system c h.defined hstalled hfree.2
    refine ⟨m.afterClient opts c s, ?_, hleft⟩
    rw [Monitor.turn, if_neg (by simp [hfree.1]), if_neg (by simp [h.pays c hstalled]), if_pos hcondition, hs]
    rfl
  next hwaits =>
    obtain ⟨hasleep, hrunning⟩ := h.awake hstalled hwaits
    obtain ⟨s, hs⟩ := @System.exists_backgroundStep n opts listing m.system h.defined hrunning
    refine ⟨s, hs, ?_⟩
    rw [Monitor.turn, if_neg (by simp [hasleep]), hs]
    rfl

/-- What a stalled client has ahead: only the background thread lowers it. -/
noncomputable def stallRank (m : Monitor n) (c : Fin n) : ℕ ×ₗ (ℕ ×ₗ Ordinal.{0}) :=
  if m.Free c then toLex (0, toLex (0, 0))
  else toLex (m.system.engine.background.phase.stage m.system.engine.stallOver,
    m.system.engine.background.toGo)

theorem stallRank_lt_of_free (h' : m'.Free c) (h : ¬ m.Free c) : m'.stallRank c < m.stallRank c := by
  rw [stallRank, stallRank, if_pos h', if_neg h]
  exact Prod.Lex.toLex_lt_toLex.mpr (Or.inl (Phase.stage_pos _ _))

theorem stallRank_lt_of_stage (h' : ¬ m'.Free c) (h : ¬ m.Free c)
    (hlt : m'.system.engine.background.phase.stage m'.system.engine.stallOver <
      m.system.engine.background.phase.stage m.system.engine.stallOver) : m'.stallRank c < m.stallRank c := by
  rw [stallRank, stallRank, if_neg h', if_neg h]
  exact Prod.Lex.toLex_lt_toLex.mpr (Or.inl hlt)

theorem stallRank_lt_of_toGo (h' : ¬ m'.Free c) (h : ¬ m.Free c)
    (hstage : m'.system.engine.background.phase.stage m'.system.engine.stallOver =
      m.system.engine.background.phase.stage m.system.engine.stallOver)
    (hlt : m'.system.engine.background.toGo < m.system.engine.background.toGo) :
    m'.stallRank c < m.stallRank c := by
  rw [stallRank, stallRank, if_neg h', if_neg h]
  exact Prod.Lex.toLex_lt_toLex.mpr (Or.inr ⟨hstage, hlt⟩)

/-- The operations that end in a turn of the background thread are the first ones
ahead, and then fewer are ahead. -/
structure Advances (m m' : Monitor n) (c : Fin n) : Prop where
  stalled : m'.Stalled c
  closer : m'.stallRank c < m.stallRank c
  ended : ∃ ops, m'.finished = ops ++ m.finished ∧
    (m'.Free c ∧ ops.reverse <+: m.ahead ∨ ¬ m'.Free c ∧ m.ahead = ops.reverse ++ m'.ahead)

theorem advances_of_quiet (hstalled : m'.Stalled c) (hwaits : ¬ m.Free c) (hfinished : m'.finished = m.finished)
    (hcloser : ¬ m'.Free c → m'.stallRank c < m.stallRank c ∧ m.ahead = m'.ahead) : m.Advances m' c := by
  by_cases hfree : m'.Free c
  · exact ⟨hstalled, stallRank_lt_of_free hfree hwaits, [], hfinished, Or.inl ⟨hfree, List.nil_prefix⟩⟩
  · obtain ⟨hlt, hahead⟩ := hcloser hfree
    exact ⟨hstalled, hlt, [], hfinished, Or.inr ⟨hfree, hahead⟩⟩

theorem Inv.background_advances (h : m.Inv) (hfail : opts.failAt = .none) (ht : 1 ≤ opts.l0CompactionTrigger)
    (hstalled : m.Stalled c) (hwaits : ¬ m.Free c) {s : System n}
    (hstep : m.system.step opts listing .background = some s) : m.Advances (m.afterBackground opts s) c := by
  have hpiece := System.piece_of_step hfail ht hstep
  have hstalled' : (m.afterBackground opts s).Stalled c := by
    cases System.step_cases hfail hstep with
    | background next =>
      change (s.engine.clients c).stalls = true
      rw [next.clients_eq]
      exact hstalled
  have hphase (hover : m.system.engine.stallOver = true) : m.system.engine.background.phase = .retiring := by
    have hblocked : m.blocked c = true := by
      by_contra hb
      exact hwaits ⟨Bool.eq_false_of_not_eq_true hb, hover⟩
    exact (h.waits c hblocked hstalled).resolve_left fun hstall => absurd (hstall.symm.trans hover) (by decide)
  cases hpiece with
  | @ended op e ends imm halted idle stopping next origin =>
    have hfinished : (m.afterBackground opts s).finished = [op] ++ m.finished := by
      simp [afterBackground, ends]
    have hfree (hover : e.stallOver = true) : (m.afterBackground opts s).Free c := by
      refine ⟨?_, next.keeps_over hover⟩
      simp [afterBackground, System.notifies, ends]
    by_cases hover : e.stallOver = true
    · refine ⟨hstalled', stallRank_lt_of_free (hfree hover) hwaits, [op], hfinished, Or.inl ⟨hfree hover, ?_⟩⟩
      rcases origin with ⟨hfrom, rfl⟩ | ⟨hfrom, rfl⟩ | ⟨hfrom, rfl, _⟩
      · rw [ahead, hfrom]
        exact ⟨[.flush], rfl⟩
      · rw [ahead, hfrom]
        cases m.system.engine.imm.isSome with
        | true => exact ⟨[.flush], rfl⟩
        | false => exact ⟨[], rfl⟩
      · rw [ahead, hfrom]
        exact ⟨[], rfl⟩
    · have hstall : e.stallOver = false := Bool.eq_false_of_not_eq_true hover
      obtain ⟨hbuilding, hstall'⟩ := next.builds ht hstall
      obtain ⟨hidle, table, himm⟩ := Engine.stallOver_eq_false_iff.mp hstall
      have hsame : m.system.engine.stallOver = false := by
        rcases idle with hi | hi
        · cases hidle.symm.trans hi
        · rw [Engine.stallOver, ← hi, ← imm]
          exact hstall
      have hwaits' : ¬ (m.afterBackground opts s).Free c := fun hf =>
        absurd (hstall'.symm.trans hf.2) (by decide)
      refine ⟨hstalled', stallRank_lt_of_stage hwaits' hwaits ?_, [op], hfinished, Or.inr ⟨hwaits', ?_⟩⟩
      · change s.engine.background.phase.stage _ < _
        rw [hbuilding, hsame]
        rcases origin with ⟨hfrom, _⟩ | ⟨hfrom, _⟩ | ⟨_, _, hidle'⟩
        · exact hfrom ▸ (by decide : 2 < 3)
        · exact hfrom ▸ (by decide : 2 < 3)
        · cases hidle.symm.trans hidle'
      · have hahead : (m.afterBackground opts s).ahead = [.flush] := by
          change s.engine.background.phase.operations _ = _
          rw [hbuilding]
          rfl
        rw [hahead, ahead]
        rcases origin with ⟨hfrom, rfl⟩ | ⟨hfrom, rfl⟩ | ⟨_, _, hidle'⟩
        · rw [hfrom]
          rfl
        · rw [hfrom, ← imm, himm]
          rfl
        · cases hidle.symm.trans hidle'
  | loop pc ends next =>
    have hstall : m.system.engine.stallOver = false := by
      refine Bool.eq_false_of_not_eq_true fun hover => ?_
      have hp := hphase hover
      rw [pc] at hp
      cases hp
    obtain ⟨hbuilding, _⟩ := next.builds ht hstall
    refine advances_of_quiet hstalled' hwaits (by simp [afterBackground, ends]) fun hwaits' =>
      ⟨stallRank_lt_of_toGo hwaits' hwaits ?_ ?_, ?_⟩
    · change s.engine.background.phase.stage _ = _
      rw [hbuilding, pc]
      rfl
    · rw [pc]
      exact Background.toGo_of_building hbuilding
    · change m.system.engine.background.phase.operations _ = s.engine.background.phase.operations _
      rw [hbuilding, pc]
      rfl
  | installs phase ends thawed idle retiring =>
    have hover : s.engine.stallOver = true := by simp [Engine.stallOver, thawed]
    refine advances_of_quiet hstalled' hwaits (by simp [afterBackground, ends]) fun hwaits' =>
      ⟨stallRank_lt_of_stage hwaits' hwaits ?_, ?_⟩
    · change s.engine.background.phase.stage s.engine.stallOver < _
      rw [retiring, hover, phase]
      exact Nat.lt_succ_self 1
    · change m.system.engine.background.phase.operations _ =
        s.engine.background.phase.operations s.engine.imm.isSome
      rw [phase, retiring, thawed]
      rfl
  | inside works ends imm idle phase closer =>
    have hsame : s.engine.stallOver = m.system.engine.stallOver := by
      rw [Engine.stallOver, Engine.stallOver, imm, idle]
    refine advances_of_quiet hstalled' hwaits (by simp [afterBackground, ends]) fun hwaits' =>
      ⟨stallRank_lt_of_toGo hwaits' hwaits ?_ closer, ?_⟩
    · change s.engine.background.phase.stage s.engine.stallOver = _
      rw [phase, hsame]
    · change m.system.engine.background.phase.operations _ =
        s.engine.background.phase.operations s.engine.imm.isSome
      rw [phase, imm]

structure Unmoved (m m' : Monitor n) (c : Fin n) : Prop where
  client : m'.system.engine.clients c = m.system.engine.clients c
  background : m'.system.engine.background = m.system.engine.background
  idle : m'.system.engine.idle = m.system.engine.idle
  imm : m'.system.engine.imm = m.system.engine.imm
  finished : m'.finished = m.finished

namespace Unmoved

theorem of_system (hsystem : m'.system = m.system) (hfinished : m'.finished = m.finished) : m.Unmoved m' c :=
  ⟨by rw [hsystem], by rw [hsystem], by rw [hsystem], by rw [hsystem], hfinished⟩

section

variable (h : m.Unmoved m' c)
include h

theorem stallOver_eq : m'.system.engine.stallOver = m.system.engine.stallOver := by
  rw [Engine.stallOver, Engine.stallOver, h.idle, h.imm]

theorem stalled (hstalled : m.Stalled c) : m'.Stalled c := by
  unfold Stalled
  rw [h.client]
  exact hstalled

theorem ahead_eq : m'.ahead = m.ahead := by
  rw [ahead, ahead, h.background, h.imm]

theorem stallRank_eq (hfree : m'.Free c ↔ m.Free c) : m'.stallRank c = m.stallRank c := by
  rw [stallRank, stallRank, h.background, h.stallOver_eq]
  by_cases hf : m.Free c
  · rw [if_pos hf, if_pos (hfree.mpr hf)]
  · rw [if_neg hf, if_neg (mt hfree.mp hf)]

end

end Unmoved

theorem Inv.unmoved (h : m.Inv) (hfail : opts.failAt = .none) (hstalled : m.Stalled c)
    (hbackground : t ≠ .act .background) (hclient : t = .act (.client c) → ¬ m.Free c)
    (next : m.turn opts listing t = some m') :
    m.Unmoved m' c ∧ (t ≠ .act (.client c) → m'.blocked c = true → m.blocked c = true) := by
  have hbusy : m.system.engine.clients c ≠ .idle := by
    intro hidle
    rw [Stalled, hidle] at hstalled
    cases hstalled
  cases t with
  | wake =>
    cases next
    exact ⟨.of_system rfl rfl, fun _ => id⟩
  | wakeClient d =>
    cases next
    refine ⟨.of_system rfl rfl, fun _ hblocked => ?_⟩
    by_cases hdc : c = d
    · subst hdc
      simp at hblocked
    · simpa [Function.update_of_ne hdc] using hblocked
  | act a =>
    cases a with
    | background => exact absurd rfl hbackground
    | stop =>
      obtain ⟨s, hs, rfl⟩ := Option.map_eq_some_iff.mp next
      cases System.step_cases hfail hs with
      | stop quiet => exact absurd (quiet c) hbusy
    | unlink =>
      obtain ⟨s, hs, rfl⟩ := Option.map_eq_some_iff.mp next
      cases System.step_cases hfail hs with
      | unlink => exact ⟨⟨rfl, rfl, rfl, rfl, rfl⟩, fun _ => id⟩
    | call d call =>
      obtain ⟨s, hs, rfl⟩ := Option.map_eq_some_iff.mp next
      cases System.step_cases hfail hs with
      | call pc =>
        have henter := System.enter_cases (m.system.note (.invoke d call)) d call
        have hdc : c ≠ d := by
          rintro rfl
          exact hbusy pc
        exact ⟨⟨henter.clients_of_ne hdc, henter.untouched.background,
          System.idle_eq_of_untouched henter.untouched, henter.sameFrozen.2.imm, rfl⟩, fun _ => id⟩
    | client d =>
      rw [Monitor.turn] at next
      by_cases hdc : c = d
      · subst hdc
        refine ⟨?_, fun hother => absurd rfl hother⟩
        rw [if_neg (by simp [h.pays c hstalled] : ¬ m.owes c = true)] at next
        split_ifs at next with hblocked hcondition
        · refine absurd ⟨Bool.eq_false_of_not_eq_true hblocked, ?_⟩ (hclient rfl)
          unfold Stalled at hstalled
          unfold Engine.condition at hcondition
          cases hpc : m.system.engine.clients c <;> simp_all [Client.stalls]
        · cases next
          exact .of_system rfl rfl
      · split_ifs at next
        · cases next
          exact ⟨.of_system rfl rfl, by rintro _ ⟨⟩⟩
        · obtain ⟨s, hs, rfl⟩ := Option.map_eq_some_iff.mp next
          have hnext := System.clientStep_cases (System.step_client hs)
          refine ⟨⟨hnext.clients_of_ne hdc, hnext.untouched.background,
            System.idle_eq_of_untouched hnext.untouched,
            hnext.imm_eq h.locked hstalled.locked (Ne.symm hdc), rfl⟩, fun _ hblocked => ?_⟩
          simp only [afterClient] at hblocked
          split at hblocked
          · cases hblocked
          · rwa [Function.update_of_ne hdc] at hblocked
        · cases next
          refine ⟨.of_system rfl rfl, fun _ hblocked => ?_⟩
          simpa [block, Function.update_of_ne hdc] using hblocked

theorem Inv.keeps_free (h : m.Inv) (hfail : opts.failAt = .none) (ht : 1 ≤ opts.l0CompactionTrigger)
    (hstalled : m.Stalled c) (hfree : m.Free c) (hclient : t ≠ .act (.client c))
    (next : m.turn opts listing t = some m') : m'.Stalled c ∧ m'.Free c := by
  by_cases hbackground : t = .act .background
  · subst hbackground
    rw [Monitor.turn] at next
    split_ifs at next
    obtain ⟨s, hs, rfl⟩ := Option.map_eq_some_iff.mp next
    refine ⟨?_, ?_, (System.piece_of_step hfail ht hs).keeps_over hfree.2⟩
    · cases System.step_cases hfail hs with
      | background next =>
        change (s.engine.clients c).stalls = true
        rw [next.clients_eq]
        exact hstalled
    · simp only [afterBackground]
      split
      · rfl
      · exact hfree.1
  · obtain ⟨hunmoved, hblocked⟩ := h.unmoved hfail hstalled hbackground (fun he => absurd he hclient) next
    refine ⟨hunmoved.stalled hstalled, ?_, hunmoved.stallOver_eq.trans hfree.2⟩
    exact Bool.eq_false_of_not_eq_true fun hb => absurd (hfree.1.symm.trans (hblocked hclient hb)) (by decide)

section Schedule

variable (opts listing) in
def after (m : Monitor n) (schedule : Nat → Turn n) : Nat → Monitor n
  | 0 => m
  | k + 1 => ((m.after schedule k).turn opts listing (schedule k)).getD (m.after schedule k)

variable {schedule : Nat → Turn n} {k : Nat}

section

variable (hfail : opts.failAt = .none) (ht : 1 ≤ opts.l0CompactionTrigger)
include hfail ht

theorem Inv.after (h : m.Inv) (k : Nat) : (m.after opts listing schedule k).Inv := by
  induction k with
  | zero => exact h
  | succ k ih =>
    rw [Monitor.after]
    cases hturn : (m.after opts listing schedule k).turn opts listing (schedule k) with
    | none => exact ih
    | some => exact ih.turn hfail ht hturn

theorem Inv.waits_on (h : m.Inv) (hstalled : m.Stalled c) (hwaits : ¬ m.Free c) (t : Turn n) :
    m.Advances ((m.turn opts listing t).getD m) c ∨
      t ≠ .act .background ∧ m.Unmoved ((m.turn opts listing t).getD m) c ∧
        ¬ ((m.turn opts listing t).getD m).Free c := by
  by_cases hbackground : t = .act .background
  · subst hbackground
    have hrun := @Inv.can_run n opts listing m c h hstalled
    rw [if_neg hwaits] at hrun
    obtain ⟨s, hs, hturn⟩ := hrun
    rw [hturn]
    exact Or.inl (h.background_advances hfail ht hstalled hwaits hs)
  · cases hturn : m.turn opts listing t with
    | none => exact Or.inr ⟨hbackground, .of_system rfl rfl, hwaits⟩
    | some m' =>
      obtain ⟨hunmoved, _⟩ := h.unmoved hfail hstalled hbackground (fun _ => hwaits) hturn
      by_cases hfree : m'.Free c
      · exact Or.inl (advances_of_quiet (hunmoved.stalled hstalled) hwaits hunmoved.finished
          fun hnot => absurd hfree hnot)
      · exact Or.inr ⟨hbackground, hunmoved, hfree⟩

theorem Inv.ended_by (h : m.Inv)
    (hstalled : m.Stalled c) (hwaits : ∀ j < k, ¬ (m.after opts listing schedule j).Free c) :
    (m.after opts listing schedule k).Stalled c ∧
      ∃ ops, (m.after opts listing schedule k).finished = ops ++ m.finished ∧ ops.reverse <+: m.ahead ∧
        (¬ (m.after opts listing schedule k).Free c →
          m.ahead = ops.reverse ++ (m.after opts listing schedule k).ahead) := by
  induction k with
  | zero => exact ⟨hstalled, [], rfl, List.nil_prefix, fun _ => rfl⟩
  | succ k ih =>
    obtain ⟨hstalled', ops, hfinished, _, hahead⟩ := ih fun j hj => hwaits j (Nat.lt_succ_of_lt hj)
    have hnow := hwaits k (Nat.lt_succ_self k)
    have hsplit := hahead hnow
    rcases (h.after hfail ht k).waits_on hfail ht hstalled' hnow (schedule k) with
      ⟨hnext, _, ops', hfinished', hended⟩ | ⟨_, hunmoved, _⟩
    · refine ⟨hnext, ops' ++ ops, ?_, ?_, fun hnot => ?_⟩
      · rw [Monitor.after, hfinished', hfinished, List.append_assoc]
      · rw [hsplit, List.reverse_append]
        refine List.prefix_append_right_inj _ |>.mpr ?_
        rcases hended with ⟨_, hprefix⟩ | ⟨_, heq⟩
        · exact hprefix
        · exact heq ▸ List.prefix_append _ _
      · rcases hended with ⟨hfree, _⟩ | ⟨_, heq⟩
        · exact absurd hfree hnot
        · rw [hsplit, heq, List.reverse_append, List.append_assoc]
          rfl
    · refine ⟨hunmoved.stalled hstalled', ops, ?_, hsplit ▸ List.prefix_append _ _, fun _ => ?_⟩
      · rw [Monitor.after, hunmoved.finished, hfinished]
      · rw [hsplit, ← hunmoved.ahead_eq]
        rfl

def waitsFor (m : Monitor n) (c : Fin n) : Turn n := if m.Free c then .act (.client c) else .act .background

theorem Inv.descends (h : m.Inv) (hstalled : (m.after opts listing schedule k).Stalled c) :
    FairRun.Descends (· < ·) (fun k => ¬ (m.after opts listing schedule k).Stalled c)
      (fun k => (m.after opts listing schedule k).stallRank c)
      (fun k => (m.after opts listing schedule k).waitsFor c) (fun k t => schedule k = t) k := by
  have hinv := @Inv.after n opts listing m schedule hfail ht h k
  by_cases hfree : (m.after opts listing schedule k).Free c
  · by_cases hclient : schedule k = .act (.client c)
    · have hrun := @Inv.can_run n opts listing _ c hinv hstalled
      rw [if_pos hfree] at hrun
      obtain ⟨m', hturn, hleft⟩ := hrun
      refine .inl ?_
      change ¬ (((m.after opts listing schedule k).turn opts listing (schedule k)).getD _).Stalled c
      rw [hclient, hturn]
      exact hleft
    · have hnext : (m.after opts listing schedule (k + 1)).Free c := by
        rw [Monitor.after]
        cases hturn : (m.after opts listing schedule k).turn opts listing (schedule k) with
        | none => exact hfree
        | some => exact (hinv.keeps_free hfail ht hstalled hfree hclient hturn).2
      refine .inr (.inr ⟨?_, ?_, ?_⟩)
      · simp only [stallRank, if_pos hfree, if_pos hnext]
      · simp only [waitsFor, if_pos hfree, if_pos hnext]
      · simpa only [waitsFor, if_pos hfree] using hclient
  · rcases hinv.waits_on hfail ht hstalled hfree (schedule k) with hadvances | ⟨hbackground, hunmoved, hnot⟩
    · exact .inr (.inl hadvances.closer)
    · have hnot' : ¬ (m.after opts listing schedule (k + 1)).Free c := hnot
      refine .inr (.inr ⟨?_, ?_, ?_⟩)
      · exact hunmoved.stallRank_eq ⟨fun hf => absurd hf hnot, fun hf => absurd hf hfree⟩
      · simp only [waitsFor, if_neg hfree, if_neg hnot']
      · simpa only [waitsFor, if_neg hfree] using hbackground

theorem Inv.leaves (h : m.Inv) (hbackground : ∀ i, ∃ j, i ≤ j ∧ schedule j = .act .background)
    (hclient : ∀ i, ∃ j, i ≤ j ∧ schedule j = .act (.client c)) :
    ∃ k, ¬ (m.after opts listing schedule k).Stalled c := by
  have hdone := FairRun.reaches_done (fun k => ¬ (m.after opts listing schedule k).Stalled c)
    (fun k => (m.after opts listing schedule k).stallRank c)
    (fun k => (m.after opts listing schedule k).waitsFor c) (fun k t => schedule k = t) wellFounded_lt
    (fun k hk => h.descends hfail ht (not_not.mp hk)) (fun k _ => ?_) 0
  · obtain ⟨k, _, hk⟩ := hdone
    exact ⟨k, hk⟩
  · dsimp only [waitsFor]
    split
    · obtain ⟨j, hle, hj⟩ := hclient k
      exact ⟨j, hle, .inr hj⟩
    · obtain ⟨j, hle, hj⟩ := hbackground k
      exact ⟨j, hle, .inr hj⟩

end

/-- Without fail points no stall lasts for ever. While the client is blocked the
background thread is awake; somebody can always run; and if both are scheduled again
and again, the client can go on after at most the operation that was in progress and
one flush, and it does. -/
theorem stall_ends (hfail : opts.failAt = .none) (ht : 1 ≤ opts.l0CompactionTrigger)
    (hreach : Reachable opts listing m) (hstalled : m.Stalled c) :
    (m.blocked c = true → m.asleep = false ∧ m.system.engine.background ≠ .exited) ∧
    (m.turn opts listing (m.waitsFor c)).isSome = true ∧
    ∀ schedule : Nat → Turn n, (∀ i, ∃ j, i ≤ j ∧ schedule j = .act .background) →
      (∀ i, ∃ j, i ≤ j ∧ schedule j = .act (.client c)) →
      ∃ k, (m.after opts listing schedule k).Free c ∧ (∀ j ≤ k, (m.after opts listing schedule j).Stalled c) ∧
        (∃ ops, (m.after opts listing schedule k).finished = ops ++ m.finished ∧ ops.reverse <+: m.ahead) ∧
        ∃ j, k < j ∧ ¬ (m.after opts listing schedule j).Stalled c := by
  have hinv := hreach.inv hfail ht
  refine ⟨fun hblocked => ?_, ?_, fun schedule hbackground hclient => ?_⟩
  · exact hinv.awake hstalled fun hfree => absurd (hfree.1.symm.trans hblocked) (by decide)
  · have hrun := @Inv.can_run n opts listing m c hinv hstalled
    unfold waitsFor
    split at hrun
    next hfree =>
      obtain ⟨m', hturn, _⟩ := hrun
      rw [if_pos hfree, hturn]
      rfl
    next hwaits =>
      obtain ⟨s, _, hturn⟩ := hrun
      rw [if_neg hwaits, hturn]
      rfl
  · obtain ⟨last, hlast⟩ : ∃ k, ¬ (m.after opts listing schedule k).Stalled c :=
      hinv.leaves hfail ht hbackground hclient
    -- the first moment at which it can go on comes before it has gone on
    have hexists : ∃ k, (m.after opts listing schedule k).Free c := by
      by_contra hnone
      exact hlast (hinv.ended_by hfail ht hstalled fun j _ hj => hnone ⟨j, hj⟩).1
    classical
    let k := Nat.find hexists
    have hbefore : ∀ j ≤ k, (m.after opts listing schedule j).Stalled c := fun j hj =>
      (hinv.ended_by hfail ht hstalled fun i hi => Nat.find_min hexists (hi.trans_le hj)).1
    obtain ⟨_, ops, hfinished, hprefix, _⟩ :=
      @Inv.ended_by n opts listing m c schedule k hfail ht hinv hstalled fun i hi => Nat.find_min hexists hi
    refine ⟨k, Nat.find_spec hexists, hbefore, ⟨ops, hfinished, hprefix⟩, last, ?_, hlast⟩
    exact Nat.lt_of_not_le fun hle => hlast (hbefore last hle)

end Schedule

def runTurns (opts : LsmOptions) (listing : Listing) (m : Monitor n) (turns : List (Turn n)) :
    Option (Monitor n) :=
  turns.foldlM (fun m t => m.turn opts listing t) m

theorem reachable_runTurns (hreach : Reachable opts listing m)
    (h : m.runTurns opts listing turns = some m') : Reachable opts listing m' := by
  induction turns generalizing m with
  | nil =>
    cases h
    exact hreach
  | cons t turns ih =>
    obtain ⟨m₁, hturn, hrest⟩ := Option.bind_eq_some_iff.mp h
    exact ih (hreach.turn hturn) hrest

def runFresh (n : Nat) (opts : LsmOptions) (turns : List (Turn n)) : Option (Monitor n) :=
  (System.fresh n opts .asStored).bind fun s =>
    runTurns opts .asStored ⟨s, false, fun _ => false, fun _ => false, []⟩ turns

theorem reachable_runFresh (h : runFresh n opts turns = some m) : Reachable opts .asStored m := by
  obtain ⟨s, hs, hrun⟩ := Option.bind_eq_some_iff.mp h
  obtain ⟨env, r, rfl⟩ := System.fresh_opened hs
  exact reachable_runTurns (.opened env r) hrun

def putTurns (key : Key) (pieces : Nat) : List (Turn 1) :=
  .act (.call 0 (.put key (text "x"))) :: List.replicate pieces (.act (.client 0))

def alternate (k : Nat) : Turn 1 := if k % 2 = 0 then .act .background else .act (.client 0)

/-- A third put waits for the flush of the first. -/
theorem stall_ends_third_put :
    ∃ m : Monitor 1, Reachable { memtableSize := 1 } .asStored m ∧ m.blocked 0 = true ∧
      m.asleep = false ∧ ∃ j, ¬ (m.after { memtableSize := 1 } .asStored alternate j).Stalled 0 := by
  let opts : LsmOptions := { memtableSize := 1 }
  have h : ∃ m ∈ runFresh 1 opts (putTurns (text "a") 4 ++ putTurns (text "b") 6 ++ putTurns (text "c") 2),
      m.Stalled 0 ∧ m.blocked 0 = true := by decide +kernel
  obtain ⟨m, hm, hstalled, hblocked⟩ := h
  have hreach := reachable_runFresh hm
  obtain ⟨hawake, _, hends⟩ := @stall_ends 1 opts .asStored m 0 rfl (by decide) hreach hstalled
  obtain ⟨k, _, _, _, j, _, hj⟩ := hends alternate
    (fun i => ⟨2 * i, by omega, by simp [alternate]⟩)
    (fun i => ⟨2 * i + 1, by omega, by simp [alternate, Nat.add_mod]⟩)
  exact ⟨m, hreach, hblocked, (hawake hblocked).1, j, hj⟩

/-- The thread is removing the log of a flush when the next memtable is frozen and
the one after is full: two flushes end before the writer can go on. -/
theorem stall_outlasts_two_flushes :
    ∃ (m : Monitor 1) (schedule : Nat → Turn 1) (k : Nat), Reachable { memtableSize := 1 } .asStored m ∧
      m.Stalled 0 ∧ m.system.engine.background.phase = .retiring ∧
      (∀ j < k, ¬ (m.after { memtableSize := 1 } .asStored schedule j).Free 0) ∧
      (m.after { memtableSize := 1 } .asStored schedule k).finished = .flush :: .flush :: m.finished := by
  let opts : LsmOptions := { memtableSize := 1 }
  let schedule (k : Nat) : Turn 1 := if k = 2 then .act (.client 0) else .act .background
  have h : ∃ m ∈ runFresh 1 opts (putTurns (text "a") 4 ++ putTurns (text "b") 6 ++
      List.replicate 11 (.act .background) ++ putTurns (text "c") 6 ++ putTurns (text "d") 2),
      m.Stalled 0 ∧ m.system.engine.background.phase = .retiring ∧
      (∀ j ∈ List.range 15, ¬ (m.after opts .asStored schedule j).Free 0) ∧
      (m.after opts .asStored schedule 15).finished = .flush :: .flush :: m.finished := by decide +kernel
  obtain ⟨m, hm, hstalled, hphase, hwaits, hfinished⟩ := h
  exact ⟨m, schedule, 15, reachable_runFresh hm, hstalled, hphase, fun j hj => hwaits j (List.mem_range.mpr hj),
    hfinished⟩

end Monitor

end KVStore
