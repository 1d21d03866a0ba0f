import KVStore.Lib.Sinking
import KVStore.LsmFileIds
import KVStore.OutputLimits

namespace KVStore

open Lib Levels Sizes

namespace Levels

variable {opts : LsmOptions} {levels : Levels} {i j b : Nat}

def deepest : Levels → Nat
  | [] => 0
  | _ :: deeper => if deeper.all List.isEmpty then 0 else deepest deeper + 1

def floor (opts : LsmOptions) (levels : Levels) : Nat := max 1 (max (opts.maxLevels - 1) levels.deepest)

def entryCount (level : List SSTable) : Nat := (runOf level).length

/-- What a forced compaction has to do at most: every entry sinks to the floor,
and L0 is emptied. -/
def weight (opts : LsmOptions) (levels : Levels) : Nat :=
  Sinking.potential (levels.floor opts) (levels.map entryCount) + levels.l0.length

def Within (b : Nat) (levels : Levels) : Prop := ∀ i, levels.Holds i → i ≤ b

def DeeperFilled (levels : Levels) : Prop := ∀ level ∈ levels.tail, ∀ t ∈ level, t.entries ≠ []

theorem deepest_le_iff : levels.deepest ≤ b ↔ levels.Within b := by
  induction levels generalizing b with
  | nil => exact ⟨fun _ i h => absurd rfl h, fun _ => Nat.zero_le _⟩
  | cons level deeper ih =>
    rw [deepest]
    split
    next hempty =>
      refine ⟨fun _ i hi => ?_, fun _ => Nat.zero_le _⟩
      cases i with
      | zero => exact Nat.zero_le _
      | succ => exact absurd (List.isEmpty_iff.mp (List.all_eq_true.mp hempty _ (mem_of_holds hi))) hi
    next hsome =>
      cases b with
      | zero =>
        refine ⟨fun h => absurd h (Nat.not_succ_le_zero _), fun h => absurd ?_ hsome⟩
        refine List.all_eq_true.mpr fun level hlevel => ?_
        by_contra hne
        obtain ⟨i, hi⟩ := exists_holds hlevel (by simpa using hne)
        exact absurd (h (i + 1) hi) (Nat.not_succ_le_zero _)
      | succ =>
        rw [Nat.succ_le_succ_iff, ih]
        refine ⟨fun h i hi => ?_, fun h i hi => Nat.le_of_succ_le_succ (h (i + 1) hi)⟩
        cases i with
        | zero => exact Nat.zero_le _
        | succ i => exact Nat.succ_le_succ (h i hi)

theorem within_deepest (levels : Levels) : levels.Within levels.deepest := deepest_le_iff.mp le_rfl

theorem within_floor (opts : LsmOptions) (levels : Levels) : levels.Within (levels.floor opts) :=
  fun i hi => (within_deepest levels i hi).trans (le_max_of_le_right (le_max_right _ _))

theorem holds_unique (h : shallowestWithBelow i levels = none) {k l : Nat} (hk : levels.Holds k)
    (hl : levels.Holds l) : k = l := by
  induction levels generalizing i k l with
  | nil => exact absurd rfl hk
  | cons level deeper ih =>
    rw [shallowestWithBelow] at h
    split_ifs at h with hc
    -- A level that holds something cannot lie below one that does.
    have hfirst (hlevel : level ≠ []) {m : Nat} (hm : Holds deeper m) : False := by
      refine hc (Bool.and_eq_true_iff.mpr ⟨by simpa using hlevel, ?_⟩)
      exact List.any_eq_true.mpr ⟨_, mem_of_holds hm, by simpa [Holds] using hm⟩
    cases k with
    | zero =>
      cases l with
      | zero => rfl
      | succ => exact (hfirst hk hl).elim
    | succ =>
      cases l with
      | zero => exact (hfirst hl hk).elim
      | succ => exact congrArg _ (ih h hk hl)

theorem Chosen.level_lt {force : Bool} {level : Nat} {inputs : List SSTable}
    (h : Chosen opts levels force level inputs) : level < levels.floor opts := by
  cases h with
  | forced _ below =>
    obtain ⟨k, hk, hholds⟩ := below
    exact hk.trans_le (within_floor opts levels k hholds)
  | trigger => exact Nat.lt_of_lt_of_le Nat.one_pos (le_max_left _ _)
  | budget _ inner =>
    have hmax : opts.maxLevels - 1 ≤ levels.floor opts := le_max_of_le_right (le_max_left _ _)
    omega

theorem entryCount_append (a b : List SSTable) : entryCount (a ++ b) = entryCount a + entryCount b := by
  rw [entryCount, runOf_append, List.length_append]
  rfl

theorem entryCount_perm {a b : List SSTable} (h : a.Perm b) : entryCount a = entryCount b :=
  (h.map SSTable.entries).flatten.length_eq

theorem entryCount_sublist {a b : List SSTable} (h : a.Sublist b) : entryCount a ≤ entryCount b :=
  (h.map SSTable.entries).flatten.length_le

theorem entryCount_partition (p : SSTable → Bool) (level : List SSTable) :
    entryCount (level.filter p) + entryCount (level.filter fun t => !p t) = entryCount level := by
  rw [← entryCount_append]
  exact entryCount_perm (List.filter_append_perm p level)

theorem entryCount_pos {t : SSTable} {level : List SSTable} (ht : t ∈ level) (h : t.entries ≠ []) :
    1 ≤ entryCount level := by
  have hone := entryCount_sublist (List.singleton_sublist.mpr ht)
  have hpos := List.length_pos_of_ne_nil h
  simp only [entryCount, runOf_cons, runOf_nil, List.append_nil] at hone ⊢
  omega

theorem map_entryCount_cut {above deeper : Levels} {source target : List SSTable}
    (hcut : Cut levels i above source target deeper) (height : Nat) :
    Sinking.potential height (levels.map entryCount) = Sinking.potential height
      (above.map entryCount ++ entryCount source :: entryCount target :: deeper.map entryCount) := by
  rcases hcut.split with rfl | ⟨rfl, rfl, rfl⟩
  · simp
  · simp [Sinking.potential_append, Sinking.potential, entryCount]

end Levels

namespace Compaction

variable {opts : LsmOptions} {c : Compaction} {levels above deeper : Levels}
  {source target outs : List SSTable}

theorem Writes.entryCount_le (hw : c.Writes outs) : entryCount outs ≤ entryCount c.inputs + entryCount c.overlaps := by
  have hmerged : c.merged.length ≤ (runOf c.inputs ++ runOf c.overlaps).length := by
    rw [← flatten_tables]
    exact KWayMerge.length_merge_le _
  rw [entryCount, hw.run, List.length_map]
  rw [List.length_append] at hmerged
  exact (List.length_filter_le _ _).trans hmerged

theorem isRetired_of_mem {t : SSTable} (h : t ∈ c.tables) : c.isRetired t = true :=
  decide_eq_true (List.mem_map_of_mem h)

theorem entryCount_kept_source (hfrom : c.inputs = source ∨ ∃ t ∈ source, c.inputs = [t]) :
    entryCount (c.kept source) + entryCount c.inputs ≤ entryCount source := by
  have hpart := entryCount_partition c.isRetired source
  suffices h : entryCount c.inputs ≤ entryCount (source.filter c.isRetired) by
    rw [kept]
    omega
  apply entryCount_sublist
  rcases hfrom with hall | ⟨t, ht, hone⟩
  · rw [← hall, List.filter_eq_self.mpr fun t ht => isRetired_of_mem (List.mem_append_left _ ht)]
  · rw [hone, List.singleton_sublist]
    exact List.mem_filter.mpr ⟨ht, isRetired_of_mem (List.mem_append_left _ (by simp [hone]))⟩

theorem entryCount_kept_target {p : SSTable → Bool} (hover : c.overlaps = target.filter p) :
    entryCount (c.kept target) + entryCount c.overlaps ≤ entryCount target := by
  have hpart := entryCount_partition c.isRetired target
  suffices h : entryCount c.overlaps ≤ entryCount (target.filter c.isRetired) by
    rw [kept]
    omega
  apply entryCount_sublist
  have hretired : c.overlaps.filter c.isRetired = c.overlaps :=
    List.filter_eq_self.mpr fun t ht => isRetired_of_mem (List.mem_append_right _ ht)
  rw [← hretired, hover, List.filter_comm]
  exact List.filter_sublist

section

variable (hcut : Cut levels c.level above source target deeper)
include hcut

theorem within_rebuild {b : Nat}
    (hin : levels.Within b) (hlevel : c.level + 1 ≤ b) : Levels.Within b (c.rebuild levels outs) := by
  intro i hi
  by_cases hnear : i ≤ c.level + 1
  · exact hnear.trans hlevel
  · -- Below the output level nothing has changed.
    rw [Holds, getD_rebuild hcut, if_neg (by omega), if_neg (by omega)] at hi
    exact hin i hi

theorem floor_rebuild_le (hlevel : c.level < levels.floor opts) :
    Levels.floor opts (c.rebuild levels outs) ≤ levels.floor opts := by
  have hin : Levels.Within (levels.floor opts) (c.rebuild levels outs) :=
    within_rebuild hcut (within_floor opts levels) hlevel
  exact max_le (le_max_left _ _) (max_le (le_max_of_le_right (le_max_left _ _)) (deepest_le_iff.mpr hin))

theorem deeperFilled_rebuild (hfilled : levels.DeeperFilled) (hw : c.Writes outs) : Levels.DeeperFilled (c.rebuild levels outs) := by
  intro level hlevel
  rw [rebuild_eq c outs hcut.level hcut.split] at hlevel
  have hsome := mem_tail_of_mem_tail_rdropWhile hlevel
  have hdeeper {l : List SSTable} (hl : l ∈ deeper) : ∀ t ∈ l, t.entries ≠ [] :=
    hfilled l (hcut.mem_tail_of_mem_deeper hl)
  have htarget {t : SSTable} (ht : t ∈ target) : t.entries ≠ [] := by
    rcases hcut.split with rfl | ⟨_, rfl, _⟩
    · refine hfilled target ?_ t ht
      cases above <;> simp
    · cases ht
  have hout : ∀ t ∈ sortByMinKey (target.filter (fun t => !c.isRetired t) ++ outs), t.entries ≠ [] := by
    intro t ht
    rcases List.mem_append.mp ((sortByMinKey_perm _).mem_iff.mp ht) with ht | ht
    · exact htarget (List.mem_of_mem_filter ht)
    · exact hw.nonempty t ht
  cases above with
  | nil =>
    rcases List.mem_cons.mp hsome with rfl | hl
    · exact hout
    · exact hdeeper hl
  | cons =>
    rcases List.mem_append.mp hsome with hl | hl
    · exact hfilled level (hcut.mem_tail_of_mem_above hl)
    · rcases List.mem_cons.mp hl with rfl | hl
      · intro t ht
        refine hfilled source ?_ t (List.mem_of_mem_filter ht)
        rcases hcut.split with rfl | ⟨rfl, _, _⟩ <;> simp
      · rcases List.mem_cons.mp hl with rfl | hl
        · exact hout
        · exact hdeeper hl

end

theorem weight_rebuild_lt {compactPointer : List Key} {force : Bool} (hfilled : levels.DeeperFilled)
    (hpick : pickCompaction opts levels compactPointer force = .work c) (hw : c.Writes outs) :
    Levels.weight opts (c.rebuild levels outs) < levels.weight opts := by
  obtain ⟨hfrom, first, _, hc⟩ := pickCompaction_spec hpick
  obtain ⟨source, hsource, hinputs⟩ := hfrom.source
  obtain ⟨above, target, deeper, hcut⟩ := exists_cut hsource
  have hlevel := (chosen_of_pick hpick).1.level_lt
  have hkept := entryCount_kept_source (hinputs.imp_right And.right)
  obtain ⟨p, hover⟩ : ∃ p : SSTable → Bool, c.overlaps = target.filter p := by
    rw [← hcut.getD_succ]
    exact ⟨_, congrArg Compaction.overlaps hc⟩
  have htarget : entryCount (sortByMinKey (c.kept target ++ outs)) ≤ entryCount target + entryCount c.inputs := by
    have hoverlaps := entryCount_kept_target hover
    have houts := hw.entryCount_le
    rw [entryCount_perm (sortByMinKey_perm _), entryCount_append]
    omega
  have hsink := Sinking.potential_sink (levels.floor opts) (above.map entryCount) (deeper.map entryCount)
    (by simpa [← hcut.level] using hlevel) hkept htarget
  have hpotential : Sinking.potential (levels.floor opts) ((c.rebuild levels outs).map entryCount) +
      entryCount c.inputs ≤ Sinking.potential (levels.floor opts) (levels.map entryCount) := by
    rw [map_entryCount_cut hcut, rebuild_eq c outs hcut.level hcut.split]
    refine le_trans (Nat.add_le_add_right
      (Sinking.potential_prefix_le ((List.rdropWhile_prefix _ _).map entryCount)) _) ?_
    simpa [kept] using hsink
  have hfloor : Levels.floor opts (c.rebuild levels outs) ≤ levels.floor opts := floor_rebuild_le hcut hlevel
  have hlower := Sinking.potential_mono hfloor ((c.rebuild levels outs).map entryCount)
  have hl0 : (Levels.l0 (c.rebuild levels outs)).length ≤ levels.l0.length :=
    (l0_rebuild_sublist hcut).length_le
  unfold weight
  by_cases hzero : c.level = 0
  · -- A merge of L0 takes all of it.
    have hall : c.inputs = source := hinputs.resolve_right fun h => by omega
    obtain rfl : above = [] := List.eq_nil_of_length_eq_zero (hcut.level.symm.trans hzero)
    have hbefore : levels.l0 = source := by
      rcases hcut.split with h | ⟨h, _, _⟩ <;> rw [h] <;> rfl
    have hafter : Levels.l0 (c.rebuild levels outs) = [] := by
      have hnone : source.filter (fun t => !c.isRetired t) = [] := by
        refine List.filter_eq_nil_iff.mpr fun t ht => ?_
        simp [isRetired_of_mem (List.mem_append_left _ (hall ▸ ht))]
      rw [rebuild_eq c outs hcut.level hcut.split, hnone]
      exact List.sublist_nil.mp (l0_rdropWhile_sublist _)
    have hsome := List.length_pos_of_ne_nil hfrom.nonempty
    rw [hafter, hbefore, ← hall, List.length_nil]
    omega
  · have hmoved : 1 ≤ entryCount c.inputs := by
      obtain ⟨t, ht⟩ := List.exists_mem_of_ne_nil _ hfrom.nonempty
      have hin : t ∈ source := by
        rcases hinputs with hall | ⟨_, t', ht', hone⟩
        · exact hall ▸ ht
        · rw [hone, List.mem_singleton] at ht
          exact ht ▸ ht'
      refine entryCount_pos ht (hfilled source ?_ t hin)
      obtain ⟨k, hk⟩ : ∃ k, c.level = k + 1 := ⟨c.level - 1, by omega⟩
      rw [hk, ← List.getElem?_tail] at hsource
      exact List.mem_of_getElem? hsource
    omega

end Compaction

/-- What a compaction run works on: the levels, where the last compaction of each
level stopped, and the next file id. -/
structure Tree where
  levels : Levels
  compactPointer : List Key
  nextId : FileId

namespace Tree

variable (opts : LsmOptions) (t : Tree)

def pick : Pick :=
  match pickCompaction opts t.levels t.compactPointer false with
  | .nothing => pickCompaction opts t.levels t.compactPointer true
  | picked => picked

def forcedStep : Option Tree :=
  match t.pick opts with
  | .work c =>
    let ids := List.iterate nextFileId t.nextId (c.outputs opts).1.length
    (c.compactOnce opts t.levels ids).map fun levels =>
      { levels
        compactPointer := Engine.setPointer t.compactPointer c.level c.endKey
        nextId := nextFileId^[ids.length] t.nextId }
  | _ => none

def after : Nat → Tree → Option Tree
  | 0, t => some t
  | n + 1, t => (t.forcedStep opts).bind (after n)

def Quiet : Prop :=
  pickCompaction opts t.levels t.compactPointer false = .nothing ∧
    pickCompaction opts t.levels t.compactPointer true = .nothing

variable {opts t} {t' : Tree} {c : Compaction}

theorem exists_pickCompaction (h : t.pick opts = .work c) :
    ∃ force, pickCompaction opts t.levels t.compactPointer force = .work c := by
  unfold pick at h
  split at h
  · exact ⟨true, h⟩
  · exact ⟨false, h⟩

theorem not_quiet_of_pick (h : t.pick opts = .work c) : ¬ t.Quiet opts := by
  rintro ⟨hfirst, hforced⟩
  rw [pick, hfirst] at h
  exact Pick.noConfusion (hforced.symm.trans h)

theorem quiet_or_pick (ht : 1 ≤ opts.l0CompactionTrigger) (t : Tree) :
    t.Quiet opts ∨ ∃ c, t.pick opts = .work c := by
  have hdefined := pickCompaction_ne_undefined ht t.levels t.compactPointer
  cases hfirst : pickCompaction opts t.levels t.compactPointer false with
  | undefined => exact absurd hfirst (hdefined false)
  | work c => exact Or.inr ⟨c, by rw [pick, hfirst]⟩
  | nothing =>
    cases hforced : pickCompaction opts t.levels t.compactPointer true with
    | undefined => exact absurd hforced (hdefined true)
    | work c => exact Or.inr ⟨c, by rw [pick, hfirst, hforced]⟩
    | nothing => exact Or.inl ⟨hfirst, hforced⟩

theorem Quiet.forcedStep_eq_none (h : t.Quiet opts) : t.forcedStep opts = none := by
  rw [forcedStep, pick, h.1]
  rw [h.2]

theorem Quiet.holds_unique {i j : Nat} (h : t.Quiet opts) (hi : t.levels.Holds i) (hj : t.levels.Holds j) :
    i = j := by
  refine Levels.holds_unique ?_ hi hj (i := 0)
  have hforced := h.2
  unfold pickCompaction at hforced
  split at hforced
  next hnone => simpa [chooseInputs] using hnone
  · cases hforced
  · cases hforced

theorem forcedStep_spec (h : t.forcedStep opts = some t') :
    ∃ c outs, t.pick opts = .work c ∧ c.Writes outs ∧ t'.levels = c.rebuild t.levels outs := by
  unfold forcedStep at h
  split at h
  next c hpick =>
    obtain ⟨levels, hmerge, rfl⟩ := Option.map_eq_some_iff.mp h
    obtain ⟨outs, hw, rfl⟩ := Compaction.compactOnce_eq_some hmerge
    exact ⟨c, outs, hpick, hw, rfl⟩
  · cases h

theorem exists_forcedStep_iff (h : t.pick opts = .work c) :
    (∃ t', t.forcedStep opts = some t') ↔ c.OutputsFit opts := by
  rw [← Compaction.outputs_ok_iff, forcedStep, h]
  dsimp only
  rw [Compaction.compactOnce]
  rcases houtputs : c.outputs opts with ⟨files, _ | s⟩
  · simp
  · simp

theorem merge_levels {outs : List SSTable} (hfilled : t.levels.DeeperFilled) (hpick : t.pick opts = .work c)
    (hw : c.Writes outs) :
    Levels.DeeperFilled (c.rebuild t.levels outs) ∧ Levels.weight opts (c.rebuild t.levels outs) < t.levels.weight opts ∧
      Levels.floor opts (c.rebuild t.levels outs) ≤ t.levels.floor opts := by
  obtain ⟨force, hpick⟩ := exists_pickCompaction hpick
  obtain ⟨source, hsource, _⟩ := (pickCompaction_spec hpick).1.source
  obtain ⟨above, target, deeper, hcut⟩ := exists_cut hsource
  exact ⟨Compaction.deeperFilled_rebuild hcut hfilled hw, Compaction.weight_rebuild_lt hfilled hpick hw,
    Compaction.floor_rebuild_le hcut (chosen_of_pick hpick).1.level_lt⟩

theorem step_levels (hfilled : t.levels.DeeperFilled) (h : t.forcedStep opts = some t') :
    t'.levels.DeeperFilled ∧ t'.levels.weight opts < t.levels.weight opts ∧
      t'.levels.floor opts ≤ t.levels.floor opts := by
  obtain ⟨c, outs, hpick, hw, hlevels⟩ := forcedStep_spec h
  rw [hlevels]
  exact merge_levels hfilled hpick hw

theorem after_levels {n : Nat} (hfilled : t.levels.DeeperFilled) (h : t.after opts n = some t') :
    t'.levels.DeeperFilled ∧ n + t'.levels.weight opts ≤ t.levels.weight opts ∧
      t'.levels.floor opts ≤ t.levels.floor opts := by
  induction n generalizing t with
  | zero =>
    cases h
    exact ⟨hfilled, by omega, le_rfl⟩
  | succ n ih =>
    obtain ⟨mid, hstep, hrest⟩ := Option.bind_eq_some_iff.mp h
    obtain ⟨hmid, hweight, hfloor⟩ := step_levels hfilled hstep
    obtain ⟨hend, hweight', hfloor'⟩ := ih hmid hrest
    exact ⟨hend, by omega, hfloor'.trans hfloor⟩

theorem after_add {n m : Nat} : t.after opts (n + m) = (t.after opts n).bind (after opts m) := by
  induction n generalizing t with
  | zero => simp [after]
  | succ n ih =>
    rw [Nat.add_right_comm, after, after, Option.bind_assoc]
    exact congrArg _ (funext fun mid => ih)

theorem exists_quiet (ht : 1 ≤ opts.l0CompactionTrigger) (hfilled : t.levels.DeeperFilled)
    (hfit : ∀ n t' c, t.after opts n = some t' → t'.pick opts = .work c → c.OutputsFit opts) :
    ∃ n final, t.after opts n = some final ∧ final.Quiet opts := by
  induction hw : t.levels.weight opts using Nat.strong_induction_on generalizing t with
  | _ w ih =>
    rcases quiet_or_pick ht t with hquiet | ⟨c, hpick⟩
    · exact ⟨0, t, rfl, hquiet⟩
    · obtain ⟨mid, hstep⟩ := (exists_forcedStep_iff hpick).mpr (hfit 0 t c rfl hpick)
      obtain ⟨hmid, hweight, _⟩ := step_levels hfilled hstep
      have hnext (n : Nat) : t.after opts (n + 1) = mid.after opts n := by rw [after, hstep]; rfl
      obtain ⟨n, final, hafter, hquiet⟩ := ih _ (hw ▸ hweight) hmid
        (fun n t' c hafter => hfit (n + 1) t' c ((hnext n).trans hafter)) rfl
      exact ⟨n + 1, final, (hnext n).trans hafter, hquiet⟩

theorem outputsFit_of_quiet {n m : Nat} {final mid : Tree} (hfinal : t.after opts n = some final)
    (hquiet : final.Quiet opts) (hmid : t.after opts m = some mid) (hpick : mid.pick opts = .work c) :
    c.OutputsFit opts := by
  rw [← exists_forcedStep_iff hpick]
  by_contra hstuck
  have hstop : mid.forcedStep opts = none := by
    cases hstep : mid.forcedStep opts with
    | none => rfl
    | some t' => exact absurd ⟨t', hstep⟩ hstuck
  rcases Nat.lt_trichotomy n m with hlt | rfl | hlt
  · obtain ⟨k, rfl⟩ : ∃ k, m = n + (k + 1) := ⟨m - n - 1, by omega⟩
    rw [after_add, hfinal, Option.bind_some, after, hquiet.forcedStep_eq_none] at hmid
    cases hmid
  · obtain rfl : final = mid := Option.some.inj (hfinal.symm.trans hmid)
    exact not_quiet_of_pick hpick hquiet
  · obtain ⟨k, rfl⟩ : ∃ k, n = m + (k + 1) := ⟨n - m - 1, by omega⟩
    rw [after_add, hmid, Option.bind_some, after, hstop] at hfinal
    cases hfinal

/-- Forced compaction ends, with everything in one level and nothing below the
floor it started with, exactly if no merge on the way outgrows the table format. -/
theorem forced_compaction_ends_iff (opts : LsmOptions) (ht : 1 ≤ opts.l0CompactionTrigger) (start : Tree)
    (hshaped : ∀ level ∈ start.levels.tail, Shaped level) :
    ((∃ n final, start.after opts n = some final ∧ final.Quiet opts ∧
        ∀ i j, final.levels.Holds i → final.levels.Holds j → i = j) ∧
      ∀ n t, start.after opts n = some t →
        ∀ i, t.levels.Holds i → i ≤ max 1 (max (opts.maxLevels - 1) start.levels.deepest)) ↔
    ∀ n t c, start.after opts n = some t → t.pick opts = .work c → c.OutputsFit opts := by
  have hfilled : start.levels.DeeperFilled := fun level hlevel => (hshaped level hlevel).nonempty
  constructor
  · rintro ⟨⟨n, final, hfinal, hquiet, _⟩, _⟩ m mid c hmid hpick
    exact outputsFit_of_quiet hfinal hquiet hmid hpick
  · intro hfit
    obtain ⟨n, final, hfinal, hquiet⟩ := exists_quiet ht hfilled hfit
    refine ⟨⟨n, final, hfinal, hquiet, fun i j hi hj => hquiet.holds_unique hi hj⟩, ?_⟩
    intro m t hm i hi
    exact (within_floor opts t.levels i hi).trans (after_levels hfilled hm).2.2

theorem forced_compaction_ends_two_levels :
    let newer := SSTable.ofBlock 2 [(text "a", ⟨[], true⟩)] 100 (by decide) (by decide)
    let older := SSTable.ofBlock 1 [(text "a", ⟨text "x", false⟩)] 100 (by decide) (by decide)
    let start : Tree := ⟨[[newer], [older]], [], 3⟩
    ((∃ n final, start.after {} n = some final ∧ final.Quiet {} ∧
        ∀ i j, final.levels.Holds i → final.levels.Holds j → i = j) ∧
      ∀ n t, start.after {} n = some t → ∀ i, t.levels.Holds i → i ≤ 6) ↔
    ∀ n t c, start.after {} n = some t → t.pick {} = .work c → c.OutputsFit {} :=
  forced_compaction_ends_iff {} (by decide) _ (by decide)

/-- A value close to the largest record, and two small ones around it that are
merged into its block: the merge that forced compaction picks cannot be written. -/
theorem forced_compaction_stuck : ∃ big : Value,
    let newer := SSTable.ofBlock 2 [(text "a", ⟨text "x", false⟩), (text "c", ⟨text "y", false⟩)] 112
      (by decide) (by decide)
    let older := SSTable.ofBlock 1 [(text "b", ⟨big, false⟩)] (2 ^ 32 + 76) (by simp) (by simp [SortedRun.Sorted])
    let opts : LsmOptions := { maxLevels := 2 }
    let start : Tree := ⟨[[newer], [older]], [], 3⟩
    (∀ level ∈ start.levels.tail, Shaped level) ∧
      ∀ n final, start.after opts n = some final → ¬ final.Quiet opts := by
  obtain ⟨big, hbig⟩ : ∃ big : Value, big.length = 2 ^ 32 - 24 := ⟨List.replicate _ 0, List.length_replicate⟩
  refine ⟨big, ?_⟩
  intro newer older opts start
  have hpick : start.pick opts = .work (workFor start.levels 0 newer [newer]) := rfl
  have hsurviving : (workFor start.levels 0 newer [newer]).surviving =
      [(text "a", ⟨text "x", false⟩), (text "b", ⟨big, false⟩), (text "c", ⟨text "y", false⟩)] := rfl
  -- The block that takes the big value already holds the first small one.
  have hlarge : blockSize ([(text "a", ⟨text "x", false⟩)] ++ [storedEntry (text "b", ⟨big, false⟩)]) =
      2 ^ 32 - 3 := by
    have hsmall : entrySize (text "a", ⟨text "x", false⟩) = 11 := by decide
    have hvalue : entrySize (storedEntry (text "b", ⟨big, false⟩)) = 10 + big.length := rfl
    simp only [blockSize, List.cons_append, List.nil_append, List.map_cons, List.map_nil, hsmall, hvalue,
      hbig]
    decide
  have hrefused : ¬ (workFor start.levels 0 newer [newer]).OutputsFit opts := by
    rintro ⟨_, hfits⟩
    rw [hsurviving] at hfits
    obtain ⟨t, ht, hmem⟩ := @exists_cut_of_full opts [] [(text "a", ⟨text "x", false⟩)]
      (text "b", ⟨big, false⟩) [(text "c", ⟨text "y", false⟩)] (by rw [hlarge]; decide)
    have hblock := (hfits t ht).1 _ hmem
    rw [BlockFits, hlarge] at hblock
    exact absurd hblock (by decide)
  constructor
  · intro level hlevel
    rw [List.mem_singleton.mp hlevel]
    exact ⟨fun t ht => List.mem_singleton.mp ht ▸ List.cons_ne_nil _ _, List.pairwise_singleton _ _⟩
  · intro n final hafter hquiet
    exact hrefused (outputsFit_of_quiet hafter hquiet (m := 0) rfl hpick)

end Tree

end KVStore
