import KVStore.CompactionMeaning

namespace KVStore

open Lib Levels

namespace Levels

def l0 (levels : Levels) : List SSTable := levels.headD []

def ids (levels : Levels) : List FileId := levels.flatten.map SSTable.id

variable {levels : Levels}

theorem oneTablePerId_of_nodup (h : levels.ids.Nodup) : OneTablePerId levels :=
  fun _ ht _ hs he => List.inj_on_of_nodup_map h ht hs he

theorem exists_picked {opts : LsmOptions} {compactPointer : List Key} {force : Bool}
    {c : Compaction} (hs : ∀ l ∈ levels.tail, Shaped l)
    (h : pickCompaction opts levels compactPointer force = .work c) :
    ∃ above source target deeper, Cut levels c.level above source target deeper ∧
      Picked source target deeper c := by
  obtain ⟨source, hsource, _⟩ := (pickCompaction_spec h).1.source
  obtain ⟨above, target, deeper, hcut⟩ := exists_cut hsource
  exact ⟨above, source, target, deeper, hcut, picked_of_pick hs hcut h⟩

theorem flatten_rdropWhile (levels : Levels) : (levels.rdropWhile List.isEmpty).flatten = levels.flatten := by
  induction levels using List.reverseRecOn with
  | nil => rfl
  | append_singleton levels level ih =>
    cases level with
    | nil => simpa using ih
    | cons => simp

theorem l0_rdropWhile_sublist (levels : Levels) : (l0 (levels.rdropWhile List.isEmpty)).Sublist levels.l0 := by
  obtain ⟨rest, hrest⟩ := List.rdropWhile_prefix List.isEmpty levels
  cases hd : levels.rdropWhile List.isEmpty with
  | nil => exact List.nil_sublist _
  | cons =>
    rw [hd] at hrest
    rw [← hrest]
    exact List.Sublist.refl _

theorem getD_rdropWhile (levels : Levels) (i : Nat) :
    (levels.rdropWhile List.isEmpty).getD i [] = levels.getD i [] := by
  induction levels using List.reverseRecOn with
  | nil => rfl
  | append_singleton levels level ih =>
    cases level with
    | nil =>
      rw [List.rdropWhile_concat_pos _ _ _ rfl, ih]
      rcases Nat.lt_or_ge i levels.length with hlt | hge
      · rw [List.getD_append _ _ _ _ hlt]
      · rw [List.getD_eq_default _ _ hge, List.getD_append_right _ _ _ _ hge]
        cases i - levels.length <;> rfl
    | cons => rw [List.rdropWhile_concat_neg _ _ _ (by simp)]

theorem mem_l0 {t : SSTable} (h : t ∈ levels.l0) : t ∈ levels.flatten := by
  cases levels with
  | nil => simp [l0] at h
  | cons => exact List.mem_append_left _ h

theorem Cut.flatten_eq {levels above deeper : Levels} {i : Nat} {source target : List SSTable}
    (h : Cut levels i above source target deeper) :
    levels.flatten = above.flatten ++ (source ++ (target ++ deeper.flatten)) := by
  rcases h.split with hs | ⟨hs, ht, hd⟩
  · simp [hs]
  · simp [hs, ht, hd]

end Levels

namespace Compaction

variable {c : Compaction} {levels above deeper : Levels} {source target outs : List SSTable}

def kept (c : Compaction) (level : List SSTable) : List SSTable := level.filter fun t => !c.isRetired t

def survivors (c : Compaction) (above : Levels) (source target : List SSTable) (deeper : Levels) :
    List SSTable :=
  above.flatten ++ (c.kept source ++ (c.kept target ++ deeper.flatten))

section

variable (hcut : Cut levels c.level above source target deeper)
include hcut

theorem survivors_sublist : (c.survivors above source target deeper).Sublist levels.flatten := by
  rw [hcut.flatten_eq]
  exact (List.Sublist.refl _).append (List.filter_sublist.append
    (List.filter_sublist.append (List.Sublist.refl _)))

theorem rebuild_perm :
    (c.rebuild levels outs).flatten.Perm (c.survivors above source target deeper ++ outs) := by
  rw [rebuild_eq c outs hcut.level hcut.split, flatten_rdropWhile, List.flatten_append,
    List.flatten_cons, List.flatten_cons, survivors, List.append_assoc, List.append_assoc,
    List.append_assoc]
  refine List.Perm.append_left _ (List.Perm.append_left _ ?_)
  have hsort : (sortByMinKey (c.kept target ++ outs) ++ deeper.flatten).Perm
      (c.kept target ++ (outs ++ deeper.flatten)) := by
    rw [← List.append_assoc]
    exact (sortByMinKey_perm _).append_right _
  exact hsort.trans (List.Perm.append_left _ List.perm_append_comm)

theorem getD_rebuild (i : Nat) :
    (c.rebuild levels outs).getD i [] =
      if i = c.level then c.kept source
      else if i = c.level + 1 then sortByMinKey (c.kept target ++ outs)
      else levels.getD i [] := by
  rw [rebuild_eq c outs hcut.level hcut.split, getD_rdropWhile]
  rcases Nat.lt_or_ge i c.level with hlt | hge
  · have hin : i < above.length := hcut.level ▸ hlt
    rw [if_neg (by omega), if_neg (by omega), List.getD_append _ _ _ _ hin]
    rcases hcut.split with rfl | ⟨rfl, _, _⟩ <;> rw [List.getD_append _ _ _ _ hin]
  · rw [List.getD_append_right _ _ _ _ (hcut.level ▸ hge), ← hcut.level]
    obtain ⟨k, rfl⟩ : ∃ k, i = c.level + k := ⟨i - c.level, by omega⟩
    rw [Nat.add_sub_cancel_left]
    match k with
    | 0 => rw [if_pos (Nat.add_zero _)]; rfl
    | 1 => rw [if_neg (by omega), if_pos rfl]; rfl
    | k + 2 =>
      rw [if_neg (by omega), if_neg (by omega), List.getD_cons_succ, List.getD_cons_succ, ← hcut.drop_succ,
        List.getD_eq_getElem?_getD, List.getElem?_drop, ← List.getD_eq_getElem?_getD]
      congr 1
      omega

theorem mem_rebuild {t : SSTable}
    (ht : t ∈ (c.rebuild levels outs).flatten) : t ∈ levels.flatten ∨ t ∈ outs := by
  rcases List.mem_append.mp ((rebuild_perm hcut).mem_iff.mp ht) with ht | ht
  · exact Or.inl ((survivors_sublist hcut).subset ht)
  · exact Or.inr ht

theorem nodup_ids_rebuild (hids : levels.ids.Nodup) (houts : (outs.map SSTable.id).Nodup)
    (hfresh : ∀ t ∈ levels.flatten, ∀ o ∈ outs, t.id ≠ o.id) : (Levels.ids (c.rebuild levels outs)).Nodup := by
  refine ((rebuild_perm hcut).map SSTable.id).nodup_iff.mpr ?_
  rw [List.map_append, List.nodup_append]
  refine ⟨hids.sublist ((survivors_sublist hcut).map _), houts, ?_⟩
  intro id hid id' hid' he
  obtain ⟨t, ht, rfl⟩ := List.mem_map.mp hid
  obtain ⟨o, ho, rfl⟩ := List.mem_map.mp hid'
  exact hfresh t ((survivors_sublist hcut).subset ht) o ho he

theorem retired_gone (hp : Picked source target deeper c) (hids : levels.ids.Nodup)
    (hfresh : ∀ t ∈ levels.flatten, ∀ o ∈ outs, t.id ≠ o.id) {t u : SSTable} (ht : t ∈ c.tables)
    (hu : u ∈ (c.rebuild levels outs).flatten) : u.id ≠ t.id := by
  have hone := oneTablePerId_of_nodup hids
  have hmem : t ∈ levels.flatten :=
    (mem_of_mem_tables hp ht).elim hcut.mem_source hcut.mem_target
  rcases List.mem_append.mp ((rebuild_perm hcut).mem_iff.mp hu) with hu | hu
  · intro he
    have hut : u = t := hone u ((survivors_sublist hcut).subset hu) t hmem he
    subst hut
    have hret : c.isRetired u = true := (isRetired_iff hone hcut hp hmem).mpr ht
    have hnodup : levels.flatten.Nodup := hids.of_map _
    rw [hcut.flatten_eq] at hnodup
    obtain ⟨_, hrest, habove⟩ := List.nodup_append.mp hnodup
    obtain ⟨_, hrest', hsource⟩ := List.nodup_append.mp hrest
    obtain ⟨_, _, htarget⟩ := List.nodup_append.mp hrest'
    have hin := mem_of_mem_tables hp ht
    rcases List.mem_append.mp hu with hu | hu
    · refine habove u hu u ?_ rfl
      rcases hin with h | h
      · exact List.mem_append_left _ h
      · exact List.mem_append_right _ (List.mem_append_left _ h)
    · rcases List.mem_append.mp hu with hu | hu
      · simp [kept, hret] at hu
      · rcases List.mem_append.mp hu with hu | hu
        · simp [kept, hret] at hu
        · rcases hin with h | h
          · exact hsource u h u (List.mem_append_right _ hu) rfl
          · exact htarget u h u hu rfl
  · exact fun he => hfresh t hmem u hu he.symm

theorem l0_rebuild_sublist : (Levels.l0 (c.rebuild levels outs)).Sublist levels.l0 := by
  rw [rebuild_eq c outs hcut.level hcut.split]
  refine (l0_rdropWhile_sublist _).trans ?_
  cases above with
  | nil =>
    have hl0 : levels.l0 = source := by
      rcases hcut.split with h | ⟨h, _, _⟩ <;> rw [h] <;> rfl
    rw [hl0]
    exact List.filter_sublist
  | cons l0 =>
    have hl0 : levels.l0 = l0 := by
      rcases hcut.split with h | ⟨h, _, _⟩ <;> rw [h] <;> rfl
    rw [hl0]
    exact List.Sublist.refl _

end

end Compaction

end KVStore
