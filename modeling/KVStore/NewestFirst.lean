import KVStore.RebuildTables
import KVStore.LsmFlushSpec

namespace KVStore

open Lib Levels

def TableFile.keys (f : TableFile) : List Key := SortedRun.keys f.entries

def SSTable.keys (t : SSTable) : List Key := t.file.keys

def Compaction.keys (c : Compaction) : List Key := c.tables.flatMap SSTable.keys

def Levels.NewestFirst (levels : Levels) : Prop :=
  levels.flatten.Pairwise fun t u => ∀ key ∈ t.keys, key ∈ u.keys → u.id < t.id

instance (levels : Levels) : Decidable levels.NewestFirst :=
  inferInstanceAs (Decidable (levels.flatten.Pairwise fun t u => ∀ key ∈ t.keys, key ∈ u.keys → u.id < t.id))

theorem newestFirst_prependL0 {levels : Levels} {t : SSTable} (h : levels.NewestFirst)
    (ht : ∀ u ∈ levels.flatten, ∀ key ∈ t.keys, key ∈ u.keys → u.id < t.id) :
    (LsmStore.prependL0 t levels).NewestFirst := by
  have hflat : (LsmStore.prependL0 t levels).flatten = t :: levels.flatten := by
    cases levels <;> rfl
  rw [Levels.NewestFirst, hflat]
  exact List.Pairwise.cons ht h

theorem mem_keys_iff {t : SSTable} {key : Key} : key ∈ t.keys ↔ ∃ e ∈ t.entries, e.1 = key :=
  List.mem_map

theorem Levels.Shaped.keys_apart {level : List SSTable} (h : Shaped level) :
    level.Pairwise fun t u => ∀ key ∈ t.keys, key ∉ u.keys := by
  refine h.disjoint.imp fun {t u} hlt key ht hu => ?_
  obtain ⟨e, he, rfl⟩ := mem_keys_iff.mp ht
  obtain ⟨e', he', hkey⟩ := mem_keys_iff.mp hu
  have hmax := TableFile.le_maxKey he
  have hmin := TableFile.minKey_le he'
  rw [hkey] at hmin
  exact absurd (hmax.trans_lt hlt) (not_lt_of_ge hmin)

namespace Compaction

variable {c : Compaction} {levels above deeper : Levels} {source target outs : List SSTable}

theorem Writes.keys_subset (h : c.Writes outs) {o : SSTable} (ho : o ∈ outs) :
    ∀ key ∈ o.keys, key ∈ c.keys := by
  intro key hkey
  obtain ⟨e, he, rfl⟩ := mem_keys_iff.mp hkey
  have hrun : e ∈ runOf outs := mem_runOf.mpr ⟨o, ho, he⟩
  rw [h.run] at hrun
  obtain ⟨e', he', rfl⟩ := List.mem_map.mp hrun
  obtain ⟨t, ht, hin⟩ := mem_tables_of_mem_merged (List.mem_of_mem_filter he')
  exact List.mem_flatMap.mpr ⟨t, ht, mem_keys_iff.mpr ⟨e', hin, rfl⟩⟩

section

variable (hcut : Cut levels c.level above source target deeper)
include hcut

theorem flatten_rebuild :
    (c.rebuild levels outs).flatten = (above.flatten ++ c.kept source) ++
      (sortByMinKey (c.kept target ++ outs) ++ deeper.flatten) := by
  rw [rebuild_eq c outs hcut.level hcut.split, flatten_rdropWhile, List.flatten_append,
    List.flatten_cons, List.flatten_cons, List.append_assoc]
  rfl

theorem not_read (hids : levels.ids.Nodup)
    (hp : Picked source target deeper c) {t : SSTable} (ht : t ∈ above.flatten ++ c.kept source) :
    t ∉ c.tables := by
  intro hread
  have hin : t ∈ (c.rebuild levels []).flatten := by
    rw [flatten_rebuild hcut]
    exact List.mem_append_left _ ht
  exact retired_gone hcut hp hids (fun _ _ _ ho => absurd ho List.not_mem_nil) hread hin rfl

theorem newestFirst_rebuild (hn : levels.NewestFirst) (hs : ∀ l ∈ levels.tail, Shaped l)
    (hids : levels.ids.Nodup)
    (hp : Picked source target deeper c) (hw : c.Writes outs)
    (hpast : ∀ o ∈ outs, ∀ t ∈ levels.flatten, t.id < o.id)
    (habove : outs ≠ [] → ∀ t ∈ (levels.take (c.level + 1)).flatten, t ∉ c.tables →
      ∀ key ∈ t.keys, key ∉ c.keys) : (c.rebuild levels outs).NewestFirst := by
  have hupper : (levels.take (c.level + 1)).flatten = above.flatten ++ source := by
    rcases hcut.split with hsplit | ⟨hsplit, _, _⟩ <;>
      simp [hsplit, hcut.level, List.take_append, List.take_of_length_le]
  have hone := oneTablePerId_of_nodup hids
  have hlevel := shaped_output_level hone hcut hp hw (hcut.shaped_target hs)
  have hmem : ∀ u, u ∈ sortByMinKey (c.kept target ++ outs) → u ∈ c.kept target ∨ u ∈ outs :=
    fun u hu => List.mem_append.mp ((sortByMinKey_perm _).mem_iff.mp hu)
  have hold := hn
  rw [Levels.NewestFirst, hcut.flatten_eq, ← List.append_assoc, List.pairwise_append] at hold
  obtain ⟨hfirst, hrest, hcross⟩ := hold
  obtain ⟨_, hdeep, hlower⟩ := List.pairwise_append.mp hrest
  rw [Levels.NewestFirst, flatten_rebuild hcut, List.pairwise_append]
  refine ⟨?_, List.pairwise_append.mpr ⟨?_, hdeep, ?_⟩, ?_⟩
  · exact hfirst.sublist ((List.Sublist.refl _).append List.filter_sublist)
  · exact hlevel.keys_apart.imp fun hapart key ht hu => absurd hu (hapart key ht)
  · intro t ht u hu key hkey hkey'
    rcases hmem t ht with ht | ht
    · exact hlower t (List.mem_of_mem_filter ht) u hu key hkey hkey'
    · apply hpast t ht
      rw [hcut.flatten_eq]
      exact List.mem_append_right _ (List.mem_append_right _ (List.mem_append_right _ hu))
  · intro t ht u hu key hkey hkey'
    have hin : t ∈ above.flatten ++ source := by
      rcases List.mem_append.mp ht with ht | ht
      · exact List.mem_append_left _ ht
      · exact List.mem_append_right _ (List.mem_of_mem_filter ht)
    rcases List.mem_append.mp hu with hu | hu
    · rcases hmem u hu with hu | hu
      · exact hcross t hin u (List.mem_append_left _ (List.mem_of_mem_filter hu)) key hkey hkey'
      · have hunread : t ∉ c.tables := not_read hcut hids hp ht
        have hsome : outs ≠ [] := List.ne_nil_of_mem hu
        exact absurd (hw.keys_subset hu key hkey') (habove hsome t (hupper ▸ hin) hunread key hkey)
    · exact hcross t hin u (List.mem_append_right _ hu) key hkey hkey'

end

end Compaction

end KVStore
