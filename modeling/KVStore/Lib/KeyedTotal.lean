import KVStore.Lib.SortedRun

namespace KVStore.Lib.KeyedTotal

variable {α β : Type} [DecidableEq α] {f : α → β → Nat}

def total (f : α → β → Nat) (m : AList fun _ : α => β) : Nat :=
  (m.entries.map fun e => f e.1 e.2).sum

variable {m m' : AList fun _ : α => β} {a : α} {b : β}

theorem le_total (h : m.lookup a = some b) : f a b ≤ total f m :=
  List.le_sum_of_mem (List.mem_map_of_mem (AList.mem_lookup_iff.mp h))

theorem total_eq_zero (h : ∀ a b, m.lookup a = some b → f a b = 0) : total f m = 0 := by
  apply List.sum_eq_zero
  intro n hn
  obtain ⟨e, he, rfl⟩ := List.mem_map.mp hn
  exact h e.1 e.2 (AList.mem_lookup_iff.mpr he)

theorem total_congr {f' : α → β → Nat} (h : ∀ a, (m.lookup a).map (f a) = (m'.lookup a).map (f' a)) :
    total f m = total f' m' := by
  have hperm : (m.entries.map (Sigma.map id f) : List (Σ _ : α, Nat)).Perm (m'.entries.map (Sigma.map id f')) := by
    refine List.lookup_ext (m.nodupKeys.map₂ f) (m'.nodupKeys.map₂ f') fun a n => ?_
    rw [List.dlookup_map₂, List.dlookup_map₂]
    exact iff_of_eq (congrArg (n ∈ ·) (h a))
  have hsum := (hperm.map Sigma.snd).sum_eq
  rwa [List.map_map, List.map_map] at hsum

theorem total_erase (f : α → β → Nat) (m : AList fun _ : α => β) (a : α) :
    total f (m.erase a) + (m.lookup a).elim 0 (f a) = total f m := by
  by_cases ha : a ∈ m
  · obtain ⟨b, before, after, -, hm, hrest⟩ := List.exists_of_kerase (AList.mem_keys.mp ha)
    have hb : m.lookup a = some b := AList.mem_lookup_iff.mpr (by rw [hm]; simp)
    have herase : (m.erase a).entries = before ++ after := hrest
    rw [total, total, herase, hm, hb]
    simp only [List.map_append, List.map_cons, List.sum_append, List.sum_cons, Option.elim_some]
    omega
  · have herase : (m.erase a).entries = m.entries := List.kerase_of_notMem_keys ha
    rw [total, total, herase, AList.lookup_eq_none.mpr ha]
    rfl

theorem total_insert (f : α → β → Nat) (m : AList fun _ : α => β) (a : α) (b : β) :
    total f (m.insert a b) + (m.lookup a).elim 0 (f a) = total f m + f a b := by
  have hinsert : total f (m.insert a b) = f a b + total f (m.erase a) := by
    rw [total, AList.entries_insert]
    rfl
  rw [hinsert, ← total_erase f m a]
  omega

theorem total_single (m : AList fun _ : α => β) (g : β → Nat) (a : α) :
    total (fun a' b => if a' == a then g b else 0) m = (m.lookup a).elim 0 g := by
  have hrest : total (fun a' b => if a' == a then g b else 0) (m.erase a) = 0 := by
    refine total_eq_zero fun a' b hb => if_neg fun ha => ?_
    rw [eq_of_beq ha, AList.lookup_erase] at hb
    cases hb
  rw [← total_erase _ m a, hrest, Nat.zero_add]
  simp

theorem sum_eq_find {K : Type} [LinearOrder K] {l : List (K × β)} (hl : (SortedRun.keys l).Nodup) (g : β → Nat)
    (a : K) : (l.map fun e => if e.1 == a then g e.2 else 0).sum = (SortedRun.find a l).elim 0 g := by
  induction l with
  | nil => rfl
  | cons e l ih =>
    obtain ⟨hnot, hl'⟩ := List.nodup_cons.mp hl
    rw [List.map_cons, List.sum_cons, ih hl', SortedRun.find]
    by_cases ha : a = e.1
    · rw [if_pos ha, if_pos (beq_iff_eq.mpr ha.symm), (SortedRun.find_eq_none_iff a l).mpr (ha ▸ hnot)]
      rfl
    · rw [if_neg ha, if_neg fun h => ha (eq_of_beq h).symm, Nat.zero_add]

end KVStore.Lib.KeyedTotal
