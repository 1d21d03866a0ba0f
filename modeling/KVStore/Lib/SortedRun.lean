import Mathlib

namespace KVStore.Lib.SortedRun

variable {K W : Type} {a : K × W} {l : List (K × W)} {k : K} {w : W} {runs : List (List (K × W))}

def keys (l : List (K × W)) : List K := l.map Prod.fst

theorem mem_keys_of_mem (h : a ∈ l) : a.1 ∈ keys l :=
  List.mem_map_of_mem h

@[simp] theorem keys_append (l l' : List (K × W)) : keys (l ++ l') = keys l ++ keys l' :=
  List.map_append

variable [LinearOrder K]

/-- The first payload stored under a key. On a concatenation of runs, newest
first, this is the newest opinion about the key. -/
def find (k : K) : List (K × W) → Option W
  | [] => none
  | (k', w) :: l => if k = k' then some w else find k l

def Sorted (l : List (K × W)) : Prop := l.Pairwise (fun a b => a.1 < b.1)

instance (l : List (K × W)) : Decidable (Sorted l) :=
  inferInstanceAs (Decidable (l.Pairwise fun a b => a.1 < b.1))

def insert (k : K) (w : W) : List (K × W) → List (K × W)
  | [] => [(k, w)]
  | (k', w') :: l =>
    if k < k' then (k, w) :: (k', w') :: l
    else if k = k' then (k, w) :: l
    else (k', w') :: insert k w l

@[simp] theorem find_nil (k : K) : find k ([] : List (K × W)) = none := rfl

theorem find_append (k : K) (l l' : List (K × W)) : find k (l ++ l') = (find k l).or (find k l') := by
  induction l with
  | nil => rfl
  | cons a l ih =>
    obtain ⟨k', w⟩ := a
    by_cases h : k = k' <;> simp [find, h, ih]

theorem find_map {W' : Type} (f : W → W') (k : K) (l : List (K × W)) :
    find k (l.map fun a => (a.1, f a.2)) = (find k l).map f := by
  induction l with
  | nil => rfl
  | cons a l ih =>
    obtain ⟨k', w⟩ := a
    by_cases h : k = k' <;> simp [find, h, ih]

theorem find_eq_none_iff (k : K) (l : List (K × W)) : find k l = none ↔ k ∉ keys l := by
  induction l with
  | nil => simp [keys]
  | cons a l ih =>
    obtain ⟨k', w⟩ := a
    by_cases h : k = k'
    · simp [find, keys, h]
    · simpa [find, keys, h] using ih

theorem mem_of_find (h : find k l = some w) : (k, w) ∈ l := by
  induction l with
  | nil => simp at h
  | cons a l ih =>
    obtain ⟨k', w'⟩ := a
    by_cases hk : k = k'
    · subst hk
      simp only [find, if_true, Option.some.injEq] at h
      simp [h]
    · simp only [find, hk, if_false] at h
      exact List.mem_cons_of_mem _ (ih h)

theorem find_of_mem (hl : (keys l).Nodup) (h : (k, w) ∈ l) : find k l = some w := by
  induction l with
  | nil => simp at h
  | cons a l ih =>
    obtain ⟨k', w'⟩ := a
    obtain ⟨hnot, hl'⟩ := List.nodup_cons.mp hl
    rcases List.mem_cons.mp h with he | he
    · cases he
      simp [find]
    · have hne : k ≠ k' := by
        rintro rfl
        exact hnot (mem_keys_of_mem (a := (k, w)) he)
      simpa [find, hne] using ih hl' he

theorem Sorted.nodup_keys (h : Sorted l) : (keys l).Nodup := by
  unfold keys List.Nodup
  rw [List.pairwise_map]
  exact h.imp (fun hab => ne_of_lt hab)

theorem find_perm {l l' : List (K × W)} (hl : (keys l).Nodup) (h : l.Perm l') (k : K) :
    find k l = find k l' := by
  have hl' : (keys l').Nodup := (h.map Prod.fst).nodup_iff.mp hl
  cases hf : find k l with
  | none =>
    have hk := (find_eq_none_iff k l).mp hf
    have hk' : k ∉ keys l' := fun hm => hk ((h.map Prod.fst).mem_iff.mpr hm)
    exact ((find_eq_none_iff k l').mpr hk').symm
  | some => exact (find_of_mem hl' (h.mem_iff.mp (mem_of_find hf))).symm

theorem find_filter_key (p : K → Bool) (k : K) (l : List (K × W)) :
    find k (l.filter fun a => p a.1) = if p k then find k l else none := by
  induction l with
  | nil => simp
  | cons a l ih =>
    obtain ⟨k', w⟩ := a
    by_cases hk : k = k'
    · subst hk
      by_cases hp : p k = true <;> simp_all [find]
    · by_cases hp : p k' = true <;> simp [find, hp, hk, ih]

theorem find_filter_ne (k k' : K) (l : List (K × W)) :
    find k (l.filter (fun e => e.1 ≠ k')) = if k = k' then none else find k l := by
  rw [find_filter_key fun a => a ≠ k']
  by_cases hk : k = k' <;> simp [hk]

theorem find_filter_payload (p : W → Bool) (hl : (keys l).Nodup) (k : K) :
    find k (l.filter (fun e => p e.2)) = (find k l).filter p := by
  induction l with
  | nil => rfl
  | cons a l ih =>
    obtain ⟨k', w⟩ := a
    obtain ⟨hnot, hl'⟩ := List.nodup_cons.mp hl
    have ih' := ih hl'
    by_cases hk : k = k'
    · subst hk
      rw [(find_eq_none_iff k l).mpr hnot] at ih'
      by_cases hp : p w = true
      · simp [find, Option.filter, hp]
      · simpa [find, Option.filter, hp] using ih'
    · by_cases hp : p w = true <;> simpa [find, hp, hk] using ih'

@[simp] theorem find_insert_self (k : K) (w : W) (l : List (K × W)) : find k (insert k w l) = some w := by
  induction l with
  | nil => simp [insert, find]
  | cons a l ih =>
    obtain ⟨k', w'⟩ := a
    simp only [insert]
    split
    · simp [find]
    · split
      · simp [find]
      next hne => simpa [find, hne] using ih

theorem find_insert_of_ne {k k' : K} (h : k' ≠ k) (w : W) (l : List (K × W)) :
    find k' (insert k w l) = find k' l := by
  induction l with
  | nil => simp [insert, find, h]
  | cons a l ih =>
    obtain ⟨k₁, w₁⟩ := a
    simp only [insert]
    split
    · simp [find, h]
    · split
      next he => subst he; simp [find, h]
      next hne =>
        by_cases h₁ : k' = k₁
        · simp [find, h₁]
        · simpa [find, h₁] using ih

theorem find_insert (k k' : K) (w : W) (l : List (K × W)) :
    find k' (insert k w l) = if k' = k then some w else find k' l := by
  by_cases h : k' = k
  · subst h; simp
  · simp [h, find_insert_of_ne h]

theorem mem_keys_insert {k k' : K} : k' ∈ keys (insert k w l) ↔ k' = k ∨ k' ∈ keys l := by
  have h := find_insert k k' w l
  by_cases hk : k' = k
  · simp only [hk, true_or, iff_true]
    by_contra hn
    have := (find_eq_none_iff k (insert k w l)).mpr hn
    simp at this
  · simp only [hk, false_or]
    rw [if_neg hk] at h
    rw [← not_iff_not, ← find_eq_none_iff, ← find_eq_none_iff, h]

theorem sorted_insert (k : K) (w : W) (h : Sorted l) : Sorted (insert k w l) := by
  induction l with
  | nil => simp [insert, Sorted]
  | cons a l ih =>
    obtain ⟨k', w'⟩ := a
    obtain ⟨hhead, htail⟩ := List.pairwise_cons.mp h
    simp only [insert]
    split
    next hlt =>
      refine List.pairwise_cons.mpr ⟨?_, h⟩
      intro b hb
      rcases List.mem_cons.mp hb with rfl | hb
      · exact hlt
      · exact hlt.trans (hhead b hb)
    next hge =>
      split
      next he =>
        subst he
        exact List.pairwise_cons.mpr ⟨hhead, htail⟩
      next hne =>
        refine List.pairwise_cons.mpr ⟨?_, ih htail⟩
        intro b hb
        have hb' : b.1 = k ∨ b.1 ∈ keys l := mem_keys_insert.mp (mem_keys_of_mem hb)
        rcases hb' with hk | hk
        · rw [hk]
          exact lt_of_le_of_ne (not_lt.mp hge) (Ne.symm hne)
        · obtain ⟨c, hc, hcb⟩ := List.mem_map.mp hk
          rw [← hcb]
          exact hhead c hc

theorem find_eq_of_sorted (h : Sorted l) (k : K) :
    find k l = ((l.find? (fun e => !decide (e.1 < k))).filter (fun e => e.1 = k)).map Prod.snd := by
  induction l with
  | nil => rfl
  | cons a l ih =>
    obtain ⟨k', w⟩ := a
    obtain ⟨hhead, htail⟩ := List.pairwise_cons.mp h
    rcases lt_trichotomy k' k with hlt | rfl | hgt
    · simpa [find, hlt, ne_of_gt hlt] using ih htail
    · simp [find]
    · have hnone : find k l = none := by
        refine (find_eq_none_iff k l).mpr fun hm => ?_
        obtain ⟨b, hb, rfl⟩ := List.mem_map.mp hm
        exact lt_asymm hgt (hhead b hb)
      simp [find, Option.filter, not_lt_of_gt hgt, ne_of_lt hgt, ne_of_gt hgt, hnone]

def endsBefore (k : K) (l : List (K × W)) : Bool := l.getLast?.all (fun e => e.1 < k)

theorem lt_of_endsBefore (hl : Sorted l) (h : endsBefore k l = true) (ha : a ∈ l) : a.1 < k := by
  obtain ⟨l', b, rfl⟩ := List.eq_nil_or_concat l |>.resolve_left (List.ne_nil_of_mem ha)
  rw [List.concat_eq_append] at hl h ha
  have hb : b.1 < k := by simpa [endsBefore] using h
  rcases List.mem_append.mp ha with ha | ha
  · exact ((List.pairwise_append.mp hl).2.2 a ha b (by simp)).trans hb
  · exact List.mem_singleton.mp ha ▸ hb

theorem sorted_concat (hl : Sorted l) (h : endsBefore k l = true) (w : W) : Sorted (l ++ [(k, w)]) := by
  refine List.pairwise_append.mpr ⟨hl, List.pairwise_singleton _ _, ?_⟩
  intro a ha b hb
  rw [List.mem_singleton.mp hb]
  exact lt_of_endsBefore hl h ha

theorem find_flatten (h : Sorted runs.flatten) (k : K) :
    find k runs.flatten = (runs.find? (fun l => !endsBefore k l)).bind (find k) := by
  induction runs with
  | nil => rfl
  | cons l runs ih =>
    obtain ⟨hl, hruns, hcross⟩ := List.pairwise_append.mp h
    rw [List.flatten_cons, find_append]
    by_cases hb : endsBefore k l = true
    · have hnone : find k l = none := by
        refine (find_eq_none_iff k l).mpr fun hm => ?_
        obtain ⟨a, ha, rfl⟩ := List.mem_map.mp hm
        exact lt_irrefl _ (lt_of_endsBefore hl hb ha)
      simpa [hb, hnone] using ih hruns
    · have hnone : find k runs.flatten = none := by
        refine (find_eq_none_iff k _).mpr fun hm => ?_
        obtain ⟨a, ha, rfl⟩ := List.mem_map.mp hm
        refine hb ?_
        rw [endsBefore, Option.all_eq_true]
        intro e he
        simpa using hcross e (List.mem_of_getLast? he) a ha
      simp [hb, hnone]

theorem partitioned_endsBefore (h : Sorted runs.flatten) (hne : ∀ l ∈ runs, l ≠ []) (k : K) :
    runs.Pairwise (fun l l' => endsBefore k l' = true → endsBefore k l = true) := by
  induction runs with
  | nil => exact List.Pairwise.nil
  | cons l runs ih =>
    obtain ⟨_, hruns, hcross⟩ := List.pairwise_append.mp h
    refine List.pairwise_cons.mpr ⟨?_, ih hruns fun l' hl' => hne l' (List.mem_cons_of_mem _ hl')⟩
    intro l' hl' hb
    obtain ⟨a, ha⟩ := List.exists_mem_of_ne_nil l' (hne l' (List.mem_cons_of_mem _ hl'))
    have hl'sorted : Sorted l' := hruns.sublist (List.sublist_flatten_of_mem hl')
    rw [endsBefore, Option.all_eq_true]
    intro e he
    have hea := hcross e (List.mem_of_getLast? he) a (List.mem_flatten_of_mem hl' ha)
    simpa using hea.trans (lt_of_endsBefore hl'sorted hb ha)

end KVStore.Lib.SortedRun
