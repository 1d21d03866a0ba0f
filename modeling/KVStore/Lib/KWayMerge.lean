import KVStore.Lib.SortedRun

namespace KVStore.Lib.KWayMerge

open SortedRun

variable {K W : Type} [LinearOrder K] {best : Option (K × W)} {sources : List (List (K × W))} {e : K × W}
    {k : K}

/-- One pass over the heads of the sources. A later source replaces the
candidate only when its key is strictly smaller, so the first source wins ties. -/
def winnerFrom : Option (K × W) → List (List (K × W)) → Option (K × W)
  | best, [] => best
  | best, [] :: sources => winnerFrom best sources
  | none, (e :: _) :: sources => winnerFrom (some e) sources
  | some b, (e :: _) :: sources => winnerFrom (if e.1 < b.1 then some e else some b) sources

def winner (sources : List (List (K × W))) : Option (K × W) := winnerFrom none sources

def advanceOne (k : K) : List (K × W) → List (K × W)
  | [] => []
  | e :: rest => if e.1 = k then rest else e :: rest

/-- Every source positioned on the key moves past it. -/
def advance (k : K) (sources : List (List (K × W))) : List (List (K × W)) :=
  sources.map (advanceOne k)

def step (sources : List (List (K × W))) : Option ((K × W) × List (List (K × W))) :=
  (winner sources).map (fun e => (e, advance e.1 sources))

def total (sources : List (List (K × W))) : Nat := (sources.map List.length).sum

def mergeFuel : Nat → List (List (K × W)) → List (K × W)
  | 0, _ => []
  | fuel + 1, sources =>
    match step sources with
    | none => []
    | some (e, sources') => e :: mergeFuel fuel sources'

/-- Every step consumes at least one entry, so the entry count is enough fuel. -/
def merge (sources : List (List (K × W))) : List (K × W) := mergeFuel (total sources) sources

theorem winnerFrom_eq_none : winnerFrom best sources = none ↔ best = none ∧ sources.flatten = [] := by
  induction sources generalizing best with
  | nil => simp [winnerFrom]
  | cons s sources ih =>
    cases s with
    | nil => simp [winnerFrom, ih]
    | cons =>
      cases best with
      | none => simp [winnerFrom, ih]
      | some =>
        simp only [winnerFrom, ih]
        split <;> simp

/-- The first entry stored under the smallest key. -/
def First (l : List (K × W)) (e : K × W) : Prop := find e.1 l = some e.2 ∧ ∀ a ∈ l, e.1 ≤ a.1

theorem First.skip {b : K × W} {l m : List (K × W)} (h : First (b :: l) e) (hm : ∀ c ∈ m, b.1 ≤ c.1) :
    First (b :: (m ++ l)) e := by
  obtain ⟨hf, hle⟩ := h
  obtain ⟨kb, wb⟩ := b
  have hb : e.1 ≤ kb := hle (kb, wb) List.mem_cons_self
  constructor
  · by_cases hk : e.1 = kb
    · simpa [find, hk] using hf
    · have hnone : find e.1 m = none := by
        refine (find_eq_none_iff _ _).mpr fun hmem => ?_
        obtain ⟨c, hc, hce⟩ := List.mem_map.mp hmem
        exact hk (le_antisymm hb (hce ▸ hm c hc))
      simpa [find, hk, find_append, hnone] using hf
  · intro c hc
    rcases List.mem_cons.mp hc with rfl | hc
    · exact hb
    · rcases List.mem_append.mp hc with hc | hc
      · exact hb.trans (hm c hc)
      · exact hle c (List.mem_cons_of_mem _ hc)

theorem First.behind {a b : K × W} {l : List (K × W)} (h : First (a :: l) e) (hab : a.1 < b.1) :
    First (b :: a :: l) e := by
  have hlt : e.1 < b.1 := (h.2 a List.mem_cons_self).trans_lt hab
  obtain ⟨kb, wb⟩ := b
  refine ⟨?_, List.forall_mem_cons.mpr ⟨hlt.le, h.2⟩⟩
  rw [find, if_neg hlt.ne]
  exact h.1

theorem winnerFrom_spec (hs : ∀ s ∈ sources, Sorted s) (h : winnerFrom best sources = some e) :
    First (best.toList ++ sources.flatten) e := by
  induction sources generalizing best with
  | nil =>
    simp only [winnerFrom] at h
    subst h
    simp [First, find]
  | cons s sources ih =>
    obtain ⟨hs₁, hs'⟩ := List.forall_mem_cons.mp hs
    cases s with
    | nil => simpa [winnerFrom] using ih hs' h
    | cons a rest =>
      have hrest : ∀ c ∈ rest, a.1 ≤ c.1 := fun c hc => ((List.pairwise_cons.mp hs₁).1 c hc).le
      cases best with
      | none => exact (ih hs' h).skip hrest
      | some b =>
        simp only [winnerFrom] at h
        split at h
        next hab => exact ((ih hs' h).skip hrest).behind hab
        next hab =>
          have hba : b.1 ≤ a.1 := not_lt.mp hab
          exact (ih hs' h).skip (m := a :: rest) (List.forall_mem_cons.mpr
            ⟨hba, fun c hc => hba.trans (hrest c hc)⟩)

theorem winner_eq_none : winner sources = none ↔ sources.flatten = [] := by
  simp [winner, winnerFrom_eq_none]

theorem winner_spec (hs : ∀ s ∈ sources, Sorted s) (h : winner sources = some e) :
    find e.1 sources.flatten = some e.2 ∧ ∀ a ∈ sources.flatten, e.1 ≤ a.1 :=
  winnerFrom_spec hs h

theorem advanceOne_eq_filter {s : List (K × W)} (hs : Sorted s) (hk : ∀ a ∈ s, k ≤ a.1) :
    advanceOne k s = s.filter (fun e => e.1 ≠ k) := by
  cases s with
  | nil => rfl
  | cons a rest =>
    have hrest : ∀ c ∈ rest, a.1 < c.1 := (List.pairwise_cons.mp hs).1
    have hkeep : rest.filter (fun e => e.1 ≠ k) = rest := by
      refine List.filter_eq_self.mpr fun c hc => ?_
      have hlt : k < c.1 := lt_of_le_of_lt (hk a List.mem_cons_self) (hrest c hc)
      simpa using ne_of_gt hlt
    by_cases ha : a.1 = k
    · rw [advanceOne, if_pos ha, List.filter_cons_of_neg (by simpa using ha), hkeep]
    · rw [advanceOne, if_neg ha, List.filter_cons_of_pos (by simpa using ha), hkeep]

theorem flatten_advance (hs : ∀ s ∈ sources, Sorted s) (hk : ∀ a ∈ sources.flatten, k ≤ a.1) :
    (advance k sources).flatten = sources.flatten.filter (fun e => e.1 ≠ k) := by
  induction sources with
  | nil => rfl
  | cons s sources ih =>
    have hs' : ∀ t ∈ sources, Sorted t := fun t ht => hs t (List.mem_cons_of_mem _ ht)
    have hk' : ∀ a ∈ sources.flatten, k ≤ a.1 := fun a ha => hk a (by simp [ha])
    have hone := advanceOne_eq_filter (hs s List.mem_cons_self)
      (fun a ha => hk a (List.mem_append_left _ ha))
    rw [List.flatten_cons, List.filter_append, ← ih hs' hk', ← hone]
    rfl

theorem sorted_advance (hs : ∀ s ∈ sources, Sorted s) : ∀ s ∈ advance k sources, Sorted s := by
  intro s hmem
  obtain ⟨t, ht, rfl⟩ := List.mem_map.mp hmem
  have hsorted := hs t ht
  cases t with
  | nil => exact hsorted
  | cons =>
    simp only [advanceOne]
    split
    · exact (List.pairwise_cons.mp hsorted).2
    · exact hsorted

omit [LinearOrder K] in
theorem total_eq (sources : List (List (K × W))) : total sources = sources.flatten.length := by
  simp [total]

theorem total_advance_lt (hs : ∀ s ∈ sources, Sorted s) (h : winner sources = some e) :
    total (advance e.1 sources) < total sources := by
  obtain ⟨hf, hle⟩ := winner_spec hs h
  rw [total_eq, total_eq, flatten_advance hs hle]
  exact List.length_filter_lt_length_iff_exists.mpr ⟨(e.1, e.2), mem_of_find hf, by simp⟩

/-- The merge lists every key of the sources once, in increasing order, each
with the payload of the first source that has it. -/
theorem mergeFuel_spec (fuel : Nat) (sources : List (List (K × W)))
    (hs : ∀ s ∈ sources, Sorted s) (hfuel : total sources ≤ fuel) :
    Sorted (mergeFuel fuel sources) ∧
      (∀ a ∈ mergeFuel fuel sources, a ∈ sources.flatten) ∧
      ∀ k, find k (mergeFuel fuel sources) = find k sources.flatten := by
  induction fuel generalizing sources with
  | zero =>
    have hnil : sources.flatten = [] := by
      rw [total_eq] at hfuel
      exact List.length_eq_zero_iff.mp (Nat.le_zero.mp hfuel)
    simp [mergeFuel, hnil, Sorted]
  | succ fuel ih =>
    cases hw : winner sources with
    | none => simp [mergeFuel, step, hw, winner_eq_none.mp hw, Sorted]
    | some e =>
      obtain ⟨hf, hle⟩ := winner_spec hs hw
      have hlt := total_advance_lt hs hw
      obtain ⟨ihs, ihm, ihf⟩ := ih (advance e.1 sources) (sorted_advance hs) (by omega)
      rw [flatten_advance hs hle] at ihm ihf
      have hmerge : mergeFuel (fuel + 1) sources =
          e :: mergeFuel fuel (advance e.1 sources) := by
        simp [mergeFuel, step, hw]
      rw [hmerge]
      refine ⟨List.pairwise_cons.mpr ⟨?_, ihs⟩, ?_, ?_⟩
      · intro a ha
        obtain ⟨hmem, hne⟩ := List.mem_filter.mp (ihm a ha)
        exact lt_of_le_of_ne (hle a hmem) (Ne.symm (by simpa using hne))
      · intro a ha
        rcases List.mem_cons.mp ha with rfl | ha
        · exact mem_of_find hf
        · exact (List.mem_filter.mp (ihm a ha)).1
      · intro k
        obtain ⟨ke, we⟩ := e
        by_cases hk : k = ke
        · subst hk
          simpa [find] using hf.symm
        · have := ihf k
          rw [find_filter_ne, if_neg hk] at this
          simpa [find, hk] using this

theorem length_mergeFuel_le (fuel : Nat) (sources : List (List (K × W))) :
    (mergeFuel fuel sources).length ≤ fuel := by
  induction fuel generalizing sources with
  | zero => exact le_rfl
  | succ fuel ih =>
    rw [mergeFuel]
    split
    · exact Nat.zero_le _
    · exact Nat.succ_le_succ (ih _)

theorem length_merge_le (sources : List (List (K × W))) : (merge sources).length ≤ sources.flatten.length :=
  (length_mergeFuel_le _ _).trans (total_eq sources).le

section

variable (hs : ∀ s ∈ sources, Sorted s)
include hs

theorem sorted_merge : Sorted (merge sources) :=
  (mergeFuel_spec _ sources hs le_rfl).1

theorem mem_of_mem_merge
    {a : K × W} (h : a ∈ merge sources) : a ∈ sources.flatten :=
  (mergeFuel_spec _ sources hs le_rfl).2.1 a h

theorem find_merge (k : K) : find k (merge sources) = find k sources.flatten :=
  (mergeFuel_spec _ sources hs le_rfl).2.2 k

theorem mergeFuel_of_le {fuel : Nat} (hfuel : total sources ≤ fuel) :
    mergeFuel fuel sources = merge sources := by
  -- a larger count changes nothing, since the merge is over before it runs out
  have hmore : ∀ (n : Nat) {sources : List (List (K × W))}, (∀ s ∈ sources, Sorted s) → total sources ≤ n →
      mergeFuel (n + 1) sources = mergeFuel n sources := by
    intro n
    induction n with
    | zero =>
      intro sources _ hn
      have hnil : sources.flatten = [] := List.eq_nil_of_length_eq_zero (by rw [← total_eq]; omega)
      simp [mergeFuel, step, winner_eq_none.mpr hnil]
    | succ n ih =>
      intro sources hs hn
      cases hw : winner sources with
      | none => simp only [mergeFuel, step, hw, Option.map_none]
      | some =>
        have hlt := total_advance_lt hs hw
        rw [mergeFuel, mergeFuel.eq_def (n + 1)]
        simp only [step, hw, Option.map_some]
        exact congrArg _ (ih (sorted_advance hs) (by omega))
  induction fuel, hfuel using Nat.le_induction with
  | base => rfl
  | succ fuel hle ih => exact (hmore fuel hs hle).trans ih

theorem merge_of_winner (h : winner sources = some e) :
    merge sources = e :: merge (advance e.1 sources) := by
  have hlt := total_advance_lt hs h
  rw [← mergeFuel_of_le hs (Nat.le_succ _), mergeFuel]
  simp only [step, h, Option.map_some]
  exact congrArg _ (mergeFuel_of_le (sorted_advance hs) hlt.le)

theorem merge_of_winner_none (h : winner sources = none) : merge sources = [] := by
  rw [← mergeFuel_of_le hs (Nat.le_succ _), mergeFuel]
  simp [step, h]

end

theorem exists_first_of_find {w : W} (h : find k sources.flatten = some w) :
    ∃ (i : Nat) (s : List (K × W)), sources[i]? = some s ∧ (k, w) ∈ s ∧ ∀ j < i, ∀ s', sources[j]? = some s' →
      k ∉ keys s' := by
  induction sources with
  | nil => cases h
  | cons s sources ih =>
    rw [List.flatten_cons, find_append] at h
    cases hs : find k s with
    | some =>
      rw [hs] at h
      exact ⟨0, s, rfl, mem_of_find (hs.trans h), fun j hj => absurd hj (Nat.not_lt_zero _)⟩
    | none =>
      rw [hs] at h
      obtain ⟨i, t, hi, hmem, hfirst⟩ := ih h
      refine ⟨i + 1, t, hi, hmem, fun j hj s' hs' => ?_⟩
      cases j with
      | zero =>
        cases hs'
        exact (find_eq_none_iff _ _).mp hs
      | succ j => exact hfirst j (Nat.lt_of_succ_lt_succ hj) s' hs'

end KVStore.Lib.KWayMerge
