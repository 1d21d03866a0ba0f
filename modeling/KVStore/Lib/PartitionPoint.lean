import Mathlib

namespace KVStore.Lib.PartitionPoint

variable {α : Type} {before : α → Bool} {l : List α}

/-- Halving search on the window of `len` elements that starts at `first`. The
window at least halves in each round, so its length is enough fuel. -/
def search (before : α → Bool) (l : List α) : Nat → Nat → Nat → Nat
  | 0, first, _ => first
  | fuel + 1, first, len =>
    if len = 0 then first
    else
      let half := len / 2
      match l[first + half]? with
      | none => first
      | some a =>
        if before a then search before l fuel (first + half + 1) (len - half - 1)
        else search before l fuel first half

def lowerBound (before : α → Bool) (l : List α) : Nat := search before l l.length 0 l.length

/-- The elements that come before the target form an initial segment. -/
def Partitioned (before : α → Bool) (l : List α) : Prop :=
  l.Pairwise (fun a b => before b = true → before a = true)

theorem before_of_lt_takeWhile {i : Nat}
    (h : i < (l.takeWhile before).length) : ∃ a, l[i]? = some a ∧ before a = true := by
  induction l generalizing i with
  | nil => simp at h
  | cons b l ih =>
    by_cases hb : before b = true
    · rw [List.takeWhile_cons_of_pos hb] at h
      cases i with
      | zero => exact ⟨b, rfl, hb⟩
      | succ => simpa using ih (by simpa using h)
    · simp [List.takeWhile_cons_of_neg hb] at h

section

variable (hl : Partitioned before l)
include hl

theorem not_before_of_takeWhile_le
    {i : Nat} {a : α} (h : (l.takeWhile before).length ≤ i) (ha : l[i]? = some a) : before a = false := by
  induction l generalizing i with
  | nil => simp at ha
  | cons b l ih =>
    obtain ⟨hb, hl'⟩ := List.pairwise_cons.mp hl
    by_cases hbb : before b = true
    · rw [List.takeWhile_cons_of_pos hbb] at h
      cases i with
      | zero => simp at h
      | succ => exact ih hl' (by simpa using h) (by simpa using ha)
    · have hmem : a ∈ b :: l := List.mem_of_getElem? ha
      rcases List.mem_cons.mp hmem with rfl | hmem
      · simpa using hbb
      · by_contra hne
        exact hbb (hb a hmem (by simpa using hne))

theorem search_eq
    (fuel first len : Nat) (hfuel : len ≤ fuel) (hend : first + len ≤ l.length)
    (hlo : first ≤ (l.takeWhile before).length) (hhi : (l.takeWhile before).length ≤ first + len) :
    search before l fuel first len = (l.takeWhile before).length := by
  induction fuel generalizing first len with
  | zero =>
    have : len = 0 := Nat.le_zero.mp hfuel
    simp only [search]
    omega
  | succ fuel ih =>
    simp only [search]
    split
    · omega
    next hne =>
      have hlt : first + len / 2 < l.length := by omega
      rw [List.getElem?_eq_getElem hlt]
      by_cases hb : before l[first + len / 2] = true
      · simp only [hb, if_true]
        have hpos : first + len / 2 < (l.takeWhile before).length := by
          by_contra hge
          have := not_before_of_takeWhile_le hl (Nat.not_lt.mp hge) (List.getElem?_eq_getElem hlt)
          simp [hb] at this
        exact ih _ _ (by omega) (by omega) (by omega) (by omega)
      · simp only [hb]
        have hpos : (l.takeWhile before).length ≤ first + len / 2 := by
          by_contra hge
          obtain ⟨a, ha, hba⟩ := before_of_lt_takeWhile (Nat.not_le.mp hge)
          rw [List.getElem?_eq_getElem hlt] at ha
          exact hb (Option.some.inj ha ▸ hba)
        exact ih _ _ (by omega) (by omega) hlo hpos

theorem lowerBound_eq : lowerBound before l = (l.takeWhile before).length :=
  search_eq hl _ _ _ le_rfl (by simp) (Nat.zero_le _)
    (by simpa using (List.takeWhile_prefix before (l := l)).length_le)

theorem getElem?_lowerBound :
    l[lowerBound before l]? = l.find? (fun a => !before a) := by
  rw [lowerBound_eq hl]
  clear hl
  induction l with
  | nil => rfl
  | cons a l ih =>
    by_cases ha : before a = true
    · simpa [ha] using ih
    · simp [ha]

theorem drop_lowerBound : l.drop (lowerBound before l) = l.dropWhile before := by
  rw [lowerBound_eq hl]
  nth_rewrite 2 [← List.takeWhile_append_dropWhile (p := before) (l := l)]
  rw [List.drop_left]

theorem filter_eq_takeWhile : l.filter before = l.takeWhile before := by
  induction l with
  | nil => rfl
  | cons a l ih =>
    obtain ⟨ha, hl⟩ := List.pairwise_cons.mp hl
    by_cases hbefore : before a = true
    · rw [List.filter_cons_of_pos hbefore, List.takeWhile_cons_of_pos hbefore, ih hl]
    · rw [List.takeWhile_cons_of_neg hbefore, List.filter_eq_nil_iff]
      intro b hb hbb
      rcases List.mem_cons.mp hb with rfl | hb
      · exact hbefore hbb
      · exact hbefore (ha b hb hbb)

theorem filter_not_eq_dropWhile :
    l.filter (fun a => !before a) = l.dropWhile before := by
  induction l with
  | nil => rfl
  | cons a l ih =>
    obtain ⟨ha, hl⟩ := List.pairwise_cons.mp hl
    by_cases hbefore : before a = true
    · rw [List.filter_cons_of_neg (by simp [hbefore]), List.dropWhile_cons_of_pos hbefore, ih hl]
    · rw [List.dropWhile_cons_of_neg hbefore, List.filter_eq_self]
      intro b hb
      rcases List.mem_cons.mp hb with rfl | hb
      · simpa using hbefore
      · have hnot : ¬ before b = true := fun hbb => hbefore (ha b hb hbb)
        simpa using hnot

end

end KVStore.Lib.PartitionPoint
