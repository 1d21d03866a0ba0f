import KVStore.Lib.Checked
import KVStore.Lib.PartitionPoint

namespace KVStore.Lib.PartitionPoint

open Checked

variable {ε α : Type}

/-- The halving search with the bounds of the vector that it reads. -/
def searchIn (before : α → Bool) (l : List α) : Nat → Nat → Nat → Checked ε Nat
  | 0, first, len => if len = 0 then pure first else .error .unfinished
  | fuel + 1, first, len =>
    if len = 0 then pure first
    else do
      let half := len / 2
      let a ← item l (first + half)
      if before a then searchIn before l fuel (first + half + 1) (len - half - 1)
      else searchIn before l fuel first half

def lowerBoundIn (before : α → Bool) (l : List α) : Checked ε Nat := searchIn before l l.length 0 l.length

variable {before : α → Bool} {l : List α} {β : Type}

theorem searchIn_eq {fuel first len : Nat} (hfuel : len ≤ fuel) (hend : first + len ≤ l.length) :
    (searchIn before l fuel first len : Checked ε Nat) = .ok (search before l fuel first len) ∧
      search before l fuel first len ≤ l.length := by
  induction fuel generalizing first len with
  | zero =>
    have hlen : len = 0 := Nat.le_zero.mp hfuel
    rw [searchIn, if_pos hlen]
    exact ⟨rfl, by rw [search]; omega⟩
  | succ fuel ih =>
    rw [searchIn, search]
    by_cases hlen : len = 0
    · rw [if_pos hlen, if_pos hlen]
      exact ⟨rfl, by omega⟩
    · have hin : first + len / 2 < l.length := by omega
      rw [if_neg hlen, if_neg hlen]
      dsimp only
      rw [item_of_getElem? (List.getElem?_eq_getElem hin), ok_bind, List.getElem?_eq_getElem hin]
      dsimp only
      by_cases hbefore : before l[first + len / 2] = true
      · rw [if_pos hbefore, if_pos hbefore]
        exact ih (by omega) (by omega)
      · rw [if_neg hbefore, if_neg hbefore]
        exact ih (by omega) (by omega)

theorem lowerBoundIn_eq (before : α → Bool) (l : List α) :
    (lowerBoundIn before l : Checked ε Nat) = .ok (lowerBound before l) :=
  (searchIn_eq (Nat.le_refl _) (Nat.zero_add _).le).1

theorem lowerBound_le (before : α → Bool) (l : List α) : lowerBound before l ≤ l.length :=
  (searchIn_eq (ε := Unit) (Nat.le_refl _) (Nat.zero_add _).le).2

theorem search_map (g : β → α) (l : List β) (fuel first len : Nat) :
    search before (l.map g) fuel first len = search (fun b => before (g b)) l fuel first len := by
  induction fuel generalizing first len with
  | zero => rfl
  | succ fuel ih =>
    rw [search, search]
    dsimp only
    rw [List.getElem?_map]
    cases l[first + len / 2]? with
    | none => rfl
    | some => simp [ih]

theorem lowerBound_map (before : α → Bool) (g : β → α) (l : List β) :
    lowerBound before (l.map g) = lowerBound (fun b => before (g b)) l := by
  rw [lowerBound, search_map, List.length_map, lowerBound]

end KVStore.Lib.PartitionPoint
