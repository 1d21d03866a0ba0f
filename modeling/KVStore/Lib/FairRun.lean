import Mathlib

namespace KVStore.Lib.FairRun

variable {α : Type*} {T : Type} (r : α → α → Prop) (done : Nat → Prop) (rank : Nat → α) (helper : Nat → T)
  (turn : Nat → T → Prop)

/-- A run is seen through four functions of time: whether it is over, a rank, the thread whose
turn lowers the rank, and which threads have their turn. At each moment the run ends, or the
rank drops, or rank and helper stay as they are and it was not the helper's turn. -/
def Descends (i : Nat) : Prop :=
  done (i + 1) ∨ r (rank (i + 1)) (rank i) ∨
    rank (i + 1) = rank i ∧ helper (i + 1) = helper i ∧ ¬ turn i (helper i)

variable {r done rank helper turn}

theorem waits (hstep : ∀ i, ¬ done i → Descends r done rank helper turn i) {i : Nat} (hi : ¬ done i) (d : Nat) :
    (∃ j, i ≤ j ∧ (done j ∨ r (rank j) (rank i))) ∨
      ¬ done (i + d) ∧ rank (i + d) = rank i ∧ helper (i + d) = helper i ∧
        ∀ j, i ≤ j → j < i + d → ¬ turn j (helper i) := by
  induction d with
  | zero => exact .inr ⟨hi, rfl, rfl, fun j hle hlt => absurd hlt (Nat.not_lt.mpr hle)⟩
  | succ d ih =>
    rcases ih with hpast | ⟨hrunning, hrank, hhelper, hturns⟩
    · exact .inl hpast
    · rcases hstep (i + d) hrunning with hdone | hdrops | ⟨hsame, hhelper', hturn⟩
      · exact .inl ⟨i + d + 1, by omega, .inl hdone⟩
      · exact .inl ⟨i + d + 1, by omega, .inr (hrank ▸ hdrops)⟩
      · by_cases hdone : done (i + d + 1)
        · exact .inl ⟨i + d + 1, by omega, .inl hdone⟩
        · refine .inr ⟨hdone, hsame.trans hrank, hhelper'.trans hhelper, fun j hle hlt => ?_⟩
          rcases Nat.lt_succ_iff_lt_or_eq.mp hlt with hlt | rfl
          · exact hturns j hle hlt
          · exact hhelper ▸ hturn

variable (done rank helper turn) in
theorem reaches_done (hwf : WellFounded r) (hstep : ∀ i, ¬ done i → Descends r done rank helper turn i)
    (hfair : ∀ i, ¬ done i → ∃ j, i ≤ j ∧ (done j ∨ turn j (helper i))) (i : Nat) : ∃ j, i ≤ j ∧ done j := by
  induction hi : rank i using hwf.induction generalizing i with
  | h a ih =>
    subst hi
    by_cases hdone : done i
    · exact ⟨i, Nat.le_refl i, hdone⟩
    · obtain ⟨j, hle, hj⟩ := hfair i hdone
      have hpast : ∃ k, i ≤ k ∧ (done k ∨ r (rank k) (rank i)) := by
        rcases hj with hj | hturn
        · exact ⟨j, hle, .inl hj⟩
        · rcases waits hstep hdone (j + 1 - i) with hpast | ⟨_, _, _, hturns⟩
          · exact hpast
          · exact absurd hturn (hturns j hle (by omega))
      obtain ⟨k, hik, hk | hk⟩ := hpast
      · exact ⟨k, hik, hk⟩
      · obtain ⟨m, hkm, hm⟩ := ih (rank k) hk k rfl
        exact ⟨m, Nat.le_trans hik hkm, hm⟩

end KVStore.Lib.FairRun
