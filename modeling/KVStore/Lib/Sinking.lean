import Mathlib

namespace KVStore.Lib.Sinking

/-- The counts of a stack of layers, each weighed by how far its layer is above
the floor. -/
def potential : Nat → List Nat → Nat
  | _, [] => 0
  | height, n :: ns => height * n + potential (height - 1) ns

theorem potential_append (height : Nat) (a b : List Nat) :
    potential height (a ++ b) = potential height a + potential (height - a.length) b := by
  induction a generalizing height with
  | nil => simp [potential]
  | cons n a ih =>
    rw [List.cons_append, potential, potential, ih, List.length_cons, Nat.add_assoc, Nat.sub_sub,
      Nat.add_comm 1]

theorem potential_mono {low high : Nat} (h : low ≤ high) (ns : List Nat) :
    potential low ns ≤ potential high ns := by
  induction ns generalizing low high with
  | nil => exact le_rfl
  | cons n ns ih => exact Nat.add_le_add (Nat.mul_le_mul_right n h) (ih (Nat.sub_le_sub_right h 1))

theorem potential_prefix_le {height : Nat} {a b : List Nat} (h : a <+: b) :
    potential height a ≤ potential height b := by
  obtain ⟨c, rfl⟩ := h
  rw [potential_append]
  exact Nat.le_add_right _ _

theorem potential_sink (height : Nat) (above deeper : List Nat) {source target source' target' moved : Nat}
    (hfloor : above.length < height) (hsource : source' + moved ≤ source)
    (htarget : target' ≤ target + moved) :
    potential height (above ++ source' :: target' :: deeper) + moved ≤
      potential height (above ++ source :: target :: deeper) := by
  obtain ⟨d, hd⟩ : ∃ d, height - above.length = d + 1 := ⟨height - above.length - 1, by omega⟩
  simp only [potential_append, potential, hd, Nat.add_sub_cancel]
  have hs : (d + 1) * (source' + moved) ≤ (d + 1) * source := Nat.mul_le_mul_left _ hsource
  have ht : d * target' ≤ d * (target + moved) := Nat.mul_le_mul_left _ htarget
  have hsplit : (d + 1) * (source' + moved) = (d + 1) * source' + d * moved + moved := by ring
  rw [hsplit] at hs
  rw [Nat.mul_add] at ht
  omega

end KVStore.Lib.Sinking
