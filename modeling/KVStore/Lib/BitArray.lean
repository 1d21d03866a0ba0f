import KVStore.Lib.LittleEndian

namespace KVStore.Lib.BitArray

def mask (i : Nat) : Fin 256 := Fin.ofNat 256 (1 <<< (i % 8))

def set (bytes : List (Fin 256)) (i : Nat) : List (Fin 256) := bytes.modify (i / 8) (· ||| mask i)

def IsSet (bytes : List (Fin 256)) (i : Nat) : Prop := ∃ b, bytes[i / 8]? = some b ∧ b &&& mask i ≠ 0

theorem mask_ne_zero (i : Nat) : mask i ≠ 0 := by
  have hlt : i % 8 < 8 := Nat.mod_lt _ (by decide)
  have hall : ∀ j < 8, Fin.ofNat 256 (1 <<< j) ≠ 0 := by decide
  exact hall _ hlt

theorem val_or (a b : Fin 256) : (a ||| b).val = a.val ||| b.val := by
  rw [Fin.or_val]
  exact Nat.mod_eq_of_lt (Nat.or_lt_two_pow (n := 8) a.isLt b.isLt)

theorem val_and (a b : Fin 256) : (a &&& b).val = a.val &&& b.val := Fin.and_val a b

theorem or_and_ne_zero {a b m : Fin 256} (h : a &&& m ≠ 0 ∨ b &&& m ≠ 0) : (a ||| b) &&& m ≠ 0 := by
  intro hzero
  have hval := congrArg Fin.val hzero
  rw [val_and, val_or, Nat.and_or_distrib_right, Fin.val_zero, Nat.or_eq_zero_iff] at hval
  rcases h with ha | hb
  · exact ha (Fin.ext (by rw [val_and, hval.1]; rfl))
  · exact hb (Fin.ext (by rw [val_and, hval.2]; rfl))

theorem and_self_mask (i : Nat) : mask i &&& mask i ≠ 0 := by
  have hsame : mask i &&& mask i = mask i := Fin.ext (by rw [val_and, Nat.and_self])
  rw [hsame]
  exact mask_ne_zero i

@[simp] theorem length_set (bytes : List (Fin 256)) (i : Nat) : (set bytes i).length = bytes.length :=
  List.length_modify _ _ _

variable {bytes : List (Fin 256)}

theorem isSet_set {i : Nat} (h : i < 8 * bytes.length) : IsSet (set bytes i) i := by
  have hin : i / 8 < bytes.length := Nat.div_lt_of_lt_mul h
  refine ⟨bytes[i / 8] ||| mask i, ?_, or_and_ne_zero (.inr (and_self_mask i))⟩
  rw [set, List.getElem?_modify, List.getElem?_eq_getElem hin]
  simp

theorem IsSet.set {i : Nat} (h : IsSet bytes i) (j : Nat) : IsSet (set bytes j) i := by
  obtain ⟨b, hb, hset⟩ := h
  rw [IsSet, BitArray.set, List.getElem?_modify, hb]
  by_cases hbyte : j / 8 = i / 8
  · exact ⟨b ||| mask j, by simp [hbyte], or_and_ne_zero (.inl hset)⟩
  · exact ⟨b, by simp [hbyte], hset⟩

end KVStore.Lib.BitArray
