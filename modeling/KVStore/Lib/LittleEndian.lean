import Mathlib

namespace KVStore.Lib.LittleEndian

instance neZero_byte : NeZero 256 := ⟨by decide⟩

/-- The low `w` bytes of a number, least significant first. -/
def put : Nat → Nat → List (Fin 256)
  | 0, _ => []
  | w + 1, v => Fin.ofNat 256 v :: put w (v / 256)

def get : List (Fin 256) → Nat
  | [] => 0
  | b :: l => b + 256 * get l

@[simp] theorem length_put (w v : Nat) : (put w v).length = w := by
  induction w generalizing v with
  | zero => rfl
  | succ w ih => simp [put, ih]

theorem get_put {w v : Nat} (h : v < 256 ^ w) : get (put w v) = v := by
  induction w generalizing v with
  | zero => exact (Nat.lt_one_iff.mp h).symm
  | succ w ih =>
    have hv : v / 256 < 256 ^ w := Nat.div_lt_of_lt_mul (by rwa [Nat.mul_comm, ← Nat.pow_succ])
    rw [put, get, ih hv, Fin.val_ofNat, Nat.mod_add_div]

theorem get_lt (l : List (Fin 256)) : get l < 256 ^ l.length := by
  induction l with
  | nil => exact Nat.one_pos
  | cons b =>
    have hb := b.isLt
    rw [get, List.length_cons, Nat.pow_succ]
    omega

theorem put_get (l : List (Fin 256)) : put l.length (get l) = l := by
  induction l with
  | nil => rfl
  | cons b l ih =>
    have hb := b.isLt
    have hlow : Fin.ofNat 256 (b + 256 * get l) = b := by
      apply Fin.ext
      rw [Fin.val_ofNat]
      omega
    have hhigh : (b + 256 * get l) / 256 = get l := by omega
    rw [List.length_cons, get, put, hlow, hhigh, ih]

theorem put_inj {w v v' : Nat} (hv : v < 256 ^ w) (hv' : v' < 256 ^ w) (h : put w v = put w v') : v = v' := by
  rw [← get_put hv, h, get_put hv']

variable {l : List (Fin 256)} {i w : Nat}

theorem put_window (h : i + w ≤ l.length) : put w (get ((l.drop i).take w)) = (l.drop i).take w := by
  have hput := put_get ((l.drop i).take w)
  rwa [List.length_take, List.length_drop, Nat.min_eq_left (by omega)] at hput

theorem window_lt : get ((l.drop i).take w) < 256 ^ w :=
  (get_lt _).trans_le (Nat.pow_le_pow_right (by decide) (List.length_take_le ..))

end KVStore.Lib.LittleEndian
