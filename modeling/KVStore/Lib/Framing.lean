import Mathlib

namespace KVStore.Lib

/-- How the length of a frame is written in front of it. -/
structure Framing (β : Type) where
  width : Nat
  limit : Nat
  put : Nat → List β
  get : List β → Nat
  width_pos : 0 < width
  length_put : ∀ n, (put n).length = width
  get_put : ∀ n, n < limit → get (put n) = n

namespace Framing

variable {β : Type}

inductive Next (β : Type)
  | boundary
  | cut
  | oversized
  | frame (payload rest : List β)

variable (c : Framing β) (cap : Nat)

def frame (payload : List β) : List β := c.put payload.length ++ payload

def next (stream : List β) : Next β :=
  if stream = [] then .boundary
  else if stream.length < c.width then .cut
  else if cap < c.get (stream.take c.width) then .oversized
  else if stream.length < c.width + c.get (stream.take c.width) then .cut
  else .frame ((stream.drop c.width).take (c.get (stream.take c.width)))
    (stream.drop (c.width + c.get (stream.take c.width)))

/-- How much of a stream has to be seen to tell what it begins with. -/
def need (stream : List β) : Nat :=
  if stream.length < c.width ∨ cap < c.get (stream.take c.width) then c.width
  else c.width + c.get (stream.take c.width)

variable {c cap} {stream payload rest : List β}

theorem width_le_need : c.width ≤ c.need cap stream := by
  unfold need
  split
  · exact Nat.le_refl _
  · exact Nat.le_add_right ..

theorem need_of_size (h : c.width ≤ stream.length) (hsize : c.get (stream.take c.width) ≤ cap) :
    c.need cap stream = c.width + c.get (stream.take c.width) := by
  rw [need, if_neg]
  rintro (hshort | hlarge)
  · exact absurd h (Nat.not_le.mpr hshort)
  · exact absurd hsize (Nat.not_le.mpr hlarge)

@[simp] theorem length_frame (payload : List β) : (c.frame payload).length = c.width + payload.length := by
  rw [frame, List.length_append, c.length_put]

theorem next_of_short (hne : stream ≠ []) (h : stream.length < c.width) : c.next cap stream = .cut := by
  rw [next, if_neg hne, if_pos h]

section

variable (h : c.width ≤ stream.length)
include h

theorem ne_nil_of_width : stream ≠ [] := by
  rintro rfl
  exact absurd h (Nat.not_le.mpr c.width_pos)

theorem next_of_oversized (hsize : cap < c.get (stream.take c.width)) :
    c.next cap stream = .oversized := by
  rw [next, if_neg (ne_nil_of_width h), if_neg (Nat.not_lt.mpr h), if_pos hsize]

theorem next_of_cut (hsize : c.get (stream.take c.width) ≤ cap)
    (hcut : stream.length < c.width + c.get (stream.take c.width)) : c.next cap stream = .cut := by
  rw [next, if_neg (ne_nil_of_width h), if_neg (Nat.not_lt.mpr h), if_neg (Nat.not_lt.mpr hsize), if_pos hcut]

end

theorem next_of_whole (h : c.width + c.get (stream.take c.width) ≤ stream.length)
    (hsize : c.get (stream.take c.width) ≤ cap) :
    c.next cap stream = .frame ((stream.drop c.width).take (c.get (stream.take c.width)))
      (stream.drop (c.width + c.get (stream.take c.width))) := by
  have hwidth : c.width ≤ stream.length := Nat.le_trans (Nat.le_add_right ..) h
  rw [next, if_neg (ne_nil_of_width hwidth), if_neg (Nat.not_lt.mpr hwidth), if_neg (Nat.not_lt.mpr hsize),
    if_neg (Nat.not_lt.mpr h)]

theorem next_eq_boundary_iff : c.next cap stream = .boundary ↔ stream = [] := by
  constructor
  · intro h
    by_contra hne
    rw [next, if_neg hne] at h
    split_ifs at h
  · intro h
    rw [next, if_pos h]

theorem need_of_oversized (h : c.next cap stream = .oversized) : c.need cap stream = c.width := by
  unfold next at h
  split_ifs at h with _ _ hsize
  rw [need, if_pos (.inr hsize)]

theorem of_next_frame (h : c.next cap stream = .frame payload rest) :
    c.get (stream.take c.width) ≤ cap ∧ c.width + c.get (stream.take c.width) ≤ stream.length := by
  unfold next at h
  split_ifs at h with _ _ hsize hwhole
  exact ⟨Nat.not_lt.mp hsize, Nat.not_lt.mp hwhole⟩

theorem need_le_of_next_frame (h : c.next cap stream = .frame payload rest) : c.need cap stream ≤ stream.length := by
  obtain ⟨hsize, hwhole⟩ := of_next_frame h
  rwa [need_of_size (Nat.le_trans (Nat.le_add_right ..) hwhole) hsize]

theorem get_take_frame (hcap : payload.length ≤ cap) (hlimit : cap < c.limit) (rest : List β) :
    c.get ((c.frame payload ++ rest).take c.width) = payload.length := by
  rw [frame, List.append_assoc, List.take_left' (c.length_put _), c.get_put _ (Nat.lt_of_le_of_lt hcap hlimit)]

theorem length_le_frame_append (payload rest : List β) :
    c.width + payload.length ≤ (c.frame payload ++ rest).length := by
  rw [List.length_append, length_frame]
  exact Nat.le_add_right ..

theorem next_frame (hcap : payload.length ≤ cap) (hlimit : cap < c.limit) (rest : List β) :
    c.next cap (c.frame payload ++ rest) = .frame payload rest := by
  have hget := get_take_frame hcap hlimit rest
  have hlength := length_le_frame_append (c := c) payload rest
  rw [next_of_whole (by rwa [hget]) (by rwa [hget]), hget]
  have hpayload : ((c.frame payload ++ rest).drop c.width).take payload.length = payload := by
    rw [frame, List.append_assoc, List.drop_left' (c.length_put _), List.take_left]
  rw [hpayload, List.drop_left' (length_frame payload)]

theorem need_frame (hcap : payload.length ≤ cap) (hlimit : cap < c.limit) (rest : List β) :
    c.need cap (c.frame payload ++ rest) = c.width + payload.length := by
  have hget := get_take_frame hcap hlimit rest
  rw [need_of_size (Nat.le_trans (Nat.le_add_right ..) (length_le_frame_append payload rest)) (by rwa [hget]), hget]

end Framing

end KVStore.Lib
