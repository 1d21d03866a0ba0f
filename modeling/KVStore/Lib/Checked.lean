import Mathlib

namespace KVStore.Lib

/-- How a computation over a buffer ends without a value: with a status of its own, or
with a step that the program must never take. -/
inductive Fault (ε : Type)
  | status (e : ε)
  | outOfBounds
  | wrapped
  | unfinished
  deriving DecidableEq, Repr

abbrev Checked (ε α : Type) := Except (Fault ε) α

namespace Checked

variable {ε α β : Type}

def fail (e : ε) : Checked ε α := .error (.status e)

def refuse (c : Prop) [Decidable c] (e : ε) : Checked ε Unit := if c then fail e else pure ()

def sub (a b : Nat) : Checked ε Nat := if b ≤ a then pure (a - b) else .error .wrapped

def slice (l : List β) (first size : Nat) : Checked ε (List β) :=
  if first + size ≤ l.length then pure ((l.drop first).take size) else .error .outOfBounds

def item (l : List β) (i : Nat) : Checked ε β :=
  match l[i]? with
  | some b => pure b
  | none => .error .outOfBounds

def attempt : Checked ε α → Checked Empty (Except ε α)
  | .ok a => .ok (.ok a)
  | .error (.status e) => .ok (.error e)
  | .error .outOfBounds => .error .outOfBounds
  | .error .wrapped => .error .wrapped
  | .error .unfinished => .error .unfinished

section Rules

variable {x : Checked ε α} {f : α → Checked ε β} {E : ε → Prop} {P Q : α → Prop} {R : β → Prop} {c : Prop}
    {a b : Nat} {l : List β} {first size : Nat}

/-- The computation ends with a value that satisfies `Q`, or with a status that satisfies `E`. -/
def Yields (E : ε → Prop) (Q : α → Prop) : Checked ε α → Prop
  | .ok a => Q a
  | .error (.status e) => E e
  | .error _ => False

theorem yields_pure {a : α} (h : Q a) : Yields E Q (pure a) := h

theorem yields_fail {e : ε} (h : E e) : Yields E Q (fail e) := h

theorem Yields.bind (hx : Yields E P x) (hf : ∀ a, P a → Yields E R (f a)) : Yields E R (x >>= f) := by
  cases x with
  | ok a => exact hf a hx
  | error e =>
    cases e with
    | status => exact hx
    | outOfBounds | wrapped | unfinished => exact hx.elim

theorem Yields.mono (hx : Yields E P x) (h : ∀ a, P a → Q a) : Yields E Q x := by
  cases x with
  | ok a => exact h a hx
  | error e =>
    cases e with
    | status => exact hx
    | outOfBounds | wrapped | unfinished => exact hx.elim

theorem Yields.weaken {E' : ε → Prop} (hx : Yields E Q x) (h : ∀ e, E e → E' e) : Yields E' Q x := by
  cases x with
  | ok => exact hx
  | error e =>
    cases e with
    | status e => exact h e hx
    | outOfBounds | wrapped | unfinished => exact hx.elim

theorem Yields.of_ok {a : α} (h : Yields E Q x) (hx : x = .ok a) : Q a := by
  subst hx
  exact h

theorem Yields.value_or_status (h : Yields E Q x) :
    (∃ a, x = .ok a ∧ Q a) ∨ ∃ e, x = .error (.status e) ∧ E e := by
  cases x with
  | ok a => exact .inl ⟨a, rfl, h⟩
  | error e =>
    cases e with
    | status e => exact .inr ⟨e, rfl, h⟩
    | outOfBounds | wrapped | unfinished => exact h.elim

theorem yields_refuse [Decidable c] {e : ε} (h : c → E e) : Yields E (fun _ => ¬ c) (refuse c e) := by
  unfold refuse
  split
  next hc => exact yields_fail (h hc)
  next hc => exact yields_pure hc

theorem yields_sub (h : b ≤ a) : Yields E (· = a - b) (sub a b) := by
  rw [sub, if_pos h]
  exact yields_pure rfl

theorem yields_slice (h : first + size ≤ l.length) :
    Yields E (· = (l.drop first).take size) (slice l first size) := by
  rw [slice, if_pos h]
  exact yields_pure rfl

theorem yields_item {i : Nat} (h : i < l.length) : Yields E (fun b => l[i]? = some b) (item l i) := by
  rw [item, List.getElem?_eq_getElem h]
  exact yields_pure rfl

@[simp] theorem ok_bind (a : α) (f : α → Checked ε β) : ((.ok a : Checked ε α) >>= f) = f a := rfl

@[simp] theorem pure_eq_ok (a : α) : (pure a : Checked ε α) = .ok a := rfl

theorem bind_eq_ok {b : β} : (x >>= f) = .ok b ↔ ∃ a, x = .ok a ∧ f a = .ok b := by
  cases x with
  | ok => simp
  | error => exact ⟨fun h => (nomatch h), fun ⟨_, h, _⟩ => (nomatch h)⟩

theorem refuse_of_not [Decidable c] (e : ε) (h : ¬ c) : refuse c e = .ok () := if_neg h

theorem refuse_of [Decidable c] (e : ε) (h : c) : refuse c e = .error (.status e) := if_pos h

theorem sub_of_le (h : b ≤ a) : (sub a b : Checked ε Nat) = .ok (a - b) := if_pos h

theorem refuse_bind [Decidable c] {e : ε} {f : Unit → Checked ε β} (h : ¬ c) : (refuse c e >>= f) = f () := by
  rw [refuse_of_not e h, ok_bind]

theorem sub_bind {f : Nat → Checked ε β} (h : b ≤ a) : (sub a b >>= f) = f (a - b) := by
  rw [sub_of_le h, ok_bind]

theorem slice_of_le (h : first + size ≤ l.length) :
    (slice l first size : Checked ε (List β)) = .ok ((l.drop first).take size) := if_pos h

theorem item_of_getElem? {i : Nat} {b : β} (h : l[i]? = some b) : (item l i : Checked ε β) = .ok b := by
  rw [item, h]
  rfl

end Rules

/-- `part` stands in the buffer from `first` up to `last`. -/
def Stands (l part : List β) (first last : Nat) : Prop :=
  last = first + part.length ∧ first ≤ l.length ∧ part <+: l.drop first

namespace Stands

variable {l part part' : List β} {i j k : Nat}

theorem last_eq (h : Stands l part i j) : j = i + part.length := h.1

theorem last_le (h : Stands l part i j) : j ≤ l.length := by
  obtain ⟨rfl, hi, hp⟩ := h
  have hlen := hp.length_le
  rw [List.length_drop] at hlen
  omega

theorem slice (h : Stands l part i j) : (Checked.slice l i part.length : Checked ε (List β)) = .ok part := by
  have hle := h.last_le
  obtain ⟨rfl, _, hp⟩ := h
  rw [slice_of_le hle, ← List.prefix_iff_eq_take.mp hp]

theorem of_slice {size : Nat} (h : i + size ≤ l.length) : Stands l ((l.drop i).take size) i (i + size) := by
  refine ⟨?_, by omega, List.take_prefix _ _⟩
  rw [List.length_take, List.length_drop]
  omega

theorem nil (h : i ≤ l.length) : Stands l [] i i := ⟨rfl, h, List.nil_prefix⟩

theorem append (h : Stands l part i j) (h' : Stands l part' j k) : Stands l (part ++ part') i k := by
  obtain ⟨rfl, hi, t, ht⟩ := h
  obtain ⟨rfl, hj, hp'⟩ := h'
  refine ⟨by rw [List.length_append, Nat.add_assoc], hi, ?_⟩
  rw [← List.drop_drop, ← ht, List.drop_left] at hp'
  rw [← ht]
  exact (List.prefix_append_right_inj part).mpr hp'

theorem of_append (h : Stands l (part ++ part') i k) :
    Stands l part i (i + part.length) ∧ Stands l part' (i + part.length) k := by
  have hlast := h.last_le
  obtain ⟨rfl, hi, t, ht⟩ := h
  rw [List.append_assoc] at ht
  rw [List.length_append] at hlast
  constructor
  · exact ⟨rfl, hi, part' ++ t, ht⟩
  · refine ⟨by rw [List.length_append, Nat.add_assoc], by omega, t, ?_⟩
    rw [← List.drop_drop, ← ht, List.drop_left]

theorem whole (l : List β) : Stands l l 0 l.length := ⟨(Nat.zero_add _).symm, Nat.zero_le _, List.prefix_refl l⟩

theorem unique (h : Stands l part i j) (h' : Stands l part' i j) : part = part' := by
  have hlength : part.length = part'.length := by
    have := h.last_eq
    have := h'.last_eq
    omega
  rw [List.prefix_iff_eq_take.mp h.2.2, List.prefix_iff_eq_take.mp h'.2.2, hlength]

theorem eq_whole (h : Stands l part 0 l.length) : part = l := by
  have hlength := h.last_eq
  exact h.2.2.eq_of_length (by simpa using hlength.symm)

end Stands

/-- A counted loop that reads an item a round and moves a cursor. -/
def readMany (read : Nat → Checked ε (α × Nat)) : Nat → Nat → Checked ε (List α × Nat)
  | 0, i => pure ([], i)
  | n + 1, i => do
      let (a, i) ← read i
      let (as, i) ← readMany read n i
      return (a :: as, i)

section ReadMany

variable {read : Nat → Checked ε (α × Nat)} {E : ε → Prop} {l : List β} {limit : Nat} {encode : α → List β}
  {Valid : α → Prop}

theorem yields_readMany
    (hread : ∀ i, i ≤ limit → Yields E (fun y => Valid y.1 ∧ Stands l (encode y.1) i y.2 ∧ y.2 ≤ limit) (read i))
    (hlimit : limit ≤ l.length) (n : Nat) {i : Nat} (hi : i ≤ limit) :
    Yields E (fun y => y.1.length = n ∧ (∀ a ∈ y.1, Valid a) ∧ Stands l (y.1.flatMap encode) i y.2 ∧ y.2 ≤ limit)
      (readMany read n i) := by
  induction n generalizing i with
  | zero =>
    apply yields_pure
    exact ⟨rfl, by simp, .nil (Nat.le_trans hi hlimit), hi⟩
  | succ n ih =>
    apply (hread i hi).bind
    rintro ⟨a, j⟩ ⟨ha, hstands, hj⟩
    apply (ih hj).bind
    rintro ⟨as, k⟩ ⟨hlength, has, hrest, hk⟩
    apply yields_pure
    refine ⟨by simpa using hlength, ?_, ?_, hk⟩
    · exact List.forall_mem_cons.mpr ⟨ha, has⟩
    · rw [List.flatMap_cons]
      exact hstands.append hrest

theorem readMany_of_stands
    (hread : ∀ {a i j}, Valid a → Stands l (encode a) i j → j ≤ limit → read i = .ok (a, j))
    {as : List α} (has : ∀ a ∈ as, Valid a) {i j : Nat} (h : Stands l (as.flatMap encode) i j) (hj : j ≤ limit) :
    readMany read as.length i = .ok (as, j) := by
  induction as generalizing i with
  | nil =>
    rw [h.last_eq]
    rfl
  | cons a as ih =>
    obtain ⟨ha, has⟩ := List.forall_mem_cons.mp has
    rw [List.flatMap_cons] at h
    obtain ⟨hhead, htail⟩ := h.of_append
    have hmid : i + (encode a).length ≤ limit := by
      have := htail.last_eq
      omega
    rw [List.length_cons, readMany, hread ha hhead hmid, ok_bind]
    dsimp only
    rw [ih has htail, ok_bind]
    rfl

end ReadMany

/-- A loop that reads an item a round until its cursor reaches a limit. -/
def readToEnd (read : Nat → Checked ε (α × Nat)) (limit : Nat) : Nat → Nat → Checked ε (List α)
  | 0, _ => .error .unfinished
  | fuel + 1, i =>
    if i < limit then do
      let (a, i) ← read i
      let as ← readToEnd read limit fuel i
      return a :: as
    else pure []

section ReadToEnd

variable {read : Nat → Checked ε (α × Nat)} {E : ε → Prop} {l : List β} {limit : Nat} {encode : α → List β}
  {P : α → Prop}

theorem yields_readToEnd (hread : ∀ i, i < limit → Yields E (fun y => P y.1 ∧ i < y.2 ∧ y.2 ≤ limit) (read i))
    {fuel i : Nat} (hi : i ≤ limit) (hfuel : limit - i < fuel) :
    Yields E (fun as => ∀ a ∈ as, P a) (readToEnd read limit fuel i) := by
  induction fuel generalizing i with
  | zero => omega
  | succ fuel ih =>
    rw [readToEnd]
    by_cases hlt : i < limit
    · rw [if_pos hlt]
      apply (hread i hlt).bind
      rintro ⟨a, j⟩ ⟨ha, hmoved, hj⟩
      have hrest : limit - j < fuel := by omega
      apply (ih hj hrest).bind
      intro as has
      apply yields_pure
      exact List.forall_mem_cons.mpr ⟨ha, has⟩
    · rw [if_neg hlt]
      apply yields_pure
      simp

theorem readToEnd_of_stands
    (hread : ∀ {a i j}, P a → Stands l (encode a) i j → j ≤ limit → read i = .ok (a, j))
    (hencode : ∀ a, 0 < (encode a).length) {as : List α} (has : ∀ a ∈ as, P a) {i fuel : Nat}
    (h : Stands l (as.flatMap encode) i limit) (hfuel : as.length < fuel) :
    readToEnd read limit fuel i = .ok as := by
  induction as generalizing i fuel with
  | nil =>
    obtain ⟨fuel, rfl⟩ := Nat.exists_eq_succ_of_ne_zero (Nat.ne_of_gt hfuel)
    have hlast : ¬ i < limit := Nat.not_lt.mpr (Nat.le_of_eq h.last_eq)
    rw [readToEnd, if_neg hlast]
    rfl
  | cons a as ih =>
    obtain ⟨fuel, rfl⟩ := Nat.exists_eq_succ_of_ne_zero (Nat.ne_of_gt (Nat.lt_of_le_of_lt (Nat.zero_le _) hfuel))
    obtain ⟨ha, has⟩ := List.forall_mem_cons.mp has
    have hsize := hencode a
    rw [List.flatMap_cons] at h
    obtain ⟨hhead, htail⟩ := h.of_append
    have hlast := htail.last_eq
    rw [readToEnd, if_pos (by omega), hread ha hhead (by omega), ok_bind]
    dsimp only
    rw [ih has htail (by simpa using hfuel), ok_bind]
    rfl

end ReadToEnd

end Checked

/-- Two ways to end that differ at most in their statuses. -/
def Fault.Alike {ε : Type} (same : ε → ε → Prop) : Fault ε → Fault ε → Prop
  | .status e, .status e' => same e e'
  | f, f' => f = f'

namespace Checked

variable {ε α β : Type}

/-- Two computations that end alike: with related values, or without one for the same reason. -/
def Alike (same : ε → ε → Prop) (R : α → β → Prop) : Checked ε α → Checked ε β → Prop
  | .ok a, .ok b => R a b
  | .error f, .error f' => f.Alike same f'
  | _, _ => False

section Alike

variable {γ δ : Type} {same : ε → ε → Prop} {R : α → β → Prop} {S : γ → δ → Prop} {x : Checked ε α}
  {y : Checked ε β} {f : α → Checked ε γ} {g : β → Checked ε δ}

theorem Alike.bind (hxy : Alike same R x y) (hfg : ∀ a b, R a b → Alike same S (f a) (g b)) :
    Alike same S (x >>= f) (y >>= g) := by
  cases x with
  | ok a =>
    cases y with
    | ok b => exact hfg a b hxy
    | error => exact hxy.elim
  | error =>
    cases y with
    | ok => exact hxy.elim
    | error => exact hxy

theorem Alike.refl (hsame : ∀ e, same e e) (x : Checked ε α) : Alike same Eq x x := by
  cases x with
  | ok => exact rfl
  | error e =>
    cases e with
    | status e => exact hsame e
    | outOfBounds | wrapped | unfinished => exact rfl

theorem Alike.and_yields {E : ε → Prop} {P : α → Prop} (hxy : Alike same R x y) (hx : Yields E P x) :
    Alike same (fun a b => R a b ∧ P a) x y := by
  cases x with
  | ok =>
    cases y with
    | ok => exact ⟨hxy, hx⟩
    | error => exact hxy
  | error =>
    cases y with
    | ok => exact hxy
    | error => exact hxy

theorem Alike.mono {R' : α → β → Prop} (hxy : Alike same R x y) (h : ∀ a b, R a b → R' a b) :
    Alike same R' x y := by
  cases x with
  | ok a =>
    cases y with
    | ok b => exact h a b hxy
    | error => exact hxy
  | error =>
    cases y with
    | ok => exact hxy
    | error => exact hxy

theorem alike_bind_same {f : α → Checked ε γ} {g : α → Checked ε δ} (hsame : ∀ e, same e e) (x : Checked ε α)
    (h : ∀ a, Alike same S (f a) (g a)) : Alike same S (x >>= f) (x >>= g) := by
  apply (Alike.refl hsame x).bind
  rintro a _ rfl
  exact h a

end Alike

end Checked

end KVStore.Lib
