import Mathlib

namespace KVStore.Lib.ReplayLog

variable {E E' K V : Type} [DecidableEq K] (key : E → K) (gone : E → Bool)

/-- The last event of a log that is about a key. -/
def newest (k : K) : List E → Option E
  | [] => none
  | e :: es => (newest k es).or (if key e = k then some e else none)

/-- The event that decides a key, unless it deletes it. -/
def current (k : K) (es : List E) : Option E := (newest key k es).filter fun e => !gone e

@[simp] theorem newest_nil (k : K) : newest key k ([] : List E) = none := rfl

theorem newest_append (k : K) (es es' : List E) :
    newest key k (es ++ es') = (newest key k es').or (newest key k es) := by
  induction es with
  | nil => simp
  | cons e es ih => rw [List.cons_append, newest, newest, ih, Option.or_assoc]

theorem newest_concat (k : K) (es : List E) (e : E) :
    newest key k (es ++ [e]) = if key e = k then some e else newest key k es := by
  rw [newest_append]
  by_cases h : key e = k <;> simp [newest, h]

variable {key gone} {k : K} {e : E} {es : List E}

theorem of_newest (h : newest key k es = some e) : e ∈ es ∧ key e = k := by
  induction es with
  | nil => cases h
  | cons a es ih =>
    rw [newest] at h
    cases hn : newest key k es with
    | some =>
      rw [hn] at h
      cases h
      exact ⟨List.mem_cons_of_mem a (ih hn).1, (ih hn).2⟩
    | none =>
      rw [hn] at h
      by_cases ha : key a = k
      · simp only [ha, if_true, Option.none_or, Option.some.injEq] at h
        subst h
        exact ⟨List.mem_cons_self .., ha⟩
      · simp [ha] at h

theorem newest_eq_none_iff : newest key k es = none ↔ ∀ e ∈ es, key e ≠ k := by
  induction es with
  | nil => simp
  | cons a es ih => simp [newest, ih, and_comm]

theorem of_current (h : current key gone k es = some e) : e ∈ es ∧ key e = k ∧ gone e = false := by
  obtain ⟨hn, hg⟩ := Option.filter_eq_some_iff.mp h
  exact ⟨(of_newest hn).1, (of_newest hn).2, by simpa using hg⟩

theorem newest_map {key' : E' → K} {f : E → E'} (hkey : ∀ e ∈ es, key' (f e) = key e) :
    newest key' k (es.map f) = (newest key k es).map f := by
  induction es with
  | nil => rfl
  | cons a es ih =>
    have ih := ih fun e he => hkey e (List.mem_cons_of_mem a he)
    rw [List.map_cons, newest, newest, ih, hkey a List.mem_cons_self]
    cases newest key k es <;> by_cases ha : key a = k <;> simp [ha]

theorem current_map {key' : E' → K} {gone' : E' → Bool} {f : E → E'}
    (hkey : ∀ e ∈ es, key' (f e) = key e) (hgone : ∀ e ∈ es, gone' (f e) = gone e) :
    current key' gone' k (es.map f) = (current key gone k es).map f := by
  unfold current
  rw [newest_map hkey]
  cases hn : newest key k es with
  | none => rfl
  | some e =>
    have he := hgone e (of_newest hn).1
    cases hg : gone e <;> simp [Option.filter, he, hg]

section Snapshot

variable {isLive : E → Bool}

theorem newest_filter_eq {found : Option E} (hlive : ∀ e ∈ es, isLive e = true → key e = k → found = some e)
    (hfound : ∀ e, found = some e → e ∈ es ∧ key e = k ∧ isLive e = true) :
    newest key k (es.filter isLive) = found := by
  cases hn : newest key k (es.filter isLive) with
  | some e =>
    obtain ⟨hin, hk⟩ := of_newest hn
    obtain ⟨hmem, hl⟩ := List.mem_filter.mp hin
    exact (hlive e hmem hl hk).symm
  | none =>
    cases hf : found with
    | none => rfl
    | some e =>
      obtain ⟨hmem, hk, hl⟩ := hfound e hf
      exact absurd hk (newest_eq_none_iff.mp hn e (List.mem_filter.mpr ⟨hmem, hl⟩))

theorem newest_filter (hlive : ∀ e ∈ es, isLive e = true ↔ current key gone (key e) es = some e) :
    newest key k (es.filter isLive) = current key gone k es := by
  refine newest_filter_eq (fun e he hl hk => hk ▸ (hlive e he).mp hl) fun e hc => ?_
  obtain ⟨hmem, hk, _⟩ := of_current hc
  exact ⟨hmem, hk, (hlive e hmem).mpr (by rw [hk, hc])⟩

/-- A snapshot of a log may stand in for any first part of it: what the rest of the
log says about a key still comes after, and the snapshot knows what it says. -/
theorem current_snapshot {es₁ es₂ : List E} {f : E → E} {val : E → V}
    (hlive : ∀ e ∈ es₁ ++ es₂, isLive e = true ↔ current key gone (key e) (es₁ ++ es₂) = some e)
    (hkey : ∀ e, key (f e) = key e) (hgone : ∀ e, gone (f e) = gone e) (hval : ∀ e, val (f e) = val e) :
    (current key gone k (((es₁ ++ es₂).filter isLive).map f ++ es₂)).map val =
      (current key gone k (es₁ ++ es₂)).map val := by
  have hsnap : newest key k (((es₁ ++ es₂).filter isLive).map f) =
      (current key gone k (es₁ ++ es₂)).map f := by
    rw [newest_map fun e _ => hkey e, newest_filter hlive]
  unfold current
  rw [newest_append, hsnap]
  cases hn : newest key k es₂ with
  | some => simp [newest_append, hn]
  | none =>
    rw [Option.none_or]
    cases hc : current key gone k (es₁ ++ es₂) with
    | none =>
      rw [current] at hc
      simp [hc]
    | some =>
      have hg := (of_current hc).2.2
      rw [current] at hc
      simp [hc, hg, hgone, hval]

end Snapshot

end KVStore.Lib.ReplayLog
