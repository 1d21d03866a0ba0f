import KVStore.Lib.CrashProgram

namespace KVStore.Lib.CrashProgram

variable {O : Type} {R : O → Type} {σ α β : Type} {M : Machine O R σ} {legal : σ → Prop}
    {fault : (o : O) → σ → Option (R o × σ)} {fails : (o : O) → σ → R o → σ → Prop} {p : Prog O R α}
    {s s' : σ}

section Runs

variable (M : Machine O R σ) (legal : σ → Prop) (fails : (o : O) → σ → R o → σ → Prop)

/-- The whole runs of a program in which an operation may fail instead of being performed.
Every state on the way is legal. -/
inductive Runs : Prog O R α → σ → α → σ → Prop
  | ret {a : α} {s : σ} : Runs (.ret a) s a s
  | op {o : O} {k : R o → Prog O R α} {s s' : σ} {a : α} (legal : legal (M.exec o s).2)
      (next : Runs (k (M.exec o s).1) (M.exec o s).2 a s') : Runs (.op o k) s a s'
  | fail {o : O} {k : R o → Prog O R α} {s s₁ s' : σ} {r : R o} {a : α} (fails : fails o s r s₁)
      (legal : legal s₁) (next : Runs (k r) s₁ a s') : Runs (.op o k) s a s'

variable {M legal fails} {p : Prog O R α} {f : α → Prog O R β} {s s' : σ} {a : α} {b : β} {I : σ → Prop}
    {Q : α → σ → Prop}

theorem Runs.of_ret {a' : α} (h : Runs M legal fails (.ret a) s a' s') : (a', s') = (a, s) := by
  cases h
  rfl

theorem Runs.of_bind (h : Runs M legal fails (p.bind f) s b s') :
    ∃ a s₁, Runs M legal fails p s a s₁ ∧ Runs M legal fails (f a) s₁ b s' := by
  induction p generalizing s with
  | ret a => exact ⟨a, s, .ret, h⟩
  | op o k ih =>
    cases h with
    | op legal next =>
      obtain ⟨a, s₁, hk, hf⟩ := ih _ next
      exact ⟨a, s₁, .op legal hk, hf⟩
    | fail fails legal next =>
      obtain ⟨a, s₁, hk, hf⟩ := ih _ next
      exact ⟨a, s₁, .fail fails legal hk, hf⟩

theorem Runs.ends_legal (h : Runs M legal fails p s a s') (hl : legal s) : legal s' := by
  induction h with
  | ret => exact hl
  | op legal _ ih => exact ih legal
  | fail _ legal _ ih => exact ih legal

theorem Runs.run_eq (h : Runs M legal (fun _ _ _ _ => False) p s a s') : p.run M s = (a, s') := by
  induction p generalizing s with
  | ret =>
    cases h.of_ret
    rfl
  | op o k ih =>
    cases h with
    | op legal next => exact ih _ next
    | fail fails => exact fails.elim

theorem Prog.All.imp {φ ψ : O → Prop} (h : p.All φ) (himp : ∀ o, φ o → ψ o) : p.All ψ := by
  induction p with
  | ret => trivial
  | op o k ih => exact ⟨himp o h.1, fun r => ih r (h.2 r)⟩

theorem Prog.all_of_forall {φ : O → Prop} (h : ∀ o, φ o) : p.All φ := by
  induction p with
  | ret => trivial
  | op o k ih => exact ⟨h o, fun r => ih r⟩

theorem Guarded.runs (h : Guarded M Eq legal I Q p s)
    (hquiet : p.All fun o => ∀ s r s', ¬ fails o s r s') (hl : legal s)
    (hruns : Runs M legal fails p s a s') : Q a s' := by
  induction hruns with
  | ret => exact h.returned (fun _ => rfl) hl
  | op legal _ ih => exact ih (h.stepped (fun _ => rfl) hl legal) (hquiet.2 _) legal
  | fail fails => exact absurd fails (hquiet.1 _ _ _)

theorem Guarded.runs_of_crash (h : Guarded M Eq legal I Q p s)
    (hno : ∀ o s r s', I s → ¬ fails o s r s') (hl : legal s) (hruns : Runs M legal fails p s a s') :
    Q a s' := by
  induction hruns with
  | ret => exact h.returned (fun _ => rfl) hl
  | op legal _ ih => exact ih (h.stepped (fun _ => rfl) hl legal) legal
  | fail fails => exact absurd fails (hno _ _ _ _ (h.now (fun _ => rfl) hl))

end Runs

section FailsOnce

variable (M : Machine O R σ) (legal : σ → Prop) (fails : (o : O) → σ → R o → σ → Prop)

/-- The whole runs of a program in which one operation fails and the others are performed. -/
inductive FailsOnce : Prog O R α → σ → α → σ → Prop
  | now {o : O} {k : R o → Prog O R α} {s s₁ s' : σ} {r : R o} {a : α} (fails : fails o s r s₁)
      (allowed : legal s₁) (rest : Runs M legal (fun _ _ _ _ => False) (k r) s₁ a s') :
      FailsOnce (.op o k) s a s'
  | later {o : O} {k : R o → Prog O R α} {s s' : σ} {a : α} (allowed : legal (M.exec o s).2)
      (rest : FailsOnce (k (M.exec o s).1) (M.exec o s).2 a s') : FailsOnce (.op o k) s a s'

variable {M legal fails} {p : Prog O R α} {f : α → Prog O R β} {s s' : σ} {a : α} {b : β}

theorem FailsOnce.not_ret {x : α} (h : FailsOnce M legal fails (.ret x) s a s') : False := by cases h

theorem FailsOnce.of_bind (h : FailsOnce M legal fails (p.bind f) s b s') :
    (∃ a s₁, FailsOnce M legal fails p s a s₁ ∧ Runs M legal (fun _ _ _ _ => False) (f a) s₁ b s') ∨
      ∃ a s₁, Runs M legal (fun _ _ _ _ => False) p s a s₁ ∧ FailsOnce M legal fails (f a) s₁ b s' := by
  induction p generalizing s with
  | ret a => exact .inr ⟨a, s, .ret, h⟩
  | op o k ih =>
    cases h with
    | now fails allowed rest =>
      obtain ⟨a, s₁, hk, hf⟩ := rest.of_bind
      exact .inl ⟨a, s₁, .now fails allowed hk, hf⟩
    | later allowed rest =>
      rcases ih _ rest with ⟨a, s₁, hk, hf⟩ | ⟨a, s₁, hk, hf⟩
      · exact .inl ⟨a, s₁, .later allowed hk, hf⟩
      · exact .inr ⟨a, s₁, .op allowed hk, hf⟩

theorem Runs.mono {fails' : (o : O) → σ → R o → σ → Prop} (h : Runs M legal fails p s a s')
    (hfails : ∀ o s r s', fails o s r s' → fails' o s r s') : Runs M legal fails' p s a s' := by
  induction h with
  | ret => exact .ret
  | op legal _ ih => exact .op legal ih
  | fail fails legal _ ih => exact .fail (hfails _ _ _ _ fails) legal ih

theorem FailsOnce.ends_legal (h : FailsOnce M legal fails p s a s') : legal s' := by
  induction h with
  | now fails allowed rest => exact rest.ends_legal allowed
  | later allowed rest ih => exact ih

theorem FailsOnce.runs (h : FailsOnce M legal fails p s a s') : Runs M legal fails p s a s' := by
  induction h with
  | now fails allowed rest => exact .fail fails allowed (rest.mono fun _ _ _ _ => False.elim)
  | later allowed _ ih => exact .op allowed ih

end FailsOnce

/-- Every operation of the program satisfies `φ`, and whatever the operations return, the
program returns a result with `Q`. -/
def Prog.Ensures (φ : O → Prop) (Q : α → Prop) : Prog O R α → Prop
  | .ret a => Q a
  | .op o k => φ o ∧ ∀ r, (k r).Ensures φ Q

namespace Prog.Ensures

variable {φ : O → Prop} {Q Q' : α → Prop} {p : Prog O R α}

section

variable (h : p.Ensures φ Q)
include h

theorem all : p.All φ := by
  induction p with
  | ret => trivial
  | op o k ih => exact ⟨h.1, fun r => ih r (h.2 r)⟩

theorem mono (hQ : ∀ a, Q a → Q' a) : p.Ensures φ Q' := by
  induction p with
  | ret a => exact hQ a h
  | op o k ih => exact ⟨h.1, fun r => ih r (h.2 r)⟩

theorem bind {f : α → Prog O R β} {Q' : β → Prop}
    (hf : ∀ a, Q a → (f a).Ensures φ Q') : (p.bind f).Ensures φ Q' := by
  induction p with
  | ret a => exact hf a h
  | op o k ih => exact ⟨h.1, fun r => ih r (h.2 r)⟩

theorem imp {φ' : O → Prop} (hφ : ∀ o, φ o → φ' o) : p.Ensures φ' Q := by
  induction p with
  | ret => exact h
  | op o k ih => exact ⟨hφ o h.1, fun r => ih r (h.2 r)⟩

theorem runs {M : Machine O R σ} {legal : σ → Prop} {fails : (o : O) → σ → R o → σ → Prop} {s s' : σ} {a : α} (F : σ → Prop) (hexec : ∀ o s, φ o → F s → F (M.exec o s).2)
    (hfails : ∀ o s r s', φ o → fails o s r s' → F s → F s') (hs : F s)
    (hruns : Runs M legal fails p s a s') : Q a ∧ F s' := by
  induction hruns with
  | ret => exact ⟨h, hs⟩
  | op legal _ ih => exact ih (h.2 _) (hexec _ _ h.1 hs)
  | fail fails legal _ ih => exact ih (h.2 _) (hfails _ _ _ _ h.1 fails hs)

end

end Prog.Ensures

theorem Prog.ensures_trivial (p : Prog O R α) : p.Ensures (fun _ => True) fun _ => True := by
  induction p with
  | ret => trivial
  | op o k ih => exact ⟨trivial, ih⟩

/-- A run that lets some of the operations fail, as the script says. -/
def Prog.runWith (M : Machine O R σ) (legal : σ → Prop) [DecidablePred legal]
    (fault : (o : O) → σ → Option (R o × σ)) : Prog O R α → List Bool → σ → Option (α × σ)
  | .ret a, _, s => some (a, s)
  | .op o k, script, s =>
    match (if script.headD false then fault o s else none) with
    | some r => if legal r.2 then (k r.1).runWith M legal fault script.tail r.2 else none
    | none =>
      let r := M.exec o s
      if legal r.2 then (k r.1).runWith M legal fault script.tail r.2 else none

theorem runs_of_runWith [DecidablePred legal]
    (hfault : ∀ o s r, fault o s = some r → fails o s r.1 r.2) {script : List Bool} {a : α}
    (h : p.runWith M legal fault script s = some (a, s')) : Runs M legal fails p s a s' := by
  induction p generalizing script s with
  | ret =>
    cases h
    exact .ret
  | op o k ih =>
    unfold Prog.runWith at h
    split at h
    next r hr =>
      split_ifs at h with hlegal
      split at hr
      · exact .fail (hfault o s r hr) hlegal (ih _ h)
      · cases hr
    next =>
      dsimp only at h
      split_ifs at h with hlegal
      exact .op hlegal (ih _ h)

def Prog.failNth (M : Machine O R σ) (legal : σ → Prop) [DecidablePred legal]
    (fault : (o : O) → σ → Option (R o × σ)) : Prog O R α → Nat → σ → Option (α × σ)
  | .ret _, _, _ => none
  | .op o k, 0, s =>
    match fault o s with
    | some r => if legal r.2 then (k r.1).runWith M legal (fun _ _ => none) [] r.2 else none
    | none => none
  | .op o k, n + 1, s =>
    let r := M.exec o s
    if legal r.2 then (k r.1).failNth M legal fault n r.2 else none

theorem failsOnce_of_failNth [DecidablePred legal]
    (hfault : ∀ o s r, fault o s = some r → fails o s r.1 r.2) {n : Nat} {a : α}
    (h : p.failNth M legal fault n s = some (a, s')) : FailsOnce M legal fails p s a s' := by
  induction p generalizing n s with
  | ret => cases h
  | op o k ih =>
    cases n with
    | zero =>
      unfold Prog.failNth at h
      split at h
      next r hr =>
        split_ifs at h with hlegal
        exact .now (hfault o s r hr) hlegal (runs_of_runWith (fun _ _ _ hnone => by cases hnone) h)
      next => cases h
    | succ =>
      unfold Prog.failNth at h
      dsimp only at h
      split_ifs at h with hlegal
      exact .later hlegal (ih _ h)

end KVStore.Lib.CrashProgram
