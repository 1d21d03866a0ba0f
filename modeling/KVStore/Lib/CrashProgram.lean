import Mathlib

namespace KVStore.Lib.CrashProgram

/-- A program as the tree of operations it performs, one at a time, each
continuation waiting for the operation's result. -/
inductive Prog (O : Type) (R : O → Type) (α : Type)
  | ret (a : α)
  | op (o : O) (k : R o → Prog O R α)

/-- What an operation does to the state, and what a crash inside it may leave. -/
structure Machine (O : Type) (R : O → Type) (σ : Type) where
  exec : (o : O) → σ → R o × σ
  torn : O → σ → σ → Prop

variable {O : Type} {R : O → Type} {σ α β : Type}

namespace Prog

def bind : Prog O R α → (α → Prog O R β) → Prog O R β
  | .ret a, f => f a
  | .op o k, f => .op o (fun r => (k r).bind f)

def forEach (l : List α) (body : α → Prog O R Unit) : Prog O R Unit :=
  match l with
  | [] => .ret ()
  | a :: l => (body a).bind fun _ => forEach l body

def run (M : Machine O R σ) : Prog O R α → σ → α × σ
  | .ret a, s => (a, s)
  | .op o k, s => (k (M.exec o s).1).run M (M.exec o s).2

@[simp] theorem ret_bind (a : α) (f : α → Prog O R β) : (Prog.ret a).bind f = f a := rfl

@[simp] theorem op_bind (o : O) (k : R o → Prog O R α) (f : α → Prog O R β) :
    (Prog.op o k).bind f = .op o (fun r => (k r).bind f) := rfl

theorem bind_assoc {γ : Type} (p : Prog O R α) (f : α → Prog O R β) (g : β → Prog O R γ) :
    (p.bind f).bind g = p.bind fun a => (f a).bind g := by
  induction p with
  | ret => rfl
  | op o k ih => exact congrArg (Prog.op o) (funext ih)

theorem run_bind (M : Machine O R σ) (p : Prog O R α) (f : α → Prog O R β) (s : σ) :
    (p.bind f).run M s = (f (p.run M s).1).run M (p.run M s).2 := by
  induction p generalizing s with
  | ret => rfl
  | op o k ih => exact ih _ _

end Prog

section Guarded

variable (M : Machine O R σ) (rely : σ → σ → Prop) (legal : σ → Prop) (I : σ → Prop)

/-- Before each operation the other threads may move the state along `rely`.
Whatever they do, and wherever a crash stops the program, the state meets `I`;
when the program returns, result and state meet `Q`. Only runs whose states are
`legal` count. -/
def Guarded (Q : α → σ → Prop) : Prog O R α → σ → Prop
  | .ret a, s => ∀ s₁, rely s s₁ → legal s₁ → I s₁ ∧ Q a s₁
  | .op o k, s => ∀ s₁, rely s s₁ → legal s₁ → I s₁ ∧ (∀ s₂, M.torn o s₁ s₂ → I s₂) ∧
      (legal (M.exec o s₁).2 → Guarded Q (k (M.exec o s₁).1) (M.exec o s₁).2)

variable {M rely legal I}
variable {Q Q' : α → σ → Prop} {p : Prog O R α} {s s' : σ} {φ : O → Prop} {f : α → Prog O R β}

theorem Guarded.mono (h : Guarded M rely legal I Q p s) (hQ : ∀ a s, Q a s → Q' a s) :
    Guarded M rely legal I Q' p s := by
  induction p generalizing s with
  | ret a => exact fun s₁ hr hl => ⟨(h s₁ hr hl).1, hQ a s₁ (h s₁ hr hl).2⟩
  | op o k ih =>
    intro s₁ hr hl
    obtain ⟨hI, htorn, hk⟩ := h s₁ hr hl
    exact ⟨hI, htorn, fun hl' => ih _ (hk hl')⟩

theorem Guarded.stable (htrans : ∀ a b c, rely a b → rely b c → rely a c) (hs : rely s s')
    (h : Guarded M rely legal I Q p s) : Guarded M rely legal I Q p s' := by
  cases p with
  | ret | op => exact fun s₁ hr => h s₁ (htrans _ _ _ hs hr)

theorem Guarded.now (hrefl : ∀ a, rely a a) (h : Guarded M rely legal I Q p s) (hl : legal s) : I s := by
  cases p with
  | ret | op => exact (h s (hrefl s) hl).1

theorem Guarded.returned (hrefl : ∀ a, rely a a) {a : α}
    (h : Guarded M rely legal I Q (.ret a) s) (hl : legal s) : Q a s :=
  (h s (hrefl s) hl).2

theorem Guarded.stepped (hrefl : ∀ a, rely a a) {o : O} {k : R o → Prog O R α}
    (h : Guarded M rely legal I Q (.op o k) s) (hl : legal s) (hl' : legal (M.exec o s).2) :
    Guarded M rely legal I Q (k (M.exec o s).1) (M.exec o s).2 :=
  (h s (hrefl s) hl).2.2 hl'

theorem Guarded.weaken {rely' : σ → σ → Prop} {legal' : σ → Prop}
    (hrely : ∀ a b, rely' a b → rely a b) (hlegal : ∀ a, legal' a → legal a)
    (h : Guarded M rely legal I Q p s) : Guarded M rely' legal' I Q p s := by
  induction p generalizing s with
  | ret => exact fun s₁ hr hl => h s₁ (hrely _ _ hr) (hlegal _ hl)
  | op o k ih =>
    intro s₁ hr hl
    obtain ⟨hI, htorn, hk⟩ := h s₁ (hrely _ _ hr) (hlegal _ hl)
    exact ⟨hI, htorn, fun hl' => ih _ (hk (hlegal _ hl'))⟩

theorem Guarded.comap {τ : Type} {M' : Machine O R τ} (f : τ → σ)
    (hexec : ∀ o t, M.exec o (f t) = ((M'.exec o t).1, f (M'.exec o t).2))
    (htorn : ∀ o t t', M'.torn o t t' → M.torn o (f t) (f t')) {t : τ}
    (h : Guarded M rely legal I Q p (f t)) :
    Guarded M' (fun a b => rely (f a) (f b)) (fun t => legal (f t)) (fun t => I (f t))
      (fun a t => Q a (f t)) p t := by
  induction p generalizing t with
  | ret => exact fun t₁ hr hl => h (f t₁) hr hl
  | op o k ih =>
    intro t₁ hr hl
    obtain ⟨hI, ht, hk⟩ := h (f t₁) hr hl
    rw [hexec] at hk
    exact ⟨hI, fun t₂ h₂ => ht (f t₂) (htorn o t₁ t₂ h₂), fun hl' => ih _ (hk hl')⟩

theorem Guarded.operation {o : O} {k : R o → Prog O R α} (P : σ → Prop) (hs : P s)
    (hstable : ∀ a b, rely a b → legal b → P a → P b) (hI : ∀ a, P a → I a)
    (htorn : ∀ a b, P a → M.torn o a b → I b) (hk : ∀ a, P a → legal a → legal (M.exec o a).2 →
      Guarded M rely legal I Q (k (M.exec o a).1) (M.exec o a).2) : Guarded M rely legal I Q (.op o k) s := by
  intro s₁ hr hl
  have hs₁ := hstable s s₁ hr hl hs
  exact ⟨hI s₁ hs₁, fun s₂ ht => htorn s₁ s₂ hs₁ ht, hk s₁ hs₁ hl⟩

def Prog.All (φ : O → Prop) : Prog O R α → Prop
  | .ret _ => True
  | .op o k => φ o ∧ ∀ r, (k r).All φ

theorem Prog.All.run_eq {M M' : Machine O R σ} (h : p.All fun o => ∀ s, M'.exec o s = M.exec o s) :
    p.run M' s = p.run M s := by
  induction p generalizing s with
  | ret => rfl
  | op o k ih =>
    rw [Prog.run, Prog.run, h.1]
    exact ih _ (h.2 _)

theorem Prog.All.bind (h : p.All φ) (hf : ∀ a, (f a).All φ) : (p.bind f).All φ := by
  induction p with
  | ret a => exact hf a
  | op o k ih => exact ⟨h.1, fun r => ih r (h.2 r)⟩

theorem Guarded.frame (F : σ → Prop) (h : Guarded M rely legal I Q p s)
    (hall : p.All φ) (hrely : ∀ a b, rely a b → F a → F b) (hexec : ∀ o a, φ o → F a → F (M.exec o a).2)
    (htorn : ∀ o a b, φ o → M.torn o a b → F a → F b) (hs : F s) :
    Guarded M rely legal (fun s => I s ∧ F s) (fun a s => Q a s ∧ F s) p s := by
  induction p generalizing s with
  | ret =>
    intro s₁ hr hl
    obtain ⟨hI, hQ⟩ := h s₁ hr hl
    exact ⟨⟨hI, hrely s s₁ hr hs⟩, hQ, hrely s s₁ hr hs⟩
  | op o k ih =>
    intro s₁ hr hl
    obtain ⟨hI, ht, hk⟩ := h s₁ hr hl
    have hs₁ := hrely s s₁ hr hs
    exact ⟨⟨hI, hs₁⟩, fun s₂ h₂ => ⟨ht s₂ h₂, htorn o s₁ s₂ hall.1 h₂ hs₁⟩,
      fun hl' => ih _ (hk hl') (hall.2 _) (hexec o s₁ hall.1 hs₁)⟩

theorem Guarded.bind (hrefl : ∀ a, rely a a) {Q' : β → σ → Prop} (h : Guarded M rely legal I Q p s)
    (hf : ∀ a s, Q a s → legal s → Guarded M rely legal I Q' (f a) s) (hl : legal s) :
    Guarded M rely legal I Q' (p.bind f) s := by
  induction p generalizing s with
  | ret a => exact hf a s (h.returned hrefl hl) hl
  | op o k ih =>
    intro s₁ hr hl₁
    obtain ⟨hI, htorn, hk⟩ := h s₁ hr hl₁
    exact ⟨hI, htorn, fun hl' => ih _ (hk hl') hl'⟩

theorem Guarded.withCrash (h : Guarded M rely legal I Q p s) :
    Guarded M rely legal I (fun a s => I s ∧ Q a s) p s := by
  induction p generalizing s with
  | ret => exact fun s₁ hr hl => ⟨(h s₁ hr hl).1, h s₁ hr hl⟩
  | op o k ih =>
    intro s₁ hr hl
    obtain ⟨hI, htorn, hk⟩ := h s₁ hr hl
    exact ⟨hI, htorn, fun hl' => ih _ (hk hl')⟩

theorem Guarded.imp {I' : σ → Prop} (h : Guarded M rely legal I Q p s) (hI : ∀ s, I s → I' s) :
    Guarded M rely legal I' Q p s := by
  induction p generalizing s with
  | ret => exact fun s₁ hr hl => ⟨hI s₁ (h s₁ hr hl).1, (h s₁ hr hl).2⟩
  | op o k ih =>
    intro s₁ hr hl
    obtain ⟨hs, htorn, hk⟩ := h s₁ hr hl
    exact ⟨hI s₁ hs, fun s₂ ht => hI s₂ (htorn s₂ ht), fun hl' => ih _ (hk hl')⟩

end Guarded

section Alone

variable {M : Machine O R σ} {legal I : σ → Prop} {Q : α → σ → Prop} {p : Prog O R α} {s : σ}

theorem Guarded.alone_op {o : O} {k : R o → Prog O R α} (hI : I s) (htorn : ∀ s', M.torn o s s' → I s')
    (hk : legal s → legal (M.exec o s).2 →
      Guarded M Eq legal I Q (k (M.exec o s).1) (M.exec o s).2) : Guarded M Eq legal I Q (.op o k) s := by
  rintro _ rfl hl
  exact ⟨hI, htorn, hk hl⟩

theorem Guarded.alone_ret {a : α} (hI : I s) (hQ : Q a s) : Guarded M Eq legal I Q (.ret a) s := by
  rintro _ rfl _
  exact ⟨hI, hQ⟩

/-- A loop, by an assertion about the elements still to come. -/
theorem Guarded.alone_forEach {l : List α} {body : α → Prog O R Unit} {Q : Unit → σ → Prop}
    (P : List α → σ → Prop)
    (hbody : ∀ a rest s, P (a :: rest) s → Guarded M Eq legal I (fun _ s => P rest s) (body a) s)
    (hI : ∀ s, P [] s → I s) (hQ : ∀ s, P [] s → Q () s) (hs : P l s) (hl : legal s) :
    Guarded M Eq legal I Q (Prog.forEach l body) s := by
  induction l generalizing s with
  | nil => exact .alone_ret (hI s hs) (hQ s hs)
  | cons a rest ih =>
    exact (hbody a rest s hs).bind (fun _ => rfl) (fun _ s hs hl => ih hs hl) hl

theorem Guarded.alone_run (hlegal : ∀ o s, legal (M.exec o s).2 → legal s)
    (h : Guarded M Eq legal I Q p s) (hl : legal (p.run M s).2) : Q (p.run M s).1 (p.run M s).2 := by
  have hearlier : ∀ (p : Prog O R α) (s : σ), legal (p.run M s).2 → legal s := by
    intro p
    induction p with
    | ret => exact fun s hl => hl
    | op o k ih => exact fun s hl => hlegal o s (ih _ _ hl)
  induction p generalizing s with
  | ret => exact (h s rfl hl).2
  | op o k ih => exact ih _ ((h s rfl (hearlier (.op o k) s hl)).2.2 (hearlier _ _ hl)) hl

end Alone

section Requires

variable {M : Machine O R σ} {pre : O → σ → Prop} {p : Prog O R α} {s : σ} {φ : O → Prop} {F : σ → Prop}

/-- Run alone, the program enters each operation in a state that meets its
precondition. -/
def Prog.Requires (M : Machine O R σ) (pre : O → σ → Prop) : Prog O R α → σ → Prop
  | .ret _, _ => True
  | .op o k, s => pre o s ∧ (k (M.exec o s).1).Requires M pre (M.exec o s).2

theorem Prog.Requires.bind {f : α → Prog O R β} (h : p.Requires M pre s)
    (hf : (f (p.run M s).1).Requires M pre (p.run M s).2) : (p.bind f).Requires M pre s := by
  induction p generalizing s with
  | ret => exact hf
  | op o k ih => exact ⟨h.1, ih _ h.2 hf⟩

theorem Prog.All.requires (h : p.All φ) (hφ : ∀ o s, φ o → pre o s) (s : σ) : p.Requires M pre s := by
  induction p generalizing s with
  | ret => trivial
  | op o k ih => exact ⟨hφ o s h.1, ih _ (h.2 _) _⟩

theorem Prog.All.requires_of_kept (h : p.All φ)
    (hpre : ∀ o s, φ o → F s → pre o s) (hkept : ∀ o s, φ o → F s → F (M.exec o s).2) (hs : F s) :
    p.Requires M pre s := by
  induction p generalizing s with
  | ret => trivial
  | op o k ih => exact ⟨hpre o s h.1 hs, ih _ (h.2 _) (hkept o s h.1 hs)⟩

theorem Prog.All.run_keeps (h : p.All φ)
    (hφ : ∀ o s, φ o → F s → F (M.exec o s).2) (hs : F s) : F (p.run M s).2 := by
  induction p generalizing s with
  | ret => exact hs
  | op o k ih => exact ih _ (h.2 _) (hφ o s h.1 hs)

theorem Prog.All.forEach {l : List α} {body : α → Prog O R Unit}
    (h : ∀ a ∈ l, (body a).All φ) : (Prog.forEach l body).All φ := by
  induction l with
  | nil => trivial
  | cons a l ih =>
    apply (h a List.mem_cons_self).bind
    intro _
    exact ih fun b hb => h b (List.mem_cons_of_mem _ hb)

end Requires

section Returned

variable {ε : Type}

def Returned (P : α → σ → Prop) (r : Except ε α × σ) : Prop := ∃ a s, r = (.ok a, s) ∧ P a s

instance (P : α → σ → Prop) [∀ a s, Decidable (P a s)] : (r : Except ε α × σ) → Decidable (Returned P r)
  | (.error _, _) => isFalse (by rintro ⟨_, _, ⟨⟩, _⟩)
  | (.ok a, s) => decidable_of_iff (P a s) ⟨fun h => ⟨a, s, rfl, h⟩, by rintro ⟨_, _, ⟨⟩, h⟩; exact h⟩

end Returned

end KVStore.Lib.CrashProgram
