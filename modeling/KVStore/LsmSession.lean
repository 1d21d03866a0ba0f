import KVStore.LsmServing
import KVStore.LsmStall
import KVStore.LsmDurability
import KVStore.LsmCompactRequest

namespace KVStore

open Lib CrashProgram Protocol

def Client.inCall : Client → Nat
  | .idle => 0
  | _ => 1

variable {pc : Client} {request : Request}

theorem Client.inCall_of_serves (h : pc.Serves request) : pc.inCall = 1 := by
  cases pc <;> first | exact h.elim | rfl

theorem Client.not_idle_of_serves (h : pc.Serves request) : pc ≠ .idle := by
  rintro rfl
  exact h

/-- A store with one client, which has some calls still to make. -/
structure Session where
  monitor : Monitor 1
  todo : List Request

namespace System

variable {n : Nat} {opts : LsmOptions} {listing : Listing} {s s' : System n}

theorem ClientStep.requested_eq {c : Fin n} {request : Request} (h : ClientStep opts s c s')
    (hserves : (s.engine.clients c).Serves request) : s'.engine.compactRequested = s.engine.compactRequested := by
  cases h with
  | request pc =>
    rw [pc] at hserves
    exact hserves.elim
  | _ => rfl

theorem enter_serves (s : System n) (c : Fin n) (request : Request) :
    let s' := (s.note (.invoke c request.call)).enter c request.call
    (s'.engine.clients c).Serves request ∧ repliesIn s'.trace = repliesIn s.trace ∨
      s'.engine.clients c = .idle ∧ ∃ reply, repliesIn s'.trace = reply :: repliesIn s.trace := by
  have henter := enter_cases (s.note (.invoke c request.call)) c request.call
  generalize (s.note (.invoke c request.call)).enter c request.call = s' at henter ⊢
  have hserves {pc : Client} (hat : s'.engine.clients c = pc) (hpc : pc.Serves request) :
      (s'.engine.clients c).Serves request := by
    rw [hat]
    exact hpc
  generalize hcall : request.call = call at henter
  cases henter with
  | refuse | absent => exact .inr ⟨setClient_self _ c _, _, rfl⟩
  | write writes => exact .inl ⟨hserves (setClient_self _ c _) (hcall.symm ▸ writes : request.call.entry = _), rfl⟩
  | get => exact .inl ⟨hserves (setClient_self _ c _) hcall, rfl⟩
  | scan | flush | compact | wait =>
    unfold Request.call at hcall
    split at hcall <;> cases hcall

theorem exists_clientStep {s : System 1} {request : Request} (hlocked : s.engine.Locked)
    (hdefined : s.engine.background ≠ .undefined) (hserves : (s.engine.clients 0).Serves request)
    (hstalls : (s.engine.clients 0).stalls = false) : ∃ s', s.step opts listing (.client 0) = some s' := by
  have hsome : ∃ s', s.clientStep opts 0 = some s' := by
    unfold clientStep
    cases hpc : s.engine.clients 0 with
    | wantWriter =>
      have hfree : s.engine.writer = none := by
        cases hw : s.engine.writer with
        | none => rfl
        | some c =>
          have hheld := (hlocked c).mp hw
          rw [Subsingleton.elim c 0, hpc] at hheld
          cases hheld
      exact ⟨_, if_pos hfree⟩
    | checking | appending | inserting | probing | searching | rotating => exact ⟨_, rfl⟩
    | rotated next resume => cases resume <;> exact ⟨_, rfl⟩
    | stalled =>
      rw [hpc] at hstalls
      cases hstalls
    | _ =>
      rw [hpc] at hserves
      exact hserves.elim
  obtain ⟨s', hs⟩ := hsome
  refine ⟨s', ?_⟩
  simp only [step]
  exact hs

theorem step_unlink (hfail : opts.failAt = .none) {t : SSTable} (h : s.step opts listing (.unlink t) = some s') :
    ∃ env obsolete, s' = ⟨env, { s.engine with obsolete := obsolete }, s.trace⟩ := by
  cases step_cases hfail h with
  | unlink => exact ⟨_, _, rfl⟩

end System

namespace Session

/-- Who runs next. A wake-up may come unasked, and a table nobody uses may be unlinked. -/
inductive Turn
  | client
  | background
  | unlink (t : SSTable)
  | wake
  | wakeClient

def Turn.ofMonitor : Turn → Monitor.Turn 1
  | .client => .act (.client 0)
  | .background => .act .background
  | .unlink t => .act (.unlink t)
  | .wake => .wake
  | .wakeClient => .wakeClient 0

variable (opts : LsmOptions) (listing : Listing) (σ : Session)

def system : System 1 := σ.monitor.system

/-- The client makes its next call once the last one has returned; whoever cannot run passes. -/
def turn (t : Turn) : Session :=
  match t, σ.system.engine.clients 0, σ.todo with
  | .client, .idle, [] => σ
  | .client, .idle, request :: todo =>
    match σ.monitor.turn opts listing (.act (.call 0 request.call)) with
    | none => σ
    | some m => ⟨m, todo⟩
  | t, _, _ => { σ with monitor := (σ.monitor.turn opts listing t.ofMonitor).getD σ.monitor }

def after (schedule : Nat → Turn) : Nat → Session
  | 0 => σ
  | k + 1 => (after schedule k).turn opts listing (schedule k)

def replies : List Reply := (repliesIn σ.system.trace).reverse

def start (requests : List Request) : Option Session :=
  (System.fresh 1 opts listing).map fun s => ⟨⟨s, false, fun _ => false, fun _ => false, []⟩, requests⟩

variable {opts listing σ}

/-- What one turn does to the store: a step of the session's threads, or nothing. -/
inductive Moves (opts : LsmOptions) (listing : Listing) (σ σ' : Session) : Prop
  | same (system : σ'.system = σ.system) (todo : σ'.todo = σ.todo)
  | call {request : Request} (idle : σ.system.engine.clients 0 = .idle) (todo : σ.todo = request :: σ'.todo)
      (step : σ.system.step opts listing (.call 0 request.call) = some σ'.system)
  | client (busy : σ.system.engine.clients 0 ≠ .idle)
      (step : σ.system.step opts listing (.client 0) = some σ'.system) (todo : σ'.todo = σ.todo)
  | background (step : σ.system.step opts listing .background = some σ'.system) (todo : σ'.todo = σ.todo)
  | unlink {t : SSTable} (step : σ.system.step opts listing (.unlink t) = some σ'.system) (todo : σ'.todo = σ.todo)

theorem turn_eq_monitor {t : Turn} (h : t = .client → σ.system.engine.clients 0 ≠ .idle) :
    σ.turn opts listing t = { σ with monitor := (σ.monitor.turn opts listing t.ofMonitor).getD σ.monitor } := by
  unfold turn
  split
  next hpc _ => exact absurd hpc (h rfl)
  next hpc _ => exact absurd hpc (h rfl)
  next => rfl

theorem moves_turn (t : Turn) : Moves opts listing σ (σ.turn opts listing t) := by
  by_cases hcalls : t = .client ∧ σ.system.engine.clients 0 = .idle
  · obtain ⟨rfl, hidle⟩ := hcalls
    unfold turn
    rw [hidle]
    cases htodo : σ.todo with
    | nil => exact .same rfl rfl
    | cons request =>
      dsimp only
      cases hturn : σ.monitor.turn opts listing (.act (.call 0 request.call)) with
      | none => exact .same rfl rfl
      | some =>
        obtain ⟨s, hs, rfl⟩ := Option.map_eq_some_iff.mp hturn
        exact .call hidle htodo hs
  · have hbusy : t = .client → σ.system.engine.clients 0 ≠ .idle := fun ht hidle => hcalls ⟨ht, hidle⟩
    rw [turn_eq_monitor hbusy]
    cases hturn : σ.monitor.turn opts listing t.ofMonitor with
    | none => exact .same rfl rfl
    | some =>
      cases t with
      | wake | wakeClient =>
        cases hturn
        exact .same rfl rfl
      | client =>
        rcases Monitor.turn_act hturn with hsame | hs
        · exact .same hsame rfl
        · exact .client (hbusy rfl) hs rfl
      | background =>
        rcases Monitor.turn_act hturn with hsame | hs
        · exact .same hsame rfl
        · exact .background hs rfl
      | unlink =>
        rcases Monitor.turn_act hturn with hsame | hs
        · exact .same hsame rfl
        · exact .unlink hs rfl

/-- A directory and a counter with which the next step makes only tables that fit. -/
def Fits (opts : LsmOptions) (σ : Session) : Prop :=
  σ.system.engine.TablesFit opts ∧ σ.system.env.issued < idLimit

instance (opts : LsmOptions) (σ : Session) : Decidable (σ.Fits opts) := inferInstanceAs (Decidable (_ ∧ _))

/-- The calls that have returned were answered as by a map. -/
structure Inv (opts : LsmOptions) (listing : Listing) (requests : List Request) (σ : Session) : Prop where
  serving : ∃ served current, requests = served ++ (current.toList ++ σ.todo) ∧ System.Answering served current σ.system
  store : ∃ live frozen flushed, System.StoreInv opts listing [] σ.system live frozen flushed
  steady : σ.system.engine.Steady opts

variable {requests : List Request} {σ' : Session}

theorem inv_start (h : start opts listing requests = some σ) (hids : σ.system.env.issued < idLimit)
    (hfail : opts.failAt = .none) : σ.Inv opts listing requests := by
  obtain ⟨s, hs, rfl⟩ := Option.map_eq_some_iff.mp h
  have hinv := (World.reachable_of_fresh hs).inv hfail hids
  obtain ⟨env, r, hopened⟩ := System.fresh_opened hs
  refine ⟨⟨[], none, rfl, ?_⟩, hinv.1, ?_⟩
  · change System.Answering [] none s
    rw [hopened]
    exact System.answering_opened env r
  · change s.engine.Steady opts
    rw [hopened]
    exact ⟨rfl, rfl, rfl, rfl, trivial⟩

theorem Inv.turn (h : σ.Inv opts listing requests) (hlimit : ∀ request ∈ requests, request.InLimit)
    (hfail : opts.failAt = .none) (ht : 1 ≤ opts.l0CompactionTrigger) (hblock : 1 ≤ opts.blockSize)
    (hfits : σ.Fits opts) (hids : σ'.system.env.issued < idLimit) (hmoves : Moves opts listing σ σ') :
    σ'.Inv opts listing requests := by
  obtain ⟨⟨served, current, hrequests, hserving⟩, ⟨live, frozen, flushed, hstore⟩, hsteady⟩ := h
  have hstep {a : Action 1} (hs : σ.system.step opts listing a = some σ'.system) :
      ∃ live frozen flushed, System.StoreInv opts listing [] σ'.system live frozen flushed :=
    hstore.step hfail (fun _ => hfits.2) (fun _ => hids) (System.step_cases hfail hs)
  cases hmoves with
  | same system todo =>
    exact ⟨⟨served, current, todo ▸ hrequests, system ▸ hserving⟩, ⟨live, frozen, flushed, system ▸ hstore⟩,
      system ▸ hsteady⟩
  | background hs todo =>
    refine ⟨⟨served, current, todo ▸ hrequests, ?_⟩, hstep hs, ?_⟩
    · cases System.step_cases hfail hs with
      | background next => exact hserving.congr next.contents.1 next.clients_eq
    · exact hstore.steady_background hsteady hfits.1 (fun _ => hfits.2) hfail ht hblock hs
  | unlink hs todo =>
    obtain ⟨env, obsolete, hsystem⟩ := System.step_unlink hfail hs
    refine ⟨⟨served, current, todo ▸ hrequests, ?_⟩, hstep hs, ?_⟩
    · rw [hsystem]
      exact hserving.congr rfl rfl
    · rw [hsystem]
      exact hsteady.congr rfl rfl rfl rfl hsteady.background
  | client busy hs todo =>
    cases current with
    | none => exact absurd hserving.position busy
    | some request =>
      have next := System.clientStep_cases (System.step_client hs)
      refine ⟨?_, hstep hs, hsteady.untouched next.untouched (next.requested_eq hserving.position)⟩
      rcases hserving.client hstore hsteady next with hnext | hnext
      · exact ⟨served, some request, todo ▸ hrequests, hnext⟩
      · refine ⟨served ++ [request], none, ?_, hnext⟩
        rw [todo, hrequests]
        simp
  | @call request idle todo hs =>
    cases current with
    | some request' =>
      have hposition : (σ.system.engine.clients 0).Serves request' := hserving.position
      rw [idle] at hposition
      exact hposition.elim
    | none =>
      have hentered := System.step_call hs
      have next := System.enter_cases (σ.system.note (.invoke 0 request.call)) 0 request.call
      rw [← hentered] at next
      refine ⟨?_, hstep hs, hsteady.untouched next.untouched next.requested_eq⟩
      rw [todo] at hrequests
      have hmem : request ∈ requests := by
        rw [hrequests]
        simp
      rcases hserving.call (hlimit request hmem) hentered with hnext | hnext
      · exact ⟨served, some request, hrequests, hnext⟩
      · refine ⟨served ++ [request], none, ?_, hnext⟩
        rw [hrequests]
        simp

theorem inv_after (h : start opts listing requests = some σ) (hlimit : ∀ request ∈ requests, request.InLimit)
    (hfail : opts.failAt = .none) (ht : 1 ≤ opts.l0CompactionTrigger) (hblock : 1 ≤ opts.blockSize)
    {schedule : Nat → Turn} {k : Nat} (hfits : ∀ j ≤ k, (σ.after opts listing schedule j).Fits opts) :
    (σ.after opts listing schedule k).Inv opts listing requests := by
  induction k with
  | zero => exact inv_start h (hfits 0 (Nat.le_refl 0)).2 hfail
  | succ k ih =>
    have hbefore := ih fun j hj => hfits j (Nat.le_succ_of_le hj)
    exact hbefore.turn hlimit hfail ht hblock (hfits k (Nat.le_succ k)) (hfits (k + 1) (Nat.le_refl _)).2
      (moves_turn (schedule k))

theorem Inv.replies_prefix (h : σ.Inv opts listing requests) : σ.replies <+: Mapping.replies requests := by
  obtain ⟨served, current, hrequests, hserving⟩ := h.serving
  rw [replies, hserving.replies, hrequests, Mapping.replies, Mapping.replies, CallSequence.replies_append]
  exact List.prefix_append _ _

/-- What the calls of a session can rely on whatever the tables are: the client is in
one of its calls or between two, it is blocked only in a stall, and each call that has
returned has left one reply. -/
structure Progress (total : Nat) (σ : Session) : Prop where
  monitor : σ.monitor.Inv
  running : σ.system.engine.stopping = false
  owes : σ.monitor.owes 0 = false
  blocked : σ.monitor.blocked 0 = true → σ.monitor.Stalled 0
  position : σ.system.engine.clients 0 = .idle ∨ ∃ request, (σ.system.engine.clients 0).Serves request
  count : σ.replies.length + (σ.system.engine.clients 0).inCall + σ.todo.length = total

def left (σ : Session) : Nat := 9 * σ.todo.length + (σ.system.engine.clients 0).distance

theorem Progress.start (h : start opts listing requests = some σ) : σ.Progress requests.length := by
  obtain ⟨s, hs, rfl⟩ := Option.map_eq_some_iff.mp h
  obtain ⟨env, r, rfl⟩ := System.fresh_opened hs
  exact ⟨Monitor.inv_opened env r, rfl, rfl, nofun, .inl rfl, Nat.zero_add _⟩

variable {total : Nat}

section

variable (h : σ.Progress total)
include h

theorem Progress.piece {request : Request}
    (hserves : (σ.system.engine.clients 0).Serves request) {s : System 1}
    (hstep : σ.system.step opts listing (.client 0) = some s) :
    (Session.mk (σ.monitor.afterClient opts 0 s) σ.todo).Progress total ∧
      (Session.mk (σ.monitor.afterClient opts 0 s) σ.todo).left < σ.left := by
  have next := System.clientStep_cases (System.step_client hstep)
  have hcount := h.count
  rw [Client.inCall_of_serves hserves, replies, List.length_reverse] at hcount
  have howes (hpc : ∀ call, s.engine.clients 0 ≠ .waiting call) :
      (σ.monitor.afterClient opts 0 s).owes 0 = false := by
    dsimp only [Monitor.afterClient]
    rw [Function.update_self]
    split
    next call hw => exact absurd hw (hpc call)
    next => rfl
  have hblocked (hb : (σ.monitor.afterClient opts 0 s).blocked 0 = true) : (s.engine.clients 0).stalls = true := by
    simp only [Monitor.afterClient] at hb
    split_ifs at hb
    exact (Function.update_self ..).symm.trans hb
  have hrunning : s.engine.stopping = false := next.untouched.stopping.trans h.running
  rcases next.serves hserves with ⟨hnext, hnearer, hreplies⟩ | ⟨hidle, reply, hreplies⟩
  · refine ⟨⟨h.monitor.client hstep, hrunning, ?_, hblocked, .inr ⟨request, hnext⟩, ?_⟩, ?_⟩
    · refine howes fun call hw => ?_
      rw [hw] at hnext
      exact hnext
    · change (repliesIn s.trace).reverse.length + (s.engine.clients 0).inCall + σ.todo.length = total
      rw [Client.inCall_of_serves hnext, List.length_reverse, hreplies]
      exact hcount
    · exact Nat.add_lt_add_left hnearer _
  · refine ⟨⟨h.monitor.client hstep, hrunning, ?_, hblocked, .inl hidle, ?_⟩, ?_⟩
    · exact howes fun call hw => by cases hidle.symm.trans hw
    · change (repliesIn s.trace).reverse.length + (s.engine.clients 0).inCall + σ.todo.length = total
      rw [hidle, List.length_reverse, hreplies]
      exact hcount
    · refine Nat.add_lt_add_left ?_ _
      change (s.engine.clients 0).distance < _
      rw [hidle]
      exact (Client.distance_of_serves hserves).1

theorem Progress.enters (hfail : opts.failAt = .none)
    (hidle : σ.system.engine.clients 0 = .idle) {request : Request} {todo : List Request}
    (htodo : σ.todo = request :: todo) :
    ∃ s, σ.system.step opts listing (.call 0 request.call) = some s ∧
      (Session.mk { σ.monitor with system := s } todo).Progress total ∧
      (Session.mk { σ.monitor with system := s } todo).left < σ.left := by
  have hstep : σ.system.step opts listing (.call 0 request.call) =
      some ((σ.system.note (.invoke 0 request.call)).enter 0 request.call) := by
    have hdefined : σ.system.engine.background ≠ .undefined := h.monitor.defined
    unfold System.step
    split
    next hundefined => exact absurd hundefined hdefined
    next => simp [hidle, h.running]
  have hframe := (System.enter_cases (σ.system.note (.invoke 0 request.call)) 0 request.call).untouched
  have hinv := h.monitor.enters hfail hstep
  have hserves := System.enter_serves σ.system 0 request
  refine ⟨_, hstep, ?_⟩
  generalize (σ.system.note (.invoke 0 request.call)).enter 0 request.call = s at hstep hframe hinv hserves ⊢
  have hcount := h.count
  rw [hidle, htodo, replies, List.length_reverse, List.length_cons] at hcount
  have hunblocked : σ.monitor.blocked 0 ≠ true := by
    intro hb
    have hstalled : (σ.system.engine.clients 0).stalls = true := h.blocked hb
    rw [hidle] at hstalled
    cases hstalled
  have hleft : (s.engine.clients 0).distance ≤ 7 → 9 * todo.length + (s.engine.clients 0).distance < σ.left := by
    intro hdistance
    rw [left, htodo, List.length_cons]
    omega
  rcases hserves with ⟨hnext, hreplies⟩ | ⟨hreturned, reply, hreplies⟩
  · refine ⟨⟨hinv, hframe.stopping.trans h.running, h.owes, fun hb => absurd hb hunblocked,
      .inr ⟨request, hnext⟩, ?_⟩, hleft (Client.distance_of_serves hnext).2⟩
    change (repliesIn s.trace).reverse.length + (s.engine.clients 0).inCall + todo.length = total
    rw [Client.inCall_of_serves hnext, List.length_reverse, hreplies]
    simp only [Client.inCall] at hcount
    omega
  · refine ⟨⟨hinv, hframe.stopping.trans h.running, h.owes, fun hb => absurd hb hunblocked, .inl hreturned, ?_⟩,
      hleft (by rw [hreturned]; exact Nat.zero_le _)⟩
    change (repliesIn s.trace).reverse.length + (s.engine.clients 0).inCall + todo.length = total
    rw [hreturned, List.length_reverse, hreplies, List.length_cons]
    simp only [Client.inCall] at hcount ⊢
    omega

theorem Progress.aside {m : Monitor 1} (hinv : m.Inv)
    (hclients : m.system.engine.clients = σ.system.engine.clients) (htrace : m.system.trace = σ.system.trace)
    (hstopping : m.system.engine.stopping = σ.system.engine.stopping) (howes : m.owes 0 = σ.monitor.owes 0)
    (hblocked : m.blocked 0 = true → σ.monitor.Stalled 0) :
    (Session.mk m σ.todo).Progress total ∧ (Session.mk m σ.todo).left = σ.left := by
  refine ⟨⟨hinv, hstopping.trans h.running, howes.trans h.owes, fun hb => ?_, ?_, ?_⟩, ?_⟩
  · have hstalled := hblocked hb
    unfold Monitor.Stalled at hstalled ⊢
    exact hclients ▸ hstalled
  · change m.system.engine.clients 0 = .idle ∨ ∃ request, (m.system.engine.clients 0).Serves request
    rw [hclients]
    exact h.position
  · have hcount := h.count
    rw [replies, ← htrace, ← hclients] at hcount
    exact hcount
  · change 9 * σ.todo.length + (m.system.engine.clients 0).distance = σ.left
    rw [hclients]
    rfl

theorem Progress.client_turn (hfail : opts.failAt = .none)
    (ht : 1 ≤ opts.l0CompactionTrigger) :
    (σ.turn opts listing .client).Progress total ∧ (σ.turn opts listing .client).left ≤ σ.left ∧
      (¬ σ.monitor.Stalled 0 → 0 < σ.left → (σ.turn opts listing .client).left < σ.left) := by
  rcases h.position with hidle | ⟨request, hserves⟩
  · unfold turn
    rw [hidle]
    cases htodo : σ.todo with
    | nil =>
      refine ⟨h, Nat.le_refl _, fun _ hleft => ?_⟩
      rw [left, hidle, htodo] at hleft
      cases hleft
    | cons request todo =>
      obtain ⟨s, hs, hprogress, hless⟩ := @Progress.enters opts listing σ total h hfail hidle request todo htodo
      have hturn : σ.monitor.turn opts listing (.act (.call 0 request.call)) =
          some { σ.monitor with system := s } :=
        congrArg (Option.map fun s => ({ σ.monitor with system := s } : Monitor 1)) hs
      dsimp only
      rw [hturn]
      exact ⟨hprogress, hless.le, fun _ _ => hless⟩
  · rw [turn_eq_monitor fun _ => Client.not_idle_of_serves hserves]
    have hsame (hstalled : σ.monitor.Stalled 0) :
        σ.Progress total ∧ σ.left ≤ σ.left ∧ (¬ σ.monitor.Stalled 0 → 0 < σ.left → σ.left < σ.left) :=
      ⟨h, Nat.le_refl _, fun hnot => absurd hstalled hnot⟩
    have hstalled_of (hcondition : ¬ σ.monitor.system.engine.condition 0 = true) : σ.monitor.Stalled 0 := by
      change (σ.system.engine.clients 0).stalls = true
      change ¬ σ.system.engine.condition 0 = true at hcondition
      unfold Engine.condition at hcondition
      cases hpc : σ.system.engine.clients 0 <;> rw [hpc] at hcondition hserves <;>
        first | rfl | exact hserves.elim | exact absurd rfl hcondition
    by_cases hblocked : σ.monitor.blocked 0 = true
    · have hturn : σ.monitor.turn opts listing (.act (.client 0)) = none := by
        rw [Monitor.turn, if_pos hblocked]
      rw [Turn.ofMonitor, hturn]
      exact hsame (h.blocked hblocked)
    by_cases hcondition : σ.monitor.system.engine.condition 0 = true
    · have hrun : σ.monitor.turn opts listing (.act (.client 0)) =
          (σ.system.step opts listing (.client 0)).map (σ.monitor.afterClient opts 0) := by
        rw [Monitor.turn, if_neg hblocked, if_neg (by rw [h.owes]; decide), if_pos hcondition]
        rfl
      rw [Turn.ofMonitor, hrun]
      cases hstep : σ.system.step opts listing (.client 0) with
      | some =>
        obtain ⟨hprogress, hless⟩ := h.piece hserves hstep
        exact ⟨hprogress, hless.le, fun _ _ => hless⟩
      | none =>
        refine hsame ?_
        by_contra hnot
        obtain ⟨s, hs⟩ := @System.exists_clientStep opts listing σ.system request h.monitor.locked h.monitor.defined
          hserves (Bool.eq_false_of_not_eq_true hnot)
        cases hstep.symm.trans hs
    · have hturn : σ.monitor.turn opts listing (.act (.client 0)) = some (σ.monitor.block 0) := by
        rw [Monitor.turn, if_neg hblocked, if_neg (by rw [h.owes]; decide), if_neg hcondition]
      have hstalled := hstalled_of hcondition
      obtain ⟨hprogress, hleft⟩ := @Progress.aside σ total h (σ.monitor.block 0)
        (h.monitor.turn hfail ht hturn) rfl rfl rfl rfl fun _ => hstalled
      rw [Turn.ofMonitor, hturn]
      exact ⟨hprogress, hleft.le, fun hnot => absurd hstalled hnot⟩

theorem Progress.turn (hfail : opts.failAt = .none) (ht : 1 ≤ opts.l0CompactionTrigger)
    (t : Turn) : (σ.turn opts listing t).Progress total ∧ (σ.turn opts listing t).left ≤ σ.left := by
  by_cases hclient : t = .client
  · subst hclient
    obtain ⟨hprogress, hle, _⟩ := @Progress.client_turn opts listing σ total h hfail ht
    exact ⟨hprogress, hle⟩
  · rw [turn_eq_monitor fun ht => absurd ht hclient]
    cases hturn : σ.monitor.turn opts listing t.ofMonitor with
    | none => exact ⟨h, Nat.le_refl _⟩
    | some m =>
      have hinv := h.monitor.turn hfail ht hturn
      have haside : (Session.mk m σ.todo).Progress total ∧ (Session.mk m σ.todo).left = σ.left := by
        cases t with
        | client => exact absurd rfl hclient
        | wake =>
          cases hturn
          exact h.aside hinv rfl rfl rfl rfl h.blocked
        | wakeClient =>
          cases hturn
          refine h.aside hinv rfl rfl rfl rfl fun hb => ?_
          dsimp only at hb
          rw [Function.update_self] at hb
          cases hb
        | unlink =>
          obtain ⟨s, hs, rfl⟩ := Option.map_eq_some_iff.mp hturn
          obtain ⟨env, obsolete, rfl⟩ := System.step_unlink hfail hs
          exact h.aside hinv rfl rfl rfl rfl h.blocked
        | background =>
          rw [Turn.ofMonitor, Monitor.turn] at hturn
          split_ifs at hturn
          obtain ⟨s, hs, rfl⟩ := Option.map_eq_some_iff.mp hturn
          cases System.step_cases hfail hs with
          | background next =>
            refine h.aside hinv next.clients_eq next.contents.1 next.stopping_eq rfl fun hb => h.blocked ?_
            simp only [Monitor.afterBackground] at hb
            split at hb
            · cases hb
            · exact hb
      exact ⟨haside.1, haside.2.le⟩

theorem Progress.stalled_iff : σ.monitor.Stalled 0 ↔ σ.left % 9 = 5 := by
  have hstalls : (σ.system.engine.clients 0).stalls = true ↔ (σ.system.engine.clients 0).distance = 5 := by
    rcases h.position with hidle | ⟨request, hserves⟩
    · rw [hidle]
      decide
    · cases hpc : σ.system.engine.clients 0 <;> rw [hpc] at hserves <;>
        first | exact hserves.elim | simp [Client.stalls, Client.distance]
  have hsmall : (σ.system.engine.clients 0).distance < 9 := by
    cases σ.system.engine.clients 0 <;> simp [Client.distance]
  have hmod : σ.left % 9 = (σ.system.engine.clients 0).distance := by
    rw [left, Nat.mul_add_mod, Nat.mod_eq_of_lt hsmall]
  rw [hmod]
  exact hstalls

end

section Schedule

variable {schedule : Nat → Turn}

theorem Progress.after (h : σ.Progress total) (hfail : opts.failAt = .none) (ht : 1 ≤ opts.l0CompactionTrigger)
    (k : Nat) : (σ.after opts listing schedule k).Progress total := by
  induction k with
  | zero => exact h
  | succ k ih => exact (ih.turn hfail ht (schedule k)).1

theorem Progress.left_antitone (h : σ.Progress total) (hfail : opts.failAt = .none)
    (ht : 1 ≤ opts.l0CompactionTrigger) {j k : Nat} (hjk : j ≤ k) :
    (σ.after opts listing schedule k).left ≤ (σ.after opts listing schedule j).left := by
  induction hjk with
  | refl => exact Nat.le_refl _
  | @step k _ ih => exact ((h.after hfail ht k).turn hfail ht (schedule k)).2.trans ih

theorem monitor_after {k : Nat}
    (hbusy : ∀ i, (σ.after opts listing schedule (k + i)).system.engine.clients 0 ≠ .idle) (i : Nat) :
    (σ.after opts listing schedule (k + i)).monitor =
      (σ.after opts listing schedule k).monitor.after opts listing (fun i => (schedule (k + i)).ofMonitor) i := by
  induction i with
  | zero => rfl
  | succ i ih =>
    change ((σ.after opts listing schedule (k + i)).turn opts listing (schedule (k + i))).monitor = _
    rw [turn_eq_monitor fun _ => hbusy i, Monitor.after, ← ih]

section Fair

variable (h : σ.Progress total) (hfail : opts.failAt = .none) (ht : 1 ≤ opts.l0CompactionTrigger)
  (hbackground : ∀ i, ∃ j, i ≤ j ∧ schedule j = .background) (hclient : ∀ i, ∃ j, i ≤ j ∧ schedule j = .client)

include h hfail ht hbackground hclient

theorem Progress.leaves_stall (k : Nat) :
    ∃ i, ¬ (σ.after opts listing schedule (k + i)).monitor.Stalled 0 := by
  by_contra hnever
  have hstalled (i : Nat) : (σ.after opts listing schedule (k + i)).monitor.Stalled 0 := by
    by_contra hnot
    exact hnever ⟨i, hnot⟩
  have hbusy (i : Nat) : (σ.after opts listing schedule (k + i)).system.engine.clients 0 ≠ .idle := by
    intro hidle
    have hs : ((σ.after opts listing schedule (k + i)).system.engine.clients 0).stalls = true := hstalled i
    rw [hidle] at hs
    cases hs
  have hagain {turn : Turn} (hfair : ∀ i, ∃ j, i ≤ j ∧ schedule j = turn) (i : Nat) :
      ∃ j, i ≤ j ∧ (schedule (k + j)).ofMonitor = turn.ofMonitor := by
    obtain ⟨j, hle, hj⟩ := hfair (k + i)
    obtain ⟨d, rfl⟩ := Nat.exists_eq_add_of_le (Nat.le_trans (Nat.le_add_right k i) hle)
    exact ⟨d, by omega, congrArg Turn.ofMonitor hj⟩
  obtain ⟨i, hi⟩ := @Monitor.Inv.leaves 1 opts listing (σ.after opts listing schedule k).monitor 0
    (fun i => (schedule (k + i)).ofMonitor) hfail ht (h.after hfail ht k).monitor (hagain hbackground)
    (hagain hclient)
  rw [← monitor_after hbusy i] at hi
  exact hi (hstalled i)

theorem Progress.advances {k : Nat} (hleft : 0 < (σ.after opts listing schedule k).left) :
    ∃ j, (σ.after opts listing schedule j).left < (σ.after opts listing schedule k).left := by
  -- the client has its turn after the stall it may be in
  obtain ⟨i, hi⟩ := @Progress.leaves_stall opts listing σ total schedule h hfail ht hbackground hclient k
  obtain ⟨j, hij, hj⟩ := hclient (k + i)
  have hearlier : (σ.after opts listing schedule (k + i)).left ≤ (σ.after opts listing schedule k).left :=
    h.left_antitone hfail ht (Nat.le_add_right k i)
  have hlater : (σ.after opts listing schedule j).left ≤ (σ.after opts listing schedule (k + i)).left :=
    h.left_antitone hfail ht hij
  by_cases hless : (σ.after opts listing schedule j).left < (σ.after opts listing schedule k).left
  · exact ⟨j, hless⟩
  · have hsame : (σ.after opts listing schedule j).left = (σ.after opts listing schedule (k + i)).left := by omega
    have hfree : ¬ (σ.after opts listing schedule j).monitor.Stalled 0 := by
      rw [(h.after hfail ht j).stalled_iff, hsame, ← (h.after hfail ht (k + i)).stalled_iff]
      exact hi
    have hturn : (σ.after opts listing schedule (j + 1)).left < (σ.after opts listing schedule j).left := by
      change ((σ.after opts listing schedule j).turn opts listing (schedule j)).left < _
      rw [hj]
      exact (h.after hfail ht j).client_turn hfail ht |>.2.2 hfree (by omega)
    exact ⟨j + 1, by omega⟩

theorem Progress.returns : ∃ k, (σ.after opts listing schedule k).replies.length = total := by
  have hdone : ∃ k, (σ.after opts listing schedule k).left = 0 := by
    by_contra hnever
    have hstuck (bound k : Nat) (hk : (σ.after opts listing schedule k).left ≤ bound) : False := by
      induction bound generalizing k with
      | zero => exact hnever ⟨k, Nat.le_zero.mp hk⟩
      | succ bound ih =>
        obtain ⟨j, hj⟩ := @Progress.advances opts listing σ total schedule h hfail ht hbackground hclient k
          (Nat.pos_of_ne_zero fun hzero => hnever ⟨k, hzero⟩)
        exact ih j (by omega)
    exact hstuck _ 0 (Nat.le_refl _)
  obtain ⟨k, hk⟩ := hdone
  refine ⟨k, ?_⟩
  have hcount := (@Progress.after opts listing σ total schedule h hfail ht k).count
  rw [left] at hk
  have htodo : (σ.after opts listing schedule k).todo.length = 0 := by omega
  have hidle : (σ.after opts listing schedule k).system.engine.clients 0 = .idle := by
    rcases (@Progress.after opts listing σ total schedule h hfail ht k).position with hidle | ⟨request, hserves⟩
    · exact hidle
    · have hpositive := (Client.distance_of_serves hserves).1
      omega
  rw [htodo, hidle] at hcount
  exact hcount

end Fair

end Schedule

end Session

end KVStore
