import KVStore.LsmSteady
import KVStore.StoreContract

namespace KVStore

open Lib SortedRun CrashProgram Protocol

def repliesIn {n : Nat} : List (Event n) → List Reply
  | [] => []
  | .respond _ (.status st) :: older => (st, none) :: repliesIn older
  | .respond _ (.got answer) :: older => answer :: repliesIn older
  | _ :: older => repliesIn older

/-- How far a `put`, `get` or `remove` is from its return, in pieces. -/
def Client.distance : Client → Nat
  | .idle => 0
  | .inserting _ | .searching _ _ => 1
  | .appending _ | .probing _ => 2
  | .rotated _ _ => 3
  | .rotating _ _ => 4
  | .stalled _ => 5
  | .checking _ => 6
  | .wantWriter _ => 7
  | _ => 8

variable {request : Request} {e : Entry}

theorem Client.distance_of_serves {pc : Client} (h : pc.Serves request) :
    0 < pc.distance ∧ pc.distance ≤ 7 := by
  cases pc <;> first | exact h.elim | exact ⟨by simp [distance], by simp [distance]⟩

theorem Protocol.Request.entry_of_write (h : request.call.entry = some e) :
    request.op = .put ∧ e = (request.key, ⟨request.value, false⟩) ∨
      request.op = .delete ∧ e = (request.key, ⟨[], true⟩) := by
  unfold Request.call at h
  split at h
  next => cases h
  next hput =>
    cases h
    exact .inl ⟨hput, rfl⟩
  next hdelete =>
    cases h
    exact .inr ⟨hdelete, rfl⟩

theorem Mapping.next_of_write {m : Mapping} {es : List Entry}
    (hentry : request.call.entry = some e) (hkey : e.1 ≠ [])
    (hcontents : ∀ key, visible (find key es) = m key) (key : Key) :
    visible (find key (e :: es)) = m.next request key := by
  obtain ⟨op, written, value⟩ := request
  have hfind : find key (e :: es) = if key = e.1 then some e.2 else find key es := rfl
  rcases Request.entry_of_write hentry with ⟨rfl, rfl⟩ | ⟨rfl, rfl⟩
  all_goals
    rw [hfind, Mapping.next, if_neg hkey]
    dsimp only
    by_cases hsame : key = written
    · rw [if_pos hsame, hsame, Function.update_self]
      rfl
    · rw [if_neg hsame, Function.update_of_ne hsame]
      exact hcontents key

theorem Mapping.reply_of_write (m : Mapping) (hentry : request.call.entry = some e)
    (hkey : e.1 ≠ []) : m.reply request = (.ok, none) := by
  obtain ⟨op, written, value⟩ := request
  rcases Request.entry_of_write hentry with ⟨rfl, rfl⟩ | ⟨rfl, rfl⟩
  all_goals
    exact if_neg hkey

theorem Lookup.answer_eq (key : Key) (l : Lookup) : l.answer key = Bitcask.answer key l.value := by
  cases l <;> rfl

namespace System

section Position

variable {n : Nat} {opts : LsmOptions} {s s' : System n} {c : Fin n} {request : Request}

theorem ClientStep.serves (h : ClientStep opts s c s') (hserves : (s.engine.clients c).Serves request) :
    (s'.engine.clients c).Serves request ∧ (s'.engine.clients c).distance < (s.engine.clients c).distance ∧
        repliesIn s'.trace = repliesIn s.trace ∨
      s'.engine.clients c = .idle ∧ ∃ reply, repliesIn s'.trace = reply :: repliesIn s.trace := by
  have hset {pc : Client} (hat : s'.engine.clients c = pc) (hpc : pc.Serves request)
      (hnearer : pc.distance < (s.engine.clients c).distance) :
      (s'.engine.clients c).Serves request ∧ (s'.engine.clients c).distance < (s.engine.clients c).distance := by
    rw [hat]
    exact ⟨hpc, hnearer⟩
  cases h with
  | refuse | insert | hit | search => exact .inr ⟨setClient_self _ c _, _, rfl⟩
  | acquire pc | stall pc | switchWrite pc | append pc | miss pc =>
    rw [pc] at hserves
    obtain ⟨hnext, hnearer⟩ := hset (setClient_self _ c _) hserves (by rw [pc]; simp [Client.distance])
    exact .inl ⟨hnext, hnearer, rfl⟩
  | @createLog next resume pc =>
    rw [pc] at hserves
    have hserves' : (Client.rotated next resume).Serves request := by
      cases resume with
      | write => exact hserves
      | flush => exact hserves.elim
    obtain ⟨hnext, hnearer⟩ := hset (setClient_self _ c _) hserves' (by rw [pc]; simp [Client.distance])
    exact .inl ⟨hnext, hnearer, rfl⟩
  | rotateWrite pc | proceed pc =>
    rcases pc with pc | pc <;> rw [pc] at hserves <;>
      obtain ⟨hnext, hnearer⟩ := hset (setClient_self _ c _) hserves (by rw [pc]; simp [Client.distance]) <;>
      exact .inl ⟨hnext, hnearer, rfl⟩
  | switchFlush pc | snapshot pc | rows pc | flushAcquire pc | flushNothing pc | flushStall pc | refuseCompact pc
  | request pc | settle pc =>
    rw [pc] at hserves
    exact hserves.elim
  | flushWait pc | rotateFlush pc =>
    rcases pc with pc | pc <;> rw [pc] at hserves <;> exact hserves.elim

end Position

variable {opts : LsmOptions} {listing : Listing} {s s' : System 1} {served : List Request} {request : Request}
  {current : Option Request} {live frozen flushed : List Entry}

/-- Where the calls of one client stand: those served were answered as by a map, what
they wrote is what the map holds, and the client is in the call at hand. -/
structure Answering (served : List Request) (current : Option Request) (s : System 1) : Prop where
  replies : (repliesIn s.trace).reverse = Mapping.replies served
  contents : ∀ key, visible (SortedRun.find key (written s.trace)) = served.foldl Mapping.next .empty key
  position : match current with
    | none => s.engine.clients 0 = .idle
    | some request => (s.engine.clients 0).Serves request
  searching : ∀ key version, s.engine.clients 0 = .searching key version →
    (version.search key).answer key = Bitcask.answer key (served.foldl Mapping.next .empty key)

theorem answering_opened (env : Env) (r : Recovered) : Answering [] none (opened 1 env r) :=
  ⟨rfl, fun _ => rfl, rfl, nofun⟩

namespace Answering

section

variable (h : Answering served current s)
include h

theorem congr (htrace : s'.trace = s.trace)
    (hclients : s'.engine.clients = s.engine.clients) : Answering served current s' := by
  obtain ⟨hreplies, hcontents, hposition, hsearching⟩ := h
  rw [← htrace] at hreplies hcontents
  rw [← hclients] at hposition hsearching
  exact ⟨hreplies, hcontents, hposition, hsearching⟩

theorem returns (hidle : s'.engine.clients 0 = .idle)
    (hreply : repliesIn s'.trace = (served.foldl Mapping.next Mapping.empty).reply request :: repliesIn s.trace)
    (hcontents : ∀ key, visible (find key (written s'.trace)) =
      (served.foldl Mapping.next Mapping.empty).next request key) :
    Answering (served ++ [request]) none s' := by
  refine ⟨?_, fun key => ?_, hidle, fun key version hpc => ?_⟩
  · rw [hreply, List.reverse_cons, h.replies, Mapping.replies, Mapping.replies, CallSequence.replies_append]
    rfl
  · rw [hcontents, List.foldl_append]
    rfl
  · cases hidle.symm.trans hpc

theorem goesOn (hserves : (s'.engine.clients 0).Serves request)
    (hreplies : repliesIn s'.trace = repliesIn s.trace) (hwritten : written s'.trace = written s.trace)
    (hsearching : ∀ key version, s'.engine.clients 0 = .searching key version →
      (version.search key).answer key = Bitcask.answer key (served.foldl Mapping.next .empty key)) :
    Answering served (some request) s' := by
  refine ⟨?_, ?_, hserves, hsearching⟩
  · rw [hreplies]
    exact h.replies
  · rw [hwritten]
    exact h.contents

theorem answerAt_eq (key : Key) :
    answerAt [] key s.trace = Bitcask.answer key (served.foldl Mapping.next .empty key) := by
  rw [answerAt, List.append_nil, Lookup.answer_eq, value_ofEntry, h.contents]

end

theorem beginWrite (h : Answering served none s) {value : Value} {gone : Bool}
    (hentry : request.call.entry = some (request.key, ⟨value, gone⟩))
    (hfits : request.key.length + (if gone then 0 else value.length) ≤ payloadLimit) (call : Call) :
    Answering served (some request) ((s.note (.invoke 0 call)).beginWrite 0 request.key value gone) ∨
      Answering (served ++ [request]) none ((s.note (.invoke 0 call)).beginWrite 0 request.key value gone) := by
  unfold System.beginWrite
  by_cases hkey : request.key = []
  · rw [if_pos hkey]
    refine .inr (h.returns (setClient_self _ 0 _) ?_ fun key => ?_)
    · have hreply : (served.foldl Mapping.next Mapping.empty).reply request =
          (.invalidArgument (text "key must not be empty"), none) := by
        unfold Mapping.reply
        rcases Request.entry_of_write hentry with ⟨hop, _⟩ | ⟨hop, _⟩ <;> rw [hop] <;> exact if_pos hkey
      rw [hreply]
      rfl
    · rw [Mapping.next, if_pos hkey]
      exact h.contents key
  · rw [if_neg hkey, if_neg (Nat.not_lt.mpr hfits)]
    refine .inl (h.goesOn ?_ rfl rfl fun key version hpc => ?_)
    · rw [System.setClient, setClient_self]
      exact hentry
    · cases (setClient_self _ 0 _).symm.trans hpc

theorem call (h : Answering served none s) (hlimit : request.InLimit)
    (hstep : s' = (s.note (.invoke 0 request.call)).enter 0 request.call) :
    Answering served (some request) s' ∨ Answering (served ++ [request]) none s' := by
  subst hstep
  obtain ⟨op, key, value⟩ := request
  cases op with
  | put => exact @beginWrite s served ⟨.put, key, value⟩ h value false rfl hlimit _
  | delete =>
    refine @beginWrite s served ⟨.delete, key, value⟩ h [] true rfl ?_ _
    have hfits : key.length + 0 ≤ payloadLimit := hlimit
    simpa using hfits
  | get =>
    change Answering served _ (if key = [] then _ else _) ∨ Answering _ none (if key = [] then _ else _)
    by_cases hkey : key = []
    · rw [if_pos hkey]
      refine .inr (h.returns (setClient_self _ 0 _) ?_ fun k => ?_)
      · have hnone := Mapping.foldl_next_nil (m := .empty) rfl served
        subst hkey
        rw [Mapping.reply]
        rw [hnone]
        rfl
      · rw [Mapping.next, ite_self]
        exact h.contents k
    · rw [if_neg hkey]
      refine .inl (h.goesOn ?_ rfl rfl fun k version hpc => ?_)
      · rw [System.setClient, setClient_self]
        rfl
      · cases (setClient_self _ 0 _).symm.trans hpc

theorem client (h : Answering served (some request) s) (hinv : StoreInv opts listing [] s live frozen flushed)
    (hsteady : s.engine.Steady opts) (hstep : ClientStep opts s 0 s') :
    Answering served (some request) s' ∨ Answering (served ++ [request]) none s' := by
  have hserves : (s.engine.clients 0).Serves request := h.position
  have hmove := hstep.serves hserves
  -- a `get` leaves the map alone
  have hget {key : Key} (hcall : request.call = .get key) :
      (served.foldl Mapping.next Mapping.empty).reply request =
          Bitcask.answer key (served.foldl Mapping.next .empty key) ∧
        (served.foldl Mapping.next Mapping.empty).next request = served.foldl Mapping.next .empty := by
    obtain ⟨hop, rfl⟩ := get_of_call hcall
    unfold Mapping.reply Mapping.next
    rw [hop]
    exact ⟨rfl, ite_self _⟩
  have hon (hreplies : repliesIn s'.trace = repliesIn s.trace) (hwritten : written s'.trace = written s.trace)
      (hnot : s'.engine.clients 0 ≠ .idle)
      (hsearching : ∀ key version, s'.engine.clients 0 = .searching key version →
        (version.search key).answer key = Bitcask.answer key (served.foldl Mapping.next .empty key)) :
      Answering served (some request) s' := by
    rcases hmove with ⟨hnext, _, _⟩ | ⟨hidle, _⟩
    · exact h.goesOn hnext hreplies hwritten hsearching
    · exact absurd hidle hnot
  have hplain {e : Engine 1} {pc : Client} (hpc : ∀ key version, pc ≠ .searching key version) (key : Key)
      (version : Levels) (hat : (e.setClient 0 pc).clients 0 = .searching key version) :
      (version.search key).answer key = Bitcask.answer key (served.foldl Mapping.next .empty key) :=
    absurd ((setClient_self e 0 pc).symm.trans hat) (hpc key version)
  cases hstep with
  | refuse pc bad =>
    rw [hsteady.status] at bad
    cases bad
  | @insert e pc =>
    rw [pc] at hserves
    have hwritable := hinv.accepted.carried 0 e (by rw [pc]; rfl)
    refine .inr (h.returns (setClient_self _ 0 _) ?_ fun key => ?_)
    · rw [Mapping.reply_of_write _ hserves hwritable.1]
      rfl
    · exact Mapping.next_of_write hserves hwritable.1 h.contents key
  | @hit key e pc found =>
    rw [pc] at hserves
    obtain ⟨hreply, hnext⟩ := hget hserves
    refine .inr (h.returns (setClient_self _ 0 _) ?_ fun k => ?_)
    · rw [hreply, ← h.answerAt_eq, ← hinv.history.hit found]
      rfl
    · rw [hnext]
      exact h.contents k
  | @search key version pc =>
    rw [pc] at hserves
    obtain ⟨hreply, hnext⟩ := hget hserves
    refine .inr (h.returns (setClient_self _ 0 _) ?_ fun k => ?_)
    · rw [hreply, ← h.searching key version pc]
      rfl
    · rw [hnext]
      exact h.contents k
  | @miss key pc absent =>
    refine .inl (hon rfl rfl ?_ fun k version hpc => ?_)
    · exact fun hidle => by cases (setClient_self _ 0 _).symm.trans hidle
    · cases (setClient_self _ 0 _).symm.trans hpc
      rw [hinv.history.miss hinv.background.shaped absent]
      exact h.answerAt_eq key
  | acquire | stall | createLog | switchWrite | append | rotateWrite | proceed =>
    refine .inl (hon rfl rfl ?_ (hplain (by rintro _ _ ⟨⟩)))
    exact fun hidle => by cases (setClient_self _ 0 _).symm.trans hidle
  | switchFlush pc | snapshot pc | rows pc | flushAcquire pc | flushNothing pc | flushStall pc | refuseCompact pc
  | request pc | settle pc =>
    rw [pc] at hserves
    exact hserves.elim
  | flushWait pc | rotateFlush pc =>
    rcases pc with pc | pc <;> rw [pc] at hserves <;> exact hserves.elim

end Answering

end System

end KVStore
