import KVStore.Lib.CallSequence
import KVStore.StoreReplies

namespace KVStore

open Lib CrashProgram Protocol

/-- What a store is for: a map from keys to values. -/
abbrev Mapping := Key → Option Value

namespace Mapping

def empty : Mapping := fun _ => none

def reply (m : Mapping) (request : Request) : Reply :=
  match request.op with
  | .get => Bitcask.answer request.key (m request.key)
  | .put | .delete =>
    if request.key = [] then (.invalidArgument (text "key must not be empty"), none) else (.ok, none)

def next (m : Mapping) (request : Request) : Mapping :=
  if request.key = [] then m
  else
    match request.op with
    | .get => m
    | .put => Function.update m request.key (some request.value)
    | .delete => Function.update m request.key none

theorem next_nil {m : Mapping} (h : m [] = none) (request : Request) : m.next request [] = none := by
  obtain ⟨op, key, value⟩ := request
  unfold next
  by_cases hkey : key = []
  · rw [if_pos hkey]
    exact h
  · rw [if_neg hkey]
    cases op with
    | get => exact h
    | put | delete => exact (Function.update_of_ne (Ne.symm hkey) _ m).trans h

theorem foldl_next_nil {m : Mapping} (h : m [] = none) (requests : List Request) :
    requests.foldl next m [] = none := by
  induction requests generalizing m with
  | nil => exact h
  | cons request requests ih => exact ih (next_nil h request)

def replies (requests : List Request) : List Reply := CallSequence.replies reply next empty requests

end Mapping

/-- The record of a write is within the largest record size. -/
def Protocol.Request.InLimit (request : Request) : Prop :=
  match request.op with
  | .get => True
  | .put => Record.Fits request.key request.value
  | .delete => Record.Fits request.key []

instance (request : Request) : Decidable request.InLimit := by
  unfold Request.InLimit
  split <;> infer_instance

def Protocol.Request.removesEmptyKey (request : Request) : Prop := request.op = .delete ∧ request.key = []

instance (request : Request) : Decidable request.removesEmptyKey := inferInstanceAs (Decidable (_ ∧ _))

/-- The same status code, and the same value where there is one. -/
def Reply.Same (a b : Reply) : Prop := a.1.code = b.1.code ∧ a.2 = b.2

instance (a b : Reply) : Decidable (Reply.Same a b) := inferInstanceAs (Decidable (_ ∧ _))

namespace MemoryStore

def empty : MemoryStore := ⟨∅⟩

def next (store : MemoryStore) (request : Request) : MemoryStore :=
  match request.op with
  | .get => store
  | .put => (store.put request.key request.value).2
  | .delete => (store.remove request.key).2

/-- The store holds exactly the map, and nothing under the empty key. -/
def Holds (store : MemoryStore) (m : Mapping) : Prop := (∀ key, store.map.lookup key = m key) ∧ m [] = none

variable {store : MemoryStore} {m : Mapping}

theorem holds_empty : empty.Holds Mapping.empty := ⟨fun _ => rfl, rfl⟩

theorem Holds.next (h : store.Holds m) (request : Request) : (store.next request).Holds (m.next request) := by
  obtain ⟨hlookup, hnil⟩ := h
  refine ⟨fun key => ?_, Mapping.next_nil hnil request⟩
  obtain ⟨op, written, value⟩ := request
  unfold MemoryStore.next Mapping.next
  cases op with
  | get =>
    rw [ite_self]
    exact hlookup key
  | put =>
    dsimp only [put]
    by_cases hempty : written = []
    · rw [if_pos hempty, if_pos hempty]
      exact hlookup key
    · rw [if_neg hempty, if_neg hempty]
      by_cases hkey : key = written
      · rw [hkey, AList.lookup_insert, Function.update_self]
      · rw [AList.lookup_insert_ne hkey, Function.update_of_ne hkey]
        exact hlookup key
  | delete =>
    dsimp only [remove]
    by_cases hempty : written = []
    · -- erasing the empty key erases nothing
      rw [if_pos hempty, hempty]
      by_cases hkey : key = []
      · rw [hkey, AList.lookup_erase, hnil]
      · rw [AList.lookup_erase_ne hkey]
        exact hlookup key
    · rw [if_neg hempty]
      by_cases hkey : key = written
      · rw [hkey, AList.lookup_erase, Function.update_self]
      · rw [AList.lookup_erase_ne hkey, Function.update_of_ne hkey]
        exact hlookup key

theorem Holds.same_iff (h : store.Holds m) (request : Request) :
    Reply.Same (store.reply request) (m.reply request) ↔ ¬ request.removesEmptyKey := by
  obtain ⟨op, key, value⟩ := request
  unfold MemoryStore.reply Mapping.reply Request.removesEmptyKey
  cases op with
  | get =>
    simp only [reduceCtorEq, false_and, not_false_eq_true, iff_true]
    rw [get, h.1 key]
    cases m key with
    | none => exact ⟨rfl, rfl⟩
    | some => exact ⟨rfl, rfl⟩
  | put =>
    simp only [reduceCtorEq, false_and, not_false_eq_true, iff_true]
    unfold put
    split <;> exact ⟨rfl, rfl⟩
  | delete =>
    simp only [true_and]
    split
    next hempty => exact ⟨fun hsame => (nomatch hsame.1), fun hne => absurd hempty hne⟩
    next hkey => exact ⟨fun _ => hkey, fun _ => ⟨rfl, rfl⟩⟩

def replies (requests : List Request) : List Reply := CallSequence.replies reply MemoryStore.next empty requests

theorem replies_same_iff {requests : List Request} {i : Nat} {request : Request} {a b : Reply}
    (hrequest : requests[i]? = some request) (ha : (replies requests)[i]? = some a)
    (hb : (Mapping.replies requests)[i]? = some b) : Reply.Same a b ↔ ¬ request.removesEmptyKey := by
  have hholds := @CallSequence.related_take _ _ _ MemoryStore.next Mapping.next Holds requests empty
    Mapping.empty holds_empty (fun _ request _ h => h.next request) i
  rw [replies, CallSequence.getElem?_replies, hrequest] at ha
  rw [Mapping.replies, CallSequence.getElem?_replies, hrequest] at hb
  cases ha
  cases hb
  exact hholds.same_iff request

end MemoryStore

namespace Bitcask

variable [Crc] (listing : Listing)

abbrev OpenStore := Bitcask × Directory

def answerTo (o : OpenStore) (call : Request × Timestamp) : Reply := o.1.reply listing o.2 call.2 call.1

def next (o : OpenStore) (call : Request × Timestamp) : OpenStore :=
  match call.1.op with
  | .get => (o.1, ((o.1.get call.1.key).run (machine listing) o.2).2)
  | .put =>
    let r := (o.1.put call.1.key call.1.value call.2).run (machine listing) o.2
    (r.1.2, r.2)
  | .delete =>
    let r := (o.1.remove call.1.key call.2).run (machine listing) o.2
    (r.1.2, r.2)

def replies (o : OpenStore) (calls : List (Request × Timestamp)) : List Reply :=
  CallSequence.replies (answerTo listing) (next listing) o calls

def before (o : OpenStore) (calls : List (Request × Timestamp)) (i : Nat) : OpenStore :=
  (calls.take i).foldl (next listing) o

def Holds (o : OpenStore) (m : Mapping) : Prop :=
  ∃ sealedOnes active history, StoreInv o.1 o.2 sealedOnes active history ∧
    ∀ key, valueAfter key history = m key

variable {listing} {o : OpenStore} {m : Mapping} {s : Bitcask} {d : Directory} {history : List Write}
    {writes : List Write}

omit [Crc] in
theorem run_tracked_directory {α : Type} (listing : Listing) (p : Io α) (d : Directory) (b : Bool) :
    (p.run (trackedMachine listing) (d, b)).2.1 = (p.run (machine listing) d).2 := by
  induction p generalizing d b with
  | ret => rfl
  | op o k ih => exact ih _ _ _

theorem finished_run {I : Directory × Bool → Prop}
    {Ok : Except Failure Unit × Bitcask → Prop} {p : Io (Except Failure Unit × Bitcask)}
    (h : Guarded (trackedMachine listing) Eq (fun _ => True) I
      (fun r t => Finished s history writes r t.1 ∧ Ok r) p (d, false)) :
    Finished s history writes (p.run (machine listing) d).1 (p.run (machine listing) d).2 ∧
      Ok (p.run (machine listing) d).1 := by
  have hrun := h.alone_run (fun _ _ hl => hl) trivial
  rwa [run_tracked, run_tracked_directory] at hrun

theorem holds_recover (listing : Listing) (opts : BitcaskOptions) :
    ∃ o : OpenStore, (recover opts).run (machine listing) ∅ = (.ok o.1, o.2) ∧ Holds o Mapping.empty := by
  have hrecover : Alone listing (fun _ => True) (fun d => Recoverable d []) (Reopened opts []) (recover opts) ∅ :=
    alone_recover_fresh (fun _ => rfl) fun _ => rfl
  obtain ⟨sealedOnes, activeId, active, hr, hs⟩ := hrecover.alone_run (fun _ _ hl => hl) trivial
  exact ⟨(_, _), Prod.ext hr rfl, sealedOnes, active, [], hs, fun _ => rfl⟩

theorem holds_written {r : Except Failure Unit × Bitcask}
    (h : Finished s history writes r d) (hok : r.1 = .ok ()) {m' : Mapping}
    (hvalues : ∀ key, valueAfter key (history ++ writes) = m' key) : Holds (r.2, d) m' := by
  obtain ⟨_, sealedOnes, active, hs⟩ := h
  rw [hok] at hs
  exact ⟨sealedOnes, active, history ++ writes, hs, hvalues⟩

omit [Crc] in
theorem valueAfter_written (hvalues : ∀ key, valueAfter key history = m key) (w : Write) (key : Key) :
    valueAfter key (history ++ [w]) = Function.update m w.key w.value key := by
  rw [valueAfter_concat]
  by_cases hkey : w.key = key
  · rw [if_pos hkey, ← hkey, Function.update_self]
  · rw [if_neg hkey, Function.update_of_ne (Ne.symm hkey)]
    exact hvalues key

theorem Holds.serves (h : Holds o m) {call : Request × Timestamp} (hlimit : call.1.InLimit)
    (hids : o.1.activeId ≠ maxUInt32) :
    answerTo listing o call = m.reply call.1 ∧ Holds (next listing o call) (m.next call.1) := by
  obtain ⟨s, d⟩ := o
  obtain ⟨⟨op, key, value⟩, now⟩ := call
  obtain ⟨sealedOnes, active, history, hs, hvalues⟩ := h
  have hsame : Holds (s, d) m := ⟨sealedOnes, active, history, hs, hvalues⟩
  unfold answerTo Bitcask.reply next Mapping.reply Mapping.next
  cases op with
  | get =>
    rw [hs.run_get, hvalues key, ite_self]
    exact ⟨rfl, hsame⟩
  | put =>
    by_cases hkey : key = []
    · rw [put, if_pos hkey, if_pos hkey, if_pos hkey]
      exact ⟨rfl, hsame⟩
    · have hput : Tracked listing (fun _ => True) _ _ (s.put key value now) (d, false) :=
        tracked_writing hs (writing_put s key value now) trivial
      obtain ⟨hfinished, hok⟩ := finished_run hput
      have hdone := hok hkey hlimit hids
      rw [hdone, if_neg hkey, if_neg hkey]
      exact ⟨rfl, holds_written hfinished hdone (valueAfter_written hvalues _)⟩
  | delete =>
    by_cases hkey : key = []
    · rw [remove, if_pos hkey, if_pos hkey, if_pos hkey]
      exact ⟨rfl, hsame⟩
    · have hremove : Tracked listing (fun _ => True) _ _ (s.remove key now) (d, false) :=
        tracked_writing hs (writing_remove s key now) trivial
      obtain ⟨hfinished, hok⟩ := finished_run hremove
      have hdone := hok hkey hlimit hids
      rw [hdone, if_neg hkey, if_neg hkey]
      exact ⟨rfl, holds_written hfinished hdone (valueAfter_written hvalues _)⟩

theorem Holds.replies_eq (h : Holds o Mapping.empty) {calls : List (Request × Timestamp)}
    (hlimit : ∀ call ∈ calls, call.1.InLimit)
    (hids : ∀ i < calls.length, (before listing o calls i).1.activeId ≠ maxUInt32) :
    replies listing o calls = Mapping.replies (calls.map Prod.fst) := by
  have hlegal {i : Nat} {call : Request × Timestamp} (hcall : calls[i]? = some call) :
      call.1.InLimit ∧ (before listing o calls i).1.activeId ≠ maxUInt32 :=
    ⟨hlimit call (List.mem_of_getElem? hcall), hids i (List.getElem?_eq_some_iff.mp hcall).1⟩
  have hholds := @CallSequence.related_take _ _ _ (next listing) (fun m call => m.next call.1) Holds calls o
    Mapping.empty h fun i call hcall hbefore =>
      (hbefore.serves (hlegal hcall).1 (hlegal hcall).2).2
  refine List.ext_getElem? fun i => ?_
  rw [replies, Mapping.replies, CallSequence.getElem?_replies, CallSequence.getElem?_replies, List.getElem?_map,
    ← List.map_take, List.foldl_map]
  cases hcall : calls[i]? with
  | none => rfl
  | some => exact congrArg some ((hholds i).serves (hlegal hcall).1 (hlegal hcall).2).1

end Bitcask

end KVStore
