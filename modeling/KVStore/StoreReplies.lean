import KVStore.BitcaskDurability
import KVStore.LsmInversion
import KVStore.Protocol

namespace KVStore

open Lib SortedRun CrashProgram Protocol

abbrev Reply := Status × Option Value

structure MemoryStore where
  map : AList fun _ : Key => Value

namespace MemoryStore

def put (store : MemoryStore) (key : Key) (value : Value) : Status × MemoryStore :=
  if key = [] then (.invalidArgument (text "key must not be empty"), store)
  else (.ok, ⟨store.map.insert key value⟩)

def get (store : MemoryStore) (key : Key) : Reply :=
  match store.map.lookup key with
  | none => (.notFound (text "no such key: " ++ key), none)
  | some value => (.ok, some value)

def remove (store : MemoryStore) (key : Key) : Status × MemoryStore := (.ok, ⟨store.map.erase key⟩)

def reply (store : MemoryStore) (request : Request) : Reply :=
  match request.op with
  | .get => store.get request.key
  | .put => ((store.put request.key request.value).1, none)
  | .delete => ((store.remove request.key).1, none)

end MemoryStore

namespace Bitcask

def statusOf : Except Failure Unit → Status
  | .ok _ => .ok
  | .error f => f.status

def reply [Crc] (listing : Listing) (s : Bitcask) (d : Directory) (now : Timestamp) (request : Request) : Reply :=
  match request.op with
  | .get => ((s.get request.key).run (machine listing) d).1
  | .put => (statusOf ((s.put request.key request.value now).run (machine listing) d).1.1, none)
  | .delete => (statusOf ((s.remove request.key now).run (machine listing) d).1.1, none)

end Bitcask

def Protocol.Request.call (request : Request) : Call :=
  match request.op with
  | .get => .get request.key
  | .put => .put request.key request.value
  | .delete => .remove request.key

def Client.Serves (request : Request) : Client → Prop
  | .probing key | .searching key _ => request.call = .get key
  | .wantWriter e | .checking e | .stalled e | .appending e | .inserting e
  | .rotating _ (.write e) | .rotated _ (.write e) => request.call.entry = some e
  | _ => False

namespace System

variable {n : Nat}

/-- The step in which the call of a request returns. -/
inductive Returns (opts : LsmOptions) (listing : Listing) (s : System n) (request : Request) : Reply → Prop
  | status {c : Fin n} {a : Action n} {s' : System n} {st : Status} {older : List (Event n)}
      (inside : a = .call c request.call ∨ a = .client c ∧ (s.engine.clients c).Serves request)
      (step : s.step opts listing a = some s') (idle : s'.engine.clients c = .idle)
      (responded : s'.trace = .respond c (.status st) :: older) : Returns opts listing s request (st, none)
  | got {c : Fin n} {a : Action n} {s' : System n} {answer : Reply} {older : List (Event n)}
      (inside : a = .call c request.call ∨ a = .client c ∧ (s.engine.clients c).Serves request)
      (step : s.step opts listing a = some s') (idle : s'.engine.clients c = .idle)
      (responded : s'.trace = .respond c (.got answer) :: older) : Returns opts listing s request answer

def Live (entries : List Entry) (value : Value) : Prop :=
  ∃ e ∈ entries, e.2.tombstone = false ∧ e.2.value = value

theorem live_of_found {es : List Entry} {key : Key} {value : Value}
    (h : Lookup.ofEntry (find key es) = .found value) : Live es value := by
  cases hfind : find key es with
  | none =>
    rw [hfind] at h
    cases h
  | some e =>
    rw [hfind, Lookup.ofEntry] at h
    split_ifs at h with hlive
    cases h
    exact ⟨(key, e), mem_of_find hfind, by simpa using hlive, rfl⟩

/-- The value stands in a memtable, in a table or in a version that a reader holds. -/
inductive Holds (s : System n) (value : Value) : Prop
  | mem (live : Live s.engine.mem.map value)
  | imm {m : Memtable} (frozen : s.engine.imm = some m) (live : Live m.map value)
  | table {t : SSTable} (current : t ∈ s.engine.current.flatten) (live : Live t.entries value)
  | held {c : Fin n} {t : SSTable} (held : t ∈ (s.engine.clients c).holds) (live : Live t.entries value)

end System

/-- What the stores' replies have in common, over the values a store holds and the
background error it has recorded. -/
inductive Proper (Held : Value → Prop) (recorded : Status) (request : Request) : Reply → Prop
  | found {value : Value} (get : request.op = .get) (held : Held value) : Proper Held recorded request (.ok, some value)
  | absent (get : request.op = .get) :
      Proper Held recorded request (.notFound (text "no such key: " ++ request.key), none)
  | done (write : request.op ≠ .get) : Proper Held recorded request (.ok, none)
  | refused {status : Status} (write : request.op ≠ .get) (bad : status.isOk = false)
      (short : status.message.length ≤ 100) : Proper Held recorded request (status, none)
  | stopped (write : request.op ≠ .get) (bad : recorded.isOk = false) :
      Proper Held recorded request (recorded, none)

theorem Proper.mono {P Q : Value → Prop} {recorded : Status} {request : Request} {reply : Reply}
    (h : Proper P recorded request reply) (hheld : ∀ value, P value → Q value) : Proper Q recorded request reply := by
  cases h with
  | found get held => exact .found get (hheld _ held)
  | absent get => exact .absent get
  | done write => exact .done write
  | refused write bad short => exact .refused write bad short
  | stopped write bad => exact .stopped write bad

theorem MemoryStore.proper_reply (store : MemoryStore) (recorded : Status) (request : Request) :
    Proper (fun value => ∃ key, store.map.lookup key = some value) recorded request (store.reply request) := by
  unfold reply
  split
  next hget =>
    unfold get
    split
    next => exact .absent hget
    next value hvalue => exact .found hget ⟨_, hvalue⟩
  next hput =>
    unfold put
    split
    next => exact .refused (by simp [hput]) rfl (show (text "key must not be empty").length ≤ 100 by decide)
    next => exact .done (by simp [hput])
  next hdelete => exact .done (by simp [hdelete])

namespace Bitcask

variable {listing : Listing} {s : Bitcask} {d : Directory} {history : List Write} {file : LogFile}

theorem exists_write_of_valueAfter {key : Key} {value : Value}
    (h : valueAfter key history = some value) : ∃ w ∈ history, w.value = some value := by
  obtain ⟨w, hw, hvalue⟩ := Option.bind_eq_some_iff.mp h
  exact ⟨w, (ReplayLog.of_newest hw).1, hvalue⟩

theorem run_sync_ok (hopen : file.isOpen = true) : file.sync.run (machine listing) d = (.ok (), d) := by
  rw [LogFile.sync, if_pos hopen]
  rfl

theorem run_append_ok (hopen : file.isOpen = true) (bytes : Bytes) :
    ((file.append bytes).run (machine listing) d).1.1 = .ok file.endOffset := by
  obtain ⟨name, endOffset, mode, isOpen⟩ := file
  cases hopen
  cases mode with
  | never | always => rfl

theorem run_rotateIfNeeded (hopen : s.active.isOpen = true) (incoming : Nat) :
    ((s.rotateIfNeeded incoming).run (machine listing) d).1.1 = .error idsExhausted ∨
    ((s.rotateIfNeeded incoming).run (machine listing) d).1.1 = .ok () ∧
      ((s.rotateIfNeeded incoming).run (machine listing) d).1.2.active.isOpen = true := by
  unfold rotateIfNeeded
  split
  · exact .inr ⟨rfl, hopen⟩
  split
  · exact .inr ⟨rfl, hopen⟩
  rw [rotate, Prog.run_bind, run_sync_ok hopen]
  dsimp only
  split
  · exact .inl rfl
  · exact .inr ⟨rfl, rfl⟩

theorem run_appendRecord_error (hopen : s.active.isOpen = true) {bytes : Bytes} {e : Failure}
    (h : ((s.appendRecord bytes).run (machine listing) d).1.1 = .error e) : e = idsExhausted := by
  have hcases := @run_rotateIfNeeded listing s d hopen bytes.length
  rw [appendRecord, andThen, Prog.run_bind] at h
  generalize (s.rotateIfNeeded bytes.length).run (machine listing) d = room at h hcases
  obtain ⟨⟨r, s'⟩, d'⟩ := room
  rcases hcases with hr | ⟨hr, hopen'⟩
  · cases hr
    exact (Except.error.inj h).symm
  · cases hr
    rw [Prog.run_bind] at h
    exact absurd (h.symm.trans (run_append_ok hopen' bytes)) nofun

theorem proper_write (P : Value → Prop) {request : Request} (hwrite : request.op ≠ .get)
    (hopen : s.active.isOpen = true) {empty large : Prop} [Decidable empty] [Decidable large] (bytes : Bytes)
    (k : Nat → Bitcask → Bitcask) :
    Proper P .ok request (statusOf ((if empty then .ret (.error emptyKey, s)
      else if large then .ret (.error recordTooLarge, s)
      else andThen (s.appendRecord bytes) fun offset s => .ret (.ok (), k offset s)).run
        (machine listing) d).1.1, none) := by
  split
  · exact .refused hwrite emptyKey.bad (show emptyKey.status.message.length ≤ 100 by decide)
  split
  · exact .refused hwrite recordTooLarge.bad (show recordTooLarge.status.message.length ≤ 100 by decide)
  have herror := @run_appendRecord_error listing s d hopen bytes
  rw [andThen, Prog.run_bind]
  generalize (s.appendRecord bytes).run (machine listing) d = appended at herror ⊢
  obtain ⟨⟨r, s'⟩, d'⟩ := appended
  cases r with
  | ok => exact .done hwrite
  | error =>
    cases herror rfl
    exact .refused hwrite idsExhausted.bad (show idsExhausted.status.message.length ≤ 100 by decide)

theorem proper_reply [Crc] (h : World.Reachable listing (.running s d history)) (now : Timestamp)
    (request : Request) :
    Proper (fun value => ∃ w ∈ history, w.value = some value) .ok request (s.reply listing d now request) := by
  obtain ⟨_, _, sealedOnes, active, hs⟩ := h.inv
  have hopen : s.active.isOpen = true := by
    rw [hs.describes.active]
    rfl
  unfold reply
  split
  next hget =>
    rw [hs.run_get]
    cases hvalue : valueAfter request.key history with
    | none => exact .absent hget
    | some => exact .found hget (exists_write_of_valueAfter hvalue)
  next hput =>
    exact proper_write _ (by simp [hput]) hopen _ _
  next hdelete =>
    exact proper_write _ (by simp [hdelete]) hopen _ _

end Bitcask

namespace Levels

variable {t : SSTable} {key : Key} {value : Value} {level : List SSTable}

theorem live_of_lookup_found (h : t.lookup key = .found value) : System.Live t.entries value := by
  rw [SSTable.lookup, TableFile.lookup_eq] at h
  exact System.live_of_found h

theorem found_orElse {a b : Lookup} (h : a.orElse b = .found value) : a = .found value ∨ b = .found value := by
  cases a with
  | notPresent => exact .inr h
  | deleted => cases h
  | found => exact .inl h

theorem exists_of_searchL0_found
    (h : searchL0 key level = .found value) : ∃ t ∈ level, t.lookup key = .found value := by
  induction level with
  | nil => cases h
  | cons t level ih =>
    rcases found_orElse h with h | h
    · exact ⟨t, List.mem_cons_self .., h⟩
    · obtain ⟨u, hu, hfound⟩ := ih h
      exact ⟨u, List.mem_cons_of_mem _ hu, hfound⟩

theorem mem_of_findInLevel (h : findInLevel level key = some t) : t ∈ level := by
  unfold findInLevel at h
  split at h
  · cases h
  next u hu =>
    split_ifs at h
    cases h
    exact List.mem_of_getElem? hu

theorem exists_of_searchDeeper_found {levels : List (List SSTable)}
    (h : searchDeeper key levels = .found value) : ∃ t ∈ levels.flatten, t.lookup key = .found value := by
  induction levels with
  | nil => cases h
  | cons level levels ih =>
    have hrest : searchDeeper key levels = .found value →
        ∃ t ∈ (level :: levels).flatten, t.lookup key = .found value := by
      intro h
      obtain ⟨t, ht, hfound⟩ := ih h
      exact ⟨t, by simp [List.mem_flatten.mp ht], hfound⟩
    rw [searchDeeper] at h
    split at h
    · exact hrest h
    next t ht =>
      rcases found_orElse h with h | h
      · exact ⟨t, List.mem_append_left _ (mem_of_findInLevel ht), h⟩
      · exact hrest h

theorem exists_of_search_found {levels : Levels}
    (h : levels.search key = .found value) : ∃ t ∈ levels.flatten, t.lookup key = .found value := by
  unfold search at h
  split at h
  · cases h
  next l0 deeper =>
    rcases found_orElse h with h | h
    · obtain ⟨t, ht, hfound⟩ := exists_of_searchL0_found h
      exact ⟨t, List.mem_append_left _ ht, hfound⟩
    · obtain ⟨t, ht, hfound⟩ := exists_of_searchDeeper_found h
      exact ⟨t, List.mem_append_right _ ht, hfound⟩

end Levels

namespace System

variable {n : Nat} {opts : LsmOptions} {listing : Listing} {s s' : System n} {c : Fin n} {request : Request}
  {response : Response} {older : List (Event n)} {key : Key} {value : Value}

theorem write_of_entry {e : Entry} (h : request.call.entry = some e) : request.op ≠ .get := by
  intro hget
  rw [Request.call, hget] at h
  cases h

theorem get_of_call (h : request.call = .get key) : request.op = .get ∧ request.key = key := by
  unfold Request.call at h
  split at h
  next hget =>
    cases h
    exact ⟨hget, rfl⟩
  next => cases h
  next => cases h

/-- What a call can return: a write a status, a `get` what it finds in the store. -/
inductive Returned (s : System n) (request : Request) : Response → Prop
  | done (write : request.op ≠ .get) : Returned s request (.status .ok)
  | refused {st : Status} (write : request.op ≠ .get) (bad : st.isOk = false) (short : st.message.length ≤ 100) :
      Returned s request (.status st)
  | stopped (write : request.op ≠ .get) (bad : s.engine.backgroundStatus.isOk = false) :
      Returned s request (.status s.engine.backgroundStatus)
  | get {result : Lookup} (get : request.op = .get) (found : ∀ value, result = .found value → s.Holds value) :
      Returned s request (.got (result.answer request.key))

theorem returned_of_clientStep (hstep : ClientStep opts s c s') (hserves : (s.engine.clients c).Serves request)
    (hidle : s'.engine.clients c = .idle) (hresponded : s'.trace = .respond c response :: older) :
    Returned s request response := by
  cases hstep with
  | refuse pc bad =>
    cases hresponded
    apply Returned.stopped _ bad
    rcases pc with ⟨e, pc⟩ | ⟨e, pc⟩ | pc | pc <;> rw [pc] at hserves
    · exact write_of_entry hserves
    · exact write_of_entry hserves
    · exact hserves.elim
    · exact hserves.elim
  | insert pc =>
    cases hresponded
    rw [pc] at hserves
    exact .done (write_of_entry hserves)
  | @hit key e pc found =>
    cases hresponded
    rw [pc] at hserves
    obtain ⟨hget, rfl⟩ := get_of_call hserves
    apply Returned.get hget
    intro value hvalue
    rcases Option.or_eq_some_iff.mp found with hmem | ⟨_, himm⟩
    · exact .mem (live_of_found (hmem ▸ hvalue))
    · obtain ⟨m, hm, hfind⟩ := Option.bind_eq_some_iff.mp himm
      exact .imm hm (live_of_found (hfind ▸ hvalue))
  | @search key version pc =>
    cases hresponded
    rw [pc] at hserves
    obtain ⟨hget, rfl⟩ := get_of_call hserves
    apply Returned.get hget
    intro value hvalue
    obtain ⟨t, ht, hfound⟩ := Levels.exists_of_search_found hvalue
    exact .held (c := c) (by rw [pc]; exact ht) (Levels.live_of_lookup_found hfound)
  -- the call goes on
  | acquire | stall | rotateWrite | proceed | createLog | switchWrite | append | miss =>
    simp [setClient, Engine.setClient, rotate, note, acquire] at hidle
  -- not a call of a request
  | switchFlush pc | snapshot pc | rows pc | flushAcquire pc | flushNothing pc | flushStall pc | refuseCompact pc
  | request pc | settle pc =>
    rw [pc] at hserves
    exact hserves.elim
  | flushWait pc | rotateFlush pc =>
    rcases pc with pc | pc <;> rw [pc] at hserves <;> exact hserves.elim

theorem returned_of_beginWrite (held : System n) (hwrite : request.op ≠ .get) {gone : Bool}
    (hidle : (s.beginWrite c key value gone).engine.clients c = .idle)
    (hresponded : (s.beginWrite c key value gone).trace = .respond c response :: older) :
    Returned held request response := by
  unfold beginWrite at hidle hresponded
  split at hresponded
  · cases hresponded
    exact .refused hwrite rfl (show (text "key must not be empty").length ≤ 100 by decide)
  next hkey =>
    rw [if_neg hkey] at hidle
    by_cases hlarge : payloadLimit < key.length + (if gone then 0 else value.length)
    · rw [if_pos hlarge] at hresponded
      cases hresponded
      exact .refused hwrite rfl (show (text "record exceeds the maximum record size").length ≤ 100 by decide)
    · rw [if_neg hlarge] at hidle
      simp [setClient, Engine.setClient] at hidle

theorem returned_of_enter (held : System n) (hidle : (s.enter c request.call).engine.clients c = .idle)
    (hresponded : (s.enter c request.call).trace = .respond c response :: older) :
    Returned held request response := by
  cases hop : request.op with
  | get =>
    have hcall : request.call = .get request.key := by rw [Request.call, hop]
    rw [hcall, enter] at hidle hresponded
    split at hresponded
    · cases hresponded
      exact .get hop fun value hvalue => by cases hvalue
    next hkey =>
      rw [if_neg hkey] at hidle
      simp [setClient, Engine.setClient] at hidle
  | put =>
    have hcall : request.call = .put request.key request.value := by rw [Request.call, hop]
    rw [hcall, enter] at hidle hresponded
    exact returned_of_beginWrite held (by simp [hop]) hidle hresponded
  | delete =>
    have hcall : request.call = .remove request.key := by rw [Request.call, hop]
    rw [hcall, enter] at hidle hresponded
    exact returned_of_beginWrite held (by simp [hop]) hidle hresponded

theorem step_call {call : Call} (h : s.step opts listing (.call c call) = some s') :
    s' = (s.note (.invoke c call)).enter c call := by
  simp only [step] at h
  split at h
  · cases h
  split at h
  · split_ifs at h
    exact (Option.some.inj h).symm
  · cases h

theorem returned_of_step {a : Action n}
    (inside : a = .call c request.call ∨ a = .client c ∧ (s.engine.clients c).Serves request)
    (hstep : s.step opts listing a = some s') (hidle : s'.engine.clients c = .idle)
    (hresponded : s'.trace = .respond c response :: older) : Returned s request response := by
  rcases inside with rfl | ⟨rfl, hserves⟩
  · rw [step_call hstep] at hidle hresponded
    exact returned_of_enter s hidle hresponded
  · exact returned_of_clientStep (clientStep_cases (step_client hstep)) hserves hidle hresponded

theorem proper_of_returns {reply : Reply} (h : s.Returns opts listing request reply) :
    Proper s.Holds s.engine.backgroundStatus request reply := by
  cases h with
  | status inside step idle responded =>
    cases returned_of_step inside step idle responded with
    | done write => exact .done write
    | refused write bad short => exact .refused write bad short
    | stopped write bad => exact .stopped write bad
  | got inside step idle responded =>
    cases returned_of_step inside step idle responded with
    | @get result get found =>
      cases result with
      | found value => exact .found get (found value rfl)
      | notPresent | deleted => exact .absent get

end System

end KVStore
