import KVStore.BitcaskWorld

namespace KVStore.Bitcask

open Lib CrashProgram

theorem run_tracked {α : Type} (listing : Listing) (p : Io α) (d : Directory) (b : Bool) :
    (p.run (trackedMachine listing) (d, b)).1 = (p.run (machine listing) d).1 := by
  induction p generalizing d b with
  | ret => rfl
  | op o k ih => exact ih _ _ _

namespace World

section

variable [Crc]

variable {listing : Listing} {w w' : World} {s : Bitcask} {d : Directory} {history : List Write}
    {calls : List (Call × Nat)}

def advance (listing : Listing) : World → Option World
  | .recovering opts (.op o k) d history =>
    let r := exec listing o d
    if Legal r.2 then some (.recovering opts (k r.1) r.2 history) else none
  | .recovering _ (.ret (.ok s)) d history => some (.running s d history)
  | .busy s call (.op o k) d landed history =>
    let r := exec listing o d
    if Legal r.2 then some (.busy s call (k r.1) r.2 (landed || o.lands) history) else none
  | .busy _ call (.ret (.ok _, s')) d _ history => some (.running s' d (history ++ call.writes))
  | _ => none

theorem Step.of_advance (h : w.advance listing = some w') : Step listing w w' := by
  unfold advance at h
  split at h
  · dsimp only at h
    split_ifs at h with hlegal
    cases h
    exact .replay hlegal
  · cases h
    exact .opened
  · dsimp only at h
    split_ifs at h with hlegal
    cases h
    exact .work hlegal
  · cases h
    exact .acknowledged
  · cases h

def advances (listing : Listing) : Nat → World → Option World
  | 0, w => some w
  | n + 1, w => (w.advance listing).bind (advances listing n)

theorem Reachable.advances {n : Nat} (h : Reachable listing w) (hn : w.advances listing n = some w') :
    Reachable listing w' := by
  induction n generalizing w with
  | zero =>
    cases hn
    exact h
  | succ n ih =>
    obtain ⟨w₁, hstep, hrest⟩ := Option.bind_eq_some_iff.mp hn
    exact ih (h.step (.of_advance hstep)) hrest

def performs (listing : Listing) : List (Call × Nat) → World → Option World
  | [], w => some w
  | (call, n) :: calls, .running s d history =>
    (advances listing n (.busy s call (call.program s) d false history)).bind (performs listing calls)
  | _ :: _, _ => none

theorem Reachable.performs (h : Reachable listing w)
    (hcalls : w.performs listing calls = some w') : Reachable listing w' := by
  induction calls generalizing w with
  | nil =>
    cases hcalls
    exact h
  | cons c calls ih =>
    obtain ⟨call, n⟩ := c
    cases w with
    | running =>
      obtain ⟨w₁, hn, hrest⟩ := Option.bind_eq_some_iff.mp hcalls
      exact ih ((h.step (.call call)).advances hn) hrest
    | down | recovering | busy => cases hcalls

def runFresh (opts : BitcaskOptions) (calls : List (Call × Nat)) : Option World :=
  (advances .asStored 5 (.recovering opts (recover opts) ∅ [])).bind (performs .asStored calls)

theorem reachable_of_runFresh {opts : BitcaskOptions}
    (hopts : opts.failAt = .none) (h : runFresh opts calls = some w) : Reachable .asStored w := by
  obtain ⟨w₁, hopen, hcalls⟩ := Option.bind_eq_some_iff.mp h
  have hopened : Reachable .asStored w₁ := (Reachable.start.step (.openStore opts hopts)).advances hopen
  exact hopened.performs hcalls

def Running (P : Bitcask → Directory → List Write → Prop) : World → Prop
  | .running s d history => P s d history
  | _ => False

instance (P : Bitcask → Directory → List Write → Prop) [∀ s d history, Decidable (P s d history)] :
    (w : World) → Decidable (w.Running P)
  | .running s d history => inferInstanceAs (Decidable (P s d history))
  | .down _ _ | .recovering _ _ _ _ | .busy _ _ _ _ _ _ => isFalse id

theorem exists_running {opts : BitcaskOptions} (hopts : opts.failAt = .none)
    {P : Bitcask → Directory → List Write → Prop} (h : ∃ w ∈ runFresh opts calls, w.Running P) :
    ∃ s d history, Reachable .asStored (.running s d history) ∧ P s d history := by
  obtain ⟨w, hw, hp⟩ := h
  cases w with
  | running s d history => exact ⟨s, d, history, reachable_of_runFresh hopts hw, hp⟩
  | down | recovering | busy => cases hp

def tear (n : Nat) : World → Option Directory
  | .busy _ _ (.op (.pwrite name offset bytes) _) d _ _ =>
    if n < bytes.length ∧ Legal (d.pwrite name offset (bytes.take n)) then
      some (d.pwrite name offset (bytes.take n))
    else none
  | _ => none

omit [Crc] in
theorem Leaves.of_tear {n : Nat} (h : w.tear n = some d) : w.Leaves d := by
  unfold tear at h
  split at h
  · split at h
    next hn =>
      cases h
      exact .torn (.pwrite n hn.1) hn.2
    next => cases h
  · cases h

/-- At every instant of every life of a directory, whatever a crash leaves of it opens,
and answers by the history, with or without the write in flight. -/
theorem Reachable.recover_rebuilds (h : Reachable listing w) (hd : w.Leaves d) (opts : BitcaskOptions) :
    ∃ s d' history, (history = w.history ∨ history = w.history ++ w.inFlight) ∧
      (recover opts).run (machine listing) d = (.ok s, d') ∧
      ∀ key, (s.get key).run (machine listing) d' = (answer key (valueAfter key history), d') := by
  have hsurvivors : w.survivors = w.history ∨ w.survivors = w.history ++ w.inFlight := by
    cases w with
    | busy s call io d landed history =>
      cases landed with
      | true => exact .inr rfl
      | false => exact .inl rfl
    | down | recovering | running => exact .inl rfl
  have hrecover : Alone listing (fun _ => True) (fun d => Recoverable d w.survivors)
    (Reopened opts w.survivors) (recover opts) d := (h.inv.leaves hd).1.alone_recover
  obtain ⟨sealedOnes, activeId, active, hr, hs⟩ := hrecover.alone_run (fun _ _ hl => hl) trivial
  exact ⟨_, _, w.survivors, hsurvivors, Prod.ext hr rfl, fun key => hs.run_get key⟩

end

/-- After a merge, a put is torn. -/
theorem recover_rebuilds_torn_put :
    ∃ (w : World) (d : Directory), Reachable .asStored w ∧ w.Leaves d ∧ d.size (.log 2) = 3 ∧
      w.history = [⟨text "a", some (text "x")⟩, ⟨text "a", some (text "z")⟩] ∧
      w.inFlight = [⟨text "b", some (text "y")⟩] ∧
      ∃ s d' history, (history = w.history ∨ history = w.history ++ w.inFlight) ∧
        (recover {}).run (machine .asStored) d = (.ok s, d') ∧
        ∀ key, (s.get key).run (machine .asStored) d' = (answer key (valueAfter key history), d') := by
  let calls : List (Call × Nat) := [(.put (text "a") (text "x") 0, 3), (.put (text "a") (text "z") 0, 3),
    (.compact, 25), (.put (text "b") (text "y") 0, 0)]
  have h : ∃ w ∈ runFresh {} calls, ∃ d ∈ w.tear 3, d.size (.log 2) = 3 ∧
      w.history = [⟨text "a", some (text "x")⟩, ⟨text "a", some (text "z")⟩] ∧
      w.inFlight = [⟨text "b", some (text "y")⟩] := by decide +kernel
  obtain ⟨w, hw, d, hd, hsize, hhistory, hflight⟩ := h
  have hreach := reachable_of_runFresh rfl hw
  have hleaves := Leaves.of_tear hd
  exact ⟨w, d, hreach, hleaves, hsize, hhistory, hflight, hreach.recover_rebuilds hleaves {}⟩

section

variable [Crc] {listing : Listing} {s : Bitcask} {d : Directory} {history : List Write}
    {sealedOnes : DataFiles} {active : DataFile} {key : Key} {value : Value}

theorem run_writing_ok {w : Write} {p : Io (Except Failure Unit × Bitcask)} (hp : s.Writing key value w p)
    (h : StoreInv s d sealedOnes active history) (hkey : key ≠ []) (hfits : Record.Fits key value)
    (hmax : s.activeId ≠ maxUInt32) : (p.run (machine listing) d).1.1 = .ok () := by
  have htracked : Tracked listing (fun _ => True) _ _ p (d, false) := tracked_writing h hp trivial
  have hrun := (htracked.alone_run (fun _ _ hl => hl) trivial).2 hkey hfits hmax
  rwa [run_tracked] at hrun

def Unacceptable (key : Key) (value : Value) : Prop :=
  key = [] ∨ Record.kMaxRecordSize < Record.kHeaderSize + key.length + value.length

omit [Crc] in
theorem not_unacceptable_iff : ¬ Unacceptable key value ↔ key ≠ [] ∧ Record.Fits key value := by
  rw [Unacceptable, not_or]
  refine and_congr_right fun _ => ?_
  simp only [Record.Fits, Record.kMaxRecordSize, Record.kHeaderSize, maxUInt32]
  omega

theorem refused_of_unacceptable {w : Write} {p : Io (Except Failure Unit × Bitcask)}
    (hp : s.Writing key value w p) (h : Unacceptable key value) :
    ∃ message, p = .ret (.error (.invalidArgument message), s) := by
  cases hp with
  | refused message => exact ⟨message, rfl⟩
  | record c accepted => exact absurd h (not_unacceptable_iff.mpr accepted)

/-- An open store is a map: every key answers by the writes that returned Ok, writes
that cannot be stored are turned away without a trace, and no pointer leads astray. -/
theorem Reachable.implements_map (h : Reachable listing (.running s d history)) :
    (∀ key, (s.get key).run (machine listing) d = (answer key (valueAfter key history), d)) ∧
    (∀ key value now, Unacceptable key value → ∃ message,
      (s.put key value now).run (machine listing) d = ((.error (.invalidArgument message), s), d)) ∧
    (∀ key now, Unacceptable key [] → ∃ message,
      (s.remove key now).run (machine listing) d = ((.error (.invalidArgument message), s), d)) ∧
    (∀ key value now, ¬ Unacceptable key value → s.activeId ≠ maxUInt32 →
      ((s.put key value now).run (machine listing) d).1.1 = .ok ()) ∧
    (∀ key now, ¬ Unacceptable key [] → s.activeId ≠ maxUInt32 →
      ((s.remove key now).run (machine listing) d).1.1 = .ok ()) ∧
    ∀ key pointer, s.keydir.index.lookup key = some pointer →
      ∃ file bytes record, PointsAtRecord s d key pointer file bytes record := by
  obtain ⟨_, _, sealedOnes, active, hs⟩ := h.inv
  refine ⟨fun key => hs.run_get key, fun key value now hbad => ?_, fun key now hbad => ?_,
    fun key value now hok hmax => ?_, fun key now hok hmax => ?_, fun key pointer hp => hs.points hp⟩
  · obtain ⟨message, hput⟩ := refused_of_unacceptable (writing_put s key value now) hbad
    exact ⟨message, by rw [hput]; rfl⟩
  · obtain ⟨message, hremove⟩ := refused_of_unacceptable (writing_remove s key now) hbad
    exact ⟨message, by rw [hremove]; rfl⟩
  · obtain ⟨hkey, hfits⟩ := not_unacceptable_iff.mp hok
    exact run_writing_ok (writing_put s key value now) hs hkey hfits hmax
  · obtain ⟨hkey, hfits⟩ := not_unacceptable_iff.mp hok
    exact run_writing_ok (writing_remove s key now) hs hkey hfits hmax

end

/-- Small files: every write seals the file before it, and a merge leaves one key. -/
theorem implements_map_after_merge :
    ∃ (s : Bitcask) (d : Directory) (history : List Write), Reachable .asStored (.running s d history) ∧
      s.activeId = 4 ∧ history = [⟨text "a", some (text "x")⟩, ⟨text "b", some (text "y")⟩, ⟨text "a", none⟩] ∧
      (s.get (text "a")).run (machine .asStored) d = ((noSuchKey (text "a"), none), d) ∧
      (s.get (text "b")).run (machine .asStored) d = ((.ok, some (text "y")), d) := by
  let calls : List (Call × Nat) := [(.put (text "a") (text "x") 0, 3), (.put (text "b") (text "y") 0, 6),
    (.remove (text "a") 0, 6), (.compact, 33)]
  let opts : BitcaskOptions := { maxFileSize := 30 }
  have h : ∃ w ∈ runFresh opts calls, w.Running fun s _ history => s.activeId = 4 ∧
      history = [⟨text "a", some (text "x")⟩, ⟨text "b", some (text "y")⟩, ⟨text "a", none⟩] := by decide +kernel
  obtain ⟨s, d, history, hreach, hactive, hhistory⟩ := exists_running rfl h
  have hget := (hreach.implements_map).1
  refine ⟨s, d, history, hreach, hactive, hhistory, ?_, ?_⟩
  · rw [hget, hhistory]
    rfl
  · rw [hget, hhistory]
    rfl

end World

end KVStore.Bitcask
