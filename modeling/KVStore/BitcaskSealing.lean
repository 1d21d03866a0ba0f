import KVStore.BitcaskOpens
import KVStore.BitcaskShortWrite

namespace KVStore.Bitcask

open Lib CrashProgram

theorem idle_rotated_iff {s : Bitcask} : s.rotated.Idle ↔
    s.sealedFiles = [] ∧ (s.keydir.deadBytes.lookup s.activeId).getD 0 = 0 := by
  have hsealed : s.rotated.sealedFiles = s.sealedFiles ++ [(s.activeId, s.active)] := rfl
  unfold Idle
  rw [hsealed]
  cases s.sealedFiles with
  | nil => simp [rotated]
  | cons => simp

def leftover (s : Bitcask) (d : Directory) : Bytes :=
  ((d.lookup s.active.name).getD []).drop s.active.endOffset

/-- The call seals the active file and leaves it as it is. A merge replaces the file it
has just sealed, unless there is nothing to merge. -/
def Call.Seals (s : Bitcask) : Call → Prop
  | .put key value _ => key ≠ [] ∧ Record.Fits key value ∧
      s.Full (Record.kHeaderSize + key.length + value.length)
  | .remove key _ => key ≠ [] ∧ Record.Fits key [] ∧ s.Full (Record.kHeaderSize + key.length)
  | .rotate => True
  | .compact => 0 < s.active.endOffset ∧ s.sealedFiles = [] ∧ (s.keydir.deadBytes.lookup s.activeId).getD 0 = 0

instance (s : Bitcask) (size : Nat) : Decidable (s.Full size) := inferInstanceAs (Decidable (_ ∧ _))

instance (s : Bitcask) : (call : Call) → Decidable (call.Seals s)
  | .put _ _ _ => inferInstanceAs (Decidable (_ ∧ _))
  | .remove _ _ => inferInstanceAs (Decidable (_ ∧ _))
  | .rotate => inferInstanceAs (Decidable True)
  | .compact => inferInstanceAs (Decidable (_ ∧ _))

section

variable [Crc]

/-- A file is only sealed when the bytes past its end verify. -/
def Safe (s : Bitcask) (d : Directory) (call : Call) : Prop :=
  s.activeId ≠ maxUInt32 → call.Seals s → Verifies (leftover s d)

instance (s : Bitcask) (d : Directory) (call : Call) : Decidable (Safe s d call) :=
  inferInstanceAs (Decidable (_ → _ → _))

/-- Every sealed file verifies to its full length on disk. -/
def SealedVerify (s : Bitcask) (d : Directory) : Prop :=
  ∀ f ∈ s.sealedFiles, ∃ content, d.lookup f.2.name = some content ∧ Verifies content

/-- Stores reached from an empty directory by calls, each of them safe, in which any
append may fall short, and by closing and opening again. -/
inductive SafelyReached (listing : Listing) : Bitcask → Directory → Prop
  | opened {opts : BitcaskOptions} {s : Bitcask} {d : Directory} (failAt : opts.failAt = .none)
      (runs : CleanRuns listing (recover opts) ∅ (.ok s) d) : SafelyReached listing s d
  | call {s s' : Bitcask} {d d' : Directory} {call : Call} {r : Except Failure Unit}
      (reached : SafelyReached listing s d) (safe : Safe s d call)
      (runs : FaultyRuns listing (call.program s) d (r, s') d') : SafelyReached listing s' d'
  | reopened {opts : BitcaskOptions} {s s' : Bitcask} {d d' : Directory}
      (reached : SafelyReached listing s d) (failAt : opts.failAt = .none)
      (runs : CleanRuns listing (recover opts) d (.ok s') d') : SafelyReached listing s' d'

section Files

variable {listing : Listing} {s s' : Bitcask} {d d' : Directory} {sealedOnes : DataFiles}
  {active : DataFile} {r : Except Failure Unit} {call : Call}

section

variable (h : Describes s d sealedOnes active)
include h

theorem Describes.leftover : leftover s d = active.tail := by
  have hfile := h.files.active_mem
  rw [Bitcask.leftover, h.active, openedFile]
  rw [hfile, Option.getD_some, DataFile.bytes, List.drop_left]

theorem sealedVerify_iff :
    SealedVerify s d ↔ ∀ f ∈ sealedOnes, Verifies f.2.bytes := by
  unfold SealedVerify
  rw [h.sealedFiles]
  constructor
  · intro hverify f hf
    obtain ⟨content, hcontent, hv⟩ := hverify _ (List.mem_map_of_mem hf)
    cases hcontent.symm.trans (h.files.lookup (List.mem_append_left _ hf))
    exact hv
  · intro hverify f hf
    obtain ⟨g, hg, rfl⟩ := List.mem_map.mp hf
    exact ⟨_, h.files.lookup (List.mem_append_left _ hg), hverify g hg⟩

/-- What a call leaves behind: it keeps to files that verify, or seals the active file. -/
inductive Outcome (s : Bitcask) (d : Directory) (sealedOnes : List (FileId × DataFile)) (active : DataFile)
    (call : Call) (s' : Bitcask) (d' : Directory) : Prop
  | kept {sealedOnes' : List (FileId × DataFile)} {active' : DataFile}
      (unsealed : ¬ (s.activeId ≠ maxUInt32 ∧ call.Seals s)) (describes : Describes s' d' sealedOnes' active')
      (verified : ∀ f ∈ sealedOnes', Verifies f.2.bytes)
  | sealed {active' : DataFile} (room : s.activeId ≠ maxUInt32) (seals : call.Seals s)
      (describes : Describes s' d' (sealedOnes ++ [(s.activeId, active)]) active')
      (unhinted : d'.lookup (.hint s.activeId) = none)

theorem Merged.outcome {r : Except Failure Unit × Bitcask}
    (hr : Merged s d sealedOnes active r d') :
    (s.Idle ∧ r.2 = s ∧ d' = d) ∨ (¬ s.Idle ∧ r.2.options = s.options ∧
      ∃ sealedOnes', Describes r.2 d' sealedOnes' active ∧ ∀ f ∈ sealedOnes', Verifies f.2.bytes) := by
  cases hr with
  | idle idle => exact .inl ⟨idle, rfl, rfl⟩
  | merged busy inputs small moved replaced =>
    refine .inr ⟨busy, rfl, _, h.compacted inputs _ replaced, fun f hf => ?_⟩
    rw [List.mem_singleton.mp hf, verifies_iff]
    exact ⟨_, List.append_nil _⟩

theorem Describes.rotated_unhinted :
    (d.openFile (.log (s.activeId + 1))).lookup (.hint s.activeId) = none := by
  rw [Directory.lookup_openFile_ne (by simp), h.unhinted]

end

section

variable (h : Describes s d sealedOnes active) (hverify : ∀ f ∈ sealedOnes, Verifies f.2.bytes)
include h hverify

theorem rotate_outcome (hl : Legal d) (hruns : FaultyRuns listing s.rotate d (r, s') d') :
    s'.options = s.options ∧ Outcome s d sealedOnes active .rotate s' d' := by
  cases runs_rotate h hl hruns with
  | exhausted max => exact ⟨rfl, .kept (fun hseals => hseals.1 max) h hverify⟩
  | rotated room => exact ⟨rfl, .sealed room trivial (h.rotated room) h.rotated_unhinted⟩

theorem compact_outcome (hfail : s.options.failAt = .none) (hl : Legal d)
    (hruns : FaultyRuns listing s.compact d (r, s') d') :
    s'.options = s.options ∧ Outcome s d sealedOnes active .compact s' d' := by
  unfold compact at hruns
  split at hruns
  next hend =>
    obtain ⟨⟨r₀, s₀⟩, d₀, hrotate, hmerge⟩ := hruns.of_bind
    have hl₀ := hrotate.ends_legal hl
    cases runs_rotate h hl hrotate with
    | exhausted max =>
      cases hmerge.of_ret
      exact ⟨rfl, .kept (fun hseals => hseals.1 max) h hverify⟩
    | rotated room =>
      have hrotated := h.rotated room
      rcases (runs_mergeSealed hrotated hfail hl₀ hmerge).outcome hrotated with
        ⟨hidle, hs, rfl⟩ | ⟨hbusy, hopts, sealed', hdescribes, hverify'⟩
      · dsimp only at hs
        subst hs
        exact ⟨rfl, .sealed room ⟨hend, idle_rotated_iff.mp hidle⟩ hrotated h.rotated_unhinted⟩
      · exact ⟨hopts, .kept (fun hseals => hbusy (idle_rotated_iff.mpr hseals.2.2)) hdescribes hverify'⟩
  next hend =>
    have hunsealed : ¬ (s.activeId ≠ maxUInt32 ∧ Call.Seals s .compact) := fun hseals => hend hseals.2.1
    rcases (runs_mergeSealed h hfail hl hruns).outcome h with
      ⟨_, hs, rfl⟩ | ⟨_, hopts, sealed', hdescribes, hverify'⟩
    · dsimp only at hs
      subst hs
      exact ⟨rfl, .kept hunsealed h hverify⟩
    · exact ⟨hopts, .kept hunsealed hdescribes hverify'⟩

theorem writing_outcome {key : Key} {value : Value} {w : Write} {p : Io (Except Failure Unit × Bitcask)}
    (hp : s.Writing key value w p) (hl : Legal d) (hcall : call.Seals s ↔
      key ≠ [] ∧ Record.Fits key value ∧ s.Full (Record.kHeaderSize + key.length + value.length))
    (hruns : FaultyRuns listing p d (r, s') d') :
    s'.options = s.options ∧ Outcome s d sealedOnes active call s' d' := by
  rw [← and_assoc] at hcall
  cases hp with
  | refused message bad =>
    cases hruns.of_ret
    exact ⟨rfl, .kept (fun hseals => bad (hcall.mp hseals.2).1) h hverify⟩
  | record c accepted size =>
    rw [← size] at hcall
    rcases write_outcome h c hl hruns with ⟨hunsealed, hopts, active', hdescribes⟩ |
      ⟨room, hfull, hopts, hhint, active', hdescribes⟩
    · exact ⟨hopts, .kept (fun hseals => hunsealed ⟨hseals.1, (hcall.mp hseals.2).2⟩) hdescribes hverify⟩
    · exact ⟨hopts, .sealed room (hcall.mpr ⟨accepted, hfull⟩) hdescribes hhint⟩

theorem call_outcome (hfail : s.options.failAt = .none) (hl : Legal d) (call : Call)
    (hruns : FaultyRuns listing (call.program s) d (r, s') d') :
    s'.options = s.options ∧ Outcome s d sealedOnes active call s' d' := by
  cases call with
  | put key value now => exact writing_outcome h hverify (writing_put s key value now) hl Iff.rfl hruns
  | remove key now => exact writing_outcome h hverify (writing_remove s key now) hl Iff.rfl hruns
  | rotate => exact rotate_outcome h hverify hl hruns
  | compact => exact compact_outcome h hverify hfail hl hruns

theorem Outcome.opens_iff (ho : Outcome s d sealedOnes active call s' d') :
    (Opens listing d' ↔ Safe s d call) ∧ (SealedVerify s' d' ↔ Safe s d call) := by
  unfold Safe
  rw [h.leftover]
  cases ho with
  | kept unsealed describes verified =>
    have hsafe : s.activeId ≠ maxUInt32 → call.Seals s → Verifies active.tail :=
      fun room seals => absurd ⟨room, seals⟩ unsealed
    exact ⟨iff_of_true (opens_of_verified listing describes.files describes.hints verified) hsafe,
      iff_of_true ((sealedVerify_iff describes).mpr verified) hsafe⟩
  | sealed room seals describes unhinted =>
    have hall : (∀ f ∈ sealedOnes ++ [(s.activeId, active)], Verifies f.2.bytes) ↔ Verifies active.tail := by
      rw [List.forall_mem_append, and_iff_right hverify, List.forall_mem_singleton]
      exact verifies_append active.chunks active.tail
    have hsafe : (s.activeId ≠ maxUInt32 → call.Seals s → Verifies active.tail) ↔ Verifies active.tail :=
      ⟨fun h => h room seals, fun h _ _ => h⟩
    rw [hsafe, sealedVerify_iff describes, hall]
    refine ⟨⟨fun hopens => ?_, fun htail => ?_⟩, Iff.rfl⟩
    · have hactive := verifies_of_opens describes.files hopens
        (List.mem_append_right _ (List.mem_singleton_self _)) unhinted
      exact (verifies_append active.chunks active.tail).mp hactive
    · exact opens_of_verified listing describes.files describes.hints (hall.mpr htail)

end

end Files

section Reached

variable {listing : Listing} {s s' : Bitcask} {d d' : Directory} {opts : BitcaskOptions}

def FaultInv (s : Bitcask) (d : Directory) : Prop :=
  s.options.failAt = .none ∧ Legal d ∧ ∃ sealedOnes active, Describes s d sealedOnes active ∧
    ∀ f ∈ sealedOnes, Verifies f.2.bytes

theorem FaultInv.recovered {history : List Write} (hd : Recoverable d history)
    (hl : Legal d) (hfail : opts.failAt = .none) (hruns : CleanRuns listing (recover opts) d (.ok s) d') :
    FaultInv s d' := by
  obtain ⟨sealedOnes, activeId, active, hr, hs⟩ :=
    alone_cleanRuns hd.alone_recover (fun _ _ => trivial) hl hruns
  cases hr
  refine ⟨hfail, hruns.ends_legal hl, sealedOnes, active, hs.describes, fun f hf => ?_⟩
  rw [verifies_iff, DataFile.bytes, hs.durable.whole f hf, List.append_nil]
  exact ⟨_, rfl⟩

theorem FaultInv.reopened (h : FaultInv s d) (hfail : opts.failAt = .none)
    (hruns : CleanRuns listing (recover opts) d (.ok s') d') : FaultInv s' d' := by
  obtain ⟨_, hl, sealedOnes, active, hdescribes, hverify⟩ := h
  obtain ⟨s₁, d₁, wholes, active', hrun, hopts, hdescribes', hwhole, _⟩ :=
    run_recover_verified listing opts hdescribes.files hdescribes.hints hverify
  cases hruns.run_eq.symm.trans hrun
  refine ⟨hopts ▸ hfail, hruns.ends_legal hl, wholes, active', hdescribes', fun f hf => ?_⟩
  rw [verifies_iff, DataFile.bytes, hwhole f hf, List.append_nil]
  exact ⟨_, rfl⟩

theorem FaultInv.call {call : Call} {r : Except Failure Unit} (h : FaultInv s d) (hsafe : Safe s d call)
    (hruns : FaultyRuns listing (call.program s) d (r, s') d') : FaultInv s' d' := by
  obtain ⟨hfail, hl, sealedOnes, active, hdescribes, hverify⟩ := h
  obtain ⟨hopts, ho⟩ := call_outcome hdescribes hverify hfail hl call hruns
  refine ⟨hopts ▸ hfail, hruns.ends_legal hl, ?_⟩
  cases ho with
  | kept unsealed describes verified => exact ⟨_, _, describes, verified⟩
  | sealed room seals describes =>
    refine ⟨_, _, describes, ?_⟩
    rw [List.forall_mem_append, and_iff_right hverify, List.forall_mem_singleton]
    have htail := hsafe room seals
    rw [hdescribes.leftover] at htail
    exact (verifies_append active.chunks active.tail).mpr htail

theorem SafelyReached.inv (h : SafelyReached listing s d) : FaultInv s d := by
  induction h with
  | opened failAt runs =>
    have hempty : Recoverable (∅ : Directory) [] := .fresh (fun _ => rfl) (fun _ => rfl) rfl
    have hlegal : Legal (∅ : Directory) := fun _ _ h => nomatch h
    exact .recovered hempty hlegal failAt runs
  | call _ safe runs ih => exact ih.call safe runs
  | reopened _ failAt runs ih => exact ih.reopened failAt runs

/-- As long as every call is safe the directory opens, and the first call that is not
safe leaves one that does not. -/
theorem opens_after_call_iff (h : SafelyReached listing s d) {call : Call} {r : Except Failure Unit}
    (hruns : FaultyRuns listing (call.program s) d (r, s') d') :
    (Opens listing d' ↔ Safe s d call) ∧ (SealedVerify s' d' ↔ Safe s d call) := by
  obtain ⟨hfail, hl, sealedOnes, active, hdescribes, hverify⟩ := h.inv
  exact (call_outcome hdescribes hverify hfail hl call hruns).2.opens_iff hdescribes hverify

end Reached

end

/-- A put that fails after five bytes does no harm by itself. -/
theorem opens_after_short_write :
    ∃ (s s' : Bitcask) (d d' : Directory) (e : Failure), SafelyReached .asStored s d ∧
      FaultyRuns .asStored (s.put (text "a") (text "x") 0) d (.error e, s') d' ∧ (leftover s' d').length = 5 ∧
      Opens .asStored d' ∧ SealedVerify s' d' := by
  have h : ∃ o ∈ runClean (recover {}) ∅, Returned (fun s₀ d₀ => Safe s₀ d₀ (.put (text "a") (text "x") 0) ∧
      ∃ o ∈ runShort (s₀.put (text "a") (text "x") 0) 5 [true] d₀, o.1.1.isOk = false ∧
        (leftover o.1.2 o.2).length = 5) o := by decide +kernel
  obtain ⟨_, hopened, s₀, d₀, rfl, hsafe, ⟨⟨r₁, s₁⟩, d₁⟩, hput, hfailed, hleft⟩ := h
  cases r₁ with
  | ok => cases hfailed
  | error e =>
    have hreached : SafelyReached .asStored s₀ d₀ := .opened rfl (cleanRuns_of_runClean hopened)
    have hruns := faultyRuns_of_runShort hput
    have hiff := @opens_after_call_iff _ _ _ _ _ _ hreached (.put (text "a") (text "x") 0) _ hruns
    exact ⟨s₀, s₁, d₀, d₁, e, hreached, hruns, hleft, hiff.1.mpr hsafe, hiff.2.mpr hsafe⟩

/-- The second put fails after five bytes; the third one seals the file with them. -/
theorem opening_fails_after_sealing_leftover :
    ∃ (s s' : Bitcask) (d d' : Directory), SafelyReached .asStored s d ∧ (leftover s d).length = 5 ∧
      FaultyRuns .asStored (s.put (text "c") (text "0123456789") 0) d (.ok (), s') d' ∧
      ∃ d'', (recover {}).run (machine .asStored) d' = (.error (damaged (.log 1) 23), d'') := by
  let opts : BitcaskOptions := { maxFileSize := 50 }
  have h : ∃ o ∈ runClean (recover opts) ∅, Returned (fun s₀ d₀ => Safe s₀ d₀ (.put (text "a") (text "x") 0) ∧
      ∃ o₁ ∈ runShort (s₀.put (text "a") (text "x") 0) 5 [] d₀, Safe o₁.1.2 o₁.2 (.put (text "b") (text "y") 0) ∧
      ∃ o₂ ∈ runShort (o₁.1.2.put (text "b") (text "y") 0) 5 [true] o₁.2, (leftover o₂.1.2 o₂.2).length = 5 ∧
      decide (∃ o₃ ∈ runShort (o₂.1.2.put (text "c") (text "0123456789") 0) 5 [] o₂.2, o₃.1.1 = .ok () ∧
        ((recover {}).run (machine .asStored) o₃.2).1.map (fun _ => ()) = .error (damaged (.log 1) 23))) o := by
    decide +kernel
  obtain ⟨_, hopened, s₀, d₀, rfl, hsafe₀, ⟨⟨r₁, s₁⟩, d₁⟩, hfirst, hsafe₁, ⟨⟨r₂, s₂⟩, d₂⟩, hsecond, hleft, h⟩ := h
  obtain ⟨⟨⟨r₃, s₃⟩, d₃⟩, hthird, rfl, hfails⟩ := of_decide_eq_true h
  have hreached₁ : SafelyReached .asStored s₁ d₁ :=
    .call (.opened rfl (cleanRuns_of_runClean hopened)) hsafe₀ (faultyRuns_of_runShort hfirst)
  have hreached : SafelyReached .asStored s₂ d₂ :=
    .call hreached₁ hsafe₁ (faultyRuns_of_runShort hsecond)
  refine ⟨s₂, s₃, d₂, d₃, hreached, hleft, faultyRuns_of_runShort hthird, _, Prod.ext ?_ rfl⟩
  dsimp only at hfails ⊢
  cases hr : ((recover {}).run (machine .asStored) d₃).1 with
  | ok s =>
    rw [hr] at hfails
    cases hfails
  | error e =>
    rw [hr] at hfails
    cases hfails
    rfl

end KVStore.Bitcask
