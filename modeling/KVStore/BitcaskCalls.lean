import KVStore.BitcaskCompacted

namespace KVStore.Bitcask

open Lib CrashProgram

/-- The operation that puts a record of the caller on disk. -/
def Op.lands : Op → Bool
  | .pwrite (.log _) _ _ => true
  | _ => false

/-- The directory, and whether the record of the current call is on disk. -/
def trackedMachine (listing : Listing) : Machine Op Res (Directory × Bool) where
  exec o t := ((exec listing o t.1).1, (exec listing o t.1).2, t.2 || o.lands)
  torn o t t' := Torn o t.1 t'.1 ∧ t'.2 = t.2

/-- As `Alone`, for the directory and the mark beside it. -/
abbrev Tracked {α : Type} (listing : Listing) (legal : Directory → Prop) (I : Directory × Bool → Prop)
    (Q : α → Directory × Bool → Prop) (p : Io α) (t : Directory × Bool) : Prop :=
  Guarded (trackedMachine listing) Eq (fun t => legal t.1) I Q p t

section Rules

variable {listing : Listing} {legal I : Directory → Prop} {α : Type} {Q : α → Directory → Prop} {p : Io α}
  {d : Directory}

theorem tracked_of_alone (h : Alone listing legal I Q p d) (b : Bool) :
    Tracked listing legal (fun t => I t.1) (fun a t => Q a t.1) p (d, b) := by
  have hcomap := @Guarded.comap _ _ _ _ _ _ _ _ _ _ _ (trackedMachine listing) Prod.fst (fun _ _ => rfl)
    (fun _ _ _ ht => ht.1) (d, b) h
  exact hcomap.weaken (fun _ _ hab => congrArg Prod.fst hab) fun _ hl => hl

theorem tracked_of_quiet (h : Alone listing legal I Q p d) (hquiet : p.All fun o => o.lands = false) (b : Bool) :
    Tracked listing legal (fun t => I t.1 ∧ t.2 = b) (fun a t => Q a t.1 ∧ t.2 = b) p (d, b) := by
  refine (tracked_of_alone h b).frame (fun t => t.2 = b) hquiet ?_ ?_ ?_ rfl
  · rintro _ _ rfl hb
    exact hb
  · intro o t hlands hb
    show (t.2 || o.lands) = b
    rw [hlands, Bool.or_false, hb]
  · intro o t t' _ ht hb
    exact ht.2.trans hb

end Rules

theorem quiet_sync (file : LogFile) : file.sync.All fun o => o.lands = false := by
  unfold LogFile.sync
  split
  · exact ⟨rfl, fun _ => trivial⟩
  · trivial

theorem quiet_rotate (s : Bitcask) : s.rotate.All fun o => o.lands = false := by
  refine (quiet_sync s.active).bind fun r => ?_
  cases r with
  | error => trivial
  | ok =>
    dsimp only
    split
    · trivial
    · refine ⟨rfl, fun r => ?_⟩
      cases r with
      | error => trivial
      | ok =>
        refine ⟨rfl, fun r => ?_⟩
        cases r <;> trivial

theorem quiet_rotateIfNeeded (s : Bitcask) (incoming : Nat) :
    (s.rotateIfNeeded incoming).All fun o => o.lands = false := by
  unfold rotateIfNeeded
  split
  · trivial
  · split
    · trivial
    · exact quiet_rotate s

theorem tracked_append {listing : Listing} {legal : Directory → Prop} {I : Directory × Bool → Prop}
    {d : Directory} {file : LogFile} {id : FileId} (bytes : Bytes) (hopen : file.isOpen = true)
    (hname : file.name = .log id) (hI : I (d, false))
    (htorn : ∀ n, n < bytes.length → I (d.pwrite (.log id) file.endOffset (bytes.take n), false))
    (hI' : I (d.pwrite (.log id) file.endOffset bytes, true)) :
    Tracked listing legal I
      (fun r t => r = (.ok file.endOffset, { file with endOffset := file.endOffset + bytes.length }) ∧
        t = (d.pwrite (.log id) file.endOffset bytes, true))
      (file.append bytes) (d, false) := by
  rw [LogFile.append, if_pos hopen, hname]
  refine Guarded.alone_op hI ?_ fun _ _ => ?_
  · rintro ⟨d', b⟩ ⟨ht, hb⟩
    cases hb
    cases ht with
    | pwrite n short => exact htorn n short
  · cases hmode : file.syncMode with
    | never => exact .alone_ret hI' ⟨by rfl, rfl⟩
    | always =>
      have hopen' : ({ file with endOffset := file.endOffset + bytes.length } : LogFile).isOpen = true := hopen
      dsimp only
      rw [LogFile.sync, if_pos hopen']
      exact Guarded.alone_op hI' (fun _ ht => by cases ht.1) fun _ _ => .alone_ret hI' ⟨rfl, rfl⟩

theorem Room.of_error {s s' : Bitcask} {incoming : Nat} {d d' : Directory} {e : Failure}
    (hr : Room s incoming d (.error e, s') d') : s' = s ∧ d' = d ∧ s.activeId = maxUInt32 := by
  cases hr with
  | rotation full rotation =>
    cases rotation with
    | exhausted max => exact ⟨rfl, rfl, max⟩

variable [Crc]

section Write

variable {listing : Listing} {legal : Directory → Prop} {s : Bitcask} {d : Directory}
  {sealedOnes : DataFiles} {active : DataFile} {history : List Write}

/-- What a call that stands for some writes ends with: they count once it returns Ok. -/
def Finished (s : Bitcask) (history writes : List Write) (r : Except Failure Unit × Bitcask)
    (d : Directory) : Prop :=
  r.2.options = s.options ∧ ∃ sealedOnes active, StoreInv r.2 d sealedOnes active
    (match r.1 with
      | .ok _ => history ++ writes
      | .error _ => history)

/-- What a write makes of the store in memory. -/
inductive Recorded (s : Bitcask) : Bitcask → Prop
  | refused : Recorded s s
  | written {s₁ : Bitcask} (c : Intact) (offset : Nat) (before : s₁ = s ∨ s₁ = s.rotated) :
      Recorded s { s₁.appended c.raw with
        keydir := s₁.keydir.replayRecord s₁.activeId ⟨offset, c.record, c.raw⟩ }

/-- What a compaction does: it seals the active file if it must, then merges. -/
inductive Compaction (s : Bitcask) (d : Directory) (history : List Write) :
    Except Failure Unit × Bitcask → Directory → Prop
  | exhausted (max : s.activeId = maxUInt32) : Compaction s d history (.error idsExhausted, s) d
  | merged {s₁ : Bitcask} {d₁ d' : Directory} {sealedOnes : DataFiles} {r : Except Failure Unit × Bitcask}
      (before : s₁ = s ∨ s₁ = s.rotated) (inv : StoreInv s₁ d₁ sealedOnes ⟨[], []⟩ history)
      (merged : Merged s₁ d₁ sealedOnes ⟨[], []⟩ r d') : Compaction s d history r d'

section

variable (h : StoreInv s d sealedOnes active history)
include h

theorem StoreInv.room {s' : Bitcask} {d' : Directory}
    {incoming : Nat} (hr : Room s incoming d (.ok (), s') d') :
    (s' = s ∨ s' = s.rotated) ∧ ∃ sealedOnes active, StoreInv s' d' sealedOnes active history := by
  cases hr with
  | same => exact ⟨.inl rfl, sealedOnes, active, h⟩
  | rotation full rotation =>
    cases rotation with
    | rotated room => exact ⟨.inr rfl, _, _, h.rotated room⟩

theorem tracked_room (incoming : Nat) (w : Write) (hl : legal d) :
    Tracked listing legal (fun t => Recoverable t.1 (if t.2 then history ++ [w] else history))
      (fun r t => Room s incoming d r t.1 ∧ t.2 = false) (s.rotateIfNeeded incoming) (d, false) := by
  have hopen : s.active.isOpen = true := by
    rw [h.describes.active]
    rfl
  have hroom : Alone listing legal (fun d => Recoverable d history) (Room s incoming d)
      (s.rotateIfNeeded incoming) d :=
    alone_rotateIfNeeded incoming hopen h.describes.files.next_absent (.durable h.durable)
      (fun hmax => .durable (h.rotated hmax).durable) hl
  refine (tracked_of_quiet hroom (quiet_rotateIfNeeded s incoming) false).imp fun t ht => ?_
  rw [ht.2]
  exact ht.1

theorem tracked_record (c : Intact) (hl : legal d) :
    Tracked listing legal (fun t => Recoverable t.1 (if t.2 then history ++ [c.write] else history))
      (fun r t => r = (.ok (bytesOf active.chunks).length, s.appended c.raw) ∧
        t = (d.pwrite (.log s.activeId) (bytesOf active.chunks).length c.raw, true))
      ((s.active.append c.raw).bind fun (r, file) => .ret (r, { s with active := file })) (d, false) := by
  have hactive := h.describes.active
  have hopen : s.active.isOpen = true := by rw [hactive]; rfl
  have hname : s.active.name = .log s.activeId := by rw [hactive]; rfl
  have hend : s.active.endOffset = (bytesOf active.chunks).length := by rw [hactive]; rfl
  have happended := (h.durable.append h.clean c)
  have htorn := fun n hn => h.durable.torn_append h.clean c (n := n) hn
  rw [← hend] at happended htorn ⊢
  refine (tracked_append c.raw hopen hname (.durable h.durable) (fun n hn => .durable (htorn n hn))
    (.durable happended)).withCrash.bind (fun _ => rfl) (fun r t hr _ => ?_) hl
  obtain ⟨hI, rfl, rfl⟩ := hr
  exact .alone_ret hI ⟨rfl, rfl⟩

theorem tracked_write (c : Intact) (hl : legal d) :
    Tracked listing legal
      (fun t => Recoverable t.1 (if t.2 then history ++ [c.write] else history))
      (fun r t => Finished s history [c.write] r t.1 ∧ (s.activeId ≠ maxUInt32 → r.1 = .ok ()) ∧
        Recorded s r.2)
      (s.writeRecord c) (d, false) := by
  refine guarded_andThen (Q := fun r t => (∃ s₁ d₁ sealedOnes active, StoreInv s₁ d₁ sealedOnes active history ∧
      (s₁ = s ∨ s₁ = s.rotated) ∧ r = (.ok (bytesOf active.chunks).length, s₁.appended c.raw) ∧
      t = (d₁.pwrite (.log s₁.activeId) (bytesOf active.chunks).length c.raw, true)) ∨
      (∃ e, r = (.error e, s) ∧ s.activeId = maxUInt32 ∧ t = (d, false))) ?_ hl ?_ ?_
  · refine guarded_andThen (tracked_room h c.raw.length c.write hl) hl ?_ ?_
    · rintro e s' ⟨d', b⟩ ⟨hr, hb⟩
      obtain ⟨rfl, rfl, hmax⟩ := hr.of_error
      cases hb
      exact .inr ⟨e, rfl, hmax, rfl⟩
    · rintro u s₁ ⟨d₁, b⟩ ⟨hr, hb⟩ hl₁
      cases hb
      obtain ⟨hbefore, sealed₁, active₁, h₁⟩ := h.room hr
      exact (tracked_record h₁ c hl₁).mono fun r t ht => .inl ⟨s₁, d₁, sealed₁, active₁, h₁, hbefore, ht⟩
  · rintro e s' t (⟨_, _, _, _, _, _, hr, _⟩ | ⟨e, hr, hmax, rfl⟩)
    · cases hr
    · cases hr
      exact ⟨⟨rfl, _, _, h⟩, fun hne => absurd hmax hne, .refused⟩
  · rintro offset s' t (⟨s₁, d₁, sealed₁, active₁, h₁, hbefore, hr, rfl⟩ | ⟨e, hr, _⟩) _
    · cases hr
      have hdone := h₁.appended c
      have hopts : s₁.options = s.options := by rcases hbefore with rfl | rfl <;> rfl
      exact .alone_ret (.durable hdone.durable) ⟨⟨hopts, _, _, hdone⟩, fun _ => rfl, .written c _ hbefore⟩
    · cases hr

theorem tracked_writing_recorded {key : Key} {value : Value} {w : Write} {p : Io (Except Failure Unit × Bitcask)}
    (hp : s.Writing key value w p) (hl : legal d) :
    Tracked listing legal (fun t => Recoverable t.1 (if t.2 then history ++ [w] else history))
      (fun r t => Finished s history [w] r t.1 ∧
        (key ≠ [] → Record.Fits key value → s.activeId ≠ maxUInt32 → r.1 = .ok ()) ∧ Recorded s r.2)
      p (d, false) := by
  cases hp with
  | refused message bad =>
    exact .alone_ret (.durable h.durable) ⟨⟨rfl, _, _, h⟩, fun hkey hfits => absurd ⟨hkey, hfits⟩ bad, .refused⟩
  | record c accepted size write =>
    subst write
    exact (tracked_write h c hl).mono fun r t ht => ⟨ht.1, fun _ _ => ht.2.1, ht.2.2⟩

theorem tracked_writing {key : Key} {value : Value} {w : Write} {p : Io (Except Failure Unit × Bitcask)}
    (hp : s.Writing key value w p) (hl : legal d) :
    Tracked listing legal (fun t => Recoverable t.1 (if t.2 then history ++ [w] else history))
      (fun r t => Finished s history [w] r t.1 ∧
        (key ≠ [] → Record.Fits key value → s.activeId ≠ maxUInt32 → r.1 = .ok ())) p (d, false) :=
  (tracked_writing_recorded h hp hl).mono fun _ _ hr => ⟨hr.1, hr.2.1⟩

theorem alone_rotate_storeInv (hl : legal d) :
    Alone listing legal (fun d => Recoverable d history) (Rotation s d) s.rotate d := by
  have hopen : s.active.isOpen = true := by
    rw [h.describes.active]
    rfl
  exact alone_rotate hopen h.describes.files.next_absent (.durable h.durable)
    (fun hmax => .durable (h.rotated hmax).durable) hl

theorem StoreInv.rotation {r : Except Failure Unit × Bitcask}
    {d' : Directory} (hr : Rotation s d r d') : Finished s history [] r d' := by
  cases hr with
  | exhausted => exact ⟨rfl, _, _, h⟩
  | rotated room =>
    have hrotated := h.rotated room
    rw [← List.append_nil history] at hrotated
    exact ⟨rfl, _, _, hrotated⟩

theorem StoreInv.active_empty (hend : ¬ 0 < s.active.endOffset) : active = ⟨[], []⟩ := by
  rw [h.describes.active] at hend
  exact DataFile.eq_empty h.clean hend

theorem alone_compact_storeInv (hfail : s.options.failAt = .none) (hl : Legal d) :
    Alone listing Legal (fun d => Recoverable d history) (Compaction s d history) s.compact d := by
  unfold compact
  split
  next hrotate =>
    refine guarded_andThen (alone_rotate_storeInv h hl) hl (fun e s' d' hr => ?_) fun _ s' d' hr hl' => ?_
    · cases hr with
      | exhausted max => exact .exhausted max
    · cases hr with
      | rotated room =>
        exact (alone_mergeSealed_storeInv (h.rotated room) hfail hl').mono fun _ _ =>
          .merged (.inr rfl) (h.rotated room)
  next hend =>
    obtain rfl := h.active_empty hend
    exact (alone_mergeSealed_storeInv h hfail hl).mono fun _ _ => .merged (.inl rfl) h

theorem StoreInv.compaction {r : Except Failure Unit × Bitcask} {d' : Directory}
    (hr : Compaction s d history r d') : Finished s history [] r d' := by
  cases hr with
  | exhausted => exact ⟨rfl, _, _, h⟩
  | merged before inv merged =>
    obtain ⟨hok, sealed₁, active₁, hopts, h₁⟩ := inv.merged merged
    refine ⟨hopts.trans (by rcases before with rfl | rfl <;> rfl), sealed₁, active₁, ?_⟩
    rw [hok, List.append_nil]
    exact h₁

end

end Write

end KVStore.Bitcask
