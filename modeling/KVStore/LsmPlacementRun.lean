import KVStore.LsmPlacements

namespace KVStore

open Lib CrashProgram LsmStore

/-- The table that an operation puts into place, if it does. -/
def Env.putBy (s : Env) : Op → List FileId
  | .renameTable id =>
    match s.tableTemps.lookup id with
    | some (some _) => [id]
    | _ => []
  | _ => []

theorem Env.mem_putBy {s : Env} {o : Op} {id : FileId} (h : id ∈ s.putBy o) :
    o = .renameTable id ∧ ∃ f, s.tableTemps.lookup id = some (some f) := by
  unfold putBy at h
  split at h
  · split at h
    next f hf =>
      cases List.mem_singleton.mp h
      exact ⟨rfl, f, hf⟩
    next => cases h
  · cases h

theorem Env.putBy_cases (s : Env) (o : Op) : s.putBy o = [] ∨ ∃ id, s.putBy o = [id] := by
  unfold putBy
  split
  next id =>
    split
    · exact Or.inr ⟨id, rfl⟩
    · exact Or.inl rfl
  next => exact Or.inl rfl

section Held

variable {s : Env} {o : Op} {b : FileId} {ours : Bool} {held : List FileId}

theorem Op.not_mem_putBy (hnodup : held.Nodup) {id : FileId} (h : id ∈ o.heldAfter s held) : id ∉ s.putBy o := by
  intro hput
  obtain ⟨rfl, _⟩ := Env.mem_putBy hput
  exact hnodup.not_mem_erase h

theorem Op.nodup_heldAfter (hnodup : held.Nodup) (hbelow : ∀ id ∈ held, id < s.nextId) :
    (o.heldAfter s held).Nodup := by
  cases o with
  | fetchNextId =>
    rw [heldAfter, ← List.concat_eq_append]
    exact hnodup.concat fun hid => (hbelow _ hid).false
  | renameTable id => exact hnodup.erase id
  | _ => exact hnodup

/-- A careful operation leaves the manifest's counter, and that of its temp file, at the bound
or above. -/
theorem Op.Careful.floor (h : o.Careful b ours held) (hfloor : b ≤ s.floor)
    (htemp : ours = true → ∀ set, s.manifestTemp = some (some set) → b ≤ set.nextId) (listing : Listing) :
    b ≤ (s.exec listing o).2.floor ∧ (o.oursAfter ours = true → ∀ set,
      (s.exec listing o).2.manifestTemp = some (some set) → b ≤ set.nextId) := by
  cases o with
  | writeManifestTemp =>
    refine ⟨hfloor, fun _ set hset => ?_⟩
    cases hset
    exact h.write _ rfl
  | renameManifest =>
    simp only [Env.exec, Env.renameManifest]
    split
    next set hset => exact ⟨htemp (h.commit rfl) set hset, fun _ _ hset => by cases hset⟩
    next => exact ⟨hfloor, htemp⟩
  | createManifestTemp => exact ⟨hfloor, fun _ _ hset => by cases hset⟩
  | removeTemp name =>
    cases name with
    | manifest => exact ⟨hfloor, fun _ _ hset => by cases hset⟩
    | table => exact ⟨hfloor, htemp⟩
  | renameTable =>
    simp only [Env.exec, Env.renameTable]
    split <;> exact ⟨hfloor, htemp⟩
  | truncateLog =>
    simp only [Env.exec, Env.truncateLog]
    split <;> exact ⟨hfloor, htemp⟩
  | _ => exact ⟨hfloor, htemp⟩

end Held

namespace System

variable {n : Nat} {opts : LsmOptions} {listing : Listing} {s s' : System n} {placed : List FileId} {o : Op}

theorem logIds_performed (ho : o.ofBackground) (pc : Background) :
    (s.performed listing o pc).logIds = s.logIds := by
  have hlogs : (s.performed listing o pc).env.logs = s.env.logs :=
    (advances_exec listing ho s.env).logs
  rw [logIds, logIds, hlogs]
  rfl

/-- The ids that the thread holds after an operation are free again: the one just taken
from the counter is new. -/
theorem FreeId.performed {b : FileId} {ours : Bool} {held : List FileId} (h : s.Custody b ours held placed)
    (hapart : s.IdsApart placed) (hb : s.BackgroundInv True opts listing) (hop : s.nextOp = some o)
    {pc : Background} (hl : Legal True s.shared) (hl' : Legal True (s.performed listing o pc).shared)
    (hpc : pc.isFlushing = false → s.engine.background.isFlushing = false) :
    ∀ id ∈ o.heldAfter s.env held, (s.performed listing o pc).FreeId (s.env.putBy o ++ placed) id := by
  have hlogs := @logIds_performed n listing s o (hb.ofBackground hop) pc
  intro id hid
  have hput := Op.not_mem_putBy h.nodup hid
  rcases Op.mem_heldAfter hid with hid | ⟨rfl, rfl⟩
  · refine (h.free id hid).mono (hb.nextId_le hop hl (hl' trivial)) (fun id _ hid => hlogs ▸ hid) ?_
      fun hflush => ⟨hpc hflush, fun _ _ hid => hid⟩
    exact fun hid => (List.mem_append.mp hid).resolve_left hput
  · obtain ⟨_, hids, _⟩ := hb.promise.point trivial hl
    refine ⟨?_, fun hid => ?_, fun hid => (hapart.below _ hid).false, fun _ hid => ?_⟩
    · exact (fetchNextId_nextId hids.counted (hl' trivial)).ge
    · exact (hapart.logsBelow _ (hlogs ▸ hid)).false
    · exact ((hb.ids trivial).claimed _ hid).below.false

theorem BackgroundInv.floor_le (hb : s.BackgroundInv True opts listing) (hl : Legal True s.shared) :
    s.env.floor ≤ s.env.nextId ∧ ∀ t ∈ s.engine.levels.flatten, t.id < s.env.floor := by
  obtain ⟨_, _, _, m, hm, hbelow, hcommitted⟩ := hb.promise.point trivial hl
  have hfloor : s.env.floor = m := by
    rw [Env.floor]
    rcases hcommitted with hc | hc <;> rw [hc.manifest] <;> rfl
  rw [hfloor]
  exact ⟨hm, hbelow⟩

section

variable (h : s.Placements placed) (hb : s.BackgroundInv True opts listing) (hl : Legal True s.shared)
include h hb hl

/-- One operation of the thread's program, whichever program it is. -/
theorem Placements.performed (hop : s.nextOp = some o) {pc : Background}
    (hl' : Legal True (s.performed listing o pc).shared)
    (hbefore : s.engine.background.unmarked = []) (hafter : pc.unmarked = [])
    (hpc : pc.isFlushing = false → s.engine.background.isFlushing = false)
    (hnext : ∀ b ours held, s.engine.background.Careful b ours held → b ≤ s.env.nextId →
      o.Careful b ours held ∧ pc.Careful b (o.oursAfter ours) (o.heldAfter s.env held)) :
    (s.performed listing o pc).Placements (s.env.putBy o ++ placed) := by
  have ho := hb.ofBackground hop
  have hle : s.env.nextId ≤ (s.performed listing o pc).env.nextId := hb.nextId_le hop hl (hl' trivial)
  obtain ⟨b, ours, held, hholds⟩ := h.holds
  have ⟨hcareful, hnodup, hfree, hcounted⟩ := hholds
  obtain ⟨howed, hcareful'⟩ := hnext b ours held hcareful hcounted.counter
  have hput : ∀ id ∈ s.env.putBy o, s.FreeId placed id := fun id hid =>
    hfree id (howed.place id (Env.mem_putBy hid).1)
  refine ⟨?_, fun hok hflush id hid hm => ?_, b, _, _, hcareful', ?_, ?_, ?_⟩
  · have happend : s.IdsApart (s.env.putBy o ++ placed) := by
      rcases s.env.putBy_cases o with he | ⟨id, he⟩
      · rw [he]
        exact h.apart
      · rw [he] at hput ⊢
        have hid := hput id (List.mem_singleton_self id)
        exact h.apart.put hid.new hid.below hid.log
    exact happend.mono hle (fun id hid => logIds_performed ho pc ▸ hid) fun _ hid => hid
  · rcases List.mem_append.mp hm with hm | hm
    · exact (hput id hm).unclaimed (hpc hflush) hid
    · exact h.unplaced hok (hpc hflush) id hid hm
  · exact Op.nodup_heldAfter hnodup fun id hid => (hfree id hid).below
  · exact FreeId.performed hholds h.apart hb hop hl hl' hpc
  · obtain ⟨hfloor, htemp⟩ := howed.floor hcounted.floor hcounted.temp listing
    refine ⟨hcounted.counter.trans hle, hfloor, htemp, fun id hid => ?_, fun t ht => hcounted.leaving t ?_⟩
    · rcases List.mem_append.mp hid with hid | hid
      · right
        obtain ⟨rfl, f, hf⟩ := Env.mem_putBy hid
        simp [System.performed, System.setBackground, Env.exec, Env.renameTable, hf]
      · exact (hcounted.placed id hid).imp_right (Env.lookup_exec_ne_none ho s.env)
    · rw [hbefore]
      simpa [System.performed, System.setBackground, hafter] using ht

/-- The thread goes on with another program, and begins it with the ids `held`. -/
theorem Placements.resume {e : Engine n} (held : List FileId) (hclients : e.clients = s.engine.clients)
    (hclaimed : ∀ id ∈ e.claimed, id ∈ s.engine.claimed)
    (hunplaced : e.backgroundStatus.isOk = true → e.background.isFlushing = false → ∀ id ∈ e.claimed, id ∉ placed)
    (hleaving : ∀ t ∈ e.background.unmarked ++ e.obsolete,
      t ∈ s.engine.background.unmarked ++ s.engine.obsolete ∨ t.id < s.env.floor)
    (hcareful : e.background.Careful s.env.floor false held) (hnodup : held.Nodup)
    (hfree : ∀ id ∈ held, FreeId placed { s with engine := e } id) :
    Placements placed { s with engine := e } := by
  have hlogs : ({ s with engine := e } : System n).logIds = s.logIds := by
    rw [logIds, logIds, pendingLogs, pendingLogs, hclients]
  obtain ⟨b, _, _, _, _, _, hcounted⟩ := h.holds
  refine ⟨h.apart.mono le_rfl (fun id hid => hlogs ▸ hid) hclaimed, hunplaced, s.env.floor, false, held, hcareful,
    hnodup, hfree, (hb.floor_le hl).1, le_rfl, fun hours => absurd hours Bool.false_ne_true, fun id hid => ?_, fun t ht => ?_⟩
  · exact (hcounted.placed id hid).imp_left fun hlt => hlt.trans_le hcounted.floor
  · exact (hleaving t ht).elim (fun ht => (hcounted.leaving t ht).trans_le hcounted.floor) fun hlt => hlt

theorem Placements.turn {e e' : Engine n} (turn : Engine.LoopTurn opts s.env e e')
    (hclients : e.clients = s.engine.clients) (hz : s.engine.SameFrozen e) (hobsolete : e.obsolete = s.engine.obsolete)
    (hunplaced : e.backgroundStatus.isOk = true → ∀ id ∈ s.engine.claimed, id ∉ placed) :
    Placements placed { s with engine := e' } := by
  have hclaimed := hz.claimed_eq
  have hleaving : ∀ t ∈ [] ++ e.obsolete, t ∈ s.engine.background.unmarked ++ s.engine.obsolete ∨ t.id < s.env.floor :=
    fun t ht => Or.inl (List.mem_append_right _ (hobsolete ▸ ht))
  have hkept : e.backgroundStatus.isOk = true → ∀ id ∈ e.claimed, id ∉ placed := hclaimed ▸ hunplaced
  cases turn with
  | exit | sleep | halt | undefined =>
    exact h.resume hb hl [] hclients (fun _ hid => hclaimed ▸ hid) (fun hok _ => hkept hok) hleaving trivial
      List.nodup_nil (List.forall_mem_nil _)
  | @flush table busy frozen =>
    refine h.resume hb hl [e.immTableId] hclients (fun _ hid => hclaimed ▸ hid) (fun hok _ => hkept hok) hleaving
      (careful_buildTable _ _ _ List.mem_cons_self (hb.floor_le hl).1) (List.nodup_singleton _) fun id hid => ?_
    have hok : e.backgroundStatus.isOk = true := by
      simp only [Engine.idle, Bool.or_eq_false_iff, Bool.not_eq_false'] at busy
      exact busy.1.2
    have hmem : id ∈ e.claimed := by simpa [Engine.claimed, frozen] using hid
    have hlog := h.apart.claimed id (hclaimed ▸ hmem)
    rw [logIds, pendingLogs, ← hclients] at hlog
    exact ⟨((hb.ids trivial).claimed id (hclaimed ▸ hmem)).below, hlog, hkept hok id hmem,
      fun hpc => absurd rfl (Bool.eq_false_iff.mp hpc)⟩
  | compact =>
    exact h.resume hb hl [] hclients (fun _ hid => hclaimed ▸ hid) (fun hok _ => hkept hok) hleaving
      (careful_writeCompaction _ _) List.nodup_nil (List.forall_mem_nil _)

end

def puts (s : System n) : List FileId := (s.nextOp.map s.env.putBy).getD []

theorem BackgroundStep.env_of_nextOp (h : BackgroundStep opts listing s s')
    (ho : s.nextOp = some o) : s'.env = (s.env.exec listing o).2 := by
  unfold nextOp at ho
  cases h with
  | flushOp pc | compactOp pc | renameOp pc | commitOp pc =>
    rw [pc] at ho
    cases ho
    rfl
  | compactFailed pc => rcases pc with pc | ⟨_, pc⟩ | pc <;> rw [pc] at ho <;> cases ho
  | turn pc | flushFailed pc | flushInstalled pc | retire pc | flushEnded pc | written pc | renamed pc
  | installed pc | mark pc | runEnded pc | runExhausted pc | nextUndefined pc | nextWork pc =>
    rw [pc] at ho
    cases ho

section Step

variable (h : s.Placements placed) (hb : s.BackgroundInv True opts listing) (hl : Legal True s.shared)
  (hl' : Legal True s'.shared)

include h hb hl hl'

theorem Placements.background (hstep : BackgroundStep opts listing s s') : s'.Placements (s.puts ++ placed) := by
  have hquiet : s.nextOp = none → s.puts = [] := fun he => by rw [puts, he]; rfl
  have hkept {pc : Background} (hpc : s.engine.background = pc) (hflush : pc.isFlushing = false)
      (hok : s.engine.backgroundStatus.isOk = true) : ∀ id ∈ s.engine.claimed, id ∉ placed :=
    h.unplaced hok (hpc ▸ hflush)
  have hfailed (f : Failure) : (s.engine.failed f).backgroundStatus.isOk = true →
      ∀ id ∈ s.engine.claimed, id ∉ placed := fun hok => absurd (f.bad.symm.trans hok) Bool.false_ne_true
  have hsame : ∀ t ∈ s.engine.obsolete, t ∈ s.engine.background.unmarked ++ s.engine.obsolete ∨ t.id < s.env.floor :=
    fun t ht => Or.inl (List.mem_append_right _ ht)
  cases hstep with
  | turn pc next | flushEnded pc next | runEnded pc _ next =>
    rw [hquiet (by rw [nextOp, pc])]
    exact h.turn hb hl next rfl ⟨rfl, rfl, rfl⟩ rfl (hkept pc rfl)
  | flushFailed pc next | runExhausted pc next =>
    rw [hquiet (by rw [nextOp, pc])]
    exact h.turn hb hl next rfl ⟨rfl, rfl, rfl⟩ rfl (hfailed _)
  | compactFailed pc next =>
    rw [hquiet (by rcases pc with pc | ⟨_, pc⟩ | pc <;> rw [nextOp, pc])]
    exact h.turn hb hl next rfl ⟨rfl, rfl, rfl⟩ rfl (hfailed _)
  | @flushOp _ o _ pc | @compactOp _ _ o _ pc | @renameOp _ _ _ o _ pc | @commitOp _ _ o _ pc =>
    have ho : s.nextOp = some o := by rw [nextOp, pc]
    rw [puts, ho]
    refine h.performed hb hl ho hl' (by rw [pc]; rfl) rfl (fun hflush => ?_) fun b ours held hcareful hle => ?_
    · rw [pc]
      exact hflush
    · rw [pc] at hcareful
      exact KVStore.Careful.next hcareful listing hle
  | flushInstalled pc =>
    rw [hquiet (by rw [nextOp, pc])]
    exact h.resume hb hl [] rfl (List.forall_mem_nil _) (fun _ _ => List.forall_mem_nil _) hsame trivial List.nodup_nil (List.forall_mem_nil _)
  | retire pc =>
    rw [hquiet (by rw [nextOp, pc])]
    obtain ⟨b, ours, _, _, _, _, hcounted⟩ := h.holds
    have hleaving := hcounted.leaving
    rw [pc] at hleaving
    refine ⟨h.apart.mono le_rfl (fun id hid => ?_) fun _ hid => hid, fun hok _ => hkept pc rfl hok,
      b, ours, [], trivial, List.nodup_nil, List.forall_mem_nil _, hcounted.counter, hcounted.floor, hcounted.temp, hcounted.placed, hleaving⟩
    rw [mem_logIds] at hid ⊢
    exact hid.imp_right fun hid => (AList.mem_erase.mp hid).2
  | @written run work ids pc =>
    rw [hquiet (by rw [nextOp, pc])]
    obtain ⟨_, _, held, hcareful, hnodup, hfree, _⟩ := h.holds
    rw [pc] at hcareful
    cases hcareful ids rfl
    refine h.resume hb hl ids rfl (fun _ hid => hid) (fun hok _ => hkept pc rfl hok) hsame
      (careful_renameOutputs _) hnodup fun id hid => ?_
    exact (hfree id hid).mono le_rfl (fun _ _ hid => hid) (fun hid => hid) fun _ => ⟨by rw [pc]; rfl, fun _ _ hid => hid⟩
  | renamed pc =>
    rw [hquiet (by rw [nextOp, pc])]
    exact h.resume hb hl [] rfl (fun _ hid => hid) (fun hok _ => hkept pc rfl hok) hsame
      (careful_commitCompaction _ _ _) List.nodup_nil (List.forall_mem_nil _)
  | nextWork pc =>
    rw [hquiet (by rw [nextOp, pc])]
    exact h.resume hb hl [] rfl (fun _ hid => hid) (fun hok _ => hkept pc rfl hok) hsame
      (careful_writeCompaction _ _) List.nodup_nil (List.forall_mem_nil _)
  | nextUndefined pc =>
    rw [hquiet (by rw [nextOp, pc])]
    exact h.resume hb hl [] rfl (fun _ hid => hid) (fun hok _ => hkept pc rfl hok) hsame trivial
      List.nodup_nil (List.forall_mem_nil _)
  | installed pc =>
    rw [hquiet (by rw [nextOp, pc])]
    refine h.resume hb hl [] rfl (fun _ hid => hid) (fun hok _ => hkept pc rfl hok) (fun t ht => ?_) trivial
      List.nodup_nil (List.forall_mem_nil _)
    have hpromise := hb.promise
    rw [pc] at hpromise
    rcases List.mem_append.mp ht with ht | ht
    · exact Or.inr ((hb.floor_le hl).2 t ((hpromise.1.tables_sublist hb.shaped).subset ht))
    · exact hsame t ht
  | mark pc =>
    rw [hquiet (by rw [nextOp, pc])]
    refine h.resume hb hl [] rfl (fun _ hid => hid) (fun hok _ => hkept pc rfl hok) (fun t ht => ?_) trivial
      List.nodup_nil (List.forall_mem_nil _)
    rw [pc]
    exact Or.inl ht

theorem Placements.step {a : Action n} (hstep : Step opts listing s a s') :
    s'.env.tableTemps = s.env.tableTemps ∧ s'.Placements placed ∨
      BackgroundStep opts listing s s' ∧ s'.Placements (s.puts ++ placed) := by
  have hothers : IdsByOthers s s' → s'.env.tableTemps = s.env.tableTemps ∧
      s'.Placements placed := fun ho =>
    ⟨(ho.others.moved _ fun _ hid => hid).tableTemps, h.others hb ho hl hl'⟩
  cases hstep with
  | @call c call =>
    left
    have henter := enter_cases (s.note (.invoke c call)) c call
    obtain ⟨henv, hz⟩ := henter.sameFrozen
    refine hothers (idsByOthers_of_same (byOthers_of_same henter.untouched (henv ▸ .refl _) hz)
      henter.untouched (henv ▸ .refl _) hz fun id hid => ?_)
    exact henter.logIds hid
  | client next => exact Or.inl (hothers (idsByOthers_client next))
  | background next => exact Or.inr ⟨next, h.background hb hl hl' next⟩
  | unlink hobsolete => exact Or.inl (hothers (idsByOthers_unlink hobsolete))
  | stop =>
    refine Or.inl (hothers ⟨?_, rfl, fun t ht => ht, fun id hid => Or.inl hid,
      fun _ _ id hid => Or.inl hid, fun _ _ hapart => hapart.claimed⟩)
    exact ⟨rfl, rfl, fun _ _ => ⟨rfl, rfl, rfl⟩, fun _ hid => hid, fun _ _ => OtherThreads.refl _⟩

end Step

theorem Placements.floor (h : s.Placements placed) :
    ∀ id ∈ placed, id < s.env.floor ∨ s.env.tables.lookup id ≠ none := by
  obtain ⟨b, _, _, _, _, _, hcounted⟩ := h.holds
  exact fun id hid => (hcounted.placed id hid).imp_left fun hlt => hlt.trans_le hcounted.floor

end System

end KVStore
