import KVStore.LsmPrograms
import KVStore.CompactionMeaning

namespace KVStore

open Lib CrashProgram

/-- One past the number of ids that can be handed out before the counter wraps. -/
def idLimit : Nat := fileIdLimit - 1

/-- The manifest describes these levels, and every table is in place under its id. -/
structure Committed (env : Env) (levels : Levels) (nextId : FileId) : Prop where
  manifest : env.manifest = some (levelSetOf levels nextId)
  files : ∀ t ∈ levels.flatten, env.tables.lookup t.id = some t.file
  below : ∀ t ∈ levels.flatten, t.id < nextId
  positive : 1 ≤ nextId

/-- The counter has not wrapped, and it is past every table in the directory. -/
structure IdsBelow (env : Env) : Prop where
  positive : 1 ≤ env.nextId
  counted : env.nextId ≤ env.issued + 1
  tables : ∀ id f, env.tables.lookup id = some f → 1 ≤ id ∧ id < env.nextId

variable {s : Env} {base next : Levels}

theorem fetchNextId_nextId (hc : s.nextId ≤ s.issued + 1) (hl : s.issued + 1 < idLimit) :
    s.fetchNextId.nextId = s.nextId + 1 := by
  have hl' : s.issued + 1 + 1 < fileIdLimit := by
    simp only [idLimit, fileIdLimit] at hl ⊢
    omega
  exact Nat.mod_eq_of_lt ((Nat.add_le_add_right hc 1).trans_lt hl')

theorem IdsBelow.fetch (h : IdsBelow s) (hl : s.issued + 1 < idLimit) : IdsBelow s.fetchNextId := by
  have hnext := fetchNextId_nextId h.counted hl
  refine ⟨?_, ?_, fun id f hf => ?_⟩
  · rw [hnext]
    exact Nat.le_add_left 1 _
  · rw [hnext]
    exact Nat.add_le_add_right h.counted 1
  · obtain ⟨hpos, hlt⟩ := h.tables id f hf
    rw [hnext]
    exact ⟨hpos, hlt.trans (Nat.lt_succ_self _)⟩

/-- The directory as the background thread sees it, together with the table ids
the clients have claimed and not yet seen installed. -/
structure Shared where
  env : Env
  claimed : List FileId

def sharedMachine (listing : Listing) : Machine Op Res Shared where
  exec := fun o s => ((s.env.exec listing o).1, ⟨(s.env.exec listing o).2, s.claimed⟩)
  torn := fun _ s s' => s' = s

/-- What the other threads do while the background thread is between two
operations: they remove obsolete tables, claim ids and write logs. The fields under
`D` hold as long as ids last. -/
structure OtherThreads (D : Prop) (obsolete : List FileId) (s s' : Shared) : Prop where
  manifest : s'.env.manifest = s.env.manifest
  manifestTemp : s'.env.manifestTemp = s.env.manifestTemp
  tableTemps : s'.env.tableTemps = s.env.tableTemps
  tables : ∀ id, s'.env.tables.lookup id = s.env.tables.lookup id ∨ s'.env.tables.lookup id = none
  kept : D → ∀ id, id ∉ obsolete → s'.env.tables.lookup id = s.env.tables.lookup id
  issued : s.env.issued ≤ s'.env.issued
  counted : D → s'.env.issued < idLimit → s.env.nextId ≤ s.env.issued + 1 →
    s.env.nextId ≤ s'.env.nextId ∧ s'.env.nextId ≤ s'.env.issued + 1
  claimed : D → s'.env.issued < idLimit → s.env.nextId ≤ s.env.issued + 1 → ∀ id ∈ s'.claimed,
    id ∈ s.claimed ∨ s.env.nextId ≤ id ∧ id < s'.env.nextId

namespace OtherThreads

variable {D : Prop} {obsolete : List FileId} {s s' s'' : Shared}

theorem refl (s : Shared) : OtherThreads D obsolete s s :=
  ⟨rfl, rfl, rfl, fun _ => Or.inl rfl, fun _ _ _ => rfl, le_rfl, fun _ _ h => ⟨le_rfl, h⟩,
    fun _ _ _ _ => Or.inl⟩

section

variable (h : OtherThreads D obsolete s s')
include h

theorem trans (h' : OtherThreads D obsolete s' s'') : OtherThreads D obsolete s s'' where
  manifest := h'.manifest.trans h.manifest
  manifestTemp := h'.manifestTemp.trans h.manifestTemp
  tableTemps := h'.tableTemps.trans h.tableTemps
  tables := fun id => by
    rcases h'.tables id with h₁ | h₁
    · rw [h₁]
      exact h.tables id
    · exact Or.inr h₁
  kept := fun hD id hid => (h'.kept hD id hid).trans (h.kept hD id hid)
  issued := h.issued.trans h'.issued
  counted := fun hD hl hc => by
    obtain ⟨h₁, h₂⟩ := h.counted hD (h'.issued.trans_lt hl) hc
    obtain ⟨h₃, h₄⟩ := h'.counted hD hl h₂
    exact ⟨h₁.trans h₃, h₄⟩
  claimed := fun hD hl hc id hid => by
    obtain ⟨h₁, h₂⟩ := h.counted hD (h'.issued.trans_lt hl) hc
    obtain ⟨h₃, _⟩ := h'.counted hD hl h₂
    rcases h'.claimed hD hl h₂ id hid with hid | ⟨hge, hlt⟩
    · rcases h.claimed hD (h'.issued.trans_lt hl) hc id hid with hid | ⟨hge, hlt⟩
      · exact Or.inl hid
      · exact Or.inr ⟨hge, hlt.trans_le h₃⟩
    · exact Or.inr ⟨h₁.trans hge, hlt⟩

theorem nextId_le (hD : D) (hl : s'.env.issued < idLimit)
    (hs : IdsBelow s.env) : s.env.nextId ≤ s'.env.nextId :=
  (h.counted hD hl hs.counted).1

theorem idsBelow (hD : D) (hl : s'.env.issued < idLimit) (hs : IdsBelow s.env) : IdsBelow s'.env where
  positive := hs.positive.trans (h.nextId_le hD hl hs)
  counted := (h.counted hD hl hs.counted).2
  tables := fun id f hf => by
    rcases h.tables id with h₁ | h₁
    · obtain ⟨hpos, hlt⟩ := hs.tables id f (h₁ ▸ hf)
      exact ⟨hpos, hlt.trans_le (h.nextId_le hD hl hs)⟩
    · rw [h₁] at hf
      cases hf

theorem committed (hD : D) {levels : Levels} {nextId : FileId}
    (hkept : ∀ t ∈ levels.flatten, t.id ∉ obsolete) (hs : Committed s.env levels nextId) :
    Committed s'.env levels nextId where
  manifest := h.manifest.trans hs.manifest
  files := fun t ht => (h.kept hD t.id (hkept t ht)).trans (hs.files t ht)
  below := hs.below
  positive := hs.positive

end

end OtherThreads

/-- States in which ids have not run out, as far as that matters. -/
def Legal (D : Prop) (s : Shared) : Prop := D → s.env.issued < idLimit

/-- No commit is under way: the manifest describes these levels, with a counter
that is not past the one in memory. -/
structure Settled (env : Env) (levels : Levels) : Prop where
  ids : IdsBelow env
  committed : ∃ nextId ≤ env.nextId, Committed env levels nextId

/-- A commit is under way: the manifest describes the old levels or the new ones,
with a counter past the ids of the old ones. -/
structure InstallPoint (env : Env) (base next : Levels) : Prop where
  ids : IdsBelow env
  files : ∀ t ∈ base.flatten, env.tables.lookup t.id = some t.file
  committed : ∃ nextId ≤ env.nextId, (∀ t ∈ base.flatten, t.id < nextId) ∧
    (Committed env base nextId ∨ Committed env next nextId)

namespace Settled

variable {s s' : Env} {levels : Levels}

theorem installPoint (h : Settled s levels) (next : Levels) : InstallPoint s levels next := by
  obtain ⟨n, hn, hc⟩ := h.committed
  exact ⟨h.ids, hc.files, n, hn, hc.below, Or.inl hc⟩

theorem congr (h : Settled s levels) (hm : s'.manifest = s.manifest) (ht : s'.tables = s.tables)
    (hn : s'.nextId = s.nextId) (hi : s'.issued = s.issued) : Settled s' levels := by
  obtain ⟨n, hle, hc⟩ := h.committed
  refine ⟨⟨hn ▸ h.ids.positive, ?_, ?_⟩, n, hn ▸ hle, hm.trans hc.manifest, ?_, hc.below, hc.positive⟩
  · rw [hn, hi]
    exact h.ids.counted
  · rw [ht, hn]
    exact h.ids.tables
  · rw [ht]
    exact hc.files

theorem insertTable (h : Settled s levels) {id : FileId} (f : TableFile)
    (temps : AList fun _ : FileId => Option TableFile) (hfresh : ∀ t ∈ levels.flatten, t.id ≠ id)
    (hpos : 1 ≤ id) (hlt : id < s.nextId) :
    Settled { s with tables := s.tables.insert id f, tableTemps := temps } levels := by
  obtain ⟨n, hle, hc⟩ := h.committed
  refine ⟨⟨h.ids.positive, h.ids.counted, fun id' f' hf => ?_⟩, n, hle, hc.manifest,
    fun t ht => ?_, hc.below, hc.positive⟩
  · by_cases he : id' = id
    · rw [he]
      exact ⟨hpos, hlt⟩
    · exact h.ids.tables id' f' ((AList.lookup_insert_ne he).symm.trans hf)
  · exact (AList.lookup_insert_ne (hfresh t ht)).trans (hc.files t ht)

end Settled

structure Installed (env : Env) (base next : Levels) : Prop where
  ids : IdsBelow env
  files : ∀ t ∈ base.flatten, env.tables.lookup t.id = some t.file
  committed : ∃ nextId ≤ env.nextId, (∀ t ∈ base.flatten, t.id < nextId) ∧
    Committed env next nextId

theorem Installed.installPoint (h : Installed s base next) : InstallPoint s base next := by
  obtain ⟨n, hn, hbelow, hc⟩ := h.committed
  exact ⟨h.ids, h.files, n, hn, hbelow, Or.inr hc⟩

theorem Installed.settled (h : Installed s base next) : Settled s next := by
  obtain ⟨n, hn, _, hc⟩ := h.committed
  exact ⟨h.ids, n, hn, hc⟩

theorem Settled.install {nextId : FileId} (h : Settled s base)
    (hn : nextId ≤ s.nextId) (hbase : ∀ t ∈ base.flatten, t.id < nextId)
    (hfiles : ∀ t ∈ next.flatten, s.tables.lookup t.id = some t.file)
    (hnext : ∀ t ∈ next.flatten, t.id < nextId) (hpos : 1 ≤ nextId) :
    Installed { s with manifest := some (levelSetOf next nextId), manifestTemp := none } base next := by
  obtain ⟨_, _, hc⟩ := h.committed
  exact ⟨⟨h.ids.positive, h.ids.counted, h.ids.tables⟩, hc.files, nextId, hn, hbase, rfl, hfiles, hnext,
    hpos⟩

section Guarded

variable {listing : Listing} {D : Prop} {obsolete : List FileId}
  {I : Shared → Prop} {α : Type} {Q : α → Shared → Prop} {levels : Levels} {s : Shared}

def Stable (D : Prop) (obsolete : List FileId) (P : Shared → Prop) : Prop :=
  ∀ a b, OtherThreads D obsolete a b → Legal D b → P a → P b

theorem Stable.and {P P' : Shared → Prop} (h : Stable D obsolete P) (h' : Stable D obsolete P') :
    Stable D obsolete fun s => P s ∧ P' s :=
  fun a b hr hl hp => ⟨h a b hr hl hp.1, h' a b hr hl hp.2⟩

theorem stable_tableTemps (T : (AList fun _ : FileId => Option TableFile) → Prop) :
    Stable D obsolete fun s => T s.env.tableTemps := by
  intro a b hr _ hp
  rwa [hr.tableTemps]

theorem stable_manifestTemp (T : Option (Option LevelSet) → Prop) :
    Stable D obsolete fun s => T s.env.manifestTemp := by
  intro a b hr _ hp
  rwa [hr.manifestTemp]

theorem stable_table (id : FileId) (f : TableFile) :
    Stable D obsolete fun s => s.env.tables.lookup id = some f ∨ s.env.tables.lookup id = none := by
  intro a b hr _ hp
  rcases hr.tables id with h | h
  · rw [h]
    exact hp
  · exact Or.inr h

theorem stable_kept {id : FileId} (f : TableFile) (hid : D → id ∉ obsolete) :
    Stable D obsolete fun s => D → s.env.tables.lookup id = some f :=
  fun _ _ hr _ hp hD => (hr.kept hD id (hid hD)).trans (hp hD)

theorem stable_settled_nextId (m : FileId) (hkept : D → ∀ t ∈ levels.flatten, t.id ∉ obsolete) :
    Stable D obsolete fun s => D → Settled s.env levels ∧ m ≤ s.env.nextId := by
  intro a b hr hl hp hD
  obtain ⟨⟨hids, n, hn, hc⟩, hm⟩ := hp hD
  have hle := hr.nextId_le hD (hl hD) hids
  exact ⟨⟨hr.idsBelow hD (hl hD) hids, n, hn.trans hle, hr.committed hD (hkept hD) hc⟩, hm.trans hle⟩

theorem stable_installed {base next : Levels} (hbase : D → ∀ t ∈ base.flatten, t.id ∉ obsolete)
    (hkept : D → ∀ t ∈ next.flatten, t.id ∉ obsolete) :
    Stable D obsolete fun s => D → Installed s.env base next := by
  intro a b hr hl hp hD
  obtain ⟨hids, hfiles, n, hn, hbelow, hc⟩ := hp hD
  exact ⟨hr.idsBelow hD (hl hD) hids,
    fun t ht => (hr.kept hD t.id (hbase hD t ht)).trans (hfiles t ht), n, hn.trans (hr.nextId_le hD (hl hD) hids), hbelow,
    hr.committed hD (hkept hD) hc⟩

abbrev Protected (listing : Listing) (D : Prop) (obsolete : List FileId) (I : Shared → Prop)
    (Q : α → Shared → Prop) : LsmIo α → Shared → Prop :=
  Guarded (sharedMachine listing) (OtherThreads D obsolete) (Legal D) I Q

theorem guarded_op {o : Op} {k : Res o → LsmIo α} (P : Shared → Prop) (hs : P s)
    (hstable : Stable D obsolete P) (hI : ∀ a, P a → I a)
    (hk : ∀ a, P a → Legal D ((sharedMachine listing).exec o a).2 →
      Protected listing D obsolete I Q
        (k ((sharedMachine listing).exec o a).1) ((sharedMachine listing).exec o a).2) :
    Protected listing D obsolete I Q (.op o k) s :=
  Guarded.operation P hs hstable hI
    (fun a _ ha ht => by
      have ht' : _ = a := ht
      subst ht'
      exact hI _ ha) fun a ha _ => hk a ha

theorem guarded_ret {a : α} (P : Shared → Prop) (hs : P s) (hstable : Stable D obsolete P)
    (hI : ∀ a, P a → I a) (hQ : ∀ s, P s → Q a s) : Protected listing D obsolete I Q (.ret a) s :=
  fun s₁ hr hl => ⟨hI s₁ (hstable s s₁ hr hl hs), hQ s₁ (hstable s s₁ hr hl hs)⟩

theorem guarded_andThen {β : Type} {p : LsmIo (Except Failure α)} {f : α → LsmIo (Except Failure β)}
    {Q : Except Failure α → Shared → Prop} {Q' : Except Failure β → Shared → Prop}
    (h : Protected listing D obsolete I Q p s) (hl : Legal D s)
    (herror : ∀ e s, Q (.error e) s → Protected listing D obsolete I Q' (.ret (.error e)) s)
    (hok : ∀ a s, Q (.ok a) s → Legal D s → Protected listing D obsolete I Q' (f a) s) :
    Protected listing D obsolete I Q' (LsmIo.andThen p f) s := by
  refine h.bind OtherThreads.refl (fun r s hr hl => ?_) hl
  cases r with
  | error e => exact herror e s hr
  | ok a => exact hok a s hr hl

theorem guarded_commitManifest {nextId : FileId}
    {Q : Except Failure Unit → Shared → Prop} (P R : Shared → Prop) (hs : P s)
    (hP : Stable D obsolete P) (hR : Stable D obsolete R) (hPI : ∀ a, P a → I a)
    (hRI : ∀ a, R a → I a) (htemp : ∀ a m, P a → P ⟨{ a.env with manifestTemp := m }, a.claimed⟩)
    (hdone : ∀ a, P a → R ⟨{ a.env with
      manifest := some (levelSetOf levels nextId), manifestTemp := none }, a.claimed⟩)
    (hQ : ∀ a, R a → Q (.ok ()) a) :
    Protected listing D obsolete I Q
      (LsmStore.commitManifest levels nextId) s := by
  refine guarded_op P hs hP hPI fun a ha _ => ?_
  refine guarded_op P (htemp a none ha) hP hPI fun a ha _ => ?_
  refine guarded_op P (htemp a (some none) ha) hP hPI fun a ha _ => ?_
  let set := levelSetOf levels nextId
  have hstage := hP.and (stable_manifestTemp (· = some (some set)))
  refine guarded_op (fun a => P a ∧ a.env.manifestTemp = some (some set))
    ⟨htemp a (some (some set)) ha, rfl⟩ hstage (fun a ha => hPI a ha.1) fun a ha _ => ?_
  have hrename : (sharedMachine listing).exec .renameManifest a =
      (true, ⟨{ a.env with manifest := some set, manifestTemp := none }, a.claimed⟩) := by
    simp [sharedMachine, Env.exec, Env.renameManifest, ha.2]
  rw [hrename]
  exact guarded_ret R (hdone a ha.1) hR hRI hQ

end Guarded

end KVStore
