import KVStore.LsmIoSpec

namespace KVStore

open Lib CrashProgram

/-- The operations of the background thread's programs: they leave the logs alone
and only ever claim ids. -/
def Op.ofBackground : Op → Prop
  | .removeTemp _ | .openTable _ | .loadNextId | .fetchNextId | .createTableTemp _
  | .writeTableTemp _ _ | .renameTable _ | .createManifestTemp | .writeManifestTemp _
  | .renameManifest => True
  | _ => False

structure Env.Advances (s s' : Env) : Prop where
  logs : s'.logs = s.logs
  issued : s.issued ≤ s'.issued
  nextId : s.nextId ≤ s.issued + 1 → s'.issued < idLimit → s.nextId ≤ s'.nextId

theorem advances_exec (listing : Listing) {o : Op} (ho : o.ofBackground) (s : Env) :
    s.Advances (s.exec listing o).2 := by
  have h := s.executes listing o
  generalize (s.exec listing o).2 = s' at h ⊢
  cases h with
  | aside _ _ logs nextId issued => exact ⟨logs, issued.ge, fun _ _ => nextId.ge⟩
  | place | commit => exact ⟨rfl, le_rfl, fun _ _ => le_rfl⟩
  | fetchNextId => exact ⟨rfl, Nat.le_succ _, fun hc hl => (fetchNextId_nextId hc hl).ge.trans' (Nat.le_succ _)⟩
  | _ => exact absurd ho id

def Op.plain : Op → Prop
  | .removeTemp _ | .openTable _ | .loadNextId | .createTableTemp _ | .writeTableTemp _ _
  | .createManifestTemp | .writeManifestTemp _ | .renameManifest => True
  | _ => False

theorem Op.plain.ofBackground {o : Op} (h : o.plain) : o.ofBackground := by
  cases o <;> first | exact h | trivial

def Op.writesTemp : Op → Prop
  | .removeTemp _ | .createTableTemp _ | .writeTableTemp _ _ => True
  | _ => False

theorem Op.writesTemp.plain {o : Op} (h : o.writesTemp) : o.plain := by
  cases o <;> first | exact h | trivial

namespace LsmStore

variable {φ : Op → Prop}

theorem all_andThen {α β : Type} {p : LsmIo (Except Failure α)} {f : α → LsmIo (Except Failure β)}
    (hp : p.All φ) (hf : ∀ a, (f a).All φ) : (LsmIo.andThen p f).All φ := by
  apply hp.bind
  intro r
  cases r with
  | error => trivial
  | ok a => exact hf a

theorem all_commitManifest (hφ : ∀ o : Op, o.plain → φ o) (levels : Levels) (nextId : FileId) :
    (commitManifest levels nextId).All φ :=
  ⟨hφ _ trivial, fun _ => ⟨hφ _ trivial, fun _ => ⟨hφ _ trivial, fun _ => ⟨hφ _ trivial,
    fun _ => trivial⟩⟩⟩⟩

theorem all_buildTable (hφ : ∀ o : Op, o.plain → φ o) (opts : LsmOptions) (entries : List Entry)
    {id : FileId} (hid : φ (.renameTable id)) (base : Levels) (nextId : FileId) :
    (buildTableUnlocked opts entries id base nextId).All φ := by
  refine ⟨hφ _ trivial, fun _ => ⟨hφ _ trivial, fun _ => ?_⟩⟩
  split
  · trivial
  · refine ⟨hφ _ trivial, fun _ => ?_⟩
    split
    · trivial
    · refine ⟨hid, fun renamed => ?_⟩
      dsimp only
      split
      · trivial
      · refine ⟨hφ _ trivial, fun file => ?_⟩
        cases file with
        | none => trivial
        | some =>
          split
          · trivial
          · exact all_andThen (all_commitManifest hφ _ _) fun _ => trivial

theorem all_writeFiles (hφ : ∀ o : Op, o.writesTemp → φ o) (hfetch : φ .fetchNextId)
    (files : List TableFile) : (writeFiles files).All φ := by
  induction files with
  | nil => trivial
  | cons f files ih =>
    have hone : (writeOutput f).All φ :=
      ⟨hfetch, fun _ => ⟨hφ _ trivial, fun _ => ⟨hφ _ trivial, fun _ => ⟨hφ _ trivial,
        fun _ => trivial⟩⟩⟩⟩
    exact hone.bind fun _ => ih.bind fun _ => trivial

theorem all_writeCompaction (hφ : ∀ o : Op, o.writesTemp → φ o) (hfetch : φ .fetchNextId)
    (opts : LsmOptions) (work : Compaction) : (writeCompaction opts work).All φ := by
  apply (all_writeFiles hφ hfetch _).bind
  intro ids
  split
  · exact ⟨hfetch, fun _ => ⟨hφ _ trivial, fun _ => ⟨hφ _ trivial, fun _ => trivial⟩⟩⟩
  · trivial

theorem all_renameOutputs {ids : List FileId} (hids : ∀ id ∈ ids, φ (.renameTable id)) :
    (renameOutputs ids).All φ := by
  induction ids with
  | nil => trivial
  | cons id ids ih =>
    refine ⟨hids id List.mem_cons_self, fun renamed => ?_⟩
    dsimp only
    split
    · exact ih fun id' hid => hids id' (List.mem_cons_of_mem _ hid)
    · trivial

theorem all_openTables (hφ : ∀ o : Op, o.plain → φ o) (ids : List FileId) : (openTables ids).All φ := by
  induction ids with
  | nil => trivial
  | cons id ids ih =>
    refine ⟨hφ _ trivial, fun file => ?_⟩
    cases file with
    | none => trivial
    | some => exact all_andThen ih fun _ => trivial

theorem all_commitCompaction (hφ : ∀ o : Op, o.plain → φ o) (work : Compaction) (levels : Levels)
    (ids : List FileId) : (commitCompaction work levels ids).All φ :=
  all_andThen (all_openTables hφ ids) fun _ =>
    ⟨hφ _ trivial, fun _ => all_andThen (all_commitManifest hφ _ _) fun _ => trivial⟩

theorem ofBackground_buildTable (opts : LsmOptions) (entries : List Entry) (id : FileId)
    (base : Levels) (nextId : FileId) : (buildTableUnlocked opts entries id base nextId).All Op.ofBackground :=
  all_buildTable (fun _ ho => ho.ofBackground) opts entries trivial base nextId

theorem ofBackground_writeCompaction (opts : LsmOptions) (work : Compaction) :
    (writeCompaction opts work).All Op.ofBackground :=
  all_writeCompaction (fun _ ho => ho.plain.ofBackground) trivial opts work

theorem ofBackground_renameOutputs (ids : List FileId) : (renameOutputs ids).All Op.ofBackground :=
  all_renameOutputs fun _ _ => trivial

theorem ofBackground_commitCompaction (work : Compaction) (levels : Levels) (ids : List FileId) :
    (commitCompaction work levels ids).All Op.ofBackground :=
  all_commitCompaction (fun _ ho => ho.ofBackground) work levels ids

end LsmStore

end KVStore
