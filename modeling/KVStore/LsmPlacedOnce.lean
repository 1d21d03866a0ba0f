import KVStore.LsmPlacementRun
import KVStore.LsmRecoveryIds

namespace KVStore

open Lib CrashProgram LsmStore

namespace Env

variable {listing : Listing} {placed : List FileId} {bound : FileId} {s : Env} {id : FileId}

/-- The tables placed so far, while recovery runs: no log has the id of one, and each is
below the bound or still there. -/
structure Settling (placed : List FileId) (bound : FileId) (s : Env) : Prop where
  nodup : placed.Nodup
  logs : ∀ id ∈ placed, id ∉ s.logs
  floor : bound ≤ s.floor
  counted : ∀ id ∈ placed, id < bound ∨ s.tables.lookup id ≠ none

theorem PastAll.not_placed (h : s.PastAll id) (hs : s.Settling placed bound)
    (hbound : bound ≤ id) : id ∉ placed := by
  intro hm
  rcases hs.counted id hm with hlt | hthere
  · exact absurd hlt (not_lt_of_ge hbound)
  · obtain ⟨f, hf⟩ := Option.ne_none_iff_exists'.mp hthere
    exact (h.tables id f hf).false

theorem PastAll.not_mem_logs (h : s.PastAll id) : id ∉ s.logs := by
  intro hm
  obtain ⟨log, hlog⟩ := Option.isSome_iff_exists.mp (AList.lookup_isSome.mpr hm)
  exact (h.logs id log hlog).false

theorem Settling.exec (h : s.Settling placed bound) (hl : s.issued < idLimit) {o : Op}
    (howed : idsOwed bound o s) (hsweep : sweepOwed bound o s) :
    (s.exec listing o).2.Settling (s.putBy o ++ placed) bound := by
  have howed := howed hl
  have ⟨hnodup, hlogs, hfloor, hcounted⟩ := h
  cases o with
  | renameTable id =>
    obtain ⟨hbound, hpast⟩ := howed
    cases ht : s.tableTemps.lookup id with
    | none => simpa [Env.exec, renameTable, putBy, ht] using h
    | some temp =>
      cases temp with
      | none => simpa [Env.exec, renameTable, putBy, ht] using h
      | some =>
        have hput : s.putBy (.renameTable id) = [id] := by simp [putBy, ht]
        rw [hput]
        simp only [Env.exec, renameTable, ht]
        refine ⟨List.nodup_cons.mpr ⟨hpast.not_placed h hbound, hnodup⟩,
          List.forall_mem_cons.mpr ⟨hpast.not_mem_logs, hlogs⟩, hfloor, fun id' hid => ?_⟩
        by_cases he : id' = id
        · subst he
          right
          rw [AList.lookup_insert]
          exact Option.some_ne_none _
        · rw [AList.lookup_insert_ne he]
          exact hcounted id' (List.mem_of_ne_of_mem he hid)
  | createLog =>
    obtain ⟨hbound, hpast⟩ := howed
    refine ⟨hnodup, fun id' hid hm => ?_, hfloor, hcounted⟩
    rcases (AList.mem_insert _).mp hm with rfl | hm
    · exact hpast.not_placed h hbound hid
    · exact hlogs id' hid hm
  | removeTable id =>
    refine ⟨hnodup, hlogs, hfloor, fun id' hid => ?_⟩
    by_cases he : id' = id
    · subst he
      left
      rcases hcounted id' hid with hlt | hthere
      · exact hlt
      · obtain ⟨f, hf⟩ := Option.ne_none_iff_exists'.mp hthere
        exact hsweep id' rfl f hf
    · refine (hcounted id' hid).imp_right fun hthere => ?_
      have hsame : (s.tables.erase id).lookup id' = s.tables.lookup id' := AList.lookup_erase_ne he
      exact hsame ▸ hthere
  | removeLog =>
    exact ⟨hnodup, fun id' hid hm => hlogs id' hid (AList.mem_erase.mp hm).2, hfloor, hcounted⟩
  | truncateLog =>
    simp only [Env.exec, truncateLog]
    split
    next log hlog =>
      refine ⟨hnodup, fun id' hid hm => ?_, hfloor, hcounted⟩
      rcases (AList.mem_insert _).mp hm with rfl | hm
      · exact hlogs id' hid (AList.lookup_isSome.mp (by rw [hlog]; rfl))
      · exact hlogs id' hid hm
    next => exact h
  | renameManifest =>
    cases hm : s.manifestTemp with
    | none => simpa [Env.exec, renameManifest, putBy, hm] using h
    | some temp =>
      cases temp with
      | none => simpa [Env.exec, renameManifest, putBy, hm] using h
      | some set =>
        have hbound := howed set hm
        simp only [Env.exec, renameManifest, hm]
        exact ⟨hnodup, hlogs, hbound, hcounted⟩
  | removeTemp name => cases name <;> exact ⟨hnodup, hlogs, hfloor, hcounted⟩
  | _ =>
    exact ⟨hnodup, hlogs, hfloor, hcounted⟩

theorem Settling.tearLog (h : s.Settling placed bound) (id : FileId) :
    (s.tearLog id).Settling placed bound := by
  unfold Env.tearLog
  split
  next log hlog =>
    refine ⟨h.nodup, fun id' hid hm => ?_, h.floor, h.counted⟩
    rcases (AList.mem_insert _).mp hm with rfl | hm
    · exact h.logs id' hid (AList.lookup_isSome.mp (by rw [hlog]; rfl))
    · exact h.logs id' hid hm
  next => exact h

end Env

namespace World

variable {n : Nat} {opts : LsmOptions} {listing : Listing} {w w' : World n} {placed : List FileId}
    {ids : List FileId} {env : Env} {history : List Entry} {bound : FileId}

/-- Every table in a directory that is not open is counted in its manifest: no crash fell
between the rename of a table and the commit that names it. -/
def TablesCounted : World n → Prop
  | .down env _ => ∀ id f, env.tables.lookup id = some f → id < env.floor
  | _ => True

/-- No table placed so far lends its id to a log or to another one, and a table that is gone
is counted in the manifest. -/
def Once (placed : List FileId) (listing : Listing) : World n → Prop
  | .down env _ => placed.Nodup ∧ (∀ id ∈ placed, id ∉ env.logs) ∧ ∀ id ∈ placed, id < env.floor
  | .recovering env io _ => ∃ bound, env.Settling placed bound ∧
      io.Requires (lsmMachine listing) (idsOwed bound) env ∧
      io.Requires (lsmMachine listing) (sweepOwed bound) env
  | .running s _ => s.Placements placed

def Puts (w w' : World n) (ids : List FileId) : Prop :=
  ids = [] ∧ (∀ id f, ¬ w.Places id f w') ∨ ∃ id f, ids = [id] ∧ w.Places id f w'

theorem Puts.eq_nil (h : w.Puts w' ids) (hsame : w'.env.tableTemps = w.env.tableTemps) : ids = [] := by
  rcases h with ⟨he, _⟩ | ⟨id, f, _, hp⟩
  · exact he
  · have hgone := hp.env.gone
    rw [hsame, hp.env.temp] at hgone
    cases hgone

theorem Puts.eq_puts (h : w.Puts w' ids) (listing : Listing)
    (hexec : ∀ o, w.nextOp = some o → w'.env = (w.env.exec listing o).2) :
    ids = (w.nextOp.map w.env.putBy).getD [] := by
  rcases h with ⟨rfl, hnone⟩ | ⟨id, f, rfl, hp⟩
  · cases ho : w.nextOp with
    | none => rfl
    | some o =>
      symm
      apply List.eq_nil_iff_forall_not_mem.mpr
      intro id hid
      obtain ⟨rfl, f, hf⟩ := Env.mem_putBy hid
      refine hnone id f ⟨ho, hf, ?_, ?_⟩
      · rw [hexec _ ho]
        simp [Env.exec, Env.renameTable, hf]
      · rw [hexec _ ho]
        simp [Env.exec, Env.renameTable, hf]
  · simp [hp.op, Env.putBy, hp.env.temp]

theorem once_down (h : env.Settling placed bound)
    (hc : ∀ id f, env.tables.lookup id = some f → id < env.floor) :
    Once placed listing (.down env history : World n) := by
  refine ⟨h.nodup, h.logs, fun id hid => ?_⟩
  rcases h.counted id hid with hlt | hthere
  · exact hlt.trans_le h.floor
  · obtain ⟨f, hf⟩ := Option.ne_none_iff_exists'.mp hthere
    exact hc id f hf

theorem once_opened {store : Recovered} (h : env.Settling placed bound)
    (hready : ReadyStore opts history store env) :
    (System.opened n env store).Placements placed := by
  obtain ⟨hids, m, hm, hc⟩ := hready.settled
  have hfloor : env.floor ≤ env.nextId := by
    rw [Env.floor, hc.manifest]
    exact hm
  have hlogs : ∀ id, id ∈ (System.opened n env store).logIds → id ∈ env.logs := by
    intro id hid
    rcases System.mem_logIds.mp hid with ⟨c, resume, hpc⟩ | hid
    · cases hpc
    · exact hid
  refine ⟨⟨h.nodup, fun id hid => ?_, fun id hid hlog => h.logs id hid (hlogs id hlog),
    List.forall_mem_nil _, fun id hid => ?_⟩, fun _ _ => List.forall_mem_nil _, bound, false, [], trivial, List.nodup_nil,
    List.forall_mem_nil _, h.floor.trans hfloor, h.floor, fun hours => absurd hours Bool.false_ne_true, h.counted,
    List.forall_mem_nil _⟩
  · rcases h.counted id hid with hlt | hthere
    · exact (hlt.trans_le h.floor).trans_le hfloor
    · obtain ⟨f, hf⟩ := Option.ne_none_iff_exists'.mp hthere
      exact (hids.tables id f hf).2
  · obtain ⟨log, hlog⟩ := Option.isSome_iff_exists.mp (AList.lookup_isSome.mpr (hlogs id hid))
    exact hready.logs.lt_nextId hlog

theorem Once.step (h : w.Once placed listing) (hreach : Reachable opts listing w)
    (hfail : opts.failAt = .none) (hl : w.env.issued < idLimit) (hl' : w'.env.issued < idLimit)
    (hcounted : w.TablesCounted) (hcounted' : w'.TablesCounted) (next : Step opts listing w w')
    {ids : List FileId} (hputs : w.Puts w' ids) : w'.Once (ids ++ placed) listing := by
  have hinv := hreach.inv hfail hl
  cases next with
  | @«open» env history =>
    obtain ⟨hnodup, hlogs, hbelow⟩ := h
    rw [hputs.eq_nil rfl]
    refine ⟨env.floor, ⟨hnodup, hlogs, le_rfl, fun id hid => Or.inl (hbelow id hid)⟩, ?_, ?_⟩
    · apply requires_openStore hinv.1
      rw [Env.floor]
      cases env.manifest with
      | none => exact Nat.zero_le _
      | some => exact le_rfl
    · exact sweeps_openStore opts hcounted
  | @recover =>
    obtain ⟨bound, hs, howed, hsweep⟩ := h
    rw [hputs.eq_puts listing (by rintro _ ⟨⟩; rfl)]
    exact ⟨bound, hs.exec hl howed.1 hsweep.1, howed.2, hsweep.2⟩
  | @opened =>
    obtain ⟨bound, hs, _⟩ := h
    obtain ⟨⟨_, hio⟩, _⟩ := hinv
    rw [hputs.eq_nil rfl]
    exact once_opened hs (hio.returned (fun _ => rfl) hl).2
  | refused | crashRecovering =>
    obtain ⟨bound, hs, _⟩ := h
    rw [hputs.eq_nil rfl]
    exact once_down hs hcounted'
  | @run s s' a history next =>
    obtain ⟨⟨_, _, _, hs⟩, _⟩ := hinv
    rcases h.step hs.background (fun _ => hl) (fun _ => hl') (System.step_cases hfail next) with
      ⟨hsame, hstep⟩ | ⟨hback, hstep⟩
    · rw [hputs.eq_nil hsame]
      exact hstep
    · rw [hputs.eq_puts listing fun _ ho => hback.env_of_nextOp ho]
      exact hstep
  | @crash s env writes history left =>
    have hsettling : s.env.Settling placed s.env.floor :=
      ⟨h.apart.nodup, fun id hid hlog => h.apart.logs id hid (System.mem_logIds.mpr (Or.inr hlog)),
        le_rfl, h.floor⟩
    cases left with
    | between =>
      rw [hputs.eq_nil rfl]
      exact once_down hsettling hcounted'
    | torn =>
      rw [hputs.eq_nil (Env.sameFiles_tearLog _ _).tableTemps]
      exact once_down (hsettling.tearLog _) hcounted'

/-- In every life in which ids last and no crash leaves a table that the manifest does
not count: no two tables are ever renamed into place under one id, and no log has the
id of a table that ever was. -/
theorem Life.placed_once {placed : List (FileId × TableFile)}
    (h : Life opts listing (fun w => w.IdsLast ∧ w.TablesCounted) w placed)
    (hfail : opts.failAt = .none) :
    (placed.map Prod.fst).Nodup ∧ ∀ p ∈ placed, w.env.logs.lookup p.1 = none := by
  have honce : w.Once (placed.map Prod.fst) listing := by
    induction h with
    | start => exact ⟨List.nodup_nil, nofun, nofun⟩
    | quiet lived next none ok ih =>
      exact ih.step lived.reachable hfail lived.ok.1 ok.1 lived.ok.2 ok.2 next (Or.inl ⟨rfl, none⟩)
    | place lived next moved ok ih =>
      exact ih.step lived.reachable hfail lived.ok.1 ok.1 lived.ok.2 ok.2 next
        (Or.inr ⟨_, _, rfl, moved⟩)
  have hends : (placed.map Prod.fst).Nodup ∧ ∀ id ∈ placed.map Prod.fst, id ∉ w.env.logs := by
    cases w with
    | down env history => exact ⟨honce.1, honce.2.1⟩
    | recovering env io history =>
      obtain ⟨_, hs, _⟩ := honce
      exact ⟨hs.nodup, hs.logs⟩
    | running s history =>
      exact ⟨honce.apart.nodup, fun id hid hlog =>
        honce.apart.logs id hid (System.mem_logIds.mpr (Or.inr hlog))⟩
  refine ⟨hends.1, fun p hp => ?_⟩
  exact AList.lookup_eq_none.mpr (hends.2 p.1 (List.mem_map_of_mem hp))

theorem Life.length_keys_le {allowed : World n → Prop} {placed : List (FileId × TableFile)}
    (h : Life opts listing allowed w placed) (hfail : opts.failAt = .none) :
    w.env.tables.keys.length ≤ placed.length := by
  have hsub : w.env.tables.keys ⊆ placed.map Prod.fst := by
    intro id hid
    rw [← AList.mem_keys, ← AList.lookup_isSome, Option.isSome_iff_exists] at hid
    obtain ⟨f, hf⟩ := hid
    exact List.mem_map_of_mem (f := Prod.fst) (h.placed_of_lookup hfail hf)
  have hle := ((AList.keys_nodup _).subperm hsub).length_le
  rwa [List.length_map] at hle

theorem tablesCounted_of_keys (h : ∀ id ∈ env.tables.keys, id < env.floor)
    (history : List Entry) : TablesCounted (.down env history : World n) := by
  intro id f hf
  apply h id
  rw [← AList.mem_keys, ← AList.lookup_isSome, hf]
  rfl

/-- A put and a flush, a crash, and a put and a flush again: two tables, two ids. -/
theorem placed_once_over_crash :
    ∃ (w : World 1) (placed : List (FileId × TableFile)),
      Life {} .asStored (fun w => w.IdsLast ∧ w.TablesCounted) w placed ∧ 2 ≤ placed.length ∧
        (placed.map Prod.fst).Nodup ∧ ∀ p ∈ placed, w.env.logs.lookup p.1 = none := by
  let flush (key : Key) : List (Action 1) := putFlush 0 key (text "x") ++ List.replicate 13 .background ++ [.client 0]
  have h : ∃ r ∈ System.runFresh 1 {} (flush (text "a")),
      Returned (fun store env => env.issued < idLimit ∧ (∀ id ∈ r.2.env.tables.keys, id < r.2.env.floor) ∧
          ∃ r' ∈ System.runFrom {} .asStored [] (.opened 1 env store) (flush (text "b")),
            r'.2.env.issued < idLimit ∧ 2 ≤ r'.2.env.tables.keys.length)
        ((openStore {}).run (lsmMachine .asStored) r.2.env) := by decide +kernel
  obtain ⟨⟨past, s⟩, hr, store, env, hopen, hl, hkeys, ⟨past', s'⟩, hr', hl', hlength⟩ := h
  have hallowed : Allows (fun w : World 1 => w.IdsLast ∧ w.TablesCounted) fun _ => True :=
    ⟨fun _ _ _ hl => ⟨hl, trivial⟩, fun _ _ hl _ => ⟨hl, trivial⟩, fun _ _ => trivial⟩
  have hissued : s.env.issued < idLimit := by
    have hle := issued_le_run .asStored (openStore {}) s.env
    rw [hopen] at hle
    exact hle.trans_lt hl
  obtain ⟨placed, hlife⟩ := life_of_runFresh hallowed
    ⟨idLimit_pos, tablesCounted_of_keys (by decide) _⟩ rfl hr hissued (fun _ _ => trivial) trivial
  obtain ⟨history, placed, hlife, _⟩ := hlife.reopened hallowed hl
    (fun history => ⟨hissued, tablesCounted_of_keys hkeys history⟩) hopen
  obtain ⟨placed, hlife, _⟩ := hlife.run hallowed rfl (System.run_of_runFrom .start hr') hl'
    (fun _ _ => trivial) trivial
  exact ⟨_, placed, hlife, hlength.trans (hlife.length_keys_le rfl), hlife.placed_once rfl⟩

/-- A crash leaves the output of a compaction in place and the manifest without it.
Recovery sweeps it, and gives its id to the table of the replayed writes. -/
theorem id_placed_twice :
    ∃ (w : World 2) (placed : List (FileId × TableFile)),
      Life { l0CompactionTrigger := 1 } .asStored IdsLast w placed ∧
        ∃ id f f', (id, f) ∈ placed ∧ (id, f') ∈ placed ∧ f ≠ f' := by
  let actions : List (Action 2) := putFlush 0 (text "a") (text "x") ++ List.replicate 12 .background ++
    calling 1 (.put (text "b") (text "y")) 4 ++ List.replicate 7 .background
  have h : ∃ r ∈ System.runFresh 2 { l0CompactionTrigger := 1 } actions,
      Returned (fun _ env => env.issued < idLimit ∧ ∃ f ∈ r.2.env.tables.lookup 4,
          ∃ f' ∈ env.tables.lookup 4, f ≠ f')
        ((openStore { l0CompactionTrigger := 1 }).run (lsmMachine .asStored) r.2.env) := by decide +kernel
  obtain ⟨⟨past, s⟩, hr, store, env, hopen, hl, f, hf, f', hf', hother⟩ := h
  have hallowed : Allows (IdsLast (n := 2)) fun _ => True := idsLast_allows 2
  have hissued : s.env.issued < idLimit := by
    have hle := issued_le_run .asStored (openStore { l0CompactionTrigger := 1 }) s.env
    rw [hopen] at hle
    exact hle.trans_lt hl
  obtain ⟨placed, hlife⟩ := life_of_runFresh hallowed idLimit_pos rfl hr hissued
    (fun _ _ => trivial) trivial
  obtain ⟨history, placed', hlife', hsuffix⟩ := hlife.reopened hallowed hl (fun _ => hissued) hopen
  have hmem : (4, f) ∈ placed := hlife.placed_of_lookup rfl hf
  have hmem' : (4, f') ∈ placed' := hlife'.placed_of_lookup rfl hf'
  exact ⟨_, placed', hlife', 4, f, f', hsuffix.subset hmem, hmem', hother⟩

end World

end KVStore
