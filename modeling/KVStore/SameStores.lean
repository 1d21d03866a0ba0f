import KVStore.LsmSession

namespace KVStore

open Lib CrashProgram Protocol

variable {opts : LsmOptions} {listing : Listing}

theorem System.blockSize_of_fresh {n : Nat} {s : System n}
    (h : System.fresh n opts listing = some s) : 1 ≤ opts.blockSize := by
  unfold System.fresh LsmStore.openStore at h
  by_cases hblock : opts.blockSize = 0
  · rw [if_pos hblock] at h
    cases h
  · exact Nat.one_le_iff_ne_zero.mpr hblock

theorem Session.blockSize_of_start {requests : List Request} {σ : Session}
    (h : Session.start opts listing requests = some σ) : 1 ≤ opts.blockSize := by
  obtain ⟨s, hs, _⟩ := Option.map_eq_some_iff.mp h
  exact System.blockSize_of_fresh hs

namespace Session

/-- The three stores, each on its own, under the same calls: the calls on `LsmStore` return
however its threads are scheduled, and while its tables fit and ids last every call gets
the same status code and value from all three, unless it removes the empty key. -/
theorem stores_agree_iff [Crc] {opts : LsmOptions} {listing : Listing} {bitcaskOptions : BitcaskOptions}
    {calls : List (Request × Timestamp)} {σ : Session} {o : Bitcask.OpenStore}
    (hlimit : ∀ call ∈ calls, call.1.InLimit) (hfail : opts.failAt = .none) (ht : 1 ≤ opts.l0CompactionTrigger)
    (hstart : start opts listing (calls.map Prod.fst) = some σ)
    (hopen : (Bitcask.recover bitcaskOptions).run (Bitcask.machine listing) ∅ = (.ok o.1, o.2))
    (hids : ∀ i < calls.length, (Bitcask.before listing o calls i).1.activeId ≠ maxUInt32)
    {schedule : Nat → Turn} (hbackground : ∀ i, ∃ j, i ≤ j ∧ schedule j = .background)
    (hclient : ∀ i, ∃ j, i ≤ j ∧ schedule j = .client) :
    (∃ k, (σ.after opts listing schedule k).replies.length = calls.length) ∧
      ∀ k, (∀ j ≤ k, (σ.after opts listing schedule j).Fits opts) → ∀ (i : Nat) (call : Request × Timestamp)
        (a b c : Reply), calls[i]? = some call → (MemoryStore.replies (calls.map Prod.fst))[i]? = some a →
        (Bitcask.replies listing o calls)[i]? = some b → (σ.after opts listing schedule k).replies[i]? = some c →
        (Reply.Same a b ∧ Reply.Same a c ↔ ¬ call.1.removesEmptyKey) := by
  have hlimit' : ∀ request ∈ calls.map Prod.fst, request.InLimit := by
    intro request hrequest
    obtain ⟨call, hcall, rfl⟩ := List.mem_map.mp hrequest
    exact hlimit call hcall
  refine ⟨?_, fun k hfits i call a b c hcall ha hb hc => ?_⟩
  · have hprogress := Progress.start hstart
    rw [List.length_map] at hprogress
    exact hprogress.returns hfail ht hbackground hclient
  · -- Bitcask and `LsmStore` reply as the map does
    obtain ⟨o', hopen', hholds⟩ := Bitcask.holds_recover listing bitcaskOptions
    have ho : o' = o := by
      have hsame := hopen'.symm.trans hopen
      exact Prod.ext (Except.ok.inj (Prod.ext_iff.mp hsame).1) (Prod.ext_iff.mp hsame).2
    subst ho
    rw [hholds.replies_eq hlimit hids] at hb
    have hinv := inv_after hstart hlimit' hfail ht (blockSize_of_start hstart) hfits
    have hmapped : (Mapping.replies (calls.map Prod.fst))[i]? = some c := by
      obtain ⟨rest, hrest⟩ := hinv.replies_prefix
      rw [← hrest, List.getElem?_append_left (List.getElem?_eq_some_iff.mp hc).1]
      exact hc
    cases hb.symm.trans hmapped
    have hrequest : (calls.map Prod.fst)[i]? = some call.1 := by
      rw [List.getElem?_map, hcall]
      rfl
    rw [and_self]
    exact MemoryStore.replies_same_iff hrequest ha hmapped

def inTurn (k : Nat) : Turn := if k % 2 = 0 then .client else .background

theorem inTurn_client (i : Nat) : ∃ j, i ≤ j ∧ inTurn j = .client :=
  ⟨2 * i, by omega, if_pos (by omega)⟩

theorem inTurn_background (i : Nat) : ∃ j, i ≤ j ∧ inTurn j = .background :=
  ⟨2 * i + 1, by omega, if_neg (by omega)⟩

/-- A put, a `get` of its key and a `remove` of it, in stores that rotate after every write. -/
theorem stores_agree_iff_three_calls :
    let calls : List (Request × Timestamp) :=
      [(⟨.put, text "a", text "x"⟩, 1), (⟨.get, text "a", []⟩, 2), (⟨.delete, text "a", []⟩, 3)]
    ∃ (σ : Session) (o : Bitcask.OpenStore), start { memtableSize := 1 } .asStored (calls.map Prod.fst) = some σ ∧
      (Bitcask.recover { maxFileSize := 1 }).run (Bitcask.machine .asStored) ∅ = (.ok o.1, o.2) ∧
      (∃ k, (σ.after { memtableSize := 1 } .asStored inTurn k).replies.length = 3) ∧
      ∃ a b c, (MemoryStore.replies (calls.map Prod.fst))[1]? = some a ∧
        (Bitcask.replies .asStored o calls)[1]? = some b ∧
        (σ.after { memtableSize := 1 } .asStored inTurn 20).replies[1]? = some c ∧
        a = (.ok, some (text "x")) ∧ Reply.Same a b ∧ Reply.Same a c := by
  intro calls
  have hlsm : ∃ σ ∈ start { memtableSize := 1 } .asStored (calls.map Prod.fst),
      (∀ j ∈ List.range 21, (σ.after { memtableSize := 1 } .asStored inTurn j).Fits { memtableSize := 1 }) ∧
      (σ.after { memtableSize := 1 } .asStored inTurn 20).replies[1]?.isSome := by decide +kernel
  obtain ⟨σ, hstart, hfits, hanswered⟩ := hlsm
  obtain ⟨c, hc⟩ := Option.isSome_iff_exists.mp hanswered
  have hbitcask : Returned (fun s d =>
        ∀ i ∈ List.range 3, (Bitcask.before .asStored (s, d) calls i).1.activeId ≠ maxUInt32)
      ((Bitcask.recover { maxFileSize := 1 }).run (Bitcask.machine .asStored) ∅) := by decide +kernel
  obtain ⟨s, d, hopen, hids⟩ := hbitcask
  obtain ⟨b, hb⟩ : ∃ b, (Bitcask.replies .asStored (s, d) calls)[1]? = some b := ⟨_, rfl⟩
  obtain ⟨hreturns, hagree⟩ := stores_agree_iff (o := (s, d)) (by decide) rfl (by decide) hstart hopen
    (fun i hi => hids i (List.mem_range.mpr hi)) inTurn_background inTurn_client
  refine ⟨σ, (s, d), hstart, hopen, hreturns, (.ok, some (text "x")), b, c, rfl, hb, hc, rfl, ?_⟩
  exact (hagree 20 (fun j hj => hfits j (List.mem_range.mpr (Nat.lt_succ_of_le hj))) 1 _ _ b c rfl rfl hb hc).mpr
    (by decide)

/-- `remove("")`: refused by `LsmStore` and `Bitcask`, accepted by `MemoryStore`. -/
theorem stores_differ_on_empty_remove :
    let calls : List (Request × Timestamp) := [(⟨.delete, [], []⟩, 1)]
    MemoryStore.replies (calls.map Prod.fst) = [(.ok, none)] ∧
      (∃ o : Bitcask.OpenStore, (Bitcask.recover {}).run (Bitcask.machine .asStored) ∅ = (.ok o.1, o.2) ∧
        Bitcask.replies .asStored o calls = [(.invalidArgument (text "key must not be empty"), none)]) ∧
      ∃ σ, start {} .asStored (calls.map Prod.fst) = some σ ∧
        (σ.after {} .asStored inTurn 1).replies = [(.invalidArgument (text "key must not be empty"), none)] := by
  intro calls
  refine ⟨rfl, ?_, ?_⟩
  · obtain ⟨o, hopen, _⟩ := Bitcask.holds_recover .asStored {}
    exact ⟨o, hopen, rfl⟩
  · change ∃ σ ∈ start {} .asStored (calls.map Prod.fst), (σ.after {} .asStored inTurn 1).replies =
      [(.invalidArgument (text "key must not be empty"), none)]
    decide +kernel

end Session

end KVStore
