import KVStore.Lib.KWayMerge
import KVStore.Reading
import KVStore.SSTableBuilder

namespace KVStore

open Lib KWayMerge SortedRun Checked

/-- The member functions of an `EntrySource`, over the states of the sources: `entry` is
what `key`, `value` and `tombstone` read, and `advance` says what it leaves behind
whether or not it fails. -/
structure EntrySource (σ : Type) where
  valid : σ → Bool
  entry : σ → Checked Empty Entry
  advance : σ → Checked Empty (Except Failure Unit × σ)

/-- A source from which these entries come, and that never fails to advance. -/
inductive EntrySource.Streams {σ : Type} (S : EntrySource σ) : σ → List Entry → Prop
  | done {s : σ} (invalid : S.valid s = false) : Streams S s []
  | step {s s' : σ} {e : Entry} {rest : List Entry} (valid : S.valid s = true) (entry : S.entry s = .ok e)
      (advance : S.advance s = .ok (.ok (), s')) (next : Streams S s' rest) : Streams S s (e :: rest)

namespace EntrySource

variable {σ : Type} {S : EntrySource σ}

/-- The loop of a reader: the entry under the source, and one call of `advance`, until the source is
not valid any more. -/
def rest (S : EntrySource σ) : Nat → σ → Checked Empty (Except Failure (List Entry))
  | 0, _ => .error .unfinished
  | fuel + 1, s =>
    if S.valid s then do
      let e ← S.entry s
      let (advanced, s) ← S.advance s
      match advanced with
      | .error f => return .error f
      | .ok _ => do
        let es ← S.rest fuel s
        return es.map (e :: ·)
    else return .ok []

theorem Streams.rest {s : σ} {es : List Entry} (h : S.Streams s es) {fuel : Nat} (hfuel : es.length < fuel) :
    S.rest fuel s = .ok (.ok es) := by
  induction h generalizing fuel with
  | done invalid =>
    obtain ⟨fuel, rfl⟩ := Nat.exists_eq_add_of_lt hfuel
    rw [EntrySource.rest, if_neg (by simp [invalid])]
    rfl
  | step valid entry advance _ ih =>
    obtain ⟨fuel, rfl⟩ := Nat.exists_eq_add_of_lt hfuel
    rw [EntrySource.rest, if_pos valid, entry, ok_bind, advance, ok_bind]
    dsimp only
    rw [ih (by simp; omega), ok_bind]
    rfl

end EntrySource

inductive Tombstones
  | skip
  | emit
  deriving DecidableEq

structure MergingIterator (σ : Type) where
  sources : List σ
  mode : Tombstones := .skip
  key : Key := []
  value : Value := []
  tombstone : Bool := false
  valid : Bool := false
  status : Except Failure Unit := .ok ()

namespace MergingIterator

variable {σ : Type} (S : EntrySource σ)

/-- The loop of `find_next_live` that looks for the smallest key. -/
def winnerFrom : Option σ → List σ → Checked Empty (Option σ)
  | winner, [] => pure winner
  | winner, source :: rest =>
    if S.valid source then
      match winner with
      | none => winnerFrom (some source) rest
      | some w => do
        let e ← S.entry source
        let best ← S.entry w
        winnerFrom (if e.1 < best.1 then some source else some w) rest
    else winnerFrom winner rest

/-- The loop that moves every source on the key, up to the first that fails to. -/
def advanceAll (key : Key) : List σ → Checked Empty (Except Failure Unit × List σ)
  | [] => pure (.ok (), [])
  | source :: rest =>
    let goOn (source : σ) : Checked Empty (Except Failure Unit × List σ) := do
      let (advanced, rest) ← advanceAll key rest
      return (advanced, source :: rest)
    if S.valid source then do
      let e ← S.entry source
      if e.1 = key then do
        let (advanced, source) ← S.advance source
        match advanced with
        | .error f => return (.error f, source :: rest)
        | .ok _ => goOn source
      else goOn source
    else goOn source

/-- Does this winner end the search? -/
def shows (mode : Tombstones) (e : Entry) : Bool := !e.2.tombstone || mode = .emit

/-- `find_next_live`, which `seek_to_first` and `next` both are. -/
def findNextLive : Nat → MergingIterator σ → Checked Empty (Except Failure Unit × MergingIterator σ)
  | 0, _ => .error .unfinished
  | fuel + 1, it => do
    let winner ← winnerFrom S none it.sources
    match winner with
    | none => return (.ok (), { it with valid := false })
    | some winner => do
      let e ← S.entry winner
      let (advanced, sources) ← advanceAll S e.1 it.sources
      let it := { it with
        sources := sources, key := e.1, value := if e.2.tombstone then [] else e.2.value, valid := false }
      match advanced with
      | .error f => return (.error f, { it with status := .error f })
      | .ok _ =>
        if shows it.mode e then
          return (.ok (), { it with tombstone := e.2.tombstone, valid := true })
        else findNextLive fuel it

/-- The rows for a caller that positions the iterator and asks for the next row until
there is none. -/
def rows : Nat → MergingIterator σ → Checked Empty (Except Failure (List Entry))
  | 0, _ => .error .unfinished
  | fuel + 1, it => do
    let (found, it) ← findNextLive S (fuel + 1) it
    match found with
    | .error f => return .error f
    | .ok _ =>
      if it.valid then do
        let rest ← rows fuel it
        return rest.map ((it.key, ⟨it.value, it.tombstone⟩) :: ·)
      else return .ok []

section Rows

variable {S} {sources : List σ} {streams : List (List Entry)}

theorem winnerFrom_spec (h : List.Forall₂ S.Streams sources streams) {best : Option σ} {b : Option Entry}
    (hb : Option.Rel (fun s e => S.entry s = .ok e) best b) :
    ∃ w, winnerFrom S best sources = .ok w ∧
      Option.Rel (fun s e => S.entry s = .ok e) w (KWayMerge.winnerFrom b streams) := by
  induction h generalizing best b with
  | nil => exact ⟨best, rfl, hb⟩
  | cons hs _ ih =>
    cases hs with
    | done invalid =>
      rw [winnerFrom.eq_def, KWayMerge.winnerFrom]
      dsimp only
      rw [if_neg (by simp [invalid])]
      exact ih hb
    | @step s s' e rest valid entry =>
      rw [winnerFrom.eq_def]
      dsimp only
      rw [if_pos valid]
      cases hb with
      | none => exact ih (.some entry)
      | @some w b hw =>
        dsimp only
        rw [entry, ok_bind, hw, ok_bind, KWayMerge.winnerFrom]
        by_cases hlt : e.1 < b.1
        · rw [if_pos hlt, if_pos hlt]
          exact ih (.some entry)
        · rw [if_neg hlt, if_neg hlt]
          exact ih (.some hw)

theorem advanceAll_spec (h : List.Forall₂ S.Streams sources streams) (key : Key) :
    ∃ sources', advanceAll S key sources = .ok (.ok (), sources') ∧
      List.Forall₂ S.Streams sources' (advance key streams) := by
  induction h with
  | nil => exact ⟨[], rfl, .nil⟩
  | @cons s stream sources streams hs _ ih =>
    obtain ⟨sources', hrest, hstreams⟩ := ih
    rw [advanceAll, hrest]
    cases hs with
    | done invalid =>
      rw [if_neg (by simp [invalid])]
      exact ⟨s :: sources', rfl, .cons (.done invalid) hstreams⟩
    | @step _ s' e rest valid entry advance next =>
      rw [if_pos valid, entry, ok_bind]
      by_cases hkey : e.1 = key
      · rw [if_pos hkey, advance, ok_bind]
        refine ⟨s' :: sources', rfl, .cons ?_ hstreams⟩
        rwa [advanceOne, if_pos hkey]
      · rw [if_neg hkey]
        refine ⟨s :: sources', rfl, .cons ?_ hstreams⟩
        rw [advanceOne, if_neg hkey]
        exact .step valid entry advance next

/-- The iterator stands on the first of the entries, or is done, with sources that merge to
the others and hold fewer than `n` entries. -/
def At (S : EntrySource σ) (it : MergingIterator σ) (n : Nat) : List Entry → Prop
  | [] => it.valid = false
  | e :: rest => it.valid = true ∧ (it.key, ⟨it.value, it.tombstone⟩) = storedEntry e ∧
      ∃ streams, List.Forall₂ S.Streams it.sources streams ∧ (∀ s ∈ streams, SortedRun.Sorted s) ∧
        KWayMerge.total streams < n ∧ (KWayMerge.merge streams).filter (shows it.mode) = rest

theorem At.mono {it : MergingIterator σ} {n m : Nat} {l : List Entry} (h : At S it n l) (hle : n ≤ m) :
    At S it m l := by
  cases l with
  | nil => exact h
  | cons =>
    obtain ⟨hvalid, hrow, streams, hs, hsorted, hlt, hrest⟩ := h
    exact ⟨hvalid, hrow, streams, hs, hsorted, hlt.trans_le hle, hrest⟩

theorem findNextLive_spec {fuel : Nat} {it : MergingIterator σ} (h : List.Forall₂ S.Streams it.sources streams)
    (hsorted : ∀ s ∈ streams, Sorted s) (hfuel : total streams < fuel) :
    ∃ it', findNextLive S fuel it = .ok (.ok (), it') ∧ it'.mode = it.mode ∧
      At S it' (total streams) ((merge streams).filter (shows it.mode)) := by
  induction fuel generalizing it streams with
  | zero => exact absurd hfuel (Nat.not_lt_zero _)
  | succ fuel ih =>
    obtain ⟨w, hw, hrel⟩ := winnerFrom_spec h .none
    rw [findNextLive, hw, ok_bind]
    cases hwinner : winner streams with
    | none =>
      rw [winner] at hwinner
      rw [hwinner] at hrel
      cases hrel
      rw [merge_of_winner_none hsorted hwinner]
      exact ⟨_, rfl, rfl, rfl⟩
    | some e =>
      have hlt := total_advance_lt hsorted hwinner
      rw [merge_of_winner hsorted hwinner]
      rw [winner] at hwinner
      rw [hwinner] at hrel
      cases hrel with
      | @some w _ hentry =>
        obtain ⟨sources', hadvanced, hnext⟩ := advanceAll_spec h e.1
        have hsorted' := sorted_advance (k := e.1) hsorted
        dsimp only
        rw [hentry, ok_bind, hadvanced, ok_bind]
        by_cases hshow : shows it.mode e = true
        · rw [List.filter_cons_of_pos hshow, if_pos hshow]
          refine ⟨_, rfl, rfl, rfl, ?_, _, hnext, hsorted', hlt, rfl⟩
          cases he : e.2.tombstone <;> simp [storedEntry, MemEntry.stored, he]
        · rw [List.filter_cons_of_neg hshow, if_neg hshow]
          have hskipped : List.Forall₂ S.Streams ({ it with
              sources := sources', key := e.1, value := if e.2.tombstone then [] else e.2.value,
              valid := false } : MergingIterator σ).sources (advance e.1 streams) := hnext
          obtain ⟨it', hfound, hmode, hspec⟩ := ih hskipped hsorted' (by omega)
          exact ⟨it', hfound, hmode, hspec.mono hlt.le⟩

theorem rows_eq {fuel : Nat} {it : MergingIterator σ} (h : List.Forall₂ S.Streams it.sources streams)
    (hsorted : ∀ s ∈ streams, Sorted s) (hfuel : total streams < fuel) :
    rows S fuel it = .ok (.ok (((merge streams).filter (shows it.mode)).map storedEntry)) := by
  induction fuel generalizing it streams with
  | zero => exact absurd hfuel (Nat.not_lt_zero _)
  | succ fuel ih =>
    obtain ⟨it', hfound, hmode, hspec⟩ := findNextLive_spec h hsorted hfuel
    rw [rows, hfound, ok_bind]
    dsimp only
    cases hmerge : (merge streams).filter (shows it.mode) with
    | nil =>
      have hover : it'.valid = false := by rwa [hmerge] at hspec
      rw [if_neg (by simp [hover])]
      rfl
    | cons =>
      rw [hmerge] at hspec
      obtain ⟨hvalid, hrow, streams', hnext, hsorted', hlt, hrest⟩ := hspec
      rw [if_pos hvalid, ih hnext hsorted' (by omega), ok_bind, hrest, hrow]
      rfl

theorem rows_emit (l : List Entry) : l.filter (shows .emit) = l := List.filter_eq_self.mpr (by simp [shows])

/-- Every key of the sources comes up once, in increasing order, with the entry of the first
source that has it; where tombstones are skipped, the same rows but those. -/
theorem merging_iterator_rows (hsources : List.Forall₂ S.Streams sources streams)
    (hsorted : ∀ s ∈ streams, SortedRun.Sorted s) :
    ∃ emitted bound, (∀ fuel ≥ bound, rows S fuel { sources, mode := .emit } = .ok (.ok emitted)) ∧
      (∀ fuel ≥ bound, rows S fuel { sources, mode := .skip } =
        .ok (.ok (emitted.filter fun e => !e.2.tombstone))) ∧
      SortedRun.Sorted emitted ∧
      (∀ key, key ∈ SortedRun.keys emitted ↔ ∃ s ∈ streams, key ∈ SortedRun.keys s) ∧
      ∀ e ∈ emitted, ∃ (i : Nat) (s : List Entry) (entry : MemEntry), streams[i]? = some s ∧
        (e.1, entry) ∈ s ∧ e.2 = entry.stored ∧ ∀ j < i, ∀ s', streams[j]? = some s' → e.1 ∉ SortedRun.keys s' := by
  have hkeys : ∀ l : List Entry, keys (l.map storedEntry) = keys l := by
    intro l
    rw [keys, List.map_map]
    rfl
  have hfind := find_merge hsorted
  refine ⟨(merge streams).map storedEntry, total streams + 1, fun fuel hfuel => ?_,
    fun fuel hfuel => ?_, ?_, fun key => ?_, fun e he => ?_⟩
  · have hemit : List.Forall₂ S.Streams ({ sources, mode := .emit } : MergingIterator σ).sources streams := hsources
    have hrows := rows_eq hemit hsorted hfuel
    rwa [rows_emit] at hrows
  · have hskip : List.Forall₂ S.Streams ({ sources, mode := .skip } : MergingIterator σ).sources streams := hsources
    have hshows : shows .skip = (fun e => !e.2.tombstone) ∘ storedEntry := by
      funext e
      cases he : e.2.tombstone <;> simp [shows, storedEntry, MemEntry.stored, he]
    rw [rows_eq hskip hsorted hfuel, List.filter_map, hshows]
  · exact List.pairwise_map.mpr (sorted_merge hsorted)
  · rw [hkeys, ← not_iff_not, ← find_eq_none_iff, hfind, find_eq_none_iff]
    simp [keys]
  · obtain ⟨x, hx, rfl⟩ := List.mem_map.mp he
    have hx' := find_of_mem (sorted_merge hsorted).nodup_keys hx
    rw [hfind] at hx'
    obtain ⟨i, s, hi, hmem, hfirst⟩ := exists_first_of_find hx'
    exact ⟨i, s, x.2, hi, hmem, rfl, hfirst⟩

end Rows

section Sources

variable {S} {it : MergingIterator σ} {J : σ → Prop}

theorem advanceAll_keeps {key : Key} {l l' : List σ} {r : Except Failure Unit}
    (hJ : ∀ s r s', J s → S.advance s = .ok (r, s') → J s') (hl : ∀ s ∈ l, J s)
    (h : advanceAll S key l = .ok (r, l')) : ∀ s ∈ l', J s := by
  induction l generalizing l' r with
  | nil =>
    cases h
    exact hl
  | cons s rest ih =>
    obtain ⟨hs, hrest⟩ := List.forall_mem_cons.mp hl
    have hgoOn : ∀ {s' : σ}, J s' → (do
        let (advanced, rest) ← advanceAll S key rest
        return (advanced, s' :: rest)) = Except.ok (r, l') → ∀ s ∈ l', J s := by
      intro s' hs' h
      obtain ⟨⟨r', rest'⟩, hstep, h⟩ := bind_eq_ok.mp h
      cases h
      exact List.forall_mem_cons.mpr ⟨hs', ih hrest hstep⟩
    rw [advanceAll] at h
    split at h
    · obtain ⟨e, _, h⟩ := bind_eq_ok.mp h
      split at h
      · obtain ⟨⟨advanced, s'⟩, hadvance, h⟩ := bind_eq_ok.mp h
        have hs' := hJ s advanced s' hs hadvance
        cases advanced with
        | error =>
          cases h
          exact List.forall_mem_cons.mpr ⟨hs', hrest⟩
        | ok => exact hgoOn hs' h
      · exact hgoOn hs h
    · exact hgoOn hs h

theorem findNextLive_keeps {fuel : Nat} {it' : MergingIterator σ} {r : Except Failure Unit}
    (hJ : ∀ s r s', J s → S.advance s = .ok (r, s') → J s') (hit : ∀ s ∈ it.sources, J s)
    (h : findNextLive S fuel it = .ok (r, it')) : ∀ s ∈ it'.sources, J s := by
  induction fuel generalizing it with
  | zero => cases h
  | succ fuel ih =>
    obtain ⟨winner, _, h⟩ := bind_eq_ok.mp h
    cases winner with
    | none =>
      cases h
      exact hit
    | some =>
      obtain ⟨e, _, h⟩ := bind_eq_ok.mp h
      obtain ⟨⟨advanced, sources⟩, hadvance, h⟩ := bind_eq_ok.mp h
      have hsources := advanceAll_keeps hJ hit hadvance
      cases advanced with
      | error =>
        cases h
        exact hsources
      | ok =>
        dsimp only at h
        split at h
        · cases h
          exact hsources
        · exact ih hsources h

theorem winnerFrom_safe {l : List σ} (hl : ∀ s ∈ l, S.valid s = true → ∃ e, S.entry s = .ok e) {best : Option σ}
    (hbest : ∀ s ∈ best, ∃ e, S.entry s = .ok e) :
    ∃ w, winnerFrom S best l = .ok w ∧ ∀ s ∈ w, ∃ e, S.entry s = .ok e := by
  induction l generalizing best with
  | nil => exact ⟨best, rfl, hbest⟩
  | cons s rest ih =>
    obtain ⟨hs, hrest⟩ := List.forall_mem_cons.mp hl
    rw [winnerFrom.eq_def]
    dsimp only
    split
    next hvalid =>
      have hsome : ∀ s' ∈ some s, ∃ e, S.entry s' = .ok e := by
        rintro _ ⟨⟩
        exact hs hvalid
      cases best with
      | none => exact ih hrest hsome
      | some w =>
        obtain ⟨e, he⟩ := hs hvalid
        obtain ⟨b, hb⟩ := hbest w rfl
        dsimp only
        rw [he, ok_bind, hb, ok_bind]
        split
        · exact ih hrest hsome
        · exact ih hrest hbest
    next => exact ih hrest hbest

variable (hentry : ∀ s, J s → S.valid s = true → ∃ e, S.entry s = .ok e)
    (hadvance : ∀ s, J s → ∃ r s', S.advance s = .ok (r, s') ∧ (r = .ok () → J s'))

include hentry hadvance

theorem advanceAll_safe (key : Key) {l : List σ} (hl : ∀ s ∈ l, J s) :
    ∃ r l', advanceAll S key l = .ok (r, l') ∧ (r = .ok () → ∀ s ∈ l', J s) := by
  induction l with
  | nil => exact ⟨.ok (), [], rfl, fun _ => hl⟩
  | cons s rest ih =>
    obtain ⟨hs, hrest⟩ := List.forall_mem_cons.mp hl
    obtain ⟨r, l', hstep, hl'⟩ := ih hrest
    rw [advanceAll, hstep]
    split
    next hvalid =>
      obtain ⟨e, he⟩ := hentry s hs hvalid
      rw [he, ok_bind]
      split
      · obtain ⟨advanced, s', hs', hJ⟩ := hadvance s hs
        rw [hs', ok_bind]
        cases advanced with
        | error => exact ⟨_, _, rfl, fun hok => by cases hok⟩
        | ok => exact ⟨r, _, rfl, fun hok => List.forall_mem_cons.mpr ⟨hJ rfl, hl' hok⟩⟩
      · exact ⟨r, _, rfl, fun hok => List.forall_mem_cons.mpr ⟨hs, hl' hok⟩⟩
    next => exact ⟨r, _, rfl, fun hok => List.forall_mem_cons.mpr ⟨hs, hl' hok⟩⟩

theorem findNextLive_safe (fuel : Nat) (hit : ∀ s ∈ it.sources, J s) :
    findNextLive S fuel it = .error .unfinished ∨ ∃ p, findNextLive S fuel it = .ok p := by
  induction fuel generalizing it with
  | zero => exact Or.inl rfl
  | succ fuel ih =>
    have hnone : ∀ s ∈ (none : Option σ), ∃ e, S.entry s = .ok e := nofun
    obtain ⟨w, hw, hwinner⟩ := winnerFrom_safe (fun s hs => hentry s (hit s hs)) hnone
    rw [findNextLive, hw, ok_bind]
    cases w with
    | none => exact Or.inr ⟨_, rfl⟩
    | some w =>
      obtain ⟨e, he⟩ := hwinner w rfl
      obtain ⟨r, sources, hsources, hJ⟩ := advanceAll_safe hentry hadvance e.1 hit
      dsimp only
      rw [he, ok_bind, hsources, ok_bind]
      cases r with
      | error => exact Or.inr ⟨_, rfl⟩
      | ok =>
        dsimp only
        split
        · exact Or.inr ⟨_, rfl⟩
        · exact ih (hJ rfl)

end Sources

end MergingIterator

/-- A range of a memtable: what lies at or behind the iterator, up to the upper bound. -/
structure MemtableSource where
  rest : List Entry
  upper : Key

namespace MemtableSource

/-- It begins at the first entry of the map, or at its `lower_bound`. -/
def create (map : List Entry) (beginKey endKey : Key) : MemtableSource :=
  ⟨if beginKey = [] then map else map.dropWhile fun e => e.1 < beginKey, endKey⟩

def entrySource : EntrySource MemtableSource where
  valid s := s.rest.head?.any fun e => s.upper = [] || e.1 < s.upper
  entry s := item s.rest 0
  advance s := .ok (.ok (), { s with rest := s.rest.tail })

theorem streams (rest : List Entry) (upper : Key) :
    entrySource.Streams ⟨rest, upper⟩ (rest.takeWhile fun e => upper = [] || e.1 < upper) := by
  induction rest with
  | nil => exact .done rfl
  | cons e rest ih =>
    rw [List.takeWhile_cons]
    split
    next hvalid => exact .step hvalid rfl rfl ih
    next hover => exact .done (Bool.eq_false_iff.mpr hover)

end MemtableSource

/-- A newer memtable with a tombstone for `a` and an older one. -/
theorem MergingIterator.merging_iterator_rows_of_two_memtables :
    let newer : MemtableSource := ⟨[([97], ⟨[], true⟩), ([99], ⟨[1], false⟩)], []⟩
    let older : MemtableSource := ⟨[([97], ⟨[2], false⟩), ([98], ⟨[3], false⟩)], []⟩
    ∃ emitted bound, (∀ fuel ≥ bound, MergingIterator.rows MemtableSource.entrySource fuel
        { sources := [newer, older], mode := .emit } = .ok (.ok emitted)) ∧
      SortedRun.Sorted emitted ∧ [98] ∈ SortedRun.keys emitted := by
  intro newer older
  obtain ⟨emitted, bound, hemit, -, hsorted, hkeys, -⟩ :=
    merging_iterator_rows
      (.cons (MemtableSource.streams newer.rest []) (.cons (MemtableSource.streams older.rest []) .nil))
      (by decide)
  exact ⟨emitted, bound, hemit, hsorted, (hkeys _).mpr ⟨older.rest, by decide, by decide⟩⟩

end KVStore
