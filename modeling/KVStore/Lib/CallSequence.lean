import Mathlib

namespace KVStore.Lib.CallSequence

variable {σ τ ι β : Type} (answer : σ → ι → β) (next : σ → ι → σ)

/-- What calls made one after the other return, each in the state the ones before left. -/
def replies : σ → List ι → List β
  | _, [] => []
  | s, call :: calls => answer s call :: replies (next s call) calls

theorem replies_append (s : σ) (calls later : List ι) :
    replies answer next s (calls ++ later) =
      replies answer next s calls ++ replies answer next (calls.foldl next s) later := by
  induction calls generalizing s with
  | nil => rfl
  | cons first calls ih => exact congrArg (answer s first :: ·) (ih (next s first))

theorem getElem?_replies (s : σ) (calls : List ι) (i : Nat) :
    (replies answer next s calls)[i]? = calls[i]?.map (answer ((calls.take i).foldl next s)) := by
  induction calls generalizing s i with
  | nil => rfl
  | cons call calls ih =>
    cases i with
    | zero => rfl
    | succ i => exact ih (next s call) i

variable {answer next} {next' : τ → ι → τ} {R : σ → τ → Prop} {calls : List ι}

theorem related_take {s : σ} {t : τ} (h : R s t) (hcall : ∀ i call, calls[i]? = some call →
      R ((calls.take i).foldl next s) ((calls.take i).foldl next' t) →
      R (next ((calls.take i).foldl next s) call) (next' ((calls.take i).foldl next' t) call)) (i : Nat) :
    R ((calls.take i).foldl next s) ((calls.take i).foldl next' t) := by
  induction i with
  | zero => exact h
  | succ i ih =>
    rw [List.take_add_one, List.foldl_append, List.foldl_append]
    cases hi : calls[i]? with
    | none => exact ih
    | some call => exact hcall i call hi ih

end KVStore.Lib.CallSequence
