import KVStore.RecordScan
import KVStore.Lib.Checked

namespace KVStore

open Lib Checked

/-- A computation over bytes that came off disk or off the wire. -/
abbrev Read (α : Type) := Checked Failure α

def Failure.IsCorruption (f : Failure) : Prop := f.status.code = .corruption

theorem yields_refuse_corruption {c : Prop} [Decidable c] {message : Bytes} :
    Yields Failure.IsCorruption (fun _ => ¬ c) (refuse c (.corruption message)) := yields_refuse fun _ => rfl

theorem yields_refused {α : Type} {c : Prop} [Decidable c] {message : Bytes} {f : Unit → Read α} {Q : α → Prop}
    (h : ¬ c → Yields Failure.IsCorruption Q (f ())) :
    Yields Failure.IsCorruption Q (refuse c (.corruption message) >>= f) :=
  yields_refuse_corruption.bind fun _ hc => h hc

/-- `LogFile::read_at` on the file of this name. -/
def readFile (name content : Bytes) (offset size : Nat) : Read Bytes :=
  match readAt content offset size with
  | some bytes => pure bytes
  | none => fail (.corruption (text "short read: " ++ name ++ text " ends inside the record"))

theorem yields_readFile (name content : Bytes) (offset size : Nat) :
    Yields Failure.IsCorruption (fun bytes => bytes.length = size ∧ ∃ rest, content.drop offset = bytes ++ rest)
      (readFile name content offset size) := by
  unfold readFile
  split
  next bytes h => exact yields_pure (eq_of_readAt h)
  next => exact yields_fail rfl

theorem readFile_of_stands {content part : Bytes} {i j : Nat} (name : Bytes) (h : Stands content part i j) :
    readFile name content i part.length = .ok part := by
  obtain ⟨rest, hrest⟩ := h.2.2
  rw [readFile, readAt_of_append hrest.symm]
  rfl

namespace Encoding

def readWord (width : Nat) (bytes : Bytes) (first : Nat) : Read Nat := do
  return LittleEndian.get (← slice bytes first width)

def readU32 (bytes : Bytes) (first : Nat) : Read Nat := readWord 4 bytes first
def readU64 (bytes : Bytes) (first : Nat) : Read Nat := readWord 8 bytes first

variable {bytes : Bytes} {i j v width : Nat} {E : Failure → Prop}

theorem yields_readWord (h : i + width ≤ bytes.length) :
    Yields E (fun v => v < 256 ^ width ∧ Stands bytes (LittleEndian.put width v) i (i + width))
      (readWord width bytes i) := by
  apply (yields_slice h).bind
  rintro word rfl
  apply yields_pure
  exact ⟨LittleEndian.window_lt, by rw [LittleEndian.put_window h]; exact .of_slice h⟩

theorem readWord_of_stands (h : Stands bytes (LittleEndian.put width v) i j) (hv : v < 256 ^ width) :
    readWord width bytes i = .ok v := by
  have hslice := h.slice (ε := Failure)
  rw [LittleEndian.length_put] at hslice
  rw [readWord, hslice, ok_bind]
  exact congrArg Except.ok (LittleEndian.get_put hv)

theorem yields_readU32 (h : i + 4 ≤ bytes.length) :
    Yields E (fun v => v < 2 ^ 32 ∧ Stands bytes (putU32 v) i (i + 4)) (readU32 bytes i) := yields_readWord h

theorem yields_readU64 (h : i + 8 ≤ bytes.length) :
    Yields E (fun v => v < 2 ^ 64 ∧ Stands bytes (putU64 v) i (i + 8)) (readU64 bytes i) := yields_readWord h

theorem readU32_of_stands (h : Stands bytes (putU32 v) i j) (hv : v < 2 ^ 32) : readU32 bytes i = .ok v :=
  readWord_of_stands h hv

theorem readU64_of_stands (h : Stands bytes (putU64 v) i j) (hv : v < 2 ^ 64) : readU64 bytes i = .ok v :=
  readWord_of_stands h hv

end Encoding

end KVStore
