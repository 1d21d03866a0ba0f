import KVStore.Lib.LittleEndian

namespace KVStore

abbrev Byte := Fin 256
abbrev Bytes := List Byte

/-- Keys and values are byte strings; keys compare as `std::string` does, byte
by byte as unsigned numbers. -/
abbrev Key := Bytes
abbrev Value := Bytes

-- Comparisons of keys are decided by the order itself, so that facts proved for
-- an arbitrary linear order apply as they stand.
instance : DecidableLT Key := LinearOrder.toDecidableLT
instance : DecidableEq Key := LinearOrder.toDecidableEq

abbrev FileId := Nat

def kFirstFileId : FileId := 1

def fileIdLimit : Nat := 2 ^ 32

def maxUInt32 : Nat := 2 ^ 32 - 1

def text (s : String) : Bytes := s.toList.map (fun c => Fin.ofNat 256 c.toNat)

def kFileIdDigits : Nat := 6

def padFileId (id : FileId) : Bytes :=
  List.replicate (kFileIdDigits - (toString id).length) (Fin.ofNat 256 48) ++ text (toString id)

/-- The order in which a directory is listed: any order, as the file system likes. -/
structure Listing where
  order : {α : Type} → List α → List α
  perm : ∀ {α : Type} (l : List α), (order l).Perm l

def Listing.asStored : Listing := ⟨id, fun _ => List.Perm.refl _⟩

inductive StatusCode
  | ok
  | notFound
  | ioError
  | corruption
  | invalidArgument
  deriving DecidableEq, Repr

structure Status where
  code : StatusCode
  message : Bytes
  deriving DecidableEq, Repr

namespace Status

def ok : Status := ⟨.ok, []⟩
def notFound (message : Bytes) : Status := ⟨.notFound, message⟩
def ioError (message : Bytes) : Status := ⟨.ioError, message⟩
def corruption (message : Bytes) : Status := ⟨.corruption, message⟩
def invalidArgument (message : Bytes) : Status := ⟨.invalidArgument, message⟩

def isOk (s : Status) : Bool := s.code == .ok

@[simp] theorem isOk_ok : isOk ok = true := rfl

end Status

/-- The status inside a `Result` that holds no value is never Ok. -/
structure Failure where
  status : Status
  bad : status.isOk = false
  deriving DecidableEq, Repr

namespace Failure

def ioError (message : Bytes) : Failure := ⟨.ioError message, rfl⟩
def corruption (message : Bytes) : Failure := ⟨.corruption message, rfl⟩
def invalidArgument (message : Bytes) : Failure := ⟨.invalidArgument message, rfl⟩

end Failure

namespace Record

def kCrcSize : Nat := 4
def kHeaderSize : Nat := 21
def kMaxRecordSize : Nat := maxUInt32

end Record

end KVStore
