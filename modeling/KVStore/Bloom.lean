import KVStore.Reading
import KVStore.SSTableBuilder
import KVStore.Lib.BitArray

namespace KVStore

open Lib Checked Encoding Sizes

namespace Hashing

def kFnvOffsetBasis : BitVec 64 := 14695981039346656037#64
def kFnvPrime : BitVec 64 := 1099511628211#64

def hash64 (data : Bytes) : BitVec 64 :=
  data.foldl (fun hash c => (hash ^^^ BitVec.ofNat 64 c) * kFnvPrime) kFnvOffsetBasis

end Hashing

/-- The probe count of a filter: a product of floating point numbers, rounded and clamped.
The formats only need the clamp. -/
class ProbeCount where
  probesFor : Nat → Nat
  one_le : ∀ bitsPerKey, 1 ≤ probesFor bitsPerKey
  le_thirty : ∀ bitsPerKey, probesFor bitsPerKey ≤ 30

/-- The nearest whole number to `bits_per_key * ln 2`. -/
instance (priority := low) ProbeCount.nearest : ProbeCount where
  probesFor bitsPerKey := min (max ((2 * bitsPerKey * 69314718055994531 + 10 ^ 17) / (2 * 10 ^ 17)) 1) 30
  one_le _ := by omega
  le_thirty _ := Nat.min_le_right _ _

example : (ProbeCount.nearest.probesFor 10, ProbeCount.nearest.probesFor 1) = (7, 1) := by decide

structure Probe where
  position : BitVec 32
  delta : BitVec 32
  deriving DecidableEq

namespace Probe

def probeForHash (hash : BitVec 64) : Probe :=
  let delta := (hash >>> 32).setWidth 32
  ⟨hash.setWidth 32, if delta = 0 then 0x9E3779B9#32 else delta⟩

def probeFor (key : Key) : Probe := probeForHash (Hashing.hash64 key)

def next (p : Probe) : Probe := { p with position := p.position + p.delta }

def bit (p : Probe) (numBits : Nat) : Nat := p.position.toNat % numBits

/-- The inner loop of `BloomBuilder::finish`. -/
def setAll (modulus : Nat) : Nat → Probe → Bytes → Bytes
  | 0, _, bits => bits
  | n + 1, probe, bits => setAll modulus n probe.next (BitArray.set bits (probe.bit modulus))

def Covered (modulus : Nat) : Nat → Probe → Bytes → Prop
  | 0, _, _ => True
  | n + 1, probe, bits => BitArray.IsSet bits (probe.bit modulus) ∧ Covered modulus n probe.next bits

variable {modulus : Nat} {bits : Bytes}

theorem position_iterate (p : Probe) (j : Nat) :
    (next^[j] p).position.toNat = (p.position.toNat + j * p.delta.toNat) % 2 ^ 32 ∧ (next^[j] p).delta = p.delta := by
  induction j with
  | zero =>
    refine ⟨?_, rfl⟩
    rw [Function.iterate_zero_apply, Nat.zero_mul, Nat.add_zero, Nat.mod_eq_of_lt p.position.isLt]
  | succ j ih =>
    obtain ⟨hposition, hdelta⟩ := ih
    rw [Function.iterate_succ_apply']
    refine ⟨?_, hdelta⟩
    rw [next, BitVec.toNat_add, hposition, hdelta, Nat.mod_add_mod, Nat.succ_mul, Nat.add_assoc]

@[simp] theorem length_setAll (n : Nat) (p : Probe) (bits : Bytes) :
    (setAll modulus n p bits).length = bits.length := by
  induction n generalizing p bits with
  | zero => rfl
  | succ n ih => rw [setAll, ih, BitArray.length_set]

theorem isSet_setAll {i : Nat} (h : BitArray.IsSet bits i) (n : Nat) (p : Probe) :
    BitArray.IsSet (setAll modulus n p bits) i := by
  induction n generalizing p bits with
  | zero => exact h
  | succ n ih => exact ih (h.set _) p.next

theorem Covered.setAll {n : Nat} {p : Probe} (h : Covered modulus n p bits) (m : Nat) (q : Probe) :
    Covered modulus n p (Probe.setAll modulus m q bits) := by
  induction n generalizing p with
  | zero => trivial
  | succ n ih => exact ⟨isSet_setAll h.1 m q, ih h.2⟩

theorem covered_setAll (hpos : 0 < modulus) (hbits : modulus ≤ 8 * bits.length) (n : Nat)
    (p : Probe) : Covered modulus n p (setAll modulus n p bits) := by
  induction n generalizing p bits with
  | zero => trivial
  | succ n ih =>
    have hin : p.bit modulus < 8 * bits.length := Nat.lt_of_lt_of_le (Nat.mod_lt _ hpos) hbits
    constructor
    · exact isSet_setAll (BitArray.isSet_set hin) n p.next
    · apply ih
      rwa [BitArray.length_set]

end Probe

/-- It keeps the hashes of the keys: the length of the bit array depends on their number. -/
structure BloomBuilder where
  bitsPerKey : Nat
  hashes : List (BitVec 64)

namespace BloomBuilder

def create (bitsPerKey : Nat) : BloomBuilder :=
  ⟨if bitsPerKey = 0 then Sizes.kDefaultBitsPerKey else bitsPerKey, []⟩

def add (b : BloomBuilder) (key : Key) : BloomBuilder := { b with hashes := b.hashes ++ [Hashing.hash64 key] }

def byteCount (b : BloomBuilder) : Nat :=
  let bits := b.hashes.length * b.bitsPerKey % 2 ^ 64
  (min (max bits Sizes.kBloomMinBits) Sizes.kBloomMaxBits + 7) / 8

def modulus (b : BloomBuilder) : Nat := b.byteCount * 8

theorem byteCount_pos (b : BloomBuilder) : 0 < b.byteCount := by
  simp only [byteCount, kBloomMinBits, kBloomMaxBits]
  omega

theorem modulus_lt (b : BloomBuilder) : b.modulus < 2 ^ 32 := by
  simp only [modulus, byteCount, kBloomMaxBits]
  omega

variable [ProbeCount]

def probes (b : BloomBuilder) : Nat := ProbeCount.probesFor b.bitsPerKey

def setHash (b : BloomBuilder) (bits : Bytes) (hash : BitVec 64) : Bytes :=
  Probe.setAll b.modulus b.probes (Probe.probeForHash hash) bits

def bits (b : BloomBuilder) : Bytes := b.hashes.foldl b.setHash (List.replicate b.byteCount 0)

def body (b : BloomBuilder) : Bytes := putU32 b.modulus ++ (Fin.ofNat 256 b.probes :: b.bits)

def finish [Crc] (b : BloomBuilder) : Bytes := b.body ++ putU32 (Crc.crc32Of b.body).toNat

theorem length_foldl_setHash (b : BloomBuilder) (hashes : List (BitVec 64)) (bits : Bytes) :
    (hashes.foldl b.setHash bits).length = bits.length := by
  induction hashes generalizing bits with
  | nil => rfl
  | cons hash hashes ih => rw [List.foldl_cons, ih, setHash, Probe.length_setAll]

@[simp] theorem length_bits (b : BloomBuilder) : b.bits.length = b.byteCount := by
  rw [bits, length_foldl_setHash, List.length_replicate]

theorem length_body (b : BloomBuilder) : b.body.length = kBloomHeaderSize + b.byteCount := by
  rw [body, List.length_append, length_putU32, List.length_cons, length_bits, kBloomHeaderSize]
  omega

theorem length_finish [Crc] (b : BloomBuilder) :
    b.finish.length = kBloomHeaderSize + b.byteCount + kBloomTrailerSize := by
  rw [finish, List.length_append, length_body, length_putU32]
  rfl

theorem covered_foldl (b : BloomBuilder) {hash : BitVec 64} {hashes : List (BitVec 64)} (h : hash ∈ hashes)
    {bits : Bytes} (hbits : bits.length = b.byteCount) :
    Probe.Covered b.modulus b.probes (Probe.probeForHash hash) (hashes.foldl b.setHash bits) := by
  have hpos : 0 < b.modulus := Nat.mul_pos b.byteCount_pos (by decide)
  have hkeep : ∀ (later : List (BitVec 64)) (bits : Bytes),
      Probe.Covered b.modulus b.probes (Probe.probeForHash hash) bits →
        Probe.Covered b.modulus b.probes (Probe.probeForHash hash) (later.foldl b.setHash bits) := by
    intro later
    induction later with
    | nil => exact fun _ hcovered => hcovered
    | cons next later ih => exact fun _ hcovered => ih _ (hcovered.setAll _ _)
  induction hashes generalizing bits with
  | nil => exact absurd h List.not_mem_nil
  | cons first hashes ih =>
    rw [List.foldl_cons]
    rcases List.mem_cons.mp h with rfl | h
    · apply hkeep
      apply Probe.covered_setAll hpos
      rw [modulus, hbits]
      omega
    · apply ih h
      rw [setHash, Probe.length_setAll, hbits]

end BloomBuilder

structure BloomFilter where
  numBits : Nat
  numProbes : Nat
  bits : Bytes
  deriving DecidableEq

namespace BloomFilter

def decode [Crc] (block : Bytes) : Read BloomFilter := do
  refuse (block.length < Sizes.kBloomHeaderSize + Sizes.kBloomTrailerSize)
    (.corruption (text "bloom filter block is too small to be one"))
  let payloadSize ← sub block.length Sizes.kBloomTrailerSize
  let crc ← readU32 block payloadSize
  let payload ← slice block 0 payloadSize
  refuse (crc ≠ (Crc.crc32Of payload).toNat) (.corruption (text "bloom filter block fails its crc"))
  let numBits ← readU32 block 0
  let numProbes ← item block 4
  refuse (numBits = 0 ∨ numProbes = 0) (.corruption (text "bloom filter declares no bits or no probes"))
  let bitBytes ← sub payloadSize Sizes.kBloomHeaderSize
  refuse ((numBits + 7) / 8 ≠ bitBytes)
    (.corruption (text "bloom filter bit count disagrees with its block size"))
  let bits ← slice block Sizes.kBloomHeaderSize bitBytes
  return ⟨numBits, numProbes, bits⟩

def probeAll (f : BloomFilter) : Nat → Probe → Read Bool
  | 0, _ => pure true
  | n + 1, probe => do
      let position := probe.bit f.numBits
      let byte ← item f.bits (position / 8)
      if byte &&& BitArray.mask position = 0 then return false
      else f.probeAll n probe.next

def maybeContains (f : BloomFilter) (key : Key) : Read Bool := f.probeAll f.numProbes (Probe.probeFor key)

structure Sound (f : BloomFilter) : Prop where
  some_bits : f.numBits ≠ 0
  length_bits : f.bits.length = (f.numBits + 7) / 8

theorem yields_decode [Crc] (block : Bytes) : Yields Failure.IsCorruption Sound (decode block) := by
  apply yields_refused
  intro hsize
  have hmin : 9 ≤ block.length := Nat.not_lt.mp hsize
  rw [sub_bind (b := kBloomTrailerSize) (by rw [kBloomTrailerSize]; omega)]
  have hpayload : 5 ≤ block.length - kBloomTrailerSize ∧
      block.length - kBloomTrailerSize + 4 ≤ block.length := by
    rw [kBloomTrailerSize]
    omega
  apply (yields_readU32 hpayload.2).bind
  intro crc _
  apply (yields_slice (by omega)).bind
  intro payload _
  apply yields_refused
  intro _
  apply (yields_readU32 (i := 0) (by omega)).bind
  intro numBits _
  apply (yields_item (i := 4) (by omega)).bind
  intro numProbes _
  apply yields_refused
  intro hnone
  rw [sub_bind (b := kBloomHeaderSize) hpayload.1]
  apply yields_refused
  intro hcount
  apply (yields_slice (by rw [kBloomHeaderSize, kBloomTrailerSize]; omega)).bind
  rintro bits rfl
  apply yields_pure
  constructor
  · exact fun h => hnone (.inl h)
  · rw [not_not.mp hcount, List.length_take, List.length_drop, kBloomHeaderSize, kBloomTrailerSize]
    omega

variable {f : BloomFilter}

theorem Sound.bit_lt (h : f.Sound) (p : Probe) : p.bit f.numBits / 8 < f.bits.length := by
  have hlt : p.bit f.numBits < f.numBits := Nat.mod_lt _ (Nat.pos_of_ne_zero h.some_bits)
  rw [h.length_bits]
  omega

variable {E : Failure → Prop}

theorem Sound.yields_probeAll (h : f.Sound) (n : Nat) (p : Probe) :
    Yields E (fun _ => True) (f.probeAll n p) := by
  induction n generalizing p with
  | zero => trivial
  | succ n ih =>
    apply (yields_item (h.bit_lt p)).bind
    intro byte _
    split
    · trivial
    · exact ih p.next

theorem Sound.yields_maybeContains (h : f.Sound) (key : Key) :
    Yields E (fun _ => True) (f.maybeContains key) := h.yields_probeAll _ _

theorem probeAll_of_covered {n : Nat} {p : Probe} (h : Probe.Covered f.numBits n p f.bits) :
    f.probeAll n p = .ok true := by
  induction n generalizing p with
  | zero => rfl
  | succ n ih =>
    obtain ⟨⟨byte, hbyte, hset⟩, hrest⟩ := h
    rw [probeAll, item_of_getElem? hbyte, ok_bind, if_neg hset]
    exact ih hrest

end BloomFilter

namespace BloomBuilder

variable [ProbeCount] {key : Key}

def filter (b : BloomBuilder) : BloomFilter := ⟨b.modulus, b.probes, b.bits⟩

theorem decode_finish [Crc] (b : BloomBuilder) : BloomFilter.decode b.finish = .ok b.filter := by
  have hlength := b.length_finish
  have hbody := b.length_body
  have hpos := b.byteCount_pos
  have hprobes : b.probes < 256 := Nat.lt_of_le_of_lt (ProbeCount.le_thirty _) (by decide)
  have hsome : b.probes ≠ 0 := Nat.ne_of_gt (ProbeCount.one_le _)
  rw [kBloomHeaderSize, kBloomTrailerSize] at hlength
  rw [kBloomHeaderSize] at hbody
  obtain ⟨hpayload, htrailer⟩ := (Stands.whole b.finish).of_append
  obtain ⟨hnumBits, hrest⟩ := hpayload.of_append
  rw [length_putU32] at hrest
  obtain ⟨hnumProbes, hbits⟩ := (show Stands b.finish ([Fin.ofNat 256 b.probes] ++ b.bits) _ _ from hrest).of_append
  rw [Nat.zero_add, hbody] at htrailer hpayload
  have hitem : b.finish[4]? = some (Fin.ofNat 256 b.probes) := by
    rw [finish, body, List.append_assoc, List.getElem?_append_right (by simp)]
    simp
  have hslice := hpayload.slice (ε := Failure)
  have hbitBytes := hbits.slice (ε := Failure)
  rw [hbody] at hslice
  rw [length_bits] at hbitBytes
  have hvalue : (Fin.ofNat 256 b.probes : Byte).val = b.probes := Nat.mod_eq_of_lt hprobes
  have hzero : (Fin.ofNat 256 b.probes : Byte) ≠ 0 := fun h => hsome (by rw [← hvalue, h]; rfl)
  have hpayloadSize : b.finish.length - kBloomTrailerSize = 5 + b.byteCount := by
    rw [kBloomTrailerSize]
    omega
  have hcount : (b.modulus + 7) / 8 = 5 + b.byteCount - kBloomHeaderSize := by
    rw [modulus, kBloomHeaderSize]
    omega
  have hbitCount : 5 + b.byteCount - kBloomHeaderSize = b.byteCount := by
    rw [kBloomHeaderSize]
    omega
  rw [BloomFilter.decode, refuse_bind (by rw [kBloomHeaderSize, kBloomTrailerSize]; omega),
    sub_bind (by rw [kBloomTrailerSize]; omega), hpayloadSize,
    readU32_of_stands htrailer (BitVec.isLt _), ok_bind, hslice, ok_bind, refuse_bind (not_not.mpr rfl),
    readU32_of_stands hnumBits b.modulus_lt, ok_bind, item_of_getElem? hitem, ok_bind]
  rw [refuse_bind (by rintro (h | h); exacts [Nat.ne_of_gt (Nat.mul_pos hpos (by decide)) h, hzero h]),
    sub_bind (by rw [kBloomHeaderSize]; omega), refuse_bind (not_not.mpr hcount),
    hbitCount]
  rw [show (kBloomHeaderSize : Nat) = 0 + 4 + [Fin.ofNat 256 b.probes].length from rfl, hbitBytes, ok_bind, hvalue]
  rfl

theorem maybeContains_filter {b : BloomBuilder} (h : Hashing.hash64 key ∈ b.hashes) :
    b.filter.maybeContains key = .ok true :=
  BloomFilter.probeAll_of_covered (b.covered_foldl h List.length_replicate)

def ofKeys (bitsPerKey : Nat) (keys : List Key) : BloomBuilder := keys.foldl add (create bitsPerKey)

omit [ProbeCount] in
theorem hashes_foldl_add (b : BloomBuilder) (keys : List Key) :
    (keys.foldl add b).hashes = b.hashes ++ keys.map Hashing.hash64 := by
  induction keys generalizing b with
  | nil => exact (List.append_nil _).symm
  | cons key keys ih =>
    rw [List.foldl_cons, ih, List.map_cons, add, List.append_assoc]
    rfl

omit [ProbeCount] in
theorem hash_mem_ofKeys (bitsPerKey : Nat) {keys : List Key} (h : key ∈ keys) :
    Hashing.hash64 key ∈ (ofKeys bitsPerKey keys).hashes := by
  rw [ofKeys, hashes_foldl_add]
  exact List.mem_append_right _ (List.mem_map_of_mem h)

/-- A filter that is written and read back denies none of its keys. The probes of any key wrap at
32 bits and fall inside the bit array, whatever the number of bits was rounded and clamped to. -/
theorem decoded_filter_never_denies [Crc] (bitsPerKey : Nat) (keys : List Key) :
    ∃ f, BloomFilter.decode (ofKeys bitsPerKey keys).finish = .ok f ∧
      (∀ key ∈ keys, f.maybeContains key = .ok true) ∧
      1 ≤ f.numProbes ∧ f.numProbes ≤ 30 ∧
      Sizes.kBloomMinBits ≤ f.numBits ∧ f.numBits ≤ Sizes.kBloomMaxBits ∧ f.numBits = 8 * f.bits.length ∧
      ∀ (key : Key) (j : Nat), (Probe.next^[j] (Probe.probeFor key)).bit f.numBits =
          ((Probe.probeFor key).position.toNat + j * (Probe.probeFor key).delta.toNat) % 2 ^ 32 % f.numBits ∧
        (Probe.next^[j] (Probe.probeFor key)).bit f.numBits / 8 < f.bits.length := by
  set b := ofKeys bitsPerKey keys
  have hsound : b.filter.Sound := (BloomFilter.yields_decode _).of_ok (decode_finish b)
  have hclamp : 64 ≤ b.modulus ∧ b.modulus ≤ 0xFFFFFFF8 := by
    simp only [modulus, byteCount, kBloomMinBits, kBloomMaxBits]
    omega
  refine ⟨b.filter, decode_finish b, ?_, ProbeCount.one_le _, ProbeCount.le_thirty _, hclamp.1, hclamp.2, ?_, ?_⟩
  · intro key hkey
    exact maybeContains_filter (hash_mem_ofKeys bitsPerKey hkey)
  · rw [filter, length_bits, modulus, Nat.mul_comm]
  · intro key j
    refine ⟨?_, hsound.bit_lt _⟩
    rw [Probe.bit, (Probe.position_iterate _ j).1]

end BloomBuilder

end KVStore
