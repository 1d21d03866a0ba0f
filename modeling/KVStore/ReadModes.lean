import KVStore.SSTableReader

namespace KVStore

open Lib Checked Encoding TableFormat

/-- Statuses that a caller tells apart only by their messages. -/
def SameCode (f g : Failure) : Prop := f.status.code = g.status.code

theorem SameCode.refl (f : Failure) : SameCode f f := rfl

def SameBytes (d d' : BlockData) : Prop := d.bytes = d'.bytes

namespace TableHandle

variable {path content : Bytes} {footer : Footer} {index : List IndexEntry} {filterOffset : Nat}

theorem alike_readAt {offset size : Nat} (hsize : 0 < size) :
    Alike SameCode SameBytes (readAt ⟨path, content, .pread⟩ offset size)
      (readAt ⟨path, content, .mmap⟩ offset size) := by
  by_cases hin : offset + size ≤ content.length
  · have hstands := Stands.of_slice hin
    have hlength : ((content.drop offset).take size).length = size := by
      rw [List.length_take, List.length_drop]
      omega
    have hread := readFile_of_stands path hstands
    rw [hlength] at hread
    simp only [readAt]
    rw [hread, ok_bind, refuse_bind (by omega), sub_bind (by omega),
      refuse_bind (by omega), slice_of_le hin, ok_bind]
    exact rfl
  · have hshort : KVStore.readAt content offset size = none := by
      rw [KVStore.readAt, if_neg]
      rw [List.length_take, List.length_drop]
      omega
    have hpread : readAt ⟨path, content, .pread⟩ offset size =
        .error (.status (.corruption (text "short read: " ++ path ++ text " ends inside the record"))) := by
      simp only [readAt, readFile, hshort]
      rfl
    have hmmap : readAt ⟨path, content, .mmap⟩ offset size =
        .error (.status (.corruption (text "sstable read runs past the end of the mapping: " ++ path))) := by
      simp only [readAt]
      by_cases hoffset : content.length < offset
      · rw [refuse_of _ hoffset]
        rfl
      · rw [refuse_bind hoffset, sub_bind (by omega), refuse_of _ (by omega)]
        rfl
    rw [hpread, hmmap]
    exact rfl

variable [Crc]

theorem alike_readFooter : Alike SameCode Eq (readFooter ⟨path, content, .pread⟩)
    (readFooter ⟨path, content, .mmap⟩) := by
  apply alike_bind_same SameCode.refl
  intro _
  apply alike_bind_same SameCode.refl
  intro start
  apply (alike_readAt (by decide)).bind
  intro d d' hbytes
  rw [show d.bytes = d'.bytes from hbytes]
  exact .refl SameCode.refl _

theorem alike_readIndex (hbounded : Bounded ⟨path, content, .pread⟩ footer) :
    Alike SameCode Eq (readIndex ⟨path, content, .pread⟩ footer) (readIndex ⟨path, content, .mmap⟩ footer) := by
  have hsize : 0 < footer.indexSize := Nat.lt_of_lt_of_le (by decide) hbounded.index_size
  apply (alike_readAt hsize).bind
  intro d d' hbytes
  rw [show d.bytes = d'.bytes from hbytes]
  exact .refl SameCode.refl _

theorem alike_loadFilter : Alike SameCode Eq (loadFilter ⟨path, content, .pread⟩ footer)
    (loadFilter ⟨path, content, .mmap⟩ footer) := by
  unfold loadFilter
  by_cases hsize : footer.filterSize = 0
  · rw [if_pos hsize, if_pos hsize]
    exact rfl
  · rw [if_neg hsize, if_neg hsize]
    apply (alike_readAt (Nat.pos_of_ne_zero hsize)).bind
    intro d d' hbytes
    rw [show d.bytes = d'.bytes from hbytes]
    exact .refl SameCode.refl _

theorem alike_readBlockRaw (hindex : ∀ e ∈ index, e.Inside filterOffset) (blockIndex : Nat) :
    Alike SameCode SameBytes (readBlockRaw ⟨path, content, .pread⟩ index blockIndex)
      (readBlockRaw ⟨path, content, .mmap⟩ index blockIndex) := by
  by_cases hin : index.length ≤ blockIndex
  · simp only [readBlockRaw, refuse_of _ hin]
    exact SameCode.refl _
  · have hentry := List.getElem?_eq_getElem (Nat.not_le.mp hin)
    have hinside := hindex _ (List.mem_of_getElem? hentry)
    simp only [readBlockRaw, refuse_bind hin, item_of_getElem? hentry]
    apply (alike_readAt (Nat.lt_of_lt_of_le (by decide) hinside.trailer)).bind
    intro d d' hbytes
    rw [show d.bytes = d'.bytes from hbytes]
    apply alike_bind_same SameCode.refl
    intro payloadSize
    apply alike_bind_same SameCode.refl
    intro crc
    apply alike_bind_same SameCode.refl
    intro payload
    apply alike_bind_same SameCode.refl
    intro _
    show (d.trim payloadSize).bytes = (d'.trim payloadSize).bytes
    rw [BlockData.bytes_trim, BlockData.bytes_trim, show d.bytes = d'.bytes from hbytes]

theorem alike_readMinKey (hindex : ∀ e ∈ index, e.Inside filterOffset) :
    Alike SameCode Eq (readMinKey ⟨path, content, .pread⟩ index) (readMinKey ⟨path, content, .mmap⟩ index) := by
  apply (alike_readBlockRaw hindex 0).bind
  intro d d' hbytes
  rw [show d.bytes = d'.bytes from hbytes]
  exact .refl SameCode.refl _

/-- The tables that the two modes open: they differ in their handles only. -/
def SameTable (path content : Bytes) (t t' : SSTableReader) : Prop :=
  t.Sound ∧ t.handle = ⟨path, content, .pread⟩ ∧ t' = { t with handle := ⟨path, content, .mmap⟩ }

theorem alike_load (path content : Bytes) (bloomEnabled : Bool) :
    Alike SameCode (SameTable path content) (load ⟨path, content, .pread⟩ bloomEnabled)
      (load ⟨path, content, .mmap⟩ bloomEnabled) := by
  apply (alike_readFooter.and_yields (yields_readFooter _)).bind
  rintro footer _ ⟨rfl, hsize⟩
  apply ((Alike.refl SameCode.refl (checkRegions ⟨path, content, .pread⟩ footer)).and_yields
    (yields_checkRegions hsize)).bind
  rintro _ _ ⟨-, hbounded⟩
  apply ((alike_readIndex hbounded).and_yields (yields_readIndex hbounded)).bind
  rintro index _ ⟨rfl, hindex⟩
  apply (alike_loadFilter.and_yields (yields_loadFilter _ footer)).bind
  rintro filter _ ⟨rfl, hfilter⟩
  have hsound : ∀ minKey maxKey,
      SSTableReader.Sound ⟨⟨path, content, .pread⟩, bloomEnabled, footer, index, filter, minKey, maxKey⟩ :=
    fun _ _ => ⟨hindex, hfilter, hbounded.filter_le⟩
  cases index.getLast? with
  | none =>
    apply alike_bind_same SameCode.refl
    intro _
    exact ⟨hsound _ _, rfl, rfl⟩
  | some =>
    apply (alike_readMinKey hindex).bind
    rintro minKey _ rfl
    exact ⟨hsound _ _, rfl, rfl⟩

end TableHandle

namespace SSTableReader

variable [Crc] {path content : Bytes} {t t' : SSTableReader}

theorem alike_readBlock (h : TableHandle.SameTable path content t t') (blockIndex : Nat) :
    Alike SameCode SameBytes (t.readBlock blockIndex) (t'.readBlock blockIndex) := by
  obtain ⟨hsound, hhandle, rfl⟩ := h
  rw [readBlock, hhandle]
  exact TableHandle.alike_readBlockRaw hsound.index blockIndex

theorem alike_lookup (h : TableHandle.SameTable path content t t') (key : Key) :
    Alike SameCode Eq (t.lookup key) (t'.lookup key) := by
  have hblock := alike_readBlock h
  obtain ⟨-, -, rfl⟩ := h
  unfold lookup
  split
  · exact rfl
  split
  · exact rfl
  apply alike_bind_same SameCode.refl
  intro maybe
  split
  · apply alike_bind_same SameCode.refl
    intro blockIndex
    split
    · exact rfl
    · apply (hblock blockIndex).bind
      intro d d' hbytes
      rw [show d.bytes = d'.bytes from hbytes]
      exact .refl SameCode.refl _
  · exact rfl

/-- The two read modes cannot be told apart but by the messages of their statuses, on any file. -/
theorem read_modes_alike (path content : Bytes) (bloomEnabled : Bool) :
    Alike SameCode
      (fun t t' =>
        (t.footer = t'.footer ∧ t.index = t'.index ∧ t.filter = t'.filter ∧ t.minKey = t'.minKey ∧
          t.maxKey = t'.maxKey) ∧
        (∀ blockIndex, Alike SameCode SameBytes (t.readBlock blockIndex) (t'.readBlock blockIndex)) ∧
        ∀ key, Alike SameCode Eq (t.lookup key) (t'.lookup key))
      (openTable path content .pread bloomEnabled) (openTable path content .mmap bloomEnabled) := by
  have hload := TableHandle.alike_load path content bloomEnabled
  apply hload.mono
  intro t t' hsame
  refine ⟨?_, alike_readBlock hsame, alike_lookup hsame⟩
  obtain ⟨-, -, rfl⟩ := hsame
  exact ⟨rfl, rfl, rfl, rfl, rfl⟩

end SSTableReader

end KVStore
