import GekonOS.Heap.Contract

set_option autoImplicit false

namespace GekonOS

open ByteMemory Loop

variable {kmallocInt : Kmalloc} {k k1 : Kernel} {newSize : Nat}

-- the header and the footer of the hole that `alloc` puts at the old end
def newHole (header size : Nat) (m : Mem) : Mem :=
  let m := setHeaderMagic m header heapMagic
  let m := setHeaderSize m header size
  let m := setHeaderIsHole m header 1
  let footer := Word32.sub (Word32.add header (headerSize m header)) sizeofFooter
  let m := setFooterMagic m footer heapMagic
  setFooterHeader m footer header

theorem newHole_correct (m : Mem) (c : Chunk) (free : c.hole = true)
    (small : c.addr + c.size < 4294967296) :
    c.HeaderAt (newHole c.addr c.size m) ∧ c.FooterAt (newHole c.addr c.size m) ∧
      Set.EqOn (newHole c.addr c.size m) m c.bytesᶜ := by
  have room := c.room
  have sized : headerSize (setHeaderIsHole (setHeaderSize (setHeaderMagic m c.addr heapMagic)
      c.addr c.size) c.addr 1) c.addr = c.size := by
    simp only [headerSize, setHeaderIsHole, setHeaderSize]
    rw [read32_write8_ne _ _ (by omega), read32_write32, Nat.mod_eq_of_lt (by omega)]
  have footer : Word32.sub (Word32.add c.addr c.size) sizeofFooter = c.addr + c.size - 8 := by
    rw [sizeofFooter, Word32.add_of_lt small, Word32.sub_of_le (by omega) small]
  simp only [newHole, sized, footer]
  simp only [setHeaderMagic, setHeaderIsHole, setHeaderSize, setFooterMagic, setFooterHeader]
  refine ⟨⟨?_, ?_, ?_⟩, ⟨?_, ?_⟩, ?_⟩
  · simp (disch := omega) only [headerMagic, read32_write32_ne, read32_write8_ne, read32_write32]
    rfl
  · simp (disch := omega) only [headerIsHole, read8_write32_ne, read8_write8, free]
    rfl
  · simp (disch := omega) only [headerSize, read32_write32_ne, read32_write8_ne, read32_write32,
      Nat.mod_eq_of_lt]
  · simp (disch := omega) only [footerMagic, read32_write32_ne, read32_write32]
    rfl
  · simp (disch := omega) only [footerHeader, read32_write32, Nat.mod_eq_of_lt]
  · intro x outside
    simp only [Chunk.bytes, Set.mem_compl_iff, Set.mem_Ico] at outside
    simp (disch := omega) only [write32_apply_ne, write8_apply_ne]

-- `alloc` writes the two words of the footer in the other order than `free`
theorem footer_comm (m : Mem) (footer header : Nat) :
    setFooterMagic (setFooterHeader m footer header) footer heapMagic =
      setFooterHeader (setFooterMagic m footer heapMagic) footer header := by
  funext x
  simp only [setFooterMagic, setFooterHeader, write32]
  by_cases first : footer ≤ x ∧ x < footer + 4
  · rw [if_pos first, if_neg (by omega), if_pos first]
  · rw [if_neg first]
    simp only [if_neg first]

theorem resizeHole_size {m : Mem} {header size footer : Nat} (small : size < 4294967296)
    (at_ : Word32.sub (Word32.add header size) sizeofFooter = footer)
    (behind : header + 12 ≤ footer) : headerSize (resizeHole header size m) header = size := by
  rw [resizeHole_eq small at_]
  simp only [headerSize, setHeaderSize, setFooterMagic, setFooterHeader]
  simp (disch := omega) only [read32_write32_ne, read32_write32, Nat.mod_eq_of_lt]

theorem growHeap_halts {halt : Halt}
    (halted : expand kmallocInt (Word32.add (Word32.sub k.heap.endAddress k.heap.startAddress)
      newSize) k = .error halt) : growHeap kmallocInt newSize k = .error halt := by
  unfold growHeap
  simp only [halted]
  rfl

theorem growHeap_adds {iterator value : Nat}
    (expanded : expand kmallocInt (Word32.add (Word32.sub k.heap.endAddress k.heap.startAddress)
      newSize) k = .ok k1)
    (found : endmostHeader k1.heap.index k1.mem = .ok (iterator, -1, value)) :
    growHeap kmallocInt newSize k =
      (insertOrderedArray k.heap.endAddress k1.heap.index (newHole k.heap.endAddress
        (Word32.sub (Word32.sub k1.heap.endAddress k1.heap.startAddress)
          (Word32.sub k.heap.endAddress k.heap.startAddress)) k1.mem) >>=
        fun r => .ok (k1.withIndex r.1 r.2)) := by
  unfold growHeap
  simp only [expanded, ok_bind, found]
  rfl

theorem growHeap_stretches {iterator value j header : Nat}
    (expanded : expand kmallocInt (Word32.add (Word32.sub k.heap.endAddress k.heap.startAddress)
      newSize) k = .ok k1)
    (found : endmostHeader k1.heap.index k1.mem = .ok (iterator, (j : Int), value))
    (within : j < k1.heap.index.size) (here : k1.heap.index.slot k1.mem j = header) :
    growHeap kmallocInt newSize k = .ok { k1 with
      mem := resizeHole header (Word32.add (headerSize k1.mem header)
        (Word32.sub (Word32.sub k1.heap.endAddress k1.heap.startAddress)
          (Word32.sub k.heap.endAddress k.heap.startAddress))) k1.mem } := by
  have listed : (j : Int) ≠ -1 := by omega
  unfold growHeap
  simp only [expanded, ok_bind, found, if_neg listed, Int.toNat_natCast,
    lookupOrderedArray_correct k1.mem within, here, footer_comm]
  rfl

/-- The heap can be made longer by `newSize` bytes. -/
structure Extensible (newSize : Nat) (k : Kernel) : Prop where
  positive : 0 < newSize
  le : k.heap.startAddress ≤ k.heap.endAddress
  bound : k.heap.endAddress ≤ k.heap.maxAddress
  limit : k.heap.maxAddress < 4294967296
  fits : k.heap.startAddress +
    expandedLength (k.heap.endAddress - k.heap.startAddress + newSize) ≤ k.heap.maxAddress
  top : expandedLength (k.heap.endAddress - k.heap.startAddress + newSize) + 4095 < 4294967296
  mapped : Mapped k k.heap.maxAddress

-- the end of the heap after that
def grownEnd (newSize : Nat) (k : Kernel) : Nat :=
  k.heap.startAddress + expandedLength (k.heap.endAddress - k.heap.startAddress + newSize)

def Kernel.upTo (k : Kernel) (stop : Nat) : Kernel :=
  { k with heap := { k.heap with endAddress := stop } }

namespace Extensible

theorem stop (ext : Extensible newSize k) :
    k.heap.endAddress + newSize ≤ grownEnd newSize k ∧
      grownEnd newSize k ≤ k.heap.maxAddress := by
  have above := le_expandedLength (k.heap.endAddress - k.heap.startAddress + newSize)
  have le := ext.le
  have fits := ext.fits
  unfold grownEnd
  omega

theorem grows (ext : Extensible newSize k) (kmallocInt : Kmalloc) :
    ∃ k1, PagesOnly k k1 ∧
      ((∀ h ∈ k.heap.index.entries k.mem, h = 0) ∧ growHeap kmallocInt newSize k =
          (insertOrderedArray k.heap.endAddress k.heap.index
            (newHole k.heap.endAddress (grownEnd newSize k - k.heap.endAddress) k.mem) >>=
              fun r => .ok ((k1.upTo (grownEnd newSize k)).withIndex r.1 r.2)) ∨
        ∃ header ∈ k.heap.index.entries k.mem, 0 < header ∧
          (∀ h ∈ k.heap.index.entries k.mem, h ≤ header) ∧
          growHeap kmallocInt newSize k = .ok { k1.upTo (grownEnd newSize k) with
            mem := resizeHole header (Word32.add (headerSize k.mem header)
              (grownEnd newSize k - k.heap.endAddress)) k.mem }) := by
  have limit := ext.limit
  have le := ext.le
  have bound := ext.bound
  have positive := ext.positive
  have above := ext.stop
  have asked : Word32.add (Word32.sub k.heap.endAddress k.heap.startAddress) newSize =
      k.heap.endAddress - k.heap.startAddress + newSize := by
    have grown := le_expandedLength (k.heap.endAddress - k.heap.startAddress + newSize)
    have top := ext.top
    rw [Word32.sub_of_le le (by omega), Word32.add_of_lt (by omega)]
  obtain ⟨k1, ⟨frames, pages, rfl⟩, expanded⟩ := expand_correct kmallocInt
    (show k.heap.endAddress - k.heap.startAddress <
      k.heap.endAddress - k.heap.startAddress + newSize by omega)
    ext.fits limit ext.top le (by omega) ext.mapped
  have longer : expand kmallocInt (Word32.add (Word32.sub k.heap.endAddress k.heap.startAddress)
      newSize) k = .ok (Kernel.upTo { k with frames := frames, pages := pages }
        (grownEnd newSize k)) := by
    rw [asked]
    exact expanded
  have gain : Word32.sub (Word32.sub (grownEnd newSize k) k.heap.startAddress)
      (Word32.sub k.heap.endAddress k.heap.startAddress) =
        grownEnd newSize k - k.heap.endAddress := by
    unfold Word32.sub
    omega
  refine ⟨_, ⟨frames, pages, rfl⟩, ?_⟩
  obtain ⟨iterator, idx, value, found, endmost⟩ := endmostHeader_correct k.heap.index k.mem
  cases endmost with
  | inl null =>
    obtain ⟨zero, rfl⟩ := null
    refine Or.inl ⟨zero, ?_⟩
    rw [growHeap_adds longer found, ← gain]
    rfl
  | inr listed =>
    obtain ⟨j, within, rfl, nonzero, greatest⟩ := listed
    refine Or.inr ⟨_, List.mem_map.mpr ⟨j, List.mem_range.mpr within, rfl⟩, nonzero, greatest, ?_⟩
    rw [growHeap_stretches longer found within rfl, ← gain]
    rfl

end Extensible

end GekonOS
