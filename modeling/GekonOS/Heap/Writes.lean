import GekonOS.Heap.Layout

set_option autoImplicit false

namespace GekonOS

open ByteMemory

/-!
What the stores of `alloc` and `free` leave behind: the tags of one chunk, all of them inside it.
-/

variable (m : Mem)

theorem tagHole_correct (c : Chunk) (free : c.hole = true) (small : c.size < 4294967296) :
    c.HeaderAt (setHeaderIsHole (setHeaderMagic (setHeaderSize m c.addr c.size) c.addr heapMagic)
      c.addr 1) := by
  simp only [setHeaderMagic, setHeaderIsHole, setHeaderSize]
  refine ⟨?_, ?_, ?_⟩
  · simp (disch := omega) only [headerMagic, read32_write8_ne, read32_write32]
    rfl
  · simp only [headerIsHole, read8_write8, free]
    rfl
  · simp (disch := omega) only [headerSize, read32_write8_ne, read32_write32_ne, read32_write32,
      Nat.mod_eq_of_lt]

theorem writeBlock_correct (c : Chunk) (used : c.hole = false)
    (small : c.addr + c.size < 4294967296) :
    c.HeaderAt (writeBlock c.addr (c.size - 20) c.size m) ∧
      c.FooterAt (writeBlock c.addr (c.size - 20) c.size m) ∧
      Set.EqOn (writeBlock c.addr (c.size - 20) c.size m) m c.bytesᶜ := by
  have room := c.room
  have footer : Word32.add (Word32.add c.addr sizeofHeader) (c.size - 20) =
      c.addr + c.size - 8 := by
    simp only [sizeofHeader, Word32.add]
    omega
  simp only [writeBlock, footer, setHeaderMagic, setHeaderIsHole, setHeaderSize, setFooterMagic,
    setFooterHeader]
  refine ⟨⟨?_, ?_, ?_⟩, ⟨?_, ?_⟩, ?_⟩
  · simp (disch := omega) only [headerMagic, read32_write32_ne, read32_write8_ne, read32_write32]
    rfl
  · simp (disch := omega) only [headerIsHole, read8_write32_ne, read8_write8, used]
    rfl
  · simp (disch := omega) only [headerSize, read32_write32_ne, read32_write32, Nat.mod_eq_of_lt]
  · simp (disch := omega) only [footerMagic, read32_write32_ne, read32_write32]
    rfl
  · simp (disch := omega) only [footerHeader, read32_write32, Nat.mod_eq_of_lt]
  · intro x outside
    simp only [Chunk.bytes, Set.mem_compl_iff, Set.mem_Ico] at outside
    simp (disch := omega) only [write32_apply_ne, write8_apply_ne]

theorem writeRemainder_correct (c : Chunk) (pos size endAddress : Nat) (free : c.hole = true)
    (start : pos + size + 20 = c.addr) (stop : c.addr + c.size ≤ endAddress)
    (small : endAddress < 4294967296) :
    ∃ m', writeRemainder pos size c.size endAddress m = (c.addr, m') ∧
      c.HeaderAt m' ∧ c.FooterAt m' ∧ Set.EqOn m' m c.bytesᶜ := by
  have room := c.room
  have header : Word32.add (Word32.add (Word32.add pos sizeofHeader) size) sizeofFooter =
      c.addr := by
    simp only [sizeofHeader, sizeofFooter, Word32.add]
    omega
  have footer : Word32.sub (Word32.add c.addr c.size) sizeofFooter = c.addr + c.size - 8 := by
    simp only [sizeofFooter, Word32.add, Word32.sub]
    omega
  simp only [writeRemainder, header, footer, setHeaderMagic, setHeaderIsHole, setHeaderSize,
    setFooterMagic, setFooterHeader]
  rw [if_pos (by omega)]
  refine ⟨_, rfl, ⟨?_, ?_, ?_⟩, ⟨?_, ?_⟩, ?_⟩
  · simp (disch := omega) only [headerMagic, read32_write32_ne, read32_write8_ne, read32_write32]
    rfl
  · simp (disch := omega) only [headerIsHole, read8_write32_ne, read8_write8, free]
    rfl
  · simp (disch := omega) only [headerSize, read32_write32_ne, read32_write32, Nat.mod_eq_of_lt]
  · simp (disch := omega) only [footerMagic, read32_write32_ne, read32_write32]
    rfl
  · simp (disch := omega) only [footerHeader, read32_write32, Nat.mod_eq_of_lt]
  · intro x outside
    simp only [Chunk.bytes, Set.mem_compl_iff, Set.mem_Ico] at outside
    simp (disch := omega) only [write32_apply_ne, write8_apply_ne]

-- the front part reaches up to 12 bytes before the next page
theorem splitFront_correct (c : Chunk) (total : Nat) (free : c.hole = true)
    (front : c.size + c.addr % 4096 = 4084) (fits : c.size ≤ total) (least : 4096 ≤ c.addr)
    (small : c.addr + total < 4294967296) :
    ∃ m', splitFront c.addr total m = (c.addr + c.size, total - c.size, m') ∧
      c.HeaderAt m' ∧ c.FooterAt m' ∧ Set.EqOn m' m c.bytesᶜ := by
  have room := c.room
  have frontSize : Word32.sub (Word32.sub pageSize (c.addr &&& 0xFFF)) sizeofHeader = c.size := by
    rw [Word32.and_low_mask]
    simp only [pageSize, sizeofHeader, Word32.sub]
    omega
  have location : Word32.sub (Word32.sub (Word32.add c.addr pageSize) (c.addr &&& 0xFFF))
      sizeofHeader = c.addr + c.size := by
    rw [Word32.and_low_mask]
    simp only [pageSize, sizeofHeader, Word32.sub, Word32.add]
    omega
  have footer : Word32.sub (c.addr + c.size) sizeofFooter = c.addr + c.size - 8 := by
    simp only [sizeofFooter, Word32.sub]
    omega
  simp only [splitFront, frontSize, location, footer, headerSize, setHeaderMagic,
    setHeaderIsHole, setHeaderSize, setFooterMagic, setFooterHeader]
  simp (disch := omega) only [read32_write32_ne, read32_write8_ne, read32_write32,
    Nat.mod_eq_of_lt, Word32.sub_of_le]
  refine ⟨_, rfl, ⟨?_, ?_, ?_⟩, ⟨?_, ?_⟩, ?_⟩
  · simp (disch := omega) only [headerMagic, read32_write32_ne, read32_write8_ne, read32_write32]
    rfl
  · simp (disch := omega) only [headerIsHole, read8_write32_ne, read8_write8, free]
    rfl
  · simp (disch := omega) only [headerSize, read32_write32_ne, read32_write8_ne, read32_write32,
      Nat.mod_eq_of_lt]
  · simp (disch := omega) only [footerMagic, read32_write32_ne, read32_write32]
    rfl
  · simp (disch := omega) only [footerHeader, read32_write32, Nat.mod_eq_of_lt]
  · intro x outside
    simp only [Chunk.bytes, Set.mem_compl_iff, Set.mem_Ico] at outside
    simp (disch := omega) only [write32_apply_ne, write8_apply_ne]

-- where the block goes whatever the front part is
theorem splitFront_pos {h : Nat} (total : Nat) (least : 4096 ≤ h) (small : h < 4294967296) :
    (splitFront h total m).1 + h % 4096 = h + 4084 := by
  change Word32.sub (Word32.sub (Word32.add h pageSize) (h &&& 0xFFF)) sizeofHeader + _ = _
  rw [Word32.and_low_mask]
  simp only [pageSize, sizeofHeader, Word32.add, Word32.sub]
  omega

-- twelve bytes before a page there is no front part
theorem splitFront_none {h total : Nat} (offset : h % 4096 = 4084) (least : 4096 ≤ h)
    (small : h < 4294967296) (word : total < 4294967296) :
    (splitFront h total m).2.1 = total := by
  have front : Word32.sub (Word32.sub pageSize (h &&& 0xFFF)) sizeofHeader = 0 := by
    rw [Word32.and_low_mask, offset]
    rfl
  have location : Word32.sub (Word32.sub (Word32.add h pageSize) (h &&& 0xFFF)) sizeofHeader =
      h := by
    rw [Word32.and_low_mask]
    simp only [pageSize, sizeofHeader, Word32.add, Word32.sub]
    omega
  have footer : Word32.sub h sizeofFooter = h - 8 := by
    rw [sizeofFooter, Word32.sub_of_le (by omega) small]
  simp only [splitFront, front, location, footer, headerSize, setHeaderMagic, setHeaderIsHole,
    setHeaderSize, setFooterMagic, setFooterHeader]
  simp (disch := omega) only [read32_write32_ne, read32_write8_ne, read32_write32]
  rw [Nat.zero_mod, Word32.sub_of_le (Nat.zero_le _) word, Nat.sub_zero]

end GekonOS
