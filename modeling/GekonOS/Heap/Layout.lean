import GekonOS.Kernel.Kheap
import GekonOS.Shared.Tiling
import Mathlib.Data.List.Perm.Basic

set_option autoImplicit false

namespace GekonOS

open ByteMemory Tiling

/-- A piece of the heap area, large enough for a header and a footer. -/
structure Chunk where
  addr : Nat
  size : Nat
  hole : Bool
  room : 20 ≤ size

namespace Chunk

def HeaderAt (m : Mem) (c : Chunk) : Prop :=
  headerMagic m c.addr = heapMagic ∧ headerIsHole m c.addr = (if c.hole then 1 else 0) ∧
    headerSize m c.addr = c.size

def FooterAt (m : Mem) (c : Chunk) : Prop :=
  footerMagic m (c.addr + c.size - 8) = heapMagic ∧
    footerHeader m (c.addr + c.size - 8) = c.addr

def bytes (c : Chunk) : Set Nat := Set.Ico c.addr (c.addr + c.size)

end Chunk

variable {m m' : Mem} {lo hi : Nat} {c : Chunk} {cs pre post : List Chunk}

theorem headerMagic_congr {h : Nat} (same : Set.EqOn m' m (Set.Ico h (h + 12))) :
    headerMagic m' h = headerMagic m h :=
  read32_congr (same.mono (Set.Ico_subset_Ico_right (by omega)))

theorem headerIsHole_congr {h : Nat} (same : Set.EqOn m' m (Set.Ico h (h + 12))) :
    headerIsHole m' h = headerIsHole m h :=
  read8_congr (same ⟨by omega, by omega⟩)

theorem headerSize_congr {h : Nat} (same : Set.EqOn m' m (Set.Ico h (h + 12))) :
    headerSize m' h = headerSize m h :=
  read32_congr (same.mono (Set.Ico_subset_Ico (by omega) (by omega)))

theorem footerMagic_congr {f : Nat} (same : Set.EqOn m' m (Set.Ico f (f + 8))) :
    footerMagic m' f = footerMagic m f :=
  read32_congr (same.mono (Set.Ico_subset_Ico_right (by omega)))

theorem footerHeader_congr {f : Nat} (same : Set.EqOn m' m (Set.Ico f (f + 8))) :
    footerHeader m' f = footerHeader m f :=
  read32_congr (same.mono (Set.Ico_subset_Ico (by omega) (by omega)))

theorem Chunk.HeaderAt.congr (header : c.HeaderAt m) (same : Set.EqOn m' m c.bytes) :
    c.HeaderAt m' := by
  have room := c.room
  have within : Set.EqOn m' m (Set.Ico c.addr (c.addr + 12)) :=
    same.mono (Set.Ico_subset_Ico_right (by omega))
  unfold HeaderAt
  rw [headerMagic_congr within, headerIsHole_congr within, headerSize_congr within]
  exact header

theorem Chunk.FooterAt.congr (footer : c.FooterAt m) (same : Set.EqOn m' m c.bytes) :
    c.FooterAt m' := by
  have room := c.room
  have within : Set.EqOn m' m (Set.Ico (c.addr + c.size - 8) (c.addr + c.size - 8 + 8)) :=
    same.mono (Set.Ico_subset_Ico (by omega) (by omega))
  unfold FooterAt
  rw [footerMagic_congr within, footerHeader_congr within]
  exact footer

/-- The chunks tile `[lo, hi)`, each has its header, and those of `tagged` have their footer. -/
structure Layout (tagged : Chunk → Prop) (m : Mem) (lo hi : Nat) (cs : List Chunk) : Prop where
  tiles : Tiles Chunk.addr Chunk.size lo cs hi
  headers : ∀ c ∈ cs, c.HeaderAt m
  footers : ∀ c ∈ cs, tagged c → c.FooterAt m

variable {tagged : Chunk → Prop}

namespace Layout

theorem nil (m : Mem) (lo : Nat) : Layout tagged m lo lo [] :=
  ⟨rfl, by simp, by simp⟩

theorem append {xs ys : List Chunk} :
    Layout tagged m lo hi (xs ++ ys) ↔ ∃ mid, Layout tagged m lo mid xs ∧ Layout tagged m mid hi ys := by
  constructor
  · intro layout
    obtain ⟨mid, left, right⟩ := tiles_append.mp layout.tiles
    refine ⟨mid, ⟨left, ?_, ?_⟩, ⟨right, ?_, ?_⟩⟩
    · exact fun c member => layout.headers c (List.mem_append_left _ member)
    · exact fun c member => layout.footers c (List.mem_append_left _ member)
    · exact fun c member => layout.headers c (List.mem_append_right _ member)
    · exact fun c member => layout.footers c (List.mem_append_right _ member)
  · rintro ⟨mid, left, right⟩
    refine ⟨tiles_append.mpr ⟨mid, left.tiles, right.tiles⟩, ?_, ?_⟩
    · intro c member
      cases List.mem_append.mp member with
      | inl inLeft => exact left.headers c inLeft
      | inr inRight => exact right.headers c inRight
    · intro c member
      cases List.mem_append.mp member with
      | inl inLeft => exact left.footers c inLeft
      | inr inRight => exact right.footers c inRight

theorem cons : Layout tagged m lo hi (c :: cs) ↔
    c.addr = lo ∧ c.HeaderAt m ∧ (tagged c → c.FooterAt m) ∧
      Layout tagged m (lo + c.size) hi cs := by
  constructor
  · intro layout
    obtain ⟨start, -, rest⟩ := layout.tiles
    refine ⟨start, layout.headers c (by simp), layout.footers c (by simp), rest, ?_, ?_⟩
    · exact fun d member => layout.headers d (List.mem_cons_of_mem _ member)
    · exact fun d member => layout.footers d (List.mem_cons_of_mem _ member)
  · rintro ⟨start, header, footer, rest⟩
    have room := c.room
    refine ⟨⟨start, by omega, rest.tiles⟩, ?_, ?_⟩
    · intro d member
      cases List.mem_cons.mp member with
      | inl same => exact same ▸ header
      | inr later => exact rest.headers d later
    · intro d member
      cases List.mem_cons.mp member with
      | inl same => exact same ▸ footer
      | inr later => exact rest.footers d later

theorem middle : Layout tagged m lo hi (pre ++ c :: post) ↔
    Layout tagged m lo c.addr pre ∧ c.HeaderAt m ∧ (tagged c → c.FooterAt m) ∧
      Layout tagged m (c.addr + c.size) hi post := by
  rw [append]
  constructor
  · rintro ⟨mid, left, right⟩
    obtain ⟨rfl, header, footer, rest⟩ := cons.mp right
    exact ⟨left, header, footer, rest⟩
  · rintro ⟨left, header, footer, rest⟩
    exact ⟨c.addr, left, cons.mpr ⟨rfl, header, footer, rest⟩⟩

theorem singleton (start : c.addr = lo) (stop : lo + c.size = hi) (header : c.HeaderAt m)
    (footer : tagged c → c.FooterAt m) : Layout tagged m lo hi [c] := by
  subst stop
  exact cons.mpr ⟨start, header, footer, nil _ _⟩

theorem congr (layout : Layout tagged m lo hi cs) (same : Set.EqOn m' m (Set.Ico lo hi)) :
    Layout tagged m' lo hi cs := by
  have within (c : Chunk) (member : c ∈ cs) : Set.EqOn m' m c.bytes := by
    have bounds := layout.tiles.bounds member
    exact same.mono (Set.Ico_subset_Ico bounds.1 bounds.2.2)
  exact ⟨layout.tiles, fun c member => (layout.headers c member).congr (within c member),
    fun c member used => (layout.footers c member used).congr (within c member)⟩

theorem le (layout : Layout tagged m lo hi cs) : lo ≤ hi := layout.tiles.le

theorem bounds (layout : Layout tagged m lo hi cs) (member : c ∈ cs) :
    lo ≤ c.addr ∧ c.addr + c.size ≤ hi :=
  ⟨(layout.tiles.bounds member).1, (layout.tiles.bounds member).2.2⟩

/-- What lies in `[a, b)` may be cut anew when memory changes nowhere else. -/
theorem splice {mid : List Chunk} {a b : Nat} (before : Layout tagged m lo a pre)
    (after : Layout tagged m b hi post) (inner : Layout tagged m' a b mid)
    (frame : Set.EqOn m' m (Set.Ico lo hi \ Set.Ico a b)) :
    Layout tagged m' lo hi (pre ++ mid ++ post) := by
  have lower := before.tiles.le
  have middle := inner.tiles.le
  have upper := after.tiles.le
  refine append.mpr ⟨b, append.mpr ⟨a, before.congr (frame.mono ?_), inner⟩,
    after.congr (frame.mono ?_)⟩
  · intro x member
    simp only [Set.mem_sdiff, Set.mem_Ico] at member ⊢
    omega
  · intro x member
    simp only [Set.mem_sdiff, Set.mem_Ico] at member ⊢
    omega

-- nothing but the end of the list lies at the end of the interval
theorem eq_nil (layout : Layout tagged m lo lo cs) : cs = [] := by
  cases cs with
  | nil => rfl
  | cons c cs =>
    have bounds := layout.bounds (List.mem_cons_self (a := c) (l := cs))
    have room := c.room
    omega

end Layout

def holeAddrs (cs : List Chunk) : List Nat := (cs.filter Chunk.hole).map Chunk.addr

-- the pointers `alloc` returned for the blocks in use
def blockPtrs (cs : List Chunk) : List Nat :=
  (cs.filter fun c => !c.hole).map fun c => c.addr + sizeofHeader

@[simp] theorem holeAddrs_nil : holeAddrs [] = [] := rfl

@[simp] theorem holeAddrs_append (xs ys : List Chunk) :
    holeAddrs (xs ++ ys) = holeAddrs xs ++ holeAddrs ys := by
  simp [holeAddrs]

theorem holeAddrs_cons_hole (free : c.hole = true) :
    holeAddrs (c :: cs) = c.addr :: holeAddrs cs := by
  simp [holeAddrs, free]

theorem holeAddrs_cons_block (used : c.hole = false) : holeAddrs (c :: cs) = holeAddrs cs := by
  simp [holeAddrs, used]

theorem mem_holeAddrs {a : Nat} : a ∈ holeAddrs cs ↔ ∃ c ∈ cs, c.hole = true ∧ c.addr = a := by
  simp [holeAddrs, and_assoc]

@[simp] theorem blockPtrs_nil : blockPtrs [] = [] := rfl

@[simp] theorem blockPtrs_append (xs ys : List Chunk) :
    blockPtrs (xs ++ ys) = blockPtrs xs ++ blockPtrs ys := by
  simp [blockPtrs]

theorem blockPtrs_cons_hole (free : c.hole = true) : blockPtrs (c :: cs) = blockPtrs cs := by
  simp [blockPtrs, free]

theorem blockPtrs_cons_block (used : c.hole = false) :
    blockPtrs (c :: cs) = (c.addr + sizeofHeader) :: blockPtrs cs := by
  simp [blockPtrs, used]

theorem mem_blockPtrs {p : Nat} :
    p ∈ blockPtrs cs ↔ ∃ c ∈ cs, c.hole = false ∧ c.addr + sizeofHeader = p := by
  simp [blockPtrs, and_assoc]

end GekonOS
