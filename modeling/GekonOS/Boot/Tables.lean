import GekonOS.Boot.Placement

set_option autoImplicit false

namespace GekonOS

open Placement

-- the entry of a page, by its number; the page's table may be absent
def Kernel.entryOf (k : Kernel) (page : Nat) : Nat :=
  k.directory.tables (page / 1024) + 4 * (page % 1024)

def Kernel.HasTable (k : Kernel) (page : Nat) : Prop := k.directory.Holds (page / 1024)

instance (k : Kernel) (page : Nat) : Decidable (k.HasTable page) :=
  inferInstanceAs (Decidable (k.directory.Holds _))

def newTable (k : Kernel) : Nat := alignedAddress k.placementAddress 1

/-- A table created now does not take `placement_address` past the last 32-bit address. -/
def TableFits (k : Kernel) : Prop := newTable k + 4096 < 4294967296

-- the state after `get_page` has created the table of `page`
def Kernel.withTable (k : Kernel) (page : Nat) : Kernel :=
  enterTable (page / 1024) (newTable k) (some (newTable k))
    { k with placementAddress := newTable k + 4096 }

theorem clearTable_inside (pages : Nat → Page) {table entry : Nat} (lower : table ≤ entry)
    (upper : entry < table + 4096) : clearTable table pages entry = Page.zero :=
  if_pos ⟨lower, upper⟩

theorem clearTable_below (pages : Nat → Page) {table entry : Nat} (below : entry < table) :
    clearTable table pages entry = pages entry :=
  if_neg fun inside => Nat.not_lt_of_le inside.1 below

theorem getPage_present (kmallocInt : Kmalloc) {address : Nat} {k : Kernel}
    (present : k.HasTable (address / 4096)) :
    getPage kmallocInt address k = .ok (k.entryOf (address / 4096), k) := by
  have holds : k.directory.Holds (address / 4096 / 1024) := present
  unfold getPage
  simp only [if_pos holds, Nat.shiftRight_eq_div_pow]
  rfl

theorem getPage_absent (fuel : Nat) {address : Nat} {k : Kernel}
    (absent : ¬ k.HasTable (address / 4096)) (noHeap : k.kheap = 0) (fits : TableFits k) :
    getPage (kmallocInt fuel) address k =
      .ok ((k.withTable (address / 4096)).entryOf (address / 4096),
        k.withTable (address / 4096)) := by
  have missing : ¬ k.directory.Holds (address / 4096 / 1024) := absent
  unfold getPage
  simp only [if_neg missing, kmallocAp, kmallocInt_placement _ _ _ _ noHeap,
    sizeofPageTable, kmallocPlacement_correct fits, Nat.shiftRight_eq_div_pow]
  rfl

/-- Every table is a page of its own between `base` and the placement address. -/
structure Tables (base : Nat) (k : Kernel) : Prop where
  noHeap : k.kheap = 0
  low : base ≤ k.placementAddress
  absent : ∀ i, ¬ k.directory.Holds i → k.directory.tablesPhysical i = 0
  aligned : ∀ i, k.directory.Holds i → k.directory.tables i % 4096 = 0
  inside : ∀ i, k.directory.Holds i →
    base ≤ k.directory.tables i ∧ k.directory.tables i + 4096 ≤ k.placementAddress
  physical : ∀ i, k.directory.Holds i → k.directory.tablesPhysical i = k.directory.tables i + 7
  apart : ∀ i j, k.directory.Holds i → k.directory.Holds j →
    k.directory.tables i = k.directory.tables j → i = j

namespace Tables

variable {base : Nat} {k : Kernel}

theorem entryOf_injective (tables : Tables base k) {p q : Nat} (hasP : k.HasTable p)
    (hasQ : k.HasTable q) (same : k.entryOf p = k.entryOf q) : p = q := by
  have alignedP := tables.aligned _ hasP
  have alignedQ := tables.aligned _ hasQ
  simp only [Kernel.entryOf] at same
  have table := tables.apart _ _ hasP hasQ (by omega)
  omega

theorem newTable_aligned (tables : Tables base k) (floor : 4096 ≤ base) :
    newTable k % 4096 = 0 ∧ k.placementAddress ≤ newTable k := by
  have low := tables.low
  unfold newTable alignedAddress
  rw [if_pos ⟨rfl, by omega⟩]
  omega

theorem physical_or_seven {table : Nat} (aligned : table % 4096 = 0) : table ||| 7 = table + 7 := by
  have split := Nat.two_pow_add_eq_or_of_lt (b := 7) (i := 12) (by decide) (table / 4096)
  have whole : 2 ^ 12 * (table / 4096) = table := by omega
  rw [whole] at split
  exact split.symm

theorem holds_withTable (tables : Tables base k) (floor : 4096 ≤ base) (page i : Nat) :
    (k.withTable page).directory.Holds i ↔ i = page / 1024 ∨ k.directory.Holds i := by
  have aligned := (tables.newTable_aligned floor).1
  have above := (tables.newTable_aligned floor).2
  have low := tables.low
  have holdsSelf : (newTable k ||| 7) &&& 1 ≠ 0 ∧ newTable k ≠ 0 := by
    rw [physical_or_seven aligned, Nat.and_one_is_mod]
    omega
  simp only [PageDirectory.Holds, Kernel.withTable, enterTable, Option.getD_some]
  by_cases here : i = page / 1024
  · subst here
    simpa using holdsSelf
  · simp only [Function.update_of_ne here, here, false_or]

theorem withTable (tables : Tables base k) (floor : 4096 ≤ base) (page : Nat) :
    Tables base (k.withTable page) := by
  obtain ⟨aligned, above⟩ := tables.newTable_aligned floor
  have low := tables.low
  have holds := tables.holds_withTable floor page
  have new : (k.withTable page).directory.tables (page / 1024) = newTable k :=
    Function.update_self ..
  have old (i : Nat) (other : i ≠ page / 1024) :
      (k.withTable page).directory.tables i = k.directory.tables i ∧
        (k.withTable page).directory.tablesPhysical i = k.directory.tablesPhysical i :=
    ⟨Function.update_of_ne other .., Function.update_of_ne other ..⟩
  -- a table held before lies below the new one
  have earlier (i : Nat) (other : i ≠ page / 1024) (holdsNow : (k.withTable page).directory.Holds i) :
      k.directory.Holds i := ((holds i).mp holdsNow).resolve_left other
  constructor
  case noHeap => exact tables.noHeap
  case low =>
    change base ≤ newTable k + 4096
    omega
  case absent =>
    intro i missing
    rw [holds, not_or] at missing
    rw [(old i missing.1).2]
    exact tables.absent i missing.2
  case aligned =>
    intro i here
    by_cases same : i = page / 1024
    · rw [same, new, aligned]
    · rw [(old i same).1]
      exact tables.aligned i (earlier i same here)
  case inside =>
    intro i here
    change _ ∧ _ ≤ newTable k + 4096
    by_cases same : i = page / 1024
    · rw [same, new]
      omega
    · rw [(old i same).1]
      have bounds := tables.inside i (earlier i same here)
      omega
  case physical =>
    intro i here
    by_cases same : i = page / 1024
    · rw [same, new, ← physical_or_seven aligned]
      exact Function.update_self ..
    · rw [(old i same).1, (old i same).2]
      exact tables.physical i (earlier i same here)
  case apart =>
    intro i j holdsI holdsJ equal
    by_cases sameI : i = page / 1024
    · by_cases sameJ : j = page / 1024
      · rw [sameI, sameJ]
      · have bounds := tables.inside j (earlier j sameJ holdsJ)
        rw [sameI, new, (old j sameJ).1] at equal
        omega
    · have boundsI := tables.inside i (earlier i sameI holdsI)
      by_cases sameJ : j = page / 1024
      · rw [sameJ, new, (old i sameI).1] at equal
        omega
      · rw [(old i sameI).1, (old j sameJ).1] at equal
        exact tables.apart i j (earlier i sameI holdsI) (earlier j sameJ holdsJ) equal

theorem entry_withTable (tables : Tables base k) (floor : 4096 ≤ base) {page q : Nat}
    (absent : ¬ k.HasTable page) (has : k.HasTable q) :
    (k.withTable page).HasTable q ∧ (k.withTable page).entryOf q = k.entryOf q ∧
      (k.withTable page).pages (k.entryOf q) = k.pages (k.entryOf q) := by
  have other : q / 1024 ≠ page / 1024 := by
    intro same
    unfold Kernel.HasTable at absent has
    exact absent (same ▸ has)
  have bounds := tables.inside _ has
  have above := (tables.newTable_aligned floor).2
  refine ⟨(tables.holds_withTable floor page _).mpr (Or.inr has), ?_, ?_⟩
  · simp only [Kernel.entryOf, Kernel.withTable, enterTable, Function.update_of_ne other]
  · apply clearTable_below
    simp only [Kernel.entryOf]
    omega

theorem zero_withTable (k : Kernel) {page q : Nat} (same : q / 1024 = page / 1024) :
    (k.withTable page).entryOf q = newTable k + 4 * (q % 1024) ∧
      (k.withTable page).pages ((k.withTable page).entryOf q) = Page.zero := by
  have entry : (k.withTable page).entryOf q = newTable k + 4 * (q % 1024) := by
    simp only [Kernel.entryOf, Kernel.withTable, enterTable, same, Function.update_self]
  refine ⟨entry, ?_⟩
  rw [entry]
  exact clearTable_inside _ (by omega) (by omega)

end Tables

theorem getPage_correct {base : Nat} {k : Kernel} (fuel address : Nat) (tables : Tables base k)
    (floor : 4096 ≤ base) (fits : ¬ k.HasTable (address / 4096) → TableFits k) :
    ∃ k', getPage (kmallocInt fuel) address k = .ok (k'.entryOf (address / 4096), k') ∧
      Tables base k' ∧ k'.HasTable (address / 4096) ∧
      (k.HasTable (address / 4096) ∧ k' = k ∨
        ¬ k.HasTable (address / 4096) ∧ k' = k.withTable (address / 4096)) := by
  by_cases present : k.HasTable (address / 4096)
  · exact ⟨k, getPage_present _ present, tables, present, Or.inl ⟨present, rfl⟩⟩
  · exact ⟨_, getPage_absent fuel present tables.noHeap (fits present),
      tables.withTable floor _, (tables.holds_withTable floor _ _).mpr (Or.inl rfl),
      Or.inr ⟨present, rfl⟩⟩

end GekonOS
