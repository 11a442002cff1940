import GekonOS.Heap.FirstFit
import GekonOS.Heap.Grow
import GekonOS.Heap.Length

set_option autoImplicit false

namespace GekonOS

open ByteMemory Loop

/-- The calls of `expand` that a call of `alloc` makes. -/
def expansions (kmallocInt : Kmalloc) : Nat → Nat → Nat → Kernel → Nat
  | 0, _, _, _ => 0
  | fuel + 1, size, pageAlign, k =>
    let newSize := Word32.add (Word32.add size sizeofHeader) sizeofFooter
    match findSmallestHole newSize pageAlign k.heap k.mem with
    | .error _ => 0
    | .ok iterator =>
      if iterator = noHole then
        1 + match growHeap kmallocInt newSize k with
          | .error _ => 0
          | .ok k => expansions kmallocInt fuel size pageAlign k
      else 0

/-! ## Calls that end -/

/-- The call returns, or an `ASSERT` of it fails. -/
def Ends {α : Type} (r : Except Halt α) : Prop := r ≠ .error .outOfFuel

theorem Ends.ok {α : Type} (a : α) : Ends (.ok a : Except Halt α) :=
  fun same => by cases same

theorem Ends.panic {α : Type} (file : String) (line : Nat) (desc : String) :
    Ends (.error (.panicAssert file line desc) : Except Halt α) :=
  fun same => by cases same

theorem Ends.bind {α β : Type} {r : Except Halt α} {f : α → Except Halt β} (ends : Ends r)
    (rest : ∀ a, r = .ok a → Ends (f a)) : Ends (r >>= f) := by
  cases r with
  | error halt => exact fun same => ends (congrArg Except.error (Except.error.inj same))
  | ok a => exact rest a rfl

theorem Ends.cases {α : Type} {r : Except Halt α} (ends : Ends r) :
    (∃ a, r = .ok a) ∨ ∃ file line desc, r = .error (.panicAssert file line desc) := by
  cases r with
  | ok a => exact Or.inl ⟨a, rfl⟩
  | error halt =>
    cases halt with
    | panicAssert file line desc => exact Or.inr ⟨file, line, desc, rfl⟩
    | outOfFuel => exact absurd rfl ends

theorem insertOrderedArray_ends {item : Nat} (arr : OrderedArray) (m : Mem)
    (small : item < 4294967296) : Ends (insertOrderedArray item arr m) := by
  cases known : arr.lessThan with
  | none =>
    rw [insertOrderedArray, known]
    exact Ends.panic _ _ _
  | some lt =>
    obtain ⟨m', inserted, -⟩ := insertOrderedArray_correct m known small
    exact inserted ▸ Ends.ok _

theorem placeBlock_ends (pos total size newSize : Nat) (k : Kernel) :
    Ends (placeBlock pos total size newSize k) := by
  unfold placeBlock
  change Ends (ite (Word32.sub total newSize > 0) _ _)
  by_cases rest : Word32.sub total newSize > 0
  · rw [if_pos rest]
    have first := writeRemainder_fst pos size (Word32.sub total newSize) k.heap.endAddress
      (writeBlock pos size newSize k.mem)
    cases written : writeRemainder pos size (Word32.sub total newSize) k.heap.endAddress
      (writeBlock pos size newSize k.mem) with
    | mk holeHeader m =>
      rw [written] at first
      change Ends (insertOrderedArray holeHeader k.heap.index m >>= _)
      refine (insertOrderedArray_ends _ m ?_).bind fun _ _ => Ends.ok _
      exact lt_of_eq_of_lt first (Word32.add_lt _ _)
  · rw [if_neg rest]
    exact Ends.ok _

theorem takeHole_ends (size newSize pageAlign : Nat) {iterator : Nat} {k : Kernel}
    (within : iterator < k.heap.index.size) (small : k.heap.index.size < 4294967296) :
    Ends (takeHole size newSize pageAlign iterator k) := by
  by_cases cut : pageAlign ≠ 0 ∧ k.heap.index.slot k.mem iterator &&& 0xFFFFF000 ≠ 0
  · rw [takeHole_split within cut.1 cut.2 rfl rfl]
    exact placeBlock_ends _ _ _ _ _
  · obtain ⟨m, removed, -⟩ := removeOrderedArray_correct k.mem within small
    rw [takeHole_plain within cut rfl removed]
    exact placeBlock_ends _ _ _ _ _

/-! ## Holes at the end of the heap -/

theorem holeFits_of_large {size pageAlign : Nat} {m : Mem} {h : Nat}
    (enough : size + (if pageAlign = 0 then 0 else 4096) ≤ headerSize m h)
    (small : headerSize m h < 2147483648) : holeFits size pageAlign m h = true := by
  by_cases plain : pageAlign = 0
  · rw [if_pos plain] at enough
    simp only [holeFits, plain, gt_iff_lt, Nat.lt_irrefl, if_false, decide_eq_true_eq]
    exact enough
  · rw [if_neg plain] at enough
    have bound := skipped_le h
    rw [holeFits_small plain (by omega)]
    omega

/-- What a heap has to satisfy for `alloc` to end. -/
structure Growable (k : Kernel) : Prop where
  aligned : k.heap.startAddress % 4096 = 0
  page : (k.heap.endAddress - k.heap.startAddress) % 4096 = 0
  least : heapMinSize ≤ k.heap.endAddress - k.heap.startAddress
  bound : k.heap.endAddress ≤ k.heap.maxAddress
  limit : k.heap.maxAddress < 1073741824
  apart : Disjoint (k.heap.index.region k.heap.index.maxSize)
    (Set.Ico k.heap.startAddress k.heap.maxAddress)
  array : k.heap.index.array + 4 * k.heap.index.maxSize ≤ 4294967296
  room : k.heap.index.size ≤ k.heap.index.maxSize
  spare : (∀ h ∈ k.heap.index.entries k.mem, h = 0) → k.heap.index.size < k.heap.index.maxSize
  inside : ∀ h ∈ k.heap.index.entries k.mem, k.heap.startAddress ≤ h ∧ h < k.heap.endAddress
  endmost : ∀ h ∈ k.heap.index.entries k.mem, (∀ g ∈ k.heap.index.entries k.mem, g ≤ h) →
    headerSize k.mem h ≤ k.heap.endAddress - h
  mapped : Mapped k k.heap.maxAddress

/-- The entry with the greatest address, and its size. -/
def EndmostHole (k : Kernel) (h size : Nat) : Prop :=
  h ∈ k.heap.index.entries k.mem ∧ (∀ g ∈ k.heap.index.entries k.mem, g ≤ h) ∧ 0 < h ∧
    headerSize k.mem h = size

variable {kmallocInt : Kmalloc} {k : Kernel} {newSize : Nat}

-- what a heap whose length is a page multiple gains
def gain (newSize : Nat) : Nat := 4096 * (newSize / 4096) + 4096

namespace Growable

theorem grownEnd_eq (growable : Growable k) :
    grownEnd newSize k = k.heap.endAddress + gain newSize := by
  have page := growable.page
  have least := growable.least
  have minimum : heapMinSize = 458752 := rfl
  unfold grownEnd expandedLength gain
  rw [if_neg (by omega)]
  omega

theorem entries_same (growable : Growable k) {m : Mem} {s : Set Nat}
    (frame : Set.EqOn m k.mem sᶜ)
    (within : s ⊆ Set.Ico k.heap.startAddress k.heap.maxAddress) :
    k.heap.index.entries m = k.heap.index.entries k.mem := by
  apply OrderedArray.entries_congr
  refine frame.mono ?_
  intro x inArray inside
  exact Set.disjoint_left.mp growable.apart (IndexIn.region_subset growable.room inArray)
    (within inside)

theorem next (growable : Growable k) {k' : Kernel} {count h size : Nat}
    (heap : k'.heap = { k.heap with
      index := { k.heap.index with size := count },
      endAddress := k.heap.endAddress + gain newSize })
    (fits : k.heap.endAddress + gain newSize ≤ k.heap.maxAddress)
    (room : count ≤ k.heap.index.maxSize) (mapped : Mapped k' k.heap.maxAddress)
    (inside : ∀ g ∈ k'.heap.index.entries k'.mem, k.heap.startAddress ≤ g)
    (endmost : EndmostHole k' h size)
    (within : h + size ≤ k.heap.endAddress + gain newSize) (positive : 0 < size) : Growable k' := by
  obtain ⟨listed, greatest, nonzero, sized⟩ := endmost
  have page := growable.page
  have minimum : heapMinSize = 458752 := rfl
  have length := growable.least
  have whole : gain newSize % 4096 = 0 := by
    unfold gain
    omega
  constructor
  case aligned =>
    rw [heap]
    exact growable.aligned
  case page =>
    rw [heap]
    change (k.heap.endAddress + gain newSize - k.heap.startAddress) % 4096 = 0
    omega
  case least =>
    rw [heap]
    change heapMinSize ≤ k.heap.endAddress + gain newSize - k.heap.startAddress
    omega
  case bound =>
    rw [heap]
    exact fits
  case limit =>
    rw [heap]
    exact growable.limit
  case apart =>
    rw [heap]
    exact growable.apart
  case array =>
    rw [heap]
    exact growable.array
  case room =>
    rw [heap]
    exact room
  case spare => exact fun zero => absurd (zero h listed) (Nat.ne_of_gt nonzero)
  case inside =>
    intro g member
    have lower := inside g member
    have upper := greatest g member
    rw [heap]
    change k.heap.startAddress ≤ g ∧ g < k.heap.endAddress + gain newSize
    omega
  case endmost =>
    intro g member other
    obtain rfl : g = h := Nat.le_antisymm (greatest g member) (other h listed)
    rw [sized, heap]
    change size ≤ k.heap.endAddress + gain newSize - g
    omega
  case mapped =>
    rw [heap]
    exact mapped

theorem extensible (growable : Growable k) (least : 20 ≤ newSize)
    (small : newSize < 536870912 + 20)
    (fits : k.heap.endAddress + gain newSize ≤ k.heap.maxAddress) : Extensible newSize k := by
  have ends : grownEnd newSize k = k.heap.endAddress + gain newSize := growable.grownEnd_eq
  have length := growable.least
  have minimum : heapMinSize = 458752 := rfl
  have limit := growable.limit
  have bound := growable.bound
  unfold grownEnd at ends
  constructor
  case mapped => exact growable.mapped
  all_goals omega

-- the `ASSERT` on the maximum
theorem growHeap_over (growable : Growable k) (kmallocInt : Kmalloc) (least : 20 ≤ newSize)
    (small : newSize < 536870912 + 20)
    (beyond : k.heap.maxAddress < k.heap.endAddress + gain newSize) :
    ∃ file line desc, growHeap kmallocInt newSize k = .error (.panicAssert file line desc) := by
  have ends : grownEnd newSize k = k.heap.endAddress + gain newSize := growable.grownEnd_eq
  have limit := growable.limit
  have bound := growable.bound
  have length := growable.least
  have minimum : heapMinSize = 458752 := rfl
  have gained : gain newSize ≤ newSize + 4096 := by
    unfold gain
    omega
  unfold grownEnd at ends
  have asked : Word32.add (Word32.sub k.heap.endAddress k.heap.startAddress) newSize =
      k.heap.endAddress - k.heap.startAddress + newSize := by
    rw [Word32.sub_of_le (by omega) (by omega), Word32.add_of_lt (by omega)]
  obtain ⟨file, line, desc, halted⟩ := expand_over kmallocInt
    (show k.heap.endAddress - k.heap.startAddress <
      k.heap.endAddress - k.heap.startAddress + newSize by omega)
    (by omega) (by omega) (by omega) (by omega)
  rw [← asked] at halted
  exact ⟨file, line, desc, growHeap_halts halted⟩

/-- Without any hole there is a new one that consists of the new pages. -/
theorem adds (growable : Growable k) {k1 : Kernel} (mapping : PagesOnly k k1)
    (positive : 20 ≤ gain newSize)
    (fits : k.heap.endAddress + gain newSize ≤ k.heap.maxAddress)
    (zero : ∀ g ∈ k.heap.index.entries k.mem, g = 0) {index : OrderedArray} {m' : Mem}
    (inserted : insertOrderedArray k.heap.endAddress k.heap.index
      (newHole k.heap.endAddress (gain newSize) k.mem) = .ok (index, m')) :
    Growable ((k1.upTo (k.heap.endAddress + gain newSize)).withIndex index m') ∧
      EndmostHole ((k1.upTo (k.heap.endAddress + gain newSize)).withIndex index m')
        k.heap.endAddress (gain newSize) := by
  obtain ⟨frames, pages, rfl⟩ := mapping
  have limit := growable.limit
  have length := growable.least
  have minimum : heapMinSize = 458752 := rfl
  let c : Chunk :=
    { addr := k.heap.endAddress, size := gain newSize, hole := true, room := positive }
  have inHeap : c.bytes ⊆ Set.Ico k.heap.startAddress k.heap.maxAddress :=
    Set.Ico_subset_Ico (show k.heap.startAddress ≤ k.heap.endAddress by omega) fits
  obtain ⟨header, -, frame⟩ := newHole_correct k.mem c rfl
    (show k.heap.endAddress + gain newSize < 4294967296 by omega)
  change Set.EqOn (newHole k.heap.endAddress (gain newSize) k.mem) k.mem c.bytesᶜ at frame
  have spare := growable.spare zero
  obtain ⟨rfl, listed, outside⟩ := insertOrderedArray_returns inserted (by omega)
  rw [growable.entries_same frame inHeap] at listed
  have same : Set.EqOn m' (newHole k.heap.endAddress (gain newSize) k.mem) c.bytes := by
    refine outside.mono ?_
    intro x inside inArray
    exact Set.disjoint_left.mp growable.apart (IndexIn.region_subset spare inArray)
      (inHeap inside)
  have old (g : Nat) (member : g ∈ ({ k.heap.index with size := k.heap.index.size + 1 } :
      OrderedArray).entries m') : g = k.heap.endAddress ∨ g ∈ k.heap.index.entries k.mem :=
    List.mem_cons.mp (listed.mem_iff.mp member)
  have endmost : EndmostHole ((Kernel.upTo { k with frames := frames, pages := pages }
      (k.heap.endAddress + gain newSize)).withIndex
        { k.heap.index with size := k.heap.index.size + 1 } m') k.heap.endAddress
      (gain newSize) := by
    refine ⟨listed.mem_iff.mpr List.mem_cons_self, ?_, by omega, (header.congr same).2.2⟩
    intro g member
    cases old g member with
    | inl here => exact Nat.le_of_eq here
    | inr earlier =>
      rw [zero g earlier]
      exact Nat.zero_le _
  refine ⟨growable.next rfl fits spare (growable.mapped.congr rfl rfl) ?_ endmost (Nat.le_refl _)
    (by omega), endmost⟩
  intro g member
  cases old g member with
  | inl here => exact here ▸ (by omega : k.heap.startAddress ≤ k.heap.endAddress)
  | inr earlier => exact (growable.inside g earlier).1

/-- Else the hole with the greatest address gains them. -/
theorem stretches (growable : Growable k) {k1 : Kernel} (mapping : PagesOnly k k1)
    (page : 4096 ≤ gain newSize)
    (fits : k.heap.endAddress + gain newSize ≤ k.heap.maxAddress) {h old : Nat}
    (endmost : EndmostHole k h old) :
    Growable { k1.upTo (k.heap.endAddress + gain newSize) with
        mem := resizeHole h (old + gain newSize) k.mem } ∧
      EndmostHole { k1.upTo (k.heap.endAddress + gain newSize) with
        mem := resizeHole h (old + gain newSize) k.mem } h (old + gain newSize) := by
  obtain ⟨frames, pages, rfl⟩ := mapping
  obtain ⟨listed, greatest, nonzero, rfl⟩ := endmost
  have limit := growable.limit
  have within := growable.endmost h listed greatest
  obtain ⟨lower, upper⟩ := growable.inside h listed
  have at_ : Word32.sub (Word32.add h (headerSize k.mem h + gain newSize)) sizeofFooter =
      h + (headerSize k.mem h + gain newSize) - 8 := by
    rw [sizeofFooter, Word32.add_of_lt (by omega), Word32.sub_of_le (by omega) (by omega)]
  have frame := resizeHole_frame (m := k.mem)
    (show headerSize k.mem h + gain newSize < 4294967296 by omega) at_
  have entries := growable.entries_same frame (by
    intro x member
    simp only [sizeField, Set.mem_union, Set.mem_Ico] at member ⊢
    omega)
  have longer := resizeHole_size (m := k.mem)
    (show headerSize k.mem h + gain newSize < 4294967296 by omega) at_ (by omega)
  have endmost : EndmostHole { Kernel.upTo { k with frames := frames, pages := pages }
      (k.heap.endAddress + gain newSize) with
        mem := resizeHole h (headerSize k.mem h + gain newSize) k.mem } h
      (headerSize k.mem h + gain newSize) := by
    refine ⟨entries.symm ▸ listed, fun g member => ?_, nonzero, longer⟩
    exact greatest g (entries ▸ member)
  refine ⟨growable.next rfl fits growable.room (growable.mapped.congr rfl rfl) ?_ endmost
    (by omega) (by omega), endmost⟩
  intro g member
  exact (growable.inside g (entries ▸ member)).1

/--
One round of the growth: the hole with the greatest address has gained the new pages, or else there
is a new one that consists of them.
-/
theorem grow (growable : Growable k) (kmallocInt : Kmalloc) (least : 20 ≤ newSize)
    (small : newSize < 536870912 + 20) :
    (∃ file line desc, growHeap kmallocInt newSize k = .error (.panicAssert file line desc)) ∨
      ∃ k' h, growHeap kmallocInt newSize k = .ok k' ∧ Growable k' ∧
        ((∀ g ∈ k.heap.index.entries k.mem, g = 0) ∧ EndmostHole k' h (gain newSize) ∨
          ∃ old, EndmostHole k h old ∧ EndmostHole k' h (old + gain newSize)) := by
  have page : 4096 ≤ gain newSize := Nat.le_add_left _ _
  by_cases fits : k.heap.endAddress + gain newSize ≤ k.heap.maxAddress
  case neg => exact Or.inl (growable.growHeap_over kmallocInt least small (by omega))
  case pos =>
    obtain ⟨k1, mapping, outcome⟩ := (growable.extensible least small fits).grows kmallocInt
    rw [growable.grownEnd_eq, Nat.add_sub_cancel_left] at outcome
    cases outcome with
    | inl null =>
      obtain ⟨zero, grown⟩ := null
      have limit := growable.limit
      have bound := growable.bound
      have ends := insertOrderedArray_ends k.heap.index
        (newHole k.heap.endAddress (gain newSize) k.mem)
        (show k.heap.endAddress < 4294967296 by omega)
      cases ends.cases with
      | inl returns =>
        obtain ⟨⟨index, m'⟩, inserted⟩ := returns
        obtain ⟨grew, endmost⟩ := growable.adds mapping (by omega) fits zero inserted
        rw [inserted, ok_bind] at grown
        exact Or.inr ⟨_, _, grown, grew, Or.inl ⟨zero, endmost⟩⟩
      | inr halts =>
        obtain ⟨file, line, desc, halted⟩ := halts
        rw [halted, error_bind] at grown
        exact Or.inl ⟨file, line, desc, grown⟩
    | inr tall =>
      obtain ⟨h, listed, nonzero, greatest, grown⟩ := tall
      have endmost : EndmostHole k h (headerSize k.mem h) := ⟨listed, greatest, nonzero, rfl⟩
      obtain ⟨grew, longer⟩ := growable.stretches mapping page fits endmost
      have word : Word32.add (headerSize k.mem h) (gain newSize) =
          headerSize k.mem h + gain newSize := by
        have within := growable.endmost h listed greatest
        have limit := growable.limit
        exact Word32.add_of_lt (by omega)
      rw [word] at grown
      exact Or.inr ⟨_, h, grown, grew, Or.inr ⟨_, endmost, longer⟩⟩

theorem size_lt (growable : Growable k) {h size : Nat} (endmost : EndmostHole k h size) :
    size < 1073741824 := by
  obtain ⟨listed, greatest, -, sized⟩ := endmost
  have within := growable.endmost h listed greatest
  have bound := growable.bound
  have limit := growable.limit
  omega

theorem few (growable : Growable k) : 4 * k.heap.index.size ≤ 4294967296 := by
  have room := growable.room
  have array := growable.array
  omega

end Growable

theorem EndmostHole.unique {h g size size' : Nat} (one : EndmostHole k h size)
    (other : EndmostHole k g size') : h = g ∧ size = size' := by
  obtain ⟨listed, greatest, -, sized⟩ := one
  obtain ⟨listed', greatest', -, sized'⟩ := other
  obtain rfl := Nat.le_antisymm (greatest' h listed) (greatest g listed')
  exact ⟨rfl, sized.symm.trans sized'⟩

/-! ## The rounds of a call -/

/-- The call ends, with at most `n` calls of `expand`. -/
def Served (kmallocInt : Kmalloc) (fuel n size pageAlign : Nat) (k : Kernel) : Prop :=
  Ends (alloc kmallocInt fuel size pageAlign k) ∧ expansions kmallocInt fuel size pageAlign k ≤ n

variable {size pageAlign : Nat}

theorem served_found (kmallocInt : Kmalloc) (fuel n : Nat) (small : size + 20 < 4294967296)
    (few : 4 * k.heap.index.size ≤ 4294967296)
    (fits : ∃ h ∈ k.heap.index.entries k.mem, holeFits (size + 20) pageAlign k.mem h = true) :
    Served kmallocInt (fuel + 1) n size pageAlign k := by
  have few' : k.heap.index.size < noHole := by
    unfold noHole
    omega
  obtain ⟨iterator, within, first, -, taken⟩ := alloc_takes kmallocInt fuel few' small fits
  have found : iterator ≠ noHole := by omega
  refine ⟨taken ▸ takeHole_ends _ _ _ within (by omega), ?_⟩
  simp only [expansions, allocSize_eq small, findSmallestHole_found fits, ← first, if_neg found]
  exact Nat.zero_le n

theorem served_grows {fuel n : Nat} (small : size + 20 < 4294967296)
    (none : ∀ h ∈ k.heap.index.entries k.mem, holeFits (size + 20) pageAlign k.mem h = false)
    (ends : Ends (growHeap kmallocInt (size + 20) k))
    (rest : ∀ k', growHeap kmallocInt (size + 20) k = .ok k' →
      Served kmallocInt fuel n size pageAlign k') :
    Served kmallocInt (fuel + 1) (n + 1) size pageAlign k := by
  unfold Served
  rw [alloc_grows kmallocInt fuel small none]
  refine ⟨ends.bind fun k' grown => (rest k' grown).1, ?_⟩
  simp only [expansions, allocSize_eq small, findSmallestHole_missing none, if_true]
  cases grown : growHeap kmallocInt (size + 20) k with
  | error halt => exact Nat.le_add_left 1 n
  | ok k' =>
    have := (rest k' grown).2
    simp only
    omega

namespace Growable

-- a hole is found, or else one round goes by after which `rest` says what happens
theorem served_step (growable : Growable k) (kmallocInt : Kmalloc) (pageAlign : Nat) {fuel n : Nat}
    (small : size < 536870912)
    (rest : ∀ k' h, Growable k' →
      ((∀ g ∈ k.heap.index.entries k.mem, g = 0) ∧ EndmostHole k' h (gain (size + 20)) ∨
        ∃ old, EndmostHole k h old ∧ EndmostHole k' h (old + gain (size + 20))) →
      Served kmallocInt fuel n size pageAlign k') :
    Served kmallocInt (fuel + 1) (n + 1) size pageAlign k := by
  by_cases fits : ∃ h ∈ k.heap.index.entries k.mem,
      holeFits (size + 20) pageAlign k.mem h = true
  · exact served_found kmallocInt fuel (n + 1) (by omega) growable.few fits
  · have none (h : Nat) (member : h ∈ k.heap.index.entries k.mem) :
        holeFits (size + 20) pageAlign k.mem h = false :=
      Bool.eq_false_iff.mpr fun yes => fits ⟨h, member, yes⟩
    cases growable.grow kmallocInt (show 20 ≤ size + 20 by omega) (by omega) with
    | inl halted =>
      obtain ⟨file, line, desc, halted⟩ := halted
      refine served_grows (by omega) none (halted ▸ Ends.panic file line desc) ?_
      intro k' grown
      rw [halted] at grown
      cases grown
    | inr done =>
      obtain ⟨k', h, grown, next, endmost⟩ := done
      refine served_grows (by omega) none (grown ▸ Ends.ok k') ?_
      intro k'' same
      rw [grown] at same
      cases same
      exact rest k' h next endmost

theorem fits_of_large (growable : Growable k) {h old : Nat} (endmost : EndmostHole k h old)
    (enough : size + (if pageAlign = 0 then 0 else 4096) ≤ old) :
    ∃ h ∈ k.heap.index.entries k.mem, holeFits size pageAlign k.mem h = true := by
  have small := growable.size_lt endmost
  obtain ⟨listed, -, -, sized⟩ := endmost
  exact ⟨h, listed, holeFits_of_large (by omega) (by omega)⟩

theorem served_once (growable : Growable k) (kmallocInt : Kmalloc) (fuel : Nat)
    (small : size < 536870912) {h old : Nat} (endmost : EndmostHole k h old)
    (enough : size + 20 + (if pageAlign = 0 then 0 else 4096) ≤ old + gain (size + 20)) :
    Served kmallocInt (fuel + 2) 1 size pageAlign k := by
  refine growable.served_step kmallocInt pageAlign small ?_
  intro k' g next longer
  cases longer with
  | inl fresh => exact absurd (fresh.1 h endmost.1) (Nat.ne_of_gt endmost.2.2.1)
  | inr stretched =>
    obtain ⟨old', before, after⟩ := stretched
    obtain ⟨rfl, rfl⟩ := endmost.unique before
    exact served_found kmallocInt fuel 0 (by omega) next.few (next.fits_of_large after enough)

end Growable

/--
`alloc` returns or ends in a failed `ASSERT`, after two calls of `expand` at most: the endmost hole
gains more than the request each time, and a page at least.
-/
theorem alloc_terminates (kmallocInt : Kmalloc) (fuel size pageAlign : Nat) (k : Kernel)
    (aligned : k.heap.startAddress % 4096 = 0)
    (page : (k.heap.endAddress - k.heap.startAddress) % 4096 = 0)
    (least : heapMinSize ≤ k.heap.endAddress - k.heap.startAddress)
    (bound : k.heap.endAddress ≤ k.heap.maxAddress) (limit : k.heap.maxAddress < 1073741824)
    (apart : Disjoint (k.heap.index.region k.heap.index.maxSize)
      (Set.Ico k.heap.startAddress k.heap.maxAddress))
    (array : k.heap.index.array + 4 * k.heap.index.maxSize ≤ 4294967296)
    (room : k.heap.index.size < k.heap.index.maxSize)
    (inside : ∀ h ∈ k.heap.index.entries k.mem, k.heap.startAddress ≤ h ∧
      h < k.heap.endAddress ∧ headerSize k.mem h ≤ k.heap.endAddress - h)
    (mapped : Mapped k k.heap.maxAddress) (small : size < 536870912) :
    ((∃ r, alloc kmallocInt (fuel + 3) size pageAlign k = .ok r) ∨
      ∃ file line desc, alloc kmallocInt (fuel + 3) size pageAlign k =
        .error (.panicAssert file line desc)) ∧
    expansions kmallocInt (fuel + 3) size pageAlign k ≤ if pageAlign = 0 then 1 else 2 := by
  have growable : Growable k :=
    { aligned := aligned, page := page, least := least, bound := bound, limit := limit,
      apart := apart, array := array, room := Nat.le_of_lt room, spare := fun _ => room,
      inside := fun h member => ⟨(inside h member).1, (inside h member).2.1⟩,
      endmost := fun h member _ => (inside h member).2.2, mapped := mapped }
  have gained : size + 20 < gain (size + 20) ∧ 4096 ≤ gain (size + 20) := by
    unfold gain
    omega
  have served : Served kmallocInt (fuel + 3) (if pageAlign = 0 then 1 else 2) size pageAlign k := by
    by_cases plain : pageAlign = 0
    · rw [if_pos plain]
      refine growable.served_step kmallocInt pageAlign small ?_
      intro k' h next longer
      obtain ⟨old, endmost, enough⟩ : ∃ old, EndmostHole k' h old ∧ size + 20 ≤ old := by
        cases longer with
        | inl fresh => exact ⟨_, fresh.2, by omega⟩
        | inr stretched =>
          obtain ⟨old, -, after⟩ := stretched
          exact ⟨_, after, by omega⟩
      exact served_found kmallocInt (fuel + 1) 0 (by omega) next.few
        (next.fits_of_large endmost (by rw [if_pos plain]; exact enough))
    · rw [if_neg plain]
      refine growable.served_step kmallocInt pageAlign small ?_
      intro k' h next longer
      obtain ⟨old, endmost, enough⟩ : ∃ old, EndmostHole k' h old ∧ gain (size + 20) ≤ old := by
        cases longer with
        | inl fresh => exact ⟨_, fresh.2, Nat.le_refl _⟩
        | inr stretched =>
          obtain ⟨old, -, after⟩ := stretched
          exact ⟨_, after, Nat.le_add_left _ _⟩
      refine next.served_once kmallocInt fuel small endmost ?_
      rw [if_neg plain]
      omega
  exact ⟨served.1.cases, served.2⟩

-- no hole at all in a heap of the least length
def crowdedKernel : Kernel :=
  { areaKernel 0x70000 with
    heap := { (areaKernel 0x70000).heap with
      index := { array := 4096, size := 0, maxSize := 3, lessThan := some headerTLessThan } } }

theorem alloc_terminates_crowded :
    ((∃ r, alloc (GekonOS.kmallocInt 0) 3 100 1 crowdedKernel = .ok r) ∨
      ∃ file line desc, alloc (GekonOS.kmallocInt 0) 3 100 1 crowdedKernel =
        .error (.panicAssert file line desc)) ∧
    expansions (GekonOS.kmallocInt 0) 3 100 1 crowdedKernel ≤ 2 :=
  alloc_terminates (GekonOS.kmallocInt 0) 0 100 1 crowdedKernel rfl rfl (by decide) (by decide)
    (by decide)
    (by
      rw [Set.disjoint_left]
      intro x inArray inHeap
      simp only [OrderedArray.region, crowdedKernel, areaKernel, Set.mem_Ico] at inArray inHeap
      omega)
    (by decide) (by decide) (fun h member => absurd member (List.not_mem_nil))
    ((areaKernel_mapped 0x70000 _).congr rfl rfl) (by decide)

/--
The page behind the end of the heap has no table, no hole is large enough for one, and the heap may
grow by what one takes.
-/
structure Tableless (k : Kernel) : Prop where
  heap : k.kheap ≠ 0
  missing : ¬ k.HasTable (k.heap.endAddress / 4096)
  full : ∀ h ∈ k.heap.index.entries k.mem,
    holeFits (sizeofPageTable + 20) 1 k.mem h = false
  le : k.heap.startAddress ≤ k.heap.endAddress
  bound : k.heap.endAddress ≤ k.heap.maxAddress
  limit : k.heap.maxAddress < 4294967296
  fits : k.heap.startAddress + expandedLength (k.heap.endAddress - k.heap.startAddress +
    (sizeofPageTable + 20)) ≤ k.heap.maxAddress

namespace Tableless

theorem growHeap_halts (tableless : Tableless k) {newSize : Nat} {halt : Halt}
    (positive : 0 < newSize) (atMost : newSize ≤ sizeofPageTable + 20)
    (asked : kmallocInt sizeofPageTable 1 true k = .error halt) :
    growHeap kmallocInt newSize k = .error halt := by
  have le := tableless.le
  have bound := tableless.bound
  have limit := tableless.limit
  have fits := tableless.fits
  have above := le_expandedLength (k.heap.endAddress - k.heap.startAddress + (sizeofPageTable + 20))
  have shorter : expandedLength (k.heap.endAddress - k.heap.startAddress + newSize) ≤
      expandedLength (k.heap.endAddress - k.heap.startAddress + (sizeofPageTable + 20)) := by
    unfold expandedLength
    split <;> split <;> omega
  refine GekonOS.growHeap_halts ?_
  rw [Word32.sub_of_le le (by omega), Word32.add_of_lt (by omega)]
  exact expand_tableless (by omega) (by omega) limit le (by omega) tableless.missing asked

/-- A table is a block of the heap, so its allocation comes back to the state that it began in. -/
theorem asks_again (tableless : Tableless k) (fuel : Nat) :
    GekonOS.kmallocInt fuel sizeofPageTable 1 true k = .error .outOfFuel := by
  induction fuel with
  | zero =>
    rw [GekonOS.kmallocInt, if_pos tableless.heap]
  | succ fuel ih =>
    rw [GekonOS.kmallocInt, if_pos tableless.heap]
    simp only
    rw [alloc_grows _ fuel (by decide) tableless.full,
      tableless.growHeap_halts (by decide) (Nat.le_refl _) ih]
    rfl

theorem never_ends (tableless : Tableless k) {size pageAlign : Nat}
    (few : size ≤ sizeofPageTable)
    (none : ∀ h ∈ k.heap.index.entries k.mem, holeFits (size + 20) pageAlign k.mem h = false)
    (fuel depth : Nat) :
    alloc (GekonOS.kmallocInt depth) fuel size pageAlign k = .error .outOfFuel := by
  have small : sizeofPageTable = 4096 := rfl
  cases fuel with
  | zero => rfl
  | succ fuel =>
    rw [alloc_grows _ fuel (by omega) none,
      tableless.growHeap_halts (by omega) (by omega) (tableless.asks_again depth)]
    rfl

end Tableless

-- the heap without a hole, and without any page table
def tablelessKernel : Kernel :=
  { crowdedKernel with kheap := 0x90000, directory := PageDirectory.zero }

/-- Where the page tables are missing, `alloc` does not come to an end. -/
theorem alloc_never_ends :
    tablelessKernel.heap.startAddress % 4096 = 0 ∧
    (tablelessKernel.heap.endAddress - tablelessKernel.heap.startAddress) % 4096 = 0 ∧
    heapMinSize ≤ tablelessKernel.heap.endAddress - tablelessKernel.heap.startAddress ∧
    tablelessKernel.heap.endAddress ≤ tablelessKernel.heap.maxAddress ∧
    tablelessKernel.heap.maxAddress < 1073741824 ∧
    Disjoint (tablelessKernel.heap.index.region tablelessKernel.heap.index.maxSize)
      (Set.Ico tablelessKernel.heap.startAddress tablelessKernel.heap.maxAddress) ∧
    tablelessKernel.heap.index.size < tablelessKernel.heap.index.maxSize ∧
    tablelessKernel.heap.index.entries tablelessKernel.mem = [] ∧
    ∀ fuel depth, alloc (GekonOS.kmallocInt depth) fuel 100 0 tablelessKernel =
      .error .outOfFuel := by
  refine ⟨rfl, rfl, by decide, by decide, by decide, ?_, by decide, rfl, ?_⟩
  · rw [Set.disjoint_left]
    intro x inArray inHeap
    simp only [OrderedArray.region, tablelessKernel, crowdedKernel, areaKernel, Set.mem_Ico]
      at inArray inHeap
    omega
  · have tableless : Tableless tablelessKernel :=
      ⟨by decide, by decide, fun h member => absurd member List.not_mem_nil, by decide, by decide,
        by decide, by decide⟩
    exact tableless.never_ends (by decide) fun h member => absurd member List.not_mem_nil

end GekonOS
