import GekonOS.Kernel.State
import GekonOS.Shared.Loop
import Mathlib.Data.List.Sort

set_option autoImplicit false

namespace GekonOS

open ByteMemory Loop

-- `array->array[i]`
def OrderedArray.slot (arr : OrderedArray) (m : Mem) (i : Nat) : Nat :=
  read32 m (arr.array + 4 * i)

-- `array->array[i] = item`
def OrderedArray.store (arr : OrderedArray) (m : Mem) (i item : Nat) : Mem :=
  write32 m (arr.array + 4 * i) item

def placeOrderedArray (addr maxSize : Nat) (lessThan : Option LessthanPredicate) (m : Mem) :
    OrderedArray × Mem :=
  ({ array := addr, size := 0, maxSize := maxSize, lessThan := lessThan },
    fill m addr 0 (Word32.mul maxSize 4))

def insertPosition (lt : LessthanPredicate) (arr : OrderedArray) (m : Mem) (item : Nat) :
    Except Halt Nat :=
  whileLoop .outOfFuel
    (fun iterator => .ok (decide (iterator < arr.size) && lt m (arr.slot m iterator) item))
    (fun iterator => .ok (iterator + 1))
    (arr.size + 1) 0

-- carries `iterator`, `tmp` and memory
def insertShift (arr : OrderedArray) (m : Mem) (iterator tmp : Nat) :
    Except Halt (Nat × Nat × Mem) :=
  whileLoop .outOfFuel
    (fun s => .ok (decide (s.1 < arr.size)))
    (fun s =>
      let iterator := s.1 + 1
      let tmp2 := arr.slot s.2.2 iterator
      .ok (iterator, tmp2, arr.store s.2.2 iterator s.2.1))
    (arr.size + 1) (iterator, tmp, m)

def insertOrderedArray (item : Nat) (arr : OrderedArray) (m : Mem) :
    Except Halt (OrderedArray × Mem) :=
  match arr.lessThan with
  | none => .error (.panicAssert "kernel/ordered_array.c" 40 "array->less_than")
  | some lt => do
    let iterator ← insertPosition lt arr m item
    if iterator = arr.size then
      -- just add at the end of the array
      pure ({ arr with size := arr.size + 1 }, arr.store m arr.size item)
    else
      let tmp := arr.slot m iterator
      let (_, _, m) ← insertShift arr (arr.store m iterator item) iterator tmp
      pure ({ arr with size := arr.size + 1 }, m)

def lookupOrderedArray (i : Nat) (arr : OrderedArray) (m : Mem) : Except Halt Nat := do
  ASSERT (i < arr.size) "kernel/ordered_array.c" 63 "i < array->size"
  pure (arr.slot m i)

-- carries `i` and memory
def removeShift (arr : OrderedArray) (m : Mem) (i : Nat) : Except Halt (Nat × Mem) :=
  whileLoop .outOfFuel
    (fun s => .ok (decide (s.1 < arr.size)))
    (fun s => .ok (s.1 + 1, arr.store s.2 s.1 (arr.slot s.2 (s.1 + 1))))
    (arr.size + 1) (i, m)

def removeOrderedArray (i : Nat) (arr : OrderedArray) (m : Mem) :
    Except Halt (OrderedArray × Mem) := do
  let (_, m) ← removeShift arr m i
  pure ({ arr with size := Word32.sub arr.size 1 }, m)

def OrderedArray.entries (arr : OrderedArray) (m : Mem) : List Nat :=
  (List.range arr.size).map (arr.slot m)

namespace OrderedArray

variable {arr : OrderedArray} {m m' : Mem}

@[simp] theorem length_entries : (arr.entries m).length = arr.size := by
  simp [entries]

@[simp] theorem getElem_entries {i : Nat} (within : i < (arr.entries m).length) :
    (arr.entries m)[i] = arr.slot m i := by
  simp [entries]

theorem slot_lt (i : Nat) : arr.slot m i < 4294967296 := read32_lt _ _

theorem entries_lt {item : Nat} (member : item ∈ arr.entries m) : item < 4294967296 := by
  obtain ⟨i, -, rfl⟩ := List.mem_map.mp member
  exact slot_lt i

def region (arr : OrderedArray) (n : Nat) : Set Nat := Set.Ico arr.array (arr.array + 4 * n)

theorem slot_store (i j item : Nat) :
    arr.slot (arr.store m i item) j = if j = i then item % 4294967296 else arr.slot m j := by
  split
  next same => simp [slot, store, same]
  next apart => exact read32_write32_ne _ _ (by omega)

theorem store_eqOn {i n : Nat} (item : Nat) (within : i < n) :
    Set.EqOn (arr.store m i item) m (arr.region n)ᶜ := by
  apply write32_eqOn
  intro x outside
  simp only [region, Set.mem_compl_iff, Set.mem_Ico] at outside
  omega

theorem slot_congr {i n : Nat} (within : i < n) (same : Set.EqOn m' m (arr.region n)) :
    arr.slot m' i = arr.slot m i := by
  apply read32_congr
  apply same.mono
  rintro x ⟨lower, upper⟩
  simp only [region, Set.mem_Ico]
  omega

theorem entries_congr (same : Set.EqOn m' m (arr.region arr.size)) :
    arr.entries m' = arr.entries m := by
  apply List.map_congr_left
  intro i member
  exact slot_congr (List.mem_range.mp member) same

end OrderedArray

theorem orderedInsert_eq_insertIdx {α : Type} {r : α → α → Prop} [DecidableRel r] {item : α}
    {xs : List α} {n : Nat} (within : n ≤ xs.length)
    (before : ∀ j (h : j < xs.length), j < n → ¬ r item xs[j])
    (stop : ∀ h : n < xs.length, r item xs[n]) :
    xs.orderedInsert r item = xs.insertIdx n item := by
  induction xs generalizing n with
  | nil =>
    obtain rfl : n = 0 := by simpa using within
    rfl
  | cons x xs ih =>
    cases n with
    | zero => exact List.orderedInsert_cons_of_le r xs (stop (by simp))
    | succ n =>
      have skipped : ¬ r item x := before 0 (by simp) (by omega)
      rw [List.orderedInsert_of_not_le r xs skipped, List.insertIdx_succ_cons,
        ih (by simpa using within) (fun j h lower => before (j + 1) (Nat.succ_lt_succ h) (by omega))
          (fun h => stop (Nat.succ_lt_succ h))]

theorem insertPosition_correct (lt : LessthanPredicate) (arr : OrderedArray) (m : Mem)
    (item : Nat) :
    ∃ n, insertPosition lt arr m item = .ok n ∧ n ≤ arr.size ∧
      (∀ j, j < n → lt m (arr.slot m j) item) ∧
      (n < arr.size → ¬ lt m (arr.slot m n) item) := by
  obtain ⟨n, result, ⟨bound, before⟩, stop⟩ := whileLoop_total Halt.outOfFuel
    (fun iterator => .ok (decide (iterator < arr.size) && lt m (arr.slot m iterator) item))
    (fun iterator => .ok (iterator + 1))
    (fun n => n ≤ arr.size ∧ ∀ j, j < n → lt m (arr.slot m j) item)
    (fun n => arr.size - n) (arr.size + 1) 0
    ⟨by omega, fun j h => by omega⟩ (by omega) (fun n _ => ⟨_, rfl⟩)
    (by
      intro n invariant test
      have bound := invariant.1
      simp only [Except.ok.injEq, Bool.and_eq_true, decide_eq_true_eq] at test
      refine ⟨n + 1, rfl, ⟨by omega, ?_⟩, by omega⟩
      intro j lower
      cases Nat.lt_succ_iff_lt_or_eq.mp lower with
      | inl earlier => exact invariant.2 j earlier
      | inr same => exact same ▸ test.2)
  refine ⟨n, result, bound, before, ?_⟩
  intro within
  simpa [within] using stop

theorem insertShift_correct (arr : OrderedArray) (m : Mem) (pos item : Nat)
    (within : pos < arr.size) (small : item < 4294967296) :
    ∃ it tmp m', insertShift arr (arr.store m pos item) pos (arr.slot m pos) = .ok (it, tmp, m') ∧
      (∀ j, j ≤ arr.size → arr.slot m' j =
        if j < pos then arr.slot m j else if j = pos then item else arr.slot m (j - 1)) ∧
      Set.EqOn m' m (arr.region (arr.size + 1))ᶜ := by
  obtain ⟨⟨it, tmp, m'⟩, result, ⟨lower, upper, -, slots, frame⟩, stop⟩ := whileLoop_total
    Halt.outOfFuel (fun s : Nat × Nat × Mem => .ok (decide (s.1 < arr.size)))
    (fun s => .ok (s.1 + 1, arr.slot s.2.2 (s.1 + 1), arr.store s.2.2 (s.1 + 1) s.2.1))
    (fun s => pos ≤ s.1 ∧ s.1 ≤ arr.size ∧ s.2.1 = arr.slot m s.1 ∧
      (∀ j, arr.slot s.2.2 j = if j < pos then arr.slot m j else if j = pos then item
        else if j ≤ s.1 then arr.slot m (j - 1) else arr.slot m j) ∧
      Set.EqOn s.2.2 m (arr.region (arr.size + 1))ᶜ)
    (fun s => arr.size - s.1) (arr.size + 1) (pos, arr.slot m pos, arr.store m pos item)
    (by
      refine ⟨Nat.le_refl _, by simp only; omega, rfl, ?_, OrderedArray.store_eqOn _ (by omega)⟩
      intro j
      simp only [OrderedArray.slot_store, Nat.mod_eq_of_lt small]
      by_cases same : j = pos
      · simp [same]
      · by_cases before : j < pos
        · simp [same, before]
        · simp [same, before, show ¬ j ≤ pos by omega])
    (by simp only; omega) (fun s _ => ⟨_, rfl⟩)
    (by
      rintro ⟨it, tmp, m'⟩ ⟨lower, upper, carried, slots, frame⟩ test
      simp only [Except.ok.injEq, decide_eq_true_eq] at lower upper carried slots frame test
      refine ⟨_, rfl, ⟨by simp only; omega, by simp only; omega, ?_, ?_, ?_⟩, by simp only; omega⟩
      · simp only [slots]
        rw [if_neg (by omega), if_neg (by omega), if_neg (by omega)]
      · intro j
        simp only [OrderedArray.slot_store, slots, carried,
          Nat.mod_eq_of_lt (OrderedArray.slot_lt _)]
        by_cases same : j = it + 1
        · subst same
          rw [if_pos rfl, if_neg (by omega), if_neg (by omega), if_pos (by omega)]
          rfl
        · rw [if_neg same]
          by_cases seen : j ≤ it
          · simp only [seen, show j ≤ it + 1 by omega]
          · simp only [seen, show ¬ j ≤ it + 1 by omega]
      · exact (OrderedArray.store_eqOn _ (by omega)).trans frame)
  refine ⟨it, tmp, m', result, ?_, frame⟩
  simp only [Except.ok.injEq, decide_eq_false_iff_not] at stop upper
  intro j bound
  rw [slots j]
  simp only [show j ≤ it by omega, if_true]

theorem entries_insertIdx {arr : OrderedArray} {m m' : Mem} {pos item : Nat}
    (within : pos ≤ arr.size)
    (slots : ∀ j, j ≤ arr.size → arr.slot m' j =
      if j < pos then arr.slot m j else if j = pos then item else arr.slot m (j - 1)) :
    ({ arr with size := arr.size + 1 } : OrderedArray).entries m' =
      (arr.entries m).insertIdx pos item := by
  apply List.ext_getElem
  · rw [List.length_insertIdx_of_le_length (by simpa using within)]
    simp
  · intro j left right
    rw [List.getElem_insertIdx]
    simp only [OrderedArray.length_entries] at left
    simp only [OrderedArray.getElem_entries, dite_eq_ite]
    exact slots j (by omega)

theorem insertOrderedArray_correct {lt : LessthanPredicate} {arr : OrderedArray} (m : Mem)
    {item : Nat} (known : arr.lessThan = some lt) (small : item < 4294967296) :
    ∃ m', insertOrderedArray item arr m = .ok ({ arr with size := arr.size + 1 }, m') ∧
      ({ arr with size := arr.size + 1 } : OrderedArray).entries m' =
        (arr.entries m).orderedInsert (fun a b => ¬ lt m b a) item ∧
      Set.EqOn m' m (arr.region (arr.size + 1))ᶜ := by
  obtain ⟨pos, found, bound, before, stop⟩ := insertPosition_correct lt arr m item
  have inserted : (arr.entries m).orderedInsert (fun a b => ¬ lt m b a) item =
      (arr.entries m).insertIdx pos item := by
    apply orderedInsert_eq_insertIdx
    · simpa using bound
    · intro j h lower
      simpa using before j lower
    · intro h
      simpa using stop (by simpa using h)
  rw [inserted]
  by_cases last : pos = arr.size
  · refine ⟨arr.store m arr.size item, ?_, entries_insertIdx bound ?_,
      OrderedArray.store_eqOn _ (by omega)⟩
    · simp [insertOrderedArray, known, found, last, bind, Except.bind, pure, Except.pure]
    · intro j upper
      rw [OrderedArray.slot_store, Nat.mod_eq_of_lt small, last]
      by_cases same : j = arr.size
      · rw [if_pos same, if_neg (by omega), if_pos same]
      · rw [if_neg same, if_pos (by omega)]
  · obtain ⟨it, tmp, m', result, slots, frame⟩ :=
      insertShift_correct arr m pos item (by omega) small
    refine ⟨m', ?_, entries_insertIdx bound slots, frame⟩
    simp [insertOrderedArray, known, found, last, bind, Except.bind, pure, Except.pure, result]

theorem insertOrderedArray_returns {arr arr' : OrderedArray} {m m' : Mem} {item : Nat}
    (result : insertOrderedArray item arr m = .ok (arr', m')) (small : item < 4294967296) :
    arr' = { arr with size := arr.size + 1 } ∧ (arr'.entries m').Perm (item :: arr.entries m) ∧
      Set.EqOn m' m (arr.region (arr.size + 1))ᶜ := by
  cases known : arr.lessThan with
  | none =>
    rw [insertOrderedArray, known] at result
    cases result
  | some lt =>
    obtain ⟨m1, inserted, entries, outside⟩ := insertOrderedArray_correct m known small
    rw [inserted] at result
    obtain ⟨rfl, rfl⟩ := Prod.mk.inj (Except.ok.inj result)
    refine ⟨by rw [known], ?_, outside⟩
    rw [entries]
    exact List.perm_orderedInsert _ _ _

theorem lookupOrderedArray_correct {arr : OrderedArray} (m : Mem) {i : Nat}
    (within : i < arr.size) : lookupOrderedArray i arr m = .ok (arr.slot m i) := by
  simp [lookupOrderedArray, ASSERT, within, bind, Except.bind, pure, Except.pure]

theorem removeShift_correct (arr : OrderedArray) (m : Mem) (i : Nat) (within : i < arr.size) :
    ∃ it m', removeShift arr m i = .ok (it, m') ∧
      (∀ j, j + 1 < arr.size → arr.slot m' j =
        if j < i then arr.slot m j else arr.slot m (j + 1)) ∧
      Set.EqOn m' m (arr.region arr.size)ᶜ := by
  obtain ⟨⟨it, m'⟩, result, ⟨lower, upper, slots, frame⟩, stop⟩ := whileLoop_total Halt.outOfFuel
    (fun s : Nat × Mem => .ok (decide (s.1 < arr.size)))
    (fun s => .ok (s.1 + 1, arr.store s.2 s.1 (arr.slot s.2 (s.1 + 1))))
    (fun s => i ≤ s.1 ∧ s.1 ≤ arr.size ∧
      (∀ j, arr.slot s.2 j =
        if i ≤ j ∧ j < s.1 then arr.slot m (j + 1) else arr.slot m j) ∧
      Set.EqOn s.2 m (arr.region arr.size)ᶜ)
    (fun s => arr.size - s.1) (arr.size + 1) (i, m)
    (by
      refine ⟨Nat.le_refl _, by simp only; omega, ?_, Set.eqOn_refl _ _⟩
      intro j
      rw [if_neg (by omega)])
    (by simp only; omega) (fun s _ => ⟨_, rfl⟩)
    (by
      rintro ⟨it, m'⟩ ⟨lower, upper, slots, frame⟩ test
      simp only [Except.ok.injEq, decide_eq_true_eq] at lower upper slots frame test
      refine ⟨_, rfl, ⟨by simp only; omega, by simp only; omega, ?_, ?_⟩, by simp only; omega⟩
      · intro j
        simp only [OrderedArray.slot_store, Nat.mod_eq_of_lt (OrderedArray.slot_lt _)]
        by_cases same : j = it
        · rw [if_pos same, if_pos (by omega), slots (it + 1), if_neg (by omega), same]
        · rw [if_neg same, slots j]
          simp only [show (j < it + 1) = (j < it) from propext (by omega)]
      · exact (OrderedArray.store_eqOn _ test).trans frame)
  refine ⟨it, m', result, ?_, frame⟩
  simp only [Except.ok.injEq, decide_eq_false_iff_not] at stop upper
  intro j bound
  rw [slots j]
  by_cases before : j < i
  · rw [if_neg (by omega), if_pos before]
  · rw [if_pos (by omega), if_neg before]

theorem removeOrderedArray_correct {arr : OrderedArray} (m : Mem) {i : Nat}
    (within : i < arr.size) (small : arr.size < 4294967296) :
    ∃ m', removeOrderedArray i arr m = .ok ({ arr with size := arr.size - 1 }, m') ∧
      ({ arr with size := arr.size - 1 } : OrderedArray).entries m' =
        (arr.entries m).eraseIdx i ∧
      Set.EqOn m' m (arr.region arr.size)ᶜ := by
  obtain ⟨it, m', result, slots, frame⟩ := removeShift_correct arr m i within
  refine ⟨m', ?_, ?_, frame⟩
  · simp [removeOrderedArray, result, bind, Except.bind, pure, Except.pure,
      Word32.sub_of_le (show 1 ≤ arr.size by omega) small]
  · apply List.ext_getElem
    · rw [List.length_eraseIdx_of_lt (by simpa using within)]
      simp
    · intro j left right
      rw [List.getElem_eraseIdx]
      simp only [OrderedArray.length_entries] at left
      simp only [OrderedArray.getElem_entries, dite_eq_ite]
      exact slots j (by omega)

end GekonOS
