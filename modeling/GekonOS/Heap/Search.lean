import GekonOS.Kernel.Kheap

set_option autoImplicit false

namespace GekonOS

open ByteMemory Loop

theorem searchIndex_correct (index : OrderedArray) (m : Mem) (p : Nat → Bool) :
    whileLoop Halt.outOfFuel
      (fun iterator => do
        if iterator < index.size then
          let item ← lookupOrderedArray iterator index m
          pure (p item)
        else pure false)
      (fun iterator => .ok (iterator + 1))
      (index.size + 1) 0 = .ok ((index.entries m).findIdx fun item => !p item) := by
  have test (n : Nat) : (do
      if n < index.size then
        let item ← lookupOrderedArray n index m
        pure (p item)
      else pure false : Except Halt Bool) =
        .ok (decide (n < index.size) && p (index.slot m n)) := by
    by_cases within : n < index.size
    · simp [within, lookupOrderedArray_correct m within, bind, Except.bind, pure, Except.pure]
    · simp [within, pure, Except.pure]
  simp only [test]
  obtain ⟨n, result, ⟨bound, before⟩, stop⟩ := whileLoop_total Halt.outOfFuel
    (fun n => .ok (decide (n < index.size) && p (index.slot m n))) (fun n => .ok (n + 1))
    (fun n => n ≤ index.size ∧ ∀ j < n, p (index.slot m j) = true)
    (fun n => index.size - n) (index.size + 1) 0
    ⟨Nat.zero_le _, fun j lower => absurd lower (Nat.not_lt_zero j)⟩ (by omega)
    (fun n _ => ⟨_, rfl⟩)
    (by
      rintro n ⟨bound, before⟩ going
      simp only [Except.ok.injEq, Bool.and_eq_true, decide_eq_true_eq] at going
      refine ⟨n + 1, rfl, ⟨going.1, ?_⟩, by omega⟩
      intro j lower
      cases Nat.lt_succ_iff_lt_or_eq.mp lower with
      | inl earlier => exact before j earlier
      | inr same => exact same ▸ going.2)
  rw [result]
  congr 1
  by_cases within : n < index.size
  · symm
    rw [List.findIdx_eq (by simpa using within)]
    refine ⟨by simpa [within] using stop, ?_⟩
    intro j lower
    simp [before j lower]
  · obtain rfl : n = index.size := by omega
    symm
    have length : (index.entries m).length = index.size := OrderedArray.length_entries
    rw [← length, List.findIdx_eq_length]
    intro item member
    obtain ⟨j, range, rfl⟩ := List.mem_map.mp member
    simp [before j (List.mem_range.mp range)]

variable {index : OrderedArray} {m : Mem}

theorem findSmallestHole_found {size pageAlign : Nat} {heap : Heap}
    (fits : ∃ h ∈ heap.index.entries m, holeFits size pageAlign m h = true) :
    findSmallestHole size pageAlign heap m =
      .ok ((heap.index.entries m).findIdx (holeFits size pageAlign m)) := by
  have within : (heap.index.entries m).findIdx (holeFits size pageAlign m) < heap.index.size := by
    simpa using List.findIdx_lt_length_of_exists fits
  unfold findSmallestHole
  rw [searchIndex_correct heap.index m fun h => !holeFits size pageAlign m h]
  simp [bind, Except.bind, pure, Except.pure, Nat.ne_of_lt within]

theorem findSmallestHole_missing {size pageAlign : Nat} {heap : Heap}
    (none : ∀ h ∈ heap.index.entries m, holeFits size pageAlign m h = false) :
    findSmallestHole size pageAlign heap m = .ok noHole := by
  have stop : (heap.index.entries m).findIdx (holeFits size pageAlign m) = heap.index.size := by
    have length : (heap.index.entries m).length = heap.index.size := OrderedArray.length_entries
    rw [← length]
    exact List.findIdx_eq_length_of_false none
  unfold findSmallestHole
  rw [searchIndex_correct heap.index m fun h => !holeFits size pageAlign m h]
  simp [bind, Except.bind, pure, Except.pure, stop]

theorem findInIndex_correct (header : Nat) (index : OrderedArray) (m : Mem) :
    findInIndex header index m = .ok ((index.entries m).idxOf header) := by
  unfold findInIndex
  rw [searchIndex_correct index m fun item => decide (item ≠ header)]
  congr 2
  funext item
  simp [Bool.beq_eq_decide_eq]

-- carries the invariant of the search for the endmost header through `n` entries
def EndmostUpTo (index : OrderedArray) (m : Mem) (s : Nat × Int × Nat) : Prop :=
  s.1 ≤ index.size ∧ (s.2 = (-1, 0) ∧ (∀ i < s.1, index.slot m i = 0) ∨
    ∃ j < s.1, s.2 = ((j : Int), index.slot m j) ∧ 0 < index.slot m j ∧
      ∀ i < s.1, index.slot m i ≤ index.slot m j)

theorem endmostHeader_correct (index : OrderedArray) (m : Mem) :
    ∃ iterator idx value, endmostHeader index m = .ok (iterator, idx, value) ∧
      ((∀ h ∈ index.entries m, h = 0) ∧ idx = -1 ∨
        ∃ j < index.size, idx = (j : Int) ∧ 0 < index.slot m j ∧
          ∀ h ∈ index.entries m, h ≤ index.slot m j) := by
  obtain ⟨⟨n, idx, value⟩, result, ⟨bound, found⟩, stop⟩ := whileLoop_total Halt.outOfFuel
    (fun s : Nat × Int × Nat => .ok (decide (s.1 < index.size)))
    (fun s => do
      let tmp ← lookupOrderedArray s.1 index m
      if tmp > s.2.2 then pure (s.1 + 1, (s.1 : Int), tmp) else pure (s.1 + 1, s.2.1, s.2.2))
    (EndmostUpTo index m) (fun s => index.size - s.1) (index.size + 1) (0, -1, 0)
    ⟨Nat.zero_le _, Or.inl ⟨rfl, fun i lower => absurd lower (Nat.not_lt_zero i)⟩⟩ (by omega)
    (fun s _ => ⟨_, rfl⟩)
    (by
      rintro ⟨n, idx, value⟩ ⟨bound, found⟩ test
      simp only [Except.ok.injEq, decide_eq_true_eq] at bound found test
      simp only [lookupOrderedArray_correct m test, bind, Except.bind, pure, Except.pure]
      by_cases greater : index.slot m n > value
      · refine ⟨_, if_pos greater, ⟨by simp only; omega, Or.inr ⟨n, by simp only; omega, rfl,
          by omega, ?_⟩⟩, by simp only; omega⟩
        intro i lower
        cases Nat.lt_succ_iff_lt_or_eq.mp lower with
        | inr same => rw [same]
        | inl earlier =>
          cases found with
          | inl null =>
            rw [null.2 i earlier]
            exact Nat.zero_le _
          | inr older =>
            obtain ⟨j, -, pair, -, greatest⟩ := older
            have value := (Prod.mk.inj pair).2
            have := greatest i earlier
            omega
      · refine ⟨_, if_neg greater, ⟨by simp only; omega, ?_⟩, by simp only; omega⟩
        cases found with
        | inl null =>
          have value := (Prod.mk.inj null.1).2
          refine Or.inl ⟨null.1, fun i within => ?_⟩
          cases Nat.lt_succ_iff_lt_or_eq.mp within with
          | inl earlier => exact null.2 i earlier
          | inr same =>
            rw [same]
            omega
        | inr older =>
          obtain ⟨j, lower, pair, positive, greatest⟩ := older
          refine Or.inr ⟨j, by simp only; omega, pair, positive, ?_⟩
          intro i within
          cases Nat.lt_succ_iff_lt_or_eq.mp within with
          | inl earlier => exact greatest i earlier
          | inr same =>
            have value := (Prod.mk.inj pair).2
            rw [same]
            omega)
  refine ⟨n, idx, value, result, ?_⟩
  simp only [Except.ok.injEq, decide_eq_false_iff_not] at stop bound found
  obtain rfl : n = index.size := by omega
  cases found with
  | inl null =>
    refine Or.inl ⟨?_, (Prod.mk.inj null.1).1⟩
    intro h member
    obtain ⟨i, range, rfl⟩ := List.mem_map.mp member
    exact null.2 i (List.mem_range.mp range)
  | inr older =>
    obtain ⟨j, within, pair, positive, greatest⟩ := older
    refine Or.inr ⟨j, within, (Prod.mk.inj pair).1, positive, ?_⟩
    intro h member
    obtain ⟨i, range, rfl⟩ := List.mem_map.mp member
    exact greatest i (List.mem_range.mp range)

end GekonOS
