import GekonOS.Kernel.OrderedArray
import GekonOS.Shared.Transition

set_option autoImplicit false

namespace GekonOS.Sorted

open ByteMemory Loop Transition

/-- A strict weak order on words. -/
structure StrictWeakOrder (lt : Nat → Nat → Bool) : Prop where
  irrefl : ∀ a : UInt32, lt a.toNat a.toNat = false
  trans : ∀ a b c : UInt32, lt a.toNat b.toNat → lt b.toNat c.toNat → lt a.toNat c.toNat
  cotrans : ∀ a b c : UInt32, lt a.toNat c.toNat → lt a.toNat b.toNat ∨ lt b.toNat c.toNat

inductive Op where
  | insert (item : UInt32)
  -- with what `lookup_ordered_array` returned for the position
  | remove (i value : Nat)

abbrev State : Type := OrderedArray × Mem

def Step (s : State) : Op → State → Prop
  | .insert item, s' => insertOrderedArray item.toNat s.1 s.2 = .ok s'
  | .remove i value, s' => i < s.1.size ∧ lookupOrderedArray i s.1 s.2 = .ok value ∧
      removeOrderedArray i s.1 s.2 = .ok s'

-- an insert finds room; a remove always does
def HasRoom (s : State) : Op → Prop
  | .insert _ => s.1.size < s.1.maxSize
  | .remove _ _ => True

def inserted (ops : List Op) : List Nat :=
  ops.filterMap fun
    | .insert item => some item.toNat
    | .remove _ _ => none

def removed (ops : List Op) : List Nat :=
  ops.filterMap fun
    | .insert _ => none
    | .remove _ value => some value

def entries (s : State) : List Nat := s.1.entries s.2

/-- What an operation does to the list, apart from where the item goes. -/
def Edits (before : List Nat) : Op → List Nat → Prop
  | .insert item, after => before.Sublist after ∧ after.Perm (item.toNat :: before)
  | .remove i value, after => before[i]? = some value ∧ after = before.eraseIdx i

theorem pairwise_orderedInsert {α : Type} {r : α → α → Prop} [DecidableRel r] {item : α}
    {xs : List α} (total : ∀ x ∈ xs, ¬ r item x → r x item)
    (trans : ∀ x ∈ xs, ∀ y ∈ xs, r item x → r x y → r item y) (sorted : xs.Pairwise r) :
    (xs.orderedInsert r item).Pairwise r := by
  induction xs with
  | nil => exact List.pairwise_singleton r item
  | cons x xs ih =>
    obtain ⟨first, rest⟩ := List.pairwise_cons.mp sorted
    by_cases le : r item x
    · rw [List.orderedInsert_cons_of_le r xs le]
      refine List.pairwise_cons.mpr ⟨?_, sorted⟩
      intro y member
      cases List.mem_cons.mp member with
      | inl same => exact same ▸ le
      | inr later => exact trans x List.mem_cons_self y member le (first y later)
    · rw [List.orderedInsert_of_not_le r xs le]
      refine List.pairwise_cons.mpr ⟨?_, ih ?_ ?_ rest⟩
      · intro y member
        cases (List.mem_orderedInsert r).mp member with
        | inl same => exact same ▸ total x List.mem_cons_self le
        | inr later => exact first y later
      · exact fun y later => total y (List.mem_cons_of_mem x later)
      · exact fun y later z after =>
          trans y (List.mem_cons_of_mem x later) z (List.mem_cons_of_mem x after)

/-- The array after `ops`: its place in memory, its order, and what it holds. -/
structure Invariant (lt : LessthanPredicate) (start : State) (ops : List Op) (s : State) :
    Prop where
  array : s.1 = { start.1 with size := s.1.size }
  room : s.1.size ≤ s.1.maxSize
  frame : Set.EqOn s.2 start.2 (start.1.region start.1.maxSize)ᶜ
  sorted : (entries s).Pairwise fun a b => lt start.2 b a = false
  held : (entries s ++ removed ops).Perm (inserted ops)

variable {lt : LessthanPredicate} {start s s' : State} {ops : List Op}

theorem exists_word {a : Nat} (small : a < 4294967296) : ∃ w : UInt32, w.toNat = a :=
  ⟨UInt32.ofNat a, UInt32.toNat_ofNat_of_lt small⟩

theorem sorted_insert {m : Mem} {xs : List Nat} (order : StrictWeakOrder (lt m))
    (words : ∀ x ∈ xs, x < 4294967296) (item : UInt32)
    (sorted : xs.Pairwise fun a b => lt m b a = false) :
    (xs.orderedInsert (fun a b => ¬ lt m b a) item.toNat).Pairwise fun a b => lt m b a = false := by
  have toFalse (a b : Nat) : ¬ lt m b a ↔ lt m b a = false := by simp
  refine List.Pairwise.imp (fun keeps => (toFalse _ _).mp keeps)
    (pairwise_orderedInsert ?_ ?_ (sorted.imp fun keeps => (toFalse _ _).mpr keeps))
  · intro x member before
    obtain ⟨w, rfl⟩ := exists_word (words x member)
    intro after
    have loop := order.trans item w item after (not_not.mp before)
    rw [order.irrefl] at loop
    cases loop
  · intro x memberX y memberY first second third
    obtain ⟨w, rfl⟩ := exists_word (words x memberX)
    obtain ⟨v, rfl⟩ := exists_word (words y memberY)
    cases order.cotrans v w item third with
    | inl less => exact second less
    | inr less => exact first less

theorem inserted_append (op : Op) : inserted (ops ++ [op]) = inserted ops ++ inserted [op] :=
  List.filterMap_append

theorem removed_append (op : Op) : removed (ops ++ [op]) = removed ops ++ removed [op] :=
  List.filterMap_append

theorem Invariant.insert (inv : Invariant lt start ops s) (known : start.1.lessThan = some lt)
    (order : StrictWeakOrder (lt start.2))
    (stable : ∀ m, Set.EqOn m start.2 (start.1.region start.1.maxSize)ᶜ → lt m = lt start.2)
    {item : UInt32} (room : s.1.size < s.1.maxSize) (step : Step s (.insert item) s') :
    Edits (entries s) (.insert item) (entries s') ∧
      Invariant lt start (ops ++ [.insert item]) s' := by
  have same : lt s.2 = lt start.2 := stable _ inv.frame
  have known' : s.1.lessThan = some lt := by rw [inv.array, known]
  obtain ⟨m', result, listed, frame⟩ :=
    insertOrderedArray_correct s.2 known' (UInt32.toNat_lt item)
  obtain rfl := Except.ok.inj (step.symm.trans result)
  have perm : (entries ({ s.1 with size := s.1.size + 1 }, m')).Perm (item.toNat :: entries s) := by
    rw [entries, listed]
    exact List.perm_orderedInsert _ _ _
  refine ⟨⟨?_, perm⟩, ?_⟩
  · rw [entries, entries, listed]
    exact List.sublist_orderedInsert _ _
  constructor
  case array =>
    change { s.1 with size := s.1.size + 1 } = { start.1 with size := s.1.size + 1 }
    rw [inv.array]
  case room => exact room
  case frame =>
    have within : s.1.region (s.1.size + 1) ⊆ start.1.region start.1.maxSize := by
      have capacity : s.1.maxSize = start.1.maxSize := by rw [inv.array]
      have address : s.1.array = start.1.array := by rw [inv.array]
      intro x inside
      simp only [OrderedArray.region, Set.mem_Ico] at inside ⊢
      omega
    exact (frame.mono (Set.compl_subset_compl.mpr within)).trans inv.frame
  case sorted =>
    rw [entries, listed, ← same]
    refine sorted_insert (same ▸ order) (fun x member => OrderedArray.entries_lt member) item ?_
    rw [same]
    exact inv.sorted
  case held =>
    rw [inserted_append, removed_append]
    have before := inv.held.cons item.toNat
    have added := (perm.append_right (removed ops)).trans before
    simpa [removed, inserted] using added.trans (List.perm_append_singleton _ _).symm

theorem Invariant.remove (inv : Invariant lt start ops s) (word : start.1.maxSize < 4294967296)
    {i value : Nat} (step : Step s (.remove i value) s') :
    Edits (entries s) (.remove i value) (entries s') ∧
      Invariant lt start (ops ++ [.remove i value]) s' := by
  obtain ⟨within, found, moved⟩ := step
  have capacity : s.1.maxSize = start.1.maxSize := by rw [inv.array]
  have address : s.1.array = start.1.array := by rw [inv.array]
  have tight := inv.room
  obtain ⟨m', result, listed, frame⟩ := removeOrderedArray_correct s.2 within (by omega)
  obtain rfl := Except.ok.inj (moved.symm.trans result)
  have bound : i < (entries s).length := by
    rw [entries, OrderedArray.length_entries]
    exact within
  have here : (entries s)[i] = value := by
    rw [lookupOrderedArray_correct s.2 within] at found
    have same := Except.ok.inj found
    simpa [entries] using same
  have listed' : entries ({ s.1 with size := s.1.size - 1 }, m') = (entries s).eraseIdx i := listed
  refine ⟨⟨?_, listed'⟩, ?_⟩
  · rw [List.getElem?_eq_getElem bound, here]
  constructor
  case array =>
    change { s.1 with size := s.1.size - 1 } = { start.1 with size := s.1.size - 1 }
    rw [inv.array]
  case room => exact Nat.le_trans (Nat.sub_le _ _) inv.room
  case frame =>
    have inside : s.1.region s.1.size ⊆ start.1.region start.1.maxSize := by
      intro x inside
      simp only [OrderedArray.region, Set.mem_Ico] at inside ⊢
      omega
    exact (frame.mono (Set.compl_subset_compl.mpr inside)).trans inv.frame
  case sorted =>
    rw [listed']
    exact inv.sorted.sublist (List.eraseIdx_sublist _ _)
  case held =>
    rw [inserted_append, removed_append, listed']
    have back : ((entries s).eraseIdx i ++ [value]).Perm (entries s) := by
      rw [← here]
      exact (List.perm_append_singleton _ _).trans (List.getElem_cons_eraseIdx_perm bound)
    have held := (back.append_right (removed ops)).trans inv.held
    simp only [removed, inserted, List.filterMap_cons, List.filterMap_nil, List.append_nil,
      List.append_assoc, List.singleton_append] at held ⊢
    exact (List.perm_append_singleton value _).append_left _ |>.trans held

theorem exists_insert (known : s.1.lessThan = some lt) (item : UInt32) :
    ∃ s', Step s (.insert item) s' := by
  obtain ⟨m', result, -, -⟩ := insertOrderedArray_correct s.2 known (UInt32.toNat_lt item)
  exact ⟨_, result⟩

theorem exists_remove (word : s.1.size < 4294967296) {i : Nat} (within : i < s.1.size) :
    ∃ value s', Step s (.remove i value) s' := by
  obtain ⟨m', result, -, -⟩ := removeOrderedArray_correct s.2 within word
  exact ⟨_, _, within, lookupOrderedArray_correct s.2 within, result⟩

theorem insert_size (known : s.1.lessThan = some lt) {item : UInt32}
    (step : Step s (.insert item) s') : s'.1 = { s.1 with size := s.1.size + 1 } := by
  obtain ⟨m', result, -, -⟩ := insertOrderedArray_correct s.2 known (UInt32.toNat_lt item)
  rw [← Except.ok.inj (result.symm.trans step)]

theorem remove_size (word : s.1.size < 4294967296) {i value : Nat}
    (step : Step s (.remove i value) s') : s'.1 = { s.1 with size := s.1.size - 1 } := by
  obtain ⟨m', result, -, -⟩ := removeOrderedArray_correct s.2 step.1 word
  rw [← Except.ok.inj (result.symm.trans step.2.2)]

def placed (addr maxSize : Nat) (lt : LessthanPredicate) (m : Mem) : State :=
  placeOrderedArray addr maxSize (some lt) m

theorem placed_invariant (addr maxSize : Nat) (lt : LessthanPredicate) (m : Mem) :
    Invariant lt (placed addr maxSize lt m) [] (placed addr maxSize lt m) :=
  ⟨rfl, Nat.zero_le _, Set.eqOn_refl _ _, List.Pairwise.nil, List.Perm.refl _⟩

theorem Invariant.step (inv : Invariant lt start ops s) (known : start.1.lessThan = some lt)
    (word : start.1.maxSize < 4294967296) (order : StrictWeakOrder (lt start.2))
    (stable : ∀ m, Set.EqOn m start.2 (start.1.region start.1.maxSize)ᶜ → lt m = lt start.2)
    {op : Op} (room : HasRoom s op) (step : Step s op s') :
    Edits (entries s) op (entries s') ∧ Invariant lt start (ops ++ [op]) s' := by
  cases op with
  | insert item => exact inv.insert known order stable room step
  | remove i value => exact inv.remove word step

/--
Whatever is inserted and removed, the array is sorted and holds what was inserted and not removed;
an insert keeps the order of the elements present, and a remove deletes the element looked up.
-/
theorem array_refines_list (addr maxSize : Nat) (lt : LessthanPredicate) (m : Mem)
    (word : maxSize < 4294967296) (order : StrictWeakOrder (lt (placed addr maxSize lt m).2))
    (stable : ∀ m', Set.EqOn m' (placed addr maxSize lt m).2
      ((placed addr maxSize lt m).1.region maxSize)ᶜ → lt m' = lt (placed addr maxSize lt m).2)
    (ops : List Op) (s : State)
    (run : Run (Guarded HasRoom Step) (placed addr maxSize lt m) ops s) :
    (entries s).Pairwise (fun a b => lt (placed addr maxSize lt m).2 b a = false) ∧
      (entries s ++ removed ops).Perm (inserted ops) ∧
      (∀ op s', HasRoom s op → Step s op s' → Edits (entries s) op (entries s')) ∧
      (∀ item, ∃ s', Step s (.insert item) s') ∧
      ∀ i < s.1.size, ∃ value s', Step s (.remove i value) s' := by
  have inv : Invariant lt (placed addr maxSize lt m) ops s := by
    induction run with
    | nil => exact placed_invariant addr maxSize lt m
    | snoc _ taken ih => exact (ih.step rfl word order stable taken.1 taken.2).2
  have known : s.1.lessThan = some lt := by
    rw [inv.array]
    rfl
  have capacity : s.1.maxSize = maxSize := by
    rw [inv.array]
    rfl
  have tight := inv.room
  exact ⟨inv.sorted, inv.held, fun op s' room step => (inv.step rfl word order stable room step).1,
    exists_insert known, fun i within => exists_remove (by omega) within⟩

-- words in their own order
def byValue : LessthanPredicate := fun _ a b => decide (a < b)

theorem byValue_order (m : Mem) : StrictWeakOrder (byValue m) := by
  constructor
  · simp [byValue]
  · intro a b c
    simp only [byValue, decide_eq_true_eq]
    omega
  · intro a b c
    simp only [byValue, decide_eq_true_eq]
    omega

theorem array_refines_list_two : ∃ value s,
    Run (Guarded HasRoom Step) (placed 4096 2 byValue fun _ => 0)
      [.insert 7, .insert 3, .remove 0 value] s ∧
    (entries s ++ [value]).Perm [7, 3] := by
  have refines := array_refines_list 4096 2 byValue (fun _ => 0) (by decide) (byValue_order _)
    (fun _ _ => rfl)
  obtain ⟨-, -, -, inserts, -⟩ := refines [] _ Run.nil
  obtain ⟨s1, first⟩ := inserts 7
  have size1 := insert_size rfl first
  have room1 : HasRoom (placed 4096 2 byValue fun _ => 0) (.insert 7) := show 0 < 2 by decide
  have one : Run (Guarded HasRoom Step) (placed 4096 2 byValue fun _ => 0) ([] ++ [.insert 7]) s1 :=
    Run.nil.snoc ⟨room1, first⟩
  obtain ⟨-, -, -, inserts, -⟩ := refines _ _ one
  obtain ⟨s2, second⟩ := inserts 3
  have size2 := insert_size (by rw [size1]; rfl) second
  have room2 : HasRoom s1 (.insert 3) := by
    rw [HasRoom, size1]
    decide
  have two := one.snoc ⟨room2, second⟩
  obtain ⟨-, -, -, -, removes⟩ := refines _ _ two
  obtain ⟨value, s3, third⟩ := removes 0 (by rw [size2, size1]; decide)
  have room3 : HasRoom s2 (.remove 0 value) := trivial
  have three := two.snoc ⟨room3, third⟩
  exact ⟨value, s3, three, (refines _ _ three).2.1⟩

/-! ## The elements a call reads and writes -/

-- the array elements that `insert_ordered_array` reads and writes, in order
def insertAccesses (lt : LessthanPredicate) (item : Nat) (arr : OrderedArray) (m : Mem) :
    List Nat :=
  let searched := visits (ε := Halt)
    (fun iterator => .ok (decide (iterator < arr.size) && lt m (arr.slot m iterator) item))
    (fun iterator => .ok (iterator + 1)) (arr.size + 1) 0
  match insertPosition lt arr m item with
  | .error _ => searched
  | .ok iterator =>
    -- the test that ended the search reads an element unless it was the bound that ended it
    let searched := if iterator < arr.size then searched ++ [iterator] else searched
    if iterator = arr.size then searched ++ [arr.size]
    else
      let shifted := visits (ε := Halt) (fun s : Nat × Nat × Mem => .ok (decide (s.1 < arr.size)))
        (fun s =>
          let iterator := s.1 + 1
          let tmp2 := arr.slot s.2.2 iterator
          .ok (iterator, tmp2, arr.store s.2.2 iterator s.2.1))
        (arr.size + 1) (iterator, arr.slot m iterator, arr.store m iterator item)
      searched ++ [iterator, iterator] ++ shifted.flatMap fun s => [s.1 + 1, s.1 + 1]

def removeAccesses (i : Nat) (arr : OrderedArray) (m : Mem) : List Nat :=
  (visits (ε := Halt) (fun s : Nat × Mem => .ok (decide (s.1 < arr.size)))
    (fun s => .ok (s.1 + 1, arr.store s.2 s.1 (arr.slot s.2 (s.1 + 1))))
    (arr.size + 1) (i, m)).flatMap fun s => [s.1 + 1, s.1]

theorem search_visits {item n : Nat} {arr : OrderedArray} {m : Mem} (bound : n ≤ arr.size)
    (before : ∀ j, j < n → lt m (arr.slot m j) item)
    (stop : n < arr.size → ¬ lt m (arr.slot m n) item) :
    visits (ε := Halt)
      (fun iterator => .ok (decide (iterator < arr.size) && lt m (arr.slot m iterator) item))
      (fun iterator => .ok (iterator + 1)) (arr.size + 1) 0 = List.range' 0 n := by
  obtain ⟨-, -, -, visited⟩ := whileLoop_counts Halt.outOfFuel
    (fun iterator => .ok (decide (iterator < arr.size) && lt m (arr.slot m iterator) item))
    (fun iterator => .ok (iterator + 1)) (fun j s => s = j) id id n (j := 0) (s := 0) rfl
    (Nat.zero_le n) (show n - 0 < arr.size + 1 by omega)
    (by
      rintro j s le rfl
      congr 1
      by_cases more : s < n
      · simp [more, before s more, show s < arr.size by omega]
      · obtain rfl : s = n := by omega
        by_cases within : s < arr.size
        · simp [stop within]
        · simp [within])
    (by
      rintro j s - rfl
      exact ⟨s + 1, rfl, rfl⟩)
    (by
      rintro j s - rfl
      rfl)
  simpa using visited

theorem insertAccesses_last (lt : LessthanPredicate) (item : Nat) (arr : OrderedArray) (m : Mem) :
    arr.size ∈ insertAccesses lt item arr m ∧ ∀ a ∈ insertAccesses lt item arr m, a ≤ arr.size := by
  obtain ⟨n, found, bound, before, stop⟩ := insertPosition_correct lt arr m item
  unfold insertAccesses
  simp only [found, search_visits bound before stop]
  by_cases last : n = arr.size
  · rw [if_pos last, if_neg (show ¬ n < arr.size by omega)]
    refine ⟨by simp, ?_⟩
    intro a member
    cases List.mem_append.mp member with
    | inl searched =>
      have := List.mem_range'_1.mp searched
      omega
    | inr added => exact Nat.le_of_eq (List.mem_singleton.mp added)
  · have inside : n < arr.size := by omega
    have shifted : (visits (ε := Halt) (fun s : Nat × Nat × Mem => .ok (decide (s.1 < arr.size)))
        (fun s => .ok (s.1 + 1, arr.slot s.2.2 (s.1 + 1), arr.store s.2.2 (s.1 + 1) s.2.1))
        (arr.size + 1) (n, arr.slot m n, arr.store m n item)).map Prod.fst =
          List.range' n (arr.size - n) := visits_counts _ _ bound (by omega)
    have flat : (visits (ε := Halt) (fun s : Nat × Nat × Mem => .ok (decide (s.1 < arr.size)))
        (fun s => .ok (s.1 + 1, arr.slot s.2.2 (s.1 + 1), arr.store s.2.2 (s.1 + 1) s.2.1))
        (arr.size + 1) (n, arr.slot m n, arr.store m n item)).flatMap
          (fun s => [s.1 + 1, s.1 + 1]) =
        (List.range' n (arr.size - n)).flatMap fun j => [j + 1, j + 1] := by
      rw [← shifted, List.flatMap_map]
    rw [if_pos inside, if_neg last, flat]
    constructor
    · refine List.mem_append_right _ (List.mem_flatMap.mpr ⟨arr.size - 1, ?_, ?_⟩)
      · exact List.mem_range'_1.mpr ⟨by omega, by omega⟩
      · simp only [List.mem_cons]
        omega
    · intro a member
      simp only [List.mem_append, List.mem_cons, List.mem_flatMap, List.mem_range'_1,
        List.not_mem_nil, or_false] at member
      cases member with
      | inl found => omega
      | inr moved =>
        obtain ⟨j, inside, same⟩ := moved
        omega

theorem removeAccesses_last {i : Nat} {arr : OrderedArray} (m : Mem) (within : i < arr.size) :
    arr.size ∈ removeAccesses i arr m ∧ ∀ a ∈ removeAccesses i arr m, a ≤ arr.size := by
  have counted : (visits (ε := Halt) (fun s : Nat × Mem => .ok (decide (s.1 < arr.size)))
      (fun s => .ok (s.1 + 1, arr.store s.2 s.1 (arr.slot s.2 (s.1 + 1))))
      (arr.size + 1) (i, m)).map Prod.fst = List.range' i (arr.size - i) :=
    visits_counts _ _ (Nat.le_of_lt within) (by omega)
  have flat : removeAccesses i arr m =
      (List.range' i (arr.size - i)).flatMap fun j => [j + 1, j] := by
    rw [removeAccesses, ← counted, List.flatMap_map]
  rw [flat]
  constructor
  · refine List.mem_flatMap.mpr ⟨arr.size - 1, ?_, ?_⟩
    · exact List.mem_range'_1.mpr ⟨by omega, by omega⟩
    · simp only [List.mem_cons]
      omega
  · intro a member
    obtain ⟨j, inside, same⟩ := List.mem_flatMap.mp member
    simp only [List.mem_range'_1, List.mem_cons, List.not_mem_nil, or_false] at inside same
    omega

-- the elements that a call touches
def accesses (s : State) : Op → List Nat
  | .insert item =>
    match s.1.lessThan with
    | some lt => insertAccesses lt item.toNat s.1 s.2
    | none => []
  | .remove i _ => removeAccesses i s.1 s.2

theorem accesses_last (known : s.1.lessThan = some lt) {op : Op} (step : Step s op s') :
    s.1.size ∈ accesses s op ∧ ∀ a ∈ accesses s op, a ≤ s.1.size := by
  cases op with
  | insert item =>
    rw [accesses, known]
    exact insertAccesses_last lt item.toNat s.1 s.2
  | remove i value => exact removeAccesses_last s.2 step.1

theorem remove_keeps {i value : Nat} (step : Step s (.remove i value) s') :
    s'.1 = { s.1 with size := Word32.sub s.1.size 1 } := by
  obtain ⟨it, m', shifted, -⟩ := removeShift_correct s.1 s.2 i step.1
  have result : removeOrderedArray i s.1 s.2 =
      .ok ({ s.1 with size := Word32.sub s.1.size 1 }, m') := by
    simp only [removeOrderedArray, shifted, ok_bind]
    rfl
  rw [← Except.ok.inj (result.symm.trans step.2.2)]

-- what `place_ordered_array` has set stays, but for the size
theorem run_keeps (known : start.1.lessThan = some lt) (run : Run Step start ops s) :
    s.1 = { start.1 with size := s.1.size } := by
  induction run with
  | nil => rfl
  | @snoc labels t t' op _ taken ih =>
    cases op with
    | insert item => rw [insert_size (by rw [ih]; exact known) taken, ih]
    | remove i value => rw [remove_keeps taken, ih]

/--
Sizes and accesses stay within the array if and only if no call finds it full: not even a remove,
which reads the element behind the last one.
-/
theorem stays_in_bounds_iff (addr : Nat) (maxSize : UInt32) (lt : LessthanPredicate) (m : Mem)
    (ops : List Op) :
    ((∀ before after t, ops = before ++ after →
        Run Step (placed addr maxSize.toNat lt m) before t → t.1.size ≤ maxSize.toNat) ∧
      ∀ before op after t t', ops = before ++ op :: after →
        Run Step (placed addr maxSize.toNat lt m) before t → Step t op t' →
        ∀ a ∈ accesses t op, a < maxSize.toNat) ↔
    ∀ before op after t t', ops = before ++ op :: after →
      Run Step (placed addr maxSize.toNat lt m) before t → Step t op t' →
      t.1.size < maxSize.toNat := by
  have known {before : List Op} {t : State}
      (run : Run Step (placed addr maxSize.toNat lt m) before t) : t.1.lessThan = some lt := by
    rw [run_keeps rfl run]
    rfl
  constructor
  · rintro ⟨-, bounded⟩ before op after t t' split run step
    exact bounded before op after t t' split run step _ (accesses_last (known run) step).1
  · intro notFull
    constructor
    · intro before after t split run
      cases before using List.reverseRecOn with
      | nil =>
        cases run.nil_eq
        exact Nat.zero_le _
      | append_singleton before op =>
        obtain ⟨t0, earlier, step⟩ := run.last
        have below := notFull before op after t0 t (by simp [split]) earlier step
        cases op with
        | insert item =>
          rw [insert_size (known earlier) step]
          exact below
        | remove i value =>
          have small := maxSize.toNat_lt
          rw [remove_size (by omega) step]
          simp only
          omega
    · intro before op after t t' split run step a member
      have below := notFull before op after t t' split run step
      have atMost := (accesses_last (known run) step).2 a member
      omega

/-- Once the array is full, an insert and a remove go to the element behind it. -/
theorem full_array_left : ∃ t, Run Step (placed 4096 1 byValue fun _ => 0) [.insert 7] t ∧
    (∃ t', Step t (.insert 3) t' ∧ t'.1.size = 2 ∧ 1 ∈ accesses t (.insert 3)) ∧
    ∃ value t', Step t (.remove 0 value) t' ∧ 1 ∈ accesses t (.remove 0 value) := by
  have empty : (placed 4096 1 byValue fun _ => 0).1.lessThan = some byValue := rfl
  obtain ⟨t, first⟩ := exists_insert empty 7
  have array := insert_size empty first
  have size : t.1.size = 1 := by
    rw [array]
    rfl
  have known : t.1.lessThan = some byValue := by rw [array, empty]
  obtain ⟨u, second⟩ := exists_insert known 3
  obtain ⟨value, v, third⟩ := exists_remove (by omega) (show 0 < t.1.size by omega)
  have filled : Run Step (placed 4096 1 byValue fun _ => 0) ([] ++ [.insert 7]) t :=
    Run.nil.snoc first
  refine ⟨t, filled, ⟨u, second, ?_, ?_⟩, value, v, third, ?_⟩
  · rw [insert_size known second, size]
  · exact size ▸ (accesses_last known second).1
  · exact size ▸ (accesses_last known third).1

end GekonOS.Sorted
