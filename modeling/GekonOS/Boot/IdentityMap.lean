import GekonOS.Boot.PageMap
import GekonOS.Heap.Create

set_option autoImplicit false

namespace GekonOS.IdentityMap

open Loop Placement

/-!
# The mappings made at boot

Every page is mapped once, and the frames are handed out in the order of the calls.
-/

def Present (k : Kernel) (page : Nat) : Prop :=
  k.HasTable page ∧ (k.pages (k.entryOf page)).present = true

def frameNumber (k : Kernel) (page : Nat) : Nat := frameOf k (k.entryOf page)

/-- The frames below `n` are given out, and the mappings made are those of `mapped`. -/
structure Progress (nframes n : Nat) (mapped : Nat → Option Nat) (k : Kernel) : Prop where
  tables : Tables 0x200000 k
  count : k.nframes = nframes
  bitmap : ∀ frame < 32 * (nframes / 32), frameBit k.frames frame = decide (frame < n)
  entries : ∀ page frame, mapped page = some frame →
    Present k page ∧ frameNumber k page = frame
  blank : ∀ page, mapped page = none → k.HasTable page → k.pages (k.entryOf page) = Page.zero

variable (fuel : Nat) {nframes n address : Nat} {mapped : Nat → Option Nat} {k : Kernel}

-- the table step keeps everything about the pages
theorem Progress.getPage (progress : Progress nframes n mapped k)
    (fits : ¬ k.HasTable (address / 4096) → TableFits k) :
    ∃ k', GekonOS.getPage (kmallocInt fuel) address k = .ok (k'.entryOf (address / 4096), k') ∧
      Progress nframes n mapped k' ∧ k'.HasTable (address / 4096) ∧
      (∀ i, k'.directory.Holds i ↔ i = address / 4096 / 1024 ∨ k.directory.Holds i) ∧
      k'.placementAddress =
        (if k.HasTable (address / 4096) then k.placementAddress else newTable k + 4096) ∧
      k'.framesAddr = k.framesAddr ∧ k'.directoryAddr = k.directoryAddr := by
  have floor : 4096 ≤ 0x200000 := by decide
  obtain ⟨k', result, tables, has, outcome⟩ :=
    getPage_correct fuel address progress.tables floor fits
  refine ⟨k', result, ?_⟩
  rcases outcome with ⟨present, rfl⟩ | ⟨absent, rfl⟩
  · refine ⟨progress, has, ?_, by rw [if_pos present], rfl, rfl⟩
    intro i
    constructor
    · exact Or.inr
    · intro holds
      cases holds with
      | inl same => exact same ▸ present
      | inr before => exact before
  · have holds := progress.tables.holds_withTable floor (address / 4096)
    refine ⟨⟨tables, progress.count, progress.bitmap, ?_, ?_⟩, has, holds,
      by rw [if_neg absent]; rfl, rfl, rfl⟩
    · intro page frame is
      obtain ⟨⟨hasPage, present⟩, number⟩ := progress.entries page frame is
      obtain ⟨stays, entry, same⟩ := progress.tables.entry_withTable floor absent hasPage
      refine ⟨⟨stays, ?_⟩, ?_⟩
      · rw [entry, same, present]
      · rw [frameNumber, frameOf, entry, same]
        exact number
    · intro page none hasPage
      by_cases before : k.HasTable page
      · obtain ⟨-, entry, same⟩ := progress.tables.entry_withTable floor absent before
        rw [entry, same]
        exact progress.blank page none before
      · exact (Tables.zero_withTable k (((holds _).mp hasPage).resolve_right before)).2

theorem Progress.allocFrame (progress : Progress nframes n mapped k) {page : Nat}
    (has : k.HasTable page) (fresh : mapped page = none) (enough : n < 32 * (nframes / 32))
    (few : nframes ≤ 1048576) :
    ∃ frame entry, GekonOS.allocFrame (k.entryOf page) 0 0 k = (n, { k with
        frames := frame, pages := Function.update k.pages (k.entryOf page) entry }) ∧
      Progress nframes (n + 1) (Function.update mapped page (some n)) { k with
        frames := frame, pages := Function.update k.pages (k.entryOf page) entry } := by
  have zero : frameOf k (k.entryOf page) = 0 := by
    rw [frameOf, progress.blank page fresh has]
    rfl
  have clear : frameBit k.frames n = false := by
    rw [progress.bitmap n enough]
    simp
  have before : ∀ f < n, frameBit k.frames f = true := by
    intro f lower
    rw [progress.bitmap f (by omega)]
    exact decide_eq_true lower
  have next : firstFreeFrame k.nframes k.frames = n :=
    firstFreeFrame_correct (by rw [progress.count]; exact enough) clear before
  obtain ⟨frame, small, -, -, rfl, result⟩ := allocFrame_correct 0 0 zero
    ⟨n, by rw [progress.count]; exact enough, clear⟩ (by rw [progress.count]; exact few)
  rw [next] at result small
  refine ⟨_, _, result, ?_⟩
  have other (q : Nat) (hasQ : k.HasTable q) (distinct : q ≠ page) :
      k.entryOf q ≠ k.entryOf page :=
    fun same => distinct (progress.tables.entryOf_injective hasQ has same)
  constructor
  case tables =>
    have tables := progress.tables
    exact ⟨tables.noHeap, tables.low, tables.absent, tables.aligned, tables.inside,
      tables.physical, tables.apart⟩
  case count => exact progress.count
  case bitmap =>
    intro f within
    rw [frameBit_setFrame, progress.bitmap f within, Nat.mul_div_cancel _ (by decide)]
    by_cases same : f = n
    · simp [same]
    · simp only [same, decide_false, Bool.or_false]
      exact decide_eq_decide.mpr (by omega)
  case entries =>
    intro q frame is
    by_cases same : q = page
    · subst same
      simp only [Function.update_self, Option.some.injEq] at is
      subst is
      refine ⟨⟨has, ?_⟩, ?_⟩
      · change (Function.update k.pages (k.entryOf q) _ (k.entryOf q)).present = true
        rw [Function.update_self]
      · change (Function.update k.pages (k.entryOf q) _ (k.entryOf q)).frameAddr.toNat = n
        rw [Function.update_self]
        simp only [BitVec.toNat_ofNat]
        omega
    · rw [Function.update_of_ne same] at is
      obtain ⟨⟨hasQ, present⟩, number⟩ := progress.entries q frame is
      have apart := other q hasQ same
      refine ⟨⟨hasQ, ?_⟩, ?_⟩
      · change (Function.update k.pages (k.entryOf page) _ (k.entryOf q)).present = true
        rw [Function.update_of_ne apart, present]
      · change (Function.update k.pages (k.entryOf page) _ (k.entryOf q)).frameAddr.toNat = frame
        rw [Function.update_of_ne apart]
        exact number
  case blank =>
    intro q none hasQ
    have same : q ≠ page := fun same => by simp [same] at none
    rw [Function.update_of_ne same] at none
    exact (Function.update_of_ne (other q hasQ same) ..).trans (progress.blank q none hasQ)

-- the body shared by the three loops; `set_page` is `get_page`
def mapNext (fuel : Nat) (s : Nat × Kernel) : Except Halt (Nat × Kernel) := do
  let (page, k) ← GekonOS.getPage (kmallocInt fuel) s.1 s.2
  let (_, k) := GekonOS.allocFrame page 0 0 k
  pure (Word32.add s.1 pageSize, k)

/-- What one round of a loop does beyond the mapping itself. -/
structure Moved (page : Nat) (k k' : Kernel) : Prop where
  holds : ∀ i, k'.directory.Holds i ↔ i = page / 1024 ∨ k.directory.Holds i
  placement : k'.placementAddress =
    if k.HasTable page then k.placementAddress else newTable k + 4096
  framesAddr : k'.framesAddr = k.framesAddr
  directoryAddr : k'.directoryAddr = k.directoryAddr

theorem Progress.mapNext (progress : Progress nframes n mapped k)
    (fresh : mapped (address / 4096) = none) (enough : n < 32 * (nframes / 32))
    (few : nframes ≤ 1048576) (fits : ¬ k.HasTable (address / 4096) → TableFits k)
    (small : address + 4096 < 4294967296) :
    ∃ k', IdentityMap.mapNext fuel (address, k) = .ok (address + 4096, k') ∧
      Progress nframes (n + 1) (Function.update mapped (address / 4096) (some n)) k' ∧
      Moved (address / 4096) k k' := by
  obtain ⟨k1, got, stays, has, holds, placement, framesAddr, directoryAddr⟩ :=
    progress.getPage fuel fits
  obtain ⟨frames, entry, result, next⟩ := stays.allocFrame has fresh enough few
  refine ⟨_, ?_, next, ⟨holds, placement, framesAddr, directoryAddr⟩⟩
  simp only [IdentityMap.mapNext, got, bind, Except.bind, pure, Except.pure, result, pageSize,
    Word32.add_of_lt small]

-- the pages below `limit` on themselves, then `j` pages of the heap area on the next frames
def bootMap (limit j : Nat) : Nat → Option Nat := fun page =>
  if page < limit then some page
  else if 4096 ≤ page ∧ page < 4096 + j then some (limit + (page - 4096))
  else none

theorem bootMap_identity (limit : Nat) :
    Function.update (bootMap limit 0) limit (some limit) = bootMap (limit + 1) 0 := by
  funext page
  by_cases same : page = limit
  · simp [same, bootMap]
  · rw [Function.update_of_ne same]
    unfold bootMap
    by_cases below : page < limit
    · rw [if_pos below, if_pos (by omega)]
    · rw [if_neg below, if_neg (by omega), if_neg (by omega), if_neg (by omega)]

theorem bootMap_heap {limit : Nat} (low : limit ≤ 4096) (j : Nat) :
    Function.update (bootMap limit j) (4096 + j) (some (limit + j)) = bootMap limit (j + 1) := by
  funext page
  by_cases same : page = 4096 + j
  · subst same
    rw [Function.update_self, bootMap, if_neg (by omega), if_pos (by omega),
      Nat.add_sub_cancel_left]
  · rw [Function.update_of_ne same]
    unfold bootMap
    by_cases below : page < limit
    · rw [if_pos below, if_pos below]
    · rw [if_neg below, if_neg below]
      simp only [show (4096 ≤ page ∧ page < 4096 + j) ↔ (4096 ≤ page ∧ page < 4096 + (j + 1)) by
        omega]

theorem bootMap_none {limit j page : Nat} (above : limit ≤ page) (outside : 4096 + j ≤ page) :
    bootMap limit j page = none := by
  rw [bootMap, if_neg (by omega), if_neg (by omega)]

theorem bootMap_none_low {limit j page : Nat} (above : limit ≤ page) (outside : page < 4096) :
    bootMap limit j page = none := by
  rw [bootMap, if_neg (by omega), if_neg (by omega)]

/-! ## The three loops -/

-- where the directory goes
def directoryAt (nframes : Nat) : Nat := 4096 * ((0x200000 + nframes / 32) / 4096) + 4096

-- the placement address once the first table is there, in pages
def imageEnd (nframes : Nat) : Nat := directoryAt nframes / 4096 + 4

theorem directoryAt_bounds (few : nframes ≤ 1048576) :
    directoryAt nframes % 4096 = 0 ∧ 0x201000 ≤ directoryAt nframes ∧
      directoryAt nframes ≤ 0x209000 := by
  unfold directoryAt
  omega

/-- The state inside the first loop, at page `n`. -/
structure Imaging (nframes n : Nat) (k : Kernel) : Prop where
  progress : Progress nframes n (bootMap n 0) k
  bound : n ≤ imageEnd nframes
  holds : ∀ i, k.directory.Holds i ↔ i = 0 ∧ n ≠ 0
  placement : k.placementAddress =
    if n = 0 then directoryAt nframes + 8196 else 4096 * imageEnd nframes
  framesAddr : k.framesAddr = 0x200000
  directoryAddr : k.directoryAddr = directoryAt nframes

theorem Imaging.next (imaging : Imaging nframes n k) (below : n < imageEnd nframes)
    (enough : n < 32 * (nframes / 32)) (few : nframes ≤ 1048576) :
    ∃ k', mapNext fuel (4096 * n, k) = .ok (4096 * n + 4096, k') ∧ Imaging nframes (n + 1) k' := by
  obtain ⟨onPage, low, high⟩ := directoryAt_bounds few
  have last : imageEnd nframes ≤ 525 := by
    unfold imageEnd
    omega
  have here : 4096 * n / 4096 = n := by omega
  have placement := imaging.placement
  have tableOf : k.HasTable n ↔ n ≠ 0 := by
    unfold Kernel.HasTable
    rw [imaging.holds]
    omega
  have fresh : bootMap n 0 n = none := bootMap_none_low (Nat.le_refl _) (by omega)
  obtain ⟨k', result, progress, moved⟩ := imaging.progress.mapNext fuel
    (show bootMap n 0 (4096 * n / 4096) = none by rw [here]; exact fresh) enough few
    (by
      rw [here, tableOf]
      intro zero
      unfold TableFits newTable alignedAddress
      split at placement <;> split <;> omega) (by omega)
  rw [here, bootMap_identity] at progress
  rw [here] at moved
  refine ⟨k', result, progress, below, ?_, ?_, moved.framesAddr.trans imaging.framesAddr,
    moved.directoryAddr.trans imaging.directoryAddr⟩
  · intro i
    rw [moved.holds, imaging.holds]
    omega
  · rw [moved.placement, if_neg (Nat.succ_ne_zero n)]
    by_cases zero : n = 0
    · have absent : ¬ k.HasTable n := by rw [tableOf]; omega
      rw [if_neg absent]
      rw [if_pos zero] at placement
      unfold newTable alignedAddress imageEnd
      rw [placement]
      split <;> omega
    · rw [if_pos (tableOf.mpr zero), placement, if_neg zero]

theorem imageEnd_bounds (few : nframes ≤ 1048576) :
    517 ≤ imageEnd nframes ∧ imageEnd nframes ≤ 525 := by
  obtain ⟨onPage, low, high⟩ := directoryAt_bounds few
  unfold imageEnd
  omega

-- the first loop stops where it has pushed the placement address
theorem identityPages_correct (imaging : Imaging nframes 0 k)
    (enough : imageEnd nframes ≤ 32 * (nframes / 32)) (few : nframes ≤ 1048576) :
    ∃ i k', identityPages fuel k = .ok (i, k') ∧ Imaging nframes (imageEnd nframes) k' := by
  obtain ⟨low, high⟩ := imageEnd_bounds few
  have onPage := (directoryAt_bounds few).1
  obtain ⟨⟨i, k'⟩, result, ⟨n, at_, final⟩, stop⟩ := whileLoop_total Halt.outOfFuel
    (fun s : Nat × Kernel => .ok (decide (s.1 < s.2.placementAddress))) (mapNext fuel)
    (fun s => ∃ n, s.1 = 4096 * n ∧ Imaging nframes n s.2)
    (fun s => imageEnd nframes - s.1 / 4096) pageLoopFuel (0, k) ⟨0, rfl, imaging⟩
    (by simp only [pageLoopFuel]; omega) (fun s _ => ⟨_, rfl⟩)
    (by
      rintro ⟨i, k⟩ ⟨n, at_, imaging⟩ test
      simp only [Except.ok.injEq, decide_eq_true_eq] at at_ test
      subst at_
      have placement : k.placementAddress = _ := imaging.placement
      have below : n < imageEnd nframes := by
        split at placement <;> omega
      obtain ⟨k', next, later⟩ := imaging.next fuel below (by omega) few
      refine ⟨_, next, ⟨n + 1, by simp only; omega, later⟩, ?_⟩
      simp only
      omega)
  simp only [Except.ok.injEq, decide_eq_false_iff_not] at at_ stop
  have placement : k'.placementAddress = _ := final.placement
  have bound := final.bound
  have done : n = imageEnd nframes := by
    split at placement <;> omega
  exact ⟨i, k', result, done ▸ final⟩

/-- The state inside the second loop, at page `n`. -/
structure Installing (nframes n : Nat) (k : Kernel) : Prop where
  progress : Progress nframes n (bootMap n 0) k
  lower : imageEnd nframes ≤ n
  upper : n ≤ imageEnd nframes + 16
  holds : ∀ i, k.directory.Holds i ↔ i = 0
  placement : k.placementAddress = 4096 * imageEnd nframes
  framesAddr : k.framesAddr = 0x200000
  directoryAddr : k.directoryAddr = directoryAt nframes

theorem Installing.next (installing : Installing nframes n k) (below : n < imageEnd nframes + 16)
    (enough : n < 32 * (nframes / 32)) (few : nframes ≤ 1048576) :
    ∃ k', mapNext fuel (4096 * n, k) = .ok (4096 * n + 4096, k') ∧
      Installing nframes (n + 1) k' := by
  obtain ⟨low, high⟩ := imageEnd_bounds few
  have lower := installing.lower
  have here : 4096 * n / 4096 = n := by omega
  have has : k.HasTable n := (installing.holds _).mpr (by omega)
  have fresh : bootMap n 0 n = none := bootMap_none_low (Nat.le_refl _) (by omega)
  obtain ⟨k', result, progress, moved⟩ := installing.progress.mapNext fuel
    (show bootMap n 0 (4096 * n / 4096) = none by rw [here]; exact fresh) enough few
    (fun absent => absurd (here.symm ▸ has) absent) (by omega)
  rw [here, bootMap_identity] at progress
  rw [here] at moved
  refine ⟨k', result, progress, by omega, below, ?_, ?_,
    moved.framesAddr.trans installing.framesAddr,
    moved.directoryAddr.trans installing.directoryAddr⟩
  · intro i
    rw [moved.holds, installing.holds]
    omega
  · rw [moved.placement, if_pos has, installing.placement]

theorem installPages_correct (imaging : Imaging nframes (imageEnd nframes) k)
    (enough : imageEnd nframes + 16 ≤ 32 * (nframes / 32)) (few : nframes ≤ 1048576) :
    ∃ i k', installPages fuel k = .ok (i, k') ∧ Installing nframes (imageEnd nframes + 16) k' := by
  obtain ⟨low, high⟩ := imageEnd_bounds few
  have placement := imaging.placement
  rw [if_neg (by omega)] at placement
  have start : Installing nframes (imageEnd nframes) k := by
    refine ⟨imaging.progress, Nat.le_refl _, by omega, ?_, placement, imaging.framesAddr,
      imaging.directoryAddr⟩
    intro i
    rw [imaging.holds]
    omega
  obtain ⟨⟨i, k'⟩, result, ⟨n, at_, final⟩, stop⟩ := whileLoop_total Halt.outOfFuel
    (fun s : Nat × Kernel => .ok (decide (s.1 < Word32.add s.2.placementAddress 0x10000)))
    (mapNext fuel) (fun s => ∃ n, s.1 = 4096 * n ∧ Installing nframes n s.2)
    (fun s => imageEnd nframes + 16 - s.1 / 4096) pageLoopFuel (k.placementAddress, k)
    ⟨_, placement, start⟩ (by simp only [pageLoopFuel]; omega) (fun s _ => ⟨_, rfl⟩)
    (by
      rintro ⟨i, k⟩ ⟨n, at_, installing⟩ test
      simp only [Except.ok.injEq, decide_eq_true_eq] at at_ test
      subst at_
      rw [installing.placement, Word32.add_of_lt (by omega)] at test
      obtain ⟨k', next, later⟩ := installing.next fuel (by omega) (by omega) few
      refine ⟨_, next, ⟨n + 1, by simp only; omega, later⟩, ?_⟩
      simp only
      omega)
  simp only [Except.ok.injEq, decide_eq_false_iff_not] at at_ stop
  rw [final.placement, Word32.add_of_lt (by omega)] at stop
  have upper := final.upper
  have done : n = imageEnd nframes + 16 := by omega
  exact ⟨i, k', result, done ▸ final⟩

-- the tables needed for the first `j` pages of the heap area
def heapTables (j : Nat) : Nat := (j + 1023) / 1024

/-- The state inside the third loop, after `j` pages of the heap area. -/
structure Reserving (nframes j : Nat) (k : Kernel) : Prop where
  progress : Progress nframes (imageEnd nframes + 16 + j) (bootMap (imageEnd nframes + 16) j) k
  bound : j ≤ 4095
  holds : ∀ i, k.directory.Holds i ↔ i = 0 ∨ (4 ≤ i ∧ i < 4 + heapTables j)
  placement : k.placementAddress = 4096 * (imageEnd nframes + 2 * heapTables j)
  framesAddr : k.framesAddr = 0x200000
  directoryAddr : k.directoryAddr = directoryAt nframes

theorem Reserving.next {j : Nat} (reserving : Reserving nframes j k) (below : j < 4095)
    (enough : imageEnd nframes + 16 + j < 32 * (nframes / 32)) (few : nframes ≤ 1048576) :
    ∃ k', mapNext fuel (4096 * (4096 + j), k) = .ok (4096 * (4096 + j) + 4096, k') ∧
      Reserving nframes (j + 1) k' := by
  obtain ⟨low, high⟩ := imageEnd_bounds few
  have here : 4096 * (4096 + j) / 4096 = 4096 + j := Nat.mul_div_cancel_left _ (by decide)
  have tableOf : k.HasTable (4096 + j) ↔ heapTables (j + 1) = heapTables j := by
    unfold Kernel.HasTable
    rw [reserving.holds]
    unfold heapTables
    omega
  have fresh : bootMap (imageEnd nframes + 16) j (4096 + j) = none :=
    bootMap_none (by omega) (Nat.le_refl _)
  have aligned : newTable k = k.placementAddress + 4096 := by
    unfold newTable alignedAddress
    rw [reserving.placement, if_pos ⟨rfl, by omega⟩, Nat.mul_div_cancel_left _ (by decide)]
  obtain ⟨k', result, progress, moved⟩ := reserving.progress.mapNext fuel
    (show bootMap (imageEnd nframes + 16) j (4096 * (4096 + j) / 4096) = none by
      rw [here]; exact fresh) enough few
    (by
      intro _
      unfold TableFits
      rw [aligned, reserving.placement]
      unfold heapTables
      omega) (by omega)
  rw [here, bootMap_heap (by omega)] at progress
  rw [here] at moved
  refine ⟨k', result, progress, below, ?_, ?_, moved.framesAddr.trans reserving.framesAddr,
    moved.directoryAddr.trans reserving.directoryAddr⟩
  · intro i
    rw [moved.holds, reserving.holds]
    unfold heapTables
    omega
  · rw [moved.placement]
    by_cases has : k.HasTable (4096 + j)
    · rw [if_pos has, reserving.placement, tableOf.mp has]
    · rw [if_neg has, aligned, reserving.placement]
      rw [tableOf] at has
      unfold heapTables at has ⊢
      omega

theorem heapPages_correct (installing : Installing nframes (imageEnd nframes + 16) k)
    (enough : imageEnd nframes + 16 + 4095 ≤ 32 * (nframes / 32)) (few : nframes ≤ 1048576) :
    ∃ i k', heapPages fuel k = .ok (i, k') ∧ Reserving nframes 4095 k' := by
  have start : Reserving nframes 0 k := by
    refine ⟨installing.progress, by omega, ?_, installing.placement, installing.framesAddr,
      installing.directoryAddr⟩
    intro i
    rw [installing.holds]
    unfold heapTables
    omega
  obtain ⟨⟨i, k'⟩, result, ⟨j, at_, final⟩, stop⟩ := whileLoop_total Halt.outOfFuel
    (fun s : Nat × Kernel => .ok (decide (s.1 < kheapMax))) (mapNext fuel)
    (fun s => ∃ j, s.1 = 4096 * (4096 + j) ∧ Reserving nframes j s.2)
    (fun s => 8191 - s.1 / 4096) pageLoopFuel (kheapStart, k) ⟨0, rfl, start⟩
    (by simp only [pageLoopFuel, kheapStart]; omega) (fun s _ => ⟨_, rfl⟩)
    (by
      rintro ⟨i, k⟩ ⟨j, at_, reserving⟩ test
      simp only [Except.ok.injEq, decide_eq_true_eq] at at_ test
      simp only [kheapMax] at test
      subst at_
      have below : j < 4095 := by omega
      obtain ⟨k', next, later⟩ := reserving.next fuel below (by omega) few
      refine ⟨_, next, ⟨j + 1, by simp only; omega, later⟩, ?_⟩
      simp only
      omega)
  simp only [Except.ok.injEq, decide_eq_false_iff_not] at at_ stop
  simp only [kheapMax] at stop
  have bound := final.bound
  have done : j = 4095 := by omega
  exact ⟨i, k', result, done ▸ final⟩

/-! ## `paging_init` and `heap_install` -/

def framesOf (availableMem : Nat) : Nat := Word32.mul availableMem 1024 / pageSize

theorem framesOf_le (availableMem : Nat) : framesOf availableMem ≤ 1048576 := by
  have small : Word32.mul availableMem 1024 < 4294967296 := Nat.mod_lt _ (by decide)
  simp only [framesOf, pageSize]
  omega

-- one call for each page of the image, for the sixteen pages above it and for the heap area
def allocCalls (nframes : Nat) : Nat := imageEnd nframes + 16 + 4095

/-- The globals before `paging_init`; the scanned words read zero once it has cleared its part. -/
structure Start (availableMem : Nat) (k : Kernel) : Prop where
  noHeap : k.kheap = 0
  placement : k.placementAddress = 0x200000
  clear : ∀ index < framesOf availableMem / 32,
    memsetFrames (framesOf availableMem / 32) k.frames index = 0

-- the state in which the first loop starts
def cleared (availableMem : Nat) (k : Kernel) : Kernel :=
  { k with
    nframes := framesOf availableMem
    placementAddress := directoryAt (framesOf availableMem) + 8196
    framesAddr := 0x200000
    frames := memsetFrames (framesOf availableMem / 32) k.frames
    directoryAddr := directoryAt (framesOf availableMem)
    directory := { PageDirectory.zero with physicalAddr := directoryAt (framesOf availableMem) } }

theorem cleared_imaging {availableMem : Nat} {k : Kernel} (start : Start availableMem k) :
    Imaging (framesOf availableMem) 0 (cleared availableMem k) := by
  obtain ⟨onPage, low, high⟩ := directoryAt_bounds (framesOf_le availableMem)
  have nothing (i : Nat) : ¬ (cleared availableMem k).directory.Holds i := fun holds => holds.2 rfl
  have tables : Tables 0x200000 (cleared availableMem k) := by
    refine ⟨start.noHeap, ?_, fun _ _ => rfl, ?_, ?_, ?_, ?_⟩
    · simp only [cleared]
      omega
    · exact fun i holds => absurd holds (nothing i)
    · exact fun i holds => absurd holds (nothing i)
    · exact fun i holds => absurd holds (nothing i)
    · exact fun i _ holds => absurd holds (nothing i)
  refine ⟨⟨tables, rfl, ?_, ?_, fun page _ has => absurd has (nothing _)⟩, Nat.zero_le _, ?_, rfl,
    rfl, rfl⟩
  · intro frame within
    simp only [frameBit, cleared, start.clear (frame / 32) (by omega)]
    simp
  · intro page frame is
    rw [bootMap_none (Nat.zero_le _) (by
      by_contra above
      simp only [bootMap, Nat.not_lt_zero, if_false] at is
      split at is
      next impossible => omega
      next => cases is)] at is
    cases is
  · intro i
    simp only [nothing, ne_eq, not_true, and_false]

theorem kmalloc_bitmap {k : Kernel} {len : Nat} (noHeap : k.kheap = 0)
    (placement : k.placementAddress = 0x200000) (small : len ≤ 1048576) :
    kmalloc fuel len k = .ok (0x200000, none, { k with placementAddress := 0x200000 + len }) := by
  have unaligned : alignedAddress k.placementAddress 0 = 0x200000 := by
    rw [alignedAddress, if_neg (fun both => absurd both.1 (by decide)), placement]
  rw [kmalloc, kmallocInt_placement _ _ _ _ noHeap, kmallocPlacement_correct (by
    rw [unaligned]
    omega), unaligned]
  rfl

theorem kmallocAp_directory {k : Kernel} (few : nframes ≤ 1048576) (noHeap : k.kheap = 0)
    (placement : k.placementAddress = 0x200000 + nframes / 32) :
    kmallocAp (kmallocInt fuel) sizeofPageDirectory k = .ok (directoryAt nframes,
      some (directoryAt nframes), { k with placementAddress := directoryAt nframes + 8196 }) := by
  have bounds := directoryAt_bounds few
  have aligned : alignedAddress k.placementAddress 1 = directoryAt nframes := by
    rw [alignedAddress, placement, if_pos ⟨rfl, by omega⟩]
    rfl
  rw [kmallocAp, kmallocInt_placement _ _ _ _ noHeap, kmallocPlacement_correct (by
    rw [aligned, sizeofPageDirectory]
    omega), aligned]
  rfl

theorem pagingInit_eq {availableMem : Nat} {k : Kernel} (noHeap : k.kheap = 0)
    (placement : k.placementAddress = 0x200000) :
    pagingInit fuel availableMem k =
      (identityPages fuel (cleared availableMem k)).map Prod.snd := by
  have few := framesOf_le availableMem
  have small : indexFromBit (framesOf availableMem) ≤ 1048576 := by
    unfold indexFromBit
    omega
  have bitmap := kmalloc_bitmap fuel (k := { k with nframes := framesOf availableMem })
    noHeap placement small
  have directory := kmallocAp_directory fuel few (k := { k with
      nframes := framesOf availableMem
      placementAddress := 0x200000 + indexFromBit (framesOf availableMem)
      framesAddr := 0x200000
      frames := memsetFrames (indexFromBit (framesOf availableMem)) k.frames })
    noHeap rfl
  simp only [framesOf] at bitmap directory
  simp only [pagingInit, bind, Except.bind, pure, Except.pure, bitmap, directory]
  rfl

theorem pagingInit_correct {availableMem : Nat} {k : Kernel} (start : Start availableMem k)
    (enough : imageEnd (framesOf availableMem) ≤ 32 * (framesOf availableMem / 32)) :
    ∃ k', pagingInit fuel availableMem k = .ok k' ∧
      Imaging (framesOf availableMem) (imageEnd (framesOf availableMem)) k' := by
  obtain ⟨i, k', result, imaging⟩ :=
    identityPages_correct fuel (cleared_imaging start) enough (framesOf_le availableMem)
  refine ⟨k', ?_, imaging⟩
  rw [pagingInit_eq fuel start.noHeap start.placement, result]
  rfl

theorem heapInstall_correct {k : Kernel} (imaging : Imaging nframes (imageEnd nframes) k)
    (enough : allocCalls nframes ≤ 32 * (nframes / 32)) (few : nframes ≤ 1048576) :
    ∃ k3 m, Reserving nframes 4095 k3 ∧ createdHeap.index.entries m = [firstHole.addr] ∧
      firstHole.HeaderAt m ∧ heapInstall fuel k = .ok { k3 with
        placementAddress := 4096 * (imageEnd nframes + 9) + 32
        kheap := 4096 * (imageEnd nframes + 9)
        mem := m
        heap := createdHeap } := by
  obtain ⟨low, high⟩ := imageEnd_bounds few
  unfold allocCalls at enough
  obtain ⟨i2, k2, installed, installing⟩ := installPages_correct fuel imaging (by omega) few
  obtain ⟨i3, k3, reserved, reserving⟩ := heapPages_correct fuel installing (by omega) few
  have placement := reserving.placement
  rw [show heapTables 4095 = 4 by decide] at placement
  have aligned : alignedAddress k3.placementAddress 1 = 4096 * (imageEnd nframes + 9) := by
    rw [alignedAddress, placement, if_pos ⟨rfl, by omega⟩, Nat.mul_div_cancel_left _ (by decide)]
    omega
  obtain ⟨m, created, entries, header⟩ := installCreate_correct fuel k3
    reserving.progress.tables.noHeap (by rw [aligned]; omega)
  rw [aligned] at created
  refine ⟨k3, m, reserving, entries, header, ?_⟩
  simp only [heapInstall, bind, Except.bind, pure, Except.pure, installed, reserved]
  rw [show createHeap (kmallocInt fuel) kheapStart (kheapStart + kheapInitialSize) kheapMax 0 0
    k3 = _ from created]

def HeapPage (page : Nat) : Prop := kheapStart ≤ 4096 * page ∧ 4096 * page < kheapMax

theorem heapPage_iff (page : Nat) : HeapPage page ↔ 4096 ≤ page ∧ page < 4096 + 4095 := by
  simp only [HeapPage, kheapStart, kheapMax]
  omega

/--
`heap_install` after `paging_init`: every page that the placement allocator has reached is mapped
to the frame of its own number, and the heap area to frames of its own. As many frames are taken
as there are calls of `alloc_frame`, and their bitmap words lie below the page directory.
-/
theorem boot_identity_map (fuel availableMem : Nat) (k : Kernel) (start : Start availableMem k)
    (enough : allocCalls (framesOf availableMem) ≤ 32 * (framesOf availableMem / 32)) :
    ∃ k1 k2, pagingInit fuel availableMem k = .ok k1 ∧ heapInstall fuel k1 = .ok k2 ∧
      (∀ page, 4096 * page < k2.placementAddress → Present k2 page ∧ frameNumber k2 page = page) ∧
      (∀ page, HeapPage page → Present k2 page) ∧
      (∀ p q, HeapPage p → HeapPage q → frameNumber k2 p = frameNumber k2 q → p = q) ∧
      (∀ p q, HeapPage p → Present k2 q → ¬ HeapPage q →
        frameNumber k2 q = q ∧ frameNumber k2 p ≠ q) ∧
      (∀ frame < 32 * (framesOf availableMem / 32),
        frameBit k2.frames frame = decide (frame < allocCalls (framesOf availableMem))) ∧
      k2.framesAddr + 4 * (allocCalls (framesOf availableMem) / 32 + 1) ≤ k2.directoryAddr := by
  have few := framesOf_le availableMem
  obtain ⟨low, high⟩ := imageEnd_bounds few
  obtain ⟨k1, booted, imaging⟩ := pagingInit_correct fuel start (by
    unfold allocCalls at enough
    omega)
  obtain ⟨k3, m, reserving, -, -, installed⟩ := heapInstall_correct fuel imaging enough few
  have entries := reserving.progress.entries
  have heap (page : Nat) (inHeap : HeapPage page) :
      Present k3 page ∧
        frameNumber k3 page = imageEnd (framesOf availableMem) + 16 + (page - 4096) := by
    apply entries
    rw [heapPage_iff] at inHeap
    rw [bootMap, if_neg (by omega), if_pos inHeap]
  refine ⟨k1, _, booted, installed, ?_, fun page inHeap => (heap page inHeap).1, ?_, ?_,
    reserving.progress.bitmap, ?_⟩
  · intro page below
    simp only at below
    apply entries
    rw [bootMap, if_pos (by omega)]
  · intro p q inP inQ same
    have numberP : frameNumber k3 p = _ := (heap p inP).2
    have numberQ : frameNumber k3 q = _ := (heap q inQ).2
    rw [heapPage_iff] at inP inQ
    have equal : frameNumber k3 p = frameNumber k3 q := same
    omega
  · intro p q inP present outside
    have numberP : frameNumber k3 p = _ := (heap p inP).2
    rw [heapPage_iff] at outside
    by_cases below : q < imageEnd (framesOf availableMem) + 16
    · have numberQ : frameNumber k3 q = q := (entries q q (if_pos below)).2
      refine ⟨numberQ, ?_⟩
      change frameNumber k3 p ≠ q
      omega
    · have blank : k3.pages (k3.entryOf q) = Page.zero :=
        reserving.progress.blank q (by rw [bootMap, if_neg below, if_neg outside]) present.1
      have set : (k3.pages (k3.entryOf q)).present = true := present.2
      rw [blank] at set
      cases set
  · obtain ⟨-, above, -⟩ := directoryAt_bounds few
    change k3.framesAddr + _ ≤ k3.directoryAddr
    rw [reserving.framesAddr, reserving.directoryAddr]
    unfold allocCalls
    omega

theorem boot_identity_map_32MB : ∃ k1 k2, pagingInit 0 32768 Kernel.boot = .ok k1 ∧
    heapInstall 0 k1 = .ok k2 ∧
    ∀ page, 4096 * page < k2.placementAddress → Present k2 page ∧ frameNumber k2 page = page := by
  have start : Start 32768 Kernel.boot := by
    refine ⟨rfl, rfl, ?_⟩
    intro index _
    simp [memsetFrames, Kernel.boot]
  obtain ⟨k1, k2, booted, installed, identity, -⟩ :=
    boot_identity_map 0 32768 Kernel.boot start (by decide)
  exact ⟨k1, k2, booted, installed, identity⟩

end GekonOS.IdentityMap
