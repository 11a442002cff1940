import GekonOS.Frames.Storage
import GekonOS.Kernel.Vbe
import GekonOS.Shared.Mmu

set_option autoImplicit false

namespace GekonOS.Paged

open ByteMemory Loop Placement IdentityMap Mmu Transition

/-!
# The address space behind `paging_init` and `heap_install`

The tables as the processor reads them, once `cr3` holds `physicalAddr`.
-/

/-! ## The tables in physical memory -/

-- the bit fields of `page_t`
def word (page : Page) : Nat :=
  page.present.toNat + 2 * page.rw.toNat + 4 * page.user.toNat + 8 * page.accessed.toNat +
    16 * page.dirty.toNat + 32 * page.unused.toNat + 4096 * page.frameAddr.toNat

/-- A physical memory with the directory and the tables where the code has put them. -/
structure Represents (k : Kernel) (m : Mem) : Prop where
  directory : ∀ i < 1024, read32 m (k.directoryAddr + 4 * i) = k.directory.tablesPhysical i
  tables : ∀ i < 1024, k.directory.Holds i → ∀ j < 1024,
    read32 m (k.directory.tables i + 4 * j) = word (k.pages (k.directory.tables i + 4 * j))

-- the bytes of the entries
def TableByte (k : Kernel) (x : Nat) : Prop :=
  x ∈ Set.Ico k.directoryAddr (k.directoryAddr + 4096) ∨
    ∃ i, k.directory.Holds i ∧ x ∈ Storage.tableBytes k i

-- where an address lies once everything below `limit` is mapped to itself
def bootPlace (limit : Nat) (address : UInt32) : Option Nat :=
  if address.toNat < limit then some address.toNat
  else if kheapStart ≤ address.toNat ∧ address.toNat < kheapMax then
    some (limit + (address.toNat - kheapStart))
  else none

def pixelAddress (pixel : Pixel) : UInt32 := UInt32.ofNat (vbeBuffer + 4 * pixel.pos)

theorem word_lt (page : Page) : word page < 4294967296 := by
  have := page.present.toNat_le
  have := page.rw.toNat_le
  have := page.user.toNat_le
  have := page.accessed.toNat_le
  have := page.dirty.toNat_le
  have := page.unused.isLt
  have := page.frameAddr.isLt
  unfold word
  omega

theorem word_parts (page : Page) :
    word page % 2 = page.present.toNat ∧ word page / 4096 = page.frameAddr.toNat := by
  have := page.present.toNat_le
  have := page.rw.toNat_le
  have := page.user.toNat_le
  have := page.accessed.toNat_le
  have := page.dirty.toNat_le
  have := page.unused.isLt
  unfold word
  omega

/-! ## Above the directory -/

/-- Nothing of the tables lies below `base`, and the directory is where the processor looks. -/
structure Anchored (base : Nat) (k : Kernel) : Prop where
  physical : k.directory.physicalAddr = k.directoryAddr
  above : ∀ i, k.directory.Holds i → base ≤ k.directory.tables i
  placement : base ≤ k.placementAddress

variable {fuel nframes base address i page : Nat} {k k' : Kernel}

theorem Anchored.mapNext (anchored : Anchored base k) (tables : Tables 0x200000 k)
    (low : k.placementAddress < 0x80000000)
    (mapped : mapNext fuel (address, k) = .ok (i, k')) : Anchored base k' := by
  have fits : TableFits k := by
    unfold TableFits newTable alignedAddress
    split <;> omega
  obtain ⟨k1, got, -, -, outcome⟩ := getPage_correct fuel address tables (by decide) fun _ => fits
  have anchored1 : Anchored base k1 := by
    rcases outcome with ⟨-, rfl⟩ | ⟨-, rfl⟩
    · exact anchored
    · have higher : k.placementAddress ≤ newTable k := alignedAddress_le _ _
      have lower := anchored.placement
      refine ⟨anchored.physical, ?_, ?_⟩
      · intro i holds
        by_cases same : i = address / 4096 / 1024
        · subst same
          have new : (k.withTable (address / 4096)).directory.tables (address / 4096 / 1024) =
            newTable k := Function.update_self ..
          rw [new]
          omega
        · have old : (k.withTable (address / 4096)).directory.tables i = k.directory.tables i :=
            Function.update_of_ne same ..
          have before := (tables.holds_withTable (by decide) _ i).mp holds
          rw [old]
          exact anchored.above i (before.resolve_left same)
      · change base ≤ newTable k + 4096
        omega
  obtain ⟨frames, entry, result⟩ := allocFrame_entry (k1.entryOf (address / 4096)) 0 0 k1
  simp only [IdentityMap.mapNext, got, bind, Except.bind, pure, Except.pure, result] at mapped
  obtain rfl := (Prod.mk.inj (Except.ok.inj mapped)).2
  exact ⟨anchored1.physical, anchored1.above, anchored1.placement⟩

theorem Anchored.loop {cond : Nat × Kernel → Except Halt Bool} {I : Nat × Kernel → Prop}
    {s final : Nat × Kernel} (anchored : Anchored base s.2) (start : I s)
    (result : whileLoop .outOfFuel cond (IdentityMap.mapNext fuel) pageLoopFuel s = .ok final)
    (kept : ∀ s s', I s → cond s = .ok true → IdentityMap.mapNext fuel s = .ok s' → I s')
    (known : ∀ s, I s → Tables 0x200000 s.2 ∧ s.2.placementAddress < 0x80000000) :
    Anchored base final.2 := by
  refine (whileLoop_preserves Halt.outOfFuel cond _ (fun s => I s ∧ Anchored base s.2) _ s final
    ⟨start, anchored⟩ result ?_).1.2
  rintro ⟨i, k⟩ ⟨i', k'⟩ ⟨here, anchored⟩ test round
  obtain ⟨tables, low⟩ := known _ here
  exact ⟨kept _ _ here test round, anchored.mapNext tables low round⟩

-- where the bytes of the directory end
def directoryEnd (nframes : Nat) : Nat := directoryAt nframes + 8196

theorem identityPages_anchored (imaging : Imaging nframes 0 k)
    (anchored : Anchored (directoryEnd nframes) k)
    (enough : imageEnd nframes ≤ 32 * (nframes / 32)) (few : nframes ≤ 1048576)
    (result : identityPages fuel k = .ok (i, k')) : Anchored (directoryEnd nframes) k' := by
  obtain ⟨low, high⟩ := imageEnd_bounds few
  obtain ⟨onPage, lower, upper⟩ := directoryAt_bounds few
  refine anchored.loop (I := fun s => ∃ n, s.1 = 4096 * n ∧ Imaging nframes n s.2)
    ⟨0, rfl, imaging⟩ result ?_ ?_
  · rintro ⟨i, k⟩ ⟨i', k'⟩ ⟨n, at_, imaging⟩ test round
    simp only [Except.ok.injEq, decide_eq_true_eq] at at_ test
    subst at_
    have placement : k.placementAddress = _ := imaging.placement
    have below : n < imageEnd nframes := by
      split at placement <;> omega
    obtain ⟨k1, next, later⟩ := imaging.next fuel below (by omega) few
    obtain ⟨rfl, rfl⟩ := Prod.mk.inj (Except.ok.inj (round.symm.trans next))
    exact ⟨n + 1, by simp only; omega, later⟩
  · rintro ⟨i, k⟩ ⟨n, -, imaging⟩
    have placement : k.placementAddress = _ := imaging.placement
    refine ⟨imaging.progress.tables, ?_⟩
    simp only
    split at placement <;> omega

theorem installPages_anchored (installing : Installing nframes (imageEnd nframes) k)
    (anchored : Anchored base k) (enough : imageEnd nframes + 16 ≤ 32 * (nframes / 32))
    (few : nframes ≤ 1048576) (result : installPages fuel k = .ok (i, k')) :
    Anchored base k' := by
  obtain ⟨low, high⟩ := imageEnd_bounds few
  refine anchored.loop (I := fun s => ∃ n, s.1 = 4096 * n ∧ Installing nframes n s.2)
    ⟨_, installing.placement, installing⟩ result ?_ ?_
  · rintro ⟨i, k⟩ ⟨i', k'⟩ ⟨n, at_, installing⟩ test round
    simp only [Except.ok.injEq, decide_eq_true_eq] at at_ test
    subst at_
    rw [installing.placement, Word32.add_of_lt (by omega)] at test
    obtain ⟨k1, next, later⟩ := installing.next fuel (by omega) (by omega) few
    obtain ⟨rfl, rfl⟩ := Prod.mk.inj (Except.ok.inj (round.symm.trans next))
    exact ⟨n + 1, by simp only; omega, later⟩
  · rintro ⟨i, k⟩ ⟨n, -, installing⟩
    have placement : k.placementAddress = _ := installing.placement
    exact ⟨installing.progress.tables, by simp only; omega⟩

theorem heapPages_anchored (reserving : Reserving nframes 0 k) (anchored : Anchored base k)
    (enough : imageEnd nframes + 16 + 4095 ≤ 32 * (nframes / 32)) (few : nframes ≤ 1048576)
    (result : heapPages fuel k = .ok (i, k')) : Anchored base k' := by
  obtain ⟨low, high⟩ := imageEnd_bounds few
  refine anchored.loop (I := fun s => ∃ j, s.1 = 4096 * (4096 + j) ∧ Reserving nframes j s.2)
    ⟨0, rfl, reserving⟩ result ?_ ?_
  · rintro ⟨i, k⟩ ⟨i', k'⟩ ⟨j, at_, reserving⟩ test round
    simp only [Except.ok.injEq, decide_eq_true_eq] at at_ test
    simp only [kheapMax] at test
    subst at_
    have below : j < 4095 := by omega
    obtain ⟨k1, next, later⟩ := reserving.next fuel below (by omega) few
    obtain ⟨rfl, rfl⟩ := Prod.mk.inj (Except.ok.inj (round.symm.trans next))
    exact ⟨j + 1, by simp only; omega, later⟩
  · rintro ⟨i, k⟩ ⟨j, -, reserving⟩
    have placement : k.placementAddress = _ := reserving.placement
    have bound := reserving.bound
    unfold heapTables at placement
    exact ⟨reserving.progress.tables, by simp only; omega⟩

/-! ## Booted -/

-- the frames that are mapped to themselves
def limitPage (nframes : Nat) : Nat := imageEnd nframes + 16

/-- The tables behind `heap_install`. -/
structure Booted (nframes : Nat) (k : Kernel) : Prop where
  progress : Progress nframes (limitPage nframes + 4095) (bootMap (limitPage nframes) 4095) k
  holds : ∀ i, k.directory.Holds i ↔ i = 0 ∨ (4 ≤ i ∧ i < 8)
  anchored : Anchored (directoryEnd nframes) k
  directoryAddr : k.directoryAddr = directoryAt nframes
  placement : k.placementAddress < 0x80000000

theorem boot_booted (fuel availableMem : Nat) {k : Kernel} (start : Start availableMem k)
    (enough : allocCalls (framesOf availableMem) ≤ 32 * (framesOf availableMem / 32)) :
    ∃ k1 k2 k3, pagingInit fuel availableMem k = .ok k1 ∧ heapInstall fuel k1 = .ok k2 ∧
      k1.placementAddress = 4096 * imageEnd (framesOf availableMem) ∧
      Booted (framesOf availableMem) k3 ∧ k2.directory = k3.directory ∧ k2.pages = k3.pages ∧
      k2.directoryAddr = k3.directoryAddr := by
  have few := framesOf_le availableMem
  obtain ⟨low, high⟩ := imageEnd_bounds few
  unfold allocCalls at enough
  -- the first loop
  have cleared := cleared_imaging start
  obtain ⟨i1, k1, imaged, imaging⟩ := identityPages_correct fuel cleared (by omega) few
  have anchored : Anchored (directoryEnd (framesOf availableMem))
      (IdentityMap.cleared availableMem k) :=
    ⟨rfl, fun i holds => absurd rfl holds.2, Nat.le_refl _⟩
  have anchored1 := identityPages_anchored cleared anchored (by omega) few imaged
  have placement1 := imaging.placement
  rw [if_neg (by omega)] at placement1
  have booted : pagingInit fuel availableMem k = .ok k1 := by
    rw [pagingInit_eq fuel start.noHeap start.placement, imaged]
    rfl
  -- the second
  obtain ⟨i2, k2, installed, installing⟩ := installPages_correct fuel imaging (by omega) few
  have installingStart :
      Installing (framesOf availableMem) (imageEnd (framesOf availableMem)) k1 := by
    refine ⟨imaging.progress, Nat.le_refl _, by omega, ?_, placement1, imaging.framesAddr,
      imaging.directoryAddr⟩
    intro i
    rw [imaging.holds]
    omega
  have anchored2 := installPages_anchored installingStart anchored1 (by omega) few installed
  -- the third
  obtain ⟨i3, k3, reserved, reserving⟩ := heapPages_correct fuel installing (by omega) few
  have reservingStart : Reserving (framesOf availableMem) 0 k2 := by
    refine ⟨installing.progress, by omega, ?_, installing.placement, installing.framesAddr,
      installing.directoryAddr⟩
    intro i
    rw [installing.holds]
    unfold heapTables
    omega
  have anchored3 := heapPages_anchored reservingStart anchored2 (by omega) few reserved
  have placement := reserving.placement
  rw [show heapTables 4095 = 4 by decide] at placement
  obtain ⟨m, created, -, -⟩ := installCreate_correct fuel k3 reserving.progress.tables.noHeap (by
    unfold alignedAddress
    split <;> omega)
  rw [installCreate] at created
  have result : heapInstall fuel k1 = .ok { k3 with
      placementAddress := alignedAddress k3.placementAddress 1 + 32
      kheap := alignedAddress k3.placementAddress 1
      mem := m
      heap := createdHeap } := by
    unfold heapInstall
    simp only [installed, ok_bind, reserved, created]
    rfl
  refine ⟨k1, _, k3, booted, result, placement1, ⟨reserving.progress, ?_, anchored3,
    reserving.directoryAddr, by omega⟩, rfl, rfl, rfl⟩
  intro i
  rw [reserving.holds]
  unfold heapTables
  omega

/-! ## What the processor reads -/

variable {m : Mem}

theorem Booted.aligned (booted : Booted nframes k) (few : nframes ≤ 1048576) :
    4096 * (k.directory.physicalAddr / 4096) = k.directoryAddr := by
  have onPage := (directoryAt_bounds few).1
  rw [booted.anchored.physical, booted.directoryAddr]
  omega

theorem Represents.directoryEntry (represents : Represents k m) (booted : Booted nframes k)
    (few : nframes ≤ 1048576) (small : page < 1048576) :
    read32 m (Mmu.directoryEntry k.directory.physicalAddr page) =
      k.directory.tablesPhysical (page / 1024) := by
  rw [Mmu.directoryEntry, booted.aligned few]
  exact represents.directory _ (by omega)

theorem Booted.table (booted : Booted nframes k) {i : Nat} (holds : k.directory.Holds i) :
    k.directory.tablesPhysical i % 2 = 1 ∧
      4096 * (k.directory.tablesPhysical i / 4096) = k.directory.tables i := by
  have aligned := booted.progress.tables.aligned i holds
  rw [booted.progress.tables.physical i holds]
  omega

theorem Represents.tableEntry (represents : Represents k m) (booted : Booted nframes k)
    (small : page < 1048576) (has : k.HasTable page) :
    read32 m (Mmu.tableEntry (k.directory.tablesPhysical (page / 1024)) page) =
      word (k.pages (k.entryOf page)) := by
  rw [Mmu.tableEntry, (booted.table has).2]
  exact represents.tables _ (by omega) has _ (Nat.mod_lt _ (by decide))

theorem Represents.walk (represents : Represents k m) (booted : Booted nframes k)
    (few : nframes ≤ 1048576) (small : page < 1048576) :
    Mmu.walk m k.directory.physicalAddr page = bootMap (limitPage nframes) 4095 page := by
  simp only [Mmu.walk, represents.directoryEntry booted few small]
  by_cases has : k.HasTable page
  · rw [if_neg (by rw [(booted.table has).1]; decide), represents.tableEntry booted small has,
      (word_parts _).1, (word_parts _).2]
    cases mapped : bootMap (limitPage nframes) 4095 page with
    | none =>
      rw [booted.progress.blank page mapped has]
      rfl
    | some frame =>
      obtain ⟨⟨-, present⟩, number⟩ := booted.progress.entries page frame mapped
      rw [present]
      exact congrArg some number
  · rw [booted.progress.tables.absent _ has, if_pos rfl]
    cases mapped : bootMap (limitPage nframes) 4095 page with
    | none => rfl
    | some frame => exact absurd (booted.progress.entries page frame mapped).1.1 has

theorem limitPage_bounds (few : nframes ≤ 1048576) :
    533 ≤ limitPage nframes ∧ limitPage nframes ≤ 541 := by
  obtain ⟨low, high⟩ := imageEnd_bounds few
  unfold limitPage
  omega

theorem bootMap_injective {limit j p q frame : Nat} (low : limit ≤ 4096)
    (mapP : bootMap limit j p = some frame) (mapQ : bootMap limit j q = some frame) : p = q := by
  unfold bootMap at mapP mapQ
  split_ifs at mapP mapQ <;>
  · rw [Option.some.injEq] at mapP mapQ
    omega

theorem Represents.place (represents : Represents k m) (booted : Booted nframes k)
    (few : nframes ≤ 1048576) (address : UInt32) :
    Mmu.place m k.directory.physicalAddr address =
      bootPlace (4096 * limitPage nframes) address := by
  obtain ⟨low, high⟩ := limitPage_bounds few
  rw [Mmu.place, represents.walk booted few (pageOf_lt address)]
  unfold bootMap bootPlace Mmu.pageOf kheapStart kheapMax
  by_cases below : address.toNat < 4096 * limitPage nframes
  · rw [if_pos below, if_pos (by omega)]
    unfold Mmu.within
    simp only [Option.map_some, Option.some.injEq]
    omega
  · rw [if_neg below, if_neg (by omega)]
    by_cases heap : 16777216 ≤ address.toNat ∧ address.toNat < 16777216 + 16773120
    · rw [if_pos (by omega), if_pos (by omega)]
      unfold Mmu.within
      simp only [Option.map_some, Option.some.injEq]
      omega
    · rw [if_neg (by omega), if_neg (by omega)]
      rfl

theorem Represents.entryByte (represents : Represents k m) (booted : Booted nframes k)
    (few : nframes ≤ 1048576) (x : Nat) :
    EntryByte m k.directory.physicalAddr x ↔ TableByte k x := by
  have onPage := (directoryAt_bounds few).1
  have at_ := booted.directoryAddr
  constructor
  · rintro ⟨e, ⟨page, small, rfl | ⟨odd, rfl⟩⟩, lower, upper⟩
    · rw [Mmu.directoryEntry, booted.aligned few] at lower upper
      exact Or.inl ⟨by omega, by omega⟩
    · rw [represents.directoryEntry booted few small] at odd lower upper
      have has : k.directory.Holds (page / 1024) := by
        by_contra absent
        rw [booted.progress.tables.absent _ absent] at odd
        omega
      rw [Mmu.tableEntry, (booted.table has).2] at lower upper
      refine Or.inr ⟨page / 1024, has, ?_, ?_⟩
      · omega
      · simp only [sizeofPageTable]
        omega
  · rintro (⟨lower, upper⟩ | ⟨i, has, lower, upper⟩)
    · refine ⟨_, ⟨1024 * ((x - k.directoryAddr) / 4), by omega, Or.inl rfl⟩, ?_⟩
      rw [Mmu.directoryEntry, booted.aligned few]
      omega
    · have within : i < 8 := by
        have := (booted.holds i).mp has
        omega
      simp only [sizeofPageTable] at upper
      refine ⟨_, ⟨1024 * i + (x - k.directory.tables i) / 4, by omega, Or.inr ⟨?_, rfl⟩⟩, ?_⟩
      all_goals
        rw [represents.directoryEntry booted few (by omega),
          show (1024 * i + (x - k.directory.tables i) / 4) / 1024 = i by omega]
      · exact (booted.table has).1
      · rw [Mmu.tableEntry, (booted.table has).2]
        omega

/-! ## A memory with these tables -/

def entryAt (k : Kernel) (e : Nat) : Nat :=
  if k.directoryAddr ≤ e ∧ e < k.directoryAddr + 4096 then
    k.directory.tablesPhysical ((e - k.directoryAddr) / 4)
  else word (k.pages e)

def image (k : Kernel) : Mem := fun x => UInt8.ofNat (entryAt k (4 * (x / 4)) / 256 ^ (x % 4))

theorem read32_image {e : Nat} (onWord : e % 4 = 0) (small : entryAt k e < 4294967296) :
    read32 (image k) e = entryAt k e := by
  have byte (i : Nat) (inside : i < 4) : image k (e + i) = UInt8.ofNat (entryAt k e / 256 ^ i) := by
    rw [image, show 4 * ((e + i) / 4) = e by omega, show (e + i) % 4 = i by omega]
  have first := byte 0 (by decide)
  rw [Nat.add_zero] at first
  simp only [read32, first, byte 1 (by decide), byte 2 (by decide), byte 3 (by decide),
    UInt8.toNat_ofNat']
  omega

theorem Booted.image_represents (booted : Booted nframes k) (few : nframes ≤ 1048576) :
    Represents k (image k) := by
  have onPage := (directoryAt_bounds few).1
  have at_ := booted.directoryAddr
  constructor
  case directory =>
    intro i within
    have entry : entryAt k (k.directoryAddr + 4 * i) = k.directory.tablesPhysical i := by
      rw [entryAt, if_pos (by omega), show (k.directoryAddr + 4 * i - k.directoryAddr) / 4 = i by
        omega]
    rw [read32_image (by omega), entry]
    rw [entry]
    by_cases holds : k.directory.Holds i
    · have inside := (booted.progress.tables.inside i holds).2
      have := booted.placement
      rw [booted.progress.tables.physical i holds]
      omega
    · rw [booted.progress.tables.absent i holds]
      decide
  case tables =>
    intro i _ holds j within
    have above := booted.anchored.above i holds
    have aligned := booted.progress.tables.aligned i holds
    unfold directoryEnd at above
    have entry : entryAt k (k.directory.tables i + 4 * j) =
        word (k.pages (k.directory.tables i + 4 * j)) := by
      rw [entryAt, if_neg (by omega)]
    rw [read32_image (by omega) (entry ▸ word_lt _), entry]

/-! ## The address space -/

theorem framebuffer_unmapped {limit : Nat} (low : limit ≤ 0x1000000) {pixel : Pixel}
    (column : pixel.x < screenWidth) (row : pixel.y < screenHeight) :
    bootPlace limit (pixelAddress pixel) = none := by
  simp only [screenWidth, screenHeight] at column row
  have inside : pixel.y * 800 + pixel.x < 480000 := by omega
  have pos : pixel.pos = pixel.y * 800 + pixel.x := by
    simp only [Pixel.pos, screenWidth, Word32.mul, Word32.add]
    omega
  have address : (pixelAddress pixel).toNat = vbeBuffer + 4 * pixel.pos := by
    rw [pixelAddress, UInt32.toNat_ofNat']
    unfold vbeBuffer
    omega
  unfold bootPlace kheapStart kheapMax
  rw [address, vbeBuffer, if_neg (by omega), if_neg (by omega)]

end GekonOS.Paged
