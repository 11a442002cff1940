import GekonOS.Heap.Calls
import GekonOS.Shared.BlockStore

set_option autoImplicit false

namespace GekonOS

open ByteMemory Transition BlockStore

/-- The heap, and the size that was asked for each block. -/
structure Client where
  heap : HeapState
  size : Nat → Nat

namespace Client

def mem (s : Client) : Mem := s.heap.kernel.mem

-- `*a = b`
def poke (s : Client) (a : Nat) (b : UInt8) : Client :=
  { s with heap.kernel.mem := Function.update s.mem a b }

def contents (s : Client) (p : Nat) : List UInt8 :=
  (List.range (s.size p)).map fun i => s.mem (p + i)

-- what the heap is to those who use it
def blocks (s : Client) : Store Nat UInt8 :=
  fun p => if p ∈ s.heap.live then some (s.contents p) else none

/-- Programs call `alloc` and `free`, and use what they have asked for. -/
inductive Step (kmallocInt : Kmalloc) (s : Client) : Event Nat UInt8 → Client → Prop
  | alloc {size : UInt32} {pageAlign : UInt8} {p : Nat} {heap : HeapState} :
      s.heap.Calm (.alloc size pageAlign) → s.heap.Step kmallocInt (.alloc size pageAlign) heap →
      heap.live = p :: s.heap.live →
      Step kmallocInt s (.alloc p size.toNat)
        { heap := heap, size := Function.update s.size p size.toNat }
  | free {p : Nat} {heap : HeapState} :
      s.heap.Calm (.free p) → s.heap.Step kmallocInt (.free p) heap →
      Step kmallocInt s (.free p) { s with heap := heap }
  | store {p i : Nat} {b : UInt8} : p ∈ s.heap.live → i < s.size p →
      Step kmallocInt s (.store p i b) (s.poke (p + i) b)
  | load {p i : Nat} : p ∈ s.heap.live → i < s.size p →
      Step kmallocInt s (.load p i (s.mem (p + i))) s

/-- The heap is as `alloc` and `free` have left it, and each block has room for what was asked for. -/
structure Fits (s : Client) (cs : List Chunk) : Prop where
  holds : s.heap.Holds cs
  room : ∀ c ∈ cs, c.hole = false → s.size (c.addr + sizeofHeader) + 20 ≤ c.size

variable {kmallocInt : Kmalloc} {s s' : Client} {cs : List Chunk} {c : Chunk} {p i : Nat}
  {b : UInt8} {event : Event Nat UInt8}

-- the part of a block that programs use
def payload (s : Client) (p : Nat) : Set Nat := Set.Ico p (p + s.size p)

@[simp] theorem poke_mem (s : Client) (a : Nat) (b : UInt8) :
    (s.poke a b).mem = Function.update s.mem a b := rfl

@[simp] theorem contents_length (s : Client) (p : Nat) : (s.contents p).length = s.size p := by
  simp [contents]

theorem contents_getElem? (s : Client) (p : Nat) (within : i < s.size p) :
    (s.contents p)[i]? = some (s.mem (p + i)) := by
  simp [contents, within]

theorem contents_congr (size : s'.size p = s.size p)
    (same : Set.EqOn s'.mem s.mem (s.payload p)) : s'.contents p = s.contents p := by
  unfold contents
  rw [size]
  apply List.map_congr_left
  intro i member
  have within := List.mem_range.mp member
  exact same ⟨Nat.le_add_right p i, Nat.add_lt_add_left within p⟩

theorem blocks_live (s : Client) (live : p ∈ s.heap.live) : s.blocks p = some (s.contents p) :=
  if_pos live

theorem blocks_not_live (s : Client) (free : p ∉ s.heap.live) : s.blocks p = none := if_neg free

namespace Fits

theorem owner (fits : s.Fits cs) (live : p ∈ s.heap.live) :
    ∃ c ∈ cs, c.hole = false ∧ c.addr + 12 = p ∧ c.addr + 12 + s.size p + 8 ≤ c.addr + c.size := by
  obtain ⟨c, member, used, rfl⟩ := fits.holds.owner live
  have room := fits.room c member used
  exact ⟨c, member, used, rfl, by omega⟩

theorem payload_subset (fits : s.Fits cs) (member : c ∈ cs) (used : c.hole = false) :
    s.payload (c.addr + 12) ⊆ Set.Ico (c.addr + 12) (c.addr + c.size - 8) := by
  have room := fits.room c member used
  unfold sizeofHeader at room
  exact Set.Ico_subset_Ico_right (by omega)

theorem apart (fits : s.Fits cs) {q : Nat} (left : p ∈ s.heap.live) (right : q ∈ s.heap.live)
    (distinct : p ≠ q) : Disjoint (s.payload p) (s.payload q) := by
  obtain ⟨c, inC, -, rfl, roomC⟩ := fits.owner left
  obtain ⟨d, inD, -, rfl, roomD⟩ := fits.owner right
  have away := fits.holds.sound.wf.layout.tiles.apart inC inD fun same => distinct (by rw [same])
  rw [Set.disjoint_left]
  intro x inLeft inRight
  simp only [payload, Set.mem_Ico] at inLeft inRight
  omega

end Fits

/-! ## What programs write -/

-- between the header and the footer of a block there is nothing that the heap relies on
theorem Layout.poke {tagged : Chunk → Prop} {m : Mem} {lo hi x : Nat}
    (layout : Layout tagged m lo hi cs) (member : c ∈ cs) (lower : c.addr + 12 ≤ x)
    (upper : x + 8 < c.addr + c.size) (b : UInt8) :
    Layout tagged (Function.update m x b) lo hi cs := by
  have frame {s : Set Nat} (off : x ∉ s) : Set.EqOn (Function.update m x b) m s := by
    intro y inside
    refine Function.update_of_ne ?_ ..
    rintro rfl
    exact off inside
  have other {d : Chunk} (inList : d ∈ cs) (distinct : d ≠ c) :
      Set.EqOn (Function.update m x b) m d.bytes := by
    have away := layout.tiles.apart inList member distinct
    refine frame fun inside => ?_
    simp only [Chunk.bytes, Set.mem_Ico] at inside
    omega
  have below : Set.EqOn (Function.update m x b) m (Set.Ico c.addr (c.addr + 12)) :=
    frame fun inside => Nat.not_lt_of_le lower inside.2
  have above : Set.EqOn (Function.update m x b) m
      (Set.Ico (c.addr + c.size - 8) (c.addr + c.size - 8 + 8)) := by
    refine frame fun inside => ?_
    simp only [Set.mem_Ico] at inside
    omega
  refine ⟨layout.tiles, fun d inList => ?_, fun d inList has => ?_⟩
  · by_cases same : d = c
    · subst same
      unfold Chunk.HeaderAt
      rw [headerMagic_congr below, headerIsHole_congr below, headerSize_congr below]
      exact layout.headers d inList
    · exact (layout.headers d inList).congr (other inList same)
  · by_cases same : d = c
    · subst same
      unfold Chunk.FooterAt
      rw [footerMagic_congr above, footerHeader_congr above]
      exact layout.footers d inList has
    · exact (layout.footers d inList has).congr (other inList same)

theorem Fits.poke (fits : s.Fits cs) (live : p ∈ s.heap.live) (within : i < s.size p) (b : UInt8) :
    (s.poke (p + i) b).Fits cs := by
  obtain ⟨c, member, used, rfl, room⟩ := fits.owner live
  have sound := fits.holds.sound
  have wf := sound.wf
  have bounds := wf.layout.bounds member
  have array : Set.EqOn (Function.update s.mem (c.addr + 12 + i) b) s.mem
      (s.heap.kernel.heap.index.region s.heap.kernel.heap.index.maxSize) := by
    intro x inArray
    refine Function.update_of_ne ?_ ..
    rintro rfl
    exact Set.disjoint_left.mp wf.apart inArray ⟨by omega, by omega⟩
  have entries : s.heap.kernel.heap.index.entries (Function.update s.mem (c.addr + 12 + i) b) =
      s.heap.kernel.heap.index.entries s.mem := wf.indexIn.entries_same array
  refine ⟨⟨{ sound with wf := { wf with layout := ?_, entries := ?_ } }, fits.holds.live⟩, fits.room⟩
  · exact Layout.poke wf.layout member (by omega) (by omega) b
  · change (s.heap.kernel.heap.index.entries (Function.update s.mem (c.addr + 12 + i) b)).Perm _
    rw [entries]
    exact wf.entries

theorem Fits.blocks_poke (fits : s.Fits cs) (live : p ∈ s.heap.live) (within : i < s.size p)
    (b : UInt8) : (s.poke (p + i) b).blocks =
      Function.update s.blocks p (some ((s.contents p).set i b)) := by
  funext q
  by_cases same : q = p
  · subst same
    rw [Function.update_self, blocks_live (s.poke (q + i) b) live]
    refine congrArg some (List.ext_getElem? fun j => ?_)
    by_cases inside : j < s.size q
    · rw [contents_getElem? (s.poke (q + i) b) q inside, List.getElem?_set,
        contents_getElem? s q inside, contents_length, if_pos within]
      by_cases here : i = j
      · subst here
        rw [if_pos rfl]
        exact congrArg some (Function.update_self ..)
      · rw [if_neg here]
        refine congrArg some (Function.update_of_ne (fun sum => here ?_) ..)
        exact (Nat.add_left_cancel sum).symm
    · rw [List.getElem?_eq_none, List.getElem?_eq_none]
      · rw [List.length_set, contents_length]
        exact Nat.le_of_not_lt inside
      · rw [contents_length]
        exact Nat.le_of_not_lt inside
  · rw [Function.update_of_ne same]
    by_cases inUse : q ∈ s.heap.live
    · rw [blocks_live s inUse, blocks_live (s.poke (p + i) b) inUse]
      refine congrArg some (contents_congr rfl fun x inside => Function.update_of_ne ?_ ..)
      rintro rfl
      exact Set.disjoint_left.mp (fits.apart inUse live same) inside
        ⟨Nat.le_add_right p i, Nat.add_lt_add_left within p⟩
    · rw [blocks_not_live s inUse, blocks_not_live (s.poke (p + i) b) inUse]

/-! ## What `alloc` and `free` leave -/

-- what is in use before and after a call has kept its contents
theorem Fits.contents_keeps (fits : s.Fits cs) {heap : HeapState} {size : Nat → Nat}
    (keeps : s.heap.Keeps heap) (live : p ∈ s.heap.live) (still : p ∈ heap.live)
    (same : size p = s.size p) : contents { heap := heap, size := size } p = s.contents p := by
  refine contents_congr same ?_
  obtain ⟨c, member, used, rfl, -⟩ := fits.owner live
  have kept := keeps _ live still
  refine kept.mono ((fits.payload_subset member used).trans ?_)
  have block : s.heap.block (c.addr + 12) = c.bytes := HeapState.block_eq fits.holds.sound member
  rw [block]
  exact Set.Ico_subset_Ico (Nat.le_add_right _ _) (Nat.sub_le _ _)

theorem Fits.alloc (fits : s.Fits cs) {size : UInt32} {pageAlign : UInt8} {heap : HeapState}
    (calm : s.heap.Calm (.alloc size pageAlign))
    (step : s.heap.Step kmallocInt (.alloc size pageAlign) heap)
    (live : heap.live = p :: s.heap.live) :
    ∃ cs', Fits { heap := heap, size := Function.update s.size p size.toNat } cs' := by
  obtain ⟨block, cs', live', after, allocates⟩ := fits.holds.alloc calm step
  obtain ⟨rfl, -⟩ := List.cons.inj (live.symm.trans live')
  obtain ⟨inList, enough⟩ := allocates.block_mem
  refine ⟨cs', after, fun c member used => ?_⟩
  have addrs {d : Chunk} (other : d ∈ cs') (same : c.addr = d.addr) : c = d :=
    after.sound.wf.layout.tiles.addr_injective member other same
  have ptr := allocates.ptrs.mem_iff.mp (mem_blockPtrs.mpr ⟨c, member, used, rfl⟩)
  cases List.mem_cons.mp ptr with
  | inl new =>
    obtain rfl := addrs inList (Nat.add_right_cancel new)
    change Function.update s.size _ size.toNat _ + 20 ≤ c.size
    rwa [Function.update_self]
  | inr old =>
    obtain ⟨d, before, inUse, same⟩ := mem_blockPtrs.mp old
    have kept := (allocates.keeps fits.holds.sound.wf before inUse).1
    obtain rfl := addrs kept (Nat.add_right_cancel same.symm)
    have distinct : c.addr + sizeofHeader ≠ block.addr + sizeofHeader := by
      intro here
      have fresh := after.nodup
      rw [live', ← here] at fresh
      exact (List.nodup_cons.mp fresh).1 (fits.holds.live.mem_iff.mp old)
    change Function.update s.size _ size.toNat _ + 20 ≤ c.size
    rw [Function.update_of_ne distinct]
    exact fits.room c before inUse

theorem Fits.free (fits : s.Fits cs) {heap : HeapState} (calm : s.heap.Calm (.free p))
    (step : s.heap.Step kmallocInt (.free p) heap) :
    heap.live = s.heap.live.erase p ∧ ∃ cs', Fits { s with heap := heap } cs' := by
  obtain ⟨pre, left, b, right, post, hole, rfl, used, rfl, beside, live, after, frees⟩ :=
    fits.holds.free calm step
  refine ⟨live, pre ++ [hole] ++ post, after, fun c member inUse => ?_⟩
  have others : c ∈ pre ++ post := by
    simp only [List.mem_append, List.mem_singleton] at member ⊢
    rcases member with (before | rfl) | behind
    · exact Or.inl before
    · rw [frees.free] at inUse
      cases inUse
    · exact Or.inr behind
  refine fits.room c ?_ inUse
  simp only [around, List.mem_append, List.mem_cons] at others ⊢
  tauto

theorem Fits.step (fits : s.Fits cs) (step : Step kmallocInt s event s') : ∃ cs', s'.Fits cs' := by
  cases step with
  | alloc calm taken live => exact fits.alloc calm taken live
  | free calm taken => exact (fits.free calm taken).2
  | store live within => exact ⟨cs, fits.poke live within _⟩
  | load _ _ => exact ⟨cs, fits⟩

theorem Fits.refines (fits : s.Fits cs) (step : Step kmallocInt s event s') :
    BlockStore.Step s.blocks event s'.blocks := by
  cases step with
  | @alloc size pageAlign p heap calm taken live =>
    obtain ⟨cs', after⟩ := fits.alloc calm taken live
    have keeps := fits.holds.keeps calm taken
    have fresh : p ∉ s.heap.live := by
      have nodup := after.holds.nodup
      rw [live] at nodup
      exact (List.nodup_cons.mp nodup).1
    let s' : Client := { heap := heap, size := Function.update s.size p size.toNat }
    have length : (s'.contents p).length = size.toNat := by
      rw [contents_length]
      exact Function.update_self ..
    have blocks : s'.blocks = Function.update s.blocks p (some (s'.contents p)) := by
      funext q
      by_cases same : q = p
      · subst same
        rw [Function.update_self]
        exact blocks_live s' (live ▸ List.mem_cons_self)
      · rw [Function.update_of_ne same]
        have still : q ∈ s'.heap.live ↔ q ∈ s.heap.live := by
          rw [show s'.heap.live = p :: s.heap.live from live, List.mem_cons]
          exact or_iff_right same
        by_cases inUse : q ∈ s.heap.live
        · rw [blocks_live s inUse, blocks_live s' (still.mpr inUse)]
          exact congrArg some (fits.contents_keeps keeps inUse (still.mpr inUse)
            (Function.update_of_ne same ..))
        · rw [blocks_not_live s inUse, blocks_not_live s' fun there => inUse (still.mp there)]
    change BlockStore.Step s.blocks (.alloc p size.toNat) s'.blocks
    rw [← length, blocks]
    exact BlockStore.Step.alloc p _ (blocks_not_live s fresh)
  | @free p heap calm taken =>
    have keeps := fits.holds.keeps calm taken
    obtain ⟨live, -⟩ := fits.free calm taken
    have inUse : p ∈ s.heap.live := taken.1 p (List.mem_singleton_self p)
    have blocks : blocks { s with heap := heap } = Function.update s.blocks p none := by
      funext q
      have still : q ∈ heap.live ↔ q ≠ p ∧ q ∈ s.heap.live := by
        rw [live, fits.holds.nodup.mem_erase_iff]
      by_cases same : q = p
      · subst same
        rw [Function.update_self]
        exact if_neg fun there => (still.mp there).1 rfl
      · rw [Function.update_of_ne same]
        by_cases used : q ∈ s.heap.live
        · have there := still.mpr ⟨same, used⟩
          rw [blocks_live s used, blocks_live { s with heap := heap } there]
          exact congrArg some (fits.contents_keeps keeps used there rfl)
        · rw [blocks_not_live s used]
          exact if_neg fun there => used (still.mp there).2
    rw [blocks]
    exact BlockStore.Step.free p (blocks_live s inUse)
  | @store p i b live within =>
    rw [fits.blocks_poke live within]
    exact BlockStore.Step.store p b (blocks_live s live) (by rwa [contents_length])
  | @load p i live within =>
    exact BlockStore.Step.load p (blocks_live s live) (contents_getElem? s p within)

end Client

/-- A client that has not asked for anything yet. -/
def Created.client {k0 k : Kernel} (_ : Created k0 k) : Client :=
  { heap := { kernel := k, live := [] }, size := fun _ => 0 }

namespace Client

variable {kmallocInt : Kmalloc} {events : List (Event Nat UInt8)} {s : Client} {k0 k : Kernel}

theorem client_fits (fresh : Created k0 k) : fresh.client.Fits [firstHole] := by
  refine ⟨fresh.holds, fun c member used => ?_⟩
  obtain rfl := List.mem_singleton.mp member
  cases used

theorem run_fits (fresh : Created k0 k) (run : Run (Step kmallocInt) fresh.client events s) :
    ∃ cs, s.Fits cs := by
  refine run.invariant (I := fun s => ∃ cs, s.Fits cs) ⟨_, client_fits fresh⟩ ?_
  rintro s event s' ⟨cs, fits⟩ step
  exact fits.step step

theorem run_refines (fresh : Created k0 k) (run : Run (Step kmallocInt) fresh.client events s) :
    Run BlockStore.Step (fun _ => none) events s.blocks := by
  have simulates : ∀ s blocks event s', (∃ cs, s.Fits cs) ∧ s.blocks = blocks →
      Step kmallocInt s event s' →
      ∃ blocks', BlockStore.Step blocks event blocks' ∧ (∃ cs, s'.Fits cs) ∧
        s'.blocks = blocks' := by
    rintro s blocks event s' ⟨⟨cs, fits⟩, rfl⟩ step
    exact ⟨s'.blocks, fits.refines step, fits.step step, rfl⟩
  obtain ⟨final, abstract, -, rfl⟩ := run.simulate simulates ⟨⟨_, client_fits fresh⟩, rfl⟩
  exact abstract

/--
In every run of `alloc`, `free`, stores and loads in which the calls meet the condition and nothing
is used that was not asked for, the heap is a store of blocks with contents, the blocks are apart,
and what is loaded is what was stored there last.
-/
theorem heap_is_blockStore (kmallocInt : Kmalloc) {k0 k : Kernel} (fresh : Created k0 k)
    {events : List (Event Nat UInt8)} {s : Client}
    (run : Run (Step kmallocInt) fresh.client events s) :
    Run BlockStore.Step (fun _ => none) events s.blocks ∧
      (∀ p ∈ s.heap.live, ∀ q ∈ s.heap.live, p ≠ q → Disjoint (s.payload p) (s.payload q)) ∧
      ∀ before between p i b c, events = before ++ .store p i b :: between ++ [.load p i c] →
        (∀ event ∈ between, ¬ event.Changes p i) → c = b := by
  have abstract := run_refines fresh run
  refine ⟨abstract, ?_, ?_⟩
  next =>
    obtain ⟨cs, fits⟩ := run_fits fresh run
    exact fun p left q right distinct => fits.apart left right distinct
  next =>
    rintro before between p i b c rfl others
    exact load_last abstract others

/-- A byte of the second block is still there when the first has been freed. -/
theorem heap_is_blockStore_first : ∃ (k : Kernel) (fresh : Created mappedKernel k) (s : Client),
    Run (Step (GekonOS.kmallocInt 0)) fresh.client [.alloc 0x0108100C 8, .alloc 0x01081028 8,
      .store 0x01081028 3 65, .free 0x0108100C, .load 0x01081028 3 65] s ∧
    Run BlockStore.Step (fun _ => none) [.alloc 0x0108100C 8, .alloc 0x01081028 8,
      .store 0x01081028 3 65, .free 0x0108100C, .load 0x01081028 3 65] s.blocks := by
  obtain ⟨k, h1, h2, -, fresh, ⟨calm1, taken1⟩, ⟨calm2, taken2⟩, -, live1, live2, two, -⟩ :=
    HeapState.three_calls
  let s1 : Client := { heap := h1, size := Function.update (fun _ => 0) 0x0108100C 8 }
  let s2 : Client := { heap := h2, size := Function.update s1.size 0x01081028 8 }
  let s3 : Client := s2.poke (0x01081028 + 3) 65
  have step1 : Step (GekonOS.kmallocInt 0) fresh.client
      (.alloc 0x0108100C (8 : UInt32).toNat) s1 := Step.alloc calm1 taken1 live1
  have step2 : Step (GekonOS.kmallocInt 0) s1 (.alloc 0x01081028 (8 : UInt32).toNat) s2 :=
    Step.alloc calm2 taken2 (by rw [live2, show s1.heap.live = _ from live1])
  have inUse : 0x01081028 ∈ s2.heap.live := by
    rw [show s2.heap.live = _ from live2]
    exact List.mem_cons_self
  have within : 3 < s2.size 0x01081028 := by
    rw [show s2.size 0x01081028 = 8 from Function.update_self 0x01081028 8 s1.size]
    decide
  have step3 : Step (GekonOS.kmallocInt 0) s2 (.store 0x01081028 3 65) s3 :=
    Step.store inUse within
  have three := ((Run.nil.snoc step1).snoc step2).snoc step3
  obtain ⟨cs, fits⟩ := run_fits fresh three
  have two3 : HeapState.TwoBlocks s3.heap.kernel := by
    refine two.congr fun x inside => Function.update_of_ne ?_ ..
    have upper : x < 0x01081024 := inside.2
    omega
  have first : 0x0108100C ∈ s3.heap.live := by
    rw [show s3.heap.live = _ from live2]
    exact List.mem_cons_of_mem _ (List.mem_singleton_self _)
  obtain ⟨-, -, -, -, -, -, k', -, -, -, -, freed, -⟩ :=
    fits.holds.frees first two3.calm (GekonOS.kmallocInt 0)
  let s4 : Client := { s3 with heap := { kernel := k', live := s3.heap.live.erase 0x0108100C } }
  have taken4 : s3.heap.Step (GekonOS.kmallocInt 0) (.free 0x0108100C) s4.heap := by
    refine ⟨fun p freed => ?_, 0, ?_⟩
    · rw [List.mem_singleton.mp freed]
      exact first
    · change (GekonOS.free (GekonOS.kmallocInt 0) 0x0108100C s3.heap.kernel >>= _) = _
      rw [freed]
      rfl
  have step4 : Step (GekonOS.kmallocInt 0) s3 (.free 0x0108100C) s4 := Step.free two3.calm taken4
  have still : 0x01081028 ∈ s4.heap.live :=
    (List.mem_erase_of_ne (by decide)).mpr inUse
  have step5 : Step (GekonOS.kmallocInt 0) s4 (.load 0x01081028 3 _) s4 :=
    Step.load (i := 3) still within
  have all := (three.snoc step4).snoc step5
  obtain ⟨abstract, -, loads⟩ := heap_is_blockStore (GekonOS.kmallocInt 0) fresh all
  have same := loads [.alloc 0x0108100C 8, .alloc 0x01081028 8] [.free 0x0108100C] 0x01081028 3 65 _
    rfl (by
      intro event member
      obtain rfl := List.mem_singleton.mp member
      exact show ¬ (0x0108100C = 0x01081028) by decide)
  rw [same] at all abstract
  exact ⟨k, fresh, s4, all, abstract⟩

end Client

end GekonOS
