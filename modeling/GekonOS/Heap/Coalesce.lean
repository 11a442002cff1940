import GekonOS.Heap.Merge
import Mathlib.Data.List.Chain

set_option autoImplicit false

namespace GekonOS

open ByteMemory Loop

variable {m : Mem} {b c l r : Chunk} {k : Kernel} {left right : Option Chunk}
  {pre post : List Chunk} {tagged : Chunk → Prop}

-- the footer below the block tells whether a hole ends there
theorem unifiesLeft_iff (header : c.HeaderAt m) (footer : c.FooterAt m)
    (next : b.addr = c.addr + c.size) (small : b.addr < 4294967296) :
    UnifiesLeft b.addr (setHeaderIsHole m b.addr 1) ↔ c.hole = true := by
  have room := c.room
  have test : Word32.sub b.addr sizeofFooter = c.addr + c.size - 8 := by
    rw [sizeofFooter, Word32.sub_of_le (by omega) small, next]
  have same : Set.EqOn (setHeaderIsHole m b.addr 1) m c.bytes := by
    apply write8_eqOn
    intro inside
    simp only [Chunk.bytes, Set.mem_Ico] at inside
    omega
  have footer' := footer.congr same
  have flag := (header.congr same).2.1
  unfold UnifiesLeft
  simp only [test, footer'.1, footer'.2, flag, true_and]
  cases c.hole <;> simp

theorem unifiesRight_iff (header : c.HeaderAt m) : UnifiesRight c.addr m ↔ c.hole = true := by
  unfold UnifiesRight
  rw [header.1, header.2.1]
  cases c.hole <;> simp

/-- `left` and `right` are the holes between which the block lies, if there are any. -/
structure Beside (pre : List Chunk) (left right : Option Chunk) (post : List Chunk) : Prop where
  leftHole : ∀ l ∈ left, l.hole = true
  noLeft : left = none → ∀ c ∈ pre.getLast?, c.hole = false
  rightHole : ∀ r ∈ right, r.hole = true
  noRight : right = none → ∀ c ∈ post.head?, c.hole = false

-- the chunks with the block between its neighbours
def around (pre : List Chunk) (left : Option Chunk) (b : Chunk) (right : Option Chunk)
    (post : List Chunk) : List Chunk := pre ++ left.toList ++ b :: (right.toList ++ post)

/-- What a layout says about the block and its neighbours. -/
structure AroundAt (tagged : Chunk → Prop) (m : Mem) (lo hi : Nat) (pre : List Chunk)
    (left : Option Chunk) (b : Chunk) (right : Option Chunk) (post : List Chunk) : Prop where
  before : Layout tagged m lo (leftmost left b).addr pre
  leftAt : ∀ l ∈ left, l.HeaderAt m ∧ (tagged l → l.FooterAt m) ∧ b.addr = l.addr + l.size
  header : b.HeaderAt m
  footer : tagged b → b.FooterAt m
  rightAt : ∀ r ∈ right, r.HeaderAt m ∧ (tagged r → r.FooterAt m) ∧ r.addr = b.addr + b.size
  after : Layout tagged m ((rightmost right b).addr + (rightmost right b).size) hi post

variable {lo hi : Nat}

theorem Layout.around (layout : Layout tagged m lo hi (around pre left b right post)) :
    AroundAt tagged m lo hi pre left b right post := by
  obtain ⟨before, header, footer, behind⟩ := Layout.middle.mp layout
  have leftPart : Layout tagged m lo (leftmost left b).addr pre ∧
      ∀ l ∈ left, l.HeaderAt m ∧ (tagged l → l.FooterAt m) ∧ b.addr = l.addr + l.size := by
    cases left with
    | none =>
      rw [Option.toList_none, List.append_nil] at before
      exact ⟨before, by simp⟩
    | some l =>
      obtain ⟨first, headerL, footerL, stop⟩ := Layout.middle.mp before
      refine ⟨first, fun l' same => ?_⟩
      cases same
      exact ⟨headerL, footerL, stop.tiles.symm⟩
  have rightPart : (∀ r ∈ right, r.HeaderAt m ∧ (tagged r → r.FooterAt m) ∧
        r.addr = b.addr + b.size) ∧
      Layout tagged m ((rightmost right b).addr + (rightmost right b).size) hi post := by
    cases right with
    | none => exact ⟨by simp, behind⟩
    | some r =>
      obtain ⟨start, headerR, footerR, rest⟩ := Layout.cons.mp behind
      refine ⟨fun r' same => ?_, start ▸ rest⟩
      cases same
      exact ⟨headerR, footerR, start⟩
  exact ⟨leftPart.1, leftPart.2, header, footer, rightPart.1, rightPart.2⟩

theorem AroundAt.seesLeft (at_ : AroundAt tagged m lo hi pre left b right post)
    (beside : Beside pre left right post) (tags : ∀ c : Chunk, c.addr + c.size ≠ hi → tagged c)
    (inside : b.addr + b.size ≤ hi) (small : hi < 4294967296)
    (first : pre = [] → left = none → ¬ UnifiesLeft b.addr (setHeaderIsHole m b.addr 1)) :
    SeesLeft m b left := by
  have room := b.room
  cases left with
  | some l =>
    obtain ⟨header, footer, next⟩ := at_.leftAt l rfl
    have free := beside.leftHole l rfl
    have leftRoom := l.room
    have footer' := footer (tags l (by omega))
    have unifies := (unifiesLeft_iff header footer' next (by omega)).mpr free
    refine SeesLeft.merge l header free next unifies ?_
    rw [next]
    exact footer'.2
  | none =>
    refine SeesLeft.apart ?_
    cases pre using List.reverseRecOn with
    | nil => exact first rfl rfl
    | append_singleton pre c =>
      have used := beside.noLeft rfl c (by simp)
      obtain ⟨-, header, footer, stop⟩ := Layout.middle.mp at_.before
      have next : b.addr = c.addr + c.size := stop.tiles.symm
      have chunkRoom := c.room
      rw [unifiesLeft_iff header (footer (tags c (by omega))) next (by omega), used]
      decide

theorem AroundAt.seesRight (at_ : AroundAt tagged m lo hi pre left b right post)
    (beside : Beside pre left right post)
    (last : right = none → post = [] → ¬ UnifiesRight (b.addr + b.size) m) :
    SeesRight m b right := by
  cases right with
  | some r =>
    obtain ⟨header, -, next⟩ := at_.rightAt r rfl
    exact SeesRight.merge r header (beside.rightHole r rfl) next
  | none =>
    refine SeesRight.apart ?_
    cases post with
    | nil => exact last rfl rfl
    | cons c post =>
      have used := beside.noRight rfl c rfl
      obtain ⟨start, header, -, -⟩ := Layout.cons.mp at_.after
      rw [← show c.addr = b.addr + b.size from start, unifiesRight_iff header, used]
      decide

/-! ## The merged hole in the layout and in the index -/

theorem mergedHole_addr (left : Option Chunk) (b : Chunk) (right : Option Chunk) :
    (mergedHole left b right).addr = (leftmost left b).addr := by
  cases left <;> cases right <;> rfl

theorem AroundAt.merged_end (at_ : AroundAt tagged m lo hi pre left b right post) :
    (mergedHole left b right).addr + (mergedHole left b right).size =
      (rightmost right b).addr + (rightmost right b).size := by
  have leftEnd (l : Chunk) (same : left = some l) : b.addr = l.addr + l.size :=
    (at_.leftAt l same).2.2
  have rightEnd (r : Chunk) (same : right = some r) : r.addr = b.addr + b.size :=
    (at_.rightAt r same).2.2
  cases left with
  | none =>
    cases right with
    | none => rfl
    | some r =>
      have := rightEnd r rfl
      simp only [mergedHole, rightmost, Chunk.join, Chunk.freed]
      omega
  | some l =>
    have := leftEnd l rfl
    cases right with
    | none =>
      simp only [mergedHole, rightmost, Chunk.join]
      omega
    | some r =>
      have := rightEnd r rfl
      simp only [mergedHole, rightmost, Chunk.join]
      omega

theorem AroundAt.bounds (at_ : AroundAt tagged m lo hi pre left b right post) :
    lo ≤ (leftmost left b).addr ∧ (leftmost left b).addr ≤ b.addr ∧
      b.addr + b.size ≤ (rightmost right b).addr + (rightmost right b).size ∧
      (rightmost right b).addr + (rightmost right b).size ≤ hi := by
  refine ⟨at_.before.le, ?_, ?_, at_.after.le⟩
  · cases left with
    | none => exact Nat.le_refl _
    | some l =>
      have next := (at_.leftAt l rfl).2.2
      simp only [leftmost]
      omega
  · cases right with
    | none => exact Nat.le_refl _
    | some r =>
      have next := (at_.rightAt r rfl).2.2
      simp only [rightmost]
      omega

theorem Merged.layout {index : OrderedArray} (merged : Merged k left b right index m)
    (at_ : AroundAt tagged k.mem k.heap.startAddress k.heap.endAddress pre left b right post)
    (footer : tagged (mergedHole left b right) → (mergedHole left b right).FooterAt m) :
    Layout tagged m k.heap.startAddress k.heap.endAddress
      (pre ++ [mergedHole left b right] ++ post) := by
  have first := mergedHole_addr left b right
  have stop := at_.merged_end
  have apart := merged.sound.apart
  rw [merged.array] at apart
  refine (first ▸ at_.before).splice (stop ▸ at_.after)
    (Layout.singleton rfl rfl merged.header footer) (merged.frame.mono ?_)
  intro x within changed
  cases changed with
  | inl inside => exact within.2 inside
  | inr array => exact Set.disjoint_left.mp apart array within.1

theorem entries_diff (used : b.hole = false) (rightHole : ∀ r ∈ right, r.hole = true)
    {entries : List Nat} (perm : entries.Perm (holeAddrs (around pre left b right post))) :
    (entries.diff (right.toList.map Chunk.addr)).Perm
      (holeAddrs (pre ++ left.toList ++ post)) := by
  simp only [around, holeAddrs_append, holeAddrs_cons_block used] at perm ⊢
  cases right with
  | none => simpa using perm
  | some r =>
    have listed : holeAddrs (some r).toList = [r.addr] :=
      holeAddrs_cons_hole (rightHole r rfl)
    rw [listed, List.singleton_append] at perm
    have first := (perm.trans List.perm_middle).erase r.addr
    rw [List.erase_cons_head] at first
    change (entries.diff [r.addr]).Perm _
    rw [List.diff_cons, List.diff_nil]
    exact first

-- the entries of the index once the hole is in it
def relisted (left : Option Chunk) (a : Nat) (m : Mem) (entries : List Nat) : List Nat :=
  if left.isSome then entries else entries.orderedInsert (sizeLe m) a

theorem relisted_perm (right : Option Chunk) (leftHole : ∀ l ∈ left, l.hole = true)
    {entries : List Nat} (perm : entries.Perm (holeAddrs (pre ++ left.toList ++ post))) :
    (relisted left (mergedHole left b right).addr m entries).Perm
      (holeAddrs (pre ++ [mergedHole left b right] ++ post)) := by
  have listed : holeAddrs [mergedHole left b right] = [(mergedHole left b right).addr] :=
    holeAddrs_cons_hole (mergedHole_hole left b right)
  rw [holeAddrs_append, holeAddrs_append] at perm ⊢
  rw [listed]
  cases left with
  | none =>
    refine (List.perm_orderedInsert (sizeLe m) _ entries).trans ?_
    rw [List.append_assoc]
    exact (perm.cons _).trans (List.perm_middle.symm.trans (by simp))
  | some l =>
    have before : holeAddrs (some l).toList = [l.addr] :=
      holeAddrs_cons_hole (leftHole l rfl)
    rw [before] at perm
    rw [mergedHole_addr]
    exact perm

theorem finishFree_correct (left : Option Chunk) {a : Nat} (sound : IndexIn k.heap.index k.mem lo hi)
    (room : left = none → k.heap.index.size < k.heap.index.maxSize) (lower : lo ≤ a)
    (upper : a + 12 ≤ hi) :
    ∃ index m, (if (if left.isSome then 0 else 1) = 1 then
        insertOrderedArray a k.heap.index k.mem >>= fun r => .ok (k.withIndex r.1 r.2)
        else .ok k) = (.ok (k.withIndex index m) : Except Halt Kernel) ∧
      index = { k.heap.index with size := index.size } ∧
      index.entries m = relisted left a m (k.heap.index.entries k.mem) ∧
      Set.EqOn m k.mem (k.heap.index.region k.heap.index.maxSize)ᶜ ∧ IndexIn index m lo hi := by
  cases left with
  | none =>
    obtain ⟨m, inserted, entries, frame, sound'⟩ := sound.insert (room rfl) lower upper
    refine ⟨_, m, ?_, rfl, entries, frame, sound'⟩
    simp only [Option.isSome_none, Bool.false_eq_true, if_false, if_true, inserted, ok_bind]
  | some l => exact ⟨k.heap.index, k.mem, rfl, rfl, rfl, Set.eqOn_refl _ _, sound⟩

/-! ## Coalescing -/

def Separated (cs : List Chunk) : Prop := cs.IsChain fun a b => ¬ (a.hole = true ∧ b.hole = true)

-- every chunk with a right neighbour
def HasNext (k : Kernel) (c : Chunk) : Prop := c.addr + c.size ≠ k.heap.endAddress

/-- What `free` shall do: the block and the holes beside it become one hole, and nothing else. -/
def Coalesces (kmallocInt : Kmalloc) (k : Kernel) (pre : List Chunk) (left : Option Chunk)
    (b : Chunk) (right : Option Chunk) (post : List Chunk) : Prop :=
  ∃ k', free kmallocInt (b.addr + 12) k = .ok k' ∧
    WellFormed (HasNext k) k' (pre ++ [mergedHole left b right] ++ post) ∧
    Separated (pre ++ [mergedHole left b right] ++ post) ∧
    Set.EqOn k'.mem k.mem ((mergedHole left b right).bytes ∪
      k.heap.index.region k.heap.index.maxSize)ᶜ

theorem separated_merged (separated : Separated (around pre left b right post))
    (beside : Beside pre left right post) :
    Separated (pre ++ [mergedHole left b right] ++ post) := by
  unfold Separated around at *
  obtain ⟨before, behind, -⟩ := List.isChain_append.mp separated
  obtain ⟨first, -, toLeft⟩ := List.isChain_append.mp before
  obtain ⟨-, rest⟩ := List.isChain_cons.mp behind
  obtain ⟨-, last, toRight⟩ := List.isChain_append.mp rest
  rw [List.append_assoc]
  refine List.isChain_append.mpr ⟨first, List.isChain_cons.mpr ⟨?_, last⟩, ?_⟩
  · intro c next both
    cases right with
    | none => exact absurd both.2 (by rw [beside.noRight rfl c next]; decide)
    | some r => exact toRight r rfl c next ⟨beside.rightHole r rfl, both.2⟩
  · intro c previous d next both
    cases next
    cases left with
    | none => exact absurd both.1 (by rw [beside.noLeft rfl c previous]; decide)
    | some l => exact toLeft c previous l rfl ⟨both.1, beside.leftHole l rfl⟩

variable {kmallocInt : Kmalloc} {cs : List Chunk}

theorem free_header {b : Chunk} (small : b.addr + b.size < 4294967296) :
    b.addr + 12 ≠ 0 ∧ Word32.sub (b.addr + 12) sizeofHeader = b.addr := by
  have room := b.room
  refine ⟨Nat.succ_ne_zero _, ?_⟩
  rw [sizeofHeader, Word32.sub_of_le (by omega) (by omega)]
  omega

theorem free_footer {b : Chunk} (header : b.HeaderAt m) (small : b.addr + b.size < 4294967296) :
    Word32.sub (Word32.add b.addr (headerSize m b.addr)) sizeofFooter = b.addr + b.size - 8 := by
  have room := b.room
  rw [header.2.2, sizeofFooter, Word32.add_of_lt small, Word32.sub_of_le (by omega) small]

theorem free_merges (header : b.HeaderAt k.mem) (footer : b.FooterAt k.mem)
    (small : b.addr + b.size < 4294967296) {a footer' : Nat} {m1 : Mem} {k2 k3 : Kernel}
    (unified : unifyLeft b.addr (b.addr + b.size - 8) (setHeaderIsHole k.mem b.addr 1) =
      (a, if left.isSome then 0 else 1, m1))
    (joined : unifyRight a (b.addr + b.size - 8) { k with mem := m1 } = .ok (footer', k2))
    (contracted : contractEnd kmallocInt a footer' (b.addr + b.size) k2 = .ok k3) :
    free kmallocInt (b.addr + 12) k = if (if left.isSome then 0 else 1) = 1 then
      insertOrderedArray a k3.heap.index k3.mem >>= fun r => .ok (k3.withIndex r.1 r.2)
      else .ok k3 := by
  have room := b.room
  obtain ⟨nonzero, header_eq⟩ := free_header small
  have test : Word32.add (b.addr + b.size - 8) sizeofFooter = b.addr + b.size := by
    rw [sizeofFooter, Word32.add_of_lt (by omega)]
    omega
  exact free_steps nonzero header_eq (free_footer header small) header.1 footer.1 unified joined
    (by rw [test]; exact contracted)

theorem WellFormed.around (wf : WellFormed tagged k (around pre left b right post)) :
    AroundAt tagged k.mem k.heap.startAddress k.heap.endAddress pre left b right post :=
  wf.layout.around

theorem WellFormed.merges (wf : WellFormed tagged k (GekonOS.around pre left b right post))
    (rightHole : ∀ r ∈ right, r.hole = true) (footer : b.FooterAt k.mem)
    (leftSees : SeesLeft k.mem b left) (rightSees : SeesRight k.mem b right) :
    ∃ m1 index m, unifyLeft b.addr (b.addr + b.size - 8) (setHeaderIsHole k.mem b.addr 1) =
        ((mergedHole left b right).addr, if left.isSome then 0 else 1, m1) ∧
      unifyRight (mergedHole left b right).addr (b.addr + b.size - 8) { k with mem := m1 } =
        .ok ((mergedHole left b right).addr + (mergedHole left b right).size - 8,
          k.withIndex index m) ∧
      Merged k left b right index m := by
  have at_ := wf.around
  obtain ⟨lower, -, -, upper⟩ := at_.bounds
  have few := wf.index_lt_noHole
  refine merges_correct leftSees rightSees at_.header footer lower upper wf.indexIn wf.nodup ?_ ?_
  · intro r same
    refine wf.mem_entries.mpr ⟨r, ?_, rightHole r same, rfl⟩
    cases same
    simp [GekonOS.around]
  · unfold noHole at few
    omega

theorem Merged.room {index : OrderedArray} (merged : Merged k left b right index m)
    (wf : WellFormed tagged k (GekonOS.around pre left b right post))
    (rightHole : ∀ r ∈ right, r.hole = true)
    (capacity : right = none → k.heap.index.size < k.heap.index.maxSize) :
    index.size < index.maxSize := by
  rw [merged.array]
  cases right with
  | none => exact capacity rfl
  | some r =>
    have listed : r.addr ∈ k.heap.index.entries k.mem :=
      wf.mem_entries.mpr ⟨r, by simp [GekonOS.around], rightHole r rfl, rfl⟩
    have some_ := List.length_pos_of_mem listed
    have tight := wf.room
    rw [OrderedArray.length_entries] at some_
    simp only [Option.toList_some, List.length_singleton]
    omega

theorem Merged.region {index : OrderedArray} (merged : Merged k left b right index m) :
    index.region index.maxSize = k.heap.index.region k.heap.index.maxSize := by
  rw [merged.array]
  rfl

theorem Merged.stale_footer {index : OrderedArray} {m' : Mem}
    (merged : Merged k left b (some r) index m)
    (at_ : AroundAt tagged k.mem k.heap.startAddress k.heap.endAddress pre left b (some r) post)
    (footer : r.FooterAt k.mem)
    (frame : Set.EqOn m' m (index.region index.maxSize)ᶜ) :
    ¬ (mergedHole left b (some r)).FooterAt m' := by
  intro footer'
  have room := r.room
  have blockRoom := b.room
  have stop := at_.merged_end
  have next := (at_.rightAt r rfl).2.2
  obtain ⟨lower, leftOf, -, upper⟩ := at_.bounds
  have first := mergedHole_addr left b (some r)
  have apart := merged.sound.apart
  change (mergedHole left b (some r)).addr + (mergedHole left b (some r)).size = r.addr + r.size
    at stop
  change r.addr + r.size ≤ k.heap.endAddress at upper
  have same : Set.EqOn m' k.mem (Set.Ico (r.addr + r.size - 8) (r.addr + r.size - 8 + 8)) := by
    intro x within
    rw [frame, merged.rightSame r rfl]
    · simp only [Chunk.bytes, Set.mem_Ico] at within ⊢
      omega
    · intro array
      refine Set.disjoint_left.mp apart array ?_
      simp only [Set.mem_Ico] at within ⊢
      omega
  have points := footer'.2
  rw [stop, footerHeader_congr same, footer.2] at points
  omega

-- no footer below the heap area, so nothing to unify with
theorem not_unifiesLeft (clean : footerMagic m (Word32.sub b.addr 8) ≠ heapMagic) :
    ¬ UnifiesLeft b.addr (setHeaderIsHole m b.addr 1) := by
  intro unifies
  have room := b.room
  have magic : footerMagic (setHeaderIsHole m b.addr 1) (Word32.sub b.addr 8) = heapMagic :=
    unifies.1
  have same : footerMagic (setHeaderIsHole m b.addr 1) (Word32.sub b.addr 8) =
      footerMagic m (Word32.sub b.addr 8) := by
    apply read32_write8_ne
    unfold Word32.sub
    omega
  exact clean (same ▸ magic)

theorem free_inner (kmallocInt : Kmalloc)
    (wf : WellFormed tagged k (GekonOS.around pre left b right post))
    (rightHole : ∀ r ∈ right, r.hole = true) (footer : b.FooterAt k.mem)
    (leftSees : SeesLeft k.mem b left) (rightSees : SeesRight k.mem b right)
    (inner : HasNext k (mergedHole left b right)) :
    ∃ index m, Merged k left b right index m ∧
      free kmallocInt (b.addr + 12) k = if (if left.isSome then 0 else 1) = 1 then
        insertOrderedArray (mergedHole left b right).addr (k.withIndex index m).heap.index
            (k.withIndex index m).mem >>=
          fun r => .ok ((k.withIndex index m).withIndex r.1 r.2)
        else .ok (k.withIndex index m) := by
  have at_ := wf.around
  obtain ⟨lower, leftOf, rightOf, upper⟩ := at_.bounds
  have small := wf.small
  have stop := at_.merged_end
  have chunkRoom := (mergedHole left b right).room
  unfold HasNext at inner
  obtain ⟨m1, index, m, unified, joined, merged⟩ :=
    wf.merges rightHole footer leftSees rightSees
  have farther : Word32.add ((mergedHole left b right).addr + (mergedHole left b right).size - 8)
      sizeofFooter ≠ (k.withIndex index m).heap.endAddress := by
    rw [sizeofFooter, Word32.add_of_lt (by omega)]
    change _ ≠ k.heap.endAddress
    omega
  exact ⟨index, m, merged, free_merges at_.header footer (by omega) unified joined
    (contractEnd_keeps farther : contractEnd kmallocInt _ _ _ _ = _)⟩

theorem free_coalesced (kmallocInt : Kmalloc)
    (wf : WellFormed tagged k (GekonOS.around pre left b none post)) (used : b.hole = false)
    (beside : Beside pre left none post) (footer : b.FooterAt k.mem)
    (leftSees : SeesLeft k.mem b left) (rightSees : SeesRight k.mem b none)
    (inner : HasNext k (mergedHole left b none))
    (room : left = none → k.heap.index.size < k.heap.index.maxSize) :
    ∃ index m, free kmallocInt (b.addr + 12) k = .ok (k.withIndex index m) ∧
      index = { k.heap.index with size := index.size } ∧
      index.entries m = relisted left (mergedHole left b none).addr m
        (k.heap.index.entries k.mem) ∧
      WellFormed tagged (k.withIndex index m) (pre ++ [mergedHole left b none] ++ post) ∧
      Set.EqOn m k.mem ((mergedHole left b none).bytes ∪
        k.heap.index.region k.heap.index.maxSize)ᶜ := by
  have at_ := wf.around
  obtain ⟨lower, leftOf, rightOf, upper⟩ := at_.bounds
  have stop := at_.merged_end
  have chunkRoom := (mergedHole left b none).room
  obtain ⟨index, m, merged, freed⟩ :=
    free_inner kmallocInt wf beside.rightHole footer leftSees rightSees inner
  have spare (noLeft : left = none) : index.size < index.maxSize := by
    rw [merged.array]
    exact room noLeft
  have above : k.heap.startAddress ≤ (mergedHole left b none).addr := by
    rw [mergedHole_addr]
    exact lower
  obtain ⟨index', m', done, array, entries, frame, sound⟩ :=
    finishFree_correct (k := k.withIndex index m) left merged.sound spare above
      (show (mergedHole left b none).addr + 12 ≤ k.heap.endAddress by omega)
  change Set.EqOn m' m (index.region index.maxSize)ᶜ at frame
  change index'.entries m' = relisted left _ m' (index.entries m) at entries
  have sized : index' = { k.heap.index with size := index'.size } := by
    have first : index' = { index with size := index'.size } := array
    rw [merged.array] at first
    exact first
  have layout : Layout tagged m' k.heap.startAddress k.heap.endAddress
      (pre ++ [mergedHole left b none] ++ post) :=
    (merged.layout at_ fun _ => merged.footer rfl).congr (merged.sound.heap_same frame)
  have listed : index'.entries m' = relisted left (mergedHole left b none).addr m'
      (k.heap.index.entries k.mem) := by
    rw [entries, merged.entries]
    rfl
  have perm : (index'.entries m').Perm (holeAddrs (pre ++ [mergedHole left b none] ++ post)) := by
    rw [entries, merged.entries]
    exact relisted_perm none beside.leftHole (entries_diff used beside.rightHole wf.entries)
  refine ⟨index', m', freed.trans done, sized, listed,
    wf.withIndex (by rw [sized]) layout perm sound, ?_⟩
  rw [merged.region] at frame
  exact (frame.mono (Set.compl_subset_compl.mpr Set.subset_union_right)).trans merged.frame

/--
`free` coalesces if and only if there is no hole to the right of the block, and the merged hole is
in the index already or finds room there.
-/
theorem free_coalesces_iff (kmallocInt : Kmalloc) (k : Kernel) (pre : List Chunk)
    (left : Option Chunk) (b : Chunk) (right : Option Chunk) (post : List Chunk)
    (wf : WellFormed (HasNext k) k (around pre left b right post)) (used : b.hole = false)
    (separated : Separated (around pre left b right post)) (beside : Beside pre left right post)
    (inner : HasNext k (mergedHole left b right))
    (clean : footerMagic k.mem (Word32.sub k.heap.startAddress 8) ≠ heapMagic) :
    Coalesces kmallocInt k pre left b right post ↔
      right = none ∧ (left ≠ none ∨ k.heap.index.size < k.heap.index.maxSize) := by
  have at_ := wf.around
  obtain ⟨lower, leftOf, rightOf, upper⟩ := at_.bounds
  have small := wf.small
  have stop := at_.merged_end
  have room := b.room
  have farther := inner
  unfold HasNext at farther
  have leftSees : SeesLeft k.mem b left := by
    refine at_.seesLeft beside (fun c next => next) (by omega) small ?_
    intro none noHole
    subst none noHole
    have start : k.heap.startAddress = b.addr := at_.before.tiles
    exact not_unifiesLeft (start ▸ clean)
  have rightSees : SeesRight k.mem b right := by
    refine at_.seesRight beside ?_
    intro noHole none
    subst noHole none
    exact absurd at_.after.tiles (by rw [← stop]; exact farther)
  have footer : b.FooterAt k.mem := at_.footer (by unfold HasNext; omega)
  obtain ⟨index, m, merged, freed⟩ :=
    free_inner kmallocInt wf beside.rightHole footer leftSees rightSees inner
  have first : (mergedHole left b right).addr ≤ b.addr := by
    rw [mergedHole_addr]
    exact leftOf
  have above : k.heap.startAddress ≤ (mergedHole left b right).addr := by
    rw [mergedHole_addr]
    exact lower
  -- what `free` returns when the index has room for the merged hole
  have finished (room : left = none → index.size < index.maxSize) :=
    finishFree_correct (k := k.withIndex index m) left merged.sound room above
      (show (mergedHole left b right).addr + 12 ≤ k.heap.endAddress by omega)
  constructor
  · rintro ⟨k', result, wf', _⟩
    have noRight : right = none := by
      by_contra some_
      obtain ⟨r, rfl⟩ := Option.ne_none_iff_exists'.mp some_
      obtain ⟨index', m', done, -, -, frame, -⟩ :=
        finished fun _ => merged.room wf beside.rightHole (by simp)
      rw [freed, done] at result
      cases result
      have inner' : HasNext k r := by
        change (mergedHole left b (some r)).addr + _ = r.addr + r.size at stop
        unfold HasNext
        omega
      exact merged.stale_footer at_ ((at_.rightAt r rfl).2.1 inner') frame
        (wf'.layout.footers _ (by simp) inner)
    refine ⟨noRight, ?_⟩
    by_contra neither
    obtain ⟨noLeft, full⟩ := not_or.mp neither
    have noLeft := not_not.mp noLeft
    subst noRight noLeft
    -- the store goes behind the array
    obtain ⟨m', inserted, -, -⟩ := insertOrderedArray_correct m merged.sound.lessThan
      (show (mergedHole none b none).addr < 4294967296 by omega)
    have overflowed : free kmallocInt (b.addr + 12) k =
        .ok (k.withIndex { index with size := index.size + 1 } m') := by
      rw [freed]
      change (insertOrderedArray (mergedHole none b none).addr index m >>= _) = _
      rw [inserted]
      rfl
    rw [overflowed] at result
    cases result
    have tight : index.size + 1 ≤ index.maxSize := wf'.room
    rw [merged.array] at tight
    simp only [Option.toList_none, List.length_nil, Nat.sub_zero] at tight
    omega
  · rintro ⟨noRight, listed⟩
    subst noRight
    obtain ⟨index', m', result, -, -, wf', frame⟩ := free_coalesced kmallocInt wf used beside footer
      leftSees rightSees inner fun none => listed.resolve_left fun some_ => some_ none
    exact ⟨_, result, wf', separated_merged separated beside, frame⟩

instance (m : Mem) (c : Chunk) : Decidable (c.HeaderAt m) :=
  inferInstanceAs (Decidable (_ ∧ _ ∧ _))

instance (m : Mem) (c : Chunk) : Decidable (c.FooterAt m) :=
  inferInstanceAs (Decidable (_ ∧ _))

def Chunk.write (c : Chunk) (m : Mem) : Mem :=
  let m := setHeaderMagic m c.addr heapMagic
  let m := setHeaderIsHole m c.addr (if c.hole then 1 else 0)
  let m := setHeaderSize m c.addr c.size
  let m := setFooterMagic m (c.addr + c.size - 8) heapMagic
  setFooterHeader m (c.addr + c.size - 8) c.addr

def chunkAt (addr : Nat) (hole : Bool) : Chunk :=
  { addr := addr, size := 40, hole := hole, room := by decide }

def threeChunks (x y z : Bool) : List Chunk := [chunkAt 4096 x, chunkAt 4136 y, chunkAt 4176 z]

-- the index stands behind the chunks
def threeKernel (x y z : Bool) : Kernel :=
  let holes := holeAddrs (threeChunks x y z)
  let tagged := (threeChunks x y z).foldr Chunk.write Kernel.boot.mem
  { Kernel.boot with
    mem := holes.zipIdx.foldl (fun m a => write32 m (8192 + 4 * a.2) a.1) tagged
    heap := { index := { array := 8192, size := holes.length, maxSize := 3,
                         lessThan := some headerTLessThan },
              startAddress := 4096, endAddress := 4216, maxAddress := 8192, supervisor := 0,
              readonly := 0 } }

theorem threeChunks_wellFormed (x y z : Bool) :
    WellFormed (HasNext (threeKernel x y z)) (threeKernel x y z) (threeChunks x y z) := by
  have positive : 0 < 40 := by decide
  refine ⟨⟨⟨rfl, positive, rfl, positive, rfl, positive, rfl⟩, ?_, ?_⟩, ?_, rfl, ?_, ?_,
    ?_, ?_⟩
  · revert x y z
    decide +kernel
  · have all : ∀ x y z, ∀ c ∈ threeChunks x y z, c.FooterAt (threeKernel x y z).mem := by
      decide +kernel
    exact fun c member _ => all x y z c member
  · have listed : ∀ x y z, (threeKernel x y z).heap.index.entries (threeKernel x y z).mem =
        holeAddrs (threeChunks x y z) := by
      decide +kernel
    rw [listed x y z]
  · revert x y z
    decide +kernel
  · exact show 0 < 3 by decide
  · rw [Set.disjoint_left]
    intro a inArray inHeap
    simp only [OrderedArray.region, threeKernel, Set.mem_Ico] at inArray inHeap
    omega
  · exact show 4216 < 4294967296 by decide

set_option maxRecDepth 100000 in
-- a hole, the block and another block
theorem free_coalesces_iff_left :
    Coalesces (GekonOS.kmallocInt 0) (threeKernel true false false) [] (some (chunkAt 4096 true))
        (chunkAt 4136 false) none [chunkAt 4176 false] ↔
      (none : Option Chunk) = none ∧ (some (chunkAt 4096 true) ≠ none ∨
        (threeKernel true false false).heap.index.size <
          (threeKernel true false false).heap.index.maxSize) :=
  free_coalesces_iff (GekonOS.kmallocInt 0) (threeKernel true false false) [] (some (chunkAt 4096 true))
    (chunkAt 4136 false) none [chunkAt 4176 false] (threeChunks_wellFormed true false false) rfl
    (by simp [Separated, around, chunkAt])
    ⟨by simp [chunkAt], by simp, by simp, by simp [chunkAt]⟩
    (show 4096 + (40 + 40) ≠ 4216 by decide) (by decide +kernel)

set_option maxRecDepth 100000 in
/-- The footer of a right hole goes on pointing to the hole that is gone. -/
theorem right_footer_stale :
    ¬ Coalesces (GekonOS.kmallocInt 0) (threeKernel false true false) [] none (chunkAt 4096 false)
      (some (chunkAt 4136 true)) [chunkAt 4176 false] := by
  rintro ⟨k', result, wf, _⟩
  have inner : HasNext (threeKernel false true false)
      (mergedHole none (chunkAt 4096 false) (some (chunkAt 4136 true))) :=
    show 4096 + (40 + 40) ≠ 4216 by decide
  have footer := wf.layout.footers _ (by simp) inner
  have points : footerHeader k'.mem (4096 + (40 + 40) - 8) = 4096 := footer.2
  have stale : (free (GekonOS.kmallocInt 0) (4096 + 12) (threeKernel false true false)).map
      (fun k => footerHeader k.mem (4096 + (40 + 40) - 8)) = .ok 4136 := by
    decide +kernel
  change free (GekonOS.kmallocInt 0) (4096 + 12) (threeKernel false true false) = .ok k' at result
  rw [result] at stale
  have found : footerHeader k'.mem (4096 + (40 + 40) - 8) = 4136 := Except.ok.inj stale
  rw [points] at found
  exact absurd found (by decide)

end GekonOS
