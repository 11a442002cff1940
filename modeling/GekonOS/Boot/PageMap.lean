import GekonOS.Boot.Tables
import GekonOS.Frames.Bitmap

set_option autoImplicit false

namespace GekonOS.PageMap

open Transition

inductive Getter where
  | getPage
  | setPage
deriving DecidableEq

def Getter.call (fuel : Nat) : Getter → Nat → Kernel → Except Halt (Nat × Kernel)
  | .getPage => GekonOS.getPage (kmallocInt fuel)
  | .setPage => GekonOS.setPage (kmallocInt fuel)

theorem Getter.call_eq (fuel : Nat) (getter : Getter) (address : Nat) (k : Kernel) :
    getter.call fuel address k = GekonOS.getPage (kmallocInt fuel) address k := by
  cases getter with
  | getPage => rfl
  | setPage => exact setPage_eq_getPage _ _ _

/-- An answered access: the address and the `page_t` pointer returned. -/
structure Access where
  address : UInt32
  ret : Nat

-- the upper 20 bits
def Access.page (access : Access) : Nat := access.address.toNat / 4096

inductive Call where
  | access (getter : Getter) (address : UInt32)
  | allocFrame (page isKernel isWriteable : Nat)
  | freeFrame (page : Nat)

structure Session where
  kernel : Kernel
  accesses : List Access

def Step (fuel : Nat) (s : Session) : Call → Session → Prop
  | .access getter address, s' => ∃ ret,
      getter.call fuel address.toNat s.kernel = .ok (ret, s'.kernel) ∧
        s'.accesses = s.accesses ++ [⟨address, ret⟩]
  | .allocFrame page isKernel isWriteable, s' =>
      s' = { s with kernel := (GekonOS.allocFrame page isKernel isWriteable s.kernel).2 }
  | .freeFrame page, s' => s' = { s with kernel := GekonOS.freeFrame page s.kernel }

/-- Writes go through returned pointers, and the placement address does not wrap. -/
def Allowed (s : Session) : Call → Prop
  | .access _ address => ¬ s.kernel.HasTable (address.toNat / 4096) → TableFits s.kernel
  | .allocFrame page _ _ => ∃ access ∈ s.accesses, access.ret = page
  | .freeFrame page => ∃ access ∈ s.accesses, access.ret = page

structure Invariant (base : Nat) (s : Session) : Prop where
  tables : Tables base s.kernel
  returned : ∀ access ∈ s.accesses,
    s.kernel.HasTable access.page ∧ access.ret = s.kernel.entryOf access.page
  untouched : ∀ page, s.kernel.HasTable page → (∀ access ∈ s.accesses, access.page ≠ page) →
    s.kernel.pages (s.kernel.entryOf page) = Page.zero

variable {base fuel : Nat} {s s' : Session}

theorem Invariant.write (inv : Invariant base s) {pointer : Nat}
    (known : ∃ access ∈ s.accesses, access.ret = pointer) (frames : Nat → BitVec 32)
    (entry : Page) : Invariant base { s with kernel := { s.kernel with
      frames := frames, pages := Function.update s.kernel.pages pointer entry } } := by
  obtain ⟨access, member, same⟩ := known
  obtain ⟨has, ret⟩ := inv.returned access member
  constructor
  case tables =>
    have tables := inv.tables
    exact ⟨tables.noHeap, tables.low, tables.absent, tables.aligned, tables.inside,
      tables.physical, tables.apart⟩
  case returned => exact inv.returned
  case untouched =>
    intro page hasPage unseen
    have apart : s.kernel.entryOf page ≠ pointer := by
      intro equal
      apply unseen access member
      apply inv.tables.entryOf_injective has hasPage
      rw [equal, ← same, ret]
    exact (Function.update_of_ne apart ..).trans (inv.untouched page hasPage unseen)

theorem Invariant.access (inv : Invariant base s) (floor : 4096 ≤ base) {getter : Getter}
    {address : UInt32} (allowed : Allowed s (.access getter address)) {ret : Nat} {k : Kernel}
    (called : getter.call fuel address.toNat s.kernel = .ok (ret, k)) :
    Invariant base { kernel := k, accesses := s.accesses ++ [⟨address, ret⟩] } := by
  rw [Getter.call_eq] at called
  obtain ⟨k', result, tables, has, cases_⟩ :=
    getPage_correct fuel address.toNat inv.tables floor allowed
  rw [result] at called
  obtain ⟨rfl, rfl⟩ := Prod.mk.inj (Except.ok.inj called)
  have kept (page : Nat) (hasPage : s.kernel.HasTable page) : k'.HasTable page ∧
      k'.entryOf page = s.kernel.entryOf page ∧
      k'.pages (s.kernel.entryOf page) = s.kernel.pages (s.kernel.entryOf page) := by
    rcases cases_ with ⟨-, rfl⟩ | ⟨absent, rfl⟩
    · exact ⟨hasPage, rfl, rfl⟩
    · exact inv.tables.entry_withTable floor absent hasPage
  constructor
  case tables => exact tables
  case returned =>
    intro a member
    cases List.mem_append.mp member with
    | inl earlier =>
      obtain ⟨hasPage, pointer⟩ := inv.returned a earlier
      exact ⟨(kept _ hasPage).1, pointer.trans (kept _ hasPage).2.1.symm⟩
    | inr last =>
      obtain rfl : a = _ := by simpa using last
      exact ⟨has, rfl⟩
  case untouched =>
    intro page hasPage unseen
    by_cases before : s.kernel.HasTable page
    · rw [(kept page before).2.1, (kept page before).2.2]
      exact inv.untouched page before fun a member => unseen a (List.mem_append_left _ member)
    · rcases cases_ with ⟨-, rfl⟩ | ⟨absent, rfl⟩
      · exact absurd hasPage before
      · have table := (inv.tables.holds_withTable floor _ _).mp hasPage
        exact (Tables.zero_withTable s.kernel (table.resolve_right before)).2

theorem Invariant.step (inv : Invariant base s) (floor : 4096 ≤ base) {call : Call}
    (allowed : Allowed s call) (taken : Step fuel s call s') : Invariant base s' := by
  cases call with
  | access getter address =>
    obtain ⟨ret, called, accesses⟩ := taken
    have kept := inv.access floor allowed called
    rwa [← accesses] at kept
  | allocFrame page isKernel isWriteable =>
    obtain rfl := taken
    obtain ⟨frames, entry, result⟩ := allocFrame_entry page isKernel isWriteable s.kernel
    rw [result]
    exact inv.write allowed frames entry
  | freeFrame page =>
    obtain rfl := taken
    obtain ⟨frames, entry, result⟩ := freeFrame_entry page s.kernel
    rw [result]
    exact inv.write allowed frames entry

/-- No heap yet, a zeroed directory, nothing accessed. -/
structure Start (s : Session) : Prop where
  noHeap : s.kernel.kheap = 0
  physical : ∀ i, s.kernel.directory.tablesPhysical i = 0
  tables : ∀ i, s.kernel.directory.tables i = 0
  placement : 0x200000 ≤ s.kernel.placementAddress
  accesses : s.accesses = []

theorem Start.invariant (start : Start s) : Invariant 0x200000 s := by
  have nothing (i : Nat) : ¬ s.kernel.directory.Holds i := fun holds => holds.2 (start.tables i)
  refine ⟨⟨start.noHeap, start.placement, fun i _ => start.physical i, ?_, ?_, ?_, ?_⟩, ?_, ?_⟩
  · exact fun i holds => absurd holds (nothing i)
  · exact fun i holds => absurd holds (nothing i)
  · exact fun i holds => absurd holds (nothing i)
  · exact fun i _ holds => absurd holds (nothing i)
  · simp [start.accesses]
  · exact fun page has => absurd has (nothing _)

/--
In every reachable state: pointers are equal exactly for equal page numbers, whichever function
returned them; a directory entry marked present holds the table's address; an access always
succeeds, returns a zero entry the first time, and changes no entry of a page with a table.
-/
theorem tables_are_map (fuel : Nat) (start s : Session) (calls : List Call) (initial : Start start)
    (run : Run (Guarded Allowed (Step fuel)) start calls s) :
    (∀ a ∈ s.accesses, ∀ b ∈ s.accesses, a.ret = b.ret ↔ a.page = b.page) ∧
    (∀ i, s.kernel.directory.tablesPhysical i &&& 1 ≠ 0 →
      s.kernel.directory.tables i ≠ 0 ∧
        4096 * (s.kernel.directory.tablesPhysical i / 4096) = s.kernel.directory.tables i) ∧
    (∀ getter address, Allowed s (.access getter address) →
      ∃ ret k, getter.call fuel address.toNat s.kernel = .ok (ret, k) ∧
        ((∀ a ∈ s.accesses, a.page ≠ address.toNat / 4096) → k.pages ret = Page.zero) ∧
        ∀ page, s.kernel.HasTable page → k.entryOf page = s.kernel.entryOf page ∧
          k.pages (s.kernel.entryOf page) = s.kernel.pages (s.kernel.entryOf page)) := by
  have inv : Invariant 0x200000 s := by
    induction run with
    | nil => exact initial.invariant
    | snoc _ taken ih => exact ih.step (by decide) taken.1 taken.2
  refine ⟨?_, ?_, ?_⟩
  · intro a inA b inB
    obtain ⟨hasA, retA⟩ := inv.returned a inA
    obtain ⟨hasB, retB⟩ := inv.returned b inB
    rw [retA, retB]
    constructor
    · exact inv.tables.entryOf_injective hasA hasB
    · intro same
      rw [same]
  · intro i present
    have holds : s.kernel.directory.Holds i := by
      by_contra absent
      simp [inv.tables.absent i absent] at present
    have aligned := inv.tables.aligned i holds
    rw [inv.tables.physical i holds]
    exact ⟨holds.2, by omega⟩
  · intro getter address allowed
    obtain ⟨k, result, -, has, cases_⟩ :=
      getPage_correct fuel address.toNat inv.tables (by decide) allowed
    rw [Getter.call_eq]
    refine ⟨_, k, result, ?_, ?_⟩
    · intro unseen
      rcases cases_ with ⟨present, rfl⟩ | ⟨absent, rfl⟩
      · exact inv.untouched _ present unseen
      · exact (Tables.zero_withTable s.kernel rfl).2
    · intro page hasPage
      rcases cases_ with ⟨-, rfl⟩ | ⟨absent, rfl⟩
      · exact ⟨rfl, rfl⟩
      · exact (inv.tables.entry_withTable (by decide) absent hasPage).2

-- one page through both functions, with a frame given to it in between
def onePage : List Call :=
  [.access .getPage 0x1234, .allocFrame 0x201004 0 0, .access .setPage 0x1FFF]

def onePageEnd : Session :=
  { kernel := (GekonOS.allocFrame 0x201004 0 0 (Kernel.boot.withTable 1)).2
    accesses := [⟨0x1234, 0x201004⟩, ⟨0x1FFF, 0x201004⟩] }

theorem onePage_run : Run (Guarded Allowed (Step 0)) ⟨Kernel.boot, []⟩ onePage onePageEnd := by
  refine Run.cons (t := ⟨Kernel.boot.withTable 1, [⟨0x1234, 0x201004⟩]⟩) ⟨?_, ?_⟩
    (Run.cons (t := ⟨onePageEnd.kernel, [⟨0x1234, 0x201004⟩]⟩) ⟨?_, ?_⟩
      (Run.cons (t := onePageEnd) ⟨?_, ?_⟩ Run.nil))
  · intro _
    unfold TableFits
    decide
  · exact ⟨_, rfl, rfl⟩
  · exact ⟨⟨0x1234, 0x201004⟩, by simp, rfl⟩
  · rfl
  · intro absent
    exact absurd (by decide) absent
  · exact ⟨_, rfl, rfl⟩

theorem tables_are_map_onePage : onePageEnd.accesses.length = 2 ∧
    ∀ a ∈ onePageEnd.accesses, ∀ b ∈ onePageEnd.accesses, a.ret = b.ret ↔ a.page = b.page :=
  ⟨rfl, (tables_are_map 0 ⟨Kernel.boot, []⟩ onePageEnd onePage
    ⟨rfl, fun _ => rfl, fun _ => rfl, by decide, rfl⟩ onePage_run).1⟩

end GekonOS.PageMap
