import GekonOS.Kernel.Mm
import GekonOS.Shared.Transition
import Mathlib.Order.Interval.Set.Disjoint

set_option autoImplicit false

namespace GekonOS.Placement

open Transition

inductive Request where
  | kmalloc (size : UInt32)
  | kmallocA (size : UInt32)
  | kmallocP (size : UInt32)
  | kmallocAp (size : UInt32)
deriving DecidableEq

def Request.size : Request → Nat
  | .kmalloc size | .kmallocA size | .kmallocP size | .kmallocAp size => size.toNat

def Request.align : Request → Nat
  | .kmalloc _ | .kmallocP _ => 0
  | .kmallocA _ | .kmallocAp _ => 1

def Request.phys : Request → Bool
  | .kmalloc _ | .kmallocA _ => false
  | .kmallocP _ | .kmallocAp _ => true

def Request.call (fuel : Nat) (k : Kernel) : Request → Except Halt (Nat × Option Nat × Kernel)
  | .kmalloc size => GekonOS.kmalloc fuel size.toNat k
  | .kmallocA size => GekonOS.kmallocA fuel size.toNat k
  | .kmallocP size => GekonOS.kmallocP fuel size.toNat k
  | .kmallocAp size => GekonOS.kmallocAp (kmallocInt fuel) size.toNat k

theorem Request.call_eq (fuel : Nat) (k : Kernel) (request : Request) :
    request.call fuel k = kmallocInt fuel request.size request.align request.phys k := by
  cases request <;> rfl

/-- A served request: what was asked, the address returned and the value stored in `*phys`. -/
structure Grant where
  request : Request
  ret : Nat
  phys : Option Nat

def Grant.region (grant : Grant) : Set Nat := Set.Ico grant.ret (grant.ret + grant.request.size)

def Serves (fuel : Nat) (k : Kernel) (grant : Grant) (k' : Kernel) : Prop :=
  grant.request.call fuel k = .ok (grant.ret, grant.phys, k')

-- where the region of a request starts, without reduction to 32 bits
def alignedAddress (placement align : Nat) : Nat :=
  if align = 1 ∧ placement / 4096 ≠ 0 then 4096 * (placement / 4096) + 4096 else placement

/-- Serving this request does not take `placement_address` past the last 32-bit address. -/
def NoWrap (k : Kernel) (grant : Grant) : Prop :=
  alignedAddress k.placementAddress grant.request.align + grant.request.size < 4294967296

theorem alignedAddress_le (placement align : Nat) :
    placement ≤ alignedAddress placement align := by
  unfold alignedAddress
  split <;> omega

theorem kmallocPlacement_correct {size align : Nat} {phys : Bool} {k : Kernel}
    (fits : alignedAddress k.placementAddress align + size < 4294967296) :
    kmallocPlacement size align phys k =
      (alignedAddress k.placementAddress align,
        if phys then some (alignedAddress k.placementAddress align) else none,
        { k with placementAddress := alignedAddress k.placementAddress align + size }) := by
  have small : k.placementAddress < 4294967296 := by
    have := alignedAddress_le k.placementAddress align
    omega
  have nonzero : 4096 * (k.placementAddress / 4096) ≠ 0 ↔ k.placementAddress / 4096 ≠ 0 := by omega
  have moved : (if align = 1 ∧ k.placementAddress &&& 0xFFFFF000 ≠ 0 then
      Word32.add (k.placementAddress &&& 0xFFFFF000) pageSize else k.placementAddress) =
      alignedAddress k.placementAddress align := by
    unfold alignedAddress at fits ⊢
    simp only [Word32.and_page_mask small, nonzero, pageSize]
    split at fits
    next aligned =>
      have inRange : 4096 * (k.placementAddress / 4096) + 4096 < 4294967296 := by omega
      simp only [if_pos aligned, Word32.add_of_lt inRange]
    next unaligned => simp only [if_neg unaligned]
  simp only [kmallocPlacement, moved, Word32.add_of_lt fits]

theorem serves_correct {fuel : Nat} {k k' : Kernel} {grant : Grant} (noHeap : k.kheap = 0)
    (fits : NoWrap k grant) (served : Serves fuel k grant k') :
    grant.ret = alignedAddress k.placementAddress grant.request.align ∧
      grant.phys = (if grant.request.phys then some grant.ret else none) ∧
      k'.placementAddress = grant.ret + grant.request.size ∧ k'.kheap = 0 := by
  unfold Serves at served
  rw [Request.call_eq, kmallocInt_placement _ _ _ _ noHeap, kmallocPlacement_correct fits] at served
  simp only [Except.ok.injEq, Prod.mk.injEq] at served
  obtain ⟨ret, phys, state⟩ := served
  rw [← ret, ← phys, ← state]
  exact ⟨rfl, rfl, rfl, noHeap⟩

/-- What a run of requests from placement address `base` keeps true of its grants. -/
structure Invariant (base : Nat) (k : Kernel) (grants : List Grant) : Prop where
  noHeap : k.kheap = 0
  above : base ≤ k.placementAddress
  inside : ∀ grant ∈ grants,
    base ≤ grant.ret ∧ grant.ret + grant.request.size ≤ k.placementAddress
  ordered : grants.Pairwise (fun g h => g.ret + g.request.size ≤ h.ret)
  aligned : ∀ grant ∈ grants, grant.request.align = 1 → grant.ret % 4096 = 0
  physical : ∀ grant ∈ grants, grant.request.phys = true → grant.phys = some grant.ret

theorem Invariant.step {fuel base : Nat} {k k' : Kernel} {grants : List Grant} {grant : Grant}
    (inv : Invariant base k grants) (low : 4096 ≤ base) (fits : NoWrap k grant)
    (served : Serves fuel k grant k') : Invariant base k' (grants ++ [grant]) := by
  obtain ⟨ret, phys, placement, noHeap⟩ := serves_correct inv.noHeap fits served
  have moved := alignedAddress_le k.placementAddress grant.request.align
  have above := inv.above
  have onPage : grant.request.align = 1 → grant.ret % 4096 = 0 := by
    intro align
    rw [ret, alignedAddress, if_pos ⟨align, by omega⟩]
    omega
  constructor
  case noHeap => exact noHeap
  case above => omega
  case inside =>
    intro g member
    cases List.mem_append.mp member with
    | inl earlier =>
      have := inv.inside g earlier
      omega
    | inr last =>
      obtain rfl : g = grant := by simpa using last
      omega
  case ordered =>
    refine List.pairwise_append.mpr ⟨inv.ordered, List.pairwise_singleton _ _, ?_⟩
    intro g earlier h last
    obtain rfl : h = grant := by simpa using last
    have := inv.inside g earlier
    omega
  case aligned =>
    intro g member
    cases List.mem_append.mp member with
    | inl earlier => exact inv.aligned g earlier
    | inr last =>
      obtain rfl : g = grant := by simpa using last
      exact onPage
  case physical =>
    intro g member asked
    cases List.mem_append.mp member with
    | inl earlier => exact inv.physical g earlier asked
    | inr last =>
      obtain rfl : g = grant := by simpa using last
      rw [phys, if_pos asked]

theorem run_invariant {fuel base : Nat} {start k : Kernel} {grants : List Grant}
    (low : 4096 ≤ base) (noHeap : start.kheap = 0) (initial : start.placementAddress = base)
    (run : Run (Guarded NoWrap (Serves fuel)) start grants k) : Invariant base k grants := by
  induction run with
  | nil =>
    exact ⟨noHeap, by omega, by simp, List.Pairwise.nil, by simp, by simp⟩
  | snoc _ step ih => exact ih.step low step.1 step.2

def initialPlacement : Nat := 0x200000

/--
While there is no heap, the regions handed out from the initial `placement_address` never overlap
and stay below the current one; aligned requests start on a page and `*phys` is the address.
-/
theorem regions_disjoint (fuel : Nat) (start k : Kernel) (grants : List Grant)
    (noHeap : start.kheap = 0) (initial : start.placementAddress = initialPlacement)
    (run : Run (Guarded NoWrap (Serves fuel)) start grants k) :
    grants.Pairwise (fun g h => Disjoint g.region h.region) ∧
      (∀ grant ∈ grants, initialPlacement ≤ grant.ret ∧
        grant.ret + grant.request.size ≤ k.placementAddress) ∧
      (∀ grant ∈ grants, grant.request.align = 1 → grant.ret % 4096 = 0) ∧
      (∀ grant ∈ grants, grant.request.phys = true → grant.phys = some grant.ret) := by
  have inv := run_invariant (show 4096 ≤ initialPlacement by decide) noHeap initial run
  refine ⟨?_, inv.inside, inv.aligned, inv.physical⟩
  refine inv.ordered.imp ?_
  intro g h before
  exact Set.disjoint_left.mpr fun x inG inH => by
    have upper := inG.2
    have lower := inH.1
    omega

-- eight bytes, then a page with its physical address
def twoGrants : List Grant :=
  [⟨.kmalloc 8, 0x200000, none⟩, ⟨.kmallocAp 4096, 0x201000, some 0x201000⟩]

theorem twoGrants_run : Run (Guarded NoWrap (Serves 0)) Kernel.boot twoGrants
    { Kernel.boot with placementAddress := 0x202000 } := by
  refine Run.cons (t := { Kernel.boot with placementAddress := 0x200008 }) ⟨?_, ?_⟩
    (Run.cons (t := { Kernel.boot with placementAddress := 0x202000 }) ⟨?_, ?_⟩ Run.nil)
  · unfold NoWrap
    decide
  · rfl
  · unfold NoWrap
    decide
  · rfl

theorem regions_disjoint_twoGrants :
    twoGrants.Pairwise (fun g h => Disjoint g.region h.region) :=
  (regions_disjoint 0 Kernel.boot { Kernel.boot with placementAddress := 0x202000 } twoGrants rfl
    rfl twoGrants_run).1

end GekonOS.Placement
