import GekonOS.Shared.ByteMemory
import GekonOS.Shared.Transition

set_option autoImplicit false

/-!
# Two-level paging of a 32-bit processor

Code runs in ring 0 without write protection, so that only the present bit of an entry decides.
-/

namespace Mmu

open ByteMemory Transition

def directoryEntry (cr3 page : Nat) : Nat := 4096 * (cr3 / 4096) + 4 * (page / 1024)

def tableEntry (entry page : Nat) : Nat := 4096 * (entry / 4096) + 4 * (page % 1024)

-- the frame of a page
def walk (m : Mem) (cr3 page : Nat) : Option Nat :=
  let entry := read32 m (directoryEntry cr3 page)
  if entry % 2 = 0 then none
  else
    let entry := read32 m (tableEntry entry page)
    if entry % 2 = 0 then none else some (entry / 4096)

/-- The processor, by its physical memory and the translations that it has cached. -/
structure State where
  mem : Mem
  tlb : Nat → Option Nat

def pageOf (address : UInt32) : Nat := address.toNat / 4096

-- the place of an address in its frame
def within (address : UInt32) (frame : Nat) : Nat := 4096 * frame + address.toNat % 4096

def place (m : Mem) (cr3 : Nat) (address : UInt32) : Option Nat :=
  (walk m cr3 (pageOf address)).map (within address)

def State.translate (s : State) (cr3 : Nat) (address : UInt32) : Option Nat :=
  ((s.tlb (pageOf address)).or (walk s.mem cr3 (pageOf address))).map (within address)

inductive Label where
  | load (address : UInt32) (value : UInt8)
  | store (address : UInt32) (value : UInt8)
  | fault (address : UInt32)
deriving DecidableEq

inductive Step (cr3 : Nat) : State → Label → State → Prop
  | load {s : State} {address : UInt32} {p : Nat} : s.translate cr3 address = some p →
      Step cr3 s (.load address (s.mem p)) s
  | store {s : State} {address : UInt32} {p : Nat} {value : UInt8} :
      s.translate cr3 address = some p →
      Step cr3 s (.store address value) { s with mem := Function.update s.mem p value }
  | fault {s : State} {address : UInt32} : s.translate cr3 address = none →
      Step cr3 s (.fault address) s

-- the entries that decide where the pages lie
def Entry (m : Mem) (cr3 e : Nat) : Prop :=
  ∃ page < 1048576, e = directoryEntry cr3 page ∨
    read32 m (directoryEntry cr3 page) % 2 = 1 ∧
      e = tableEntry (read32 m (directoryEntry cr3 page)) page

def EntryByte (m : Mem) (cr3 x : Nat) : Prop := ∃ e, Entry m cr3 e ∧ e ≤ x ∧ x < e + 4

/-- What the processor does on its own: it caches and notes that entries are accessed or dirty. -/
inductive Quiet (cr3 : Nat) : State → State → Prop
  | cache {s : State} {page frame : Nat} : walk s.mem cr3 page = some frame →
      Quiet cr3 s { s with tlb := Function.update s.tlb page (some frame) }
  | evict {s : State} {page : Nat} :
      Quiet cr3 s { s with tlb := Function.update s.tlb page none }
  | mark {s : State} {e : Nat} {bit : UInt8} : Entry s.mem cr3 e → read32 s.mem e % 2 = 1 →
      bit = 0x20 ∨ bit = 0x40 →
      Quiet cr3 s { s with mem := Function.update s.mem e (s.mem e ||| bit) }

-- equal but for the two bits
def SameUnmarked (v w : UInt8) : Prop := v ||| 0x60 = w ||| 0x60

/-- A memory with a cell of its own for each mapped address. -/
inductive Flat (m : Mem) (cr3 : Nat) : (UInt32 → UInt8) → Label → (UInt32 → UInt8) → Prop
  | load {cells : UInt32 → UInt8} {address : UInt32} {p : Nat} :
      place m cr3 address = some p → ¬ Entry m cr3 p →
      Flat m cr3 cells (.load address (cells address)) cells
  | entry {cells : UInt32 → UInt8} {address : UInt32} {p : Nat} {value : UInt8} :
      place m cr3 address = some p → Entry m cr3 p → SameUnmarked value (cells address) →
      Flat m cr3 cells (.load address value) cells
  | store {cells : UInt32 → UInt8} {address : UInt32} {p : Nat} {value : UInt8} :
      place m cr3 address = some p →
      Flat m cr3 cells (.store address value) (Function.update cells address value)
  | fault {cells : UInt32 → UInt8} {address : UInt32} : place m cr3 address = none →
      Flat m cr3 cells (.fault address) cells

-- code that does not write to the tables
def Label.Spares (m : Mem) (cr3 : Nat) : Label → Prop
  | .store address _ => ∀ p, place m cr3 address = some p → ¬ EntryByte m cr3 p
  | _ => True

-- the memory now against that at the start
def Marked (m : Mem) (cr3 : Nat) (m' : Mem) : Prop :=
  ∀ x, EntryByte m cr3 x → SameUnmarked (m' x) (m x) ∧ (¬ Entry m cr3 x → m' x = m x)

variable {m m' : Mem} {cr3 page e x : Nat}

theorem Entry.byte (entry : Entry m cr3 e) : EntryByte m cr3 e := ⟨e, entry, by omega, by omega⟩

theorem Entry.aligned (entry : Entry m cr3 e) : e % 4 = 0 := by
  obtain ⟨page, -, rfl | ⟨-, rfl⟩⟩ := entry
  · unfold directoryEntry
    omega
  · unfold tableEntry
    omega

theorem SameUnmarked.odd {v w : UInt8} (same : SameUnmarked v w) : v.toNat % 2 = w.toNat % 2 := by
  have bits (u : UInt8) : (u ||| 0x60).toNat % 2 = u.toNat % 2 := by
    rw [UInt8.toNat_or, Nat.or_mod_two_pow (n := 1)]
    simp
  rw [← bits v, ← bits w, same]

theorem Marked.read32 (marked : Marked m cr3 m') (entry : Entry m cr3 e) :
    read32 m' e % 2 = read32 m e % 2 ∧ read32 m' e / 4096 = read32 m e / 4096 := by
  have first := (marked e entry.byte).1.odd
  have later (i : Nat) (inside : 0 < i ∧ i < 4) : m' (e + i) = m (e + i) := by
    apply (marked (e + i) ⟨e, entry, by omega, by omega⟩).2
    intro other
    have := other.aligned
    have := entry.aligned
    omega
  have low := (m e).toNat_lt
  have low' := (m' e).toNat_lt
  simp only [ByteMemory.read32, later 1 (by omega), later 2 (by omega), later 3 (by omega)]
  omega

theorem directoryEntry_entry (small : page < 1048576) : Entry m cr3 (directoryEntry cr3 page) :=
  ⟨page, small, Or.inl rfl⟩

theorem tableEntry_congr {v w : Nat} (same : v / 4096 = w / 4096) :
    tableEntry v page = tableEntry w page := by
  rw [tableEntry, same, tableEntry]

theorem Marked.walk (marked : Marked m cr3 m') (small : page < 1048576) :
    walk m' cr3 page = walk m cr3 page := by
  obtain ⟨parity, table⟩ := marked.read32 (directoryEntry_entry small)
  simp only [Mmu.walk, parity, tableEntry_congr table]
  by_cases absent : ByteMemory.read32 m (directoryEntry cr3 page) % 2 = 0
  · rw [if_pos absent, if_pos absent]
  · rw [if_neg absent, if_neg absent]
    obtain ⟨present, frame⟩ := marked.read32 ⟨page, small, Or.inr ⟨by omega, rfl⟩⟩
    rw [present, frame]

theorem Marked.entry (marked : Marked m cr3 m') : Entry m' cr3 e ↔ Entry m cr3 e := by
  unfold Entry
  refine exists_congr fun page => and_congr_right fun small => ?_
  obtain ⟨parity, table⟩ := marked.read32 (directoryEntry_entry small)
  rw [parity, tableEntry_congr table]

theorem Marked.mark (marked : Marked m cr3 m') {bit : UInt8} (entry : Entry m' cr3 e)
    (is : bit = 0x20 ∨ bit = 0x40) :
    Marked m cr3 (Function.update m' e (m' e ||| bit)) := by
  intro x byte
  by_cases here : x = e
  · subst here
    rw [Function.update_self]
    refine ⟨?_, fun other => absurd (marked.entry.mp entry) other⟩
    have before : m' x ||| 0x60 = m x ||| 0x60 := (marked x byte).1
    rw [SameUnmarked, ← before, UInt8.or_assoc]
    rcases is with rfl | rfl <;> rfl
  · rw [Function.update_of_ne here]
    exact marked x byte

theorem pageOf_lt (address : UInt32) : pageOf address < 1048576 := by
  have := address.toNat_lt
  unfold pageOf
  omega

/-- The cells as they lie in the physical memory. -/
structure Realizes (m : Mem) (cr3 : Nat) (s : State) (cells : UInt32 → UInt8) : Prop where
  marked : Marked m cr3 s.mem
  tlb : ∀ page < 1048576, ∀ frame, s.tlb page = some frame → walk m cr3 page = some frame
  entries : ∀ address p, place m cr3 address = some p → EntryByte m cr3 p → cells address = m p
  others : ∀ address p, place m cr3 address = some p → ¬ EntryByte m cr3 p →
    cells address = s.mem p

variable {s t : State} {cells : UInt32 → UInt8} {label : Label}

theorem Realizes.translate (realizes : Realizes m cr3 s cells) (address : UInt32) :
    s.translate cr3 address = place m cr3 address := by
  have small := pageOf_lt address
  rw [State.translate, place, realizes.marked.walk small]
  cases cached : s.tlb (pageOf address) with
  | none => rfl
  | some frame =>
    rw [realizes.tlb _ small frame cached]
    rfl

-- no two addresses share a byte
def Injective (m : Mem) (cr3 : Nat) : Prop :=
  ∀ p < 1048576, ∀ q < 1048576, ∀ frame,
    walk m cr3 p = some frame → walk m cr3 q = some frame → p = q

theorem Injective.place (injective : Injective m cr3) {a b : UInt32} {p : Nat}
    (placeA : place m cr3 a = some p) (placeB : place m cr3 b = some p) : a = b := by
  obtain ⟨frame, walkA, rfl⟩ := Option.map_eq_some_iff.mp placeA
  obtain ⟨frame', walkB, same⟩ := Option.map_eq_some_iff.mp placeB
  unfold within at same
  obtain rfl : frame' = frame := by omega
  have page := injective _ (pageOf_lt a) _ (pageOf_lt b) _ walkA walkB
  unfold pageOf at page
  exact UInt32.toNat_inj.mp (by omega)

theorem Realizes.step (realizes : Realizes m cr3 s cells) (injective : Injective m cr3)
    (spares : label.Spares m cr3) (step : Step cr3 s label t) :
    ∃ cells', Flat m cr3 cells label cells' ∧ Realizes m cr3 t cells' := by
  cases step with
  | load at_ =>
    rename_i address p
    rw [realizes.translate] at at_
    refine ⟨cells, ?_, realizes⟩
    by_cases entry : Entry m cr3 p
    · refine Flat.entry at_ entry ?_
      rw [realizes.entries address p at_ entry.byte]
      exact (realizes.marked p entry.byte).1
    · have same : cells address = s.mem p := by
        by_cases byte : EntryByte m cr3 p
        · rw [realizes.entries address p at_ byte, (realizes.marked p byte).2 entry]
        · exact realizes.others address p at_ byte
      rw [← same]
      exact Flat.load at_ entry
  | store at_ =>
    rename_i address p value
    rw [realizes.translate] at at_
    have outside := spares p at_
    refine ⟨_, Flat.store at_, ?_, realizes.tlb, ?_, ?_⟩
    · intro x byte
      have other : x ≠ p := fun is => outside (is ▸ byte)
      simp only [Function.update_of_ne other]
      exact realizes.marked x byte
    · intro other q at' byte
      have apart : other ≠ address := by
        rintro rfl
        exact spares q at' byte
      rw [Function.update_of_ne apart]
      exact realizes.entries other q at' byte
    · intro other q at' byte
      by_cases same : other = address
      · subst same
        obtain rfl : p = q := Option.some.inj (at_.symm.trans at')
        change Function.update cells other value other = Function.update s.mem p value p
        rw [Function.update_self, Function.update_self]
      · have apart : q ≠ p := fun is => same (injective.place at' (is ▸ at_))
        change Function.update cells address value other = Function.update s.mem p value q
        rw [Function.update_of_ne same, Function.update_of_ne apart]
        exact realizes.others other q at' byte
  | fault at_ =>
    rw [realizes.translate] at at_
    exact ⟨cells, Flat.fault at_, realizes⟩

theorem Realizes.quiet (realizes : Realizes m cr3 s cells) (quiet : Quiet cr3 s t) :
    Realizes m cr3 t cells := by
  cases quiet with
  | cache found =>
    rename_i page frame
    refine ⟨realizes.marked, ?_, realizes.entries, realizes.others⟩
    intro other small frame' cached
    change Function.update s.tlb page (some frame) other = some frame' at cached
    by_cases same : other = page
    · subst same
      rw [Function.update_self] at cached
      rw [← realizes.marked.walk small, found, cached]
    · rw [Function.update_of_ne same] at cached
      exact realizes.tlb other small frame' cached
  | evict =>
    rename_i page
    refine ⟨realizes.marked, ?_, realizes.entries, realizes.others⟩
    intro other small frame' cached
    change Function.update s.tlb page none other = some frame' at cached
    by_cases same : other = page
    · subst same
      rw [Function.update_self] at cached
      cases cached
    · rw [Function.update_of_ne same] at cached
      exact realizes.tlb other small frame' cached
  | mark entry present is =>
    rename_i e bit
    refine ⟨realizes.marked.mark entry is, realizes.tlb, realizes.entries, ?_⟩
    intro address p at_ byte
    have other : p ≠ e := fun same => byte (same ▸ (realizes.marked.entry.mp entry).byte)
    rw [realizes.others address p at_ byte]
    exact (Function.update_of_ne other ..).symm

theorem run_flat (injective : Injective m cr3)
    (start : ∀ address p, place m cr3 address = some p → cells address = m p)
    {steps : List (Option Label)}
    (run : Run (Interleaved (Step cr3) (Quiet cr3)) ⟨m, fun _ => none⟩ steps t)
    (spares : ∀ label, some label ∈ steps → label.Spares m cr3) :
    ∃ cells', Run (Flat m cr3) cells steps.reduceOption cells' ∧ Realizes m cr3 t cells' := by
  induction run with
  | nil =>
    refine ⟨cells, Run.nil, fun x _ => ⟨rfl, fun _ => rfl⟩, ?_, ?_, ?_⟩
    · intro page _ frame cached
      cases cached
    · exact fun address p at_ _ => start address p at_
    · exact fun address p at_ _ => start address p at_
  | @snoc steps s t label earlier taken ih =>
    obtain ⟨cells', before, realizes⟩ :=
      ih fun label member => spares label (List.mem_append_left _ member)
    cases label with
    | none => exact ⟨cells', by simpa [List.reduceOption_append] using before,
        realizes.quiet taken⟩
    | some label =>
      obtain ⟨next, flat, later⟩ := realizes.step injective (spares label (by simp)) taken
      refine ⟨next, ?_, later⟩
      rw [List.reduceOption_append]
      exact before.snoc flat

end Mmu
