import GekonOS.Kernel.Interrupt

set_option autoImplicit false

namespace GekonOS.Stubs

open X86 Cpu

variable {c : Cpu} {n : Nat}

-- what is on the stack when the handler is called, in the order in which it is pushed
def savedWords (c : Cpu) : List Word :=
  (popaOrder.map c.regs).reverse ++ [setLow (c.regs .eax) (c.segs .ds)] ++ [c.esp - 36]

theorem saveState_pushed (c : Cpu) : Pushed (savedWords c) c (c.run saveState) := by
  have length : (popaOrder.map c.regs).reverse.length = 8 := by simp [popaOrder]
  have general : Pushed (popaOrder.map c.regs).reverse c (c.exec .pusha) :=
    pushAll_pushed c (by omega)
  have other : Reg.eax ≠ .esp := by decide
  have eax : (c.exec .pusha).regs .eax = c.regs .eax := pushAll_regs c _ other
  have ds : (c.exec .pusha).segs = c.segs := pushAll_segs c _
  rw [saveState, run_cons]
  generalize c.exec .pusha = d at general eax ds
  have lower := (general.setReg other (setLow (d.regs .eax) (d.segs .ds))).push
    (setLow (d.regs .eax) (d.segs .ds)) (by omega)
  have height := lower.esp
  rw [List.length_append, length] at height
  have words : savedWords c = (popaOrder.map c.regs).reverse ++
      [setLow (d.regs .eax) (d.segs .ds)] ++ [((d.setReg .eax (setLow (d.regs .eax)
        (d.segs .ds))).push (setLow (d.regs .eax) (d.segs .ds))).esp] := by
    rw [height, eax, ds]
    rfl
  rw [words]
  simp only [run_cons, run_nil, exec, setReg_same]
  exact ((((((lower.setReg other _).setSeg _ _).setSeg _ _).setSeg _ _).setSeg _ _).push _
    (by simp [length])).setFlags _

/-! ## What is restored -/

-- the words behind the argument of the handler
def frameWords (ds : Word) (saved : Reg → Word) (intNo errCode eip cs eflags : Word) : List Word :=
  ds :: popaOrder.map saved ++ [intNo, errCode, eip, cs, eflags]

/-- What the common stub makes of the stack that it finds. -/
structure Restored (ds : Word) (saved : Reg → Word) (eip cs eflags : Word) (c e : Cpu) : Prop where
  regs : ∀ r, r ≠ .esp → e.regs r = saved r
  esp : e.esp = c.esp + 60
  data : ∀ s ∈ [Seg.ds, .es, .fs, .gs], e.segs s = ds.extractLsb' 0 16
  code : e.segs .cs = cs.extractLsb' 0 16
  stackSeg : e.segs .ss = c.segs .ss
  eip : e.eip = eip
  eflags : e.eflags = eflags
  mem : e.mem = c.mem
  tables : e.gdtr = c.gdtr ∧ e.idtr = c.idtr

theorem restoreState_restored {scratch : Reg} (other : scratch ≠ .esp) {ds : Word}
    {saved : Reg → Word} {intNo errCode eip cs eflags : Word}
    (stack : c.drop.stack 14 = frameWords ds saved intNo errCode eip cs eflags) :
    Restored ds saved eip cs eflags c (c.run (restoreState scratch)) := by
  rw [← stack_setReg other c.top] at stack
  obtain ⟨popped, rest⟩ := pop_stack (c := c.popReg scratch) other stack
  have height : ((c.popReg scratch).popReg scratch).esp = c.esp + 8 := by
    rw [popReg_esp other, popReg_esp other]
    bv_omega
  have segment : ((c.popReg scratch).popReg scratch).regs scratch = ds := by
    rw [popped, setReg_same]
  have segs : ((c.popReg scratch).popReg scratch).segs = c.segs := rfl
  have mem : ((c.popReg scratch).popReg scratch).mem = c.mem := rfl
  have tables : ((c.popReg scratch).popReg scratch).gdtr = c.gdtr ∧
      ((c.popReg scratch).popReg scratch).idtr = c.idtr := ⟨rfl, rfl⟩
  rw [restoreState, run_cons, run_cons]
  change Restored ds saved eip cs eflags c (((c.popReg scratch).popReg scratch).run _)
  generalize (c.popReg scratch).popReg scratch = d at rest height segment segs mem tables ⊢
  let low : BitVec 16 := ds.extractLsb' 0 16
  let loaded := (((d.setSeg .ds low).setSeg .es low).setSeg .fs low).setSeg .gs low
  have data : ∀ s ∈ [Seg.ds, .es, .fs, .gs], loaded.segs s = low := by
    intro s member
    simp only [List.mem_cons, List.not_mem_nil, or_false] at member
    rcases member with rfl | rfl | rfl | rfl <;> simp [loaded]
  have stackSeg : loaded.segs .ss = c.segs .ss := by simp [loaded, segs]
  have run : d.run [.movToSeg .ds scratch, .movToSeg .es scratch, .movToSeg .fs scratch,
      .movToSeg .gs scratch, .popa, .addImm .esp 8, .iret] =
      (((loaded.exec .popa).exec (.addImm .esp 8)).exec .iret) := by
    simp only [run_cons, run_nil, exec_movToSeg, setSeg_regs, segment, loaded, low]
  rw [run]
  have words : loaded.stack (8 + 5) = popaOrder.map saved ++ [intNo, errCode, eip, cs, eflags] := rest
  have place : loaded.esp = c.esp + 8 := height
  have memory : loaded.mem = c.mem := mem
  have registers : loaded.gdtr = c.gdtr ∧ loaded.idtr = c.idtr := tables
  obtain ⟨left, below, general, same⟩ := popa_stack words
  generalize loaded = f at left below general same data stackSeg place memory registers ⊢
  rw [place] at below
  have fsegs : (f.exec .popa).segs = f.segs := by rw [same]
  have fmem : (f.exec .popa).mem = f.mem := by rw [same]
  have ftables : (f.exec .popa).gdtr = f.gdtr ∧ (f.exec .popa).idtr = f.idtr := by
    rw [same]
    exact ⟨rfl, rfl⟩
  generalize f.exec .popa = e at left below general fsegs fmem ftables ⊢
  obtain ⟨remaining, above, kept, flags, shape⟩ := addEsp_stack left
  have gsegs : (e.exec (.addImm .esp 8)).segs = f.segs := by rw [shape, fsegs]
  have gmem : (e.exec (.addImm .esp 8)).mem = f.mem := by rw [shape, fmem]
  have gtables : (e.exec (.addImm .esp 8)).gdtr = f.gdtr ∧
      (e.exec (.addImm .esp 8)).idtr = f.idtr := by rwa [shape]
  generalize e.exec (.addImm .esp 8) = g at remaining above kept gsegs gmem gtables ⊢
  obtain ⟨-, returned⟩ := iret_stack remaining
  rw [returned]
  constructor
  case regs =>
    intro r ne
    change Function.update g.regs .esp (g.esp + 12) r = _
    rw [Function.update_of_ne ne, kept r ne, general r ne]
  case esp =>
    change Function.update g.regs .esp (g.esp + 12) .esp = _
    rw [Function.update_self, above, below]
    bv_omega
  case data =>
    intro s member
    have code : s ≠ .cs := by
      rintro rfl
      simp at member
    change Function.update g.segs .cs (cs.extractLsb' 0 16) s = _
    rw [Function.update_of_ne code, gsegs]
    exact data s member
  case code =>
    change Function.update g.segs .cs (cs.extractLsb' 0 16) .cs = _
    rw [Function.update_self]
  case stackSeg =>
    have code : Seg.ss ≠ .cs := by decide
    change Function.update g.segs .cs (cs.extractLsb' 0 16) .ss = _
    rw [Function.update_of_ne code, gsegs, stackSeg]
  case eip => rfl
  case eflags => rfl
  case mem => exact gmem.trans memory
  case tables => exact ⟨gtables.1.trans registers.1, gtables.2.trans registers.2⟩

/-! ## One interrupt -/

/-- The state behind a common stub: nothing but what the handler owns and some stack has changed. -/
structure Returns (owned : Set Word) (depth : Nat) (eip cs eflags : Word) (c f : Cpu) : Prop where
  regs : ∀ r, r ≠ .esp → f.regs r = c.regs r
  esp : f.esp = c.esp + 20
  data : ∀ s ∈ [Seg.ds, .es, .fs, .gs], f.segs s = c.segs .ds
  code : f.segs .cs = cs.extractLsb' 0 16
  stackSeg : f.segs .ss = c.segs .ss
  eip : f.eip = eip
  eflags : f.eflags = eflags
  tables : f.gdtr = c.gdtr ∧ f.idtr = c.idtr
  frame : Set.EqOn f.mem c.mem (owned ∪ Below c.esp (44 + depth))ᶜ

section Handler

variable {routine : Cpu → Cpu} {owned : Set Word} {depth : Nat} {back : Word}

theorem commonStub_returns (cdecl : Cdecl routine owned depth) (few : depth ≤ 2147483648)
    (apart : Disjoint owned (Above (c.esp - 36) 56)) {scratch : Reg} (other : scratch ≠ .esp)
    {intNo errCode eip cs eflags : Word}
    (stack : c.stack 5 = [intNo, errCode, eip, cs, eflags]) :
    Returns owned depth eip cs eflags c
      (c.run (saveState ++ .call back routine :: restoreState scratch)) := by
  have saved := saveState_pushed c
  have ss : (c.run saveState).segs .ss = c.segs .ss := by simp [saveState, exec]
  have length : (savedWords c).length = 10 := by simp [savedWords, popaOrder]
  have words := saved.stack 5 (by omega)
  have height := saved.esp
  rw [length, stack] at words
  rw [length] at height
  rw [run_append, run_cons]
  generalize c.run saveState = e at saved ss words height ⊢
  have lower : e.esp + 4 = c.esp - 36 := by
    rw [height]
    bv_omega
  have kept := cdecl.stack (c := e) (n := 14) back (by omega) (by rwa [lower])
  rw [stack_drop] at words
  have frame : e.drop.stack 14 = frameWords (setLow (c.regs .eax) (c.segs .ds)) c.regs intNo
      errCode eip cs eflags := (List.cons.inj words).2
  rw [frame] at kept
  have restored := restoreState_restored other kept
  have called := cdecl.call_esp e back
  have memory := cdecl.call_frame e back (by omega)
  have segs : (e.exec (.call back routine)).segs = e.segs := cdecl.segs (e.push back)
  have tables : (e.exec (.call back routine)).gdtr = e.gdtr ∧
      (e.exec (.call back routine)).idtr = e.idtr := cdecl.tables (e.push back)
  generalize e.exec (.call back routine) = f at restored called memory segs tables ⊢
  constructor
  case regs => exact restored.regs
  case esp =>
    rw [restored.esp, called, height]
    bv_omega
  case data =>
    intro s member
    rw [restored.data s member, setLow_low]
  case code => exact restored.code
  case stackSeg => rw [restored.stackSeg, segs, ss]
  case eip => exact restored.eip
  case eflags => exact restored.eflags
  case tables =>
    exact ⟨restored.tables.1.trans (tables.1.trans saved.tables.1),
      restored.tables.2.trans (tables.2.trans saved.tables.2)⟩
  case frame =>
    rw [restored.mem]
    refine (memory.mono ?_).trans (saved.frame.mono ?_)
    · rintro x outside (inOwned | below)
      · exact outside (Or.inl inOwned)
      · apply outside
        right
        rw [lower] at below
        rw [mem_below] at below ⊢
        bv_omega
    · intro x outside below
      apply outside
      right
      rw [length] at below
      rw [mem_below] at below ⊢
      omega

end Handler

/-! ## The vectors -/

-- a stub that pushes nothing but its number leaves the error code to the processor
def expectsErrorCode (intNo : Nat) : Bool := (stubPushes intNo).length == 1

def dummyCode (intNo : Nat) : Word :=
  if intNo < 32 then 0 else BitVec.ofNat 32 (intNo - 32)

theorem stubPushes_words : ∀ intNo < 48, (stubPushes intNo).map (BitVec.signExtend 32) =
    (if expectsErrorCode intNo then [] else [dummyCode intNo]) ++ [BitVec.ofNat 32 intNo] := by
  decide

-- the state in front of the common stub
def entered (c : Cpu) (selector : BitVec 16) (offset : Word) (errorCode : Option Word)
    (intNo : Nat) : Cpu :=
  (c.interrupt selector offset errorCode).run ((stubPushes intNo).map .pushImm)

section Entered

variable {intNo : Nat} {selector : BitVec 16} {offset : Word} {errorCode : Option Word}

theorem entered_pushed (c : Cpu) (vector : intNo < 48) :
    Pushed ([c.eflags, (c.segs .cs).setWidth 32, c.eip] ++ errorCode.toList ++
      ((if expectsErrorCode intNo then [] else [dummyCode intNo]) ++ [BitVec.ofNat 32 intNo])) c
      (entered c selector offset errorCode intNo) := by
  rw [← stubPushes_words intNo vector, entered, run_pushImm]
  have number : ((stubPushes intNo).map (BitVec.signExtend 32)).length ≤ 2 := by
    rw [stubPushes_words intNo vector]
    split <;> simp
  refine (interrupt_pushed c selector offset errorCode).trans (pushAll_pushed _ (by omega)) ?_
  rw [List.length_append]
  cases errorCode <;> simp only [Option.toList, List.length_append, List.length_cons,
    List.length_nil] <;> omega

theorem entered_regs (c : Cpu) {r : Reg} (other : r ≠ .esp) :
    (entered c selector offset errorCode intNo).regs r = c.regs r := by
  rw [entered, run_pushImm, pushAll_regs _ _ other, interrupt_regs c _ _ _ other]

theorem entered_segs (c : Cpu) {s : Seg} (other : s ≠ .cs) :
    (entered c selector offset errorCode intNo).segs s = c.segs s := by
  rw [entered, run_pushImm, pushAll_segs, interrupt_segs c _ _ _ other]

-- the error code is pushed once, by the processor or by the stub
theorem entered_words (c : Cpu) (vector : intNo < 48)
    (expected : errorCode.isSome = expectsErrorCode intNo) :
    Pushed [c.eflags, (c.segs .cs).setWidth 32, c.eip, errorCode.getD (dummyCode intNo),
      BitVec.ofNat 32 intNo] c (entered c selector offset errorCode intNo) := by
  have pushed : Pushed _ c (entered c selector offset errorCode intNo) := entered_pushed c vector
  rw [← expected] at pushed
  cases errorCode with
  | none => exact pushed
  | some code => exact pushed

/--
The handler is passed a pointer to the interrupted state: the number of its vector, an error code
that is the processor's where it gives one, and the registers as they were. The last two fields are
whatever the interrupted code has on its stack, since the privilege level does not change.
-/
theorem handler_reads_state (c : Cpu) (vector : intNo < 48)
    (expected : errorCode.isSome = expectsErrorCode intNo) :
    Registers.read ((entered c selector offset errorCode intNo).run saveState).mem
      ((entered c selector offset errorCode intNo).run saveState).top =
    { ds := setLow (c.regs .eax) (c.segs .ds)
      edi := c.regs .edi, esi := c.regs .esi, ebp := c.regs .ebp, useless := c.esp - 20
      ebx := c.regs .ebx, edx := c.regs .edx, ecx := c.regs .ecx, eax := c.regs .eax
      intNo := BitVec.ofNat 32 intNo, errCode := errorCode.getD (dummyCode intNo)
      eip := c.eip, cs := (c.segs .cs).setWidth 32, eflags := c.eflags
      esp := read32 c.mem c.esp, ss := read32 c.mem (c.esp + 4) } := by
  have arrived : Pushed _ c (entered c selector offset errorCode intNo) :=
    entered_words c vector expected
  have regs {r : Reg} (other : r ≠ .esp) :
      (entered c selector offset errorCode intNo).regs r = c.regs r := entered_regs c other
  have ds : (entered c selector offset errorCode intNo).segs .ds = c.segs .ds :=
    entered_segs c (by decide)
  generalize entered c selector offset errorCode intNo = d at arrived regs ds ⊢
  have saved := saveState_pushed d
  have height := arrived.esp
  have height' := saved.esp
  have words := saved.stack (5 + 2) (by simp [savedWords, popaOrder])
  have below := arrived.stack 2 (by simp)
  have length : (savedWords d).length = 10 := by simp [savedWords, popaOrder]
  rw [length] at words height'
  simp only [List.length_cons, List.length_nil] at height below
  have old : c.stack 2 = [read32 c.mem c.esp, read32 c.mem (c.esp + 4)] := by
    simp [Cpu.stack, List.range_succ]
  rw [below, old] at words
  generalize d.run saveState = e at words height' ⊢
  rw [stack_drop] at words
  obtain ⟨top, rest⟩ := List.cons.inj words
  have lowest : d.regs .esp = c.esp - 20 := height
  have place : e.top = e.drop.esp := by
    rw [top, drop_esp, height']
    bv_omega
  have fields : (List.range 16).map (fun i => read32 e.mem (e.drop.esp + BitVec.ofNat 32 (4 * i))) =
      [setLow (c.regs .eax) (c.segs .ds), c.regs .edi, c.regs .esi, c.regs .ebp, c.esp - 20,
        c.regs .ebx, c.regs .edx, c.regs .ecx, c.regs .eax, BitVec.ofNat 32 intNo,
        errorCode.getD (dummyCode intNo), c.eip, (c.segs .cs).setWidth 32, c.eflags,
        read32 c.mem c.esp, read32 c.mem (c.esp + 4)] := by
    rw [← lowest, ← regs (show Reg.eax ≠ .esp by decide), ← regs (show Reg.edi ≠ .esp by decide),
      ← regs (show Reg.esi ≠ .esp by decide), ← regs (show Reg.ebp ≠ .esp by decide),
      ← regs (show Reg.ebx ≠ .esp by decide), ← regs (show Reg.edx ≠ .esp by decide),
      ← regs (show Reg.ecx ≠ .esp by decide), ← ds]
    exact rest
  rw [place]
  generalize e.drop.esp = r at fields ⊢
  simp only [List.range_succ, List.range_zero, List.nil_append, List.cons_append, List.map_cons,
    List.map_nil, List.cons.injEq, and_true] at fields
  simpa only [Registers.read, Registers.mk.injEq] using fields

end Entered

/-- What the interrupted code finds when it goes on. -/
structure Resumes (owned : Set Word) (depth : Nat) (c f : Cpu) : Prop where
  regs : f.regs = c.regs
  eip : f.eip = c.eip
  eflags : f.eflags = c.eflags
  segs : ∀ s ∈ [Seg.cs, .ss, .ds], f.segs s = c.segs s
  -- the other data segments are lost
  data : ∀ s ∈ [Seg.es, .fs, .gs], f.segs s = c.segs .ds
  tables : f.gdtr = c.gdtr ∧ f.idtr = c.idtr
  frame : Set.EqOn f.mem c.mem (owned ∪ Below c.esp (64 + depth))ᶜ

section Vectors

variable {isrHandler irqHandler : Cpu → Cpu} {owned : Set Word} {depth intNo : Nat} {back : Word}
  {selector : BitVec 16} {offset : Word} {errorCode : Option Word}

-- the whole way of an interrupt
def served (c : Cpu) (back : Word) (isrHandler irqHandler : Cpu → Cpu) (selector : BitVec 16)
    (offset : Word) (errorCode : Option Word) (intNo : Nat) : Cpu :=
  (c.interrupt selector offset errorCode).run (interruptStub back isrHandler irqHandler intNo)

theorem served_returns (c : Cpu) (back : Word) (isr : Cdecl isrHandler owned depth)
    (irq : Cdecl irqHandler owned depth) (few : depth ≤ 2147483648)
    (apart : Disjoint owned (Above ((entered c selector offset errorCode intNo).esp - 36) 56))
    {number errCode eip cs eflags : Word}
    (stack : (entered c selector offset errorCode intNo).stack 5 =
      [number, errCode, eip, cs, eflags]) :
    Returns owned depth eip cs eflags (entered c selector offset errorCode intNo)
      (served c back isrHandler irqHandler selector offset errorCode intNo) := by
  rw [served, interruptStub, run_append]
  change Returns _ _ _ _ _ _ ((entered c selector offset errorCode intNo).run _)
  by_cases exception : intNo < 32
  · rw [if_pos exception]
    exact commonStub_returns isr few apart (by decide) stack
  · rw [if_neg exception]
    exact commonStub_returns irq few apart (by decide) stack

theorem served_resumes (c : Cpu) (vector : intNo < 48) (isr : Cdecl isrHandler owned depth)
    (irq : Cdecl irqHandler owned depth) (few : depth ≤ 2147483648)
    (apart : Disjoint owned (Below c.esp 56))
    (expected : errorCode.isSome = expectsErrorCode intNo) :
    Resumes owned depth c (served c back isrHandler irqHandler selector offset errorCode intNo) := by
  have arrived : Pushed _ c (entered c selector offset errorCode intNo) :=
    entered_words c vector expected
  have height := arrived.esp
  have stack := arrived.stack 0 (by simp)
  have frame := arrived.frame
  simp only [List.length_cons, List.length_nil] at height stack frame
  have region : Above ((entered c selector offset errorCode intNo).esp - 36) 56 =
      Below c.esp 56 := by
    ext x
    rw [mem_above, mem_below, height]
    constructor <;> intro inside <;> bv_omega
  have returns := served_returns c back isr irq few (by rwa [region]) stack
  constructor
  case regs =>
    funext r
    by_cases pointer : r = .esp
    · subst pointer
      refine returns.esp.trans (show _ = c.esp from ?_)
      rw [height]
      bv_omega
    · rw [returns.regs r pointer, entered_regs c pointer]
  case eip => exact returns.eip
  case eflags => exact returns.eflags
  case segs =>
    intro s member
    simp only [List.mem_cons, List.not_mem_nil, or_false] at member
    rcases member with rfl | rfl | rfl
    · rw [returns.code, setWidth_low]
    · rw [returns.stackSeg, entered_segs c (by decide)]
    · rw [returns.data .ds (by simp), entered_segs c (by decide)]
  case data =>
    intro s member
    have among : s ∈ [Seg.ds, .es, .fs, .gs] := List.mem_cons_of_mem _ member
    rw [returns.data s among, entered_segs c (by decide)]
  case tables =>
    exact ⟨returns.tables.1.trans arrived.tables.1, returns.tables.2.trans arrived.tables.2⟩
  case frame =>
    refine (returns.frame.mono ?_).trans (frame.mono ?_)
    · rintro x outside (inOwned | below)
      · exact outside (Or.inl inOwned)
      · apply outside
        right
        rw [height] at below
        rw [mem_below] at below ⊢
        bv_omega
    · intro x outside below
      apply outside
      right
      rw [mem_below] at below ⊢
      omega

-- an error code too many or too few moves the stack of the interrupted code
theorem served_moves (c : Cpu) (vector : intNo < 48) (isr : Cdecl isrHandler owned depth)
    (irq : Cdecl irqHandler owned depth) (few : depth ≤ 2147483648)
    (apart : Disjoint owned (Below (c.esp + 4) 64))
    (other : errorCode.isSome ≠ expectsErrorCode intNo) :
    (served c back isrHandler irqHandler selector offset errorCode intNo).esp ≠ c.esp := by
  have arrived : Pushed _ c (entered c selector offset errorCode intNo) := entered_pushed c vector
  have length : ([c.eflags, (c.segs .cs).setWidth 32, c.eip] ++ errorCode.toList ++
      ((if expectsErrorCode intNo then [] else [dummyCode intNo]) ++
        [BitVec.ofNat 32 intNo])).length = if errorCode.isSome then 6 else 4 := by
    cases errorCode with
    | none =>
      have expects : expectsErrorCode intNo = true := by simpa using other
      rw [expects]
      rfl
    | some code =>
      have expects : expectsErrorCode intNo = false := by simpa using other
      rw [expects]
      rfl
  have height := arrived.esp
  rw [length] at height
  have cases : (entered c selector offset errorCode intNo).esp = c.esp - 16 ∨
      (entered c selector offset errorCode intNo).esp = c.esp - 24 := by
    by_cases given : errorCode.isSome = true
    · rw [height, if_pos given]
      exact Or.inr rfl
    · rw [height, if_neg given]
      exact Or.inl rfl
  have region : Above ((entered c selector offset errorCode intNo).esp - 36) 56 ⊆
      Below (c.esp + 4) 64 := by
    intro x inside
    rw [mem_above] at inside
    rw [mem_below]
    rcases cases with four | six
    · rw [four] at inside
      bv_omega
    · rw [six] at inside
      bv_omega
  have returns := served_returns c back isr irq few (apart.mono_right region) rfl
  rw [returns.esp]
  rcases cases with four | six
  · rw [four]
    bv_omega
  · rw [six]
    bv_omega

/-- The interrupted code goes on as it was, and it is the error code that decides about it. -/
theorem interrupt_resumes_iff (c : Cpu) (back : Word) (selector : BitVec 16) (offset : Word)
    (errorCode : Option Word) {intNo : Nat} (vector : intNo < 48)
    (isr : Cdecl isrHandler owned depth) (irq : Cdecl irqHandler owned depth)
    (few : depth ≤ 2147483648) (apart : Disjoint owned (Below (c.esp + 4) 64)) :
    Resumes owned depth c (served c back isrHandler irqHandler selector offset errorCode intNo) ↔
      errorCode.isSome = expectsErrorCode intNo := by
  constructor
  · intro resumes
    by_contra other
    exact served_moves c vector isr irq few apart other (congrFun resumes.regs .esp)
  · intro expected
    refine served_resumes c vector isr irq few (apart.mono_right ?_) expected
    intro x below
    rw [mem_below] at below ⊢
    bv_omega

theorem alignment_check_moves (c : Cpu) (back : Word) (selector : BitVec 16) (offset code : Word)
    (isr : Cdecl isrHandler owned depth) (irq : Cdecl irqHandler owned depth)
    (few : depth ≤ 2147483648) (apart : Disjoint owned (Below (c.esp + 4) 64)) :
    ¬ Resumes owned depth c
      (served c back isrHandler irqHandler selector offset (some code) 17) := by
  have other : (some code).isSome ≠ expectsErrorCode 17 := show true ≠ expectsErrorCode 17 by decide
  exact fun resumes =>
    served_moves c (by decide) isr irq few apart other (congrFun resumes.regs .esp)

end Vectors

-- a handler that does nothing
def plainReturn (c : Cpu) : Cpu := { c.drop with eip := c.top }

theorem plainReturn_cdecl : Cdecl plainReturn ∅ 0 where
  eip _ := rfl
  esp c := drop_esp c
  saved c r member := by
    have other : r ≠ .esp := by
      rintro rfl
      simp at member
    exact Function.update_of_ne other _ _
  segs _ := rfl
  tables _ := ⟨rfl, rfl⟩
  frame _ _ _ := rfl

-- in the kernel, with interrupts on
def inKernel : Cpu :=
  { regs := fun r => if r = .esp then 0x9000 else 0
    segs := fun s => if s = .cs then 8 else 16
    eip := 0x101000
    eflags := 0x202
    gdtr := { base := 0, limit := 39 }
    idtr := { base := 0, limit := 2047 }
    mem := fun _ => 0
    device := fun _ => 0
    transfers := [] }

theorem handler_reads_state_irq0 :
    Registers.read ((entered inKernel 8 0 none 32).run saveState).mem
      ((entered inKernel 8 0 none 32).run saveState).top =
    { ds := setLow 0 16, edi := 0, esi := 0, ebp := 0, useless := inKernel.esp - 20
      ebx := 0, edx := 0, ecx := 0, eax := 0, intNo := 32, errCode := dummyCode 32
      eip := 0x101000, cs := (8 : BitVec 16).setWidth 32, eflags := 0x202
      esp := read32 inKernel.mem inKernel.esp
      ss := read32 inKernel.mem (inKernel.esp + 4) } :=
  handler_reads_state inKernel (by decide) (by decide)

theorem interrupt_resumes_irq1 :
    Resumes ∅ 0 inKernel (served inKernel 0 plainReturn plainReturn 8 0 none 33) ↔
      (none : Option Word).isSome = expectsErrorCode 33 :=
  interrupt_resumes_iff inKernel 0 8 0 none (by decide) plainReturn_cdecl plainReturn_cdecl
    (by decide) (Set.empty_disjoint _)

end GekonOS.Stubs
