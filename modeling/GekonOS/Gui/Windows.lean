import GekonOS.Kernel.Gui

set_option autoImplicit false

namespace GekonOS.Windows

structure Arguments where
  x : Int
  y : Int
  w : Int
  h : Int

def create (args : Arguments) (gui : Gui) : Option (Int × Gui) :=
  guiCreateWindow args.x args.y args.w args.h gui

/-- What a call shall do when it returns `ret`, after the ids in `seen` have been given out. -/
def Creates (seen : List Int) (gui : Gui) (ret : Int) (gui' : Gui) : Prop :=
  if ∀ j (h : j < maxWindows), gui.window[j].id ≠ 0 then gui'.window = gui.window
  else
    ret ≠ 0 ∧ ret ∉ seen ∧
      ∃ i, ∃ within : i < maxWindows, gui.window[i].id = 0 ∧ gui'.window[i].id.toNat = ret ∧
        (∀ j (h : j < maxWindows), j ≠ i →
          gui'.window[j] = { gui.window[j] with active := false }) ∧
        gui'.window[i].active = true

/-- Every call of the list stays inside the table and does what it shall. -/
inductive Behaves : List Int → Gui → List Arguments → Prop
  | nil (seen : List Int) (gui : Gui) : Behaves seen gui []
  | cons {seen : List Int} {gui gui' : Gui} {ret : Int} {args : Arguments}
      {rest : List Arguments} :
      create args gui = some (ret, gui') → Creates seen gui ret gui' →
      Behaves (seen ++ [ret]) gui' rest → Behaves seen gui (args :: rest)

/-- After `n` calls the first `n` slots hold the ids 1 to `n`. -/
structure Filled (n : Nat) (gui : Gui) : Prop where
  counter : gui.id = (n : Int) + 1
  used : ∀ j (h : j < maxWindows), j < n → gui.window[j].id.toNat = j + 1
  unused : ∀ j (h : j < maxWindows), n ≤ j → gui.window[j].id = 0

variable {n : Nat} {gui : Gui}

theorem Filled.used_ne (filled : Filled n gui) {j : Nat} (h : j < maxWindows) (lower : j < n) :
    gui.window[j].id ≠ 0 := by
  intro zero
  have value := filled.used j h lower
  rw [zero] at value
  cases value

theorem Filled.findSlot (filled : Filled n gui) (bound : n ≤ maxWindows) :
    findSlot gui.window = n := by
  have length : gui.window.toList.length = maxWindows := Vector.length_toList
  unfold GekonOS.findSlot
  by_cases within : n < maxWindows
  · rw [List.findIdx_eq (by rw [length]; exact within)]
    refine ⟨by simpa using filled.unused n within (Nat.le_refl _), ?_⟩
    intro j lower
    simpa using filled.used_ne (Nat.lt_trans lower within) lower
  · have last : n = gui.window.toList.length := by omega
    rw [last, List.findIdx_eq_length]
    intro entry member
    obtain ⟨j, h, rfl⟩ := List.mem_iff_getElem.mp member
    rw [length] at h
    simpa using filled.used_ne h (by omega)

theorem Filled.full (filled : Filled maxWindows gui) (args : Arguments) :
    create args gui = none := by
  have slot := filled.findSlot (Nat.le_refl _)
  unfold create guiCreateWindow
  exact dif_neg (by rw [slot]; exact Nat.lt_irrefl _)

-- the entry the next call writes
def entryFor (args : Arguments) (id : Int) : Window :=
  { x := UInt16.ofInt args.x, y := UInt16.ofInt args.y, w := UInt16.ofInt args.w,
    h := UInt16.ofInt args.h, id := UInt16.ofInt id, active := true }

theorem create_found {i : Nat} (args : Arguments) (found : findSlot gui.window = i)
    (within : i < maxWindows) :
    ∃ gui', create args gui = some (gui.id, gui') ∧ gui'.id = gui.id + 1 ∧
      gui'.window[i] = entryFor args gui.id ∧
      ∀ j (h : j < maxWindows), j ≠ i → gui'.window[j] = { gui.window[j] with active := false } := by
  subst found
  refine ⟨_, dif_pos within, rfl, ?_, ?_⟩
  · simp only [Vector.getElem_set_self, Vector.getElem_map]
    rfl
  · intro j h other
    simp only [Vector.getElem_set_ne _ _ (Ne.symm other), Vector.getElem_map]

theorem id_small {i : Nat} (within : i < maxWindows) :
    (UInt16.ofInt ((i : Int) + 1)).toNat = i + 1 := by
  unfold maxWindows at within
  have small : (((i : Int) + 1) % 2 ^ 16).toNat = i + 1 := by omega
  rw [UInt16.ofInt, small, UInt16.toNat_ofNat']
  omega

theorem Filled.next (filled : Filled n gui) (within : n < maxWindows) (args : Arguments) :
    ∃ gui', create args gui = some ((n : Int) + 1, gui') ∧ Filled (n + 1) gui' ∧
      gui'.window[n] = entryFor args ((n : Int) + 1) ∧
      ∀ j (h : j < maxWindows), j ≠ n →
        gui'.window[j] = { gui.window[j] with active := false } := by
  obtain ⟨gui', created, counter, entry, others⟩ :=
    create_found args (filled.findSlot (Nat.le_of_lt within)) within
  rw [filled.counter] at created counter entry
  refine ⟨gui', created, ⟨?_, ?_, ?_⟩, entry, others⟩
  · rw [counter]
    rfl
  · intro j h lower
    by_cases last : j = n
    · subst last
      rw [entry]
      exact id_small h
    · rw [others j h last]
      exact filled.used j h (by omega)
  · intro j h upper
    rw [others j h (by omega)]
    exact filled.unused j h (by omega)

theorem Filled.creates (filled : Filled n gui) (within : n < maxWindows) {seen : List Int}
    (before : ∀ id ∈ seen, id ≤ n) {gui' : Gui} {args : Arguments}
    (entry : gui'.window[n] = entryFor args ((n : Int) + 1))
    (others : ∀ j (h : j < maxWindows), j ≠ n →
      gui'.window[j] = { gui.window[j] with active := false }) :
    Creates seen gui ((n : Int) + 1) gui' := by
  have free : ¬ ∀ j (h : j < maxWindows), gui.window[j].id ≠ 0 :=
    fun used => used n within (filled.unused n within (Nat.le_refl _))
  unfold Creates
  rw [if_neg free]
  refine ⟨by omega, ?_, n, within, filled.unused n within (Nat.le_refl _), ?_, others, ?_⟩
  · intro again
    have := before _ again
    omega
  · rw [entry]
    exact congrArg Int.ofNat (id_small within)
  · rw [entry]
    rfl

theorem Filled.behaves (args : List Arguments) {n : Nat} {gui : Gui} (filled : Filled n gui)
    {seen : List Int} (before : ∀ id ∈ seen, id ≤ n) (few : n + args.length ≤ maxWindows) :
    Behaves seen gui args := by
  induction args generalizing n gui seen with
  | nil => exact Behaves.nil seen gui
  | cons first rest ih =>
    rw [List.length_cons] at few
    obtain ⟨gui', created, next, entry, others⟩ := filled.next (by omega) first
    refine Behaves.cons created (filled.creates (by omega) before entry others) (ih next ?_ (by omega))
    intro id member
    cases List.mem_append.mp member with
    | inl earlier =>
      have := before id earlier
      omega
    | inr last =>
      have := List.mem_singleton.mp last
      omega

theorem Filled.behaves_length (args : List Arguments) {n : Nat} {gui : Gui} (filled : Filled n gui)
    (bound : n ≤ maxWindows) {seen : List Int} (behaves : Behaves seen gui args) :
    n + args.length ≤ maxWindows := by
  induction args generalizing n gui seen with
  | nil => exact bound
  | cons first rest ih =>
    cases behaves with
    | cons created creates later =>
      by_cases full : n = maxWindows
      · subst full
        rw [filled.full first] at created
        cases created
      · obtain ⟨gui', made, next, -, -⟩ := filled.next (by omega) first
        rw [made] at created
        cases created
        have := ih next (by omega) later
        rw [List.length_cons]
        omega

-- the table when `GUI_Init` has cleared it; the counter starts at 1
def cleared (window : Vector Window maxWindows) : Gui := { window := clearWindows window, id := 1 }

theorem cleared_filled (window : Vector Window maxWindows) : Filled 0 (cleared window) := by
  refine ⟨rfl, fun j h lower => absurd lower (Nat.not_lt_zero j), ?_⟩
  intro j h _
  simp [cleared, clearWindows]

/-- The table behaves up to 100 calls, and no longer. -/
theorem windows_behave_iff (window : Vector Window maxWindows) (args : List Arguments) :
    Behaves [] (cleared window) args ↔ args.length ≤ maxWindows := by
  have start := cleared_filled window
  constructor
  · intro behaves
    have length := start.behaves_length args (Nat.zero_le _) behaves
    omega
  · intro few
    exact start.behaves args (fun id member => absurd member (List.not_mem_nil)) (by omega)

def window1 : Arguments := { x := 160, y := 160, w := 480, h := 380 }

/-- The call that finds all slots in use writes behind the table. -/
theorem call_outside_table :
    ¬ Behaves [] (cleared (Vector.replicate 100
        { x := 0, y := 0, w := 0, h := 0, id := 0, active := false }))
      (List.replicate 101 window1) := by
  intro behaves
  have length := (cleared_filled _).behaves_length _ (Nat.zero_le _) behaves
  rw [List.length_replicate] at length
  exact absurd length (by decide)

end GekonOS.Windows
