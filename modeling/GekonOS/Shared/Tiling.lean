import Mathlib.Data.List.Basic
import Mathlib.Data.List.Nodup
import Mathlib.Tactic.Common

set_option autoImplicit false

namespace Tiling

variable {α : Type} {addr size : α → Nat}

def Tiles (addr size : α → Nat) : Nat → List α → Nat → Prop
  | lo, [], hi => lo = hi
  | lo, c :: cs, hi => addr c = lo ∧ 0 < size c ∧ Tiles addr size (lo + size c) cs hi

theorem Tiles.le {lo hi : Nat} {cs : List α} (tiles : Tiles addr size lo cs hi) : lo ≤ hi := by
  induction cs generalizing lo with
  | nil => exact Nat.le_of_eq tiles
  | cons c cs ih =>
    have := ih tiles.2.2
    omega

theorem tiles_append {lo hi : Nat} {xs ys : List α} :
    Tiles addr size lo (xs ++ ys) hi ↔
      ∃ mid, Tiles addr size lo xs mid ∧ Tiles addr size mid ys hi := by
  induction xs generalizing lo with
  | nil => simp [Tiles]
  | cons c cs ih =>
    simp only [List.cons_append, Tiles, ih]
    constructor
    · rintro ⟨atLo, positive, mid, left, right⟩
      exact ⟨mid, ⟨atLo, positive, left⟩, right⟩
    · rintro ⟨mid, ⟨atLo, positive, left⟩, right⟩
      exact ⟨atLo, positive, mid, left, right⟩

theorem tiles_middle {lo hi : Nat} {c : α} {pre post : List α} :
    Tiles addr size lo (pre ++ c :: post) hi ↔
      Tiles addr size lo pre (addr c) ∧ 0 < size c ∧ Tiles addr size (addr c + size c) post hi := by
  simp only [tiles_append, Tiles]
  constructor
  · rintro ⟨mid, left, rfl, positive, right⟩
    exact ⟨left, positive, right⟩
  · rintro ⟨left, positive, right⟩
    exact ⟨addr c, left, rfl, positive, right⟩

theorem Tiles.bounds {lo hi : Nat} {cs : List α} {c : α} (tiles : Tiles addr size lo cs hi)
    (member : c ∈ cs) : lo ≤ addr c ∧ 0 < size c ∧ addr c + size c ≤ hi := by
  obtain ⟨pre, post, rfl⟩ := List.append_of_mem member
  obtain ⟨left, positive, right⟩ := tiles_middle.mp tiles
  exact ⟨left.le, positive, right.le⟩

theorem Tiles.pairwise {lo hi : Nat} {cs : List α} (tiles : Tiles addr size lo cs hi) :
    cs.Pairwise (fun a b => addr a + size a ≤ addr b) := by
  induction cs generalizing lo with
  | nil => exact List.Pairwise.nil
  | cons c cs ih =>
    obtain ⟨rfl, positive, rest⟩ := tiles
    refine List.Pairwise.cons ?_ (ih rest)
    intro d member
    exact (rest.bounds member).1

theorem Tiles.addr_nodup {lo hi : Nat} {cs : List α} (tiles : Tiles addr size lo cs hi) :
    (cs.map addr).Nodup := by
  induction cs generalizing lo with
  | nil => exact List.nodup_nil
  | cons c cs ih =>
    obtain ⟨rfl, positive, rest⟩ := tiles
    refine List.nodup_cons.mpr ⟨?_, ih rest⟩
    intro again
    obtain ⟨d, member, same⟩ := List.mem_map.mp again
    have := (rest.bounds member).1
    omega

theorem Tiles.addr_injective {lo hi : Nat} {cs : List α} {c d : α}
    (tiles : Tiles addr size lo cs hi) (hc : c ∈ cs) (hd : d ∈ cs) (same : addr c = addr d) :
    c = d :=
  List.inj_on_of_nodup_map tiles.addr_nodup hc hd same

theorem Tiles.end_unique {lo hi hi' : Nat} {cs : List α} (one : Tiles addr size lo cs hi)
    (other : Tiles addr size lo cs hi') : hi = hi' := by
  induction cs generalizing lo with
  | nil => exact one.symm.trans other
  | cons c cs ih => exact ih one.2.2 other.2.2

theorem Tiles.start_unique {lo lo' hi : Nat} {cs : List α} (one : Tiles addr size lo cs hi)
    (other : Tiles addr size lo' cs hi) : lo = lo' := by
  cases cs with
  | nil => exact one.trans other.symm
  | cons c cs => exact one.1.symm.trans other.1

theorem Tiles.apart {lo hi : Nat} {cs : List α} {c d : α} (tiles : Tiles addr size lo cs hi)
    (hc : c ∈ cs) (hd : d ∈ cs) (distinct : c ≠ d) :
    addr c + size c ≤ addr d ∨ addr d + size d ≤ addr c := by
  obtain ⟨pre, post, rfl⟩ := List.append_of_mem hc
  obtain ⟨left, positive, right⟩ := tiles_middle.mp tiles
  cases List.mem_append.mp hd with
  | inl before => exact Or.inr (left.bounds before).2.2
  | inr rest =>
    cases List.mem_cons.mp rest with
    | inl same => exact absurd same.symm distinct
    | inr after => exact Or.inl (right.bounds after).1

end Tiling
