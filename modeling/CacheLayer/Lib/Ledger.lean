import Mathlib.Algebra.BigOperators.Group.List.Basic
import Mathlib.Tactic.Abel

/-!
# Counters behind a shared quantity

A counter is kept beside a quantity by parties that change the quantity in one step and the counter in
a later one.  Between the two a party *owes* the difference: what is still to be taken off the counter
(an amount still to be added is owed with the opposite sign).

* `owed` — what all parties owe together;
* `surplus` — how far the counter is above what it should show, the quantity and what is owed;
* `surplus_set`, `surplus_concat` — how the step of one party moves the surplus (not at all, when counter,
  quantity and debt move together), and that a new party without debts does not;
* `surplus_settled` — when nobody owes anything, the surplus is the error of the counter.
-/

set_option autoImplicit false

section Ledger

variable {τ G : Type} [AddCommGroup G] (owes : τ → G)

/-- What the parties owe together. -/
def owed (parties : List τ) : G := (parties.map owes).sum

/-- How far the counter is above the quantity and what is owed. -/
def surplus (counter quantity : G) (parties : List τ) : G := counter - (quantity + owed owes parties)

variable {owes} {parties : List τ}

theorem owed_set {i : Nat} {x : τ} (h : parties[i]? = some x) (y : τ) :
    owed owes (parties.set i y) = owed owes parties + (owes y - owes x) := by
  obtain ⟨hlt, rfl⟩ := List.getElem?_eq_some_iff.1 h
  unfold owed
  rw [List.map_set, List.sum_set', dif_pos (by simpa using hlt), List.getElem_map]
  abel

theorem owed_concat (x : τ) : owed owes (parties ++ [x]) = owed owes parties + owes x := by
  simp [owed]

theorem owed_eq_zero (h : ∀ x ∈ parties, owes x = 0) : owed owes parties = 0 := by
  refine List.sum_eq_zero ?_
  intro g hg
  obtain ⟨x, hx, rfl⟩ := List.mem_map.1 hg
  exact h x hx

/-- A step of party `i`, from `x` to `y`, raises the surplus by what it adds to the counter beyond what
it adds to the quantity and to its debt. -/
theorem surplus_set {i : Nat} {x : τ} (h : parties[i]? = some x) (y : τ)
    (counter counter' quantity quantity' : G) :
    surplus owes counter' quantity' (parties.set i y) = surplus owes counter quantity parties +
      ((counter' - counter) - ((quantity' - quantity) + (owes y - owes x))) := by
  unfold surplus
  rw [owed_set h]
  abel

/-- A new party that owes nothing. -/
theorem surplus_concat {x : τ} {counter quantity : G} (h : owes x = 0) :
    surplus owes counter quantity (parties ++ [x]) = surplus owes counter quantity parties := by
  unfold surplus
  rw [owed_concat, h, add_zero]

theorem surplus_settled {counter quantity : G} (h : ∀ x ∈ parties, owes x = 0) :
    surplus owes counter quantity parties = counter - quantity := by
  unfold surplus
  rw [owed_eq_zero h, add_zero]

end Ledger
