import Mathlib.Data.List.Nodup

/-!
# Recency lists

A duplicate-free list ordered from the least to the most recently used element.  `touch l a` moves
`a` to the end, adding it if it is absent.

* `nodup_touch`, `mem_touch` — touching keeps the list duplicate free and adds only `a`;
* `touch_pairwise` — if `a` is now newer than everything else and the order of the others stands, the
  list after the touch is sorted by age;
* `eraseIdx_eq_erase` — removing the element at `a`'s position is removing `a`;
* `Queue` — recency lists as a type, with `touch` and `pop`, which takes the least recent element.
-/

set_option autoImplicit false

namespace Recency

variable {α : Type} [DecidableEq α]

/-- Move `a` to the most recent end, adding it if it is absent. -/
def touch (l : List α) (a : α) : List α := l.erase a ++ [a]

theorem mem_touch {l : List α} {a b : α} : b ∈ touch l a ↔ b ∈ l ∨ b = a := by
  unfold touch
  by_cases h : b = a
  · simp [h]
  · simp [h, List.mem_erase_of_ne h]

theorem nodup_touch {l : List α} (h : l.Nodup) (a : α) : (touch l a).Nodup := by
  unfold touch
  rw [List.nodup_append]
  refine ⟨h.erase a, List.nodup_singleton a, ?_⟩
  intro b hb c hc hbc
  rw [List.mem_singleton] at hc
  subst hc; subst hbc
  exact (h.mem_erase_iff.1 hb).1 rfl

/-- Sortedness by age survives a touch that makes `a` the newest. -/
theorem touch_pairwise {R R' : α → α → Prop} {l : List α} {a : α} (hnd : l.Nodup)
    (h : l.Pairwise R) (hkeep : ∀ x y, x ≠ a → R x y → R' x y) (hnew : ∀ x ∈ l, x ≠ a → R' x a) :
    (touch l a).Pairwise R' := by
  unfold touch
  have hne : ∀ x ∈ l.erase a, x ≠ a := fun x hx => (hnd.mem_erase_iff.1 hx).1
  rw [List.pairwise_append]
  refine ⟨?_, List.pairwise_singleton R' a, ?_⟩
  · have hs : (l.erase a).Pairwise R := h.sublist List.erase_sublist
    exact hs.imp_of_mem fun hx _ hr => hkeep _ _ (hne _ hx) hr
  · intro x hx y hy
    rw [List.mem_singleton] at hy
    subst hy
    exact hnew x (List.mem_of_mem_erase hx) (hne x hx)

/-- Removing the element found at position `i` is removing its only occurrence. -/
theorem eraseIdx_eq_erase {l : List α} {a : α} (hnd : l.Nodup) {i : Nat} (h : l[i]? = some a) :
    l.eraseIdx i = l.erase a := by
  obtain ⟨hi, ha⟩ := List.getElem?_eq_some_iff.1 h
  rw [List.erase_eq_eraseIdx_of_idxOf ]
  subst ha
  exact hnd.idxOf_getElem i hi

/-- A recency list, least recently used first. -/
@[ext] structure Queue (α : Type) where
  items : List α
  nodup : items.Nodup

namespace Queue

/-- Move `a` to the end, adding it if it is absent. -/
def touch (q : Queue α) (a : α) : Queue α := ⟨Recency.touch q.items a, nodup_touch q.nodup a⟩

omit [DecidableEq α]

def empty : Queue α := ⟨[], List.nodup_nil⟩

/-- Take the head, if there is one. -/
def pop (q : Queue α) : Option α × Queue α := (q.items.head?, ⟨q.items.tail, q.nodup.tail⟩)

def length (q : Queue α) : Nat := q.items.length

end Queue

end Recency
