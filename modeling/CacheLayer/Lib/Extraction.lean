import CacheLayer.Lib.Run
import Mathlib.Data.List.Nodup
import Mathlib.Order.Defs.PartialOrder

/-!
# Taking out least elements

A system that holds elements, each with a fixed weight, and takes them out one at a time: `out e` is the
element that the step `e` takes out, if any.

* `TakesLeast` — a step that takes out one of the lightest elements, and nothing exactly if there is
  none;
* `Extracted.snoc`, `extracted_of_run` — in a run of such steps the elements come out once each, in
  nondecreasing order of weight, and each is either taken out or still there.
-/

set_option autoImplicit false

namespace Extraction

variable {σ ε α β : Type} [Preorder β] {out : ε → Option α} {holds : σ → α → Prop} {weight : α → β}

variable (out holds weight) in
/-- The step takes out a least element, or there is none to take out. -/
structure TakesLeast (s : σ) (e : ε) (t : σ) : Prop where
  least : ∀ a ∈ out e, holds s a ∧ ∀ b, holds s b → weight a ≤ weight b
  none_iff : out e = none ↔ ∀ a, ¬ holds s a
  holds_iff : ∀ a, holds t a ↔ holds s a ∧ out e ≠ some a

variable (out holds weight) in
/-- What a run from `s` to `t` has taken out. -/
structure Extracted (s : σ) (es : List ε) (t : σ) : Prop where
  nodup : (es.filterMap out).Nodup
  sorted : (es.filterMap out).Pairwise fun a b => weight a ≤ weight b
  lighter : ∀ a ∈ es.filterMap out, ∀ b, holds t b → weight a ≤ weight b
  gone : ∀ a ∈ es.filterMap out, ¬ holds t a
  holds_iff : ∀ a, holds s a ↔ a ∈ es.filterMap out ∨ holds t a

theorem Extracted.nil (s : σ) : Extracted out holds weight s [] s where
  nodup := List.nodup_nil
  sorted := List.Pairwise.nil
  lighter a ha := by cases ha
  gone a ha := by cases ha
  holds_iff a := by simp

theorem Extracted.snoc {s t u : σ} {es : List ε} {e : ε} (h : Extracted out holds weight s es t)
    (hstep : TakesLeast out holds weight t e u) :
    Extracted out holds weight s (es ++ [e]) u := by
  have hkept : ∀ b, holds u b → holds t b := fun b hb => ((hstep.holds_iff b).1 hb).1
  cases hout : out e with
  | none =>
    have heq : (es ++ [e]).filterMap out = es.filterMap out := by simp [hout]
    have hsame : ∀ a, holds u a ↔ holds t a := by
      intro a
      rw [hstep.holds_iff, hout]
      simp
    refine ⟨by rw [heq]; exact h.nodup, by rw [heq]; exact h.sorted, ?_, ?_, ?_⟩
    · rw [heq]
      exact fun a ha b hb => h.lighter a ha b (hkept b hb)
    · rw [heq]
      exact fun a ha hin => h.gone a ha (hkept a hin)
    · intro a
      rw [heq, hsame, h.holds_iff]
  | some x =>
    have heq : (es ++ [e]).filterMap out = es.filterMap out ++ [x] := by simp [hout]
    obtain ⟨hx, hleast⟩ := hstep.least x hout
    have hxgone : ¬ holds u x := fun hin => ((hstep.holds_iff x).1 hin).2 hout
    refine ⟨?_, ?_, ?_, ?_, ?_⟩
    · rw [heq, List.nodup_append]
      refine ⟨h.nodup, List.nodup_singleton x, ?_⟩
      -- what was taken out before is not held when `x` is taken out
      rintro a ha b hb rfl
      rw [List.mem_singleton] at hb
      subst hb
      exact h.gone a ha hx
    · rw [heq, List.pairwise_append]
      refine ⟨h.sorted, List.pairwise_singleton _ x, ?_⟩
      intro a ha b hb
      rw [List.mem_singleton] at hb
      subst hb
      exact h.lighter a ha b hx
    · rw [heq]
      intro a ha b hb
      rcases List.mem_append.1 ha with ha | ha
      · exact h.lighter a ha b (hkept b hb)
      · rw [List.mem_singleton] at ha
        subst ha
        exact hleast b (hkept b hb)
    · rw [heq]
      intro a ha hin
      rcases List.mem_append.1 ha with ha | ha
      · exact h.gone a ha (hkept a hin)
      · rw [List.mem_singleton] at ha
        subst ha
        exact hxgone hin
    · intro a
      rw [heq, h.holds_iff, hstep.holds_iff, hout]
      simp only [List.mem_append, List.mem_singleton, ne_eq, Option.some.injEq]
      constructor
      · rintro (ha | ha)
        · exact Or.inl (Or.inl ha)
        · by_cases hax : a = x
          · exact Or.inl (Or.inr hax)
          · exact Or.inr ⟨ha, fun hxa => hax hxa.symm⟩
      · rintro ((ha | rfl) | ⟨ha, -⟩)
        · exact Or.inl ha
        · exact Or.inr hx
        · exact Or.inr ha

/-- **Elements come out once each, lightest first.** -/
theorem extracted_of_run {s t : σ} {es : List ε} (hrun : Run (TakesLeast out holds weight) s es t) :
    Extracted out holds weight s es t := by
  induction hrun with
  | nil => exact Extracted.nil s
  | snoc _ hstep ih => exact ih.snoc hstep

end Extraction
