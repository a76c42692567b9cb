import CacheLayer.Lib.Run
import Mathlib.Algebra.BigOperators.Group.Finset.Basic
import Mathlib.Algebra.GroupWithZero.Nat

/-!
# Potentials

A potential pays for the steps of a system: each step that is `paid` for lowers it, and a step may raise
it by no more than its `grant`.

* `Pays.total` — hence a run takes no more paid steps than it is granted, and as many again as the
  potential it starts with;
* `Run.exists_final` — a system that can lower its potential until it is final can run to a final state;
* `load` — the potential of a list of parties, each with a weight of its own, and how the step of one party
  moves it (`load_set`); `sum_update` — the same for parties with names;
* `load_spare` — when only parties of one kind weigh anything, and none of them more than `k`, a party of
  that kind that weighs nothing leaves `k` to spare;
* `countP_le_of_claims` — parties that are each claimed by another are no more than those that claim them.
-/

set_option autoImplicit false

variable {σ ε : Type} {R : σ → ε → σ → Prop} {φ : σ → Nat} {paid : ε → Bool} {grant : ε → Nat}

/-- Paid steps lower `φ`, and a step raises it by at most its grant. -/
def Pays (R : σ → ε → σ → Prop) (φ : σ → Nat) (paid : ε → Bool) (grant : ε → Nat) : Prop :=
  ∀ s e t, R s e t → φ t + (if paid e then 1 else 0) ≤ φ s + grant e

/-- **The grants and the first potential pay for all paid steps of a run.** -/
theorem Pays.total (hpay : Pays R φ paid grant) {s₀ s : σ} {es : List ε} (h : Run R s₀ es s) :
    φ s + es.countP paid ≤ φ s₀ + (es.map grant).sum := by
  induction h with
  | nil => exact Nat.le_refl _
  | @snoc es s e t _ hr ih =>
    have hstep := hpay s e t hr
    rw [List.countP_append, List.countP_singleton, List.map_append, List.sum_append, List.map_singleton,
      List.sum_singleton]
    omega

/-- Grants of the same amount to the events of one kind. -/
theorem sum_grant (g : ε → Bool) (k : Nat) (es : List ε) :
    (es.map fun e => if g e then k else 0).sum = k * es.countP g := by
  induction es with
  | nil => rfl
  | cons e es ih =>
    rw [List.map_cons, List.sum_cons, ih, List.countP_cons, Nat.mul_add]
    split
    · omega
    · omega

/-- **A run to a final state**, when every other state has a step that lowers the potential. -/
theorem Run.exists_final {I F : σ → Prop} {C : ε → Prop}
    (hgo : ∀ s, I s → ¬ F s → ∃ e t, C e ∧ R s e t ∧ I t ∧ φ t < φ s) :
    ∀ (n : Nat) (s : σ), φ s ≤ n → I s →
      ∃ es t, Run R s es t ∧ F t ∧ es.length ≤ n ∧ ∀ e ∈ es, C e := by
  intro n
  induction n with
  | zero =>
    intro s hn hI
    by_cases hfin : F s
    · exact ⟨[], s, .nil, hfin, Nat.le_refl 0, fun e he => by cases he⟩
    · obtain ⟨e, t, -, -, -, hlt⟩ := hgo s hI hfin
      omega
  | succ n ih =>
    intro s hn hI
    by_cases hfin : F s
    · exact ⟨[], s, .nil, hfin, Nat.zero_le _, fun e he => by cases he⟩
    · obtain ⟨e, t, hC, hr, hIt, hlt⟩ := hgo s hI hfin
      obtain ⟨es, u, hrun, hu, hlen, hall⟩ := ih t (by omega) hIt
      refine ⟨e :: es, u, Run.cons hr hrun, hu, Nat.succ_le_succ hlen, ?_⟩
      exact List.forall_mem_cons.2 ⟨hC, hall⟩

/-! ## Parties -/

/-- What the parties weigh together. -/
def load {τ : Type} (weight : τ → Nat) (parties : List τ) : Nat := (parties.map weight).sum

theorem load_set {τ : Type} (weight : τ → Nat) {parties : List τ} {i : Nat} {x : τ}
    (h : parties[i]? = some x) (y : τ) :
    load weight (parties.set i y) + weight x = load weight parties + weight y := by
  obtain ⟨hlt, rfl⟩ := List.getElem?_eq_some_iff.1 h
  obtain ⟨pre, post, hl, -, hset⟩ := @List.exists_of_set _ i y parties hlt
  rw [hset]
  generalize parties[i] = x at hl
  rw [hl]
  simp only [load, List.map_append, List.map_cons, List.sum_append, List.sum_cons]
  omega

theorem load_concat {τ : Type} (weight : τ → Nat) (parties : List τ) (x : τ) :
    load weight (parties ++ [x]) = load weight parties + weight x := by
  simp [load]

theorem load_le_countP {τ : Type} {weight : τ → Nat} {kind : τ → Bool} {k : Nat} {parties : List τ}
    (h : ∀ x ∈ parties, weight x ≤ if kind x then k else 0) :
    load weight parties ≤ k * parties.countP kind := by
  induction parties with
  | nil => exact Nat.zero_le _
  | cons x parties ih =>
    have hx := h x List.mem_cons_self
    have hrest := ih fun y hy => h y (List.mem_cons_of_mem x hy)
    simp only [load, List.map_cons, List.sum_cons] at hrest ⊢
    by_cases hk : kind x = true
    · rw [if_pos hk] at hx
      rw [List.countP_cons_of_pos hk, Nat.mul_succ]
      omega
    · rw [if_neg hk] at hx
      rw [List.countP_cons_of_neg hk]
      omega

theorem load_spare {τ : Type} (weight : τ → Nat) (kind : τ → Bool) {k : Nat} {parties : List τ}
    {i : Nat} {x : τ} (h : ∀ x ∈ parties, weight x ≤ if kind x then k else 0)
    (hi : parties[i]? = some x) (hkind : kind x = true) (hx : weight x = 0) :
    load weight parties + k ≤ k * parties.countP kind := by
  obtain ⟨pre, post, rfl⟩ := List.append_of_mem (List.mem_of_getElem? hi)
  have hpre := load_le_countP fun y hy => h y (List.mem_append_left _ hy)
  have hpost := load_le_countP fun y hy => h y (List.mem_append_right _ (List.mem_cons_of_mem x hy))
  rw [List.countP_append, List.countP_cons_of_pos hkind, Nat.mul_add, Nat.mul_succ]
  simp only [load, List.map_append, List.map_cons, List.sum_append, List.sum_cons, hx] at hpre hpost ⊢
  omega

theorem countP_le_of_claims {τ υ : Type} {kind : τ → Bool} {kind' : υ → Bool} {parties : List τ}
    {claimants : List υ} (claim : υ → Option Nat)
    (h : ∀ i x, parties[i]? = some x → kind x = true →
      ∃ y ∈ claimants, kind' y = true ∧ claim y = some i) :
    parties.countP kind ≤ claimants.countP kind' := by
  -- the places of the parties counted, among the claims counted
  have hnodup : ((parties.zipIdx.filter fun z => kind z.1).map Prod.snd).Nodup := by
    refine List.Nodup.sublist (List.filter_sublist.map _) ?_
    rw [List.zipIdx_map_snd]
    exact List.nodup_range'
  have hsub : ((parties.zipIdx.filter fun z => kind z.1).map Prod.snd) ⊆
      (claimants.filter kind').filterMap claim := by
    intro i hi
    obtain ⟨⟨x, j⟩, hz, rfl⟩ := List.mem_map.1 hi
    obtain ⟨hz, hkind⟩ := List.mem_filter.1 hz
    obtain ⟨y, hy, hkind', hclaim⟩ := h j x (List.mem_zipIdx_iff_getElem?.1 hz) hkind
    exact List.mem_filterMap.2 ⟨y, List.mem_filter.2 ⟨hy, hkind'⟩, hclaim⟩
  have hlen := (List.subperm_of_subset hnodup hsub).length_le
  have hparties : parties.countP kind = (parties.zipIdx.filter fun z => kind z.1).length := by
    rw [← List.countP_eq_length_filter, ← Function.comp_def kind Prod.fst, ← List.countP_map,
      List.zipIdx_map_fst]
  rw [hparties, ← List.length_map Prod.snd, List.countP_eq_length_filter]
  exact Nat.le_trans hlen (List.length_filterMap_le _ _)

theorem sum_update {ι τ : Type} [Fintype ι] [DecidableEq ι] (weight : τ → Nat) (f : ι → τ) (i : ι)
    (y : τ) : (∑ j, weight (Function.update f i y j)) + weight (f i) = (∑ j, weight (f j)) + weight y := by
  have hrest : ∑ j ∈ Finset.univ.erase i, weight (Function.update f i y j) =
      ∑ j ∈ Finset.univ.erase i, weight (f j) :=
    Finset.sum_congr rfl fun j hj => by rw [Function.update_of_ne (Finset.ne_of_mem_erase hj)]
  rw [← Finset.add_sum_erase _ _ (Finset.mem_univ i), ← Finset.add_sum_erase _ _ (Finset.mem_univ i),
    hrest, Function.update_self]
  omega
