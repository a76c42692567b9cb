import CacheLayer.RecencyRefinement

/-!
# Runs of an eviction policy

Any sequence of calls on a policy, where the iteration order of the policy's map may be another one in
every call.  Both policies carry a `capacity`, the maximum number of keys to track, which no call reads.

* `BoxedPolicy.size_touch` — `on_insert` and `on_access` leave one key more, unless the call takes an
  old place of its key back (`BoxedPolicy.Replaces`);
* `tracking_within_capacity_iff` — a run stays within the capacity exactly if every such call finds a
  free place or takes an old one back; `tracking_exceeds_capacity` is the shortest run that does not.
-/

set_option autoImplicit false

namespace CacheLayer

variable {K : Type} [DecidableEq K]

/-! ## Calls -/

/-- A call on a policy, the order in which it iterates the policy's map, and the key it returned. -/
structure PolicyCall (K : Type) where
  op : PolicyOp K
  order : HashOrder K
  returned : Option K

/-- The key that a call reports to the policy. -/
def PolicyOp.reported : PolicyOp K → Option K
  | .onInsert key => some key
  | .onAccess key => some key
  | .evict => none
  | .reset => none

namespace EvictionPolicy

variable {P : Type} [EvictionPolicy K P]

/-- Execute a call. -/
def exec (p : P) (order : HashOrder K) : PolicyOp K → P × Option K
  | .onInsert key => (onInsert p key, none)
  | .onAccess key => (onAccess p key, none)
  | .evict => ((evict p order).2, (evict p order).1)
  | .reset => (reset p, none)

/-- One call. -/
def CallStep (p : P) (e : PolicyCall K) (p' : P) : Prop := exec p e.order e.op = (p', e.returned)

omit [DecidableEq K] in
theorem CallStep.evict_eq {p p' : P} {order : HashOrder K} {returned : Option K}
    (h : CallStep p ⟨.evict, order, returned⟩ p') : evict p order = (returned, p') := by
  obtain ⟨hp, hret⟩ := Prod.mk.inj h
  exact Prod.ext hret hp

/-- The calls of a run that makes these calls, and the policy they leave. -/
def script (p : P) (calls : List (HashOrder K × PolicyOp K)) : List (PolicyCall K) × P :=
  Run.script (fun p call => ⟨call.2, call.1, (exec p call.1 call.2).2⟩)
    (fun p call => (exec p call.1 call.2).1) p calls

/-- Executed from `p`, each call meets `C`. -/
def Meets (C : P → PolicyCall K → Prop) (p : P) (calls : List (HashOrder K × PolicyOp K)) : Prop :=
  Run.Admits (fun p call => C p ⟨call.2, call.1, (exec p call.1 call.2).2⟩)
    (fun p call => (exec p call.1 call.2).1) p calls

instance (C : P → PolicyCall K → Prop) [∀ p e, Decidable (C p e)] (p : P)
    (calls : List (HashOrder K × PolicyOp K)) : Decidable (Meets C p calls) := by
  unfold Meets; infer_instance

omit [DecidableEq K] in
theorem run_of_meets {C : P → PolicyCall K → Prop} (p : P) (calls : List (HashOrder K × PolicyOp K))
    (h : Meets C p calls) : Run (Guarded C CallStep) p (script p calls).1 (script p calls).2 :=
  Run.of_script (fun _ _ hok => ⟨hok, rfl⟩) calls p h

end EvictionPolicy

open EvictionPolicy

/-! ## Size -/

namespace LRU

/-- The position stored for `key` is one of the order. -/
def Replaces (p : LRU K) (key : K) : Prop :=
  ∃ idx ∈ p.keyIndex.lookup key, idx < p.accessOrder.length

instance (p : LRU K) (key : K) : Decidable (p.Replaces key) := by
  unfold Replaces; infer_instance

theorem size_unlink (p : LRU K) (key : K) :
    (p.unlink key).size = if p.Replaces key then p.size - 1 else p.size := by
  unfold unlink Replaces size
  split
  · rename_i idx hidx
    simp only [hidx, Option.mem_some_iff, exists_eq_left']
    exact List.length_eraseIdx ..
  · rename_i hnone
    simp [hnone]

theorem size_onAccess (p : LRU K) (key : K) :
    (p.onAccess key).size = if p.Replaces key then p.size else p.size + 1 := by
  have hsize : (p.onAccess key).size = (p.unlink key).size + 1 := by
    unfold onAccess size
    exact List.length_append
  rw [hsize, size_unlink]
  split
  · rename_i hr
    obtain ⟨idx, -, hlt⟩ := hr
    replace hlt : idx < p.size := hlt
    omega
  · rfl

end LRU

namespace LFU

theorem size_onAccess (p : LFU K) (key : K) :
    (p.onAccess key).size = if key ∈ p.accessCount then p.size else p.size + 1 := by
  split
  · rename_i hin
    exact AList.count_insert_of_mem _ hin
  · rename_i hin
    exact AList.count_insert _ hin

theorem size_onInsert (p : LFU K) (key : K) :
    (p.onInsert key).size = if key ∈ p.accessCount then p.size else p.size + 1 := by
  split
  · rename_i hin
    exact AList.count_insert_of_mem _ hin
  · rename_i hin
    exact AList.count_insert _ hin

end LFU

namespace BoxedPolicy

/-- A call that reports `key` takes back a place that `key` has. -/
def Replaces : BoxedPolicy K → K → Prop
  | .lru p, key => p.Replaces key
  | .lfu p, key => key ∈ p.accessCount

instance : (p : BoxedPolicy K) → (key : K) → Decidable (p.Replaces key)
  | .lru p, key => inferInstanceAs (Decidable (p.Replaces key))
  | .lfu p, key => inferInstanceAs (Decidable (key ∈ p.accessCount))

/-- The policy has `key` in all its data. -/
def Holds : BoxedPolicy K → K → Prop
  | .lru p, key => key ∈ p.accessOrder ∧ key ∈ p.keyIndex
  | .lfu p, key => key ∈ p.accessCount

/-- **`on_insert` and `on_access` leave one key more**, unless they take back a place. -/
theorem size_touch (p : BoxedPolicy K) (key : K) :
    (p.onInsert key).size = (if p.Replaces key then p.size else p.size + 1) ∧
      (p.onAccess key).size = if p.Replaces key then p.size else p.size + 1 := by
  cases p with
  | lru p => exact ⟨p.size_onAccess key, p.size_onAccess key⟩
  | lfu p => exact ⟨p.size_onInsert key, p.size_onAccess key⟩

theorem size_evict_le (p : BoxedPolicy K) (o : HashOrder K) : (p.evict o).2.size ≤ p.size := by
  cases hev : p.evict o with
  | mk victim p' =>
    cases victim with
    | none =>
      rw [evict_none_eq hev]
    | some key => exact Nat.le_of_lt (BoxedPolicy.size_evict hev)

omit [DecidableEq K] in
theorem size_reset (p : BoxedPolicy K) : p.reset.size = 0 := by
  cases p <;> rfl

theorem holds_touch (p : BoxedPolicy K) (key : K) :
    (p.onInsert key).Holds key ∧ (p.onAccess key).Holds key := by
  cases p with
  | lru p =>
    have hboth : key ∈ (p.onAccess key).accessOrder ∧ key ∈ (p.onAccess key).keyIndex :=
      ⟨p.mem_onAccess key, (p.mem_keyIndex_onAccess key key).2 (Or.inr rfl)⟩
    exact ⟨hboth, hboth⟩
  | lfu p => exact ⟨(AList.mem_insert _).2 (Or.inl rfl), (AList.mem_insert _).2 (Or.inl rfl)⟩

end BoxedPolicy

/-! ## The tracking capacity -/

/-- A call that leaves no more than `c` keys, and the key it reports among them. -/
structure Honours (c : Nat) (p : BoxedPolicy K) (e : PolicyCall K) (p' : BoxedPolicy K) : Prop where
  step : CallStep p e p'
  size_le : p'.size ≤ c
  holds : ∀ key ∈ e.op.reported, p'.Holds key

/-- The key that the call reports finds a place: a free one of `c`, or one it has already. -/
def HasPlace (c : Nat) (p : BoxedPolicy K) (e : PolicyCall K) : Prop :=
  ∀ key ∈ e.op.reported, p.size < c ∨ p.Replaces key

instance (c : Nat) (p : BoxedPolicy K) (e : PolicyCall K) : Decidable (HasPlace c p e) := by
  unfold HasPlace; infer_instance

/-- Every call leaves the key it reports tracked. -/
theorem holds_of_step {p p' : BoxedPolicy K} {e : PolicyCall K} (hstep : CallStep p e p') :
    ∀ key ∈ e.op.reported, p'.Holds key := by
  obtain ⟨op, order, returned⟩ := e
  intro key hkey
  cases op with
  | onInsert k => cases hstep; cases hkey; exact (p.holds_touch key).1
  | onAccess k => cases hstep; cases hkey; exact (p.holds_touch key).2
  | evict => cases hkey
  | reset => cases hkey

/-- From within the capacity, a call stays there exactly if its key finds a place. -/
theorem size_le_iff_hasPlace {c : Nat} {p p' : BoxedPolicy K} {e : PolicyCall K} (hle : p.size ≤ c)
    (hstep : CallStep p e p') : p'.size ≤ c ↔ HasPlace c p e := by
  obtain ⟨op, order, returned⟩ := e
  have htouch : ∀ key, ((if p.Replaces key then p.size else p.size + 1) ≤ c ↔
      p.size < c ∨ p.Replaces key) := by
    intro key
    split
    · rename_i hr
      exact iff_of_true hle (Or.inr hr)
    · rename_i hr
      constructor
      · exact fun h => Or.inl h
      · exact fun h => h.resolve_right hr
  cases op with
  | onInsert key =>
    cases hstep
    show (p.onInsert key).size ≤ c ↔ HasPlace c p _
    rw [(p.size_touch key).1, htouch key]
    simp [HasPlace, PolicyOp.reported]
  | onAccess key =>
    cases hstep
    show (p.onAccess key).size ≤ c ↔ HasPlace c p _
    rw [(p.size_touch key).2, htouch key]
    simp [HasPlace, PolicyOp.reported]
  | evict =>
    obtain ⟨rfl, -⟩ := Prod.mk.inj hstep
    exact iff_of_true (Nat.le_trans (p.size_evict_le order) hle) fun key hkey => by cases hkey
  | reset =>
    cases hstep
    refine iff_of_true ?_ fun key hkey => by cases hkey
    show p.reset.size ≤ c
    rw [p.size_reset]
    exact Nat.zero_le c

/-- **When a policy honours its tracking capacity.**  A run of `on_insert`, `on_access`, `evict` and
`reset` from `LRU::new(c)` or `LFU::new(c)` never tracks more than `c` keys, with the reported key among
them after every call, exactly if each `on_insert` and `on_access` finds fewer than `c` keys or takes
back a place of its key. -/
theorem tracking_within_capacity_iff {c : Nat} {hc : 0 < c} {p₀ : BoxedPolicy K}
    (h₀ : p₀ = .lru (LRU.new K c hc) ∨ p₀ = .lfu (LFU.new K c hc)) {es : List (PolicyCall K)}
    {p : BoxedPolicy K} : Run (Honours c) p₀ es p ↔ Run (Guarded (HasPlace c) CallStep) p₀ es p := by
  have hempty : p₀.size ≤ c := by
    rcases h₀ with rfl | rfl
    · exact Nat.zero_le c
    · exact Nat.zero_le c
  have hiff : Run (Landing (fun p : BoxedPolicy K => p.size ≤ c) CallStep) p₀ es p ↔
      Run (Guarded (HasPlace c) CallStep) p₀ es p :=
    run_landing_iff (fun _ => True) (fun p : BoxedPolicy K => p.size ≤ c) trivial hempty
      (fun _ _ _ _ _ => trivial) fun _ _ _ _ hle hstep => size_le_iff_hasPlace hle hstep
  rw [← hiff]
  constructor
  · exact fun h => h.mono fun _ _ _ hon => ⟨hon.step, hon.size_le⟩
  · exact fun h => h.mono fun _ _ _ hland => ⟨hland.1, hland.2, holds_of_step hland.1⟩

/-- Two keys, one of them accessed twice, where two are to be tracked. -/
def twoKeys : List (HashOrder UInt64 × PolicyOp UInt64) :=
  [(.id _, .onInsert 1), (.id _, .onAccess 2), (.id _, .onAccess 1), (.id _, .evict),
    (.id _, .onAccess 1)]

theorem tracking_within_capacity_two_keys :
    Run (Honours 2) (.lfu (LFU.new UInt64 2 Nat.two_pos))
      (script (BoxedPolicy.lfu (LFU.new UInt64 2 Nat.two_pos)) twoKeys).1
      (script (BoxedPolicy.lfu (LFU.new UInt64 2 Nat.two_pos)) twoKeys).2 :=
  (tracking_within_capacity_iff (Or.inr rfl)).2 (run_of_meets _ twoKeys (by decide))

/-- Two keys are inserted where one is to be tracked. -/
def twoInserts : List (HashOrder UInt64 × PolicyOp UInt64) :=
  [(.id _, .onInsert 1), (.id _, .onInsert 2)]

/-- `on_insert(1)` and `on_insert(2)` on a new policy of capacity 1 leave it with two keys, whichever of
the two policies it is. -/
theorem tracking_exceeds_capacity :
    (Run CallStep (BoxedPolicy.lru (LRU.new UInt64 1 Nat.one_pos))
        (script (BoxedPolicy.lru (LRU.new UInt64 1 Nat.one_pos)) twoInserts).1
        (script (BoxedPolicy.lru (LRU.new UInt64 1 Nat.one_pos)) twoInserts).2 ∧
      (script (BoxedPolicy.lru (LRU.new UInt64 1 Nat.one_pos)) twoInserts).2.size = 2) ∧
    (Run CallStep (BoxedPolicy.lfu (LFU.new UInt64 1 Nat.one_pos))
        (script (BoxedPolicy.lfu (LFU.new UInt64 1 Nat.one_pos)) twoInserts).1
        (script (BoxedPolicy.lfu (LFU.new UInt64 1 Nat.one_pos)) twoInserts).2 ∧
      (script (BoxedPolicy.lfu (LFU.new UInt64 1 Nat.one_pos)) twoInserts).2.size = 2) ∧
    ¬ ∀ (p : BoxedPolicy UInt64) (es : List (PolicyCall UInt64)),
        Run CallStep (.lru (LRU.new UInt64 1 Nat.one_pos)) es p → p.size ≤ 1 := by
  have hlru : Run (Guarded (fun _ _ => True) CallStep)
      (BoxedPolicy.lru (LRU.new UInt64 1 Nat.one_pos)) _ _ :=
    run_of_meets _ twoInserts (by decide)
  have hlfu : Run (Guarded (fun _ _ => True) CallStep)
      (BoxedPolicy.lfu (LFU.new UInt64 1 Nat.one_pos)) _ _ :=
    run_of_meets _ twoInserts (by decide)
  refine ⟨⟨hlru.of_guarded, by decide⟩, ⟨hlfu.of_guarded, by decide⟩, fun h => ?_⟩
  have hsize := h _ _ hlru.of_guarded
  exact absurd hsize (by decide)

end CacheLayer
