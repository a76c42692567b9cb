import CacheLayer.Eviction

/-!
# What the eviction policies do

* `LRU.Accurate p key` — the position `p` stores for `key`, if it stores one, is `key`'s position.
  Then `on_access` is a touch of the recency list (`LRU.Coherent.accessOrder_onAccess`).  `evict`
  pops the front without renumbering, so a policy that has evicted is in general not accurate.
* `LFU.scan_spec` — the search for the minimum returns a least count below `usize::MAX`, if there is
  one.
* `BoxedPolicy.Tracks p key` — `evict` can still come to name `key`; `BoxedPolicy.not_tracks_of_none`
  and `BoxedPolicy.Tracks.evict` are what that means.
* `BoxedPolicy.Remembers p key` — `key` takes up memory in the policy; `BoxedPolicy.Indexes p key` — it
  does so in the policy's map, which for a coherent policy is the same (`BoxedPolicy.Coherent.indexes`).
-/

set_option autoImplicit false

namespace CacheLayer

variable {K : Type} [DecidableEq K]

/-! ## LRU -/

namespace LRU

/-- The position stored for `key` is its position. -/
def Accurate (p : LRU K) (key : K) : Prop :=
  ∀ idx ∈ p.keyIndex.lookup key, p.accessOrder[idx]? = some key

instance (p : LRU K) (key : K) : Decidable (p.Accurate key) := by
  unfold Accurate; infer_instance

theorem accurate_of_notMem {p : LRU K} {key : K} (h : key ∉ p.keyIndex) : p.Accurate key := by
  intro idx hidx
  exact absurd (AList.mem_of_lookup hidx) h

/-- The order holds each key once, and the index knows the keys of the order. -/
structure Coherent (p : LRU K) : Prop where
  nodup : p.accessOrder.Nodup
  mem_iff : ∀ k, k ∈ p.keyIndex ↔ k ∈ p.accessOrder

omit [DecidableEq K] in
theorem Coherent.new (n : Nat) (hn : 0 < n) : (LRU.new K n hn).Coherent where
  nodup := List.nodup_nil
  mem_iff k := by simp [LRU.new]

omit [DecidableEq K] in
theorem Coherent.reset (p : LRU K) : p.reset.Coherent where
  nodup := List.nodup_nil
  mem_iff k := by simp [LRU.reset]

theorem mem_keyIndex_onAccess (p : LRU K) (key k : K) :
    k ∈ (p.onAccess key).keyIndex ↔ k ∈ p.keyIndex ∨ k = key := by
  have hunlink : k ∈ (p.unlink key).keyIndex ↔ k ∈ p.keyIndex := by
    unfold unlink
    split
    · exact AList.mem_mapVals
    · exact Iff.rfl
  unfold onAccess
  simp only [AList.mem_insert, hunlink]
  exact or_comm

/-- The key of the call is always at the recent end. -/
theorem mem_onAccess (p : LRU K) (key : K) : key ∈ (p.onAccess key).accessOrder := by
  simp [onAccess]

namespace Coherent

variable {p : LRU K}

/-- With an accurate index, removing by position is removing the key. -/
theorem accessOrder_unlink (h : p.Coherent) {key : K} (ha : p.Accurate key) :
    (p.unlink key).accessOrder = p.accessOrder.erase key := by
  unfold unlink
  split
  · rename_i idx hidx
    exact Recency.eraseIdx_eq_erase h.nodup (ha idx hidx)
  · rename_i hnone
    have hnot : key ∉ p.accessOrder := by
      intro hin
      exact AList.lookup_eq_none.1 hnone ((h.mem_iff key).2 hin)
    exact (List.erase_of_not_mem hnot).symm

/-- **With an accurate index `on_access` is a touch.** -/
theorem accessOrder_onAccess (h : p.Coherent) {key : K} (ha : p.Accurate key) :
    (p.onAccess key).accessOrder = Recency.touch p.accessOrder key := by
  unfold onAccess Recency.touch
  simp only [h.accessOrder_unlink ha]

theorem onAccess (h : p.Coherent) {key : K} (ha : p.Accurate key) : (p.onAccess key).Coherent where
  nodup := by
    rw [h.accessOrder_onAccess ha]
    exact Recency.nodup_touch h.nodup key
  mem_iff k := by
    rw [mem_keyIndex_onAccess, h.accessOrder_onAccess ha, Recency.mem_touch, h.mem_iff]

/-- `evict` pops the front and forgets its position. -/
theorem evict (h : p.Coherent) {key : K} {p' : LRU K} (he : p.evict = (some key, p')) :
    p.accessOrder = key :: p'.accessOrder ∧ p'.Coherent := by
  have hnd := h.nodup
  have hmem := h.mem_iff
  unfold LRU.evict at he
  split at he
  · rename_i x rest horder
    cases he
    rw [horder] at hnd hmem
    have hne := (List.nodup_cons.1 hnd).1
    refine ⟨horder, (List.nodup_cons.1 hnd).2, ?_⟩
    intro k
    show k ∈ p.keyIndex.erase key ↔ k ∈ rest
    rw [AList.mem_erase, hmem, List.mem_cons]
    constructor
    · rintro ⟨hkx, rfl | hk⟩
      · exact absurd rfl hkx
      · exact hk
    · intro hk
      exact ⟨fun hkx => hne (hkx ▸ hk), Or.inr hk⟩
  · cases he

end Coherent

theorem notMem_keyIndex_of_evict {p p' : LRU K} {key : K} (h : p.evict = (some key, p')) :
    key ∉ p'.keyIndex := by
  unfold evict at h
  split at h
  · cases h
    simp [AList.mem_erase]
  · cases h

theorem keyIndex_sub_of_evict {p p' : LRU K} {key k : K} (h : p.evict = (some key, p'))
    (hk : k ∉ p.keyIndex) : k ∉ p'.keyIndex := by
  unfold evict at h
  split at h
  · cases h
    simp [AList.mem_erase, hk]
  · cases h

/-- Only an empty policy names no key. -/
theorem evict_none {p p' : LRU K} (h : p.evict = (none, p')) : p.accessOrder = [] := by
  unfold evict at h
  split at h
  · cases h
  · assumption

end LRU

/-! ## LFU -/

namespace LFU

omit [DecidableEq K] in
/-- The running minimum: below what it started with and below every count seen, and one of them. -/
theorem foldl_scanStep : ∀ (l : List (Σ _ : K, Nat)) (best : Option K × Nat),
    (l.foldl scanStep best).2 ≤ best.2 ∧ (∀ s ∈ l, (l.foldl scanStep best).2 ≤ s.2) ∧
      (l.foldl scanStep best = best ∨ ∃ s ∈ l, l.foldl scanStep best = (some s.1, s.2))
  | [], best => by
    refine ⟨Nat.le_refl _, ?_, Or.inl rfl⟩
    intro s hs
    cases hs
  | s :: l, best => by
    obtain ⟨hle, hall, hsel⟩ := foldl_scanStep l (scanStep best s)
    rw [List.foldl_cons]
    have hstep : (scanStep best s).2 ≤ best.2 ∧ (scanStep best s).2 ≤ s.2 ∧
        (scanStep best s = best ∨ scanStep best s = (some s.1, s.2)) := by
      unfold scanStep
      split
      · rename_i hlt
        exact ⟨Nat.le_of_lt hlt, Nat.le_refl _, Or.inr rfl⟩
      · rename_i hlt
        exact ⟨Nat.le_refl _, Nat.not_lt.1 hlt, Or.inl rfl⟩
    obtain ⟨h₁, h₂, h₃⟩ := hstep
    refine ⟨Nat.le_trans hle h₁, ?_, ?_⟩
    · intro s' hs'
      rcases List.mem_cons.1 hs' with rfl | hs'
      · exact Nat.le_trans hle h₂
      · exact hall s' hs'
    · rcases hsel with hsel | ⟨s', hs', hsel⟩
      · rw [hsel]
        rcases h₃ with h₃ | h₃
        · exact Or.inl h₃
        · exact Or.inr ⟨s, List.mem_cons_self, h₃⟩
      · exact Or.inr ⟨s', List.mem_cons_of_mem _ hs', hsel⟩

omit [DecidableEq K] in
/-- **The search returns a least count below `usize::MAX`, or there is none.** -/
theorem scan_spec (l : List (Σ _ : K, Nat)) :
    (scan l = (none, usizeMax) ∧ ∀ s ∈ l, usizeMax ≤ s.2) ∨
      ∃ s ∈ l, scan l = (some s.1, s.2) ∧ ∀ s' ∈ l, s.2 ≤ s'.2 := by
  obtain ⟨-, hall, hsel⟩ := foldl_scanStep l (none, usizeMax)
  unfold scan
  rcases hsel with hsel | ⟨s, hs, hsel⟩
  · rw [hsel] at hall ⊢
    exact Or.inl ⟨rfl, hall⟩
  · rw [hsel] at hall ⊢
    exact Or.inr ⟨s, hs, rfl, hall⟩

omit [DecidableEq K] in
/-- The search names a key only after a count below `usize::MAX`. -/
theorem scan_lt {l : List (Σ _ : K, Nat)} {key : K} (h : (scan l).1 = some key) :
    (scan l).2 < usizeMax := by
  have hI : ∀ (l : List (Σ _ : K, Nat)) (best : Option K × Nat), best.1 = none ∧ best.2 = usizeMax ∨
      best.2 < usizeMax → (l.foldl scanStep best).1 = none ∧ (l.foldl scanStep best).2 = usizeMax ∨
        (l.foldl scanStep best).2 < usizeMax := by
    intro l
    induction l with
    | nil => exact fun best hb => hb
    | cons s l ih =>
      intro best hb
      refine ih (scanStep best s) ?_
      unfold scanStep
      split
      · right
        rcases hb with ⟨-, hb⟩ | hb <;> simp only <;> omega
      · exact hb
  rcases hI l (none, usizeMax) (Or.inl ⟨rfl, rfl⟩) with ⟨hnone, -⟩ | hlt
  · unfold scan at h
    rw [hnone] at h
    cases h
  · exact hlt

theorem evict_none {p p' : LFU K} {o : HashOrder K} (h : p.evict o = (none, p')) {key : K} {n : Nat}
    (hl : p.accessCount.lookup key = some n) : usizeMax ≤ n := by
  unfold evict at h
  split at h
  · cases h
  · rename_i hscan
    rcases scan_spec (o.iter p.accessCount.entries) with ⟨-, hall⟩ | ⟨s, -, hsel, -⟩
    · exact hall ⟨key, n⟩ ((o.perm _).mem_iff.2 (AList.entry_of_lookup hl))
    · rw [hsel] at hscan
      cases hscan

theorem evict_none_eq {p p' : LFU K} {o : HashOrder K} (h : p.evict o = (none, p')) : p' = p := by
  unfold evict at h
  split at h
  · cases h
  · exact (Prod.mk.inj h).2.symm

theorem evict_some {p p' : LFU K} {o : HashOrder K} {key : K} (h : p.evict o = (some key, p')) :
    p'.accessCount = p.accessCount.erase key := by
  unfold evict at h
  split at h <;> cases h
  rfl

/-- The victim has a least count, which is below `usize::MAX`. -/
theorem evict_least {p p' : LFU K} {o : HashOrder K} {victim : K}
    (h : p.evict o = (some victim, p')) :
    ∃ n, p.accessCount.lookup victim = some n ∧ n < usizeMax ∧
      ∀ key m, p.accessCount.lookup key = some m → n ≤ m := by
  unfold evict at h
  split at h
  · rename_i key hscan
    cases h
    have hlt : (scan (o.iter p.accessCount.entries)).2 < usizeMax := scan_lt hscan
    rcases scan_spec (o.iter p.accessCount.entries) with ⟨hnone, -⟩ | ⟨s, hs, hsel, hall⟩
    · rw [hnone] at hscan
      cases hscan
    · rw [hsel] at hscan hlt
      cases hscan
      refine ⟨s.2, AList.lookup_of_entry ((o.perm _).mem_iff.1 hs), hlt, ?_⟩
      intro key m hl
      exact hall ⟨key, m⟩ ((o.perm _).mem_iff.2 (AList.entry_of_lookup hl))
  · cases h

theorem evict_tracked {p p' : LFU K} {o : HashOrder K} {victim : K}
    (h : p.evict o = (some victim, p')) :
    ∃ n, p.accessCount.lookup victim = some n ∧ n < usizeMax := by
  obtain ⟨n, hl, hlt, -⟩ := evict_least h
  exact ⟨n, hl, hlt⟩

end LFU

/-! ## Tracked keys -/

namespace BoxedPolicy

/-- `evict` can come to name `key`: it is in the order, or its count is one the search can find. -/
def Tracks : BoxedPolicy K → K → Prop
  | .lru p, key => key ∈ p.accessOrder
  | .lfu p, key => ∃ n, p.accessCount.lookup key = some n ∧ n < usizeMax

instance : (p : BoxedPolicy K) → (key : K) → Decidable (p.Tracks key)
  | .lru p, key => inferInstanceAs (Decidable (key ∈ p.accessOrder))
  | .lfu p, key => inferInstanceAs (Decidable (∃ n ∈ p.accessCount.lookup key, n < usizeMax))

/-- `on_access(key)` does not raise the count of `key` to `usize::MAX`. -/
def CountFits : BoxedPolicy K → K → Prop
  | .lru _, _ => True
  | .lfu p, key => p.getCount key + 1 < usizeMax

instance : (p : BoxedPolicy K) → (key : K) → Decidable (p.CountFits key)
  | .lru _, _ => isTrue trivial
  | .lfu p, key => inferInstanceAs (Decidable (p.getCount key + 1 < usizeMax))

theorem tracks_onInsert (p : BoxedPolicy K) (key : K) : (p.onInsert key).Tracks key := by
  cases p with
  | lru p => exact p.mem_onAccess key
  | lfu p => exact ⟨1, AList.lookup_insert _, by decide⟩

theorem tracks_onAccess {p : BoxedPolicy K} {key : K} (h : p.CountFits key) :
    (p.onAccess key).Tracks key := by
  cases p with
  | lru p => exact p.mem_onAccess key
  | lfu p => exact ⟨p.getCount key + 1, AList.lookup_insert _, h⟩

/-- A policy that names no key tracks none. -/
theorem not_tracks_of_none {p p' : BoxedPolicy K} {o : HashOrder K} (h : p.evict o = (none, p'))
    (key : K) : ¬ p.Tracks key := by
  cases p with
  | lru p =>
    have hnil := LRU.evict_none (Prod.ext (Prod.mk.inj h).1 rfl : p.evict = (none, p.evict.2))
    intro hin
    replace hin : key ∈ p.accessOrder := hin
    rw [hnil] at hin
    cases hin
  | lfu p =>
    have hev : p.evict o = (none, (p.evict o).2) := Prod.ext (Prod.mk.inj h).1 rfl
    rintro ⟨n, hl, hlt⟩
    have := LFU.evict_none hev hl
    omega

/-- Naming a victim loses track of the victim only. -/
theorem Tracks.evict {p p' : BoxedPolicy K} {o : HashOrder K} {key victim : K} (h : p.Tracks key)
    (he : p.evict o = (some victim, p')) (hne : key ≠ victim) : p'.Tracks key := by
  cases p with
  | lru p =>
    obtain ⟨hv, rfl⟩ := Prod.mk.inj he
    show key ∈ p.evict.2.accessOrder
    have hin : key ∈ p.accessOrder := h
    unfold LRU.evict at hv ⊢
    split at hv
    · rename_i horder
      cases hv
      rw [horder] at hin
      exact (List.mem_cons.1 hin).resolve_left hne
    · cases hv
  | lfu p =>
    obtain ⟨hv, rfl⟩ := Prod.mk.inj he
    obtain ⟨n, hl, hlt⟩ := h
    have hev : p.evict o = (some victim, (p.evict o).2) := Prod.ext hv rfl
    refine ⟨n, ?_, hlt⟩
    show (p.evict o).2.accessCount.lookup key = some n
    rw [LFU.evict_some hev, AList.lookup_erase_ne hne, hl]

/-- What the policy names it tracks. -/
theorem tracks_of_evict {p p' : BoxedPolicy K} {o : HashOrder K} {victim : K}
    (h : p.evict o = (some victim, p')) : p.Tracks victim := by
  cases p with
  | lru p =>
    obtain ⟨hv, -⟩ := Prod.mk.inj h
    show victim ∈ p.accessOrder
    unfold LRU.evict at hv
    split at hv
    · rename_i horder
      cases hv
      rw [horder]
      exact List.mem_cons_self
    · cases hv
  | lfu p =>
    obtain ⟨hv, -⟩ := Prod.mk.inj h
    exact LFU.evict_tracked (Prod.ext hv rfl : p.evict o = (some victim, (p.evict o).2))

/-- Naming a victim makes the policy track nothing new. -/
theorem Tracks.of_evict {p p' : BoxedPolicy K} {o : HashOrder K} {key victim : K}
    (h : p'.Tracks key) (he : p.evict o = (some victim, p')) : p.Tracks key := by
  cases p with
  | lru p =>
    obtain ⟨hv, rfl⟩ := Prod.mk.inj he
    replace h : key ∈ p.evict.2.accessOrder := h
    show key ∈ p.accessOrder
    unfold LRU.evict at h
    split at h
    · rename_i horder
      rw [horder]
      exact List.mem_cons_of_mem _ h
    · exact h
  | lfu p =>
    obtain ⟨hv, rfl⟩ := Prod.mk.inj he
    obtain ⟨n, hl, hlt⟩ := h
    have hev : p.evict o = (some victim, (p.evict o).2) := Prod.ext hv rfl
    replace hl : (p.evict o).2.accessCount.lookup key = some n := hl
    rw [LFU.evict_some hev] at hl
    exact ⟨n, AList.sub_erase _ _ key n hl, hlt⟩

/-- A policy that names no key stays as it is. -/
theorem evict_none_eq {p p' : BoxedPolicy K} {o : HashOrder K} (h : p.evict o = (none, p')) :
    p' = p := by
  cases p with
  | lru p =>
    obtain ⟨hv, rfl⟩ := Prod.mk.inj h
    show BoxedPolicy.lru p.evict.2 = .lru p
    unfold LRU.evict at hv ⊢
    split at hv
    · cases hv
    · rfl
  | lfu p =>
    obtain ⟨hv, rfl⟩ := Prod.mk.inj h
    have hev : p.evict o = (none, (p.evict o).2) := Prod.ext hv rfl
    exact congrArg BoxedPolicy.lfu (LFU.evict_none_eq hev)

/-! ## Remembered keys -/

/-- The policy holds data for `key`. -/
def Remembers : BoxedPolicy K → K → Prop
  | .lru p, key => key ∈ p.accessOrder ∨ key ∈ p.keyIndex
  | .lfu p, key => key ∈ p.accessCount

omit [DecidableEq K] in
theorem not_remembers_lru_new (n : Nat) (hn : 0 < n) (key : K) :
    ¬ (lru (LRU.new K n hn)).Remembers key := fun h =>
  h.elim List.not_mem_nil (AList.notMem_empty key)

/-- Naming a victim makes the policy forget the victim only. -/
theorem Remembers.evict {p p' : BoxedPolicy K} {o : HashOrder K} {key victim : K}
    (h : p.Remembers key) (he : p.evict o = (some victim, p')) (hne : key ≠ victim) :
    p'.Remembers key := by
  cases p with
  | lru p =>
    obtain ⟨hv, rfl⟩ := Prod.mk.inj he
    replace h : key ∈ p.accessOrder ∨ key ∈ p.keyIndex := h
    show key ∈ p.evict.2.accessOrder ∨ key ∈ p.evict.2.keyIndex
    unfold LRU.evict at hv ⊢
    split at hv
    · rename_i horder
      cases hv
      rw [horder] at h
      refine h.imp (fun h => (List.mem_cons.1 h).resolve_left hne) fun h => ?_
      exact AList.mem_erase.2 ⟨hne, h⟩
    · cases hv
  | lfu p =>
    obtain ⟨hv, rfl⟩ := Prod.mk.inj he
    have hev : p.evict o = (some victim, (p.evict o).2) := Prod.ext hv rfl
    show key ∈ (p.evict o).2.accessCount
    rw [LFU.evict_some hev]
    exact AList.mem_erase.2 ⟨hne, h⟩

/-! ## Indexed keys -/

/-- `key` has an entry in the policy's map: in `key_index`, or in `access_count`. -/
def Indexes : BoxedPolicy K → K → Prop
  | .lru p, key => key ∈ p.keyIndex
  | .lfu p, key => key ∈ p.accessCount

omit [DecidableEq K] in
theorem remembers_of_indexes {p : BoxedPolicy K} {key : K} (h : p.Indexes key) :
    p.Remembers key := by
  cases p with
  | lru p => exact Or.inr h
  | lfu p => exact h

theorem indexes_onAccess {p : BoxedPolicy K} {key k : K} :
    (p.onAccess key).Indexes k ↔ p.Indexes k ∨ k = key := by
  cases p with
  | lru p => exact p.mem_keyIndex_onAccess key k
  | lfu p => exact (AList.mem_insert _).trans or_comm

theorem indexes_onInsert {p : BoxedPolicy K} {key k : K} :
    (p.onInsert key).Indexes k ↔ p.Indexes k ∨ k = key := by
  cases p with
  | lru p => exact p.mem_keyIndex_onAccess key k
  | lfu p => exact (AList.mem_insert _).trans or_comm

omit [DecidableEq K] in
theorem not_indexes_reset (p : BoxedPolicy K) (key : K) : ¬ p.reset.Indexes key := by
  cases p with
  | lru p => exact AList.notMem_empty key
  | lfu p => exact AList.notMem_empty key

/-- Naming a victim removes the victim from the policy's map, and nothing else. -/
theorem indexes_of_evict {p p' : BoxedPolicy K} {o : HashOrder K} {victim : K}
    (he : p.evict o = (some victim, p')) {key : K} :
    p'.Indexes key ↔ key ≠ victim ∧ p.Indexes key := by
  cases p with
  | lru p =>
    obtain ⟨hv, rfl⟩ := Prod.mk.inj he
    show key ∈ p.evict.2.keyIndex ↔ key ≠ victim ∧ key ∈ p.keyIndex
    unfold LRU.evict at hv ⊢
    split at hv
    · cases hv
      exact AList.mem_erase
    · cases hv
  | lfu p =>
    obtain ⟨hv, rfl⟩ := Prod.mk.inj he
    have hev : p.evict o = (some victim, (p.evict o).2) := Prod.ext hv rfl
    show key ∈ (p.evict o).2.accessCount ↔ key ≠ victim ∧ key ∈ p.accessCount
    rw [LFU.evict_some hev]
    exact AList.mem_erase

/-! ## Accuracy -/

/-- The position an LRU policy stores for `key`, if it stores one, is its position. -/
def Accurate : BoxedPolicy K → K → Prop
  | .lru p, key => p.Accurate key
  | .lfu _, _ => True

instance : (p : BoxedPolicy K) → (key : K) → Decidable (p.Accurate key)
  | .lru p, key => inferInstanceAs (Decidable (p.Accurate key))
  | .lfu _, _ => isTrue trivial

/-- An LRU policy holds each key once in its order, and its map knows the keys of the order. -/
def Coherent : BoxedPolicy K → Prop
  | .lru p => p.Coherent
  | .lfu _ => True

theorem Coherent.onAccess {p : BoxedPolicy K} (h : p.Coherent) {key : K} (ha : p.Accurate key) :
    (p.onAccess key).Coherent := by
  cases p with
  | lru p => exact LRU.Coherent.onAccess h ha
  | lfu p => exact trivial

theorem Coherent.onInsert {p : BoxedPolicy K} (h : p.Coherent) {key : K} (ha : p.Accurate key) :
    (p.onInsert key).Coherent := by
  cases p with
  | lru p => exact LRU.Coherent.onAccess h ha
  | lfu p => exact trivial

theorem Coherent.evict {p p' : BoxedPolicy K} (h : p.Coherent) {o : HashOrder K} {victim : K}
    (he : p.evict o = (some victim, p')) : p'.Coherent := by
  cases p with
  | lru p =>
    obtain ⟨hv, rfl⟩ := Prod.mk.inj he
    exact (LRU.Coherent.evict h (Prod.ext hv rfl : p.evict = (some victim, p.evict.2))).2
  | lfu p =>
    obtain ⟨-, rfl⟩ := Prod.mk.inj he
    exact trivial

omit [DecidableEq K] in
theorem coherent_reset (p : BoxedPolicy K) : p.reset.Coherent := by
  cases p with
  | lru p => exact LRU.Coherent.reset p
  | lfu p => exact trivial

omit [DecidableEq K] in
/-- A policy that remembers nothing is coherent. -/
theorem coherent_of_forgetful {p : BoxedPolicy K} (h : ∀ key, ¬ p.Remembers key) : p.Coherent := by
  cases p with
  | lru p =>
    have horder : p.accessOrder = [] :=
      List.eq_nil_iff_forall_not_mem.2 fun key hkey => h key (Or.inl hkey)
    refine ⟨by rw [horder]; exact List.nodup_nil, fun key => ⟨fun hkey => ?_, fun hkey => ?_⟩⟩
    · exact absurd (Or.inr hkey) (h key)
    · exact absurd (Or.inl hkey) (h key)
  | lfu p => exact trivial

omit [DecidableEq K] in
/-- What a coherent policy remembers is in its map. -/
theorem Coherent.indexes {p : BoxedPolicy K} (h : p.Coherent) {key : K} (hk : p.Remembers key) :
    p.Indexes key := by
  cases p with
  | lru p => exact hk.elim (fun hin => ((LRU.Coherent.mem_iff h) key).2 hin) id
  | lfu p => exact hk

omit [DecidableEq K] in
/-- A coherent policy is as large as its map, so not larger than any list of keys that contains it. -/
theorem Coherent.size_le {p : BoxedPolicy K} (h : p.Coherent) {keys : List K}
    (hkeys : ∀ key, p.Indexes key → key ∈ keys) : p.size ≤ keys.length := by
  cases p with
  | lru p =>
    have hsub : p.accessOrder ⊆ keys := fun key hkey =>
      hkeys key (((LRU.Coherent.mem_iff h) key).2 hkey)
    exact (List.subperm_of_subset (LRU.Coherent.nodup h) hsub).length_le
  | lfu p =>
    have hsub : p.accessCount.keys ⊆ keys := fun key hkey => hkeys key (AList.mem_keys.2 hkey)
    show p.accessCount.count ≤ keys.length
    rw [AList.count_eq_keys_length]
    exact (List.subperm_of_subset p.accessCount.keys_nodup hsub).length_le

end BoxedPolicy

end CacheLayer
