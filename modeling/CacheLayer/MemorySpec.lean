import CacheLayer.Memory

/-!
# What the methods of `MemoryCache` do

* `LoopHead` — the states in which the condition of the eviction loop is evaluated;
  `evictForSpace_cases` says how the loop ends, `LoopHead.invariant` what holds at every head.
* `set_cases`, `get_cases` — how a call of the method ends, with the state it leaves.
* `evictForSpace_sub`, `set_sub`, `set_lookup_self`, `get_lookup`, … — the effect on the map alone:
  every method forgets entries, and only a successful `set` writes one.
-/

set_option autoImplicit false

namespace CacheLayer.MemoryCache

/-! ## Sections and map accesses -/

section Sections

variable {K V P : Type}

@[simp] theorem releaseEntry_entries (c : MemoryCache K V P) (n : Nat) :
    (c.releaseEntry n).1.entries = c.entries := by
  unfold releaseEntry; simp only; split <;> rfl

@[simp] theorem releaseEntry_capacity (c : MemoryCache K V P) (n : Nat) :
    (c.releaseEntry n).1.capacityBytes = c.capacityBytes := by
  unfold releaseEntry; simp only; split <;> rfl

@[simp] theorem releaseEntry_policy (c : MemoryCache K V P) (n : Nat) :
    (c.releaseEntry n).1.evictionPolicy = c.evictionPolicy := by
  unfold releaseEntry; simp only; split <;> rfl

variable [DecidableEq K]

theorem touchEntry_lookup (c : MemoryCache K V P) (key k : K) (now : Instant) :
    (c.touchEntry key now).entries.lookup k =
      (c.entries.lookup k).map fun e => if k = key then { e with lastAccess := now } else e := by
  simp [touchEntry]

theorem dropVictim_entries (c : MemoryCache K V P) (key : K) :
    (c.dropVictim key).1.entries = c.entries.erase key := by
  unfold dropVictim
  split
  · simp [countEviction, removeEntry]
  · rename_i h
    exact (AList.erase_of_notMem (AList.lookup_eq_none.1 h)).symm

@[simp] theorem dropVictim_capacity (c : MemoryCache K V P) (key : K) :
    (c.dropVictim key).1.capacityBytes = c.capacityBytes := by
  unfold dropVictim
  split
  · simp [countEviction, removeEntry]
  · rfl

theorem takeOld_of_lookup {c : MemoryCache K V P} {key : K} {e : CachedValue V}
    (hl : c.entries.lookup key = some e) :
    c.takeOld key = ((c.removeEntry key).debit e.sizeBytes, some e.sizeBytes) := by
  unfold takeOld; rw [hl]

theorem takeOld_of_notMem {c : MemoryCache K V P} {key : K} (h : key ∉ c.entries) :
    c.takeOld key = (c, none) := by
  unfold takeOld; rw [AList.lookup_eq_none.2 h]

theorem dropVictim_of_notMem {c : MemoryCache K V P} {key : K} (h : key ∉ c.entries) :
    c.dropVictim key = (c, none) := by
  unfold dropVictim; rw [AList.lookup_eq_none.2 h]

theorem takeOld_entries (c : MemoryCache K V P) (key : K) :
    (c.takeOld key).1.entries = c.entries.erase key := by
  unfold takeOld
  split
  · rfl
  · rename_i h
    exact (AList.erase_of_notMem (AList.lookup_eq_none.1 h)).symm

theorem delete_entries (c : MemoryCache K V P) (key : K) :
    (c.delete key).1.entries = c.entries.erase key := by
  unfold delete
  split
  · rename_i entry h
    have he := releaseEntry_entries (c.removeEntry key) entry.sizeBytes
    split
    all_goals rename_i hr; rw [hr] at he; exact he
  · rename_i h
    exact (AList.erase_of_notMem (AList.lookup_eq_none.1 h)).symm

@[simp] theorem takeOld_capacity (c : MemoryCache K V P) (key : K) :
    (c.takeOld key).1.capacityBytes = c.capacityBytes := by
  unfold takeOld; split <;> rfl

@[simp] theorem delete_capacity (c : MemoryCache K V P) (key : K) :
    (c.delete key).1.capacityBytes = c.capacityBytes := by
  unfold delete
  split
  · rename_i entry h
    have he := releaseEntry_capacity (c.removeEntry key) entry.sizeBytes
    split
    all_goals rename_i hr; rw [hr] at he; exact he
  · rfl

@[simp] theorem takeOld_policy (c : MemoryCache K V P) (key : K) :
    (c.takeOld key).1.evictionPolicy = c.evictionPolicy := by
  unfold takeOld; split <;> rfl

@[simp] theorem delete_policy (c : MemoryCache K V P) (key : K) :
    (c.delete key).1.evictionPolicy = c.evictionPolicy := by
  unfold delete
  split
  · rename_i entry h
    have he := releaseEntry_policy (c.removeEntry key) entry.sizeBytes
    split
    all_goals rename_i hr; rw [hr] at he; exact he
  · rfl

/-- `key` is resident and has expired. -/
def HoldsExpired (c : MemoryCache K V P) (now : Instant) (key : K) : Prop :=
  ∃ e, c.entries.lookup key = some e ∧ e.isExpired now = true

/-- `key` is resident and has not expired. -/
def HoldsLive (c : MemoryCache K V P) (now : Instant) (key : K) : Prop :=
  ∃ e, c.entries.lookup key = some e ∧ e.isExpired now = false

instance (c : MemoryCache K V P) (now : Instant) (key : K) : Decidable (c.HoldsExpired now key) :=
  decidable_of_iff (((c.entries.lookup key).map (·.isExpired now)) = some true)
    (by simp [HoldsExpired])

instance (c : MemoryCache K V P) (now : Instant) (key : K) : Decidable (c.HoldsLive now key) :=
  decidable_of_iff (((c.entries.lookup key).map (·.isExpired now)) = some false)
    (by simp [HoldsLive])

end Sections

variable {K V P : Type} [DecidableEq K] [EvictionPolicy K P]

/-- There is room for `requiredBytes` more. -/
def HasRoom (c : MemoryCache K V P) (requiredBytes : Nat) : Prop :=
  c.sizeBytes + requiredBytes ≤ c.capacityBytes

instance (c : MemoryCache K V P) (n : Nat) : Decidable (c.HasRoom n) := by
  unfold HasRoom; infer_instance

/-- The error that `evict_for_space` builds. -/
def capacityExceeded (c : MemoryCache K V P) (requiredBytes : Nat) : CacheError :=
  .tierError (.capacityExceeded (c.sizeBytes + requiredBytes) c.capacityBytes)

/-! ## The eviction loop -/

/-- `LoopHead o n c c'`: when `evict_for_space(n)` is called in `c`, the loop condition is evaluated
in `c'`. -/
inductive LoopHead (o : HashOrder K) (n : Nat) (c : MemoryCache K V P) : MemoryCache K V P → Prop
  | start : LoopHead o n c c
  | next {c₁ c₂ : MemoryCache K V P} {key : K} {policy : P} : LoopHead o n c c₁ → ¬ c₁.HasRoom n →
      EvictionPolicy.evict c₁.evictionPolicy o = (some key, policy) →
      (c₁.setPolicy policy).dropVictim key = (c₂, none) → LoopHead o n c c₂

theorem LoopHead.cons {o : HashOrder K} {n : Nat} {c c₁ c₂ : MemoryCache K V P} {key : K}
    {policy : P} (hroom : ¬ c.HasRoom n)
    (hev : EvictionPolicy.evict c.evictionPolicy o = (some key, policy))
    (hdrop : (c.setPolicy policy).dropVictim key = (c₁, none)) (h : LoopHead o n c₁ c₂) :
    LoopHead o n c c₂ := by
  induction h with
  | start => exact .next .start hroom hev hdrop
  | next _ hr he hd ih => exact .next ih hr he hd

/-- What the body of the loop preserves holds at every head of the loop. -/
theorem LoopHead.invariant {o : HashOrder K} {n : Nat} {c c' : MemoryCache K V P}
    (I : MemoryCache K V P → Prop) (h₀ : I c)
    (hbody : ∀ c₁ c₂ key policy, I c₁ → ¬ c₁.HasRoom n →
      EvictionPolicy.evict c₁.evictionPolicy o = (some key, policy) →
      (c₁.setPolicy policy).dropVictim key = (c₂, none) → I c₂)
    (h : LoopHead o n c c') : I c' := by
  induction h with
  | start => exact h₀
  | next _ hr he hd ih => exact hbody _ _ _ _ ih hr he hd

theorem evictLoop_cases (o : HashOrder K) (n : Nat) :
    ∀ (fuel : Nat) (c : MemoryCache K V P) {r : MemoryCache K V P × Outcome Unit},
      evictLoop o n fuel c = some r →
      (∃ c', LoopHead o n c c' ∧ c'.HasRoom n ∧ r = (c', .ok ())) ∨
      (∃ c' policy, LoopHead o n c c' ∧ ¬ c'.HasRoom n ∧
        EvictionPolicy.evict c'.evictionPolicy o = (none, policy) ∧
        r = (c'.setPolicy policy, .err (c'.capacityExceeded n))) ∨
      (∃ c' key policy c'' p, LoopHead o n c c' ∧ ¬ c'.HasRoom n ∧
        EvictionPolicy.evict c'.evictionPolicy o = (some key, policy) ∧
        (c'.setPolicy policy).dropVictim key = (c'', some p) ∧ r = (c'', .panic p))
  | 0, _, _, h => by cases h
  | fuel + 1, c, r, h => by
    unfold evictLoop at h
    split at h
    · rename_i hroom
      cases h
      exact Or.inl ⟨c, .start, hroom, rfl⟩
    · rename_i hroom
      split at h
      · rename_i key policy hev
        split at h
        · rename_i c₁ hdrop
          rcases evictLoop_cases o n fuel c₁ h with ⟨c', hh, rest⟩ | ⟨c', p, hh, rest⟩ |
            ⟨c', k, p, c'', q, hh, rest⟩
          · exact Or.inl ⟨c', hh.cons hroom hev hdrop, rest⟩
          · exact Or.inr (Or.inl ⟨c', p, hh.cons hroom hev hdrop, rest⟩)
          · exact Or.inr (Or.inr ⟨c', k, p, c'', q, hh.cons hroom hev hdrop, rest⟩)
        · rename_i c₁ p hdrop
          cases h
          exact Or.inr (Or.inr ⟨c, key, policy, c₁, p, .start, hroom, hev, hdrop, rfl⟩)
      · rename_i policy hev
        cases h
        exact Or.inr (Or.inl ⟨c, policy, .start, hroom, hev, rfl⟩)

/-- **How the eviction loop ends**: with room, with a policy that names no key, or in a panic. -/
theorem evictForSpace_cases (c : MemoryCache K V P) (o : HashOrder K) (n : Nat) :
    (∃ c', LoopHead o n c c' ∧ c'.HasRoom n ∧ c.evictForSpace o n = (c', .ok ())) ∨
    (∃ c' policy, LoopHead o n c c' ∧ ¬ c'.HasRoom n ∧
      EvictionPolicy.evict c'.evictionPolicy o = (none, policy) ∧
      c.evictForSpace o n = (c'.setPolicy policy, .err (c'.capacityExceeded n))) ∨
    (∃ c' key policy c'' p, LoopHead o n c c' ∧ ¬ c'.HasRoom n ∧
      EvictionPolicy.evict c'.evictionPolicy o = (some key, policy) ∧
      (c'.setPolicy policy).dropVictim key = (c'', some p) ∧
      c.evictForSpace o n = (c'', .panic p)) :=
  evictLoop_cases o n _ c (Option.some_get _).symm

theorem evictForSpace_of_room {c : MemoryCache K V P} {n : Nat} (o : HashOrder K)
    (h : c.HasRoom n) : c.evictForSpace o n = (c, .ok ()) := by
  unfold evictForSpace
  have heq : evictLoop o n (EvictionPolicy.size c.evictionPolicy + 1) c = some (c, .ok ()) := by
    unfold evictLoop
    exact if_pos h
  simp only [heq, Option.get_some]

/-- With room at the start the only head is the start. -/
theorem LoopHead.eq_of_room {o : HashOrder K} {n : Nat} {c c' : MemoryCache K V P}
    (h : c.HasRoom n) (hh : LoopHead o n c c') : c' = c :=
  hh.invariant (fun c' => c' = c) rfl fun _ _ _ _ he hr => by subst he; exact absurd h hr

/-- Along the loop the map only forgets. -/
theorem LoopHead.sub {o : HashOrder K} {n : Nat} {c c' : MemoryCache K V P}
    (h : LoopHead o n c c') : c'.entries.Sub c.entries :=
  h.invariant (fun c' => c'.entries.Sub c.entries) (AList.Sub.refl _)
    fun c₁ c₂ key policy hsub _ _ hdrop => by
      have he : c₂.entries = c₁.entries.erase key := by
        have := dropVictim_entries (c₁.setPolicy policy) key
        rwa [hdrop] at this
      rw [he]
      exact (AList.sub_erase _ _).trans hsub

theorem evictForSpace_sub (c : MemoryCache K V P) (o : HashOrder K) (n : Nat) :
    (c.evictForSpace o n).1.entries.Sub c.entries := by
  rcases evictForSpace_cases c o n with ⟨c', hh, -, h⟩ | ⟨c', policy, hh, -, -, h⟩ |
    ⟨c', key, policy, c'', p, hh, -, -, hdrop, h⟩
  · rw [h]; exact hh.sub
  · rw [h]; exact hh.sub
  · rw [h]
    have he : c''.entries = c'.entries.erase key := by
      have := dropVictim_entries (c'.setPolicy policy) key
      rwa [hdrop] at this
    show c''.entries.Sub c.entries
    rw [he]
    exact (AList.sub_erase _ _).trans hh.sub

theorem LoopHead.capacity {o : HashOrder K} {n : Nat} {c c' : MemoryCache K V P}
    (h : LoopHead o n c c') : c'.capacityBytes = c.capacityBytes :=
  h.invariant (fun c' => c'.capacityBytes = c.capacityBytes) rfl
    fun c₁ c₂ key policy hI _ _ hdrop => by
      have := dropVictim_capacity (c₁.setPolicy policy) key
      rw [hdrop] at this
      exact this.trans hI

@[simp] theorem evictForSpace_capacity (c : MemoryCache K V P) (o : HashOrder K) (n : Nat) :
    (c.evictForSpace o n).1.capacityBytes = c.capacityBytes := by
  rcases evictForSpace_cases c o n with ⟨c', hh, -, h⟩ | ⟨c', policy, hh, -, -, h⟩ |
    ⟨c', key, policy, c'', p, hh, -, -, hdrop, h⟩
  · rw [h]; exact hh.capacity
  · rw [h]; exact hh.capacity
  · rw [h]
    have := dropVictim_capacity (c'.setPolicy policy) key
    rw [hdrop] at this
    exact this.trans hh.capacity

/-! ## `get` and `clear` -/

/-- **What `get` does**: an expired entry is removed, a live one is touched, an absent one counted. -/
theorem get_cases (c : MemoryCache K V P) (env : Env K) (key : K) :
    (∃ e, c.entries.lookup key = some e ∧ e.isExpired env.now = true ∧
      c.get env key = ((c.removeEntry key).countMiss, .ok none)) ∨
    (∃ e, c.entries.lookup key = some e ∧ e.isExpired env.now = false ∧
      c.get env key =
        (((c.setPolicy (EvictionPolicy.onAccess c.evictionPolicy key)).touchEntry key
          env.now).countHit, .ok (some e.value))) ∨
    (c.entries.lookup key = none ∧ c.get env key = (c.countMiss, .ok none)) := by
  unfold get
  cases h : c.entries.lookup key with
  | none => exact Or.inr (Or.inr ⟨rfl, rfl⟩)
  | some e =>
    cases hx : e.isExpired env.now with
    | true => exact Or.inl ⟨e, rfl, hx, by simp [hx]⟩
    | false => exact Or.inr (Or.inl ⟨e, rfl, hx, by simp [hx]⟩)

/-- After `get` every entry is an old entry, possibly with a new access time. -/
theorem get_lookup {c : MemoryCache K V P} {env : Env K} {key k : K} {e : CachedValue V}
    (h : (c.get env key).1.entries.lookup k = some e) :
    ∃ e₀, c.entries.lookup k = some e₀ ∧ e = { e₀ with lastAccess := e.lastAccess } := by
  rcases get_cases c env key with ⟨e', _, _, hg⟩ | ⟨e', _, _, hg⟩ | ⟨_, hg⟩
  · rw [hg] at h
    exact ⟨e, AList.sub_erase _ _ k e h, rfl⟩
  · rw [hg] at h
    replace h : ((c.setPolicy _).touchEntry key env.now).entries.lookup k = some e := h
    rw [touchEntry_lookup, Option.map_eq_some_iff] at h
    obtain ⟨e₀, h₀, rfl⟩ := h
    refine ⟨e₀, h₀, ?_⟩
    split <;> rfl
  · rw [hg] at h
    exact ⟨e, h, rfl⟩

@[simp] theorem store_entries (c : MemoryCache K V P) (old : Option Nat) (key : K)
    (cached : CachedValue V) :
    (c.store old key cached).entries = c.entries.insert key cached := rfl

/-! ## `set` -/

@[simp] theorem get_capacity (c : MemoryCache K V P) (env : Env K) (key : K) :
    (c.get env key).1.capacityBytes = c.capacityBytes := by
  rcases get_cases c env key with ⟨_, _, _, hg⟩ | ⟨_, _, _, hg⟩ | ⟨_, hg⟩ <;> rw [hg] <;> rfl

variable [RustSized K] [RustSized V]

/-- **How `set` ends**: the new entry is stored, or the state is the one in which the eviction loop
or the computation of the expiry instant stopped. -/
theorem set_cases (c : MemoryCache K V P) (env : Env K) (key : K) (value : V)
    (ttl : Option Duration) :
    (∃ c', (c.takeOld key).1.evictForSpace env.order (entrySize K V) = (c', .ok ()) ∧
      Representable env.now ttl ∧
      c.set env key value ttl =
        (c'.store (c.takeOld key).2 key
          ⟨value, ttl.map (env.now + ·), entrySize K V, env.now⟩, .ok ())) ∨
    (∃ c', (c.takeOld key).1.evictForSpace env.order (entrySize K V) = (c', .ok ()) ∧
      ¬ Representable env.now ttl ∧
      c.set env key value ttl = (c', .panic .instantOverflow)) ∨
    (∃ c' e, (c.takeOld key).1.evictForSpace env.order (entrySize K V) = (c', .err e) ∧
      c.set env key value ttl = (c', .err e)) ∨
    (∃ c' p, (c.takeOld key).1.evictForSpace env.order (entrySize K V) = (c', .panic p) ∧
      c.set env key value ttl = (c', .panic p)) := by
  unfold set
  simp only [estimateSize_eq]
  rcases hev : (c.takeOld key).1.evictForSpace env.order (entrySize K V) with ⟨c', _ | e | p⟩
  · by_cases hr : Representable env.now ttl
    · exact Or.inl ⟨c', rfl, hr, by simp only [expiryOf_of_representable hr]⟩
    · exact Or.inr (Or.inl ⟨c', rfl, hr, by simp only [expiryOf_eq_none.2 hr]⟩)
  · exact Or.inr (Or.inr (Or.inl ⟨c', e, rfl, rfl⟩))
  · exact Or.inr (Or.inr (Or.inr ⟨c', p, rfl, rfl⟩))

theorem set_of_space {c c' : MemoryCache K V P} {env : Env K} {key : K}
    (hev : (c.takeOld key).1.evictForSpace env.order (entrySize K V) = (c', .ok ())) (value : V)
    {ttl : Option Duration} (hr : Representable env.now ttl) :
    c.set env key value ttl =
      (c'.store (c.takeOld key).2 key ⟨value, ttl.map (env.now + ·), entrySize K V, env.now⟩,
        .ok ()) := by
  unfold set
  simp only [estimateSize_eq, hev, expiryOf_of_representable hr]

theorem set_of_overflow {c c' : MemoryCache K V P} {env : Env K} {key : K}
    (hev : (c.takeOld key).1.evictForSpace env.order (entrySize K V) = (c', .ok ())) (value : V)
    {ttl : Option Duration} (hr : ¬ Representable env.now ttl) :
    c.set env key value ttl = (c', .panic .instantOverflow) := by
  unfold set
  simp only [estimateSize_eq, hev, expiryOf_eq_none.2 hr]

theorem set_of_err {c c' : MemoryCache K V P} {env : Env K} {key : K} {e : CacheError}
    (hev : (c.takeOld key).1.evictForSpace env.order (entrySize K V) = (c', .err e)) (value : V)
    (ttl : Option Duration) : c.set env key value ttl = (c', .err e) := by
  unfold set
  simp only [estimateSize_eq, hev]

/-- Under every other key the map is as the eviction loop left it. -/
theorem set_lookup_ne (c : MemoryCache K V P) (env : Env K) (key : K) (value : V)
    (ttl : Option Duration) {k : K} (hk : k ≠ key) :
    (c.set env key value ttl).1.entries.lookup k =
      ((c.takeOld key).1.evictForSpace env.order (entrySize K V)).1.entries.lookup k := by
  rcases set_cases c env key value ttl with ⟨c', hev, -, hs⟩ | ⟨c', hev, -, hs⟩ |
    ⟨c', e', hev, hs⟩ | ⟨c', p, hev, hs⟩
  · rw [hs, hev, store_entries, AList.lookup_insert_ne hk]
  all_goals rw [hs, hev]

/-- Every entry that is there after `set`, other than the new one, was there before. -/
theorem set_sub (c : MemoryCache K V P) (env : Env K) (key : K) (value : V) (ttl : Option Duration)
    {k : K} (hk : k ≠ key) {e : CachedValue V}
    (h : (c.set env key value ttl).1.entries.lookup k = some e) : c.entries.lookup k = some e := by
  rw [set_lookup_ne c env key value ttl hk] at h
  have hsub := evictForSpace_sub (c.takeOld key).1 env.order (entrySize K V) k e h
  rw [takeOld_entries, AList.lookup_erase_ne hk] at hsub
  exact hsub

/-- A `set` that returned `Ok` left exactly its value under its key. -/
theorem set_ok_lookup {c c' : MemoryCache K V P} {env : Env K} {key : K} {value : V}
    {ttl : Option Duration} (h : c.set env key value ttl = (c', .ok ())) :
    c'.entries.lookup key =
      some ⟨value, ttl.map (env.now + ·), entrySize K V, env.now⟩ := by
  rcases set_cases c env key value ttl with ⟨c'', _, _, hs⟩ | ⟨_, _, _, hs⟩ | ⟨_, _, _, hs⟩ |
    ⟨_, _, _, hs⟩
  · rw [h] at hs
    obtain ⟨rfl, -⟩ := Prod.mk.inj hs
    rw [store_entries, AList.lookup_insert]
  all_goals rw [h] at hs; cases hs

/-- A `set` that did not return `Ok` left nothing under its key. -/
theorem set_fail_lookup {c c' : MemoryCache K V P} {env : Env K} {key : K} {value : V}
    {ttl : Option Duration} {out : Outcome Unit} (h : c.set env key value ttl = (c', out))
    (hout : out ≠ .ok ()) : c'.entries.lookup key = none := by
  have hsub := evictForSpace_sub (c.takeOld key).1 env.order (entrySize K V)
  rw [takeOld_entries] at hsub
  have key_gone : ∀ c₁ : MemoryCache K V P, c₁.entries.Sub (c.entries.erase key) →
      c₁.entries.lookup key = none := fun c₁ h₁ =>
    AList.lookup_eq_none.2 (h₁.notMem (AList.lookup_eq_none.1 (AList.lookup_erase key c.entries)))
  rcases set_cases c env key value ttl with ⟨c'', hev, -, hs⟩ | ⟨c'', hev, -, hs⟩ |
    ⟨c'', e', hev, hs⟩ | ⟨c'', p, hev, hs⟩
  · rw [h] at hs
    exact absurd (Prod.mk.inj hs).2 hout
  all_goals
    rw [h] at hs; rw [hev] at hsub
    obtain ⟨rfl, -⟩ := Prod.mk.inj hs
    exact key_gone _ hsub

/-- Only a `set` that returned `Ok` leaves something under its key. -/
theorem set_ok_of_lookup {c : MemoryCache K V P} {env : Env K} {key : K} {value : V}
    {ttl : Option Duration} {entry : CachedValue V}
    (h : (c.set env key value ttl).1.entries.lookup key = some entry) :
    (c.set env key value ttl).2 = .ok () := by
  rcases hs : c.set env key value ttl with ⟨c', out⟩
  rw [hs] at h
  cases out with
  | ok _ => rfl
  | err _ =>
    rw [set_fail_lookup hs (by simp)] at h
    cases h
  | panic _ =>
    rw [set_fail_lookup hs (by simp)] at h
    cases h

/-- What a `set` leaves under its key is its own entry: a rejected write has dropped the old copy. -/
theorem set_lookup_self {c : MemoryCache K V P} {env : Env K} {key : K} {value : V}
    {ttl : Option Duration} {entry : CachedValue V}
    (h : (c.set env key value ttl).1.entries.lookup key = some entry) :
    entry = ⟨value, ttl.map (env.now + ·), entrySize K V, env.now⟩ := by
  have hs : c.set env key value ttl = ((c.set env key value ttl).1, .ok ()) :=
    Prod.ext rfl (set_ok_of_lookup h)
  rw [set_ok_lookup hs] at h
  exact (Option.some.inj h).symm

@[simp] theorem set_capacity (c : MemoryCache K V P) (env : Env K) (key : K) (value : V)
    (ttl : Option Duration) : (c.set env key value ttl).1.capacityBytes = c.capacityBytes := by
  have hcap := evictForSpace_capacity (c.takeOld key).1 env.order (entrySize K V)
  rw [takeOld_capacity] at hcap
  rcases set_cases c env key value ttl with ⟨c', hev, -, hs⟩ | ⟨c', hev, -, hs⟩ |
    ⟨c', e', hev, hs⟩ | ⟨c', p, hev, hs⟩
  all_goals rw [hs]; rw [hev] at hcap; exact hcap

end CacheLayer.MemoryCache
