import CacheLayer.Eviction

/-!
# The in-memory tier

`MemoryCache` of `memory.rs`, method by method.  The pieces of a method that take a lock or touch the
map (`removeEntry`, `debit`, `releaseEntry`, `credit`, `countInsert`, …) are definitions of their own:
here the methods compose them, and `MemoryThreads` interleaves them.

`evict_for_space` loops until there is room.  `evictLoop` is the loop with a bound on its iterations;
the policy forgets every key it names, so `size + 1` iterations always suffice (`evictLoop_isSome`)
and `evictForSpace` is total; how it ends is `evictForSpace_cases` in `MemorySpec`.
-/

set_option autoImplicit false

namespace CacheLayer

/-- `size_of::<T>()`: what `size_of_val` returns for every value of a sized type. -/
class RustSized (α : Type) where
  sizeOf : Nat

instance : RustSized UInt64 := ⟨8⟩

instance : RustSized String := ⟨24⟩

/-- Cached value with metadata. -/
structure CachedValue (V : Type) where
  value : V
  expiresAt : Option Instant
  sizeBytes : Nat
  lastAccess : Instant
  deriving DecidableEq, Repr

/-- Check if the value has expired. -/
def CachedValue.isExpired {V : Type} (e : CachedValue V) (now : Instant) : Bool :=
  match e.expiresAt with
  | some expires => decide (now > expires)
  | none => false

theorem CachedValue.isExpired_iff {V : Type} {e : CachedValue V} {now : Instant} :
    e.isExpired now = true ↔ ∃ expires, e.expiresAt = some expires ∧ now > expires := by
  unfold isExpired
  split
  · rename_i expires hexp
    simp [hexp]
  · rename_i hexp
    simp [hexp]

theorem CachedValue.not_isExpired_iff {V : Type} {e : CachedValue V} {now : Instant} :
    e.isExpired now = false ↔ ∀ expires, e.expiresAt = some expires → now ≤ expires := by
  unfold isExpired
  split
  · rename_i expires hexp
    simp [hexp]
  · rename_i hexp
    simp [hexp]

/-- In-memory cache tier. -/
structure MemoryCache (K V P : Type) where
  entries : AssocMap K (CachedValue V)
  evictionPolicy : P
  capacityBytes : Nat
  sizeBytes : Nat
  stats : TierStats
  capacity_pos : 0 < capacityBytes

/-- The constant that `estimate_size` returns for keys of type `K` and values of type `V`. -/
def entrySize (K V : Type) [RustSized K] [RustSized V] : Nat :=
  RustSized.sizeOf K + RustSized.sizeOf V

namespace MemoryCache

variable {K V P : Type}

/-- Create with custom eviction policy; panics on a zero capacity. -/
def withPolicy (capacityBytes : Nat) (policy : P) (h : 0 < capacityBytes) : MemoryCache K V P where
  entries := ∅
  evictionPolicy := policy
  capacityBytes := capacityBytes
  sizeBytes := 0
  stats := .fresh capacityBytes
  capacity_pos := h

/-- Create a new memory cache, which tracks up to 1024 keys for eviction. -/
def new (capacityBytes : Nat) (h : 0 < capacityBytes) : MemoryCache K V (LRU K) :=
  withPolicy capacityBytes (LRU.new K 1024 (Nat.succ_pos 1023)) h

/-- Estimate size of a value in bytes. -/
def estimateSize [RustSized K] [RustSized V] (_key : K) (_value : V) : Nat :=
  let keySize := RustSized.sizeOf K
  let valueSize := RustSized.sizeOf V
  keySize + valueSize

@[simp] theorem estimateSize_eq [RustSized K] [RustSized V] (key : K) (value : V) :
    estimateSize key value = entrySize K V := rfl

/-! ### Map accesses and locked sections -/

section Sections

variable [DecidableEq K]

/-- `entries.remove(key)`. -/
def removeEntry (c : MemoryCache K V P) (key : K) : MemoryCache K V P :=
  { c with entries := c.entries.erase key }

/-- `entries.insert(key, cached)`. -/
def insertEntry (c : MemoryCache K V P) (key : K) (cached : CachedValue V) : MemoryCache K V P :=
  { c with entries := c.entries.insert key cached }

/-- `if let Some(mut entry_mut) = entries.get_mut(key) { entry_mut.last_access = now }`. -/
def touchEntry (c : MemoryCache K V P) (key : K) (now : Instant) : MemoryCache K V P :=
  { c with
    entries := c.entries.mapVals fun k e => if k = key then { e with lastAccess := now } else e }

omit [DecidableEq K] in
/-- `*size_guard = size_guard.saturating_sub(n)`. -/
def debit (c : MemoryCache K V P) (n : Nat) : MemoryCache K V P :=
  { c with sizeBytes := c.sizeBytes - n }

/-- `*size_guard += n`. -/
def credit (c : MemoryCache K V P) (n : Nat) : MemoryCache K V P :=
  { c with sizeBytes := c.sizeBytes + n }

/-- The locked section after the removal of an entry: bytes back, one entry less, size copied to the
statistics.  The unchecked `entries -= 1` panics at zero, after the size has been updated.  This is a build
with overflow checks; one without them goes on with `entries` wrapped around. -/
def releaseEntry (c : MemoryCache K V P) (n : Nat) : MemoryCache K V P × Option Panic :=
  let c := c.debit n
  if c.stats.entries = 0 then (c, some .subtractOverflow)
  else
    ({ c with
        stats := { c.stats with entries := c.stats.entries - 1, sizeBytes := c.sizeBytes } }, none)

/-- `stats_guard.evictions += 1`. -/
def countEviction (c : MemoryCache K V P) : MemoryCache K V P :=
  { c with stats := { c.stats with evictions := c.stats.evictions + 1 } }

/-- `stats_guard.hits += 1`. -/
def countHit (c : MemoryCache K V P) : MemoryCache K V P :=
  { c with stats := { c.stats with hits := c.stats.hits + 1 } }

/-- `stats_guard.misses += 1`. -/
def countMiss (c : MemoryCache K V P) : MemoryCache K V P :=
  { c with stats := { c.stats with misses := c.stats.misses + 1 } }

/-- The statistics section of `set`: a new entry is counted, an update is not. -/
def countInsert (c : MemoryCache K V P) (oldSize : Option Nat) (finalSize : Nat) :
    MemoryCache K V P :=
  { c with
    stats :=
      match oldSize with
      | some _ => { c.stats with sizeBytes := finalSize }
      | none => { c.stats with entries := c.stats.entries + 1, sizeBytes := finalSize } }

/-- Replace the state of the eviction policy. -/
def setPolicy (c : MemoryCache K V P) (policy : P) : MemoryCache K V P :=
  { c with evictionPolicy := policy }

/-- The three nested locked sections of `clear`. -/
def resetCounters [EvictionPolicy K P] (c : MemoryCache K V P) : MemoryCache K V P :=
  { c with
    sizeBytes := 0
    stats := { c.stats with entries := 0, sizeBytes := 0 }
    evictionPolicy := EvictionPolicy.reset c.evictionPolicy }

/-- `entries.clear()`. -/
def clearEntries (c : MemoryCache K V P) : MemoryCache K V P := { c with entries := ∅ }

end Sections

variable [DecidableEq K] [EvictionPolicy K P]

/-! ### Eviction -/

/-- What the eviction loop does with a key the policy named: remove it from the map if it is there. -/
def dropVictim (c : MemoryCache K V P) (key : K) : MemoryCache K V P × Option Panic :=
  match c.entries.lookup key with
  | some entry => (c.removeEntry key).countEviction.releaseEntry entry.sizeBytes
  | none => (c, none)

/-- The loop of `evict_for_space`, `none` when the bound on its iterations is reached. -/
def evictLoop (order : HashOrder K) (requiredBytes : Nat) :
    Nat → MemoryCache K V P → Option (MemoryCache K V P × Outcome Unit)
  | 0, _ => none
  | fuel + 1, c =>
    if c.sizeBytes + requiredBytes ≤ c.capacityBytes then some (c, .ok ())
    else
      match EvictionPolicy.evict c.evictionPolicy order with
      | (some key, policy) =>
        match (c.setPolicy policy).dropVictim key with
        | (c, none) => evictLoop order requiredBytes fuel c
        | (c, some p) => some (c, .panic p)
      | (none, policy) =>
        some (c.setPolicy policy,
          .err (.tierError (.capacityExceeded (c.sizeBytes + requiredBytes) c.capacityBytes)))

omit [EvictionPolicy K P] in
@[simp] theorem dropVictim_policy (c : MemoryCache K V P) (key : K) :
    (c.dropVictim key).1.evictionPolicy = c.evictionPolicy := by
  unfold dropVictim
  split
  · unfold releaseEntry
    simp only
    split <;> rfl
  · rfl

/-- The policy forgets each key it names, so its size bounds the number of iterations. -/
theorem evictLoop_isSome (order : HashOrder K) (requiredBytes : Nat) :
    ∀ (fuel : Nat) (c : MemoryCache K V P), EvictionPolicy.size c.evictionPolicy < fuel →
      (evictLoop order requiredBytes fuel c).isSome
  | 0, _, h => by omega
  | fuel + 1, c, h => by
    unfold evictLoop
    split
    · rfl
    · split
      · rename_i key policy hev
        have hlt := EvictionPolicy.size_evict hev
        split
        · rename_i c' hdrop
          apply evictLoop_isSome
          have hp := dropVictim_policy (c.setPolicy policy) key
          rw [hdrop] at hp
          rw [hp]
          show EvictionPolicy.size policy < fuel
          omega
        · rfl
      · rfl

/-- Evict entries until there's space for the requested size. -/
def evictForSpace (c : MemoryCache K V P) (order : HashOrder K) (requiredBytes : Nat) :
    MemoryCache K V P × Outcome Unit :=
  (evictLoop order requiredBytes (EvictionPolicy.size c.evictionPolicy + 1) c).get
    (evictLoop_isSome order requiredBytes _ c (Nat.lt_succ_self _))

/-! ### The tier methods -/

/-- `MemoryCache::get`. -/
def get (c : MemoryCache K V P) (env : Env K) (key : K) : MemoryCache K V P × Outcome (Option V) :=
  let isExpired :=
    match c.entries.lookup key with
    | some entry => entry.isExpired env.now
    | none => false
  if isExpired then ((c.removeEntry key).countMiss, .ok none)
  else
    match c.entries.lookup key with
    | some entry =>
      let c := c.setPolicy (EvictionPolicy.onAccess c.evictionPolicy key)
      ((c.touchEntry key env.now).countHit, .ok (some entry.value))
    | none => (c.countMiss, .ok none)

/-- The first step of `set`: remove the entry the key had and take its bytes off the size. -/
def takeOld (c : MemoryCache K V P) (key : K) : MemoryCache K V P × Option Nat :=
  match c.entries.lookup key with
  | some entry => ((c.removeEntry key).debit entry.sizeBytes, some entry.sizeBytes)
  | none => (c, none)

/-- The last steps of `set`: insert, count bytes and entries, tell the policy. -/
def store (c : MemoryCache K V P) (oldSize : Option Nat) (key : K) (cached : CachedValue V) :
    MemoryCache K V P :=
  let c := (c.insertEntry key cached).credit cached.sizeBytes
  let c := c.countInsert oldSize c.sizeBytes
  c.setPolicy (EvictionPolicy.onInsert c.evictionPolicy key)

/-- `MemoryCache::set`. -/
def set [RustSized K] [RustSized V] (c : MemoryCache K V P) (env : Env K) (key : K) (value : V)
    (ttl : Option Duration) : MemoryCache K V P × Outcome Unit :=
  let sizeBytes := estimateSize key value
  let (c, oldSize) := c.takeOld key
  match c.evictForSpace env.order sizeBytes with
  | (c, .ok _) =>
    match expiryOf env.now ttl with
    | some expiresAt => (c.store oldSize key ⟨value, expiresAt, sizeBytes, env.now⟩, .ok ())
    | none => (c, .panic .instantOverflow)
  | (c, .err e) => (c, .err e)
  | (c, .panic p) => (c, .panic p)

/-- `MemoryCache::delete`. -/
def delete (c : MemoryCache K V P) (key : K) : MemoryCache K V P × Outcome Unit :=
  match c.entries.lookup key with
  | some entry =>
    match (c.removeEntry key).releaseEntry entry.sizeBytes with
    | (c, none) => (c, .ok ())
    | (c, some p) => (c, .panic p)
  | none => (c, .ok ())

/-- `MemoryCache::exists`. -/
def «exists» (c : MemoryCache K V P) (now : Instant) (key : K) : Outcome Bool :=
  .ok (((c.entries.lookup key).map fun e => !e.isExpired now).getD false)

/-- `MemoryCache::clear`. -/
def clear (c : MemoryCache K V P) : MemoryCache K V P × Outcome Unit :=
  (c.clearEntries.resetCounters, .ok ())

/-- `MemoryCache` as a tier. -/
instance [RustSized K] [RustSized V] : Tier K V (MemoryCache K V P) where
  get := get
  set := set
  delete c _ := c.delete
  «exists» c env key := (c, c.exists env.now key)
  size c := c.sizeBytes
  capacity c := c.capacityBytes
  clear := clear
  stats c := c.stats

end MemoryCache

end CacheLayer
