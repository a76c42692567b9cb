import CacheLayer.Tier
import CacheLayer.Lib.Recency

/-!
# Eviction policies

The `EvictionPolicy` trait of `eviction.rs` and its two implementations.

* `LRU` — `access_order` (front = least recent) with `key_index`, the position of each key.
* `LFU` — an access count for each key; `evict` scans the counts in the map's iteration order.
* `BoxedPolicy` — a `Box<dyn EvictionPolicy<K>>` holding one of the two.

A policy also reports how many keys it tracks (`size`); naming a victim always forgets it
(`size_evict`), which is what makes the eviction loop of `MemoryCache` terminate.
-/

set_option autoImplicit false

namespace CacheLayer

/-- Cache eviction policy. -/
class EvictionPolicy (K : outParam Type) (P : Type) where
  onAccess : P → K → P
  onInsert : P → K → P
  evict : P → HashOrder K → Option K × P
  reset : P → P
  size : P → Nat
  size_evict : ∀ {p p' : P} {o : HashOrder K} {k : K}, evict p o = (some k, p') → size p' < size p

variable {K : Type} [DecidableEq K]

/-! ## LRU -/

/-- Least recently used. -/
structure LRU (K : Type) where
  capacity : Nat
  /-- Front = least recent, back = most recent. -/
  accessOrder : List K
  keyIndex : AssocMap K Nat
  capacity_pos : 0 < capacity

namespace LRU

/-- `LRU::new`, which panics on a zero capacity. -/
def new (K : Type) (capacity : Nat) (h : 0 < capacity) : LRU K := ⟨capacity, [], ∅, h⟩

/-- Current size. -/
def size (p : LRU K) : Nat := p.accessOrder.length

/-- The removal half of `on_access`: drop the element at the stored position and renumber. -/
def unlink (p : LRU K) (key : K) : LRU K :=
  match p.keyIndex.lookup key with
  | some idx =>
    { p with
      accessOrder := p.accessOrder.eraseIdx idx
      keyIndex := p.keyIndex.mapVals fun _ v => if v > idx then v - 1 else v }
  | none => p

/-- Record that a key was accessed. -/
def onAccess (p : LRU K) (key : K) : LRU K :=
  let q := p.unlink key
  { q with
    accessOrder := q.accessOrder ++ [key]
    keyIndex := q.keyIndex.insert key ((q.accessOrder ++ [key]).length - 1) }

/-- Record that a key was inserted. -/
def onInsert (p : LRU K) (key : K) : LRU K := p.onAccess key

/-- Select a key to evict. -/
def evict (p : LRU K) : Option K × LRU K :=
  match p.accessOrder with
  | key :: rest => (some key, { p with accessOrder := rest, keyIndex := p.keyIndex.erase key })
  | [] => (none, p)

/-- Reset policy state. -/
def reset (p : LRU K) : LRU K := { p with accessOrder := [], keyIndex := ∅ }

theorem size_evict {p p' : LRU K} {k : K} (h : p.evict = (some k, p')) : p'.size < p.size := by
  unfold evict at h
  split at h
  · rename_i rest heq
    cases h
    simp [size, heq]
  · cases h

end LRU

instance : EvictionPolicy K (LRU K) where
  onAccess := LRU.onAccess
  onInsert := LRU.onInsert
  evict p _ := p.evict
  reset := LRU.reset
  size := LRU.size
  size_evict := LRU.size_evict

/-! ## LFU -/

/-- Least frequently used. -/
structure LFU (K : Type) where
  capacity : Nat
  accessCount : AssocMap K Nat
  minFrequency : Nat
  capacity_pos : 0 < capacity

namespace LFU

/-- `LFU::new`, which panics on a zero capacity. -/
def new (K : Type) (capacity : Nat) (h : 0 < capacity) : LFU K := ⟨capacity, ∅, 0, h⟩

/-- Current size. -/
def size (p : LFU K) : Nat := p.accessCount.count

/-- Access count of a key. -/
def getCount (p : LFU K) (key : K) : Nat := (p.accessCount.lookup key).getD 0

/-- Record that a key was accessed.  The count is a `Nat`; the source's `count + 1` overflows when the key
was accessed `usize::MAX` times. -/
def onAccess (p : LFU K) (key : K) : LFU K :=
  let count := p.getCount key + 1
  { p with
    accessCount := p.accessCount.insert key count
    minFrequency :=
      if p.minFrequency = 0 ∨ count < p.minFrequency then count else p.minFrequency }

/-- Record that a key was inserted. -/
def onInsert (p : LFU K) (key : K) : LFU K :=
  { p with accessCount := p.accessCount.insert key 1, minFrequency := 1 }

/-- One iteration of the search for the minimum. -/
def scanStep (best : Option K × Nat) (s : Σ _ : K, Nat) : Option K × Nat :=
  if s.2 < best.2 then (some s.1, s.2) else best

/-- The search for the minimum over the counts in iteration order. -/
def scan (l : List (Σ _ : K, Nat)) : Option K × Nat := l.foldl scanStep (none, usizeMax)

/-- Select a key to evict. -/
def evict (p : LFU K) (order : HashOrder K) : Option K × LFU K :=
  match (scan (order.iter p.accessCount.entries)).1 with
  | some key => (some key, { p with accessCount := p.accessCount.erase key })
  | none => (none, p)

/-- Reset policy state. -/
def reset (p : LFU K) : LFU K := { p with accessCount := ∅, minFrequency := 0 }

omit [DecidableEq K] in
theorem scan_mem_aux : ∀ (l : List (Σ _ : K, Nat)) (best : Option K × Nat) (k : K),
    (l.foldl scanStep best).1 = some k → best.1 = some k ∨ ∃ s ∈ l, s.1 = k
  | [], _, _, h => Or.inl h
  | s :: l, best, k, h => by
    rcases scan_mem_aux l _ k h with h | ⟨s', hs', hk⟩
    · unfold scanStep at h
      split at h
      · cases h; exact Or.inr ⟨s, List.mem_cons_self, rfl⟩
      · exact Or.inl h
    · exact Or.inr ⟨s', List.mem_cons_of_mem _ hs', hk⟩

omit [DecidableEq K] in
/-- The search names a key it has seen. -/
theorem scan_mem {l : List (Σ _ : K, Nat)} {k : K} (h : (scan l).1 = some k) :
    ∃ s ∈ l, s.1 = k := by
  rcases scan_mem_aux l _ k h with h | h
  · cases h
  · exact h

theorem mem_of_scan {p : LFU K} {o : HashOrder K} {k : K}
    (h : (scan (o.iter p.accessCount.entries)).1 = some k) : k ∈ p.accessCount := by
  obtain ⟨s, hs, rfl⟩ := scan_mem h
  exact AList.mem_of_lookup (AList.lookup_of_entry ((o.perm _).mem_iff.1 hs))

theorem size_evict {p p' : LFU K} {o : HashOrder K} {k : K} (h : p.evict o = (some k, p')) :
    p'.size < p.size := by
  unfold evict at h
  split at h
  · rename_i key hs
    cases h
    have := AList.count_erase (mem_of_scan hs)
    simp only [size]; omega
  · cases h

end LFU

instance : EvictionPolicy K (LFU K) where
  onAccess := LFU.onAccess
  onInsert := LFU.onInsert
  evict := LFU.evict
  reset := LFU.reset
  size := LFU.size
  size_evict := LFU.size_evict

/-! ## A boxed policy -/

/-- A `Box<dyn EvictionPolicy<K>>` made from one of the policies of this crate. -/
inductive BoxedPolicy (K : Type) where
  | lru (p : LRU K)
  | lfu (p : LFU K)

namespace BoxedPolicy

def onAccess : BoxedPolicy K → K → BoxedPolicy K
  | .lru p, key => .lru (p.onAccess key)
  | .lfu p, key => .lfu (p.onAccess key)

def onInsert : BoxedPolicy K → K → BoxedPolicy K
  | .lru p, key => .lru (p.onInsert key)
  | .lfu p, key => .lfu (p.onInsert key)

def evict : BoxedPolicy K → HashOrder K → Option K × BoxedPolicy K
  | .lru p, _ => (p.evict.1, .lru p.evict.2)
  | .lfu p, order => ((p.evict order).1, .lfu (p.evict order).2)

def reset : BoxedPolicy K → BoxedPolicy K
  | .lru p => .lru p.reset
  | .lfu p => .lfu p.reset

def size : BoxedPolicy K → Nat
  | .lru p => p.size
  | .lfu p => p.size

theorem size_evict {p p' : BoxedPolicy K} {o : HashOrder K} {k : K}
    (h : p.evict o = (some k, p')) : p'.size < p.size := by
  cases p with
  | lru p =>
    simp only [evict, Prod.mk.injEq] at h
    obtain ⟨h, rfl⟩ := h
    exact LRU.size_evict (Prod.ext h rfl)
  | lfu p =>
    simp only [evict, Prod.mk.injEq] at h
    obtain ⟨h, rfl⟩ := h
    exact LFU.size_evict (Prod.ext h rfl)

end BoxedPolicy

instance : EvictionPolicy K (BoxedPolicy K) where
  onAccess := BoxedPolicy.onAccess
  onInsert := BoxedPolicy.onInsert
  evict := BoxedPolicy.evict
  reset := BoxedPolicy.reset
  size := BoxedPolicy.size
  size_evict := BoxedPolicy.size_evict

end CacheLayer
