import CacheLayer.Error
import CacheLayer.Lib.AssocMap

/-!
# Tiers

The `Tier` trait and `TierStats` of `tier.rs`, with the two inputs a call takes from its environment
rather than from its arguments: the reading of the clock, and the order in which the process happens
to iterate its hash maps.

Instants and durations are natural numbers of nanoseconds.  Counters and sizes are natural numbers;
`MemoryBounds` shows that the ones the code adds up stay below `usize::MAX`.
-/

set_option autoImplicit false

namespace CacheLayer

/-- `std::time::Instant`, in nanoseconds. -/
abbrev Instant := Nat

/-- `std::time::Duration`, in nanoseconds. -/
abbrev Duration := Nat

/-- The last representable instant: `i64::MAX` whole seconds and `999_999_999` nanoseconds. -/
def Instant.max : Instant := (2 ^ 63 - 1) * 1000000000 + 999999999

/-- `usize::MAX`. -/
def usizeMax : Nat := 2 ^ 64 - 1

/-- `Instant + Duration`, which panics (`none`) when the sum is not representable. -/
def addDuration (t : Instant) (d : Duration) : Option Instant :=
  if t + d ≤ Instant.max then some (t + d) else none

/-- `ttl.map(|d| Instant::now() + d)`. -/
def expiryOf (now : Instant) : Option Duration → Option (Option Instant)
  | none => some none
  | some d => (addDuration now d).map some

/-- The expiry instant of a write at `now` with this time-to-live is representable. -/
def Representable (now : Instant) (ttl : Option Duration) : Prop := ∀ d ∈ ttl, now + d ≤ Instant.max

instance (now : Instant) (ttl : Option Duration) : Decidable (Representable now ttl) := by
  unfold Representable; infer_instance

theorem representable_none (now : Instant) : Representable now none := fun d hd => by cases hd

theorem expiryOf_eq_none {now : Instant} {ttl : Option Duration} :
    expiryOf now ttl = none ↔ ¬ Representable now ttl := by
  cases ttl <;> simp [expiryOf, addDuration, Representable]

theorem expiryOf_of_representable {now : Instant} {ttl : Option Duration}
    (h : Representable now ttl) : expiryOf now ttl = some (ttl.map (now + ·)) := by
  cases ttl with
  | none => rfl
  | some d => simp [expiryOf, addDuration, h d rfl]

/-- An order in which a hash map with counters as values may be iterated: any rearrangement of its
entries. -/
structure HashOrder (K : Type) where
  iter : List (Σ _ : K, Nat) → List (Σ _ : K, Nat)
  perm : ∀ l, (iter l).Perm l

/-- Iteration in insertion order. -/
def HashOrder.id (K : Type) : HashOrder K := ⟨fun l => l, fun l => List.Perm.refl l⟩

/-- What one tier call takes from its environment. -/
structure Env (K : Type) where
  now : Instant
  order : HashOrder K

/-- Statistics for a cache tier. -/
structure TierStats where
  hits : Nat
  misses : Nat
  evictions : Nat
  sizeBytes : Nat
  capacityBytes : Nat
  entries : Nat
  deriving DecidableEq, Repr

/-- Fresh statistics of a tier with this capacity. -/
def TierStats.fresh (capacityBytes : Nat) : TierStats := ⟨0, 0, 0, 0, capacityBytes, 0⟩

/-- Total number of requests. -/
def TierStats.totalRequests (s : TierStats) : Nat := s.hits + s.misses

/-- One layer in the cache hierarchy.  A call returns the tier as it leaves it. -/
class Tier (K V : outParam Type) (T : Type) where
  get : T → Env K → K → T × Outcome (Option V)
  set : T → Env K → K → V → Option Duration → T × Outcome Unit
  delete : T → Env K → K → T × Outcome Unit
  «exists» : T → Env K → K → T × Outcome Bool
  size : T → Nat
  capacity : T → Nat
  clear : T → T × Outcome Unit
  stats : T → TierStats

end CacheLayer
