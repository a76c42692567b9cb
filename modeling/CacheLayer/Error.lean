/-!
# Error values and call outcomes

`CacheError` and `TierError` of `error.rs`, and the three ways a call can end: with a value, with an
error, or by unwinding.  A panic leaves the state as it was when it was raised (`parking_lot` mutexes
are not poisoned), so every modelled call returns its final state beside its `Outcome`.
-/

set_option autoImplicit false

namespace CacheLayer

/-- Errors that can occur in tier operations (`io` keeps the displayed text of an `io::Error`). -/
inductive TierError where
  | capacityExceeded (size max : Nat)
  | invalidTTL (message : String)
  | evictionFailed (message : String)
  | tierNotAvailable (message : String)
  | io (message : String)
  | network (message : String)
  deriving DecidableEq, Repr

/-- Errors that can occur in cache operations. -/
inductive CacheError where
  | keyNotFound (key : String)
  | keyTooLong (len max : Nat)
  | serializationError (message : String)
  | deserializationError (message : String)
  | tierError (error : TierError)
  | io (message : String)
  | network (message : String)
  | other (message : String)
  deriving DecidableEq, Repr

/-- The panics the modelled code can raise. -/
inductive Panic where
  /-- `attempt to subtract with overflow`: an unchecked `-= 1` on a counter that is `0`. -/
  | subtractOverflow
  /-- `overflow when adding duration to instant`. -/
  | instantOverflow
  deriving DecidableEq, Repr

/-- How a call ends. -/
inductive Outcome (α : Type) where
  | ok (value : α)
  | err (error : CacheError)
  | panic (reason : Panic)
  deriving DecidableEq, Repr

/-- The call returned, with `Ok` or with `Err`. -/
def Outcome.Returned {α : Type} : Outcome α → Prop
  | .ok _ => True
  | .err _ => True
  | .panic _ => False

instance {α : Type} : (o : Outcome α) → Decidable o.Returned
  | .ok _ => isTrue trivial
  | .err _ => isTrue trivial
  | .panic _ => isFalse id

@[simp] theorem Outcome.returned_ok {α : Type} (a : α) : (Outcome.ok a).Returned := trivial

@[simp] theorem Outcome.returned_err {α : Type} (e : CacheError) :
    (Outcome.err e : Outcome α).Returned := trivial

@[simp] theorem Outcome.not_returned_panic {α : Type} (p : Panic) :
    ¬ (Outcome.panic p : Outcome α).Returned := id

end CacheLayer
