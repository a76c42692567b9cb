import CacheLayer.MemoryRun

/-!
# Concurrent callers of one `MemoryCache`

Any number of threads call the methods of one cache.  A step of a thread is one access to the map, one
section under a mutex, or one reading of the clock; between two steps the other threads may do anything.
Where the source takes a second mutex while it holds the first (`size_bytes` then `stats`, in
`evict_for_space`, `delete` and `clear`) the nested section is one step: every mutex it takes is held to
its end.  `entries.clear()` is one step too.

* `Thread` — a call with the place it has reached and the local variables that are still needed;
* `Thread.step` — its next step, `MemorySystem.step` — a step of the whole system;
* `exec_alone` — a call that nobody interrupts does what the method of `Memory` does.
-/

set_option autoImplicit false

namespace CacheLayer

variable {K V P : Type}

/-! ## The machine -/

/-- Where a `get` is; each phase is named after the step it is about to take. -/
inductive GetPhase (V : Type) where
  /-- The first `entries.get(key)`. -/
  | lookup
  /-- `Instant::now() > expires` in `is_expired`. -/
  | clock (expires : Instant)
  /-- `entries.remove(key)`. -/
  | remove
  /-- The second `entries.get(key)`. -/
  | read
  /-- `on_access(key)`. -/
  | access (value : V)
  /-- `entries.get_mut(key)`. -/
  | touch (value : V)
  /-- `entry_mut.last_access = Instant::now()`. -/
  | stamp (value : V)
  /-- `hits += 1`. -/
  | hit (value : V)
  /-- `misses += 1`. -/
  | miss
  deriving DecidableEq

/-- Where a `set` is. -/
inductive SetPhase (K V : Type) where
  /-- `entries.remove(&key)`. -/
  | remove
  /-- The size section for the entry that was removed. -/
  | debit (n : Nat)
  /-- `evict_for_space`: is there room? -/
  | check
  /-- `evict_for_space`: `evict()`. -/
  | evict
  /-- `evict_for_space`: `entries.remove(&victim)`. -/
  | drop (victim : K)
  /-- `evict_for_space`: the size and statistics section for the victim. -/
  | release (n : Nat)
  /-- `evict_for_space`: read the size for the error. -/
  | fail
  /-- `ttl.map(|d| Instant::now() + d)`. -/
  | expiry
  /-- `last_access: Instant::now()`. -/
  | stamp (expiresAt : Option Instant)
  /-- `entries.insert(key, cached)`. -/
  | insert (cached : CachedValue V)
  /-- The size section. -/
  | credit (cached : CachedValue V)
  /-- The statistics section. -/
  | count (cached : CachedValue V) (finalSize : Nat)
  /-- `on_insert(key)`. -/
  | record (cached : CachedValue V)
  deriving DecidableEq

/-- A call in flight or returned.  `delete key (some n)` has removed an entry of `n` bytes,
`exists key (some e)` has found one that expires at `e`, and `clear true` has emptied the map.  A call
that has returned remembers the entry it inserted, which no step reads. -/
inductive Thread (K V : Type) where
  | get (key : K) (phase : GetPhase V)
  | set (key : K) (value : V) (ttl : Option Duration) (oldSize : Option Nat) (phase : SetPhase K V)
  | delete (key : K) (removed : Option Nat)
  | «exists» (key : K) (found : Option Instant)
  | clear (emptied : Bool)
  | returned (op : Op K V) (inserted : Option (CachedValue V)) (reply : Outcome (Reply V))
  deriving DecidableEq

/-- The first state of a call. -/
def Thread.start : Op K V → Thread K V
  | .get key => .get key .lookup
  | .set key value ttl => .set key value ttl none .remove
  | .delete key => .delete key none
  | .exists key => .exists key none
  | .clear => .clear false

namespace Thread

/-- The call itself. -/
def op : Thread K V → Op K V
  | .get key _ => .get key
  | .set key value ttl _ _ => .set key value ttl
  | .delete key _ => .delete key
  | .exists key _ => .exists key
  | .clear _ => .clear
  | .returned op _ _ => op

/-- The call has returned. -/
def Returned : Thread K V → Prop
  | .returned _ _ _ => True
  | _ => False

instance : (th : Thread K V) → Decidable th.Returned
  | .returned _ _ _ => isTrue trivial
  | .get _ _ => isFalse id
  | .set _ _ _ _ _ => isFalse id
  | .delete _ _ => isFalse id
  | .exists _ _ => isFalse id
  | .clear _ => isFalse id

/-- What the call has inserted into the map. -/
def inserted : Thread K V → Option (CachedValue V)
  | .set _ _ _ _ (.credit cached) => some cached
  | .set _ _ _ _ (.count cached _) => some cached
  | .set _ _ _ _ (.record cached) => some cached
  | .returned _ inserted _ => inserted
  | _ => none

@[simp] theorem op_start (op : Op K V) : (start op).op = op := by
  cases op <;> rfl

@[simp] theorem inserted_start (op : Op K V) : (start op).inserted = none := by
  cases op <;> rfl

variable [DecidableEq K] [EvictionPolicy K P] [RustSized K] [RustSized V]

/-- The next step of a `get`. -/
def getStep (c : MemoryCache K V P) (now : Instant) (key : K) :
    GetPhase V → MemoryCache K V P × Thread K V
  | .lookup =>
    match (c.entries.lookup key).bind CachedValue.expiresAt with
    | some expires => (c, .get key (.clock expires))
    | none => (c, .get key .read)
  | .clock expires => if now > expires then (c, .get key .remove) else (c, .get key .read)
  | .remove => (c.removeEntry key, .get key .miss)
  | .read =>
    match c.entries.lookup key with
    | some entry => (c, .get key (.access entry.value))
    | none => (c, .get key .miss)
  | .access value =>
    (c.setPolicy (EvictionPolicy.onAccess c.evictionPolicy key), .get key (.touch value))
  | .touch value =>
    if key ∈ c.entries then (c, .get key (.stamp value)) else (c, .get key (.hit value))
  | .stamp value => (c.touchEntry key now, .get key (.hit value))
  | .hit value => (c.countHit, .returned (.get key) none (.ok (.value (some value))))
  | .miss => (c.countMiss, .returned (.get key) none (.ok (.value none)))

/-- The next step of a `set`. -/
def setStep (c : MemoryCache K V P) (now : Instant) (order : HashOrder K) (key : K) (value : V)
    (ttl : Option Duration) (oldSize : Option Nat) :
    SetPhase K V → MemoryCache K V P × Thread K V
  | .remove =>
    match c.entries.lookup key with
    | some entry =>
      (c.removeEntry key, .set key value ttl (some entry.sizeBytes) (.debit entry.sizeBytes))
    | none => (c, .set key value ttl none .check)
  | .debit n => (c.debit n, .set key value ttl oldSize .check)
  | .check =>
    if c.HasRoom (MemoryCache.estimateSize key value) then (c, .set key value ttl oldSize .expiry)
    else (c, .set key value ttl oldSize .evict)
  | .evict =>
    match EvictionPolicy.evict c.evictionPolicy order with
    | (some victim, policy) => (c.setPolicy policy, .set key value ttl oldSize (.drop victim))
    | (none, policy) => (c.setPolicy policy, .set key value ttl oldSize .fail)
  | .drop victim =>
    match c.entries.lookup victim with
    | some entry => (c.removeEntry victim, .set key value ttl oldSize (.release entry.sizeBytes))
    | none => (c, .set key value ttl oldSize .check)
  | .release n =>
    match c.countEviction.releaseEntry n with
    | (c, none) => (c, .set key value ttl oldSize .check)
    | (c, some p) => (c, .returned (.set key value ttl) none (.panic p))
  | .fail =>
    (c, .returned (.set key value ttl) none (.err (c.capacityExceeded (MemoryCache.estimateSize key value))))
  | .expiry =>
    match expiryOf now ttl with
    | some expiresAt => (c, .set key value ttl oldSize (.stamp expiresAt))
    | none => (c, .returned (.set key value ttl) none (.panic .instantOverflow))
  | .stamp expiresAt =>
    (c, .set key value ttl oldSize (.insert ⟨value, expiresAt, MemoryCache.estimateSize key value, now⟩))
  | .insert cached => (c.insertEntry key cached, .set key value ttl oldSize (.credit cached))
  | .credit cached =>
    (c.credit cached.sizeBytes,
      .set key value ttl oldSize (.count cached (c.sizeBytes + cached.sizeBytes)))
  | .count cached finalSize =>
    (c.countInsert oldSize finalSize, .set key value ttl oldSize (.record cached))
  | .record cached =>
    (c.setPolicy (EvictionPolicy.onInsert c.evictionPolicy key),
      .returned (.set key value ttl) (some cached) (.ok .unit))

/-- The next step of a `delete`. -/
def deleteStep (c : MemoryCache K V P) (key : K) : Option Nat → MemoryCache K V P × Thread K V
  | none =>
    match c.entries.lookup key with
    | some entry => (c.removeEntry key, .delete key (some entry.sizeBytes))
    | none => (c, .returned (.delete key) none (.ok .unit))
  | some n =>
    match c.releaseEntry n with
    | (c, none) => (c, .returned (.delete key) none (.ok .unit))
    | (c, some p) => (c, .returned (.delete key) none (.panic p))

/-- The next step of an `exists`. -/
def existsStep (c : MemoryCache K V P) (now : Instant) (key : K) :
    Option Instant → MemoryCache K V P × Thread K V
  | none =>
    match c.entries.lookup key with
    | some entry =>
      match entry.expiresAt with
      | some expires => (c, .exists key (some expires))
      | none => (c, .returned (.exists key) none (.ok (.flag true)))
    | none => (c, .returned (.exists key) none (.ok (.flag false)))
  | some expires =>
    (c, .returned (.exists key) none (.ok (.flag !decide (now > expires))))

/-- The next step of a `clear`.  `entries.clear()` empties the map in one step, although `DashMap` goes from
shard to shard. -/
def clearStep (c : MemoryCache K V P) : Bool → MemoryCache K V P × Thread K V
  | false => (c.clearEntries, .clear true)
  | true => (c.resetCounters, .returned .clear none (.ok .unit))

/-- The next step of a call. -/
def step (c : MemoryCache K V P) (now : Instant) (order : HashOrder K) :
    Thread K V → Option (MemoryCache K V P × Thread K V)
  | .get key phase => some (getStep c now key phase)
  | .set key value ttl oldSize phase => some (setStep c now order key value ttl oldSize phase)
  | .delete key removed => some (deleteStep c key removed)
  | .exists key found => some (existsStep c now key found)
  | .clear emptied => some (clearStep c emptied)
  | .returned _ _ _ => none

section Steps

variable {c : MemoryCache K V P} {now : Instant} {order : HashOrder K} {th : Thread K V}
  {r : MemoryCache K V P × Thread K V}

theorem step_not_returned (h : th.step c now order = some r) : ¬ th.Returned := by
  intro hret
  cases th with
  | returned op inserted reply => cases h
  | _ => exact hret

/-- A step changes the place a call has reached, not the call. -/
theorem step_op (h : th.step c now order = some r) : r.2.op = th.op := by
  cases th with
  | get key phase =>
    cases h
    fun_cases getStep c now key phase <;> rfl
  | set key value ttl oldSize phase =>
    cases h
    fun_cases setStep c now order key value ttl oldSize phase <;> rfl
  | delete key removed =>
    cases h
    fun_cases deleteStep c key removed <;> rfl
  | «exists» key found =>
    cases h
    fun_cases existsStep c now key found <;> rfl
  | clear emptied =>
    cases h
    fun_cases clearStep c emptied <;> rfl
  | returned op inserted reply => cases h

end Steps

end Thread

/-- A cache, the calls made on it, and the clock. -/
structure MemorySystem (K V P : Type) where
  cache : MemoryCache K V P
  threads : List (Thread K V)
  clock : Instant

/-- A call is made, thread `i` takes its next step, or the clock moves on. -/
inductive MemoryLabel (K V : Type) where
  | invoke (op : Op K V)
  | run (i : Nat) (order : HashOrder K)
  | tick (now : Instant)

namespace MemorySystem

/-- A fresh cache that nobody has called. -/
def fresh (capacityBytes : Nat) (policy : P) (h : 0 < capacityBytes) : MemorySystem K V P :=
  ⟨.withPolicy capacityBytes policy h, [], 0⟩

/-- A call is made. -/
def invoke (s : MemorySystem K V P) (op : Op K V) : MemorySystem K V P :=
  { s with threads := s.threads ++ [.start op] }

/-- Thread `i` has taken a step. -/
def advance (s : MemorySystem K V P) (i : Nat) (r : MemoryCache K V P × Thread K V) :
    MemorySystem K V P :=
  { s with cache := r.1, threads := s.threads.set i r.2 }

/-- Thread `i` takes `n` steps. -/
def runs (i n : Nat) (order : HashOrder K) : List (MemoryLabel K V) :=
  List.replicate n (.run i order)

/-- No call is in flight. -/
def Quiet (s : MemorySystem K V P) : Prop := ∀ th ∈ s.threads, th.Returned

instance (s : MemorySystem K V P) : Decidable s.Quiet := by
  unfold Quiet; infer_instance

variable [DecidableEq K] [EvictionPolicy K P] [RustSized K] [RustSized V]

/-- One step. -/
def step (s : MemorySystem K V P) : MemoryLabel K V → Option (MemorySystem K V P)
  | .invoke op => some (s.invoke op)
  | .run i order =>
    match s.threads[i]? with
    | some th => (th.step s.cache s.clock order).map (s.advance i)
    | none => none
  | .tick now => if s.clock ≤ now then some { s with clock := now } else none

/-- The step relation. -/
def Steps (s : MemorySystem K V P) (l : MemoryLabel K V) (t : MemorySystem K V P) : Prop :=
  s.step l = some t

/-- What a step can be. -/
theorem step_cases {s t : MemorySystem K V P} {l : MemoryLabel K V} (h : Steps s l t) :
    (∃ op, l = .invoke op ∧ t = s.invoke op) ∨
    (∃ i order th r, l = .run i order ∧ s.threads[i]? = some th ∧
      th.step s.cache s.clock order = some r ∧ t = s.advance i r) ∨
    (∃ now, l = .tick now ∧ s.clock ≤ now ∧ t = { s with clock := now }) := by
  cases l with
  | invoke op =>
    cases h
    exact Or.inl ⟨op, rfl, rfl⟩
  | run i order =>
    replace h : (match s.threads[i]? with
      | some th => (th.step s.cache s.clock order).map (s.advance i)
      | none => none) = some t := h
    split at h
    · rename_i th hi
      obtain ⟨r, hr, rfl⟩ := Option.map_eq_some_iff.1 h
      exact Or.inr (Or.inl ⟨i, order, th, r, rfl, hi, hr, rfl⟩)
    · cases h
  | tick now =>
    replace h : (if s.clock ≤ now then some { s with clock := now } else none) = some t := h
    split at h
    · rename_i hle
      cases h
      exact Or.inr (Or.inr ⟨now, rfl, hle, rfl⟩)
    · cases h

theorem steps_run {s : MemorySystem K V P} {i : Nat} {order : HashOrder K} {th : Thread K V}
    {r : MemoryCache K V P × Thread K V} (hi : s.threads[i]? = some th)
    (h : th.step s.cache s.clock order = some r) : Steps s (.run i order) (s.advance i r) := by
  simp only [Steps, step, hi, h, Option.map_some]

omit [DecidableEq K] [EvictionPolicy K P] [RustSized K] [RustSized V] in
theorem invoke_get {s : MemorySystem K V P} {op : Op K V} {i : Nat} {th : Thread K V}
    (h : s.threads[i]? = some th) : (s.invoke op).threads[i]? = some th := by
  have hlt := (List.getElem?_eq_some_iff.1 h).1
  simpa [invoke, List.getElem?_append_left hlt] using h

omit [DecidableEq K] [EvictionPolicy K P] [RustSized K] [RustSized V] in
theorem get_of_invoke {s : MemorySystem K V P} {op : Op K V} {i : Nat} {th : Thread K V}
    (h : (s.invoke op).threads[i]? = some th) :
    s.threads[i]? = some th ∨ i = s.threads.length ∧ th = .start op := by
  simp only [invoke, List.getElem?_append] at h
  split at h
  · exact Or.inl h
  · rename_i hlt
    obtain ⟨hz, heq⟩ := List.getElem?_eq_some_iff.1 h
    simp only [List.length_singleton] at hz
    simp only [List.getElem_singleton] at heq
    exact Or.inr ⟨by omega, heq.symm⟩

omit [DecidableEq K] [EvictionPolicy K P] [RustSized K] [RustSized V] in
theorem advance_get_self {s : MemorySystem K V P} {i : Nat} {th : Thread K V}
    {r : MemoryCache K V P × Thread K V} (h : s.threads[i]? = some th) :
    (s.advance i r).threads[i]? = some r.2 :=
  List.getElem?_set_self (List.getElem?_eq_some_iff.1 h).1

omit [DecidableEq K] [EvictionPolicy K P] [RustSized K] [RustSized V] in
theorem advance_get_ne {s : MemorySystem K V P} {i j : Nat} {r : MemoryCache K V P × Thread K V}
    (h : i ≠ j) : (s.advance i r).threads[j]? = s.threads[j]? :=
  List.getElem?_set_ne h

omit [DecidableEq K] [EvictionPolicy K P] [RustSized K] [RustSized V] in
theorem mem_advance {s : MemorySystem K V P} {i : Nat} {th : Thread K V}
    {r : MemoryCache K V P × Thread K V} (h : th ∈ (s.advance i r).threads) :
    th ∈ s.threads ∨ th = r.2 :=
  List.mem_or_eq_of_mem_set h

end MemorySystem

/-! ## A call that runs alone -/

namespace Thread

open Relation (ReflTransGen)

variable [DecidableEq K] [EvictionPolicy K P] [RustSized K] [RustSized V]

/-- A step of a thread at a standing clock. -/
def Moves (env : Env K) (a b : MemoryCache K V P × Thread K V) : Prop :=
  a.2.step a.1 env.now env.order = some b

theorem Moves.then {env : Env K} {c : MemoryCache K V P} {th : Thread K V}
    {b z : MemoryCache K V P × Thread K V} (hstep : th.step c env.now env.order = some b)
    (h : ReflTransGen (Moves env) b z) : ReflTransGen (Moves env) (c, th) z :=
  .head hstep h

/-- Where the removal of a victim leaves the `set`. -/
def afterDrop (key : K) (value : V) (ttl : Option Duration) (oldSize : Option Nat) :
    Option Panic → Thread K V
  | none => .set key value ttl oldSize .check
  | some p => .returned (.set key value ttl) none (.panic p)

/-- Where `evict_for_space` leaves the `set`. -/
def afterEvict (key : K) (value : V) (ttl : Option Duration) (oldSize : Option Nat) :
    Outcome Unit → Thread K V
  | .ok _ => .set key value ttl oldSize .expiry
  | .err e => .returned (.set key value ttl) none (.err e)
  | .panic p => .returned (.set key value ttl) none (.panic p)

theorem dropVictim_alone (env : Env K) (key : K) (value : V) (ttl : Option Duration)
    (oldSize : Option Nat) (c : MemoryCache K V P) (victim : K) :
    ReflTransGen (Moves env) (c, .set key value ttl oldSize (.drop victim))
      ((c.dropVictim victim).1, afterDrop key value ttl oldSize (c.dropVictim victim).2) := by
  unfold MemoryCache.dropVictim
  split
  · rename_i entry hl
    refine Moves.then (b := (c.removeEntry victim,
      .set key value ttl oldSize (.release entry.sizeBytes))) ?_ ?_
    · simp [step, setStep, hl]
    · refine Moves.then (b := _) ?_ .refl
      simp only [step, setStep, afterDrop]
      generalize (c.removeEntry victim).countEviction.releaseEntry entry.sizeBytes = r
      obtain ⟨c', _ | p⟩ := r <;> rfl
  · rename_i hl
    refine Moves.then (b := _) ?_ .refl
    simp [step, setStep, hl, afterDrop]

theorem evictLoop_alone (env : Env K) (key : K) (value : V) (ttl : Option Duration)
    (oldSize : Option Nat) : ∀ (fuel : Nat) (c : MemoryCache K V P)
      {r : MemoryCache K V P × Outcome Unit},
      MemoryCache.evictLoop env.order (entrySize K V) fuel c = some r →
      ReflTransGen (Moves env) (c, .set key value ttl oldSize .check)
        (r.1, afterEvict key value ttl oldSize r.2)
  | 0, _, _, h => by cases h
  | fuel + 1, c, r, h => by
    unfold MemoryCache.evictLoop at h
    split at h
    · rename_i hroom
      cases h
      refine Moves.then (b := (c, .set key value ttl oldSize .expiry)) ?_ .refl
      simp [step, setStep, MemoryCache.HasRoom, hroom]
    · rename_i hroom
      refine Moves.then (b := (c, .set key value ttl oldSize .evict)) ?_ ?_
      · simp [step, setStep, MemoryCache.HasRoom, hroom]
      · split at h
        · rename_i victim policy hev
          refine Moves.then (b := (c.setPolicy policy, .set key value ttl oldSize (.drop victim))) ?_ ?_
          · simp [step, setStep, hev]
          · have hdrop := dropVictim_alone env key value ttl oldSize (c.setPolicy policy) victim
            split at h
            · rename_i c' heq
              rw [heq] at hdrop
              exact hdrop.trans (evictLoop_alone env key value ttl oldSize fuel c' h)
            · rename_i c' p heq
              rw [heq] at hdrop
              cases h
              exact hdrop
        · rename_i policy hev
          cases h
          refine Moves.then (b := (c.setPolicy policy, .set key value ttl oldSize .fail)) ?_ ?_
          · simp [step, setStep, hev]
          · exact Moves.then rfl .refl

/-- From the expiry on a `set` reads the clock and stores its entry. -/
theorem expiry_alone (env : Env K) (key : K) (value : V) (ttl : Option Duration)
    (oldSize : Option Nat) (c : MemoryCache K V P) :
    ∃ inserted, ReflTransGen (Moves env) (c, .set key value ttl oldSize .expiry)
      (match expiryOf env.now ttl with
        | some expiresAt =>
          (c.store oldSize key ⟨value, expiresAt, entrySize K V, env.now⟩,
            .returned (.set key value ttl) inserted (.ok .unit))
        | none => (c, .returned (.set key value ttl) inserted (.panic .instantOverflow))) := by
  cases hexp : expiryOf env.now ttl with
  | none =>
    refine ⟨none, Moves.then ?_ .refl⟩
    simp [step, setStep, hexp]
  | some expiresAt =>
    refine ⟨some ⟨value, expiresAt, entrySize K V, env.now⟩, ?_⟩
    refine Moves.then (b := (c, .set key value ttl oldSize (.stamp expiresAt))) ?_ ?_
    · simp [step, setStep, hexp]
    · exact Moves.then rfl (Moves.then rfl (Moves.then rfl (Moves.then rfl (Moves.then rfl .refl))))

theorem set_alone (env : Env K) (key : K) (value : V) (ttl : Option Duration)
    (c : MemoryCache K V P) :
    ∃ inserted, ReflTransGen (Moves env) (c, start (.set key value ttl))
      ((c.set env key value ttl).1,
        .returned (.set key value ttl) inserted ((c.set env key value ttl).2.map fun _ => .unit)) := by
  have hold : ReflTransGen (Moves env) (c, start (.set key value ttl))
      ((c.takeOld key).1, .set key value ttl (c.takeOld key).2 .check) := by
    unfold MemoryCache.takeOld
    split
    · rename_i entry hl
      refine Moves.then (b := (c.removeEntry key,
        .set key value ttl (some entry.sizeBytes) (.debit entry.sizeBytes))) ?_ ?_
      · simp [step, setStep, start, hl]
      · exact Moves.then rfl .refl
    · rename_i hl
      refine Moves.then (b := (c, .set key value ttl none .check)) ?_ .refl
      simp [step, setStep, start, hl]
  have hevict := hold.trans (evictLoop_alone env key value ttl (c.takeOld key).2 _ _
    (r := (c.takeOld key).1.evictForSpace env.order (entrySize K V)) (Option.some_get _).symm)
  unfold MemoryCache.set
  simp only [MemoryCache.estimateSize_eq]
  generalize (c.takeOld key).1.evictForSpace env.order (entrySize K V) = r at hevict
  obtain ⟨c', o⟩ := r
  cases o with
  | ok u =>
    obtain ⟨inserted, hstore⟩ := expiry_alone env key value ttl (c.takeOld key).2 c'
    refine ⟨inserted, hevict.trans ?_⟩
    simp only [afterEvict]
    split
    · rename_i expiresAt hexp
      simp only [hexp] at hstore
      exact hstore
    · rename_i hexp
      simp only [hexp] at hstore
      exact hstore
  | err e => exact ⟨none, hevict⟩
  | panic p => exact ⟨none, hevict⟩

/-- From the second `entries.get(key)` on, a `get` that finds the key reports it. -/
theorem read_alone (env : Env K) (key : K) (c : MemoryCache K V P) :
    ReflTransGen (Moves env) (c, .get key .read)
      (match c.entries.lookup key with
        | some entry =>
          (((c.setPolicy (EvictionPolicy.onAccess c.evictionPolicy key)).touchEntry key
            env.now).countHit, .returned (.get key) none (.ok (.value (some entry.value))))
        | none => (c.countMiss, .returned (.get key) none (.ok (.value none)))) := by
  cases hl : c.entries.lookup key with
  | none =>
    refine Moves.then (b := (c, .get key .miss)) ?_ (Moves.then rfl .refl)
    simp [step, getStep, hl]
  | some entry =>
    have hmem : key ∈ c.entries := AList.mem_of_lookup hl
    refine Moves.then (b := (c, .get key (.access entry.value))) ?_ (Moves.then rfl ?_)
    · simp [step, getStep, hl]
    · refine Moves.then (b := (_, .get key (.stamp entry.value))) ?_ (Moves.then rfl (Moves.then rfl .refl))
      simp [step, getStep, MemoryCache.setPolicy, hmem]

theorem get_alone (env : Env K) (key : K) (c : MemoryCache K V P) :
    ReflTransGen (Moves env) (c, start (.get key))
      ((c.get env key).1, .returned (.get key) none ((c.get env key).2.map .value)) := by
  have hread := read_alone env key c
  unfold MemoryCache.get
  cases hl : c.entries.lookup key with
  | none =>
    rw [hl] at hread
    refine Moves.then (b := (c, .get key .read)) ?_ hread
    simp [step, getStep, start, hl]
  | some entry =>
    rw [hl] at hread
    cases hexp : entry.expiresAt with
    | none =>
      have hlive : entry.isExpired env.now = false := by simp [CachedValue.isExpired, hexp]
      refine Moves.then (b := (c, .get key .read)) ?_ ?_
      · simp [step, getStep, start, hl, hexp]
      · simpa [hlive, Outcome.map] using hread
    | some expires =>
      refine Moves.then (b := (c, .get key (.clock expires))) ?_ ?_
      · simp [step, getStep, start, hl, hexp]
      · by_cases hlt : env.now > expires
        · have hdead : entry.isExpired env.now = true := by simp [CachedValue.isExpired, hexp, hlt]
          refine Moves.then (b := (c, .get key .remove)) ?_ (Moves.then rfl (Moves.then rfl ?_))
          · simp [step, getStep, hlt]
          · simp only [hdead, if_true]
            exact .refl
        · have hlive : entry.isExpired env.now = false := by simp [CachedValue.isExpired, hexp, hlt]
          refine Moves.then (b := (c, .get key .read)) ?_ ?_
          · simp [step, getStep, hlt]
          · simpa [hlive, Outcome.map] using hread

theorem delete_alone (env : Env K) (key : K) (c : MemoryCache K V P) :
    ReflTransGen (Moves env) (c, start (.delete key))
      ((c.delete key).1, .returned (.delete key) none ((c.delete key).2.map fun _ => .unit)) := by
  unfold MemoryCache.delete
  cases hl : c.entries.lookup key with
  | none =>
    refine Moves.then (b := _) ?_ .refl
    simp [step, deleteStep, start, hl, Outcome.map]
  | some entry =>
    refine Moves.then (b := (c.removeEntry key, .delete key (some entry.sizeBytes))) ?_ ?_
    · simp [step, deleteStep, start, hl]
    · refine Moves.then (b := _) ?_ .refl
      simp only [step, deleteStep]
      generalize (c.removeEntry key).releaseEntry entry.sizeBytes = r
      obtain ⟨c', _ | p⟩ := r <;> rfl

theorem exists_alone (env : Env K) (key : K) (c : MemoryCache K V P) :
    ReflTransGen (Moves env) (c, start (.exists key))
      (c, .returned (.exists key) none ((c.exists env.now key).map .flag)) := by
  unfold MemoryCache.exists
  cases hl : c.entries.lookup key with
  | none =>
    refine Moves.then (b := _) ?_ .refl
    simp [step, existsStep, start, hl, Outcome.map]
  | some entry =>
    cases hexp : entry.expiresAt with
    | none =>
      refine Moves.then (b := _) ?_ .refl
      simp [step, existsStep, start, hl, hexp, Outcome.map, CachedValue.isExpired]
    | some expires =>
      refine Moves.then (b := (c, .exists key (some expires))) ?_ (Moves.then (b := _) ?_ .refl)
      · simp [step, existsStep, start, hl, hexp]
      · simp [step, existsStep, hexp, Outcome.map, CachedValue.isExpired]

/-- **A call that runs alone does what the method does**, in the same state of the cache and with the
same reply. -/
theorem exec_alone (env : Env K) (c : MemoryCache K V P) (op : Op K V) :
    ∃ inserted, ReflTransGen (Moves env) (c, start op)
      ((c.exec env op).1, .returned op inserted (c.exec env op).2) := by
  cases op with
  | get key => exact ⟨none, get_alone env key c⟩
  | set key value ttl => exact set_alone env key value ttl c
  | delete key => exact ⟨none, delete_alone env key c⟩
  | «exists» key => exact ⟨none, exists_alone env key c⟩
  | clear => exact ⟨none, Moves.then rfl (Moves.then rfl .refl)⟩

end Thread

namespace MemorySystem

variable [DecidableEq K] [EvictionPolicy K P] [RustSized K] [RustSized V]

/-- The steps that one thread takes while the others stand are a run of the system. -/
theorem run_of_moves {s : MemorySystem K V P} {i : Nat} {env : Env K} {th : Thread K V}
    {r : MemoryCache K V P × Thread K V} (hclock : s.clock = env.now) (hi : s.threads[i]? = some th)
    (h : Relation.ReflTransGen (Thread.Moves env) (s.cache, th) r) :
    ∃ n, Run Steps s (runs i n env.order) (s.advance i r) := by
  have hlt : i < s.threads.length := (List.getElem?_eq_some_iff.1 hi).1
  induction h with
  | refl =>
    refine ⟨0, ?_⟩
    have hs : s.advance i (s.cache, th) = s := by
      have hth : s.threads[i] = th := (List.getElem?_eq_some_iff.1 hi).2
      simp [advance, ← hth]
    rw [hs]
    exact .nil
  | @tail a b _ hmove ih =>
    obtain ⟨n, hrun⟩ := ih
    refine ⟨n + 1, ?_⟩
    rw [runs, List.replicate_succ']
    refine hrun.snoc ?_
    have hget : (s.advance i a).threads[i]? = some a.2 := List.getElem?_set_self hlt
    have hstep : a.2.step a.1 s.clock env.order = some b := by rw [hclock]; exact hmove
    have hadvance : (s.advance i a).advance i b = s.advance i b := by simp [advance]
    rw [← hadvance]
    exact steps_run hget hstep

/-- **Uninterrupted, a call of the system is a call of the sequential model.** -/
theorem run_exec (s : MemorySystem K V P) (order : HashOrder K) (op : Op K V) :
    ∃ n inserted, Run Steps (s.invoke op) (runs s.threads.length n order)
      { s with
        cache := (s.cache.exec ⟨s.clock, order⟩ op).1
        threads := s.threads ++
          [.returned op inserted (s.cache.exec ⟨s.clock, order⟩ op).2] } := by
  obtain ⟨inserted, h⟩ := Thread.exec_alone ⟨s.clock, order⟩ s.cache op
  have hi : (s.invoke op).threads[s.threads.length]? = some (.start op) := by simp [invoke]
  obtain ⟨n, hrun⟩ := run_of_moves (s := s.invoke op) rfl hi h
  refine ⟨n, inserted, ?_⟩
  simpa [advance, invoke] using hrun

end MemorySystem

end CacheLayer
