import CacheLayer.MemoryThreads

/-!
# What a cache does not depend on

The hits, misses and evictions of the statistics are written and never read, the tracking capacity of a
policy is declared and never consulted, and the minimum frequency of `LFU` is kept and never used.  Two
caches that differ in nothing else behave alike under any interleaving, and `clear` leaves a cache that
differs from a new one in nothing else.

* `Bisimulation` — a relation between the states of two policies that their operations keep, naming the
  same victims;
* `Alike`, `Thread.step_alike` — caches that agree but for the write-only counters, with related policies,
  and that a step of a call keeps them so and leads the call to the same place;
* `MemoryCache.StatesCapacity`, `statesCapacity_of_run` — the capacity in the statistics, which `with_policy`
  copies there, is never written again;
* `agree_of_run` — so every run of one cache is a run of the other;
* `BoxedPolicy.Same` — the policies of one kind that agree but for what they never read;
* `clear_renews` — so a cleared cache, whatever its history, behaves as a new one.
-/

set_option autoImplicit false

namespace CacheLayer

variable {K V P Q : Type}

/-- The operations of two policies keep their states related, and name the same victims. -/
structure Bisimulation [EvictionPolicy K P] [EvictionPolicy K Q] (R : P → Q → Prop) : Prop where
  access : ∀ {p q}, R p q → ∀ key : K, R (EvictionPolicy.onAccess p key) (EvictionPolicy.onAccess q key)
  insert : ∀ {p q}, R p q → ∀ key : K, R (EvictionPolicy.onInsert p key) (EvictionPolicy.onInsert q key)
  victim : ∀ {p q}, R p q → ∀ order : HashOrder K,
    (EvictionPolicy.evict p order).1 = (EvictionPolicy.evict q order).1
  evict : ∀ {p q}, R p q → ∀ order : HashOrder K,
    R (EvictionPolicy.evict p order).2 (EvictionPolicy.evict q order).2
  reset : ∀ {p q}, R p q → R (EvictionPolicy.reset p) (EvictionPolicy.reset q)

/-- The caches agree but for the statistics that no step reads, and their policies are related. -/
structure Alike (R : P → Q → Prop) (c : MemoryCache K V P) (d : MemoryCache K V Q) : Prop where
  entries : c.entries = d.entries
  capacity : c.capacityBytes = d.capacityBytes
  size : c.sizeBytes = d.sizeBytes
  statsSize : c.stats.sizeBytes = d.stats.sizeBytes
  statsEntries : c.stats.entries = d.stats.entries
  policy : R c.evictionPolicy d.evictionPolicy

namespace Alike

variable {R : P → Q → Prop} {c : MemoryCache K V P} {d : MemoryCache K V Q}

theorem removeEntry [DecidableEq K] (h : Alike R c d) (key : K) :
    Alike R (c.removeEntry key) (d.removeEntry key) :=
  ⟨congrArg (·.erase key) h.entries, h.capacity, h.size, h.statsSize, h.statsEntries, h.policy⟩

theorem insertEntry [DecidableEq K] (h : Alike R c d) (key : K) (cached : CachedValue V) :
    Alike R (c.insertEntry key cached) (d.insertEntry key cached) :=
  ⟨congrArg (·.insert key cached) h.entries, h.capacity, h.size, h.statsSize, h.statsEntries, h.policy⟩

theorem touchEntry [DecidableEq K] (h : Alike R c d) (key : K) (now : Instant) :
    Alike R (c.touchEntry key now) (d.touchEntry key now) :=
  ⟨congrArg (AList.mapVals _) h.entries, h.capacity, h.size, h.statsSize, h.statsEntries, h.policy⟩

theorem clearEntries (h : Alike R c d) : Alike R c.clearEntries d.clearEntries :=
  ⟨rfl, h.capacity, h.size, h.statsSize, h.statsEntries, h.policy⟩

theorem debit (h : Alike R c d) (n : Nat) : Alike R (c.debit n) (d.debit n) :=
  ⟨h.entries, h.capacity, congrArg (· - n) h.size, h.statsSize, h.statsEntries, h.policy⟩

theorem credit (h : Alike R c d) (n : Nat) : Alike R (c.credit n) (d.credit n) :=
  ⟨h.entries, h.capacity, congrArg (· + n) h.size, h.statsSize, h.statsEntries, h.policy⟩

theorem countHit (h : Alike R c d) : Alike R c.countHit d.countHit :=
  ⟨h.entries, h.capacity, h.size, h.statsSize, h.statsEntries, h.policy⟩

theorem countMiss (h : Alike R c d) : Alike R c.countMiss d.countMiss :=
  ⟨h.entries, h.capacity, h.size, h.statsSize, h.statsEntries, h.policy⟩

theorem countEviction (h : Alike R c d) : Alike R c.countEviction d.countEviction :=
  ⟨h.entries, h.capacity, h.size, h.statsSize, h.statsEntries, h.policy⟩

theorem countInsert (h : Alike R c d) (oldSize : Option Nat) (finalSize : Nat) :
    Alike R (c.countInsert oldSize finalSize) (d.countInsert oldSize finalSize) := by
  cases oldSize with
  | none =>
    exact ⟨h.entries, h.capacity, h.size, rfl, congrArg (· + 1) h.statsEntries, h.policy⟩
  | some n => exact ⟨h.entries, h.capacity, h.size, rfl, h.statsEntries, h.policy⟩

theorem setPolicy (h : Alike R c d) {p : P} {q : Q} (hpolicy : R p q) :
    Alike R (c.setPolicy p) (d.setPolicy q) :=
  ⟨h.entries, h.capacity, h.size, h.statsSize, h.statsEntries, hpolicy⟩

theorem releaseEntry (h : Alike R c d) (n : Nat) :
    (c.releaseEntry n).2 = (d.releaseEntry n).2 ∧ Alike R (c.releaseEntry n).1 (d.releaseEntry n).1 := by
  have hdebit := h.debit n
  have hentries : (c.debit n).stats.entries = (d.debit n).stats.entries := h.statsEntries
  unfold MemoryCache.releaseEntry
  simp only [hentries]
  split
  · exact ⟨rfl, hdebit⟩
  · exact ⟨rfl, h.entries, h.capacity, hdebit.size, hdebit.size, rfl, h.policy⟩

theorem hasRoom_iff (h : Alike R c d) (n : Nat) : c.HasRoom n ↔ d.HasRoom n := by
  unfold MemoryCache.HasRoom
  rw [h.size, h.capacity]

end Alike

/-! ## Steps -/

namespace Thread

variable [DecidableEq K] [EvictionPolicy K P] [EvictionPolicy K Q] [RustSized K] [RustSized V]
  {R : P → Q → Prop} {c : MemoryCache K V P} {d : MemoryCache K V Q}

/-- The calls are led to the same place, and the caches stay alike. -/
def Agrees (R : P → Q → Prop) (r : MemoryCache K V P × Thread K V) (r' : MemoryCache K V Q × Thread K V) :
    Prop :=
  r.2 = r'.2 ∧ Alike R r.1 r'.1

omit [RustSized K] [RustSized V] in
theorem getStep_alike (hR : Bisimulation R) (h : Alike R c d) (now : Instant) (key : K)
    (phase : GetPhase V) : Agrees R (getStep c now key phase) (getStep d now key phase) := by
  cases phase with
  | lookup =>
    simp only [getStep, h.entries]
    cases (d.entries.lookup key).bind CachedValue.expiresAt with
    | none => exact ⟨rfl, h⟩
    | some expires => exact ⟨rfl, h⟩
  | clock expires =>
    simp only [getStep]
    split <;> exact ⟨rfl, h⟩
  | remove => exact ⟨rfl, h.removeEntry key⟩
  | read =>
    simp only [getStep, h.entries]
    split <;> exact ⟨rfl, h⟩
  | access value => exact ⟨rfl, h.setPolicy (hR.access h.policy key)⟩
  | touch value =>
    simp only [getStep, h.entries]
    split <;> exact ⟨rfl, h⟩
  | stamp value => exact ⟨rfl, h.touchEntry key now⟩
  | hit value => exact ⟨rfl, h.countHit⟩
  | miss => exact ⟨rfl, h.countMiss⟩

theorem setStep_alike (hR : Bisimulation R) (h : Alike R c d) (now : Instant) (order : HashOrder K)
    (key : K) (value : V) (ttl : Option Duration) (oldSize : Option Nat) (phase : SetPhase K V) :
    Agrees R (setStep c now order key value ttl oldSize phase)
      (setStep d now order key value ttl oldSize phase) := by
  cases phase with
  | remove =>
    simp only [setStep, h.entries]
    split
    · exact ⟨rfl, h.removeEntry key⟩
    · exact ⟨rfl, h⟩
  | debit n => exact ⟨rfl, h.debit n⟩
  | check =>
    have hroom := h.hasRoom_iff (MemoryCache.estimateSize key value)
    by_cases hc : c.HasRoom (MemoryCache.estimateSize key value)
    · simp only [setStep, if_pos hc, if_pos (hroom.1 hc)]
      exact ⟨rfl, h⟩
    · simp only [setStep, if_neg hc, if_neg (mt hroom.2 hc)]
      exact ⟨rfl, h⟩
  | evict =>
    have hvictim := hR.victim h.policy order
    have hevict := hR.evict h.policy order
    simp only [setStep]
    rcases hp : EvictionPolicy.evict c.evictionPolicy order with ⟨victim, p⟩
    rcases hq : EvictionPolicy.evict d.evictionPolicy order with ⟨victim', q⟩
    rw [hp, hq] at hvictim hevict
    cases hvictim
    cases victim with
    | none => exact ⟨rfl, h.setPolicy hevict⟩
    | some victim => exact ⟨rfl, h.setPolicy hevict⟩
  | drop victim =>
    simp only [setStep, h.entries]
    split
    · exact ⟨rfl, h.removeEntry victim⟩
    · exact ⟨rfl, h⟩
  | release n =>
    obtain ⟨hpanic, hrelease⟩ := h.countEviction.releaseEntry n
    simp only [setStep]
    rcases hp : c.countEviction.releaseEntry n with ⟨c', o⟩
    rcases hq : d.countEviction.releaseEntry n with ⟨d', o'⟩
    rw [hp, hq] at hpanic hrelease
    cases hpanic
    cases o with
    | none => exact ⟨rfl, hrelease⟩
    | some reason => exact ⟨rfl, hrelease⟩
  | fail =>
    refine ⟨?_, h⟩
    simp only [setStep, MemoryCache.capacityExceeded, h.size, h.capacity]
  | expiry =>
    simp only [setStep]
    split <;> exact ⟨rfl, h⟩
  | stamp expiresAt => exact ⟨rfl, h⟩
  | insert cached => exact ⟨rfl, h.insertEntry key cached⟩
  | credit cached =>
    refine ⟨?_, h.credit cached.sizeBytes⟩
    simp only [setStep, h.size]
  | count cached finalSize => exact ⟨rfl, h.countInsert oldSize finalSize⟩
  | record cached => exact ⟨rfl, h.setPolicy (hR.insert h.policy key)⟩

omit [EvictionPolicy K P] [EvictionPolicy K Q] [RustSized K] [RustSized V] in
theorem deleteStep_alike (h : Alike R c d) (key : K) (removed : Option Nat) :
    Agrees R (deleteStep c key removed) (deleteStep d key removed) := by
  cases removed with
  | none =>
    simp only [deleteStep, h.entries]
    split
    · exact ⟨rfl, h.removeEntry key⟩
    · exact ⟨rfl, h⟩
  | some n =>
    obtain ⟨hpanic, hrelease⟩ := h.releaseEntry n
    simp only [deleteStep]
    rcases hp : c.releaseEntry n with ⟨c', o⟩
    rcases hq : d.releaseEntry n with ⟨d', o'⟩
    rw [hp, hq] at hpanic hrelease
    cases hpanic
    cases o with
    | none => exact ⟨rfl, hrelease⟩
    | some reason => exact ⟨rfl, hrelease⟩

omit [EvictionPolicy K P] [EvictionPolicy K Q] [RustSized K] [RustSized V] in
theorem existsStep_alike (h : Alike R c d) (now : Instant) (key : K) (found : Option Instant) :
    Agrees R (existsStep c now key found) (existsStep d now key found) := by
  cases found with
  | none =>
    simp only [existsStep, h.entries]
    split
    · split <;> exact ⟨rfl, h⟩
    · exact ⟨rfl, h⟩
  | some expires => exact ⟨rfl, h⟩

/-- **A step leads a call on either cache to the same place, and keeps the caches alike.** -/
theorem step_alike (hR : Bisimulation R) (h : Alike R c d) {now : Instant} {order : HashOrder K}
    {th : Thread K V} {r : MemoryCache K V P × Thread K V} (hstep : th.step c now order = some r) :
    ∃ r', th.step d now order = some r' ∧ Agrees R r r' := by
  cases th with
  | get key phase =>
    cases hstep
    exact ⟨_, rfl, getStep_alike hR h now key phase⟩
  | set key value ttl oldSize phase =>
    cases hstep
    exact ⟨_, rfl, setStep_alike hR h now order key value ttl oldSize phase⟩
  | delete key removed =>
    cases hstep
    exact ⟨_, rfl, deleteStep_alike h key removed⟩
  | «exists» key found =>
    cases hstep
    exact ⟨_, rfl, existsStep_alike h now key found⟩
  | clear emptied =>
    cases hstep
    cases emptied with
    | false => exact ⟨_, rfl, rfl, h.clearEntries⟩
    | true =>
      exact ⟨_, rfl, rfl, h.entries, h.capacity, rfl, rfl, rfl, hR.reset h.policy⟩
  | returned op inserted reply => cases hstep

end Thread

/-! ## The capacity in the statistics -/

/-- The statistics name the capacity of the cache. -/
def MemoryCache.StatesCapacity (c : MemoryCache K V P) : Prop := c.stats.capacityBytes = c.capacityBytes

theorem MemoryCache.StatesCapacity.releaseEntry {c : MemoryCache K V P} (h : c.StatesCapacity) (n : Nat) :
    (c.releaseEntry n).1.StatesCapacity := by
  unfold MemoryCache.releaseEntry
  simp only
  split <;> exact h

section Capacity

variable [DecidableEq K] [EvictionPolicy K P] [RustSized K] [RustSized V]

theorem Thread.step_statesCapacity {c : MemoryCache K V P} {now : Instant} {order : HashOrder K}
    {th : Thread K V} {r : MemoryCache K V P × Thread K V} (hc : c.StatesCapacity)
    (h : th.step c now order = some r) : r.1.StatesCapacity := by
  have hrelease : ∀ {c c' : MemoryCache K V P} {n : Nat} {o : Option Panic}, c.StatesCapacity →
      c.releaseEntry n = (c', o) → c'.StatesCapacity := by
    intro c c' n o hc heq
    have hr := hc.releaseEntry n
    rwa [heq] at hr
  cases th with
  | get key phase =>
    cases h
    fun_cases getStep c now key phase <;> exact hc
  | set key value ttl oldSize phase =>
    cases h
    fun_cases setStep c now order key value ttl oldSize phase
    all_goals first
      | exact hc
      | exact hrelease (c := c.countEviction) hc ‹_›
      | (cases oldSize <;> exact hc)
  | delete key removed =>
    cases h
    fun_cases deleteStep c key removed
    all_goals first
      | exact hc
      | exact hrelease hc ‹_›
  | «exists» key found =>
    cases h
    fun_cases existsStep c now key found <;> exact hc
  | clear emptied =>
    cases h
    cases emptied <;> exact hc
  | returned op inserted reply => cases h

/-- **The capacity that `stats()` reports stays the capacity of the cache**, in every run of a cache of which
it is, such as one made by `with_policy`. -/
theorem MemorySystem.statesCapacity_of_run {s t : MemorySystem K V P} {es : List (MemoryLabel K V)}
    (h : s.cache.StatesCapacity) (hrun : Run MemorySystem.Steps s es t) : t.cache.StatesCapacity := by
  refine hrun.invariant (fun t => t.cache.StatesCapacity) h fun u l t hu hstep => ?_
  obtain ⟨op, rfl, rfl⟩ | ⟨i, order, th, r, rfl, hi, hr, rfl⟩ | ⟨now, rfl, hle, rfl⟩ :=
    MemorySystem.step_cases hstep
  · exact hu
  · exact Thread.step_statesCapacity hu hr
  · exact hu

end Capacity

/-! ## Systems -/

namespace MemorySystem

/-- The same calls have reached the same places on two caches that are alike. -/
structure Agree (R : P → Q → Prop) (s : MemorySystem K V P) (t : MemorySystem K V Q) : Prop where
  cache : Alike R s.cache t.cache
  threads : s.threads = t.threads
  clock : s.clock = t.clock

variable [DecidableEq K] [EvictionPolicy K P] [EvictionPolicy K Q] [RustSized K] [RustSized V]
  {R : P → Q → Prop}

theorem agree_step (hR : Bisimulation R) {s s' : MemorySystem K V P} {t : MemorySystem K V Q}
    {l : MemoryLabel K V} (h : Agree R s t) (hstep : Steps s l s') : ∃ t', Steps t l t' ∧ Agree R s' t' := by
  obtain ⟨op, rfl, rfl⟩ | ⟨i, order, th, r, rfl, hi, hr, rfl⟩ | ⟨now, rfl, hle, rfl⟩ :=
    step_cases hstep
  · exact ⟨t.invoke op, rfl, h.cache, congrArg (· ++ [Thread.start op]) h.threads, h.clock⟩
  · obtain ⟨r', hr', hplace, hcache⟩ := Thread.step_alike hR h.cache hr
    refine ⟨t.advance i r', steps_run (h.threads ▸ hi) (h.clock ▸ hr'), hcache, ?_, h.clock⟩
    show s.threads.set i r.2 = t.threads.set i r'.2
    rw [hplace, h.threads]
  · refine ⟨{ t with clock := now }, ?_, h.cache, h.threads, rfl⟩
    exact if_pos (h.clock ▸ hle)

/-- **Caches that are alike have the same runs**: each call takes the same steps and gets the same reply. -/
theorem agree_of_run (hR : Bisimulation R) {s s' : MemorySystem K V P} {t : MemorySystem K V Q}
    {es : List (MemoryLabel K V)} (h : Agree R s t) (hrun : Run Steps s es s') :
    ∃ t', Run Steps t es t' ∧ Agree R s' t' :=
  hrun.simulate (Agree R) h fun _ _ _ _ h hstep => agree_step hR h hstep

end MemorySystem

/-! ## Policies -/

namespace BoxedPolicy

/-- Policies of one kind that agree but for the declared capacity and the minimum frequency. -/
def Same : BoxedPolicy K → BoxedPolicy K → Prop
  | .lru p, .lru q => p.accessOrder = q.accessOrder ∧ p.keyIndex = q.keyIndex
  | .lfu p, .lfu q => p.accessCount = q.accessCount
  | _, _ => False

/-- A new policy of the same kind, which declares to track `capacity` keys. -/
def anew (p : BoxedPolicy K) (capacity : Nat) (h : 0 < capacity) : BoxedPolicy K :=
  match p with
  | .lru _ => .lru (LRU.new K capacity h)
  | .lfu _ => .lfu (LFU.new K capacity h)

variable [DecidableEq K]

omit [DecidableEq K] in
theorem same_reset_anew (p : BoxedPolicy K) (capacity : Nat) (h : 0 < capacity) :
    Same p.reset (p.anew capacity h) := by
  cases p with
  | lru p => exact ⟨rfl, rfl⟩
  | lfu p => exact rfl

theorem same_onAccess {p q : LRU K} (h : Same (.lru p) (.lru q)) (key : K) :
    Same (.lru (p.onAccess key)) (.lru (q.onAccess key)) := by
  obtain ⟨horder, hindex⟩ := h
  simp only [Same, LRU.onAccess, LRU.unlink, hindex]
  split
  · simp only [horder, and_self]
  · simp only [horder, hindex, and_self]

theorem same_evict {p q : LRU K} (h : Same (.lru p) (.lru q)) :
    p.evict.1 = q.evict.1 ∧ Same (.lru p.evict.2) (.lru q.evict.2) := by
  obtain ⟨horder, hindex⟩ := h
  simp only [LRU.evict, horder]
  split
  · exact ⟨rfl, rfl, by simp only [hindex]⟩
  · exact ⟨rfl, horder, hindex⟩

theorem same_count {p q : LFU K} (h : Same (.lfu p) (.lfu q)) (key : K) :
    Same (.lfu (p.onAccess key)) (.lfu (q.onAccess key)) ∧
      Same (.lfu (p.onInsert key)) (.lfu (q.onInsert key)) := by
  have hcount : p.accessCount = q.accessCount := h
  exact ⟨by simp only [Same, LFU.onAccess, LFU.getCount, hcount],
    by simp only [Same, LFU.onInsert, hcount]⟩

theorem same_evict_lfu {p q : LFU K} (h : Same (.lfu p) (.lfu q)) (order : HashOrder K) :
    (p.evict order).1 = (q.evict order).1 ∧ Same (.lfu (p.evict order).2) (.lfu (q.evict order).2) := by
  have hcount : p.accessCount = q.accessCount := h
  simp only [LFU.evict, hcount]
  split
  · exact ⟨rfl, by simp only [Same]⟩
  · exact ⟨rfl, h⟩

/-- The operations of a policy do not read what `Same` leaves out. -/
theorem same_bisimulation : Bisimulation (Same : BoxedPolicy K → BoxedPolicy K → Prop) := by
  refine ⟨?access, ?insert, ?victim, ?evict, ?reset⟩
  case access =>
    intro p q h key
    cases p <;> cases q
    case lru.lru => exact same_onAccess h key
    case lfu.lfu => exact (same_count h key).1
    all_goals exact h.elim
  case insert =>
    intro p q h key
    cases p <;> cases q
    case lru.lru => exact same_onAccess h key
    case lfu.lfu => exact (same_count h key).2
    all_goals exact h.elim
  case victim =>
    intro p q h order
    cases p <;> cases q
    case lru.lru => exact (same_evict h).1
    case lfu.lfu => exact (same_evict_lfu h order).1
    all_goals exact h.elim
  case evict =>
    intro p q h order
    cases p <;> cases q
    case lru.lru => exact (same_evict h).2
    case lfu.lfu => exact (same_evict_lfu h order).2
    all_goals exact h.elim
  case reset =>
    intro p q h
    cases p <;> cases q
    case lru.lru => exact ⟨rfl, rfl⟩
    case lfu.lfu => exact rfl
    all_goals exact h.elim

omit [DecidableEq K] in
theorem Same.symm {p q : BoxedPolicy K} (h : Same p q) : Same q p := by
  cases p <;> cases q
  case lru.lru => exact ⟨h.1.symm, h.2.symm⟩
  case lfu.lfu => exact Eq.symm h
  all_goals exact h.elim

end BoxedPolicy

/-! ## A cleared cache -/

section Renewal

variable [DecidableEq K] [RustSized K] [RustSized V]

/-- **`clear` renews a cache.**  From any cache, whatever its history left in the policy, the counters and
the map, `clear` leads to one that has the same interleaved runs, with the same replies, as a cache made
by `with_policy` with the same capacity and a new policy of the same kind — a run of the one is a run of
the other, and at its end the caches still agree but for what they never read.  That is hits, misses and
evictions, and parts of the policies; the capacity in the statistics agrees too if it was that of the cache,
as it is in every state of a cache made by `with_policy`. -/
theorem clear_renews (c : MemoryCache K V (BoxedPolicy K)) (capacity : Nat) (h : 0 < capacity)
    (threads : List (Thread K V)) (clock : Instant) (es : List (MemoryLabel K V)) :
    let cleared : MemorySystem K V (BoxedPolicy K) := ⟨c.clear.1, threads, clock⟩
    let renewed : MemorySystem K V (BoxedPolicy K) :=
      ⟨.withPolicy c.capacityBytes (c.evictionPolicy.anew capacity h) c.capacity_pos, threads, clock⟩
    (∀ s, Run MemorySystem.Steps cleared es s →
        ∃ t, Run MemorySystem.Steps renewed es t ∧ MemorySystem.Agree BoxedPolicy.Same s t ∧
          (c.StatesCapacity → s.cache.stats.capacityBytes = t.cache.stats.capacityBytes)) ∧
      ∀ t, Run MemorySystem.Steps renewed es t →
        ∃ s, Run MemorySystem.Steps cleared es s ∧ MemorySystem.Agree BoxedPolicy.Same t s ∧
          (c.StatesCapacity → t.cache.stats.capacityBytes = s.cache.stats.capacityBytes) := by
  intro cleared renewed
  have hagree : MemorySystem.Agree BoxedPolicy.Same cleared renewed :=
    ⟨⟨rfl, rfl, rfl, rfl, rfl, BoxedPolicy.same_reset_anew _ _ _⟩, rfl, rfl⟩
  have hback : MemorySystem.Agree BoxedPolicy.Same renewed cleared :=
    ⟨⟨rfl, rfl, rfl, rfl, rfl, hagree.cache.policy.symm⟩, rfl, rfl⟩
  have hstats : ∀ {s t}, Run MemorySystem.Steps cleared es s → Run MemorySystem.Steps renewed es t →
      s.cache.capacityBytes = t.cache.capacityBytes → c.StatesCapacity →
        s.cache.stats.capacityBytes = t.cache.stats.capacityBytes := by
    intro s t hs ht hcap hc
    have hcleared : s.cache.StatesCapacity := MemorySystem.statesCapacity_of_run hc hs
    have hnew : renewed.cache.StatesCapacity := rfl
    have hrenewed : t.cache.StatesCapacity := MemorySystem.statesCapacity_of_run hnew ht
    exact hcleared.trans (hcap.trans hrenewed.symm)
  constructor
  · intro s hs
    obtain ⟨t, ht, hst⟩ := MemorySystem.agree_of_run BoxedPolicy.same_bisimulation hagree hs
    exact ⟨t, ht, hst, hstats hs ht hst.cache.capacity⟩
  · intro t ht
    obtain ⟨s, hs, hts⟩ := MemorySystem.agree_of_run BoxedPolicy.same_bisimulation hback ht
    exact ⟨s, hs, hts, fun hc => (hstats hs ht hts.cache.capacity.symm hc).symm⟩

/-- A cache with a use count of two for key 1, a hit and a miss. -/
def worn : MemoryCache UInt64 UInt64 (BoxedPolicy UInt64) :=
  let made : MemoryCache UInt64 UInt64 (BoxedPolicy UInt64) :=
    .withPolicy 16 (.lfu (LFU.new UInt64 4 (Nat.succ_pos (nat_lit 3)))) (Nat.succ_pos (nat_lit 15))
  let missed := (made.get ⟨0, .id _⟩ 1).1
  let stored := (missed.set ⟨0, .id _⟩ 1 10 none).1
  (stored.get ⟨0, .id _⟩ 1).1

/-- Two `set`s that each find the cache empty. -/
def jointCalls : List (MemoryLabel UInt64 UInt64) :=
  [.invoke (.set 1 10 none), .invoke (.set 2 20 none)] ++ MemorySystem.runs 0 2 (.id UInt64) ++
    MemorySystem.runs 1 2 (.id UInt64) ++ MemorySystem.runs 0 6 (.id UInt64)

/-- What they make of the cache after `clear`. -/
def wornCleared : MemorySystem UInt64 UInt64 (BoxedPolicy UInt64) :=
  (play MemorySystem.step ⟨worn.clear.1, [], 0⟩ jointCalls).get (by decide)

/-- A new cache of the same capacity. -/
def wornAnew : MemoryCache UInt64 UInt64 (BoxedPolicy UInt64) :=
  .withPolicy 16 (.lfu (LFU.new UInt64 1024 (Nat.succ_pos (nat_lit 1023)))) (Nat.succ_pos (nat_lit 15))

theorem clear_renews_worn :
    ∃ t, Run MemorySystem.Steps ⟨wornAnew, [], 0⟩ jointCalls t ∧
      MemorySystem.Agree BoxedPolicy.Same wornCleared t ∧
        wornCleared.cache.stats.capacityBytes = t.cache.stats.capacityBytes := by
  have hrun : Run MemorySystem.Steps ⟨worn.clear.1, [], 0⟩ jointCalls wornCleared :=
    Run.of_play (Option.some_get _).symm
  obtain ⟨t, ht, hagree, hstats⟩ :=
    (clear_renews worn 1024 (Nat.succ_pos 1023) [] 0 jointCalls).1 wornCleared hrun
  exact ⟨t, ht, hagree, hstats rfl⟩

end Renewal

end CacheLayer
