import CacheLayer.MemoryLocks
import CacheLayer.MemoryReplies
import CacheLayer.ConcurrentRequests

/-!
# Replies under the mutexes

`MemoryLocks` executes the calls with their mutexes, and `size()` and `stats()` beside them.  What its
callers are told is what a run of `MemorySystem` passes while they wait: taking a mutex and dropping
it give nothing away.

* `Place.Says`, `passes_answer` — every place of a call says something of a moment of the call;
* `answer_of_moment` — so the replies of all seven methods describe a state that the machine without
  mutexes passes between the call and its return;
* `TierStats.Precedes`, `precedes_of_run` — hits, misses and evictions are never taken back;
* `stats_between` — so `stats()` is right up to the `get`s that return beside it, and never falls
  behind a reply that has been given before it was called.
-/

set_option autoImplicit false

namespace CacheLayer

open LockOrder

variable {K V P : Type} [DecidableEq K] [EvictionPolicy K P] [RustSized K] [RustSized V]

/-! ## Moments -/

omit [EvictionPolicy K P] in
/-- What a call says of a state concerns the cache and the clock, not the other calls. -/
theorem Thread.Saw.congr {start now clock : Instant} {c : MemoryCache K V P} {ths ths' : List (Thread K V)}
    {th : Thread K V} (h : th.Saw start now ⟨c, ths, clock⟩) : th.Saw start now ⟨c, ths', clock⟩ := by
  unfold Thread.Saw Op.Shows at h ⊢
  exact h

namespace Session

/-- The system without mutexes, with nobody calling. -/
def system (x : Session K V P) : MemorySystem K V P := ⟨x.cache, [], x.clock⟩

end Session

namespace Place

/-- What the place that `call`, made at `start`, has reached by `now` says of the state `m`: a call that
has returned says what its reply does. -/
def Says (call : MemoryCall K V) (start now : Instant) (m : MemorySystem K V P) : Place K V → Prop
  | .op th => call = .op th.op ∧ th.Saw start now m
  | .size reply => call = .size ∧ ∀ n ∈ reply, n = m.cache.sizeBytes
  | .stats reply => call = .stats ∧ ∀ st ∈ reply, st = m.cache.stats

omit [EvictionPolicy K P] in
theorem Says.congr {call : MemoryCall K V} {start now clock : Instant} {c : MemoryCache K V P}
    {ths ths' : List (Thread K V)} {p : Place K V} (h : p.Says call start now ⟨c, ths, clock⟩) :
    p.Says call start now ⟨c, ths', clock⟩ := by
  cases p with
  | op th => exact ⟨h.1, h.2.congr⟩
  | size reply => exact h
  | stats reply => exact h

omit [EvictionPolicy K P] in
theorem Says.mono {call : MemoryCall K V} {start now later : Instant} {m : MemorySystem K V P}
    {p : Place K V} (hle : now ≤ later) (h : p.Says call start now m) : p.Says call start later m := by
  cases p with
  | op th => exact ⟨h.1, h.2.mono hle⟩
  | size reply => exact h
  | stats reply => exact h

omit [EvictionPolicy K P] in
theorem says_start (start now : Instant) (m : MemorySystem K V P) (call : MemoryCall K V) :
    (Place.start call).Says call start now m := by
  cases call with
  | op op => exact ⟨by rw [Thread.op_start], Thread.saw_start start now m op⟩
  | size => exact ⟨rfl, fun n hn => by cases hn⟩
  | stats => exact ⟨rfl, fun st hst => by cases hst⟩

/-- The place `p` of a call that was made at `start` says something, in the present state `x`, of the
moment `y`. -/
structure Sees (call : MemoryCall K V) (start : Instant) (x : Session K V P) (p : Place K V)
    (y : Session K V P) : Prop where
  start_le : start ≤ y.clock
  le_now : y.clock ≤ x.clock
  tells : p.Says call start x.clock y.system

/-- **An access of a call keeps the moment it has found, or is such a moment.** -/
theorem sees_step {call : MemoryCall K V} {start : Instant} {x x' y : Session K V P} {order : HashOrder K}
    {p p' : Place K V} (hstep : p.step x order = some (x', p')) (h : p.Sees call start x y) :
    p'.Sees call start x' y ∨ p'.Sees call start x' x' := by
  have hnow : start ≤ x.clock := Nat.le_trans h.start_le h.le_now
  obtain ⟨th, r, rfl, hr, rfl, rfl⟩ | ⟨rfl, rfl, rfl⟩ | ⟨rfl, rfl, rfl⟩ := step_inv hstep
  · obtain ⟨hcall, hsaw⟩ := h.tells
    have hop : call = .op r.2.op := by rw [hcall, Thread.step_op hr]
    rcases Thread.saw_step (s := x.system) (i := 0) h.start_le h.le_now hr hsaw with hold | hnew
    · exact Or.inl ⟨h.start_le, h.le_now, hop, hold⟩
    · exact Or.inr ⟨hnow, Nat.le_refl _, hop, hnew⟩
  · refine Or.inr ⟨hnow, Nat.le_refl _, h.tells.1, fun n hn => ?_⟩
    cases hn
    rfl
  · refine Or.inr ⟨hnow, Nat.le_refl _, h.tells.1, fun st hst => ?_⟩
    cases hst
    rfl

end Place

/-- What others can do: a step of a call without its mutexes, or the passing of time. -/
theorem moves_inv {x x' : Session K V P} (h : (lockProgram K V P).Moves x x') :
    (∃ th order r, Thread.step x.cache x.clock order th = some r ∧ x' = { x with cache := r.1 }) ∨
      ∃ now, x.clock ≤ now ∧ x' = { x with clock := now } := by
  rcases h with ⟨order, p, p', hbody⟩ | ⟨now, hx⟩
  · obtain ⟨th, r, -, hr, -, rfl⟩ | ⟨-, -, rfl⟩ | ⟨-, -, rfl⟩ := Place.step_inv hbody
    · exact Or.inl ⟨th, order, r, hr, rfl⟩
    · exact Or.inr ⟨x'.clock, Nat.le_refl _, rfl⟩
    · exact Or.inr ⟨x'.clock, Nat.le_refl _, rfl⟩
  · replace hx : (if x.clock ≤ now then some { x with clock := now } else none) = some x' := hx
    split at hx
    · rename_i hle
      cases hx
      exact Or.inr ⟨now, hle, rfl⟩
    · cases hx

theorem clock_le_of_moves {x x' : Session K V P} (h : (lockProgram K V P).Moves x x') :
    x.clock ≤ x'.clock := by
  obtain ⟨th, order, r, -, rfl⟩ | ⟨now, hle, rfl⟩ := moves_inv h
  · exact Nat.le_refl _
  · exact hle

/-- At every point of a run a call has passed a moment of which its place says something. -/
theorem passes_answer {s₁ s₂ : System Mutex (Session K V P) (Place K V)} {call : MemoryCall K V}
    {es : List (Label (MemoryCall K V) (HashOrder K) Instant)}
    (hrun : Run (lockProgram K V P).Steps ((lockProgram K V P).enter s₁ call) es s₂) :
    ∃ c, s₂.callers[s₁.callers.length]? = some c ∧
      Run.Passes (lockProgram K V P).Steps
        (fun m => c.place.Sees call s₁.shared.clock s₂.shared m.shared)
        ((lockProgram K V P).enter s₁ call) es s₂ := by
  refine Program.passes_of_call (Place.Sees call s₁.shared.clock) ?start ?access ?moves hrun
  case start => exact ⟨Nat.le_refl _, Nat.le_refl _, Place.says_start _ _ _ call⟩
  case access =>
    intro x order p x' p' y hbody hsees
    exact Place.sees_step hbody hsees
  case moves =>
    intro x x' p y hmoves hsees
    have hle := clock_le_of_moves hmoves
    exact ⟨hsees.start_le, Nat.le_trans hsees.le_now hle, hsees.tells.mono hle⟩

/-- **Every reply under the mutexes describes a state between the call and its return.**  The calls of all
seven methods take and drop their mutexes one at a time, in any order.  From the moment a call is made
to the moment it has returned, the machine without mutexes has a run, from the state in which the one
stands to the state in which the other does, and it passes a state of which the reply is true — for
`size()` and `stats()`, the state whose size or statistics they return. -/
theorem answer_of_moment {s₁ s₂ : System Mutex (Session K V P) (Place K V)} {call : MemoryCall K V}
    {es : List (Label (MemoryCall K V) (HashOrder K) Instant)} {c : Caller Mutex (Place K V)}
    (hrun : Run (lockProgram K V P).Steps ((lockProgram K V P).enter s₁ call) es s₂)
    (hc : s₂.callers[s₁.callers.length]? = some c) :
    ∃ fs₁ fs₂ m, Run MemorySystem.Steps (unlocked ((lockProgram K V P).enter s₁ call)) fs₁ m ∧
      Run MemorySystem.Steps m fs₂ (unlocked s₂) ∧
        c.place.Says call s₁.shared.clock s₂.shared.clock m := by
  obtain ⟨d, hd, es₁, es₂, m, -, h₁, h₂, hsees⟩ := passes_answer hrun
  rw [hc] at hd
  cases hd
  obtain ⟨fs₁, hfs₁⟩ := unlocked_run h₁
  obtain ⟨fs₂, hfs₂⟩ := unlocked_run h₂
  exact ⟨fs₁, fs₂, unlocked m, hfs₁, hfs₂, hsees.tells.congr⟩

/-- A `get` of key 1 finds nothing and has yet to count its miss; a `stats()` returns. -/
def missUncounted : List (Label (MemoryCall UInt64 UInt64) (HashOrder UInt64) Instant) :=
  [.call (.op (.get 1)), .act 0 (.id _), .act 0 (.id _), .call .stats, .act 1 (.id _), .act 1 (.id _),
    .act 1 (.id _)]

/-- The state after these steps. -/
def firstSnapshot : System Mutex (Session UInt64 UInt64 (BoxedPolicy UInt64)) (Place UInt64 UInt64) :=
  (play lockProgram64.step (.idle smallSession) missUncounted).get (by decide)

/-- The `get` counts its miss, and a second `stats()` returns. -/
def missCounted : List (Label (MemoryCall UInt64 UInt64) (HashOrder UInt64) Instant) :=
  [.act 0 (.id _), .act 0 (.id _), .act 0 (.id _), .act 2 (.id _), .act 2 (.id _), .act 2 (.id _)]

/-- The state after these steps. -/
def secondSnapshot : System Mutex (Session UInt64 UInt64 (BoxedPolicy UInt64)) (Place UInt64 UInt64) :=
  (play lockProgram64.step (lockProgram64.enter firstSnapshot .stats) missCounted).get (by decide)

/-- The second `stats()`. -/
def secondStats : Caller Mutex (Place UInt64 UInt64) := (secondSnapshot.callers[2]?).get (by decide)

/-- What it returns. -/
def oneMiss : TierStats := { TierStats.fresh 16 with misses := 1 }

theorem secondStats_told : secondStats.place = .stats (some oneMiss) := by rfl

theorem answer_of_moment_raced :
    ∃ fs₁ fs₂ m, Run MemorySystem.Steps (unlocked (lockProgram64.enter firstSnapshot .stats)) fs₁ m ∧
      Run MemorySystem.Steps m fs₂ (unlocked secondSnapshot) ∧ m.cache.stats = oneMiss := by
  have hrun : Run lockProgram64.Steps (lockProgram64.enter firstSnapshot .stats) missCounted
      secondSnapshot := Run.of_play (Option.some_get _).symm
  have hc : secondSnapshot.callers[firstSnapshot.callers.length]? = some secondStats :=
    (Option.some_get _).symm
  obtain ⟨fs₁, fs₂, m, h₁, h₂, htells⟩ := answer_of_moment hrun hc
  rw [secondStats_told] at htells
  exact ⟨fs₁, fs₂, m, h₁, h₂, (htells.2 oneMiss rfl).symm⟩

/-! ## Statistics -/

/-- Later statistics of the same cache, as far as the counters that only grow can tell. -/
structure TierStats.Precedes (a b : TierStats) : Prop where
  hits : a.hits ≤ b.hits
  misses : a.misses ≤ b.misses
  evictions : a.evictions ≤ b.evictions

namespace TierStats.Precedes

variable {a b c : TierStats}

theorem refl (a : TierStats) : a.Precedes a := ⟨Nat.le_refl _, Nat.le_refl _, Nat.le_refl _⟩

theorem trans (h : a.Precedes b) (h' : b.Precedes c) : a.Precedes c :=
  ⟨h.hits.trans h'.hits, h.misses.trans h'.misses, h.evictions.trans h'.evictions⟩

end TierStats.Precedes

omit [DecidableEq K] [EvictionPolicy K P] [RustSized K] [RustSized V] in
theorem MemoryCache.releaseEntry_evictions (c : MemoryCache K V P) (n : Nat) :
    (c.releaseEntry n).1.stats.evictions = c.stats.evictions := by
  unfold MemoryCache.releaseEntry
  simp only
  split <;> rfl

namespace Thread

variable {c : MemoryCache K V P} {now : Instant} {order : HashOrder K} {th : Thread K V}
  {r : MemoryCache K V P × Thread K V}

/-- A step counts an eviction or leaves their number as it is. -/
theorem step_evictions (h : th.step c now order = some r) : c.stats.evictions ≤ r.1.stats.evictions := by
  have hrelease : ∀ (c c' : MemoryCache K V P) n o, c.releaseEntry n = (c', o) →
      c'.stats.evictions = c.stats.evictions := by
    intro c c' n o heq
    have hr := MemoryCache.releaseEntry_evictions c n
    rwa [heq] at hr
  cases th with
  | get key phase =>
    cases h
    fun_cases getStep c now key phase <;> exact Nat.le_refl _
  | set key value ttl oldSize phase =>
    cases h
    fun_cases setStep c now order key value ttl oldSize phase
    all_goals first
      | exact Nat.le_refl _
      | exact (hrelease c.countEviction _ _ _ ‹_›).symm ▸ Nat.le_succ _
      | (cases oldSize <;> exact Nat.le_refl _)
  | delete key removed =>
    cases h
    fun_cases deleteStep c key removed
    all_goals first
      | exact Nat.le_refl _
      | exact (hrelease c _ _ _ ‹_›).ge
  | «exists» key found =>
    cases h
    fun_cases existsStep c now key found <;> exact Nat.le_refl _
  | clear emptied =>
    cases h
    cases emptied <;> exact Nat.le_refl _
  | returned op inserted reply => cases h

/-- **No step takes a hit, a miss or an eviction back.** -/
theorem step_precedes (h : th.step c now order = some r) : c.stats.Precedes r.1.stats := by
  obtain ⟨-, -, hreq⟩ := step_requests h
  obtain ⟨hhits, hmisses⟩ := Prod.mk.inj hreq
  exact ⟨hhits ▸ Nat.le_add_right _ _, hmisses ▸ Nat.le_add_right _ _, step_evictions h⟩

end Thread

theorem MemorySystem.precedes_of_run {s t : MemorySystem K V P} {es : List (MemoryLabel K V)}
    (h : Run MemorySystem.Steps s es t) : s.cache.stats.Precedes t.cache.stats := by
  refine h.invariant (fun t => s.cache.stats.Precedes t.cache.stats) (.refl _) fun u l t hu hstep => ?_
  obtain ⟨op, rfl, rfl⟩ | ⟨i, order, th, r, rfl, hi, hr, rfl⟩ | ⟨now, rfl, hle, rfl⟩ :=
    MemorySystem.step_cases hstep
  · exact hu
  · exact hu.trans (Thread.step_precedes hr)
  · exact hu

/-- A place that has been told the statistics has been told no more than the cache has counted. -/
def Place.Told (x : Session K V P) (p : Place K V) : Prop :=
  ∀ st, p = .stats (some st) → st.Precedes x.cache.stats

theorem told_of_run {x : Session K V P} {s : System Mutex (Session K V P) (Place K V)}
    {es : List (Label (MemoryCall K V) (HashOrder K) Instant)}
    (h : Run (lockProgram K V P).Steps (.idle x) es s) : ∀ c ∈ s.callers, c.place.Told s.shared := by
  refine Program.places_of_run Place.Told ?start ?access ?moves h
  case start =>
    intro x call st hst
    cases call <;> cases hst
  case access =>
    intro x order p x' p' hbody htold st hst
    obtain ⟨th, r, rfl, hr, rfl, rfl⟩ | ⟨rfl, rfl, rfl⟩ | ⟨rfl, rfl, rfl⟩ := Place.step_inv hbody
    · cases hst
    · cases hst
    · cases hst
      exact .refl _
  case moves =>
    intro x x' p hmoves htold st hst
    obtain ⟨th, order, r, hr, rfl⟩ | ⟨now, -, rfl⟩ := moves_inv hmoves
    · exact (htold st hst).trans (Thread.step_precedes hr)
    · exact htold st hst

/-- The `get`s that have returned are those the cache has counted. -/
theorem gets_counted {cap : Nat} {policy : P} {hcap : 0 < cap} {clock : Instant}
    {s : System Mutex (Session K V P) (Place K V)}
    {es : List (Label (MemoryCall K V) (HashOrder K) Instant)}
    (h : Run (lockProgram K V P).Steps (.idle ⟨.withPolicy cap policy hcap, clock⟩) es s) :
    s.shared.cache.stats.hits = (threadsOf s.callers).countP Thread.isHit ∧
      s.shared.cache.stats.misses = (threadsOf s.callers).countP Thread.isMiss := by
  obtain ⟨fs, hfs⟩ := unlocked_run h
  have hfresh : (unlocked (.idle ⟨.withPolicy cap policy hcap, clock⟩) : MemorySystem K V P).Counted := rfl
  have hcounted : (unlocked s).Counted :=
    hfs.invariant MemorySystem.Counted hfresh fun _ _ _ h hstep => MemorySystem.counted_step h hstep
  exact Prod.mk.inj hcounted

/-- **`stats()` is right up to the calls beside it.**  On a cache made by `with_policy`, all calls of which
take and drop their mutexes one at a time in any order, the hits that `stats()` returns are at least the
`get`s that had returned a value when it was called and at most those that have when it returns, and
likewise the misses; and no counter is below what any `stats()` that had returned by then was told. -/
theorem stats_between {cap : Nat} {policy : P} {hcap : 0 < cap} {clock : Instant}
    {s₁ s₂ : System Mutex (Session K V P) (Place K V)}
    {es₁ es₂ : List (Label (MemoryCall K V) (HashOrder K) Instant)} {c : Caller Mutex (Place K V)}
    {st : TierStats}
    (h₁ : Run (lockProgram K V P).Steps (.idle ⟨.withPolicy cap policy hcap, clock⟩) es₁ s₁)
    (h₂ : Run (lockProgram K V P).Steps ((lockProgram K V P).enter s₁ .stats) es₂ s₂)
    (hc : s₂.callers[s₁.callers.length]? = some c) (hst : c.place = .stats (some st)) :
    ((threadsOf s₁.callers).countP Thread.isHit ≤ st.hits ∧
        st.hits ≤ (threadsOf s₂.callers).countP Thread.isHit) ∧
      ((threadsOf s₁.callers).countP Thread.isMiss ≤ st.misses ∧
        st.misses ≤ (threadsOf s₂.callers).countP Thread.isMiss) ∧
      ∀ d ∈ s₁.callers, ∀ st₀, d.place = .stats (some st₀) → st₀.Precedes st := by
  obtain ⟨d, hd, fs₁, fs₂, m, rfl, hm₁, hm₂, hsees⟩ := passes_answer h₂
  rw [hc] at hd
  cases hd
  have htells := hsees.tells
  rw [hst] at htells
  obtain rfl : st = m.shared.cache.stats := htells.2 st rfl
  have henter : Run (lockProgram K V P).Steps (.idle ⟨.withPolicy cap policy hcap, clock⟩)
      (es₁ ++ [.call .stats]) ((lockProgram K V P).enter s₁ .stats) := h₁.snoc rfl
  obtain ⟨gs₁, hgs₁⟩ := unlocked_run hm₁
  obtain ⟨gs₂, hgs₂⟩ := unlocked_run hm₂
  have hbefore : s₁.shared.cache.stats.Precedes m.shared.cache.stats :=
    MemorySystem.precedes_of_run hgs₁
  have hafter : m.shared.cache.stats.Precedes s₂.shared.cache.stats := MemorySystem.precedes_of_run hgs₂
  obtain ⟨hhits₁, hmisses₁⟩ := gets_counted h₁
  obtain ⟨hhits₂, hmisses₂⟩ := gets_counted (henter.append h₂)
  refine ⟨⟨?_, ?_⟩, ⟨?_, ?_⟩, fun d hd st₀ hst₀ => (told_of_run h₁ d hd st₀ hst₀).trans hbefore⟩
  · exact hhits₁ ▸ hbefore.hits
  · exact hhits₂ ▸ hafter.hits
  · exact hmisses₁ ▸ hbefore.misses
  · exact hmisses₂ ▸ hafter.misses

theorem stats_between_raced :
    (threadsOf firstSnapshot.callers).countP Thread.isMiss = 0 ∧
      (threadsOf firstSnapshot.callers).countP Thread.isMiss ≤ oneMiss.misses ∧
        oneMiss.misses ≤ (threadsOf secondSnapshot.callers).countP Thread.isMiss := by
  have h₁ : Run lockProgram64.Steps (.idle smallSession) missUncounted firstSnapshot :=
    Run.of_play (Option.some_get _).symm
  have h₂ : Run lockProgram64.Steps (lockProgram64.enter firstSnapshot .stats) missCounted secondSnapshot :=
    Run.of_play (Option.some_get _).symm
  have hc : secondSnapshot.callers[firstSnapshot.callers.length]? = some secondStats :=
    (Option.some_get _).symm
  exact ⟨by decide, (stats_between h₁ h₂ hc secondStats_told).2.1⟩

end CacheLayer
