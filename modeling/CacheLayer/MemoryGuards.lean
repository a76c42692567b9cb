import CacheLayer.Lib.LockExclusion
import CacheLayer.MemoryLocks

/-!
# What the mutexes of `MemoryCache` protect

The source puts `size_bytes`, `stats` and `eviction_policy` behind mutexes, so a section can use such a field
only after it has taken the guard.  In the model the fields are plain; here the sections that `MemoryLocks`
gives to the steps of `MemoryThreads` turn out to be the right ones.

* `Thread.step_graft` — a step goes the same way whatever stands in a field whose mutex it does not take, and
  leaves that field alone;
* `guard_isolates` — so from the moment a call has a guard until it goes on, nobody else reads or changes what
  is behind it.  That nested sections may be read as one step is `unlocked_run` of `MemoryLocks`.
-/

set_option autoImplicit false

namespace CacheLayer

open LockOrder

variable {K V P : Type}

/-! ## Fields -/

namespace Mutex

/-- The cache `c`, with the field that the mutex protects taken from `y`. -/
def graft : Mutex → MemoryCache K V P → MemoryCache K V P → MemoryCache K V P
  | .sizeBytes, y, c => { c with sizeBytes := y.sizeBytes }
  | .stats, y, c => { c with stats := y.stats }
  | .evictionPolicy, y, c => { c with evictionPolicy := y.evictionPolicy }

variable (m : Mutex) (y c : MemoryCache K V P)

@[simp] theorem graft_self : m.graft c c = c := by
  cases m <;> rfl

@[simp] theorem graft_entries : (m.graft y c).entries = c.entries := by
  cases m <;> rfl

section Sections

variable [DecidableEq K]

@[simp] theorem graft_removeEntry (key : K) :
    (m.graft y c).removeEntry key = m.graft y (c.removeEntry key) := by
  cases m <;> rfl

@[simp] theorem graft_insertEntry (key : K) (cached : CachedValue V) :
    (m.graft y c).insertEntry key cached = m.graft y (c.insertEntry key cached) := by
  cases m <;> rfl

@[simp] theorem graft_touchEntry (key : K) (now : Instant) :
    (m.graft y c).touchEntry key now = m.graft y (c.touchEntry key now) := by
  cases m <;> rfl

omit [DecidableEq K] in
@[simp] theorem graft_clearEntries : (m.graft y c).clearEntries = m.graft y c.clearEntries := by
  cases m <;> rfl

end Sections

end Mutex

/-! ## Steps -/

namespace Thread

variable [DecidableEq K] [EvictionPolicy K P] [RustSized K] [RustSized V] {m : Mutex}

/-- The result of a step, with the field that `m` protects taken from `y`. -/
def graft (m : Mutex) (y : MemoryCache K V P) (r : MemoryCache K V P × Thread K V) :
    MemoryCache K V P × Thread K V :=
  (m.graft y r.1, r.2)

omit [RustSized K] [RustSized V] in
theorem getStep_graft {key : K} {phase : GetPhase V}
    (h : m ∉ (get key phase : Thread K V).mutexes) (y c : MemoryCache K V P) (now : Instant) :
    getStep (m.graft y c) now key phase = graft m y (getStep c now key phase) := by
  cases phase with
  | lookup =>
    simp only [getStep, Mutex.graft_entries]
    cases (c.entries.lookup key).bind CachedValue.expiresAt <;> rfl
  | clock expires =>
    by_cases hexp : now > expires
    · simp only [getStep, if_pos hexp, graft]
    · simp only [getStep, if_neg hexp, graft]
  | remove => simp only [getStep, Mutex.graft_removeEntry, graft]
  | read =>
    simp only [getStep, Mutex.graft_entries]
    cases c.entries.lookup key <;> rfl
  | access value =>
    cases m with
    | evictionPolicy => simp [mutexes] at h
    | _ => rfl
  | touch value =>
    by_cases hkey : key ∈ c.entries
    · simp only [getStep, Mutex.graft_entries, if_pos hkey, graft]
    · simp only [getStep, Mutex.graft_entries, if_neg hkey, graft]
  | stamp value => simp only [getStep, Mutex.graft_touchEntry, graft]
  | hit value =>
    cases m with
    | stats => simp [mutexes] at h
    | _ => rfl
  | miss =>
    cases m with
    | stats => simp [mutexes] at h
    | _ => rfl

omit [DecidableEq K] [EvictionPolicy K P] [RustSized K] [RustSized V] in
/-- The section that gives an entry back uses the size and the statistics. -/
theorem releaseEntry_graft (hsize : m ≠ .sizeBytes) (hstats : m ≠ .stats)
    (y c : MemoryCache K V P) (n : Nat) :
    (m.graft y c).releaseEntry n = ((m.graft y (c.releaseEntry n).1), (c.releaseEntry n).2) := by
  cases m with
  | sizeBytes => exact absurd rfl hsize
  | stats => exact absurd rfl hstats
  | evictionPolicy =>
    by_cases hzero : c.stats.entries = 0
    · simp [MemoryCache.releaseEntry, MemoryCache.debit, Mutex.graft, hzero]
    · simp [MemoryCache.releaseEntry, MemoryCache.debit, Mutex.graft, hzero]

theorem setStep_graft {key : K} {value : V} {ttl : Option Duration} {oldSize : Option Nat}
    {phase : SetPhase K V} (h : m ∉ (set key value ttl oldSize phase : Thread K V).mutexes)
    (y c : MemoryCache K V P) (now : Instant) (order : HashOrder K) :
    setStep (m.graft y c) now order key value ttl oldSize phase =
      graft m y (setStep c now order key value ttl oldSize phase) := by
  cases phase with
  | remove =>
    simp only [setStep, Mutex.graft_entries, Mutex.graft_removeEntry]
    cases c.entries.lookup key <;> rfl
  | debit n =>
    cases m with
    | sizeBytes => simp [mutexes] at h
    | _ => rfl
  | check =>
    have hroom : (m.graft y c).HasRoom (MemoryCache.estimateSize key value) ↔
        c.HasRoom (MemoryCache.estimateSize key value) := by
      cases m with
      | sizeBytes => simp [mutexes] at h
      | _ => exact Iff.rfl
    by_cases hc : c.HasRoom (MemoryCache.estimateSize key value)
    · simp only [setStep, if_pos hc, if_pos (hroom.2 hc), graft]
    · simp only [setStep, if_neg hc, if_neg (mt hroom.1 hc), graft]
  | evict =>
    have hpolicy : (m.graft y c).evictionPolicy = c.evictionPolicy := by
      cases m with
      | evictionPolicy => simp [mutexes] at h
      | _ => rfl
    have hset : ∀ policy, (m.graft y c).setPolicy policy = m.graft y (c.setPolicy policy) := by
      intro policy
      cases m with
      | evictionPolicy => simp [mutexes] at h
      | _ => rfl
    simp only [setStep, hpolicy, hset]
    rcases EvictionPolicy.evict c.evictionPolicy order with ⟨_ | victim, policy⟩ <;> rfl
  | drop victim =>
    simp only [setStep, Mutex.graft_entries, Mutex.graft_removeEntry]
    cases c.entries.lookup victim <;> rfl
  | release n =>
    have hsize : m ≠ .sizeBytes := by rintro rfl; simp [mutexes] at h
    have hstats : m ≠ .stats := by rintro rfl; simp [mutexes] at h
    have hcount : (m.graft y c).countEviction = m.graft y c.countEviction := by
      cases m with
      | stats => exact absurd rfl hstats
      | _ => rfl
    simp only [setStep, hcount, releaseEntry_graft hsize hstats]
    rcases c.countEviction.releaseEntry n with ⟨c', _ | p⟩ <;> rfl
  | fail =>
    cases m with
    | sizeBytes => simp [mutexes] at h
    | _ => rfl
  | expiry =>
    simp only [setStep]
    cases expiryOf now ttl <;> rfl
  | stamp expiresAt => rfl
  | insert cached => simp only [setStep, Mutex.graft_insertEntry, graft]
  | credit cached =>
    cases m with
    | sizeBytes => simp [mutexes] at h
    | _ => rfl
  | count cached finalSize =>
    cases m with
    | stats => simp [mutexes] at h
    | _ => rfl
  | record cached =>
    cases m with
    | evictionPolicy => simp [mutexes] at h
    | _ => rfl

omit [EvictionPolicy K P] [RustSized K] [RustSized V] in
theorem deleteStep_graft {key : K} {removed : Option Nat}
    (h : m ∉ (delete key removed : Thread K V).mutexes) (y c : MemoryCache K V P) :
    deleteStep (m.graft y c) key removed = graft m y (deleteStep c key removed) := by
  cases removed with
  | none =>
    simp only [deleteStep, Mutex.graft_entries, Mutex.graft_removeEntry]
    cases c.entries.lookup key <;> rfl
  | some n =>
    have hsize : m ≠ .sizeBytes := by rintro rfl; simp [mutexes] at h
    have hstats : m ≠ .stats := by rintro rfl; simp [mutexes] at h
    simp only [deleteStep, releaseEntry_graft hsize hstats]
    rcases c.releaseEntry n with ⟨c', _ | p⟩ <;> rfl

omit [EvictionPolicy K P] [RustSized K] [RustSized V] in
theorem existsStep_graft (m : Mutex) (y c : MemoryCache K V P) (now : Instant) (key : K)
    (found : Option Instant) :
    existsStep (m.graft y c) now key found = graft m y (existsStep c now key found) := by
  cases found with
  | none =>
    simp only [existsStep, Mutex.graft_entries]
    rcases c.entries.lookup key with _ | ⟨value, _ | expires, sizeBytes, lastAccess⟩ <;> rfl
  | some expires => rfl

omit [DecidableEq K] [RustSized K] [RustSized V] in
theorem clearStep_graft {emptied : Bool} (h : m ∉ (clear emptied : Thread K V).mutexes)
    (y c : MemoryCache K V P) :
    clearStep (m.graft y c) emptied = graft m y (clearStep c emptied) := by
  cases emptied with
  | false => simp only [clearStep, Mutex.graft_clearEntries, graft]
  | true => cases m <;> simp [mutexes] at h

/-- **A step does not use what it has not locked**: it goes the same way whatever stands in the field of a
mutex that it does not take, and leaves that field as it was. -/
theorem step_graft {th : Thread K V} (h : m ∉ th.mutexes) (y c : MemoryCache K V P) (now : Instant)
    (order : HashOrder K) :
    th.step (m.graft y c) now order = (th.step c now order).map (graft m y) := by
  cases th with
  | get key phase => exact congrArg some (getStep_graft h y c now)
  | set key value ttl oldSize phase => exact congrArg some (setStep_graft h y c now order)
  | delete key removed => exact congrArg some (deleteStep_graft h y c)
  | «exists» key found => exact congrArg some (existsStep_graft m y c now key found)
  | clear emptied => exact congrArg some (clearStep_graft h y c)
  | returned op inserted reply => rfl

end Thread

/-! ## The machine with its mutexes -/

/-- The session, with the field that the mutex protects taken from `y`. -/
def Session.graft (m : Mutex) (y x : Session K V P) : Session K V P :=
  { x with cache := m.graft y.cache x.cache }

/-- The mutexes of the section that a call is about to make. -/
def Place.mutexes : Place K V → List Mutex
  | .op th => th.mutexes
  | .size none => [.sizeBytes]
  | .size (some _) => []
  | .stats none => [.stats]
  | .stats (some _) => []

variable [DecidableEq K] [EvictionPolicy K P] [RustSized K] [RustSized V]

theorem lockProgram_sectioned : (lockProgram K V P).Sectioned Place.mutexes := by
  intro p
  cases p with
  | op th =>
    by_cases hret : th.Returned
    · exact Or.inl (if_pos hret)
    · exact Or.inr (if_neg hret)
  | size reply =>
    cases reply with
    | none => exact Or.inr rfl
    | some n => exact Or.inl rfl
  | stats reply =>
    cases reply with
    | none => exact Or.inr rfl
    | some st => exact Or.inl rfl

/-- **Every field is used under its mutex only.** -/
theorem lockProgram_protects : (lockProgram K V P).Protects Place.mutexes Session.graft where
  self m x := by simp [Session.graft]
  body := by
    intro m y x order p hm
    show p.step (Session.graft m y x) order = (p.step x order).map _
    cases p with
    | op th =>
      have hstep : th.step (m.graft y.cache x.cache) x.clock order =
          (th.step x.cache x.clock order).map (Thread.graft m y.cache) := Thread.step_graft hm _ _ _ _
      simp only [Place.step, Session.graft, hstep, Option.map_map]
      rfl
    | size reply =>
      cases reply with
      | none =>
        cases m with
        | sizeBytes => simp [Place.mutexes] at hm
        | _ => rfl
      | some n => rfl
    | stats reply =>
      cases reply with
      | none =>
        cases m with
        | stats => simp [Place.mutexes] at hm
        | _ => rfl
      | some st => rfl
  external := by
    intro m y x now
    show (if x.clock ≤ now then some { Session.graft m y x with clock := now } else none) =
      (if x.clock ≤ now then some { x with clock := now } else none).map (Session.graft m y)
    split <;> rfl

/-- **A guard isolates.**  From any state of any run, as long as the caller at `i` has a mutex and executes
nothing, the field behind the mutex stays as it was, and nobody can tell what it is: the other callers could
take exactly the same steps, to the same places, if any other value stood there. -/
theorem guard_isolates {x : Session K V P} {s t : System Mutex (Session K V P) (Place K V)}
    {es ls : List (Label (MemoryCall K V) (HashOrder K) Instant)}
    (h : Run (lockProgram K V P).Steps (.idle x) es s) {i : Nat} {c : Caller Mutex (Place K V)}
    (hi : s.callers[i]? = some c) {m : Mutex} (hm : m ∈ c.held)
    (hls : ∀ l ∈ ls, ∀ order, l ≠ .act i order) (hrun : Run (lockProgram K V P).Steps s ls t) :
    t.callers[i]? = some c ∧ m.graft s.shared.cache t.shared.cache = t.shared.cache ∧
      ∀ y : MemoryCache K V P, Run (lockProgram K V P).Steps
        ⟨{ s.shared with cache := m.graft y s.shared.cache }, s.callers⟩ ls
        ⟨{ t.shared with cache := m.graft y t.shared.cache }, t.callers⟩ := by
  obtain ⟨hcaller, hsame, hruns⟩ :=
    Program.isolated_run lockProgram_wellFormed lockProgram_sectioned lockProgram_protects h hi hm hls hrun
  exact ⟨hcaller, congrArg Session.cache hsame, fun y => hruns ⟨y, x.clock⟩⟩

/-- The calls `clear()` and `get(1)`; `clear()` empties the map and takes its first mutex. -/
def beforeReset : List (Label (MemoryCall UInt64 UInt64) (HashOrder UInt64) Instant) :=
  [.call (.op .clear), .act 0 (.id _), .act 0 (.id _), .call (.op (.get 1))]

def resetting : System Mutex (Session UInt64 UInt64 (BoxedPolicy UInt64)) (Place UInt64 UInt64) :=
  (play lockProgram64.step (.idle smallSession) beforeReset).get (by decide)

/-- `clear()` there: it has the size, and wants the other two. -/
def resetter : Caller Mutex (Place UInt64 UInt64) :=
  ⟨.op (.clear true), (bracketed [.sizeBytes, .stats, .evictionPolicy]).tail, {.sizeBytes}⟩

/-- Meanwhile `get(1)` finds nothing and counts a miss. -/
def missing : List (Label (MemoryCall UInt64 UInt64) (HashOrder UInt64) Instant) :=
  List.replicate 5 (.act 1 (.id _))

theorem guard_isolates_resetting :
    ∃ t, Run lockProgram64.Steps resetting missing t ∧ t.shared.cache.stats.misses = 1 ∧
      Mutex.sizeBytes.graft resetting.shared.cache t.shared.cache = t.shared.cache ∧
      ∀ y, Run lockProgram64.Steps
        ⟨{ resetting.shared with cache := Mutex.sizeBytes.graft y resetting.shared.cache }, resetting.callers⟩
        missing ⟨{ t.shared with cache := Mutex.sizeBytes.graft y t.shared.cache }, t.callers⟩ := by
  have hreach : Run lockProgram64.Steps (.idle smallSession) beforeReset resetting :=
    Run.of_play (Option.some_get _).symm
  have hrun : Run lockProgram64.Steps resetting missing
      ((play lockProgram64.step resetting missing).get (by decide)) :=
    Run.of_play (Option.some_get _).symm
  have hothers : ∀ l ∈ missing, ∀ order, l ≠ .act 0 order := by
    intro l hl order heq
    rw [List.eq_of_mem_replicate hl] at heq
    cases heq
  have hcaller : resetting.callers[0]? = some resetter := rfl
  obtain ⟨-, hsame, hruns⟩ := guard_isolates hreach hcaller (m := .sizeBytes) (by decide) hothers hrun
  exact ⟨_, hrun, by decide, hsame, hruns⟩

end CacheLayer
