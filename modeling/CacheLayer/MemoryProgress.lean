import CacheLayer.Lib.Potential
import CacheLayer.MemoryThreads
import CacheLayer.PolicyRun

/-!
# Concurrent calls finish

The eviction loop of a `set` has no bound of its own: while it runs, other calls may take the room it has
made, and it may be handed one key after the other that is no longer resident.  But each iteration takes
a key from the policy, and only `get` and `set` put one there, once in a call.

* `Thread.work` — what is left to do for a call, where the keys of the policy are paid for separately;
* `Thread.step_work` — a step of a call does some of it;
* `calls_finish` — so, under any schedule, the calls take 13 steps each on average, no call waits for
  another, and from every state all of them can be run to their end.
-/

set_option autoImplicit false

namespace CacheLayer

variable {K V : Type}

/-! ## Work -/

/-- What is left to do for a `get`; recording an access is also paid for the key it adds. -/
def GetPhase.work : GetPhase V → Nat
  | .lookup => 11
  | .clock _ => 10
  | .read => 9
  | .access _ => 8
  | .touch _ => 3
  | .stamp _ => 2
  | .remove => 2
  | .hit _ => 1
  | .miss => 1

/-- What is left to do for a `set`, where a round of the eviction loop is paid by the key it takes. -/
def SetPhase.work : SetPhase K V → Nat
  | .remove => 13
  | .drop _ => 13
  | .debit _ => 12
  | .release _ => 12
  | .check => 11
  | .evict => 10
  | .expiry => 10
  | .stamp _ => 9
  | .insert _ => 8
  | .credit _ => 7
  | .count _ _ => 6
  | .record _ => 5
  | .fail => 1

namespace Thread

/-- What is left to do for a call. -/
def work : Thread K V → Nat
  | .get _ phase => phase.work
  | .set _ _ _ _ phase => phase.work
  | .delete _ none => 2
  | .delete _ (some _) => 1
  | .exists _ none => 2
  | .exists _ (some _) => 1
  | .clear false => 2
  | .clear true => 1
  | .returned _ _ _ => 0

theorem work_start (op : Op K V) : (start op).work ≤ 13 := by
  cases op <;> simp [start, work, GetPhase.work, SetPhase.work]

variable [DecidableEq K]

/-- A policy gains at most one key from a report. -/
theorem size_report (p : BoxedPolicy K) (key : K) :
    (EvictionPolicy.size (EvictionPolicy.onInsert p key) : Nat) ≤ EvictionPolicy.size p + 1 ∧
      (EvictionPolicy.size (EvictionPolicy.onAccess p key) : Nat) ≤ EvictionPolicy.size p + 1 := by
  obtain ⟨hins, hacc⟩ := p.size_touch key
  replace hins : EvictionPolicy.size (EvictionPolicy.onInsert p key) =
    if p.Replaces key then p.size else p.size + 1 := hins
  replace hacc : EvictionPolicy.size (EvictionPolicy.onAccess p key) =
    if p.Replaces key then p.size else p.size + 1 := hacc
  have hp : EvictionPolicy.size p = p.size := rfl
  rw [hins, hacc, hp]
  split
  · exact ⟨Nat.le_succ _, Nat.le_succ _⟩
  · exact ⟨Nat.le_refl _, Nat.le_refl _⟩

variable [RustSized K] [RustSized V] {c : MemoryCache K V (BoxedPolicy K)} {now : Instant}
  {order : HashOrder K} {th : Thread K V} {r : MemoryCache K V (BoxedPolicy K) × Thread K V}

/-- What is left to do beside a cache: four steps for each key of its policy, and the calls' own. -/
def credit (c : MemoryCache K V (BoxedPolicy K)) : Nat := 4 * EvictionPolicy.size c.evictionPolicy

section Credit

omit [RustSized K] [RustSized V]

theorem credit_congr {c' : MemoryCache K V (BoxedPolicy K)}
    (h : c'.evictionPolicy = c.evictionPolicy) : credit c' = credit c := by
  rw [credit, h, credit]

@[simp] theorem credit_removeEntry (key : K) : credit (c.removeEntry key) = credit c := rfl

@[simp] theorem credit_insertEntry (key : K) (cached : CachedValue V) :
    credit (c.insertEntry key cached) = credit c := rfl

@[simp] theorem credit_touchEntry (key : K) : credit (c.touchEntry key now) = credit c := rfl

@[simp] theorem credit_debit (n : Nat) : credit (c.debit n) = credit c := rfl

@[simp] theorem credit_credit (n : Nat) : credit (c.credit n) = credit c := rfl

@[simp] theorem credit_countHit : credit c.countHit = credit c := rfl

@[simp] theorem credit_countMiss : credit c.countMiss = credit c := rfl

@[simp] theorem credit_countEviction : credit c.countEviction = credit c := rfl

@[simp] theorem credit_countInsert (oldSize : Option Nat) (finalSize : Nat) :
    credit (c.countInsert oldSize finalSize) = credit c := rfl

@[simp] theorem credit_clearEntries : credit c.clearEntries = credit c := rfl

@[simp] theorem credit_releaseEntry (n : Nat) : credit (c.releaseEntry n).1 = credit c := by
  unfold MemoryCache.releaseEntry
  simp only
  split <;> rfl

end Credit

omit [RustSized K] [RustSized V] in
theorem getStep_work (key : K) (phase : GetPhase V) :
    credit (getStep c now key phase).1 + (getStep c now key phase).2.work + 1 ≤
      credit c + phase.work := by
  cases phase with
  | lookup =>
    simp only [getStep]
    split <;> simp [work, GetPhase.work]
  | clock expires =>
    simp only [getStep]
    split <;> simp [work, GetPhase.work]
  | remove => simp [getStep, work, GetPhase.work]
  | read =>
    simp only [getStep]
    split <;> simp [work, GetPhase.work]
  | access value =>
    have hsize := (size_report c.evictionPolicy key).2
    simp only [getStep, work, GetPhase.work, credit, MemoryCache.setPolicy]
    omega
  | touch value =>
    simp only [getStep]
    split <;> simp [work, GetPhase.work]
  | stamp value => simp [getStep, work, GetPhase.work]
  | hit value => simp [getStep, work, GetPhase.work]
  | miss => simp [getStep, work, GetPhase.work]

theorem setStep_work (key : K) (value : V) (ttl : Option Duration) (oldSize : Option Nat)
    (phase : SetPhase K V) :
    credit (setStep c now order key value ttl oldSize phase).1 +
        (setStep c now order key value ttl oldSize phase).2.work + 1 ≤ credit c + phase.work := by
  cases phase with
  | remove =>
    simp only [setStep]
    split <;> simp [work, SetPhase.work]
  | debit n => simp [setStep, work, SetPhase.work]
  | check =>
    simp only [setStep]
    split <;> simp [work, SetPhase.work]
  | evict =>
    simp only [setStep]
    split
    · rename_i victim policy hev
      -- the key that is taken pays for the round
      have hlt := EvictionPolicy.size_evict hev
      simp only [work, SetPhase.work, credit, MemoryCache.setPolicy]
      omega
    · rename_i policy hev
      have heq : policy = c.evictionPolicy := BoxedPolicy.evict_none_eq hev
      have hcredit : credit (c.setPolicy policy) = credit c := credit_congr heq
      simp [work, SetPhase.work, hcredit]
  | drop victim =>
    simp only [setStep]
    split <;> simp [work, SetPhase.work]
  | release n =>
    have hcredit : credit (c.countEviction.releaseEntry n).1 = credit c := by simp
    simp only [setStep]
    split
    all_goals
      rename_i heq
      rw [heq] at hcredit
      simp [work, SetPhase.work, hcredit]
  | fail => simp [setStep, work, SetPhase.work]
  | expiry =>
    simp only [setStep]
    split <;> simp [work, SetPhase.work]
  | stamp expiresAt => simp [setStep, work, SetPhase.work]
  | insert cached => simp [setStep, work, SetPhase.work]
  | credit cached => simp [setStep, work, SetPhase.work]
  | count cached finalSize => simp [setStep, work, SetPhase.work]
  | record cached =>
    have hsize := (size_report c.evictionPolicy key).1
    simp only [setStep, work, SetPhase.work, credit, MemoryCache.setPolicy]
    omega

/-- **A step of a call lowers what is left to do**, in the call and in the policy together. -/
theorem step_work (h : th.step c now order = some r) :
    credit r.1 + r.2.work + 1 ≤ credit c + th.work := by
  cases th with
  | get key phase =>
    cases h
    exact getStep_work key phase
  | set key value ttl oldSize phase =>
    cases h
    exact setStep_work key value ttl oldSize phase
  | delete key removed =>
    cases h
    cases removed with
    | none =>
      simp only [deleteStep]
      split <;> simp [work]
    | some n =>
      have hcredit : credit (c.releaseEntry n).1 = credit c := by simp
      simp only [deleteStep]
      split
      all_goals
        rename_i heq
        rw [heq] at hcredit
        simp [work, hcredit]
  | «exists» key found =>
    cases h
    cases found with
    | none =>
      simp only [existsStep]
      split
      · split <;> simp [work]
      · simp [work]
    | some expires => simp [existsStep, work]
  | clear emptied =>
    cases h
    cases emptied with
    | false => simp [clearStep, work]
    | true =>
      have hzero : EvictionPolicy.size (EvictionPolicy.reset c.evictionPolicy) = 0 :=
        c.evictionPolicy.size_reset
      simp only [clearStep, work, credit, MemoryCache.resetCounters]
      omega
  | returned op inserted reply => cases h

/-- A call that has not returned has a next step, whatever the others are doing. -/
theorem step_isSome (c : MemoryCache K V (BoxedPolicy K)) (now : Instant) (order : HashOrder K)
    (h : ¬ th.Returned) : ∃ r, th.step c now order = some r := by
  cases th with
  | returned op inserted reply => exact absurd trivial h
  | get key phase => exact ⟨_, rfl⟩
  | set key value ttl oldSize phase => exact ⟨_, rfl⟩
  | delete key removed => exact ⟨_, rfl⟩
  | «exists» key found => exact ⟨_, rfl⟩
  | clear emptied => exact ⟨_, rfl⟩

end Thread

/-! ## Runs -/

/-- The label is a step of a thread. -/
def MemoryLabel.isRun : MemoryLabel K V → Bool
  | .run _ _ => true
  | _ => false

/-- The label is a new call. -/
def MemoryLabel.isInvoke : MemoryLabel K V → Bool
  | .invoke _ => true
  | _ => false

namespace MemorySystem

variable [DecidableEq K] [RustSized K] [RustSized V]

/-- What is left to do in a state. -/
def left (s : MemorySystem K V (BoxedPolicy K)) : Nat :=
  Thread.credit s.cache + load Thread.work s.threads

theorem left_advance {s : MemorySystem K V (BoxedPolicy K)} {i : Nat} {order : HashOrder K}
    {th : Thread K V} {r : MemoryCache K V (BoxedPolicy K) × Thread K V}
    (hi : s.threads[i]? = some th) (h : th.step s.cache s.clock order = some r) :
    (s.advance i r).left + 1 ≤ s.left := by
  have hstep := Thread.step_work h
  have hload := load_set Thread.work hi r.2
  show Thread.credit r.1 + load Thread.work (s.threads.set i r.2) + 1 ≤ _
  unfold left
  omega

theorem left_pays :
    Pays (Steps (K := K) (V := V) (P := BoxedPolicy K)) left MemoryLabel.isRun
      (fun l => if l.isInvoke then 13 else 0) := by
  intro s l t hstep
  obtain ⟨op, rfl, rfl⟩ | ⟨i, order, th, r, rfl, hi, hr, rfl⟩ | ⟨now, rfl, -, rfl⟩ := step_cases hstep
  · have hstart := Thread.work_start op
    show Thread.credit s.cache + load Thread.work (s.threads ++ [.start op]) + 0 ≤ s.left + 13
    rw [load_concat]
    unfold left
    omega
  · exact left_advance hi hr
  · exact Nat.le_refl _

/-- **Calls finish.**  Whatever calls are made on a cache, and however their steps are interleaved: all
threads together take at most 13 steps for each call made, and four for each key the policy had to begin
with; a call that has not returned can always take its next step; and from every state the calls can be
run until all have returned, in a number of steps that the state bounds. -/
theorem calls_finish {capacityBytes : Nat} {policy : BoxedPolicy K} {hpos : 0 < capacityBytes}
    {es : List (MemoryLabel K V)} {s : MemorySystem K V (BoxedPolicy K)}
    (hrun : Run Steps (fresh capacityBytes policy hpos) es s) :
    es.countP MemoryLabel.isRun ≤ 13 * es.countP MemoryLabel.isInvoke + 4 * policy.size ∧
    (∀ (i : Nat) th (order : HashOrder K), s.threads[i]? = some th → ¬ th.Returned →
      ∃ t, Steps s (.run i order) t) ∧
    ∃ ls t, Run Steps s ls t ∧ t.Quiet ∧ ls.length ≤ s.left ∧ ∀ l ∈ ls, l.isRun = true := by
  have hgo : ∀ s : MemorySystem K V (BoxedPolicy K), True → ¬ s.Quiet →
      ∃ l t, MemoryLabel.isRun l = true ∧ Steps s l t ∧ True ∧ t.left < s.left := by
    intro s _ hbusy
    obtain ⟨th, hth, hret⟩ : ∃ th ∈ s.threads, ¬ th.Returned := by
      simpa [Quiet] using hbusy
    obtain ⟨i, hi⟩ := List.mem_iff_getElem?.1 hth
    obtain ⟨r, hr⟩ := Thread.step_isSome s.cache s.clock (.id K) hret
    exact ⟨.run i (.id K), s.advance i r, rfl, steps_run hi hr, trivial, left_advance hi hr⟩
  refine ⟨?_, ?_, Run.exists_final (φ := left) hgo s.left s (Nat.le_refl _) trivial⟩
  · have htotal := left_pays.total hrun
    rw [sum_grant] at htotal
    have hstart : (fresh capacityBytes policy hpos : MemorySystem K V (BoxedPolicy K)).left =
        4 * policy.size := rfl
    omega
  · intro i th order hi hret
    obtain ⟨r, hr⟩ := Thread.step_isSome s.cache s.clock order hret
    exact ⟨s.advance i r, steps_run hi hr⟩

/-- A cache with room for one entry. -/
def oneSlot : MemorySystem UInt64 UInt64 (BoxedPolicy UInt64) :=
  fresh 16 (.lru (LRU.new _ 1024 (Nat.succ_pos (nat_lit 1023)))) (Nat.succ_pos (nat_lit 15))

/-- Two writers have both found room; the second has inserted its entry and the first has not. -/
def competingSets : List (MemoryLabel UInt64 UInt64) :=
  [.invoke (.set 1 10 none), .invoke (.set 2 20 none)] ++ runs 0 3 (.id _) ++ runs 1 5 (.id _)

/-- The state after these steps. -/
def competing : MemorySystem UInt64 UInt64 (BoxedPolicy UInt64) :=
  (play step oneSlot competingSets).get (by decide)

theorem calls_finish_competing :
    ¬ competing.Quiet ∧
      ∃ ls t, Run Steps competing ls t ∧ t.Quiet ∧ ls.length ≤ competing.left := by
  have hrun : Run Steps oneSlot competingSets competing := Run.of_play (Option.some_get _).symm
  obtain ⟨-, -, ls, t, hls, hquiet, hlen, -⟩ := calls_finish hrun
  exact ⟨by decide, ls, t, hls, hquiet, hlen⟩

end MemorySystem

end CacheLayer
