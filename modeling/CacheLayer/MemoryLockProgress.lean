import CacheLayer.Lib.LockProgress
import CacheLayer.MemoryLocks
import CacheLayer.MemoryProgress

/-!
# Calls finish under the mutexes

`MemoryProgress` counts the sections of the calls, and `MemoryLocks` shows that no call waits for ever.
Together: every instruction of every call, the taking and dropping of its mutexes included, is paid for by
a call, and whatever state a run has come to, all calls can be run to their end from it.

* `Place.work`, `lockProgram_costs` — a section of at most seven instructions does some of the work of its
  call;
* `instructions_finish` — so 98 instructions for each call, and 28 for each key that the policy had to
  begin with, are enough for all calls to return.
-/

set_option autoImplicit false

namespace CacheLayer

open LockOrder

variable {K V : Type}

namespace Thread

theorem mutexes_length (th : Thread K V) : th.mutexes.length ≤ 3 := by
  unfold mutexes
  split <;> decide

end Thread

namespace Place

/-- What is left to do for a call, in sections. -/
def work : Place K V → Nat
  | .op th => th.work
  | .size none => 1
  | .size (some _) => 0
  | .stats none => 1
  | .stats (some _) => 0

theorem work_start (call : MemoryCall K V) : (start call).work ≤ 13 := by
  cases call with
  | op op => exact Thread.work_start op
  | size => exact Nat.le_add_left 1 12
  | stats => exact Nat.le_add_left 1 12

/-- A section takes at most three mutexes and drops them again. -/
theorem segment_length (p : Place K V) : p.segment.length ≤ 7 := by
  have hbracketed : ∀ ms : List Mutex, ms.length ≤ 3 → (bracketed ms).length ≤ 7 := by
    intro ms hms
    simp only [bracketed, List.length_append, List.length_cons, List.length_map, List.length_reverse]
    omega
  cases p with
  | op th =>
    show (if th.Returned then [] else bracketed th.mutexes).length ≤ 7
    split
    · exact Nat.zero_le 7
    · exact hbracketed _ th.mutexes_length
  | size reply =>
    cases reply with
    | none => exact hbracketed _ (by decide)
    | some n => exact Nat.zero_le 7
  | stats reply =>
    cases reply with
    | none => exact hbracketed _ (by decide)
    | some st => exact Nat.zero_le 7

end Place

variable [DecidableEq K] [RustSized K] [RustSized V]

/-- The work left in the policy. -/
def Session.credit (x : Session K V (BoxedPolicy K)) : Nat := Thread.credit x.cache

/-- **Every section does some of the work**, of its call and of the policy together. -/
theorem lockProgram_costs : (lockProgram K V (BoxedPolicy K)).Costs Session.credit Place.work 7 13 where
  segment_le := Place.segment_length
  start_le := Place.work_start
  body_le := by
    intro x order p x' p' hbody
    obtain ⟨th, r, rfl, hr, rfl, rfl⟩ | ⟨rfl, rfl, rfl⟩ | ⟨rfl, rfl, rfl⟩ := Place.step_inv hbody
    · exact Thread.step_work hr
    · exact Nat.le_refl _
    · exact Nat.le_refl _
  external_le := by
    intro x now x' hx
    replace hx : (if x.clock ≤ now then some { x with clock := now } else none) = some x' := hx
    split at hx
    · cases hx
      exact Nat.le_refl _
    · cases hx

/-- **Calls finish under the mutexes.**  Any number of calls of any of the seven methods are made on a
cache, and their instructions, those that take and drop mutexes included, fall in any order.  From
every state that a run reaches all calls can be run until each has returned and dropped its guards; the
instructions of the run so far and of the rest are together at most 98 for each call made and 28 for
each key that the policy had to begin with. -/
theorem instructions_finish {cap : Nat} {policy : BoxedPolicy K} {hcap : 0 < cap} {clock : Instant}
    {s : System Mutex (Session K V (BoxedPolicy K)) (Place K V)}
    {es : List (Label (MemoryCall K V) (HashOrder K) Instant)}
    (h : Run (lockProgram K V (BoxedPolicy K)).Steps (.idle ⟨.withPolicy cap policy hcap, clock⟩) es s) :
    ∃ ls t, Run (lockProgram K V (BoxedPolicy K)).Steps s ls t ∧ (∀ c ∈ t.callers, ¬ Unfinished c) ∧
      (∀ l ∈ ls, l.isAct = true) ∧
        es.countP Label.isAct + ls.length ≤ 98 * es.countP Label.isCall + 28 * policy.size := by
  have hsome : Nonempty (HashOrder K) := ⟨.id K⟩
  obtain ⟨ls, t, hls, hcode, hlen, hall⟩ := Program.exists_finish lockProgram_costs lockProgram_wellFormed h
  have hpaid := Program.instructions_le lockProgram_costs h
  have hcredit : Session.credit (⟨.withPolicy cap policy hcap, clock⟩ : Session K V (BoxedPolicy K)) =
    4 * policy.size := rfl
  refine ⟨ls, t, hls, fun c hc hunf => ?_, hall, ?_⟩
  · have hcount := (Program.orderly_of_run lockProgram_wellFormed (h.append hls) c hc).count_run
    exact hunf.code_ne_nil hcount (hcode c hc)
  · rw [hcredit] at hpaid
    omega

/-- `clear()` holds the size, and `set(1, 10, None)` waits for it. -/
def contending : System Mutex (Session UInt64 UInt64 (BoxedPolicy UInt64)) (Place UInt64 UInt64) :=
  (play lockProgram64.step (.idle smallSession) contention).get (by decide)

theorem instructions_finish_contending :
    (∃ c ∈ contending.callers, Unfinished c) ∧
      ∃ ls t, Run lockProgram64.Steps contending ls t ∧ (∀ c ∈ t.callers, ¬ Unfinished c) ∧
        3 + ls.length ≤ 98 * 3 := by
  have hrun : Run lockProgram64.Steps (.idle smallSession) contention contending :=
    Run.of_play (Option.some_get _).symm
  obtain ⟨ls, t, hls, hfinished, -, hlen⟩ := instructions_finish hrun
  exact ⟨by decide, ls, t, hls, hfinished, hlen⟩

end CacheLayer
