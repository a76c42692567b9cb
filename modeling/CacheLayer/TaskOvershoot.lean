import CacheLayer.MemoryOvershoot
import CacheLayer.TaskReplies

/-!
# How far the tiers of a `MultiTierCache` exceed their capacities

An operation makes one tier call at a time, so the `set`s in flight in a tier are no more than the
operations that are writing: `set` and `set_with_ttl`, and a `get` that promotes what it has found.

* `Loop.sets` — the operation is writing a value to the tiers;
* `Claimed`, `claimed_step` — each `set` in flight is the tier call for which such an operation waits;
* `sets_le_writers` — so a tier has no more of them than there are writers;
* `tiers_overshoot` — so with `M + 1` writers at a time every tier stays within its capacity and `M`
  entries, and with one writer within its capacity.
-/

set_option autoImplicit false

namespace CacheLayer

variable {K V P : Type} {n : Nat}

/-- The operation is writing a value to the tiers. -/
def Loop.sets : Loop K V → Bool
  | .promoting _ _ _ _ => true
  | .writing (.setWithTtl _ _ _) _ _ => true
  | _ => false

theorem Loop.sets_of_request {T : Type} {tiers : List T} {l : Loop K V} {m : T} {call : Op K V}
    (h : l.request tiers = some (m, call)) (hcall : (Thread.start call).isSet = true) :
    l.sets = true := by
  cases l with
  | promoting key value i m => rfl
  | writing w i lastError =>
    cases w with
    | setWithTtl key value ttl => rfl
    | delete key =>
      obtain ⟨_, -, heq⟩ := Option.map_eq_some_iff.1 h
      cases heq
      cases hcall
  | searching key i | checking key i =>
    obtain ⟨_, -, heq⟩ := Option.map_eq_some_iff.1 h
    cases heq
    cases hcall
  | returned reply => cases h

/-- No operation clears a tier. -/
theorem Loop.request_ne_clear {T : Type} {tiers : List T} {l : Loop K V} {m : T} :
    l.request tiers ≠ some (m, .clear) := by
  intro h
  cases l with
  | writing w i lastError =>
    obtain ⟨_, -, heq⟩ := Option.map_eq_some_iff.1 h
    cases w <;> cases heq
  | searching key i | checking key i | promoting key value i m =>
    obtain ⟨_, -, heq⟩ := Option.map_eq_some_iff.1 h
    cases heq
  | returned reply => cases h

theorem Thread.isSet_start_op {th : Thread K V} (h : th.isSet = true) :
    (start th.op).isSet = true := by
  cases th with
  | set key value ttl oldSize phase => rfl
  | _ => cases h

/-- A call that is a `set` in flight after a step was one before it. -/
theorem Thread.isSet_of_step [DecidableEq K] [EvictionPolicy K P] [RustSized K] [RustSized V]
    {c : MemoryCache K V P} {now : Instant} {order : HashOrder K} {th : Thread K V}
    {r : MemoryCache K V P × Thread K V} (h : th.step c now order = some r) (hr : r.2.isSet = true) :
    th.isSet = true := by
  have hop := step_op h
  cases th with
  | set key value ttl oldSize phase => rfl
  | returned op inserted reply => cases h
  | _ =>
    have hstart := isSet_start_op hr
    rw [hop] at hstart
    cases hstart

theorem Thread.not_returned_of_isSet {th : Thread K V} (h : th.isSet = true) : ¬ th.Returned := by
  cases th with
  | set key value ttl oldSize phase => exact id
  | _ => cases h

/-- A `set` in flight after the step of a call was one before it. -/
theorem MemorySystem.set_of_run [DecidableEq K] [EvictionPolicy K P] [RustSized K] [RustSized V]
    {s t : MemorySystem K V P} {i j : Nat} {order : HashOrder K} {th' : Thread K V}
    (h : Steps s (.run j order) t) (hi : t.threads[i]? = some th') (hset : th'.isSet = true) :
    ∃ th, s.threads[i]? = some th ∧ th.isSet = true ∧ th'.op = th.op := by
  obtain ⟨op, hl, -⟩ | ⟨j', order', th, r, hl, hj, hr, rfl⟩ | ⟨now, hl, -, -⟩ := step_cases h
  · cases hl
  · cases hl
    by_cases hji : j = i
    · subst hji
      rw [advance_get_self hj] at hi
      cases hi
      exact ⟨th, hj, Thread.isSet_of_step hr hset, Thread.step_op hr⟩
    · rw [advance_get_ne hji] at hi
      exact ⟨th', hi, hset, rfl⟩
  · cases hl

/-- Nobody else writes a value to a tier. -/
def CacheLabel.SetsNothing : CacheLabel K V n → Prop
  | .call _ op => (Thread.start op).isSet = false
  | _ => True

instance : (l : CacheLabel K V n) → Decidable l.SetsNothing
  | .call _ op => inferInstanceAs (Decidable ((Thread.start op).isSet = false))
  | .start _ => isTrue trivial
  | .issue _ => isTrue trivial
  | .resume _ => isTrue trivial
  | .run _ _ _ => isTrue trivial
  | .tick _ => isTrue trivial

namespace CacheSystem

/-- How many operations are writing a value to the tiers. -/
def writers (s : CacheSystem K V P n) : Nat := s.tasks.countP fun task => task.loop.sets

/-- Each `set` in flight in a tier is the call for which a task waits. -/
def Claimed (s : CacheSystem K V P n) : Prop :=
  ∀ (m : Fin n) (i : Nat) (th : Thread K V), (s.memories m).threads[i]? = some th → th.isSet = true →
    ∃ (c : Nat) (task : Task K V), s.tasks[c]? = some task ∧ task.pending = some i ∧
      task.loop.request s.tiers = some (m, th.op)

theorem claimed_fresh (caches : Fin n → MemoryCache K V P) (tiers : List (Fin n)) :
    Claimed (fresh caches tiers) := fun m i th hi => by cases hi

/-- **A tier has no more `set`s in flight than there are writers.** -/
theorem Claimed.sets_le_writers {s : CacheSystem K V P n} (h : s.Claimed) (m : Fin n) :
    (s.memories m).setsInFlight ≤ s.writers := by
  refine countP_le_of_claims Task.pending fun i th hi hset => ?_
  obtain ⟨c, task, hc, hpending, hreq⟩ := h m i th hi hset
  exact ⟨task, List.mem_of_getElem? hc,
    Loop.sets_of_request hreq (Thread.isSet_start_op hset), hpending⟩

variable [DecidableEq K] [EvictionPolicy K P] [RustSized K] [RustSized V]

/-- A task that waits for a call in flight goes on waiting for it. -/
theorem task_waits {s t : CacheSystem K V P n} {l : CacheLabel K V n} (hstep : Steps s l t) {c i : Nat}
    {task : Task K V} {m : Fin n} {call : Op K V} {th : Thread K V} (hc : s.tasks[c]? = some task)
    (hi : task.pending = some i) (hreq : task.loop.request s.tiers = some (m, call))
    (hth : (s.memories m).threads[i]? = some th) (hbusy : ¬ th.Returned) :
    t.tasks[c]? = some task := by
  -- a task that makes a call or returns waits for none
  have hput : ∀ {c' : Nat} {op : CacheOp K V} {loop : Loop K V} {new : Task K V},
      s.tasks[c']? = some ⟨op, loop, none⟩ → (s.tasks.set c' new)[c]? = some task := by
    intro c' op loop new hc'
    have hne : c' ≠ c := by
      rintro rfl
      rw [hc'] at hc
      cases hc
      cases hi
    rw [List.getElem?_set_ne hne, hc]
  cases takes_of_step hstep with
  | start op =>
    exact (List.getElem?_append_left (List.getElem?_eq_some_iff.1 hc).1).trans hc
  | issue hc' hreq' => exact hput hc'
  | finish hc' hreq' hret => exact hput hc'
  | @resume c' i' op loop m' call' made inserted reply hc' hreq' hi' =>
    have hne : c' ≠ c := by
      rintro rfl
      rw [hc] at hc'
      cases hc'
      cases hi
      rw [hreq] at hreq'
      cases hreq'
      rw [hth] at hi'
      cases hi'
      exact hbusy trivial
    exact (List.getElem?_set_ne hne).trans hc
  | run hmem => exact hc
  | call m' op => exact hc
  | tick hle => exact hc

/-- **A step keeps every `set` in flight claimed**, if nobody else writes to a tier. -/
theorem claimed_step {s t : CacheSystem K V P n} {l : CacheLabel K V n} (h : s.Claimed)
    (hl : l.SetsNothing) (hstep : Steps s l t) : t.Claimed := by
  intro m i th' hi hset
  -- a `set` that was in flight before the step is still claimed
  have hkeep : ∀ th, (s.memories m).threads[i]? = some th → th.isSet = true → th'.op = th.op →
      ∃ (c : Nat) (task : Task K V), t.tasks[c]? = some task ∧ task.pending = some i ∧
        task.loop.request t.tiers = some (m, th'.op) := by
    intro th hth hset hop
    obtain ⟨c, task, hc, hpending, hreq⟩ := h m i th hth hset
    rw [tiers_step hstep, hop]
    exact ⟨c, task, task_waits hstep hc hpending hreq hth (Thread.not_returned_of_isSet hset),
      hpending, hreq⟩
  cases takes_of_step hstep with
  | start op => exact hkeep th' hi hset rfl
  | @issue c op loop m' call hc hreq =>
    by_cases hm : m = m'
    · subst hm
      rw [putTask_memories, putMemory_self] at hi
      rcases MemorySystem.get_of_invoke hi with hi | ⟨rfl, rfl⟩
      · exact hkeep th' hi hset rfl
      · exact ⟨c, _, List.getElem?_set_self (List.getElem?_eq_some_iff.1 hc).1, rfl,
          by rw [Thread.op_start]; exact hreq⟩
    · rw [putTask_memories, putMemory_ne s hm] at hi
      exact hkeep th' hi hset rfl
  | finish hc hreq hret => exact hkeep th' hi hset rfl
  | resume hc hreq hth => exact hkeep th' hi hset rfl
  | @run m' j order memory hmem =>
    by_cases hm : m = m'
    · subst hm
      rw [putMemory_self] at hi
      obtain ⟨th, hth, hset', hop⟩ := MemorySystem.set_of_run hmem hi hset
      exact hkeep th hth hset' hop
    · rw [putMemory_ne s hm] at hi
      exact hkeep th' hi hset rfl
  | call m' op =>
    by_cases hm : m = m'
    · subst hm
      rw [putMemory_self] at hi
      rcases MemorySystem.get_of_invoke hi with hi | ⟨rfl, rfl⟩
      · exact hkeep th' hi hset rfl
      · exact absurd hset (Bool.eq_false_iff.1 hl)
    · rw [putMemory_ne s hm] at hi
      exact hkeep th' hi hset rfl
  | tick hle => exact hkeep th' hi hset rfl

/-- **How far the tiers of a multi-tier cache exceed their capacities.**  Any number of tasks call the
methods of a multi-tier cache of fresh tiers, which may be listed twice, nobody else writes a value to a
tier, and the steps of all calls interleave.  If at most `M + 1` operations at a time are writing a value
(a `set`, a `set_with_ttl` or a promotion), then in every state the size of each tier is at most `M`
entries above its capacity, and so are the bytes resident in it as long as nobody clears it. -/
theorem tiers_overshoot {caches : Fin n → MemoryCache K V P} {tiers : List (Fin n)} {M : Nat}
    (hfresh : ∀ m, ∃ cap policy h, caches m = .withPolicy cap policy h) {es : List (CacheLabel K V n)}
    {s : CacheSystem K V P n}
    (hrun : Run (Guarded (fun s l => s.writers ≤ M + 1 ∧ l.SetsNothing) Steps) (fresh caches tiers) es s)
    (m : Fin n) :
    (s.memories m).cache.sizeBytes ≤ (caches m).capacityBytes + M * entrySize K V ∧
      (.call m .clear ∉ es →
        (s.memories m).cache.residentBytes ≤ (caches m).capacityBytes + M * entrySize K V) := by
  obtain ⟨cap, policy, hcap, hm⟩ := hfresh m
  have hwithin : s.Claimed ∧ (s.memories m).Within (caches m).capacityBytes M := by
    refine hrun.invariant (fun s => s.Claimed ∧ (s.memories m).Within (caches m).capacityBytes M)
      ⟨claimed_fresh caches tiers, MemorySystem.within_fresh (caches m) (by rw [hm]; rfl) M 0⟩ ?_
    rintro s l t ⟨hclaimed, hwithin⟩ ⟨⟨hfew, hl⟩, hstep⟩
    refine ⟨claimed_step hclaimed hl hstep, ?_⟩
    rcases memory_step hstep m with hsame | ⟨f, hf, -⟩
    · exact hsame ▸ hwithin
    · exact MemorySystem.within_step hwithin (Nat.le_trans (hclaimed.sets_le_writers m) hfew) hf
  refine ⟨hwithin.2.size_le, fun hno => hwithin.2.resident_le ?_⟩
  have hrun' := hrun.of_guarded.guarded_of_forall (C := fun l => l ≠ .call m .clear)
    fun l hl hclear => hno (hclear ▸ hl)
  refine hrun'.invariant (fun s => (s.memories m).Covering)
    (MemorySystem.covering_fresh (caches m) (by rw [hm]; rfl) 0) ?_
  rintro s l t hcovering ⟨hl, hstep⟩
  rcases memory_step hstep m with hsame | ⟨f, hf, hbrings⟩
  · exact hsame ▸ hcovering
  · refine MemorySystem.covering_step hcovering ?_ hf
    rintro rfl
    rcases hbrings with hcall | ⟨c, op, loop, -, hreq⟩
    · exact hl hcall
    · exact Loop.request_ne_clear hreq

/-- Two `set`s look for room in the first tier before either adds its entry. -/
def jointTasks : List (CacheLabel UInt64 UInt64 2) :=
  [.start (.set 1 10), .start (.set 2 20), .issue 0, .issue 1] ++
    List.replicate 2 (.run upperTier 0 (.id _)) ++ List.replicate 2 (.run upperTier 1 (.id _)) ++
    List.replicate 4 (.run upperTier 0 (.id _)) ++ List.replicate 4 (.run upperTier 1 (.id _))

/-- The state after these steps. -/
def tierOverfull : CacheSystem UInt64 UInt64 (LRU UInt64) 2 :=
  (play (fun s l => if s.writers ≤ 2 ∧ l.SetsNothing then step s l else none) slotPair jointTasks).get
    (by decide)

theorem tiers_overshoot_joint :
    (tierOverfull.memories upperTier).cache.sizeBytes = 16 + 1 * entrySize UInt64 UInt64 ∧
      (tierOverfull.memories upperTier).cache.residentBytes ≤ 16 + 1 * entrySize UInt64 UInt64 := by
  have hfresh : ∀ m : Fin 2, ∃ cap policy h, (slotPair.memories m).cache = .withPolicy cap policy h :=
    fun _ => ⟨16, LRU.new _ 1024 (Nat.succ_pos 1023), Nat.succ_pos 15, rfl⟩
  have hrun : Run (Guarded (fun s l => s.writers ≤ 1 + 1 ∧ l.SetsNothing) Steps) slotPair jointTasks
      tierOverfull := Run.of_play_guarded (Option.some_get _).symm
  refine ⟨by decide, (tiers_overshoot hfresh hrun upperTier).2 fun hmem => ?_⟩
  simp [jointTasks] at hmem

end CacheSystem

end CacheLayer
