import CacheLayer.MemoryProgress
import CacheLayer.MultiTierTasks
import Mathlib.Algebra.BigOperators.Ring.Finset
import Mathlib.Data.Fintype.Basic

/-!
# Operations on shared tiers finish

An operation makes at most two calls to each tier, and a call is as in `MemoryProgress`: a tier pays for
the rounds of an eviction loop with the keys of its policy.

* `Loop.calls` — the tier calls that an operation has left, `Task.work` — its share of the steps;
* `left_pays` — every step lowers what is left to do, and only new operations and calls raise it;
* `operations_finish` — so all steps together are bounded, nobody waits for another task, and from every
  state all operations can be run to their end.
-/

set_option autoImplicit false

namespace CacheLayer

variable {K V : Type} {n : Nat}

/-- An upper bound on the tier calls that a loop has left, on `n` tiers. -/
def Loop.calls (n : Nat) : Loop K V → Nat
  | .searching _ i => n - i + n
  | .promoting _ _ i m => min m n - i
  | .writing _ i _ => n - i
  | .checking _ i => n - i
  | .returned _ => 0

/-- The steps that a task has left, its calls' among them: a tier call takes up to 13 steps of its own,
one to make it and one to take its reply. -/
def Task.work (n : Nat) (task : Task K V) : Nat :=
  match task.loop, task.pending with
  | .returned _, _ => 0
  | loop, none => 15 * loop.calls n + 1
  | loop, some _ => 15 * loop.calls n - 13

theorem Task.work_idle {n : Nat} {op : CacheOp K V} {loop : Loop K V} (h : ¬ loop.Returned) :
    (Task.mk op loop none).work n = 15 * loop.calls n + 1 := by
  cases loop <;> first | rfl | exact absurd trivial h

theorem Task.work_waiting {n i : Nat} {op : CacheOp K V} {loop : Loop K V} :
    (Task.mk op loop (some i)).work n = 15 * loop.calls n - 13 := by
  cases loop <;> rfl

theorem Task.work_le (n : Nat) (op : CacheOp K V) (loop : Loop K V) :
    (Task.mk op loop none).work n ≤ 15 * loop.calls n + 1 := by
  cases loop <;> first | exact Nat.le_refl _ | exact Nat.zero_le _

theorem Task.work_ended {n : Nat} {op : CacheOp K V} {loop : Loop K V} :
    (Task.mk op loop.ended none).work n = 0 := by
  unfold Loop.ended
  split <;> rfl

theorem Loop.calls_loop (n : Nat) (op : CacheOp K V) : op.loop.calls n ≤ 2 * n := by
  cases op <;> simp only [CacheOp.loop, Loop.calls] <;> omega

theorem Loop.not_returned_of_request {T : Type} {tiers : List T} {l : Loop K V} {m : T}
    {call : Op K V} (h : l.request tiers = some (m, call)) : ¬ l.Returned := by
  cases l <;> first | exact id | cases h

/-- A loop that requests a tier call has one less left when it has taken the reply. -/
theorem Loop.calls_answer {T : Type} {tiers : List T} {l : Loop K V} {m : T} {call : Op K V}
    (h : l.request tiers = some (m, call)) (reply : Outcome (Reply V)) :
    (l.answer reply).calls tiers.length + 1 ≤ l.calls tiers.length := by
  have hlt : ∀ {i : Nat} {f : T → T × Op K V}, tiers[i]?.map f = some (m, call) →
      i < tiers.length := by
    intro i f hi
    obtain ⟨_, hi, -⟩ := Option.map_eq_some_iff.1 hi
    exact (List.getElem?_eq_some_iff.1 hi).1
  cases l with
  | searching key i =>
    have := hlt h
    unfold Loop.answer
    split <;> simp only [Loop.calls] <;> grind
  | promoting key value i found =>
    obtain ⟨_, hi, -⟩ := Option.map_eq_some_iff.1 h
    have := (List.getElem?_eq_some_iff.1 hi).1
    rw [List.length_take] at this
    unfold Loop.answer
    split <;> simp only [Loop.calls] <;> grind
  | writing w i lastError =>
    have := hlt h
    unfold Loop.answer
    split <;> simp only [Loop.calls] <;> grind
  | checking key i =>
    have := hlt h
    unfold Loop.answer
    split <;> simp only [Loop.calls] <;> grind
  | returned reply => cases h

/-- A task or a call takes a step. -/
def CacheLabel.isMove : CacheLabel K V n → Bool
  | .issue _ => true
  | .resume _ => true
  | .run _ _ _ => true
  | _ => false

/-- The steps that a new operation, or a call of someone else, may take on `tiers` tiers. -/
def CacheLabel.grant (tiers : Nat) : CacheLabel K V n → Nat
  | .start _ => 30 * tiers + 1
  | .call _ _ => 13
  | _ => 0

/-- An operation begins. -/
def CacheLabel.isStart : CacheLabel K V n → Bool
  | .start _ => true
  | _ => false

/-- A tier is called by someone else. -/
def CacheLabel.isOutside : CacheLabel K V n → Bool
  | .call _ _ => true
  | _ => false

theorem CacheLabel.sum_grant (tiers : Nat) (es : List (CacheLabel K V n)) :
    (es.map (grant tiers)).sum =
      (30 * tiers + 1) * es.countP isStart + 13 * es.countP isOutside := by
  induction es with
  | nil => rfl
  | cons l es ih =>
    rw [List.map_cons, List.sum_cons, ih, List.countP_cons, List.countP_cons, Nat.mul_add, Nat.mul_add]
    cases l <;> simp [grant, isStart, isOutside] <;> omega

namespace CacheSystem

variable [DecidableEq K]

/-- What is left to do in a state. -/
def left (s : CacheSystem K V (BoxedPolicy K) n) : Nat :=
  (∑ m, (s.memories m).left) + load (Task.work s.tiers.length) s.tasks

theorem left_putMemory (s : CacheSystem K V (BoxedPolicy K) n) (m : Fin n)
    (memory : MemorySystem K V (BoxedPolicy K)) :
    (s.putMemory m memory).left + (s.memories m).left = s.left + memory.left := by
  have hsum := sum_update MemorySystem.left s.memories m memory
  show (∑ j, (Function.update s.memories m memory j).left) + _ + _ = _
  unfold left
  show _ + load (Task.work s.tiers.length) s.tasks + _ = _
  omega

theorem left_putTask {s : CacheSystem K V (BoxedPolicy K) n} {c : Nat} {task : Task K V}
    (hc : s.tasks[c]? = some task) (task' : Task K V) :
    (s.putTask c task').left + task.work s.tiers.length = s.left + task'.work s.tiers.length := by
  have hload := load_set (Task.work s.tiers.length) hc task'
  show (∑ m, (s.memories m).left) + load (Task.work s.tiers.length) (s.tasks.set c task') + _ = _
  unfold left
  omega

theorem left_invoke (s : MemorySystem K V (BoxedPolicy K)) (call : Op K V) :
    (s.invoke call).left ≤ s.left + 13 := by
  have hstart := Thread.work_start call
  show Thread.credit s.cache + load Thread.work (s.threads ++ [.start call]) ≤ s.left + 13
  rw [load_concat]
  unfold MemorySystem.left
  omega

variable [RustSized K] [RustSized V]

/-- **Every step of a task or of a call lowers what is left to do.** -/
theorem left_pays (N : Nat) :
    Pays (Guarded (fun s _ => s.tiers.length = N) (Steps (K := K) (V := V) (P := BoxedPolicy K) (n := n)))
      left CacheLabel.isMove (CacheLabel.grant N) := by
  rintro s l t ⟨rfl, hstep⟩
  cases takes_of_step hstep with
  | start op =>
    have hcalls := Loop.calls_loop s.tiers.length op
    have hwork := Task.work_le s.tiers.length op op.loop
    show (∑ m, (s.memories m).left) +
      load (Task.work s.tiers.length) (s.tasks ++ [⟨op, op.loop, none⟩]) + 0 ≤
        s.left + (30 * s.tiers.length + 1)
    rw [load_concat]
    unfold left
    omega
  | @issue c op loop m call hc hreq =>
    -- thirteen of the steps of the task are now those of its call
    have hcalls := Loop.calls_answer hreq (.ok .unit)
    have hmem := left_putMemory s m ((s.memories m).invoke call)
    have hinvoke := left_invoke (s.memories m) call
    have htask := left_putTask (s := s.putMemory m ((s.memories m).invoke call)) hc
      ⟨op, loop, some (s.memories m).threads.length⟩
    rw [Task.work_idle (Loop.not_returned_of_request hreq), Task.work_waiting] at htask
    replace htask : _ + (15 * loop.calls s.tiers.length + 1) =
      _ + (15 * loop.calls s.tiers.length - 13) := htask
    show _ + 1 ≤ s.left + 0
    omega
  | @finish c op loop hc hreq hret =>
    have htask := left_putTask hc ⟨op, loop.ended, none⟩
    rw [Task.work_idle hret, Task.work_ended] at htask
    show _ + 1 ≤ s.left + 0
    omega
  | @resume c i op loop m call made inserted reply hc hreq hi =>
    have hcalls := Loop.calls_answer hreq reply
    have htask := left_putTask hc ⟨op, loop.answer reply, none⟩
    have hwork := Task.work_le s.tiers.length op (loop.answer reply)
    rw [Task.work_waiting] at htask
    show _ + 1 ≤ s.left + 0
    omega
  | @run m i order memory hmem =>
    have hput := left_putMemory s m memory
    have hpay := MemorySystem.left_pays _ _ _ hmem
    replace hpay : memory.left + 1 ≤ (s.memories m).left + 0 := hpay
    show _ + 1 ≤ s.left + 0
    omega
  | call m op =>
    have hput := left_putMemory s m ((s.memories m).invoke op)
    have hinvoke := left_invoke (s.memories m) op
    show _ + 0 ≤ s.left + 13
    omega
  | tick hle => exact Nat.le_refl _

/-- A tier call that has not returned can take its next step. -/
theorem exists_run {s : CacheSystem K V (BoxedPolicy K) n}
    {m : Fin n} {i : Nat} {th : Thread K V} (hi : (s.memories m).threads[i]? = some th)
    (hret : ¬ th.Returned) (order : HashOrder K) : ∃ t, Steps s (.run m i order) t := by
  obtain ⟨r, hr⟩ := Thread.step_isSome (s.memories m).cache (s.memories m).clock order hret
  have hstep := MemorySystem.steps_run hi hr
  exact ⟨s.putMemory m ((s.memories m).advance i r), by
    show ((s.memories m).step (.run i order)).map (s.putMemory m) = _
    rw [show (s.memories m).step (.run i order) = _ from hstep]
    rfl⟩

/-- **No task waits for another**: an operation that has not returned can make its next tier call, or take
the reply of the one that it waits for, or that call can take its next step. -/
theorem task_ready {s : CacheSystem K V (BoxedPolicy K) n} (h : Linked s) {c : Nat} {task : Task K V}
    (hc : s.tasks[c]? = some task) (hret : ¬ task.loop.Returned) :
    (∃ t, Steps s (.issue c) t) ∨ (∃ t, Steps s (.resume c) t) ∨
      ∃ m i, task.pending = some i ∧ ∀ order, ∃ t, Steps s (.run m i order) t := by
  obtain ⟨op, loop, _ | i⟩ := task
  · refine Or.inl ?_
    unfold Steps step issue
    simp only [hc]
    split
    · exact ⟨_, rfl⟩
    · exact ⟨_, if_neg hret⟩
  · obtain ⟨m, call, th, hreq, hi, -⟩ := h _ (List.mem_of_getElem? hc) i rfl
    by_cases hth : th.Returned
    · refine Or.inr (Or.inl ?_)
      cases th with
      | returned made inserted reply =>
        exact ⟨s.putTask c ⟨op, loop.answer reply, none⟩, by
          simp only [Steps, step, resume, hc, hreq, hi]⟩
      | _ => exact hth.elim
    · exact Or.inr (Or.inr ⟨m, i, rfl, exists_run hi hth⟩)

/-- No operation and no call is in flight. -/
def Quiet (s : CacheSystem K V (BoxedPolicy K) n) : Prop :=
  (∀ task ∈ s.tasks, task.loop.Returned) ∧ ∀ m, (s.memories m).Quiet

theorem exists_move {s : CacheSystem K V (BoxedPolicy K) n} (h : Linked s) (hbusy : ¬ s.Quiet) :
    ∃ l t, CacheLabel.isMove l = true ∧ Steps s l t ∧ Linked t ∧ t.left < s.left := by
  have hgo : ∀ {l : CacheLabel K V n}, l.isMove = true → l.grant s.tiers.length = 0 →
      (∃ t, Steps s l t) →
      ∃ l t, CacheLabel.isMove l = true ∧ Steps s l t ∧ Linked t ∧ t.left < s.left := by
    rintro l hmove hgrant ⟨t, hstep⟩
    have hpay := left_pays s.tiers.length s l t ⟨rfl, hstep⟩
    rw [hmove, if_pos rfl, hgrant] at hpay
    exact ⟨l, t, hmove, hstep, linked_step h hstep, hpay⟩
  by_cases htasks : ∀ task ∈ s.tasks, task.loop.Returned
  · obtain ⟨m, hm⟩ : ∃ m, ¬ (s.memories m).Quiet := by
      by_contra hall
      exact hbusy ⟨htasks, fun m => Classical.byContradiction fun hm => hall ⟨m, hm⟩⟩
    obtain ⟨th, hth, hret⟩ : ∃ th ∈ (s.memories m).threads, ¬ th.Returned := by
      simpa [MemorySystem.Quiet] using hm
    obtain ⟨i, hi⟩ := List.mem_iff_getElem?.1 hth
    exact hgo (l := .run m i (.id K)) rfl rfl (exists_run hi hret _)
  · obtain ⟨task, htask, hret⟩ : ∃ task ∈ s.tasks, ¬ task.loop.Returned := by
      simpa using htasks
    obtain ⟨c, hc⟩ := List.mem_iff_getElem?.1 htask
    rcases task_ready h hc hret with hissue | hresume | ⟨m, i, -, hrun⟩
    · exact hgo (l := .issue c) rfl rfl hissue
    · exact hgo (l := .resume c) rfl rfl hresume
    · exact hgo (l := .run m i (.id K)) rfl rfl (hrun _)

/-- **Operations finish.**  Any number of tasks call the methods of a multi-tier cache on `t` listed
tiers, which may be listed twice and called by others, and the steps of all calls interleave.  All steps
together are at most `30t + 1` for each operation begun, 13 for each call of someone else, and four for
each key that the policies had to begin with; an operation that has not returned can go on, or the tier
call that it waits for can; and from every state all can be run until they have returned, in a number of
steps that the state bounds. -/
theorem operations_finish {caches : Fin n → MemoryCache K V (BoxedPolicy K)} {tiers : List (Fin n)}
    {es : List (CacheLabel K V n)} {s : CacheSystem K V (BoxedPolicy K) n}
    (hrun : Run Steps (fresh caches tiers) es s) :
    es.countP CacheLabel.isMove ≤ (30 * tiers.length + 1) * es.countP CacheLabel.isStart +
        13 * es.countP CacheLabel.isOutside + 4 * ∑ m, (caches m).evictionPolicy.size ∧
      (∀ (c : Nat) task, s.tasks[c]? = some task → ¬ task.loop.Returned →
        (∃ t, Steps s (.issue c) t) ∨ (∃ t, Steps s (.resume c) t) ∨
          ∃ m i, task.pending = some i ∧ ∀ order, ∃ t, Steps s (.run m i order) t) ∧
      ∃ ls t, Run Steps s ls t ∧ t.Quiet ∧ ls.length ≤ s.left ∧
        ∀ l ∈ ls, CacheLabel.isMove l = true := by
  have hlinked : Linked s := hrun.invariant Linked (fun _ htask => (by cases htask))
    fun _ _ _ h hstep => linked_step h hstep
  refine ⟨?_, fun c task hc hret => task_ready hlinked hc hret,
    Run.exists_final (φ := left) (fun _ => exists_move) s.left s (Nat.le_refl _) hlinked⟩
  have htotal := (left_pays tiers.length).total (hrun.guarded_of_invariant
    (fun s => s.tiers.length = tiers.length) rfl fun _ _ _ h hstep => (tiers_step hstep) ▸ h)
  rw [CacheLabel.sum_grant] at htotal
  have hstart : (fresh caches tiers : CacheSystem K V (BoxedPolicy K) n).left =
      4 * ∑ m, (caches m).evictionPolicy.size := by
    rw [Finset.mul_sum]
    rfl
  omega

/-- Two caches with room for one entry each, the first of which is listed twice. -/
def listedTwice : CacheSystem UInt64 UInt64 (BoxedPolicy UInt64) 2 :=
  fresh (fun _ => .withPolicy 16 (.lru (LRU.new _ 1024 (Nat.succ_pos (nat_lit 1023))))
    (Nat.succ_pos (nat_lit 15))) [0, 1, 0]

/-- A `set` is about to evict from the first cache what another has just stored there. -/
def evictingTasks : List (CacheLabel UInt64 UInt64 2) :=
  .start (.set 1 10) :: .start (.set 2 20) :: .issue 0 :: .issue 1 ::
    List.replicate 8 (.run 0 0 (.id _)) ++ List.replicate 3 (.run 0 1 (.id _)) ++ [.resume 0]

/-- The state after these steps. -/
def tasksEvicting : CacheSystem UInt64 UInt64 (BoxedPolicy UInt64) 2 :=
  (play step listedTwice evictingTasks).get (by decide)

theorem operations_finish_evicting :
    14 ≤ 91 * 2 ∧ ∃ ls t, Run Steps tasksEvicting ls t ∧ t.Quiet ∧ ls.length ≤ tasksEvicting.left := by
  have hrun : Run Steps listedTwice evictingTasks tasksEvicting :=
    Run.of_play (Option.some_get _).symm
  obtain ⟨hbound, -, ls, t, hls, hquiet, hlen, -⟩ := operations_finish hrun
  exact ⟨hbound, ls, t, hls, hquiet, hlen⟩

end CacheSystem

end CacheLayer
