import CacheLayer.MultiTierProjection
import CacheLayer.MultiTierTasks

/-!
# Atomic tier calls

In `MultiTierThreads` a tier call of a client is one step.  That is one way in which the steps of
`MultiTierTasks` can come: the call is made, its steps follow one another, and its reply is taken before
anyone else moves.

* `tier_call_alone` — a tier call of a task that nobody interrupts;
* `Realizes` — a state of the tasks in which the clients are where they are;
* `client_run_realized` — so every run of the clients is a run of the tasks, which leaves the same caches
  and the same replies.
-/

set_option autoImplicit false

namespace CacheLayer

variable {K V P : Type}

/-- The client as a task between two tier calls. -/
def Client.task : Client K V → Task K V
  | .searching key i => ⟨.get key, .searching key i, none⟩
  | .promoting key value _ i m => ⟨.get key, .promoting key value i m, none⟩
  | .writing w _ i lastError => ⟨(CacheCall.write w).op, .writing w i lastError, none⟩
  | .returned call _ reply => ⟨call.op, .returned reply, none⟩

theorem Client.task_pending (cl : Client K V) : cl.task.pending = none := by
  cases cl <;> rfl

theorem CacheCall.task_start (call : CacheCall K V) :
    call.start.task = ⟨call.op, call.op.loop, none⟩ := by
  cases call with
  | get key => rfl
  | write w => cases w <;> rfl

namespace Client

theorem task_afterAsk (key : K) (i version : Nat) (o : Outcome (Option V)) :
    (Client.afterAsk key i version o).task =
      ⟨.get key, (Loop.searching key i).answer (o.map .value), none⟩ := by
  rcases o with (_ | value) | e | p <;> rfl

theorem task_afterPromote (key : K) (value : V) (version i m : Nat) (o : Outcome Unit) :
    (Client.afterPromote key value version i m o).task =
      ⟨.get key, (Loop.promoting key value i m).answer (o.map fun _ => .unit), none⟩ := by
  cases o <;> rfl

theorem task_afterWrite (w : CacheWrite K V) (version i : Nat) (lastError : Option CacheError)
    (o : Outcome Unit) :
    (Client.afterWrite w version i lastError o).task =
      ⟨(CacheCall.write w).op, (Loop.writing w i lastError).answer (o.map fun _ => .unit), none⟩ := by
  cases o <;> rfl

theorem task_ended (cl : Client K V) : cl.ended.task = ⟨cl.task.op, cl.task.loop.ended, none⟩ := by
  cases cl with
  | writing w version i lastError => cases lastError <;> rfl
  | _ => rfl

/-- A client without a tier left is a task that requests none. -/
theorem request_of_atEnd {n : Nat} {cl : Client K V} (h : cl.AtEnd n) :
    cl.task.loop.request (List.finRange n) = none := by
  cases cl with
  | searching key i =>
    have hend : n ≤ i := h
    simp [task, Loop.request, hend]
  | promoting key value version i m =>
    have hend : ((List.finRange n).take m)[i]? = none := by
      rw [List.getElem?_eq_none_iff, List.length_take, List.length_finRange]
      exact h
    simp [task, Loop.request, hend]
  | writing w version i lastError =>
    have hend : n ≤ i := h
    simp [task, Loop.request, hend]
  | returned call version reply => exact h.elim

theorem not_returned_of_atEnd {n : Nat} {cl : Client K V} (h : cl.AtEnd n) :
    ¬ cl.task.loop.Returned := by
  cases cl with
  | returned call version reply => exact h.elim
  | _ => exact id

end Client

namespace CacheSystem

variable {n : Nat} [DecidableEq K] [EvictionPolicy K P] [RustSized K] [RustSized V]

/-- The steps of one call in a tier are steps of the system. -/
theorem run_of_memory {s : CacheSystem K V P n} {m : Fin n} {i : Nat} {order : HashOrder K} :
    ∀ {k : Nat} {memory : MemorySystem K V P},
      Run MemorySystem.Steps (s.memories m) (MemorySystem.runs i k order) memory →
      Run Steps s (List.replicate k (.run m i order)) (s.putMemory m memory)
  | 0, memory, h => by
    rw [Run.nil_inv h, putMemory, Function.update_eq_self]
    exact .nil
  | k + 1, memory, h => by
    rw [MemorySystem.runs, List.replicate_succ'] at h
    obtain ⟨memory', hrun, hstep⟩ := h.snoc_inv
    rw [List.replicate_succ']
    refine (run_of_memory hrun).snoc ?_
    show (((s.putMemory m memory').memories m).step (.run i order)).map _ = _
    rw [putMemory_self, show memory'.step (.run i order) = some memory from hstep]
    simp [putMemory]

/-- **A tier call of a task that nobody interrupts** does what the method of the tier does, and its reply
takes the task on. -/
theorem tier_call_alone {s : CacheSystem K V P n} {c : Nat} {op : CacheOp K V} {loop : Loop K V}
    {m : Fin n} {call : Op K V} (hc : s.tasks[c]? = some ⟨op, loop, none⟩)
    (hreq : loop.request s.tiers = some (m, call)) (order : HashOrder K) :
    ∃ ls t, Run Steps s ls t ∧ t.tiers = s.tiers ∧
      t.tasks = s.tasks.set c ⟨op, loop.answer
        ((s.memories m).cache.exec ⟨(s.memories m).clock, order⟩ call).2, none⟩ ∧
      (∀ j, (t.memories j).clock = (s.memories j).clock) ∧
      (t.memories m).cache = ((s.memories m).cache.exec ⟨(s.memories m).clock, order⟩ call).1 ∧
      ∀ j, j ≠ m → t.memories j = s.memories j := by
  have hlt := (List.getElem?_eq_some_iff.1 hc).1
  have hissue : Steps s (.issue c) ((s.putMemory m ((s.memories m).invoke call)).putTask c
      ⟨op, loop, some (s.memories m).threads.length⟩) := by
    simp only [Steps, step, issue, hc, hreq]
  obtain ⟨k, inserted, hruns⟩ := MemorySystem.run_exec (s.memories m) order call
  generalize hr : (s.memories m).cache.exec ⟨(s.memories m).clock, order⟩ call = r at hruns ⊢
  generalize hu : (s.putMemory m ((s.memories m).invoke call)).putTask c
    ⟨op, loop, some (s.memories m).threads.length⟩ = u at hissue
  have hmem : u.memories m = (s.memories m).invoke call := by
    rw [← hu]
    exact putMemory_self s m _
  rw [← hmem] at hruns
  have hsteps := run_of_memory hruns
  generalize hv : u.putMemory m _ = v at hsteps
  have hvm : v.memories m = { s.memories m with
      cache := r.1
      threads := (s.memories m).threads ++ [.returned call inserted r.2] } := by
    rw [← hv]
    exact putMemory_self u m _
  have hvne : ∀ j, j ≠ m → v.memories j = s.memories j := by
    intro j hj
    rw [← hv, putMemory_ne u hj, ← hu]
    exact putMemory_ne s hj _
  have hvtasks : v.tasks = s.tasks.set c ⟨op, loop, some (s.memories m).threads.length⟩ := by
    rw [← hv, ← hu]
    rfl
  have hvtiers : v.tiers = s.tiers := by
    rw [← hv, ← hu]
    rfl
  have hresume : Steps v (.resume c) (v.putTask c ⟨op, loop.answer r.2, none⟩) := by
    have hvc : v.tasks[c]? = some ⟨op, loop, some (s.memories m).threads.length⟩ := by
      rw [hvtasks, List.getElem?_set_self hlt]
    have hthread : (v.memories m).threads[(s.memories m).threads.length]? =
        some (.returned call inserted r.2) := by
      rw [hvm]
      simp
    simp only [Steps, step, resume, hvc, hvtiers, hreq, hthread]
  refine ⟨_, _, (Run.cons hissue hsteps).snoc hresume, hvtiers, ?_, fun j => ?_, ?_, hvne⟩
  · show v.tasks.set c _ = _
    rw [hvtasks, List.set_set]
  · by_cases hj : j = m
    · subst hj
      show (v.memories j).clock = _
      rw [hvm]
    · exact congrArg MemorySystem.clock (hvne j hj)
  · exact congrArg MemorySystem.cache hvm

/-- The clients are where the tasks are, on the same tiers and at the same time. -/
structure Realizes (s : TierSystem K V P) (t : CacheSystem K V P n) : Prop where
  length_eq : s.tiers.length = n
  tiers_eq : t.tiers = List.finRange n
  caches : ∀ m : Fin n, s.tiers[(m : Nat)]? = some (t.memories m).cache
  clock : ∀ m, (t.memories m).clock = s.clock
  tasks : t.tasks = s.clients.map Client.task

omit [DecidableEq K] [EvictionPolicy K P] [RustSized K] [RustSized V] in
theorem Realizes.task {s : TierSystem K V P} {t : CacheSystem K V P n} (h : Realizes s t) {c : Nat}
    {cl : Client K V} (hc : s.clients[c]? = some cl) : t.tasks[c]? = some cl.task := by
  rw [h.tasks, List.getElem?_map, hc, Option.map_some]

omit [DecidableEq K] [EvictionPolicy K P] [RustSized K] [RustSized V] in
theorem realizes_fresh (tiers : List (MemoryCache K V P)) :
    Realizes (.fresh tiers) (fresh tiers.get (List.finRange tiers.length)) where
  length_eq := rfl
  tiers_eq := rfl
  caches m := List.getElem?_eq_getElem m.isLt
  clock _ := rfl
  tasks := rfl

/-- The clock of the tasks moves on to that of the clients. -/
theorem Realizes.tick {s : TierSystem K V P} {t : CacheSystem K V P n} (h : Realizes s t)
    {now : Instant} (hle : s.clock ≤ now) :
    ∃ t', Steps t (.tick now) t' ∧ Realizes { s with clock := now } t' := by
  refine ⟨{ t with memories := fun m => { t.memories m with clock := now } }, ?_,
    h.length_eq, h.tiers_eq, h.caches, fun _ => rfl, h.tasks⟩
  have hall : ∀ m, (t.memories m).clock ≤ now := fun m => h.clock m ▸ hle
  show (if ∀ m, (t.memories m).clock ≤ now then _ else _) = _
  rw [if_pos hall]

/-- A tier call of a client is one of its task. -/
theorem Realizes.call {s s' : TierSystem K V P} {t : CacheSystem K V P n} (h : Realizes s t) (call : Op K V)
    {c : Nat} {cl cl' : Client K V} {op : CacheOp K V} {loop : Loop K V} {env : Env K} {i : Nat}
    {tier : MemoryCache K V P} (hclock : s.clock = env.now) (hc : s.clients[c]? = some cl)
    (hcl : cl.task = ⟨op, loop, none⟩) (hi : s.tiers[i]? = some tier)
    (hreq : ∀ m : Fin n, (m : Nat) = i → loop.request t.tiers = some (m, call))
    (htiers : s'.tiers = s.tiers.set i (tier.exec env call).1)
    (hclients : s'.clients = s.clients.set c cl')
    (hcl' : cl'.task = ⟨op, loop.answer (tier.exec env call).2, none⟩) (htime : s'.clock = env.now) :
    ∃ ls t', Run Steps t ls t' ∧ Realizes s' t' := by
  have hlt : i < n := h.length_eq ▸ (List.getElem?_eq_some_iff.1 hi).1
  have htier : (t.memories ⟨i, hlt⟩).cache = tier :=
    Option.some.inj ((h.caches ⟨i, hlt⟩).symm.trans hi)
  obtain ⟨ls, t', hrun, htiers', htasks', hclocks, hcache, hothers⟩ :=
    tier_call_alone ((h.task hc).trans (congrArg some hcl)) (hreq ⟨i, hlt⟩ rfl) env.order
  have henv : (⟨(t.memories ⟨i, hlt⟩).clock, env.order⟩ : Env K) = env := by
    rw [h.clock, hclock]
  rw [henv, htier] at htasks' hcache
  refine ⟨ls, t', hrun, ?_, htiers'.trans h.tiers_eq, fun m => ?_, fun m => ?_, ?_⟩
  · rw [htiers, List.length_set, h.length_eq]
  · by_cases hm : m = ⟨i, hlt⟩
    · subst hm
      rw [htiers, hcache]
      exact List.getElem?_set_self (h.length_eq ▸ hlt)
    · have hne : i ≠ (m : Nat) := fun heq => hm (Fin.ext heq.symm)
      rw [htiers, hothers m hm, List.getElem?_set_ne hne]
      exact h.caches m
  · rw [hclocks, h.clock, hclock, htime]
  · rw [htasks', hclients, h.tasks, List.map_set, hcl']

/-- **Each step of a client is a run of its task**: the clock moves on, and a tier call is made and
answered, or the operation returns. -/
theorem realizes_step {s s' : TierSystem K V P} {t : CacheSystem K V P n} {l : TierLabel K V}
    (h : Realizes s t) (hstep : TierSystem.Steps s l s') :
    ∃ ls t', Run Steps t ls t' ∧ Realizes s' t' := by
  cases l with
  | invoke call =>
    cases hstep
    refine ⟨[.start call.op], _, Run.single rfl, h.length_eq, h.tiers_eq, h.caches, h.clock, ?_⟩
    show t.tasks ++ [_] = _
    rw [h.tasks, List.map_append, List.map_singleton, CacheCall.task_start]
  | call c env =>
    obtain ⟨hle, htime⟩ := TierSystem.call_clock hstep
    obtain ⟨t₁, htick, h₁⟩ := h.tick hle
    -- the rest of the run starts at the time of the call
    suffices hrest : ∃ ls t', Run Steps t₁ ls t' ∧ Realizes s' t' by
      obtain ⟨ls, t', hrun, h'⟩ := hrest
      exact ⟨_, t', Run.cons htick hrun, h'⟩
    have hget : ∀ (m : Fin n) (i : Nat), (m : Nat) = i → t₁.tiers[i]? = some m := by
      rintro m _ rfl
      rw [h₁.tiers_eq]
      simp
    obtain ⟨cl, cl', hc, hclients, hcases⟩ := TierSystem.client_cases hstep
    rcases hcases with ⟨key, i, tier, version, rfl, hi, htiers, rfl⟩ |
      ⟨key, value, version, i, m, tier, rfl, hlt, hi, htiers, rfl⟩ |
      ⟨w, version, version', i, lastError, tier, rfl, hi, htiers, rfl⟩ | ⟨hend, htiers, rfl⟩
    · refine h₁.call (.get key) rfl hc rfl hi (fun m hm => ?_) htiers hclients
        (Client.task_afterAsk key i version _) htime
      rw [Loop.request, hget m i hm, Option.map_some]
    · refine h₁.call (.set key value none) rfl hc rfl hi (fun j hj => ?_) htiers hclients
        (Client.task_afterPromote key value version i m _) htime
      rw [Loop.request, List.getElem?_take, if_pos hlt, hget j i hj, Option.map_some]
    · have hexec : tier.exec env w.op =
          ((w.tierCall tier env).1, (w.tierCall tier env).2.map fun _ => .unit) := by
        cases w <;> rfl
      refine h₁.call w.op rfl hc rfl hi (fun m hm => ?_) (hexec ▸ htiers) hclients ?_ htime
      · rw [Loop.request, hget m i hm, Option.map_some]
      · rw [hexec]
        exact Client.task_afterWrite w version' i lastError _
    · have htask : t₁.tasks[c]? = some ⟨cl.task.op, cl.task.loop, none⟩ := by
        rw [h₁.task hc, ← Client.task_pending cl]
      have hreq : cl.task.loop.request t₁.tiers = none := by
        rw [h₁.tiers_eq]
        exact Client.request_of_atEnd (h.length_eq ▸ hend)
      have hret := Client.not_returned_of_atEnd hend
      have hfinish : Steps t₁ (.issue c) (t₁.putTask c ⟨cl.task.op, cl.task.loop.ended, none⟩) := by
        simp only [Steps, step, issue, htask, hreq, if_neg hret]
      refine ⟨_, _, Run.single hfinish, htiers ▸ h.length_eq, h₁.tiers_eq, htiers ▸ h₁.caches,
        fun m => (h₁.clock m).trans htime.symm, ?_⟩
      show t₁.tasks.set c _ = _
      rw [hclients, h₁.tasks, List.map_set, Client.task_ended]

/-- **Every run of clients whose tier calls are atomic is a run of tasks**, whose steps interleave less:
on the same tiers it leaves the same caches at the same time, every operation where it was, and every
reply as it was. -/
theorem client_run_realized {tiers : List (MemoryCache K V P)} {es : List (TierLabel K V)}
    {s : TierSystem K V P} (hrun : Run TierSystem.Steps (.fresh tiers) es s) :
    ∃ ls t, Run Steps (fresh tiers.get (List.finRange tiers.length)) ls t ∧ Realizes s t :=
  hrun.simulate_runs Realizes (realizes_fresh tiers) fun _ _ _ _ h hstep => realizes_step h hstep

/-- The run in which a `get` promotes a value to the first of two tiers. -/
theorem client_run_realized_promoted :
    ∃ ls t, Run Steps (fresh TierSystem.onePerTier.get (List.finRange 2)) ls t ∧
      Realizes TierSystem.promotedBack t := by
  have hrun : Run TierSystem.Steps (.fresh TierSystem.onePerTier) TierSystem.getThenSet
      TierSystem.promotedBack := Run.of_play (Option.some_get _).symm
  exact client_run_realized hrun

end CacheSystem

end CacheLayer
