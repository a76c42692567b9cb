import CacheLayer.MemoryReplies
import CacheLayer.MultiTierThreads
import Mathlib.Logic.Function.Basic

/-!
# Tasks on shared tiers

The tiers of a `MultiTierCache` are held by `Arc`: any number of tasks call the methods of the cache at
the same time, one tier may be listed twice, and whoever else holds a tier may call it directly.  Here
nothing of that is atomic.  A tier is a `MemorySystem`, a tier call of a task is one of its calls in
flight, and its steps interleave with those of all other calls.

* `Loop` — where the loop of an operation is: the tier call it is about to make (`Loop.request`), and what
  a reply makes of it (`Loop.answer`);
* `CacheSystem.step` — a task begins, makes a tier call, takes its reply or returns; a call in flight takes
  its next step; the clock moves on;
* `Takes`, `takes_of_step` — the seven kinds of step;
* `tier_calls_run` — what happens in one tier is a run of its `MemorySystem`.
-/

set_option autoImplicit false

namespace CacheLayer

variable {K V P : Type} {n : Nat}

/-! ## The machine -/

/-- Where the loop of an operation is. -/
inductive Loop (K V : Type) where
  /-- `get`, about to ask tier `i`. -/
  | searching (key : K) (i : Nat)
  /-- `get`, which found `value` in tier `m`, about to write it to tier `i`. -/
  | promoting (key : K) (value : V) (i m : Nat)
  /-- `set`, `set_with_ttl` or `delete`, about to call tier `i`. -/
  | writing (w : CacheWrite K V) (i : Nat) (lastError : Option CacheError)
  /-- `exists`, about to ask tier `i`. -/
  | checking (key : K) (i : Nat)
  | returned (reply : Outcome (Reply V))

/-- The first state of an operation. -/
def CacheOp.loop : CacheOp K V → Loop K V
  | .get key => .searching key 0
  | .set key value => .writing (.setWithTtl key value MultiTierCache.defaultTtl) 0 none
  | .setWithTtl key value ttl => .writing (.setWithTtl key value ttl) 0 none
  | .delete key => .writing (.delete key) 0 none
  | .exists key => .checking key 0

/-- The tier call of a write. -/
def CacheWrite.op : CacheWrite K V → Op K V
  | .setWithTtl key value ttl => .set key value (some ttl)
  | .delete key => .delete key

/-- The write that an operation makes to every tier. -/
def CacheOp.write : CacheOp K V → Option (CacheWrite K V)
  | .set key value => some (.setWithTtl key value MultiTierCache.defaultTtl)
  | .setWithTtl key value ttl => some (.setWithTtl key value ttl)
  | .delete key => some (.delete key)
  | _ => none

/-- The operation makes this tier call: a `get` also writes what it has found, without a time-to-live. -/
def CacheOp.Makes (op : CacheOp K V) : Op K V → Prop
  | .get key => op = .get key
  | .set key _ none => op = .get key
  | .set key value (some ttl) => op.write = some (.setWithTtl key value ttl)
  | .delete key => op = .delete key
  | .exists key => op = .exists key
  | .clear => False

namespace Loop

/-- The operation has returned. -/
def Returned : Loop K V → Prop
  | .returned _ => True
  | _ => False

instance : (l : Loop K V) → Decidable l.Returned
  | .returned _ => isTrue trivial
  | .searching _ _ => isFalse id
  | .promoting _ _ _ _ => isFalse id
  | .writing _ _ _ => isFalse id
  | .checking _ _ => isFalse id

/-- The next tier call, `none` when no tier is left. -/
def request {T : Type} (tiers : List T) : Loop K V → Option (T × Op K V)
  | .searching key i => tiers[i]?.map fun m => (m, .get key)
  | .promoting key value i m => (tiers.take m)[i]?.map fun m => (m, .set key value none)
  | .writing w i _ => tiers[i]?.map fun m => (m, w.op)
  | .checking key i => tiers[i]?.map fun m => (m, .exists key)
  | .returned _ => none

/-- What the reply of a tier makes of the loop; a panic ends the operation. -/
def answer : Loop K V → Outcome (Reply V) → Loop K V
  | .searching key i, .ok (.value (some value)) => .promoting key value 0 i
  | .searching _ _, .panic p => .returned (.panic p)
  | .searching key i, _ => .searching key (i + 1)
  | .promoting _ _ _ _, .panic p => .returned (.panic p)
  | .promoting key value i m, _ => .promoting key value (i + 1) m
  | .writing w i lastError, .ok _ => .writing w (i + 1) lastError
  | .writing w i _, .err e => .writing w (i + 1) (some e)
  | .writing _ _ _, .panic p => .returned (.panic p)
  | .checking _ _, .ok (.flag true) => .returned (.ok (.flag true))
  | .checking _ _, .panic p => .returned (.panic p)
  | .checking key i, _ => .checking key (i + 1)
  | .returned reply, _ => .returned reply

/-- The return of an operation that has no tier left. -/
def ended : Loop K V → Loop K V
  | .searching _ _ => .returned (.ok (.value none))
  | .promoting _ value _ _ => .returned (.ok (.value (some value)))
  | .writing _ _ none => .returned (.ok .unit)
  | .writing _ _ (some e) => .returned (.err e)
  | .checking _ _ => .returned (.ok (.flag false))
  | .returned reply => .returned reply

/-- The loop is one of the operation. -/
def Fits (op : CacheOp K V) : Loop K V → Prop
  | .searching key _ => op = .get key
  | .promoting key _ _ _ => op = .get key
  | .writing w _ _ => op.write = some w
  | .checking key _ => op = .exists key
  | .returned _ => True

theorem fits_loop (op : CacheOp K V) : op.loop.Fits op := by
  cases op <;> rfl

theorem Fits.answer {op : CacheOp K V} {l : Loop K V} (h : l.Fits op) (reply : Outcome (Reply V)) :
    (l.answer reply).Fits op := by
  unfold Loop.answer
  split <;> first | exact h | trivial

theorem fits_ended (op : CacheOp K V) (l : Loop K V) : l.ended.Fits op := by
  unfold Loop.ended
  split <;> trivial

/-- What the loop requests is a call of its operation. -/
theorem Fits.makes {T : Type} {tiers : List T} {op : CacheOp K V} {l : Loop K V} (h : l.Fits op)
    {m : T} {call : Op K V} (hreq : l.request tiers = some (m, call)) : op.Makes call := by
  cases l with
  | searching key i =>
    obtain ⟨_, -, heq⟩ := Option.map_eq_some_iff.1 hreq
    cases heq
    exact h
  | promoting key value i m =>
    obtain ⟨_, -, heq⟩ := Option.map_eq_some_iff.1 hreq
    cases heq
    exact h
  | writing w i lastError =>
    obtain ⟨_, -, heq⟩ := Option.map_eq_some_iff.1 hreq
    cases heq
    replace h : op.write = some w := h
    cases w with
    | setWithTtl key value ttl => exact h
    | delete key => cases op <;> simp_all [CacheOp.write, CacheWrite.op, CacheOp.Makes]
  | checking key i =>
    obtain ⟨_, -, heq⟩ := Option.map_eq_some_iff.1 hreq
    cases heq
    exact h
  | returned reply => cases hreq

end Loop

/-- An operation in flight or returned.  `pending` is the place of the tier call that it waits for among
the calls of that tier. -/
structure Task (K V : Type) where
  op : CacheOp K V
  loop : Loop K V
  pending : Option Nat

/-- The caches, the `Arc`s to them that the `MultiTierCache` lists, and the operations. -/
structure CacheSystem (K V P : Type) (n : Nat) where
  memories : Fin n → MemorySystem K V P
  tiers : List (Fin n)
  tasks : List (Task K V)

/-- A task begins an operation, makes its next tier call or returns, or takes the reply of a tier call; a
call in a tier takes its next step; a tier is called by someone else; the clock moves on. -/
inductive CacheLabel (K V : Type) (n : Nat) where
  | start (op : CacheOp K V)
  | issue (c : Nat)
  | resume (c : Nat)
  | run (m : Fin n) (i : Nat) (order : HashOrder K)
  | call (m : Fin n) (op : Op K V)
  | tick (now : Instant)

/-- A step of a tier leaves a call as it is, or is a step of it. -/
theorem MemorySystem.thread_step [DecidableEq K] [EvictionPolicy K P] [RustSized K] [RustSized V]
    {s t : MemorySystem K V P} {l : MemoryLabel K V} (h : Steps s l t) {i : Nat}
    {th : Thread K V} (hi : s.threads[i]? = some th) :
    t.threads[i]? = some th ∨ ∃ order r, th.step s.cache s.clock order = some r ∧ t = s.advance i r := by
  obtain ⟨op, rfl, rfl⟩ | ⟨j, order, th', r, rfl, hj, hr, rfl⟩ | ⟨now, rfl, hle, rfl⟩ := step_cases h
  · exact Or.inl (invoke_get hi)
  · by_cases hji : j = i
    · subst hji
      rw [hi] at hj
      cases hj
      exact Or.inr ⟨order, r, hr, rfl⟩
    · exact Or.inl ((advance_get_ne hji).trans hi)
  · exact Or.inl hi

namespace CacheSystem

/-- Caches that nobody has called. -/
def fresh (caches : Fin n → MemoryCache K V P) (tiers : List (Fin n)) : CacheSystem K V P n :=
  ⟨fun m => ⟨caches m, [], 0⟩, tiers, []⟩

/-- Replace the state of a cache. -/
def putMemory (s : CacheSystem K V P n) (m : Fin n) (memory : MemorySystem K V P) :
    CacheSystem K V P n :=
  { s with memories := Function.update s.memories m memory }

/-- Replace the state of a task. -/
def putTask (s : CacheSystem K V P n) (c : Nat) (task : Task K V) : CacheSystem K V P n :=
  { s with tasks := s.tasks.set c task }

/-- Task `c` makes its next tier call, or returns. -/
def issue (s : CacheSystem K V P n) (c : Nat) : Option (CacheSystem K V P n) :=
  match s.tasks[c]? with
  | some ⟨op, loop, none⟩ =>
    match loop.request s.tiers with
    | some (m, call) =>
      some ((s.putMemory m ((s.memories m).invoke call)).putTask c
        ⟨op, loop, some (s.memories m).threads.length⟩)
    | none => if loop.Returned then none else some (s.putTask c ⟨op, loop.ended, none⟩)
  | _ => none

/-- Task `c` takes the reply of the tier call that it waits for. -/
def resume (s : CacheSystem K V P n) (c : Nat) : Option (CacheSystem K V P n) :=
  match s.tasks[c]? with
  | some ⟨op, loop, some i⟩ =>
    match loop.request s.tiers with
    | some (m, _) =>
      match (s.memories m).threads[i]? with
      | some (.returned _ _ reply) => some (s.putTask c ⟨op, loop.answer reply, none⟩)
      | _ => none
    | none => none
  | _ => none

variable [DecidableEq K] [EvictionPolicy K P] [RustSized K] [RustSized V]

/-- One step. -/
def step (s : CacheSystem K V P n) : CacheLabel K V n → Option (CacheSystem K V P n)
  | .start op => some { s with tasks := s.tasks ++ [⟨op, op.loop, none⟩] }
  | .issue c => s.issue c
  | .resume c => s.resume c
  | .run m i order => ((s.memories m).step (.run i order)).map (s.putMemory m)
  | .call m op => some (s.putMemory m ((s.memories m).invoke op))
  | .tick now =>
    if ∀ m, (s.memories m).clock ≤ now then
      some { s with memories := fun m => { s.memories m with clock := now } }
    else none

/-- The step relation. -/
def Steps (s : CacheSystem K V P n) (l : CacheLabel K V n) (t : CacheSystem K V P n) : Prop :=
  s.step l = some t

/-- The kinds of step. -/
inductive Takes (s : CacheSystem K V P n) : CacheLabel K V n → CacheSystem K V P n → Prop
  | start (op : CacheOp K V) :
      Takes s (.start op) { s with tasks := s.tasks ++ [⟨op, op.loop, none⟩] }
  | issue {c : Nat} {op : CacheOp K V} {loop : Loop K V} {m : Fin n} {call : Op K V} :
      s.tasks[c]? = some ⟨op, loop, none⟩ → loop.request s.tiers = some (m, call) →
      Takes s (.issue c) ((s.putMemory m ((s.memories m).invoke call)).putTask c
        ⟨op, loop, some (s.memories m).threads.length⟩)
  | finish {c : Nat} {op : CacheOp K V} {loop : Loop K V} :
      s.tasks[c]? = some ⟨op, loop, none⟩ → loop.request s.tiers = none → ¬ loop.Returned →
      Takes s (.issue c) (s.putTask c ⟨op, loop.ended, none⟩)
  | resume {c i : Nat} {op : CacheOp K V} {loop : Loop K V} {m : Fin n} {call made : Op K V}
      {inserted : Option (CachedValue V)} {reply : Outcome (Reply V)} :
      s.tasks[c]? = some ⟨op, loop, some i⟩ → loop.request s.tiers = some (m, call) →
      (s.memories m).threads[i]? = some (.returned made inserted reply) →
      Takes s (.resume c) (s.putTask c ⟨op, loop.answer reply, none⟩)
  | run {m : Fin n} {i : Nat} {order : HashOrder K} {memory : MemorySystem K V P} :
      MemorySystem.Steps (s.memories m) (.run i order) memory →
      Takes s (.run m i order) (s.putMemory m memory)
  | call (m : Fin n) (op : Op K V) :
      Takes s (.call m op) (s.putMemory m ((s.memories m).invoke op))
  | tick {now : Instant} : (∀ m, (s.memories m).clock ≤ now) →
      Takes s (.tick now) { s with memories := fun m => { s.memories m with clock := now } }

/-- **What a step can be.** -/
theorem takes_of_step {s t : CacheSystem K V P n} {l : CacheLabel K V n} (h : Steps s l t) :
    Takes s l t := by
  cases l with
  | start op =>
    cases h
    exact .start op
  | issue c =>
    replace h : s.issue c = some t := h
    unfold issue at h
    split at h
    · rename_i op loop hc
      split at h
      · rename_i m call hreq
        cases h
        exact .issue hc hreq
      · rename_i hreq
        split at h
        · cases h
        · rename_i hret
          cases h
          exact .finish hc hreq hret
    · cases h
  | resume c =>
    replace h : s.resume c = some t := h
    unfold resume at h
    split at h
    · rename_i op loop i hc
      split at h
      · rename_i m call hreq
        split at h
        · rename_i made inserted reply hi
          cases h
          exact .resume hc hreq hi
        · cases h
      · cases h
    · cases h
  | run m i order =>
    obtain ⟨memory, hstep, rfl⟩ := Option.map_eq_some_iff.1
      (show ((s.memories m).step (.run i order)).map (s.putMemory m) = some t from h)
    exact .run hstep
  | call m op =>
    cases h
    exact .call m op
  | tick now =>
    replace h : (if ∀ m, (s.memories m).clock ≤ now then
      some { s with memories := fun m => { s.memories m with clock := now } } else none) = some t := h
    split at h
    · rename_i hle
      cases h
      exact .tick hle
    · cases h

/-! ## One tier -/

section Memories

omit [DecidableEq K] [EvictionPolicy K P] [RustSized K] [RustSized V]

@[simp] theorem putTask_memories (s : CacheSystem K V P n) (c : Nat) (task : Task K V) :
    (s.putTask c task).memories = s.memories := rfl

theorem putMemory_self (s : CacheSystem K V P n) (m : Fin n) (memory : MemorySystem K V P) :
    (s.putMemory m memory).memories m = memory := Function.update_self ..

theorem putMemory_ne (s : CacheSystem K V P n) {m j : Fin n} (h : j ≠ m)
    (memory : MemorySystem K V P) : (s.putMemory m memory).memories j = s.memories j :=
  Function.update_of_ne h ..

end Memories

/-- What the label of a step in the cache `m` says about the step of the system. -/
def Brings (s : CacheSystem K V P n) (l : CacheLabel K V n) (m : Fin n) : MemoryLabel K V → Prop
  | .run i order => l = .run m i order
  | .invoke call => l = .call m call ∨
    ∃ (c : Nat) (op : CacheOp K V) (loop : Loop K V), s.tasks[c]? = some ⟨op, loop, none⟩ ∧
      loop.request s.tiers = some (m, call)
  | .tick now => l = .tick now

/-- **A step of the system leaves a cache alone, or is a step of it.** -/
theorem memory_step {s t : CacheSystem K V P n} {l : CacheLabel K V n} (h : Steps s l t) (m : Fin n) :
    t.memories m = s.memories m ∨
      ∃ f, MemorySystem.Steps (s.memories m) f (t.memories m) ∧ Brings s l m f := by
  -- a step in the cache `m'` that leads to `memory`
  have hput : ∀ {m' : Fin n} {memory : MemorySystem K V P} {f : MemoryLabel K V},
      t.memories = (s.putMemory m' memory).memories →
      MemorySystem.Steps (s.memories m') f memory → Brings s l m' f →
      t.memories m = s.memories m ∨
        ∃ f, MemorySystem.Steps (s.memories m) f (t.memories m) ∧ Brings s l m f := by
    intro m' memory f ht hstep hbrings
    by_cases hm : m = m'
    · subst hm
      rw [ht, putMemory_self]
      exact Or.inr ⟨f, hstep, hbrings⟩
    · rw [ht, putMemory_ne s hm]
      exact Or.inl rfl
  cases takes_of_step h with
  | start op => exact Or.inl rfl
  | @issue c op loop m' call hc hreq =>
    exact hput (f := .invoke call) rfl rfl (Or.inr ⟨c, op, loop, hc, hreq⟩)
  | finish hc hreq hret => exact Or.inl rfl
  | resume hc hreq hi => exact Or.inl rfl
  | run hstep => exact hput rfl hstep rfl
  | call m' op => exact hput (f := .invoke op) rfl rfl (Or.inl rfl)
  | @tick now hle =>
    refine Or.inr ⟨.tick now, ?_, rfl⟩
    show (if (s.memories m).clock ≤ now then some { s.memories m with clock := now } else none) = _
    rw [if_pos (hle m)]

/-- The listed tiers stay the same. -/
theorem tiers_step {s t : CacheSystem K V P n} {l : CacheLabel K V n} (h : Steps s l t) :
    t.tiers = s.tiers := by
  cases takes_of_step h <;> rfl

/-- A task keeps its operation. -/
theorem task_step {s t : CacheSystem K V P n} {l : CacheLabel K V n} (h : Steps s l t) {c : Nat}
    {task : Task K V} (hc : s.tasks[c]? = some task) :
    ∃ task', t.tasks[c]? = some task' ∧ task'.op = task.op := by
  -- a step of task `c'` that leaves its operation as it is
  have hput : ∀ {c' : Nat} {old new : Task K V}, s.tasks[c']? = some old →
      t.tasks = s.tasks.set c' new → new.op = old.op →
        ∃ task', t.tasks[c]? = some task' ∧ task'.op = task.op := by
    intro c' old new hc' ht hop
    by_cases hcc : c' = c
    · subst hcc
      rw [hc] at hc'
      cases hc'
      exact ⟨new, by rw [ht, List.getElem?_set_self (List.getElem?_eq_some_iff.1 hc).1], hop⟩
    · exact ⟨task, by rw [ht, List.getElem?_set_ne hcc, hc], rfl⟩
  cases takes_of_step h with
  | start op =>
    exact ⟨task, by rw [List.getElem?_append_left (List.getElem?_eq_some_iff.1 hc).1, hc], rfl⟩
  | issue hc' hreq => exact hput hc' rfl rfl
  | finish hc' hreq hret => exact hput hc' rfl rfl
  | resume hc' hreq hi => exact hput hc' rfl rfl
  | run hstep => exact ⟨task, hc, rfl⟩
  | call m op => exact ⟨task, hc, rfl⟩
  | tick hle => exact ⟨task, hc, rfl⟩

/-- Every loop is one of its operation. -/
def Fitting (s : CacheSystem K V P n) : Prop := ∀ task ∈ s.tasks, task.loop.Fits task.op

theorem fitting_step {s t : CacheSystem K V P n} {l : CacheLabel K V n} (h : Fitting s)
    (hstep : Steps s l t) : Fitting t := by
  cases takes_of_step hstep with
  | start op =>
    intro task htask
    rcases List.mem_append.1 htask with htask | htask
    · exact h task htask
    · rw [List.mem_singleton.1 htask]
      exact Loop.fits_loop op
  | issue hc hreq =>
    intro task htask
    have hfits := h _ (List.mem_of_getElem? hc)
    rcases List.mem_or_eq_of_mem_set htask with htask | rfl
    · exact h task htask
    · exact hfits
  | finish hc hreq hret =>
    intro task htask
    rcases List.mem_or_eq_of_mem_set htask with htask | rfl
    · exact h task htask
    · exact Loop.fits_ended _ _
  | resume hc hreq hi =>
    intro task htask
    rcases List.mem_or_eq_of_mem_set htask with htask | rfl
    · exact h task htask
    · exact (h _ (List.mem_of_getElem? hc)).answer _
  | run hstep => exact h
  | call m op => exact h
  | tick hle => exact h

omit [DecidableEq K] [EvictionPolicy K P] [RustSized K] [RustSized V] in
theorem fitting_fresh (caches : Fin n → MemoryCache K V P) (tiers : List (Fin n)) :
    Fitting (fresh caches tiers) := fun _ htask => by cases htask

/-- A call stays on the list of calls of its tier. -/
theorem thread_kept {s t : CacheSystem K V P n} {l : CacheLabel K V n} (h : Steps s l t) {m : Fin n}
    {i : Nat} {th : Thread K V} (hi : (s.memories m).threads[i]? = some th) :
    ∃ th', (t.memories m).threads[i]? = some th' ∧ th'.op = th.op := by
  rcases memory_step h m with hsame | ⟨f, hf, -⟩
  · exact ⟨th, hsame ▸ hi, rfl⟩
  · rcases MemorySystem.thread_step hf hi with hi' | ⟨order, r, hr, ht⟩
    · exact ⟨th, hi', rfl⟩
    · exact ⟨r.2, by rw [ht]; exact MemorySystem.advance_get_self hi, Thread.step_op hr⟩

/-- A task that waits for a tier call waits for the one that its loop has requested. -/
def Linked (s : CacheSystem K V P n) : Prop :=
  ∀ task ∈ s.tasks, ∀ i, task.pending = some i → ∃ m call th,
    task.loop.request s.tiers = some (m, call) ∧ (s.memories m).threads[i]? = some th ∧ th.op = call

theorem linked_step {s t : CacheSystem K V P n} {l : CacheLabel K V n} (h : Linked s)
    (hstep : Steps s l t) : Linked t := by
  -- the calls that the tasks of `s` wait for are still there
  have hkept : ∀ task ∈ s.tasks, ∀ i, task.pending = some i → ∃ m call th,
      task.loop.request t.tiers = some (m, call) ∧ (t.memories m).threads[i]? = some th ∧
        th.op = call := by
    intro task htask i hi
    obtain ⟨m, call, th, hreq, hth, hop⟩ := h task htask i hi
    obtain ⟨th', hth', hop'⟩ := thread_kept hstep hth
    exact ⟨m, call, th', (tiers_step hstep).symm ▸ hreq, hth', hop'.trans hop⟩
  cases takes_of_step hstep with
  | start op =>
    intro task htask i hi
    rcases List.mem_append.1 htask with htask | htask
    · exact hkept task htask i hi
    · rw [List.mem_singleton.1 htask] at hi
      cases hi
  | @issue c op loop m call hc hreq =>
    intro task htask i hi
    rcases List.mem_or_eq_of_mem_set htask with htask | rfl
    · exact hkept task htask i hi
    · cases hi
      refine ⟨m, call, .start call, hreq, ?_, Thread.op_start call⟩
      rw [putTask_memories, putMemory_self]
      simp [MemorySystem.invoke]
  | finish hc hreq hret =>
    intro task htask i hi
    rcases List.mem_or_eq_of_mem_set htask with htask | rfl
    · exact hkept task htask i hi
    · cases hi
  | resume hc hreq hth =>
    intro task htask i hi
    rcases List.mem_or_eq_of_mem_set htask with htask | rfl
    · exact hkept task htask i hi
    · cases hi
  | run hmem => exact hkept
  | call m op => exact hkept
  | tick hle => exact hkept

/-- **What happens in one tier is a run of its `MemorySystem`.**  Any number of tasks call the methods of
a multi-tier cache whose tiers may be listed twice and called by others, and the steps of all calls
interleave.  Each cache has come to its state by steps of its own: steps of calls in flight, all of them
taken in this run, and new calls, each made by an operation of a task or by someone else. -/
theorem tier_calls_run {caches : Fin n → MemoryCache K V P} {tiers : List (Fin n)}
    {es : List (CacheLabel K V n)} {s : CacheSystem K V P n} (hrun : Run Steps (fresh caches tiers) es s)
    (m : Fin n) :
    ∃ fs, Run MemorySystem.Steps ⟨caches m, [], 0⟩ fs (s.memories m) ∧
      (∀ i order, .run i order ∈ fs → .run m i order ∈ es) ∧
      ∀ call, .invoke call ∈ fs → .call m call ∈ es ∨ ∃ task ∈ s.tasks, task.op.Makes call := by
  induction hrun with
  | nil => exact ⟨[], .nil, fun _ _ hf => (by cases hf), fun _ hf => (by cases hf)⟩
  | @snoc es s l t hrun hstep ih =>
    obtain ⟨fs, hfs, hruns, hcalls⟩ := ih
    have hkept : ∀ call, .call m call ∈ es ∨ (∃ task ∈ s.tasks, task.op.Makes call) →
        .call m call ∈ es ++ [l] ∨ ∃ task ∈ t.tasks, task.op.Makes call := by
      rintro call (hcall | ⟨task, htask, hmakes⟩)
      · exact Or.inl (List.mem_append_left _ hcall)
      · obtain ⟨c, hc⟩ := List.mem_iff_getElem?.1 htask
        obtain ⟨task', hc', hop⟩ := task_step hstep hc
        exact Or.inr ⟨task', List.mem_of_getElem? hc', hop ▸ hmakes⟩
    rcases memory_step hstep m with hsame | ⟨f, hf, hbrings⟩
    · rw [hsame]
      exact ⟨fs, hfs, fun i order hmem => List.mem_append_left _ (hruns i order hmem),
        fun call hmem => hkept call (hcalls call hmem)⟩
    · refine ⟨fs ++ [f], hfs.snoc hf, fun i order hmem => ?_, fun call hmem => ?_⟩
      · rcases List.mem_append.1 hmem with hmem | hmem
        · exact List.mem_append_left _ (hruns i order hmem)
        · rw [← List.mem_singleton.1 hmem] at hbrings
          exact List.mem_append_right _ (List.mem_singleton.2 hbrings.symm)
      · rcases List.mem_append.1 hmem with hmem | hmem
        · exact hkept call (hcalls call hmem)
        · rw [← List.mem_singleton.1 hmem] at hbrings
          rcases hbrings with rfl | ⟨c, op, loop, hc, hreq⟩
          · exact Or.inl (by simp)
          · have hfits := hrun.invariant Fitting (fitting_fresh caches tiers)
              (fun _ _ _ h hs => fitting_step h hs) _ (List.mem_of_getElem? hc)
            exact hkept call (Or.inr ⟨_, List.mem_of_getElem? hc, hfits.makes hreq⟩)

end CacheSystem

end CacheLayer
