import CacheLayer.MultiTierTasks

/-!
# What the reply of an operation says

An operation of a `MultiTierCache` is a loop of tier calls, and between two of them, and inside each, the
calls of other tasks run.  Its reply puts together what the tiers have replied, one after the other; each of
these replies shows its tier at a moment of the tier call (`Op.Shows`).

* `CacheOp.Reports` — what the reply of an operation says about the tier calls it has made, in their order;
* `Loop.Knows` — the same for the place its loop has reached, which each reply extends (`Knows.answer`);
* `CacheSystem.Answered` — a task has made these tier calls one after the other and taken their replies;
* `operation_shows` — so every operation that has returned reports tier calls that it has made since its
  start, and each of them has passed a moment that its reply shows.
-/

set_option autoImplicit false

namespace CacheLayer

variable {K V P : Type}

/-! ## Replies of the tiers -/

/-- A tier can give this reply to the call. -/
def Op.Gives : Op K V → Outcome (Reply V) → Prop
  | .get _, .ok (.value _) => True
  | .set _ _ _, .ok .unit => True
  | .set _ _ _, .err _ => True
  | .set _ _ _, .panic _ => True
  | .delete _, .ok .unit => True
  | .delete _, .panic _ => True
  | .exists _, .ok (.flag _) => True
  | .clear, .ok .unit => True
  | _, _ => False

/-- A tier call that has returned. -/
structure Answer (T K V : Type) where
  tier : T
  call : Op K V
  reply : Outcome (Reply V)

section Reports

variable {T : Type} {tiers : List T} {log : List (Answer T K V)}

/-- The call has gone to these tiers, in this order, and each reply was one of those. -/
def Asked (log : List (Answer T K V)) (tiers : List T) (call : Op K V) (ok : Outcome (Reply V) → Prop) :
    Prop :=
  log.map Answer.tier = tiers ∧ ∀ a ∈ log, a.call = call ∧ ok a.reply

/-- What the reply of an operation says about the tier calls it has made.  A `get` that hits has been
missed by the faster tiers, in their order, and then has written its value to each of them, in the same
order; a write has reached every tier, and its error is that of the slowest tier that refused it. -/
def CacheOp.Reports (op : CacheOp K V) (tiers : List T) (log : List (Answer T K V)) :
    Outcome (Reply V) → Prop
  | .ok (.value none) => ∃ key, op = .get key ∧ Asked log tiers (.get key) (· = .ok (.value none))
  | .ok (.value (some value)) => ∃ key i m misses writes, op = .get key ∧ tiers[i]? = some m ∧
    log = misses ++ ⟨m, .get key, .ok (.value (some value))⟩ :: writes ∧
    Asked misses (tiers.take i) (.get key) (· = .ok (.value none)) ∧
    Asked writes (tiers.take i) (.set key value none) Outcome.Returned
  | .ok (.flag true) => ∃ key i m absent, op = .exists key ∧ tiers[i]? = some m ∧
    log = absent ++ [⟨m, .exists key, .ok (.flag true)⟩] ∧
    Asked absent (tiers.take i) (.exists key) (· = .ok (.flag false))
  | .ok (.flag false) => ∃ key, op = .exists key ∧ Asked log tiers (.exists key) (· = .ok (.flag false))
  | .ok .unit => ∃ w, op.write = some w ∧ Asked log tiers w.op (· = .ok .unit)
  | .err e => ∃ w m before after, op.write = some w ∧ Asked log tiers w.op Outcome.Returned ∧
    log = before ++ ⟨m, w.op, .err e⟩ :: after ∧ ∀ a ∈ after, a.reply = .ok .unit
  | .panic p => ∃ m call before, m ∈ tiers ∧ op.Makes call ∧ log = before ++ [⟨m, call, .panic p⟩] ∧
    ∀ a ∈ before, a.reply.Returned

/-- What the place of a loop says about the tier calls it has made. -/
def Loop.Knows (op : CacheOp K V) (tiers : List T) (log : List (Answer T K V)) : Loop K V → Prop
  | .searching key i => op = .get key ∧ Asked log (tiers.take i) (.get key) (· = .ok (.value none))
  | .promoting key value i h => op = .get key ∧ ∃ m misses writes, tiers[h]? = some m ∧
    log = misses ++ ⟨m, .get key, .ok (.value (some value))⟩ :: writes ∧
    Asked misses (tiers.take h) (.get key) (· = .ok (.value none)) ∧
    Asked writes ((tiers.take h).take i) (.set key value none) Outcome.Returned
  | .writing w i none => op.write = some w ∧ Asked log (tiers.take i) w.op (· = .ok .unit)
  | .writing w i (some e) => op.write = some w ∧ Asked log (tiers.take i) w.op Outcome.Returned ∧
    ∃ m before after, log = before ++ ⟨m, w.op, .err e⟩ :: after ∧ ∀ a ∈ after, a.reply = .ok .unit
  | .checking key i => op = .exists key ∧ Asked log (tiers.take i) (.exists key) (· = .ok (.flag false))
  | .returned reply => op.Reports tiers log reply

theorem Asked.nil (call : Op K V) (ok : Outcome (Reply V) → Prop) :
    Asked ([] : List (Answer T K V)) [] call ok :=
  ⟨rfl, fun _ ha => by cases ha⟩

/-- The next tier is asked. -/
theorem Asked.next {call : Op K V} {ok : Outcome (Reply V) → Prop} {i : Nat} {m : T}
    {reply : Outcome (Reply V)} (h : Asked log (tiers.take i) call ok) (hi : tiers[i]? = some m)
    (hreply : ok reply) : Asked (log ++ [⟨m, call, reply⟩]) (tiers.take (i + 1)) call ok := by
  obtain ⟨htiers, hall⟩ := h
  refine ⟨?_, List.forall_mem_append.2 ⟨hall, List.forall_mem_singleton.2 ⟨rfl, hreply⟩⟩⟩
  rw [List.map_append, htiers, List.take_add_one, hi]
  rfl

theorem Asked.imp {call : Op K V} {ok ok' : Outcome (Reply V) → Prop} (h : Asked log tiers call ok)
    (hok : ∀ reply, ok reply → ok' reply) : Asked log tiers call ok' :=
  ⟨h.1, fun a ha => ⟨(h.2 a ha).1, hok _ (h.2 a ha).2⟩⟩

/-- Tiers that have replied `Ok` have returned. -/
theorem Asked.returned {call : Op K V} {r : Reply V} (h : Asked log tiers call (· = .ok r)) :
    Asked log tiers call Outcome.Returned :=
  h.imp fun _ hreply => by
    rw [hreply]
    trivial

/-- After the last tier the first `i` are all of them. -/
theorem take_of_end {i : Nat} (hi : tiers[i]? = none) : tiers.take i = tiers :=
  List.take_of_length_le (List.getElem?_eq_none_iff.1 hi)

theorem Loop.knows_loop (op : CacheOp K V) (tiers : List T) : op.loop.Knows op tiers [] := by
  cases op <;> exact ⟨rfl, .nil _ _⟩

/-- A reply of the next tier to a search. -/
theorem Loop.Knows.answer_searching {op : CacheOp K V} {key : K} {i : Nat} {m : T}
    {reply : Outcome (Reply V)} (h : (Loop.searching key i).Knows op tiers log) (hi : tiers[i]? = some m)
    (hgives : (Op.get (V := V) key).Gives reply) :
    ((Loop.searching key i).answer reply).Knows op tiers (log ++ [⟨m, .get key, reply⟩]) := by
  obtain ⟨rfl, hmissed⟩ := h
  cases reply with
  | ok r =>
    cases r with
    | value v =>
      cases v with
      | none => exact ⟨rfl, hmissed.next hi rfl⟩
      | some value => exact ⟨rfl, m, log, [], hi, rfl, hmissed, .nil _ _⟩
    | unit => exact hgives.elim
    | flag f => exact hgives.elim
  | err e => exact hgives.elim
  | panic p => exact hgives.elim

/-- A reply of the next tier to a promotion. -/
theorem Loop.Knows.answer_promoting {op : CacheOp K V} {key : K} {value : V} {i h : Nat} {m : T}
    {reply : Outcome (Reply V)} (hknows : (Loop.promoting key value i h).Knows op tiers log)
    (hi : (tiers.take h)[i]? = some m) :
    ((Loop.promoting key value i h).answer reply).Knows op tiers
      (log ++ [⟨m, .set key value none, reply⟩]) := by
  obtain ⟨rfl, m', misses, writes, hfound, rfl, hmissed, hwritten⟩ := hknows
  have hnext : reply.Returned → (Loop.promoting key value (i + 1) h).Knows (.get key) tiers
      (misses ++ ⟨m', .get key, .ok (.value (some value))⟩ :: writes ++ [⟨m, .set key value none, reply⟩]) :=
    fun hreply => ⟨rfl, m', misses, writes ++ [⟨m, _, reply⟩], hfound, List.append_assoc _ _ _, hmissed,
      hwritten.next hi hreply⟩
  cases reply with
  | ok r => exact hnext trivial
  | err e => exact hnext trivial
  | panic p =>
    have hbefore : ∀ a ∈ misses ++ ⟨m', .get key, .ok (.value (some value))⟩ :: writes, a.reply.Returned :=
      List.forall_mem_append.2 ⟨fun a ha => (hmissed.returned.2 a ha).2,
        List.forall_mem_cons.2 ⟨trivial, fun a ha => (hwritten.2 a ha).2⟩⟩
    exact ⟨m, .set key value none, _, List.mem_of_mem_take (List.mem_of_getElem? hi), rfl, rfl, hbefore⟩

/-- A reply of the next tier to a write. -/
theorem Loop.Knows.answer_writing {op : CacheOp K V} {w : CacheWrite K V} {i : Nat}
    {lastError : Option CacheError} {m : T} {reply : Outcome (Reply V)}
    (h : (Loop.writing w i lastError).Knows op tiers log) (hi : tiers[i]? = some m)
    (hmakes : op.write = some w → op.Makes w.op) (hgives : w.op.Gives reply) :
    ((Loop.writing w i lastError).answer reply).Knows op tiers (log ++ [⟨m, w.op, reply⟩]) := by
  have hasked : op.write = some w ∧ Asked log (tiers.take i) w.op Outcome.Returned := by
    cases lastError with
    | none => exact ⟨h.1, h.2.returned⟩
    | some e => exact ⟨h.1, h.2.1⟩
  obtain ⟨hw, hreturned⟩ := hasked
  cases reply with
  | ok r =>
    obtain rfl : r = .unit := by
      cases w <;> cases r <;> first | rfl | exact hgives.elim
    cases lastError with
    | none => exact ⟨hw, h.2.next hi rfl⟩
    | some e =>
      obtain ⟨-, -, m', before, after, rfl, hafter⟩ := h
      -- the last error stays the last one
      have hafter' : ∀ a ∈ after ++ [⟨m, w.op, .ok .unit⟩], a.reply = .ok .unit :=
        List.forall_mem_append.2 ⟨hafter, List.forall_mem_singleton.2 rfl⟩
      exact ⟨hw, hreturned.next hi trivial, m', before, after ++ [⟨m, w.op, .ok .unit⟩],
        List.append_assoc _ _ _, hafter'⟩
  | err e =>
    -- this is now the last error
    have hnext : Asked (log ++ [⟨m, w.op, .err e⟩]) (tiers.take (i + 1)) w.op Outcome.Returned :=
      hreturned.next hi trivial
    exact ⟨hw, hnext, m, log, [], rfl, fun _ ha => (by cases ha)⟩
  | panic p =>
    exact ⟨m, w.op, log, List.mem_of_getElem? hi, hmakes hw, rfl, fun a ha => (hreturned.2 a ha).2⟩

/-- A reply of the next tier to the search of `exists`. -/
theorem Loop.Knows.answer_checking {op : CacheOp K V} {key : K} {i : Nat} {m : T}
    {reply : Outcome (Reply V)} (h : (Loop.checking key i).Knows op tiers log) (hi : tiers[i]? = some m)
    (hgives : (Op.exists (V := V) key).Gives reply) :
    ((Loop.checking key i).answer reply).Knows op tiers (log ++ [⟨m, .exists key, reply⟩]) := by
  obtain ⟨rfl, habsent⟩ := h
  cases reply with
  | ok r =>
    cases r with
    | flag f =>
      cases f with
      | false => exact ⟨rfl, habsent.next hi rfl⟩
      | true => exact ⟨key, i, m, log, rfl, hi, rfl, habsent⟩
    | unit => exact hgives.elim
    | value v => exact hgives.elim
  | err e => exact hgives.elim
  | panic p => exact hgives.elim

/-- **Each reply of a tier extends what the loop knows.** -/
theorem Loop.Knows.answer {op : CacheOp K V} {l : Loop K V} {m : T} {call : Op K V}
    {reply : Outcome (Reply V)} (h : l.Knows op tiers log) (hfits : l.Fits op)
    (hreq : l.request tiers = some (m, call)) (hgives : call.Gives reply) :
    (l.answer reply).Knows op tiers (log ++ [⟨m, call, reply⟩]) := by
  cases l with
  | searching key i =>
    obtain ⟨m', hi, heq⟩ := Option.map_eq_some_iff.1 hreq
    cases heq
    exact h.answer_searching hi hgives
  | promoting key value i found =>
    obtain ⟨m', hi, heq⟩ := Option.map_eq_some_iff.1 hreq
    cases heq
    exact h.answer_promoting hi
  | writing w i lastError =>
    have hmakes := hfits.makes hreq
    obtain ⟨m', hi, heq⟩ := Option.map_eq_some_iff.1 hreq
    cases heq
    exact h.answer_writing hi (fun _ => hmakes) hgives
  | checking key i =>
    obtain ⟨m', hi, heq⟩ := Option.map_eq_some_iff.1 hreq
    cases heq
    exact h.answer_checking hi hgives
  | returned reply => cases hreq

/-- What the loop knows when no tier is left is what the operation reports. -/
theorem Loop.Knows.ended {op : CacheOp K V} {l : Loop K V} (h : l.Knows op tiers log)
    (hreq : l.request tiers = none) : l.ended.Knows op tiers log := by
  cases l with
  | searching key i =>
    have hend := take_of_end (Option.map_eq_none_iff.1 hreq)
    obtain ⟨rfl, hmissed⟩ := h
    rw [hend] at hmissed
    exact ⟨key, rfl, hmissed⟩
  | promoting key value i found =>
    have hend := take_of_end (Option.map_eq_none_iff.1 hreq)
    obtain ⟨rfl, m, misses, writes, hfound, rfl, hmissed, hwritten⟩ := h
    rw [hend] at hwritten
    exact ⟨key, found, m, misses, writes, rfl, hfound, rfl, hmissed, hwritten⟩
  | writing w i lastError =>
    have hend := take_of_end (Option.map_eq_none_iff.1 hreq)
    cases lastError with
    | none =>
      obtain ⟨hw, hall⟩ := h
      rw [hend] at hall
      exact ⟨w, hw, hall⟩
    | some e =>
      obtain ⟨hw, hall, m, before, after, rfl, hafter⟩ := h
      rw [hend] at hall
      exact ⟨w, m, before, after, hw, hall, rfl, hafter⟩
  | checking key i =>
    have hend := take_of_end (Option.map_eq_none_iff.1 hreq)
    obtain ⟨rfl, habsent⟩ := h
    rw [hend] at habsent
    exact ⟨key, rfl, habsent⟩
  | returned reply => exact h

end Reports

variable [DecidableEq K] [EvictionPolicy K P] [RustSized K] [RustSized V]

omit [EvictionPolicy K P] in
/-- A reply that shows a moment of its call is one that the tier can give. -/
theorem Op.Shows.gives {start finish : Instant} {m : MemorySystem K V P} {call : Op K V}
    {reply : Outcome (Reply V)} (h : call.Shows start finish m reply) : call.Gives reply := by
  unfold Op.Shows at h
  split at h <;> trivial

/-! ## Operations -/

namespace CacheSystem

variable {n : Nat}

/-- A task begins an operation. -/
def begin (s : CacheSystem K V P n) (op : CacheOp K V) : CacheSystem K V P n :=
  { s with tasks := s.tasks ++ [⟨op, op.loop, none⟩] }

theorem memory_clock {s t : CacheSystem K V P n} {l : CacheLabel K V n} (h : Steps s l t) (m : Fin n) :
    (s.memories m).clock ≤ (t.memories m).clock := by
  rcases memory_step h m with hsame | ⟨f, hf, -⟩
  · rw [hsame]
  · exact MemorySystem.clock_le (Run.single hf)

/-- The clock of a tier does not go back. -/
theorem memory_clock_le {s t : CacheSystem K V P n} {es : List (CacheLabel K V n)}
    (h : Run Steps s es t) (m : Fin n) : (s.memories m).clock ≤ (t.memories m).clock :=
  h.invariant (fun t => (s.memories m).clock ≤ (t.memories m).clock) (Nat.le_refl _)
    fun _ _ _ hu hstep => Nat.le_trans hu (memory_clock hstep m)

/-- From `s₁` on, task `c` has made the tier calls of the log, and has taken the reply of each before it made
the next.  Between the step that makes a call and the one that takes its reply, which is the next `resume`
of the task, the run passes a moment that the reply shows. -/
inductive Answered (c : Nat) (s₁ : CacheSystem K V P n) :
    List (CacheLabel K V n) → CacheSystem K V P n → List (Answer (Fin n) K V) → Prop
  | nil : Answered c s₁ [] s₁ []
  | other {es : List (CacheLabel K V n)} {s t : CacheSystem K V P n} {l : CacheLabel K V n}
      {log : List (Answer (Fin n) K V)} :
      Answered c s₁ es s log → Steps s l t → l ≠ .resume c → Answered c s₁ (es ++ [l]) t log
  | reply {es fs : List (CacheLabel K V n)} {s a v t : CacheSystem K V P n}
      {log : List (Answer (Fin n) K V)} {m : Fin n} {call : Op K V}
      {inserted : Option (CachedValue V)} {reply : Outcome (Reply V)} :
      Answered c s₁ es s log →
      -- the call is made, and is the last of the calls of its tier
      Steps s (.issue c) a → (a.memories m).threads = (s.memories m).threads ++ [.start call] →
      Run.Passes Steps
        (fun u => call.Shows (a.memories m).clock (v.memories m).clock (u.memories m) reply) a fs v →
      .resume c ∉ fs →
      -- it has returned, and the task takes its reply
      (v.memories m).threads[(s.memories m).threads.length]? = some (.returned call inserted reply) →
      Steps v (.resume c) t →
      Answered c s₁ (es ++ .issue c :: fs ++ [.resume c]) t (log ++ [⟨m, call, reply⟩])

/-- The call `i` of the tier `m`, which has been made in `a`, is in flight, and the run from there passes a
moment that fits the place it has reached. -/
def Seen (a : CacheSystem K V P n) (fs : List (CacheLabel K V n)) (s : CacheSystem K V P n) (m : Fin n)
    (call : Op K V) (i : Nat) : Prop :=
  ∃ th, (s.memories m).threads[i]? = some th ∧ th.op = call ∧ Run.Passes Steps
    (fun u => th.Saw (a.memories m).clock (s.memories m).clock (u.memories m)) a fs s

/-- A call in flight has seen such a moment, whatever the step. -/
theorem Seen.snoc {a s t : CacheSystem K V P n} {fs : List (CacheLabel K V n)} {l : CacheLabel K V n}
    {m : Fin n} {call : Op K V} {i : Nat} (hrun : Run Steps a fs s) (h : Seen a fs s m call i)
    (hstep : Steps s l t) : Seen a (fs ++ [l]) t m call i := by
  obtain ⟨th, hi, hop, hseen⟩ := h
  have hle := memory_clock hstep m
  -- a thread that stays where it is keeps its moment
  have hstay : (t.memories m).threads[i]? = some th → Seen a (fs ++ [l]) t m call i := fun hi' =>
    ⟨th, hi', hop, (hseen.snoc hstep).imp fun _ _ _ _ _ hsaw => hsaw.mono hle⟩
  rcases memory_step hstep m with hsame | ⟨f, hf, -⟩
  · exact hstay (hsame ▸ hi)
  · rcases MemorySystem.thread_step hf hi with hi' | ⟨order, r, hr, ht⟩
    · exact hstay hi'
    · have hclock : (t.memories m).clock = (s.memories m).clock := by rw [ht]; rfl
      refine ⟨r.2, by rw [ht]; exact MemorySystem.advance_get_self hi,
        (Thread.step_op hr).trans hop, ?_⟩
      obtain ⟨fs₁, fs₂, u, rfl, h₁, h₂, hsaw⟩ := hseen
      rcases Thread.saw_step (i := i) (memory_clock_le h₁ m) (memory_clock_le h₂ m) hr hsaw with
        hold | hnew
      · exact ⟨fs₁, fs₂ ++ [l], u, List.append_assoc _ _ _, h₁, h₂.snoc hstep, hold.mono hle⟩
      · refine .last (hrun.snoc hstep) ?_
        rw [hclock, ht]
        exact hnew

/-- Task `c`, whose tier calls so far are those of the log, waits for the call `i` of the tier `m`. -/
def Awaits (c : Nat) (s₁ : CacheSystem K V P n) (es : List (CacheLabel K V n))
    (s : CacheSystem K V P n) (log : List (Answer (Fin n) K V)) (m : Fin n) (call : Op K V) (i : Nat) :
    Prop :=
  ∃ es₀ fs s₀ a, es = es₀ ++ .issue c :: fs ∧ Answered c s₁ es₀ s₀ log ∧ Steps s₀ (.issue c) a ∧
    (a.memories m).threads = (s₀.memories m).threads ++ [.start call] ∧
    i = (s₀.memories m).threads.length ∧ Run Steps a fs s ∧ .resume c ∉ fs ∧ Seen a fs s m call i

/-- What the task of `op` has done and knows. -/
def Tells (c : Nat) (s₁ : CacheSystem K V P n) (op : CacheOp K V) (es : List (CacheLabel K V n))
    (s : CacheSystem K V P n) (task : Task K V) : Prop :=
  task.op = op ∧ task.loop.Fits op ∧ ∃ log, task.loop.Knows op s.tiers log ∧
    match task.pending with
    | none => Answered c s₁ es s log
    | some i => ∃ m call, task.loop.request s.tiers = some (m, call) ∧ Awaits c s₁ es s log m call i

/-- A step of others. -/
theorem Tells.snoc {c : Nat} {s₁ s t : CacheSystem K V P n} {op : CacheOp K V}
    {es : List (CacheLabel K V n)} {l : CacheLabel K V n} {task : Task K V}
    (h : Tells c s₁ op es s task) (hstep : Steps s l t) (hl : l ≠ .resume c) :
    Tells c s₁ op (es ++ [l]) t task := by
  obtain ⟨hop, hfits, log, hknows, hpending⟩ := h
  have htiers := tiers_step hstep
  refine ⟨hop, hfits, log, htiers ▸ hknows, ?_⟩
  split at hpending
  · exact hpending.other hstep hl
  · obtain ⟨m, call, hreq, es₀, fs, s₀, a, rfl, hanswered, hissue, hthreads, hi, hrun, hwaits, hseen⟩ :=
      hpending
    have hwaits' : .resume c ∉ fs ++ [l] := by
      intro hmem
      rcases List.mem_append.1 hmem with hmem | hmem
      · exact hwaits hmem
      · exact hl (List.mem_singleton.1 hmem).symm
    exact ⟨m, call, htiers ▸ hreq, es₀, fs ++ [l], s₀, a, by simp, hanswered, hissue, hthreads, hi,
      hrun.snoc hstep, hwaits', hseen.snoc hrun hstep⟩

/-- **A step of the task itself**: it makes a tier call, returns, or takes the reply it has waited for. -/
theorem tells_step {c : Nat} {s₁ s t : CacheSystem K V P n} {op : CacheOp K V}
    {es : List (CacheLabel K V n)} {l : CacheLabel K V n} {task : Task K V}
    (hc : s.tasks[c]? = some task) (h : Tells c s₁ op es s task) (hstep : Steps s l t) :
    ∃ task', t.tasks[c]? = some task' ∧ Tells c s₁ op (es ++ [l]) t task' := by
  have hself : ∀ {task' : Task K V}, (s.tasks.set c task')[c]? = some task' := fun {_} =>
    List.getElem?_set_self (List.getElem?_eq_some_iff.1 hc).1
  cases takes_of_step hstep with
  | start op' =>
    refine ⟨task, ?_, h.snoc hstep (by simp)⟩
    rw [List.getElem?_append_left (List.getElem?_eq_some_iff.1 hc).1, hc]
  | @issue c' op' loop m call hc' hreq =>
    by_cases hcc : c' = c
    · subst hcc
      rw [hc] at hc'
      cases hc'
      obtain ⟨hop, hfits, log, hknows, hanswered⟩ := h
      have hmade : (((s.putMemory m ((s.memories m).invoke call)).putTask c'
          ⟨op', loop, some (s.memories m).threads.length⟩).memories m).threads =
            (s.memories m).threads ++ [.start call] := by
        rw [putTask_memories, putMemory_self]
        rfl
      refine ⟨_, hself, hop, hfits, log, hknows, m, call, hreq, es, [], s, _, rfl, hanswered, hstep, hmade,
        rfl, .nil, List.not_mem_nil, .start call, ?_, Thread.op_start call,
        .last .nil (Thread.saw_start _ _ _ call)⟩
      rw [hmade, List.getElem?_concat_length]
    · exact ⟨task, (List.getElem?_set_ne hcc).trans hc, h.snoc hstep (by simp)⟩
  | @finish c' op' loop hc' hreq hret =>
    have hothers := h.snoc hstep (by simp)
    by_cases hcc : c' = c
    · subst hcc
      rw [hc] at hc'
      cases hc'
      obtain ⟨hop, hfits, log, hknows, hanswered⟩ := hothers
      exact ⟨_, hself, hop, Loop.fits_ended op loop, log, hknows.ended hreq, hanswered⟩
    · exact ⟨task, (List.getElem?_set_ne hcc).trans hc, hothers⟩
  | @resume c' i op' loop m call made inserted reply hc' hreq hi =>
    by_cases hcc : c' = c
    · subst hcc
      rw [hc] at hc'
      cases hc'
      obtain ⟨hop, hfits, log, hknows, m', call', hreq', hawaits⟩ := h
      obtain ⟨rfl, rfl⟩ := Prod.mk.inj (Option.some.inj (hreq.symm.trans hreq'))
      obtain ⟨es₀, fs, s₀, a, rfl, hanswered, hissue, hthreads, rfl, hrun, hwaits, th, hth, rfl, hseen⟩ :=
        hawaits
      -- the moment of the call that has returned is the moment of its reply
      obtain rfl : th = .returned made inserted reply := Option.some.inj (hth.symm.trans hi)
      have hgives : made.Gives reply := by
        obtain ⟨-, -, u, -, -, -, hsaw⟩ := hseen
        exact Op.Shows.gives (m := u.memories m) hsaw
      exact ⟨_, hself, hop, hfits.answer reply, _, hknows.answer hfits hreq hgives,
        hanswered.reply hissue hthreads hseen hwaits hi hstep⟩
    · refine ⟨task, (List.getElem?_set_ne hcc).trans hc, h.snoc hstep fun heq => hcc ?_⟩
      cases heq
      rfl
  | run hmem => exact ⟨task, hc, h.snoc hstep (by simp)⟩
  | call m op' => exact ⟨task, hc, h.snoc hstep (by simp)⟩
  | tick hle => exact ⟨task, hc, h.snoc hstep (by simp)⟩

/-- **Every reply of an operation describes its tiers, one after the other, at moments of the operation.**  An
operation begins in any state, beside any operations and tier calls in flight, on tiers that may be listed
twice and called by others.  When it has returned, its reply reports the tier calls that it has made and
whose replies it has taken, each before it made the next, and each of these replies shows its tier at a moment
between the making of the call and the taking of the reply.  A `get` that returned a value has asked the
tiers in their order, has found every faster one without the key and then the value in the next, and
afterwards has written it to each of the faster ones by a `set` that has returned, `Ok` or an error; one that
returned none has found every tier without the key; a write that returned `Ok` has stored its value in every
tier, or removed the key from it, in their order; an error is that of the slowest tier that refused; an
`exists` has found a live entry, or in every tier none or one that had expired when the reply was taken. -/
theorem operation_shows {s₁ s₂ : CacheSystem K V P n} {op op' : CacheOp K V}
    {es : List (CacheLabel K V n)} {reply : Outcome (Reply V)} {pending : Option Nat}
    (hrun : Run Steps (s₁.begin op) es s₂)
    (hret : s₂.tasks[s₁.tasks.length]? = some ⟨op', .returned reply, pending⟩) :
    ∃ log, Answered s₁.tasks.length (s₁.begin op) es s₂ log ∧ op.Reports s₁.tiers log reply := by
  have htells : ∃ task, s₂.tasks[s₁.tasks.length]? = some task ∧
      Tells s₁.tasks.length (s₁.begin op) op es s₂ task ∧ s₂.tiers = s₁.tiers := by
    clear hret
    induction hrun with
    | nil =>
      exact ⟨⟨op, op.loop, none⟩, by simp [begin],
        ⟨rfl, Loop.fits_loop op, [], Loop.knows_loop op _, .nil⟩, rfl⟩
    | snoc hrun hstep ih =>
      obtain ⟨task, hc, htells, htiers⟩ := ih
      obtain ⟨task', hc', htells'⟩ := tells_step hc htells hstep
      exact ⟨task', hc', htells', (tiers_step hstep).trans htiers⟩
  obtain ⟨task, hc, ⟨-, -, log, hknows, hpending⟩, htiers⟩ := htells
  rw [hret] at hc
  cases hc
  rw [htiers] at hknows
  split at hpending
  · exact ⟨log, hpending, hknows⟩
  · -- a task that has returned waits for nothing
    obtain ⟨m, call, hreq, -⟩ := hpending
    cases hreq

/-- The faster one of two caches. -/
def upperTier : Fin 2 := ⟨0, Nat.zero_lt_two⟩

/-- The slower one. -/
def lowerTier : Fin 2 := ⟨1, Nat.one_lt_two⟩

/-- Two caches with room for one entry each, one above the other. -/
def slotPair : CacheSystem UInt64 UInt64 (LRU UInt64) 2 :=
  fresh (fun _ => .withPolicy 16 (LRU.new _ 1024 (Nat.succ_pos (nat_lit 1023))) (Nat.succ_pos (nat_lit 15)))
    [upperTier, lowerTier]

/-- A `get` misses in the faster tier; someone else writes the key to the slower one; the `get` finds it
there and promotes it. -/
def foundBelow : List (CacheLabel UInt64 UInt64 2) :=
  .issue 0 :: List.replicate 3 (.run upperTier 0 (.id _)) ++ .resume 0 ::
    .call lowerTier (.set 1 10 none) :: List.replicate 8 (.run lowerTier 0 (.id _)) ++
    .issue 0 :: List.replicate 6 (.run lowerTier 1 (.id _)) ++
    .resume 0 :: .issue 0 :: List.replicate 8 (.run upperTier 1 (.id _)) ++ [.resume 0, .issue 0]

/-- The state in which the `get` has returned. -/
def promotedUp : CacheSystem UInt64 UInt64 (LRU UInt64) 2 :=
  (play step (slotPair.begin (.get 1)) foundBelow).get (by decide)

theorem operation_shows_found :
    ∃ log, Answered 0 (slotPair.begin (.get 1)) foundBelow promotedUp log ∧
      (CacheOp.get 1).Reports slotPair.tiers log (.ok (.value (some 10))) := by
  have hrun : Run Steps (slotPair.begin (.get 1)) foundBelow promotedUp :=
    Run.of_play (Option.some_get _).symm
  have hret : promotedUp.tasks[slotPair.tasks.length]? =
      some ⟨.get 1, .returned (.ok (.value (some 10))), none⟩ := by rfl
  exact operation_shows hrun hret

end CacheSystem

end CacheLayer
