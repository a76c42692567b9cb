import CacheLayer.LostUpdate

/-!
# What the reply of a concurrent call says

A call reads the cache in one step and replies in a later one; in between, and between its own accesses,
other calls may do anything.  Still every reply describes the cache at one moment of the call.

* `Op.Shows` — what a reply says about a moment of the call;
* `Thread.Saw`, `Thread.saw_step` — what the place a call has reached says, and that each step keeps it
  or is itself such a moment;
* `reply_of_moment` — so every call that has returned shows a moment between its start and its return;
* `value_of_set` — and no call makes up a value: what a `get` returns was passed to a `set` of that key.
-/

set_option autoImplicit false

namespace CacheLayer

variable {K V P : Type} [DecidableEq K] [EvictionPolicy K P] [RustSized K] [RustSized V]

/-! ## Replies -/

/-- What a reply says about the state `m`, at a moment of a call made at `start` that is in flight until
`finish`.  A `set` that has panicked says nothing. -/
def Op.Shows (start finish : Instant) (m : MemorySystem K V P) : Op K V → Outcome (Reply V) → Prop
  | .get key, .ok (.value value) => (m.cache.content key).map Prod.fst = value
  | .set key value ttl, .ok .unit =>
    ∃ t, start ≤ t ∧ t ≤ m.clock ∧ m.cache.content key = some (value, ttl.map (t + ·))
  | .set _ _ _, .err e => e = m.cache.capacityExceeded (entrySize K V)
  | .set _ _ _, .panic _ => True
  | .delete key, .ok .unit => m.cache.content key = none
  | .delete key, .panic _ => m.cache.content key = none
  | .exists key, .ok (.flag true) => m.cache.HoldsLive m.clock key
  | .exists key, .ok (.flag false) =>
    ∀ value expiresAt, m.cache.content key = some (value, expiresAt) →
      ∃ expires ∈ expiresAt, expires < finish
  | .clear, .ok .unit => m.cache.entries = ∅
  | _, _ => False

omit [EvictionPolicy K P] in
/-- An entry that has expired by an earlier instant has expired by a later one. -/
theorem Op.Shows.mono {start now later : Instant} (hle : now ≤ later) {m : MemorySystem K V P}
    {op : Op K V} {reply : Outcome (Reply V)} (h : op.Shows start now m reply) :
    op.Shows start later m reply := by
  unfold Op.Shows at h ⊢
  split at h <;> try exact h
  intro value expiresAt hc
  obtain ⟨expires, hexp, hlt⟩ := h value expiresAt hc
  exact ⟨expires, hexp, Nat.lt_of_lt_of_le hlt hle⟩

namespace Thread

/-- What the place a call has reached says about the state `m`. -/
def Saw (start now : Instant) (m : MemorySystem K V P) : Thread K V → Prop
  | .get key (.access value) => (Op.get key).Shows start now m (.ok (.value (some value)))
  | .get key (.touch value) => (Op.get key).Shows start now m (.ok (.value (some value)))
  | .get key (.stamp value) => (Op.get key).Shows start now m (.ok (.value (some value)))
  | .get key (.hit value) => (Op.get key).Shows start now m (.ok (.value (some value)))
  | .get key .miss => (Op.get key).Shows (V := V) start now m (.ok (.value none))
  | .set _ _ ttl _ (.stamp expiresAt) => ∃ t, start ≤ t ∧ t ≤ m.clock ∧ expiresAt = ttl.map (t + ·)
  | .set _ value ttl _ (.insert cached) =>
    cached.value = value ∧ ∃ t, start ≤ t ∧ t ≤ m.clock ∧ cached.expiresAt = ttl.map (t + ·)
  | .set key value ttl _ (.credit _) => (Op.set key value ttl).Shows start now m (.ok .unit)
  | .set key value ttl _ (.count _ _) => (Op.set key value ttl).Shows start now m (.ok .unit)
  | .set key value ttl _ (.record _) => (Op.set key value ttl).Shows start now m (.ok .unit)
  | .delete key (some _) => m.cache.content key = none
  | .exists key (some expires) => ∃ value, m.cache.content key = some (value, some expires)
  | .clear true => m.cache.entries = ∅
  | .returned op _ reply => op.Shows start now m reply
  | _ => True

omit [EvictionPolicy K P] in
theorem Saw.mono {start now later : Instant} (hle : now ≤ later) {m : MemorySystem K V P}
    {th : Thread K V} (h : th.Saw start now m) : th.Saw start later m := by
  unfold Saw at h ⊢
  split at h <;> first | exact h | exact h.mono hle

omit [EvictionPolicy K P] [RustSized K] [RustSized V] in
theorem content_of_lookup {c : MemoryCache K V P} {key : K} {e : CachedValue V}
    (h : c.entries.lookup key = some e) : c.content key = some (e.value, e.expiresAt) := by
  simp [MemoryCache.content, h]

omit [EvictionPolicy K P] [RustSized K] [RustSized V] in
theorem content_of_absent {c : MemoryCache K V P} {key : K} (h : c.entries.lookup key = none) :
    c.content key = none := by
  simp [MemoryCache.content, h]

omit [EvictionPolicy K P] [RustSized K] [RustSized V] in
theorem content_erased (c : MemoryCache K V P) (key : K) : (c.removeEntry key).content key = none := by
  simp [MemoryCache.content, MemoryCache.removeEntry]

section Steps

variable {start : Instant} {s m : MemorySystem K V P} {order : HashOrder K} {i : Nat}

/-- A step of a `get`. -/
theorem saw_getStep {key : K} {phase : GetPhase V} (h : (Thread.get key phase).Saw start s.clock m) :
    (getStep s.cache s.clock key phase).2.Saw start s.clock m ∨
      (getStep s.cache s.clock key phase).2.Saw start s.clock
        (s.advance i (getStep s.cache s.clock key phase)) := by
  cases phase with
  | read =>
    -- the moment of a hit, and of a miss that has found nothing
    refine Or.inr ?_
    cases hl : s.cache.entries.lookup key with
    | none => simp [getStep, hl, Saw, Op.Shows, MemorySystem.advance, content_of_absent hl]
    | some e => simp [getStep, hl, Saw, Op.Shows, MemorySystem.advance, content_of_lookup hl]
  | remove =>
    -- the moment of a miss that has removed the entry
    refine Or.inr ?_
    simp [getStep, Saw, Op.Shows, MemorySystem.advance, content_erased]
  | lookup =>
    refine Or.inl ?_
    simp only [getStep]
    split <;> trivial
  | clock expires =>
    refine Or.inl ?_
    simp only [getStep]
    split <;> trivial
  | touch value =>
    refine Or.inl ?_
    simp only [getStep]
    split <;> exact h
  | access value => exact Or.inl h
  | stamp value => exact Or.inl h
  | hit value => exact Or.inl h
  | miss => exact Or.inl h

/-- A step of a `set`. -/
theorem saw_setStep {key : K} {value : V} {ttl : Option Duration} {oldSize : Option Nat}
    {phase : SetPhase K V} (hlo : start ≤ m.clock) (hhi : m.clock ≤ s.clock)
    (h : (Thread.set key value ttl oldSize phase).Saw start s.clock m) :
    (setStep s.cache s.clock order key value ttl oldSize phase).2.Saw start s.clock m ∨
      (setStep s.cache s.clock order key value ttl oldSize phase).2.Saw start s.clock
        (s.advance i (setStep s.cache s.clock order key value ttl oldSize phase)) := by
  cases phase with
  | fail =>
    refine Or.inr ?_
    simp [setStep, Saw, Op.Shows, MemorySystem.advance]
  | expiry =>
    -- the reading of the clock from which the time-to-live counts
    refine Or.inr ?_
    by_cases hr : Representable s.clock ttl
    · simp only [setStep, expiryOf_of_representable hr]
      exact ⟨s.clock, Nat.le_trans hlo hhi, Nat.le_refl _, rfl⟩
    · simp only [setStep, expiryOf_eq_none.2 hr]
      trivial
  | stamp expiresAt => exact Or.inl ⟨rfl, h⟩
  | insert cached =>
    -- the moment of a `set`
    obtain ⟨rfl, t, hst, htm, hexp⟩ := h
    refine Or.inr ⟨t, hst, Nat.le_trans htm hhi, ?_⟩
    show (s.cache.insertEntry key cached).content key = _
    rw [MemoryCache.content_insertEntry_self, hexp]
  | credit cached => exact Or.inl h
  | count cached finalSize => exact Or.inl h
  | record cached => exact Or.inl h
  | remove =>
    refine Or.inl ?_
    simp only [setStep]
    split <;> trivial
  | check =>
    refine Or.inl ?_
    simp only [setStep]
    split <;> trivial
  | evict =>
    refine Or.inl ?_
    simp only [setStep]
    split <;> trivial
  | drop victim =>
    refine Or.inl ?_
    simp only [setStep]
    split <;> trivial
  | release n =>
    refine Or.inl ?_
    simp only [setStep]
    split <;> trivial
  | debit n => exact Or.inl trivial

omit [EvictionPolicy K P] in
/-- A step of a `delete`. -/
theorem saw_deleteStep {key : K} {removed : Option Nat}
    (h : (Thread.delete (V := V) key removed).Saw start s.clock m) :
    (deleteStep s.cache key removed).2.Saw start s.clock m ∨
      (deleteStep s.cache key removed).2.Saw start s.clock
        (s.advance i (deleteStep s.cache key removed)) := by
  cases removed with
  | none =>
    refine Or.inr ?_
    cases hl : s.cache.entries.lookup key with
    | none => simp [deleteStep, hl, Saw, Op.Shows, MemorySystem.advance, content_of_absent hl]
    | some e => simp [deleteStep, hl, Saw, MemorySystem.advance, content_erased]
  | some n =>
    refine Or.inl ?_
    simp only [deleteStep]
    split <;> exact h

omit [EvictionPolicy K P] in
/-- A step of an `exists`: what it finds is judged by a later reading of the clock. -/
theorem saw_existsStep {key : K} {found : Option Instant} (hhi : m.clock ≤ s.clock)
    (h : (Thread.exists (V := V) key found).Saw start s.clock m) :
    (existsStep s.cache s.clock key found).2.Saw start s.clock m ∨
      (existsStep s.cache s.clock key found).2.Saw start s.clock
        (s.advance i (existsStep s.cache s.clock key found)) := by
  cases found with
  | none =>
    refine Or.inr ?_
    cases hl : s.cache.entries.lookup key with
    | none => simp [existsStep, hl, Saw, Op.Shows, MemorySystem.advance, content_of_absent hl]
    | some e =>
      cases hexp : e.expiresAt with
      | none =>
        refine show (existsStep s.cache s.clock key none).2.Saw start s.clock _ from ?_
        simp only [existsStep, hl, hexp, Saw, Op.Shows, MemorySystem.advance]
        exact ⟨e, hl, by simp [CachedValue.isExpired, hexp]⟩
      | some expires =>
        simp [existsStep, hl, hexp, Saw, MemorySystem.advance, content_of_lookup hl]
  | some expires =>
    obtain ⟨value, hc⟩ := h
    refine Or.inl ?_
    by_cases hlt : s.clock > expires
    · simp only [existsStep, hlt, decide_true, Bool.not_true, Saw, Op.Shows]
      intro v e hc'
      rw [hc] at hc'
      cases hc'
      exact ⟨expires, rfl, hlt⟩
    · simp only [existsStep, hlt, decide_false, Bool.not_false, Saw, Op.Shows]
      obtain ⟨e, hl, -, hexp⟩ := MemoryCache.exists_of_content hc
      refine ⟨e, hl, CachedValue.not_isExpired_iff.2 fun expires' he' => ?_⟩
      rw [hexp] at he'
      cases he'
      exact Nat.le_trans hhi (Nat.le_of_not_lt hlt)

/-- **A step of a call keeps the moment it has found, or is such a moment.** -/
theorem saw_step {th : Thread K V} {r : MemoryCache K V P × Thread K V} (hlo : start ≤ m.clock)
    (hhi : m.clock ≤ s.clock) (hr : th.step s.cache s.clock order = some r)
    (h : th.Saw start s.clock m) :
    r.2.Saw start s.clock m ∨ r.2.Saw start s.clock (s.advance i r) := by
  cases th with
  | get key phase =>
    cases hr
    exact saw_getStep h
  | set key value ttl oldSize phase =>
    cases hr
    exact saw_setStep hlo hhi h
  | delete key removed =>
    cases hr
    exact saw_deleteStep h
  | «exists» key found =>
    cases hr
    exact saw_existsStep hhi h
  | clear emptied =>
    cases hr
    cases emptied with
    | false => exact Or.inr rfl
    | true => exact Or.inl h
  | returned op inserted reply => cases hr

end Steps

omit [EvictionPolicy K P] in
/-- A call that has not begun says nothing. -/
theorem saw_start (start now : Instant) (m : MemorySystem K V P) (op : Op K V) :
    (Thread.start op).Saw start now m := by
  cases op <;> trivial

end Thread

/-! ## Every reply shows a moment of its call -/

namespace MemorySystem

/-- The clock does not go back. -/
theorem clock_le {s t : MemorySystem K V P} {es : List (MemoryLabel K V)} (h : Run Steps s es t) :
    s.clock ≤ t.clock :=
  h.invariant (fun t => s.clock ≤ t.clock) (Nat.le_refl _) fun u l t hu hstep => by
    obtain ⟨op, rfl, rfl⟩ | ⟨i, order, th, r, rfl, hi, hr, rfl⟩ | ⟨now, rfl, hle, rfl⟩ :=
      step_cases hstep
    · exact hu
    · exact hu
    · exact Nat.le_trans hu hle

/-- At every point of a run a call has passed a moment that fits the place it has reached. -/
theorem saw_of_run {s₁ s : MemorySystem K V P} {op : Op K V} {es : List (MemoryLabel K V)}
    (hrun : Run Steps (s₁.invoke op) es s) :
    ∃ th, s.threads[s₁.threads.length]? = some th ∧ th.op = op ∧
      Run.Passes Steps (fun m => th.Saw s₁.clock s.clock m) (s₁.invoke op) es s := by
  induction hrun with
  | nil =>
    exact ⟨.start op, by simp [invoke], Thread.op_start op,
      .last .nil (Thread.saw_start _ _ _ op)⟩
  | @snoc es s l t hrun hstep ih =>
    obtain ⟨th, hth, hop, hseen⟩ := ih
    have hseen' := hseen.snoc hstep
    obtain ⟨op', rfl, rfl⟩ | ⟨i, order, th', r, rfl, hi, hr, rfl⟩ | ⟨now, rfl, hle, rfl⟩ :=
      step_cases hstep
    · exact ⟨th, invoke_get hth, hop, hseen'⟩
    · by_cases hself : i = s₁.threads.length
      · subst hself
        rw [hth] at hi
        cases hi
        refine ⟨r.2, advance_get_self hth, (Thread.step_op hr).trans hop, ?_⟩
        -- the step keeps the moment that has been passed, or the new state is the moment
        obtain ⟨es₁, es₂, m, hes, h₁, h₂, hsaw⟩ := hseen
        rcases Thread.saw_step (i := s₁.threads.length) (clock_le h₁) (clock_le h₂) hr hsaw with
          hold | hnew
        · exact ⟨es₁, es₂ ++ [_], m, by rw [hes, List.append_assoc], h₁, h₂.snoc hstep, hold⟩
        · exact .last (hrun.snoc hstep) hnew
      · exact ⟨th, (advance_get_ne hself).trans hth, hop, hseen'⟩
    · exact ⟨th, hth, hop, hseen'.imp fun _ _ _ _ _ hsaw => hsaw.mono hle⟩

/-- **Every reply describes the cache at a moment of its call.**  A call is made in any state, with any
calls in flight, and any calls run beside it.  When it has returned, the run has passed a moment since
the call was made at which: the key held the value that `get` returned, or was absent if it returned
none; the key held the value that `set` was given, with a time-to-live that counts from an instant of
the call, or the capacity and the size were those that its error names; the key was absent for
`delete`, and the map empty for `clear`; the key was live if `exists` said so, and otherwise absent or
with an entry that has expired since. -/
theorem reply_of_moment {s₁ s₂ : MemorySystem K V P} {op : Op K V} {es : List (MemoryLabel K V)}
    {op' : Op K V} {inserted : Option (CachedValue V)} {reply : Outcome (Reply V)}
    (hrun : Run Steps (s₁.invoke op) es s₂)
    (hret : s₂.threads[s₁.threads.length]? = some (.returned op' inserted reply)) :
    ∃ es₁ es₂ m, es = es₁ ++ es₂ ∧ Run Steps (s₁.invoke op) es₁ m ∧ Run Steps m es₂ s₂ ∧
      op.Shows s₁.clock s₂.clock m reply := by
  obtain ⟨th, hth, rfl, hseen⟩ := saw_of_run hrun
  rw [hret] at hth
  cases hth
  exact hseen

/-- A `set` of key 1 that has found room but has not stored its entry. -/
def setBegins : MemorySystem UInt64 UInt64 (LRU UInt64) :=
  (afterLabels (.invoke (.set 1 10 none) :: runs 0 4 (.id _))).get (by decide)

/-- The `get` looks for the key, the `set` stores it and returns, then the `get` reads. -/
def setOvertakes : List (MemoryLabel UInt64 UInt64) :=
  runs 1 1 (.id _) ++ runs 0 4 (.id _) ++ runs 1 5 (.id _)

/-- The state in which both have returned. -/
def getOvertaken : MemorySystem UInt64 UInt64 (LRU UInt64) :=
  (play MemorySystem.step (setBegins.invoke (.get 1)) setOvertakes).get (by decide)

theorem reply_of_moment_overtaken :
    ∃ es₁ es₂ m, setOvertakes = es₁ ++ es₂ ∧ Run Steps (setBegins.invoke (.get 1)) es₁ m ∧
      Run Steps m es₂ getOvertaken ∧
      (Op.get 1).Shows setBegins.clock getOvertaken.clock m (.ok (.value (some 10))) := by
  have hrun : Run Steps (setBegins.invoke (.get 1)) setOvertakes getOvertaken :=
    Run.of_play (Option.some_get _).symm
  have hret : getOvertaken.threads[setBegins.threads.length]? =
      some (.returned (.get 1) none (.ok (.value (some 10)))) := by decide
  exact reply_of_moment hrun hret

end MemorySystem

/-! ## Where values come from -/

namespace Thread

variable {c : MemoryCache K V P} {now : Instant} {order : HashOrder K} {th : Thread K V}
  {r : MemoryCache K V P × Thread K V}

omit [EvictionPolicy K P] [RustSized K] [RustSized V] in
/-- `entries.remove(key)` leaves nothing of the key, whether there was an entry or not. -/
theorem content_taken {α : Type} (c : MemoryCache K V P) (key : K) (found : CachedValue V → α)
    (absent : α) :
    (match c.entries.lookup key with
      | some e => (c.removeEntry key, found e)
      | none => (c, absent)).1.content key = none := by
  split
  · exact content_erased c key
  · rename_i hl
    exact content_of_absent hl

/-- **What a step can make of a key**: it leaves what the cache holds of it, removes it, or inserts the
entry of a `set`. -/
theorem step_content_cases (key : K) (h : th.step c now order = some r) :
    r.1.content key = c.content key ∨ r.1.content key = none ∨
      ∃ value ttl oldSize cached, th = .set key value ttl oldSize (.insert cached) ∧
        r.1.content key = some (cached.value, cached.expiresAt) := by
  rcases step_content key h with hsame | hget | hdrop | hwrites
  · exact Or.inl hsame
  · cases th with
    | get k phase =>
      cases h
      cases phase with
      | remove =>
        cases hget
        exact Or.inr (Or.inl (content_erased c key))
      | _ => cases hget
    | _ => cases hget
  · cases th with
    | set k value ttl oldSize phase =>
      cases h
      cases phase with
      | drop victim =>
        cases hdrop
        exact Or.inr (Or.inl (content_taken c key _ _))
      | _ => cases hdrop
    | _ => cases hdrop
  · cases th with
    | set k value ttl oldSize phase =>
      obtain rfl : k = key := hwrites
      cases h
      cases phase with
      | remove => exact Or.inr (Or.inl (content_taken c k _ _))
      | insert cached =>
        exact Or.inr (Or.inr ⟨value, ttl, oldSize, cached, rfl,
          MemoryCache.content_insertEntry_self cached⟩)
      | drop victim =>
        simp only [setStep]
        split
        · by_cases hv : victim = k
          · subst hv
            exact Or.inr (Or.inl (content_erased c victim))
          · exact Or.inl (MemoryCache.content_removeEntry hv)
        · exact Or.inl rfl
      | release n =>
        refine Or.inl ?_
        simp only [setStep]
        split
        all_goals rename_i heq; exact MemoryCache.content_releaseEntry (c := c.countEviction) heq
      | _ =>
        refine Or.inl (MemoryCache.content_congr ?_)
        simp only [setStep] <;> first | rfl | (split <;> rfl)
    | delete k removed =>
      obtain rfl : k = key := hwrites
      cases h
      cases removed with
      | none => exact Or.inr (Or.inl (content_taken c k _ _))
      | some n =>
        refine Or.inl ?_
        simp only [deleteStep]
        split
        all_goals rename_i heq; exact MemoryCache.content_releaseEntry heq
    | clear emptied =>
      cases h
      cases emptied with
      | false => exact Or.inr (Or.inl rfl)
      | true => exact Or.inl rfl
    | returned op inserted reply => cases h
    | _ => cases hwrites

end Thread

namespace MemorySystem

/-- One of the calls passes `value` to a `set` of `key`. -/
def SetBy (s : MemorySystem K V P) (key : K) (value : V) : Prop :=
  ∃ th ∈ s.threads, ∃ ttl, th.op = .set key value ttl

/-- Every `set` carries its own value, and what is resident was passed to a `set` of its key. -/
structure Sourced (s : MemorySystem K V P) : Prop where
  carried : ∀ th ∈ s.threads, ∀ key value ttl, th.op = .set key value ttl → th.Carries value
  resident : ∀ key value expiresAt, s.cache.content key = some (value, expiresAt) → s.SetBy key value

omit [EvictionPolicy K P] [RustSized K] [RustSized V] in
theorem sourced_fresh (cap : Nat) (policy : P) (hcap : 0 < cap) :
    Sourced (fresh cap policy hcap : MemorySystem K V P) :=
  ⟨fun _ hth => (by cases hth), fun _ _ _ hc => (by cases hc)⟩

/-- A call stays on the list of calls. -/
theorem SetBy.step {s t : MemorySystem K V P} {l : MemoryLabel K V} {key : K} {value : V}
    (h : s.SetBy key value) (hstep : Steps s l t) : t.SetBy key value := by
  obtain ⟨th, hth, ttl, hop⟩ := h
  obtain ⟨op, rfl, rfl⟩ | ⟨i, order, th', r, rfl, hi, hr, rfl⟩ | ⟨now, rfl, hle, rfl⟩ :=
    step_cases hstep
  · exact ⟨th, List.mem_append_left _ hth, ttl, hop⟩
  · obtain ⟨j, hj⟩ := List.getElem?_of_mem hth
    by_cases hij : i = j
    · subst hij
      rw [hi] at hj
      cases hj
      exact ⟨r.2, List.mem_of_getElem? (advance_get_self hi), ttl, (Thread.step_op hr).trans hop⟩
    · exact ⟨th, List.mem_of_getElem? ((advance_get_ne hij).trans hj), ttl, hop⟩
  · exact ⟨th, hth, ttl, hop⟩

theorem SetBy.run {s t : MemorySystem K V P} {es : List (MemoryLabel K V)} {key : K} {value : V}
    (h : s.SetBy key value) (hrun : Run Steps s es t) : t.SetBy key value :=
  hrun.invariant (fun t => t.SetBy key value) h fun _ _ _ h hstep => h.step hstep

theorem sourced_step {s t : MemorySystem K V P} {l : MemoryLabel K V} (h : Sourced s)
    (hstep : Steps s l t) : Sourced t := by
  have hkept := fun key value (hset : s.SetBy key value) => hset.step hstep
  obtain ⟨op, rfl, rfl⟩ | ⟨i, order, th, r, rfl, hi, hr, rfl⟩ | ⟨now, rfl, hle, rfl⟩ :=
    step_cases hstep
  · refine ⟨fun th hth key value ttl hop => ?_, fun key value e hc => hkept _ _ (h.resident _ _ e hc)⟩
    rcases List.mem_append.1 hth with hth | hth
    · exact h.carried th hth key value ttl hop
    · rw [List.mem_singleton.1 hth]
      cases op <;> trivial
  · have hmem := List.mem_of_getElem? hi
    refine ⟨fun th' hth' key value ttl hop => ?_, fun key value e hc => ?_⟩
    · rcases mem_advance hth' with hth' | rfl
      · exact h.carried th' hth' key value ttl hop
      · have hop' := (Thread.step_op hr).symm.trans hop
        exact Thread.step_carries hr hop' (h.carried th hmem key value ttl hop')
    · replace hc : r.1.content key = some (value, e) := hc
      rcases Thread.step_content_cases key hr with hsame | hgone | ⟨v, ttl, old, cached, rfl, hnew⟩
      · rw [hsame] at hc
        exact hkept _ _ (h.resident key value e hc)
      · rw [hgone] at hc
        cases hc
      · -- the entry that the `set` has carried to its insertion
        rw [hnew] at hc
        cases hc
        have hv : cached.value = v := h.carried _ hmem key v ttl rfl
        rw [hv]
        exact hkept key v ⟨_, hmem, ttl, rfl⟩
  · exact ⟨h.carried, fun key value e hc => hkept _ _ (h.resident _ _ e hc)⟩

/-- **No call makes up a value.**  However calls interleave on a fresh cache, what is resident under a
key was passed to a `set` of that key. -/
theorem sourced_of_run {cap : Nat} {policy : P} {hcap : 0 < cap} {es : List (MemoryLabel K V)}
    {s : MemorySystem K V P} (hrun : Run Steps (fresh cap policy hcap) es s) : Sourced s :=
  hrun.invariant Sourced (sourced_fresh cap policy hcap) fun _ _ _ h hstep => sourced_step h hstep

/-- The moment at which a call was made. -/
theorem invoked_of_run {s₀ s : MemorySystem K V P} {es : List (MemoryLabel K V)}
    (h₀ : s₀.threads = []) (hrun : Run Steps s₀ es s) {i : Nat} {th : Thread K V}
    (hi : s.threads[i]? = some th) :
    ∃ es₁ es₂ s₁, es = es₁ ++ .invoke th.op :: es₂ ∧ Run Steps s₀ es₁ s₁ ∧
      s₁.threads.length = i ∧ Run Steps (s₁.invoke th.op) es₂ s := by
  induction hrun generalizing th with
  | nil => simp [h₀] at hi
  | @snoc es s l t hrun hstep ih =>
    -- the call was on the list before the last step, or is made by it
    have hback : ∀ th₀, s.threads[i]? = some th₀ → th₀.op = th.op →
        ∃ es₁ es₂ s₁, es ++ [l] = es₁ ++ .invoke th.op :: es₂ ∧ Run Steps s₀ es₁ s₁ ∧
          s₁.threads.length = i ∧ Run Steps (s₁.invoke th.op) es₂ t := by
      intro th₀ hi₀ hop
      obtain ⟨es₁, es₂, s₁, rfl, h₁, hlen, h₂⟩ := ih hi₀
      rw [hop] at h₂
      exact ⟨es₁, es₂ ++ [l], s₁, by simp [hop], h₁, hlen, h₂.snoc hstep⟩
    obtain ⟨op, rfl, rfl⟩ | ⟨j, order, th', r, rfl, hj, hr, rfl⟩ | ⟨now, rfl, hle, rfl⟩ :=
      step_cases hstep
    · rcases get_of_invoke hi with hi | ⟨hlen, rfl⟩
      · exact hback th hi rfl
      · rw [Thread.op_start]
        exact ⟨es, [], s, rfl, hrun, hlen.symm, .nil⟩
    · by_cases hij : j = i
      · subst hij
        rw [advance_get_self hj] at hi
        cases hi
        exact hback th' hj (Thread.step_op hr).symm
      · rw [advance_get_ne hij] at hi
        exact hback th hi rfl
    · exact hback th hi rfl

/-- **What a `get` returns was passed to a `set` of its key**, however the calls interleave. -/
theorem value_of_set {cap : Nat} {policy : P} {hcap : 0 < cap} {es : List (MemoryLabel K V)}
    {s : MemorySystem K V P} (hrun : Run Steps (fresh cap policy hcap) es s) {i : Nat} {key : K}
    {inserted : Option (CachedValue V)} {value : V}
    (hi : s.threads[i]? = some (.returned (.get key) inserted (.ok (.value (some value))))) :
    s.SetBy key value := by
  obtain ⟨es₁, es₂, s₁, rfl, h₁, rfl, h₂⟩ := invoked_of_run rfl hrun hi
  obtain ⟨th, hth, -, fs₁, fs₂, m, -, hm, hms, hshow⟩ := saw_of_run h₂
  rw [hi] at hth
  cases hth
  obtain ⟨⟨v, e⟩, hc, rfl⟩ := Option.map_eq_some_iff.1
    (show (m.cache.content key).map Prod.fst = some value from hshow)
  have hinvoke : Steps s₁ (.invoke (.get key)) (s₁.invoke (.get key)) := rfl
  have hsrc := sourced_of_run ((h₁.snoc hinvoke).append hm)
  exact (hsrc.resident key v e hc).run hms

end MemorySystem

end CacheLayer
