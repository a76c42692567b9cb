import CacheLayer.TaskReplies

/-!
# Where the values of an operation come from

A value travels from the call that passes it in, through the entries of a tier, to a `get`, and from
there, by a promotion, to other tiers and other `get`s.

* `CacheLabel.Sets` — a step in which a value is passed in for a key;
* `Sourced` — every value that is on its way has been;
* `value_of_operation` — so what an operation returns, and what any tier holds, was passed in for its key.
-/

set_option autoImplicit false

namespace CacheLayer

variable {K V P : Type} {n : Nat}

/-- An operation begins, or a tier is called by someone else, with this value for this key. -/
def CacheLabel.Sets (key : K) (value : V) : CacheLabel K V n → Prop
  | .start op => ∃ ttl, op.write = some (.setWithTtl key value ttl)
  | .call _ made => ∃ ttl, made = .set key value ttl
  | _ => False

/-- A `get` promotes what it was promoting, or what the tier has returned. -/
theorem Loop.promoting_of_answer {l : Loop K V} {reply : Outcome (Reply V)} {key : K} {value : V}
    {i m : Nat} (h : l.answer reply = .promoting key value i m) :
    (∃ j, l = .promoting key value j m) ∨
      l = .searching key m ∧ reply = .ok (.value (some value)) := by
  unfold Loop.answer at h
  split at h <;> cases h
  · exact Or.inr ⟨rfl, rfl⟩
  · exact Or.inl ⟨_, rfl⟩

/-- The reply of a tier does not end a `get` with a value. -/
theorem Loop.answer_ne_value {T : Type} {tiers : List T} {l : Loop K V} {reply : Outcome (Reply V)}
    {m : T} {call : Op K V} (hreq : l.request tiers = some (m, call)) (value : V) :
    l.answer reply ≠ .returned (.ok (.value (some value))) := by
  intro h
  unfold Loop.answer at h
  split at h <;> cases h
  cases hreq

/-- A `get` that ends with a value was promoting it. -/
theorem Loop.promoting_of_ended {l : Loop K V} (hret : ¬ l.Returned) {value : V}
    (h : l.ended = .returned (.ok (.value (some value)))) :
    ∃ key i m, l = .promoting key value i m := by
  unfold Loop.ended at h
  split at h <;> cases h
  · exact ⟨_, _, _, rfl⟩
  · exact absurd trivial hret

theorem Loop.ended_ne_promoting (l : Loop K V) (key : K) (value : V) (i m : Nat) :
    l.ended = .promoting key value i m → l.Returned := by
  intro h
  unfold Loop.ended at h
  split at h <;> cases h

namespace CacheSystem

/-- The values on their way to a tier or to a caller all satisfy `W`. -/
structure Sourced (W : K → V → Prop) (s : CacheSystem K V P n) : Prop where
  fitting : Fitting s
  linked : Linked s
  passed : ∀ task ∈ s.tasks, ∀ key value ttl,
    task.op.write = some (.setWithTtl key value ttl) → W key value
  found : ∀ task ∈ s.tasks, ∀ key value i m, task.loop = .promoting key value i m → W key value
  replied : ∀ task ∈ s.tasks, ∀ key value, task.op = .get key →
    task.loop = .returned (.ok (.value (some value))) → W key value
  made : ∀ m, ∀ th ∈ (s.memories m).threads, ∀ key value ttl, th.op = .set key value ttl → W key value

theorem sourced_fresh (W : K → V → Prop) (caches : Fin n → MemoryCache K V P) (tiers : List (Fin n)) :
    Sourced W (fresh caches tiers) where
  fitting := fitting_fresh caches tiers
  linked _ htask := by cases htask
  passed _ htask := by cases htask
  found _ htask := by cases htask
  replied _ htask := by cases htask
  made _ _ hth := by cases hth

variable [DecidableEq K] [EvictionPolicy K P] [RustSized K] [RustSized V]

/-- A call of a tier was there before, or is what the step brings. -/
theorem mem_threads {s t : CacheSystem K V P n} {l : CacheLabel K V n} (h : Steps s l t) {m : Fin n}
    {th : Thread K V} (hth : th ∈ (t.memories m).threads) :
    (∃ th₀ ∈ (s.memories m).threads, th₀.op = th.op) ∨ Brings s l m (.invoke th.op) := by
  rcases memory_step h m with hsame | ⟨f, hf, hbrings⟩
  · exact Or.inl ⟨th, hsame ▸ hth, rfl⟩
  · obtain ⟨op, rfl, ht⟩ | ⟨i, order, th₀, r, rfl, hi, hr, ht⟩ | ⟨now, rfl, -, ht⟩ :=
      MemorySystem.step_cases hf
    all_goals rw [ht] at hth
    · rcases List.mem_append.1 hth with hth | hth
      · exact Or.inl ⟨th, hth, rfl⟩
      · obtain rfl := List.mem_singleton.1 hth
        rw [Thread.op_start]
        exact Or.inr hbrings
    · rcases MemorySystem.mem_advance hth with hth | rfl
      · exact Or.inl ⟨th, hth, rfl⟩
      · exact Or.inl ⟨th₀, List.mem_of_getElem? hi, (Thread.step_op hr).symm⟩
    · exact Or.inl ⟨th, hth, rfl⟩

omit [DecidableEq K] [EvictionPolicy K P] [RustSized K] [RustSized V] in
/-- What a loop requests passes on a value that has been passed in. -/
theorem Sourced.request {W : K → V → Prop} {s : CacheSystem K V P n} (h : Sourced W s) {task : Task K V}
    (htask : task ∈ s.tasks) {m : Fin n} {key : K} {value : V} {ttl : Option Duration}
    (hreq : task.loop.request s.tiers = some (m, .set key value ttl)) : W key value := by
  have hfits := h.fitting task htask
  cases hloop : task.loop with
  | promoting key' value' i found =>
    rw [hloop] at hreq
    obtain ⟨_, -, heq⟩ := Option.map_eq_some_iff.1 hreq
    cases heq
    exact h.found task htask _ _ _ _ hloop
  | writing w i lastError =>
    rw [hloop] at hreq hfits
    obtain ⟨_, -, heq⟩ := Option.map_eq_some_iff.1 hreq
    cases w with
    | setWithTtl key' value' ttl' =>
      cases heq
      exact h.passed task htask _ _ _ hfits
    | delete key' => cases heq
  | searching key' i =>
    rw [hloop] at hreq
    obtain ⟨_, -, heq⟩ := Option.map_eq_some_iff.1 hreq
    cases heq
  | checking key' i =>
    rw [hloop] at hreq
    obtain ⟨_, -, heq⟩ := Option.map_eq_some_iff.1 hreq
    cases heq
  | returned reply =>
    rw [hloop] at hreq
    cases hreq

/-- The calls of the tiers pass on values that have been passed in. -/
theorem Sourced.made_step {W : K → V → Prop} {s t : CacheSystem K V P n} {l : CacheLabel K V n}
    (h : Sourced W s) (hW : ∀ key value, l.Sets key value → W key value) (hstep : Steps s l t)
    (m : Fin n) : ∀ th ∈ (t.memories m).threads, ∀ key value ttl, th.op = .set key value ttl →
      W key value := by
  intro th hth key value ttl hop
  rcases mem_threads hstep hth with ⟨th₀, hth₀, hop₀⟩ | hbrings
  · exact h.made m th₀ hth₀ key value ttl (hop₀.trans hop)
  · rw [hop] at hbrings
    rcases hbrings with rfl | ⟨c, op, loop, hc, hreq⟩
    · exact hW key value ⟨ttl, rfl⟩
    · exact h.request (List.mem_of_getElem? hc) hreq

/-- One task of the system goes on, and its new place holds only values that have been passed in. -/
theorem Sourced.advance {W : K → V → Prop} {s t : CacheSystem K V P n} {l : CacheLabel K V n}
    (h : Sourced W s) (hW : ∀ key value, l.Sets key value → W key value) (hstep : Steps s l t) {c : Nat}
    {task task' : Task K V} (hc : s.tasks[c]? = some task) (ht : t.tasks = s.tasks.set c task')
    (hop : task'.op = task.op)
    (hfound : ∀ key value i m, task'.loop = .promoting key value i m → W key value)
    (hreplied : ∀ key value, task.op = .get key →
      task'.loop = .returned (.ok (.value (some value))) → W key value) : Sourced W t where
  fitting := fitting_step h.fitting hstep
  linked := linked_step h.linked hstep
  made := h.made_step hW hstep
  passed task₀ htask key value ttl hw := by
    rw [ht] at htask
    rcases List.mem_or_eq_of_mem_set htask with htask | rfl
    · exact h.passed task₀ htask key value ttl hw
    · exact h.passed task (List.mem_of_getElem? hc) key value ttl (hop ▸ hw)
  found task₀ htask := by
    rw [ht] at htask
    rcases List.mem_or_eq_of_mem_set htask with htask | rfl
    · exact h.found task₀ htask
    · exact hfound
  replied task₀ htask key value hget := by
    rw [ht] at htask
    rcases List.mem_or_eq_of_mem_set htask with htask | rfl
    · exact h.replied task₀ htask key value hget
    · exact hreplied key value (hop ▸ hget)

/-- No task moves. -/
theorem Sourced.idle {W : K → V → Prop} {s t : CacheSystem K V P n} {l : CacheLabel K V n}
    (h : Sourced W s) (hW : ∀ key value, l.Sets key value → W key value) (hstep : Steps s l t)
    (ht : t.tasks = s.tasks) : Sourced W t where
  fitting := fitting_step h.fitting hstep
  linked := linked_step h.linked hstep
  made := h.made_step hW hstep
  passed := by rw [ht]; exact h.passed
  found := by rw [ht]; exact h.found
  replied := by rw [ht]; exact h.replied

/-- **A step makes up no value**, if the tiers do not. -/
theorem sourced_step {W : K → V → Prop} {s t : CacheSystem K V P n} {l : CacheLabel K V n}
    (h : Sourced W s) (hW : ∀ key value, l.Sets key value → W key value)
    (hgets : ∀ (m : Fin n) (i : Nat) key inserted value, (s.memories m).threads[i]? =
      some (Thread.returned (.get key) inserted (.ok (.value (some value)))) →
        (s.memories m).SetBy key value)
    (hstep : Steps s l t) : Sourced W t := by
  cases takes_of_step hstep with
  | start op =>
    refine ⟨fitting_step h.fitting hstep, linked_step h.linked hstep, ?_, ?_, ?_,
      h.made_step hW hstep⟩
    all_goals
      intro task htask
      rcases List.mem_append.1 htask with htask | htask
    · exact h.passed task htask
    · rw [List.mem_singleton.1 htask]
      exact fun key value ttl hw => hW key value ⟨ttl, hw⟩
    · exact h.found task htask
    · rw [List.mem_singleton.1 htask]
      cases op <;> exact fun _ _ _ _ hl => (by cases hl)
    · exact h.replied task htask
    · rw [List.mem_singleton.1 htask]
      cases op <;> exact fun _ _ _ hl => (by cases hl)
  | @issue c op loop m call hc hreq =>
    have hfound := h.found _ (List.mem_of_getElem? hc)
    have hreplied := h.replied _ (List.mem_of_getElem? hc)
    exact h.advance hW hstep hc rfl rfl hfound hreplied
  | @finish c op loop hc hreq hret =>
    have hfits := h.fitting _ (List.mem_of_getElem? hc)
    refine h.advance hW hstep hc rfl rfl
      (fun key value i m hl => absurd (Loop.ended_ne_promoting loop key value i m hl) hret) ?_
    intro key value hget hl
    obtain ⟨key', i, m, hloop⟩ := Loop.promoting_of_ended hret hl
    subst hloop
    obtain rfl : key' = key := CacheOp.get.inj ((Eq.symm hfits).trans hget)
    exact h.found _ (List.mem_of_getElem? hc) _ _ _ _ rfl
  | @resume c i op loop m call made inserted reply hc hreq hi =>
    have htask := List.mem_of_getElem? hc
    refine h.advance hW hstep hc rfl rfl ?_
      (fun key value _ hl => absurd hl (Loop.answer_ne_value hreq value))
    intro key value j found hl
    rcases Loop.promoting_of_answer hl with ⟨j', rfl⟩ | ⟨rfl, rfl⟩
    · exact h.found _ htask _ _ _ _ rfl
    · -- what a tier has returned was passed to a call of it
      obtain ⟨m', call', th, hreq', hth, hop⟩ := h.linked _ htask i rfl
      obtain ⟨rfl, rfl⟩ := Prod.mk.inj (Option.some.inj (hreq.symm.trans hreq'))
      obtain rfl := Option.some.inj (hth.symm.trans hi)
      obtain ⟨_, -, heq⟩ := Option.map_eq_some_iff.1 hreq
      obtain rfl : made = .get key := hop.trans (Prod.mk.inj heq).2.symm
      obtain ⟨th', hth', ttl, hset⟩ := hgets m i key inserted value hi
      exact h.made m th' hth' key value ttl hset
  | run hmem => exact h.idle hW hstep rfl
  | call m op => exact h.idle hW hstep rfl
  | tick hle => exact h.idle hW hstep rfl

theorem sourced_of_run {W : K → V → Prop} {caches : Fin n → MemoryCache K V P} {tiers : List (Fin n)}
    (hfresh : ∀ m, ∃ cap policy h, caches m = .withPolicy cap policy h) {es : List (CacheLabel K V n)}
    {s : CacheSystem K V P n} (hrun : Run Steps (fresh caches tiers) es s)
    (hW : ∀ l ∈ es, ∀ key value, l.Sets key value → W key value) : Sourced W s := by
  induction hrun with
  | nil => exact sourced_fresh W caches tiers
  | @snoc es s l t hrun hstep ih =>
    have h := ih fun l hl => hW l (List.mem_append_left _ hl)
    refine sourced_step h (hW l (by simp)) (fun m i key inserted value hi => ?_) hstep
    obtain ⟨fs, hfs, -⟩ := tier_calls_run hrun m
    obtain ⟨cap, policy, hcap, hm⟩ := hfresh m
    rw [hm] at hfs
    exact MemorySystem.value_of_set hfs hi

/-- **What an operation returns was passed in for its key.**  Any number of tasks call the methods of a
multi-tier cache of fresh tiers, which may be listed twice and called by others, and the steps of all
calls interleave.  If a `get` has returned a value, this was passed to a `set` or `set_with_ttl` of its
key, or by someone else to a `set` of its key on a tier; and so was whatever a tier holds under a key. -/
theorem value_of_operation {caches : Fin n → MemoryCache K V P} {tiers : List (Fin n)}
    (hfresh : ∀ m, ∃ cap policy h, caches m = .withPolicy cap policy h) {es : List (CacheLabel K V n)}
    {s : CacheSystem K V P n} (hrun : Run Steps (fresh caches tiers) es s) :
    (∀ task ∈ s.tasks, ∀ key value, task.op = .get key →
      task.loop = .returned (.ok (.value (some value))) → ∃ l ∈ es, l.Sets key value) ∧
    ∀ m key e, (s.memories m).cache.entries.lookup key = some e → ∃ l ∈ es, l.Sets key e.value := by
  have h : Sourced (fun key value => ∃ l ∈ es, l.Sets key value) s :=
    sourced_of_run hfresh hrun fun l hl key value hsets => ⟨l, hl, hsets⟩
  refine ⟨h.replied, fun m key e hl => ?_⟩
  obtain ⟨fs, hfs, -⟩ := tier_calls_run hrun m
  obtain ⟨cap, policy, hcap, hm⟩ := hfresh m
  rw [hm] at hfs
  -- what is resident was passed to a call of the tier, and what that passes on was passed in
  obtain ⟨th, hth, ttl, hop⟩ := (MemorySystem.sourced_of_run hfs).resident key e.value e.expiresAt
    (Thread.content_of_lookup hl)
  exact h.made m th hth key e.value ttl hop

theorem value_of_operation_found : ∃ l ∈ .start (.get 1) :: foundBelow, CacheLabel.Sets 1 10 l := by
  have hfresh : ∀ m : Fin 2, ∃ cap policy h, (slotPair.memories m).cache = .withPolicy cap policy h :=
    fun _ => ⟨16, LRU.new _ 1024 (Nat.succ_pos 1023), Nat.succ_pos 15, rfl⟩
  have hstart : Steps slotPair (.start (.get 1)) (slotPair.begin (.get 1)) := rfl
  have hrun : Run Steps (slotPair.begin (.get 1)) foundBelow promotedUp :=
    Run.of_play (Option.some_get _).symm
  have htask : promotedUp.tasks[0]? =
      some ⟨.get 1, .returned (.ok (.value (some 10))), none⟩ := by rfl
  exact (value_of_operation hfresh (Run.cons hstart hrun)).1 _ (List.mem_of_getElem? htask) 1 10 rfl rfl

end CacheSystem

end CacheLayer
