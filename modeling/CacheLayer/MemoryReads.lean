import CacheLayer.MemoryReplies

/-!
# Concurrent reads of a `MemoryCache`

A `get` looks at the expiry of one entry and returns the value of the entry that is there two steps
later.  Where no `set` of the key inserts in between, that is the same entry.

* `Fresh`, `fresh_step` — what such a `get` knows at each place;
* `get_live_unless_set` — so what it returns was live when it was called, and if it returns none the key
  is gone; the example after it is a `set` that does insert in between.
-/

set_option autoImplicit false

namespace CacheLayer

variable {K V P : Type}

/-! ## Expiry -/

/-- The key under which the thread is about to insert its entry. -/
def Thread.insertsAt : Thread K V → Option K
  | .set key _ _ _ (.insert _) => some key
  | _ => none

namespace MemorySystem

/-- No thread inserts an entry under `key`. -/
def Uninserted (key : K) (s : MemorySystem K V P) : MemoryLabel K V → Prop
  | .run i _ => ∀ th ∈ s.threads[i]?, th.insertsAt ≠ some key
  | .invoke _ => True
  | .tick _ => True

instance [DecidableEq K] (key : K) (s : MemorySystem K V P) :
    (l : MemoryLabel K V) → Decidable (Uninserted key s l)
  | .run i _ => inferInstanceAs (Decidable (∀ th ∈ s.threads[i]?, th.insertsAt ≠ some key))
  | .invoke _ => isTrue trivial
  | .tick _ => isTrue trivial

end MemorySystem

variable [DecidableEq K] [EvictionPolicy K P] [RustSized K] [RustSized V]

/-- The cache holds this value of the key and it has not expired. -/
def MemoryCache.HoldsValue (c : MemoryCache K V P) (now : Instant) (key : K) (value : V) : Prop :=
  ∃ e, c.entries.lookup key = some e ∧ e.value = value ∧ e.isExpired now = false

namespace Thread

/-- What a `get` of `key` knows when nothing has been inserted under the key since it was called in
`s₁`: the entry it is about to judge is the one `s₁` holds, the value it has read was live there, and
if it misses, `c` does not hold the key. -/
def Fresh (s₁ : MemorySystem K V P) (key : K) (c : MemoryCache K V P) : Thread K V → Prop
  | .get _ (.clock expires) => ∃ value, s₁.cache.content key = some (value, some expires)
  | .get _ .read =>
    c.content key = none ∨ ∃ value, s₁.cache.HoldsValue s₁.clock key value
  | .get _ (.access value) => s₁.cache.HoldsValue s₁.clock key value
  | .get _ (.touch value) => s₁.cache.HoldsValue s₁.clock key value
  | .get _ (.stamp value) => s₁.cache.HoldsValue s₁.clock key value
  | .get _ (.hit value) => s₁.cache.HoldsValue s₁.clock key value
  | .get _ .miss => c.content key = none
  | .returned _ _ (.ok (.value (some value))) => s₁.cache.HoldsValue s₁.clock key value
  | .returned _ _ (.ok (.value none)) => c.content key = none
  | _ => True

omit [EvictionPolicy K P] [RustSized K] [RustSized V] in
/-- What a `get` knows lasts while the cache loses the key or keeps it as it is. -/
theorem Fresh.lasts {s₁ : MemorySystem K V P} {key : K} {c c' : MemoryCache K V P} {th : Thread K V}
    (h : th.Fresh s₁ key c) (hc : c'.content key = c.content key ∨ c'.content key = none) :
    th.Fresh s₁ key c' := by
  have hnone : c.content key = none → c'.content key = none := fun hn =>
    hc.elim (fun hsame => hsame.trans hn) id
  unfold Fresh at h ⊢
  split at h <;> first | exact h | exact hnone h | exact h.imp_left hnone

omit [RustSized K] [RustSized V] in
/-- A step of the `get` itself, in a cache that holds what it held at the call, or nothing. -/
theorem fresh_getStep {s₁ : MemorySystem K V P} {c : MemoryCache K V P} {now : Instant} {key : K}
    {phase : GetPhase V} (hle : s₁.clock ≤ now)
    (hold : c.content key = none ∨ c.content key = s₁.cache.content key)
    (h : (Thread.get key phase).Fresh s₁ key c) :
    (getStep c now key phase).2.Fresh s₁ key (getStep c now key phase).1 := by
  cases phase with
  | lookup =>
    cases hl : c.entries.lookup key with
    | none =>
      simp only [getStep, hl, Option.bind_none, Fresh]
      exact Or.inl (content_of_absent hl)
    | some e =>
      have hc := content_of_lookup hl
      have hs : s₁.cache.content key = some (e.value, e.expiresAt) := by
        rcases hold with hn | hsame
        · rw [hc] at hn
          cases hn
        · rw [← hsame, hc]
      cases hexp : e.expiresAt with
      | none =>
        obtain ⟨e₁, hl₁, hv, he⟩ := MemoryCache.exists_of_content hs
        simp only [getStep, hl, Option.bind_some, hexp, Fresh]
        exact Or.inr ⟨e.value, e₁, hl₁, hv, by simp [CachedValue.isExpired, he, hexp]⟩
      | some expires =>
        simp only [getStep, hl, Option.bind_some, hexp, Fresh]
        rw [hexp] at hs
        exact ⟨e.value, hs⟩
  | clock expires =>
    obtain ⟨value, hs⟩ := h
    simp only [getStep]
    split
    · trivial
    · rename_i hlt
      obtain ⟨e₁, hl₁, hv, he⟩ := MemoryCache.exists_of_content hs
      refine Or.inr ⟨value, e₁, hl₁, hv, CachedValue.not_isExpired_iff.2 fun expires' he' => ?_⟩
      rw [he] at he'
      cases he'
      exact Nat.le_trans hle (Nat.le_of_not_lt hlt)
  | remove => exact content_erased c key
  | read =>
    cases hl : c.entries.lookup key with
    | none =>
      simp only [getStep, hl, Fresh]
      exact content_of_absent hl
    | some e =>
      -- the key is still there, so it is the entry that was there at the call
      have hc := content_of_lookup hl
      simp only [getStep, hl, Fresh]
      rcases h with hn | ⟨value, e₁, hl₁, hv, hlive⟩
      · rw [hc] at hn
        cases hn
      · rcases hold with hn | hsame
        · rw [hc] at hn
          cases hn
        · rw [hc, content_of_lookup hl₁] at hsame
          have hval : e.value = e₁.value := congrArg Prod.fst (Option.some.inj hsame)
          exact ⟨e₁, hl₁, hval.symm, hlive⟩
  | access value => exact h
  | touch value =>
    simp only [getStep]
    split <;> exact h
  | stamp value => exact h
  | hit value => exact h
  | miss => exact h

end Thread

namespace MemorySystem

open Thread

/-- A step in which nothing is inserted under `key` keeps what the cache holds of it, or loses it. -/
theorem content_of_uninserted {s t : MemorySystem K V P} {l : MemoryLabel K V} {key : K}
    (hun : Uninserted key s l) (hstep : Steps s l t) :
    t.cache.content key = s.cache.content key ∨ t.cache.content key = none := by
  obtain ⟨op, rfl, rfl⟩ | ⟨i, order, th, r, rfl, hi, hr, rfl⟩ | ⟨now, rfl, hle, rfl⟩ :=
    step_cases hstep
  · exact Or.inl rfl
  · rcases step_content_cases key hr with hsame | hgone | ⟨v, ttl, old, cached, rfl, -⟩
    · exact Or.inl hsame
    · exact Or.inr hgone
    · exact absurd rfl (hun _ hi)
  · exact Or.inl rfl

/-- The invariant of a `get` called in `s₁` beside which nothing is inserted under its key. -/
structure Reading (s₁ : MemorySystem K V P) (key : K) (s : MemorySystem K V P) : Prop where
  clock_le : s₁.clock ≤ s.clock
  kept : s.cache.content key = none ∨ s.cache.content key = s₁.cache.content key
  caller : ∃ th, s.threads[s₁.threads.length]? = some th ∧ th.op = .get key ∧ th.Fresh s₁ key s.cache

omit [EvictionPolicy K P] [RustSized K] [RustSized V] in
theorem reading_start (s₁ : MemorySystem K V P) (key : K) : Reading s₁ key (s₁.invoke (.get key)) :=
  ⟨Nat.le_refl _, Or.inr rfl, .start (.get key), by simp [invoke], rfl, trivial⟩

theorem reading_step {s₁ s t : MemorySystem K V P} {key : K} {l : MemoryLabel K V}
    (h : Reading s₁ key s) (hun : Uninserted key s l) (hstep : Steps s l t) : Reading s₁ key t := by
  have hcontent := content_of_uninserted hun hstep
  have hkept : t.cache.content key = none ∨ t.cache.content key = s₁.cache.content key := by
    rcases hcontent with hsame | hgone
    · rw [hsame]
      exact h.kept
    · exact Or.inl hgone
  have hclock : s₁.clock ≤ t.clock := Nat.le_trans h.clock_le (clock_le (Run.single hstep))
  obtain ⟨th, hth, hop, hfresh⟩ := h.caller
  refine ⟨hclock, hkept, ?_⟩
  obtain ⟨op, rfl, rfl⟩ | ⟨i, order, th', r, rfl, hi, hr, rfl⟩ | ⟨now, rfl, hle, rfl⟩ :=
    step_cases hstep
  · exact ⟨th, invoke_get hth, hop, hfresh⟩
  · by_cases hself : i = s₁.threads.length
    · subst hself
      rw [hth] at hi
      cases hi
      refine ⟨r.2, advance_get_self hth, (step_op hr).trans hop, ?_⟩
      cases th with
      | get k phase =>
        cases hop
        cases hr
        exact fresh_getStep h.clock_le h.kept hfresh
      | returned op inserted reply => cases hr
      | _ => cases hop
    · exact ⟨th, (advance_get_ne hself).trans hth, hop, hfresh.lasts hcontent⟩
  · exact ⟨th, hth, hop, hfresh⟩

/-- **A `get` beside which no `set` of its key inserts is right about expiry.**  It is called in any
state and any calls run beside it.  If it returns a value, then the cache held that value when the `get`
was called and it had not expired; if it returns none, then the key is not resident when it returns. -/
theorem get_live_unless_set {s₁ s₂ : MemorySystem K V P} {key : K} {es : List (MemoryLabel K V)}
    {inserted : Option (CachedValue V)} {value : Option V}
    (hrun : Run (Guarded (Uninserted key) Steps) (s₁.invoke (.get key)) es s₂)
    (hret : s₂.threads[s₁.threads.length]? =
      some (.returned (.get key) inserted (.ok (.value value)))) :
    (∀ v ∈ value, s₁.cache.HoldsValue s₁.clock key v) ∧
      (value = none → key ∉ s₂.cache.entries) := by
  have h : Reading s₁ key s₂ :=
    hrun.invariant _ (reading_start s₁ key) fun _ _ _ h hs => reading_step h hs.1 hs.2
  obtain ⟨th, hth, -, hfresh⟩ := h.caller
  rw [hret] at hth
  cases hth
  cases value with
  | some v =>
    refine ⟨fun v' hv' => ?_, fun hn => by cases hn⟩
    cases hv'
    exact hfresh
  | none =>
    refine ⟨fun v' hv' => (by cases hv'), fun _ => AList.lookup_eq_none.1 ?_⟩
    exact Option.map_eq_none_iff.1 (show s₂.cache.content key = none from hfresh)

/-- The `get` is called while key 1 has an entry in its last instant; a `set` of key 1 is under way. -/
def readBegins : MemorySystem UInt64 UInt64 (LRU UInt64) :=
  (afterLabels (.invoke (.set 1 10 (some 2)) :: runs 0 8 (.id _) ++
    [.tick 2, .invoke (.set 1 20 (some 3))])).get (by decide)

/-- The `get` judges the entry at instant 2 and reads it at instant 9; then the `set` removes it. -/
def readsBeforeRemoval : List (MemoryLabel UInt64 UInt64) :=
  runs 2 2 (.id _) ++ [.tick 9] ++ runs 2 5 (.id _) ++ runs 1 2 (.id _)

/-- Steps in which nothing is inserted under key 1. -/
def uninsertedStep (s : MemorySystem UInt64 UInt64 (LRU UInt64)) (l : MemoryLabel UInt64 UInt64) :
    Option (MemorySystem UInt64 UInt64 (LRU UInt64)) :=
  if Uninserted 1 s l then s.step l else none

/-- The state after these steps. -/
def readLate : MemorySystem UInt64 UInt64 (LRU UInt64) :=
  (play uninsertedStep (readBegins.invoke (.get 1)) readsBeforeRemoval).get (by decide)

theorem get_live_unless_set_late :
    (∀ v ∈ some 10, readBegins.cache.HoldsValue readBegins.clock 1 v) ∧
      (some (10 : UInt64) = none → 1 ∉ readLate.cache.entries) := by
  have hrun : Run (Guarded (Uninserted 1) Steps) (readBegins.invoke (.get 1)) readsBeforeRemoval
      readLate := Run.of_play_guarded (Option.some_get _).symm
  have hret : readLate.threads[readBegins.threads.length]? =
      some (.returned (.get 1) none (.ok (.value (some 10)))) := by decide
  exact get_live_unless_set hrun hret

/-- A `set` of key 1 for one nanosecond has built its entry at instant 0; it is instant 5. -/
def staleInsert : MemorySystem UInt64 UInt64 (LRU UInt64) :=
  (afterLabels (.invoke (.set 1 10 (some 1)) :: runs 0 4 (.id _) ++ [.tick 5])).get (by decide)

/-- A `get` finds nothing to judge; the `set` inserts the entry; the `get` returns its value. -/
def readsStaleInsert : List (MemoryLabel UInt64 UInt64) :=
  runs 1 1 (.id _) ++ runs 0 1 (.id _) ++ runs 1 5 (.id _)

/-- The state after these steps. -/
def staleRead : MemorySystem UInt64 UInt64 (LRU UInt64) :=
  (play MemorySystem.step (staleInsert.invoke (.get 1)) readsStaleInsert).get (by decide)

/-- Beside a `set` a `get` can return a value whose time-to-live was over before it was called. -/
example :
    staleRead.threads[1]? = some (.returned (.get 1) none (.ok (.value (some 10)))) ∧
      staleRead.cache.content 1 = some (10, some 1) ∧ staleInsert.clock = 5 := by
  decide

end MemorySystem

end CacheLayer
