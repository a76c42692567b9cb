import CacheLayer.MemoryRun
import CacheLayer.EvictionSpec

/-!
# The LRU victim

The history of a cache orders its keys by their latest touch, a `set` that returned `Ok` or a `get`
that returned `Some` (`lastTouch`).  `Ordered` relates the LRU policy to that order: the recency list
is sorted by it and holds every resident key (the policy may hold others, which `delete` or expiry
removed from the map).

* `Ordered.step` — every call that finds the policy's index accurate preserves `Ordered`;
* `accurate_at_insert` — what has to hold before a `set` for its `on_insert` to find it accurate:
  the eviction loop pops keys without renumbering the others, so when it runs the key must be
  unknown to the policy or be popped as well;
* `lru_victim_oldest` — along such runs the victim is the resident key touched longest ago;
  `lru_victim_not_oldest` is a run in which a `get` follows an eviction and the next victim is the key
  that `get` returned.
-/

set_option autoImplicit false

namespace CacheLayer

variable {K V : Type} [DecidableEq K]

/-! ## Touches -/

/-- The call is a `set` of `key` that returned `Ok` or a `get` of `key` that returned `Some`. -/
def Event.Touches (e : Event K V) (key : K) : Prop :=
  match e.op, e.reply with
  | .set k _ _, .ok _ => k = key
  | .get k, .ok (.value (some _)) => k = key
  | _, _ => False

instance (e : Event K V) (key : K) : Decidable (e.Touches key) :=
  match e with
  | ⟨_, .set k _ _, .ok _, _⟩ => inferInstanceAs (Decidable (k = key))
  | ⟨_, .set _ _ _, .err _, _⟩ => isFalse id
  | ⟨_, .set _ _ _, .panic _, _⟩ => isFalse id
  | ⟨_, .get k, .ok (.value (some _)), _⟩ => inferInstanceAs (Decidable (k = key))
  | ⟨_, .get _, .ok (.value none), _⟩ => isFalse id
  | ⟨_, .get _, .ok .unit, _⟩ => isFalse id
  | ⟨_, .get _, .ok (.flag _), _⟩ => isFalse id
  | ⟨_, .get _, .err _, _⟩ => isFalse id
  | ⟨_, .get _, .panic _, _⟩ => isFalse id
  | ⟨_, .delete _, _, _⟩ => isFalse id
  | ⟨_, .exists _, _, _⟩ => isFalse id
  | ⟨_, .clear, _, _⟩ => isFalse id

/-- Position, from `1`, of the latest call that touched `key`; `0` if none did. -/
def lastTouch : List (Event K V) → K → Nat
  | [], _ => 0
  | e :: es, key =>
    if lastTouch es key = 0 then (if e.Touches key then 1 else 0) else lastTouch es key + 1

theorem lastTouch_le (key : K) : ∀ es : List (Event K V), lastTouch es key ≤ es.length
  | [] => Nat.le_refl 0
  | e :: es => by
    have ih := lastTouch_le key es
    unfold lastTouch
    rw [List.length_cons]
    split
    · split <;> omega
    · omega

theorem lastTouch_snoc (e : Event K V) (key : K) : ∀ es : List (Event K V),
    lastTouch (es ++ [e]) key = if e.Touches key then es.length + 1 else lastTouch es key
  | [] => by
    simp only [List.nil_append, lastTouch, if_pos, List.length_nil]
  | e' :: es => by
    have ih := lastTouch_snoc e key es
    rw [List.cons_append, lastTouch, ih, lastTouch, List.length_cons]
    by_cases h : e.Touches key
    · simp [h]
    · simp [h]

/-- A touch makes `key` the newest; the others keep their place. -/
theorem lastTouch_of_touch {e : Event K V} {key : K} (h : ∀ k, e.Touches k ↔ k = key)
    (es : List (Event K V)) :
    lastTouch (es ++ [e]) key = es.length + 1 ∧
      ∀ k, k ≠ key → lastTouch (es ++ [e]) k = lastTouch es k := by
  refine ⟨?_, fun k hk => ?_⟩
  · rw [lastTouch_snoc, if_pos ((h key).2 rfl)]
  · rw [lastTouch_snoc, if_neg fun ht => hk ((h k).1 ht)]

theorem lastTouch_of_not {e : Event K V} (h : ∀ k, ¬ e.Touches k) (es : List (Event K V)) (k : K) :
    lastTouch (es ++ [e]) k = lastTouch es k := by
  rw [lastTouch_snoc, if_neg (h k)]

/-! ## Policy and history -/

/-- The recency list is sorted by the latest touch and holds every resident key. -/
structure Ordered (es : List (Event K V)) (c : MemoryCache K V (LRU K)) : Prop where
  coherent : c.evictionPolicy.Coherent
  resident : ∀ k ∈ c.entries, k ∈ c.evictionPolicy.accessOrder
  sorted : c.evictionPolicy.accessOrder.Pairwise fun x y => lastTouch es x < lastTouch es y

namespace Ordered

open MemoryCache

variable {es : List (Event K V)} {c c' : MemoryCache K V (LRU K)}

/-- Forgetting entries, with the policy unchanged. -/
theorem forget (h : Ordered es c) (hpol : c'.evictionPolicy = c.evictionPolicy)
    (hmem : ∀ k ∈ c'.entries, k ∈ c.entries) : Ordered es c' := by
  refine ⟨?_, ?_, ?_⟩
  · rw [hpol]; exact h.coherent
  · intro k hk
    rw [hpol]; exact h.resident k (hmem k hk)
  · rw [hpol]; exact h.sorted

/-- A call that touches no key and leaves the policy alone. -/
theorem skip (h : Ordered es c) {e : Event K V} (he : ∀ k, ¬ e.Touches k)
    (hpol : c'.evictionPolicy = c.evictionPolicy) (hmem : ∀ k ∈ c'.entries, k ∈ c.entries) :
    Ordered (es ++ [e]) c' := by
  have h' := h.forget hpol hmem
  refine ⟨h'.coherent, h'.resident, ?_⟩
  simpa only [lastTouch_of_not he] using h'.sorted

/-- A call that touches `key` and tells the policy, whose index for `key` is accurate. -/
theorem touch (h : Ordered es c) {e : Event K V} {key : K} (he : ∀ k, e.Touches k ↔ k = key)
    (ha : c.evictionPolicy.Accurate key) (hpol : c'.evictionPolicy = c.evictionPolicy.onAccess key)
    (hmem : ∀ k ∈ c'.entries, k ∈ c.entries ∨ k = key) : Ordered (es ++ [e]) c' := by
  have horder := h.coherent.accessOrder_onAccess ha
  obtain ⟨hnew, hold⟩ := lastTouch_of_touch he es
  refine ⟨?_, ?_, ?_⟩
  · rw [hpol]; exact h.coherent.onAccess ha
  · intro k hk
    rw [hpol, horder, Recency.mem_touch]
    exact (hmem k hk).imp_left (h.resident k)
  · rw [hpol, horder]
    refine Recency.touch_pairwise h.coherent.nodup h.sorted ?_ ?_
    · intro x y hx hlt
      rw [hold x hx]
      by_cases hy : y = key
      · rw [hy, hnew]
        exact Nat.lt_succ_of_le (lastTouch_le x es)
      · rw [hold y hy]; exact hlt
    · intro x _ hx
      rw [hold x hx, hnew]
      exact Nat.lt_succ_of_le (lastTouch_le x es)

/-- Popping a victim and dropping its entry. -/
theorem evict (h : Ordered es c) {key : K} {policy : LRU K} {out : Option Panic}
    (hev : c.evictionPolicy.evict = (some key, policy))
    (hdrop : (c.setPolicy policy).dropVictim key = (c', out)) : Ordered es c' := by
  obtain ⟨horder, hcoh⟩ := h.coherent.evict hev
  have hent := dropVictim_entries (c.setPolicy policy) key
  have hpol := dropVictim_policy (c.setPolicy policy) key
  rw [hdrop] at hent hpol
  replace hpol : c'.evictionPolicy = policy := hpol
  refine ⟨?_, ?_, ?_⟩
  · rw [hpol]; exact hcoh
  · intro k hk
    rw [hent] at hk
    obtain ⟨hne, hk⟩ := AList.mem_erase.1 hk
    have hin := h.resident k hk
    rw [horder] at hin
    rw [hpol]
    exact (List.mem_cons.1 hin).resolve_left hne
  · have hs := h.sorted
    rw [horder] at hs
    rw [hpol]
    exact (List.pairwise_cons.1 hs).2

theorem loopHead (h : Ordered es c) {o : HashOrder K} {n : Nat} (hh : LoopHead o n c c') :
    Ordered es c' :=
  hh.invariant (fun c' => Ordered es c') h
    fun _ _ _ _ hI _ hev hdrop => Ordered.evict hI hev hdrop

theorem evictForSpace (h : Ordered es c) (o : HashOrder K) (n : Nat) :
    Ordered es (c.evictForSpace o n).1 := by
  rcases evictForSpace_cases c o n with ⟨c', hh, -, he⟩ | ⟨c', policy, hh, -, hev, he⟩ |
    ⟨c', key, policy, c'', p, hh, -, hev, hdrop, he⟩
  · rw [he]; exact h.loopHead hh
  · -- the policy is empty and stays as it is
    rw [he]
    refine (h.loopHead hh).forget ?_ fun k hk => hk
    replace hev : c'.evictionPolicy.evict = (none, policy) := hev
    unfold LRU.evict at hev
    split at hev
    · cases hev
    · exact (Prod.mk.inj hev).2.symm
  · rw [he]
    exact (h.loopHead hh).evict hev hdrop

end Ordered

/-! ## The index at `on_insert` -/

namespace MemoryCache

variable [RustSized K] [RustSized V]

/-- What a `set(key, ..)` must find for the policy's index to be accurate when it is told the key: an
accurate index if there is room, and otherwise a policy that does not know the key or pops it before
any resident key. -/
def IndexSurvives (c : MemoryCache K V (LRU K)) (key : K) : Prop :=
  if (c.takeOld key).1.HasRoom (entrySize K V) then c.evictionPolicy.Accurate key
  else key ∉ c.evictionPolicy.keyIndex ∨
    ∀ k ∈ c.evictionPolicy.accessOrder.takeWhile (· ≠ key), k ∉ c.entries

instance (c : MemoryCache K V (LRU K)) (key : K) : Decidable (c.IndexSurvives key) := by
  unfold IndexSurvives; infer_instance

omit [RustSized K] [RustSized V] in
/-- Until `key` is popped, the loop pops only keys that are gone from the map, so it changes nothing. -/
theorem popped_of_room {c c' : MemoryCache K V (LRU K)} {o : HashOrder K} {n : Nat} {key : K}
    (hh : LoopHead o n c c') (hroom : ¬ c.HasRoom n) (hroom' : c'.HasRoom n)
    (hgone : ∀ k ∈ c.evictionPolicy.accessOrder.takeWhile (· ≠ key), k ∉ c.entries)
    (hcoh : c.evictionPolicy.Coherent) : key ∉ c'.evictionPolicy.keyIndex := by
  have hI := hh.invariant (fun c' => key ∉ c'.evictionPolicy.keyIndex ∨
    c'.entries = c.entries ∧ c'.sizeBytes = c.sizeBytes ∧ c'.capacityBytes = c.capacityBytes ∧
      c'.evictionPolicy.Coherent ∧
      ∀ k ∈ c'.evictionPolicy.accessOrder.takeWhile (· ≠ key), k ∉ c.entries)
    (Or.inr ⟨rfl, rfl, rfl, hcoh, hgone⟩) ?_
  · rcases hI with hI | ⟨-, hsize, hcap, -⟩
    · exact hI
    · unfold HasRoom at hroom hroom'
      rw [hsize, hcap] at hroom'
      exact absurd hroom' hroom
  · intro c₁ c₂ victim policy hI _ hev hdrop
    replace hev : c₁.evictionPolicy.evict = (some victim, policy) := hev
    have hpol : c₂.evictionPolicy = policy := by
      have := dropVictim_policy (c₁.setPolicy policy) victim
      rwa [hdrop] at this
    rw [hpol]
    rcases hI with hI | ⟨hent, hsize, hcap, hcoh₁, hbefore⟩
    · exact Or.inl (LRU.keyIndex_sub_of_evict hev hI)
    · by_cases hv : victim = key
      · subst hv
        exact Or.inl (LRU.notMem_keyIndex_of_evict hev)
      · -- the victim stands before `key`, so it is not resident and nothing is dropped
        obtain ⟨horder, hcoh₂⟩ := hcoh₁.evict hev
        rw [horder, List.takeWhile_cons_of_pos (by simpa using hv)] at hbefore
        have hnot : victim ∉ c₁.entries := by
          rw [hent]; exact hbefore victim List.mem_cons_self
        rw [dropVictim_of_notMem (c := c₁.setPolicy policy) hnot] at hdrop
        obtain ⟨rfl, -⟩ := Prod.mk.inj hdrop
        exact Or.inr ⟨hent, hsize, hcap, hcoh₂,
          fun k hk => hbefore k (List.mem_cons_of_mem _ hk)⟩

/-- **When `set` tells the policy its key, the index is accurate.** -/
theorem accurate_at_insert {c c' : MemoryCache K V (LRU K)} {o : HashOrder K} {key : K}
    (hcoh : c.evictionPolicy.Coherent) (h : c.IndexSurvives key)
    (hev : (c.takeOld key).1.evictForSpace o (entrySize K V) = (c', .ok ())) :
    c'.evictionPolicy.Accurate key := by
  unfold IndexSurvives at h
  split at h
  · rename_i hroom
    rw [evictForSpace_of_room o hroom] at hev
    obtain ⟨rfl, -⟩ := Prod.mk.inj hev
    rw [takeOld_policy]
    exact h
  · rename_i hroom
    rw [← takeOld_policy c key] at hcoh
    refine LRU.accurate_of_notMem ?_
    rcases evictForSpace_cases (c.takeOld key).1 o (entrySize K V) with ⟨c₁, hh, hroom', he⟩ |
      ⟨c₁, policy, hh, -, hnone, he⟩ | ⟨_, _, _, _, _, _, _, _, _, he⟩
    · rw [hev] at he
      obtain ⟨rfl, -⟩ := Prod.mk.inj he
      rcases h with h | hgone
      · refine hh.invariant (fun c' => key ∉ c'.evictionPolicy.keyIndex) ?_ ?_
        · rw [takeOld_policy]; exact h
        · intro c₂ c₃ victim policy hI _ hev hdrop
          have hpol := dropVictim_policy (c₂.setPolicy policy) victim
          rw [hdrop] at hpol
          rw [hpol]
          exact LRU.keyIndex_sub_of_evict hev hI
      · rw [← takeOld_policy c key] at hgone
        refine popped_of_room hh hroom hroom' (fun k hk hin => ?_) hcoh
        rw [takeOld_entries, AList.mem_erase] at hin
        exact hgone k hk hin.2
    · rw [hev] at he; cases (Prod.mk.inj he).2
    · rw [hev] at he; cases (Prod.mk.inj he).2

end MemoryCache

open MemoryCache

variable [RustSized K] [RustSized V]

/-- The policy's index is accurate for every key the call tells it. -/
def IndexAccurate (s : Session K V (LRU K)) (e : Event K V) : Prop :=
  match e.op with
  | .get key => s.cache.HoldsLive e.env.now key → s.cache.evictionPolicy.Accurate key
  | .set key _ ttl => Representable e.env.now ttl → s.cache.IndexSurvives key
  | _ => True

instance (s : Session K V (LRU K)) (e : Event K V) : Decidable (IndexAccurate s e) :=
  match e with
  | ⟨env, .get key, _, _⟩ => inferInstanceAs
      (Decidable (s.cache.HoldsLive env.now key → s.cache.evictionPolicy.Accurate key))
  | ⟨env, .set key _ ttl, _, _⟩ => inferInstanceAs
      (Decidable (Representable env.now ttl → s.cache.IndexSurvives key))
  | ⟨_, .delete _, _, _⟩ => isTrue trivial
  | ⟨_, .exists _, _, _⟩ => isTrue trivial
  | ⟨_, .clear, _, _⟩ => isTrue trivial

namespace Ordered

variable {es : List (Event K V)} {c : MemoryCache K V (LRU K)}

omit [RustSized K] [RustSized V] in
theorem takeOld (h : Ordered es c) (key : K) : Ordered es (c.takeOld key).1 := by
  refine h.forget (takeOld_policy c key) fun k hk => ?_
  rw [takeOld_entries, AList.mem_erase] at hk
  exact hk.2

omit [RustSized K] [RustSized V] in
theorem get (h : Ordered es c) {env : Env K} {key : K} {ev : List K}
    (ha : c.HoldsLive env.now key → c.evictionPolicy.Accurate key) :
    Ordered (es ++ [⟨env, .get key, (c.get env key).2.map .value, ev⟩]) (c.get env key).1 := by
  rcases get_cases c env key with ⟨x, hl, hx, hg⟩ | ⟨x, hl, hx, hg⟩ | ⟨hl, hg⟩
  · rw [hg]
    refine h.skip (fun k hk => hk) rfl fun k hk => ?_
    exact (AList.mem_erase.1 hk).2
  · rw [hg]
    refine h.touch (fun k => eq_comm) (ha ⟨x, hl, hx⟩) rfl fun k hk => Or.inl ?_
    exact AList.mem_mapVals.1 hk
  · rw [hg]
    exact h.skip (fun k hk => hk) rfl fun k hk => hk

theorem set (h : Ordered es c) {env : Env K} {key : K} {value : V} {ttl : Option Duration}
    {ev : List K} (ha : Representable env.now ttl → c.IndexSurvives key) :
    Ordered (es ++ [⟨env, .set key value ttl, (c.set env key value ttl).2.map fun _ => .unit, ev⟩])
      (c.set env key value ttl).1 := by
  have hloop := (h.takeOld key).evictForSpace env.order (entrySize K V)
  rcases set_cases c env key value ttl with ⟨c', hev, hr, hs⟩ | ⟨c', hev, -, hs⟩ |
    ⟨c', e, hev, hs⟩ | ⟨c', p, hev, hs⟩
  · rw [hev] at hloop
    rw [hs]
    refine hloop.touch (fun k => eq_comm) (accurate_at_insert h.coherent (ha hr) hev) rfl
      fun k hk => ?_
    exact ((AList.mem_insert _).1 hk).symm
  all_goals
    rw [hev] at hloop
    rw [hs]
    exact hloop.skip (fun k hk => hk) rfl fun k hk => hk

omit [RustSized K] [RustSized V] in
theorem delete (h : Ordered es c) {env : Env K} {key : K} {reply : Outcome (Reply V)} {ev : List K} :
    Ordered (es ++ [⟨env, .delete key, reply, ev⟩]) (c.delete key).1 := by
  refine h.skip (fun k hk => hk) (delete_policy c key) fun k hk => ?_
  rw [delete_entries] at hk
  exact (AList.mem_erase.1 hk).2

omit [RustSized K] [RustSized V] in
theorem clear (c : MemoryCache K V (LRU K)) (es : List (Event K V)) : Ordered es c.clear.1 where
  coherent := LRU.Coherent.reset _
  resident k hk := absurd hk (AList.notMem_empty k)
  sorted := List.Pairwise.nil

/-- **Every call that finds the index accurate keeps the policy in the order of the touches.** -/
theorem step {s t : Session K V (LRU K)} {e : Event K V} (h : Ordered es s.cache)
    (ha : IndexAccurate s e) (hstep : Step s e t) : Ordered (es ++ [e]) t.cache := by
  obtain ⟨env, op, reply, evicted⟩ := e
  obtain ⟨-, -, hexec, -⟩ := hstep
  obtain ⟨hc, hreply⟩ := Prod.mk.inj hexec
  simp only at hreply
  rw [← hc, ← hreply]
  cases op with
  | get key => exact h.get ha
  | set key value ttl => exact h.set ha
  | delete key => exact h.delete
  | «exists» key => exact h.skip (fun k hk => hk) rfl fun k hk => hk
  | clear => exact clear s.cache _

end Ordered

theorem ordered_of_run {cap n : Nat} {hcap : 0 < cap} {hn : 0 < n} {es : List (Event K V)}
    {s : Session K V (LRU K)}
    (hrun : Run (Guarded IndexAccurate Step) (.fresh cap (LRU.new K n hn) hcap) es s) :
    Ordered es s.cache := by
  induction hrun with
  | nil => exact ⟨LRU.Coherent.new n hn, fun k hk => absurd hk (AList.notMem_empty k), List.Pairwise.nil⟩
  | snoc _ hstep ih => exact ih.step hstep.1 hstep.2

/-! ## Victims -/

/-- In `c'`, reached by the eviction loop called in `c`, the loop evicts the resident key `x`. -/
def MemoryCache.Evicts {P : Type} [EvictionPolicy K P] (o : HashOrder K) (n : Nat)
    (c c' : MemoryCache K V P) (x : K) : Prop :=
  LoopHead o n c c' ∧ ¬ c'.HasRoom n ∧ x ∈ c'.entries ∧
    (EvictionPolicy.evict c'.evictionPolicy o).1 = some x

omit [RustSized K] [RustSized V] in
/-- Whatever the loop makes disappear it has evicted. -/
theorem MemoryCache.evicts_of_gone {P : Type} [EvictionPolicy K P] {o : HashOrder K} {n : Nat}
    {c : MemoryCache K V P} {x : K} (hin : x ∈ c.entries)
    (hgone : x ∉ (c.evictForSpace o n).1.entries) : ∃ c', Evicts o n c c' x := by
  have hhead : ∀ c', LoopHead o n c c' → x ∈ c'.entries ∨ ∃ c', Evicts o n c c' x := by
    intro c' hh
    induction hh with
    | start => exact Or.inl hin
    | @next c₁ c₂ key policy hh hroom hev hdrop ih =>
      rcases ih with ih | ih
      · by_cases hx : x = key
        · exact Or.inr ⟨c₁, hh, hroom, ih, by rw [hev, hx]⟩
        · have hent := dropVictim_entries (c₁.setPolicy policy) key
          rw [hdrop] at hent
          refine Or.inl ?_
          rw [hent]
          exact AList.mem_erase.2 ⟨hx, ih⟩
      · exact Or.inr ih
  rcases evictForSpace_cases c o n with ⟨c', hh, -, he⟩ | ⟨c', policy, hh, -, -, he⟩ |
    ⟨c', key, policy, c'', p, hh, hroom, hev, hdrop, he⟩
  · rw [he] at hgone
    exact (hhead c' hh).resolve_left hgone
  · rw [he] at hgone
    exact (hhead c' hh).resolve_left hgone
  · rcases hhead c' hh with hc | hc
    · have hent := dropVictim_entries (c'.setPolicy policy) key
      rw [hdrop] at hent
      rw [he, hent] at hgone
      have hx : x = key :=
        Classical.byContradiction fun hne => hgone (AList.mem_erase.2 ⟨hne, hc⟩)
      exact ⟨c', hh, hroom, hc, by rw [hev, hx]⟩
    · exact hc

/-- Every key that the loop of a `set` removes is evicted at some head of the loop. -/
theorem MemoryCache.evicts_of_evicted {P : Type} [EvictionPolicy K P] {c : MemoryCache K V P}
    {env : Env K} {key : K} {value : V} {ttl : Option Duration} {x : K}
    (hx : x ∈ c.evictedBy env (.set key value ttl)) :
    ∃ c', Evicts env.order (entrySize K V) (c.takeOld key).1 c' x := by
  obtain ⟨hxk, hin, hgone⟩ := mem_evictedBy_set.1 hx
  refine evicts_of_gone ?_ fun hin' => hgone ?_
  · rw [takeOld_entries]
    exact AList.mem_erase.2 ⟨hxk, hin⟩
  · obtain ⟨v, hv⟩ := AList.exists_lookup hin'
    rw [AList.mem_iff_lookup, set_lookup_ne c env key value ttl hxk]
    exact ⟨v, hv⟩

omit [RustSized K] [RustSized V] in
/-- The front of the recency list is older than every other key on it. -/
theorem Ordered.victim_oldest {es : List (Event K V)} {c : MemoryCache K V (LRU K)}
    (h : Ordered es c) {x y : K} (hx : c.evictionPolicy.evict.1 = some x) (hy : y ∈ c.entries)
    (hne : y ≠ x) : lastTouch es x < lastTouch es y := by
  have hin := h.resident y hy
  have hsorted := h.sorted
  unfold LRU.evict at hx
  split at hx
  · rename_i key rest horder
    cases hx
    rw [horder] at hin hsorted
    exact (List.pairwise_cons.1 hsorted).1 y ((List.mem_cons.1 hin).resolve_left hne)
  · cases hx

/-- **The victim is the oldest.**  Take any run of a `MemoryCache` with an LRU policy in which the
policy's stored position is right for every key it is told (`IndexAccurate`).  When the next call
`set(key, ..)` evicts `x`, the latest touch of `x` is older than that of every other key then
resident; and every key the call makes disappear was evicted in this way. -/
theorem lru_victim_oldest {cap n : Nat} {hcap : 0 < cap} {hn : 0 < n} {es : List (Event K V)}
    {s t : Session K V (LRU K)} {e : Event K V}
    (hrun : Run (Guarded IndexAccurate Step) (.fresh cap (LRU.new K n hn) hcap) es s)
    (hstep : Step s e t) {key : K} {value : V} {ttl : Option Duration}
    (hop : e.op = .set key value ttl) :
    (∀ c' x, Evicts e.env.order (entrySize K V) (s.cache.takeOld key).1 c' x →
      ∀ y ∈ c'.entries, y ≠ x → lastTouch es x < lastTouch es y) ∧
    ∀ x ∈ e.evicted, ∃ c', Evicts e.env.order (entrySize K V) (s.cache.takeOld key).1 c' x := by
  have hord := ordered_of_run hrun
  constructor
  · rintro c' x ⟨hh, -, -, hev⟩ y hy hne
    exact ((hord.takeOld key).loopHead hh).victim_oldest hev hy hne
  · intro x hx
    rw [hstep.evicted_eq, hop] at hx
    exact evicts_of_evicted hx

/-- A cache with room for three entries. -/
def freshTriple : Session UInt64 UInt64 (LRU UInt64) :=
  .fresh 48 (LRU.new _ 1024 (Nat.succ_pos (nat_lit 1023))) (Nat.succ_pos (nat_lit 47))

/-- Three keys are cached and the first is read. -/
def readThenFull : List (Env UInt64 × Op UInt64 UInt64) :=
  [(⟨0, .id _⟩, .set 1 10 none), (⟨1, .id _⟩, .set 2 20 none), (⟨2, .id _⟩, .set 3 30 none),
    (⟨3, .id _⟩, .get 1)]

/-- A fourth `set` evicts the second key, which is older than the first and the third. -/
theorem lru_victim_oldest_first_eviction :
    lastTouch (freshTriple.script readThenFull).1 2 < lastTouch (freshTriple.script readThenFull).1 1 ∧
      lastTouch (freshTriple.script readThenFull).1 2 <
        lastTouch (freshTriple.script readThenFull).1 3 := by
  have hrun : Run (Guarded IndexAccurate Step) freshTriple _ _ :=
    run_script readThenFull freshTriple (by decide)
  have holdest := (lru_victim_oldest hrun
    (step_after _ ⟨4, .id _⟩ (.set 4 40 none) (by decide)) rfl).1 _ 2
    ⟨.start, by decide, by decide, by decide⟩
  exact ⟨holdest 1 (by decide) (by decide), holdest 3 (by decide) (by decide)⟩

/-- Three keys are cached, a fourth `set` evicts the first, and the second is read. -/
def readAfterEviction : List (Env UInt64 × Op UInt64 UInt64) :=
  [(⟨0, .id _⟩, .set 1 10 none), (⟨1, .id _⟩, .set 2 20 none), (⟨2, .id _⟩, .set 3 30 none),
    (⟨3, .id _⟩, .set 4 40 none), (⟨4, .id _⟩, .get 2)]

/-- The next `set` evicts the key just read, although the third key has not been touched since it
was cached. -/
theorem lru_victim_not_oldest :
    Run Step freshTriple (freshTriple.script readAfterEviction).1
        (freshTriple.script readAfterEviction).2 ∧
      Evicts (.id _) (entrySize UInt64 UInt64)
        ((freshTriple.script readAfterEviction).2.cache.takeOld 5).1
        ((freshTriple.script readAfterEviction).2.cache.takeOld 5).1 2 ∧
      (3 : UInt64) ∈ ((freshTriple.script readAfterEviction).2.cache.takeOld 5).1.entries ∧
      lastTouch (freshTriple.script readAfterEviction).1 3 = 3 ∧
      lastTouch (freshTriple.script readAfterEviction).1 2 = 5 :=
  have hrun : Run (Guarded (fun _ _ => True) Step) freshTriple _ _ :=
    run_script readAfterEviction freshTriple (by decide)
  ⟨hrun.of_guarded, ⟨.start, by decide, by decide, by decide⟩, by decide, by decide, by decide⟩

end CacheLayer
