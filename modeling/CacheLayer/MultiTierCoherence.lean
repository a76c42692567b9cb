import CacheLayer.MultiTierExpiry

/-!
# Coherence of the tiers

`LastSet es key v` says that the history's latest write of `key` is a `set` of `v`.  In a sequential
run every tier that holds a key holds the value of its last set: a tier that rejects a write has
already dropped its old copy, and a promotion writes a value that some tier holds.

* `CoherentTier.set` — one tier call of a write or of a promotion;
* `coherent_step` — one call of the cache;
* `tiers_coherent` — every state of a run; `get` answers with the last set or not at all, and after a
  `set` that returned `Ok` it answers.
-/

set_option autoImplicit false

namespace CacheLayer

open MultiTierCache MemoryCache

variable {K V P : Type}

/-! ## The last set of a key -/

/-- The call sets `key` to `v`, with the time-to-live `d`. -/
def CacheEvent.Sets (e : CacheEvent K V) (key : K) (v : V) (d : Duration) : Prop :=
  e.op = .setWithTtl key v d ∨ e.op = .set key v ∧ d = defaultTtl

/-- The latest write of `key` in the history is a `set` of `v`. -/
def LastSet (es : List (CacheEvent K V)) (key : K) (v : V) : Prop :=
  ∃ pre e post d, es = pre ++ e :: post ∧ e.Sets key v d ∧ ∀ e' ∈ post, ¬ e'.Writes key

theorem CacheEvent.Sets.writes {e : CacheEvent K V} {key : K} {v : V} {d : Duration}
    (h : e.Sets key v d) : e.Writes key := by
  unfold CacheEvent.Writes
  rcases h with h | ⟨h, -⟩ <;> simp [h]

theorem LastSet.keep {es : List (CacheEvent K V)} {e : CacheEvent K V} {key : K} {v : V}
    (h : LastSet es key v) (hw : ¬ e.Writes key) : LastSet (es ++ [e]) key v := by
  obtain ⟨pre, e₀, post, d, rfl, hset, hpost⟩ := h
  refine ⟨pre, e₀, post ++ [e], d, by simp, hset, ?_⟩
  intro e' he'
  rcases List.mem_append.1 he' with he' | he'
  · exact hpost e' he'
  · rw [List.mem_singleton.1 he']
    exact hw

theorem lastSet_of_sets (es : List (CacheEvent K V)) {e : CacheEvent K V} {key : K} {v : V}
    {d : Duration} (h : e.Sets key v d) : LastSet (es ++ [e]) key v :=
  ⟨es, e, [], d, rfl, h, fun _ he => by cases he⟩

/-- Right after a `set` of `key` to `v`, the last set of `key` is that one. -/
theorem LastSet.eq_of_sets {es : List (CacheEvent K V)} {e : CacheEvent K V} {key : K} {v v' : V}
    {d : Duration} (h : LastSet (es ++ [e]) key v') (hset : e.Sets key v d) : v' = v := by
  obtain ⟨pre, e₀, post, d', hes, hset', hpost⟩ := h
  rcases snoc_eq_split hes with ⟨-, rfl, -⟩ | ⟨post', rfl, -⟩
  · rcases hset with hset | ⟨hset, -⟩ <;> rcases hset' with hset' | ⟨hset', -⟩ <;>
      rw [hset] at hset' <;> cases hset' <;> rfl
  · exact absurd hset.writes (hpost e (by simp))

/-! ## One tier -/

variable [DecidableEq K] [EvictionPolicy K P] [RustSized K] [RustSized V]

/-- The tier's counters are in step and what it holds are last sets. -/
structure CoherentTier (es : List (CacheEvent K V)) (c : MemoryCache K V P) : Prop where
  accounted : Accounted c
  value : ∀ k entry, c.entries.lookup k = some entry → LastSet es k entry.value

namespace CoherentTier

variable {es es' : List (CacheEvent K V)} {c : MemoryCache K V P}

/-- A tier call that writes the value of the last set. -/
theorem set (h : CoherentTier es c) {env : Env K} {key : K} {v : V} {ttl : Option Duration}
    (hv : LastSet es' key v) (hkeep : ∀ k v, k ≠ key → LastSet es k v → LastSet es' k v)
    (hr : Representable env.now ttl) :
    (c.set env key v ttl).2.Returned ∧ CoherentTier es' (c.set env key v ttl).1 := by
  obtain ⟨hacc, -, hret⟩ := h.accounted.set key v hr
  refine ⟨hret, hacc, ?_⟩
  intro k entry hl
  by_cases hk : k = key
  · subst hk
    rw [set_lookup_self hl]
    exact hv
  · exact hkeep k _ hk (h.value k entry (set_sub c env key v ttl hk hl))

omit [EvictionPolicy K P] in
/-- A `delete` forgets the key it writes. -/
theorem delete (h : CoherentTier es c) {key : K}
    (hkeep : ∀ k v, k ≠ key → LastSet es k v → LastSet es' k v) :
    (c.delete key).2.Returned ∧ CoherentTier es' (c.delete key).1 := by
  obtain ⟨hacc, -, hok⟩ := h.accounted.delete key
  refine ⟨by rw [hok]; trivial, hacc, ?_⟩
  intro k entry hl
  rw [delete_entries] at hl
  have hk : k ≠ key := by
    rintro rfl
    simp at hl
  exact hkeep k _ hk (h.value k entry (AList.sub_erase _ _ _ _ hl))

/-- A `get` keeps the values and returns one of them. -/
theorem get (h : CoherentTier es c) (env : Env K) (key : K) :
    CoherentTier es (c.get env key).1 ∧ ∃ r, (c.get env key).2 = .ok r ∧
      ∀ v, r = some v → LastSet es key v := by
  obtain ⟨hacc, -, -⟩ := h.accounted.get env key
  refine ⟨⟨hacc, ?_⟩, ?_⟩
  · intro k entry hl
    obtain ⟨e₀, h₀, heq⟩ := get_lookup hl
    rw [heq]
    exact h.value k e₀ h₀
  · rcases get_cases c env key with ⟨e, _, _, hg⟩ | ⟨e, hl, _, hg⟩ | ⟨_, hg⟩
    · rw [hg]
      exact ⟨none, rfl, fun v hv => by cases hv⟩
    · rw [hg]
      refine ⟨some e.value, rfl, fun v hv => ?_⟩
      cases hv
      exact h.value key e hl
    · rw [hg]
      exact ⟨none, rfl, fun v hv => by cases hv⟩

omit [EvictionPolicy K P] in
theorem keep (h : CoherentTier es c) (hkeep : ∀ k v, LastSet es k v → LastSet es' k v) :
    CoherentTier es' c :=
  ⟨h.accounted, fun k entry hl => hkeep k _ (h.value k entry hl)⟩

end CoherentTier

/-! ## The loops -/

/-- A search over coherent tiers keeps them coherent and answers with a last set, or `None`. -/
theorem coherent_getLoop {es : List (CacheEvent K V)} {tiers : List (MemoryCache K V P)}
    (h : ∀ tier ∈ tiers, CoherentTier es tier) (envs : Nat → Env K) (key : K) :
    (∀ tier ∈ (getLoop envs key 0 [] tiers).1, CoherentTier es tier) ∧
      ∃ r, (getLoop envs key 0 [] tiers).2 = .ok r ∧ ∀ v, r = some v → LastSet es key v := by
  have hinv := getLoop_inv envs (CoherentTier es) key (LastSet es key) ?_ ?_ tiers [] 0
    (fun _ ht => by cases ht) h
  have hret := getLoop_returns envs Accounted key ?_ ?_ tiers [] 0
    (fun _ ht => by cases ht) fun tier ht => (h tier ht).accounted
  · obtain ⟨r, hr⟩ := hret
    exact ⟨hinv.1, r, hr, fun v hv => hinv.2 v (by rw [hr, hv])⟩
  · intro n tier ht
    obtain ⟨hacc, ⟨v, hv⟩, -⟩ := ht.get (envs n) key
    exact ⟨hacc, by show (tier.get (envs n) key).2.Returned; rw [hv]; trivial⟩
  · intro n tier v ht
    exact (ht.set key v (representable_none _)).2.2
  · intro n tier ht
    obtain ⟨ht', r, hr, hv⟩ := ht.get (envs n) key
    refine ⟨ht', fun v hv' => hv v ?_⟩
    exact Outcome.ok.inj (hr.symm.trans hv')
  · intro n tier v ht hv
    exact (ht.set hv (fun k v _ h => h) (representable_none _)).2

/-- A search whose `LiveFrom` holds does not end with `None`. -/
theorem getLoop_ne_none {envs : Nat → Env K} {key : K} :
    ∀ (rest faster : List (MemoryCache K V P)) (n : Nat), LiveFrom envs key n rest →
      (getLoop envs key n faster rest).2 ≠ .ok none
  | [], _, _, hlive => hlive.elim
  | tier :: rest, faster, n, hlive => by
    by_cases hhead : tier.HoldsLive (envs n).now key
    · obtain ⟨entry, hl, hx⟩ := hhead
      have hhit : Tier.get tier (envs n) key =
          ((tier.get (envs n) key).1, .ok (some entry.value)) := Prod.ext rfl (get_of_live hl hx)
      rw [getLoop, hhit]
      simp only
      split <;> simp
    · have hmiss : Tier.get tier (envs n) key = ((tier.get (envs n) key).1, .ok none) :=
        Prod.ext rfl (get_of_not_live hhead)
      rw [getLoop_miss faster rest hmiss]
      exact getLoop_ne_none rest _ (n + 1) (hlive.resolve_left hhead)

omit [EvictionPolicy K P] [RustSized K] [RustSized V] in
theorem liveFrom_of_getElem {envs : Nat → Env K} {key : K} :
    ∀ (tiers : List (MemoryCache K V P)) (n i : Nat) (tier : MemoryCache K V P),
      tiers[i]? = some tier → tier.HoldsLive (envs (n + i)).now key → LiveFrom envs key n tiers
  | [], _, i, _, h, _ => by simp at h
  | t :: tiers, n, 0, tier, h, hlive => by
    simp only [List.getElem?_cons_zero, Option.some.injEq] at h
    subst h
    exact Or.inl hlive
  | t :: tiers, n, i + 1, tier, h, hlive => by
    rw [List.getElem?_cons_succ] at h
    refine Or.inr (liveFrom_of_getElem tiers (n + 1) i tier h ?_)
    rwa [Nat.add_right_comm]

/-! ## Steps and runs -/

/-- Every expiry instant the call computes is representable. -/
def RepresentableCall {σ : Type} (_ : σ) (e : CacheEvent K V) : Prop :=
  ∀ key v d, e.Sets key v d → ∀ n, Representable (e.envs n).now (some d)

/-- **One call keeps the tiers coherent**, and a `get` answers with a last set or with `None`. -/
theorem coherent_step {es : List (CacheEvent K V)} {s t : CacheSession (MemoryCache K V P)}
    {e : CacheEvent K V} (h : ∀ tier ∈ s.cache.tiers, CoherentTier es tier)
    (hr : RepresentableCall s e) (hstep : CacheStep s e t) :
    ∀ tier ∈ t.cache.tiers, CoherentTier (es ++ [e]) tier := by
  have hexec := hstep.exec_eq
  have hwrite : ∀ key v d, e.Sets key v d → t.cache.tiers = (eachTier
      (fun env tier => Tier.set tier env key v (some d)) e.envs 0 s.cache.tiers none).1 →
      ∀ tier ∈ t.cache.tiers, CoherentTier (es ++ [e]) tier := by
    intro key v d hset htiers
    rw [htiers]
    refine (eachTier_spec (I := CoherentTier es) (J := CoherentTier (es ++ [e])) ?_ _ 0 none h).2
    intro n tier ht
    refine ht.set (lastSet_of_sets es hset) ?_ (hr key v d hset n)
    intro k v' hk hl
    refine hl.keep fun hw => hk ?_
    unfold CacheEvent.Writes at hw
    rcases hset with hset | ⟨hset, -⟩ <;> rw [hset] at hw <;> exact hw.symm
  cases hop : e.op with
  | get k =>
    rw [hop] at hexec
    obtain ⟨hc, -⟩ := Prod.mk.inj hexec
    rw [← hc]
    intro tier ht
    refine ((coherent_getLoop h e.envs k).1 tier ht).keep fun k v hl => hl.keep ?_
    simp [CacheEvent.Writes, hop]
  | set k v =>
    rw [hop] at hexec
    exact hwrite k v defaultTtl (Or.inr ⟨hop, rfl⟩) (by rw [← (Prod.mk.inj hexec).1]; rfl)
  | setWithTtl k v d =>
    rw [hop] at hexec
    exact hwrite k v d (Or.inl hop) (by rw [← (Prod.mk.inj hexec).1]; rfl)
  | delete k =>
    rw [hop] at hexec
    obtain ⟨hc, -⟩ := Prod.mk.inj hexec
    rw [← hc]
    refine (eachTier_spec (I := CoherentTier es) (J := CoherentTier (es ++ [e])) ?_ _ 0 none h).2
    intro n tier ht
    refine ht.delete fun k' v hk hl => hl.keep ?_
    simp [CacheEvent.Writes, hop, Ne.symm hk]
  | «exists» k =>
    rw [hop] at hexec
    obtain ⟨hc, -⟩ := Prod.mk.inj hexec
    rw [← hc]
    intro tier ht
    replace ht : tier ∈ (existsLoop e.envs k 0 s.cache.tiers).1 := ht
    rw [existsLoop_eq e.envs k s.cache.tiers 0] at ht
    refine (h tier ht).keep fun k v hl => hl.keep ?_
    simp [CacheEvent.Writes, hop]

/-- After a `set` that returned `Ok` every tier holds the new entry. -/
theorem set_ok_tiers {s t : CacheSession (MemoryCache K V P)} {e : CacheEvent K V} {key : K} {v : V}
    {d : Duration} (hset : e.Sets key v d) (hok : e.reply = .ok .unit) (hstep : CacheStep s e t) :
    t.cache.tiers.length = s.cache.tiers.length ∧
      ∀ (i : Nat) (tier : MemoryCache K V P), t.cache.tiers[i]? = some tier → tier.entries.lookup key =
        some ⟨v, some ((e.envs i).now + d), entrySize K V, (e.envs i).now⟩ := by
  have hexec := hstep.exec_eq
  have hloop : t.cache.tiers = (eachTier (fun env tier => Tier.set tier env key v (some d)) e.envs 0
      s.cache.tiers none).1 ∧ (eachTier (fun env tier => Tier.set tier env key v (some d)) e.envs 0
      s.cache.tiers none).2 = .ok () := by
    rcases hset with hop | ⟨hop, rfl⟩
    all_goals
      rw [hop, hok] at hexec
      obtain ⟨hc, hreply⟩ := Prod.mk.inj hexec
      obtain ⟨_, hout, -⟩ := Outcome.ok_of_map hreply
      exact ⟨by rw [← hc]; rfl, hout⟩
  rw [hloop.1]
  refine ⟨eachTier_length _ _ _, ?_⟩
  intro i tier hi
  have h := eachTier_ok (J := fun n (c : MemoryCache K V P) => c.entries.lookup key =
    some ⟨v, some ((e.envs n).now + d), entrySize K V, (e.envs n).now⟩) ?_ s.cache.tiers 0 hloop.2 i
    tier hi
  · rwa [Nat.zero_add] at h
  · intro n tier hn
    exact set_ok_lookup (Prod.ext rfl hn)

/-- **The tiers are coherent.**  In every state of a run from fresh tiers of any capacities and
policies, every tier that holds a key holds the value of its last set, which has not been deleted
since.  A `get` answers with that value or with `None`; and directly after a `set` that returned `Ok`
it answers with the value, if some tier is asked within the time-to-live of its copy. -/
theorem tiers_coherent {tiers : List (MemoryCache K V P)} {es : List (CacheEvent K V)}
    {s : CacheSession (MemoryCache K V P)}
    (hfresh : ∀ tier ∈ tiers, ∃ cap policy h, tier = .withPolicy cap policy h)
    (hrun : Run (Guarded RepresentableCall CacheStep) ⟨⟨tiers⟩, 0⟩ es s) :
    (∀ tier ∈ s.cache.tiers, ∀ k entry, tier.entries.lookup k = some entry →
      LastSet es k entry.value) ∧
    (∀ e t key, CacheStep s e t → e.op = .get key → e.reply = .ok (.value none) ∨
      ∃ v, e.reply = .ok (.value (some v)) ∧ LastSet es key v) ∧
    ∀ e₀ t e u key v d, Guarded RepresentableCall CacheStep s e₀ t → e₀.Sets key v d →
      e₀.reply = .ok .unit → CacheStep t e u → e.op = .get key →
      (∃ i < s.cache.numTiers, (e.envs i).now ≤ (e₀.envs i).now + d) →
        e.reply = .ok (.value (some v)) := by
  have hcoh : ∀ tier ∈ s.cache.tiers, CoherentTier es tier := by
    induction hrun with
    | nil =>
      intro tier ht
      obtain ⟨cap, policy, hcap, rfl⟩ := hfresh tier ht
      exact ⟨Accounted.withPolicy cap policy hcap, fun k entry hl => by cases hl⟩
    | snoc _ hstep ih => exact coherent_step ih hstep.1 hstep.2
  refine ⟨fun tier ht => (hcoh tier ht).value, ?_, ?_⟩
  · intro e t key hstep hop
    have hexec := hstep.exec_eq
    rw [hop] at hexec
    obtain ⟨-, r, hr, hv⟩ := coherent_getLoop hcoh e.envs key
    have hreply : e.reply = .ok (.value r) := by
      rw [← (Prod.mk.inj hexec).2]
      show (getLoop e.envs key 0 [] s.cache.tiers).2.map _ = _
      rw [hr]
      rfl
    cases r with
    | none => exact Or.inl hreply
    | some v => exact Or.inr ⟨v, hreply, hv v rfl⟩
  · rintro e₀ t e u key v d ⟨hrep, hstep₀⟩ hset hok hstep hop ⟨i, hi, hle⟩
    obtain ⟨hlen, hheld⟩ := set_ok_tiers hset hok hstep₀
    obtain ⟨-, r, hr, hv⟩ := coherent_getLoop (coherent_step hcoh hrep hstep₀) e.envs key
    have hi' : i < t.cache.tiers.length := by
      rw [hlen]; exact hi
    have hlive : LiveFrom e.envs key 0 t.cache.tiers := by
      refine liveFrom_of_getElem _ 0 i _ (List.getElem?_eq_getElem hi') ?_
      refine ⟨_, hheld i _ (List.getElem?_eq_getElem hi'), ?_⟩
      rw [Nat.zero_add]
      exact decide_eq_false (Nat.not_lt.2 hle)
    have hne := getLoop_ne_none t.cache.tiers [] 0 hlive
    have hexec := hstep.exec_eq
    rw [hop] at hexec
    rw [← (Prod.mk.inj hexec).2]
    show (getLoop e.envs key 0 [] t.cache.tiers).2.map _ = _
    rw [hr] at hne ⊢
    cases r with
    | none => exact absurd rfl hne
    | some v' =>
      have hv' : v' = v := (hv v' rfl).eq_of_sets hset
      rw [hv']
      rfl

omit [DecidableEq K] [RustSized K] [RustSized V] in
theorem representableCall_set {T : Type} [Tier K V T] (s : CacheSession T) (env : Env K) (key : K)
    (v : V) (h : Representable env.now (some defaultTtl)) :
    RepresentableCall s (s.event env (.set key v)) := by
  intro k v' d hset n
  rcases hset with hop | ⟨-, rfl⟩
  · cases hop
  · exact h

/-- An LFU tier with room for one entry over an LRU tier with room for 64. -/
def oneOverMany : CacheSession (MemoryCache UInt64 UInt64 (BoxedPolicy UInt64)) :=
  ⟨⟨[.withPolicy 16 (.lfu (LFU.new _ 100 (Nat.succ_pos (nat_lit 99)))) (Nat.succ_pos (nat_lit 15)),
    .withPolicy 1024 (.lru (LRU.new _ 1024 (Nat.succ_pos (nat_lit 1023)))) (Nat.succ_pos (nat_lit 1023))]⟩, 0⟩

/-- The last of two sets is answered at the last instant of its time-to-live. -/
theorem tiers_coherent_last_instant :
    (((oneOverMany.after ⟨0, .id _⟩ (.set 1 10)).after ⟨1, .id _⟩ (.set 2 20)).event
      ⟨300000000001, .id _⟩ (.get 2)).reply = .ok (.value (some 20)) := by
  have hfirst : Guarded RepresentableCall CacheStep oneOverMany
      (oneOverMany.event ⟨0, .id _⟩ (.set 1 10)) (oneOverMany.after ⟨0, .id _⟩ (.set 1 10)) :=
    ⟨representableCall_set _ _ _ _ (by decide), cacheStep_after _ _ _ (by decide)⟩
  exact (tiers_coherent (fun _ ht => withPolicy_pair ht) (Run.single hfirst)).2.2 _ _ _ _ 2 20 defaultTtl
    ⟨representableCall_set _ ⟨1, .id _⟩ 2 20 (by decide), cacheStep_after _ _ _ (by decide)⟩
    (Or.inr ⟨rfl, rfl⟩) (by decide) (cacheStep_after _ ⟨300000000001, .id _⟩ (.get 2) (by decide)) rfl
    ⟨0, by decide, by decide⟩

end CacheLayer
