import CacheLayer.MultiTier

/-!
# Time-to-live across tiers

Each tier stores its own expiry instant for a key.  `ExpiresBy x key` says that a tier's entry for
`key`, if it has one, expires at `x` or before.  `set_with_ttl` establishes it in every tier, and every
call that does not write the key preserves it, except a `get` that is answered by a slower tier: the
value is then written to the faster tiers without a time-to-live (`Promotes`).

* `expiresBy_step` — the preservation lemma;
* `no_value_outlives_ttl` — after the time-to-live has run out, neither `get` nor `exists` finds the
  key, in runs without such a `get`; `promoted_value_outlives_ttl` is a run with one.
-/

set_option autoImplicit false

namespace CacheLayer

open MultiTierCache

variable {K V P : Type} [DecidableEq K] [EvictionPolicy K P] [RustSized K] [RustSized V]

namespace MemoryCache

omit [EvictionPolicy K P] [RustSized K] [RustSized V] in
/-- The entry of `key`, if there is one, expires at `x` or before. -/
def ExpiresBy (x : Instant) (key : K) (c : MemoryCache K V P) : Prop :=
  ∀ entry, c.entries.lookup key = some entry → ∃ y, entry.expiresAt = some y ∧ y ≤ x

namespace ExpiresBy

variable {x : Instant} {key : K} {c : MemoryCache K V P}

omit [RustSized K] [RustSized V] in
theorem get (h : ExpiresBy x key c) (env : Env K) (k : K) : ExpiresBy x key (c.get env k).1 := by
  intro entry hl
  obtain ⟨e₀, h₀, heq⟩ := get_lookup hl
  obtain ⟨y, hy, hyx⟩ := h e₀ h₀
  exact ⟨y, by rw [heq]; exact hy, hyx⟩

theorem set (h : ExpiresBy x key c) {k : K} (hk : key ≠ k) (env : Env K) (value : V)
    (ttl : Option Duration) : ExpiresBy x key (c.set env k value ttl).1 := by
  intro entry hl
  exact h entry (set_sub c env k value ttl hk hl)

omit [EvictionPolicy K P] [RustSized K] [RustSized V] in
theorem delete (h : ExpiresBy x key c) (k : K) : ExpiresBy x key (c.delete k).1 := by
  intro entry hl
  rw [delete_entries] at hl
  exact h entry (AList.sub_erase _ _ _ _ hl)

/-- A `set` of the key itself leaves the new expiry, or nothing. -/
theorem of_set (c : MemoryCache K V P) (env : Env K) (key : K) (value : V) (ttl : Duration)
    (hx : env.now + ttl ≤ x) : ExpiresBy x key (c.set env key value (some ttl)).1 := by
  intro entry hl
  rw [set_lookup_self hl]
  exact ⟨env.now + ttl, rfl, hx⟩

omit [EvictionPolicy K P] [RustSized K] [RustSized V] in
/-- After `x` the entry is not live. -/
theorem not_live (h : ExpiresBy x key c) {now : Instant} (hlate : x < now) :
    ¬ c.HoldsLive now key := by
  rintro ⟨entry, hl, hlive⟩
  obtain ⟨y, hy, hyx⟩ := h entry hl
  have hle : now ≤ y := CachedValue.not_isExpired_iff.1 hlive y hy
  exact Nat.not_lt.2 hyx (Nat.lt_of_lt_of_le hlate hle)

end ExpiresBy

omit [RustSized K] [RustSized V] in
theorem get_of_live {c : MemoryCache K V P} {env : Env K} {key : K} {e : CachedValue V}
    (hl : c.entries.lookup key = some e) (hx : e.isExpired env.now = false) :
    (c.get env key).2 = .ok (some e.value) := by
  unfold MemoryCache.get
  simp [hl, hx]

omit [RustSized K] [RustSized V] in
theorem get_of_not_live {c : MemoryCache K V P} {env : Env K} {key : K}
    (h : ¬ c.HoldsLive env.now key) : (c.get env key).2 = .ok none := by
  rcases get_cases c env key with ⟨e, _, _, hg⟩ | ⟨e, hl, hx, _⟩ | ⟨_, hg⟩
  · rw [hg]
  · exact absurd ⟨e, hl, hx⟩ h
  · rw [hg]

omit [EvictionPolicy K P] [RustSized K] [RustSized V] in
theorem exists_eq (c : MemoryCache K V P) (now : Instant) (key : K) :
    c.exists now key = .ok (decide (c.HoldsLive now key)) := by
  unfold MemoryCache.exists
  refine congrArg Outcome.ok ?_
  cases hl : c.entries.lookup key with
  | none => simp [HoldsLive, hl]
  | some e =>
    cases hx : e.isExpired now with
    | true => simp [HoldsLive, hl, hx]
    | false => simp [HoldsLive, hl, hx]

end MemoryCache

open MemoryCache

/-- One of these tiers, read in order from the `n`th environment on, holds a live entry of `key`. -/
def LiveFrom (envs : Nat → Env K) (key : K) : Nat → List (MemoryCache K V P) → Prop
  | _, [] => False
  | n, tier :: tiers => tier.HoldsLive (envs n).now key ∨ LiveFrom envs key (n + 1) tiers

instance decidableLiveFrom (envs : Nat → Env K) (key : K) :
    ∀ (n : Nat) (tiers : List (MemoryCache K V P)), Decidable (LiveFrom envs key n tiers)
  | _, [] => isFalse id
  | n, tier :: tiers =>
    have := decidableLiveFrom envs key (n + 1) tiers
    inferInstanceAs (Decidable (tier.HoldsLive (envs n).now key ∨ LiveFrom envs key (n + 1) tiers))

/-- The call is a `get` of `key` that the first tier cannot answer and a slower one can. -/
def Promotes (key : K) (s : CacheSession (MemoryCache K V P)) (e : CacheEvent K V) : Prop :=
  match e.op, s.cache.tiers with
  | .get k, first :: slower =>
    k = key ∧ ¬ first.HoldsLive (e.envs 0).now key ∧ LiveFrom e.envs key 1 slower
  | _, _ => False

/-- A search that finds no live entry asks every tier and returns `None`. -/
theorem getLoop_of_not_live {envs : Nat → Env K} {key : K} {I : MemoryCache K V P → Prop}
    (hget : ∀ n tier, I tier → I (tier.get (envs n) key).1) :
    ∀ (rest faster : List (MemoryCache K V P)) (n : Nat), ¬ LiveFrom envs key n rest →
      (∀ tier ∈ faster, I tier) → (∀ tier ∈ rest, I tier) →
      (∀ tier ∈ (getLoop envs key n faster rest).1, I tier) ∧
        (getLoop envs key n faster rest).2 = .ok none
  | [], faster, n, _, hfast, _ => ⟨hfast, rfl⟩
  | tier :: rest, faster, n, hlive, hfast, hrest => by
    have hI := hget n tier (hrest tier List.mem_cons_self)
    have hnone : (tier.get (envs n) key).2 = .ok none :=
      get_of_not_live fun h => hlive (Or.inl h)
    have hpair : tier.get (envs n) key = ((tier.get (envs n) key).1, .ok none) := Prod.ext rfl hnone
    rw [getLoop_miss faster rest hpair]
    refine getLoop_of_not_live hget rest _ (n + 1) (fun h => hlive (Or.inr h)) ?_ ?_
    · exact List.forall_mem_append.2 ⟨hfast, List.forall_mem_singleton.2 hI⟩
    · exact fun t ht => hrest t (List.mem_cons_of_mem _ ht)

/-- `exists` says whether one of the tiers holds a live entry, and changes none. -/
theorem existsLoop_eq (envs : Nat → Env K) (key : K) :
    ∀ (tiers : List (MemoryCache K V P)) (n : Nat),
      existsLoop envs key n tiers = (tiers, .ok (decide (LiveFrom envs key n tiers)))
  | [], _ => rfl
  | tier :: tiers, n => by
    have ih := existsLoop_eq envs key tiers (n + 1)
    have hex : Tier.exists tier (envs n) key =
        (tier, .ok (decide (tier.HoldsLive (envs n).now key))) :=
      Prod.ext rfl (exists_eq tier (envs n).now key)
    by_cases hlive : tier.HoldsLive (envs n).now key
    · have hfrom : LiveFrom envs key n (tier :: tiers) := Or.inl hlive
      rw [decide_eq_true hlive] at hex
      rw [existsLoop_found tiers hex, decide_eq_true hfrom]
    · have hfrom : LiveFrom envs key n (tier :: tiers) ↔ LiveFrom envs key (n + 1) tiers :=
        or_iff_right hlive
      rw [decide_eq_false hlive] at hex
      rw [existsLoop_absent tiers hex, ih]
      simp only [hfrom]

/-! ## Steps -/

/-- A `get` that does not promote `key` keeps the bound on its expiry in every tier. -/
theorem expiresBy_getLoop {s : CacheSession (MemoryCache K V P)} {e : CacheEvent K V} {x : Instant}
    {key k : K} (h : ∀ tier ∈ s.cache.tiers, ExpiresBy x key tier) (hop : e.op = .get k)
    (hp : ¬ Promotes key s e) :
    ∀ tier ∈ (getLoop e.envs k 0 [] s.cache.tiers).1, ExpiresBy x key tier := by
  unfold Promotes at hp
  rw [hop] at hp
  by_cases hk : k = key
  · subst hk
    cases htiers : s.cache.tiers with
    | nil => intro tier ht; cases ht
    | cons first slower =>
      rw [htiers] at h hp
      obtain ⟨hfirst, hslower⟩ := List.forall_mem_cons.1 h
      by_cases hlive : first.HoldsLive (e.envs 0).now k
      · -- the first tier answers and nothing is written
        obtain ⟨entry, hl, hx⟩ := hlive
        have hhit : Tier.get first (e.envs 0) k =
            ((first.get (e.envs 0) k).1, .ok (some entry.value)) :=
          Prod.ext rfl (get_of_live hl hx)
        rw [getLoop_hit_first slower hhit]
        exact List.forall_mem_cons.2 ⟨hfirst.get (e.envs 0) k, hslower⟩
      · -- no tier answers
        have hnone : ¬ LiveFrom e.envs k 0 (first :: slower) := by
          rintro (hl | hl)
          · exact hlive hl
          · exact hp ⟨rfl, hlive, hl⟩
        exact (getLoop_of_not_live (I := ExpiresBy x k)
          (fun n tier ht => ExpiresBy.get ht (e.envs n) k) _ [] 0 hnone
          (fun _ ht => by cases ht) h).1
  · exact (getLoop_inv e.envs (ExpiresBy x key) k (fun _ => True)
      (fun n tier ht => ⟨ExpiresBy.get ht (e.envs n) k, fun _ _ => trivial⟩)
      (fun n tier v ht _ => ExpiresBy.set ht (Ne.symm hk) (e.envs n) v none) _ [] 0
      (fun _ ht => by cases ht) h).1

/-- A call that neither writes `key` nor promotes it keeps the bound on its expiry in every tier. -/
theorem expiresBy_step {s t : CacheSession (MemoryCache K V P)} {e : CacheEvent K V} {x : Instant}
    {key : K} (h : ∀ tier ∈ s.cache.tiers, ExpiresBy x key tier) (hw : ¬ e.Writes key)
    (hp : ¬ Promotes key s e) (hstep : CacheStep s e t) :
    ∀ tier ∈ t.cache.tiers, ExpiresBy x key tier := by
  have hexec := hstep.exec_eq
  unfold CacheEvent.Writes at hw
  cases hop : e.op with
  | get k =>
    rw [hop] at hexec
    obtain ⟨hc, -⟩ := Prod.mk.inj hexec
    rw [← hc]
    exact expiresBy_getLoop h hop hp
  | set k v =>
    rw [hop] at hexec hw
    obtain ⟨hc, -⟩ := Prod.mk.inj hexec
    rw [← hc]
    exact eachTier_inv (fun n tier ht => ExpiresBy.set ht (Ne.symm hw) (e.envs n) v _) _ 0 none h
  | setWithTtl k v d =>
    rw [hop] at hexec hw
    obtain ⟨hc, -⟩ := Prod.mk.inj hexec
    rw [← hc]
    exact eachTier_inv (fun n tier ht => ExpiresBy.set ht (Ne.symm hw) (e.envs n) v _) _ 0 none h
  | delete k =>
    rw [hop] at hexec
    obtain ⟨hc, -⟩ := Prod.mk.inj hexec
    rw [← hc]
    exact eachTier_inv (fun n tier ht => ExpiresBy.delete ht k) _ 0 none h
  | «exists» k =>
    rw [hop] at hexec
    obtain ⟨hc, -⟩ := Prod.mk.inj hexec
    rw [← hc]
    show ∀ tier ∈ (existsLoop e.envs k 0 s.cache.tiers).1, ExpiresBy x key tier
    rw [existsLoop_eq e.envs k s.cache.tiers 0]
    exact h

omit [EvictionPolicy K P] [RustSized K] [RustSized V] in
/-- Once every tier's entry of `key` has expired, no tier is live. -/
theorem not_liveFrom {envs : Nat → Env K} {key : K} {x : Instant} (hlate : ∀ n, x < (envs n).now) :
    ∀ (tiers : List (MemoryCache K V P)) (n : Nat), (∀ tier ∈ tiers, ExpiresBy x key tier) →
      ¬ LiveFrom envs key n tiers
  | [], _, _ => id
  | tier :: tiers, n, h => by
    obtain ⟨hhead, htail⟩ := List.forall_mem_cons.1 h
    rintro (hl | hl)
    · exact hhead.not_live (hlate n) hl
    · exact not_liveFrom hlate tiers (n + 1) htail hl

/-- **No value outlives its time-to-live**, unless it is promoted.  Take a `set_with_ttl(key, v, d)` on
a cache in any state, a run of calls that neither write `key` nor promote it, and then a call all of
whose readings of the clock are more than `d` after the instant at which the `set_with_ttl` had
finished: `get` returns `None` and `exists` returns `false`. -/
theorem no_value_outlives_ttl {s₀ s₁ s₂ s₃ : CacheSession (MemoryCache K V P)}
    {e₀ e : CacheEvent K V} {es : List (CacheEvent K V)} {key : K} {v : V} {d : Duration}
    (hset : CacheStep s₀ e₀ s₁) (hop : e₀.op = .setWithTtl key v d) (hret : e₀.reply.Returned)
    (hrun : Run (Guarded (fun s e => ¬ Promotes key s e)
      (Guarded (fun _ e => ¬ e.Writes key) CacheStep)) s₁ es s₂)
    (hstep : CacheStep s₂ e s₃) (hlate : e₀.finish + d < (e.envs 0).now) :
    (e.op = .get key → e.reply = .ok (.value none)) ∧
      (e.op = .exists key → e.reply = .ok (.flag false)) := by
  have hwritten : ∀ tier ∈ s₁.cache.tiers, ExpiresBy (e₀.finish + d) key tier := by
    have hexec := hset.exec_eq
    rw [hop] at hexec
    obtain ⟨hc, hreply⟩ := Prod.mk.inj hexec
    rw [← hreply] at hret
    rw [← hc]
    refine eachTier_returned (fun n tier _ _ => ?_) s₀.cache.tiers 0 none
      (fun _ _ => trivial) (Outcome.returned_of_map hret)
    exact ExpiresBy.of_set tier (e₀.envs n) key v d (Nat.add_le_add_right (hset.le_finish n) d)
  have hlast : ∀ tier ∈ s₂.cache.tiers, ExpiresBy (e₀.finish + d) key tier :=
    hrun.invariant (fun s : CacheSession (MemoryCache K V P) =>
      ∀ tier ∈ s.cache.tiers, ExpiresBy (e₀.finish + d) key tier) hwritten
      fun s e t h hs => expiresBy_step h hs.2.1 hs.1 hs.2.2
  have hnone : ¬ LiveFrom e.envs key 0 s₂.cache.tiers :=
    not_liveFrom (fun n => Nat.lt_of_lt_of_le hlate (hstep.mono 0 n (Nat.zero_le n))) _ 0 hlast
  have hexec := hstep.exec_eq
  constructor
  · intro hget
    rw [hget] at hexec
    have hloop := (getLoop_of_not_live (I := fun _ => True) (fun _ _ _ => trivial) s₂.cache.tiers []
      0 hnone (fun _ _ => trivial) (fun _ _ => trivial)).2
    rw [← (Prod.mk.inj hexec).2]
    show (getLoop e.envs key 0 [] s₂.cache.tiers).2.map _ = _
    rw [hloop]
    rfl
  · intro hex
    rw [hex] at hexec
    rw [← (Prod.mk.inj hexec).2]
    show (existsLoop e.envs key 0 s₂.cache.tiers).2.map _ = _
    rw [existsLoop_eq e.envs key s₂.cache.tiers 0, decide_eq_false hnone]
    rfl

instance (key : K) (s : CacheSession (MemoryCache K V P)) (e : CacheEvent K V) :
    Decidable (Promotes key s e) := by
  unfold Promotes
  split <;> infer_instance

instance {K V : Type} [DecidableEq K] (e : CacheEvent K V) (key : K) : Decidable (e.Writes key) :=
  match e with
  | { op := .set k _, .. } => inferInstanceAs (Decidable (k = key))
  | { op := .setWithTtl k _ _, .. } => inferInstanceAs (Decidable (k = key))
  | { op := .delete k, .. } => inferInstanceAs (Decidable (k = key))
  | { op := .get _, .. } => isFalse id
  | { op := .exists _, .. } => isFalse id

/-- A first tier with room for one entry and a second with room for 64. -/
def freshTwoTiers : CacheSession (MemoryCache UInt64 UInt64 (BoxedPolicy UInt64)) :=
  ⟨⟨[.withPolicy 16 (.lru (LRU.new _ 1024 (Nat.succ_pos (nat_lit 1023)))) (Nat.succ_pos (nat_lit 15)),
    .withPolicy 1024 (.lru (LRU.new _ 1024 (Nat.succ_pos (nat_lit 1023)))) (Nat.succ_pos (nat_lit 1023))]⟩, 0⟩

/-- Key 1 is cached for five nanoseconds, read from the first tier, and the clock moves on. -/
def readInTime : List (Env UInt64 × CacheOp UInt64 UInt64) := [(⟨1, .id _⟩, .get 1)]

theorem no_value_outlives_ttl_in_time :
    (((freshTwoTiers.after ⟨0, .id _⟩ (.setWithTtl 1 10 5)).script readInTime).2.event ⟨6, .id _⟩
      (.get 1)).reply = .ok (.value none) :=
  have hrun : Run (Guarded (fun s e => ¬ Promotes 1 s e ∧ ¬ e.Writes 1) CacheStep)
      (freshTwoTiers.after ⟨0, .id _⟩ (.setWithTtl 1 10 5)) _ _ :=
    cacheRun_script readInTime _ (by decide)
  (no_value_outlives_ttl (cacheStep_after freshTwoTiers ⟨0, .id _⟩ (.setWithTtl 1 10 5) (by decide))
    rfl (by decide) hrun.guarded_and (cacheStep_after _ ⟨6, .id _⟩ (.get 1) (by decide))
    (by decide)).1 rfl

/-- Key 1 is cached for five nanoseconds, a second key evicts it from the first tier, and a `get`
promotes it back. -/
def promotingCalls : List (Env UInt64 × CacheOp UInt64 UInt64) :=
  [(⟨0, .id _⟩, .setWithTtl 1 10 5), (⟨1, .id _⟩, .setWithTtl 2 20 5), (⟨2, .id _⟩, .get 1)]

/-- Long after the five nanoseconds the promoted value is still there. -/
theorem promoted_value_outlives_ttl :
    Run CacheStep freshTwoTiers (freshTwoTiers.script promotingCalls).1
        (freshTwoTiers.script promotingCalls).2 ∧
      ((freshTwoTiers.script promotingCalls).2.event ⟨1000, .id _⟩ (.get 1)).reply =
        .ok (.value (some 10)) ∧
      ((freshTwoTiers.script promotingCalls).2.event ⟨1000, .id _⟩ (.exists 1)).reply =
        .ok (.flag true) :=
  have hrun : Run (Guarded (fun _ _ => True) CacheStep) freshTwoTiers _ _ :=
    cacheRun_script promotingCalls freshTwoTiers (by decide)
  ⟨hrun.of_guarded, by decide, by decide⟩

end CacheLayer
