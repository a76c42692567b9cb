import CacheLayer.MultiTierCoherence
import CacheLayer.MultiTierStats

/-!
# `exists` and `get`

`exists` looks a key up once in each tier; `get` looks it up twice, removes it where it has expired,
touches it where it has not, and promotes it.  Both answer by the same condition, that some tier holds a
live entry (`LiveFrom`).

* `getLoop_some_iff` — over covered tiers `get` returns a value exactly under that condition;
* `exists_unchanged` — `exists` leaves the cache as it is;
* `replay_otherCalls` — so the other calls of a run, executed without the `exists` calls between them,
  reply the same and end in the same cache;
* `exists_agrees_with_get` — the two methods agree in every state of every run, and runs with the same
  other calls have the same results.
-/

set_option autoImplicit false

namespace CacheLayer

open MemoryCache MultiTierCache

variable {K V P : Type} [DecidableEq K] [EvictionPolicy K P] [RustSized K] [RustSized V]

/-! ## One condition for both -/

omit [EvictionPolicy K P] [RustSized K] [RustSized V] in
/-- Whether a tier is live depends on the clock alone. -/
theorem liveFrom_congr {envs envs' : Nat → Env K} (hnow : ∀ n, (envs n).now = (envs' n).now)
    (key : K) : ∀ (tiers : List (MemoryCache K V P)) (n : Nat),
      LiveFrom envs key n tiers ↔ LiveFrom envs' key n tiers
  | [], _ => Iff.rfl
  | tier :: tiers, n => by
    unfold LiveFrom
    rw [hnow n, liveFrom_congr hnow key tiers (n + 1)]

/-- **A search over covered tiers returns a value exactly if one of them is live.** -/
theorem getLoop_some_iff {tiers : List (MemoryCache K V P)} (h : ∀ tier ∈ tiers, Covered tier)
    (envs : Nat → Env K) (key : K) :
    (∃ v, (getLoop envs key 0 [] tiers).2 = .ok (some v)) ↔ LiveFrom envs key 0 tiers := by
  constructor
  · rintro ⟨v, hv⟩
    refine Classical.byContradiction fun hlive => ?_
    have hnone := (getLoop_of_not_live (I := fun _ => True) (fun _ _ _ => trivial) tiers [] 0 hlive
      (fun _ _ => trivial) (fun _ _ => trivial)).2
    rw [hv] at hnone
    cases hnone
  · intro hlive
    have hget : ∀ n (tier : MemoryCache K V P), Covered tier → Covered (tier.get (envs n) key).1 ∧
        (tier.get (envs n) key).2.Returned := by
      intro n tier ht
      obtain ⟨hcov, r, hr⟩ := ht.get (envs n) key
      exact ⟨hcov, by rw [hr]; trivial⟩
    obtain ⟨r, hr⟩ := getLoop_returns envs Covered key hget
      (fun n tier v ht => ht.set_returned (envs n) key v (representable_none _)) tiers [] 0
      (fun _ ht => absurd ht List.not_mem_nil) h
    have hne := getLoop_ne_none tiers [] 0 hlive
    rw [hr] at hne ⊢
    cases r with
    | none => exact absurd rfl hne
    | some v => exact ⟨v, rfl⟩

theorem exists_unchanged (c : MultiTierCache (MemoryCache K V P)) (envs : Nat → Env K) (key : K) :
    (c.exists envs key).1 = c := by
  unfold MultiTierCache.exists
  rw [existsLoop_eq]

/-! ## Runs without their `exists` calls -/

/-- The call is an `exists`. -/
def CacheEvent.isExists (e : CacheEvent K V) : Bool :=
  match e.op with
  | .exists _ => true
  | _ => false

/-- The calls of a history other than `exists`. -/
def otherCalls (es : List (CacheEvent K V)) : List (CacheEvent K V) :=
  es.filter fun e => !e.isExists

/-- A call without its result. -/
def CacheEvent.call (e : CacheEvent K V) : (Nat → Env K) × CacheOp K V := (e.envs, e.op)

/-- Execute a list of calls: their replies, and the cache they leave. -/
def MultiTierCache.replay {T : Type} [Tier K V T] (c : MultiTierCache T)
    (calls : List ((Nat → Env K) × CacheOp K V)) : List (Outcome (Reply V)) × MultiTierCache T :=
  Run.script (fun c call => (c.exec call.1 call.2).2) (fun c call => (c.exec call.1 call.2).1) c calls

/-- **The other calls of a run do not need the `exists` calls between them.** -/
theorem replay_otherCalls {s₀ s : CacheSession (MemoryCache K V P)} {es : List (CacheEvent K V)}
    (hrun : Run CacheStep s₀ es s) :
    s₀.cache.replay ((otherCalls es).map (·.call)) = ((otherCalls es).map (·.reply), s.cache) := by
  induction hrun with
  | nil => rfl
  | @snoc es s e t _ hstep ih =>
    obtain ⟨hc, hreply⟩ := Prod.mk.inj hstep.exec_eq
    have hother : otherCalls (es ++ [e]) = otherCalls es ++ if e.isExists then [] else [e] := by
      unfold otherCalls
      rw [List.filter_append]
      cases he : e.isExists <;> simp [he]
    rw [hother]
    cases he : e.isExists with
    | true =>
      have hcache : t.cache = s.cache := by
        rw [← hc]
        cases hop : e.op with
        | «exists» key => exact exists_unchanged s.cache e.envs key
        | get key => simp [CacheEvent.isExists, hop] at he
        | set key value => simp [CacheEvent.isExists, hop] at he
        | setWithTtl key value ttl => simp [CacheEvent.isExists, hop] at he
        | delete key => simp [CacheEvent.isExists, hop] at he
      rw [if_pos rfl, List.append_nil, ih, hcache]
    | false =>
      rw [if_neg Bool.false_ne_true, List.map_append, List.map_append]
      unfold MultiTierCache.replay at ih ⊢
      rw [List.map_singleton, List.map_singleton, Run.script_snoc, ih]
      exact Prod.ext (congrArg (_ ++ [·]) hreply) hc

/-- **`exists` agrees with `get` and disturbs nothing.**  In every state of every run from fresh tiers of
any capacities and policies: for equal readings of the clock `exists(k)` returns `Ok(true)` exactly if
`get(k)` would return `Ok(Some(_))`; `exists` leaves the cache as it is; and any other run from the same
tiers with the same calls, whatever `exists` calls it has between them, has the same replies to them and
ends in the same cache. -/
theorem exists_agrees_with_get {tiers : List (MemoryCache K V P)} {es : List (CacheEvent K V)}
    {s : CacheSession (MemoryCache K V P)}
    (hfresh : ∀ tier ∈ tiers, ∃ cap policy h, tier = .withPolicy cap policy h)
    (hrun : Run CacheStep ⟨⟨tiers⟩, 0⟩ es s) :
    (∀ (envs envs' : Nat → Env K) key, (∀ n, (envs n).now = (envs' n).now) →
      ((s.cache.exists envs key).2 = .ok true ↔ ∃ v, (s.cache.get envs' key).2 = .ok (some v))) ∧
    (∀ (envs : Nat → Env K) key, (s.cache.exists envs key).1 = s.cache) ∧
    ∀ (es' : List (CacheEvent K V)) s', Run CacheStep ⟨⟨tiers⟩, 0⟩ es' s' →
      (otherCalls es').map (·.call) = (otherCalls es).map (·.call) →
      (otherCalls es').map (·.reply) = (otherCalls es).map (·.reply) ∧ s'.cache = s.cache := by
  have hcov := (conserved_of_run hfresh hrun).covered
  refine ⟨?_, exists_unchanged s.cache, ?_⟩
  · intro envs envs' key hnow
    have hget : (∃ v, (s.cache.get envs' key).2 = .ok (some v)) ↔
        LiveFrom envs' key 0 s.cache.tiers := getLoop_some_iff hcov envs' key
    have hex : (s.cache.exists envs key).2 = .ok (decide (LiveFrom envs key 0 s.cache.tiers)) :=
      congrArg Prod.snd (existsLoop_eq envs key s.cache.tiers 0)
    rw [hget, hex, ← liveFrom_congr hnow]
    simp
  · intro es' s' hrun' hcalls
    have hreplay := replay_otherCalls hrun
    have hreplay' := replay_otherCalls hrun'
    rw [hcalls, hreplay] at hreplay'
    obtain ⟨hreply, hcache⟩ := Prod.mk.inj hreplay'
    exact ⟨hreply.symm, hcache.symm⟩

/-- A key is written with a time-to-live, asked for at its last instant, and read one nanosecond later. -/
def askedInTime : List (Env UInt64 × CacheOp UInt64 UInt64) :=
  [(⟨0, .id _⟩, .setWithTtl 1 10 5), (⟨5, .id _⟩, .exists 1), (⟨6, .id _⟩, .exists 1),
    (⟨6, .id _⟩, .get 1)]

/-- The same without the questions. -/
def notAsked : List (Env UInt64 × CacheOp UInt64 UInt64) :=
  [(⟨0, .id _⟩, .setWithTtl 1 10 5), (⟨6, .id _⟩, .get 1)]

theorem exists_agrees_with_get_in_time :
    (otherCalls (narrowOverWide.script askedInTime).1).map (·.reply) =
        (otherCalls (narrowOverWide.script notAsked).1).map (·.reply) ∧
      (narrowOverWide.script askedInTime).2.cache = (narrowOverWide.script notAsked).2.cache := by
  have hasked : Run (Guarded (fun _ _ => True) CacheStep) narrowOverWide _ _ :=
    cacheRun_script askedInTime narrowOverWide (by decide)
  have hnot : Run (Guarded (fun _ _ => True) CacheStep) narrowOverWide _ _ :=
    cacheRun_script notAsked narrowOverWide (by decide)
  exact (exists_agrees_with_get (fun _ ht => withPolicy_pair ht) hnot.of_guarded).2.2 _ _
    hasked.of_guarded rfl

end CacheLayer
