import CacheLayer.MultiTierCoherence

/-!
# Tiers that fail

The tiers of a `MultiTierCache` may be remote or on disk, and any call on one of them may fail.  A failed
`get` counts as a miss and the search goes on; a failed write is remembered, and the other tiers are
written all the same.

* `CallsReturn`, `ActsAsMap view` — what is assumed of the tiers: calls return, a failed call changes
  nothing, and the others act on the map that `view` shows;
* `get_contract_iff` — `get` does what the `Cache` trait says exactly if some tier answers;
  `get_outage_is_a_miss` is an outage of all tiers;
* `no_stale_read` — once a `set` has been accepted by every tier that held its key, no `get` returns an
  older value; `stale_read_after_partial_set` is a `set` that one of them rejects;
* `FlakyTier` — a tier with a schedule of failures.
-/

set_option autoImplicit false

namespace CacheLayer

open MultiTierCache

/-! ## Assumptions on the tiers -/

/-- Calls on a tier return, with `Ok` or with `Err`. -/
structure CallsReturn {K V : Type} (T : Type) [Tier K V T] : Prop where
  get : ∀ (tier : T) (env : Env K) (key : K), (Tier.get tier env key).2.Returned
  set : ∀ (tier : T) (env : Env K) (key : K) (value : V) (ttl : Option Duration),
    (Tier.set tier env key value ttl).2.Returned

/-- A call that returns `Err` leaves what the tier shows as it is, and a call that returns `Ok` acts on it
as on a map without times-to-live. -/
structure ActsAsMap {K V T : Type} [DecidableEq K] [Tier K V T] (view : T → K → Option V) : Prop where
  get : ∀ (tier : T) (env : Env K) (key : K),
    ((∃ e, (Tier.get tier env key).2 = .err e) ∨ (Tier.get tier env key).2 = .ok (view tier key)) ∧
      view (Tier.get tier env key).1 = view tier
  set : ∀ (tier : T) (env : Env K) (key : K) (value : V) (ttl : Option Duration),
    (∃ e, (Tier.set tier env key value ttl).2 = .err e) ∧
        view (Tier.set tier env key value ttl).1 = view tier ∨
      (Tier.set tier env key value ttl).2 = .ok () ∧
        view (Tier.set tier env key value ttl).1 = Function.update (view tier) key (some value)
  delete : ∀ (tier : T) (env : Env K) (key : K),
    (∃ e, (Tier.delete tier env key).2 = .err e) ∧
        view (Tier.delete tier env key).1 = view tier ∨
      (Tier.delete tier env key).2 = .ok () ∧
        view (Tier.delete tier env key).1 = Function.update (view tier) key none
  «exists» : ∀ (tier : T) (env : Env K) (key : K),
    ((∃ e, (Tier.exists tier env key).2 = .err e) ∨
        (Tier.exists tier env key).2 = .ok (view tier key).isSome) ∧
      view (Tier.exists tier env key).1 = view tier

variable {K V T : Type} [Tier K V T]

theorem ActsAsMap.callsReturn [DecidableEq K] {view : T → K → Option V} (h : ActsAsMap view) :
    CallsReturn T where
  get tier env key := by
    rcases (h.get tier env key).1 with ⟨e, he⟩ | hok
    · rw [he]; trivial
    · rw [hok]; trivial
  set tier env key value ttl := by
    rcases h.set tier env key value ttl with ⟨⟨e, he⟩, -⟩ | ⟨hok, -⟩
    · rw [he]; trivial
    · rw [hok]; trivial

/-! ## The answers to a `get` -/

/-- What the tiers answer to `get(key)`, each in its own environment. -/
def answers (envs : Nat → Env K) (key : K) : Nat → List T → List (Outcome (Option V))
  | _, [] => []
  | n, tier :: tiers => (Tier.get tier (envs n) key).2 :: answers envs key (n + 1) tiers

/-- The first value among the answers. -/
def firstHit : List (Outcome (Option V)) → Option V
  | [] => none
  | .ok (some v) :: _ => some v
  | _ :: rest => firstHit rest

/-- **`get` returns the first hit, or else `Ok(None)`**, whatever the other answers are. -/
theorem getLoop_answers (hret : CallsReturn T) (envs : Nat → Env K) (key : K) :
    ∀ (rest faster : List T) (n : Nat),
      (getLoop envs key n faster rest).2 = .ok (firstHit (answers envs key n rest))
  | [], _, _ => rfl
  | tier :: rest, faster, n => by
    have htier := hret.get tier (envs n) key
    have hrec := fun faster => getLoop_answers hret envs key rest faster (n + 1)
    unfold getLoop answers
    split
    · rename_i tier' value heq
      rw [promote_eq (I := fun _ => True) (fun m t _ => hret.set t (envs m) key value none) (n + 1)
        faster fun _ _ => trivial, heq]
      rfl
    · rename_i tier' heq
      rw [heq]
      exact hrec _
    · rename_i tier' e heq
      rw [heq]
      exact hrec _
    · rename_i heq
      rw [heq] at htier
      exact htier.elim

theorem answers_returned (hret : CallsReturn T) (envs : Nat → Env K) (key : K) :
    ∀ (n : Nat) (tiers : List T), ∀ a ∈ answers envs key n tiers, a.Returned
  | _, [], a, ha => by cases ha
  | n, tier :: tiers, a, ha => by
    rcases List.mem_cons.1 ha with rfl | ha
    · exact hret.get tier (envs n) key
    · exact answers_returned hret envs key (n + 1) tiers a ha

section FirstHit

variable {a : Outcome (Option V)} {l : List (Outcome (Option V))} {v : V}

omit [Tier K V T] in
theorem firstHit_cons_of_ne (h : ∀ v, a ≠ .ok (some v)) : firstHit (a :: l) = firstHit l := by
  cases a with
  | ok r =>
    cases r with
    | none => rfl
    | some v => exact absurd rfl (h v)
  | err e => rfl
  | panic p => rfl

theorem firstHit_eq_none (h : ∀ v : V, Outcome.ok (some v) ∉ l) : firstHit l = none := by
  induction l with
  | nil => rfl
  | cons a l ih =>
    have hhead : ∀ v, a ≠ .ok (some v) := fun v heq => h v (heq ▸ List.mem_cons_self)
    rw [firstHit_cons_of_ne hhead]
    exact ih fun v hv => h v (List.mem_cons_of_mem a hv)

theorem firstHit_eq_some {i : Nat} (h : l[i]? = some (.ok (some v)))
    (hfirst : ∀ j < i, ∀ w, l[j]? ≠ some (.ok (some w))) : firstHit l = some v := by
  induction l generalizing i with
  | nil => simp at h
  | cons a l ih =>
    cases i with
    | zero =>
      rw [List.getElem?_cons_zero] at h
      cases h
      rfl
    | succ i =>
      have hhead : ∀ w, a ≠ .ok (some w) := fun w heq =>
        hfirst 0 (Nat.succ_pos i) w (by rw [List.getElem?_cons_zero, heq])
      rw [List.getElem?_cons_succ] at h
      rw [firstHit_cons_of_ne hhead]
      exact ih h fun j hj w => hfirst (j + 1) (Nat.succ_lt_succ hj) w

end FirstHit

/-- What the `Cache` trait says of the result `r` of a `get`, given the answers of the tiers: the first
value that a tier returned; `Ok(None)` if some tier answered and none had a value; `Err` if all tiers
failed. -/
structure GetContract (answers : List (Outcome (Option V))) (r : Outcome (Option V)) : Prop where
  hit : ∀ (i : Nat) (v : V), answers[i]? = some (.ok (some v)) →
    (∀ j < i, ∀ w : V, answers[j]? ≠ some (.ok (some w))) → r = .ok (some v)
  miss : (∀ v : V, Outcome.ok (some v) ∉ answers) → Outcome.ok none ∈ answers → r = .ok none
  outage : (∀ a ∈ answers, ∃ e, a = .err e) → ∃ e, r = .err e

/-- **When `get` meets its contract**: exactly if some tier answers `Ok`. -/
theorem get_contract_iff (hret : CallsReturn T) (c : MultiTierCache T) (envs : Nat → Env K)
    (key : K) :
    GetContract (answers envs key 0 c.tiers) (c.get envs key).2 ↔
      ∃ r, Outcome.ok r ∈ answers envs key 0 c.tiers := by
  have hresult : (c.get envs key).2 = .ok (firstHit (answers envs key 0 c.tiers)) :=
    getLoop_answers hret envs key c.tiers [] 0
  rw [hresult]
  constructor
  · intro h
    by_contra hnone
    have hall : ∀ a ∈ answers envs key 0 c.tiers, ∃ e, a = .err e := by
      intro a ha
      cases a with
      | ok r => exact absurd ⟨r, ha⟩ hnone
      | err e => exact ⟨e, rfl⟩
      | panic p => exact (answers_returned hret envs key 0 c.tiers _ ha).elim
    -- all tiers have failed, and the result is `Ok(None)`
    obtain ⟨e, he⟩ := h.outage hall
    cases he
  · rintro ⟨r, hr⟩
    refine ⟨?_, ?_, ?_⟩
    · intro i v hi hfirst
      rw [firstHit_eq_some hi hfirst]
    · intro hnohit _
      rw [firstHit_eq_none hnohit]
    · intro hall
      obtain ⟨e, he⟩ := hall _ hr
      cases he

/-! ## Reads after a partial write -/

section Stale

variable [DecidableEq K] {view : T → K → Option V} {key : K} {v : V}

/-- The tier shows `v` under `key`, or nothing. -/
def Current (view : T → K → Option V) (key : K) (v : V) (tier : T) : Prop :=
  ∀ x ∈ view tier key, x = v

theorem ActsAsMap.current_set (h : ActsAsMap view) {tier : T} (env : Env K) {k : K} {x : V}
    (ttl : Option Duration) (hc : Current view key v tier) (hx : k = key → x = v) :
    Current view key v (Tier.set tier env k x ttl).1 := by
  rcases h.set tier env k x ttl with ⟨-, hview⟩ | ⟨-, hview⟩
  · unfold Current
    rw [hview]
    exact hc
  · unfold Current
    rw [hview]
    by_cases hk : k = key
    · subst hk
      rw [Function.update_self]
      intro y hy
      rw [← Option.some.inj hy]
      exact hx rfl
    · rw [Function.update_of_ne (Ne.symm hk)]
      exact hc

theorem ActsAsMap.current_delete (h : ActsAsMap view) {tier : T} (env : Env K) (k : K)
    (hc : Current view key v tier) : Current view key v (Tier.delete tier env k).1 := by
  rcases h.delete tier env k with ⟨-, hview⟩ | ⟨-, hview⟩
  · unfold Current
    rw [hview]
    exact hc
  · unfold Current
    rw [hview]
    by_cases hk : k = key
    · subst hk
      rw [Function.update_self]
      exact fun y hy => by cases hy
    · rw [Function.update_of_ne (Ne.symm hk)]
      exact hc

/-- A `get` keeps every tier current, and returns `v` for `key`, if it returns a value. -/
theorem ActsAsMap.current_get (h : ActsAsMap view) (envs : Nat → Env K) (k : K) {tiers : List T}
    (hc : ∀ tier ∈ tiers, Current view key v tier) :
    (∀ tier ∈ (getLoop envs k 0 [] tiers).1, Current view key v tier) ∧
      ∀ x, (getLoop envs k 0 [] tiers).2 = .ok (some x) → k = key → x = v := by
  refine getLoop_inv envs (Current view key v) k (fun x => k = key → x = v) ?_ ?_ tiers [] 0
    (fun _ ht => absurd ht List.not_mem_nil) hc
  · intro n tier ht
    obtain ⟨hans, hview⟩ := h.get tier (envs n) k
    refine ⟨?_, ?_⟩
    · unfold Current
      rw [hview]
      exact ht
    · rintro x hx rfl
      rcases hans with ⟨e, he⟩ | hok
      · rw [he] at hx; cases hx
      · rw [hok] at hx
        exact ht x (Outcome.ok.inj hx)
  · exact fun n tier x ht hx => h.current_set (envs n) none ht hx

/-- A call that does not set `key` keeps every tier current. -/
theorem ActsAsMap.current_step (h : ActsAsMap view) {s t : CacheSession T} {e : CacheEvent K V}
    (hc : ∀ tier ∈ s.cache.tiers, Current view key v tier) (hkeep : ∀ x d, ¬ e.Sets key x d)
    (hstep : CacheStep s e t) : ∀ tier ∈ t.cache.tiers, Current view key v tier := by
  have hexec := hstep.exec_eq
  cases hop : e.op with
  | get k =>
    rw [hop] at hexec
    rw [← (Prod.mk.inj hexec).1]
    exact (h.current_get e.envs k hc).1
  | set k x =>
    rw [hop] at hexec
    rw [← (Prod.mk.inj hexec).1]
    have hne : k ≠ key := fun heq => hkeep x defaultTtl (Or.inr ⟨by rw [hop, heq], rfl⟩)
    exact eachTier_inv (fun n _ ht => h.current_set (e.envs n) _ ht fun heq => absurd heq hne) _ 0
      none hc
  | setWithTtl k x d =>
    rw [hop] at hexec
    rw [← (Prod.mk.inj hexec).1]
    have hne : k ≠ key := fun heq => hkeep x d (Or.inl (by rw [hop, heq]))
    exact eachTier_inv (fun n _ ht => h.current_set (e.envs n) _ ht fun heq => absurd heq hne) _ 0
      none hc
  | delete k =>
    rw [hop] at hexec
    rw [← (Prod.mk.inj hexec).1]
    exact eachTier_inv (fun n _ ht => h.current_delete (e.envs n) k ht) _ 0 none hc
  | «exists» k =>
    rw [hop] at hexec
    rw [← (Prod.mk.inj hexec).1]
    refine existsLoop_inv (fun n tier ht => ?_) _ 0 hc
    unfold Current
    rw [(h.exists tier (e.envs n) k).2]
    exact ht

/-- A `set` that every tier accepts, unless it holds nothing for the key, leaves every tier current. -/
theorem ActsAsMap.current_of_set (h : ActsAsMap view) {s t : CacheSession T} {e : CacheEvent K V}
    {d : Duration} (hset : e.Sets key v d) (hstep : CacheStep s e t)
    (haccept : ∀ i tier, s.cache.tiers[i]? = some tier →
      (Tier.set tier (e.envs i) key v (some d)).2 = .ok () ∨ view tier key = none) :
    ∀ tier ∈ t.cache.tiers, Current view key v tier := by
  have htiers : t.cache.tiers = (eachTier (fun env tier => Tier.set tier env key v (some d)) e.envs 0
      s.cache.tiers none).1 := by
    have hexec := hstep.exec_eq
    rcases hset with hop | ⟨hop, rfl⟩
    all_goals
      rw [hop] at hexec
      rw [← (Prod.mk.inj hexec).1]
      rfl
  intro tier' ht
  rw [htiers] at ht
  obtain ⟨i, hi⟩ := List.mem_iff_getElem?.1 ht
  rw [eachTier_getElem (I := fun _ => True)
    (fun n tier _ => h.callsReturn.set tier (e.envs n) key v (some d)) _ 0 none i
    (fun _ _ => trivial), Nat.zero_add] at hi
  obtain ⟨tier, htier, rfl⟩ := Option.map_eq_some_iff.1 hi
  rcases h.set tier (e.envs i) key v (some d) with ⟨⟨err, herr⟩, hview⟩ | ⟨-, hview⟩
  · -- a tier that rejects the write holds nothing
    rcases haccept i tier htier with hok | hnone
    · rw [herr] at hok; cases hok
    · unfold Current
      rw [hview, hnone]
      exact fun x hx => by cases hx
  · unfold Current
    rw [hview, Function.update_self]
    exact fun x hx => (Option.some.inj hx).symm

end Stale

/-- **No stale read.**  Once `set(key, v)` has been accepted by every tier that held a value for `key`,
whether or not others rejected it, every `get(key)` of any later run without another `set` of `key`
returns `v` or `None`, whichever calls fail. -/
theorem no_stale_read [DecidableEq K] {view : T → K → Option V} (hmap : ActsAsMap view)
    {s t u w : CacheSession T} {e e' : CacheEvent K V} {es : List (CacheEvent K V)} {key : K} {v : V}
    {d : Duration} (hset : e.Sets key v d) (hstep : CacheStep s e t)
    (haccept : ∀ i tier, s.cache.tiers[i]? = some tier →
      (Tier.set tier (e.envs i) key v (some d)).2 = .ok () ∨ view tier key = none)
    (hrun : Run CacheStep t es u) (hkeep : ∀ e₁ ∈ es, ∀ x d₁, ¬ e₁.Sets key x d₁)
    (hget : CacheStep u e' w) (hop : e'.op = .get key) :
    e'.reply = .ok (.value (some v)) ∨ e'.reply = .ok (.value none) := by
  have hcurrent : ∀ tier ∈ u.cache.tiers, Current view key v tier :=
    (hrun.guarded_of_forall hkeep).invariant
      (fun u => ∀ tier ∈ u.cache.tiers, Current view key v tier)
      (hmap.current_of_set hset hstep haccept)
      fun _ _ _ hI hst => hmap.current_step hI hst.1 hst.2
  have hexec := hget.exec_eq
  rw [hop] at hexec
  rw [← (Prod.mk.inj hexec).2]
  have hresult := getLoop_answers hmap.callsReturn e'.envs key u.cache.tiers [] 0
  have hvalue := (hmap.current_get e'.envs key hcurrent).2
  show (getLoop e'.envs key 0 [] u.cache.tiers).2.map Reply.value = _ ∨
    (getLoop e'.envs key 0 [] u.cache.tiers).2.map Reply.value = _
  rw [hresult] at hvalue ⊢
  cases hfirst : firstHit (answers e'.envs key 0 u.cache.tiers) with
  | none => exact Or.inr rfl
  | some x =>
    rw [hvalue x (by rw [hfirst]) rfl]
    exact Or.inl rfl

/-! ## A tier that fails now and then -/

/-- A map with a schedule of failures: its next call fails if the head of `failures` is `true`. -/
structure FlakyTier where
  entries : AssocMap UInt64 UInt64
  failures : List Bool

namespace FlakyTier

/-- A call that leads to `tier'` and returns `a`, unless it fails. -/
def attempt {α : Type} (tier tier' : FlakyTier) (a : α) : FlakyTier × Outcome α :=
  match tier.failures with
  | true :: rest => ({ tier with failures := rest }, .err (.network "connection reset"))
  | false :: rest => ({ tier' with failures := rest }, .ok a)
  | [] => (tier', .ok a)

instance : Tier UInt64 UInt64 FlakyTier where
  get tier _ key := tier.attempt tier (tier.entries.lookup key)
  set tier _ key value _ := tier.attempt { tier with entries := tier.entries.insert key value } ()
  delete tier _ key := tier.attempt { tier with entries := tier.entries.erase key } ()
  «exists» tier _ key := tier.attempt tier (tier.entries.lookup key).isSome
  size tier := tier.entries.count
  capacity _ := usizeMax
  clear tier := tier.attempt { tier with entries := ∅ } ()
  stats _ := .fresh usizeMax

theorem attempt_cases {α : Type} (tier tier' : FlakyTier) (a : α) :
    (∃ e, (tier.attempt tier' a).2 = .err e) ∧ (tier.attempt tier' a).1.entries = tier.entries ∨
      (tier.attempt tier' a).2 = .ok a ∧ (tier.attempt tier' a).1.entries = tier'.entries := by
  unfold attempt
  split
  · exact Or.inl ⟨⟨_, rfl⟩, rfl⟩
  · exact Or.inr ⟨rfl, rfl⟩
  · exact Or.inr ⟨rfl, rfl⟩

/-- What the tier would answer if it did not fail. -/
def view (tier : FlakyTier) (key : UInt64) : Option UInt64 := tier.entries.lookup key

theorem view_congr {tier tier' : FlakyTier} (h : tier'.entries = tier.entries) :
    tier'.view = tier.view := by
  funext key; unfold view; rw [h]

theorem actsAsMap : ActsAsMap view where
  get tier _ key := by
    rcases attempt_cases tier tier (tier.entries.lookup key) with ⟨herr, h⟩ | ⟨hok, h⟩
    · exact ⟨Or.inl herr, view_congr h⟩
    · exact ⟨Or.inr hok, view_congr h⟩
  set tier _ key value _ := by
    rcases attempt_cases tier { tier with entries := tier.entries.insert key value } () with
      ⟨herr, h⟩ | ⟨hok, h⟩
    · exact Or.inl ⟨herr, view_congr h⟩
    · refine Or.inr ⟨hok, (view_congr h).trans ?_⟩
      funext k
      by_cases hk : k = key
      · rw [hk, Function.update_self]
        exact AList.lookup_insert _
      · rw [Function.update_of_ne hk]
        exact AList.lookup_insert_ne hk
  delete tier _ key := by
    rcases attempt_cases tier { tier with entries := tier.entries.erase key } () with
      ⟨herr, h⟩ | ⟨hok, h⟩
    · exact Or.inl ⟨herr, view_congr h⟩
    · refine Or.inr ⟨hok, (view_congr h).trans ?_⟩
      funext k
      by_cases hk : k = key
      · rw [hk, Function.update_self]
        exact AList.lookup_erase key _
      · rw [Function.update_of_ne hk]
        exact AList.lookup_erase_ne hk
  «exists» tier _ key := by
    rcases attempt_cases tier tier (tier.entries.lookup key).isSome with ⟨herr, h⟩ | ⟨hok, h⟩
    · exact ⟨Or.inl herr, view_congr h⟩
    · exact ⟨Or.inr hok, view_congr h⟩

end FlakyTier

/-- The first tier fails, the second answers, the third would fail too. -/
def oneAnswering : MultiTierCache FlakyTier :=
  ⟨[⟨∅, [true]⟩, ⟨∅, [false]⟩, ⟨∅, [true]⟩]⟩

theorem get_contract_one_answering :
    GetContract (answers (fun _ => ⟨0, .id _⟩) 1 0 oneAnswering.tiers)
      (oneAnswering.get (fun _ => ⟨0, .id _⟩) 1).2 :=
  (get_contract_iff FlakyTier.actsAsMap.callsReturn oneAnswering (fun _ => ⟨0, .id _⟩) 1).2
    ⟨none, List.mem_cons_of_mem _ List.mem_cons_self⟩

/-- A cache whose only tier fails answers `Ok(None)`. -/
theorem get_outage_is_a_miss :
    answers (fun _ => ⟨0, .id _⟩) 1 0 [(⟨∅, [true]⟩ : FlakyTier)] =
        [.err (.network "connection reset")] ∧
      ((⟨[⟨∅, [true]⟩]⟩ : MultiTierCache FlakyTier).get (fun _ => ⟨0, .id _⟩) 1).2 = .ok none ∧
      ¬ GetContract (answers (fun _ => ⟨0, .id _⟩) 1 0 [(⟨∅, [true]⟩ : FlakyTier)])
        ((⟨[⟨∅, [true]⟩]⟩ : MultiTierCache FlakyTier).get (fun _ => ⟨0, .id _⟩) 1).2 := by
  have hanswers : answers (fun _ => ⟨0, .id _⟩) 1 0 [(⟨∅, [true]⟩ : FlakyTier)] =
      [.err (.network "connection reset")] := rfl
  refine ⟨hanswers, rfl, fun h => ?_⟩
  obtain ⟨e, he⟩ := h.outage fun a ha => by
    rw [hanswers] at ha
    exact ⟨_, List.mem_singleton.1 ha⟩
  cases he

/-- Two empty tiers; the second rejects its first call. -/
def secondRejectsOnce : CacheSession FlakyTier := ⟨⟨[⟨∅, []⟩, ⟨∅, [true, false]⟩]⟩, 0⟩

/-- A `set` that the second tier, still empty, rejects, and a `get` of its key. -/
theorem no_stale_read_after_rejected_first_set :
    ((secondRejectsOnce.after ⟨0, .id _⟩ (.set 1 10)).event ⟨1, .id _⟩ (.get 1)).reply =
        .ok (.value (some 10)) ∨
      ((secondRejectsOnce.after ⟨0, .id _⟩ (.set 1 10)).event ⟨1, .id _⟩ (.get 1)).reply =
        .ok (.value none) := by
  refine no_stale_read FlakyTier.actsAsMap (Or.inr ⟨rfl, rfl⟩)
    (cacheStep_after secondRejectsOnce ⟨0, .id _⟩ (.set 1 10) (by decide)) ?_ .nil
    (fun _ h => absurd h List.not_mem_nil) (cacheStep_after _ ⟨1, .id _⟩ (.get 1) (by decide)) rfl
  intro i tier hi
  match i, hi with
  | 0, hi => cases hi; exact Or.inl rfl
  | 1, hi => cases hi; exact Or.inr rfl
  | _ + 2, hi => cases hi

/-- Two empty tiers; the first rejects its second call. -/
def firstRejectsOnce : CacheSession FlakyTier := ⟨⟨[⟨∅, [false, true]⟩, ⟨∅, []⟩]⟩, 0⟩

/-- A value is set, and set again while the first tier fails. -/
def partialSetCalls : List (Env UInt64 × CacheOp UInt64 UInt64) :=
  [(⟨0, .id _⟩, .set 1 10), (⟨1, .id _⟩, .set 1 20), (⟨2, .id _⟩, .get 1)]

/-- The second `set` is accepted by the second tier and returns the error of the first, which then
answers with the value of the first `set`. -/
theorem stale_read_after_partial_set :
    Run CacheStep firstRejectsOnce (firstRejectsOnce.script partialSetCalls).1
        (firstRejectsOnce.script partialSetCalls).2 ∧
      (firstRejectsOnce.script partialSetCalls).1.map (·.reply) =
        [.ok .unit, .err (.network "connection reset"), .ok (.value (some 10))] ∧
      (firstRejectsOnce.script partialSetCalls).2.cache.tiers.map (·.view 1) = [some 10, some 20] ∧
      ActsAsMap FlakyTier.view :=
  have hrun : Run (Guarded (fun _ _ => True) CacheStep) firstRejectsOnce _ _ :=
    cacheRun_script partialSetCalls firstRejectsOnce (by decide)
  ⟨hrun.of_guarded, by decide, by decide, FlakyTier.actsAsMap⟩

end CacheLayer
