import CacheLayer.MemoryCovered
import CacheLayer.MemoryWrites

/-!
# What one `set` does

`set` removes the old entry of its key and runs a destructive eviction loop before it knows whether it
will succeed, and it computes the expiry instant after that.

* `Covered.evicted_cases` — the loop evicts one entry or none;
* `set_effect` — the effect of a `set` with a representable expiry in any reachable state: what it may
  evict, what it leaves alone, and that a refused one has changed nothing but the policy;
* `Covered.refused_iff` — the loop gives up exactly if the policy tracks no resident key;
* `set_completes_iff` — for any time-to-live: a `set` stores its entry and counts it, or is refused with
  nothing removed (`Completed`), exactly if the expiry is representable or the loop finds no room
  (`Refuses`); `set_aborts_half_way` is an overwrite with `Duration::MAX`.
-/

set_option autoImplicit false

namespace CacheLayer

variable {K V : Type} [DecidableEq K] [RustSized K] [RustSized V]

namespace MemoryCache

section AnyPolicy

variable {P : Type} [EvictionPolicy K P] {c : MemoryCache K V P}

/-- **The loop of a `set` evicts one entry or none**, and every other entry stays as it is. -/
theorem Covered.evicted_cases (h : Covered c) (env : Env K) (key : K) (value : V)
    (ttl : Option Duration) :
    ((∀ k, k ∉ c.evictedBy env (.set key value ttl)) ∧
      ∀ k, k ≠ key → (c.set env key value ttl).1.entries.lookup k = c.entries.lookup k) ∨
    (key ∉ c.entries ∧ ¬ c.HasRoom (entrySize K V) ∧ ∃ x,
      (∀ k, k ∈ c.evictedBy env (.set key value ttl) ↔ k = x) ∧
      ∀ k, k ≠ key → k ≠ x →
        (c.set env key value ttl).1.entries.lookup k = c.entries.lookup k) := by
  -- if the map is unchanged away from `key`, nothing has been evicted
  have hquiet : (∀ k, k ≠ key →
      (c.set env key value ttl).1.entries.lookup k = c.entries.lookup k) →
      ∀ k, k ∉ c.evictedBy env (.set key value ttl) := by
    intro hsame k hk
    obtain ⟨hne, hin, hgone⟩ := mem_evictedBy_set.1 hk
    obtain ⟨v, hv⟩ := AList.exists_lookup hin
    exact hgone (AList.mem_of_lookup ((hsame k hne).trans hv))
  have hsame := fun k hk => set_lookup_ne c env key value ttl (k := k) hk
  rcases h.space_cases env.order key with ⟨hkey, he⟩ | ⟨hkey, hroom, he⟩ |
    ⟨hkey, hroom, x, hx, c', he, -, -, hent, -⟩ | ⟨hkey, hroom, policy, he⟩
  all_goals rw [he] at hsame
  · have hall : ∀ k, k ≠ key →
        (c.set env key value ttl).1.entries.lookup k = c.entries.lookup k := by
      intro k hk
      rw [hsame k hk, takeOld_entries, AList.lookup_erase_ne hk]
    exact Or.inl ⟨hquiet hall, hall⟩
  · exact Or.inl ⟨hquiet hsame, hsame⟩
  · refine Or.inr ⟨hkey, hroom, x, ?_, ?_⟩
    · intro k
      rw [mem_evictedBy_set]
      constructor
      · rintro ⟨hne, hin, hgone⟩
        refine Classical.byContradiction fun hkx => hgone ?_
        obtain ⟨v, hv⟩ := AList.exists_lookup hin
        refine AList.mem_of_lookup (v := v) ?_
        rw [hsame k hne, hent, AList.lookup_erase_ne hkx, hv]
      · rintro rfl
        have hne : k ≠ key := fun heq => hkey (heq ▸ hx)
        refine ⟨hne, hx, fun hin => ?_⟩
        obtain ⟨v, hv⟩ := AList.exists_lookup hin
        rw [hsame k hne, hent, AList.lookup_erase] at hv
        cases hv
    · intro k hk hkx
      rw [hsame k hk, hent, AList.lookup_erase_ne hkx]
  · exact Or.inl ⟨hquiet hsame, hsame⟩

/-- Overwriting a resident key always succeeds. -/
theorem Covered.set_resident (h : Covered c) {env : Env K} {key : K} (hkey : key ∈ c.entries)
    (value : V) {ttl : Option Duration} (hr : Representable env.now ttl) :
    (c.set env key value ttl).2 = .ok () := by
  rcases h.space_cases env.order key with ⟨-, he⟩ | ⟨hn, -⟩ | ⟨hn, -⟩ | ⟨hn, -⟩
  · rw [set_of_space he value hr]
  all_goals exact absurd hkey hn

/-- A `set` that returned an error has changed the policy only. -/
theorem Covered.set_err (h : Covered c) {env : Env K} {key : K} {value : V} {ttl : Option Duration}
    {e : CacheError} (hs : (c.set env key value ttl).2 = .err e) :
    c.evictForSpace env.order (entrySize K V) = ((c.set env key value ttl).1, .err e) ∧
      ∃ policy, (c.set env key value ttl).1 = c.setPolicy policy := by
  rcases h.set_cases env key value ttl with ⟨_, -, -, hset⟩ | ⟨_, -, -, hset⟩ |
    ⟨-, -, policy, _, he, hset⟩
  · rw [hset] at hs; cases hs
  · rw [hset] at hs; cases hs
  · rw [hset] at hs ⊢
    cases hs
    exact ⟨he, policy, rfl⟩

end AnyPolicy

end MemoryCache

open MemoryCache

/-- **The effect of one `set`** with a representable expiry, in every state of every run: its eviction
loop ends; it evicts at most one entry, none for a resident key, and none while there is room; every
other entry stays as it is; an overwrite succeeds; and a refused `set` leaves the entries, `size()` and
`stats()` as they were, and every key that the policy has forgotten is not resident. -/
theorem set_effect {cap : Nat} {hcap : 0 < cap} {policy : BoxedPolicy K} {es : List (Event K V)}
    {s : Session K V (BoxedPolicy K)} (hrun : Run Step (.fresh cap policy hcap) es s) (env : Env K)
    (key : K) (value : V) {ttl : Option Duration} (hr : Representable env.now ttl) :
    (evictLoop env.order (entrySize K V) (EvictionPolicy.size s.cache.evictionPolicy + 1)
        (s.cache.takeOld key).1).isSome ∧
    (∀ x ∈ s.cache.evictedBy env (.set key value ttl),
      x ∈ s.cache.entries ∧ key ∉ s.cache.entries ∧ cap < s.cache.sizeBytes + entrySize K V ∧
        ∀ y ∈ s.cache.evictedBy env (.set key value ttl), y = x) ∧
    (∀ k, k ≠ key → k ∉ s.cache.evictedBy env (.set key value ttl) →
      (s.cache.set env key value ttl).1.entries.lookup k = s.cache.entries.lookup k) ∧
    (key ∈ s.cache.entries → s.cache.evictedBy env (.set key value ttl) = [] ∧
      (s.cache.set env key value ttl).2 = .ok ()) ∧
    ∀ e, (s.cache.set env key value ttl).2 = .err e →
      (s.cache.set env key value ttl).1.entries = s.cache.entries ∧
      (s.cache.set env key value ttl).1.sizeBytes = s.cache.sizeBytes ∧
      (s.cache.set env key value ttl).1.stats = s.cache.stats ∧
      ∀ k, s.cache.evictionPolicy.Remembers k →
        ¬ (s.cache.set env key value ttl).1.evictionPolicy.Remembers k → k ∉ s.cache.entries := by
  have hcov := covered_of_run hrun
  have hcapacity := capacity_of_run hrun
  have hfull : ¬ s.cache.HasRoom (entrySize K V) → cap < s.cache.sizeBytes + entrySize K V := by
    intro hn
    unfold HasRoom at hn
    omega
  refine ⟨?_, ?_, ?_, ?_, ?_⟩
  · have hpol := takeOld_policy s.cache key
    refine evictLoop_isSome env.order _ _ _ ?_
    rw [hpol]
    exact Nat.lt_succ_self _
  · intro x hx
    rcases hcov.evicted_cases env key value ttl with ⟨hnone, -⟩ | ⟨hkey, hroom, y, hy, -⟩
    · exact absurd hx (hnone x)
    · obtain rfl := (hy x).1 hx
      exact ⟨(mem_evictedBy_set.1 hx).2.1, hkey, hfull hroom, fun z hz => (hy z).1 hz⟩
  · intro k hk hev
    rcases hcov.evicted_cases env key value ttl with ⟨-, hsame⟩ | ⟨-, -, x, hx, hsame⟩
    · exact hsame k hk
    · exact hsame k hk fun hkx => hev ((hx k).2 hkx)
  · intro hkey
    refine ⟨?_, hcov.set_resident hkey value hr⟩
    rcases hcov.evicted_cases env key value ttl with ⟨hnone, -⟩ | ⟨hn, -⟩
    · exact List.eq_nil_iff_forall_not_mem.2 hnone
    · exact absurd hkey hn
  · intro e hs
    obtain ⟨hev, policy₁, hset⟩ := hcov.set_err hs
    obtain ⟨policy', policy'', hnone, hc, hkept⟩ := hcov.kept_of_refused (R := BoxedPolicy.Remembers)
      (fun p p' k victim he hne h => h.evict he hne) hev
    -- the policy that names no key is the one the loop leaves
    obtain rfl := BoxedPolicy.evict_none_eq hnone
    rw [hset]
    refine ⟨rfl, rfl, rfl, fun k hk hforgot hin => hforgot ?_⟩
    rw [hset] at hc
    obtain rfl : policy₁ = policy'' := congrArg MemoryCache.evictionPolicy hc
    exact hkept k hin hk

/-- One entry is cached where one fits. -/
def fillingCalls : List (Env UInt64 × Op UInt64 UInt64) := [(⟨0, .id _⟩, .set 1 10 none)]

/-- A `set` of a second key evicts the first and nothing else. -/
theorem set_effect_when_full :
    (freshSingle.script fillingCalls).2.cache.evictedBy ⟨1, .id _⟩ (.set 2 20 none) = [1] ∧
      (1 : UInt64) ∈ (freshSingle.script fillingCalls).2.cache.entries ∧
      (2 : UInt64) ∉ (freshSingle.script fillingCalls).2.cache.entries ∧
      16 < (freshSingle.script fillingCalls).2.cache.sizeBytes + entrySize UInt64 UInt64 := by
  have hrun : Run (Guarded (fun _ _ => True) Step) freshSingle _ _ :=
    run_script fillingCalls freshSingle (by decide)
  obtain ⟨hin, hkey, hfull, -⟩ := (set_effect hrun.of_guarded ⟨1, .id _⟩ 2 20
    (representable_none _)).2.1 1 (by decide)
  exact ⟨by decide, hin, hkey, hfull⟩

/-! ## The expiry instant -/

namespace MemoryCache

variable {P : Type} [EvictionPolicy K P]

/-- A call of `set(key, value, ..)` from `c` that ended in `r` is complete: its entry is stored, counted
(as a new one, unless it replaced one) and its bytes reported, or the call was refused with nothing
removed. -/
def Completed (c : MemoryCache K V P) (key : K) (value : V) (r : MemoryCache K V P × Outcome Unit) :
    Prop :=
  (r.2 = .ok () ∧ (r.1.entries.lookup key).map (·.value) = some value ∧
      r.1.stats.sizeBytes = r.1.sizeBytes ∧
      r.1.stats.entries + r.1.stats.evictions =
        c.stats.entries + c.stats.evictions + if key ∈ c.entries then 0 else 1) ∨
    ∃ e, r.2 = .err e ∧ r.1.entries = c.entries ∧ r.1.sizeBytes = c.sizeBytes ∧ r.1.stats = c.stats

/-- Wherever the first half of `set` succeeds and the expiry instant exists, the call is complete. -/
theorem Covered.completed {c : MemoryCache K V P} (h : Covered c) {env : Env K} (key : K) (value : V)
    {ttl : Option Duration} (hr : Representable env.now ttl) :
    c.Completed key value (c.set env key value ttl) := by
  rcases h.space_cases env.order key with ⟨hkey, he⟩ | ⟨hkey, -, he⟩ |
    ⟨hkey, -, _, -, c', he, -, -, -, hstat⟩ | ⟨hkey, -, policy, he⟩
  · obtain ⟨e, hl⟩ := AList.exists_lookup hkey
    rw [set_of_space he value hr, takeOld_of_lookup hl]
    refine Or.inl ⟨rfl, ?_, rfl, ?_⟩
    · rw [store_entries, AList.lookup_insert]; rfl
    · rw [if_pos hkey]; rfl
  · rw [set_of_space he value hr, takeOld_of_notMem hkey]
    refine Or.inl ⟨rfl, ?_, rfl, ?_⟩
    · rw [store_entries, AList.lookup_insert]; rfl
    · rw [if_neg hkey]
      show c.stats.entries + 1 + c.stats.evictions = _
      omega
  · rw [set_of_space he value hr, takeOld_of_notMem hkey]
    refine Or.inl ⟨rfl, ?_, rfl, ?_⟩
    · rw [store_entries, AList.lookup_insert]; rfl
    · rw [if_neg hkey]
      show c'.stats.entries + 1 + c'.stats.evictions = _
      omega
  · rw [set_of_err he value ttl]
    exact Or.inr ⟨_, rfl, rfl, rfl, rfl⟩

/-- The eviction loop of a `set(key, ..)` finds no room: `key` is not resident, the cache is full, and
the policy cannot come to name a resident key. -/
def Refuses (c : MemoryCache K V (BoxedPolicy K)) (key : K) : Prop :=
  key ∉ c.entries ∧ ¬ c.HasRoom (entrySize K V) ∧ ∀ k ∈ c.entries, ¬ c.evictionPolicy.Tracks k

omit [RustSized K] [RustSized V] in
/-- A policy that tracks no resident key leads the loop to no resident key. -/
theorem untracked_of_loopHead {c c' : MemoryCache K V (BoxedPolicy K)} {o : HashOrder K} {n : Nat}
    (huntracked : ∀ k ∈ c.entries, ¬ c.evictionPolicy.Tracks k) (hh : LoopHead o n c c') :
    ∃ policy, c' = c.setPolicy policy ∧ ∀ k ∈ c.entries, ¬ policy.Tracks k := by
  refine hh.invariant (fun c' => ∃ policy, c' = c.setPolicy policy ∧ ∀ k ∈ c.entries,
    ¬ policy.Tracks k) ⟨_, rfl, huntracked⟩ ?_
  rintro _ c₂ key policy ⟨policy₁, rfl, hun⟩ - hev hdrop
  replace hev : policy₁.evict o = (some key, policy) := hev
  have hkey : key ∉ c.entries := fun hin => hun key hin (BoxedPolicy.tracks_of_evict hev)
  replace hdrop : (c.setPolicy policy).dropVictim key = (c₂, none) := hdrop
  rw [dropVictim_of_notMem (c := c.setPolicy policy) hkey] at hdrop
  obtain ⟨rfl, -⟩ := Prod.mk.inj hdrop
  exact ⟨policy, rfl, fun k hk ht => hun k hk (ht.of_evict hev)⟩

/-- **The loop is refused exactly if the policy tracks no resident key.** -/
theorem Covered.refused_iff {c : MemoryCache K V (BoxedPolicy K)} (h : Covered c) (o : HashOrder K)
    (hroom : ¬ c.HasRoom (entrySize K V)) :
    (∃ c' e, c.evictForSpace o (entrySize K V) = (c', .err e)) ↔
      ∀ k ∈ c.entries, ¬ c.evictionPolicy.Tracks k := by
  constructor
  · rintro ⟨c', e, hev⟩ k hk ht
    obtain ⟨policy, policy', hnone, -, hkept⟩ := h.kept_of_refused (R := BoxedPolicy.Tracks)
      (fun p p' k victim he hne h => h.evict he hne) hev
    exact BoxedPolicy.not_tracks_of_none hnone k (hkept k hk ht)
  · intro huntracked
    rcases evictForSpace_cases c o (entrySize K V) with ⟨c', hh, hroom', -⟩ | ⟨_, _, -, -, -, he⟩ |
      ⟨c', key, policy, c'', p, hh, -, hev, hdrop, -⟩
    · obtain ⟨policy, rfl, -⟩ := untracked_of_loopHead huntracked hh
      exact absurd hroom' hroom
    · exact ⟨_, _, he⟩
    · obtain ⟨policy₁, rfl, hun⟩ := untracked_of_loopHead huntracked hh
      replace hev : policy₁.evict o = (some key, policy) := hev
      have hkey : key ∉ c.entries := fun hin => hun key hin (BoxedPolicy.tracks_of_evict hev)
      replace hdrop : (c.setPolicy policy).dropVictim key = (c'', some p) := hdrop
      rw [dropVictim_of_notMem (c := c.setPolicy policy) hkey] at hdrop
      cases (Prod.mk.inj hdrop).2

end MemoryCache

/-- **When a `set` is complete.**  In every state of every run and for any time-to-live, a `set` returns
with its entry stored and counted, or with an error and nothing removed, exactly if its expiry instant
is representable or its eviction loop finds no room. -/
theorem set_completes_iff {cap : Nat} {hcap : 0 < cap} {policy : BoxedPolicy K}
    {es : List (Event K V)} {s : Session K V (BoxedPolicy K)}
    (hrun : Run Step (.fresh cap policy hcap) es s) (env : Env K) (key : K) (value : V)
    (ttl : Option Duration) :
    s.cache.Completed key value (s.cache.set env key value ttl) ↔
      Representable env.now ttl ∨ s.cache.Refuses key := by
  have hcov := covered_of_run hrun
  constructor
  · intro hdone
    rcases hcov.set_cases env key value ttl with ⟨_, -, hr, -⟩ | ⟨_, -, -, hset⟩ |
      ⟨hkey, hroom, policy, e, he, -⟩
    · exact Or.inl hr
    · -- wherever the loop finds room, `Instant::now() + d` panics
      rw [hset] at hdone
      rcases hdone with ⟨hok, -⟩ | ⟨_, herr, -⟩
      · cases hok
      · cases herr
    · exact Or.inr ⟨hkey, hroom, (hcov.refused_iff env.order hroom).1 ⟨_, _, he⟩⟩
  · rintro (hr | ⟨hkey, hroom, huntracked⟩)
    · exact hcov.completed key value hr
    · obtain ⟨c', e, he⟩ := (hcov.refused_iff env.order hroom).2 huntracked
      have htake : (s.cache.takeOld key).1 = s.cache := by rw [takeOld_of_notMem hkey]
      rw [← htake] at he
      rcases hcov.space_cases env.order key with ⟨hin, -⟩ | ⟨-, hroom', -⟩ |
        ⟨-, -, _, -, _, he', -⟩ | ⟨-, -, policy, he'⟩
      · exact absurd hin hkey
      · exact absurd hroom' hroom
      · rw [he] at he'
        cases (Prod.mk.inj he').2
      · rw [set_of_err he' value ttl]
        exact Or.inr ⟨_, rfl, rfl, rfl, rfl⟩

/-- `Duration::MAX`. -/
def Duration.max : Duration := (2 ^ 64 - 1) * 1000000000 + 999999999

/-- A full cache whose policy has only a key to name that expired: a `set` with `Duration::MAX` returns
its error before it comes to the expiry instant. -/
theorem set_completes_refused :
    (freshSingle.script expiringCalls).2.cache.Completed 2 20
      ((freshSingle.script expiringCalls).2.cache.set ⟨3, .id _⟩ 2 20 (some Duration.max)) :=
  have hrun : Run (Guarded (fun _ _ => True) Step) freshSingle _ _ :=
    run_script expiringCalls freshSingle (by decide)
  (set_completes_iff hrun.of_guarded ⟨3, .id _⟩ 2 20 (some Duration.max)).2
    (Or.inr ⟨by decide, by decide, fun k hk => absurd hk (AList.notMem_empty k)⟩)

/-- An overwrite with `Duration::MAX` panics with the old entry gone, its bytes taken off `size()`, and
`stats()` still reporting the entry. -/
theorem set_aborts_half_way :
    Run Step freshSingle (freshSingle.script fillingCalls).1 (freshSingle.script fillingCalls).2 ∧
      (1 : UInt64) ∈ (freshSingle.script fillingCalls).2.cache.entries ∧
      ((freshSingle.script fillingCalls).2.cache.set ⟨1, .id _⟩ 1 11 (some Duration.max)).2 =
        .panic .instantOverflow ∧
      (1 : UInt64) ∉ ((freshSingle.script fillingCalls).2.cache.set ⟨1, .id _⟩ 1 11
        (some Duration.max)).1.entries ∧
      ((freshSingle.script fillingCalls).2.cache.set ⟨1, .id _⟩ 1 11
        (some Duration.max)).1.sizeBytes = 0 ∧
      ((freshSingle.script fillingCalls).2.cache.set ⟨1, .id _⟩ 1 11
        (some Duration.max)).1.stats = ⟨0, 0, 0, 16, 16, 1⟩ ∧
      ¬ (freshSingle.script fillingCalls).2.cache.Completed 1 11
        ((freshSingle.script fillingCalls).2.cache.set ⟨1, .id _⟩ 1 11 (some Duration.max)) := by
  have hrun : Run (Guarded (fun _ _ => True) Step) freshSingle _ _ :=
    run_script fillingCalls freshSingle (by decide)
  have hpanic : ((freshSingle.script fillingCalls).2.cache.set ⟨1, .id _⟩ 1 11
      (some Duration.max)).2 = .panic .instantOverflow := by decide
  refine ⟨hrun.of_guarded, by decide, hpanic, by decide, by decide, by decide, ?_⟩
  rintro (⟨hok, -⟩ | ⟨e, herr, -⟩)
  · rw [hpanic] at hok; cases hok
  · rw [hpanic] at herr; cases herr

end CacheLayer
