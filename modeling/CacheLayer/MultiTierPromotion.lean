import CacheLayer.MultiTierExists
import CacheLayer.SetEffect

/-!
# Promotion on a hit

A `get` that is answered by tier `i` has missed in all faster tiers, and writes the value to each of them
before it returns; what those writes return is ignored.

* `afterHit_of_hitIn` — the tiers after such a `get`: the slower ones untouched, tier `i` touched, each
  faster one as a `set` leaves it that follows its miss;
* `Covered.set_absent_ok_iff` — a `set` of an absent key succeeds exactly if there is room or the policy
  tracks a resident key;
* `promotion_complete_iff` — so the value has reached all faster tiers exactly if each of them had room
  or a policy that tracks another resident key; `promotion_incomplete` is a `get` after which the
  first tier does not have the value.
-/

set_option autoImplicit false

namespace CacheLayer

open MultiTierCache

variable {K V : Type} [DecidableEq K]

namespace MemoryCache

section AnyPolicy

variable {P : Type} [EvictionPolicy K P]

/-- A `get` that misses removes the key, if it was there, and counts the miss. -/
theorem get_of_miss {c : MemoryCache K V P} {env : Env K} {key : K}
    (h : (c.get env key).2 = .ok none) :
    (c.get env key).1.entries = c.entries.erase key ∧
      (c.get env key).1.evictionPolicy = c.evictionPolicy ∧
      (c.get env key).1.sizeBytes = c.sizeBytes := by
  rcases get_cases c env key with ⟨e, -, -, hg⟩ | ⟨e, -, -, hg⟩ | ⟨hl, hg⟩
  · rw [hg]
    exact ⟨rfl, rfl, rfl⟩
  · rw [hg] at h
    cases h
  · rw [hg]
    exact ⟨(AList.erase_of_notMem (AList.lookup_eq_none.1 hl)).symm, rfl, rfl⟩

/-- A `get` that hits leaves the entry, which is live. -/
theorem get_of_hit {c : MemoryCache K V P} {env : Env K} {key : K} {v : V}
    (h : (c.get env key).2 = .ok (some v)) :
    ∃ e, (c.get env key).1.entries.lookup key = some e ∧ e.value = v ∧
      e.isExpired env.now = false := by
  rcases get_cases c env key with ⟨e, -, -, hg⟩ | ⟨e, hl, hx, hg⟩ | ⟨-, hg⟩
  · rw [hg] at h
    cases h
  · rw [hg] at h ⊢
    cases h
    refine ⟨{ e with lastAccess := env.now }, ?_, rfl, hx⟩
    show ((c.setPolicy _).touchEntry key env.now).entries.lookup key = _
    rw [touchEntry_lookup]
    show (c.entries.lookup key).map _ = _
    rw [hl]
    simp
  · rw [hg] at h
    cases h

end AnyPolicy

variable [RustSized K] [RustSized V]

/-- **A `set` of an absent key succeeds exactly if there is room or the policy tracks a resident key.** -/
theorem Covered.set_absent_ok_iff {c : MemoryCache K V (BoxedPolicy K)} (h : Covered c) (env : Env K)
    {key : K} (hkey : key ∉ c.entries) (value : V) {ttl : Option Duration}
    (hr : Representable env.now ttl) :
    (c.set env key value ttl).2 = .ok () ↔
      c.HasRoom (entrySize K V) ∨ ∃ k ∈ c.entries, c.evictionPolicy.Tracks k := by
  by_cases hroom : c.HasRoom (entrySize K V)
  · have htake : (c.takeOld key).1 = c := by rw [takeOld_of_notMem hkey]
    have hev : (c.takeOld key).1.evictForSpace env.order (entrySize K V) = (c, .ok ()) := by
      rw [htake]
      exact evictForSpace_of_room env.order hroom
    rw [set_of_space hev value hr]
    exact iff_of_true rfl (Or.inl hroom)
  · have hrefused := h.refused_iff env.order hroom
    rcases h.set_cases env key value ttl with ⟨c', hev, -, hs⟩ | ⟨_, -, hn, -⟩ |
      ⟨-, -, policy, e, hev, hs⟩
    · rw [hs]
      refine iff_of_true rfl (Or.inr (Classical.byContradiction fun hnone => ?_))
      obtain ⟨c'', e, herr⟩ := hrefused.2 fun k hk ht => hnone ⟨k, hk, ht⟩
      rw [takeOld_of_notMem hkey, herr] at hev
      cases (Prod.mk.inj hev).2
    · exact absurd hr hn
    · rw [hs]
      refine iff_of_false (by simp) ?_
      rintro (hroom' | ⟨k, hk, ht⟩)
      · exact hroom hroom'
      · exact hrefused.1 ⟨_, _, hev⟩ k hk ht

/-- The cache has room for an entry, or its policy tracks a resident key other than `key`. -/
def MakesRoom (c : MemoryCache K V (BoxedPolicy K)) (key : K) : Prop :=
  c.HasRoom (entrySize K V) ∨ ∃ k ∈ c.entries, k ≠ key ∧ c.evictionPolicy.Tracks k

instance (c : MemoryCache K V (BoxedPolicy K)) (key : K) : Decidable (c.MakesRoom key) :=
  decidable_of_iff (c.HasRoom (entrySize K V) ∨
      ∃ k ∈ c.entries.keys, k ≠ key ∧ c.evictionPolicy.Tracks k) Iff.rfl

/-- After a miss, a `set` of the key succeeds exactly if the cache could make room before it. -/
theorem Covered.set_after_miss {c : MemoryCache K V (BoxedPolicy K)} (h : Covered c) {env : Env K}
    {key : K} (hmiss : (c.get env key).2 = .ok none) (env' : Env K) (value : V) :
    ((c.get env key).1.set env' key value none).2 = .ok () ↔ c.MakesRoom key := by
  obtain ⟨hentries, hpolicy, hsize⟩ := get_of_miss hmiss
  have hcap := get_capacity c env key
  have hkey : key ∉ (c.get env key).1.entries := by
    rw [hentries, AList.mem_erase]
    exact fun hin => hin.1 rfl
  rw [(h.get env key).1.set_absent_ok_iff env' hkey value (representable_none _)]
  unfold MakesRoom HasRoom
  rw [hsize, hcap, hentries, hpolicy]
  simp only [AList.mem_erase, and_assoc, and_left_comm]

end MemoryCache

open MemoryCache

variable [RustSized K] [RustSized V]

/-! ## The tiers after a hit -/

section AnyPolicy

variable {P : Type} [EvictionPolicy K P] {envs : Nat → Env K} {key : K} {i : Nat} {v : V}
  {tiers : List (MemoryCache K V P)}

/-- Tier `i` answers `get(key)` with `v`, and the tiers before it have missed. -/
structure HitIn (envs : Nat → Env K) (key : K) (i : Nat) (v : V) (tiers : List (MemoryCache K V P)) :
    Prop where
  hit : ∃ tier, tiers[i]? = some tier ∧ (tier.get (envs i) key).2 = .ok (some v)
  miss : ∀ j tier, j < i → tiers[j]? = some tier → (tier.get (envs j) key).2 = .ok none

instance [DecidableEq V] (envs : Nat → Env K) (key : K) (i : Nat) (v : V)
    (tiers : List (MemoryCache K V P)) : Decidable (HitIn envs key i v tiers) :=
  decidable_of_iff
    ((∃ tier ∈ tiers[i]?, (tier.get (envs i) key).2 = .ok (some v)) ∧
      ∀ j < i, ∀ tier ∈ tiers[j]?, (tier.get (envs j) key).2 = .ok none)
    ⟨fun h => ⟨h.1, fun j tier hj => h.2 j hj tier⟩, fun h => ⟨h.hit, fun j hj tier => h.miss j tier hj⟩⟩

/-- What a `get(key)` that finds `v` in tier `i` makes of the tiers. -/
structure AfterHit (envs : Nat → Env K) (key : K) (i : Nat) (v : V)
    (before after : List (MemoryCache K V P)) : Prop where
  faster : ∀ j tier, j < i → before[j]? = some tier →
    after[j]? = some ((tier.get (envs j) key).1.set (envs (i + 1 + j)) key v none).1
  found : ∀ tier, before[i]? = some tier → after[i]? = some (tier.get (envs i) key).1
  slower : ∀ j, i < j → after[j]? = before[j]?

/-- **A `get` answered by tier `i` returns its value, and changes the tiers up to `i`.** -/
theorem afterHit_of_hitIn (hcov : ∀ tier ∈ tiers, Covered tier) (h : HitIn envs key i v tiers) :
    (getLoop envs key 0 [] tiers).2 = .ok (some v) ∧
      AfterHit envs key i v tiers (getLoop envs key 0 [] tiers).1 := by
  obtain ⟨tier, htier, hhit⟩ := h.hit
  obtain ⟨hlt, hget⟩ := List.getElem?_eq_some_iff.1 htier
  obtain ⟨missed, rest, htiers, hlen, -⟩ := @List.exists_of_set _ i tier tiers hlt
  rw [hget] at htiers
  subst htiers
  subst hlen
  have hfaster : ∀ {j : Nat}, j < missed.length →
      (missed ++ tier :: rest)[j]? = missed[j]? := fun hj => List.getElem?_append_left hj
  have hmiss : ∀ j t, missed[j]? = some t → (Tier.get t (envs j) key).2 = .ok none := by
    intro j t ht
    have hj : j < missed.length := (List.getElem?_eq_some_iff.1 ht).1
    exact h.miss j t hj ((hfaster hj).trans ht)
  have hset : ∀ n (t : MemoryCache K V P), Covered t →
      (Tier.set t (envs n) key v none).2.Returned := fun n t ht =>
    ht.set_returned (envs n) key v (representable_none _)
  have hasked : ∀ t ∈ asked envs key missed, Covered t := by
    intro t ht
    obtain ⟨j, hj, rfl⟩ := List.mem_mapIdx.1 ht
    exact ((hcov _ (List.mem_append_left _ (List.getElem_mem hj))).get (envs j) key).1
  have hpair : Tier.get tier (envs missed.length) key =
      ((tier.get (envs missed.length) key).1, .ok (some v)) := Prod.ext rfl hhit
  rw [getLoop_hit hset hmiss hpair hasked]
  have hwritten : (eachTier (fun env t => Tier.set t env key v none) envs (missed.length + 1)
      (asked envs key missed) none).1.length = missed.length := by
    rw [eachTier_length, asked, List.length_mapIdx]
  refine ⟨rfl, ?_, ?_, ?_⟩
  · intro j t hj ht
    rw [hfaster hj] at ht
    rw [List.getElem?_append_left (hwritten.symm ▸ hj), eachTier_getElem hset _ _ none j hasked,
      asked, List.getElem?_mapIdx, ht]
    rfl
  · intro t ht
    rw [htier] at ht
    cases ht
    rw [List.getElem?_append_right (by omega), hwritten, Nat.sub_self]
    rfl
  · intro j hj
    obtain ⟨m, rfl⟩ := Nat.exists_eq_add_of_lt hj
    have hm : missed.length + m + 1 - missed.length = m + 1 := by omega
    rw [List.getElem?_append_right (by omega), List.getElem?_append_right (by omega), hwritten, hm]
    rfl

omit [RustSized K] [RustSized V] in
/-- The first live tier. -/
theorem first_hit_of_liveFrom : ∀ (tiers : List (MemoryCache K V P)) (n : Nat),
    LiveFrom envs key n tiers → ∃ (i : Nat) (v : V),
      (∃ tier, tiers[i]? = some tier ∧ (tier.get (envs (n + i)) key).2 = .ok (some v)) ∧
      ∀ (j : Nat) tier, j < i → tiers[j]? = some tier → (tier.get (envs (n + j)) key).2 = .ok none
  | [], _, hlive => hlive.elim
  | tier :: tiers, n, hlive => by
    by_cases hhead : tier.HoldsLive (envs n).now key
    · obtain ⟨e, hl, hx⟩ := hhead
      refine ⟨0, e.value, ⟨tier, rfl, get_of_live hl hx⟩, ?_⟩
      intro j t hj
      exact absurd hj (Nat.not_lt_zero j)
    · obtain ⟨i, v, ⟨t, ht, hhit⟩, hmiss⟩ :=
        first_hit_of_liveFrom tiers (n + 1) (hlive.resolve_left hhead)
      refine ⟨i + 1, v, ⟨t, ht, ?_⟩, ?_⟩
      · rwa [Nat.add_right_comm] at hhit
      · intro j t hj ht
        cases j with
        | zero =>
          cases ht
          exact get_of_not_live hhead
        | succ j =>
          have hnone := hmiss j t (by omega) ht
          rwa [Nat.add_right_comm] at hnone

/-- A `get` that returns a value has found it in some tier. -/
theorem get_some_iff_hitIn (hcov : ∀ tier ∈ tiers, Covered tier) :
    (getLoop envs key 0 [] tiers).2 = .ok (some v) ↔ ∃ i, HitIn envs key i v tiers := by
  constructor
  · intro hget
    have hlive := (getLoop_some_iff hcov envs key).1 ⟨v, hget⟩
    obtain ⟨i, w, ⟨tier, htier, hhit⟩, hmiss⟩ := first_hit_of_liveFrom tiers 0 hlive
    simp only [Nat.zero_add] at hhit hmiss
    have hw : HitIn envs key i w tiers := ⟨⟨tier, htier, hhit⟩, hmiss⟩
    have hout := (afterHit_of_hitIn hcov hw).1
    rw [hget] at hout
    cases hout
    exact ⟨i, hw⟩
  · rintro ⟨i, h⟩
    exact (afterHit_of_hitIn hcov h).1

end AnyPolicy

/-! ## Whether the value arrives -/

/-- The value has reached every tier up to the one that had it, so that a repeated `get` is answered by
the first tier, and the slower tiers are unchanged. -/
structure Promoted {P : Type} [EvictionPolicy K P] (envs : Nat → Env K) (key : K) (i : Nat) (v : V)
    (before after : List (MemoryCache K V P)) : Prop where
  holds : ∀ j, j ≤ i → ∃ tier e, after[j]? = some tier ∧ tier.entries.lookup key = some e ∧ e.value = v
  repeated : ∀ envs' : Nat → Env K, (envs' 0).now = (envs (2 * i)).now → HitIn envs' key 0 v after
  slower : ∀ j, i < j → after[j]? = before[j]?

/-- **The value reaches all faster tiers exactly if each of them can make room.** -/
theorem promoted_iff {envs : Nat → Env K} {key : K} {i : Nat} {v : V}
    {before after : List (MemoryCache K V (BoxedPolicy K))} (hcov : ∀ tier ∈ before, Covered tier)
    (hhit : HitIn envs key i v before) (hafter : AfterHit envs key i v before after) :
    Promoted envs key i v before after ↔
      ∀ j tier, j < i → before[j]? = some tier → tier.MakesRoom key := by
  have hroom : ∀ j tier, j < i → before[j]? = some tier →
      (((tier.get (envs j) key).1.set (envs (i + 1 + j)) key v none).2 = .ok () ↔
        tier.MakesRoom key) := fun j tier hj ht =>
    (hcov tier (List.mem_of_getElem? ht)).set_after_miss (hhit.miss j tier hj ht) _ v
  constructor
  · intro hp j tier hj ht
    obtain ⟨tier', e, ht', hl, -⟩ := hp.holds j (Nat.le_of_lt hj)
    rw [hafter.faster j tier hj ht] at ht'
    cases ht'
    exact (hroom j tier hj ht).1 (set_ok_of_lookup hl)
  · intro hall
    obtain ⟨found, hfound, hvalue⟩ := hhit.hit
    obtain ⟨e, hl, hev, hlive⟩ := get_of_hit hvalue
    have hwritten : ∀ j, j < i → ∃ tier, after[j]? = some tier ∧
        ∃ now, tier.entries.lookup key = some ⟨v, none, entrySize K V, now⟩ := by
      intro j hj
      have hlt : j < before.length :=
        Nat.lt_trans hj (List.getElem?_eq_some_iff.1 hfound).1
      have ht : before[j]? = some before[j] := List.getElem?_eq_getElem hlt
      have hok := (hroom j _ hj ht).2 (hall j _ hj ht)
      exact ⟨_, hafter.faster j _ hj ht, _, set_ok_lookup (Prod.ext rfl hok)⟩
    refine ⟨?_, ?_, hafter.slower⟩
    · intro j hj
      rcases Nat.lt_or_eq_of_le hj with hlt | rfl
      · obtain ⟨tier, ht, now, hl⟩ := hwritten j hlt
        exact ⟨tier, _, ht, hl, rfl⟩
      · exact ⟨_, e, hafter.found found hfound, hl, hev⟩
    · intro envs' hnow
      refine ⟨?_, fun j _ hj => absurd hj (Nat.not_lt_zero j)⟩
      cases i with
      | zero =>
        have hlive' : e.isExpired (envs' 0).now = false := by
          rw [hnow]
          exact hlive
        refine ⟨_, hafter.found found hfound, ?_⟩
        rw [get_of_live hl hlive', hev]
      | succ i =>
        -- a promoted entry has no expiry
        obtain ⟨tier, ht, now, hl⟩ := hwritten 0 (Nat.succ_pos i)
        exact ⟨tier, ht, get_of_live hl rfl⟩

/-- **Promotion on a hit.**  In every state of every run from fresh tiers of any capacities: a `get` that
returns a value has found it in some tier `i`; and then every tier up to `i` has the value for the key, a
repeated `get` is answered by the first tier and the tiers after `i` are unchanged, exactly if, before the
call, each tier before `i` had room for an entry or a policy that tracked a resident key other than
this one. -/
theorem promotion_complete_iff {tiers : List (MemoryCache K V (BoxedPolicy K))}
    {es : List (CacheEvent K V)} {s : CacheSession (MemoryCache K V (BoxedPolicy K))}
    (hfresh : ∀ tier ∈ tiers, ∃ cap policy h, tier = .withPolicy cap policy h)
    (hrun : Run CacheStep ⟨⟨tiers⟩, 0⟩ es s) (envs : Nat → Env K) (key : K) (v : V) :
    ((s.cache.get envs key).2 = .ok (some v) ↔ ∃ i, HitIn envs key i v s.cache.tiers) ∧
    ∀ i, HitIn envs key i v s.cache.tiers →
      (Promoted envs key i v s.cache.tiers (s.cache.get envs key).1.tiers ↔
        ∀ j tier, j < i → s.cache.tiers[j]? = some tier → tier.MakesRoom key) := by
  have hcov := (conserved_of_run hfresh hrun).covered
  refine ⟨get_some_iff_hitIn hcov, fun i hhit => ?_⟩
  exact promoted_iff hcov hhit (afterHit_of_hitIn hcov hhit).2

/-- The first tier, with room for one entry, has the second key; the first key is in the second tier. -/
def evictedFromFirst : List (Env UInt64 × CacheOp UInt64 UInt64) :=
  [(⟨0, .id _⟩, .set 1 10), (⟨1, .id _⟩, .set 2 20)]

/-- The first tier gives the second key up for the first. -/
theorem promotion_complete_over_other_key :
    HitIn (fun _ => ⟨2, .id _⟩) 1 1 10 (freshTwoTiers.script evictedFromFirst).2.cache.tiers ∧
      Promoted (fun _ => ⟨2, .id _⟩) 1 1 10 (freshTwoTiers.script evictedFromFirst).2.cache.tiers
        ((freshTwoTiers.script evictedFromFirst).2.cache.get (fun _ => ⟨2, .id _⟩) 1).1.tiers := by
  have hrun : Run (Guarded (fun _ _ => True) CacheStep) freshTwoTiers _ _ :=
    cacheRun_script evictedFromFirst freshTwoTiers (by decide)
  have hhit : HitIn (fun _ => ⟨2, .id _⟩) 1 1 10
      (freshTwoTiers.script evictedFromFirst).2.cache.tiers := by decide
  have hroom : ∀ j < 1, ∀ tier ∈ (freshTwoTiers.script evictedFromFirst).2.cache.tiers[j]?,
      tier.MakesRoom 1 := by decide
  exact ⟨hhit, ((promotion_complete_iff (fun _ ht => withPolicy_pair ht) hrun.of_guarded
    (fun _ => ⟨2, .id _⟩) 1 10).2 1 hhit).2 fun j tier hj ht => hroom j hj tier ht⟩

/-- The first key expires and is asked for, and the second is written, which the first tier refuses: the
bytes of the expired entry are still counted and its policy has no other key to name. -/
def refusedByFirst : List (Env UInt64 × CacheOp UInt64 UInt64) :=
  [(⟨0, .id _⟩, .setWithTtl 1 10 1), (⟨2, .id _⟩, .get 1), (⟨3, .id _⟩, .set 2 20)]

/-- The next `get` finds the second key in the second tier and returns its value; the first tier, large
enough for one entry and holding none, does not have it afterwards. -/
theorem promotion_incomplete :
    Run CacheStep freshTwoTiers (freshTwoTiers.script refusedByFirst).1
        (freshTwoTiers.script refusedByFirst).2 ∧
      (∀ tier ∈ freshTwoTiers.cache.tiers, entrySize UInt64 UInt64 ≤ tier.capacityBytes) ∧
      HitIn (fun _ => ⟨4, .id _⟩) 2 1 20 (freshTwoTiers.script refusedByFirst).2.cache.tiers ∧
      ((freshTwoTiers.script refusedByFirst).2.cache.get (fun _ => ⟨4, .id _⟩) 2).2 =
        .ok (some 20) ∧
      ((freshTwoTiers.script refusedByFirst).2.cache.get
        (fun _ => ⟨4, .id _⟩) 2).1.tiers[0]?.map (fun tier => tier.entries.keys) = some [] ∧
      ¬ Promoted (fun _ => ⟨4, .id _⟩) 2 1 20 (freshTwoTiers.script refusedByFirst).2.cache.tiers
        ((freshTwoTiers.script refusedByFirst).2.cache.get (fun _ => ⟨4, .id _⟩) 2).1.tiers := by
  have hrun : Run (Guarded (fun _ _ => True) CacheStep) freshTwoTiers _ _ :=
    cacheRun_script refusedByFirst freshTwoTiers (by decide)
  have hempty : ((freshTwoTiers.script refusedByFirst).2.cache.get
      (fun _ => ⟨4, .id _⟩) 2).1.tiers[0]?.map (fun tier => tier.entries.keys) = some [] := by decide
  refine ⟨hrun.of_guarded, by decide, by decide, by decide, hempty, fun hp => ?_⟩
  obtain ⟨tier, e, ht, hl, -⟩ := hp.holds 0 (Nat.zero_le 1)
  rw [ht] at hempty
  have hkeys : tier.entries.keys = [] := Option.some.inj hempty
  have hin : (2 : UInt64) ∈ tier.entries.keys := AList.mem_keys.1 (AList.mem_of_lookup hl)
  rw [hkeys] at hin
  cases hin

end CacheLayer
