import CacheLayer.MemorySizing
import CacheLayer.MultiTierCoherence

/-!
# A hierarchy whose fastest tier is sized for its keys

Slower tiers may have any capacity and policy, evict what they like and refuse writes.  If the fastest one
has room for every key, and a call reads the clock once, the whole cache is the map with expiry instants:
what the fastest tier lacks was never written, was deleted or has expired, and then no slower tier has it
alive, so nothing is ever promoted.

* `CacheOp.plain` — what an operation does to the map;
* `Follows` — what a slower tier holds the map holds too, with the same expiry instant;
* `FirstPlain`, `firstPlain_step` — the first tier is the map and the others follow it, kept by every call;
* `plain_hierarchy` — so every run of the cache is a run of the map.
-/

set_option autoImplicit false

namespace CacheLayer

open MultiTierCache MemoryCache

variable {K V P : Type} [DecidableEq K]

/-- What the operation does to the map. -/
def CacheOp.plain : CacheOp K V → Op K V
  | .get key => .get key
  | .set key value => .set key value (some defaultTtl)
  | .setWithTtl key value ttl => .set key value (some ttl)
  | .delete key => .delete key
  | .exists key => .exists key

/-- One operation of a sequential run of the map.  A write that a slower tier refuses returns its error. -/
structure TtlMap.Serves (p : TtlMap K V × Instant) (e : CacheEvent K V) (q : TtlMap K V × Instant) :
    Prop where
  clock_le : p.2 ≤ e.finish
  clock_eq : q.2 = e.finish
  map_eq : q.1 = (p.1.exec e.finish e.op.plain).1
  reply : e.reply = (p.1.exec e.finish e.op.plain).2 ∨
    (∃ key value d, e.Sets key value d) ∧ ∃ error, e.reply = .err error

/-- All tier calls of the operation read the clock at one instant. -/
def Instantaneous {σ : Type} (_ : σ) (e : CacheEvent K V) : Prop := ∀ n, (e.envs n).now = e.finish

/-- What is resident is in the map, with the same expiry instant. -/
structure Follows [RustSized K] [RustSized V] (m : TtlMap K V) (c : MemoryCache K V P) : Prop where
  accounted : Accounted c
  resident : ∀ k e, c.entries.lookup k = some e → m k = some (e.value, e.expiresAt)

namespace Follows

variable [RustSized K] [RustSized V] {m : TtlMap K V} {c : MemoryCache K V P}

theorem withPolicy (m : TtlMap K V) (cap : Nat) (policy : P) (h : 0 < cap) :
    Follows m (.withPolicy cap policy h : MemoryCache K V P) :=
  ⟨Accounted.withPolicy cap policy h, fun k e hl => by cases hl⟩

/-- What the map has let expire is not alive. -/
theorem not_live (h : Follows m c) {now : Instant} {key : K} (hread : m.read now key = none) :
    ¬ c.HoldsLive now key := by
  rintro ⟨e, hl, hx⟩
  unfold TtlMap.read at hread
  rw [h.resident key e hl] at hread
  cases hexp : e.expiresAt with
  | none =>
    rw [hexp] at hread
    cases hread
  | some d =>
    rw [hexp] at hread
    simp only at hread
    rw [if_pos (CachedValue.not_isExpired_iff.1 hx d hexp)] at hread
    cases hread

theorem delete (h : Follows m c) (now : Instant) (key : K) :
    Follows (m.exec now (.delete key)).1 (c.delete key).1 := by
  refine ⟨(h.accounted.delete key).1, fun k e hl => ?_⟩
  rw [delete_entries] at hl
  have hk : k ≠ key := by
    rintro rfl
    rw [AList.lookup_erase] at hl
    cases hl
  show (if k = key then none else m k) = _
  rw [if_neg hk]
  exact h.resident k e (AList.sub_erase _ _ k e hl)

variable [EvictionPolicy K P]

theorem get (h : Follows m c) (env : Env K) (key : K) : Follows m (c.get env key).1 := by
  refine ⟨(h.accounted.get env key).1, fun k e hl => ?_⟩
  obtain ⟨e₀, h₀, heq⟩ := get_lookup hl
  rw [heq]
  exact h.resident k e₀ h₀

/-- A `set` keeps step with the map, whether or not the tier accepts it. -/
theorem set (h : Follows m c) (env : Env K) (key : K) (value : V) {ttl : Option Duration}
    (hr : Representable env.now ttl) :
    (c.set env key value ttl).2.Returned ∧
      Follows (m.exec env.now (.set key value ttl)).1 (c.set env key value ttl).1 := by
  obtain ⟨hacc, -, hret⟩ := h.accounted.set key value hr
  refine ⟨hret, hacc, fun k e hl => ?_⟩
  show (if k = key then some (value, ttl.map (env.now + ·)) else m k) = _
  by_cases hk : k = key
  · subst hk
    rw [if_pos rfl, set_lookup_self hl]
  · rw [if_neg hk]
    exact h.resident k e (set_sub c env key value ttl hk hl)

end Follows

variable [EvictionPolicy K P] [RustSized K] [RustSized V]

/-- The fastest tier is sized for `keys`, and a write is one of them. -/
def FirstSized (keys : Finset K) (s : CacheSession (MemoryCache K V P)) (e : CacheEvent K V) : Prop :=
  match s.cache.tiers, e.op.plain with
  | first :: _, .set key _ _ =>
    key ∈ keys ∧ entrySize K V * (keys.card + first.leaked) ≤ first.capacityBytes
  | _, _ => True

instance (keys : Finset K) (s : CacheSession (MemoryCache K V P)) (e : CacheEvent K V) :
    Decidable (FirstSized keys s e) := by
  unfold FirstSized
  match s.cache.tiers, e.op.plain with
  | first :: _, .set key _ _ => exact inferInstanceAs (Decidable
    (key ∈ keys ∧ entrySize K V * (keys.card + first.leaked) ≤ first.capacityBytes))
  | _ :: _, .get _ => exact isTrue trivial
  | _ :: _, .delete _ => exact isTrue trivial
  | _ :: _, .exists _ => exact isTrue trivial
  | _ :: _, .clear => exact isTrue trivial
  | [], _ => exact isTrue trivial

/-- The fastest tier is the map, and the slower ones follow it. -/
def FirstPlain (keys : Finset K) (s : CacheSession (MemoryCache K V P)) (p : TtlMap K V × Instant) :
    Prop :=
  ∃ first slower, s.cache.tiers = first :: slower ∧ Plain keys ⟨first, s.clock⟩ p ∧
    ∀ tier ∈ slower, Follows p.1 tier

omit [EvictionPolicy K P] in
theorem Plain.follows {keys : Finset K} {s : Session K V P} {p : TtlMap K V × Instant}
    (h : Plain keys s p) : Follows p.1 s.cache :=
  ⟨h.accounted, h.refines.resident⟩

/-- A call on the fastest tier does what the map does. -/
theorem Plain.exec {keys : Finset K} {first : MemoryCache K V P} {clock : Instant}
    {p : TtlMap K V × Instant} (h : Plain keys ⟨first, clock⟩ p) (env : Env K) (hle : clock ≤ env.now)
    (op : Op K V) (hr : ∀ key value ttl, op = .set key value ttl → Representable env.now ttl)
    (hsized : ∀ key value ttl, op = .set key value ttl →
      key ∈ keys ∧ entrySize K V * (keys.card + first.leaked) ≤ first.capacityBytes) :
    (first.exec env op).2 = (p.1.exec env.now op).2 ∧
      Plain keys ⟨(first.exec env op).1, env.now⟩ ((p.1.exec env.now op).1, env.now) := by
  have hstep := step_after ⟨first, clock⟩ env op hle
  have hr' : RepresentableTtl (⟨first, clock⟩ : Session K V P) (Session.event ⟨first, clock⟩ env op) := by
    cases op with
    | set key value ttl => exact hr key value ttl rfl
    | _ => trivial
  have hsized' : Sized keys ⟨first, clock⟩ (Session.event ⟨first, clock⟩ env op) := by
    cases op with
    | set key value ttl => exact hsized key value ttl rfl
    | _ => trivial
  obtain ⟨q, hq, hplain⟩ := plain_step h hr' hsized' hstep
  have hexec : p.1.exec env.now op = (q.1, (first.exec env op).2) := hq.exec_eq
  obtain ⟨m, clock'⟩ := q
  obtain rfl : clock' = env.now := hq.clock_eq
  rw [hexec]
  exact ⟨rfl, hplain⟩

/-! ## Operations -/

section Operations

variable {keys : Finset K} {s t : CacheSession (MemoryCache K V P)} {p : TtlMap K V × Instant}
  {e : CacheEvent K V} {first : MemoryCache K V P} {slower : List (MemoryCache K V P)}

omit [DecidableEq K] [EvictionPolicy K P] [RustSized K] [RustSized V] in
theorem eachTier_cons_ok {T : Type} {f : Env K → T → T × Outcome Unit} {envs : Nat → Env K} {n : Nat}
    {tier tier' : T} {last : Option CacheError} (h : f (envs n) tier = (tier', .ok ()))
    (tiers : List T) :
    eachTier f envs n (tier :: tiers) last =
      (tier' :: (eachTier f envs (n + 1) tiers last).1, (eachTier f envs (n + 1) tiers last).2) := by
  rw [eachTier, h]

/-- A value is written: the fastest tier stores it, and a slower one stores or refuses it. -/
theorem firstPlain_set {key : K} {value : V} {d : Duration} (hset : e.Sets key value d)
    (htiers : s.cache.tiers = first :: slower) (hplain : Plain keys ⟨first, s.clock⟩ p)
    (hfollow : ∀ tier ∈ slower, Follows p.1 tier) (hr : RepresentableCall s e)
    (hinst : Instantaneous s e) (hsized : FirstSized keys s e) (hle : s.clock ≤ e.finish) :
    ∃ first' slower',
      (eachTier (fun env tier => Tier.set tier env key value (some d)) e.envs 0 s.cache.tiers none).1 =
        first' :: slower' ∧
      (eachTier (fun env tier => Tier.set tier env key value (some d)) e.envs 0 s.cache.tiers
        none).2.Returned ∧
      Plain keys ⟨first', e.finish⟩ ((p.1.exec e.finish (.set key value (some d))).1, e.finish) ∧
      ∀ tier ∈ slower', Follows (p.1.exec e.finish (.set key value (some d))).1 tier := by
  have hnow := hinst 0
  have hop : e.op.plain = .set key value (some d) := by
    rcases hset with hop | ⟨hop, rfl⟩ <;> rw [hop] <;> rfl
  have hfits : key ∈ keys ∧ entrySize K V * (keys.card + first.leaked) ≤ first.capacityBytes := by
    unfold FirstSized at hsized
    rwa [htiers, hop] at hsized
  obtain ⟨hreply, hplain'⟩ := hplain.exec (e.envs 0) (hnow ▸ hle) (.set key value (some d))
    (fun k v ttl heq => by cases heq; exact hr key value d hset 0)
    (fun k v ttl heq => by cases heq; exact hfits)
  -- the fastest tier accepts the write
  obtain ⟨_, hok, -⟩ := Outcome.ok_of_map
    (show (first.set (e.envs 0) key value (some d)).2.map (fun _ => Reply.unit) = .ok .unit from hreply)
  have hfirst : Tier.set first (e.envs 0) key value (some d) =
      ((first.set (e.envs 0) key value (some d)).1, .ok ()) := Prod.ext rfl hok
  have hslower : ∀ (n : Nat) (tier : MemoryCache K V P), Follows p.1 tier →
      (Tier.set tier (e.envs n) key value (some d)).2.Returned ∧
        Follows (p.1.exec e.finish (.set key value (some d))).1
          (Tier.set tier (e.envs n) key value (some d)).1 := by
    intro n tier ht
    have hboth := ht.set (e.envs n) key value (hr key value d hset n)
    rwa [hinst n] at hboth
  obtain ⟨hret, hfollow'⟩ := eachTier_spec (f := fun env tier => Tier.set tier env key value (some d))
    hslower slower 1 none hfollow
  rw [htiers, eachTier_cons_ok hfirst]
  rw [hnow] at hplain'
  exact ⟨_, _, rfl, hret, hplain', hfollow'⟩

theorem serves_set {key : K} {value : V} {d : Duration} (hset : e.Sets key value d)
    (h : FirstPlain keys s p) (hr : RepresentableCall s e) (hinst : Instantaneous s e)
    (hsized : FirstSized keys s e) (hstep : CacheStep s e t)
    (htiers' : t.cache.tiers = (eachTier (fun env tier => Tier.set tier env key value (some d)) e.envs 0
      s.cache.tiers none).1)
    (hreply : e.reply = (eachTier (fun env tier => Tier.set tier env key value (some d)) e.envs 0
      s.cache.tiers none).2.map fun _ => .unit) :
    ∃ q, TtlMap.Serves p e q ∧ FirstPlain keys t q := by
  obtain ⟨first, slower, htiers, hplain, hfollow⟩ := h
  have hle : s.clock ≤ e.finish := hinst 0 ▸ hstep.clock_le 0
  obtain ⟨first', slower', heq, hret, hplain', hfollow'⟩ :=
    firstPlain_set hset htiers hplain hfollow hr hinst hsized hle
  have hop : e.op.plain = .set key value (some d) := by
    rcases hset with hop | ⟨hop, rfl⟩ <;> rw [hop] <;> rfl
  refine ⟨((p.1.exec e.finish (.set key value (some d))).1, e.finish), ⟨?_, rfl, ?_, ?_⟩, first', slower',
    htiers'.trans heq, ?_, hfollow'⟩
  · rw [hplain.clock]
    exact hle
  · rw [hop]
  · rw [hreply, hop]
    cases hout : (eachTier (fun env tier => Tier.set tier env key value (some d)) e.envs 0
      s.cache.tiers none).2 with
    | ok _ => exact Or.inl rfl
    | err error => exact Or.inr ⟨⟨key, value, d, hset⟩, error, rfl⟩
    | panic reason =>
      rw [hout] at hret
      exact hret.elim
  · rw [hstep.clock_eq]
    exact hplain'

omit [DecidableEq K] [EvictionPolicy K P] [RustSized K] [RustSized V] in
theorem eachTier_all_ok {T : Type} {f : Env K → T → T × Outcome Unit} {envs : Nat → Env K}
    {I : T → Prop} (hf : ∀ n tier, I tier → (f (envs n) tier).2 = .ok ()) :
    ∀ (tiers : List T) (n : Nat), (∀ tier ∈ tiers, I tier) → (eachTier f envs n tiers none).2 = .ok ()
  | [], _, _ => rfl
  | tier :: tiers, n, hI => by
    have hhead : f (envs n) tier = ((f (envs n) tier).1, .ok ()) :=
      Prod.ext rfl (hf n tier (hI tier List.mem_cons_self))
    rw [eachTier_cons_ok hhead]
    exact eachTier_all_ok hf tiers (n + 1) fun t ht => hI t (List.mem_cons_of_mem _ ht)

theorem serves_delete {key : K} (hop : e.op = .delete key) (h : FirstPlain keys s p)
    (hinst : Instantaneous s e) (hstep : CacheStep s e t) :
    ∃ q, TtlMap.Serves p e q ∧ FirstPlain keys t q := by
  obtain ⟨first, slower, htiers, hplain, hfollow⟩ := h
  have hle : s.clock ≤ e.finish := hinst 0 ▸ hstep.clock_le 0
  have hexec := hstep.exec_eq
  rw [hop] at hexec
  obtain ⟨hc, hreply⟩ := Prod.mk.inj hexec
  obtain ⟨-, hplain'⟩ := hplain.exec (e.envs 0) (hinst 0 ▸ hle) (.delete key)
    (fun k v ttl heq => by cases heq) (fun k v ttl heq => by cases heq)
  have hfirst : Tier.delete first (e.envs 0) key = ((first.delete key).1, .ok ()) :=
    Prod.ext rfl (hplain.accounted.delete key).2.2
  have hdelete : ∀ (n : Nat) (tier : MemoryCache K V P), Follows p.1 tier →
      (Tier.delete tier (e.envs n) key).2 = .ok () := fun n tier ht => (ht.accounted.delete key).2.2
  have hslower : ∀ (n : Nat) (tier : MemoryCache K V P), Follows p.1 tier →
      (Tier.delete tier (e.envs n) key).2.Returned ∧
        Follows (p.1.exec e.finish (.delete key)).1 (Tier.delete tier (e.envs n) key).1 := by
    intro n tier ht
    rw [hdelete n tier ht]
    exact ⟨trivial, ht.delete e.finish key⟩
  obtain ⟨-, hfollow'⟩ := eachTier_spec (f := fun env tier => Tier.delete tier env key) hslower slower 1
    none hfollow
  have hloop : t.cache.tiers = (first.delete key).1 ::
      (eachTier (fun env tier => Tier.delete tier env key) e.envs 1 slower none).1 := by
    rw [← hc]
    show (eachTier (fun env tier => Tier.delete tier env key) e.envs 0 s.cache.tiers none).1 = _
    rw [htiers, eachTier_cons_ok hfirst]
  refine ⟨((p.1.exec e.finish (.delete key)).1, e.finish), ⟨?_, rfl, by rw [hop]; rfl, Or.inl ?_⟩,
    _, _, hloop, ?_, hfollow'⟩
  · rw [hplain.clock]
    exact hle
  · rw [hop, ← hreply]
    show (eachTier (fun env tier => Tier.delete tier env key) e.envs 0 s.cache.tiers none).2.map _ = _
    rw [htiers, eachTier_cons_ok hfirst, eachTier_all_ok hdelete slower 1 hfollow]
    rfl
  · rw [hstep.clock_eq]
    rw [hinst 0] at hplain'
    exact hplain'

omit [EvictionPolicy K P] in
/-- What the map has let expire no follower has alive. -/
theorem not_liveFrom_of_follows {m : TtlMap K V} {key : K} {now : Instant} {envs : Nat → Env K}
    (hnow : ∀ n, (envs n).now = now) (hread : m.read now key = none) :
    ∀ (tiers : List (MemoryCache K V P)) (n : Nat), (∀ tier ∈ tiers, Follows m tier) →
      ¬ LiveFrom envs key n tiers
  | [], _, _ => id
  | tier :: tiers, n, h => by
    rintro (hlive | hlive)
    · rw [hnow n] at hlive
      exact (h tier List.mem_cons_self).not_live hread hlive
    · exact not_liveFrom_of_follows hnow hread tiers (n + 1)
        (fun t ht => h t (List.mem_cons_of_mem _ ht)) hlive

theorem serves_get {key : K} (hop : e.op = .get key) (h : FirstPlain keys s p)
    (hinst : Instantaneous s e) (hstep : CacheStep s e t) :
    ∃ q, TtlMap.Serves p e q ∧ FirstPlain keys t q := by
  obtain ⟨first, slower, htiers, hplain, hfollow⟩ := h
  have hle : s.clock ≤ e.finish := hinst 0 ▸ hstep.clock_le 0
  have hexec := hstep.exec_eq
  rw [hop] at hexec
  obtain ⟨hc, hreply⟩ := Prod.mk.inj hexec
  obtain ⟨hget, hplain'⟩ := hplain.exec (e.envs 0) (hinst 0 ▸ hle) (.get key)
    (fun k v ttl heq => by cases heq) (fun k v ttl heq => by cases heq)
  obtain ⟨answer, hok, hanswer⟩ := Outcome.ok_of_map
    (show (first.get (e.envs 0) key).2.map Reply.value =
      .ok (.value (p.1.read (e.envs 0).now key)) from hget)
  rw [hinst 0] at hplain' hanswer
  cases hanswer
  -- the map is as it was, the fastest tier has answered, and the slower tiers still follow
  have hserves : ∀ slower', getLoop e.envs key 0 [] s.cache.tiers =
      ((first.get (e.envs 0) key).1 :: slower', .ok (p.1.read e.finish key)) →
      (∀ tier ∈ slower', Follows p.1 tier) →
      ∃ q, TtlMap.Serves p e q ∧ FirstPlain keys t q := by
    intro slower' hloop hfollow'
    refine ⟨(p.1, e.finish), ⟨?_, rfl, by rw [hop]; rfl, Or.inl ?_⟩,
      (first.get (e.envs 0) key).1, slower', ?_, ?_, hfollow'⟩
    · rw [hplain.clock]
      exact hle
    · rw [hop, ← hreply]
      show (getLoop e.envs key 0 [] s.cache.tiers).2.map _ = _
      rw [hloop]
      rfl
    · rw [← hc]
      show (getLoop e.envs key 0 [] s.cache.tiers).1 = _
      rw [hloop]
    · rw [hstep.clock_eq]
      exact hplain'
  cases hread : p.1.read e.finish key with
  | some value =>
    rw [hread] at hok
    refine hserves slower ?_ hfollow
    rw [htiers, getLoop_hit_first slower (Prod.ext rfl hok), hread]
    rfl
  | none =>
    rw [hread] at hok
    have hmisses : ∀ j tier, (first :: slower)[j]? = some tier →
        (Tier.get tier (e.envs (0 + j)) key).2 = .ok none := by
      intro j tier hj
      have ht := List.forall_mem_cons.2 ⟨hplain.follows, hfollow⟩ tier (List.mem_of_getElem? hj)
      rw [Nat.zero_add]
      refine get_of_not_live fun hlive => ?_
      rw [hinst j] at hlive
      exact ht.not_live hread hlive
    refine hserves (slower.mapIdx fun j tier => (tier.get (e.envs (j + 1)) key).1) ?_ ?_
    · have hloop := getLoop_misses (first :: slower) [] [] 0 hmisses
      rw [List.append_nil] at hloop
      rw [htiers, hloop, List.mapIdx_cons, hread]
      simp only [Nat.zero_add, List.nil_append]
      rfl
    · intro tier ht
      obtain ⟨j, hj, rfl⟩ := List.mem_mapIdx.1 ht
      exact (hfollow _ (List.getElem_mem hj)).get (e.envs (j + 1)) key

theorem serves_exists {key : K} (hop : e.op = .exists key) (h : FirstPlain keys s p)
    (hinst : Instantaneous s e) (hstep : CacheStep s e t) :
    ∃ q, TtlMap.Serves p e q ∧ FirstPlain keys t q := by
  obtain ⟨first, slower, htiers, hplain, hfollow⟩ := h
  have hle : s.clock ≤ e.finish := hinst 0 ▸ hstep.clock_le 0
  have hexec := hstep.exec_eq
  rw [hop] at hexec
  obtain ⟨hc, hreply⟩ := Prod.mk.inj hexec
  obtain ⟨hexists, hplain'⟩ := hplain.exec (e.envs 0) (hinst 0 ▸ hle) (.exists key)
    (fun k v ttl heq => by cases heq) (fun k v ttl heq => by cases heq)
  replace hexists : (first.exists (e.envs 0).now key).map Reply.flag =
    .ok (.flag (p.1.read (e.envs 0).now key).isSome) := hexists
  rw [MemoryCache.exists_eq, hinst 0] at hexists
  rw [hinst 0] at hplain'
  have hlive : decide (LiveFrom e.envs key 0 s.cache.tiers) = (p.1.read e.finish key).isSome := by
    have hflag : decide (first.HoldsLive e.finish key) = (p.1.read e.finish key).isSome := by
      simpa [Outcome.map] using hexists
    rw [← hflag, htiers]
    refine decide_eq_decide.2 ⟨?_, fun h => Or.inl (by rwa [hinst 0])⟩
    rintro (h | h)
    · rwa [hinst 0] at h
    · refine Classical.byContradiction fun hno => ?_
      rw [decide_eq_false hno] at hflag
      have hnone : p.1.read e.finish key = none := Option.not_isSome_iff_eq_none.1 (by simp [← hflag])
      exact not_liveFrom_of_follows hinst hnone slower 1 hfollow h
  refine ⟨(p.1, e.finish), ⟨?_, rfl, by rw [hop]; rfl, Or.inl ?_⟩, first, slower, ?_, ?_, hfollow⟩
  · rw [hplain.clock]
    exact hle
  · rw [hop, ← hreply]
    show (existsLoop e.envs key 0 s.cache.tiers).2.map _ = _
    rw [existsLoop_eq, hlive]
    rfl
  · rw [← hc]
    show (existsLoop e.envs key 0 s.cache.tiers).1 = _
    rw [existsLoop_eq]
    exact htiers
  · rw [hstep.clock_eq]
    exact hplain'

end Operations

/-- **A call does what the map does**: the fastest tier stays the map and the others follow it. -/
theorem firstPlain_step {keys : Finset K} {s t : CacheSession (MemoryCache K V P)}
    {p : TtlMap K V × Instant} {e : CacheEvent K V} (h : FirstPlain keys s p)
    (hr : RepresentableCall s e) (hinst : Instantaneous s e) (hsized : FirstSized keys s e)
    (hstep : CacheStep s e t) : ∃ q, TtlMap.Serves p e q ∧ FirstPlain keys t q := by
  have hexec := hstep.exec_eq
  cases hop : e.op with
  | get key => exact serves_get hop h hinst hstep
  | set key value =>
    rw [hop] at hexec
    obtain ⟨hc, hreply⟩ := Prod.mk.inj hexec
    exact serves_set (Or.inr ⟨hop, rfl⟩) h hr hinst hsized hstep (by rw [← hc]; rfl)
      (by rw [← hreply]; rfl)
  | setWithTtl key value d =>
    rw [hop] at hexec
    obtain ⟨hc, hreply⟩ := Prod.mk.inj hexec
    exact serves_set (Or.inl hop) h hr hinst hsized hstep (by rw [← hc]; rfl) (by rw [← hreply]; rfl)
  | delete key => exact serves_delete hop h hinst hstep
  | «exists» key => exact serves_exists hop h hinst hstep

omit [DecidableEq K] [RustSized K] [RustSized V] in
theorem representableCall_event {T : Type} [Tier K V T] (s : CacheSession T) (env : Env K)
    (op : CacheOp K V) (h : RepresentableTtl s (Event.mk env op.plain (.ok .unit) [])) :
    RepresentableCall s (s.event env op) := by
  intro key v d hset n
  rcases hset with hop | ⟨hop, rfl⟩
  all_goals
    replace hop : op = _ := hop
    rw [hop] at h
    exact h

/-- A first tier with room for three entries over one that has room for none. -/
def roomyOverNone : CacheSession (MemoryCache UInt64 UInt64 (LRU UInt64)) :=
  ⟨⟨[.withPolicy 48 (.new UInt64 1024 (Nat.succ_pos (nat_lit 1023))) (Nat.succ_pos (nat_lit 47)),
    .withPolicy 1 (.new UInt64 1024 (Nat.succ_pos (nat_lit 1023))) Nat.one_pos]⟩, 0⟩

/-- A write whose value is read in time and too late, and a write of another key. -/
def refusedBelow : List (Env UInt64 × CacheOp UInt64 UInt64) :=
  [(⟨1, .id _⟩, .setWithTtl 1 10 5), (⟨4, .id _⟩, .get 1), (⟨9, .id _⟩, .get 1),
    (⟨10, .id _⟩, .set 2 20), (⟨11, .id _⟩, .exists 2)]

end CacheLayer
