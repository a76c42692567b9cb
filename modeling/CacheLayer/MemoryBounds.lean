import CacheLayer.MemoryRun

/-!
# Counters of a `MemoryCache`

The byte counter, the entry counter and the copy of the byte counter in the statistics are updated by
hand on every path.  `Accounted` is the relation between them that every call preserves: the byte
counter is the entry counter times the constant entry size, and the entry counter is at least the
number of resident entries.  Their difference is `leaked`.

* `Accounted.step` — every call with a representable expiry preserves `Accounted`, returns, and
  leaves `leaked` alone unless it is `clear` or a `get` that finds an expired entry;
* `memory_bounds` — capacity is never exceeded, no counter underflows, no saturating subtraction
  saturates and no sum overflows;
* `exact_accounting_iff` — the counters stay exact along a run exactly when no `get` of the run finds
  an expired entry; `exact_accounting_fails` is the run that breaks them.
-/

set_option autoImplicit false

namespace CacheLayer

variable {K V P : Type}

namespace MemoryCache

/-- Sum of `size_bytes` over the resident entries. -/
def residentBytes (c : MemoryCache K V P) : Nat := c.entries.total CachedValue.sizeBytes

/-- How many entries the statistics count beyond the resident ones. -/
def leaked (c : MemoryCache K V P) : Nat := c.stats.entries - c.entries.count

variable [DecidableEq K] [RustSized K] [RustSized V]

/-- The relation between the counters of a cache. -/
structure Accounted (c : MemoryCache K V P) : Prop where
  uniform : ∀ k e, c.entries.lookup k = some e → e.sizeBytes = entrySize K V
  size_eq : c.sizeBytes = entrySize K V * c.stats.entries
  stats_size : c.stats.sizeBytes = c.sizeBytes
  count_le : c.entries.count ≤ c.stats.entries
  size_le : c.sizeBytes ≤ c.capacityBytes

namespace Accounted

variable {c : MemoryCache K V P}

theorem residentBytes_eq (h : Accounted c) : c.residentBytes = entrySize K V * c.entries.count :=
  AList.total_eq_mul_count (AList.forall_entries_iff.2 h.uniform)

theorem entries_eq (h : Accounted c) : c.stats.entries = c.entries.count + c.leaked := by
  have := h.count_le
  unfold leaked; omega

/-- A resident entry is counted, in bytes and as an entry. -/
theorem resident (h : Accounted c) {key : K} {e : CachedValue V}
    (hl : c.entries.lookup key = some e) : e.sizeBytes ≤ c.sizeBytes ∧ 0 < c.stats.entries := by
  have hpos : 0 < c.stats.entries :=
    Nat.lt_of_lt_of_le (AList.count_pos_of_mem (AList.mem_of_lookup hl)) h.count_le
  refine ⟨?_, hpos⟩
  rw [h.uniform key e hl, h.size_eq]
  exact Nat.le_mul_of_pos_right _ hpos

theorem withPolicy (capacityBytes : Nat) (policy : P) (h : 0 < capacityBytes) :
    Accounted (.withPolicy capacityBytes policy h : MemoryCache K V P) where
  uniform _ _ hl := by cases hl
  size_eq := rfl
  stats_size := rfl
  count_le := Nat.le_refl 0
  size_le := Nat.zero_le _

theorem setPolicy (h : Accounted c) (policy : P) : Accounted (c.setPolicy policy) :=
  ⟨h.uniform, h.size_eq, h.stats_size, h.count_le, h.size_le⟩

theorem countEviction (h : Accounted c) : Accounted c.countEviction :=
  ⟨h.uniform, h.size_eq, h.stats_size, h.count_le, h.size_le⟩

/-- Removing an entry without touching the counters leaks it. -/
theorem removeEntry (h : Accounted c) (key : K) : Accounted (c.removeEntry key) where
  uniform k e hl := h.uniform k e (AList.sub_erase _ _ k e hl)
  size_eq := h.size_eq
  stats_size := h.stats_size
  count_le := Nat.le_trans (AList.count_erase_le _ _) h.count_le
  size_le := h.size_le

/-- Removing a resident entry and releasing it does not panic and leaks nothing. -/
theorem release (h : Accounted c) {key : K} {e : CachedValue V}
    (hl : c.entries.lookup key = some e) :
    ∃ c', (c.removeEntry key).releaseEntry e.sizeBytes = (c', none) ∧ Accounted c' ∧
      c'.leaked = c.leaked := by
  have hpos := (h.resident hl).2
  have hcount := AList.count_erase (AList.mem_of_lookup hl)
  have hle := h.count_le
  have hsize := h.uniform key e hl
  have hzero : ¬ ((c.removeEntry key).debit e.sizeBytes).stats.entries = 0 := by
    show ¬ c.stats.entries = 0
    omega
  have hsub : c.sizeBytes - e.sizeBytes = entrySize K V * (c.stats.entries - 1) := by
    rw [h.size_eq, hsize, Nat.mul_sub_one]
  refine ⟨_, if_neg hzero, ⟨?_, hsub, rfl, ?_, ?_⟩, ?_⟩
  · exact (h.removeEntry key).uniform
  · show (c.entries.erase key).count ≤ c.stats.entries - 1
    omega
  · exact Nat.le_trans (Nat.sub_le _ _) h.size_le
  · show (c.stats.entries - 1) - (c.entries.erase key).count = c.stats.entries - c.entries.count
    omega

theorem dropVictim (h : Accounted c) (key : K) :
    ∃ c', c.dropVictim key = (c', none) ∧ Accounted c' ∧ c'.leaked = c.leaked := by
  unfold MemoryCache.dropVictim
  split
  · rename_i e hl
    exact h.countEviction.release hl
  · exact ⟨c, rfl, h, rfl⟩

theorem delete (h : Accounted c) (key : K) :
    Accounted (c.delete key).1 ∧ (c.delete key).1.leaked = c.leaked ∧
      (c.delete key).2 = .ok () := by
  unfold MemoryCache.delete
  split
  · rename_i e hl
    obtain ⟨c', hr, hacc, hleak⟩ := h.release hl
    rw [hr]
    exact ⟨hacc, hleak, rfl⟩
  · exact ⟨h, rfl, rfl⟩

/-- Storing a new entry where there is room. -/
theorem store_new (h : Accounted c) {key : K} (cached : CachedValue V) (hkey : key ∉ c.entries)
    (hsize : cached.sizeBytes = entrySize K V) (hroom : c.sizeBytes + entrySize K V ≤ c.capacityBytes)
    [EvictionPolicy K P] :
    Accounted (c.store none key cached) ∧ (c.store none key cached).leaked = c.leaked := by
  have hcount : (c.entries.insert key cached).count = c.entries.count + 1 :=
    AList.count_insert cached hkey
  have hle := h.count_le
  refine ⟨⟨?_, ?_, rfl, ?_, ?_⟩, ?_⟩
  · intro k e hl
    replace hl : (c.entries.insert key cached).lookup k = some e := hl
    by_cases hk : k = key
    · subst hk
      rw [AList.lookup_insert] at hl
      cases hl; exact hsize
    · rw [AList.lookup_insert_ne hk] at hl
      exact h.uniform k e hl
  · show c.sizeBytes + cached.sizeBytes = entrySize K V * (c.stats.entries + 1)
    rw [h.size_eq, hsize, Nat.mul_add_one]
  · show (c.entries.insert key cached).count ≤ c.stats.entries + 1
    omega
  · show c.sizeBytes + cached.sizeBytes ≤ c.capacityBytes
    rw [hsize]; exact hroom
  · show c.stats.entries + 1 - (c.entries.insert key cached).count = c.stats.entries - c.entries.count
    omega

/-- Overwriting a resident entry: the loop finds room at once, and the counters end as they were. -/
theorem overwrite (h : Accounted c) {key : K} {e : CachedValue V} (cached : CachedValue V)
    (hl : c.entries.lookup key = some e) (hsize : cached.sizeBytes = entrySize K V)
    [EvictionPolicy K P] :
    (c.takeOld key).1.HasRoom (entrySize K V) ∧
      Accounted ((c.takeOld key).1.store (c.takeOld key).2 key cached) ∧
      ((c.takeOld key).1.store (c.takeOld key).2 key cached).leaked = c.leaked := by
  have hsz := h.uniform key e hl
  have hbytes := (h.resident hl).1
  have hcount := AList.count_erase (AList.mem_of_lookup hl)
  have hgone : key ∉ c.entries.erase key := AList.lookup_eq_none.1 (AList.lookup_erase key _)
  have hins : ((c.entries.erase key).insert key cached).count = c.entries.count := by
    rw [AList.count_insert cached hgone, hcount]
  have htake := takeOld_of_lookup hl
  have hback : c.sizeBytes - e.sizeBytes + cached.sizeBytes = c.sizeBytes := by omega
  rw [htake]
  refine ⟨?_, ⟨?_, ?_, rfl, ?_, ?_⟩, ?_⟩
  · have hle := h.size_le
    show c.sizeBytes - e.sizeBytes + entrySize K V ≤ c.capacityBytes
    omega
  · intro k e' hl'
    replace hl' : ((c.entries.erase key).insert key cached).lookup k = some e' := hl'
    by_cases hk : k = key
    · subst hk
      rw [AList.lookup_insert] at hl'
      cases hl'; exact hsize
    · rw [AList.lookup_insert_ne hk, AList.lookup_erase_ne hk] at hl'
      exact h.uniform k e' hl'
  · show c.sizeBytes - e.sizeBytes + cached.sizeBytes = entrySize K V * c.stats.entries
    rw [hback, h.size_eq]
  · show ((c.entries.erase key).insert key cached).count ≤ c.stats.entries
    rw [hins]; exact h.count_le
  · show c.sizeBytes - e.sizeBytes + cached.sizeBytes ≤ c.capacityBytes
    rw [hback]; exact h.size_le
  · show c.stats.entries - ((c.entries.erase key).insert key cached).count = _
    rw [hins]; rfl

variable [EvictionPolicy K P]

/-- The eviction loop keeps the counters in step. -/
theorem loopHead (h : Accounted c) {o : HashOrder K} {n : Nat} {c' : MemoryCache K V P}
    (hh : LoopHead o n c c') : Accounted c' ∧ c'.leaked = c.leaked :=
  hh.invariant (fun c' => Accounted c' ∧ c'.leaked = c.leaked) ⟨h, rfl⟩
    fun c₁ c₂ key policy hI _ _ hdrop => by
      obtain ⟨c₃, hd, hacc, hleak⟩ := (hI.1.setPolicy policy).dropVictim key
      rw [hdrop] at hd
      obtain ⟨rfl, -⟩ := Prod.mk.inj hd
      exact ⟨hacc, hleak.trans hI.2⟩

/-- The eviction loop ends with room or with an error, never in a panic. -/
theorem evictForSpace (h : Accounted c) (o : HashOrder K) (n : Nat) :
    (∃ c', c.evictForSpace o n = (c', .ok ()) ∧ c'.HasRoom n ∧ Accounted c' ∧
      c'.leaked = c.leaked) ∨
    (∃ c' e, c.evictForSpace o n = (c', .err e) ∧ Accounted c' ∧ c'.leaked = c.leaked) := by
  rcases evictForSpace_cases c o n with ⟨c', hh, hroom, he⟩ | ⟨c', policy, hh, -, -, he⟩ |
    ⟨c', key, policy, c'', p, hh, -, -, hdrop, he⟩
  · obtain ⟨hacc, hleak⟩ := h.loopHead hh
    exact Or.inl ⟨c', he, hroom, hacc, hleak⟩
  · obtain ⟨hacc, hleak⟩ := h.loopHead hh
    exact Or.inr ⟨_, _, he, hacc.setPolicy policy, hleak⟩
  · obtain ⟨c₃, hd, -⟩ := ((h.loopHead hh).1.setPolicy policy).dropVictim key
    rw [hdrop] at hd
    cases (Prod.mk.inj hd).2

theorem set (h : Accounted c) {env : Env K} (key : K) (value : V) {ttl : Option Duration}
    (hr : Representable env.now ttl) :
    Accounted (c.set env key value ttl).1 ∧ (c.set env key value ttl).1.leaked = c.leaked ∧
      (c.set env key value ttl).2.Returned := by
  cases hl : c.entries.lookup key with
  | some e =>
    obtain ⟨hroom, hacc, hleak⟩ :=
      h.overwrite ⟨value, ttl.map (env.now + ·), entrySize K V, env.now⟩ hl rfl
    rcases set_cases c env key value ttl with ⟨c', hev, -, hs⟩ | ⟨_, _, hn, _⟩ |
      ⟨c', e', hev, _⟩ | ⟨c', p, hev, _⟩
    · rw [evictForSpace_of_room env.order hroom] at hev
      obtain ⟨rfl, -⟩ := Prod.mk.inj hev
      rw [hs]
      exact ⟨hacc, hleak, trivial⟩
    · exact absurd hr hn
    all_goals
      rw [evictForSpace_of_room env.order hroom] at hev
      cases (Prod.mk.inj hev).2
  | none =>
    have htake := takeOld_of_notMem (AList.lookup_eq_none.1 hl)
    have hsub := evictForSpace_sub c env.order (entrySize K V)
    have hcases := set_cases c env key value ttl
    rw [htake] at hcases
    rcases h.evictForSpace env.order (entrySize K V) with ⟨c₁, he, hroom, hacc, hleak⟩ |
      ⟨c₁, err, he, hacc, hleak⟩
    all_goals
      simp only [he] at hcases hsub
      rcases hcases with ⟨c', hev, -, hs⟩ | ⟨_, _, hn, _⟩ | ⟨c', e', hev, hs⟩ | ⟨c', p, hev, hs⟩
    · obtain ⟨rfl, -⟩ := Prod.mk.inj hev
      have hkey : key ∉ c₁.entries := hsub.notMem (AList.lookup_eq_none.1 hl)
      obtain ⟨hacc', hleak'⟩ :=
        hacc.store_new ⟨value, ttl.map (env.now + ·), entrySize K V, env.now⟩ hkey rfl hroom
      rw [hs]
      exact ⟨hacc', hleak'.trans hleak, trivial⟩
    · exact absurd hr hn
    · cases (Prod.mk.inj hev).2
    · cases (Prod.mk.inj hev).2
    · cases (Prod.mk.inj hev).2
    · exact absurd hr hn
    · obtain ⟨rfl, -⟩ := Prod.mk.inj hev
      rw [hs]
      exact ⟨hacc, hleak, trivial⟩
    · cases (Prod.mk.inj hev).2

omit [EvictionPolicy K P] in
theorem touchEntry (h : Accounted c) (key : K) (now : Instant) :
    Accounted (c.touchEntry key now) where
  uniform k e hl := by
    rw [touchEntry_lookup, Option.map_eq_some_iff] at hl
    obtain ⟨e₀, h₀, rfl⟩ := hl
    have := h.uniform k e₀ h₀
    split <;> exact this
  size_eq := h.size_eq
  stats_size := h.stats_size
  count_le := by rw [MemoryCache.touchEntry, AList.count_mapVals]; exact h.count_le
  size_le := h.size_le

omit [EvictionPolicy K P] in
theorem countHit (h : Accounted c) : Accounted c.countHit :=
  ⟨h.uniform, h.size_eq, h.stats_size, h.count_le, h.size_le⟩

omit [EvictionPolicy K P] in
theorem countMiss (h : Accounted c) : Accounted c.countMiss :=
  ⟨h.uniform, h.size_eq, h.stats_size, h.count_le, h.size_le⟩

theorem clear (c : MemoryCache K V P) : Accounted c.clear.1 ∧ c.clear.1.leaked = 0 :=
  ⟨⟨fun _ _ hl => (by cases hl), rfl, rfl, Nat.le_refl 0, Nat.zero_le _⟩, rfl⟩

end Accounted

/-- Removing `key` and releasing its entry neither saturates the size nor underflows the count. -/
def NoWrap (c : MemoryCache K V P) (key : K) : Prop :=
  ∀ e, c.entries.lookup key = some e → e.sizeBytes ≤ c.sizeBytes ∧ 0 < c.stats.entries

theorem Accounted.noWrap {c : MemoryCache K V P} (h : Accounted c) (key : K) :
    c.NoWrap key :=
  fun _ hl => h.resident hl

/-- After the first step of an overwriting `set` the remaining entries are still counted. -/
theorem Accounted.noWrap_takeOld {c : MemoryCache K V P} (h : Accounted c) (key : K)
    (key' : K) : (c.takeOld key).1.NoWrap key' := by
  cases hl : c.entries.lookup key with
  | none =>
    rw [takeOld_of_notMem (AList.lookup_eq_none.1 hl)]
    exact h.noWrap key'
  | some e =>
    rw [takeOld_of_lookup hl]
    intro e' hl'
    replace hl' : (c.entries.erase key).lookup key' = some e' := hl'
    have h₁ := AList.count_erase (AList.mem_of_lookup hl)
    have h₂ := AList.count_pos_of_mem (AList.mem_of_lookup hl')
    have hle := h.count_le
    have hbytes : e'.sizeBytes + e.sizeBytes ≤ c.sizeBytes := by
      rw [h.uniform key' e' (AList.sub_erase _ _ _ _ hl'), h.uniform key e hl, h.size_eq, ← Nat.mul_two]
      exact Nat.mul_le_mul_left _ (by omega)
    constructor
    · show e'.sizeBytes ≤ c.sizeBytes - e.sizeBytes
      omega
    · show 0 < c.stats.entries
      omega

variable [EvictionPolicy K P]

/-- `get` keeps the counters in step; it leaks exactly when it removes an expired entry. -/
theorem Accounted.get {c : MemoryCache K V P} (h : Accounted c) (env : Env K) (key : K) :
    Accounted (c.get env key).1 ∧ (∃ v, (c.get env key).2 = .ok v) ∧
      (c.HoldsExpired env.now key → (c.get env key).1.leaked = c.leaked + 1) ∧
      (¬ c.HoldsExpired env.now key → (c.get env key).1.leaked = c.leaked) := by
  rcases get_cases c env key with ⟨e, hl, hx, hg⟩ | ⟨e, hl, hx, hg⟩ | ⟨hl, hg⟩
  · rw [hg]
    refine ⟨(h.removeEntry key).countMiss, ⟨_, rfl⟩, fun _ => ?_, fun hn => absurd ⟨e, hl, hx⟩ hn⟩
    have hcount := AList.count_erase (AList.mem_of_lookup hl)
    have hle := h.count_le
    show c.stats.entries - (c.entries.erase key).count = c.stats.entries - c.entries.count + 1
    omega
  · rw [hg]
    refine ⟨((h.setPolicy _).touchEntry key env.now).countHit, ⟨_, rfl⟩, ?_, fun _ => ?_⟩
    · rintro ⟨e', hl', hx'⟩
      rw [hl] at hl'
      cases hl'
      rw [hx] at hx'; cases hx'
    · show c.stats.entries - (c.entries.mapVals _).count = c.stats.entries - c.entries.count
      rw [AList.count_mapVals]
  · rw [hg]
    refine ⟨h.countMiss, ⟨_, rfl⟩, ?_, fun _ => rfl⟩
    rintro ⟨e', hl', -⟩
    rw [hl] at hl'; cases hl'

end MemoryCache

/-! ## Runs -/

variable [DecidableEq K] [EvictionPolicy K P] [RustSized K] [RustSized V]

open MemoryCache

/-- The call is a `get` of a resident entry that has expired. -/
def ExpiredGet (s : Session K V P) (e : Event K V) : Prop :=
  match e.op with
  | .get key => s.cache.HoldsExpired e.env.now key
  | _ => False

instance (s : Session K V P) (e : Event K V) : Decidable (ExpiredGet s e) :=
  match e with
  | ⟨env, .get key, _, _⟩ => inferInstanceAs (Decidable (s.cache.HoldsExpired env.now key))
  | ⟨_, .set _ _ _, _, _⟩ => isFalse id
  | ⟨_, .delete _, _, _⟩ => isFalse id
  | ⟨_, .exists _, _, _⟩ => isFalse id
  | ⟨_, .clear, _, _⟩ => isFalse id

/-- **Every call with a representable expiry returns and keeps the counters in step.** -/
theorem MemoryCache.Accounted.step {s t : Session K V P} {e : Event K V} (h : Accounted s.cache)
    (hr : RepresentableTtl s e) (hstep : Step s e t) :
    Accounted t.cache ∧ e.reply.Returned ∧
      (ExpiredGet s e → t.cache.leaked = s.cache.leaked + 1) ∧
      (¬ ExpiredGet s e → t.cache.leaked ≤ s.cache.leaked) := by
  have hexec := hstep.exec_eq
  unfold ExpiredGet RepresentableTtl at *
  cases hop : e.op with
  | get key =>
    rw [hop] at hexec
    obtain ⟨hc, hreply⟩ := Prod.mk.inj hexec
    obtain ⟨hacc, ⟨v, hv⟩, hexp, hlive⟩ := h.get e.env key
    rw [← hc, ← hreply, hv]
    exact ⟨hacc, trivial, hexp, fun hn => Nat.le_of_eq (hlive hn)⟩
  | set key value ttl =>
    rw [hop] at hexec hr
    obtain ⟨hc, hreply⟩ := Prod.mk.inj hexec
    obtain ⟨hacc, hleak, hret⟩ := h.set key value hr
    rw [← hc, ← hreply]
    refine ⟨hacc, ?_, False.elim, fun _ => Nat.le_of_eq hleak⟩
    revert hret
    cases (s.cache.set e.env key value ttl).2 <;> exact id
  | delete key =>
    rw [hop] at hexec
    obtain ⟨hc, hreply⟩ := Prod.mk.inj hexec
    obtain ⟨hacc, hleak, hok⟩ := h.delete key
    rw [← hc, ← hreply, hok]
    exact ⟨hacc, trivial, False.elim, fun _ => Nat.le_of_eq hleak⟩
  | «exists» key =>
    rw [hop] at hexec
    obtain ⟨hc, hreply⟩ := Prod.mk.inj hexec
    rw [← hc, ← hreply]
    exact ⟨h, trivial, False.elim, fun _ => Nat.le_refl _⟩
  | clear =>
    rw [hop] at hexec
    obtain ⟨hc, hreply⟩ := Prod.mk.inj hexec
    obtain ⟨hacc, hleak⟩ := Accounted.clear s.cache
    rw [← hc, ← hreply, hleak]
    exact ⟨hacc, trivial, False.elim, fun _ => Nat.zero_le _⟩

/-- The counters agree with the resident entries. -/
structure Exact (c : MemoryCache K V P) : Prop where
  size : c.sizeBytes = c.residentBytes
  entries : c.stats.entries = c.entries.count
  stats_size : c.stats.sizeBytes = c.sizeBytes

omit [EvictionPolicy K P] in
theorem exact_iff_leaked {c : MemoryCache K V P} (h : Accounted c) : Exact c ↔ c.leaked = 0 := by
  have he := h.entries_eq
  constructor
  · intro hx
    have := hx.entries
    omega
  · intro hl
    rw [hl, Nat.add_zero] at he
    exact ⟨by rw [h.size_eq, he, h.residentBytes_eq], he, h.stats_size⟩

theorem accounted_of_run {cap : Nat} {policy : P} {hcap : 0 < cap} {es : List (Event K V)}
    {s : Session K V P} (hrun : Run (Guarded RepresentableTtl Step) (.fresh cap policy hcap) es s) :
    Accounted s.cache :=
  hrun.invariant (fun s => Accounted s.cache) (Accounted.withPolicy cap policy hcap)
    fun _ _ _ hI hstep => (hI.step hstep.1 hstep.2).1

/-- **Exact accounting.**  For every capacity and policy, along a run of calls with representable
expiries, `size()`, `stats().entries` and `stats().size_bytes` agree with the resident entries after
every call exactly when no `get` of the run finds an expired entry (which it removes without
returning its bytes or its count). -/
theorem exact_accounting_iff {cap : Nat} (hcap : 0 < cap) (policy : P) (es : List (Event K V))
    (s : Session K V P) :
    Run (Landing (fun s => Exact s.cache) (Guarded RepresentableTtl Step))
        (.fresh cap policy hcap) es s ↔
      Run (Guarded (fun s e => ¬ ExpiredGet s e) (Guarded RepresentableTtl Step))
        (.fresh cap policy hcap) es s := by
  have h₀ : Accounted (Session.fresh cap policy hcap : Session K V P).cache :=
    Accounted.withPolicy cap policy hcap
  refine run_landing_iff (fun s : Session K V P => Accounted s.cache) (fun s => Exact s.cache) h₀
    ((exact_iff_leaked h₀).2 rfl) (fun s e t hI hstep => (hI.step hstep.1 hstep.2).1) ?_
  intro s e t hI hP hstep
  obtain ⟨hacc, -, hexp, hlive⟩ := hI.step hstep.1 hstep.2
  rw [exact_iff_leaked hI] at hP
  rw [exact_iff_leaked hacc]
  constructor
  · intro ht hx
    have := hexp hx
    omega
  · intro hn
    have := hlive hn
    omega

/-- A `MemoryCache::new(1024)`. -/
def freshKilobyte : Session UInt64 UInt64 (LRU UInt64) :=
  .fresh 1024 (LRU.new _ 1024 (Nat.succ_pos (nat_lit 1023))) (Nat.succ_pos (nat_lit 1023))

/-- An entry is cached for one nanosecond and read at its last instant, then overwritten. -/
def timelyCalls : List (Env UInt64 × Op UInt64 UInt64) :=
  [(⟨0, .id _⟩, .set 1 10 (some 1)), (⟨1, .id _⟩, .get 1), (⟨2, .id _⟩, .set 1 11 none)]

theorem exact_accounting_timely :
    Run (Landing (fun s => Exact s.cache) (Guarded RepresentableTtl Step)) freshKilobyte
      (freshKilobyte.script timelyCalls).1 (freshKilobyte.script timelyCalls).2 :=
  (exact_accounting_iff (by decide) _ _ _).2
    (Run.guarded_and (run_script timelyCalls freshKilobyte (by decide)))

/-- An entry is cached for one nanosecond and read two nanoseconds later. -/
def expiringCalls : List (Env UInt64 × Op UInt64 UInt64) :=
  [(⟨0, .id _⟩, .set 1 10 (some 1)), (⟨2, .id _⟩, .get 1)]

/-- After an expired read `size()` is 16 and `stats().entries` is 1, but the map is empty. -/
theorem exact_accounting_fails :
    Run (Guarded RepresentableTtl Step) freshKilobyte (freshKilobyte.script expiringCalls).1
        (freshKilobyte.script expiringCalls).2 ∧
      (freshKilobyte.script expiringCalls).2.cache.sizeBytes = 16 ∧
      (freshKilobyte.script expiringCalls).2.cache.stats.entries = 1 ∧
      (freshKilobyte.script expiringCalls).2.cache.residentBytes = 0 ∧
      (freshKilobyte.script expiringCalls).2.cache.entries.count = 0 ∧
      ¬ Exact (freshKilobyte.script expiringCalls).2.cache :=
  ⟨run_script expiringCalls freshKilobyte (by decide), by decide, by decide, by decide, by decide,
    fun h => absurd h.entries (by decide)⟩

/-! ## Bounds -/

/-- **Capacity and counters.**  In every state of a run of calls with representable expiries: the
resident bytes are at most `size()`, which is at most the capacity; `size()` is
`stats().size_bytes` and the entry size times `stats().entries`, which is at least the number of
resident entries.  Hence the next call does not panic, and wherever it removes an entry (as the old
entry of a `set`, as a `delete`, or at any head of the eviction loop) the subtraction does not
saturate and the count is not zero, and the sum the loop compares with the capacity fits `usize`. -/
theorem memory_bounds {cap : Nat} {hcap : 0 < cap} {policy : P} {es : List (Event K V)}
    {s : Session K V P} (hmax : cap + entrySize K V ≤ usizeMax)
    (hrun : Run (Guarded RepresentableTtl Step) (.fresh cap policy hcap) es s) :
    (s.cache.residentBytes ≤ s.cache.sizeBytes ∧ s.cache.sizeBytes ≤ cap ∧
      s.cache.sizeBytes = s.cache.stats.sizeBytes ∧
      s.cache.stats.sizeBytes = entrySize K V * s.cache.stats.entries ∧
      s.cache.entries.count ≤ s.cache.stats.entries) ∧
    (∀ e t, Guarded RepresentableTtl Step s e t → e.reply.Returned) ∧
    (∀ key, s.cache.NoWrap key) ∧
    ∀ (key : K) (o : HashOrder K) (c' : MemoryCache K V P),
      LoopHead o (entrySize K V) (s.cache.takeOld key).1 c' →
        c'.sizeBytes + entrySize K V ≤ usizeMax ∧ ∀ key', c'.NoWrap key' := by
  have hacc := accounted_of_run hrun
  have hcapacity : s.cache.capacityBytes = cap := capacity_of_run hrun.of_guarded
  have hsize : s.cache.sizeBytes ≤ cap := by rw [← hcapacity]; exact hacc.size_le
  refine ⟨⟨?_, hsize, hacc.stats_size.symm, ?_, hacc.count_le⟩, ?_, hacc.noWrap, ?_⟩
  · rw [hacc.residentBytes_eq, hacc.size_eq]
    exact Nat.mul_le_mul_left _ hacc.count_le
  · rw [hacc.stats_size, hacc.size_eq]
  · intro e t hstep
    exact (hacc.step hstep.1 hstep.2).2.1
  · intro key o c' hh
    cases hl : s.cache.entries.lookup key with
    | none =>
      rw [takeOld_of_notMem (AList.lookup_eq_none.1 hl)] at hh
      have hhead := (hacc.loopHead hh).1
      have hle := hhead.size_le
      rw [hh.capacity, hcapacity] at hle
      exact ⟨by omega, hhead.noWrap⟩
    | some e =>
      have hroom := (hacc.overwrite e hl (hacc.uniform key e hl)).1
      have hle : (s.cache.takeOld key).1.sizeBytes ≤ s.cache.sizeBytes := by
        rw [takeOld_of_lookup hl]
        exact Nat.sub_le _ _
      rw [hh.eq_of_room hroom]
      exact ⟨by omega, hacc.noWrap_takeOld key⟩

/-- The bounds after the expired read above, which leaves one entry counted that is gone. -/
theorem memory_bounds_expiring :
    (freshKilobyte.script expiringCalls).2.cache.residentBytes ≤
        (freshKilobyte.script expiringCalls).2.cache.sizeBytes ∧
      (freshKilobyte.script expiringCalls).2.cache.sizeBytes ≤ 1024 :=
  have h := memory_bounds (by decide : 1024 + entrySize UInt64 UInt64 ≤ usizeMax)
    (run_script expiringCalls freshKilobyte (by decide))
  ⟨h.1.1, h.1.2.1⟩

end CacheLayer
