import CacheLayer.MemoryBounds

/-!
# Resident entries are covered

A `set` whose expiry instant is not representable panics after it has removed entries and before it
has stored the new one, which leaves the counters out of step.  `Covered` is the part of their
relation that every call preserves, that one included: what is resident is counted, in bytes and as
entries, and the byte counter is within capacity.

* `Covered.evictForSpace` — hence one eviction always makes room: the eviction loop finds room at
  once, evicts exactly one resident entry, or runs out of keys with nothing removed;
* `Covered.set_cases` — the ways a `set` can end;
* `Covered.step`, `covered_of_run` — every state of every run is covered.
-/

set_option autoImplicit false

namespace CacheLayer

namespace MemoryCache

variable {K V P : Type} [DecidableEq K] [RustSized K] [RustSized V]

/-- The counters cover what is resident. -/
structure Covered (c : MemoryCache K V P) : Prop where
  uniform : ∀ k e, c.entries.lookup k = some e → e.sizeBytes = entrySize K V
  bytes_le : entrySize K V * c.entries.count ≤ c.sizeBytes
  count_le : c.entries.count ≤ c.stats.entries
  size_le : c.sizeBytes ≤ c.capacityBytes

theorem Accounted.covered {c : MemoryCache K V P} (h : Accounted c) : Covered c where
  uniform := h.uniform
  bytes_le := by rw [h.size_eq]; exact Nat.mul_le_mul_left _ h.count_le
  count_le := h.count_le
  size_le := h.size_le

namespace Covered

variable {c : MemoryCache K V P}

theorem withPolicy (capacityBytes : Nat) (policy : P) (h : 0 < capacityBytes) :
    Covered (.withPolicy capacityBytes policy h : MemoryCache K V P) :=
  (Accounted.withPolicy capacityBytes policy h).covered

theorem setPolicy (h : Covered c) (policy : P) : Covered (c.setPolicy policy) :=
  ⟨h.uniform, h.bytes_le, h.count_le, h.size_le⟩

/-- The bytes of a resident entry are in the byte counter, beside those of all others. -/
theorem bytes_erase (h : Covered c) {key : K} {e : CachedValue V}
    (hl : c.entries.lookup key = some e) :
    e.sizeBytes = entrySize K V ∧
      entrySize K V * (c.entries.erase key).count + entrySize K V ≤ c.sizeBytes ∧
      (c.entries.erase key).count < c.stats.entries := by
  have hcount := AList.count_erase (AList.mem_of_lookup hl)
  have hbytes := h.bytes_le
  have hle := h.count_le
  rw [hcount, Nat.mul_add_one] at hbytes
  exact ⟨h.uniform key e hl, hbytes, by omega⟩

theorem removeEntry (h : Covered c) (key : K) : Covered (c.removeEntry key) where
  uniform k e hl := h.uniform k e (AList.sub_erase _ _ k e hl)
  bytes_le := Nat.le_trans (Nat.mul_le_mul_left _ (AList.count_erase_le _ _)) h.bytes_le
  count_le := Nat.le_trans (AList.count_erase_le _ _) h.count_le
  size_le := h.size_le

/-- The first step of `set` leaves room for the entry it has removed. -/
theorem takeOld (h : Covered c) {key : K} {e : CachedValue V} (hl : c.entries.lookup key = some e) :
    Covered (c.takeOld key).1 ∧ (c.takeOld key).1.HasRoom (entrySize K V) ∧
      (c.takeOld key).1.entries.count < (c.takeOld key).1.stats.entries := by
  have htake := takeOld_of_lookup hl
  obtain ⟨hsize, hbytes, hcount⟩ := h.bytes_erase hl
  have hle := h.size_le
  rw [htake]
  refine ⟨⟨(h.removeEntry key).uniform, ?_, (h.removeEntry key).count_le, ?_⟩, ?_, hcount⟩
  · show entrySize K V * (c.entries.erase key).count ≤ c.sizeBytes - e.sizeBytes
    omega
  · exact Nat.le_trans (Nat.sub_le _ _) hle
  · show c.sizeBytes - e.sizeBytes + entrySize K V ≤ c.capacityBytes
    omega

/-- Removing a resident entry and releasing it neither panics nor uncovers another. -/
theorem release (h : Covered c) {key : K} {e : CachedValue V} (hl : c.entries.lookup key = some e) :
    ∃ c', (c.removeEntry key).releaseEntry e.sizeBytes = (c', none) ∧ Covered c' ∧
      c'.HasRoom (entrySize K V) ∧ c'.entries = c.entries.erase key ∧
      c'.stats.entries + 1 = c.stats.entries ∧ c'.stats.evictions = c.stats.evictions := by
  obtain ⟨hsize, hbytes, hcount⟩ := h.bytes_erase hl
  have hle := h.size_le
  have hzero : ¬ ((c.removeEntry key).debit e.sizeBytes).stats.entries = 0 := by
    show ¬ c.stats.entries = 0
    omega
  refine ⟨_, if_neg hzero, ⟨(h.removeEntry key).uniform, ?_, ?_, ?_⟩, ?_, rfl, ?_, rfl⟩
  · show entrySize K V * (c.entries.erase key).count ≤ c.sizeBytes - e.sizeBytes
    omega
  · show (c.entries.erase key).count ≤ c.stats.entries - 1
    omega
  · exact Nat.le_trans (Nat.sub_le _ _) hle
  · show c.sizeBytes - e.sizeBytes + entrySize K V ≤ c.capacityBytes
    omega
  · show c.stats.entries - 1 + 1 = c.stats.entries
    omega

/-- Dropping a resident victim makes room. -/
theorem dropVictim (h : Covered c) {key : K} (hkey : key ∈ c.entries) :
    ∃ c', c.dropVictim key = (c', none) ∧ Covered c' ∧ c'.HasRoom (entrySize K V) ∧
      c'.entries = c.entries.erase key ∧
      c'.stats.entries + c'.stats.evictions = c.stats.entries + c.stats.evictions := by
  obtain ⟨e, hl⟩ := AList.exists_lookup hkey
  have hcount : Covered c.countEviction := ⟨h.uniform, h.bytes_le, h.count_le, h.size_le⟩
  obtain ⟨c', hr, hcov, hroom, hent, hstat, hevict⟩ := hcount.release hl
  refine ⟨c', ?_, hcov, hroom, hent, ?_⟩
  · unfold MemoryCache.dropVictim
    rw [hl]
    exact hr
  · replace hstat : c'.stats.entries + 1 = c.stats.entries := hstat
    replace hevict : c'.stats.evictions = c.stats.evictions + 1 := hevict
    omega

theorem delete (h : Covered c) (key : K) :
    Covered (c.delete key).1 ∧ (c.delete key).2 = .ok () := by
  unfold MemoryCache.delete
  split
  · rename_i e hl
    obtain ⟨c', hr, hcov, -⟩ := h.release hl
    rw [hr]
    exact ⟨hcov, rfl⟩
  · exact ⟨h, rfl⟩

variable [EvictionPolicy K P]

/-- **One eviction suffices.**  At every head of the eviction loop either only the policy has changed,
or one resident entry has been evicted and there is room. -/
theorem loopHead (h : Covered c) {o : HashOrder K} {c' : MemoryCache K V P}
    (hh : LoopHead o (entrySize K V) c c') :
    (∃ policy, c' = c.setPolicy policy) ∨
      ∃ x ∈ c.entries, ¬ c.HasRoom (entrySize K V) ∧ c'.HasRoom (entrySize K V) ∧ Covered c' ∧
        c'.entries = c.entries.erase x ∧
        c'.stats.entries + c'.stats.evictions = c.stats.entries + c.stats.evictions := by
  induction hh with
  | start => exact Or.inl ⟨c.evictionPolicy, rfl⟩
  | @next c₁ c₂ key policy hh hroom hev hdrop ih =>
    rcases ih with ⟨policy₁, rfl⟩ | ⟨_, _, _, hroom₁, _⟩
    · by_cases hkey : key ∈ c.entries
      · obtain ⟨c₃, hd, hcov, hroom₃, hent, hstat⟩ := (h.setPolicy policy).dropVictim hkey
        replace hdrop : (c.setPolicy policy).dropVictim key = (c₂, none) := hdrop
        rw [hdrop] at hd
        obtain ⟨rfl, -⟩ := Prod.mk.inj hd
        exact Or.inr ⟨key, hkey, hroom, hroom₃, hcov, hent, hstat⟩
      · -- a key that is not resident: the loop goes on with the next one
        replace hdrop : (c.setPolicy policy).dropVictim key = (c₂, none) := hdrop
        rw [dropVictim_of_notMem (c := c.setPolicy policy) hkey] at hdrop
        obtain ⟨rfl, -⟩ := Prod.mk.inj hdrop
        exact Or.inl ⟨policy, rfl⟩
    · exact absurd hroom₁ hroom

/-- While the loop has found no room, it has named no resident key: what a policy loses only with the
key it names, it still has for every resident key. -/
theorem kept_of_loopHead (h : Covered c) {o : HashOrder K} {R : P → K → Prop}
    (hR : ∀ (p p' : P) (key victim : K), EvictionPolicy.evict p o = (some victim, p') →
      key ≠ victim → R p key → R p' key)
    {c' : MemoryCache K V P} (hh : LoopHead o (entrySize K V) c c')
    (hroom : ¬ c'.HasRoom (entrySize K V)) :
    ∃ policy, c' = c.setPolicy policy ∧ ∀ k ∈ c.entries, R c.evictionPolicy k → R policy k := by
  induction hh with
  | start => exact ⟨c.evictionPolicy, rfl, fun _ _ hk => hk⟩
  | @next c₁ c₂ key policy hh hroom₁ hev hdrop ih =>
    obtain ⟨policy₁, rfl, hkept⟩ := ih hroom₁
    replace hdrop : (c.setPolicy policy).dropVictim key = (c₂, none) := hdrop
    by_cases hkey : key ∈ c.entries
    · obtain ⟨c₃, hd, -, hroom₃, -⟩ := (h.setPolicy policy).dropVictim hkey
      rw [hdrop] at hd
      obtain ⟨rfl, -⟩ := Prod.mk.inj hd
      exact absurd hroom₃ hroom
    · rw [dropVictim_of_notMem (c := c.setPolicy policy) hkey] at hdrop
      obtain ⟨rfl, -⟩ := Prod.mk.inj hdrop
      refine ⟨policy, rfl, fun k hk hRk => hR _ _ k key hev ?_ (hkept k hk hRk)⟩
      exact fun heq => hkey (heq ▸ hk)

/-- **How the eviction loop ends**: with room from the start, with room after one eviction, or without
a key to name and with nothing removed. -/
theorem evictForSpace (h : Covered c) (o : HashOrder K) :
    (c.HasRoom (entrySize K V) ∧ c.evictForSpace o (entrySize K V) = (c, .ok ())) ∨
    (¬ c.HasRoom (entrySize K V) ∧ ∃ x ∈ c.entries, ∃ c',
      c.evictForSpace o (entrySize K V) = (c', .ok ()) ∧ c'.HasRoom (entrySize K V) ∧ Covered c' ∧
      c'.entries = c.entries.erase x ∧
      c'.stats.entries + c'.stats.evictions = c.stats.entries + c.stats.evictions) ∨
    (¬ c.HasRoom (entrySize K V) ∧ ∃ policy,
      c.evictForSpace o (entrySize K V) =
        (c.setPolicy policy, .err (c.capacityExceeded (entrySize K V)))) := by
  by_cases hroom : c.HasRoom (entrySize K V)
  · exact Or.inl ⟨hroom, evictForSpace_of_room o hroom⟩
  refine Or.inr ?_
  rcases evictForSpace_cases c o (entrySize K V) with ⟨c', hh, hroom', he⟩ |
    ⟨c', policy, hh, hroom', -, he⟩ | ⟨c', key, policy, c'', p, hh, hroom', -, hdrop, he⟩
  · rcases h.loopHead hh with ⟨policy, rfl⟩ | ⟨x, hx, -, -, hcov, hent, hstat⟩
    · exact absurd hroom' hroom
    · exact Or.inl ⟨hroom, x, hx, c', he, hroom', hcov, hent, hstat⟩
  · rcases h.loopHead hh with ⟨policy₁, rfl⟩ | ⟨_, _, _, hroom₁, _⟩
    · exact Or.inr ⟨hroom, policy, he⟩
    · exact absurd hroom₁ hroom'
  · -- a panic needs a resident victim, and releasing one does not panic
    rcases h.loopHead hh with ⟨policy₁, rfl⟩ | ⟨_, _, _, hroom₁, _⟩
    · replace hdrop : (c.setPolicy policy).dropVictim key = (c'', some p) := hdrop
      by_cases hkey : key ∈ c.entries
      · obtain ⟨c₃, hd, -⟩ := (h.setPolicy policy).dropVictim hkey
        rw [hdrop] at hd
        cases (Prod.mk.inj hd).2
      · rw [dropVictim_of_notMem (c := c.setPolicy policy) hkey] at hdrop
        cases (Prod.mk.inj hdrop).2
    · exact absurd hroom₁ hroom'

/-- A refused loop has changed the policy only, and what a policy loses only with the key it names, it
still has for every resident key. -/
theorem kept_of_refused (h : Covered c) {o : HashOrder K} {R : P → K → Prop}
    (hR : ∀ (p p' : P) (key victim : K), EvictionPolicy.evict p o = (some victim, p') →
      key ≠ victim → R p key → R p' key)
    {c' : MemoryCache K V P} {e : CacheError}
    (hev : c.evictForSpace o (entrySize K V) = (c', .err e)) :
    ∃ policy policy', EvictionPolicy.evict policy o = (none, policy') ∧ c' = c.setPolicy policy' ∧
      ∀ k ∈ c.entries, R c.evictionPolicy k → R policy k := by
  rcases evictForSpace_cases c o (entrySize K V) with ⟨_, -, -, he⟩ |
    ⟨c₁, policy', hh, hroom, hnone, he⟩ | ⟨_, _, _, _, _, -, -, -, -, he⟩
  · rw [hev] at he
    cases (Prod.mk.inj he).2
  · obtain ⟨policy, rfl, hkept⟩ := h.kept_of_loopHead hR hh hroom
    rw [hev] at he
    exact ⟨policy, policy', hnone, (Prod.mk.inj he).1, hkept⟩
  · rw [hev] at he
    cases (Prod.mk.inj he).2

/-- Storing an entry where there is room for it. -/
theorem store (h : Covered c) {key : K} (old : Option Nat) (cached : CachedValue V)
    (hkey : key ∉ c.entries) (hsize : cached.sizeBytes = entrySize K V)
    (hroom : c.HasRoom (entrySize K V)) (hold : old = none ∨ c.entries.count < c.stats.entries) :
    Covered (c.store old key cached) := by
  have hcount : (c.entries.insert key cached).count = c.entries.count + 1 :=
    AList.count_insert cached hkey
  have hbytes := h.bytes_le
  have hle := h.count_le
  refine ⟨?_, ?_, ?_, ?_⟩
  · intro k e hl
    replace hl : (c.entries.insert key cached).lookup k = some e := hl
    by_cases hk : k = key
    · subst hk
      rw [AList.lookup_insert] at hl
      cases hl; exact hsize
    · rw [AList.lookup_insert_ne hk] at hl
      exact h.uniform k e hl
  · show entrySize K V * (c.entries.insert key cached).count ≤ c.sizeBytes + cached.sizeBytes
    rw [hcount, Nat.mul_add_one, hsize]
    omega
  · show (c.entries.insert key cached).count ≤ (c.store old key cached).stats.entries
    rw [hcount]
    cases old with
    | none =>
      show c.entries.count + 1 ≤ c.stats.entries + 1
      omega
    | some n =>
      have hlt := hold.resolve_left (by simp)
      show c.entries.count + 1 ≤ c.stats.entries
      omega
  · show c.sizeBytes + cached.sizeBytes ≤ c.capacityBytes
    rw [hsize]; exact hroom

/-- What the first half of `set(key, ..)` leaves: the old entry removed, or room found, or one entry
evicted, or nothing changed but the policy and the call refused. -/
theorem space_cases (h : Covered c) (o : HashOrder K) (key : K) :
    (key ∈ c.entries ∧
      (c.takeOld key).1.evictForSpace o (entrySize K V) = ((c.takeOld key).1, .ok ())) ∨
    (key ∉ c.entries ∧ c.HasRoom (entrySize K V) ∧
      (c.takeOld key).1.evictForSpace o (entrySize K V) = (c, .ok ())) ∨
    (key ∉ c.entries ∧ ¬ c.HasRoom (entrySize K V) ∧ ∃ x ∈ c.entries, ∃ c',
      (c.takeOld key).1.evictForSpace o (entrySize K V) = (c', .ok ()) ∧
      c'.HasRoom (entrySize K V) ∧ Covered c' ∧ c'.entries = c.entries.erase x ∧
      c'.stats.entries + c'.stats.evictions = c.stats.entries + c.stats.evictions) ∨
    (key ∉ c.entries ∧ ¬ c.HasRoom (entrySize K V) ∧ ∃ policy,
      (c.takeOld key).1.evictForSpace o (entrySize K V) =
        (c.setPolicy policy, .err (c.capacityExceeded (entrySize K V)))) := by
  by_cases hkey : key ∈ c.entries
  · obtain ⟨e, hl⟩ := AList.exists_lookup hkey
    exact Or.inl ⟨hkey, evictForSpace_of_room o (h.takeOld hl).2.1⟩
  · rw [takeOld_of_notMem hkey]
    rcases h.evictForSpace o with ⟨hroom, he⟩ | ⟨hroom, x, hx, c', he⟩ | ⟨hroom, policy, he⟩
    · exact Or.inr (Or.inl ⟨hkey, hroom, he⟩)
    · exact Or.inr (Or.inr (Or.inl ⟨hkey, hroom, x, hx, c', he⟩))
    · exact Or.inr (Or.inr (Or.inr ⟨hkey, hroom, policy, he⟩))

/-- Wherever the eviction loop of a `set` finds room, the new entry can be stored. -/
theorem storable (h : Covered c) {o : HashOrder K} {key : K} {c' : MemoryCache K V P}
    (hev : (c.takeOld key).1.evictForSpace o (entrySize K V) = (c', .ok ())) :
    Covered c' ∧ ∀ cached : CachedValue V, cached.sizeBytes = entrySize K V →
      Covered (c'.store (c.takeOld key).2 key cached) := by
  rcases h.space_cases o key with ⟨hkey, he⟩ | ⟨hkey, hroom, he⟩ |
    ⟨hkey, -, x, -, c₁, he, hroom, hcov, hent, -⟩ | ⟨-, -, policy, he⟩
  all_goals
    rw [hev] at he
    have hc := (Prod.mk.inj he).1
  · obtain ⟨e, hl⟩ := AList.exists_lookup hkey
    obtain ⟨hcov, hroom, hcount⟩ := h.takeOld hl
    rw [hc]
    refine ⟨hcov, fun cached hsize => hcov.store _ cached ?_ hsize hroom (Or.inr hcount)⟩
    rw [takeOld_entries]
    exact AList.lookup_eq_none.1 (AList.lookup_erase key _)
  · rw [hc, takeOld_of_notMem hkey]
    exact ⟨h, fun cached hsize => h.store none cached hkey hsize hroom (Or.inl rfl)⟩
  · rw [hc, takeOld_of_notMem hkey]
    refine ⟨hcov, fun cached hsize => hcov.store none cached ?_ hsize hroom (Or.inl rfl)⟩
    rw [hent]
    exact fun hin => hkey (AList.mem_erase.1 hin).2
  · cases (Prod.mk.inj he).2

/-- **How `set` ends**: the entry is stored; or the expiry instant overflows where it was to be stored;
or the call is refused, for a key that is not resident, with only the policy changed. -/
theorem set_cases (h : Covered c) (env : Env K) (key : K) (value : V) (ttl : Option Duration) :
    (∃ c', (c.takeOld key).1.evictForSpace env.order (entrySize K V) = (c', .ok ()) ∧
      Representable env.now ttl ∧
      c.set env key value ttl = (c'.store (c.takeOld key).2 key
        ⟨value, ttl.map (env.now + ·), entrySize K V, env.now⟩, .ok ())) ∨
    (∃ c', (c.takeOld key).1.evictForSpace env.order (entrySize K V) = (c', .ok ()) ∧
      ¬ Representable env.now ttl ∧ c.set env key value ttl = (c', .panic .instantOverflow)) ∨
    (key ∉ c.entries ∧ ¬ c.HasRoom (entrySize K V) ∧ ∃ policy e,
      c.evictForSpace env.order (entrySize K V) = (c.setPolicy policy, .err e) ∧
      c.set env key value ttl = (c.setPolicy policy, .err e)) := by
  have hspace : (∃ c', (c.takeOld key).1.evictForSpace env.order (entrySize K V) = (c', .ok ())) ∨
      key ∉ c.entries ∧ ¬ c.HasRoom (entrySize K V) ∧ ∃ policy e,
        (c.takeOld key).1.evictForSpace env.order (entrySize K V) = (c.setPolicy policy, .err e) := by
    rcases h.space_cases env.order key with ⟨-, he⟩ | ⟨-, -, he⟩ | ⟨-, -, _, -, c', he, -⟩ |
      ⟨hkey, hroom, policy, he⟩
    · exact Or.inl ⟨_, he⟩
    · exact Or.inl ⟨_, he⟩
    · exact Or.inl ⟨_, he⟩
    · exact Or.inr ⟨hkey, hroom, policy, _, he⟩
  rcases hspace with ⟨c', he⟩ | ⟨hkey, hroom, policy, e, he⟩
  · by_cases hr : Representable env.now ttl
    · exact Or.inl ⟨c', he, hr, set_of_space he value hr⟩
    · exact Or.inr (Or.inl ⟨c', he, hr, set_of_overflow he value hr⟩)
  · have hset := set_of_err he value ttl
    rw [takeOld_of_notMem hkey] at he
    exact Or.inr (Or.inr ⟨hkey, hroom, policy, e, he, hset⟩)

/-- A `set` whose expiry instant is representable does not panic. -/
theorem set_returned (h : Covered c) (env : Env K) (key : K) (value : V) {ttl : Option Duration}
    (hr : Representable env.now ttl) : (c.set env key value ttl).2.Returned := by
  rcases h.set_cases env key value ttl with ⟨_, -, -, hs⟩ | ⟨_, -, hn, -⟩ | ⟨-, -, _, _, -, hs⟩
  · rw [hs]; trivial
  · exact absurd hr hn
  · rw [hs]; trivial

theorem set (h : Covered c) (env : Env K) (key : K) (value : V) (ttl : Option Duration) :
    Covered (c.set env key value ttl).1 := by
  rcases h.set_cases env key value ttl with ⟨c', hev, -, hs⟩ | ⟨c', hev, -, hs⟩ |
    ⟨-, -, policy, _, -, hs⟩
  · rw [hs]
    exact (h.storable hev).2 _ rfl
  · rw [hs]
    exact (h.storable hev).1
  · rw [hs]
    exact h.setPolicy policy

theorem get (h : Covered c) (env : Env K) (key : K) :
    Covered (c.get env key).1 ∧ ∃ r, (c.get env key).2 = .ok r := by
  rcases get_cases c env key with ⟨e, hl, hx, hg⟩ | ⟨e, hl, hx, hg⟩ | ⟨hl, hg⟩
  · have hrem := h.removeEntry key
    rw [hg]
    exact ⟨⟨hrem.uniform, hrem.bytes_le, hrem.count_le, hrem.size_le⟩, _, rfl⟩
  · rw [hg]
    refine ⟨⟨?_, ?_, ?_, h.size_le⟩, _, rfl⟩
    · intro k e' hl'
      replace hl' : (c.touchEntry key env.now).entries.lookup k = some e' := hl'
      rw [touchEntry_lookup, Option.map_eq_some_iff] at hl'
      obtain ⟨e₀, h₀, rfl⟩ := hl'
      have := h.uniform k e₀ h₀
      split <;> exact this
    · show entrySize K V * (c.entries.mapVals _).count ≤ c.sizeBytes
      rw [AList.count_mapVals]
      exact h.bytes_le
    · show (c.entries.mapVals _).count ≤ c.stats.entries
      rw [AList.count_mapVals]
      exact h.count_le
  · rw [hg]
    exact ⟨⟨h.uniform, h.bytes_le, h.count_le, h.size_le⟩, _, rfl⟩

end Covered

end MemoryCache

open MemoryCache

variable {K V P : Type} [DecidableEq K] [EvictionPolicy K P] [RustSized K] [RustSized V]

/-- **Every call keeps what is resident covered.** -/
theorem MemoryCache.Covered.step {s t : Session K V P} {e : Event K V} (h : Covered s.cache)
    (hstep : Step s e t) : Covered t.cache := by
  have hexec := hstep.exec_eq
  cases hop : e.op with
  | get key =>
    rw [hop] at hexec
    rw [← (Prod.mk.inj hexec).1]
    exact (h.get e.env key).1
  | set key value ttl =>
    rw [hop] at hexec
    rw [← (Prod.mk.inj hexec).1]
    exact h.set e.env key value ttl
  | delete key =>
    rw [hop] at hexec
    rw [← (Prod.mk.inj hexec).1]
    exact (h.delete key).1
  | «exists» key =>
    rw [hop] at hexec
    rw [← (Prod.mk.inj hexec).1]
    exact h
  | clear =>
    rw [hop] at hexec
    rw [← (Prod.mk.inj hexec).1]
    exact (Accounted.clear s.cache).1.covered

theorem covered_of_run {cap : Nat} {policy : P} {hcap : 0 < cap} {es : List (Event K V)}
    {s : Session K V P} (hrun : Run Step (.fresh cap policy hcap) es s) : Covered s.cache :=
  hrun.invariant (fun s => Covered s.cache) (Covered.withPolicy cap policy hcap)
    fun _ _ _ h hstep => h.step hstep

end CacheLayer
