import CacheLayer.MemoryRecency

/-!
# The LFU victim

The use count of a key is 1 plus the number of `get`s that returned it since it was last set
(`useCount`, read off the history).  The policy is not told about deletes and expiries, so it may hold
counts for keys that are gone; for every resident key its count is the use count (`Counted`).

* `Counted.step` — every call preserves this;
* `lfu_victim_least_used` — whatever a `set` evicts has a least use count among the keys then resident.
-/

set_option autoImplicit false

namespace CacheLayer

variable {K V : Type} [DecidableEq K]

/-- What a call does to the use count of `key`. -/
def Event.countUse (key : K) (n : Nat) (e : Event K V) : Nat :=
  match e.op, e.reply with
  | .set k _ _, _ => if k = key then 1 else n
  | .get k, .ok (.value (some _)) => if k = key then n + 1 else n
  | _, _ => n

/-- 1 plus the number of `get`s of `key` that returned `Some` since `key` was last set. -/
def useCount (es : List (Event K V)) (key : K) : Nat := es.foldl (Event.countUse key) 0

theorem useCount_snoc (es : List (Event K V)) (e : Event K V) (key : K) :
    useCount (es ++ [e]) key = e.countUse key (useCount es key) := by
  simp [useCount]

/-- The policy has the use count of every resident key. -/
def Counted (es : List (Event K V)) (c : MemoryCache K V (LFU K)) : Prop :=
  ∀ k ∈ c.entries, c.evictionPolicy.accessCount.lookup k = some (useCount es k)

namespace Counted

open MemoryCache

variable {es : List (Event K V)} {c c' : MemoryCache K V (LFU K)}

/-- Naming a victim and dropping its entry. -/
theorem evict (h : Counted es c) {o : HashOrder K} {key : K} {policy : LFU K} {out : Option Panic}
    (hev : c.evictionPolicy.evict o = (some key, policy))
    (hdrop : (c.setPolicy policy).dropVictim key = (c', out)) : Counted es c' := by
  have hent := dropVictim_entries (c.setPolicy policy) key
  have hpol := dropVictim_policy (c.setPolicy policy) key
  rw [hdrop] at hent hpol
  replace hpol : c'.evictionPolicy = policy := hpol
  intro k hk
  rw [hent] at hk
  obtain ⟨hne, hk⟩ := AList.mem_erase.1 hk
  rw [hpol, LFU.evict_some hev, AList.lookup_erase_ne hne]
  exact h k hk

theorem loopHead (h : Counted es c) {o : HashOrder K} {n : Nat} (hh : LoopHead o n c c') :
    Counted es c' :=
  hh.invariant (fun c' => Counted es c') h fun _ _ _ _ hI _ hev hdrop => hI.evict hev hdrop

theorem evictForSpace (h : Counted es c) (o : HashOrder K) (n : Nat) :
    Counted es (c.evictForSpace o n).1 := by
  rcases evictForSpace_cases c o n with ⟨c', hh, -, he⟩ | ⟨c', policy, hh, -, hev, he⟩ |
    ⟨c', key, policy, c'', p, hh, -, hev, hdrop, he⟩
  · rw [he]; exact h.loopHead hh
  · -- a policy that names no key stays as it is
    rw [he]
    replace hev : c'.evictionPolicy.evict o = (none, policy) := hev
    have hpol : policy = c'.evictionPolicy := by
      unfold LFU.evict at hev
      split at hev
      · cases hev
      · exact (Prod.mk.inj hev).2.symm
    rw [hpol]
    exact h.loopHead hh
  · rw [he]
    exact (h.loopHead hh).evict hev hdrop

theorem takeOld (h : Counted es c) (key : K) : Counted es (c.takeOld key).1 := by
  intro k hk
  rw [takeOld_entries] at hk
  rw [takeOld_policy]
  exact h k (AList.mem_erase.1 hk).2

theorem get (h : Counted es c) {env : Env K} {key : K} {ev : List K} :
    Counted (es ++ [⟨env, .get key, (c.get env key).2.map .value, ev⟩]) (c.get env key).1 := by
  rcases get_cases c env key with ⟨x, hl, hx, hg⟩ | ⟨x, hl, hx, hg⟩ | ⟨hl, hg⟩
  · rw [hg]
    intro k hk
    rw [useCount_snoc]
    exact h k (AList.mem_erase.1 hk).2
  · rw [hg]
    intro k hk
    have hin : k ∈ c.entries := AList.mem_mapVals.1 hk
    show (c.evictionPolicy.accessCount.insert key (c.evictionPolicy.getCount key + 1)).lookup k = _
    rw [useCount_snoc]
    by_cases hkey : k = key
    · subst hkey
      rw [AList.lookup_insert, LFU.getCount, h k hin]
      simp [Event.countUse, Outcome.map]
    · rw [AList.lookup_insert_ne hkey, h k hin]
      simp [Event.countUse, Outcome.map, Ne.symm hkey]
  · rw [hg]
    intro k hk
    rw [useCount_snoc]
    exact h k hk

theorem set [RustSized K] [RustSized V] (h : Counted es c) {env : Env K} {key : K} {value : V}
    {ttl : Option Duration} {ev : List K} :
    Counted (es ++ [⟨env, .set key value ttl, (c.set env key value ttl).2.map fun _ => .unit, ev⟩])
      (c.set env key value ttl).1 := by
  have hloop := (h.takeOld key).evictForSpace env.order (entrySize K V)
  -- a `set` that stores nothing leaves nothing under its key
  have hfail : ∀ c' : MemoryCache K V (LFU K), Counted es c' → key ∉ c'.entries →
      ∀ reply : Outcome (Reply V), Counted (es ++ [⟨env, .set key value ttl, reply, ev⟩]) c' := by
    intro c' hc' hkey reply k hk
    have hne : key ≠ k := fun heq => hkey (heq ▸ hk)
    rw [useCount_snoc, hc' k hk]
    simp [Event.countUse, hne]
  rcases hs : c.set env key value ttl with ⟨c₁, out⟩
  rcases set_cases c env key value ttl with ⟨c', hev, hr, he⟩ | ⟨c', hev, -, he⟩ |
    ⟨c', e, hev, he⟩ | ⟨c', p, hev, he⟩
  all_goals
    rw [hev] at hloop
    rw [hs] at he
    obtain ⟨rfl, rfl⟩ := Prod.mk.inj he
  · intro k hk
    show (c'.evictionPolicy.accessCount.insert key 1).lookup k = _
    rw [useCount_snoc]
    by_cases hkey : k = key
    · subst hkey
      rw [AList.lookup_insert]
      simp [Event.countUse]
    · have hk : k ∈ c'.entries := ((AList.mem_insert _).1 hk).resolve_left hkey
      rw [AList.lookup_insert_ne hkey, hloop k hk]
      simp [Event.countUse, Ne.symm hkey]
  all_goals exact hfail _ hloop (AList.lookup_eq_none.1 (set_fail_lookup hs (by simp))) _

/-- **Every call keeps the counts of resident keys.** -/
theorem step [RustSized K] [RustSized V] {s t : Session K V (LFU K)} {e : Event K V}
    (h : Counted es s.cache) (hstep : Step s e t) : Counted (es ++ [e]) t.cache := by
  obtain ⟨env, op, reply, evicted⟩ := e
  obtain ⟨-, -, hexec, -⟩ := hstep
  obtain ⟨hc, hreply⟩ := Prod.mk.inj hexec
  simp only at hreply
  rw [← hc, ← hreply]
  cases op with
  | get key => exact h.get
  | set key value ttl => exact h.set
  | delete key =>
    intro k hk
    replace hk : k ∈ (s.cache.delete key).1.entries := hk
    show (s.cache.delete key).1.evictionPolicy.accessCount.lookup k = _
    rw [delete_entries] at hk
    rw [delete_policy, useCount_snoc]
    exact h k (AList.mem_erase.1 hk).2
  | «exists» key =>
    intro k hk
    rw [useCount_snoc]
    exact h k hk
  | clear => exact fun k hk => absurd hk (AList.notMem_empty k)

end Counted

open MemoryCache

variable [RustSized K] [RustSized V]

theorem counted_of_run {cap n : Nat} {hcap : 0 < cap} {hn : 0 < n} {es : List (Event K V)}
    {s : Session K V (LFU K)} (hrun : Run Step (.fresh cap (LFU.new K n hn) hcap) es s) :
    Counted es s.cache := by
  induction hrun with
  | nil => exact fun k hk => absurd hk (AList.notMem_empty k)
  | snoc _ hstep ih => exact ih.step hstep

/-- **The victim is among the least used.**  Take any run of a `MemoryCache` with an LFU policy.  When
the next call `set(key, ..)` evicts `x`, whatever the iteration order, the use count of `x` is at most
that of every other key then resident; and every key the call makes disappear was evicted in this
way. -/
theorem lfu_victim_least_used {cap n : Nat} {hcap : 0 < cap} {hn : 0 < n} {es : List (Event K V)}
    {s t : Session K V (LFU K)} {e : Event K V}
    (hrun : Run Step (.fresh cap (LFU.new K n hn) hcap) es s) (hstep : Step s e t) {key : K}
    {value : V} {ttl : Option Duration} (hop : e.op = .set key value ttl) :
    (∀ c' x, Evicts e.env.order (entrySize K V) (s.cache.takeOld key).1 c' x →
      ∀ y ∈ c'.entries, useCount es x ≤ useCount es y) ∧
    ∀ x ∈ e.evicted, ∃ c', Evicts e.env.order (entrySize K V) (s.cache.takeOld key).1 c' x := by
  have hcounted := counted_of_run hrun
  constructor
  · rintro c' x ⟨hh, -, hin, hev⟩ y hy
    have hcounts := (hcounted.takeOld key).loopHead hh
    have hevict : c'.evictionPolicy.evict e.env.order =
      (some x, (c'.evictionPolicy.evict e.env.order).2) := Prod.ext hev rfl
    obtain ⟨m, hm, -, hleast⟩ := LFU.evict_least hevict
    rw [hcounts x hin] at hm
    obtain rfl := Option.some.inj hm
    exact hleast y _ (hcounts y hy)
  · intro x hx
    rw [hstep.evicted_eq, hop] at hx
    exact evicts_of_evicted hx

/-- A cache with room for three entries and an LFU policy. -/
def freshFrequency : Session UInt64 UInt64 (LFU UInt64) :=
  .fresh 48 (LFU.new _ 1024 (Nat.succ_pos (nat_lit 1023))) (Nat.succ_pos (nat_lit 47))

/-- The first key is read three times and deleted; with two others and itself again the cache is full,
and the others have been read. -/
def recachedAfterDelete : List (Env UInt64 × Op UInt64 UInt64) :=
  [(⟨0, .id _⟩, .set 1 10 none), (⟨1, .id _⟩, .get 1), (⟨2, .id _⟩, .get 1), (⟨3, .id _⟩, .get 1),
    (⟨4, .id _⟩, .delete 1), (⟨5, .id _⟩, .set 2 20 none), (⟨6, .id _⟩, .get 2),
    (⟨7, .id _⟩, .set 3 30 none), (⟨8, .id _⟩, .get 3), (⟨9, .id _⟩, .set 1 11 none)]

/-- The next `set` evicts the first key, whose old reads no longer count. -/
theorem lfu_victim_least_used_after_delete :
    useCount (freshFrequency.script recachedAfterDelete).1 1 ≤
        useCount (freshFrequency.script recachedAfterDelete).1 2 ∧
      useCount (freshFrequency.script recachedAfterDelete).1 1 ≤
        useCount (freshFrequency.script recachedAfterDelete).1 3 := by
  have hrun : Run (Guarded (fun _ _ => True) Step) freshFrequency _ _ :=
    run_script recachedAfterDelete freshFrequency (by decide)
  have hleast := (lfu_victim_least_used hrun.of_guarded
    (step_after _ ⟨10, .id _⟩ (.set 4 40 none) (by decide)) rfl).1 _ 1
    ⟨.start, by decide, by decide, by decide⟩
  exact ⟨hleast 2 (by decide), hleast 3 (by decide)⟩

end CacheLayer
