import CacheLayer.MemoryRecency
import CacheLayer.MemoryCovered
import CacheLayer.MemoryWrites

/-!
# What the policy remembers

The `EvictionPolicy` trait has no call for a key that leaves the map, and the eviction loop skips the
keys it is given that are no longer there.  So the policy keeps a key that a `delete`, an expired `get`
or a panicking `set` has removed until `evict` names it, the key is stored again, or `clear`.

* `LeftSilently` — the key has left the map in this way, and has not come back;
* `policy_keys_resident_or_left` — every other key in the policy's map is resident.  Where an LRU policy
  was right about the position of every key reported to it, its order holds the keys of its map once
  each; so without keys that left silently the policy is as small as the map.
* `deleted_keys_remembered` — deleted keys fill the policy of an empty cache.
-/

set_option autoImplicit false

namespace CacheLayer

open MemoryCache

variable {K V : Type} [DecidableEq K] [RustSized K] [RustSized V]

/-! ## Keys that leave the map -/

omit [DecidableEq K] [RustSized K] [RustSized V] in
/-- The call is a `delete` or a `get` of `key`, or a `set` of it that panicked. -/
def Event.MayDrop (e : Event K V) (key : K) : Prop :=
  e.op = .delete key ∨ e.op = .get key ∨
    ∃ value ttl, e.op = .set key value ttl ∧ e.reply = .panic .instantOverflow

/-- In the history `es`, which began in `s₀`, a call of its own made `key` disappear from the map, and
since then it has been neither stored nor read, and the cache not cleared. -/
def LeftSilently {P : Type} [EvictionPolicy K P] (s₀ : Session K V P) (es : List (Event K V))
    (key : K) : Prop :=
  ∃ pre e post s t, es = pre ++ e :: post ∧ Run Step s₀ pre s ∧ Step s e t ∧ e.MayDrop key ∧
    key ∈ s.cache.entries ∧ key ∉ t.cache.entries ∧ ∀ e' ∈ post, ¬ e'.Touches key ∧ e'.op ≠ .clear

section AnyPolicy

variable {P : Type} [EvictionPolicy K P] {s₀ s t : Session K V P} {es : List (Event K V)}
  {e : Event K V} {key : K}

theorem LeftSilently.snoc (h : LeftSilently s₀ es key) (ht : ¬ e.Touches key) (hc : e.op ≠ .clear) :
    LeftSilently s₀ (es ++ [e]) key := by
  obtain ⟨pre, e₁, post, s₁, t₁, rfl, hrun, hstep, hdrop, hin, hout, hpost⟩ := h
  refine ⟨pre, e₁, post ++ [e], s₁, t₁, by simp, hrun, hstep, hdrop, hin, hout, ?_⟩
  intro e' he'
  rcases List.mem_append.1 he' with he' | he'
  · exact hpost e' he'
  · rw [List.mem_singleton.1 he']
    exact ⟨ht, hc⟩

theorem leftSilently_of_step (hrun : Run Step s₀ es s) (hstep : Step s e t) (hdrop : e.MayDrop key)
    (hin : key ∈ s.cache.entries) (hout : key ∉ t.cache.entries) :
    LeftSilently s₀ (es ++ [e]) key :=
  ⟨es, e, [], s, t, rfl, hrun, hstep, hdrop, hin, hout, fun _ he' => absurd he' List.not_mem_nil⟩

end AnyPolicy

/-! ## The policy's map -/

section Loop

variable {c c' : MemoryCache K V (BoxedPolicy K)} {o : HashOrder K} {n : Nat}

omit [RustSized K] [RustSized V] in
/-- The loop takes a key out of the map and out of the policy's map together. -/
theorem indexes_of_loopHead (hh : LoopHead o n c c') :
    ∀ k, c'.evictionPolicy.Indexes k →
      c.evictionPolicy.Indexes k ∧ (k ∈ c.entries → k ∈ c'.entries) := by
  refine hh.invariant (fun c' => ∀ k, c'.evictionPolicy.Indexes k →
    c.evictionPolicy.Indexes k ∧ (k ∈ c.entries → k ∈ c'.entries)) (fun k hk => ⟨hk, id⟩) ?_
  intro c₁ c₂ key policy hI _ hev hdrop k hk
  have hent := dropVictim_entries (c₁.setPolicy policy) key
  have hpol := dropVictim_policy (c₁.setPolicy policy) key
  rw [hdrop] at hent hpol
  rw [hpol] at hk
  obtain ⟨hne, hk⟩ := (BoxedPolicy.indexes_of_evict hev).1 hk
  obtain ⟨hbefore, hkept⟩ := hI k hk
  refine ⟨hbefore, fun hin => ?_⟩
  rw [hent]
  exact AList.mem_erase.2 ⟨hne, hkept hin⟩

omit [RustSized K] [RustSized V] in
/-- What the loop of `set(key, ..)` has left in the policy's map was there before the call, and is as
resident as it was. -/
theorem indexes_of_set_loop {key k : K} (hh : LoopHead o n (c.takeOld key).1 c')
    (hk : c'.evictionPolicy.Indexes k) :
    c.evictionPolicy.Indexes k ∧ (k ≠ key → k ∈ c.entries → k ∈ c'.entries) := by
  obtain ⟨hbefore, hkept⟩ := indexes_of_loopHead hh k hk
  rw [takeOld_policy] at hbefore
  refine ⟨hbefore, fun hne hin => hkept ?_⟩
  rw [takeOld_entries]
  exact AList.mem_erase.2 ⟨hne, hin⟩

omit [RustSized K] [RustSized V] in
theorem coherent_of_loopHead (h : c.evictionPolicy.Coherent) (hh : LoopHead o n c c') :
    c'.evictionPolicy.Coherent := by
  refine hh.invariant (fun c' => c'.evictionPolicy.Coherent) h ?_
  intro c₁ c₂ key policy hI _ hev hdrop
  have hpol := dropVictim_policy (c₁.setPolicy policy) key
  rw [hdrop] at hpol
  rw [hpol]
  exact hI.evict hev

omit [RustSized K] [RustSized V] in
/-- Where the loop returns is one of its heads: a policy that names no key stays as it is. -/
theorem loopHead_of_returned {out : Outcome Unit} (hev : c.evictForSpace o n = (c', out))
    (hout : out.Returned) : LoopHead o n c c' := by
  rcases evictForSpace_cases c o n with ⟨c₁, hh, -, he⟩ | ⟨c₁, policy, hh, -, hnone, he⟩ |
    ⟨_, _, _, _, _, -, -, -, -, he⟩
  · rw [hev] at he
    rw [(Prod.mk.inj he).1]
    exact hh
  · rw [hev] at he
    obtain rfl := BoxedPolicy.evict_none_eq hnone
    rw [(Prod.mk.inj he).1]
    exact hh
  · rw [hev] at he
    rw [(Prod.mk.inj he).2] at hout
    exact hout.elim

end Loop

/-- Every key in the policy's map is resident, or has left the map silently. -/
def Explained (s₀ : Session K V (BoxedPolicy K)) (es : List (Event K V))
    (c : MemoryCache K V (BoxedPolicy K)) : Prop :=
  ∀ key, c.evictionPolicy.Indexes key → key ∈ c.entries ∨ LeftSilently s₀ es key

variable {s₀ s t : Session K V (BoxedPolicy K)} {es : List (Event K V)} {e : Event K V}

omit [DecidableEq K] [RustSized K] [RustSized V] in
theorem Event.not_touches_of_set {k key : K} {value : V} {ttl : Option Duration}
    (hop : e.op = .set k value ttl) (hne : key ≠ k) : ¬ e.Touches key := by
  unfold Event.Touches
  rw [hop]
  split
  · rename_i heq _
    cases heq
    exact Ne.symm hne
  · rename_i heq _
    cases heq
  · exact id

/-- A key that was in the policy's map is still explained after a call that is not about it. -/
theorem Explained.old (h : Explained s₀ es s.cache) (hrun : Run Step s₀ es s) (hstep : Step s e t)
    {key : K} (hk : s.cache.evictionPolicy.Indexes key) (htouch : ¬ e.Touches key)
    (hclear : e.op ≠ .clear)
    (hin : key ∈ s.cache.entries → key ∈ t.cache.entries ∨ e.MayDrop key) :
    key ∈ t.cache.entries ∨ LeftSilently s₀ (es ++ [e]) key := by
  rcases h key hk with hres | hleft
  · rcases hin hres with ht | hdrop
    · exact Or.inl ht
    · by_cases ht : key ∈ t.cache.entries
      · exact Or.inl ht
      · exact Or.inr (leftSilently_of_step hrun hstep hdrop hres ht)
  · exact Or.inr (hleft.snoc htouch hclear)

theorem Explained.get (h : Explained s₀ es s.cache) (hrun : Run Step s₀ es s) (hstep : Step s e t)
    {k : K} (hop : e.op = .get k) : Explained s₀ (es ++ [e]) t.cache := by
  have hexec := hstep.exec_eq
  rw [hop] at hexec
  obtain ⟨hc, hreply⟩ := Prod.mk.inj hexec
  have hclear : e.op ≠ .clear := by rw [hop]; exact nofun
  intro key hk
  rcases get_cases s.cache e.env k with ⟨x, hl, hx, hg⟩ | ⟨x, hl, hx, hg⟩ | ⟨hl, hg⟩
  all_goals rw [hg] at hc hreply
  · have htouch : ¬ e.Touches key := by
      unfold Event.Touches; rw [hop, ← hreply]; exact id
    rw [← hc] at hk
    refine h.old hrun hstep hk htouch hclear fun hin => ?_
    by_cases hne : key = k
    · rw [hne]
      exact Or.inr (Or.inr (Or.inl hop))
    · rw [← hc]
      exact Or.inl (AList.mem_erase.2 ⟨hne, hin⟩)
  · have hent : ∀ k', k' ∈ t.cache.entries ↔ k' ∈ s.cache.entries := by
      intro k'
      rw [← hc]
      exact AList.mem_mapVals
    rw [← hc] at hk
    by_cases hne : key = k
    · rw [hne, hent]
      exact Or.inl (AList.mem_of_lookup hl)
    · have htouch : ¬ e.Touches key := by
        unfold Event.Touches; rw [hop, ← hreply]; exact fun heq => hne heq.symm
      have hk' := (BoxedPolicy.indexes_onAccess.1 hk).resolve_right hne
      exact h.old hrun hstep hk' htouch hclear fun hin => Or.inl ((hent key).2 hin)
  · have htouch : ¬ e.Touches key := by
      unfold Event.Touches; rw [hop, ← hreply]; exact id
    rw [← hc] at hk
    refine h.old hrun hstep hk htouch hclear fun hin => ?_
    rw [← hc]
    exact Or.inl hin

theorem Explained.set (h : Explained s₀ es s.cache) (hcov : Covered s.cache)
    (hrun : Run Step s₀ es s) (hstep : Step s e t) {k : K} {value : V} {ttl : Option Duration}
    (hop : e.op = .set k value ttl) : Explained s₀ (es ++ [e]) t.cache := by
  have hexec := hstep.exec_eq
  rw [hop] at hexec
  obtain ⟨hc, hreply⟩ := Prod.mk.inj hexec
  have hclear : e.op ≠ .clear := by rw [hop]; exact nofun
  intro key hk
  rcases hcov.set_cases e.env k value ttl with ⟨c', hev, -, hs⟩ | ⟨c', hev, -, hs⟩ |
    ⟨hnot, -, policy, err, hev, hs⟩
  all_goals
    rw [hs] at hc hreply
    replace hc := hc.symm
    rw [hc] at hk
  · have hent : ∀ k', k' ∈ t.cache.entries ↔ k' = k ∨ k' ∈ c'.entries := by
      intro k'
      rw [hc]
      exact AList.mem_insert _
    by_cases hne : key = k
    · exact Or.inl ((hent key).2 (Or.inl hne))
    · have hk' := (BoxedPolicy.indexes_onInsert.1 hk).resolve_right hne
      obtain ⟨hbefore, hkept⟩ := indexes_of_set_loop (loopHead_of_returned hev trivial) hk'
      exact h.old hrun hstep hbefore (Event.not_touches_of_set hop hne) hclear
        fun hin => Or.inl ((hent key).2 (Or.inr (hkept hne hin)))
  · obtain ⟨hbefore, hkept⟩ := indexes_of_set_loop (loopHead_of_returned hev trivial) hk
    have hnone : ¬ e.Touches key := by
      unfold Event.Touches; rw [hop, ← hreply]; exact id
    refine h.old hrun hstep hbefore hnone hclear fun hin => ?_
    by_cases hne : key = k
    · rw [hne]
      exact Or.inr (Or.inr (Or.inr ⟨value, ttl, hop, hreply.symm⟩))
    · rw [hc]
      exact Or.inl (hkept hne hin)
  · obtain ⟨hbefore, -⟩ := indexes_of_loopHead (loopHead_of_returned hev trivial) key hk
    have hnone : ¬ e.Touches key := by
      unfold Event.Touches; rw [hop, ← hreply]; exact id
    refine h.old hrun hstep hbefore hnone hclear fun hin => ?_
    rw [hc]
    exact Or.inl hin

/-- **Every call keeps the policy's map explained.** -/
theorem Explained.step (h : Explained s₀ es s.cache) (hcov : Covered s.cache)
    (hrun : Run Step s₀ es s) (hstep : Step s e t) : Explained s₀ (es ++ [e]) t.cache := by
  have hexec := hstep.exec_eq
  cases hop : e.op with
  | get k => exact h.get hrun hstep hop
  | set k value ttl => exact h.set hcov hrun hstep hop
  | delete k =>
    rw [hop] at hexec
    obtain ⟨hc, -⟩ := Prod.mk.inj hexec
    intro key hk
    have hclear : e.op ≠ .clear := by rw [hop]; exact nofun
    have htouch : ¬ e.Touches key := by
      unfold Event.Touches; rw [hop]; exact id
    rw [← hc, delete_policy] at hk
    refine h.old hrun hstep hk htouch hclear fun hin => ?_
    by_cases hne : key = k
    · rw [hne]
      exact Or.inr (Or.inl hop)
    · rw [← hc, delete_entries]
      exact Or.inl (AList.mem_erase.2 ⟨hne, hin⟩)
  | «exists» k =>
    rw [hop] at hexec
    obtain ⟨hc, -⟩ := Prod.mk.inj hexec
    intro key hk
    have hclear : e.op ≠ .clear := by rw [hop]; exact nofun
    have htouch : ¬ e.Touches key := by
      unfold Event.Touches; rw [hop]; exact id
    rw [← hc] at hk
    exact h.old hrun hstep hk htouch hclear fun hin => Or.inl (by rw [← hc]; exact hin)
  | clear =>
    rw [hop] at hexec
    obtain ⟨hc, -⟩ := Prod.mk.inj hexec
    intro key hk
    rw [← hc] at hk
    exact absurd hk (BoxedPolicy.not_indexes_reset _ key)

/-! ## Coherent policies -/

/-- Whenever the call reports a key to an LRU policy, the position stored for it, if one is, is right. -/
def ReportsAccurate (s : Session K V (BoxedPolicy K)) (e : Event K V) : Prop :=
  match e.op with
  | .get key => s.cache.HoldsLive e.env.now key → s.cache.evictionPolicy.Accurate key
  | .set key value ttl => (s.cache.set e.env key value ttl).2 = .ok () →
      ((s.cache.takeOld key).1.evictForSpace e.env.order
        (entrySize K V)).1.evictionPolicy.Accurate key
  | _ => True

instance (s : Session K V (BoxedPolicy K)) (e : Event K V) : Decidable (ReportsAccurate s e) :=
  match e with
  | ⟨env, .get key, _, _⟩ => inferInstanceAs
      (Decidable (s.cache.HoldsLive env.now key → s.cache.evictionPolicy.Accurate key))
  | ⟨env, .set key value ttl, _, _⟩ => inferInstanceAs
      (Decidable ((s.cache.set env key value ttl).2 = .ok () →
        ((s.cache.takeOld key).1.evictForSpace env.order
          (entrySize K V)).1.evictionPolicy.Accurate key))
  | ⟨_, .delete _, _, _⟩ => isTrue trivial
  | ⟨_, .exists _, _, _⟩ => isTrue trivial
  | ⟨_, .clear, _, _⟩ => isTrue trivial

theorem policy_coherent_step (h : s.cache.evictionPolicy.Coherent) (hcov : Covered s.cache)
    (ha : ReportsAccurate s e) (hstep : Step s e t) : t.cache.evictionPolicy.Coherent := by
  have hexec := hstep.exec_eq
  unfold ReportsAccurate at ha
  cases hop : e.op with
  | get k =>
    rw [hop] at hexec ha
    rw [← (Prod.mk.inj hexec).1]
    rcases get_cases s.cache e.env k with ⟨x, hl, hx, hg⟩ | ⟨x, hl, hx, hg⟩ | ⟨hl, hg⟩
    · rw [hg]; exact h
    · rw [hg]; exact h.onAccess (ha ⟨x, hl, hx⟩)
    · rw [hg]; exact h
  | set k value ttl =>
    rw [hop] at hexec ha
    rw [← (Prod.mk.inj hexec).1]
    have htake : (s.cache.takeOld k).1.evictionPolicy.Coherent := by rw [takeOld_policy]; exact h
    rcases hcov.set_cases e.env k value ttl with ⟨c', hev, -, hs⟩ | ⟨c', hev, -, hs⟩ |
      ⟨-, -, policy, err, hev, hs⟩
    · have hc' := coherent_of_loopHead htake (loopHead_of_returned hev trivial)
      simp only [hs, hev, true_implies] at ha
      rw [hs]
      exact hc'.onInsert ha
    · rw [hs]
      exact coherent_of_loopHead htake (loopHead_of_returned hev trivial)
    · rw [hs]
      exact coherent_of_loopHead h (loopHead_of_returned hev trivial)
  | delete k =>
    rw [hop] at hexec
    rw [← (Prod.mk.inj hexec).1]
    show (s.cache.delete k).1.evictionPolicy.Coherent
    rw [delete_policy]
    exact h
  | «exists» k =>
    rw [hop] at hexec
    rw [← (Prod.mk.inj hexec).1]
    exact h
  | clear =>
    rw [hop] at hexec
    rw [← (Prod.mk.inj hexec).1]
    exact BoxedPolicy.coherent_reset _

theorem policy_coherent_of_run {cap : Nat} {hcap : 0 < cap} {policy : BoxedPolicy K}
    (hnew : ∀ key, ¬ policy.Remembers key)
    (hrun : Run (Guarded ReportsAccurate Step) (.fresh cap policy hcap) es s) :
    s.cache.evictionPolicy.Coherent := by
  have hI := hrun.invariant (fun s => Covered s.cache ∧ s.cache.evictionPolicy.Coherent)
    ⟨Covered.withPolicy cap policy hcap, BoxedPolicy.coherent_of_forgetful hnew⟩
    fun _ _ _ hI hstep => ⟨hI.1.step hstep.2, policy_coherent_step hI.2 hI.1 hstep.1 hstep.2⟩
  exact hI.2

theorem explained_of_run {cap : Nat} {hcap : 0 < cap} {policy : BoxedPolicy K}
    (hnew : ∀ key, ¬ policy.Remembers key) (hrun : Run Step (.fresh cap policy hcap) es s) :
    Explained (.fresh cap policy hcap) es s.cache := by
  induction hrun with
  | nil =>
    intro key hk
    exact absurd (BoxedPolicy.remembers_of_indexes hk) (hnew key)
  | snoc hrun hstep ih => exact ih.step (covered_of_run hrun) hrun hstep

/-- **The policy remembers resident keys, and keys that left the map silently.**  Take any run of a
`MemoryCache` with a new LRU or LFU policy.  Every key in the policy's map is resident, or has left the
map at a `delete`, an expired `get` or a panicking `set` of it and not come back.  If an LRU policy had
the right position for every key reported to it, the same holds of the keys in its order; and if no key
has left silently, the policy is no larger than the map, which the capacity bounds. -/
theorem policy_keys_resident_or_left {cap : Nat} {hcap : 0 < cap} {policy : BoxedPolicy K}
    (hnew : ∀ key, ¬ policy.Remembers key) (hrun : Run Step (.fresh cap policy hcap) es s) :
    (∀ key, s.cache.evictionPolicy.Indexes key →
      key ∈ s.cache.entries ∨ LeftSilently (.fresh cap policy hcap) es key) ∧
    (Run (Guarded ReportsAccurate Step) (.fresh cap policy hcap) es s →
      (∀ key, s.cache.evictionPolicy.Remembers key →
        key ∈ s.cache.entries ∨ LeftSilently (.fresh cap policy hcap) es key) ∧
      ((∀ key, ¬ LeftSilently (.fresh cap policy hcap) es key) →
        s.cache.evictionPolicy.size ≤ s.cache.entries.count ∧
          entrySize K V * s.cache.evictionPolicy.size ≤ cap)) := by
  have hexp := explained_of_run hnew hrun
  refine ⟨hexp, fun hacc => ?_⟩
  have hcoh := policy_coherent_of_run hnew hacc
  refine ⟨fun key hk => hexp key (hcoh.indexes hk), fun hnone => ?_⟩
  have hsize : s.cache.evictionPolicy.size ≤ s.cache.entries.count := by
    rw [AList.count_eq_keys_length]
    exact hcoh.size_le fun key hk => AList.mem_keys.1 ((hexp key hk).resolve_right (hnone key))
  have hcov := covered_of_run hrun
  have hcapacity := capacity_of_run hrun
  refine ⟨hsize, ?_⟩
  calc entrySize K V * s.cache.evictionPolicy.size
      ≤ entrySize K V * s.cache.entries.count := Nat.mul_le_mul_left _ hsize
    _ ≤ s.cache.sizeBytes := hcov.bytes_le
    _ ≤ cap := by rw [← hcapacity]; exact hcov.size_le

/-- An entry is cached and deleted, and another takes its place. -/
def replaceCalls : List (Env UInt64 × Op UInt64 UInt64) :=
  [(⟨0, .id _⟩, .set 1 10 none), (⟨1, .id _⟩, .delete 1), (⟨2, .id _⟩, .set 2 20 none)]

/-- The policy still knows the deleted key, which has left silently. -/
theorem policy_keys_after_delete :
    LeftSilently freshSingle (freshSingle.script replaceCalls).1 1 := by
  have hrun : Run (Guarded ReportsAccurate Step) freshSingle _ _ :=
    run_script replaceCalls freshSingle (by decide)
  have hkeys := (policy_keys_resident_or_left (BoxedPolicy.not_remembers_lru_new 1024 (Nat.succ_pos 1023))
    hrun.of_guarded).2 hrun
  have hin : (1 : UInt64) ∈
      (freshSingle.script replaceCalls).2.cache.entries ∨ _ := hkeys.1 1 (Or.inl (by decide))
  exact hin.resolve_left (by decide)

/-- Two entries are cached and deleted, one after the other. -/
def deleteCalls : List (Env UInt64 × Op UInt64 UInt64) :=
  [(⟨0, .id _⟩, .set 1 10 none), (⟨1, .id _⟩, .delete 1), (⟨2, .id _⟩, .set 2 20 none),
    (⟨3, .id _⟩, .delete 2)]

/-- The cache has room for one entry and is empty; its policy tracks both keys. -/
theorem deleted_keys_remembered :
    Run Step freshSingle (freshSingle.script deleteCalls).1
        (freshSingle.script deleteCalls).2 ∧
      (freshSingle.script deleteCalls).2.cache.entries.count = 0 ∧
      (freshSingle.script deleteCalls).2.cache.evictionPolicy.Remembers 1 ∧
      (freshSingle.script deleteCalls).2.cache.evictionPolicy.Remembers 2 ∧
      (freshSingle.script deleteCalls).2.cache.evictionPolicy.size = 2 ∧
      (freshSingle.script deleteCalls).2.cache.capacityBytes <
        entrySize UInt64 UInt64 * (freshSingle.script deleteCalls).2.cache.evictionPolicy.size := by
  have hrun : Run (Guarded (fun _ _ => True) Step) freshSingle _ _ :=
    run_script deleteCalls freshSingle (by decide)
  exact ⟨hrun.of_guarded, by decide, Or.inl (by decide), Or.inl (by decide), by decide, by decide⟩

end CacheLayer
