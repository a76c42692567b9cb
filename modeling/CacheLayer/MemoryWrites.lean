import CacheLayer.MemoryBounds
import CacheLayer.EvictionSpec

/-!
# Writes are accepted

A `set` is refused only when the eviction loop runs out of keys.  `Writable` says that it cannot: there
is room for one entry, or some resident key can still be named by the policy (dropping one resident
entry makes room for the next, since all entries have one size).

* `Writable.set_ok` — a writable cache accepts every write with a representable expiry;
* `Writable.step` — every call keeps the cache writable, unless it is a `get` that finds an expired
  entry or a hit that raises an LFU count to `usize::MAX`;
* `set_accepts` — along runs of other calls no write is refused; `set_refused_after_expired_get` is a
  run with one expired read after which every write of another key is refused.
-/

set_option autoImplicit false

namespace CacheLayer

variable {K V : Type} [DecidableEq K] [RustSized K] [RustSized V]

namespace MemoryCache

variable {c c' : MemoryCache K V (BoxedPolicy K)}

/-- There is room for an entry, or the policy can name a resident key. -/
def Writable (c : MemoryCache K V (BoxedPolicy K)) : Prop :=
  c.HasRoom (entrySize K V) ∨ ∃ k ∈ c.entries, c.evictionPolicy.Tracks k

/-- With one entry less and nothing leaked, there is room for one entry. -/
theorem Accounted.room_of_fewer {P : Type} [EvictionPolicy K P] {c c' : MemoryCache K V P}
    (h : Accounted c) (h' : Accounted c') (hcap : c'.capacityBytes = c.capacityBytes)
    (hleak : c'.leaked = c.leaked) (hlt : c'.entries.count < c.entries.count) :
    c'.HasRoom (entrySize K V) := by
  have he := h.entries_eq
  have he' := h'.entries_eq
  have hsize := h.size_le
  have hmul : entrySize K V * (c'.stats.entries + 1) ≤ entrySize K V * c.stats.entries :=
    Nat.mul_le_mul_left _ (by omega)
  unfold HasRoom
  calc c'.sizeBytes + entrySize K V
      = entrySize K V * (c'.stats.entries + 1) := by rw [h'.size_eq, Nat.mul_add_one]
    _ ≤ entrySize K V * c.stats.entries := hmul
    _ = c.sizeBytes := h.size_eq.symm
    _ ≤ c'.capacityBytes := by rw [hcap]; exact hsize

/-- Dropping a resident victim makes room. -/
theorem Accounted.room_of_dropVictim {P : Type} [EvictionPolicy K P] {c c' : MemoryCache K V P}
    (h : Accounted c) {key : K} (hin : key ∈ c.entries) (hdrop : c.dropVictim key = (c', none)) :
    c'.HasRoom (entrySize K V) := by
  obtain ⟨c₁, hd, hacc, hleak⟩ := h.dropVictim key
  rw [hdrop] at hd
  obtain ⟨rfl, -⟩ := Prod.mk.inj hd
  have hent := dropVictim_entries c key
  have hcap := dropVictim_capacity c key
  rw [hdrop] at hent hcap
  refine h.room_of_fewer hacc hcap hleak ?_
  rw [hent, AList.count_erase hin]
  exact Nat.lt_succ_self _

/-- Deleting a resident key makes room. -/
theorem Accounted.room_of_delete {P : Type} [EvictionPolicy K P] {c : MemoryCache K V P}
    (h : Accounted c) {key : K} (hin : key ∈ c.entries) :
    (c.delete key).1.HasRoom (entrySize K V) := by
  obtain ⟨hacc, hleak, -⟩ := h.delete key
  refine h.room_of_fewer hacc (delete_capacity c key) hleak ?_
  rw [delete_entries, AList.count_erase hin]
  exact Nat.lt_succ_self _

/-- The body of the eviction loop keeps the cache writable. -/
theorem Writable.loopHead (h : Accounted c) (hw : c.Writable) {o : HashOrder K}
    (hh : LoopHead o (entrySize K V) c c') : c'.Writable := by
  have hI := hh.invariant (fun c' => Accounted c' ∧ c'.Writable) ⟨h, hw⟩ ?_
  · exact hI.2
  · rintro c₁ c₂ key policy ⟨hacc, hwr⟩ hroom hev hdrop
    obtain ⟨c₃, hd, hacc₂, -⟩ := (hacc.setPolicy policy).dropVictim key
    rw [hdrop] at hd
    obtain ⟨rfl, -⟩ := Prod.mk.inj hd
    refine ⟨hacc₂, ?_⟩
    by_cases hin : key ∈ c₁.entries
    · exact Or.inl ((hacc.setPolicy policy).room_of_dropVictim hin hdrop)
    · -- the victim was not resident, so the tracked resident key is another one
      obtain ⟨k, hk, ht⟩ := hwr.resolve_left hroom
      have hne : k ≠ key := fun heq => hin (heq ▸ hk)
      have hent := dropVictim_entries (c₁.setPolicy policy) key
      have hpol := dropVictim_policy (c₁.setPolicy policy) key
      rw [hdrop] at hent hpol
      refine Or.inr ⟨k, ?_, ?_⟩
      · rw [hent]
        exact AList.mem_erase.2 ⟨hne, hk⟩
      · rw [hpol]
        exact ht.evict hev hne

/-- **A writable cache accepts every write with a representable expiry.** -/
theorem Writable.set_ok (h : Accounted c) (hw : c.Writable) (env : Env K) (key : K) (value : V)
    {ttl : Option Duration} (hr : Representable env.now ttl) :
    ∃ c', c.set env key value ttl = (c', .ok ()) := by
  have hspace : ∃ c', (c.takeOld key).1.evictForSpace env.order (entrySize K V) = (c', .ok ()) := by
    cases hl : c.entries.lookup key with
    | some e =>
      have hroom := (h.overwrite e hl (h.uniform key e hl)).1
      exact ⟨_, evictForSpace_of_room env.order hroom⟩
    | none =>
      rw [takeOld_of_notMem (AList.lookup_eq_none.1 hl)]
      rcases evictForSpace_cases c env.order (entrySize K V) with ⟨c', -, -, he⟩ |
        ⟨c', policy, hh, hroom, hev, -⟩ | ⟨c', victim, policy, c'', p, hh, -, -, hdrop, -⟩
      · exact ⟨c', he⟩
      · -- the loop has run out of keys, but a resident one is still tracked
        obtain ⟨k, -, ht⟩ := (Writable.loopHead h hw hh).resolve_left hroom
        exact absurd ht (BoxedPolicy.not_tracks_of_none hev k)
      · obtain ⟨c₃, hd, -⟩ := ((h.loopHead hh).1.setPolicy policy).dropVictim victim
        rw [hdrop] at hd
        cases (Prod.mk.inj hd).2
  obtain ⟨c₁, hspace⟩ := hspace
  rcases set_cases c env key value ttl with ⟨c', -, -, hs⟩ | ⟨_, _, hn, _⟩ | ⟨_, _, he, _⟩ |
    ⟨_, _, he, _⟩
  · exact ⟨_, hs⟩
  · exact absurd hr hn
  all_goals rw [hspace] at he; cases (Prod.mk.inj he).2

/-- After a successful `set` its key is resident and tracked. -/
theorem writable_of_set_ok {env : Env K} {key : K} {value : V} {ttl : Option Duration}
    (h : c.set env key value ttl = (c', .ok ())) : c'.Writable := by
  refine Or.inr ⟨key, AList.mem_of_lookup (set_ok_lookup h), ?_⟩
  rcases set_cases c env key value ttl with ⟨c'', -, -, hs⟩ | ⟨_, _, _, hs⟩ | ⟨_, _, _, hs⟩ |
    ⟨_, _, _, hs⟩
  · rw [h] at hs
    obtain ⟨rfl, -⟩ := Prod.mk.inj hs
    exact BoxedPolicy.tracks_onInsert _ key
  all_goals rw [h] at hs; cases (Prod.mk.inj hs).2

end MemoryCache

open MemoryCache

/-- If the call is a hit, the policy can count it. -/
def HitCountFits (s : Session K V (BoxedPolicy K)) (e : Event K V) : Prop :=
  match e.op with
  | .get key => s.cache.HoldsLive e.env.now key → s.cache.evictionPolicy.CountFits key
  | _ => True

instance (s : Session K V (BoxedPolicy K)) (e : Event K V) : Decidable (HitCountFits s e) :=
  match e with
  | ⟨env, .get key, _, _⟩ => inferInstanceAs
      (Decidable (s.cache.HoldsLive env.now key → s.cache.evictionPolicy.CountFits key))
  | ⟨_, .set _ _ _, _, _⟩ => isTrue trivial
  | ⟨_, .delete _, _, _⟩ => isTrue trivial
  | ⟨_, .exists _, _, _⟩ => isTrue trivial
  | ⟨_, .clear, _, _⟩ => isTrue trivial

/-- **Every other call keeps the cache writable.** -/
theorem MemoryCache.Writable.step {s t : Session K V (BoxedPolicy K)} {e : Event K V}
    (h : Accounted s.cache) (hw : s.cache.Writable) (hsize : entrySize K V ≤ s.cache.capacityBytes)
    (hr : RepresentableTtl s e) (hexp : ¬ ExpiredGet s e) (hfits : HitCountFits s e)
    (hstep : Step s e t) : t.cache.Writable := by
  have hexec := hstep.exec_eq
  unfold ExpiredGet RepresentableTtl HitCountFits at *
  cases hop : e.op with
  | get key =>
    rw [hop] at hexec hexp hfits
    obtain ⟨hc, -⟩ := Prod.mk.inj hexec
    rw [← hc]
    rcases get_cases s.cache e.env key with ⟨x, hl, hx, -⟩ | ⟨x, hl, hx, hg⟩ | ⟨-, hg⟩
    · exact absurd ⟨x, hl, hx⟩ hexp
    · rw [hg]
      refine Or.inr ⟨key, ?_, BoxedPolicy.tracks_onAccess (hfits ⟨x, hl, hx⟩)⟩
      exact AList.mem_mapVals.2 (AList.mem_of_lookup hl)
    · rw [hg]; exact hw
  | set key value ttl =>
    rw [hop] at hexec hr
    obtain ⟨hc, -⟩ := Prod.mk.inj hexec
    obtain ⟨c', hs⟩ := Writable.set_ok h hw e.env key value hr
    rw [← hc, hs]
    exact writable_of_set_ok hs
  | delete key =>
    rw [hop] at hexec
    obtain ⟨hc, -⟩ := Prod.mk.inj hexec
    rw [← hc]
    by_cases hin : key ∈ s.cache.entries
    · exact Or.inl (h.room_of_delete hin)
    · have hsame : s.cache.delete key = (s.cache, .ok ()) := by
        unfold MemoryCache.delete
        rw [AList.lookup_eq_none.2 hin]
      rw [hsame]; exact hw
  | «exists» key =>
    rw [hop] at hexec
    obtain ⟨hc, -⟩ := Prod.mk.inj hexec
    rw [← hc]; exact hw
  | clear =>
    rw [hop] at hexec
    obtain ⟨hc, -⟩ := Prod.mk.inj hexec
    rw [← hc]
    refine Or.inl ?_
    show 0 + entrySize K V ≤ s.cache.capacityBytes
    omega

/-- **Writes are accepted.**  For a capacity of at least one entry and an LRU or LFU policy, along
every run of calls with representable expiries in which no `get` finds an expired entry (and no hit
raises an LFU count to `usize::MAX`), every `set` with a representable expiry returns `Ok`. -/
theorem set_accepts {cap : Nat} {hcap : 0 < cap} {policy : BoxedPolicy K} {es : List (Event K V)}
    {s : Session K V (BoxedPolicy K)} (hsize : entrySize K V ≤ cap)
    (hrun : Run (Guarded (fun s e => ¬ ExpiredGet s e ∧ HitCountFits s e)
      (Guarded RepresentableTtl Step)) (.fresh cap policy hcap) es s) :
    ∀ (env : Env K) (key : K) (value : V) (ttl : Option Duration), Representable env.now ttl →
      (s.cache.set env key value ttl).2 = .ok () := by
  have hI := hrun.invariant
    (fun s : Session K V (BoxedPolicy K) =>
      s.cache.capacityBytes = cap ∧ Accounted s.cache ∧ s.cache.Writable) ?_ ?_
  · intro env key value ttl hr
    obtain ⟨c', hs⟩ := Writable.set_ok hI.2.1 hI.2.2 env key value hr
    rw [hs]
  · refine ⟨rfl, Accounted.withPolicy cap policy hcap, Or.inl ?_⟩
    show 0 + entrySize K V ≤ cap
    omega
  · rintro s e t ⟨hc, hacc, hw⟩ ⟨⟨hexp, hfits⟩, hr, hstep⟩
    refine ⟨hstep.capacity.trans hc, (hacc.step hr hstep).1, ?_⟩
    exact Writable.step hacc hw (by rw [hc]; exact hsize) hr hexp hfits hstep

/-- A cache with room for one entry. -/
def freshSingle : Session UInt64 UInt64 (BoxedPolicy UInt64) :=
  .fresh 16 (.lru (LRU.new _ 1024 (Nat.succ_pos (nat_lit 1023)))) (Nat.succ_pos (nat_lit 15))

theorem set_accepts_timely :
    ((freshSingle.script timelyCalls).2.cache.set ⟨3, .id _⟩ 2 20 none).2 = .ok () :=
  have hrun : Run (Guarded (fun s e => (¬ ExpiredGet s e ∧ HitCountFits s e) ∧ RepresentableTtl s e)
      Step) freshSingle _ _ := run_script timelyCalls freshSingle (by decide)
  set_accepts (by decide : entrySize UInt64 UInt64 ≤ 16) hrun.guarded_and ⟨3, .id _⟩ 2 20 none
    (by decide)

/-- After one expired read the cache is empty and refuses every other key: 16 bytes of a capacity of
16 stay counted, and the policy has no resident key to name. -/
theorem set_refused_after_expired_get :
    Run (Guarded RepresentableTtl Step) freshSingle (freshSingle.script expiringCalls).1
        (freshSingle.script expiringCalls).2 ∧
      entrySize UInt64 UInt64 ≤ 16 ∧
      (freshSingle.script expiringCalls).2.cache.entries.count = 0 ∧
      ((freshSingle.script expiringCalls).2.cache.set ⟨2, .id _⟩ 2 20 none).2 =
        .err (.tierError (.capacityExceeded 32 16)) :=
  ⟨run_script expiringCalls freshSingle (by decide), by decide, by decide, by decide⟩

end CacheLayer
