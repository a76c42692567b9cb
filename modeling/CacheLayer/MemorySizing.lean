import CacheLayer.TtlMap
import Mathlib.Data.Finset.Card

/-!
# A cache sized for its keys

The capacity is the only thing that makes a `MemoryCache` forget a live value.  `TtlMap.exec` is the map
with expiry instants that never forgets one; here a cache that has room for every key it is given, beside
the entries that expired reads have left in its counters, is that map, call by call.

* `Sized` — a `set` writes one of `keys`, and all of them fit beside what the counters have leaked;
* `hasRoom_of_sized` — so a `set` finds room at once;
* `plain_step` — so each call does what the map does, evicting nothing;
* `plain_when_sized` — so every run of the cache is a run of the map, reply by reply.
-/

set_option autoImplicit false

namespace CacheLayer

variable {K V P : Type} [DecidableEq K]

namespace TtlMap

/-- A call on a map that never forgets a live value. -/
def exec (m : TtlMap K V) (now : Instant) : Op K V → TtlMap K V × Outcome (Reply V)
  | .get key => (m, .ok (.value (m.read now key)))
  | .set key value ttl =>
    (fun k => if k = key then some (value, ttl.map (now + ·)) else m k, .ok .unit)
  | .delete key => (fun k => if k = key then none else m k, .ok .unit)
  | .exists key => (m, .ok (.flag (m.read now key).isSome))
  | .clear => (empty, .ok .unit)

/-- One call of a sequential run of the map. -/
structure Step (p : TtlMap K V × Instant) (e : Event K V) (q : TtlMap K V × Instant) : Prop where
  clock_le : p.2 ≤ e.env.now
  clock_eq : q.2 = e.env.now
  exec_eq : p.1.exec e.env.now e.op = (q.1, e.reply)
  evicted_eq : e.evicted = []

end TtlMap

variable [EvictionPolicy K P] [RustSized K] [RustSized V]

open MemoryCache

/-- The keys and the entries leaked from the counters fit together, and a `set` writes one of the keys. -/
def Sized (keys : Finset K) (s : Session K V P) (e : Event K V) : Prop :=
  match e.op with
  | .set key _ _ =>
    key ∈ keys ∧ entrySize K V * (keys.card + s.cache.leaked) ≤ s.cache.capacityBytes
  | _ => True

instance (keys : Finset K) (s : Session K V P) (e : Event K V) : Decidable (Sized keys s e) :=
  match e with
  | ⟨_, .set key _ _, _, _⟩ => inferInstanceAs (Decidable
    (key ∈ keys ∧ entrySize K V * (keys.card + s.cache.leaked) ≤ s.cache.capacityBytes))
  | ⟨_, .get _, _, _⟩ => isTrue trivial
  | ⟨_, .delete _, _, _⟩ => isTrue trivial
  | ⟨_, .exists _, _, _⟩ => isTrue trivial
  | ⟨_, .clear, _, _⟩ => isTrue trivial

/-- Every resident key is one of `keys`. -/
def Among (keys : Finset K) (c : MemoryCache K V P) : Prop := ∀ k ∈ c.entries, k ∈ keys

omit [EvictionPolicy K P] [RustSized K] [RustSized V] in
/-- Keys that are resident, and one that is not, are among `keys`. -/
theorem Among.count_lt {keys : Finset K} {c : MemoryCache K V P} (h : Among keys c) {key : K}
    (hkey : key ∈ keys) (hnot : key ∉ c.entries) : c.entries.count < keys.card := by
  have hnodup : (key :: c.entries.keys).Nodup := List.nodup_cons.2 ⟨hnot, c.entries.keys_nodup⟩
  have hsub : (key :: c.entries.keys).toFinset ⊆ keys := by
    intro k hk
    rcases List.mem_cons.1 (List.mem_toFinset.1 hk) with rfl | hk
    · exact hkey
    · exact h k hk
  have hcard := Finset.card_le_card hsub
  rw [List.toFinset_card_of_nodup hnodup, List.length_cons, ← AList.count_eq_keys_length] at hcard
  omega

omit [EvictionPolicy K P] in
/-- **A `set` finds room at once**, when the cache is sized for its keys. -/
theorem hasRoom_of_sized {keys : Finset K} {c : MemoryCache K V P} (hacc : Accounted c)
    (hamong : Among keys c) {key : K} (hkey : key ∈ keys)
    (hfit : entrySize K V * (keys.card + c.leaked) ≤ c.capacityBytes) :
    (c.takeOld key).1.HasRoom (entrySize K V) := by
  cases hl : c.entries.lookup key with
  | some e =>
    -- the entry that goes makes room for the new one
    have hsize := hacc.uniform key e hl
    have hbytes := (hacc.resident hl).1
    have hle := hacc.size_le
    rw [takeOld_of_lookup hl]
    show c.sizeBytes - e.sizeBytes + entrySize K V ≤ c.capacityBytes
    omega
  | none =>
    have hnot := AList.lookup_eq_none.1 hl
    have hlt := hamong.count_lt hkey hnot
    have hmul : entrySize K V * (c.stats.entries + 1) ≤ entrySize K V * (keys.card + c.leaked) := by
      refine Nat.mul_le_mul_left _ ?_
      have hentries := hacc.entries_eq
      omega
    rw [takeOld_of_notMem hnot]
    show c.sizeBytes + entrySize K V ≤ c.capacityBytes
    rw [hacc.size_eq]
    rw [Nat.mul_succ] at hmul
    omega

omit [EvictionPolicy K P] [RustSized K] [RustSized V] in
/-- `exists` answers as the map does. -/
theorem Refines.exists_eq {m : TtlMap K V} {now : Instant} {c : MemoryCache K V P}
    (h : Refines m now c) {time : Instant} (hle : now ≤ time) (key : K) :
    c.exists time key = .ok (m.read time key).isSome := by
  unfold MemoryCache.exists TtlMap.read
  cases hl : c.entries.lookup key with
  | some e =>
    rw [h.resident key e hl]
    cases hexp : e.expiresAt with
    | none => simp [CachedValue.isExpired, hexp]
    | some d =>
      by_cases hd : time ≤ d
      · simp [CachedValue.isExpired, hexp, hd]
      · simp [CachedValue.isExpired, hexp, hd, Nat.not_le.1 hd]
  | none =>
    cases hm : m key with
    | none => rfl
    | some p =>
      obtain ⟨v, x⟩ := p
      obtain ⟨d, rfl, hd⟩ := h.absent key v x hl hm
      simp only
      rw [if_neg (Nat.not_le.2 (Nat.lt_of_lt_of_le hd hle))]
      rfl

/-- A `set` that finds room evicts nothing. -/
theorem evictedBy_of_room {c : MemoryCache K V P} {env : Env K} {key : K} {value : V}
    {ttl : Option Duration} (hroom : (c.takeOld key).1.HasRoom (entrySize K V)) :
    c.evictedBy env (.set key value ttl) = [] := by
  unfold MemoryCache.evictedBy
  simp only [estimateSize_eq, evictForSpace_of_room env.order hroom]
  refine List.filter_eq_nil_iff.2 fun k hk => ?_
  simpa [AList.mem_keys] using hk

/-- What a sized cache and the map have in common along a run. -/
structure Plain (keys : Finset K) (s : Session K V P) (p : TtlMap K V × Instant) : Prop where
  refines : Refines p.1 s.clock s.cache
  clock : p.2 = s.clock
  accounted : Accounted s.cache
  among : Among keys s.cache

omit [EvictionPolicy K P] in
theorem Plain.fresh (keys : Finset K) (cap : Nat) (policy : P) (hcap : 0 < cap) :
    Plain keys (.fresh cap policy hcap : Session K V P) (TtlMap.empty, 0) := by
  refine ⟨⟨?_, ?_⟩, rfl, Accounted.withPolicy cap policy hcap, ?_⟩
  · intro k e hl
    cases hl
  · intro k v x _ hm
    cases hm
  · intro k hk
    exact absurd hk (AList.notMem_empty k)

/-- The residents stay among the keys. -/
theorem Among.step {keys : Finset K} {s t : Session K V P} {e : Event K V} (h : Among keys s.cache)
    (hsized : Sized keys s e) (hstep : Step s e t) : Among keys t.cache := by
  have hc : (s.cache.exec e.env e.op).1 = t.cache := (Prod.mk.inj hstep.exec_eq).1
  unfold Sized at hsized
  intro k hk
  rw [← hc] at hk
  obtain ⟨v, hv⟩ := AList.exists_lookup hk
  cases hop : e.op with
  | get key =>
    rw [hop] at hv
    obtain ⟨e₀, h₀, -⟩ := get_lookup hv
    exact h k (AList.mem_of_lookup h₀)
  | set key value ttl =>
    rw [hop] at hv hsized
    by_cases hkk : k = key
    · exact hkk ▸ hsized.1
    · exact h k (AList.mem_of_lookup (set_sub s.cache e.env key value ttl hkk hv))
  | delete key =>
    rw [hop] at hv
    replace hv : (s.cache.delete key).1.entries.lookup k = some v := hv
    rw [delete_entries] at hv
    exact h k (AList.mem_of_lookup (AList.sub_erase _ _ k v hv))
  | «exists» key =>
    rw [hop] at hv
    exact h k (AList.mem_of_lookup hv)
  | clear =>
    rw [hop] at hv
    cases hv

/-- **A call on a sized cache does what the map does.** -/
theorem exec_of_sized {keys : Finset K} {s t : Session K V P} {p : TtlMap K V × Instant}
    {e : Event K V} (h : Plain keys s p) (hr : RepresentableTtl s e) (hsized : Sized keys s e)
    (hstep : Step s e t) : p.1.exec e.env.now e.op = (p.1.record e, e.reply) ∧ e.evicted = [] := by
  obtain ⟨env, op, reply, evicted⟩ := e
  have hle : s.clock ≤ env.now := hstep.clock_le
  have hreply : (s.cache.exec env op).2 = reply := (Prod.mk.inj hstep.exec_eq).2
  have hev : evicted = s.cache.evictedBy env op := hstep.evicted_eq
  cases op with
  | get key =>
    replace hreply : (s.cache.get env key).2.map .value = reply := hreply
    rw [h.refines.get_eq hle] at hreply
    rw [← hreply, hev]
    exact ⟨rfl, rfl⟩
  | set key value ttl =>
    obtain ⟨hkey, hfit⟩ := hsized
    have hroom := hasRoom_of_sized h.accounted h.among hkey hfit
    have hset := set_of_space (evictForSpace_of_room env.order hroom) value
      (show Representable env.now ttl from hr)
    replace hreply : (s.cache.set env key value ttl).2.map (fun _ => .unit) = reply := hreply
    rw [hset] at hreply
    rw [evictedBy_of_room hroom] at hev
    rw [← hreply, hev]
    refine ⟨Prod.ext (funext fun k => ?_) rfl, rfl⟩
    simp [TtlMap.exec, TtlMap.record, Outcome.map]
  | delete key =>
    replace hreply : (s.cache.delete key).2.map (fun _ => .unit) = reply := hreply
    rw [(h.accounted.delete key).2.2] at hreply
    rw [← hreply, hev]
    exact ⟨rfl, rfl⟩
  | «exists» key =>
    replace hreply : (s.cache.exists env.now key).map .flag = reply := hreply
    rw [h.refines.exists_eq hle] at hreply
    rw [← hreply, hev]
    exact ⟨rfl, rfl⟩
  | clear =>
    rw [← hreply, hev]
    exact ⟨rfl, rfl⟩

theorem plain_step {keys : Finset K} {s t : Session K V P} {p : TtlMap K V × Instant} {e : Event K V}
    (h : Plain keys s p) (hr : RepresentableTtl s e) (hsized : Sized keys s e) (hstep : Step s e t) :
    ∃ q, TtlMap.Step p e q ∧ Plain keys t q := by
  obtain ⟨hexec, hev⟩ := exec_of_sized h hr hsized hstep
  refine ⟨(p.1.record e, t.clock), ⟨?_, hstep.clock_eq, hexec, hev⟩, ?_⟩
  · rw [h.clock]
    exact hstep.clock_le
  · exact ⟨h.refines.step hstep, rfl, (h.accounted.step hr hstep).1, h.among.step hsized hstep⟩

/-- **A cache sized for its keys is a map with expiry instants.**  If in a run with representable
expiries every `set` writes one of `keys`, and these fit beside the entries that expired reads have
left in the counters, the run is one of the map that never forgets a live value, with the same calls,
clock readings and replies: every `set` returns `Ok`, nothing is evicted, and `get` and `exists` answer
from the last write alone, whatever the policy. -/
theorem plain_when_sized {cap : Nat} {hcap : 0 < cap} {policy : P} {keys : Finset K}
    {es : List (Event K V)} {s : Session K V P}
    (hrun : Run (Guarded (fun s e => RepresentableTtl s e ∧ Sized keys s e) Step)
      (.fresh cap policy hcap) es s) :
    ∃ m, Run TtlMap.Step (TtlMap.empty, 0) es (m, s.clock) ∧ Refines m s.clock s.cache := by
  obtain ⟨p, hp, hplain⟩ := hrun.simulate (Plain keys) (.fresh keys cap policy hcap)
    fun s e t p h hstep => plain_step h hstep.1.1 hstep.1.2 hstep.2
  obtain ⟨m, clock⟩ := p
  obtain rfl : clock = s.clock := hplain.clock
  exact ⟨m, hp, hplain.refines⟩

/-- A cache with room for three entries. -/
def roomForThree : Session UInt64 UInt64 (LRU UInt64) :=
  .fresh 48 (.new UInt64 1 Nat.one_pos) (Nat.succ_pos (nat_lit 47))

/-- A key is cached and read after it has expired; then it and another fill what is left. -/
def sizedCalls : List (Env UInt64 × Op UInt64 UInt64) :=
  [(⟨1, .id _⟩, .set 1 10 (some 2)), (⟨5, .id _⟩, .get 1), (⟨6, .id _⟩, .set 1 11 none),
    (⟨7, .id _⟩, .set 2 20 none), (⟨8, .id _⟩, .get 1), (⟨9, .id _⟩, .exists 2)]

theorem plain_when_sized_leaked :
    ∃ m, Run TtlMap.Step (TtlMap.empty, 0) (roomForThree.script sizedCalls).1 (m, 9) ∧
      Refines m 9 (roomForThree.script sizedCalls).2.cache := by
  have hrun : Run (Guarded (fun s e => RepresentableTtl s e ∧ Sized {1, 2} s e) Step) roomForThree
      (roomForThree.script sizedCalls).1 (roomForThree.script sizedCalls).2 :=
    run_script sizedCalls roomForThree (by decide)
  exact plain_when_sized hrun

end CacheLayer
