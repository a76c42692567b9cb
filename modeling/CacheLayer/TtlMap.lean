import CacheLayer.MemoryBounds
import Mathlib.Data.List.Induction

/-!
# `MemoryCache` refines a forgetful TTL map

The purpose of a `MemoryCache`, apart from its capacity, is a map from keys to a value with an expiry
instant.  `TtlMap` is that map and `TtlMap.record` what a call does to it: a `set` that returned `Ok`
writes, a `set` that did not, a `delete`, a `clear` and an eviction forget.  Nothing else changes it;
reading never does.

* `refines_of_run` — along every run the cache refines the map recorded from its history: it agrees on
  every resident key, and a key it lacks is absent from the map or has expired there;
* `recorded_iff` — what the recorded map holds, in terms of the history alone;
* `get_iff_last_set` — `get` returns a value exactly when the history says so.
-/

set_option autoImplicit false

namespace CacheLayer

variable {K V P : Type} [DecidableEq K]

/-- A map from keys to a value and its expiry instant. -/
abbrev TtlMap (K V : Type) := K → Option (V × Option Instant)

namespace TtlMap

def empty : TtlMap K V := fun _ => none

/-- The value of `key` at `now`, unless it has expired. -/
def read (m : TtlMap K V) (now : Instant) (key : K) : Option V :=
  match m key with
  | some (value, some expires) => if now ≤ expires then some value else none
  | some (value, none) => some value
  | none => none

/-- What a call does to the map. -/
def record (m : TtlMap K V) (e : Event K V) : TtlMap K V :=
  match e.op, e.reply with
  | .set key value ttl, .ok _ => fun k =>
    if k = key then some (value, ttl.map (e.env.now + ·)) else if k ∈ e.evicted then none else m k
  | .set key _ _, _ => fun k => if k = key then none else if k ∈ e.evicted then none else m k
  | .delete key, _ => fun k => if k = key then none else m k
  | .clear, _ => fun _ => none
  | .get _, _ => m
  | .exists _, _ => m

/-- The map recorded from a history. -/
def recorded (es : List (Event K V)) : TtlMap K V := es.foldl record empty

theorem recorded_snoc (es : List (Event K V)) (e : Event K V) :
    recorded (es ++ [e]) = (recorded es).record e := by
  simp [recorded]

end TtlMap

/-- The call leaves the recorded value of `key` alone: it is no `set` or `delete` of `key`, no
`clear`, and does not evict `key`. -/
def Event.Keeps (e : Event K V) (key : K) : Prop :=
  match e.op with
  | .set k _ _ => k ≠ key ∧ key ∉ e.evicted
  | .delete k => k ≠ key
  | .clear => False
  | _ => True

theorem Event.Keeps.record {e : Event K V} {key : K} (h : e.Keeps key) (m : TtlMap K V) :
    m.record e key = m key := by
  unfold Event.Keeps at h
  unfold TtlMap.record
  split at h
  · rename_i k v ttl hop
    rw [hop]
    cases e.reply <;> simp [h.1.symm, h.2]
  · rename_i k hop
    rw [hop]; simp [Ne.symm h]
  · exact h.elim
  · rename_i h₁ h₂ h₃
    cases hop : e.op with
    | get k => rfl
    | «exists» k => rfl
    | set k v ttl => exact absurd hop (h₁ k v ttl)
    | delete k => exact absurd hop (h₂ k)
    | clear => exact absurd hop h₃

/-- A call that does not keep `key` records a new value for it, or forgets it. -/
theorem Event.record_of_not_keeps {e : Event K V} {key : K} (h : ¬ e.Keeps key) (m : TtlMap K V) :
    (∃ value ttl r, e.op = .set key value ttl ∧ e.reply = .ok r ∧
      m.record e key = some (value, ttl.map (e.env.now + ·))) ∨ m.record e key = none := by
  unfold Event.Keeps at h
  unfold TtlMap.record
  cases hop : e.op with
  | get k => rw [hop] at h; exact absurd trivial h
  | «exists» k => rw [hop] at h; exact absurd trivial h
  | clear => exact Or.inr rfl
  | delete k =>
    rw [hop] at h
    have hk : key = k := by
      refine Classical.byContradiction fun hn => h (Ne.symm hn)
    right; simp [hk]
  | set k v ttl =>
    rw [hop] at h
    by_cases hk : key = k
    · subst hk
      cases hr : e.reply with
      | ok r => exact Or.inl ⟨v, ttl, r, rfl, rfl, by simp⟩
      | err _ => right; simp
      | panic _ => right; simp
    · have hev : key ∈ e.evicted := by
        refine Classical.byContradiction fun hn => h ⟨Ne.symm hk, hn⟩
      right
      cases e.reply <;> simp [hk, hev]

/-- **What the recorded map holds**: the value of the last `set` of the key, if that call returned
`Ok` and every later call keeps the key. -/
theorem recorded_iff (es : List (Event K V)) (key : K) (value : V) (x : Option Instant) :
    TtlMap.recorded es key = some (value, x) ↔
      ∃ pre e₀ post ttl r, es = pre ++ e₀ :: post ∧ e₀.op = .set key value ttl ∧ e₀.reply = .ok r ∧
        x = ttl.map (e₀.env.now + ·) ∧ ∀ e ∈ post, e.Keeps key := by
  induction es using List.reverseRecOn with
  | nil =>
    constructor
    · intro h; cases h
    · rintro ⟨pre, e₀, post, _, _, h, _⟩
      simp at h
  | append_singleton es e ih =>
    rw [TtlMap.recorded_snoc]
    constructor
    · intro h
      by_cases hk : e.Keeps key
      · rw [hk.record, ih] at h
        obtain ⟨pre, e₀, post, ttl, r, rfl, hop, hr, hx, hpost⟩ := h
        refine ⟨pre, e₀, post ++ [e], ttl, r, by simp, hop, hr, hx, ?_⟩
        intro e' he'
        rcases List.mem_append.1 he' with he' | he'
        · exact hpost e' he'
        · rw [List.mem_singleton.1 he']; exact hk
      · rcases Event.record_of_not_keeps hk (TtlMap.recorded es) with
          ⟨v, ttl, r, hop, hr, hrec⟩ | hrec
        · rw [hrec] at h
          cases h
          exact ⟨es, e, [], ttl, r, rfl, hop, hr, rfl, fun _ he => by cases he⟩
        · rw [hrec] at h; cases h
    · rintro ⟨pre, e₀, post, ttl, r, hes, hop, hr, rfl, hpost⟩
      rcases snoc_eq_split hes with ⟨rfl, rfl, rfl⟩ | ⟨post', rfl, rfl⟩
      · simp [TtlMap.record, hop, hr]
      · rw [(hpost e (by simp)).record, ih]
        exact ⟨pre, e₀, post', ttl, r, rfl, hop, hr, rfl, fun e' he' => hpost e' (by simp [he'])⟩

/-! ## Refinement -/

/-- The cache agrees with the map on every resident key, and what it lacks has expired. -/
structure Refines (m : TtlMap K V) (now : Instant) (c : MemoryCache K V P) : Prop where
  resident : ∀ k e, c.entries.lookup k = some e → m k = some (e.value, e.expiresAt)
  absent : ∀ k v x, c.entries.lookup k = none → m k = some (v, x) → ∃ d, x = some d ∧ d < now

namespace Refines

variable {m : TtlMap K V} {now now' : Instant} {c c' : MemoryCache K V P}

/-- Refinement is a relation between maps, key by key. -/
theorem of_lookup {m' : TtlMap K V} (h : Refines m now c) (hle : now ≤ now')
    (hkey : ∀ k, (m' k = m k ∧ (c'.entries.lookup k).map (fun e => (e.value, e.expiresAt)) =
        (c.entries.lookup k).map (fun e => (e.value, e.expiresAt))) ∨
      (c'.entries.lookup k = none ∧ m' k = none) ∨
      (c'.entries.lookup k = none ∧ ∃ v d, m' k = some (v, some d) ∧ d < now') ∨
      ∃ e, c'.entries.lookup k = some e ∧ m' k = some (e.value, e.expiresAt)) :
    Refines m' now' c' := by
  constructor
  · intro k e hl
    rcases hkey k with ⟨hm, hsame⟩ | ⟨hn, -⟩ | ⟨hn, -⟩ | ⟨e', he', hm⟩
    · rw [hl, Option.map_some] at hsame
      obtain ⟨e₀, h₀, heq⟩ := Option.map_eq_some_iff.1 hsame.symm
      rw [hm, h.resident k e₀ h₀, heq]
    · rw [hn] at hl; cases hl
    · rw [hn] at hl; cases hl
    · rw [hl] at he'; cases he'; exact hm
  · intro k v x hl hmk
    rcases hkey k with ⟨hm, hsame⟩ | ⟨-, hm⟩ | ⟨-, v', d, hm, hd⟩ | ⟨e', he', -⟩
    · rw [hl, Option.map_none] at hsame
      have hn := Option.map_eq_none_iff.1 hsame.symm
      obtain ⟨d, hx, hd⟩ := h.absent k v x hn (hm ▸ hmk)
      exact ⟨d, hx, Nat.lt_of_lt_of_le hd hle⟩
    · rw [hm] at hmk; cases hmk
    · rw [hm] at hmk; cases hmk; exact ⟨d, rfl, hd⟩
    · rw [hl] at he'; cases he'

/-- `get` answers as the map does. -/
theorem get_eq [EvictionPolicy K P] (h : Refines m now c) {env : Env K} (hle : now ≤ env.now)
    (key : K) : (c.get env key).2 = .ok (m.read env.now key) := by
  unfold TtlMap.read
  rcases MemoryCache.get_cases c env key with ⟨e, hl, hx, hg⟩ | ⟨e, hl, hx, hg⟩ | ⟨hl, hg⟩
  · obtain ⟨d, hexp, hd⟩ := CachedValue.isExpired_iff.1 hx
    rw [hg, h.resident key e hl, hexp]
    simp only
    rw [if_neg (Nat.not_le.2 hd)]
  · rw [hg, h.resident key e hl]
    cases hexp : e.expiresAt with
    | none => rfl
    | some d =>
      simp only
      rw [if_pos (CachedValue.not_isExpired_iff.1 hx d hexp)]
  · rw [hg]
    cases hm : m key with
    | none => rfl
    | some p =>
      obtain ⟨v, x⟩ := p
      obtain ⟨d, rfl, hd⟩ := h.absent key v x hl hm
      simp only
      rw [if_neg (Nat.not_le.2 (Nat.lt_of_lt_of_le hd hle))]

/-! ### One call -/

section Step

variable [EvictionPolicy K P] [RustSized K] [RustSized V] {s t : Session K V P} {e : Event K V}

omit [RustSized K] [RustSized V] in
theorem get (h : Refines m now c) {env : Env K} (hle : now ≤ env.now) (key : K) :
    Refines m env.now (c.get env key).1 := by
  refine h.of_lookup hle fun k => ?_
  rcases MemoryCache.get_cases c env key with ⟨e, hl, hx, hg⟩ | ⟨e, hl, hx, hg⟩ | ⟨hl, hg⟩
  · rw [hg]
    show (_ ∧ ((c.entries.erase key).lookup k).map _ = _) ∨
      ((c.entries.erase key).lookup k = none ∧ _) ∨ ((c.entries.erase key).lookup k = none ∧ _) ∨ _
    by_cases hk : k = key
    · -- the expired entry goes, and the map's value has expired with it
      subst hk
      obtain ⟨d, hexp, hd⟩ := CachedValue.isExpired_iff.1 hx
      refine Or.inr (Or.inr (Or.inl ⟨AList.lookup_erase k _, e.value, d, ?_, hd⟩))
      rw [h.resident k e hl, hexp]
    · refine Or.inl ⟨rfl, ?_⟩
      rw [AList.lookup_erase_ne hk]
  · rw [hg]
    refine Or.inl ⟨rfl, ?_⟩
    show (((c.setPolicy _).touchEntry key env.now).entries.lookup k).map _ = _
    rw [MemoryCache.touchEntry_lookup, Option.map_map]
    show (c.entries.lookup k).map _ = _
    refine congrArg (fun f => (c.entries.lookup k).map f) (funext fun e' => ?_)
    show ((if k = key then { e' with lastAccess := env.now } else e').value,
      (if k = key then { e' with lastAccess := env.now } else e').expiresAt) = _
    split <;> rfl
  · rw [hg]
    exact Or.inl ⟨rfl, rfl⟩

theorem set (h : Refines m now c) {env : Env K} (hle : now ≤ env.now) (key : K) (value : V)
    (ttl : Option Duration) {reply : Outcome (Reply V)}
    (hreply : (c.set env key value ttl).2.map (fun _ => .unit) = reply) :
    Refines (m.record ⟨env, .set key value ttl, reply, c.evictedBy env (.set key value ttl)⟩) env.now
      (c.set env key value ttl).1 := by
  refine h.of_lookup hle fun k => ?_
  by_cases hk : k = key
  · subst hk
    rcases hs : c.set env k value ttl with ⟨c', out⟩
    rw [hs] at hreply
    subst hreply
    cases out with
    | ok _ =>
      refine Or.inr (Or.inr (Or.inr ⟨_, MemoryCache.set_ok_lookup hs, ?_⟩))
      simp [TtlMap.record, Outcome.map]
    | err _ =>
      refine Or.inr (Or.inl ⟨MemoryCache.set_fail_lookup hs (by simp), ?_⟩)
      simp [TtlMap.record, Outcome.map]
    | panic _ =>
      refine Or.inr (Or.inl ⟨MemoryCache.set_fail_lookup hs (by simp), ?_⟩)
      simp [TtlMap.record, Outcome.map]
  · by_cases hev : k ∈ c.evictedBy env (.set key value ttl)
    · have hgone := (MemoryCache.mem_evictedBy_set.1 hev).2.2
      refine Or.inr (Or.inl ⟨AList.lookup_eq_none.2 hgone, ?_⟩)
      cases reply <;> simp [TtlMap.record, hk, hev]
    · -- neither written nor evicted: the loop kept the entry, or there was none
      have hkeep : Event.Keeps ⟨env, .set key value ttl, reply,
          c.evictedBy env (.set key value ttl)⟩ k := ⟨Ne.symm hk, hev⟩
      refine Or.inl ⟨hkeep.record m,
        congrArg (Option.map fun e : CachedValue V => (e.value, e.expiresAt)) ?_⟩
      cases hl : (c.set env key value ttl).1.entries.lookup k with
      | some e => exact (MemoryCache.set_sub c env key value ttl hk hl).symm
      | none =>
        have hnot : k ∉ c.entries := fun hin =>
          hev (MemoryCache.mem_evictedBy_set.2 ⟨hk, hin, AList.lookup_eq_none.1 hl⟩)
        exact (AList.lookup_eq_none.2 hnot).symm

/-- **One call preserves refinement**, whatever the policy and however the call ends. -/
theorem step (h : Refines m s.clock s.cache) (hstep : Step s e t) :
    Refines (m.record e) t.clock t.cache := by
  obtain ⟨env, op, reply, evicted⟩ := e
  obtain ⟨hle, hclock, hexec, hev⟩ := hstep
  simp only at hle hclock hexec hev
  rw [hclock]
  subst hev
  obtain ⟨hc, hreply⟩ := Prod.mk.inj hexec
  rw [← hc]
  cases op with
  | get key => exact h.get hle key
  | set key value ttl => exact h.set hle key value ttl hreply
  | delete key =>
    refine h.of_lookup hle fun k => ?_
    show (_ ∧ ((s.cache.delete key).1.entries.lookup k).map _ = _) ∨
      ((s.cache.delete key).1.entries.lookup k = none ∧ _) ∨ _
    rw [MemoryCache.delete_entries]
    by_cases hk : k = key
    · subst hk
      exact Or.inr (Or.inl ⟨AList.lookup_erase k _, by simp [TtlMap.record]⟩)
    · refine Or.inl ⟨by simp [TtlMap.record, hk], ?_⟩
      rw [AList.lookup_erase_ne hk]
  | «exists» key => exact h.of_lookup hle fun k => Or.inl ⟨rfl, rfl⟩
  | clear => exact h.of_lookup hle fun k => Or.inr (Or.inl ⟨AList.lookup_empty k, rfl⟩)

end Step

end Refines

variable [EvictionPolicy K P] [RustSized K] [RustSized V]

/-- **A cache refines the map recorded from its history.** -/
theorem refines_of_run {cap : Nat} {policy : P} {hcap : 0 < cap} {es : List (Event K V)}
    {s : Session K V P} (hrun : Run Step (.fresh cap policy hcap) es s) :
    Refines (TtlMap.recorded es) s.clock s.cache := by
  induction hrun with
  | nil =>
    constructor
    · intro k e hl; cases hl
    · intro k v x _ hm; cases hm
  | snoc _ hstep ih =>
    rw [TtlMap.recorded_snoc]
    exact ih.step hstep

/-- **`get` answers by the history alone.**  After any run of a cache with any policy, `get(k)`
returns `Some(v)` exactly when the history has a `set(k, v, ttl)` that returned `Ok`, every later
call keeps `k` (no other `set` or `delete` of `k`, no `clear`, no eviction of `k`), and the
time-to-live is `None` or has not run out: the instant `t₀ + ttl` itself still counts. -/
theorem get_iff_last_set {cap : Nat} {policy : P} {hcap : 0 < cap} {es : List (Event K V)}
    {s t : Session K V P} {e : Event K V} (hrun : Run Step (.fresh cap policy hcap) es s)
    (hstep : Step s e t) {key : K} (hop : e.op = .get key) (value : V) :
    e.reply = .ok (.value (some value)) ↔
      ∃ pre e₀ post ttl r, es = pre ++ e₀ :: post ∧ e₀.op = .set key value ttl ∧ e₀.reply = .ok r ∧
        (∀ e' ∈ post, e'.Keeps key) ∧ ∀ d ∈ ttl, e.env.now ≤ e₀.env.now + d := by
  have href := refines_of_run hrun
  have hreply : e.reply = .ok (.value ((TtlMap.recorded es).read e.env.now key)) := by
    have hexec := hstep.exec_eq
    rw [hop] at hexec
    have hget := href.get_eq hstep.clock_le key
    rw [← (Prod.mk.inj hexec).2, hget]
    rfl
  have hread : (TtlMap.recorded es).read e.env.now key = some value ↔
      ∃ x, TtlMap.recorded es key = some (value, x) ∧ ∀ d ∈ x, e.env.now ≤ d := by
    unfold TtlMap.read
    cases hm : TtlMap.recorded es key with
    | none => simp
    | some p =>
      obtain ⟨v, x⟩ := p
      cases x with
      | none => simp
      | some d =>
        simp only [Option.ite_none_right_eq_some, Option.some.injEq, Prod.mk.injEq]
        constructor
        · rintro ⟨hd, rfl⟩
          exact ⟨some d, ⟨rfl, rfl⟩, fun d' hd' => by cases hd'; exact hd⟩
        · rintro ⟨x, ⟨rfl, rfl⟩, hd⟩
          exact ⟨hd d rfl, rfl⟩
  rw [hreply]
  simp only [Outcome.ok.injEq, Reply.value.injEq]
  rw [hread]
  constructor
  · rintro ⟨x, hrec, hx⟩
    obtain ⟨pre, e₀, post, ttl, r, hes, hset, hr, rfl, hpost⟩ := (recorded_iff es key value x).1 hrec
    exact ⟨pre, e₀, post, ttl, r, hes, hset, hr, hpost,
      fun d hd => hx _ (Option.mem_map_of_mem _ hd)⟩
  · rintro ⟨pre, e₀, post, ttl, r, hes, hset, hr, hpost, hd⟩
    refine ⟨ttl.map (e₀.env.now + ·),
      (recorded_iff es key value _).2 ⟨pre, e₀, post, ttl, r, hes, hset, hr, rfl, hpost⟩, ?_⟩
    intro d' hd'
    obtain ⟨d, rfl, rfl⟩ := Option.map_eq_some_iff.1 hd'
    exact hd d rfl

/-- One `set` with a time-to-live of one nanosecond, and a `delete` of another key. -/
def lastInstantCalls : List (Env UInt64 × Op UInt64 UInt64) :=
  [(⟨0, .id _⟩, .set 1 10 (some 1)), (⟨1, .id _⟩, .delete 2)]

/-- At the last instant of its time-to-live the value is still returned. -/
theorem get_at_last_instant :
    ((freshKilobyte.script lastInstantCalls).2.event ⟨1, .id _⟩ (.get 1)).reply =
      .ok (.value (some 10)) :=
  have hrun : Run (Guarded (fun _ _ => True) Step) freshKilobyte _ _ :=
    run_script lastInstantCalls freshKilobyte (by decide)
  (get_iff_last_set hrun.of_guarded (step_after _ ⟨1, .id _⟩ (.get 1) (by decide)) rfl 10).2
    ⟨[], _, _, some 1, _, rfl, rfl, rfl, by
      intro e he
      rw [List.mem_singleton.1 he]
      show (2 : UInt64) ≠ 1
      decide, by decide⟩

end CacheLayer
