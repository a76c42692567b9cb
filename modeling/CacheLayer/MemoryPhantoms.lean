import CacheLayer.MemoryCovered
import CacheLayer.MemoryWrites

/-!
# Expired reads use up the capacity

A `get` that finds an expired entry removes it and leaves its bytes and its count behind.  Nothing but
`clear` gives them back, so every such read takes the room of one entry away for good.

* `phantoms` — how many such reads there have been since the last `clear`;
* `phantom_accounting` — the counters are exactly the resident entries and these;
* `dead_until_cleared` — when they fill the capacity the cache is dead: it holds nothing, misses every
  key and refuses every write, until it is cleared.
-/

set_option autoImplicit false

namespace CacheLayer

open MemoryCache

variable {K V P : Type} [DecidableEq K] [EvictionPolicy K P] [RustSized K] [RustSized V]

/-- The number of `get`s since the last `clear` that have found an expired entry. -/
def phantoms (s : Session K V P) (e : Event K V) (n : Nat) : Nat :=
  match e.op with
  | .clear => 0
  | _ => if ExpiredGet s e then n + 1 else n

/-- Every call keeps the counters in step, and leaks what it adds to the expired reads. -/
theorem leaked_step {s t : Session K V P} {e : Event K V} (h : Accounted s.cache)
    (hr : RepresentableTtl s e) (hstep : Step s e t) :
    Accounted t.cache ∧ t.cache.leaked = phantoms s e s.cache.leaked := by
  refine ⟨(h.step hr hstep).1, ?_⟩
  obtain ⟨env, op, reply, evicted⟩ := e
  have hexec := hstep.exec_eq
  cases op with
  | get key =>
    obtain ⟨-, -, hexp, hlive⟩ := h.get env key
    rw [← (Prod.mk.inj hexec).1]
    show (s.cache.get env key).1.leaked =
      if ExpiredGet s ⟨env, .get key, reply, evicted⟩ then s.cache.leaked + 1 else s.cache.leaked
    split
    · rename_i hx
      exact hexp hx
    · rename_i hx
      exact hlive hx
  | set key value ttl =>
    rw [← (Prod.mk.inj hexec).1]
    exact (h.set key value hr).2.1
  | delete key =>
    rw [← (Prod.mk.inj hexec).1]
    exact (h.delete key).2.1
  | «exists» key =>
    rw [← (Prod.mk.inj hexec).1]
    rfl
  | clear =>
    rw [← (Prod.mk.inj hexec).1]
    exact (Accounted.clear s.cache).2

/-- The counters are in step, and the entries counted beyond the resident ones are the expired reads. -/
def Leaks (cap : Nat) (p : Session K V P × Nat) : Prop :=
  Accounted p.1.cache ∧ p.1.cache.leaked = p.2 ∧ p.1.cache.capacityBytes = cap

theorem leaks_step {cap : Nat} {p q : Session K V P × Nat} {e : Event K V} (h : Leaks cap p)
    (hstep : Ghost phantoms (Guarded RepresentableTtl Step) p e q) : Leaks cap q := by
  obtain ⟨hacc, hleak, hcap⟩ := h
  obtain ⟨⟨hr, hs⟩, hn⟩ := hstep
  obtain ⟨hacc', hleak'⟩ := leaked_step hacc hr hs
  exact ⟨hacc', by rw [hleak', hleak, hn], hs.capacity.trans hcap⟩

theorem leaks_of_run {cap : Nat} {policy : P} {hcap : 0 < cap} {es : List (Event K V)}
    {p : Session K V P × Nat}
    (hrun : Run (Ghost phantoms (Guarded RepresentableTtl Step)) (.fresh cap policy hcap, 0) es p) :
    Leaks cap p :=
  hrun.invariant (Leaks cap) ⟨Accounted.withPolicy cap policy hcap, rfl, rfl⟩
    fun _ _ _ h hs => leaks_step h hs

/-- **The counters are exactly the resident entries and the expired reads.**  In every run with
representable expiries, with `n` the `get`s since the last `clear` that found an expired entry:
`stats().entries` is the number of resident entries and `n`, `size()` is that many times the entry size,
and all of it is within the capacity, so each expired read lowers the number of entries that fit by one. -/
theorem phantom_accounting {cap : Nat} {policy : P} {hcap : 0 < cap} {es : List (Event K V)}
    {s : Session K V P} {n : Nat}
    (hrun : Run (Ghost phantoms (Guarded RepresentableTtl Step)) (.fresh cap policy hcap, 0) es
      (s, n)) :
    s.cache.stats.entries = s.cache.entries.count + n ∧
      s.cache.sizeBytes = entrySize K V * (s.cache.entries.count + n) ∧
      entrySize K V * (s.cache.entries.count + n) ≤ cap := by
  obtain ⟨hacc, hleak, hcapacity⟩ := leaks_of_run hrun
  replace hleak : s.cache.leaked = n := hleak
  have hentries := hacc.entries_eq
  rw [hleak] at hentries
  have hsize := hacc.size_eq
  rw [hentries] at hsize
  exact ⟨hentries, hsize, hsize ▸ hcapacity ▸ hacc.size_le⟩

/-- Where one entry fits, one is cached and read after it has expired. -/
theorem expired_run :
    Run (Ghost phantoms (Guarded RepresentableTtl Step)) (freshSingle, 0)
      (freshSingle.script expiringCalls).1 ((freshSingle.script expiringCalls).2, 1) := by
  have hrun : Run (Guarded RepresentableTtl Step) freshSingle _ _ :=
    run_script expiringCalls freshSingle (by decide)
  obtain ⟨n, hghost⟩ := hrun.ghost phantoms 0
  have hleak : (freshSingle.script expiringCalls).2.cache.leaked = n := (leaks_of_run hghost).2.1
  obtain rfl : 1 = n := hleak
  exact hghost

theorem phantom_accounting_expired :
    (freshSingle.script expiringCalls).2.cache.stats.entries =
        (freshSingle.script expiringCalls).2.cache.entries.count + 1 ∧
      (freshSingle.script expiringCalls).2.cache.entries.count = 0 :=
  ⟨(phantom_accounting expired_run).1, by decide⟩

/-! ## A dead cache -/

/-- What a cache answers in which `n` phantom entries leave no room for another. -/
def deadReply (cap n : Nat) : Op K V → Outcome (Reply V)
  | .get _ => .ok (.value none)
  | .set _ _ _ => .err (.tierError (.capacityExceeded (entrySize K V * (n + 1)) cap))
  | .delete _ => .ok .unit
  | .exists _ => .ok (.flag false)
  | .clear => .ok .unit

omit [EvictionPolicy K P] in
/-- With `n` phantoms and no room for another entry nothing is resident. -/
theorem Leaks.count_eq_zero {cap n : Nat} {s : Session K V P} (h : Leaks cap (s, n))
    (hfull : cap < entrySize K V * (n + 1)) : s.cache.entries.count = 0 := by
  obtain ⟨hacc, hleak, hcap⟩ := h
  replace hleak : s.cache.leaked = n := hleak
  have hle := hacc.size_le
  rw [hacc.size_eq, hacc.entries_eq, hleak, hcap] at hle
  have hlt : s.cache.entries.count + n < n + 1 :=
    Nat.lt_of_mul_lt_mul_left (Nat.lt_of_le_of_lt hle hfull)
  omega

omit [EvictionPolicy K P] in
theorem Leaks.notMem {cap n : Nat} {s : Session K V P} (h : Leaks cap (s, n))
    (hfull : cap < entrySize K V * (n + 1)) (key : K) : key ∉ s.cache.entries := by
  intro hin
  have hpos := AList.count_pos_of_mem hin
  rw [h.count_eq_zero hfull] at hpos
  exact Nat.lt_irrefl 0 hpos

/-- A dead cache refuses every write, before it computes an expiry. -/
theorem Leaks.set_refused {cap n : Nat} {s : Session K V P} (h : Leaks cap (s, n))
    (hfull : cap < entrySize K V * (n + 1)) (env : Env K) (key : K) :
    ∃ c, ∀ (value : V) (ttl : Option Duration), s.cache.set env key value ttl =
      (c, .err (.tierError (.capacityExceeded (entrySize K V * (n + 1)) cap))) := by
  have hzero := h.count_eq_zero hfull
  have hnone := h.notMem hfull
  obtain ⟨hacc, hleak, hcap⟩ := h
  replace hleak : s.cache.leaked = n := hleak
  have hsize : s.cache.sizeBytes + entrySize K V = entrySize K V * (n + 1) := by
    rw [hacc.size_eq, hacc.entries_eq, hzero, hleak, Nat.zero_add, Nat.mul_add_one]
  rcases hacc.covered.space_cases env.order key with ⟨hkey, -⟩ | ⟨-, hroom, -⟩ |
    ⟨-, -, x, hx, -⟩ | ⟨-, -, policy, he⟩
  · exact absurd hkey (hnone key)
  · unfold HasRoom at hroom
    rw [hsize, hcap] at hroom
    exact absurd hroom (Nat.not_le.2 hfull)
  · exact absurd hx (hnone x)
  · have herror : s.cache.capacityExceeded (entrySize K V) =
        .tierError (.capacityExceeded (entrySize K V * (n + 1)) cap) := by
      show CacheError.tierError (.capacityExceeded (s.cache.sizeBytes + entrySize K V)
        s.cache.capacityBytes) = _
      rw [hsize, hcap]
    exact ⟨s.cache.setPolicy policy, fun value ttl => herror ▸ set_of_err he value ttl⟩

/-- A dead cache answers every call as `deadReply` says. -/
theorem Leaks.reply {cap n : Nat} {s t : Session K V P} {e : Event K V} (h : Leaks cap (s, n))
    (hfull : cap < entrySize K V * (n + 1)) (hstep : Step s e t) : e.reply = deadReply cap n e.op := by
  have hnone := fun key => AList.lookup_eq_none.2 (h.notMem hfull key)
  obtain ⟨env, op, reply, evicted⟩ := e
  have hreply : (s.cache.exec env op).2 = reply := (Prod.mk.inj hstep.exec_eq).2
  show reply = deadReply cap n op
  rw [← hreply]
  cases op with
  | get key =>
    have hget : s.cache.get env key = (s.cache.countMiss, .ok none) := by
      unfold MemoryCache.get
      simp only [hnone key, Bool.false_eq_true, if_false]
    show (s.cache.get env key).2.map Reply.value = _
    rw [hget]
    rfl
  | set key value ttl =>
    obtain ⟨c, hc⟩ := h.set_refused hfull env key
    show (s.cache.set env key value ttl).2.map _ = _
    rw [hc value ttl]
    rfl
  | delete key =>
    show (s.cache.delete key).2.map _ = _
    rw [(h.1.delete key).2.2]
    rfl
  | «exists» key =>
    show (s.cache.exists env.now key).map Reply.flag = _
    unfold MemoryCache.exists
    rw [hnone key]
    rfl
  | clear => rfl

/-- The call is not `clear`. -/
def NoClear {σ : Type} (_ : σ) (e : Event K V) : Prop :=
  match e.op with
  | .clear => False
  | _ => True

instance {σ : Type} (s : σ) (e : Event K V) : Decidable (NoClear s e) := by
  unfold NoClear; split <;> infer_instance

/-- A call whose expiry is representable leaves a dead cache dead. -/
theorem Leaks.dead_timely {cap n : Nat} {s t : Session K V P} {e : Event K V} (h : Leaks cap (s, n))
    (hfull : cap < entrySize K V * (n + 1)) (hstep : Step s e t) (hr : RepresentableTtl s e)
    (hnc : NoClear s e) : Leaks cap (t, n) := by
  obtain ⟨hacc', hleak'⟩ := leaked_step h.1 hr hstep
  refine ⟨hacc', ?_, hstep.capacity.trans h.2.2⟩
  have hleak : s.cache.leaked = n := h.2.1
  show t.cache.leaked = n
  rw [hleak', hleak]
  obtain ⟨env, op, reply, evicted⟩ := e
  cases op with
  | get key =>
    refine if_neg ?_
    rintro ⟨e', hl, -⟩
    exact h.notMem hfull key (AList.mem_of_lookup hl)
  | clear => exact hnc.elim
  | set _ _ _ => rfl
  | delete _ => rfl
  | «exists» _ => rfl

/-- What is dead stays dead until it is cleared. -/
theorem Leaks.dead_step {cap n : Nat} {s t : Session K V P} {e : Event K V} (h : Leaks cap (s, n))
    (hfull : cap < entrySize K V * (n + 1)) (hnc : NoClear s e) (hstep : Step s e t) :
    Leaks cap (t, n) := by
  obtain ⟨env, op, reply, evicted⟩ := e
  cases op with
  | set key value ttl =>
    -- a refused `set` leaves what it would leave without a time-to-live
    obtain ⟨c, hc⟩ := h.set_refused hfull env key
    have hexec := hstep.exec_eq
    simp only [MemoryCache.exec, hc value ttl] at hexec
    have htimeless : Step s ⟨env, .set key value none, reply, evicted⟩ t := by
      refine ⟨hstep.clock_le, hstep.clock_eq, ?_, hstep.evicted_eq⟩
      simp only [MemoryCache.exec, hc value none]
      exact hexec
    exact h.dead_timely hfull htimeless (representable_none env.now) trivial
  | get key => exact h.dead_timely hfull hstep trivial trivial
  | delete key => exact h.dead_timely hfull hstep trivial trivial
  | «exists» key => exact h.dead_timely hfull hstep trivial trivial
  | clear => exact hnc.elim

theorem Leaks.dead_run {cap n : Nat} {s t : Session K V P} {es : List (Event K V)}
    (h : Leaks cap (s, n)) (hfull : cap < entrySize K V * (n + 1))
    (hrun : Run (Guarded NoClear Step) s es t) :
    Leaks cap (t, n) ∧ ∀ e ∈ es, e.reply = deadReply cap n e.op := by
  induction hrun with
  | nil => exact ⟨h, fun e he => by cases he⟩
  | snoc _ hstep ih =>
    obtain ⟨hleaks, hreplies⟩ := ih
    obtain ⟨hnc, hs⟩ := hstep
    refine ⟨hleaks.dead_step hfull hnc hs, fun e he => ?_⟩
    rcases List.mem_append.1 he with he | he
    · exact hreplies e he
    · rw [List.mem_singleton.1 he]
      exact hleaks.reply hfull hs

/-- **A cache that expired reads have used up is dead until it is cleared.**  Let `n` be the `get`s
since the last `clear` that found an expired entry, in a run with representable expiries.  If there is no
room for one entry beside `n` others, then in every further run without a `clear`, whatever its
times-to-live, each call answers as `deadReply` says (a `get` misses, a `set` is refused, whatever its key and
the policy), and nothing is resident at the end. -/
theorem dead_until_cleared {cap : Nat} {policy : P} {hcap : 0 < cap} {es es' : List (Event K V)}
    {s t : Session K V P} {n : Nat}
    (hrun : Run (Ghost phantoms (Guarded RepresentableTtl Step)) (.fresh cap policy hcap, 0) es
      (s, n)) (hfull : cap < entrySize K V * (n + 1))
    (hrun' : Run (Guarded NoClear Step) s es' t) :
    (∀ e ∈ es', e.reply = deadReply cap n e.op) ∧ ∀ key, key ∉ t.cache.entries := by
  obtain ⟨hleaks, hreplies⟩ := (leaks_of_run hrun).dead_run hfull hrun'
  exact ⟨hreplies, hleaks.notMem hfull⟩

/-- Two writes and a read of another key, later; the expiry of the second write is not representable. -/
def hopelessCalls : List (Env UInt64 × Op UInt64 UInt64) :=
  [(⟨3, .id _⟩, .set 2 20 none), (⟨4, .id _⟩, .set 2 30 (some Instant.max)), (⟨5, .id _⟩, .get 2)]

theorem dead_until_cleared_hopeless :
    2 ∉ ((freshSingle.script expiringCalls).2.script hopelessCalls).2.cache.entries ∧
      ∀ e ∈ ((freshSingle.script expiringCalls).2.script hopelessCalls).1, e.reply = deadReply 16 1 e.op := by
  obtain ⟨hreplies, hnone⟩ := dead_until_cleared expired_run (by decide)
    (run_script hopelessCalls (freshSingle.script expiringCalls).2 (by decide))
  exact ⟨hnone 2, hreplies⟩

end CacheLayer
