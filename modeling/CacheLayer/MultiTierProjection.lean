import CacheLayer.MultiTierSteps
import CacheLayer.SetEffect

/-!
# What one tier sees

Any number of clients share the tiers of a cache, and a `get` of one of them writes to tiers that it has
passed.  With tier calls as atomic steps a tier sees none of this: its calls come one after the other, under
one clock.

* `tier_call` — a step of a client is one call on one tier, or none;
* `tier_run` — so what happens to a tier in any interleaving is a sequential run of one `MemoryCache`,
  and whatever holds in every such run holds of every tier;
* `operations_end` — in particular no tier exceeds its capacity and no operation panics.
-/

set_option autoImplicit false

namespace CacheLayer

open MemoryCache

variable {K V P : Type}

/-- The tier call is one that the operation makes: a `get` also writes what it has found, without a
time-to-live. -/
def Op.Serves : Op K V → CacheCall K V → Prop
  | .get key, .get k => key = k
  | .set key _ none, .get k => key = k
  | .set key value (some ttl), .write (.setWithTtl k v d) => key = k ∧ value = v ∧ ttl = d
  | .delete key, .write (.delete k) => key = k
  | _, _ => False

namespace TierSystem

/-- If the next tier call of the client is one of a `set_with_ttl`, its expiry is representable. -/
def RepresentableCall (s : TierSystem K V P) : TierLabel K V → Prop
  | .invoke _ => True
  | .call c env =>
    match s.clients[c]? with
    | some (.writing (.setWithTtl _ _ ttl) _ _ _) => Representable env.now (some ttl)
    | _ => True

instance (s : TierSystem K V P) : (l : TierLabel K V) → Decidable (s.RepresentableCall l)
  | .invoke _ => isTrue trivial
  | .call c env => by
    dsimp only [RepresentableCall]
    generalize s.clients[c]? = o
    exact match o with
    | some (.writing (.setWithTtl _ _ ttl) _ _ _) =>
      inferInstanceAs (Decidable (Representable env.now (some ttl)))
    | some (.writing (.delete _) _ _ _) => isTrue trivial
    | some (.searching _ _) => isTrue trivial
    | some (.promoting _ _ _ _ _) => isTrue trivial
    | some (.returned _ _ _) => isTrue trivial
    | none => isTrue trivial

variable [DecidableEq K] [EvictionPolicy K P] [RustSized K] [RustSized V]

theorem call_clock {s t : TierSystem K V P} {c : Nat} {env : Env K}
    (h : Steps s (.call c env) t) : s.clock ≤ env.now ∧ t.clock = env.now := by
  have hclock : s.clock ≤ env.now := by
    by_contra hlt
    simp [Steps, step, hlt] at h
  have hcall : { s with clock := env.now }.call c env = some t := by
    simpa [Steps, step, hclock] using h
  refine ⟨hclock, ?_⟩
  unfold call at hcall
  repeat' split at hcall
  all_goals
    cases hcall
    try simp [putTier, putClient, apply]

/-- **A step of a client is one call on one tier, or none.** -/
theorem tier_call {s t : TierSystem K V P} {c : Nat} {env : Env K} (hstep : Steps s (.call c env) t) :
    t.tiers = s.tiers ∨ ∃ i tier call op, s.tiers[i]? = some tier ∧ s.Calls call ∧ op.Serves call ∧
      t.tiers = s.tiers.set i (tier.exec env op).1 := by
  obtain ⟨cl, cl', hc, hclients, hcases⟩ := client_cases hstep
  have hmem := List.mem_of_getElem? hc
  rcases hcases with ⟨key, i, tier, version, rfl, hi, htiers, rfl⟩ |
    ⟨key, value, version, i, m, tier, rfl, -, hi, htiers, rfl⟩ |
    ⟨w, version, version', i, lastError, tier, rfl, hi, htiers, rfl⟩ | ⟨hend, htiers, rfl⟩
  · exact Or.inr ⟨i, tier, _, .get key, hi, ⟨_, hmem, rfl⟩, rfl, htiers⟩
  · exact Or.inr ⟨i, tier, _, .set key value none, hi, ⟨_, hmem, rfl⟩, rfl, htiers⟩
  · cases w with
    | setWithTtl key value ttl =>
      exact Or.inr ⟨i, tier, _, .set key value (some ttl), hi, ⟨_, hmem, rfl⟩, ⟨rfl, rfl, rfl⟩, htiers⟩
    | delete key => exact Or.inr ⟨i, tier, _, .delete key, hi, ⟨_, hmem, rfl⟩, rfl, htiers⟩
  · exact Or.inl htiers

/-- A tier has come from a fresh cache by a sequential run of calls that the clients make. -/
def Ran (s : TierSystem K V P) (start : Session K V P) (tier : MemoryCache K V P) : Prop :=
  ∃ clock fs, clock ≤ s.clock ∧ Run Step start fs ⟨tier, clock⟩ ∧
    ∀ e ∈ fs, ∃ call, s.Calls call ∧ e.op.Serves call

theorem Ran.step {s t : TierSystem K V P} {l : TierLabel K V} {start : Session K V P}
    {tier : MemoryCache K V P} (h : s.Ran start tier) (hle : s.clock ≤ t.clock)
    (hstep : Steps s l t) : t.Ran start tier := by
  obtain ⟨clock, fs, hclock, hrun, hcalls⟩ := h
  refine ⟨clock, fs, Nat.le_trans hclock hle, hrun, fun e he => ?_⟩
  obtain ⟨call, hcall, hserves⟩ := hcalls e he
  exact ⟨call, hcall.step hstep, hserves⟩

/-- A call on the tier. -/
theorem Ran.call {s t : TierSystem K V P} {l : TierLabel K V} {start : Session K V P}
    {tier : MemoryCache K V P} (h : s.Ran start tier) {env : Env K} {op : Op K V}
    {call : CacheCall K V} (hle : s.clock ≤ env.now) (htime : t.clock = env.now)
    (hcall : s.Calls call) (hserves : op.Serves call) (hstep : Steps s l t) :
    t.Ran start (tier.exec env op).1 := by
  obtain ⟨clock, fs, hclock, hrun, hcalls⟩ := h
  have hnext := hrun.snoc (step_after ⟨tier, clock⟩ env op (Nat.le_trans hclock hle))
  refine ⟨env.now, _, Nat.le_of_eq htime.symm, hnext, fun e he => ?_⟩
  rcases List.mem_append.1 he with he | he
  · obtain ⟨call', hcall', hserves'⟩ := hcalls e he
    exact ⟨call', hcall'.step hstep, hserves'⟩
  · rw [List.mem_singleton.1 he]
    exact ⟨call, hcall.step hstep, hserves⟩

/-- **What happens to one tier is a sequential run of one `MemoryCache`.**  Any number of clients call
`get`, `set_with_ttl` and `delete` on shared tiers, in any interleaving of their tier calls, each of which
is one step.  Each tier that was fresh at the start has come to its state by calls one after the other under
a clock that does not go back, each of them a call that one of these operations makes; no tier is ever
cleared.  (`CacheSystem.tier_calls_run` is what remains of this when the steps of tier calls interleave.) -/
theorem tier_run {tiers : List (MemoryCache K V P)} {es : List (TierLabel K V)} {s : TierSystem K V P}
    (hrun : Run Steps (fresh tiers) es s) {i cap : Nat} {policy : P}
    {hcap : 0 < cap} (hi : tiers[i]? = some (.withPolicy cap policy hcap)) :
    ∃ tier, s.tiers[i]? = some tier ∧ s.Ran (.fresh cap policy hcap) tier := by
  refine hrun.invariant
    (fun s => ∃ tier, s.tiers[i]? = some tier ∧ s.Ran (.fresh cap policy hcap) tier) ?_ ?_
  · exact ⟨_, hi, 0, [], Nat.le_refl 0, .nil, fun e he => absurd he List.not_mem_nil⟩
  · rintro s l t ⟨tier, htier, hran⟩ hstep
    cases l with
    | invoke call =>
      have htiers : t.tiers = s.tiers ∧ t.clock = s.clock := by
        cases hstep
        exact ⟨rfl, rfl⟩
      exact ⟨tier, htiers.1 ▸ htier, hran.step (Nat.le_of_eq htiers.2.symm) hstep⟩
    | call c env =>
      obtain ⟨hle, htime⟩ := call_clock hstep
      have hle' : s.clock ≤ t.clock := htime ▸ hle
      rcases tier_call hstep with htiers | ⟨j, tier', call, op, hj, hcall, hserves, htiers⟩
      · exact ⟨tier, htiers ▸ htier, hran.step hle' hstep⟩
      · by_cases hji : j = i
        · subst hji
          rw [htier] at hj
          cases hj
          refine ⟨(tier.exec env op).1, ?_, hran.call hle htime hcall hserves hstep⟩
          rw [htiers]
          exact List.getElem?_set_self (List.getElem?_eq_some_iff.1 htier).1
        · refine ⟨tier, ?_, hran.step hle' hstep⟩
          rw [htiers, List.getElem?_set_ne hji]
          exact htier

/-- A tier without room for any entry refuses a write; then another client deletes the key. -/
def refusedWrite : List (TierLabel UInt64 UInt64) :=
  [.invoke (.write (.setWithTtl 1 10 5)), .call 0 ⟨0, .id _⟩, .call 0 ⟨1, .id _⟩, .call 0 ⟨1, .id _⟩,
    .invoke (.write (.delete 1)), .call 1 ⟨1, .id _⟩, .call 1 ⟨3, .id _⟩]

/-- Two tiers, the first too small for any entry. -/
def tinyOverSingle : List (MemoryCache UInt64 UInt64 (LRU UInt64)) :=
  [.withPolicy 8 (LRU.new _ 1024 (Nat.succ_pos (nat_lit 1023))) (Nat.succ_pos (nat_lit 7)),
    .withPolicy 16 (LRU.new _ 1024 (Nat.succ_pos (nat_lit 1023))) (Nat.succ_pos (nat_lit 15))]

/-- Steps with representable expiries. -/
def representableStep (s : TierSystem UInt64 UInt64 (LRU UInt64)) (l : TierLabel UInt64 UInt64) :
    Option (TierSystem UInt64 UInt64 (LRU UInt64)) :=
  if s.RepresentableCall l then s.step l else none

/-- The state after these steps. -/
def writeRefused : TierSystem UInt64 UInt64 (LRU UInt64) :=
  (play representableStep (fresh tinyOverSingle) refusedWrite).get (by decide)

theorem refused_run :
    Run (Guarded RepresentableCall Steps) (fresh tinyOverSingle) refusedWrite writeRefused :=
  Run.of_play_guarded (Option.some_get _).symm

theorem tier_run_refused : ∃ tier, writeRefused.tiers[1]? = some tier ∧
    writeRefused.Ran (.fresh 16 (LRU.new _ 1024 (Nat.succ_pos 1023)) (Nat.succ_pos 15)) tier :=
  tier_run refused_run.of_guarded rfl

/-! ## How operations end -/

/-- A reply that the operation can give: a `set_with_ttl` can be refused by a tier without room for one
more entry. -/
def Answers (s : TierSystem K V P) : CacheCall K V → Outcome (Reply V) → Prop
  | .get _, .ok (.value _) => True
  | .write (.delete _), .ok .unit => True
  | .write (.setWithTtl _ _ _), .ok .unit => True
  | .write (.setWithTtl _ _ _), .err e => ∃ cap ∈ s.tiers.map MemoryCache.capacityBytes, ∃ size,
    e = .tierError (.capacityExceeded size cap) ∧ cap < size ∧ size ≤ cap + entrySize K V
  | _, _ => False

omit [DecidableEq K] [EvictionPolicy K P] in
theorem Answers.congr {s t : TierSystem K V P}
    (hcaps : t.tiers.map MemoryCache.capacityBytes = s.tiers.map MemoryCache.capacityBytes)
    {op : CacheCall K V} {reply : Outcome (Reply V)} (h : s.Answers op reply) : t.Answers op reply := by
  unfold Answers at h ⊢
  split at h <;> first | exact h | (rw [hcaps]; exact h)

/-- What a client may be: it has returned a reply that its operation can give, or the last error of its
write is one. -/
def Acceptable (s : TierSystem K V P) : Client K V → Prop
  | .returned op _ reply => s.Answers op reply
  | .writing w _ _ (some e) => s.Answers (.write w) (.err e)
  | _ => True

/-- The tiers cover what they hold, and no client has or will have another error. -/
structure Sound (s : TierSystem K V P) : Prop where
  covered : ∀ tier ∈ s.tiers, Covered tier
  acceptable : ∀ cl ∈ s.clients, s.Acceptable cl

section Steps

variable {s t : TierSystem K V P} {c : Nat} {cl cl' : Client K V}

omit [DecidableEq K] [EvictionPolicy K P] in
theorem Acceptable.congr
    (hcaps : t.tiers.map MemoryCache.capacityBytes = s.tiers.map MemoryCache.capacityBytes)
    (h : s.Acceptable cl) : t.Acceptable cl := by
  unfold Acceptable at h ⊢
  split at h <;> first | exact trivial | exact h.congr hcaps

omit [EvictionPolicy K P] in
/-- One tier is called, and the client goes on to an acceptable place. -/
theorem Sound.advance (h : Sound s) (hclients : t.clients = s.clients.set c cl') {i : Nat}
    {tier tier' : MemoryCache K V P} (hi : s.tiers[i]? = some tier)
    (htiers : t.tiers = s.tiers.set i tier') (hcap : tier'.capacityBytes = tier.capacityBytes)
    (hcov : Covered tier') (hacc : s.Acceptable cl') : Sound t := by
  have hcaps : t.tiers.map MemoryCache.capacityBytes = s.tiers.map MemoryCache.capacityBytes := by
    have hlook : (s.tiers.map MemoryCache.capacityBytes)[i]? = some tier.capacityBytes := by
      rw [List.getElem?_map, hi, Option.map_some]
    obtain ⟨hlt, heq⟩ := List.getElem?_eq_some_iff.1 hlook
    rw [htiers, List.map_set, hcap, ← heq, List.set_getElem_self]
  refine ⟨fun tier₀ ht => ?_, fun cl₀ hcl => ?_⟩
  · rw [htiers] at ht
    rcases List.mem_or_eq_of_mem_set ht with ht | rfl
    · exact h.covered tier₀ ht
    · exact hcov
  · rw [hclients] at hcl
    rcases List.mem_or_eq_of_mem_set hcl with hcl | rfl
    · exact (h.acceptable cl₀ hcl).congr hcaps
    · exact hacc.congr hcaps

omit [EvictionPolicy K P] in
/-- No tier is called. -/
theorem Sound.idle (h : Sound s) (hclients : t.clients = s.clients.set c cl')
    (htiers : t.tiers = s.tiers) (hacc : s.Acceptable cl') : Sound t := by
  have hcaps : t.tiers.map MemoryCache.capacityBytes = s.tiers.map MemoryCache.capacityBytes := by
    rw [htiers]
  refine ⟨fun tier ht => h.covered tier (htiers ▸ ht), fun cl₀ hcl => ?_⟩
  rw [hclients] at hcl
  rcases List.mem_or_eq_of_mem_set hcl with hcl | rfl
  · exact (h.acceptable cl₀ hcl).congr hcaps
  · exact hacc.congr hcaps

/-- The error of a refused `set` names the capacity of the tier, and a size above it. -/
theorem answers_of_refusal {tier : MemoryCache K V P} (hcov : Covered tier) (hmem : tier ∈ s.tiers)
    {env : Env K} {key : K} {value : V} {ttl : Duration} {e : CacheError}
    (he : (tier.set env key value (some ttl)).2 = .err e) :
    s.Answers (.write (.setWithTtl key value ttl)) (.err e) := by
  obtain ⟨hev, -⟩ := hcov.set_err he
  rcases hcov.evictForSpace env.order with ⟨-, h⟩ | ⟨-, x, -, c', h, -⟩ | ⟨hroom, policy, h⟩
  all_goals
    rw [h] at hev
    have hout := (Prod.mk.inj hev).2
  · cases hout
  · cases hout
  · cases hout
    have hle := hcov.size_le
    unfold HasRoom at hroom
    exact ⟨tier.capacityBytes, List.mem_map_of_mem hmem, _, rfl, by omega, by omega⟩

theorem sound_step {l : TierLabel K V} (h : Sound s) (hrep : s.RepresentableCall l)
    (hstep : Steps s l t) : Sound t := by
  cases l with
  | invoke call =>
    cases hstep
    refine ⟨h.covered, fun cl hcl => ?_⟩
    rcases List.mem_append.1 hcl with hcl | hcl
    · exact (h.acceptable cl hcl).congr rfl
    · rw [List.mem_singleton.1 hcl]
      cases call <;> trivial
  | call c env =>
    obtain ⟨cl, cl', hc, hclients, hcases⟩ := client_cases hstep
    have hcl := h.acceptable cl (List.mem_of_getElem? hc)
    rcases hcases with ⟨key, i, tier, version, rfl, hi, htiers, rfl⟩ |
      ⟨key, value, version, i, m, tier, rfl, -, hi, htiers, rfl⟩ |
      ⟨w, version, version', i, lastError, tier, rfl, hi, htiers, rfl⟩ | ⟨hend, htiers, rfl⟩
    · obtain ⟨hcov, r, hr⟩ := (h.covered tier (List.mem_of_getElem? hi)).get env key
      refine h.advance hclients hi htiers (get_capacity tier env key) hcov ?_
      rw [hr]
      cases r <;> trivial
    · have hcov := h.covered tier (List.mem_of_getElem? hi)
      have hret := hcov.set_returned env key value (representable_none env.now)
      refine h.advance hclients hi htiers (set_capacity tier env key value none)
        (hcov.set env key value none) ?_
      generalize (tier.set env key value none).2 = o at hret ⊢
      cases o with
      | panic p => exact hret.elim
      | _ => trivial
    · have hmem := List.mem_of_getElem? hi
      have hcov := h.covered tier hmem
      cases w with
      | setWithTtl key value ttl =>
        have hrep' : Representable env.now (some ttl) := by
          simpa [RepresentableCall, hc] using hrep
        have hret := hcov.set_returned env key value hrep'
        refine h.advance hclients hi htiers (set_capacity tier env key value (some ttl))
          (hcov.set env key value (some ttl)) ?_
        have hrefused : ∀ e, (tier.set env key value (some ttl)).2 = .err e →
            s.Answers (.write (.setWithTtl key value ttl)) (.err e) :=
          fun e => answers_of_refusal hcov hmem
        show s.Acceptable (.afterWrite _ _ _ _ (tier.set env key value (some ttl)).2)
        generalize (tier.set env key value (some ttl)).2 = o at hret hrefused ⊢
        cases o with
        | ok u => cases lastError <;> exact hcl
        | err e => exact hrefused e rfl
        | panic p => exact hret.elim
      | delete key =>
        obtain ⟨hcov', hok⟩ := hcov.delete key
        refine h.advance hclients hi htiers (delete_capacity tier key) hcov' ?_
        show s.Acceptable (.afterWrite _ _ _ _ (tier.delete key).2)
        rw [hok]
        cases lastError <;> exact hcl
    · refine h.idle hclients htiers ?_
      cases cl with
      | writing w version i lastError =>
        cases lastError with
        | none => cases w <;> trivial
        | some e => exact hcl
      | returned op version reply => exact hend.elim
      | _ => trivial

end Steps

/-- **No tier exceeds its capacity and no operation panics**, if tier calls are atomic steps and expiries
representable.  Any number of clients of fresh tiers, in any interleaving of such steps.  In every reachable
state every tier holds no more bytes than it counts, and counts no more than its capacity; and of the
operations that have returned, every `get` has returned a value or none, every `delete` `Ok`, and every
`set_with_ttl` `Ok` or the error of a tier whose capacity the new entry would have exceeded.  The sums and
counts are those of the source while they fit `usize`. -/
theorem operations_end {tiers : List (MemoryCache K V P)} {es : List (TierLabel K V)}
    {s : TierSystem K V P}
    (hfresh : ∀ tier ∈ tiers, ∃ cap policy h, tier = .withPolicy cap policy h)
    (hrun : Run (Guarded RepresentableCall Steps) (fresh tiers) es s) :
    (∀ tier ∈ s.tiers, tier.residentBytes ≤ tier.sizeBytes ∧ tier.sizeBytes ≤ tier.capacityBytes) ∧
      ∀ op version reply, Client.returned op version reply ∈ s.clients → s.Answers op reply := by
  have hstart : Sound (fresh tiers : TierSystem K V P) := by
    refine ⟨fun tier ht => ?_, fun cl hcl => absurd hcl List.not_mem_nil⟩
    obtain ⟨cap, policy, hcap, rfl⟩ := hfresh tier ht
    exact Covered.withPolicy cap policy hcap
  have h : Sound s := hrun.invariant Sound hstart fun _ _ _ h hs => sound_step h hs.1 hs.2
  refine ⟨fun tier ht => ?_, fun op version reply hcl => h.acceptable _ hcl⟩
  have hcov := h.covered tier ht
  refine ⟨?_, hcov.size_le⟩
  rw [residentBytes, AList.total_eq_mul_count (AList.forall_entries_iff.2 hcov.uniform)]
  exact hcov.bytes_le

theorem operations_end_refused :
    writeRefused.Answers (.write (.setWithTtl 1 10 5)) (.err (.tierError (.capacityExceeded 16 8))) := by
  have hfresh : ∀ tier ∈ tinyOverSingle, ∃ cap policy h, tier = .withPolicy cap policy h :=
    fun _ ht => withPolicy_pair ht
  have hcl : writeRefused.clients[0]? = some (.returned (.write (.setWithTtl 1 10 5)) 1
      (.err (.tierError (.capacityExceeded 16 8)))) := by rfl
  exact (operations_end hfresh refused_run).2 _ _ _ (List.mem_of_getElem? hcl)

end TierSystem

end CacheLayer
