import CacheLayer.MemoryThreads
import CacheLayer.MultiTierStats
import CacheLayer.MultiTierOrder
import CacheLayer.MultiTierSteps

/-!
# Hits and misses under concurrency

The statistics are updated in a section of their own, long after the access they count.  They are exact
all the same: each `get` counts once, in its last step.

* `requests_counted` — the hits and misses of one cache are the `get`s that have returned;
* `Arrivals`, `arrivals_step` — a request that one tier has passed on has been counted by the next one,
  or belongs to a client that is about to ask it;
* `requests_flow` — so the counters of neighbouring tiers differ by the clients between them, and agree
  when no operation is in flight.
-/

set_option autoImplicit false

namespace CacheLayer

open MemoryCache

variable {K V P : Type} [DecidableEq K] [EvictionPolicy K P] [RustSized K] [RustSized V]

/-- How the count of a property changes when one element of a list is replaced. -/
theorem countP_replace {α : Type} (p : α → Bool) {l : List α} {i : Nat} {a b : α}
    (h : l[i]? = some a) : (l.set i b).countP p + (p a).toNat = l.countP p + (p b).toNat := by
  obtain ⟨hlt, rfl⟩ := List.getElem?_eq_some_iff.1 h
  have hpos : p l[i] = true → 0 < l.countP p := fun hp =>
    List.countP_pos_iff.2 ⟨_, List.getElem_mem hlt, hp⟩
  rw [List.countP_set hlt]
  cases ha : p l[i] <;> cases hb : p b <;> simp_all

/-! ## One cache -/

namespace Thread

/-- The call is a `get` that has returned a value. -/
def isHit : Thread K V → Bool
  | .returned (.get _) _ (.ok (.value (some _))) => true
  | _ => false

/-- The call is a `get` that has returned none. -/
def isMiss : Thread K V → Bool
  | .returned (.get _) _ (.ok (.value none)) => true
  | _ => false

/-- A step counts a request if it is the last one of a `get`. -/
theorem step_requests {c : MemoryCache K V P} {now : Instant} {order : HashOrder K} {th : Thread K V}
    {r : MemoryCache K V P × Thread K V} (h : th.step c now order = some r) :
    th.isHit = false ∧ th.isMiss = false ∧
      r.1.requests = (c.requests.1 + r.2.isHit.toNat, c.requests.2 + r.2.isMiss.toNat) := by
  have hrelease : ∀ (c c' : MemoryCache K V P) n o, c.releaseEntry n = (c', o) →
      c'.requests = c.requests := by
    intro c c' n o heq
    have hr := releaseEntry_requests c n
    rwa [heq] at hr
  cases th with
  | get key phase =>
    cases h
    refine ⟨rfl, rfl, ?_⟩
    fun_cases getStep c now key phase <;> rfl
  | set key value ttl oldSize phase =>
    cases h
    refine ⟨rfl, rfl, ?_⟩
    fun_cases setStep c now order key value ttl oldSize phase
    all_goals first
      | rfl
      | exact hrelease c.countEviction _ _ _ ‹_›
      | (cases oldSize <;> rfl)
  | delete key removed =>
    cases h
    refine ⟨rfl, rfl, ?_⟩
    fun_cases deleteStep c key removed
    all_goals first
      | rfl
      | exact hrelease c _ _ _ ‹_›
  | «exists» key found =>
    cases h
    refine ⟨rfl, rfl, ?_⟩
    fun_cases existsStep c now key found <;> rfl
  | clear emptied =>
    cases h
    refine ⟨rfl, rfl, ?_⟩
    cases emptied <;> rfl
  | returned op inserted reply => cases h

end Thread

namespace MemorySystem

/-- The requests that the cache has counted are the `get`s that have returned. -/
def Counted (s : MemorySystem K V P) : Prop :=
  s.cache.requests = (s.threads.countP Thread.isHit, s.threads.countP Thread.isMiss)

theorem counted_step {s t : MemorySystem K V P} {l : MemoryLabel K V} (h : s.Counted)
    (hstep : Steps s l t) : t.Counted := by
  obtain ⟨op, rfl, rfl⟩ | ⟨i, order, th, r, rfl, hi, hr, rfl⟩ | ⟨now, rfl, hle, rfl⟩ :=
    step_cases hstep
  · have hstart : (Thread.start op).isHit = false ∧ (Thread.start op).isMiss = false := by
      cases op <;> exact ⟨rfl, rfl⟩
    show s.cache.requests = _
    rw [h]
    simp [invoke, hstart.1, hstart.2]
  · obtain ⟨hhit, hmiss, hreq⟩ := Thread.step_requests hr
    have hhits := countP_replace Thread.isHit (b := r.2) hi
    have hmisses := countP_replace Thread.isMiss (b := r.2) hi
    rw [hhit] at hhits
    rw [hmiss] at hmisses
    show r.1.requests = ((s.threads.set i r.2).countP _, (s.threads.set i r.2).countP _)
    rw [hreq, h]
    exact Prod.ext hhits.symm hmisses.symm
  · exact h

/-- **Hits and misses are exact under concurrency.**  However calls interleave on a fresh cache, it has
counted a hit for each `get` that has returned a value and a miss for each that has returned none. -/
theorem requests_counted {cap : Nat} {policy : P} {hcap : 0 < cap} {es : List (MemoryLabel K V)}
    {s : MemorySystem K V P} (hrun : Run Steps (fresh cap policy hcap) es s) :
    s.cache.stats.hits = s.threads.countP Thread.isHit ∧
      s.cache.stats.misses = s.threads.countP Thread.isMiss := by
  have hfresh : (fresh cap policy hcap : MemorySystem K V P).Counted := rfl
  exact Prod.mk.inj (hrun.invariant Counted hfresh fun _ _ _ h hstep => counted_step h hstep)

/-- Two `get`s of key 1 overtake each other and the `set` that stores it. -/
def overtaking : List (MemoryLabel UInt64 UInt64) :=
  [.invoke (.set 1 10 none), .invoke (.get 1), .invoke (.get 1)] ++ runs 1 3 (.id _) ++
    runs 0 8 (.id _) ++ runs 2 6 (.id _)

/-- The state in which the `set` and both `get`s have returned. -/
def overtaken : MemorySystem UInt64 UInt64 (LRU UInt64) :=
  (play MemorySystem.step
    (fresh 16 (LRU.new _ 1024 (Nat.succ_pos (nat_lit 1023))) (Nat.succ_pos (nat_lit 15)))
    overtaking).get (by decide)

theorem requests_counted_overtaken :
    overtaken.cache.stats.hits = overtaken.threads.countP Thread.isHit ∧
      overtaken.cache.stats.misses = overtaken.threads.countP Thread.isMiss := by
  have hrun : Run Steps (fresh 16 (LRU.new _ 1024 (Nat.succ_pos 1023)) (Nat.succ_pos 15)) overtaking
      overtaken := Run.of_play (Option.some_get _).symm
  exact requests_counted hrun

end MemorySystem

/-! ## Several tiers -/

namespace Client

/-- The operation is a `get`. -/
def isGet (cl : Client K V) : Bool :=
  match cl.callOf with
  | .get _ => true
  | .write _ => false

/-- The operation is a `get` that is about to ask tier `i`, or to return none if there is no tier `i`. -/
def isAsking (i : Nat) : Client K V → Bool
  | .searching _ j => j = i
  | _ => false

/-- The operation is a `get` that has returned none. -/
def isMiss : Client K V → Bool
  | .returned (.get _) _ (.ok (.value none)) => true
  | _ => false

end Client

namespace TierSystem

/-- The requests that tier `i` has served and those it has not. -/
def stage (s : TierSystem K V P) (i : Nat) : Option (Nat × Nat) := s.tiers[i]?.map requests

/-- The requests that tier `i` has counted; behind the last tier, the `get`s that returned none. -/
def counted (s : TierSystem K V P) (i : Nat) : Nat :=
  match s.stage i with
  | some r => r.1 + r.2
  | none => s.clients.countP Client.isMiss

/-- The requests sent to tier `i`: the `get`s to the first, and to each further one the misses of the
tier before it. -/
def sent (s : TierSystem K V P) : Nat → Nat
  | 0 => s.clients.countP Client.isGet
  | i + 1 => ((s.stage i).map Prod.snd).getD 0

/-- Every request sent to a tier has been counted there, or belongs to a `get` that is about to ask. -/
structure Arrivals (s : TierSystem K V P) : Prop where
  bounded : ∀ cl ∈ s.clients, ∀ i, cl.isAsking i = true → i ≤ s.tiers.length
  arrive : ∀ i, i ≤ s.tiers.length → s.counted i + s.clients.countP (Client.isAsking i) = s.sent i

section Steps

variable {s t : TierSystem K V P} {c : Nat} {cl cl' : Client K V}

omit [DecidableEq K] [EvictionPolicy K P] [RustSized K] [RustSized V] in
theorem stage_none {i : Nat} (hi : s.tiers.length ≤ i) : s.stage i = none := by
  rw [stage, List.getElem?_eq_none_iff.2 hi, Option.map_none]

omit [DecidableEq K] [EvictionPolicy K P] [RustSized K] [RustSized V] in
theorem counted_of_stage {i : Nat} {r : Nat × Nat} (h : s.stage i = some r) :
    s.counted i = r.1 + r.2 := by
  rw [counted, h]

omit [DecidableEq K] [EvictionPolicy K P] [RustSized K] [RustSized V] in
theorem sent_of_stage {i : Nat} {r : Nat × Nat} (h : s.stage i = some r) : s.sent (i + 1) = r.2 := by
  rw [sent, h, Option.map_some, Option.getD_some]

omit [DecidableEq K] [EvictionPolicy K P] [RustSized K] [RustSized V] in
theorem counted_congr {i : Nat} (h : t.stage i = s.stage i)
    (hmiss : t.clients.countP Client.isMiss = s.clients.countP Client.isMiss) :
    t.counted i = s.counted i := by
  rw [counted, h, hmiss, counted]

omit [DecidableEq K] [EvictionPolicy K P] [RustSized K] [RustSized V] in
theorem sent_congr {i : Nat} (h : ∀ j, i = j + 1 → t.stage j = s.stage j)
    (hget : t.clients.countP Client.isGet = s.clients.countP Client.isGet) : t.sent i = s.sent i := by
  cases i with
  | zero => rw [sent, hget, sent]
  | succ j => rw [sent, h j rfl, sent]

omit [DecidableEq K] [EvictionPolicy K P] [RustSized K] [RustSized V] in
/-- The counters after tier `i` has been replaced. -/
theorem stage_set {i : Nat} {tier tier' : MemoryCache K V P} (hi : s.tiers[i]? = some tier)
    (htiers : t.tiers = s.tiers.set i tier') (j : Nat) :
    t.stage j = if i = j then some tier'.requests else s.stage j := by
  rw [stage, htiers, stage, List.getElem?_set]
  split
  · rw [if_pos (List.getElem?_eq_some_iff.1 hi).1, Option.map_some]
  · rfl

omit [DecidableEq K] [EvictionPolicy K P] [RustSized K] [RustSized V] in
/-- A tier that keeps its counters keeps those of all. -/
theorem stage_keep {i : Nat} {tier tier' : MemoryCache K V P} (hi : s.tiers[i]? = some tier)
    (htiers : t.tiers = s.tiers.set i tier') (hreq : tier'.requests = tier.requests) (j : Nat) :
    t.stage j = s.stage j := by
  rw [stage_set hi htiers]
  split
  · rename_i hij
    subst hij
    rw [stage, hi, Option.map_some, hreq]
  · rfl

omit [DecidableEq K] [EvictionPolicy K P] [RustSized K] [RustSized V] in
/-- A step that counts no request: the client neither asks a tier nor returns none. -/
theorem Arrivals.skip (h : Arrivals s) (hc : s.clients[c]? = some cl)
    (hclients : t.clients = s.clients.set c cl') (hlen : t.tiers.length = s.tiers.length)
    (hstage : ∀ i, t.stage i = s.stage i) (hget : cl'.isGet = cl.isGet)
    (hmiss : cl'.isMiss = cl.isMiss) (hask : ∀ i, cl'.isAsking i = cl.isAsking i) : Arrivals t := by
  have hcount : ∀ p : Client K V → Bool, p cl' = p cl → t.clients.countP p = s.clients.countP p := by
    intro p hp
    have hrep := countP_replace p (b := cl') hc
    rw [hp] at hrep
    rw [hclients]
    omega
  have hbounded : ∀ cl₀ ∈ t.clients, ∀ i, cl₀.isAsking i = true → i ≤ t.tiers.length := by
    intro cl₀ hcl i hi
    rw [hclients] at hcl
    rw [hlen]
    rcases List.mem_or_eq_of_mem_set hcl with hcl | rfl
    · exact h.bounded cl₀ hcl i hi
    · exact h.bounded cl (List.mem_of_getElem? hc) i (hask i ▸ hi)
  refine ⟨hbounded, fun i hi => ?_⟩
  rw [counted_congr (hstage i) (hcount _ hmiss), hcount _ (hask i),
    sent_congr (fun j _ => hstage j) (hcount _ hget)]
  exact h.arrive i (hlen ▸ hi)

omit [RustSized K] [RustSized V] in
/-- A `get` asks a tier, which counts the request and answers it or passes it on. -/
theorem Arrivals.ask (h : Arrivals s) {key : K} {i version : Nat} {tier : MemoryCache K V P}
    {env : Env K} (hc : s.clients[c]? = some (.searching key i)) (hi : s.tiers[i]? = some tier)
    (htiers : t.tiers = s.tiers.set i (tier.get env key).1)
    (hclients : t.clients = s.clients.set c (.afterAsk key i version (tier.get env key).2)) :
    Arrivals t := by
  have hlt := (List.getElem?_eq_some_iff.1 hi).1
  have hlen : t.tiers.length = s.tiers.length := by rw [htiers, List.length_set]
  have hstage := stage_set hi htiers
  have hcount := fun p => countP_replace p (b := .afterAsk key i version (tier.get env key).2) hc
  rw [← hclients] at hcount
  -- the next place of the `get`, with what the tier has counted
  have hnext : (tier.get env key).1.requests.1 + (tier.get env key).1.requests.2 =
        tier.requests.1 + tier.requests.2 + 1 ∧
      (Client.afterAsk key i version (tier.get env key).2).isGet = true ∧
      (Client.afterAsk key i version (tier.get env key).2).isMiss = false ∧
      ∀ j, ((Client.afterAsk key i version (tier.get env key).2).isAsking j = true → j = i + 1) ∧
        (if j = i + 1 then (tier.get env key).1.requests.2 = tier.requests.2 +
          ((Client.afterAsk key i version (tier.get env key).2).isAsking j).toNat else True) := by
    rcases get_requests tier env key with ⟨hnone, hreq⟩ | ⟨v, hsome, hreq⟩
    · rw [hnone, hreq]
      refine ⟨by simp only; omega, rfl, rfl, fun j => ⟨fun hj => ?_, ?_⟩⟩
      · exact (of_decide_eq_true hj).symm
      · split
        · rename_i hj
          simp [Client.afterAsk, Client.isAsking, hj]
        · trivial
    · rw [hsome, hreq]
      refine ⟨by simp only; omega, rfl, rfl, fun j => ⟨fun hj => (by cases hj), ?_⟩⟩
      split <;> trivial
  obtain ⟨htotal, hget, hmiss, hask⟩ := hnext
  have hgets := hcount Client.isGet
  have hmisses := hcount Client.isMiss
  rw [hget] at hgets
  rw [hmiss] at hmisses
  refine ⟨fun cl₀ hcl j hj => ?_, fun j hj => ?_⟩
  · rw [hclients] at hcl
    rw [hlen]
    rcases List.mem_or_eq_of_mem_set hcl with hcl | rfl
    · exact h.bounded cl₀ hcl j hj
    · rw [(hask j).1 hj]
      exact hlt
  · have harr := h.arrive j (hlen ▸ hj)
    have hasks := hcount (Client.isAsking j)
    have hold : s.stage i = some tier.requests := by rw [stage, hi, Option.map_some]
    have hnew : t.stage i = some (tier.get env key).1.requests := by rw [hstage, if_pos rfl]
    have hother : ∀ k, i ≠ k → t.stage k = s.stage k := fun k hk => by rw [hstage, if_neg hk]
    have hmisses' : t.clients.countP Client.isMiss = s.clients.countP Client.isMiss := by
      simpa [Client.isMiss] using hmisses
    have hgets' : t.clients.countP Client.isGet = s.clients.countP Client.isGet := by
      simpa [Client.isGet, Client.callOf] using hgets
    have hpassed := (hask j).2
    by_cases hji : j = i
    · -- the tier that has been asked: one request more, one client less
      subst hji
      have hgone : (Client.afterAsk key j version (tier.get env key).2).isAsking j = false :=
        eq_false_of_ne_true fun hj => absurd ((hask j).1 hj) (by omega)
      have hsent : t.sent j = s.sent j := sent_congr (fun k hk => hother k (by omega)) hgets'
      rw [hgone] at hasks
      rw [counted_of_stage hold] at harr
      rw [counted_of_stage hnew, hsent]
      simp only [Client.isAsking, decide_true, Bool.toNat_true, Bool.toNat_false] at hasks
      omega
    · have hnot : (Client.searching (V := V) key i).isAsking j = false :=
        decide_eq_false (Ne.symm hji)
      rw [hnot] at hasks
      have hcounted : t.counted j = s.counted j := counted_congr (hother j (Ne.symm hji)) hmisses'
      rw [hcounted]
      by_cases hnext : j = i + 1
      · -- the next tier: the client arrives with the miss
        subst hnext
        rw [if_pos rfl] at hpassed
        rw [sent_of_stage hold] at harr
        rw [sent_of_stage hnew]
        simp only [Bool.toNat_false] at hasks
        omega
      · have hgone : (Client.afterAsk key i version (tier.get env key).2).isAsking j = false :=
          eq_false_of_ne_true fun hj => absurd ((hask j).1 hj) hnext
        have hsent : t.sent j = s.sent j := sent_congr (fun k hk => hother k (by omega)) hgets'
        rw [hgone] at hasks
        rw [hsent]
        omega

omit [DecidableEq K] [EvictionPolicy K P] [RustSized K] [RustSized V] in
/-- A `get` that no tier has answered returns none. -/
theorem Arrivals.miss (h : Arrivals s) {key : K} {i : Nat}
    (hc : s.clients[c]? = some (.searching key i)) (hend : s.tiers.length ≤ i)
    (htiers : t.tiers = s.tiers)
    (hclients : t.clients = s.clients.set c (.returned (.get key) 0 (.ok (.value none)))) :
    Arrivals t := by
  have hmem := List.mem_of_getElem? hc
  obtain rfl : i = s.tiers.length :=
    Nat.le_antisymm (h.bounded _ hmem i (decide_eq_true rfl)) hend
  have hlen : t.tiers.length = s.tiers.length := by rw [htiers]
  have hcount := fun p =>
    countP_replace p (b := .returned (.get key) 0 (.ok (.value none))) hc
  rw [← hclients] at hcount
  have hstage : ∀ j, t.stage j = s.stage j := fun j => by rw [stage, htiers, stage]
  have hgets : t.clients.countP Client.isGet = s.clients.countP Client.isGet := by
    simpa [Client.isGet, Client.callOf] using hcount Client.isGet
  have hmisses : t.clients.countP Client.isMiss = s.clients.countP Client.isMiss + 1 := by
    simpa [Client.isMiss] using hcount Client.isMiss
  refine ⟨fun cl₀ hcl j hj => ?_, fun j hj => ?_⟩
  · rw [hclients] at hcl
    rw [hlen]
    rcases List.mem_or_eq_of_mem_set hcl with hcl | rfl
    · exact h.bounded cl₀ hcl j hj
    · cases hj
  · have harr := h.arrive j (hlen ▸ hj)
    have hasks := hcount (Client.isAsking j)
    rw [sent_congr (fun k _ => hstage k) hgets]
    by_cases hj' : j = s.tiers.length
    · -- behind the last tier
      subst hj'
      have hnone := stage_none (s := s) (Nat.le_refl _)
      rw [counted, hnone] at harr
      rw [counted, hstage, hnone]
      simp only [Client.isAsking, decide_true, Bool.toNat_true, Bool.toNat_false] at hasks
      simp only at harr ⊢
      omega
    · have hlt : j < s.tiers.length := by rw [hlen] at hj; omega
      have hsome : s.stage j = some (s.tiers[j]).requests := by
        rw [stage, List.getElem?_eq_getElem hlt, Option.map_some]
      rw [counted_of_stage hsome] at harr
      rw [counted_of_stage (hstage j ▸ hsome)]
      have hnot : (Client.searching (V := V) key s.tiers.length).isAsking j = false :=
        decide_eq_false (Ne.symm hj')
      rw [hnot] at hasks
      simp only [Client.isAsking, Bool.toNat_false] at hasks
      omega

omit [DecidableEq K] [EvictionPolicy K P] [RustSized K] [RustSized V] in
/-- An operation begins. -/
theorem Arrivals.invoke (h : Arrivals s) (call : CacheCall K V) :
    Arrivals ({ s with clients := s.clients ++ [call.start] } : TierSystem K V P) := by
  refine ⟨fun cl hcl i hi => ?_, fun i hi => ?_⟩
  · rcases List.mem_append.1 hcl with hcl | hcl
    · exact h.bounded cl hcl i hi
    · rw [List.mem_singleton.1 hcl] at hi
      cases call with
      | get key =>
        obtain rfl : 0 = i := of_decide_eq_true hi
        exact Nat.zero_le _
      | write w => cases hi
  · have harr := h.arrive i hi
    have hmiss : (CacheCall.start call).isMiss = false := by cases call <;> rfl
    have hcounted : counted ({ s with clients := s.clients ++ [call.start] } : TierSystem K V P) i =
        s.counted i := counted_congr rfl (by simp [hmiss])
    rw [hcounted, List.countP_append, List.countP_singleton]
    cases i with
    | zero =>
      rw [sent] at harr ⊢
      rw [List.countP_append, List.countP_singleton]
      cases call with
      | get key =>
        simp only [CacheCall.start, Client.isAsking, decide_true, if_true, Client.isGet, Client.callOf]
        omega
      | write w =>
        simpa [CacheCall.start, Client.isAsking, Client.isGet, Client.callOf] using harr
    | succ i =>
      have hnot : call.start.isAsking (i + 1) = false := by
        cases call <;> simp [CacheCall.start, Client.isAsking]
      rw [hnot]
      exact harr

/-- **Every step keeps track of every request.** -/
theorem arrivals_step {l : TierLabel K V} (h : Arrivals s) (hstep : Steps s l t) : Arrivals t := by
  cases l with
  | invoke call =>
    cases hstep
    exact h.invoke call
  | call c env =>
    obtain ⟨cl, cl', hc, hclients, hcases⟩ := client_cases hstep
    rcases hcases with ⟨key, i, tier, version, rfl, hi, htiers, rfl⟩ |
      ⟨key, value, version, i, m, tier, rfl, -, hi, htiers, rfl⟩ |
      ⟨w, version, version', i, lastError, tier, rfl, hi, htiers, rfl⟩ | ⟨hend, htiers, rfl⟩
    · exact h.ask hc hi htiers hclients
    · have hkeep := stage_keep hi htiers (set_requests tier env key value none)
      have hlen : t.tiers.length = s.tiers.length := by rw [htiers, List.length_set]
      generalize (tier.set env key value none).2 = o at hclients
      cases o <;> exact h.skip hc hclients hlen hkeep rfl rfl fun _ => rfl
    · have hreq : (w.tierCall tier env).1.requests = tier.requests := by
        cases w with
        | setWithTtl key value ttl => exact set_requests tier env key value (some ttl)
        | delete key => exact delete_requests tier key
      have hlen : t.tiers.length = s.tiers.length := by rw [htiers, List.length_set]
      generalize (w.tierCall tier env).2 = o at hclients
      cases o <;> exact h.skip hc hclients hlen (stage_keep hi htiers hreq) rfl rfl fun _ => rfl
    · have hstage : ∀ j, t.stage j = s.stage j := fun j => by rw [stage, htiers, stage]
      have hlen : t.tiers.length = s.tiers.length := by rw [htiers]
      cases cl with
      | searching key i => exact h.miss hc hend htiers hclients
      | promoting key value version i m => exact h.skip hc hclients hlen hstage rfl rfl fun _ => rfl
      | writing w version i lastError =>
        cases lastError <;> exact h.skip hc hclients hlen hstage rfl rfl fun _ => rfl
      | returned op version reply => exact hend.elim

end Steps

omit [DecidableEq K] [EvictionPolicy K P] [RustSized K] [RustSized V] in
theorem arrivals_fresh {tiers : List (MemoryCache K V P)}
    (hfresh : ∀ tier ∈ tiers, ∃ cap policy h, tier = .withPolicy cap policy h) :
    Arrivals (fresh tiers : TierSystem K V P) := by
  have hzero : ∀ i r, (fresh tiers : TierSystem K V P).stage i = some r → r = (0, 0) := by
    intro i r hr
    obtain ⟨tier, ht, rfl⟩ := Option.map_eq_some_iff.1 hr
    obtain ⟨cap, policy, hcap, rfl⟩ := hfresh tier (List.mem_of_getElem? ht)
    rfl
  have hcounted : ∀ i, (fresh tiers : TierSystem K V P).counted i = 0 := by
    intro i
    unfold counted
    split
    · rename_i r hr
      rw [hzero i r hr]
      rfl
    · rfl
  have hsent : ∀ i, (fresh tiers : TierSystem K V P).sent i = 0 := by
    intro i
    cases i with
    | zero => rfl
    | succ i =>
      cases hr : (fresh tiers : TierSystem K V P).stage i with
      | none => rw [sent, hr]; rfl
      | some r => rw [sent_of_stage hr, hzero i r hr]
  refine ⟨fun cl hcl => absurd hcl List.not_mem_nil, fun i _ => ?_⟩
  rw [hcounted, hsent]
  rfl

/-- **The requests flow down the tiers, whatever the interleaving** of tier calls, each of which is one step.
In every state that any number of clients of fresh tiers, listed once each, can reach: each `get` has been
counted by the first tier or is about to ask it; each miss of a tier has been counted by the next one, or
belongs to a `get` that is about to ask it; and each miss of the last one is a `get` that has returned none or
is about to.  When no operation is in flight the counters of neighbouring tiers agree. -/
theorem requests_flow {tiers : List (MemoryCache K V P)} {es : List (TierLabel K V)}
    {s : TierSystem K V P}
    (hfresh : ∀ tier ∈ tiers, ∃ cap policy h, tier = .withPolicy cap policy h)
    (hrun : Run Steps (fresh tiers) es s) :
    (∀ i, i ≤ s.tiers.length → s.counted i + s.clients.countP (Client.isAsking i) = s.sent i) ∧
      (s.Quiet → ∀ i, i ≤ s.tiers.length → s.counted i = s.sent i) := by
  have h : Arrivals s :=
    hrun.invariant Arrivals (arrivals_fresh hfresh) fun _ _ _ h hstep => arrivals_step h hstep
  refine ⟨h.arrive, fun hquiet i hi => ?_⟩
  have hnone : s.clients.countP (Client.isAsking i) = 0 := by
    refine List.countP_eq_zero.2 fun cl hcl hask => ?_
    have hret := hquiet cl hcl
    cases cl with
    | returned op version reply => cases hask
    | _ => exact hret
  have harr := h.arrive i hi
  omega

/-- After a `set` of key 1, one client gets it and another looks for key 2, in turns. -/
def searchTwice : List (TierLabel UInt64 UInt64) :=
  setFirst ++ [.invoke (.get 1), .invoke (.get 2), next 2, next 1, next 2, next 1, next 2]

/-- The state in which both have returned. -/
def searchedTwice : TierSystem UInt64 UInt64 (BoxedPolicy UInt64) :=
  (play step (fresh smallOverLarge) searchTwice).get (by decide)

theorem requests_flow_searched :
    searchedTwice.counted 0 = searchedTwice.sent 0 ∧ searchedTwice.counted 1 = searchedTwice.sent 1 ∧
      searchedTwice.counted 2 = searchedTwice.sent 2 := by
  have hrun : Run Steps (fresh smallOverLarge) searchTwice searchedTwice :=
    Run.of_play (Option.some_get _).symm
  have hquiet : searchedTwice.Quiet := by decide
  have hflow := (requests_flow smallOverLarge_fresh hrun).2 hquiet
  exact ⟨hflow 0 (by decide), hflow 1 (by decide), hflow 2 (by decide)⟩

end TierSystem

end CacheLayer
