import CacheLayer.MultiTierExpiry
import CacheLayer.MemoryCovered

/-!
# Statistics down the hierarchy

A `get` asks one tier after the other until one answers.  Every tier it asks counts a hit or a miss, and
the next one is asked exactly after a miss; promotion, like every other write, counts neither.

* `Flow n stages m` — of `n` requests, each stage serves its hits and passes its misses on, and `m` leave
  the last one unserved;
* `getLoop_flow` — a `get` sends one more request through the tiers;
* `stats_flow` — so in every run from fresh tiers the counters of neighbouring tiers agree, and those of
  the first and the last with the `get`s of the history.
-/

set_option autoImplicit false

namespace CacheLayer

/-! ## Requests through stages -/

/-- `n` requests arrive; each stage, given as its served and its passed requests, receives what the one
before it has passed on; `m` requests leave the last stage. -/
def Flow : Nat → List (Nat × Nat) → Nat → Prop
  | n, [], m => n = m
  | n, stage :: stages, m => stage.1 + stage.2 = n ∧ Flow stage.2 stages m

namespace Flow

theorem append {m : Nat} {stages' : List (Nat × Nat)} :
    ∀ {stages : List (Nat × Nat)} {n k : Nat}, Flow n stages k → Flow k stages' m →
      Flow n (stages ++ stages') m
  | [], _, _, h, h' => by cases h; exact h'
  | _ :: _, _, _, h, h' => ⟨h.1, append h.2 h'⟩

/-- Whatever arrives is served by some stage or leaves the last one. -/
theorem sum_eq : ∀ {stages : List (Nat × Nat)} {n m : Nat}, Flow n stages m →
    (stages.map Prod.fst).sum + m = n
  | [], _, _, h => by cases h; simp
  | stage :: stages, n, m, h => by
    have ih := sum_eq h.2
    have hstage := h.1
    simp only [List.map_cons, List.sum_cons]
    omega

/-- Neighbouring stages. -/
theorem next : ∀ {stages : List (Nat × Nat)} {n m : Nat} (_ : Flow n stages m) {i : Nat}
    {a b : Nat × Nat}, stages[i]? = some a → stages[i + 1]? = some b → b.1 + b.2 = a.2
  | [], _, _, _, i, a, b, ha, _ => by simp at ha
  | [_], _, _, _, i, a, b, _, hb => by simp at hb
  | stage :: stage' :: stages, _, _, h, 0, a, b, ha, hb => by
    cases ha
    cases hb
    exact h.2.1
  | stage :: stage' :: stages, _, _, h, i + 1, a, b, ha, hb => by
    rw [List.getElem?_cons_succ] at ha hb
    exact next h.2 ha hb

theorem last : ∀ {stages : List (Nat × Nat)} {n m : Nat} (_ : Flow n stages m) {a : Nat × Nat},
    stages.getLast? = some a → a.2 = m
  | [], _, _, _, a, ha => by cases ha
  | [stage], _, _, h, a, ha => by
    cases ha
    exact h.2
  | stage :: stage' :: stages, _, _, h, a, ha => by
    rw [List.getLast?_cons_cons] at ha
    exact last h.2 ha

end Flow

/-! ## One tier -/

namespace MemoryCache

variable {K V P : Type}

/-- The requests a tier has served and those it has not. -/
def requests (c : MemoryCache K V P) : Nat × Nat := (c.stats.hits, c.stats.misses)

theorem releaseEntry_requests (c : MemoryCache K V P) (n : Nat) :
    (c.releaseEntry n).1.requests = c.requests := by
  unfold releaseEntry; simp only; split <;> rfl

variable [DecidableEq K]

theorem dropVictim_requests (c : MemoryCache K V P) (key : K) :
    (c.dropVictim key).1.requests = c.requests := by
  unfold dropVictim
  split
  · exact releaseEntry_requests _ _
  · rfl

theorem takeOld_requests (c : MemoryCache K V P) (key : K) :
    (c.takeOld key).1.requests = c.requests := by
  unfold takeOld; split <;> rfl

theorem delete_requests (c : MemoryCache K V P) (key : K) :
    (c.delete key).1.requests = c.requests := by
  unfold delete
  split
  · rename_i entry _
    have hr := releaseEntry_requests (c.removeEntry key) entry.sizeBytes
    split
    all_goals rename_i heq; rw [heq] at hr; exact hr
  · rfl

variable [EvictionPolicy K P]

theorem evictForSpace_requests (c : MemoryCache K V P) (o : HashOrder K) (n : Nat) :
    (c.evictForSpace o n).1.requests = c.requests := by
  have hdrop : ∀ (c₁ c₂ : MemoryCache K V P) key policy out, c₁.requests = c.requests →
      (c₁.setPolicy policy).dropVictim key = (c₂, out) → c₂.requests = c.requests := by
    intro c₁ c₂ key policy out h₁ hdrop
    have hr := dropVictim_requests (c₁.setPolicy policy) key
    rw [hdrop] at hr
    exact hr.trans h₁
  have hhead : ∀ c', LoopHead o n c c' → c'.requests = c.requests := fun c' hh =>
    hh.invariant (fun c' => c'.requests = c.requests) rfl
      fun c₁ c₂ key policy hI _ _ hd => hdrop c₁ c₂ key policy none hI hd
  rcases evictForSpace_cases c o n with ⟨c', hh, -, he⟩ | ⟨c', policy, hh, -, -, he⟩ |
    ⟨c', key, policy, c'', p, hh, -, -, hd, he⟩
  · rw [he]; exact hhead c' hh
  · rw [he]; exact hhead c' hh
  · rw [he]; exact hdrop c' c'' key policy (some p) (hhead c' hh) hd

/-- `set` counts neither a hit nor a miss. -/
theorem set_requests [RustSized K] [RustSized V] (c : MemoryCache K V P) (env : Env K) (key : K)
    (value : V) (ttl : Option Duration) : (c.set env key value ttl).1.requests = c.requests := by
  have hloop := evictForSpace_requests (c.takeOld key).1 env.order (entrySize K V)
  rw [takeOld_requests] at hloop
  rcases set_cases c env key value ttl with ⟨c', hev, -, hs⟩ | ⟨c', hev, -, hs⟩ |
    ⟨c', e, hev, hs⟩ | ⟨c', p, hev, hs⟩
  · rw [hev] at hloop
    rw [hs, ← hloop]
    unfold store requests
    cases (c.takeOld key).2 <;> rfl
  all_goals
    rw [hev] at hloop
    rw [hs]
    exact hloop

/-- `get` counts a hit if it returns a value, and a miss if it returns none. -/
theorem get_requests (c : MemoryCache K V P) (env : Env K) (key : K) :
    ((c.get env key).2 = .ok none ∧
      (c.get env key).1.requests = (c.requests.1, c.requests.2 + 1)) ∨
    ∃ v, (c.get env key).2 = .ok (some v) ∧
      (c.get env key).1.requests = (c.requests.1 + 1, c.requests.2) := by
  rcases get_cases c env key with ⟨e, _, _, hg⟩ | ⟨e, _, _, hg⟩ | ⟨_, hg⟩
  · rw [hg]
    exact Or.inl ⟨rfl, rfl⟩
  · rw [hg]
    exact Or.inr ⟨e.value, rfl, rfl⟩
  · rw [hg]
    exact Or.inl ⟨rfl, rfl⟩

end MemoryCache

/-! ## The hierarchy -/

open MemoryCache MultiTierCache

variable {K V P : Type} [DecidableEq K] [EvictionPolicy K P] [RustSized K] [RustSized V]

/-- Tiers whose counters cover what they hold stay so. -/
theorem getLoop_covered (envs : Nat → Env K) (key : K) {tiers : List (MemoryCache K V P)}
    (h : ∀ tier ∈ tiers, Covered tier) : ∀ tier ∈ (getLoop envs key 0 [] tiers).1, Covered tier :=
  (getLoop_inv envs Covered key (fun _ => True)
    (fun n _ ht => ⟨(ht.get (envs n) key).1, fun _ _ => trivial⟩)
    (fun n _ v ht _ => ht.set (envs n) key v none) tiers [] 0 (fun _ ht => absurd ht List.not_mem_nil)
    h).1

/-- **A `get` sends one more request through the tiers.**  `faster` has been asked and has passed it on;
whatever `rest` then does, the request is served by one tier or leaves the last. -/
theorem getLoop_flow (envs : Nat → Env K) (key : K) {N M : Nat} :
    ∀ (rest faster : List (MemoryCache K V P)) (n k : Nat), (∀ tier ∈ faster, Covered tier) →
      (∀ tier ∈ rest, Covered tier) → Flow (N + 1) (faster.map requests) (k + 1) →
      Flow k (rest.map requests) M →
      ((getLoop envs key n faster rest).2 = .ok none ∧
        Flow (N + 1) ((getLoop envs key n faster rest).1.map requests) (M + 1)) ∨
      ∃ v, (getLoop envs key n faster rest).2 = .ok (some v) ∧
        Flow (N + 1) ((getLoop envs key n faster rest).1.map requests) M
  | [], faster, n, k, _, _, hfast, hrest => by
    obtain rfl : k = M := hrest
    exact Or.inl ⟨rfl, hfast⟩
  | tier :: rest, faster, n, k, hcf, hcr, hfast, hrest => by
    obtain ⟨hcov, -⟩ := (hcr tier List.mem_cons_self).get (envs n) key
    have hcr' : ∀ t ∈ rest, Covered t := fun t ht => hcr t (List.mem_cons_of_mem _ ht)
    obtain ⟨harrive, hrest⟩ := hrest
    rcases get_requests tier (envs n) key with ⟨hnone, hreq⟩ | ⟨v, hsome, hreq⟩
    · have hpair : Tier.get tier (envs n) key = ((tier.get (envs n) key).1, .ok none) :=
        Prod.ext rfl hnone
      rw [getLoop_miss faster rest hpair]
      refine getLoop_flow envs key rest _ (n + 1) tier.requests.2
        (List.forall_mem_append.2 ⟨hcf, List.forall_mem_singleton.2 hcov⟩) hcr' ?_ hrest
      rw [List.map_append]
      refine hfast.append ⟨?_, ?_⟩
      · rw [hreq]
        show tier.requests.1 + (tier.requests.2 + 1) = k + 1
        omega
      · rw [hreq]
        rfl
    · have hpair : Tier.get tier (envs n) key = ((tier.get (envs n) key).1, .ok (some v)) :=
        Prod.ext rfl hsome
      have hreturns : ∀ m (t : MemoryCache K V P), Covered t →
          (Tier.set t (envs m) key v none).2.Returned := fun m t ht =>
        ht.set_returned (envs m) key v (representable_none _)
      refine Or.inr ⟨v, ?_⟩
      rw [getLoop, hpair]
      simp only [promote_eq hreturns (n + 1) faster hcf, List.map_append]
      refine ⟨trivial, ?_⟩
      rw [eachTier_map requests fun m t => set_requests t (envs m) key v none]
      refine hfast.append ⟨?_, ?_⟩
      · rw [hreq]
        show tier.requests.1 + 1 + tier.requests.2 = k + 1
        omega
      · rw [hreq]
        exact hrest

/-! ## Runs -/

/-- The call is a `get`. -/
def CacheEvent.isGet (e : CacheEvent K V) : Bool :=
  match e.op with
  | .get _ => true
  | _ => false

/-- The call is a `get` that returned `Some`. -/
def CacheEvent.isHit (e : CacheEvent K V) : Bool :=
  match e.op, e.reply with
  | .get _, .ok (.value (some _)) => true
  | _, _ => false

/-- The call is a `get` that returned `None`. -/
def CacheEvent.isMiss (e : CacheEvent K V) : Bool :=
  match e.op, e.reply with
  | .get _, .ok (.value none) => true
  | _, _ => false

theorem countP_snoc {α : Type} (p : α → Bool) (l : List α) (a : α) :
    (l ++ [a]).countP p = l.countP p + if p a then 1 else 0 := by
  rw [List.countP_append, List.countP_singleton]

/-- The `get`s of the history have gone through the tiers, and each has ended in a hit or in a miss. -/
structure Conserved (es : List (CacheEvent K V)) (tiers : List (MemoryCache K V P)) : Prop where
  covered : ∀ tier ∈ tiers, Covered tier
  flow : Flow (es.countP (·.isGet)) (tiers.map requests) (es.countP (·.isMiss))
  answered : es.countP (·.isHit) + es.countP (·.isMiss) = es.countP (·.isGet)

namespace Conserved

variable {es : List (CacheEvent K V)} {s t : CacheSession (MemoryCache K V P)} {e : CacheEvent K V}

omit [EvictionPolicy K P] in
/-- A call that counts no request. -/
theorem skip (h : Conserved es s.cache.tiers) (hop : ∀ key, e.op ≠ .get key)
    (hcov : ∀ tier ∈ t.cache.tiers, Covered tier)
    (hreq : t.cache.tiers.map requests = s.cache.tiers.map requests) :
    Conserved (es ++ [e]) t.cache.tiers := by
  have hget : e.isGet = false := by
    unfold CacheEvent.isGet
    split
    · rename_i key heq
      exact absurd heq (hop key)
    · rfl
  have hhit : e.isHit = false := by
    unfold CacheEvent.isHit
    split
    · rename_i key _ heq _
      exact absurd heq (hop key)
    · rfl
  have hmiss : e.isMiss = false := by
    unfold CacheEvent.isMiss
    split
    · rename_i key heq _
      exact absurd heq (hop key)
    · rfl
  have hflow := h.flow
  have hans := h.answered
  refine ⟨hcov, ?_, ?_⟩
  · rw [hreq, countP_snoc, countP_snoc, hget, hmiss]
    exact hflow
  · rw [countP_snoc, countP_snoc, countP_snoc, hget, hhit, hmiss]
    exact hans

theorem get (h : Conserved es s.cache.tiers) (hstep : CacheStep s e t) {key : K}
    (hop : e.op = .get key) : Conserved (es ++ [e]) t.cache.tiers := by
  have hexec := hstep.exec_eq
  rw [hop] at hexec
  obtain ⟨hc, hreply⟩ := Prod.mk.inj hexec
  have hcov := getLoop_covered e.envs key h.covered
  have hflow := getLoop_flow e.envs key s.cache.tiers [] 0 (es.countP (·.isGet))
    (fun _ ht => absurd ht List.not_mem_nil) h.covered rfl h.flow
  have hget : e.isGet = true := by unfold CacheEvent.isGet; rw [hop]
  have hans := h.answered
  rw [← hc]
  replace hreply : (getLoop e.envs key 0 [] s.cache.tiers).2.map Reply.value = e.reply := hreply
  rcases hflow with ⟨hout, hflow⟩ | ⟨v, hout, hflow⟩
  · rw [hout] at hreply
    have hhit : e.isHit = false := by unfold CacheEvent.isHit; rw [hop, ← hreply]; rfl
    have hmiss : e.isMiss = true := by unfold CacheEvent.isMiss; rw [hop, ← hreply]; rfl
    refine ⟨hcov, ?_, ?_⟩
    · rw [countP_snoc, countP_snoc, hget, hmiss]
      exact hflow
    · rw [countP_snoc, countP_snoc, countP_snoc, hget, hhit, hmiss]
      simp only [Bool.false_eq_true, if_false, if_true]
      omega
  · rw [hout] at hreply
    have hhit : e.isHit = true := by unfold CacheEvent.isHit; rw [hop, ← hreply]; rfl
    have hmiss : e.isMiss = false := by unfold CacheEvent.isMiss; rw [hop, ← hreply]; rfl
    refine ⟨hcov, ?_, ?_⟩
    · rw [countP_snoc, countP_snoc, hget, hmiss]
      exact hflow
    · rw [countP_snoc, countP_snoc, countP_snoc, hget, hhit, hmiss]
      simp only [Bool.false_eq_true, if_false, if_true]
      omega

theorem setWithTtl (h : Conserved es s.cache.tiers) {key : K} {value : V} {ttl : Duration}
    (hop : ∀ key, e.op ≠ .get key) (hc : (s.cache.setWithTtl e.envs key value ttl).1 = t.cache) :
    Conserved (es ++ [e]) t.cache.tiers := by
  rw [← hc]
  refine h.skip (t := ⟨_, t.clock⟩) hop ?_ ?_
  · exact eachTier_inv (I := Covered)
      (fun n _ ht => ht.set (e.envs n) key value (some ttl)) _ 0 none h.covered
  · exact eachTier_map requests
      (fun n tier => set_requests tier (e.envs n) key value (some ttl)) _ 0 none

/-- **Every call conserves the requests.** -/
theorem step (h : Conserved es s.cache.tiers) (hstep : CacheStep s e t) :
    Conserved (es ++ [e]) t.cache.tiers := by
  have hexec := hstep.exec_eq
  cases hop : e.op with
  | get key => exact h.get hstep hop
  | set key value =>
    rw [hop] at hexec
    exact h.setWithTtl (by rw [hop]; exact nofun) (Prod.mk.inj hexec).1
  | setWithTtl key value ttl =>
    rw [hop] at hexec
    exact h.setWithTtl (by rw [hop]; exact nofun) (Prod.mk.inj hexec).1
  | delete key =>
    rw [hop] at hexec
    have hc := (Prod.mk.inj hexec).1
    rw [← hc]
    refine h.skip (t := ⟨_, t.clock⟩) (by rw [hop]; exact nofun) ?_ ?_
    · exact eachTier_inv (I := Covered) (fun _ _ ht => (ht.delete key).1) _ 0 none h.covered
    · exact eachTier_map requests (fun _ tier => delete_requests tier key) _ 0 none
  | «exists» key =>
    rw [hop] at hexec
    have hc := (Prod.mk.inj hexec).1
    have htiers : t.cache.tiers = s.cache.tiers := by
      rw [← hc]
      exact congrArg Prod.fst (existsLoop_eq e.envs key s.cache.tiers 0)
    refine h.skip (by rw [hop]; exact nofun) ?_ ?_
    · rw [htiers]; exact h.covered
    · rw [htiers]

end Conserved

theorem conserved_of_run {tiers : List (MemoryCache K V P)} {es : List (CacheEvent K V)}
    {s : CacheSession (MemoryCache K V P)}
    (hfresh : ∀ tier ∈ tiers, ∃ cap policy h, tier = .withPolicy cap policy h)
    (hrun : Run CacheStep ⟨⟨tiers⟩, 0⟩ es s) : Conserved es s.cache.tiers := by
  induction hrun with
  | nil =>
    refine ⟨?_, ?_, rfl⟩
    · intro tier ht
      obtain ⟨cap, policy, hcap, rfl⟩ := hfresh tier ht
      exact Covered.withPolicy cap policy hcap
    · -- a fresh tier has counted nothing
      show Flow 0 (tiers.map requests) 0
      induction tiers with
      | nil => rfl
      | cons tier tiers ih =>
        obtain ⟨cap, policy, hcap, rfl⟩ := hfresh tier List.mem_cons_self
        exact ⟨rfl, ih fun t ht => hfresh t (List.mem_cons_of_mem _ ht)⟩
  | snoc _ hstep ih => exact ih.step hstep

/-- **Statistics are conserved down the hierarchy.**  In every state of every run from fresh tiers of any
capacities and policies: the first tier has counted one request for every `get`, each further tier one
for every miss of the tier before it; the hits of all tiers are the `get`s that returned `Some`, and the
misses of the last one the `get`s that returned `None`. -/
theorem stats_flow {tiers : List (MemoryCache K V P)} {es : List (CacheEvent K V)}
    {s : CacheSession (MemoryCache K V P)}
    (hfresh : ∀ tier ∈ tiers, ∃ cap policy h, tier = .withPolicy cap policy h)
    (hrun : Run CacheStep ⟨⟨tiers⟩, 0⟩ es s) :
    s.cache.stats.length = tiers.length ∧
    (∀ first, s.cache.stats[0]? = some first → first.totalRequests = es.countP (·.isGet)) ∧
    (∀ i a b, s.cache.stats[i]? = some a → s.cache.stats[i + 1]? = some b →
      b.totalRequests = a.misses) ∧
    (s.cache.stats.map (·.hits)).sum = es.countP (·.isHit) ∧
    ∀ last, s.cache.stats.getLast? = some last → last.misses = es.countP (·.isMiss) := by
  obtain ⟨-, hflow, hans⟩ := conserved_of_run hfresh hrun
  have hmap : s.cache.tiers.map requests =
      s.cache.stats.map fun stats => (stats.hits, stats.misses) := by
    unfold MultiTierCache.stats
    rw [List.map_map]
    rfl
  rw [hmap] at hflow
  refine ⟨?_, ?_, ?_, ?_, ?_⟩
  · unfold MultiTierCache.stats
    rw [List.length_map]
    exact numTiers_of_run hrun
  · intro first hfirst
    cases hstats : s.cache.stats with
    | nil => rw [hstats] at hfirst; cases hfirst
    | cons a rest =>
      rw [hstats] at hfirst hflow
      cases hfirst
      exact hflow.1
  · intro i a b ha hb
    have hlook : ∀ {j : Nat} {x : TierStats}, s.cache.stats[j]? = some x →
        (s.cache.stats.map fun stats => (stats.hits, stats.misses))[j]? = some (x.hits, x.misses) :=
      fun hx => by rw [List.getElem?_map, hx]; rfl
    exact hflow.next (hlook ha) (hlook hb)
  · have hsum := hflow.sum_eq
    rw [List.map_map] at hsum
    replace hsum : (s.cache.stats.map (·.hits)).sum + es.countP (·.isMiss) =
      es.countP (·.isGet) := hsum
    omega
  · intro last hlast
    refine hflow.last (a := (last.hits, last.misses)) ?_
    rw [List.getLast?_map, hlast]
    rfl

/-- A value is evicted from the first of two tiers, found in the second, promoted and found again; then
a key is asked that no tier has. -/
def hierarchyCalls : List (Env UInt64 × CacheOp UInt64 UInt64) :=
  [(⟨0, .id _⟩, .set 1 10), (⟨1, .id _⟩, .set 2 20), (⟨2, .id _⟩, .get 1), (⟨3, .id _⟩, .get 1),
    (⟨4, .id _⟩, .get 3)]

/-- A small tier over a large one. -/
def narrowOverWide : CacheSession (MemoryCache UInt64 UInt64 (LRU UInt64)) :=
  ⟨⟨[.withPolicy 16 (LRU.new _ 1024 (Nat.succ_pos (nat_lit 1023))) (Nat.succ_pos (nat_lit 15)),
    .withPolicy 1024 (LRU.new _ 1024 (Nat.succ_pos (nat_lit 1023))) (Nat.succ_pos (nat_lit 1023))]⟩, 0⟩

/-- Two of the three `get`s returned a value, and one hit was counted in each tier. -/
theorem stats_flow_after_promotion :
    (((narrowOverWide.script hierarchyCalls).2.cache.stats).map (·.hits)).sum = 2 ∧
      (narrowOverWide.script hierarchyCalls).2.cache.stats.map (fun s => (s.hits, s.misses)) =
        [(1, 2), (1, 1)] := by
  have hrun : Run (Guarded (fun _ _ => True) CacheStep) narrowOverWide _ _ :=
    cacheRun_script hierarchyCalls narrowOverWide (by decide)
  have hhits := (stats_flow (fun _ ht => withPolicy_pair ht) hrun.of_guarded).2.2.2.1
  exact ⟨hhits.trans (by decide), by decide⟩

end CacheLayer
