import CacheLayer.MultiTierCoherence

/-!
# Concurrent clients of a multi-tier cache

Any number of clients call `get`, `set_with_ttl` and `delete` on shared tiers; each tier call is one
atomic step (`TierSystem.call`), and so is the return of an operation whose loop has ended.

Two history variables record what the steps do and no step depends on them: `writes k`, the values
written for `k` in the order in which the writes reached the first tier (`none` for a `delete`), and
`applied i k`, how many of these the `i`th tier has seen.  The version of a write is its place in
`writes`; a promotion has the version of the copy it was read from.

* `Client` — an operation with the place its loop has reached;
* `TierSystem.call` — its next tier call, `TierSystem.step` — a step of the whole system;
* `run_exec` — an operation that nobody interrupts does what the method of `MultiTier` does.
-/

set_option autoImplicit false

namespace CacheLayer

variable {K V P : Type}

/-! ## The machine -/

/-- A write operation of a client. -/
inductive CacheWrite (K V : Type) where
  | setWithTtl (key : K) (value : V) (ttl : Duration)
  | delete (key : K)

/-- An operation of a client. -/
inductive CacheCall (K V : Type) where
  | get (key : K)
  | write (w : CacheWrite K V)

/-- Where an operation is.  `searching key i`: a `get` about to ask tier `i`; `promoting key v n i m`:
a `get` that found `v` (version `n`) in tier `m`, about to write it to tier `i`; `writing w n i e`: a
write (version `n`) about to reach tier `i`, with its last error. -/
inductive Client (K V : Type) where
  | searching (key : K) (i : Nat)
  | promoting (key : K) (value : V) (version i m : Nat)
  | writing (w : CacheWrite K V) (version i : Nat) (lastError : Option CacheError)
  | returned (call : CacheCall K V) (version : Nat) (reply : Outcome (Reply V))

/-- The tiers, the clients, the last reading of the clock, and the history variables. -/
structure TierSystem (K V P : Type) where
  tiers : List (MemoryCache K V P)
  clients : List (Client K V)
  clock : Instant
  writes : K → List (Option V)
  applied : Nat → K → Nat

/-- A client starts an operation, or takes its next step. -/
inductive TierLabel (K V : Type) where
  | invoke (call : CacheCall K V)
  | call (client : Nat) (env : Env K)

namespace CacheWrite

def key : CacheWrite K V → K
  | .setWithTtl key _ _ => key
  | .delete key => key

/-- The value the write leaves, `none` for a `delete`. -/
def value : CacheWrite K V → Option V
  | .setWithTtl _ value _ => some value
  | .delete _ => none

/-- The tier call of the write. -/
def tierCall [DecidableEq K] [EvictionPolicy K P] [RustSized K] [RustSized V] (w : CacheWrite K V)
    (tier : MemoryCache K V P) (env : Env K) : MemoryCache K V P × Outcome Unit :=
  match w with
  | .setWithTtl key value ttl => tier.set env key value (some ttl)
  | .delete key => tier.delete key

end CacheWrite

/-- The operation is a `set_with_ttl` of `key`. -/
def CacheCall.SetsKey (key : K) : CacheCall K V → Prop
  | .write (.setWithTtl k _ _) => k = key
  | _ => False

instance [DecidableEq K] (key : K) (call : CacheCall K V) : Decidable (call.SetsKey key) :=
  match call with
  | .write (.setWithTtl k _ _) => inferInstanceAs (Decidable (k = key))
  | .write (.delete _) => isFalse id
  | .get _ => isFalse id

/-- The first state of an operation. -/
def CacheCall.start : CacheCall K V → Client K V
  | .get key => .searching key 0
  | .write w => .writing w 0 0 none

namespace Client

/-- The operation has returned. -/
def Returned : Client K V → Prop
  | .returned _ _ _ => True
  | _ => False

instance : (cl : Client K V) → Decidable cl.Returned
  | .returned _ _ _ => isTrue trivial
  | .searching _ _ => isFalse id
  | .promoting _ _ _ _ _ => isFalse id
  | .writing _ _ _ _ => isFalse id

/-- The operation itself. -/
def callOf : Client K V → CacheCall K V
  | .searching key _ => .get key
  | .promoting key _ _ _ _ => .get key
  | .writing w _ _ _ => .write w
  | .returned call _ _ => call

end Client

namespace TierSystem

/-- Replace the state of a tier. -/
def putTier (s : TierSystem K V P) (i : Nat) (tier : MemoryCache K V P) : TierSystem K V P :=
  { s with tiers := s.tiers.set i tier }

/-- Replace the state of a client. -/
def putClient (s : TierSystem K V P) (c : Nat) (cl : Client K V) : TierSystem K V P :=
  { s with clients := s.clients.set c cl }

/-- The initial state on these tiers. -/
def fresh (tiers : List (MemoryCache K V P)) : TierSystem K V P :=
  ⟨tiers, [], 0, fun _ => [], fun _ _ => 0⟩

/-- No operation is in flight. -/
def Quiet (s : TierSystem K V P) : Prop := ∀ cl ∈ s.clients, cl.Returned

variable [DecidableEq K]

/-- History: tier `i` sees version `n` of `key`. -/
def apply (s : TierSystem K V P) (i : Nat) (key : K) (n : Nat) : TierSystem K V P :=
  { s with applied := fun j k => if j = i ∧ k = key then max (s.applied j k) n else s.applied j k }

/-- History: a write reaches the first tier. -/
def commit (s : TierSystem K V P) (w : CacheWrite K V) : TierSystem K V P :=
  { s with writes := fun k => if k = w.key then s.writes k ++ [w.value] else s.writes k }

/-- The version of a write at tier `i`: assigned there if `i` is the first. -/
def versionAt (s : TierSystem K V P) (w : CacheWrite K V) (version i : Nat) : Nat :=
  if i = 0 then (s.writes w.key).length + 1 else version

/-- History: a write reaches tier `i`. -/
def reach (s : TierSystem K V P) (w : CacheWrite K V) (version i : Nat) : TierSystem K V P :=
  (if i = 0 then s.commit w else s).apply i w.key (s.versionAt w version i)

variable [EvictionPolicy K P] [RustSized K] [RustSized V]

/-- The next step of client `c`: its next tier call, or its return. -/
def call (s : TierSystem K V P) (c : Nat) (env : Env K) : Option (TierSystem K V P) :=
  match s.clients[c]? with
  | some (.searching key i) =>
    match s.tiers[i]? with
    | none => some (s.putClient c (.returned (.get key) 0 (.ok (.value none))))
    | some tier =>
      match tier.get env key with
      | (tier, .ok (some value)) =>
        some ((s.putTier i tier).putClient c (.promoting key value (s.applied i key) 0 i))
      | (tier, .ok none) => some ((s.putTier i tier).putClient c (.searching key (i + 1)))
      | (tier, .err _) => some ((s.putTier i tier).putClient c (.searching key (i + 1)))
      | (tier, .panic p) => some ((s.putTier i tier).putClient c (.returned (.get key) 0 (.panic p)))
  | some (.promoting key value version i m) =>
    match (s.tiers.take m)[i]? with
    | none => some (s.putClient c (.returned (.get key) 0 (.ok (.value (some value)))))
    | some tier =>
      match tier.set env key value none with
      | (tier, .panic p) =>
        some (((s.putTier i tier).apply i key version).putClient c
          (.returned (.get key) 0 (.panic p)))
      | (tier, _) =>
        some (((s.putTier i tier).apply i key version).putClient c
          (.promoting key value version (i + 1) m))
  | some (.writing w version i lastError) =>
    match s.tiers[i]? with
    | none =>
      match lastError with
      | none => some (s.putClient c (.returned (.write w) version (.ok .unit)))
      | some e => some (s.putClient c (.returned (.write w) version (.err e)))
    | some tier =>
      match w.tierCall tier env with
      | (tier, .ok _) =>
        some (((s.putTier i tier).reach w version i).putClient c
          (.writing w (s.versionAt w version i) (i + 1) lastError))
      | (tier, .err e) =>
        some (((s.putTier i tier).reach w version i).putClient c
          (.writing w (s.versionAt w version i) (i + 1) (some e)))
      | (tier, .panic p) =>
        some (((s.putTier i tier).reach w version i).putClient c
          (.returned (.write w) (s.versionAt w version i) (.panic p)))
  | some (.returned _ _ _) => none
  | none => none

/-- One step. -/
def step (s : TierSystem K V P) : TierLabel K V → Option (TierSystem K V P)
  | .invoke call => some { s with clients := s.clients ++ [call.start] }
  | .call c env => if s.clock ≤ env.now then { s with clock := env.now }.call c env else none

/-- The step relation. -/
def Steps (s : TierSystem K V P) (l : TierLabel K V) (t : TierSystem K V P) : Prop :=
  s.step l = some t

omit [EvictionPolicy K P] [RustSized K] [RustSized V] in
@[simp] theorem reach_tiers (s : TierSystem K V P) (w : CacheWrite K V) (n i : Nat) :
    (s.reach w n i).tiers = s.tiers := by
  unfold reach
  by_cases hi : i = 0 <;> simp [hi, apply, commit]

omit [EvictionPolicy K P] [RustSized K] [RustSized V] in
@[simp] theorem reach_clients (s : TierSystem K V P) (w : CacheWrite K V) (n i : Nat) :
    (s.reach w n i).clients = s.clients := by
  unfold reach
  by_cases hi : i = 0 <;> simp [hi, apply, commit]

omit [EvictionPolicy K P] [RustSized K] [RustSized V] in
@[simp] theorem reach_clock (s : TierSystem K V P) (w : CacheWrite K V) (n i : Nat) :
    (s.reach w n i).clock = s.clock := by
  unfold reach
  by_cases hi : i = 0 <;> simp [hi, apply, commit]

end TierSystem

/-! ## An operation that runs alone -/

/-- The operation as a call of the sequential model. -/
def CacheCall.op : CacheCall K V → CacheOp K V
  | .get key => .get key
  | .write (.setWithTtl key value ttl) => .setWithTtl key value ttl
  | .write (.delete key) => .delete key

namespace TierSystem

open MultiTierCache

variable [DecidableEq K] [EvictionPolicy K P] [RustSized K] [RustSized V]

/-- `n` steps of client `c`, from the `i`th environment on. -/
def calls (c : Nat) (envs : Nat → Env K) (i n : Nat) : List (TierLabel K V) :=
  (List.range' i n).map fun j => .call c (envs j)

/-- The next step of client `c` leaves these tiers and takes the client there. -/
def Leaves (s : TierSystem K V P) (c : Nat) (env : Env K) (tiers : List (MemoryCache K V P))
    (cl : Client K V) : Prop :=
  ∃ t, s.step (.call c env) = some t ∧ t.tiers = tiers ∧ t.clients = s.clients.set c cl ∧
    t.clock = env.now

/-- From `s` on, client `c` alone ends its operation with these tiers and this reply. -/
def Finishes (s : TierSystem K V P) (c : Nat) (envs : Nat → Env K) (i : Nat) (op : CacheCall K V)
    (r : List (MemoryCache K V P) × Outcome (Reply V)) : Prop :=
  ∃ n version t, Run Steps s (calls c envs i n) t ∧ t.tiers = r.1 ∧
    t.clients = s.clients.set c (.returned op version r.2)

variable {s : TierSystem K V P} {c : Nat} {env : Env K} {envs : Nat → Env K}

theorem leaves_writing {w : CacheWrite K V} {version i : Nat} {lastError : Option CacheError}
    {tier : MemoryCache K V P} (hclock : s.clock ≤ env.now)
    (hc : s.clients[c]? = some (.writing w version i lastError)) (hi : s.tiers[i]? = some tier) :
    s.Leaves c env (s.tiers.set i (w.tierCall tier env).1)
      (match (w.tierCall tier env).2 with
        | .ok _ => .writing w (s.versionAt w version i) (i + 1) lastError
        | .err e => .writing w (s.versionAt w version i) (i + 1) (some e)
        | .panic p => .returned (.write w) (s.versionAt w version i) (.panic p)) := by
  simp only [Leaves, step, hclock, if_true, call, hc, hi]
  generalize w.tierCall tier env = r
  obtain ⟨tier', _ | _ | _⟩ := r
  all_goals
    refine ⟨_, rfl, ?_, ?_, ?_⟩
    · simp [putTier, putClient]
    · simp [putTier, putClient, versionAt]
    · simp [putTier, putClient]

theorem leaves_promoting {key : K} {value : V} {version i m : Nat} {tier : MemoryCache K V P}
    (hclock : s.clock ≤ env.now)
    (hc : s.clients[c]? = some (.promoting key value version i m))
    (hi : (s.tiers.take m)[i]? = some tier) :
    s.Leaves c env (s.tiers.set i (tier.set env key value none).1)
      (match (tier.set env key value none).2 with
        | .panic p => .returned (.get key) 0 (.panic p)
        | _ => .promoting key value version (i + 1) m) := by
  simp only [Leaves, step, hclock, if_true, call, hc, hi]
  generalize tier.set env key value none = r
  obtain ⟨tier', _ | _ | _⟩ := r
  all_goals exact ⟨_, rfl, rfl, rfl, rfl⟩

theorem leaves_searching {key : K} {i : Nat} {tier : MemoryCache K V P} (hclock : s.clock ≤ env.now)
    (hc : s.clients[c]? = some (.searching key i)) (hi : s.tiers[i]? = some tier) :
    s.Leaves c env (s.tiers.set i (tier.get env key).1)
      (match (tier.get env key).2 with
        | .ok (some value) => .promoting key value (s.applied i key) 0 i
        | .panic p => .returned (.get key) 0 (.panic p)
        | _ => .searching key (i + 1)) := by
  simp only [Leaves, step, hclock, if_true, call, hc, hi]
  generalize tier.get env key = r
  obtain ⟨tier', (_ | value) | _ | _⟩ := r
  all_goals exact ⟨_, rfl, rfl, rfl, rfl⟩

variable {i : Nat} {op : CacheCall K V} {tiers : List (MemoryCache K V P)}
  {r : List (MemoryCache K V P) × Outcome (Reply V)}

theorem Finishes.last {reply : Outcome (Reply V)} (version : Nat)
    (h : s.Leaves c (envs i) tiers (.returned op version reply)) :
    s.Finishes c envs i op (tiers, reply) := by
  obtain ⟨t, hstep, htiers, hclients, -⟩ := h
  exact ⟨1, version, t, Run.single hstep, htiers, hclients⟩

theorem Finishes.next {cl : Client K V} (hlt : c < s.clients.length)
    (hmono : (envs i).now ≤ (envs (i + 1)).now) (h : s.Leaves c (envs i) tiers cl)
    (hrest : ∀ t : TierSystem K V P, t.tiers = tiers → t.clients[c]? = some cl →
      t.clock ≤ (envs (i + 1)).now → t.Finishes c envs (i + 1) op r) :
    s.Finishes c envs i op r := by
  obtain ⟨t, hstep, htiers, hclients, hclock⟩ := h
  have hcl : t.clients[c]? = some cl := by
    rw [hclients]
    exact List.getElem?_set_self hlt
  obtain ⟨n, version, u, hrun, hu, huc⟩ := hrest t htiers hcl (hclock ▸ hmono)
  refine ⟨n + 1, version, u, ?_, hu, ?_⟩
  · rw [calls, List.range'_succ, List.map_cons]
    exact Run.cons (s := t) hstep hrun
  · rw [huc, hclients, List.set_set]

/-- The loop of a write; the tiers in `done` have been called. -/
theorem writing_alone (hmono : ∀ n, (envs n).now ≤ (envs (n + 1)).now) (w : CacheWrite K V) :
    ∀ (todo done : List (MemoryCache K V P)) (s : TierSystem K V P) (i version : Nat)
      (lastError : Option CacheError), s.tiers = done ++ todo →
      s.clients[c]? = some (.writing w version done.length lastError) → s.clock ≤ (envs i).now →
      s.Finishes c envs i (.write w)
        (done ++ (eachTier (fun env tier => w.tierCall tier env) envs i todo lastError).1,
          (eachTier (fun env tier => w.tierCall tier env) envs i todo lastError).2.map
            fun _ => .unit)
  | [], done, s, i, version, lastError, htiers, hc, hclock => by
    have hend : s.tiers[done.length]? = none := by simp [htiers]
    cases lastError
    all_goals
      refine Finishes.last version ?_
      simp only [Leaves, step, hclock, if_true, call, hc, hend]
      exact ⟨_, rfl, htiers, rfl, rfl⟩
  | tier :: todo, done, s, i, version, lastError, htiers, hc, hclock => by
    have hlt : c < s.clients.length := (List.getElem?_eq_some_iff.1 hc).1
    have htier : s.tiers[done.length]? = some tier := by simp [htiers]
    have hleaves := leaves_writing hclock hc htier
    have hset : ∀ tier', s.tiers.set done.length tier' = (done ++ [tier']) ++ todo := by
      simp [htiers]
    have hlen : ∀ tier' : MemoryCache K V P, done.length + 1 = (done ++ [tier']).length := by simp
    unfold eachTier
    generalize w.tierCall tier (envs i) = r at hleaves ⊢
    obtain ⟨tier', o⟩ := r
    cases o with
    | ok u =>
      refine .next hlt (hmono i) hleaves fun t ht htc hclock => ?_
      rw [hset] at ht
      simp only [hlen tier'] at htc
      simpa using writing_alone hmono w todo _ t (i + 1) _ _ ht htc hclock
    | err e =>
      refine .next hlt (hmono i) hleaves fun t ht htc hclock => ?_
      rw [hset] at ht
      simp only [hlen tier'] at htc
      simpa using writing_alone hmono w todo _ t (i + 1) _ _ ht htc hclock
    | panic p =>
      have hlast := Finishes.last _ hleaves
      simpa [hset, Outcome.map] using hlast

/-- The reply of a `get` that found `value`, after its promotion. -/
def promoted (value : V) : Outcome Unit → Outcome (Reply V)
  | .panic p => .panic p
  | _ => .ok (.value (some value))

/-- The promotion loop of a `get`; the tiers in `done` have been called, those in `rest` are not. -/
theorem promoting_alone (hmono : ∀ n, (envs n).now ≤ (envs (n + 1)).now) (key : K) (value : V)
    (version m : Nat) (rest : List (MemoryCache K V P)) :
    ∀ (todo done : List (MemoryCache K V P)) (s : TierSystem K V P) (i : Nat)
      (lastError : Option CacheError), s.tiers = done ++ todo ++ rest →
      m = (done ++ todo).length →
      s.clients[c]? = some (.promoting key value version done.length m) → s.clock ≤ (envs i).now →
      s.Finishes c envs i (.get key)
        (done ++ (eachTier (fun env tier => Tier.set tier env key value none) envs i todo lastError).1
            ++ rest,
          promoted value
            (eachTier (fun env tier => Tier.set tier env key value none) envs i todo lastError).2)
  | [], done, s, i, lastError, htiers, hm, hc, hclock => by
    have hend : (s.tiers.take m)[done.length]? = none := by
      rw [hm, htiers, List.take_left]
      simp
    cases lastError
    all_goals
      refine Finishes.last 0 ?_
      simp only [Leaves, step, hclock, if_true, call, hc, hend]
      exact ⟨_, rfl, htiers, rfl, rfl⟩
  | tier :: todo, done, s, i, lastError, htiers, hm, hc, hclock => by
    have hlt : c < s.clients.length := (List.getElem?_eq_some_iff.1 hc).1
    have htier : (s.tiers.take m)[done.length]? = some tier := by
      rw [hm, htiers, List.take_left]
      simp
    have hleaves := leaves_promoting hclock hc htier
    have hset : ∀ tier', s.tiers.set done.length tier' = (done ++ [tier']) ++ todo ++ rest := by
      simp [htiers]
    have hlen : ∀ tier' : MemoryCache K V P, done.length + 1 = (done ++ [tier']).length := by simp
    have hm' : ∀ tier' : MemoryCache K V P, m = ((done ++ [tier']) ++ todo).length := by simp [hm]
    have hcall : Tier.set tier (envs i) key value none = tier.set (envs i) key value none := rfl
    unfold eachTier
    rw [hcall]
    generalize tier.set (envs i) key value none = r at hleaves ⊢
    obtain ⟨tier', o⟩ := r
    cases o with
    | ok u =>
      refine .next hlt (hmono i) hleaves fun t ht htc hclock => ?_
      rw [hset] at ht
      simp only [hlen tier'] at htc
      simpa using promoting_alone hmono key value version m rest todo _ t (i + 1) _ ht (hm' tier')
        htc hclock
    | err e =>
      refine .next hlt (hmono i) hleaves fun t ht htc hclock => ?_
      rw [hset] at ht
      simp only [hlen tier'] at htc
      simpa using promoting_alone hmono key value version m rest todo _ t (i + 1) _ ht (hm' tier')
        htc hclock
    | panic p =>
      have hlast := Finishes.last _ hleaves
      simpa [hset, promoted] using hlast

/-- The search of a `get`; the tiers in `faster` have been asked. -/
theorem searching_alone (hmono : ∀ n, (envs n).now ≤ (envs (n + 1)).now) (key : K) :
    ∀ (rest faster : List (MemoryCache K V P)) (s : TierSystem K V P) (i : Nat),
      s.tiers = faster ++ rest → s.clients[c]? = some (.searching key faster.length) →
      s.clock ≤ (envs i).now →
      s.Finishes c envs i (.get key)
        ((getLoop envs key i faster rest).1, (getLoop envs key i faster rest).2.map .value)
  | [], faster, s, i, htiers, hc, hclock => by
    have hend : s.tiers[faster.length]? = none := by simp [htiers]
    refine Finishes.last 0 ?_
    simp only [Leaves, step, hclock, if_true, call, hc, hend]
    exact ⟨_, rfl, htiers.trans (List.append_nil faster), rfl, rfl⟩
  | tier :: rest, faster, s, i, htiers, hc, hclock => by
    have hlt : c < s.clients.length := (List.getElem?_eq_some_iff.1 hc).1
    have htier : s.tiers[faster.length]? = some tier := by simp [htiers]
    have hleaves := leaves_searching hclock hc htier
    have hset : ∀ tier', s.tiers.set faster.length tier' = (faster ++ [tier']) ++ rest := by
      simp [htiers]
    have hlen : ∀ tier' : MemoryCache K V P, faster.length + 1 = (faster ++ [tier']).length := by
      simp
    have hget : Tier.get tier (envs i) key = tier.get (envs i) key := rfl
    unfold getLoop
    rw [hget]
    generalize tier.get (envs i) key = r at hleaves ⊢
    obtain ⟨tier', o⟩ := r
    cases o with
    | ok found =>
      cases found with
      | none =>
        refine .next hlt (hmono i) hleaves fun t ht htc hclock => ?_
        rw [hset] at ht
        simp only [hlen tier'] at htc
        exact searching_alone hmono key rest _ t (i + 1) ht htc hclock
      | some value =>
        refine .next hlt (hmono i) hleaves fun t ht htc hclock => ?_
        have hprom := promoting_alone hmono key value _ faster.length (tier' :: rest) faster [] t
          (i + 1) none (by simp [ht, hset]) rfl htc hclock
        dsimp only [promote]
        generalize eachTier _ envs (i + 1) faster none = q at hprom ⊢
        obtain ⟨faster', _ | _ | _⟩ := q
        all_goals simpa [promoted, Outcome.map] using hprom
    | err e =>
      refine .next hlt (hmono i) hleaves fun t ht htc hclock => ?_
      rw [hset] at ht
      simp only [hlen tier'] at htc
      exact searching_alone hmono key rest _ t (i + 1) ht htc hclock
    | panic p =>
      have hlast := Finishes.last _ hleaves
      simpa [hset, Outcome.map] using hlast

/-- **Uninterrupted, an operation of the system is a call of the sequential model**, under a clock
that does not go back. -/
theorem run_exec (s : TierSystem K V P) (envs : Nat → Env K) (op : CacheCall K V)
    (hclock : s.clock ≤ (envs 0).now) (hmono : ∀ n, (envs n).now ≤ (envs (n + 1)).now) :
    ∃ n version t, Run Steps s (.invoke op :: calls s.clients.length envs 0 n) t ∧
      t.tiers = (MultiTierCache.exec ⟨s.tiers⟩ envs op.op).1.tiers ∧
      t.clients = s.clients ++
        [.returned op version (MultiTierCache.exec ⟨s.tiers⟩ envs op.op).2] := by
  have hstart : ({ s with clients := s.clients ++ [op.start] } : TierSystem K V P).Finishes
      s.clients.length envs 0 op ((MultiTierCache.exec ⟨s.tiers⟩ envs op.op).1.tiers,
        (MultiTierCache.exec ⟨s.tiers⟩ envs op.op).2) := by
    cases op with
    | get key => exact searching_alone hmono key s.tiers [] _ 0 rfl (by simp [CacheCall.start]) hclock
    | write w =>
      have hloop := writing_alone (c := s.clients.length) hmono w s.tiers []
        { s with clients := s.clients ++ [(CacheCall.write w).start] } 0 0 none rfl
        (by simp [CacheCall.start]) hclock
      cases w with
      | setWithTtl key value ttl => exact hloop
      | delete key => exact hloop
  obtain ⟨n, version, t, hrun, htiers, hclients⟩ := hstart
  refine ⟨n, version, t, Run.cons rfl hrun, htiers, ?_⟩
  simpa using hclients

end TierSystem

end CacheLayer
