import CacheLayer.MultiTierThreads

/-!
# The steps of a client

`TierSystem.call` branches on the place of the client and on the answer of the tier.  Here its step is
one tier call, and what the answer makes of the client, or the return of an operation whose loop has
ended.

* `client_cases` — the four kinds of step;
* `value_of_client` — what they do to values: none is made up.
-/

set_option autoImplicit false

namespace CacheLayer

variable {K V P : Type} [DecidableEq K] [EvictionPolicy K P] [RustSized K] [RustSized V]

namespace Client

/-- Where the answer of the tier that it has asked takes a `get`. -/
def afterAsk (key : K) (i version : Nat) : Outcome (Option V) → Client K V
  | .ok (some value) => .promoting key value version 0 i
  | .panic p => .returned (.get key) 0 (.panic p)
  | _ => .searching key (i + 1)

/-- Where the write of a promotion takes a `get`. -/
def afterPromote (key : K) (value : V) (version i m : Nat) : Outcome Unit → Client K V
  | .panic p => .returned (.get key) 0 (.panic p)
  | _ => .promoting key value version (i + 1) m

/-- Where a tier call takes a write. -/
def afterWrite (w : CacheWrite K V) (version i : Nat) (lastError : Option CacheError) :
    Outcome Unit → Client K V
  | .ok _ => .writing w version (i + 1) lastError
  | .err e => .writing w version (i + 1) (some e)
  | .panic p => .returned (.write w) version (.panic p)

/-- The return of an operation whose loop has ended. -/
def ended : Client K V → Client K V
  | .searching key _ => .returned (.get key) 0 (.ok (.value none))
  | .promoting key value _ _ _ => .returned (.get key) 0 (.ok (.value (some value)))
  | .writing w version _ none => .returned (.write w) version (.ok .unit)
  | .writing w version _ (some e) => .returned (.write w) version (.err e)
  | cl => cl

/-- The loop of the operation has no tier left among the first `n`. -/
def AtEnd (n : Nat) : Client K V → Prop
  | .searching _ i => n ≤ i
  | .promoting _ _ _ i m => min m n ≤ i
  | .writing _ _ i _ => n ≤ i
  | .returned _ _ _ => False

end Client

namespace TierSystem

/-- **What a step of a client does**: it asks a tier, promotes to a tier, writes to a tier, or returns. -/
theorem client_cases {s t : TierSystem K V P} {c : Nat} {env : Env K} (h : Steps s (.call c env) t) :
    ∃ cl cl', s.clients[c]? = some cl ∧ t.clients = s.clients.set c cl' ∧
      ((∃ key i tier version, cl = .searching key i ∧ s.tiers[i]? = some tier ∧
          t.tiers = s.tiers.set i (tier.get env key).1 ∧
          cl' = .afterAsk key i version (tier.get env key).2) ∨
        (∃ key value version i m tier, cl = .promoting key value version i m ∧ i < m ∧
          s.tiers[i]? = some tier ∧ t.tiers = s.tiers.set i (tier.set env key value none).1 ∧
          cl' = .afterPromote key value version i m (tier.set env key value none).2) ∨
        (∃ w version version' i lastError tier, cl = .writing w version i lastError ∧
          s.tiers[i]? = some tier ∧ t.tiers = s.tiers.set i (w.tierCall tier env).1 ∧
          cl' = .afterWrite w version' i lastError (w.tierCall tier env).2) ∨
        (cl.AtEnd s.tiers.length ∧ t.tiers = s.tiers ∧ cl' = cl.ended)) := by
  have hclock : s.clock ≤ env.now := by
    by_contra hlt
    simp [Steps, step, hlt] at h
  -- a step that is known to leave these tiers and this client is the step taken
  have hleaves : ∀ {tiers cl}, s.Leaves c env tiers cl →
      t.tiers = tiers ∧ t.clients = s.clients.set c cl := by
    rintro tiers cl ⟨u, hu, htiers, hclients, -⟩
    obtain rfl : t = u := Option.some.inj (Eq.trans (Eq.symm h) hu)
    exact ⟨htiers, hclients⟩
  have hcall : { s with clock := env.now }.call c env = some t := by
    simpa [Steps, step, hclock] using h
  cases hc : s.clients[c]? with
  | none =>
    unfold call at hcall
    rw [hc] at hcall
    cases hcall
  | some cl =>
    cases cl with
    | searching key i =>
      cases hi : s.tiers[i]? with
      | some tier =>
        obtain ⟨htiers, hclients⟩ := hleaves (leaves_searching hclock hc hi)
        exact ⟨_, _, rfl, hclients, Or.inl ⟨key, i, tier, s.applied i key, rfl, hi, htiers, rfl⟩⟩
      | none =>
        simp only [call, hc, hi] at hcall
        cases hcall
        exact ⟨_, _, rfl, rfl, Or.inr (Or.inr (Or.inr ⟨List.getElem?_eq_none_iff.1 hi, rfl, rfl⟩))⟩
    | promoting key value version i m =>
      cases hi : (s.tiers.take m)[i]? with
      | some tier =>
        obtain ⟨hlt, htier⟩ : i < m ∧ s.tiers[i]? = some tier := by
          rw [List.getElem?_take] at hi
          split at hi
          · rename_i hlt
            exact ⟨hlt, hi⟩
          · cases hi
        obtain ⟨htiers, hclients⟩ := hleaves (leaves_promoting hclock hc hi)
        exact ⟨_, _, rfl, hclients,
          Or.inr (Or.inl ⟨key, value, version, i, m, tier, rfl, hlt, htier, htiers, rfl⟩)⟩
      | none =>
        have hend := List.getElem?_eq_none_iff.1 hi
        rw [List.length_take] at hend
        simp only [call, hc, hi] at hcall
        cases hcall
        exact ⟨_, _, rfl, rfl, Or.inr (Or.inr (Or.inr ⟨hend, rfl, rfl⟩))⟩
    | writing w version i lastError =>
      cases hi : s.tiers[i]? with
      | some tier =>
        obtain ⟨htiers, hclients⟩ := hleaves (leaves_writing hclock hc hi)
        exact ⟨_, _, rfl, hclients, Or.inr (Or.inr (Or.inl ⟨w, version, s.versionAt w version i, i,
          lastError, tier, rfl, hi, htiers, rfl⟩))⟩
      | none =>
        have hend := List.getElem?_eq_none_iff.1 hi
        simp only [call, hc, hi] at hcall
        cases lastError with
        | none =>
          cases hcall
          exact ⟨_, _, rfl, rfl, Or.inr (Or.inr (Or.inr ⟨hend, rfl, rfl⟩))⟩
        | some e =>
          cases hcall
          exact ⟨_, _, rfl, rfl, Or.inr (Or.inr (Or.inr ⟨hend, rfl, rfl⟩))⟩
    | returned op version reply =>
      unfold call at hcall
      rw [hc] at hcall
      cases hcall

end TierSystem

/-! ## Where the values come from -/

namespace Client

/-- The value that a `get` has found, with its key. -/
def found : Client K V → Option (K × V)
  | .promoting key value _ _ _ => some (key, value)
  | .returned (.get key) _ (.ok (.value (some value))) => some (key, value)
  | _ => none

end Client

namespace TierSystem

/-- One of the clients has begun this operation. -/
def Calls (s : TierSystem K V P) (call : CacheCall K V) : Prop := ∃ cl ∈ s.clients, cl.callOf = call

/-- One of the clients passes `value` to a `set_with_ttl` of `key`. -/
def SetBy (s : TierSystem K V P) (key : K) (value : V) : Prop :=
  ∃ ttl, s.Calls (.write (.setWithTtl key value ttl))

/-- What a tier holds of a key was passed to a `set_with_ttl` of the key. -/
def SourcedTier (s : TierSystem K V P) (tier : MemoryCache K V P) : Prop :=
  ∀ key e, tier.entries.lookup key = some e → s.SetBy key e.value

/-- What the tiers hold and what a `get` has found was passed to a `set_with_ttl` of its key. -/
structure Sourced (s : TierSystem K V P) : Prop where
  resident : ∀ tier ∈ s.tiers, s.SourcedTier tier
  found : ∀ cl ∈ s.clients, ∀ key value, cl.found = some (key, value) → s.SetBy key value

section Steps

variable {s t : TierSystem K V P} {c : Nat} {cl cl' : Client K V} {tier : MemoryCache K V P}

omit [DecidableEq K] [EvictionPolicy K P] [RustSized K] [RustSized V] in
theorem Calls.advance {call : CacheCall K V} (h : s.Calls call) (hc : s.clients[c]? = some cl)
    (hop : cl'.callOf = cl.callOf) (hclients : t.clients = s.clients.set c cl') : t.Calls call := by
  obtain ⟨cl₀, hcl, rfl⟩ := h
  obtain ⟨d, hd⟩ := List.getElem?_of_mem hcl
  by_cases hcd : c = d
  · subst hcd
    rw [hc] at hd
    cases hd
    refine ⟨cl', ?_, hop⟩
    rw [hclients]
    exact List.mem_set (List.getElem?_eq_some_iff.1 hc).1 _
  · refine ⟨cl₀, ?_, rfl⟩
    rw [hclients]
    exact List.mem_of_getElem? ((List.getElem?_set_ne hcd).trans hd)

/-- **An operation that has begun stays on the list of clients.** -/
theorem Calls.step {l : TierLabel K V} {call : CacheCall K V} (h : s.Calls call)
    (hstep : Steps s l t) : t.Calls call := by
  cases l with
  | invoke call' =>
    cases hstep
    obtain ⟨cl, hcl, hop⟩ := h
    exact ⟨cl, List.mem_append_left _ hcl, hop⟩
  | call c env =>
    obtain ⟨cl, cl', hc, hclients, hcases⟩ := client_cases hstep
    refine h.advance hc ?_ hclients
    rcases hcases with ⟨key, i, tier, version, rfl, -, -, rfl⟩ |
      ⟨key, value, version, i, m, tier, rfl, -, -, -, rfl⟩ |
      ⟨w, version, version', i, lastError, tier, rfl, -, -, rfl⟩ | ⟨hend, -, rfl⟩
    · generalize (tier.get env key).2 = o
      obtain (_ | _) | _ | _ := o <;> rfl
    · generalize (tier.set env key value none).2 = o
      cases o <;> rfl
    · generalize (w.tierCall tier env).2 = o
      cases o <;> rfl
    · cases cl with
      | writing w version i lastError => cases lastError <;> rfl
      | _ => rfl

theorem SetBy.step {l : TierLabel K V} {key : K} {value : V} (h : s.SetBy key value)
    (hstep : Steps s l t) : t.SetBy key value := by
  obtain ⟨ttl, hcall⟩ := h
  exact ⟨ttl, hcall.step hstep⟩

omit [RustSized K] [RustSized V] in
/-- A `get` leaves the tier what it held. -/
theorem SourcedTier.get (h : s.SourcedTier tier) (env : Env K) (key : K) :
    s.SourcedTier (tier.get env key).1 := by
  intro k e hl
  obtain ⟨e₀, hl₀, he⟩ := MemoryCache.get_lookup hl
  rw [he]
  exact h k e₀ hl₀

/-- A `set` leaves the tier what it held, and its own value. -/
theorem SourcedTier.set (h : s.SourcedTier tier) (env : Env K) {key : K} {value : V}
    (hset : s.SetBy key value) (ttl : Option Duration) :
    s.SourcedTier (tier.set env key value ttl).1 := by
  intro k e hl
  by_cases hk : k = key
  · subst hk
    rw [MemoryCache.set_lookup_self hl]
    exact hset
  · exact h k e (MemoryCache.set_sub tier env key value ttl hk hl)

omit [EvictionPolicy K P] [RustSized K] [RustSized V] in
theorem SourcedTier.delete (h : s.SourcedTier tier) (key : K) :
    s.SourcedTier (tier.delete key).1 := by
  intro k e hl
  rw [MemoryCache.delete_entries] at hl
  exact h k e (AList.sub_erase _ _ k e hl)

/-- A step after which the tiers hold, and the client has found, what was passed to a `set_with_ttl`. -/
theorem Sourced.advance {env : Env K} (h : Sourced s) (hstep : Steps s (.call c env) t)
    (hclients : t.clients = s.clients.set c cl') (htiers : ∀ tier ∈ t.tiers, s.SourcedTier tier)
    (hfound : ∀ key value, cl'.found = some (key, value) → s.SetBy key value) : Sourced t := by
  refine ⟨fun tier ht key e hl => (htiers tier ht key e hl).step hstep,
    fun cl₀ hcl key value hf => ?_⟩
  rw [hclients] at hcl
  rcases List.mem_or_eq_of_mem_set hcl with hcl | rfl
  · exact (h.found cl₀ hcl key value hf).step hstep
  · exact (hfound key value hf).step hstep

theorem sourced_step {l : TierLabel K V} (h : Sourced s) (hstep : Steps s l t) : Sourced t := by
  cases l with
  | invoke call =>
    have hkept := fun key value (hset : s.SetBy key value) => hset.step hstep
    cases hstep
    refine ⟨fun tier ht key e hl => hkept _ _ (h.resident tier ht key e hl),
      fun cl hcl key value hf => ?_⟩
    rcases List.mem_append.1 hcl with hcl | hcl
    · exact hkept _ _ (h.found cl hcl key value hf)
    · rw [List.mem_singleton.1 hcl] at hf
      cases call <;> cases hf
  | call c env =>
    obtain ⟨cl, cl', hc, hclients, hcases⟩ := client_cases hstep
    have hmem := List.mem_of_getElem? hc
    -- the tiers after one of them has been called
    have hcalled : ∀ {i : Nat} {tier tier' : MemoryCache K V P}, s.tiers[i]? = some tier →
        t.tiers = s.tiers.set i tier' → (s.SourcedTier tier → s.SourcedTier tier') →
        ∀ tier ∈ t.tiers, s.SourcedTier tier := by
      intro i tier tier' hi htiers hstays tier₀ ht
      rw [htiers] at ht
      rcases List.mem_or_eq_of_mem_set ht with ht | rfl
      · exact h.resident tier₀ ht
      · exact hstays (h.resident tier (List.mem_of_getElem? hi))
    rcases hcases with ⟨key, i, tier, version, rfl, hi, htiers, rfl⟩ |
      ⟨key, value, version, i, m, tier, rfl, -, hi, htiers, rfl⟩ |
      ⟨w, version, version', i, lastError, tier, rfl, hi, htiers, rfl⟩ | ⟨hend, htiers, rfl⟩
    · have hall := hcalled hi htiers fun ht => ht.get env key
      have htier := h.resident tier (List.mem_of_getElem? hi)
      rcases MemoryCache.get_cases tier env key with ⟨e, hl, _, hg⟩ | ⟨e, hl, _, hg⟩ | ⟨hl, hg⟩
      · rw [hg] at hclients
        exact h.advance hstep hclients hall fun _ _ hf => (by cases hf)
      · -- the value found is one that the tier holds
        rw [hg] at hclients
        exact h.advance hstep hclients hall fun _ _ hf => (by cases hf; exact htier _ e hl)
      · rw [hg] at hclients
        exact h.advance hstep hclients hall fun _ _ hf => (by cases hf)
    · have hset : s.SetBy key value := h.found _ hmem key value rfl
      have hall := hcalled hi htiers fun ht => ht.set env hset none
      generalize (tier.set env key value none).2 = o at hclients
      cases o with
      | panic p => exact h.advance hstep hclients hall fun _ _ hf => (by cases hf)
      | _ => exact h.advance hstep hclients hall fun _ _ hf => (by cases hf; exact hset)
    · have hwrite : s.SourcedTier tier → s.SourcedTier (w.tierCall tier env).1 := by
        intro ht
        cases w with
        | setWithTtl key value ttl => exact ht.set env ⟨ttl, _, hmem, rfl⟩ (some ttl)
        | delete key => exact ht.delete key
      have hall := hcalled hi htiers hwrite
      generalize (w.tierCall tier env).2 = o at hclients
      cases o <;> exact h.advance hstep hclients hall fun _ _ hf => (by cases hf)
    · have hall : ∀ tier ∈ t.tiers, s.SourcedTier tier := by rw [htiers]; exact h.resident
      cases cl with
      | promoting key value version i m =>
        have hset : s.SetBy key value := h.found _ hmem key value rfl
        exact h.advance hstep hclients hall fun _ _ hf => (by cases hf; exact hset)
      | searching key i => exact h.advance hstep hclients hall fun _ _ hf => (by cases hf)
      | writing w version i lastError =>
        cases lastError <;> exact h.advance hstep hclients hall fun _ _ hf => (by cases hf)
      | returned op version reply => exact hend.elim

end Steps

/-- **What a `get` returns was passed to a `set_with_ttl` of its key.**  Any number of clients of fresh
tiers, in any interleaving: neither a promotion nor a write that is overtaken makes up a value or moves
one to another key, and the same holds of what any tier has under a key. -/
theorem value_of_client {tiers : List (MemoryCache K V P)} {es : List (TierLabel K V)}
    {s : TierSystem K V P}
    (hfresh : ∀ tier ∈ tiers, ∃ cap policy h, tier = .withPolicy cap policy h)
    (hrun : Run Steps (fresh tiers) es s) :
    (∀ key version value,
      Client.returned (.get key) version (.ok (.value (some value))) ∈ s.clients →
        s.SetBy key value) ∧
      ∀ tier ∈ s.tiers, ∀ key e, tier.entries.lookup key = some e → s.SetBy key e.value := by
  have hstart : Sourced (fresh tiers : TierSystem K V P) := by
    refine ⟨fun tier ht key e hl => ?_, fun cl hcl => absurd hcl List.not_mem_nil⟩
    obtain ⟨cap, policy, hcap, rfl⟩ := hfresh tier ht
    cases hl
  have h : Sourced s := hrun.invariant Sourced hstart fun _ _ _ h hstep => sourced_step h hstep
  exact ⟨fun key version value hcl => h.found _ hcl key value rfl, h.resident⟩

/-- Two tiers with room for one entry each. -/
def onePerTier : List (MemoryCache UInt64 UInt64 (LRU UInt64)) :=
  [.withPolicy 16 (LRU.new _ 1024 (Nat.succ_pos (nat_lit 1023))) (Nat.succ_pos (nat_lit 15)),
    .withPolicy 16 (LRU.new _ 1024 (Nat.succ_pos (nat_lit 1023))) (Nat.succ_pos (nat_lit 15))]

/-- A `get` of key 1 asks the first tier; a `set_with_ttl` of key 1 goes through both; the `get` finds
its value in the second tier and promotes it. -/
def getThenSet : List (TierLabel UInt64 UInt64) :=
  [.invoke (.get 1), .call 0 ⟨0, .id _⟩, .invoke (.write (.setWithTtl 1 10 5)), .call 1 ⟨0, .id _⟩,
    .call 1 ⟨0, .id _⟩, .call 0 ⟨0, .id _⟩, .call 0 ⟨0, .id _⟩, .call 0 ⟨0, .id _⟩]

/-- The state in which the `get` has returned. -/
def promotedBack : TierSystem UInt64 UInt64 (LRU UInt64) :=
  (play step (fresh onePerTier) getThenSet).get (by decide)

theorem value_of_client_promoted : promotedBack.SetBy 1 10 := by
  have hfresh : ∀ tier ∈ onePerTier, ∃ cap policy h, tier = .withPolicy cap policy h :=
    fun _ ht => withPolicy_pair ht
  have hrun : Run Steps (fresh onePerTier) getThenSet promotedBack :=
    Run.of_play (Option.some_get _).symm
  have hcl : promotedBack.clients[0]? =
      some (.returned (.get 1) 0 (.ok (.value (some 10)))) := by rfl
  exact (value_of_client hfresh hrun).1 1 0 10 (List.mem_of_getElem? hcl)

end TierSystem

end CacheLayer
