import CacheLayer.Lib.Potential
import CacheLayer.MultiTierOrder

/-!
# Concurrent operations finish

An operation of a client calls the tiers one after the other, a `get` that hits also the faster tiers
again.  What the other clients do changes what these calls return, but not how many there are.

* `Client.left` — how many steps an operation has left, with `n` tiers;
* `call_left` — each of its steps lowers the number, `left_pays` — no other step changes it;
* `client_steps_bounded` — so no operation takes more than `2n + 1` steps, and each reaches its end.
-/

set_option autoImplicit false

namespace CacheLayer

variable {K V P : Type}

/-- An upper bound on the steps that an operation has left, its return among them. -/
def Client.left (n : Nat) : Client K V → Nat
  | .searching _ i => n - i + n + 1
  | .promoting _ _ _ i m => min m n - i + 1
  | .writing _ _ i _ => n - i + 1
  | .returned _ _ _ => 0

theorem Client.left_start (n : Nat) (call : CacheCall K V) : call.start.left n ≤ 2 * n + 1 := by
  cases call <;> simp only [CacheCall.start, Client.left] <;> omega

/-- The label is a step of client `c`. -/
def TierLabel.isCall (c : Nat) : TierLabel K V → Bool
  | .call d _ => d = c
  | .invoke _ => false

namespace TierSystem

/-- The steps that client `c` has left, or will have when it begins. -/
def left (c : Nat) (s : TierSystem K V P) : Nat :=
  match s.clients[c]? with
  | some cl => cl.left s.tiers.length
  | none => 2 * s.tiers.length + 1

theorem left_of_client {s : TierSystem K V P} {c : Nat} {cl : Client K V}
    (h : s.clients[c]? = some cl) : s.left c = cl.left s.tiers.length := by
  rw [left, h]

theorem lt_of_taken {s : TierSystem K V P} {m i : Nat} {tier : MemoryCache K V P}
    (h : (s.tiers.take m)[i]? = some tier) : i < min m s.tiers.length := by
  have hlt := (List.getElem?_eq_some_iff.1 h).1
  rwa [List.length_take] at hlt

theorem lt_of_tier {s : TierSystem K V P} {i : Nat} {tier : MemoryCache K V P}
    (h : s.tiers[i]? = some tier) : i < s.tiers.length := (List.getElem?_eq_some_iff.1 h).1

variable [DecidableEq K] [EvictionPolicy K P] [RustSized K] [RustSized V]

/-- A step of a client leaves it one step less. -/
theorem call_left {s t : TierSystem K V P} {c : Nat} {env : Env K} (h : s.call c env = some t) :
    t.left c + 1 ≤ s.left c := by
  obtain ⟨cl, cl', hc, -, hclients, -, hlen, -⟩ := call_cases h
  have hc' : t.clients[c]? = some cl' := by
    rw [hclients]
    exact List.getElem?_set_self (List.getElem?_eq_some_iff.1 hc).1
  rw [left_of_client hc, left_of_client hc', hlen]
  have hset : ∀ cl'', t.clients = s.clients.set c cl'' → cl'' = cl' := by
    intro cl'' heq
    rw [heq, List.getElem?_set_self (List.getElem?_eq_some_iff.1 hc).1] at hc'
    exact Option.some.inj hc'
  unfold call at h
  rw [hc] at h
  cases cl with
  | searching key i =>
    simp only at h
    split at h
    · cases h
      rw [← hset _ rfl]
      simp only [Client.left]
      omega
    · rename_i tier hi
      have hlt := lt_of_tier hi
      split at h
      all_goals
        cases h
        rw [← hset _ rfl]
        simp only [Client.left]
        omega
  | promoting key value version i m =>
    simp only at h
    split at h
    · cases h
      rw [← hset _ rfl]
      simp only [Client.left]
      omega
    · rename_i tier hi
      have hlt := lt_of_taken hi
      split at h
      all_goals
        cases h
        rw [← hset _ rfl]
        simp only [Client.left]
        omega
  | writing w version i lastError =>
    simp only at h
    split at h
    · split at h
      all_goals
        cases h
        rw [← hset _ rfl]
        simp only [Client.left]
        omega
    · rename_i tier hi
      have hlt := lt_of_tier hi
      split at h
      all_goals
        cases h
        rw [← hset _ (put_reach _ _ _ _ _ _ _).1]
        simp only [Client.left]
        omega
  | returned call version reply => cases h

/-- The steps of the others do not change what a client has left. -/
theorem call_left_ne {s t : TierSystem K V P} {c d : Nat} {env : Env K} (hne : c ≠ d)
    (h : s.call c env = some t) : t.left d = s.left d := by
  obtain ⟨cl, cl', -, -, hclients, -, hlen, -⟩ := call_cases h
  rw [left, left, hclients, hlen, List.getElem?_set_ne hne]

omit [DecidableEq K] [EvictionPolicy K P] [RustSized K] [RustSized V] in
/-- A client that begins has as much left as it was to have. -/
theorem left_invoke (s : TierSystem K V P) (call : CacheCall K V) (c : Nat) :
    ({ s with clients := s.clients ++ [call.start] } : TierSystem K V P).left c ≤ s.left c := by
  have hstart := Client.left_start s.tiers.length call
  unfold left
  by_cases hlt : c < s.clients.length
  · simp [List.getElem?_append_left hlt]
  · have hnone : s.clients[c]? = none := List.getElem?_eq_none_iff.2 (by omega)
    rw [List.getElem?_append_right (by omega), hnone]
    cases hidx : c - s.clients.length with
    | zero => simpa using hstart
    | succ n => simp

theorem left_pays (c : Nat) :
    Pays (Steps (K := K) (V := V) (P := P)) (left c) (TierLabel.isCall c) (fun _ => 0) := by
  intro s l t hstep
  cases l with
  | invoke call =>
    cases hstep
    exact left_invoke s call c
  | call d env =>
    replace hstep : (if s.clock ≤ env.now then { s with clock := env.now }.call d env else none) =
      some t := hstep
    split at hstep
    · have hclock : ({ s with clock := env.now } : TierSystem K V P).left c = s.left c := rfl
      by_cases hdc : d = c
      · subst hdc
        have hlt := call_left hstep
        simp only [TierLabel.isCall, decide_true, if_true]
        omega
      · have hsame := call_left_ne hdc hstep
        simp only [TierLabel.isCall, hdc, decide_false, Bool.false_eq_true, if_false]
        omega
    · cases hstep

/-- The next step of a client that has not returned can be taken, whatever the others are doing. -/
theorem call_isSome {s : TierSystem K V P} {c : Nat} {cl : Client K V} (env : Env K)
    (hc : s.clients[c]? = some cl) (hret : ¬ cl.Returned) : ∃ t, s.call c env = some t := by
  unfold call
  rw [hc]
  cases cl with
  | searching key i =>
    simp only
    split
    · exact ⟨_, rfl⟩
    · split <;> exact ⟨_, rfl⟩
  | promoting key value version i m =>
    simp only
    split
    · exact ⟨_, rfl⟩
    · split <;> exact ⟨_, rfl⟩
  | writing w version i lastError =>
    simp only
    split
    · split <;> exact ⟨_, rfl⟩
    · split <;> exact ⟨_, rfl⟩
  | returned call version reply => exact absurd trivial hret

/-- Client `c` has an operation, which has returned. -/
def HasReturned (c : Nat) (s : TierSystem K V P) : Prop := ∃ cl, s.clients[c]? = some cl ∧ cl.Returned

/-- A client whose operation has not returned can take a step of it. -/
theorem exists_step {c : Nat} {s : TierSystem K V P} (hc : ∃ cl, s.clients[c]? = some cl)
    (hbusy : ¬ HasReturned c s) : ∃ l t, TierLabel.isCall c l = true ∧ Steps s l t ∧
      (∃ cl, t.clients[c]? = some cl) ∧ t.left c < s.left c := by
  obtain ⟨cl, hc⟩ := hc
  have hret : ¬ cl.Returned := fun h => hbusy ⟨cl, hc, h⟩
  obtain ⟨t, ht⟩ := call_isSome ⟨s.clock, .id K⟩ hc hret
  obtain ⟨_, cl', _, -, hclients, -⟩ := call_cases ht
  refine ⟨.call c ⟨s.clock, .id K⟩, t, by simp [TierLabel.isCall], ?_, ⟨cl', ?_⟩, call_left ht⟩
  · show (if s.clock ≤ s.clock then { s with clock := s.clock }.call c _ else none) = some t
    rw [if_pos (Nat.le_refl _)]
    exact ht
  · rw [hclients]
    exact List.getElem?_set_self (List.getElem?_eq_some_iff.1 hc).1

/-- **Operations finish.**  Any number of clients call `get`, `set_with_ttl` and `delete` on `n` tiers,
whatever these hold and however the tier calls are interleaved.  Every operation takes at most `2n + 1`
steps in all; and from every state an operation that has begun can be run to its return, while all other
clients stand still, in at most so many steps. -/
theorem client_steps_bounded {tiers : List (MemoryCache K V P)} {es : List (TierLabel K V)}
    {s : TierSystem K V P} (hrun : Run Steps (fresh tiers) es s) (c : Nat) :
    es.countP (TierLabel.isCall c) ≤ 2 * tiers.length + 1 ∧
    (∀ cl, s.clients[c]? = some cl → ∃ ls t, Run Steps s ls t ∧ HasReturned c t ∧
      es.countP (TierLabel.isCall c) + ls.length ≤ 2 * tiers.length + 1 ∧
      ∀ l ∈ ls, TierLabel.isCall c l = true) := by
  have htotal := (left_pays c).total hrun
  have hgrants : (es.map fun _ => 0).sum = 0 := by simp
  have hstart : (fresh tiers : TierSystem K V P).left c = 2 * tiers.length + 1 := rfl
  refine ⟨by omega, fun cl hc => ?_⟩
  obtain ⟨ls, t, hls, hfin, hlen, hall⟩ := Run.exists_final (φ := left c) (F := HasReturned c)
    (fun _ => exists_step) (s.left c) s (Nat.le_refl _) ⟨cl, hc⟩
  exact ⟨ls, t, hls, hfin, by omega, hall⟩

/-- A `get` has found key 1 in the second tier, and a `delete` of it has reached the first. -/
def readWhileDeleted : List (TierLabel UInt64 UInt64) :=
  setFirst ++ [.invoke (.write (.setWithTtl 2 20 5)), next 1, next 1, next 1, .invoke (.get 1), next 2,
    next 2, .invoke (.write (.delete 1)), next 3]

/-- The state after these steps. -/
def betweenTiers : TierSystem UInt64 UInt64 (BoxedPolicy UInt64) :=
  (play step (fresh smallOverLarge) readWhileDeleted).get (by decide)

theorem client_steps_bounded_reader :
    ∃ ls t, Run Steps betweenTiers ls t ∧ HasReturned 2 t ∧ 2 + ls.length ≤ 5 := by
  have hrun : Run Steps (fresh smallOverLarge) readWhileDeleted betweenTiers :=
    Run.of_play (Option.some_get _).symm
  have hreader : ∃ cl, betweenTiers.clients[2]? = some cl := Option.isSome_iff_exists.1 (by decide)
  obtain ⟨cl, hcl⟩ := hreader
  obtain ⟨ls, t, hls, hret, hlen, -⟩ := (client_steps_bounded hrun 2).2 cl hcl
  exact ⟨ls, t, hls, hret, hlen⟩

end TierSystem

end CacheLayer
