import CacheLayer.MemoryBounds

/-!
# Several tiers

`MultiTierCache` of `multi_tier.rs` over any kind of tier, and its sequential runs.  A method makes
one tier call after the other; the `n`th tier call of a method reads its environment from `envs n`, so
the clock may advance between tier calls.

* `eachTier` — the loop of `set_with_ttl`, `delete` and the promotion: call every tier, remember the
  last error;
* `getLoop` — the search of `get`: ask each tier, and write what one of them returned to the faster
  tiers;
* `eachTier_inv`, `eachTier_returned`, `eachTier_ok`, `getLoop_inv` — what holds of every tier after such
  a loop, according to how it ended;
* `CacheStep` — one call of a sequential run.
-/

set_option autoImplicit false

namespace CacheLayer

/-- Multi-tier cache that combines multiple cache layers, fastest first. -/
structure MultiTierCache (T : Type) where
  tiers : List T

namespace MultiTierCache

variable {K V T : Type}

/-- Create a new multi-tier cache. -/
def new : MultiTierCache T := ⟨[]⟩

/-- Add a cache tier, as the slowest. -/
def addTier (c : MultiTierCache T) (tier : T) : MultiTierCache T := ⟨c.tiers ++ [tier]⟩

/-- Get number of tiers. -/
def numTiers (c : MultiTierCache T) : Nat := c.tiers.length

/-- Call every tier in order and return the last error, if any.  A panic ends the loop. -/
def eachTier (f : Env K → T → T × Outcome Unit) (envs : Nat → Env K) :
    Nat → List T → Option CacheError → List T × Outcome Unit
  | _, [], none => ([], .ok ())
  | _, [], some e => ([], .err e)
  | n, tier :: tiers, lastError =>
    match f (envs n) tier with
    | (tier, .ok _) =>
      let r := eachTier f envs (n + 1) tiers lastError
      (tier :: r.1, r.2)
    | (tier, .err e) =>
      let r := eachTier f envs (n + 1) tiers (some e)
      (tier :: r.1, r.2)
    | (tier, .panic p) => (tier :: tiers, .panic p)

variable [Tier K V T]

/-- Get statistics for all tiers. -/
def stats (c : MultiTierCache T) : List TierStats := c.tiers.map Tier.stats

/-- Write a value to the faster tiers, without a time-to-live; errors are ignored. -/
def promote (envs : Nat → Env K) (n : Nat) (key : K) (value : V) (faster : List T) :
    List T × Outcome Unit :=
  match eachTier (fun env tier => Tier.set tier env key value none) envs n faster none with
  | (tiers, .panic p) => (tiers, .panic p)
  | (tiers, _) => (tiers, .ok ())

/-- The search of `get`: `faster` has been asked, `rest` has not. -/
def getLoop (envs : Nat → Env K) (key : K) : Nat → List T → List T → List T × Outcome (Option V)
  | _, faster, [] => (faster, .ok none)
  | n, faster, tier :: rest =>
    match Tier.get tier (envs n) key with
    | (tier, .ok (some value)) =>
      match promote envs (n + 1) key value faster with
      | (faster, .panic p) => (faster ++ tier :: rest, .panic p)
      | (faster, _) => (faster ++ tier :: rest, .ok (some value))
    | (tier, .ok none) => getLoop envs key (n + 1) (faster ++ [tier]) rest
    | (tier, .err _) => getLoop envs key (n + 1) (faster ++ [tier]) rest
    | (tier, .panic p) => (faster ++ tier :: rest, .panic p)

/-- The search of `exists`; an error counts as absence. -/
def existsLoop (envs : Nat → Env K) (key : K) : Nat → List T → List T × Outcome Bool
  | _, [] => ([], .ok false)
  | n, tier :: rest =>
    match Tier.exists tier (envs n) key with
    | (tier, .ok true) => (tier :: rest, .ok true)
    | (tier, .ok false) =>
      let r := existsLoop envs key (n + 1) rest
      (tier :: r.1, r.2)
    | (tier, .err _) =>
      let r := existsLoop envs key (n + 1) rest
      (tier :: r.1, r.2)
    | (tier, .panic p) => (tier :: rest, .panic p)

/-- `Cache::get`. -/
def get (c : MultiTierCache T) (envs : Nat → Env K) (key : K) :
    MultiTierCache T × Outcome (Option V) :=
  let r := getLoop envs key 0 [] c.tiers
  (⟨r.1⟩, r.2)

/-- `Cache::set_with_ttl`. -/
def setWithTtl (c : MultiTierCache T) (envs : Nat → Env K) (key : K) (value : V) (ttl : Duration) :
    MultiTierCache T × Outcome Unit :=
  let r := eachTier (fun env tier => Tier.set tier env key value (some ttl)) envs 0 c.tiers none
  (⟨r.1⟩, r.2)

/-- The time-to-live that `set` passes on: 300 seconds. -/
def defaultTtl : Duration := 300 * 1000000000

/-- `Cache::set`. -/
def set (c : MultiTierCache T) (envs : Nat → Env K) (key : K) (value : V) :
    MultiTierCache T × Outcome Unit :=
  c.setWithTtl envs key value defaultTtl

/-- `Cache::delete`. -/
def delete (c : MultiTierCache T) (envs : Nat → Env K) (key : K) : MultiTierCache T × Outcome Unit :=
  let r := eachTier (fun env tier => Tier.delete tier env key) envs 0 c.tiers none
  (⟨r.1⟩, r.2)

/-- `Cache::exists`. -/
def «exists» (c : MultiTierCache T) (envs : Nat → Env K) (key : K) :
    MultiTierCache T × Outcome Bool :=
  let r := existsLoop envs key 0 c.tiers
  (⟨r.1⟩, r.2)

/-! ## Loops over the tiers -/

section Loops

theorem getLoop_miss {envs : Nat → Env K} {key : K} {n : Nat} {tier tier' : T} (faster rest : List T)
    (h : Tier.get tier (envs n) key = (tier', .ok none)) :
    getLoop envs key n faster (tier :: rest) =
      getLoop envs key (n + 1) (faster ++ [tier']) rest := by
  rw [getLoop, h]

/-- Tiers that miss are asked and passed over. -/
theorem getLoop_misses {envs : Nat → Env K} {key : K} :
    ∀ (missed rest faster : List T) (n : Nat),
      (∀ j tier, missed[j]? = some tier → (Tier.get tier (envs (n + j)) key).2 = .ok none) →
      getLoop envs key n faster (missed ++ rest) =
        getLoop envs key (n + missed.length)
          (faster ++ missed.mapIdx fun j tier => (Tier.get tier (envs (n + j)) key).1) rest
  | [], rest, faster, n, _ => by simp
  | tier :: missed, rest, faster, n, h => by
    have hhead : Tier.get tier (envs n) key = ((Tier.get tier (envs n) key).1, .ok none) :=
      Prod.ext rfl (h 0 tier rfl)
    have htail : ∀ j t, missed[j]? = some t →
        (Tier.get t (envs (n + 1 + j)) key).2 = .ok none := by
      intro j t ht
      have := h (j + 1) t (by rwa [List.getElem?_cons_succ])
      rwa [Nat.add_right_comm]
    rw [List.cons_append, getLoop_miss faster (missed ++ rest) hhead,
      getLoop_misses missed rest _ (n + 1) htail]
    simp only [List.mapIdx_cons, List.append_assoc, List.singleton_append, List.length_cons,
      Nat.add_zero, Nat.add_assoc, Nat.add_comm 1]

theorem getLoop_hit_first {envs : Nat → Env K} {key : K} {n : Nat} {tier tier' : T} {value : V}
    (rest : List T) (h : Tier.get tier (envs n) key = (tier', .ok (some value))) :
    getLoop envs key n [] (tier :: rest) = (tier' :: rest, .ok (some value)) := by
  rw [getLoop, h]
  rfl

theorem existsLoop_absent {envs : Nat → Env K} {key : K} {n : Nat} {tier tier' : T} (rest : List T)
    (h : Tier.exists tier (envs n) key = (tier', .ok false)) :
    existsLoop envs key n (tier :: rest) =
      (tier' :: (existsLoop envs key (n + 1) rest).1, (existsLoop envs key (n + 1) rest).2) := by
  rw [existsLoop, h]

theorem existsLoop_found {envs : Nat → Env K} {key : K} {n : Nat} {tier tier' : T} (rest : List T)
    (h : Tier.exists tier (envs n) key = (tier', .ok true)) :
    existsLoop envs key n (tier :: rest) = (tier' :: rest, .ok true) := by
  rw [existsLoop, h]

variable {f : Env K → T → T × Outcome Unit} {envs : Nat → Env K} {I J : T → Prop}

omit [Tier K V T] in
theorem eachTier_length : ∀ (tiers : List T) (n : Nat) (last : Option CacheError),
    (eachTier f envs n tiers last).1.length = tiers.length
  | [], _, none => rfl
  | [], _, some _ => rfl
  | tier :: tiers, n, last => by
    unfold eachTier
    split <;> simp [eachTier_length tiers]

omit [Tier K V T] in
/-- If the loop returns, every tier has been called. -/
theorem eachTier_returned
    (hf : ∀ n tier, I tier → (f (envs n) tier).2.Returned → J (f (envs n) tier).1) :
    ∀ (tiers : List T) (n : Nat) (last : Option CacheError), (∀ tier ∈ tiers, I tier) →
      (eachTier f envs n tiers last).2.Returned → ∀ tier ∈ (eachTier f envs n tiers last).1, J tier
  | [], _, none, _, _ => fun _ h => by cases h
  | [], _, some _, _, _ => fun _ h => by cases h
  | tier :: tiers, n, last, hI, hret => by
    have hhead := hf n tier (hI tier List.mem_cons_self)
    have htail := fun last => eachTier_returned hf tiers (n + 1) last
      fun t ht => hI t (List.mem_cons_of_mem _ ht)
    unfold eachTier at hret ⊢
    split
    · rename_i tier' _ heq
      rw [heq] at hhead hret
      intro t ht
      rcases List.mem_cons.1 ht with rfl | ht
      · exact hhead trivial
      · exact htail last hret t ht
    · rename_i tier' e heq
      rw [heq] at hhead hret
      intro t ht
      rcases List.mem_cons.1 ht with rfl | ht
      · exact hhead trivial
      · exact htail (some e) hret t ht
    · rename_i heq
      rw [heq] at hret
      exact hret.elim

omit [Tier K V T] in
theorem eachTier_returns (hf : ∀ n tier, I tier → (f (envs n) tier).2.Returned) :
    ∀ (tiers : List T) (n : Nat) (last : Option CacheError), (∀ tier ∈ tiers, I tier) →
      (eachTier f envs n tiers last).2.Returned
  | [], _, none, _ => trivial
  | [], _, some _, _ => trivial
  | tier :: tiers, n, last, hI => by
    have hret := hf n tier (hI tier List.mem_cons_self)
    have htail := fun last => eachTier_returns hf tiers (n + 1) last
      fun t ht => hI t (List.mem_cons_of_mem _ ht)
    unfold eachTier
    split
    · exact htail last
    · rename_i e heq
      exact htail (some e)
    · rename_i heq
      rw [heq] at hret
      exact hret.elim

omit [Tier K V T] in
/-- If every call returns, each tier is called once, in its own environment. -/
theorem eachTier_getElem (hf : ∀ n tier, I tier → (f (envs n) tier).2.Returned) :
    ∀ (tiers : List T) (n : Nat) (last : Option CacheError) (i : Nat), (∀ tier ∈ tiers, I tier) →
      (eachTier f envs n tiers last).1[i]? = tiers[i]?.map fun tier => (f (envs (n + i)) tier).1
  | [], _, none, _, _ => rfl
  | [], _, some _, _, _ => rfl
  | tier :: tiers, n, last, i, hI => by
    have hret := hf n tier (hI tier List.mem_cons_self)
    have hrec : ∀ last i, (eachTier f envs (n + 1) tiers last).1[i]? =
        tiers[i]?.map fun tier => (f (envs (n + (i + 1))) tier).1 := by
      intro last i
      rw [eachTier_getElem hf tiers (n + 1) last i fun t ht => hI t (List.mem_cons_of_mem _ ht),
        Nat.add_right_comm, Nat.add_assoc]
    unfold eachTier
    split
    · rename_i heq
      cases i with
      | zero => simp [heq]
      | succ i => simpa using hrec last i
    · rename_i e heq
      cases i with
      | zero => simp [heq]
      | succ i => simpa using hrec (some e) i
    · rename_i heq
      rw [heq] at hret
      exact hret.elim

omit [Tier K V T] in
/-- **If every call returns, the loop returns and every tier has been called.** -/
theorem eachTier_spec
    (hf : ∀ n tier, I tier → (f (envs n) tier).2.Returned ∧ J (f (envs n) tier).1)
    (tiers : List T) (n : Nat) (last : Option CacheError) (hI : ∀ tier ∈ tiers, I tier) :
    (eachTier f envs n tiers last).2.Returned ∧
      ∀ tier ∈ (eachTier f envs n tiers last).1, J tier := by
  have hret := eachTier_returns (fun n tier h => (hf n tier h).1) tiers n last hI
  exact ⟨hret, eachTier_returned (fun n tier h _ => (hf n tier h).2) tiers n last hI hret⟩

omit [Tier K V T] in
theorem eachTier_some_ne_ok : ∀ (tiers : List T) (n : Nat) (e : CacheError),
    (eachTier f envs n tiers (some e)).2 ≠ .ok ()
  | [], _, _ => by simp [eachTier]
  | tier :: tiers, n, e => by
    unfold eachTier
    split
    · exact eachTier_some_ne_ok tiers (n + 1) e
    · exact eachTier_some_ne_ok tiers (n + 1) _
    · simp

omit [Tier K V T] in
/-- **If the loop returned `Ok`, every call did.** -/
theorem eachTier_ok {J : Nat → T → Prop}
    (hf : ∀ n tier, (f (envs n) tier).2 = .ok () → J n (f (envs n) tier).1) :
    ∀ (tiers : List T) (n : Nat), (eachTier f envs n tiers none).2 = .ok () →
      ∀ i tier, (eachTier f envs n tiers none).1[i]? = some tier → J (n + i) tier
  | [], _, _, i, tier, h => by simp [eachTier] at h
  | tier₀ :: tiers, n, hok, i, tier, h => by
    have hhead := hf n tier₀
    unfold eachTier at hok h
    split at hok
    · rename_i tier' _ heq
      rw [heq] at hhead h
      cases i with
      | zero =>
        simp only [List.getElem?_cons_zero, Option.some.injEq] at h
        subst h
        exact hhead rfl
      | succ i =>
        rw [List.getElem?_cons_succ] at h
        have hrec := eachTier_ok hf tiers (n + 1) hok i tier h
        rwa [Nat.add_right_comm] at hrec
    · exact absurd hok (eachTier_some_ne_ok tiers (n + 1) _)
    · cases hok

omit [Tier K V T] in
/-- What every call preserves holds of every tier, however the loop ends. -/
theorem eachTier_inv (hf : ∀ n tier, I tier → I (f (envs n) tier).1) :
    ∀ (tiers : List T) (n : Nat) (last : Option CacheError), (∀ tier ∈ tiers, I tier) →
      ∀ tier ∈ (eachTier f envs n tiers last).1, I tier
  | [], _, none, _ => fun _ h => by cases h
  | [], _, some _, _ => fun _ h => by cases h
  | tier :: tiers, n, last, hI => by
    have hhead := hf n tier (hI tier List.mem_cons_self)
    have htail := fun last => eachTier_inv hf tiers (n + 1) last
      fun t ht => hI t (List.mem_cons_of_mem _ ht)
    unfold eachTier
    split
    all_goals
      rename_i heq
      rw [heq] at hhead
      refine List.forall_mem_cons.2 ⟨hhead, ?_⟩
    · exact htail last
    · exact htail _
    · exact fun t ht => hI t (List.mem_cons_of_mem _ ht)

omit [Tier K V T] in
/-- What no call changes of a tier the loop changes of none. -/
theorem eachTier_map {α : Type} (g : T → α) (hf : ∀ n tier, g (f (envs n) tier).1 = g tier) :
    ∀ (tiers : List T) (n : Nat) (last : Option CacheError),
      (eachTier f envs n tiers last).1.map g = tiers.map g
  | [], _, none => rfl
  | [], _, some _ => rfl
  | tier :: tiers, n, last => by
    have hhead := hf n tier
    unfold eachTier
    split
    all_goals
      rename_i heq
      rw [heq] at hhead
      simp only [List.map_cons, hhead, eachTier_map g hf tiers]

theorem promote_tiers (n : Nat) (key : K) (value : V) (faster : List T) :
    (promote envs n key value faster).1 =
      (eachTier (fun env tier => Tier.set tier env key value none) envs n faster none).1 := by
  unfold promote
  split
  · rename_i heq; rw [heq]
  · rename_i heq; rw [heq]

theorem getLoop_length (key : K) : ∀ (rest faster : List T) (n : Nat),
    (getLoop envs key n faster rest).1.length = faster.length + rest.length
  | [], _, _ => rfl
  | tier :: rest, faster, n => by
    have hfaster : ∀ value, (promote envs (n + 1) key value faster).1.length = faster.length := by
      intro value
      rw [promote_tiers, eachTier_length]
    unfold getLoop
    split
    · rename_i value _
      have hlen := hfaster value
      split
      all_goals
        rename_i heq
        rw [heq] at hlen
        simp only [List.length_append, List.length_cons, hlen]
    · rw [getLoop_length key rest _ (n + 1)]
      simp only [List.length_append, List.length_cons, List.length_nil]
      omega
    · rw [getLoop_length key rest _ (n + 1)]
      simp only [List.length_append, List.length_cons, List.length_nil]
      omega
    · simp only [List.length_append, List.length_cons]

theorem existsLoop_inv {key : K} (hex : ∀ n tier, I tier → I (Tier.exists tier (envs n) key).1) :
    ∀ (tiers : List T) (n : Nat), (∀ tier ∈ tiers, I tier) →
      ∀ tier ∈ (existsLoop envs key n tiers).1, I tier
  | [], _, _ => fun _ h => by cases h
  | tier :: tiers, n, hI => by
    have hhead := hex n tier (hI tier List.mem_cons_self)
    have htail : ∀ t ∈ tiers, I t := fun t ht => hI t (List.mem_cons_of_mem _ ht)
    unfold existsLoop
    split
    all_goals
      rename_i heq
      rw [heq] at hhead
      refine List.forall_mem_cons.2 ⟨hhead, ?_⟩
    · exact htail
    · exact existsLoop_inv hex tiers (n + 1) htail
    · exact existsLoop_inv hex tiers (n + 1) htail
    · exact htail

theorem existsLoop_length (key : K) : ∀ (tiers : List T) (n : Nat),
    (existsLoop envs key n tiers).1.length = tiers.length
  | [], _ => rfl
  | tier :: tiers, n => by
    unfold existsLoop
    split <;> simp [existsLoop_length key tiers]

/-- A promotion whose calls return writes to every tier, whatever they return. -/
theorem promote_eq {key : K} {value : V}
    (hset : ∀ n tier, I tier → (Tier.set tier (envs n) key value none).2.Returned) (n : Nat)
    (faster : List T) (hI : ∀ tier ∈ faster, I tier) :
    promote envs n key value faster =
      ((eachTier (fun env tier => Tier.set tier env key value none) envs n faster none).1,
        .ok ()) := by
  have hret := eachTier_returns (f := fun env tier => Tier.set tier env key value none) hset faster n
    none hI
  unfold promote
  split
  · rename_i heq
    rw [heq] at hret
    exact hret.elim
  · rename_i heq
    rw [heq]

/-- The tiers of `missed`, each after it has been asked and has missed. -/
def asked (envs : Nat → Env K) (key : K) (missed : List T) : List T :=
  missed.mapIdx fun j tier => (Tier.get tier (envs j) key).1

/-- **A `get` answered by the first tier after `missed`** writes the value to those it has asked before. -/
theorem getLoop_hit {key : K} {value : V} {missed rest : List T} {tier tier' : T}
    (hset : ∀ n tier, I tier → (Tier.set tier (envs n) key value none).2.Returned)
    (hmiss : ∀ j t, missed[j]? = some t → (Tier.get t (envs j) key).2 = .ok none)
    (hhit : Tier.get tier (envs missed.length) key = (tier', .ok (some value)))
    (hasked : ∀ t ∈ asked envs key missed, I t) :
    getLoop envs key 0 [] (missed ++ tier :: rest) =
      ((eachTier (fun env t => Tier.set t env key value none) envs (missed.length + 1)
        (asked envs key missed) none).1 ++ tier' :: rest, .ok (some value)) := by
  have hmiss' : ∀ j t, missed[j]? = some t → (Tier.get t (envs (0 + j)) key).2 = .ok none := by
    intro j t ht
    rw [Nat.zero_add]
    exact hmiss j t ht
  rw [getLoop_misses missed (tier :: rest) [] 0 hmiss', Nat.zero_add, getLoop, hhit]
  simp only [Nat.zero_add, List.nil_append]
  rw [← asked, promote_eq hset (missed.length + 1) (asked envs key missed) hasked]

variable (envs I) in
/-- **What holds of every tier after a `get`**, when what a tier returns is written to faster ones:
`Q` is what is known of such a value. -/
theorem getLoop_inv (key : K) (Q : V → Prop)
    (hget : ∀ n tier, I tier → I (Tier.get tier (envs n) key).1 ∧
      ∀ v, (Tier.get tier (envs n) key).2 = .ok (some v) → Q v)
    (hset : ∀ n tier v, I tier → Q v → I (Tier.set tier (envs n) key v none).1) :
    ∀ (rest faster : List T) (n : Nat), (∀ tier ∈ faster, I tier) → (∀ tier ∈ rest, I tier) →
      (∀ tier ∈ (getLoop envs key n faster rest).1, I tier) ∧
        ∀ v, (getLoop envs key n faster rest).2 = .ok (some v) → Q v
  | [], faster, n, hfast, _ => ⟨hfast, fun v h => by cases h⟩
  | tier :: rest, faster, n, hfast, hrest => by
    obtain ⟨hI, hQ⟩ := hget n tier (hrest tier List.mem_cons_self)
    have hrest' : ∀ t ∈ rest, I t := fun t ht => hrest t (List.mem_cons_of_mem _ ht)
    have hnext : ∀ t', I t' → ∀ t ∈ faster ++ [t'], I t := fun t' ht' =>
      List.forall_mem_append.2 ⟨hfast, List.forall_mem_singleton.2 ht'⟩
    have hstop : ∀ (l : List T) (t' : T), (∀ t ∈ l, I t) → I t' → ∀ t ∈ l ++ t' :: rest, I t :=
      fun l t' hl ht' => List.forall_mem_append.2 ⟨hl, List.forall_mem_cons.2 ⟨ht', hrest'⟩⟩
    unfold getLoop
    split
    · rename_i tier' value heq
      rw [heq] at hI hQ
      have hval : Q value := hQ value rfl
      have hfaster := eachTier_inv (f := fun env tier => Tier.set tier env key value none)
        (fun n tier h => hset n tier value h hval) faster (n + 1) none hfast
      rw [← promote_tiers] at hfaster
      split
      · rename_i faster' p hp
        rw [hp] at hfaster
        exact ⟨hstop faster' tier' hfaster hI, fun v hv => by cases hv⟩
      · rename_i faster' _ _ hp
        rw [hp] at hfaster
        exact ⟨hstop faster' tier' hfaster hI, fun v hv => by cases hv; exact hval⟩
    · rename_i tier' heq
      rw [heq] at hI
      exact getLoop_inv key Q hget hset rest _ (n + 1) (hnext tier' hI) hrest'
    · rename_i tier' e heq
      rw [heq] at hI
      exact getLoop_inv key Q hget hset rest _ (n + 1) (hnext tier' hI) hrest'
    · rename_i tier' p heq
      rw [heq] at hI
      exact ⟨hstop faster tier' hfast hI, fun v hv => by cases hv⟩

variable (envs I) in
/-- A `get` returns if every tier call it makes does. -/
theorem getLoop_returns (key : K)
    (hget : ∀ n tier, I tier → I (Tier.get tier (envs n) key).1 ∧
      (Tier.get tier (envs n) key).2.Returned)
    (hset : ∀ n tier v, I tier → (Tier.set tier (envs n) key v none).2.Returned) :
    ∀ (rest faster : List T) (n : Nat), (∀ tier ∈ faster, I tier) → (∀ tier ∈ rest, I tier) →
      ∃ r, (getLoop envs key n faster rest).2 = .ok r
  | [], faster, n, _, _ => ⟨none, rfl⟩
  | tier :: rest, faster, n, hfast, hrest => by
    obtain ⟨hI, hret⟩ := hget n tier (hrest tier List.mem_cons_self)
    have hrest' : ∀ t ∈ rest, I t := fun t ht => hrest t (List.mem_cons_of_mem _ ht)
    have hnext : ∀ t', I t' → ∀ t ∈ faster ++ [t'], I t := fun t' ht' =>
      List.forall_mem_append.2 ⟨hfast, List.forall_mem_singleton.2 ht'⟩
    unfold getLoop
    split
    · rename_i tier' value heq
      rw [promote_eq (fun n tier h => hset n tier value h) (n + 1) faster hfast]
      exact ⟨some value, rfl⟩
    · rename_i tier' heq
      rw [heq] at hI
      exact getLoop_returns key hget hset rest _ (n + 1) (hnext tier' hI) hrest'
    · rename_i tier' e heq
      rw [heq] at hI
      exact getLoop_returns key hget hset rest _ (n + 1) (hnext tier' hI) hrest'
    · rename_i tier' p heq
      rw [heq] at hret
      exact hret.elim

end Loops

end MultiTierCache

/-! ## Sequential runs -/

/-- A call on a `MultiTierCache`. -/
inductive CacheOp (K V : Type) where
  | get (key : K)
  | set (key : K) (value : V)
  | setWithTtl (key : K) (value : V) (ttl : Duration)
  | delete (key : K)
  | «exists» (key : K)

/-- One call of a sequential run: the environments of its tier calls, its reply, the instant at which
it has finished. -/
structure CacheEvent (K V : Type) where
  envs : Nat → Env K
  op : CacheOp K V
  reply : Outcome (Reply V)
  finish : Instant

/-- A cache and the last reading of the clock. -/
structure CacheSession (T : Type) where
  cache : MultiTierCache T
  clock : Instant

variable {K V T : Type} [Tier K V T]

/-- Execute a call. -/
def MultiTierCache.exec (c : MultiTierCache T) (envs : Nat → Env K) :
    CacheOp K V → MultiTierCache T × Outcome (Reply V)
  | .get key => ((c.get envs key).1, (c.get envs key).2.map .value)
  | .set key value => ((c.set envs key value).1, (c.set envs key value).2.map fun _ => .unit)
  | .setWithTtl key value ttl =>
    ((c.setWithTtl envs key value ttl).1, (c.setWithTtl envs key value ttl).2.map fun _ => .unit)
  | .delete key => ((c.delete envs key).1, (c.delete envs key).2.map fun _ => .unit)
  | .exists key => ((c.exists envs key).1, (c.exists envs key).2.map .flag)

/-- One call, under a clock that does not go back. -/
structure CacheStep (s : CacheSession T) (e : CacheEvent K V) (t : CacheSession T) : Prop where
  clock_le : ∀ n, s.clock ≤ (e.envs n).now
  mono : ∀ m n, m ≤ n → (e.envs m).now ≤ (e.envs n).now
  le_finish : ∀ n, (e.envs n).now ≤ e.finish
  clock_eq : t.clock = e.finish
  exec_eq : s.cache.exec e.envs e.op = (t.cache, e.reply)

/-- No call adds or removes a tier. -/
theorem CacheStep.numTiers {s t : CacheSession T} {e : CacheEvent K V} (h : CacheStep s e t) :
    t.cache.numTiers = s.cache.numTiers := by
  have hexec := h.exec_eq
  cases hop : e.op with
  | get key =>
    rw [hop] at hexec
    rw [← (Prod.mk.inj hexec).1]
    exact (MultiTierCache.getLoop_length key s.cache.tiers [] 0).trans (Nat.zero_add _)
  | set key value =>
    rw [hop] at hexec
    rw [← (Prod.mk.inj hexec).1]
    exact MultiTierCache.eachTier_length _ _ _
  | setWithTtl key value ttl =>
    rw [hop] at hexec
    rw [← (Prod.mk.inj hexec).1]
    exact MultiTierCache.eachTier_length _ _ _
  | delete key =>
    rw [hop] at hexec
    rw [← (Prod.mk.inj hexec).1]
    exact MultiTierCache.eachTier_length _ _ _
  | «exists» key =>
    rw [hop] at hexec
    rw [← (Prod.mk.inj hexec).1]
    exact MultiTierCache.existsLoop_length key _ 0

theorem numTiers_of_run {s₀ s : CacheSession T} {es : List (CacheEvent K V)}
    (hrun : Run CacheStep s₀ es s) : s.cache.numTiers = s₀.cache.numTiers :=
  hrun.invariant (fun s => s.cache.numTiers = s₀.cache.numTiers) rfl fun _ _ _ h hstep =>
    hstep.numTiers.trans h

/-- The call writes `key`. -/
def CacheEvent.Writes (e : CacheEvent K V) (key : K) : Prop :=
  match e.op with
  | .set k _ => k = key
  | .setWithTtl k _ _ => k = key
  | .delete k => k = key
  | _ => False

/-- The event of a call all of whose tier calls see one environment. -/
def CacheSession.event (s : CacheSession T) (env : Env K) (op : CacheOp K V) : CacheEvent K V :=
  ⟨fun _ => env, op, (s.cache.exec (fun _ => env) op).2, env.now⟩

/-- The session after such a call. -/
def CacheSession.after (s : CacheSession T) (env : Env K) (op : CacheOp K V) : CacheSession T :=
  ⟨(s.cache.exec (fun _ => env) op).1, env.now⟩

theorem cacheStep_after (s : CacheSession T) (env : Env K) (op : CacheOp K V)
    (h : s.clock ≤ env.now) : CacheStep s (s.event env op) (s.after env op) :=
  ⟨fun _ => h, fun _ _ _ => Nat.le_refl _, fun _ => Nat.le_refl _, rfl, rfl⟩

/-- Run a list of such calls. -/
def CacheSession.script (s : CacheSession T) (calls : List (Env K × CacheOp K V)) :
    List (CacheEvent K V) × CacheSession T :=
  Run.script (fun s call => s.event call.1 call.2) (fun s call => s.after call.1 call.2) s calls

/-- Executed from `s`, the calls read a clock that does not go back and each meets `C`. -/
def CacheSession.Meets (C : CacheSession T → CacheEvent K V → Prop) (s : CacheSession T)
    (calls : List (Env K × CacheOp K V)) : Prop :=
  Run.Admits (fun s call => s.clock ≤ call.1.now ∧ C s (s.event call.1 call.2))
    (fun s call => s.after call.1 call.2) s calls

instance (C : CacheSession T → CacheEvent K V → Prop) [∀ s e, Decidable (C s e)]
    (s : CacheSession T) (calls : List (Env K × CacheOp K V)) : Decidable (s.Meets C calls) := by
  unfold CacheSession.Meets; infer_instance

theorem cacheRun_script {C : CacheSession T → CacheEvent K V → Prop}
    (calls : List (Env K × CacheOp K V)) (s : CacheSession T) (h : s.Meets C calls) :
    Run (Guarded C CacheStep) s (s.script calls).1 (s.script calls).2 :=
  Run.of_script (fun s call hok => ⟨hok.2, cacheStep_after s call.1 call.2 hok.1⟩) calls s h

/-- Two tiers that are new `MemoryCache`s. -/
theorem withPolicy_pair {K V P : Type} {cap cap' : Nat} {policy policy' : P} {h : 0 < cap}
    {h' : 0 < cap'} {tier : MemoryCache K V P}
    (ht : tier ∈ [MemoryCache.withPolicy cap policy h, .withPolicy cap' policy' h']) :
    ∃ cap policy hcap, tier = .withPolicy cap policy hcap := by
  rcases List.mem_cons.1 ht with rfl | ht
  · exact ⟨cap, policy, h, rfl⟩
  · exact ⟨cap', policy', h', List.mem_singleton.1 ht⟩

end CacheLayer
