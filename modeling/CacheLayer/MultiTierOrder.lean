import CacheLayer.MultiTierThreads

/-!
# Agreement of the tiers under concurrency

The writes of a key reach the first tier in some order, which gives each a version.  If the later tiers
see the `set`s in that order, and no promotion brings back a version that has been superseded
(`InOrder`), then what a tier holds is the value of the last version it has seen.

* `Inv`, `inv_step` — the invariant and its preservation;
* `applied_of_quiet` — when no operation is in flight, every tier has seen every write;
* `tiers_agree_when_quiet` — then all tiers that hold a key agree, and after a `delete` that began when
  every `set` of the key had returned none holds it; `tiers_disagree_when_quiet` has two runs that are
  not in order.
-/

set_option autoImplicit false

namespace CacheLayer

variable {K V P : Type}

open MemoryCache

namespace TierSystem

/-- The value written by version `n` of `key` (`some none` for a `delete`). -/
def written (s : TierSystem K V P) (key : K) : Nat → Option (Option V)
  | 0 => none
  | n + 1 => (s.writes key)[n]?

/-- `t` comes after `s`: histories are longer, tiers are the same in number. -/
structure Extends (s t : TierSystem K V P) : Prop where
  tiers : t.tiers.length = s.tiers.length
  writes : ∀ k, ∃ l, t.writes k = s.writes k ++ l
  applied : ∀ i k, s.applied i k ≤ t.applied i k

theorem Extends.written {s t : TierSystem K V P} (h : s.Extends t) {key : K} {n : Nat}
    {x : Option V} (hn : s.written key n = some x) : t.written key n = some x := by
  obtain ⟨l, hl⟩ := h.writes key
  cases n with
  | zero => cases hn
  | succ n =>
    show (t.writes key)[n]? = some x
    have hlt : n < (s.writes key).length := (List.getElem?_eq_some_iff.1 hn).1
    rw [hl, List.getElem?_append_left hlt]
    exact hn

theorem Extends.length_le {s t : TierSystem K V P} (h : s.Extends t) (key : K) :
    (s.writes key).length ≤ (t.writes key).length := by
  obtain ⟨l, hl⟩ := h.writes key
  rw [hl, List.length_append]
  omega

theorem le_length_of_written {s : TierSystem K V P} {key : K} {n : Nat} {x : Option V}
    (h : s.written key n = some x) : 0 < n ∧ n ≤ (s.writes key).length := by
  cases n with
  | zero => cases h
  | succ n =>
    have hlt : n < (s.writes key).length := (List.getElem?_eq_some_iff.1 h).1
    omega

end TierSystem

/-- The operation is a write of `key` that has version `n`. -/
def Client.Carries (key : K) (n : Nat) : Client K V → Prop
  | .writing w version i _ => 0 < i ∧ w.key = key ∧ version = n
  | .returned (.write w) version _ => w.key = key ∧ version = n
  | _ => False

/-- A returned operation that carries a version of a key is a write of that key. -/
theorem Client.Carries.of_returned {key : K} {n : Nat} {cl : Client K V} (h : cl.Carries key n)
    (hret : cl.Returned) : ∃ w reply, cl = .returned (.write w) n reply ∧ w.key = key := by
  cases cl with
  | searching _ _ => exact h.elim
  | promoting _ _ _ _ _ => exact h.elim
  | writing _ _ _ _ => exact hret.elim
  | returned call version reply =>
    cases call with
    | get _ => exact h.elim
    | write w =>
      obtain ⟨hkey, rfl⟩ := h
      exact ⟨w, reply, rfl, hkey⟩

namespace TierSystem

/-- What is known of an operation in flight or returned. -/
def ClientOk (s : TierSystem K V P) : Client K V → Prop
  | .searching _ _ => True
  | .promoting key value version _ _ => s.written key version = some (some value)
  | .writing w version i _ => 0 < i →
    s.written w.key version = some w.value ∧ ∀ j, j < i → version ≤ s.applied j w.key
  | .returned (.get _) _ _ => True
  | .returned (.write w) version _ => s.tiers ≠ [] →
    s.written w.key version = some w.value ∧ ∀ j, j < s.tiers.length → version ≤ s.applied j w.key

theorem ClientOk.mono {s t : TierSystem K V P} (h : s.Extends t) {cl : Client K V}
    (hc : s.ClientOk cl) : t.ClientOk cl := by
  cases cl with
  | searching key i => exact trivial
  | promoting key value version i m => exact h.written hc
  | writing w version i e =>
    intro hi
    obtain ⟨hw, ha⟩ := hc hi
    exact ⟨h.written hw, fun j hj => Nat.le_trans (ha j hj) (h.applied j _)⟩
  | returned call version reply =>
    cases call with
    | get key => exact trivial
    | write w =>
      intro hne
      have hne' : s.tiers ≠ [] := by
        intro hnil
        have hlen := h.tiers
        rw [hnil] at hlen
        exact hne (List.eq_nil_of_length_eq_zero hlen)
      obtain ⟨hw, ha⟩ := hc hne'
      refine ⟨h.written hw, fun j hj => ?_⟩
      rw [h.tiers] at hj
      exact Nat.le_trans (ha j hj) (h.applied j _)

variable [RustSized K] [RustSized V] [DecidableEq K]

/-- Tier `i` holds what the last version it has seen has written. -/
structure TierOk (s : TierSystem K V P) (i : Nat) (tier : MemoryCache K V P) : Prop where
  accounted : Accounted tier
  value : ∀ k entry, tier.entries.lookup k = some entry →
    s.written k (s.applied i k) = some (some entry.value)
  applied_le : ∀ k, s.applied i k ≤ (s.writes k).length

/-- A tier that has seen nothing new. -/
theorem TierOk.mono {s t : TierSystem K V P} {i : Nat} {tier : MemoryCache K V P}
    (h : TierOk s i tier) (hext : s.Extends t) (happ : ∀ k, t.applied i k = s.applied i k) :
    TierOk t i tier := by
  refine ⟨h.accounted, ?_, ?_⟩
  · intro k entry hl
    rw [happ]
    exact hext.written (h.value k entry hl)
  · intro k
    rw [happ]
    exact Nat.le_trans (h.applied_le k) (hext.length_le k)

/-- A tier that has seen version `n` of `key` and, if it holds `key`, holds what it has written. -/
theorem TierOk.write {s t : TierSystem K V P} {i n : Nat} {key : K} {x : Option V}
    {tier tier' : MemoryCache K V P} (h : TierOk s i tier) (hext : s.Extends t)
    (hn : t.written key n = some x) (hacc : Accounted tier')
    (happ : ∀ k, t.applied i k = if k = key then max (s.applied i k) n else s.applied i k)
    (hother : ∀ k, k ≠ key → ∀ entry, tier'.entries.lookup k = some entry →
      tier.entries.lookup k = some entry)
    (hkey : ∀ entry, tier'.entries.lookup key = some entry →
      s.applied i key ≤ n ∧ x = some entry.value) : TierOk t i tier' := by
  refine ⟨hacc, ?_, ?_⟩
  · intro k entry hl
    rw [happ]
    by_cases hk : k = key
    · subst hk
      obtain ⟨hle, rfl⟩ := hkey entry hl
      rw [if_pos rfl, Nat.max_eq_right hle]
      exact hn
    · rw [if_neg hk]
      exact hext.written (h.value k entry (hother k hk entry hl))
  · intro k
    rw [happ]
    have hs := Nat.le_trans (h.applied_le k) (hext.length_le k)
    by_cases hk : k = key
    · subst hk
      have hle := (le_length_of_written hn).2
      rw [if_pos rfl]
      omega
    · rw [if_neg hk]
      exact hs

/-- The invariant. -/
structure Inv (s : TierSystem K V P) : Prop where
  tier : ∀ i tier, s.tiers[i]? = some tier → TierOk s i tier
  client : ∀ cl ∈ s.clients, s.ClientOk cl
  carried : ∀ k n x, s.written k n = some x → ∃ cl ∈ s.clients, cl.Carries k n

theorem inv_fresh {tiers : List (MemoryCache K V P)}
    (h : ∀ tier ∈ tiers, ∃ cap policy hcap, tier = .withPolicy cap policy hcap) :
    (fresh tiers : TierSystem K V P).Inv := by
  refine ⟨?_, ?_, ?_⟩
  · intro i tier hi
    obtain ⟨cap, policy, hcap, rfl⟩ := h tier (List.mem_of_getElem? hi)
    refine ⟨Accounted.withPolicy cap policy hcap, ?_, fun k => Nat.le_refl 0⟩
    intro k entry hl
    cases hl
  · intro cl hcl
    cases hcl
  · intro k n x hn
    cases n with
    | zero => cases hn
    | succ n => cases hn

/-- A step of client `c` that leads from `cl` to `cl'`. -/
theorem Inv.update {s t : TierSystem K V P} {c : Nat} {cl cl' : Client K V} (h : s.Inv)
    (hext : s.Extends t) (hc : s.clients[c]? = some cl) (hclients : t.clients = s.clients.set c cl')
    (htier : ∀ i tier, t.tiers[i]? = some tier → TierOk t i tier) (hok : t.ClientOk cl')
    (hcarry : ∀ k n, cl.Carries k n → cl'.Carries k n)
    (hnew : ∀ k n x, t.written k n = some x → s.written k n = some x ∨ cl'.Carries k n) : t.Inv := by
  have hlt : c < s.clients.length := (List.getElem?_eq_some_iff.1 hc).1
  refine ⟨htier, ?_, ?_⟩
  · intro cl₁ hin
    rw [hclients] at hin
    rcases List.mem_or_eq_of_mem_set hin with hin | rfl
    · exact ClientOk.mono hext (h.client cl₁ hin)
    · exact hok
  · intro k n x hn
    rw [hclients]
    rcases hnew k n x hn with hold | hcar
    · obtain ⟨cl₁, hin, hcar⟩ := h.carried k n x hold
      obtain ⟨j, hj⟩ := List.mem_iff_getElem?.1 hin
      by_cases hjc : j = c
      · subst hjc
        rw [hc] at hj
        cases hj
        exact ⟨cl', List.mem_set hlt cl', hcarry k n hcar⟩
      · refine ⟨cl₁, ?_, hcar⟩
        refine List.mem_iff_getElem?.2 ⟨j, ?_⟩
        rw [List.getElem?_set_ne (Ne.symm hjc)]
        exact hj
    · exact ⟨cl', List.mem_set hlt cl', hcar⟩

/-- A step that changes tier `i` only. -/
theorem Inv.tiers_set {s t : TierSystem K V P} {i : Nat} {tier' : MemoryCache K V P} (h : s.Inv)
    (hext : s.Extends t) (htiers : t.tiers = s.tiers.set i tier')
    (happ : ∀ j k, j ≠ i → t.applied j k = s.applied j k) (hok : TierOk t i tier') :
    ∀ j tier, t.tiers[j]? = some tier → TierOk t j tier := by
  intro j tier hj
  rw [htiers] at hj
  by_cases hji : j = i
  · subst hji
    have hlt : j < (s.tiers.set j tier').length := (List.getElem?_eq_some_iff.1 hj).1
    rw [List.length_set] at hlt
    rw [List.getElem?_set_self hlt] at hj
    cases hj
    exact hok
  · rw [List.getElem?_set_ne (Ne.symm hji)] at hj
    exact (h.tier j tier hj).mono hext fun k => happ j k hji

/-! ## History updates -/

omit [RustSized K] [RustSized V] in
theorem le_apply (s : TierSystem K V P) (i : Nat) (key : K) (n j : Nat) (k : K) :
    s.applied j k ≤ (s.apply i key n).applied j k := by
  unfold apply
  simp only
  split
  · exact Nat.le_max_left _ _
  · exact Nat.le_refl _

omit [RustSized K] [RustSized V] in
theorem apply_self (s : TierSystem K V P) (i : Nat) (key : K) (n : Nat) (k : K) :
    (s.apply i key n).applied i k = if k = key then max (s.applied i k) n else s.applied i k := by
  simp [apply]

omit [RustSized K] [RustSized V] in
theorem apply_ne (s : TierSystem K V P) {i j : Nat} (hj : j ≠ i) (key k : K) (n : Nat) :
    (s.apply i key n).applied j k = s.applied j k := by
  simp [apply, hj]

omit [RustSized K] [RustSized V] in
/-- A write that reaches the first tier appends its value to the history of its key. -/
theorem reach_writes (s : TierSystem K V P) (w : CacheWrite K V) (n i : Nat) (k : K) :
    (s.reach w n i).writes k =
      if i = 0 ∧ k = w.key then s.writes k ++ [w.value] else s.writes k := by
  unfold reach
  by_cases hi : i = 0
  · subst hi
    by_cases hk : k = w.key <;> simp [apply, commit, hk]
  · simp [apply, hi]

omit [RustSized K] [RustSized V] in
theorem reach_applied (s : TierSystem K V P) (w : CacheWrite K V) (n i : Nat) :
    (s.reach w n i).applied = (s.apply i w.key (s.versionAt w n i)).applied := by
  unfold reach
  by_cases hi : i = 0
  · subst hi; rfl
  · simp [hi]

omit [RustSized K] [RustSized V] in
/-- At the first tier a write gets the next version; later it brings the one it has. -/
theorem reach_written (s : TierSystem K V P) (w : CacheWrite K V) {n i : Nat}
    (h : 0 < i → s.written w.key n = some w.value) :
    (s.reach w n i).written w.key (s.versionAt w n i) = some w.value := by
  by_cases hi : i = 0
  · subst hi
    show ((s.reach w n 0).writes w.key)[(s.writes w.key).length]? = some w.value
    rw [reach_writes, if_pos ⟨rfl, rfl⟩, List.getElem?_append_right (Nat.le_refl _), Nat.sub_self]
    rfl
  · have hn := h (Nat.pos_of_ne_zero hi)
    have hver : s.versionAt w n i = n := by simp [versionAt, hi]
    rw [hver]
    cases n with
    | zero => cases hn
    | succ n =>
      show ((s.reach w (n + 1) i).writes w.key)[n]? = some w.value
      rw [reach_writes, if_neg fun hc => hi hc.1]
      exact hn

omit [RustSized K] [RustSized V] in
/-- The only version that a write call adds is its own, at the first tier. -/
theorem written_of_reach (s : TierSystem K V P) (w : CacheWrite K V) {n i m : Nat} {k : K}
    {x : Option V} (h : (s.reach w n i).written k m = some x) :
    s.written k m = some x ∨ w.key = k ∧ s.versionAt w n i = m := by
  cases m with
  | zero => cases h
  | succ m =>
    replace h : ((s.reach w n i).writes k)[m]? = some x := h
    rw [reach_writes] at h
    by_cases hc : i = 0 ∧ k = w.key
    · rw [if_pos hc] at h
      obtain ⟨rfl, rfl⟩ := hc
      by_cases hm : m < (s.writes w.key).length
      · rw [List.getElem?_append_left hm] at h
        exact Or.inl h
      · have hlt := (List.getElem?_eq_some_iff.1 h).1
        rw [List.length_append, List.length_singleton] at hlt
        refine Or.inr ⟨rfl, ?_⟩
        show (s.writes w.key).length + 1 = m + 1
        omega
    · rw [if_neg hc] at h
      exact Or.inl h

omit [RustSized K] [RustSized V] in
theorem reach_putTier (s : TierSystem K V P) (w : CacheWrite K V) (n i j : Nat)
    (tier : MemoryCache K V P) :
    (s.putTier j tier).reach w n i = (s.reach w n i).putTier j tier := by
  unfold reach
  split <;> rfl

omit [RustSized K] [RustSized V] in
theorem le_reach (s : TierSystem K V P) (w : CacheWrite K V) (n i j : Nat) (k : K) :
    s.applied j k ≤ (s.reach w n i).applied j k := by
  rw [reach_applied]
  exact s.le_apply i w.key _ j k

omit [RustSized K] [RustSized V] in
theorem reach_extends_writes (s : TierSystem K V P) (w : CacheWrite K V) (n i : Nat) (k : K) :
    ∃ l, (s.reach w n i).writes k = s.writes k ++ l := by
  rw [reach_writes]
  split
  · exact ⟨_, rfl⟩
  · exact ⟨[], (List.append_nil _).symm⟩

omit [RustSized K] [RustSized V] [DecidableEq K] in
/-- With a tier and a client replaced, a system still extends the one it came from. -/
theorem extends_put (s : TierSystem K V P) {r : TierSystem K V P} (i c : Nat)
    (tier : MemoryCache K V P) (cl : Client K V) (htiers : r.tiers = s.tiers)
    (hwrites : ∀ k, ∃ l, r.writes k = s.writes k ++ l) (happ : ∀ j k, s.applied j k ≤ r.applied j k) :
    s.Extends ((r.putTier i tier).putClient c cl) := by
  refine ⟨?_, hwrites, happ⟩
  show (r.tiers.set i tier).length = s.tiers.length
  rw [List.length_set, htiers]

/-! ## Steps -/

theorem Inv.clock {s : TierSystem K V P} (h : s.Inv) (now : Instant) : { s with clock := now }.Inv := by
  have hext : s.Extends { s with clock := now } :=
    ⟨rfl, fun _ => ⟨[], (List.append_nil _).symm⟩, fun _ _ => Nat.le_refl _⟩
  refine ⟨?_, ?_, h.carried⟩
  · intro i tier hi
    exact (h.tier i tier hi).mono hext fun _ => rfl
  · intro cl hcl
    exact ClientOk.mono hext (h.client cl hcl)

theorem Inv.invoke {s : TierSystem K V P} (h : s.Inv) (call : CacheCall K V) :
    { s with clients := s.clients ++ [call.start] }.Inv := by
  have hext : s.Extends { s with clients := s.clients ++ [call.start] } :=
    ⟨rfl, fun _ => ⟨[], (List.append_nil _).symm⟩, fun _ _ => Nat.le_refl _⟩
  refine ⟨?_, ?_, ?_⟩
  · intro i tier hi
    exact (h.tier i tier hi).mono hext fun _ => rfl
  · intro cl hcl
    rcases List.mem_append.1 hcl with hcl | hcl
    · exact ClientOk.mono hext (h.client cl hcl)
    · rw [List.mem_singleton.1 hcl]
      cases call with
      | get key => exact trivial
      | write w => exact fun hi => absurd hi (Nat.lt_irrefl 0)
  · intro k n x hn
    obtain ⟨cl, hin, hcar⟩ := h.carried k n x hn
    exact ⟨cl, List.mem_append_left _ hin, hcar⟩

/-- An operation returns. -/
theorem Inv.return {s : TierSystem K V P} {c : Nat} {cl cl' : Client K V} (h : s.Inv)
    (hc : s.clients[c]? = some cl) (hok : s.ClientOk cl')
    (hcarry : ∀ k n, cl.Carries k n → cl'.Carries k n) : (s.putClient c cl').Inv := by
  have hext : s.Extends (s.putClient c cl') :=
    ⟨rfl, fun _ => ⟨[], (List.append_nil _).symm⟩, fun _ _ => Nat.le_refl _⟩
  refine h.update hext hc rfl ?_ (ClientOk.mono hext hok) hcarry fun k n x hn => Or.inl hn
  intro i tier hi
  exact (h.tier i tier hi).mono hext fun _ => rfl

/-- A write that has passed every tier was first applied, and reached them all. -/
theorem Inv.returned_ok {s : TierSystem K V P} {c i n : Nat} {w : CacheWrite K V}
    {lastError : Option CacheError} (h : s.Inv)
    (hc : s.clients[c]? = some (.writing w n i lastError)) (hi : s.tiers[i]? = none)
    (reply : Outcome (Reply V)) : s.ClientOk (.returned (.write w) n reply) := by
  intro hne
  have hlen := List.getElem?_eq_none_iff.1 hi
  have hpos := List.length_pos_iff.2 hne
  have hcl : 0 < i → s.written w.key n = some w.value ∧
    ∀ j, j < i → n ≤ s.applied j w.key := h.client _ (List.mem_of_getElem? hc)
  obtain ⟨hw, ha⟩ := hcl (by omega)
  exact ⟨hw, fun j hj => ha j (by omega)⟩

variable [EvictionPolicy K P]

/-- A tier answers with the write last applied to it. -/
theorem TierOk.written_of_get {s : TierSystem K V P} {i : Nat}
    {tier tier' : MemoryCache K V P} (h : s.TierOk i tier) {env : Env K} {key : K} {value : V}
    (hg : tier.get env key = (tier', .ok (some value))) :
    s.written key (s.applied i key) = some (some value) := by
  rcases get_cases tier env key with ⟨e, -, -, hg'⟩ | ⟨e, hl, -, hg'⟩ | ⟨-, hg'⟩
  · rw [hg'] at hg
    cases hg
  · rw [hg'] at hg
    cases hg
    exact h.value key e hl
  · rw [hg'] at hg
    cases hg

/-- A `get` of a tier. -/
theorem Inv.get {s : TierSystem K V P} {c i : Nat} {cl cl' : Client K V} {tier : MemoryCache K V P}
    (h : s.Inv) (hc : s.clients[c]? = some cl) (hi : s.tiers[i]? = some tier) (env : Env K) (key : K)
    (hok : s.ClientOk cl') (hcarry : ∀ k n, cl.Carries k n → cl'.Carries k n) :
    ((s.putTier i (tier.get env key).1).putClient c cl').Inv := by
  have hext := s.extends_put i c (tier.get env key).1 cl' rfl
    (fun _ => ⟨[], (List.append_nil _).symm⟩) fun _ _ => Nat.le_refl _
  refine h.update hext hc rfl ?_ (ClientOk.mono hext hok) hcarry fun k n x hn => Or.inl hn
  refine h.tiers_set hext rfl (fun _ _ _ => rfl) ?_
  have htier := h.tier i tier hi
  refine ⟨(htier.accounted.get env key).1, ?_, htier.applied_le⟩
  intro k entry hl
  obtain ⟨e₀, h₀, heq⟩ := get_lookup hl
  rw [heq]
  exact htier.value k e₀ h₀

/-- A promotion reaches a tier that has seen no later write of the key. -/
theorem Inv.promote {s : TierSystem K V P} {c i m n : Nat} {key : K} {value : V}
    {tier : MemoryCache K V P} (h : s.Inv) (hc : s.clients[c]? = some (.promoting key value n i m))
    (hi : s.tiers[i]? = some tier) (hle : s.applied i key ≤ n) (env : Env K) :
    (((s.putTier i (tier.set env key value none).1).apply i key n).putClient c
      (.promoting key value n (i + 1) m)).Inv := by
  have hext := s.extends_put (r := s.apply i key n) i c (tier.set env key value none).1
    (.promoting key value n (i + 1) m) rfl (fun _ => ⟨[], (List.append_nil _).symm⟩)
    (s.le_apply i key n)
  have hwritten : s.written key n = some (some value) := h.client _ (List.mem_of_getElem? hc)
  refine h.update hext hc rfl ?_ hwritten (fun k n hcar => hcar.elim) fun k n x hn => Or.inl hn
  refine h.tiers_set hext rfl (fun j k hj => s.apply_ne hj key k n) ?_
  have htier := h.tier i tier hi
  refine htier.write hext hwritten (htier.accounted.set key value (representable_none _)).1
    (s.apply_self i key n) ?_ ?_
  · intro k hk entry hl
    exact set_sub tier env key value none hk hl
  · intro entry hl
    rw [set_lookup_self hl]
    exact ⟨hle, rfl⟩

omit [RustSized K] [RustSized V] [EvictionPolicy K P] in
/-- The write may be applied to tier `i`: it is a `delete`, or a `set_with_ttl` with a representable
expiry and no later write of the key has reached the tier. -/
def WriteInOrder (s : TierSystem K V P) (w : CacheWrite K V) (n i : Nat) (env : Env K) : Prop :=
  match w with
  | .setWithTtl key _ ttl => Representable env.now (some ttl) ∧ s.applied i key ≤ s.versionAt w n i
  | .delete _ => True

/-- The tier call of a write in order: it returns, and leaves the value of the write or nothing. -/
theorem tierCall_spec {s : TierSystem K V P} {w : CacheWrite K V} {n i : Nat} {env : Env K}
    {tier : MemoryCache K V P} (hacc : Accounted tier) (horder : s.WriteInOrder w n i env) :
    (w.tierCall tier env).2.Returned ∧ Accounted (w.tierCall tier env).1 ∧
      (∀ k, k ≠ w.key → ∀ entry, (w.tierCall tier env).1.entries.lookup k = some entry →
        tier.entries.lookup k = some entry) ∧
      ∀ entry, (w.tierCall tier env).1.entries.lookup w.key = some entry →
        s.applied i w.key ≤ s.versionAt w n i ∧ w.value = some entry.value := by
  cases w with
  | setWithTtl key value ttl =>
    obtain ⟨hr, hle⟩ := horder
    obtain ⟨hacc', -, hret⟩ := hacc.set key value hr
    refine ⟨hret, hacc', ?_, ?_⟩
    · intro k hk entry hl
      exact set_sub tier env key value (some ttl) hk hl
    · intro entry hl
      replace hl : (tier.set env key value (some ttl)).1.entries.lookup key = some entry := hl
      rw [set_lookup_self hl]
      exact ⟨hle, rfl⟩
  | delete key =>
    obtain ⟨hacc', -, hok⟩ := hacc.delete key
    refine ⟨?_, hacc', ?_, ?_⟩
    · show (tier.delete key).2.Returned
      rw [hok]
      trivial
    · intro k hk entry hl
      replace hl : (tier.delete key).1.entries.lookup k = some entry := hl
      rw [delete_entries] at hl
      exact AList.sub_erase _ _ k entry hl
    · intro entry hl
      replace hl : (tier.delete key).1.entries.lookup key = some entry := hl
      rw [delete_entries] at hl
      simp at hl

/-- A write reaches a tier. -/
theorem Inv.write {s : TierSystem K V P} {c i n : Nat} {w : CacheWrite K V}
    {last : Option CacheError} {tier : MemoryCache K V P} {env : Env K} (h : s.Inv)
    (hc : s.clients[c]? = some (.writing w n i last)) (hi : s.tiers[i]? = some tier)
    (horder : s.WriteInOrder w n i env) (last' : Option CacheError) :
    (((s.putTier i (w.tierCall tier env).1).reach w n i).putClient c
      (.writing w (s.versionAt w n i) (i + 1) last')).Inv := by
  have hclient : 0 < i → s.written w.key n = some w.value ∧ ∀ j, j < i → n ≤ s.applied j w.key :=
    h.client _ (List.mem_of_getElem? hc)
  have hwritten : (s.reach w n i).written w.key (s.versionAt w n i) = some w.value :=
    s.reach_written w fun hi => (hclient hi).1
  have hlater : 0 < i → s.versionAt w n i = n := fun hi => if_neg (Nat.pos_iff_ne_zero.1 hi)
  rw [reach_putTier]
  have hext := s.extends_put (r := s.reach w n i) i c (w.tierCall tier env).1
    (.writing w (s.versionAt w n i) (i + 1) last') (s.reach_tiers w n i)
    (s.reach_extends_writes w n i) (s.le_reach w n i)
  have hclients : (((s.reach w n i).putTier i (w.tierCall tier env).1).putClient c
      (.writing w (s.versionAt w n i) (i + 1) last')).clients =
        s.clients.set c (.writing w (s.versionAt w n i) (i + 1) last') := by
    show (s.reach w n i).clients.set c _ = _
    rw [reach_clients]
  have htiers : (((s.reach w n i).putTier i (w.tierCall tier env).1).putClient c
      (.writing w (s.versionAt w n i) (i + 1) last')).tiers =
        s.tiers.set i (w.tierCall tier env).1 := by
    show (s.reach w n i).tiers.set i _ = _
    rw [reach_tiers]
  refine h.update hext hc hclients ?_ ?_ ?_ ?_
  · obtain ⟨-, hacc, hother, hkey⟩ := tierCall_spec (h.tier i tier hi).accounted horder
    refine h.tiers_set hext htiers ?_ ?_
    · intro j k hj
      show (s.reach w n i).applied j k = s.applied j k
      rw [reach_applied]
      exact s.apply_ne hj w.key k _
    · refine (h.tier i tier hi).write hext hwritten hacc ?_ hother hkey
      intro k
      show (s.reach w n i).applied i k = _
      rw [reach_applied]
      exact s.apply_self i w.key _ k
  · intro _
    refine ⟨hwritten, ?_⟩
    intro j hj
    show s.versionAt w n i ≤ (s.reach w n i).applied j w.key
    by_cases hji : j = i
    · subst hji
      rw [reach_applied, apply_self, if_pos rfl]
      exact Nat.le_max_right _ _
    · have hlt : j < i := by omega
      rw [hlater (by omega)]
      exact Nat.le_trans ((hclient (by omega)).2 j hlt) (s.le_reach w n i j w.key)
  · rintro k m ⟨hi, hk, hm⟩
    exact ⟨Nat.succ_pos i, hk, (hlater hi).trans hm⟩
  · intro k m x hn
    rcases s.written_of_reach w hn with hold | ⟨hk, hm⟩
    · exact Or.inl hold
    · exact Or.inr ⟨Nat.succ_pos i, hk, hm⟩

/-! ## Runs -/

/-- A tier call of a `set_with_ttl` or of a promotion comes in order: no later write of the key has
reached the tier, and the expiry instant is representable. -/
def InOrder (s : TierSystem K V P) (l : TierLabel K V) : Prop :=
  match l with
  | .invoke _ => True
  | .call c env =>
    match s.clients[c]? with
    | some (.promoting key _ version i m) => i < m → s.applied i key ≤ version
    | some (.writing w version i _) => i < s.tiers.length → s.WriteInOrder w version i env
    | _ => True

theorem inv_call {s t : TierSystem K V P} {c : Nat} {env : Env K} (h : s.Inv)
    (horder : s.InOrder (.call c env)) (hstep : s.call c env = some t) : t.Inv := by
  unfold InOrder at horder
  simp only at horder
  unfold call at hstep
  split at hstep
  · rename_i key i hc
    split at hstep
    · cases hstep
      exact h.return hc trivial fun k n hcar => hcar.elim
    · rename_i tier hi
      have htier := h.tier i tier hi
      obtain ⟨-, ⟨r, hr⟩, -⟩ := htier.accounted.get env key
      rcases hg : tier.get env key with ⟨tier', out⟩
      rw [hg] at hstep hr
      have hfst : tier' = (tier.get env key).1 := by rw [hg]
      subst hr
      cases r with
      | none =>
        cases hstep
        rw [hfst]
        exact h.get hc hi env key trivial fun k n hcar => hcar.elim
      | some value =>
        cases hstep
        rw [hfst]
        exact h.get hc hi env key (htier.written_of_get hg) fun k n hcar => hcar.elim
  · rename_i key value version i m hc
    rw [hc] at horder
    split at hstep
    · cases hstep
      exact h.return hc trivial fun k n hcar => hcar.elim
    · rename_i tier hi
      have him : i < m := by
        have hlt := (List.getElem?_eq_some_iff.1 hi).1
        rw [List.length_take] at hlt
        omega
      rw [List.getElem?_take_of_lt him] at hi
      have hret : (tier.set env key value none).2.Returned :=
        ((h.tier i tier hi).accounted.set key value (representable_none _)).2.2
      have hinv := h.promote hc hi (horder him) env
      split at hstep
      · rename_i heq
        rw [heq] at hret
        exact hret.elim
      · rename_i heq
        rw [heq] at hinv
        cases hstep
        exact hinv
  · rename_i w version i lastError hc
    rw [hc] at horder
    split at hstep
    · rename_i hi
      split at hstep
      all_goals
        cases hstep
        exact h.return hc (h.returned_ok hc hi _) fun k n hcar => ⟨hcar.2.1, hcar.2.2⟩
    · rename_i tier hi
      have hlt := (List.getElem?_eq_some_iff.1 hi).1
      have hret := (tierCall_spec (h.tier i tier hi).accounted (horder hlt)).1
      have hinv := h.write hc hi (horder hlt)
      split at hstep
      · rename_i heq
        rw [heq] at hinv
        cases hstep
        exact hinv lastError
      · rename_i e heq
        rw [heq] at hinv
        cases hstep
        exact hinv (some e)
      · rename_i heq
        rw [heq] at hret
        exact hret.elim
  · cases hstep
  · cases hstep

/-- **A step in order preserves the invariant.** -/
theorem inv_step {s t : TierSystem K V P} {l : TierLabel K V} (h : s.Inv) (horder : s.InOrder l)
    (hstep : s.step l = some t) : t.Inv := by
  cases l with
  | invoke call =>
    cases hstep
    exact h.invoke call
  | call c env =>
    unfold step at hstep
    simp only at hstep
    split at hstep
    · exact inv_call (h.clock env.now) horder hstep
    · cases hstep

omit [EvictionPolicy K P] in
/-- When no operation is in flight, every tier has seen every write. -/
theorem Inv.applied_of_quiet {s : TierSystem K V P} (h : s.Inv) (hquiet : s.Quiet) {i : Nat}
    {tier : MemoryCache K V P} (hi : s.tiers[i]? = some tier) (k : K) :
    s.applied i k = (s.writes k).length := by
  have hle := (h.tier i tier hi).applied_le k
  cases hlen : (s.writes k).length with
  | zero => omega
  | succ n =>
    have hlt : n < (s.writes k).length := by omega
    obtain ⟨cl, hin, hcar⟩ := h.carried k (n + 1) _ (List.getElem?_eq_getElem hlt)
    obtain ⟨w, reply, rfl, rfl⟩ := hcar.of_returned (hquiet cl hin)
    have hpos := (List.getElem?_eq_some_iff.1 hi).1
    have hne : s.tiers ≠ [] := List.ne_nil_of_length_pos (by omega)
    have hseen := (h.client _ hin hne).2 i hpos
    omega

omit [EvictionPolicy K P] in
/-- What a tier holds when no operation is in flight is the last write. -/
theorem Inv.value_of_quiet {s : TierSystem K V P} (h : s.Inv) (hquiet : s.Quiet) {i : Nat}
    {tier : MemoryCache K V P} (hi : s.tiers[i]? = some tier) {k : K} {entry : CachedValue V}
    (hl : tier.entries.lookup k = some entry) :
    s.written k (s.writes k).length = some (some entry.value) := by
  rw [← h.applied_of_quiet hquiet hi k]
  exact (h.tier i tier hi).value k entry hl

/-! ## Clients over time -/

omit [RustSized K] [RustSized V] [EvictionPolicy K P] in
theorem put_reach (s : TierSystem K V P) (w : CacheWrite K V) (n i c : Nat)
    (tier : MemoryCache K V P) (cl : Client K V) :
    (((s.putTier i tier).reach w n i).putClient c cl).clients = s.clients.set c cl ∧
      (((s.putTier i tier).reach w n i).putClient c cl).tiers.length = s.tiers.length ∧
      ∀ k, (s.writes k).length ≤
        ((((s.putTier i tier).reach w n i).putClient c cl).writes k).length := by
  rw [reach_putTier]
  refine ⟨?_, ?_, ?_⟩
  · show (s.reach w n i).clients.set c cl = _
    rw [reach_clients]
  · show ((s.reach w n i).tiers.set i tier).length = _
    rw [reach_tiers, List.length_set]
  · intro k
    obtain ⟨l, hl⟩ := s.reach_extends_writes w n i k
    show _ ≤ ((s.reach w n i).writes k).length
    rw [hl, List.length_append]
    omega

/-- What a step of a client does to the list of clients and to the history of writes. -/
theorem call_cases {s t : TierSystem K V P} {c : Nat} {env : Env K} (h : s.call c env = some t) :
    ∃ cl cl', s.clients[c]? = some cl ∧ ¬ cl.Returned ∧ t.clients = s.clients.set c cl' ∧
      cl'.callOf = cl.callOf ∧ t.tiers.length = s.tiers.length ∧
      (∀ k, (s.writes k).length ≤ (t.writes k).length) ∧
      (s.tiers ≠ [] → ∀ k n, cl'.Carries k n → cl.Carries k n ∨ n = (s.writes k).length + 1) := by
  unfold call at h
  split at h
  · rename_i key i hc
    split at h
    · cases h
      exact ⟨_, _, hc, id, rfl, rfl, rfl, fun _ => Nat.le_refl _, fun _ _ _ hcar => hcar.elim⟩
    · split at h
      all_goals
        cases h
        exact ⟨_, _, hc, id, rfl, rfl, List.length_set, fun _ => Nat.le_refl _,
          fun _ _ _ hcar => hcar.elim⟩
  · rename_i key value version i m hc
    split at h
    · cases h
      exact ⟨_, _, hc, id, rfl, rfl, rfl, fun _ => Nat.le_refl _, fun _ _ _ hcar => hcar.elim⟩
    · split at h
      all_goals
        cases h
        exact ⟨_, _, hc, id, rfl, rfl, List.length_set, fun _ => Nat.le_refl _,
          fun _ _ _ hcar => hcar.elim⟩
  · rename_i w version i lastError hc
    split at h
    · rename_i hi
      have hcarry : s.tiers ≠ [] → ∀ k n, w.key = k ∧ version = n →
          (0 < i ∧ w.key = k ∧ version = n) ∨ n = (s.writes k).length + 1 := by
        intro hne k n hcar
        have hlen := List.getElem?_eq_none_iff.1 hi
        have hpos := List.length_pos_iff.2 hne
        exact Or.inl ⟨by omega, hcar⟩
      split at h
      all_goals
        cases h
        exact ⟨_, _, hc, id, rfl, rfl, rfl, fun _ => Nat.le_refl _, hcarry⟩
    · have hversion : ∀ k n, w.key = k → s.versionAt w version i = n →
          (0 < i ∧ w.key = k ∧ version = n) ∨ n = (s.writes k).length + 1 := by
        intro k n hk hn
        unfold versionAt at hn
        split at hn
        · subst hk
          exact Or.inr hn.symm
        · exact Or.inl ⟨by omega, hk, hn⟩
      split at h
      · rename_i tier' _ _
        cases h
        obtain ⟨hcl, htl, hw⟩ := s.put_reach w version i c tier'
          (.writing w (s.versionAt w version i) (i + 1) lastError)
        exact ⟨_, _, hc, id, hcl, rfl, htl, hw, fun _ k n hcar => hversion k n hcar.2.1 hcar.2.2⟩
      · rename_i tier' e _
        cases h
        obtain ⟨hcl, htl, hw⟩ := s.put_reach w version i c tier'
          (.writing w (s.versionAt w version i) (i + 1) (some e))
        exact ⟨_, _, hc, id, hcl, rfl, htl, hw, fun _ k n hcar => hversion k n hcar.2.1 hcar.2.2⟩
      · rename_i tier' p _
        cases h
        obtain ⟨hcl, htl, hw⟩ := s.put_reach w version i c tier'
          (.returned (.write w) (s.versionAt w version i) (.panic p))
        exact ⟨_, _, hc, id, hcl, rfl, htl, hw, fun _ k n hcar => hversion k n hcar.1 hcar.2⟩
  · cases h
  · cases h

/-- After a `delete` of `key` by client `d`, begun when `L` writes of `key` had reached the first tier:
the sets of `key` have returned and were among these, the `delete` is not. -/
structure AfterDelete (key : K) (L d : Nat) (s : TierSystem K V P) : Prop where
  length_le : L ≤ (s.writes key).length
  sets : ∀ cl ∈ s.clients, cl.callOf.SetsKey key → cl.Returned ∧ ∀ n, cl.Carries key n → n ≤ L
  deleter : ∃ cl, s.clients[d]? = some cl ∧ cl.callOf = .write (.delete key) ∧
    ∀ n, cl.Carries key n → L < n

theorem AfterDelete.call {s t : TierSystem K V P} {key : K} {L d c : Nat} {env : Env K}
    (h : AfterDelete key L d s) (hne : s.tiers ≠ []) (hstep : s.call c env = some t) :
    AfterDelete key L d t := by
  obtain ⟨cl, cl', hc, hret, hclients, hcall, -, hlen, hcar⟩ := call_cases hstep
  have hlt : c < s.clients.length := (List.getElem?_eq_some_iff.1 hc).1
  refine ⟨Nat.le_trans h.length_le (hlen key), ?_, ?_⟩
  · intro cl₁ hin hset
    rw [hclients] at hin
    rcases List.mem_or_eq_of_mem_set hin with hin | rfl
    · exact h.sets cl₁ hin hset
    · rw [hcall] at hset
      exact absurd (h.sets cl (List.mem_of_getElem? hc) hset).1 hret
  · obtain ⟨cl₁, hd, hdel, hL⟩ := h.deleter
    rw [hclients]
    by_cases hdc : d = c
    · subst hdc
      rw [hc] at hd
      cases hd
      refine ⟨cl', List.getElem?_set_self hlt, hcall.trans hdel, ?_⟩
      intro n hn
      rcases hcar hne key n hn with hn | rfl
      · exact hL n hn
      · exact Nat.lt_succ_of_le h.length_le
    · exact ⟨cl₁, by rw [List.getElem?_set_ne (Ne.symm hdc)]; exact hd, hdel, hL⟩

theorem AfterDelete.step {s t : TierSystem K V P} {key : K} {L d : Nat} {l : TierLabel K V}
    (h : AfterDelete key L d s) (hne : s.tiers ≠ [])
    (hl : ∀ v ttl, l ≠ .invoke (.write (.setWithTtl key v ttl))) (hstep : s.step l = some t) :
    AfterDelete key L d t := by
  cases l with
  | invoke call =>
    cases hstep
    refine ⟨h.length_le, ?_, ?_⟩
    · intro cl hin hset
      rcases List.mem_append.1 hin with hin | hin
      · exact h.sets cl hin hset
      · rw [List.mem_singleton.1 hin] at hset
        cases call with
        | get k => exact hset.elim
        | write w =>
          cases w with
          | setWithTtl k v ttl =>
            replace hset : k = key := hset
            subst hset
            exact absurd rfl (hl v ttl)
          | delete k => exact hset.elim
    · obtain ⟨cl, hd, hrest⟩ := h.deleter
      have hlt : d < s.clients.length := (List.getElem?_eq_some_iff.1 hd).1
      exact ⟨cl, by rw [List.getElem?_append_left hlt]; exact hd, hrest⟩
  | call c env =>
    unfold TierSystem.step at hstep
    simp only at hstep
    split at hstep
    · have hclock : AfterDelete key L d { s with clock := env.now } :=
        ⟨h.length_le, h.sets, h.deleter⟩
      exact hclock.call hne hstep
    · cases hstep

omit [EvictionPolicy K P] in
/-- A `delete` begins when every `set` of its key has returned. -/
theorem Inv.afterDelete {s : TierSystem K V P} (h : s.Inv) (hne : s.tiers ≠ []) {key : K}
    (hsets : ∀ cl ∈ s.clients, cl.callOf.SetsKey key → cl.Returned) :
    AfterDelete key (s.writes key).length s.clients.length
      { s with clients := s.clients ++ [CacheCall.start (.write (.delete key))] } := by
  refine ⟨Nat.le_refl _, ?_, ?_⟩
  · intro cl hin hset
    rcases List.mem_append.1 hin with hin | hin
    · refine ⟨hsets cl hin hset, ?_⟩
      intro n hcar
      have hok := h.client cl hin
      obtain ⟨w, reply, rfl, rfl⟩ := hcar.of_returned (hsets cl hin hset)
      exact (le_length_of_written (hok hne).1).2
    · rw [List.mem_singleton.1 hin] at hset
      exact hset.elim
  · refine ⟨_, List.getElem?_concat_length, rfl, ?_⟩
    intro n hcar
    exact absurd hcar.1 (Nat.lt_irrefl 0)

omit [EvictionPolicy K P] in
/-- When no operation is in flight after such a `delete`, no tier holds the key. -/
theorem Inv.absent_of_quiet {s : TierSystem K V P} (h : s.Inv) (hquiet : s.Quiet) {key : K}
    {L d : Nat} (hdel : AfterDelete key L d s) {tier : MemoryCache K V P} (ht : tier ∈ s.tiers) :
    key ∉ tier.entries := by
  intro hin
  obtain ⟨entry, hl⟩ := AList.exists_lookup hin
  obtain ⟨i, hi⟩ := List.mem_iff_getElem?.1 ht
  have hne : s.tiers ≠ [] := List.ne_nil_of_mem ht
  have hlast := h.value_of_quiet hquiet hi hl
  -- the last write is one of `set`s, so it is no later than the first `L`
  obtain ⟨cl, hcl, hcar⟩ := h.carried key _ _ hlast
  have hle : (s.writes key).length ≤ L := by
    obtain ⟨w, reply, rfl, hk⟩ := hcar.of_returned (hquiet cl hcl)
    have hw := (h.client _ hcl hne).1
    have hset : CacheCall.SetsKey key (.write w) := by
      rw [hk, hlast] at hw
      cases w with
      | setWithTtl k v ttl => exact hk
      | delete k => cases hw
    exact (hdel.sets _ hcl hset).2 _ hcar
  -- but the `delete` has reached the first tier after them
  obtain ⟨cl', hd, hcall, hlate⟩ := hdel.deleter
  have hin' := List.mem_of_getElem? hd
  have hret' := hquiet cl' hin'
  have hok' := h.client cl' hin'
  cases cl' with
  | searching _ _ => exact hret'.elim
  | promoting _ _ _ _ _ => exact hret'.elim
  | writing _ _ _ _ => exact hret'.elim
  | returned call version r =>
    replace hcall : call = .write (.delete key) := hcall
    subst hcall
    have hversion := (le_length_of_written (hok' hne).1).2
    have hafter := hlate version ⟨rfl, rfl⟩
    replace hversion : version ≤ (s.writes key).length := hversion
    omega

theorem inv_of_run {es : List (TierLabel K V)} {s t : TierSystem K V P} (hinv : s.Inv)
    (hrun : Run (Guarded InOrder Steps) s es t) : t.Inv :=
  hrun.invariant Inv hinv fun _ _ _ h hs => inv_step h hs.1 hs.2

theorem step_tiers_length {s t : TierSystem K V P} {l : TierLabel K V} (h : s.step l = some t) :
    t.tiers.length = s.tiers.length := by
  cases l with
  | invoke call => cases h; rfl
  | call c env =>
    unfold TierSystem.step at h
    simp only at h
    split at h
    · obtain ⟨_, _, _, _, _, _, hlen, _⟩ := call_cases h
      exact hlen
    · cases h

/-- The run after such a `delete`. -/
theorem afterDelete_of_run {key : K} {L d : Nat} {es : List (TierLabel K V)}
    {s t : TierSystem K V P} (hdel : AfterDelete key L d s) (hne : s.tiers ≠ [])
    (hno : ∀ l ∈ es, ∀ v ttl, l ≠ .invoke (.write (.setWithTtl key v ttl)))
    (hrun : Run Steps s es t) : AfterDelete key L d t := by
  have hI := (hrun.guarded_of_forall hno).invariant
    (fun s : TierSystem K V P => s.tiers ≠ [] ∧ AfterDelete key L d s) ⟨hne, hdel⟩ ?_
  · exact hI.2
  · rintro s l t ⟨hne, hdel⟩ ⟨hl, hstep⟩
    refine ⟨?_, hdel.step hne hl hstep⟩
    intro hnil
    have hlen := step_tiers_length hstep
    rw [hnil] at hlen
    exact hne (List.eq_nil_of_length_eq_zero hlen.symm)

end TierSystem

open TierSystem

variable [DecidableEq K] [EvictionPolicy K P] [RustSized K] [RustSized V]

/-- **Agreement of the tiers.**  Any number of clients call `get`, `set_with_ttl` and `delete` on fresh
tiers, each tier call one atomic step, and every tier call of a `set_with_ttl` or of a promotion finds
that no later write of its key has reached the tier.  Then in every state in which no operation is in
flight all tiers that hold a key hold the same value; and if a `delete` of the key began when every
`set_with_ttl` of it had returned, and none was begun later, then no tier holds the key. -/
theorem tiers_agree_when_quiet {tiers : List (MemoryCache K V P)}
    (hfresh : ∀ tier ∈ tiers, ∃ cap policy hcap, tier = .withPolicy cap policy hcap) :
    (∀ es s, Run (Guarded InOrder Steps) (fresh tiers) es s → s.Quiet →
      ∀ (k : K) (x y : MemoryCache K V P) (ex ey : CachedValue V), x ∈ s.tiers → y ∈ s.tiers →
        x.entries.lookup k = some ex → y.entries.lookup k = some ey → ex.value = ey.value) ∧
    ∀ es₁ s₁ key es₂ s, Run (Guarded InOrder Steps) (fresh tiers) es₁ s₁ →
      (∀ cl ∈ s₁.clients, cl.callOf.SetsKey key → cl.Returned) →
      Run (Guarded InOrder Steps) s₁ (.invoke (.write (.delete key)) :: es₂) s →
      (∀ l ∈ es₂, ∀ v ttl, l ≠ .invoke (.write (.setWithTtl key v ttl))) → s.Quiet →
        ∀ x ∈ s.tiers, key ∉ x.entries := by
  constructor
  · intro es s hrun hquiet k x y ex ey hx hy hlx hly
    have hinv := inv_of_run (inv_fresh hfresh) hrun
    obtain ⟨i, hi⟩ := List.mem_iff_getElem?.1 hx
    obtain ⟨j, hj⟩ := List.mem_iff_getElem?.1 hy
    have hvx := hinv.value_of_quiet hquiet hi hlx
    have hvy := hinv.value_of_quiet hquiet hj hly
    rw [hvx] at hvy
    exact Option.some.inj (Option.some.inj hvy)
  · intro es₁ s₁ key es₂ s hrun₁ hsets hrun₂ hno hquiet x hx
    have hinv₁ := inv_of_run (inv_fresh hfresh) hrun₁
    have hinv := inv_of_run hinv₁ hrun₂
    have hlen : s.tiers.length = s₁.tiers.length :=
      hrun₂.invariant (fun s : TierSystem K V P => s.tiers.length = s₁.tiers.length) rfl
        fun _ _ _ h hs => (step_tiers_length hs.2).trans h
    have hne : s₁.tiers ≠ [] := by
      intro hnil
      rw [hnil] at hlen
      rw [List.eq_nil_of_length_eq_zero hlen] at hx
      cases hx
    obtain ⟨s₂, ⟨-, hbegin⟩, hrest⟩ := hrun₂.cons_inv
    cases hbegin
    have hdel := afterDelete_of_run (hinv₁.afterDelete hne hsets) hne hno hrest.of_guarded
    exact hinv.absent_of_quiet hquiet hdel hx

/-! ## Runs out of order -/

instance (s : TierSystem K V P) (w : CacheWrite K V) (n i : Nat) (env : Env K) :
    Decidable (s.WriteInOrder w n i env) :=
  match w with
  | .setWithTtl key value ttl => inferInstanceAs (Decidable (Representable env.now (some ttl) ∧
      s.applied i key ≤ s.versionAt (.setWithTtl key value ttl) n i))
  | .delete _ => isTrue trivial

instance (s : TierSystem K V P) (l : TierLabel K V) : Decidable (s.InOrder l) := by
  unfold InOrder
  split
  · infer_instance
  · split <;> infer_instance

instance (s : TierSystem K V P) : Decidable s.Quiet := by
  unfold Quiet; infer_instance

/-- Two tiers, the first with room for one entry. -/
def smallOverLarge : List (MemoryCache UInt64 UInt64 (BoxedPolicy UInt64)) :=
  [.withPolicy 16 (.lru (LRU.new _ 1024 (Nat.succ_pos (nat_lit 1023)))) (Nat.succ_pos (nat_lit 15)),
    .withPolicy 1024 (.lru (LRU.new _ 1024 (Nat.succ_pos (nat_lit 1023)))) (Nat.succ_pos (nat_lit 1023))]

theorem smallOverLarge_fresh :
    ∀ tier ∈ smallOverLarge, ∃ cap policy hcap, tier = .withPolicy cap policy hcap :=
  fun _ ht => withPolicy_pair ht

/-- The next step of a client, at instant 0. -/
def next (c : Nat) : TierLabel UInt64 UInt64 := .call c ⟨0, .id _⟩

/-- A client sets key 1. -/
def setFirst : List (TierLabel UInt64 UInt64) :=
  [.invoke (.write (.setWithTtl 1 10 5)), next 0, next 0, next 0]

/-- A `set` of key 2 evicts it from the first tier, and a `get` misses it there. -/
def missFirst : List (TierLabel UInt64 UInt64) :=
  setFirst ++ [.invoke (.write (.setWithTtl 2 20 5)), next 1, next 1, next 1, .invoke (.get 1), next 2]

/-- A `delete` of it begins; the `get` finds it in the second tier and promotes it; the `delete` runs to its
end, and then the `get` returns. -/
def deleteBeside : List (TierLabel UInt64 UInt64) :=
  [next 2, next 2, next 3, next 3, next 3, next 2]

/-- Steps that are checked to be in order. -/
def orderedStep (s : TierSystem UInt64 UInt64 (BoxedPolicy UInt64)) (l : TierLabel UInt64 UInt64) :
    Option (TierSystem UInt64 UInt64 (BoxedPolicy UInt64)) :=
  if s.InOrder l then s.step l else none

/-- The state before the `delete`. -/
def firstMissed : TierSystem UInt64 UInt64 (BoxedPolicy UInt64) :=
  (play orderedStep (fresh smallOverLarge) missFirst).get (by decide)

/-- The state in which all have returned. -/
def firstDeleted : TierSystem UInt64 UInt64 (BoxedPolicy UInt64) :=
  (play orderedStep firstMissed (.invoke (.write (.delete 1)) :: deleteBeside)).get (by decide)

theorem tiers_agree_after_delete :
    (∃ cl ∈ firstMissed.clients, ¬ cl.Returned) ∧
      (firstDeleted.tiers.all fun x => decide ((1 : UInt64) ∉ x.entries)) = true := by
  have hset : Run (Guarded InOrder Steps) (fresh smallOverLarge) missFirst firstMissed :=
    Run.of_play_guarded (Option.some_get _).symm
  have hdelete : Run (Guarded InOrder Steps) firstMissed (.invoke (.write (.delete 1)) :: deleteBeside)
      firstDeleted := Run.of_play_guarded (Option.some_get _).symm
  have hlate : ∀ l ∈ deleteBeside, ∀ v ttl,
      l ≠ TierLabel.invoke (.write (.setWithTtl (1 : UInt64) v ttl)) := by
    intro l hl v ttl h
    subst h
    simp [deleteBeside, next] at hl
  refine ⟨by decide, List.all_eq_true.2 fun x hx => decide_eq_true ?_⟩
  exact (tiers_agree_when_quiet smallOverLarge_fresh).2 missFirst _ 1 _ _ hset (by decide) hdelete
    hlate (by decide) x hx

/-- Two clients set key 1; the second passes the first between the tiers. -/
def crossingSets : List (TierLabel UInt64 UInt64) :=
  [.invoke (.write (.setWithTtl 1 10 5)), .invoke (.write (.setWithTtl 1 20 5)), next 0, next 1, next 1,
    next 0, next 0, next 1]

/-- Key 1 is set and, by a set of key 2, evicted from the first tier; a `get` finds it in the second,
then a `delete` runs to its end, then the `get` promotes what it found. -/
def latePromotion : List (TierLabel UInt64 UInt64) :=
  [.invoke (.write (.setWithTtl 1 10 5)), next 0, next 0, next 0,
    .invoke (.write (.setWithTtl 2 20 5)), next 1, next 1, next 1, .invoke (.get 1), next 2, next 2,
    .invoke (.write (.delete 1)), next 3, next 3, next 3, next 2, next 2]

/-- The state after these steps. -/
def afterSteps (es : List (TierLabel UInt64 UInt64)) :
    Option (TierSystem UInt64 UInt64 (BoxedPolicy UInt64)) :=
  play TierSystem.step (fresh smallOverLarge) es

/-- What a tier holds of key 1. -/
def holdsFirst (s : TierSystem UInt64 UInt64 (BoxedPolicy UInt64)) : List (Option UInt64) :=
  s.tiers.map fun tier => (tier.entries.lookup 1).map CachedValue.value

/-- When nothing is in flight any more, the two tiers hold different values after the crossing sets;
and a tier holds the deleted key after the late promotion. -/
theorem tiers_disagree_when_quiet :
    ∃ s t, Run Steps (fresh smallOverLarge) crossingSets s ∧ s.Quiet ∧
      holdsFirst s = [some 20, some 10] ∧
      Run Steps (fresh smallOverLarge) latePromotion t ∧ t.Quiet ∧ holdsFirst t = [some 10, none] :=
  ⟨(afterSteps crossingSets).get (by decide), (afterSteps latePromotion).get (by decide),
    Run.of_play (Option.some_get _).symm, by decide, by decide,
    Run.of_play (Option.some_get _).symm, by decide, by decide⟩

end CacheLayer
