import CacheLayer.MemoryThreads

/-!
# No lost update inside a `MemoryCache`

A `set` has returned; no other call that writes its key ran beside it or after it, and the policy has
not selected the key since it was inserted.  Is the key still there?

Two removals act on what an earlier access has seen: `get` removes a key that it saw expired, and
`evict_for_space` removes a key that the policy named.  Each may come after the `set` has replaced the
entry that was seen.

* `Held`, `held_step` — the invariant, and its preservation when neither happens (`Current`);
* `update_kept` — then the value is resident until it expires; `update_lost` has a run for each of the
  two removals in which a returned `set` has left nothing.
-/

set_option autoImplicit false

namespace CacheLayer

variable {K V P : Type}

/-- The call removes or replaces the entry of `key`. -/
def Op.Writes (key : K) : Op K V → Prop
  | .set k _ _ => k = key
  | .delete k => k = key
  | .clear => True
  | _ => False

instance Op.decidableWrites [DecidableEq K] (key : K) : (op : Op K V) → Decidable (op.Writes key)
  | .set k _ _ => inferInstanceAs (Decidable (k = key))
  | .delete k => inferInstanceAs (Decidable (k = key))
  | .clear => isTrue trivial
  | .get _ => isFalse id
  | .exists _ => isFalse id

/-- Value and expiry of a resident key. -/
def MemoryCache.content [DecidableEq K] (c : MemoryCache K V P) (key : K) :
    Option (V × Option Instant) :=
  (c.entries.lookup key).map fun e => (e.value, e.expiresAt)

theorem CachedValue.isExpired_congr {e e' : CachedValue V} (h : e.expiresAt = e'.expiresAt)
    {now : Instant} : e.isExpired now = e'.isExpired now := by
  unfold isExpired
  rw [h]

/-- An entry that has expired stays expired. -/
theorem CachedValue.isExpired_mono {e : CachedValue V} {now later : Instant} (hle : now ≤ later)
    (h : e.isExpired now = true) : e.isExpired later = true := by
  obtain ⟨expires, hexp, hlt⟩ := isExpired_iff.1 h
  exact isExpired_iff.2 ⟨expires, hexp, Nat.lt_of_lt_of_le hlt hle⟩

section Content

variable [DecidableEq K] {c c' : MemoryCache K V P} {key k : K}

theorem MemoryCache.content_congr (h : c'.entries = c.entries) : c'.content key = c.content key := by
  unfold content
  rw [h]

theorem MemoryCache.content_removeEntry (h : k ≠ key) :
    (c.removeEntry k).content key = c.content key := by
  simp [content, removeEntry, AList.lookup_erase_ne (Ne.symm h)]

theorem MemoryCache.content_insertEntry (cached : CachedValue V) (h : k ≠ key) :
    (c.insertEntry k cached).content key = c.content key := by
  simp [content, insertEntry, AList.lookup_insert_ne (Ne.symm h)]

theorem MemoryCache.content_insertEntry_self (cached : CachedValue V) :
    (c.insertEntry key cached).content key = some (cached.value, cached.expiresAt) := by
  simp [content, insertEntry]

theorem MemoryCache.content_touchEntry (now : Instant) :
    (c.touchEntry k now).content key = c.content key := by
  unfold content
  rw [touchEntry_lookup, Option.map_map]
  congr 1
  funext e
  simp only [Function.comp_apply]
  split <;> rfl

theorem MemoryCache.content_releaseEntry {n : Nat} {o : Option Panic}
    (h : c.releaseEntry n = (c', o)) : c'.content key = c.content key := by
  have he := releaseEntry_entries c n
  rw [h] at he
  exact content_congr he

theorem MemoryCache.exists_of_content {value : V} {expiresAt : Option Instant}
    (h : c.content key = some (value, expiresAt)) :
    ∃ e, c.entries.lookup key = some e ∧ e.value = value ∧ e.expiresAt = expiresAt := by
  obtain ⟨e, he, heq⟩ := Option.map_eq_some_iff.1 h
  cases heq
  exact ⟨e, he, rfl, rfl⟩

end Content

namespace Thread

/-- The key that the thread is about to remove as a victim. -/
def victim : Thread K V → Option K
  | .set _ _ _ _ (.drop key) => some key
  | _ => none

/-- The key that the thread is about to remove because it saw it expired. -/
def outdated : Thread K V → Option K
  | .get key .remove => some key
  | _ => none

/-- The thread is about to insert its entry. -/
def inserting : Thread K V → Bool
  | .set _ _ _ _ (.insert _) => true
  | _ => false

/-- Every entry that the `set` has built has this value, and it has built one if it returned `Ok`. -/
def Carries (value : V) : Thread K V → Prop
  | .set _ _ _ _ (.insert cached) => cached.value = value
  | .set _ _ _ _ (.credit cached) => cached.value = value
  | .set _ _ _ _ (.count cached _) => cached.value = value
  | .set _ _ _ _ (.record cached) => cached.value = value
  | .returned _ inserted reply =>
    (∀ cached ∈ inserted, cached.value = value) ∧ (reply = .ok .unit → inserted.isSome)
  | _ => True

theorem inserted_of_victim {key : K} {th : Thread K V} (h : th.victim = some key) :
    th.inserted = none := by
  unfold victim at h
  split at h
  · rfl
  · cases h

theorem op_of_victim {key : K} {th : Thread K V} (h : th.victim = some key) :
    ∃ k v t, th.op = .set k v t := by
  cases th with
  | set k v t oldSize phase => exact ⟨k, v, t, rfl⟩
  | _ => cases h

variable [DecidableEq K] [EvictionPolicy K P] [RustSized K] [RustSized V] {c : MemoryCache K V P}
  {now : Instant} {order : HashOrder K} {th : Thread K V} {r : MemoryCache K V P × Thread K V}

/-- A `set` carries its value from the argument to the reply. -/
theorem step_carries {key : K} {value : V} {ttl : Option Duration}
    (h : th.step c now order = some r) (hop : th.op = .set key value ttl) (hc : th.Carries value) :
    r.2.Carries value := by
  cases th with
  | set k v t oldSize phase =>
    cases hop
    cases h
    fun_cases setStep c now order key value ttl oldSize phase <;> simp_all [Carries]
  | returned op inserted reply => cases h
  | _ => cases hop

/-- A `set` inserts in one step, and what it has inserted stays known. -/
theorem step_inserted {key : K} {value : V} {ttl : Option Duration} {cached : CachedValue V}
    (h : th.step c now order = some r) (hop : th.op = .set key value ttl)
    (hin : r.2.inserted = some cached) :
    th.inserted = some cached ∨ ∃ oldSize,
      th = .set key value ttl oldSize (.insert cached) ∧ r.1 = c.insertEntry key cached := by
  cases th with
  | set k v t oldSize phase =>
    cases hop
    cases h
    revert hin
    fun_cases setStep c now order key value ttl oldSize phase <;> intro hin <;> simp_all [inserted]
  | returned op inserted reply => cases h
  | _ => cases hop

/-- The victim that the policy names if the thread is about to ask it for one. -/
def selected (policy : P) (order : HashOrder K) : Thread K V → Option K
  | .set _ _ _ _ .evict => (EvictionPolicy.evict policy order).1
  | _ => none

/-- A thread comes to remove a victim when the policy has named it. -/
theorem step_victim {key : K} (h : th.step c now order = some r) (hv : r.2.victim = some key) :
    th.selected c.evictionPolicy order = some key := by
  cases th with
  | set k v t oldSize phase =>
    cases h
    revert hv
    fun_cases setStep c now order k v t oldSize phase <;> intro hv <;> simp_all [victim, selected]
  | returned op inserted reply => cases h
  | _ =>
    obtain ⟨k, v, t, he⟩ := op_of_victim hv
    rw [step_op h] at he
    cases he

/-- After its insertion a `set` touches no entry. -/
theorem step_content_inserted {key : K} {cached : CachedValue V} (h : th.step c now order = some r)
    (hin : th.inserted = some cached) : r.1.content key = c.content key := by
  cases th with
  | set k v t oldSize phase =>
    cases h
    cases phase with
    | credit cached => rfl
    | count cached finalSize => rfl
    | record cached => rfl
    | _ => cases hin
  | returned op inserted reply => cases h
  | _ => cases hin

/-- **Who can change what the cache holds of a key**: a `get` that saw it expired, a `set` that is about
to remove it as a victim, and a call that writes it. -/
theorem step_content (key : K) (h : th.step c now order = some r) :
    r.1.content key = c.content key ∨ th.outdated = some key ∨ th.victim = some key ∨
      th.op.Writes key := by
  cases th with
  | get k phase =>
    cases h
    cases phase with
    | remove =>
      by_cases hk : k = key
      · exact Or.inr (Or.inl (congrArg some hk))
      · exact Or.inl (MemoryCache.content_removeEntry hk)
    | stamp value => exact Or.inl (MemoryCache.content_touchEntry now)
    | _ =>
      refine Or.inl (MemoryCache.content_congr ?_)
      simp only [getStep]
      first | rfl | (split <;> rfl)
  | set k v t oldSize phase =>
    cases h
    by_cases hk : k = key
    · exact Or.inr (Or.inr (Or.inr hk))
    · cases phase with
      | remove =>
        refine Or.inl ?_
        simp only [setStep]
        split
        · exact MemoryCache.content_removeEntry hk
        · rfl
      | insert cached => exact Or.inl (MemoryCache.content_insertEntry cached hk)
      | drop victim =>
        by_cases hv : victim = key
        · exact Or.inr (Or.inr (Or.inl (congrArg some hv)))
        · refine Or.inl ?_
          simp only [setStep]
          split
          · exact MemoryCache.content_removeEntry hv
          · rfl
      | release n =>
        refine Or.inl ?_
        simp only [setStep]
        split
        all_goals rename_i heq; exact MemoryCache.content_releaseEntry (c := c.countEviction) heq
      | _ =>
        refine Or.inl (MemoryCache.content_congr ?_)
        simp only [setStep] <;> first | rfl | (split <;> rfl)
  | delete k removed =>
    cases h
    by_cases hk : k = key
    · exact Or.inr (Or.inr (Or.inr hk))
    · refine Or.inl ?_
      cases removed with
      | none =>
        simp only [deleteStep]
        split
        · exact MemoryCache.content_removeEntry hk
        · rfl
      | some n =>
        simp only [deleteStep]
        split
        all_goals rename_i heq; exact MemoryCache.content_releaseEntry heq
  | «exists» k found =>
    cases h
    refine Or.inl (MemoryCache.content_congr ?_)
    fun_cases existsStep c now k found <;> rfl
  | clear emptied => exact Or.inr (Or.inr (Or.inr trivial))
  | returned op inserted reply => cases h

end Thread

namespace MemorySystem

/-! ## Conditions on the steps -/

/-- Thread `i` has inserted its entry. -/
def HasInserted (s : MemorySystem K V P) (i : Nat) : Prop :=
  (s.threads[i]?.bind Thread.inserted).isSome

instance (s : MemorySystem K V P) (i : Nat) : Decidable (s.HasInserted i) :=
  inferInstanceAs (Decidable ((s.threads[i]?.bind Thread.inserted).isSome = true))

section Conditions

variable [DecidableEq K]

/-- No other call that writes `key` is made, and the policy does not select `key` once thread `i` has
inserted it. -/
def Unrivalled [EvictionPolicy K P] (i : Nat) (key : K) (s : MemorySystem K V P) :
    MemoryLabel K V → Prop
  | .invoke op => ¬ op.Writes key
  | .run j order => s.HasInserted i →
    ∀ th ∈ s.threads[j]?, th.selected s.cache.evictionPolicy order ≠ some key
  | .tick _ => True

instance [EvictionPolicy K P] (i : Nat) (key : K) (s : MemorySystem K V P) :
    (l : MemoryLabel K V) → Decidable (Unrivalled i key s l)
  | .invoke op => inferInstanceAs (Decidable (¬ op.Writes key))
  | .run j order => inferInstanceAs (Decidable (s.HasInserted i →
      ∀ th ∈ s.threads[j]?, th.selected s.cache.evictionPolicy order ≠ some key))
  | .tick _ => isTrue trivial

/-- The removals act on entries that are still there: once thread `i` has inserted, a `get` removes
`key` only if its entry has expired or is gone; and when thread `i` inserts, no thread is between the
selection of `key` as a victim and its removal. -/
def Current (i : Nat) (key : K) (s : MemorySystem K V P) : MemoryLabel K V → Prop
  | .run j _ => ∀ th ∈ s.threads[j]?,
    (th.outdated = some key → s.HasInserted i → ¬ s.cache.HoldsLive s.clock key) ∧
    (j = i → th.inserting → ∀ th' ∈ s.threads, th'.victim ≠ some key)
  | .invoke _ => True
  | .tick _ => True

instance (i : Nat) (key : K) (s : MemorySystem K V P) :
    (l : MemoryLabel K V) → Decidable (Current i key s l)
  | .run j _ => inferInstanceAs (Decidable (∀ th ∈ s.threads[j]?,
      (th.outdated = some key → s.HasInserted i → ¬ s.cache.HoldsLive s.clock key) ∧
      (j = i → th.inserting → ∀ th' ∈ s.threads, th'.victim ≠ some key)))
  | .invoke _ => isTrue trivial
  | .tick _ => isTrue trivial

end Conditions

variable [DecidableEq K] [EvictionPolicy K P] [RustSized K] [RustSized V]

/-! ## The invariant -/

/-- Thread `i` is the only call in flight that writes `key`; once it has inserted, no thread is about to
remove `key` as a victim, and `key` has the entry that it inserted unless that has expired. -/
structure Held (i : Nat) (key : K) (value : V) (ttl : Option Duration) (s : MemorySystem K V P) :
    Prop where
  caller : ∃ th, s.threads[i]? = some th ∧ th.op = .set key value ttl ∧ th.Carries value
  rivals : ∀ j th, s.threads[j]? = some th → j ≠ i → th.op.Writes key → th.Returned
  spared : s.HasInserted i → ∀ th ∈ s.threads, th.victim ≠ some key
  kept : ∀ th cached, s.threads[i]? = some th → th.inserted = some cached →
    cached.isExpired s.clock = true ∨ s.cache.content key = some (cached.value, cached.expiresAt)

omit [EvictionPolicy K P] [RustSized K] [RustSized V] in
/-- When the `set` is called and every other call that writes the key has returned. -/
theorem held_start {s : MemorySystem K V P} {key : K} {value : V} {ttl : Option Duration}
    (hdone : ∀ th ∈ s.threads, th.op.Writes key → th.Returned) :
    Held s.threads.length key value ttl (s.invoke (.set key value ttl)) := by
  have hget : (s.invoke (.set key value ttl)).threads[s.threads.length]? =
      some (.start (.set key value ttl)) := by simp [invoke]
  refine ⟨⟨_, hget, rfl, trivial⟩, ?_, ?_, ?_⟩
  · intro j th hj hne hw
    rcases get_of_invoke hj with hj | ⟨hlen, -⟩
    · exact hdone th (List.mem_of_getElem? hj) hw
    · exact absurd hlen hne
  · intro hin
    simp [HasInserted, hget] at hin
  · intro th cached hth hin
    rw [hget] at hth
    cases hth
    cases hin

omit [EvictionPolicy K P] [RustSized K] [RustSized V] in
/-- Another call, which does not write the key, is made. -/
theorem Held.invoke {i : Nat} {key : K} {value : V} {ttl : Option Duration} {s : MemorySystem K V P}
    {op : Op K V} (h : Held i key value ttl s) (hop : ¬ op.Writes key) :
    Held i key value ttl (s.invoke op) := by
  obtain ⟨th₀, hi, hset, hcarry⟩ := h.caller
  have hi' : (s.invoke op).threads[i]? = some th₀ := invoke_get hi
  have hins : (s.invoke op).HasInserted i ↔ s.HasInserted i := by
    simp only [HasInserted, hi, hi']
  refine ⟨⟨th₀, hi', hset, hcarry⟩, ?_, ?_, ?_⟩
  · intro j th hj hne hw
    rcases get_of_invoke hj with hj | ⟨-, rfl⟩
    · exact h.rivals j th hj hne hw
    · rw [Thread.op_start] at hw
      exact absurd hw hop
  · intro hin th hth hd
    rcases List.mem_append.1 hth with hth | hth
    · exact h.spared (hins.1 hin) th hth hd
    · rw [List.mem_singleton.1 hth] at hd
      cases op <;> cases hd
  · intro th cached hth hin
    rw [hi'] at hth
    rw [← hi] at hth
    exact h.kept th cached hth hin

omit [DecidableEq K] [EvictionPolicy K P] [RustSized K] [RustSized V] in
theorem hasInserted_iff {s : MemorySystem K V P} {i : Nat} {th : Thread K V}
    (hi : s.threads[i]? = some th) : s.HasInserted i ↔ ∃ cached, th.inserted = some cached := by
  simp [HasInserted, hi, Option.isSome_iff_exists]

/-- The `set` itself takes a step. -/
theorem Held.advance_self {i : Nat} {key : K} {value : V} {ttl : Option Duration}
    {s : MemorySystem K V P} {order : HashOrder K} {th : Thread K V}
    {r : MemoryCache K V P × Thread K V} (h : Held i key value ttl s)
    (hcur : Current i key s (.run i order)) (hi : s.threads[i]? = some th)
    (hr : th.step s.cache s.clock order = some r) : Held i key value ttl (s.advance i r) := by
  obtain ⟨th₀, hi₀, hset, hcarry⟩ := h.caller
  obtain rfl : th = th₀ := Option.some.inj (hi.symm.trans hi₀)
  have hget := advance_get_self (r := r) hi
  refine ⟨⟨r.2, hget, (Thread.step_op hr).trans hset, Thread.step_carries hr hset hcarry⟩, ?_, ?_, ?_⟩
  · intro j th' hj hne hw
    rw [advance_get_ne (Ne.symm hne)] at hj
    exact h.rivals j th' hj hne hw
  · intro hin th' hth' hd
    obtain ⟨cached, hcached⟩ := (hasInserted_iff hget).1 hin
    rcases mem_advance hth' with hth' | rfl
    · rcases Thread.step_inserted hr hset hcached with hold | ⟨o, rfl, -⟩
      · exact h.spared ((hasInserted_iff hi).2 ⟨_, hold⟩) th' hth' hd
      · exact (hcur _ hi).2 rfl rfl th' hth' hd
    · rw [Thread.inserted_of_victim hd] at hcached
      cases hcached
  · intro th' cached hth' hin
    rw [hget] at hth'
    cases hth'
    rcases Thread.step_inserted hr hset hin with hold | ⟨o, rfl, hcache⟩
    · rcases h.kept th cached hi hold with hexp | hkept
      · exact Or.inl hexp
      · refine Or.inr ?_
        show r.1.content key = _
        rw [Thread.step_content_inserted hr hold]
        exact hkept
    · refine Or.inr ?_
      show r.1.content key = _
      rw [hcache]
      exact MemoryCache.content_insertEntry_self cached

/-- Another thread takes a step. -/
theorem Held.advance_other {i j : Nat} {key : K} {value : V} {ttl : Option Duration}
    {s : MemorySystem K V P} {order : HashOrder K} {th : Thread K V}
    {r : MemoryCache K V P × Thread K V} (h : Held i key value ttl s) (hne : j ≠ i)
    (hun : Unrivalled i key s (.run j order)) (hcur : Current i key s (.run j order))
    (hj : s.threads[j]? = some th) (hr : th.step s.cache s.clock order = some r) :
    Held i key value ttl (s.advance j r) := by
  obtain ⟨th₀, hi, hset, hcarry⟩ := h.caller
  have hi' : (s.advance j r).threads[i]? = some th₀ := (advance_get_ne hne).trans hi
  have hins : (s.advance j r).HasInserted i ↔ s.HasInserted i := by
    simp only [HasInserted, hi, hi']
  refine ⟨⟨th₀, hi', hset, hcarry⟩, ?_, ?_, ?_⟩
  · intro j' th' hj' hne' hw
    by_cases heq : j' = j
    · subst heq
      rw [advance_get_self hj] at hj'
      cases hj'
      rw [Thread.step_op hr] at hw
      exact absurd (h.rivals j' th hj hne' hw) (Thread.step_not_returned hr)
    · rw [advance_get_ne (Ne.symm heq)] at hj'
      exact h.rivals j' th' hj' hne' hw
  · intro hin th' hth' hd
    rcases mem_advance hth' with hth' | rfl
    · exact h.spared (hins.1 hin) th' hth' hd
    · exact hun (hins.1 hin) th hj (Thread.step_victim hr hd)
  · intro th' cached hth' hin
    rw [hi'] at hth'
    cases hth'
    have hhas := (hasInserted_iff hi).2 ⟨cached, hin⟩
    rcases h.kept th₀ cached hi hin with hexp | hkept
    · exact Or.inl hexp
    · rcases Thread.step_content key hr with hsame | hget | hdrop | hwrites
      · refine Or.inr ?_
        show r.1.content key = _
        rw [hsame]
        exact hkept
      · -- a `get` that saw an earlier entry expired: by `Current` this one has expired too
        obtain ⟨e, hlookup, -, hexp⟩ := MemoryCache.exists_of_content hkept
        refine Or.inl ?_
        rw [← CachedValue.isExpired_congr hexp]
        exact eq_true_of_ne_false fun hlive =>
          (hcur th hj).1 hget hhas ⟨e, hlookup, hlive⟩
      · exact absurd hdrop (h.spared hhas th (List.mem_of_getElem? hj))
      · exact absurd (h.rivals j th hj hne hwrites) (Thread.step_not_returned hr)

theorem held_step {i : Nat} {key : K} {value : V} {ttl : Option Duration} {s t : MemorySystem K V P}
    {l : MemoryLabel K V} (h : Held i key value ttl s) (hun : Unrivalled i key s l)
    (hcur : Current i key s l) (hstep : Steps s l t) : Held i key value ttl t := by
  obtain ⟨op, rfl, rfl⟩ | ⟨j, order, th, r, rfl, hj, hr, rfl⟩ | ⟨now, rfl, hle, rfl⟩ :=
    step_cases hstep
  · exact h.invoke hun
  · by_cases hji : j = i
    · subst hji
      exact h.advance_self hcur hj hr
    · exact h.advance_other hji hun hcur hj hr
  · refine ⟨h.caller, h.rivals, h.spared, ?_⟩
    intro th cached hth hin
    exact (h.kept th cached hth hin).imp_left (CachedValue.isExpired_mono hle)

/-- **No lost update.**  A `set` is called in a state in which every other `set` or `delete` of its key
and every `clear` has returned; any number of calls interleave with it and follow it, none of them such
a write, and the policy does not select the key after the insertion.  If no removal acts on an entry
that is no longer there (`Current`), then in every state in which the `set` has returned `Ok` and its
entry has not expired the key is resident with the value of the `set`. -/
theorem update_kept {s₁ s₂ : MemorySystem K V P} {key : K} {value : V} {ttl : Option Duration}
    {es : List (MemoryLabel K V)} {inserted : Option (CachedValue V)}
    (hdone : ∀ th ∈ s₁.threads, th.op.Writes key → th.Returned)
    (hrun : Run (Guarded (fun s l => Unrivalled s₁.threads.length key s l ∧
      Current s₁.threads.length key s l) Steps) (s₁.invoke (.set key value ttl)) es s₂)
    (hret : s₂.threads[s₁.threads.length]? =
      some (.returned (.set key value ttl) inserted (.ok .unit)))
    (hlive : ∀ cached ∈ inserted, cached.isExpired s₂.clock = false) :
    ∃ e, s₂.cache.entries.lookup key = some e ∧ e.value = value := by
  have hheld : Held s₁.threads.length key value ttl s₂ :=
    hrun.invariant _ (held_start hdone) fun _ _ _ h hs => held_step h hs.1.1 hs.1.2 hs.2
  obtain ⟨th, hth, -, hcarry⟩ := hheld.caller
  rw [hret] at hth
  cases hth
  obtain ⟨cached, rfl⟩ := Option.isSome_iff_exists.1 (hcarry.2 rfl)
  rcases hheld.kept _ cached hret rfl with hexp | hkept
  · rw [hlive cached rfl] at hexp
    cases hexp
  · obtain ⟨e, hlookup, hvalue, -⟩ := MemoryCache.exists_of_content hkept
    exact ⟨e, hlookup, hvalue.trans (hcarry.1 cached rfl)⟩

/-! ## Runs -/

/-- A cache with room for one entry. -/
def oneEntry : MemorySystem UInt64 UInt64 (LRU UInt64) :=
  fresh 16 (LRU.new _ 1024 (Nat.succ_pos (nat_lit 1023))) (Nat.succ_pos (nat_lit 15))

/-- The state after these steps. -/
def afterLabels (es : List (MemoryLabel UInt64 UInt64)) :
    Option (MemorySystem UInt64 UInt64 (LRU UInt64)) :=
  play MemorySystem.step oneEntry es

/-- Key 1 is set for two nanoseconds; at instant 2 a `get` finds that it has not expired. -/
def getSeesLive : List (MemoryLabel UInt64 UInt64) :=
  .invoke (.set 1 10 (some 2)) :: runs 0 8 (.id _) ++ [.tick 2, .invoke (.get 1)] ++ runs 1 2 (.id _)

/-- A second `set` of key 1 runs to its end, then the `get`; the entry is in its last instant. -/
def setThenRead : List (MemoryLabel UInt64 UInt64) := runs 2 9 (.id _) ++ runs 1 5 (.id _) ++ [.tick 5]

/-- Steps in which the `set` of thread 2 has no rival and the removals are current. -/
def currentStep (s : MemorySystem UInt64 UInt64 (LRU UInt64)) (l : MemoryLabel UInt64 UInt64) :
    Option (MemorySystem UInt64 UInt64 (LRU UInt64)) :=
  if Unrivalled 2 1 s l ∧ Current 2 1 s l then s.step l else none

/-- The state in which the second `set` is called. -/
def liveSeen : MemorySystem UInt64 UInt64 (LRU UInt64) := (afterLabels getSeesLive).get (by decide)

/-- The state after the `set` and the `get`. -/
def setAndRead : MemorySystem UInt64 UInt64 (LRU UInt64) :=
  (play currentStep (liveSeen.invoke (.set 1 20 (some 3))) setThenRead).get (by decide)

theorem update_kept_beside_get :
    ∃ e, setAndRead.cache.entries.lookup 1 = some e ∧ e.value = 20 := by
  have hdone : ∀ th ∈ liveSeen.threads, th.op.Writes 1 → th.Returned := by decide
  have hrun : Run (Guarded (fun s l => Unrivalled liveSeen.threads.length 1 s l ∧
      Current liveSeen.threads.length 1 s l) Steps) (liveSeen.invoke (.set 1 20 (some 3))) setThenRead
      setAndRead := Run.of_play_guarded (Option.some_get _).symm
  have hret : setAndRead.threads[liveSeen.threads.length]? =
      some (.returned (.set 1 20 (some 3)) (some ⟨20, some 5, 16, 2⟩) (.ok .unit)) := by decide
  exact update_kept hdone hrun hret (by decide)

/-- The steps `es` from `s`, then a `set` with no rival beside the steps `es'`, lead to a state in which
it has returned `Ok`, its entry has not expired, and its key is not resident. -/
def LosesUpdate (s : MemorySystem K V P) (es : List (MemoryLabel K V)) (key : K) (value : V)
    (ttl : Option Duration) (es' : List (MemoryLabel K V)) : Prop :=
  ∃ s₁ s₂ cached, Run Steps s es s₁ ∧ (∀ th ∈ s₁.threads, th.op.Writes key → th.Returned) ∧
    Run (Guarded (Unrivalled s₁.threads.length key) Steps) (s₁.invoke (.set key value ttl)) es' s₂ ∧
    s₂.threads[s₁.threads.length]? =
      some (.returned (.set key value ttl) (some cached) (.ok .unit)) ∧
    cached.isExpired s₂.clock = false ∧ s₂.cache.entries.lookup key = none

/-- Key 1 is set for one nanosecond; at instant 2 a `get` sees that it has expired. -/
def getSeesExpired : List (MemoryLabel UInt64 UInt64) :=
  .invoke (.set 1 10 (some 1)) :: runs 0 8 (.id _) ++ [.tick 2, .invoke (.get 1)] ++ runs 1 2 (.id _)

/-- Key 1 is set; a `set` of key 2 finds no room and selects key 1. -/
def setSelects : List (MemoryLabel UInt64 UInt64) :=
  .invoke (.set 1 10 none) :: runs 0 8 (.id _) ++ .invoke (.set 2 30 none) :: runs 1 3 (.id _)

/-- A second `set` of key 1 runs to its end, then thread 1 takes the step it was about to take. -/
def setThenRemove : List (MemoryLabel UInt64 UInt64) := runs 2 9 (.id _) ++ runs 1 1 (.id _)

/-- Steps in which the `set` of thread 2 has no rival. -/
def unrivalledStep (s : MemorySystem UInt64 UInt64 (LRU UInt64)) (l : MemoryLabel UInt64 UInt64) :
    Option (MemorySystem UInt64 UInt64 (LRU UInt64)) :=
  if Unrivalled 2 1 s l then s.step l else none

/-- The state in which the second `set` of key 1 is called. -/
def expiredSeen : MemorySystem UInt64 UInt64 (LRU UInt64) :=
  (afterLabels getSeesExpired).get (by decide)

/-- The state after the `set` and the removal. -/
def expiredRemoved : MemorySystem UInt64 UInt64 (LRU UInt64) :=
  (play unrivalledStep (expiredSeen.invoke (.set 1 20 none)) setThenRemove).get (by decide)

/-- The state in which the second `set` of key 1 is called. -/
def victimSelected : MemorySystem UInt64 UInt64 (LRU UInt64) :=
  (afterLabels setSelects).get (by decide)

/-- The state after the `set` and the removal. -/
def victimRemoved : MemorySystem UInt64 UInt64 (LRU UInt64) :=
  (play unrivalledStep (victimSelected.invoke (.set 1 20 none)) setThenRemove).get (by decide)

/-- The `get` removes the entry that the `set` has put in the place of the expired one; the eviction
removes the entry that the `set` has put in the place of the one it selected. -/
theorem update_lost :
    LosesUpdate oneEntry getSeesExpired 1 20 none setThenRemove ∧
      LosesUpdate oneEntry setSelects 1 20 none setThenRemove := by
  constructor
  · exact ⟨expiredSeen, expiredRemoved, ⟨20, none, 16, 2⟩, Run.of_play (Option.some_get _).symm,
      by decide, Run.of_play_guarded (Option.some_get _).symm, by decide, by decide, by decide⟩
  · exact ⟨victimSelected, victimRemoved, ⟨20, none, 16, 0⟩, Run.of_play (Option.some_get _).symm,
      by decide, Run.of_play_guarded (Option.some_get _).symm, by decide, by decide, by decide⟩

end MemorySystem

end CacheLayer
