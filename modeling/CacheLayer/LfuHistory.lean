import CacheLayer.Lib.Extraction
import CacheLayer.PolicyRun

/-!
# `LFU` and its history

What an LFU policy holds after any sequence of calls, read off the calls.  The lifetime of a key are the
calls since the policy last forgot it; the use count (`uses`) counts the `on_access` calls of its lifetime,
or those since the latest `on_insert` and 1 for that.

* `Matches` — the policy tracks the keys reported in their lifetime, with their use counts;
  `matches_of_run` says that it does after every run;
* `Counts.takesLeast` — `evict` takes out a key of least count, whatever the iteration order;
* `lfu_evicts_least_used` — so it names a least used key, and `evict` after `evict` drains the policy in
  nondecreasing order of use count.
-/

set_option autoImplicit false

namespace CacheLayer

open EvictionPolicy Extraction

variable {K : Type} [DecidableEq K]

/-! ## Use counts -/

/-- The call makes an LFU policy forget `key`. -/
def PolicyCall.Forgets (e : PolicyCall K) (key : K) : Prop :=
  e.op = .reset ∨ e.op = .evict ∧ e.returned = some key

instance (e : PolicyCall K) (key : K) : Decidable (e.Forgets key) := by
  unfold PolicyCall.Forgets; infer_instance

omit [DecidableEq K] in
/-- A call that reports a key forgets none. -/
theorem PolicyCall.not_forgets {e : PolicyCall K} {key : K} (h : e.op.reported = some key) (k : K) :
    ¬ e.Forgets k := by
  rintro (hop | ⟨hop, -⟩)
  · rw [hop] at h
    cases h
  · rw [hop] at h
    cases h

namespace LFU

/-- The calls since `key` was last forgotten, the latest first. -/
def lifetime (es : List (PolicyCall K)) (key : K) : List (PolicyCall K) :=
  es.reverse.takeWhile fun e => ¬ e.Forgets key

/-- `key` has been reported and not been forgotten since. -/
def Reported (es : List (PolicyCall K)) (key : K) : Prop :=
  ∃ e ∈ lifetime es key, e.op.reported = some key

/-- The `on_access` calls of `key` since its latest `on_insert`, which counts 1, or in all its lifetime. -/
def uses (es : List (PolicyCall K)) (key : K) : Nat :=
  ((lifetime es key).takeWhile fun e => e.op ≠ .onInsert key).countP (fun e => e.op = .onAccess key) +
    if ∃ e ∈ lifetime es key, e.op = .onInsert key then 1 else 0

theorem lifetime_snoc (es : List (PolicyCall K)) (e : PolicyCall K) (key : K) :
    lifetime (es ++ [e]) key = if e.Forgets key then [] else e :: lifetime es key := by
  unfold lifetime
  rw [List.reverse_append, List.reverse_singleton, List.singleton_append, List.takeWhile_cons]
  by_cases h : e.Forgets key <;> simp [h]

theorem reported_snoc {es : List (PolicyCall K)} {e : PolicyCall K} {key : K} :
    Reported (es ++ [e]) key ↔
      ¬ e.Forgets key ∧ (e.op.reported = some key ∨ Reported es key) := by
  unfold Reported
  rw [lifetime_snoc]
  by_cases h : e.Forgets key <;> simp [h]

/-- What one call does to the use count of a key. -/
theorem uses_snoc (es : List (PolicyCall K)) (e : PolicyCall K) (key : K) :
    uses (es ++ [e]) key =
      if e.Forgets key then 0
      else if e.op = .onInsert key then 1
      else if e.op = .onAccess key then uses es key + 1
      else uses es key := by
  unfold uses
  rw [lifetime_snoc]
  by_cases hforget : e.Forgets key
  · simp [hforget]
  by_cases hins : e.op = .onInsert key
  · -- the count starts again
    simp [hforget, hins]
  by_cases hacc : e.op = .onAccess key
  · simp [hforget, hacc]
    omega
  · simp [hforget, hins, hacc]

/-! ## The counts after a run -/

/-- The policy tracks the keys that the history says are tracked, with the use counts it says they have,
all of them below `usize::MAX`. -/
structure Matches (es : List (PolicyCall K)) (p : LFU K) : Prop where
  getCount_eq : ∀ key, p.getCount key = uses es key
  mem_iff : ∀ key, key ∈ p.accessCount ↔ Reported es key
  lt_max : ∀ key, p.getCount key < usizeMax

/-- The call does not raise a count to `usize::MAX`. -/
def CountFits (p : LFU K) (e : PolicyCall K) : Prop :=
  match e.op with
  | .onAccess key => p.getCount key + 1 < usizeMax
  | _ => True

instance (p : LFU K) (e : PolicyCall K) : Decidable (p.CountFits e) :=
  match e with
  | ⟨.onAccess key, _, _⟩ => inferInstanceAs (Decidable (p.getCount key + 1 < usizeMax))
  | ⟨.onInsert _, _, _⟩ => isTrue trivial
  | ⟨.evict, _, _⟩ => isTrue trivial
  | ⟨.reset, _, _⟩ => isTrue trivial

theorem getCount_onInsert (p : LFU K) (k key : K) :
    (p.onInsert k).getCount key = if key = k then 1 else p.getCount key := by
  unfold onInsert getCount
  by_cases h : key = k
  · subst h
    simp
  · simp [h]

theorem getCount_onAccess (p : LFU K) (k key : K) :
    (p.onAccess k).getCount key = if key = k then p.getCount key + 1 else p.getCount key := by
  unfold onAccess getCount
  by_cases h : key = k
  · subst h
    simp
  · simp [h]

theorem getCount_of_erase {p p' : LFU K} {victim : K}
    (h : p'.accessCount = p.accessCount.erase victim) (key : K) :
    p'.getCount key = if key = victim then 0 else p.getCount key := by
  unfold getCount
  rw [h]
  by_cases hk : key = victim
  · subst hk
    simp
  · simp [hk]

namespace Matches

variable {es : List (PolicyCall K)} {p p' : LFU K}

omit [DecidableEq K] in
theorem new [DecidableEq K] (n : Nat) (hn : 0 < n) : Matches [] (LFU.new K n hn) where
  getCount_eq key := rfl
  mem_iff key := by simp [LFU.new, Reported, lifetime]
  lt_max key := by show 0 < usizeMax; decide

theorem onInsert (h : Matches es p) {key : K} {e : PolicyCall K} (hop : e.op = .onInsert key) :
    Matches (es ++ [e]) (p.onInsert key) := by
  have hreported : e.op.reported = some key := by rw [hop]; rfl
  have hforget := PolicyCall.not_forgets hreported
  refine ⟨fun k => ?_, fun k => ?_, fun k => ?_⟩
  · rw [getCount_onInsert, uses_snoc, if_neg (hforget k), hop, h.getCount_eq]
    simp [eq_comm]
  · show k ∈ p.accessCount.insert key 1 ↔ _
    rw [AList.mem_insert, reported_snoc, hreported, h.mem_iff]
    simp [hforget, eq_comm]
  · rw [getCount_onInsert]
    split
    · decide
    · exact h.lt_max k

theorem onAccess (h : Matches es p) {key : K} {e : PolicyCall K} (hop : e.op = .onAccess key)
    (hfits : p.getCount key + 1 < usizeMax) : Matches (es ++ [e]) (p.onAccess key) := by
  have hreported : e.op.reported = some key := by rw [hop]; rfl
  have hforget := PolicyCall.not_forgets hreported
  refine ⟨fun k => ?_, fun k => ?_, fun k => ?_⟩
  · rw [getCount_onAccess, uses_snoc, if_neg (hforget k), hop, h.getCount_eq]
    simp [eq_comm]
  · show k ∈ p.accessCount.insert key _ ↔ _
    rw [AList.mem_insert, reported_snoc, hreported, h.mem_iff]
    simp [hforget, eq_comm]
  · rw [getCount_onAccess]
    split
    · rename_i heq
      rw [heq]
      exact hfits
    · exact h.lt_max k

theorem evict_some (h : Matches es p) {o : HashOrder K} {victim : K}
    (hev : p.evict o = (some victim, p')) :
    Matches (es ++ [⟨.evict, o, some victim⟩]) p' := by
  have herase := LFU.evict_some hev
  refine ⟨fun k => ?_, fun k => ?_, fun k => ?_⟩
  · rw [getCount_of_erase herase, uses_snoc, h.getCount_eq]
    simp [PolicyCall.Forgets, eq_comm]
  · rw [herase, AList.mem_erase, reported_snoc, h.mem_iff]
    simp [PolicyCall.Forgets, PolicyOp.reported, eq_comm]
  · rw [getCount_of_erase herase]
    split
    · decide
    · exact h.lt_max k

theorem evict_none (h : Matches es p) (o : HashOrder K) :
    Matches (es ++ [⟨.evict, o, none⟩]) p := by
  refine ⟨fun k => ?_, fun k => ?_, h.lt_max⟩
  · rw [uses_snoc, h.getCount_eq]
    simp [PolicyCall.Forgets]
  · rw [reported_snoc, h.mem_iff]
    simp [PolicyCall.Forgets, PolicyOp.reported]

theorem reset (p : LFU K) {e : PolicyCall K} (hop : e.op = .reset) :
    Matches (es ++ [e]) p.reset := by
  have hforget : ∀ k, e.Forgets k := fun k => Or.inl hop
  refine ⟨fun k => ?_, fun k => ?_, fun k => ?_⟩
  · rw [uses_snoc, if_pos (hforget k)]
    rfl
  · rw [reported_snoc]
    simp [hforget k, LFU.reset]
  · show 0 < usizeMax
    decide

/-- **Every call keeps the policy in step with its history.** -/
theorem step (h : Matches es p) {e : PolicyCall K} (hfits : p.CountFits e)
    (hstep : CallStep p e p') : Matches (es ++ [e]) p' := by
  obtain ⟨op, order, returned⟩ := e
  cases op with
  | onInsert key =>
    cases hstep
    exact h.onInsert rfl
  | onAccess key =>
    cases hstep
    exact h.onAccess rfl hfits
  | evict =>
    have hev : p.evict order = (returned, p') := hstep.evict_eq
    cases returned with
    | none =>
      rw [evict_none_eq hev]
      exact h.evict_none order
    | some victim => exact h.evict_some hev
  | reset =>
    cases hstep
    exact Matches.reset p rfl

end Matches

theorem matches_of_run {n : Nat} {hn : 0 < n} {es : List (PolicyCall K)} {p : LFU K}
    (hrun : Run (Guarded CountFits CallStep) (LFU.new K n hn) es p) : Matches es p := by
  induction hrun with
  | nil => exact Matches.new n hn
  | snoc _ hstep ih => exact ih.step hstep.1 hstep.2

/-! ## Eviction -/

/-- The stored counts are these, all of them below `usize::MAX`. -/
def Counts (weight : K → Nat) (p : LFU K) : Prop :=
  ∀ key n, p.accessCount.lookup key = some n → n = weight key ∧ n < usizeMax

theorem Matches.counts {es : List (PolicyCall K)} {p : LFU K} (h : Matches es p) :
    p.Counts (uses es) := by
  intro key n hl
  have hn : p.getCount key = n := by simp [getCount, hl]
  rw [← hn]
  exact ⟨h.getCount_eq key, h.lt_max key⟩

/-- The step takes out a key of least weight. -/
abbrev EvictsLeast (weight : K → Nat) : LFU K → PolicyCall K → LFU K → Prop :=
  TakesLeast PolicyCall.returned (fun p key => key ∈ p.accessCount) weight

namespace Counts

variable {weight : K → Nat} {p p' : LFU K} {o : HashOrder K}

theorem evict_none (h : p.Counts weight) (hev : p.evict o = (none, p')) (key : K) :
    key ∉ p.accessCount := by
  intro hin
  obtain ⟨n, hl⟩ := AList.exists_lookup hin
  have hmax : usizeMax ≤ n := LFU.evict_none hev hl
  have hlt := (h key n hl).2
  omega

theorem evict_some (h : p.Counts weight) {victim : K} (hev : p.evict o = (some victim, p')) :
    victim ∈ p.accessCount ∧ (∀ key, key ∈ p.accessCount → weight victim ≤ weight key) ∧
      (∀ key, key ∈ p'.accessCount ↔ key ≠ victim ∧ key ∈ p.accessCount) ∧ p'.Counts weight := by
  obtain ⟨n, hl, -, hleast⟩ := LFU.evict_least hev
  have herase := LFU.evict_some hev
  refine ⟨AList.mem_of_lookup hl, ?_, ?_, ?_⟩
  · intro key hin
    obtain ⟨m, hm⟩ := AList.exists_lookup hin
    rw [← (h victim n hl).1, ← (h key m hm).1]
    exact hleast key m hm
  · intro key
    rw [herase, AList.mem_erase]
  · intro key m hm
    rw [herase] at hm
    exact h key m (AList.sub_erase _ _ key m hm)

/-- **`evict` takes out a key of least count**, and one key less is tracked. -/
theorem takesLeast (h : p.Counts weight) {e : PolicyCall K} (hop : e.op = .evict)
    (hstep : CallStep p e p') :
    EvictsLeast weight p e p' ∧ p'.Counts weight ∧ p'.size = p.size - 1 := by
  obtain ⟨op, order, returned⟩ := e
  subst hop
  have hev : p.evict order = (returned, p') := hstep.evict_eq
  cases returned with
  | none =>
    have hempty := h.evict_none hev
    have hsize : p.size = 0 := by
      have hkeys : p.accessCount.keys = [] :=
        List.eq_nil_iff_forall_not_mem.2 fun key hkey => hempty key (AList.mem_keys.2 hkey)
      show p.accessCount.count = 0
      rw [AList.count_eq_keys_length, hkeys, List.length_nil]
    rw [evict_none_eq hev]
    refine ⟨⟨fun a ha => (by cases ha), iff_of_true rfl hempty, fun a => ?_⟩, h, by omega⟩
    exact iff_of_false (hempty a) fun hin => hempty a hin.1
  | some victim =>
    obtain ⟨hin, hleast, hmem, hcounts⟩ := h.evict_some hev
    refine ⟨⟨?_, iff_of_false (by simp) fun hnone => hnone victim hin, fun a => ?_⟩, hcounts, ?_⟩
    · rintro a ha
      cases ha
      exact ⟨hin, hleast⟩
    · rw [hmem a]
      simp only [ne_eq, Option.some.injEq]
      constructor
      · exact fun ⟨hne, ha⟩ => ⟨ha, fun heq => hne heq.symm⟩
      · exact fun ⟨ha, hne⟩ => ⟨fun heq => hne heq.symm, ha⟩
    · have hcount := AList.count_erase hin
      rw [← LFU.evict_some hev] at hcount
      show p'.accessCount.count = p.accessCount.count - 1
      omega

/-- Repeated eviction. -/
theorem drain {ds : List (PolicyCall K)} {q : LFU K} (h : p.Counts weight)
    (hrun : Run (Guarded (fun _ d => d.op = .evict) CallStep) p ds q) :
    Run (EvictsLeast weight) p ds q ∧ q.Counts weight ∧ q.size = p.size - ds.length := by
  induction hrun with
  | nil => exact ⟨.nil, h, rfl⟩
  | @snoc ds q d q' _ hstep ih =>
    obtain ⟨hrun, hcounts, hsize⟩ := ih
    obtain ⟨htakes, hcounts', hsize'⟩ := hcounts.takesLeast hstep.1 hstep.2
    refine ⟨hrun.snoc htakes, hcounts', ?_⟩
    rw [List.length_append, List.length_singleton]
    omega

end Counts

end LFU

open LFU

/-- **`LFU` evicts a least frequently used key.**  After any sequence of calls on `LFU::new(c)` that keeps
the counts below `usize::MAX`, whatever the iteration orders: `get_count` is the use count and the tracked
keys are those reported and not forgotten since; `evict` returns a tracked key of least use count and
forgets exactly that key; it returns `None` exactly when no key is tracked; and calling it again and again
returns tracked keys, once each, in nondecreasing order of use count, and all of them if it is called
often enough. -/
theorem lfu_evicts_least_used {c : Nat} {hc : 0 < c} {es : List (PolicyCall K)} {p : LFU K}
    (hrun : Run (Guarded LFU.CountFits CallStep) (LFU.new K c hc) es p) :
    (∀ key, p.getCount key = uses es key ∧ (key ∈ p.accessCount ↔ Reported es key)) ∧
    (∀ (o : HashOrder K) victim p', p.evict o = (some victim, p') →
      Reported es victim ∧ (∀ key, Reported es key → uses es victim ≤ uses es key) ∧
      ∀ key, (key ∈ p'.accessCount ↔ key ≠ victim ∧ Reported es key) ∧
        (key ≠ victim → p'.getCount key = uses es key)) ∧
    (∀ o : HashOrder K, (p.evict o).1 = none ↔ ∀ key, ¬ Reported es key) ∧
    ∀ (ds : List (PolicyCall K)) (q : LFU K),
      Run (Guarded (fun _ d => d.op = .evict) CallStep) p ds q →
      (ds.filterMap PolicyCall.returned).Nodup ∧
      (ds.filterMap PolicyCall.returned).Pairwise (fun a b => uses es a ≤ uses es b) ∧
      (∀ key ∈ ds.filterMap PolicyCall.returned, Reported es key) ∧
      (p.size ≤ ds.length → ∀ key, Reported es key → key ∈ ds.filterMap PolicyCall.returned) := by
  have hm := matches_of_run hrun
  refine ⟨fun key => ⟨hm.getCount_eq key, hm.mem_iff key⟩, ?_, ?_, ?_⟩
  · intro o victim p' hev
    obtain ⟨hin, hleast, hmem, -⟩ := hm.counts.evict_some hev
    refine ⟨(hm.mem_iff victim).1 hin, fun key hkey => hleast key ((hm.mem_iff key).2 hkey), ?_⟩
    intro key
    refine ⟨?_, fun hne => ?_⟩
    · rw [hmem key, hm.mem_iff key]
    · rw [getCount_of_erase (LFU.evict_some hev) key, if_neg hne, hm.getCount_eq]
  · intro o
    constructor
    · intro hnone key hkey
      have hev : p.evict o = (none, (p.evict o).2) := Prod.ext hnone rfl
      exact hm.counts.evict_none hev key ((hm.mem_iff key).2 hkey)
    · intro hnone
      cases hev : p.evict o with
      | mk victim p' =>
        cases victim with
        | none => rfl
        | some victim =>
          have hin := (hm.counts.evict_some hev).1
          exact absurd ((hm.mem_iff victim).1 hin) (hnone victim)
  · intro ds q hds
    obtain ⟨htakes, -, hsize⟩ := hm.counts.drain hds
    have hout := extracted_of_run htakes
    refine ⟨hout.nodup, hout.sorted, ?_, ?_⟩
    · intro key hkey
      exact (hm.mem_iff key).1 ((hout.holds_iff key).2 (Or.inl hkey))
    · intro hlen key hkey
      refine ((hout.holds_iff key).1 ((hm.mem_iff key).2 hkey)).resolve_right fun hin => ?_
      -- nothing is left after as many calls as there were keys
      have hpos : 0 < q.size := AList.count_pos_of_mem hin
      omega

/-- The first key is inserted and read twice, the second inserted, the third only read, and the first
inserted again. -/
def reinsertedKey : List (HashOrder UInt64 × PolicyOp UInt64) :=
  [(.id _, .onInsert 1), (.id _, .onAccess 1), (.id _, .onAccess 1), (.id _, .onInsert 2),
    (.id _, .onAccess 2), (.id _, .onAccess 3), (.id _, .onAccess 3), (.id _, .onInsert 1)]

/-- The next `evict` names the first key, whose earlier uses no longer count. -/
theorem lfu_evicts_least_used_reinserted :
    uses (script (LFU.new UInt64 16 (Nat.succ_pos 15)) reinsertedKey).1 1 = 1 ∧
      (script (LFU.new UInt64 16 (Nat.succ_pos 15)) reinsertedKey).2.getCount 3 =
        uses (script (LFU.new UInt64 16 (Nat.succ_pos 15)) reinsertedKey).1 3 ∧
      ∀ key, Reported (script (LFU.new UInt64 16 (Nat.succ_pos 15)) reinsertedKey).1 key →
        uses (script (LFU.new UInt64 16 (Nat.succ_pos 15)) reinsertedKey).1 1 ≤
          uses (script (LFU.new UInt64 16 (Nat.succ_pos 15)) reinsertedKey).1 key := by
  have hrun : Run (Guarded LFU.CountFits CallStep) (LFU.new UInt64 16 (Nat.succ_pos 15)) _ _ :=
    run_of_meets _ reinsertedKey (by decide)
  obtain ⟨hcount, hevict, -, -⟩ := lfu_evicts_least_used hrun
  exact ⟨by decide, (hcount 3).1, (hevict (.id _) 1 _ (Prod.ext (by decide) rfl)).2.1⟩

end CacheLayer
