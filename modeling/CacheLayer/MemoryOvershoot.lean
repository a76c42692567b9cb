import CacheLayer.MemoryLedger
import CacheLayer.Lib.Potential

/-!
# How far concurrent `set`s exceed the capacity

`set` looks for room in one step and adds its bytes in a later one, so `set`s that look at the same time
are promised the same room.  Calls of all kinds run on one cache, with or without a time-to-live.

* `Thread.promised` — the bytes for which a `set` has found room and which it has not added;
* `Within`, `within_step` — size and promises together stay within the capacity and one entry for each
  further `set` in flight;
* `covered_step` — without `clear`, the size covers what is resident and what is owed;
* `capacity_overshoot` — so the size, and without `clear` the bytes resident, exceed the capacity by at
  most one entry for each `set` beyond the first that is in flight at the same time.
-/

set_option autoImplicit false

namespace CacheLayer

variable {K V P : Type}

namespace Thread

/-- The call is a `set` in flight. -/
def isSet : Thread K V → Bool
  | .set _ _ _ _ _ => true
  | _ => false

section Promised

variable [RustSized K] [RustSized V]

/-- Bytes for which the call has found room and which it has not added to the size. -/
def promised : Thread K V → Nat
  | .set _ _ _ _ .expiry => entrySize K V
  | .set _ _ _ _ (.stamp _) => entrySize K V
  | .set _ _ _ _ (.insert cached) => cached.sizeBytes
  | .set _ _ _ _ (.credit cached) => cached.sizeBytes
  | _ => 0

theorem promised_start (op : Op K V) : (start op).promised = 0 := by
  cases op <;> rfl

theorem promised_eq_zero {th : Thread K V} (h : th.isSet = false) : th.promised = 0 := by
  cases th with
  | set key value ttl oldSize phase => cases h
  | _ => rfl

/-- What a `set` has inserted and not added has been promised. -/
theorem owesBytes_promised (th : Thread K V) : 0 ≤ th.owesBytes + th.promised := by
  unfold owesBytes
  split
  · exact Int.add_nonneg (Int.natCast_nonneg _) (Int.natCast_nonneg _)
  · exact Int.add_nonneg (Int.natCast_nonneg _) (Int.natCast_nonneg _)
  · simp [promised]
  · exact Int.add_nonneg (Int.natCast_nonneg _) (Int.natCast_nonneg _)
  · exact Int.add_nonneg (Int.le_refl 0) (Int.natCast_nonneg _)

end Promised

variable [DecidableEq K] [EvictionPolicy K P] [RustSized K] [RustSized V]

variable {c : MemoryCache K V P} {now : Instant} {order : HashOrder K} {th : Thread K V}
  {r : MemoryCache K V P × Thread K V}

omit [DecidableEq K] [EvictionPolicy K P] [RustSized K] [RustSized V] in
theorem releaseEntry_sizes (c : MemoryCache K V P) (n : Nat) :
    (c.releaseEntry n).1.sizeBytes = c.sizeBytes - n ∧
      (c.releaseEntry n).1.capacityBytes = c.capacityBytes ∧
      (c.releaseEntry n).1.residentBytes = c.residentBytes := by
  unfold MemoryCache.releaseEntry
  simp only
  split <;> exact ⟨rfl, rfl, rfl⟩

/-- The step leaves the capacity as it is, and promises no more than one entry; only the step that finds
room for an entry raises what is promised or added. -/
structure Promises (c : MemoryCache K V P) (th : Thread K V) (r : MemoryCache K V P × Thread K V) :
    Prop where
  capacity : r.1.capacityBytes = c.capacityBytes
  le : th.promised ≤ entrySize K V → r.2.promised ≤ entrySize K V
  kept : r.1.sizeBytes + r.2.promised ≤ c.sizeBytes + th.promised ∨
    th.isSet = true ∧ th.promised = 0 ∧ r.2.promised = entrySize K V ∧ r.1 = c ∧
      c.HasRoom (entrySize K V)

omit [DecidableEq K] [EvictionPolicy K P] in
/-- A step that adds nothing and after which nothing is promised. -/
theorem Promises.of_le (hcap : r.1.capacityBytes = c.capacityBytes)
    (hsize : r.1.sizeBytes ≤ c.sizeBytes) (hp : r.2.promised = 0) : Promises c th r := by
  refine ⟨hcap, fun _ => ?_, Or.inl ?_⟩
  · rw [hp]
    exact Nat.zero_le _
  · rw [hp]
    exact Nat.le_trans hsize (Nat.le_add_right _ _)

theorem setStep_promises (key : K) (value : V) (ttl : Option Duration) (oldSize : Option Nat)
    (phase : SetPhase K V) : Promises c (.set key value ttl oldSize phase)
      (setStep c now order key value ttl oldSize phase) := by
  cases phase with
  | remove =>
    simp only [setStep]
    split
    all_goals exact .of_le rfl (Nat.le_refl _) rfl
  | debit n => exact .of_le rfl (Nat.sub_le _ _) rfl
  | check =>
    by_cases hroom : c.HasRoom (MemoryCache.estimateSize key value)
    · simp only [setStep, if_pos hroom]
      exact ⟨rfl, fun _ => Nat.le_refl _, Or.inr ⟨rfl, rfl, rfl, rfl, hroom⟩⟩
    · simp only [setStep, if_neg hroom]
      exact .of_le rfl (Nat.le_refl _) rfl
  | evict =>
    simp only [setStep]
    split
    all_goals exact .of_le rfl (Nat.le_refl _) rfl
  | drop victim =>
    simp only [setStep]
    split
    all_goals exact .of_le rfl (Nat.le_refl _) rfl
  | release n =>
    obtain ⟨hsize, hcap, -⟩ := releaseEntry_sizes c.countEviction n
    simp only [setStep]
    split
    all_goals
      rename_i hrel
      rw [hrel] at hsize hcap
      exact .of_le hcap (hsize ▸ Nat.sub_le _ _) rfl
  | fail => exact .of_le rfl (Nat.le_refl _) rfl
  | expiry =>
    simp only [setStep]
    split
    · exact ⟨rfl, fun _ => Nat.le_refl _, Or.inl (Nat.le_refl _)⟩
    · exact .of_le rfl (Nat.le_refl _) rfl
  | stamp expiresAt => exact ⟨rfl, fun _ => Nat.le_refl _, Or.inl (Nat.le_refl _)⟩
  | insert cached => exact ⟨rfl, id, Or.inl (Nat.le_refl _)⟩
  | credit cached => exact ⟨rfl, fun _ => Nat.zero_le _, Or.inl (Nat.le_refl _)⟩
  | count cached finalSize => exact .of_le rfl (Nat.le_refl _) rfl
  | record cached => exact .of_le rfl (Nat.le_refl _) rfl

/-- **What a step promises.** -/
theorem step_promises (h : th.step c now order = some r) : Promises c th r := by
  cases th with
  | get key phase =>
    cases h
    fun_cases getStep c now key phase <;> exact .of_le rfl (Nat.le_refl _) rfl
  | set key value ttl oldSize phase =>
    cases h
    exact setStep_promises key value ttl oldSize phase
  | delete key removed =>
    cases h
    cases removed with
    | none =>
      simp only [deleteStep]
      split
      all_goals exact .of_le rfl (Nat.le_refl _) rfl
    | some n =>
      obtain ⟨hsize, hcap, -⟩ := releaseEntry_sizes c n
      simp only [deleteStep]
      split
      all_goals
        rename_i hrel
        rw [hrel] at hsize hcap
        exact .of_le hcap (hsize ▸ Nat.sub_le _ _) rfl
  | «exists» key found =>
    cases h
    fun_cases existsStep c now key found <;> exact .of_le rfl (Nat.le_refl _) rfl
  | clear emptied =>
    cases h
    cases emptied with
    | false => exact .of_le rfl (Nat.le_refl _) rfl
    | true => exact .of_le rfl (Nat.zero_le _) rfl
  | returned op inserted reply => cases h

/-- The size moves with what is resident and what is owed, or rises above it. -/
def Covers (c : MemoryCache K V P) (th : Thread K V) (r : MemoryCache K V P × Thread K V) : Prop :=
  ((r.1.residentBytes : ℤ) - c.residentBytes) + (r.2.owesBytes - th.owesBytes) ≤
    (r.1.sizeBytes : ℤ) - c.sizeBytes

section Covers

omit [DecidableEq K] [EvictionPolicy K P] [RustSized K] [RustSized V]

/-- A step that adds nothing to the map and changes neither size nor debt. -/
theorem Covers.of_le (hres : r.1.residentBytes ≤ c.residentBytes)
    (hsize : r.1.sizeBytes = c.sizeBytes) (howes : r.2.owesBytes = th.owesBytes) : Covers c th r := by
  unfold Covers
  omega

/-- A section that takes off the size what it can of the bytes owed for a removal. -/
theorem Covers.of_debit {n : Nat} (hres : r.1.residentBytes = c.residentBytes)
    (hsize : r.1.sizeBytes = c.sizeBytes - n) (howed : th.owesBytes = n) (howes : r.2.owesBytes = 0) :
    Covers c th r := by
  unfold Covers
  omega

variable [DecidableEq K]

/-- A step that removes an entry and owes for it. -/
theorem Covers.of_removeEntry {key : K} {entry : CachedValue V} {th' : Thread K V}
    (hl : c.entries.lookup key = some entry) (howes : th.owesBytes = 0)
    (howes' : th'.owesBytes = entry.sizeBytes) : Covers c th (c.removeEntry key, th') := by
  have htotal := AList.total_erase CachedValue.sizeBytes hl
  simp only [Covers, MemoryCache.residentBytes, MemoryCache.removeEntry, htotal, howes, howes']
  push_cast
  omega

theorem residentBytes_touchEntry (c : MemoryCache K V P) (key : K) (now : Instant) :
    (c.touchEntry key now).residentBytes = c.residentBytes :=
  AList.total_mapVals (fun _ _ => by split <;> rfl) c.entries

end Covers

theorem setStep_covers (key : K) (value : V) (ttl : Option Duration) (oldSize : Option Nat)
    (phase : SetPhase K V) : Covers c (.set key value ttl oldSize phase)
      (setStep c now order key value ttl oldSize phase) := by
  cases phase with
  | remove =>
    simp only [setStep]
    split
    · rename_i entry hl
      exact .of_removeEntry hl rfl rfl
    · exact .of_le (Nat.le_refl _) rfl rfl
  | debit n => exact .of_debit rfl rfl rfl rfl
  | check =>
    simp only [setStep]
    split
    all_goals exact .of_le (Nat.le_refl _) rfl rfl
  | evict =>
    simp only [setStep]
    split
    all_goals exact .of_le (Nat.le_refl _) rfl rfl
  | drop victim =>
    simp only [setStep]
    split
    · rename_i entry hl
      exact .of_removeEntry hl rfl rfl
    · exact .of_le (Nat.le_refl _) rfl rfl
  | release n =>
    obtain ⟨hsize, -, hres⟩ := releaseEntry_sizes c.countEviction n
    simp only [setStep]
    split
    all_goals
      rename_i hrel
      rw [hrel] at hsize hres
      exact .of_debit hres hsize rfl rfl
  | fail => exact .of_le (Nat.le_refl _) rfl rfl
  | expiry =>
    simp only [setStep]
    split
    all_goals exact .of_le (Nat.le_refl _) rfl rfl
  | stamp expiresAt => exact .of_le (Nat.le_refl _) rfl rfl
  | insert cached =>
    -- an entry that another `set` of the key has inserted meanwhile is replaced, and stays counted
    have hins := AList.total_insert_le CachedValue.sizeBytes c.entries key cached
    simp only [setStep, Covers, MemoryCache.insertEntry, MemoryCache.residentBytes, owesBytes]
    omega
  | credit cached =>
    simp only [setStep, Covers, MemoryCache.credit, MemoryCache.residentBytes, owesBytes]
    push_cast
    omega
  | count cached finalSize => exact .of_le (Nat.le_refl _) rfl rfl
  | record cached => exact .of_le (Nat.le_refl _) rfl rfl

/-- **Without `clear`, the size covers what a step leaves resident and owed**: the removal of an expired
entry takes nothing off, and the section of another removal takes off what it can. -/
theorem step_covers (h : th.step c now order = some r) (hclear : th.op ≠ .clear) : Covers c th r := by
  cases th with
  | get key phase =>
    cases h
    cases phase with
    | remove => exact .of_le (AList.total_erase_le _ _ _) rfl rfl
    | stamp value => exact .of_le (Nat.le_of_eq (residentBytes_touchEntry _ _ _)) rfl rfl
    | lookup | clock expires | read | touch value =>
      simp only [getStep]
      split
      all_goals exact .of_le (Nat.le_refl _) rfl rfl
    | access value | hit value | miss => exact .of_le (Nat.le_refl _) rfl rfl
  | set key value ttl oldSize phase =>
    cases h
    exact setStep_covers key value ttl oldSize phase
  | delete key removed =>
    cases h
    cases removed with
    | none =>
      simp only [deleteStep]
      split
      · rename_i entry hl
        exact .of_removeEntry hl rfl rfl
      · exact .of_le (Nat.le_refl _) rfl rfl
    | some n =>
      obtain ⟨hsize, -, hres⟩ := releaseEntry_sizes c n
      simp only [deleteStep]
      split
      all_goals
        rename_i hrel
        rw [hrel] at hsize hres
        exact .of_debit hres hsize rfl rfl
  | «exists» key found =>
    cases h
    fun_cases existsStep c now key found <;> exact .of_le (Nat.le_refl _) rfl rfl
  | clear emptied => exact absurd rfl hclear
  | returned op inserted reply => cases h

end Thread

namespace MemorySystem

/-- How many `set`s are in flight. -/
def setsInFlight (s : MemorySystem K V P) : Nat := s.threads.countP Thread.isSet

section Invariant

variable [RustSized K] [RustSized V]

/-- Size and promises stay within the capacity and `M` entries. -/
structure Within (cap M : Nat) (s : MemorySystem K V P) : Prop where
  capacity : s.cache.capacityBytes = cap
  small : ∀ th ∈ s.threads, th.promised ≤ entrySize K V
  bound : s.cache.sizeBytes + load Thread.promised s.threads ≤ cap + M * entrySize K V

/-- No call is a `clear`, and the size covers what is resident and what is owed. -/
structure Covering (s : MemorySystem K V P) : Prop where
  noClear : ∀ th ∈ s.threads, th.op ≠ .clear
  covers : 0 ≤ s.byteSurplus

variable {cap M : Nat} {s : MemorySystem K V P}

theorem within_fresh (c : MemoryCache K V P) (hsize : c.sizeBytes = 0) (M : Nat) (clock : Instant) :
    Within c.capacityBytes M ⟨c, [], clock⟩ :=
  ⟨rfl, fun _ hth => (by cases hth), by simp [hsize, load]⟩

omit [RustSized K] [RustSized V] in
theorem covering_fresh (c : MemoryCache K V P) (hempty : c.entries = ∅) (clock : Instant) :
    Covering ⟨c, [], clock⟩ := by
  refine ⟨fun _ hth => (by cases hth), ?_⟩
  simp [byteSurplus, surplus, owed, MemoryCache.residentBytes, hempty]

theorem Within.size_le (h : s.Within cap M) : s.cache.sizeBytes ≤ cap + M * entrySize K V :=
  Nat.le_trans (Nat.le_add_right _ _) h.bound

theorem owed_promised (threads : List (Thread K V)) :
    0 ≤ owed Thread.owesBytes threads + load Thread.promised threads := by
  induction threads with
  | nil => exact Int.le_refl 0
  | cons th threads ih =>
    have hth := th.owesBytes_promised
    simp only [owed, load, List.map_cons, List.sum_cons] at ih ⊢
    omega

theorem Within.resident_le (h : s.Within cap M) (hcov : s.Covering) :
    s.cache.residentBytes ≤ cap + M * entrySize K V := by
  have hsurplus := hcov.covers
  have howed := owed_promised s.threads
  have hbound := h.bound
  unfold byteSurplus surplus at hsurplus
  omega

/-- A call is made. -/
theorem Within.invoke (h : s.Within cap M) (op : Op K V) : (s.invoke op).Within cap M := by
  refine ⟨h.capacity, ?_, ?_⟩
  · intro th hth
    rcases List.mem_append.1 hth with hth | hth
    · exact h.small th hth
    · rw [List.mem_singleton.1 hth, Thread.promised_start]
      exact Nat.zero_le _
  · simp only [MemorySystem.invoke, load_concat, Thread.promised_start]
    exact h.bound

variable [DecidableEq K] [EvictionPolicy K P] {t : MemorySystem K V P} {l : MemoryLabel K V}

/-- A call takes a step, and no more than `M` other `set`s are in flight. -/
theorem Within.advance {i : Nat} {order : HashOrder K} {th : Thread K V}
    {r : MemoryCache K V P × Thread K V} (h : s.Within cap M) (hfew : s.setsInFlight ≤ M + 1)
    (hi : s.threads[i]? = some th) (hr : th.step s.cache s.clock order = some r) :
    (s.advance i r).Within cap M := by
  have hp := Thread.step_promises hr
  have hload := load_set Thread.promised hi r.2
  have hbound := h.bound
  refine ⟨hp.capacity.trans h.capacity, ?_, ?_⟩
  · intro th' hth'
    rcases mem_advance hth' with hth' | rfl
    · exact h.small th' hth'
    · exact hp.le (h.small th (List.mem_of_getElem? hi))
  · show r.1.sizeBytes + load Thread.promised (s.threads.set i r.2) ≤ cap + M * entrySize K V
    rcases hp.kept with hle | ⟨hset, hzero, hone, hsame, hroom⟩
    · omega
    · -- the room found is promised besides what at most `M` other `set`s are promised
      have hspare := load_spare Thread.promised Thread.isSet (k := entrySize K V)
        (fun x hx => ?_) hi hset hzero
      · have hmul : entrySize K V * s.threads.countP Thread.isSet ≤ entrySize K V * (M + 1) :=
          Nat.mul_le_mul_left _ hfew
        rw [Nat.mul_succ, Nat.mul_comm _ M] at hmul
        have hfit : s.cache.sizeBytes + entrySize K V ≤ cap := h.capacity ▸ hroom
        rw [hsame]
        omega
      · split
        · exact h.small x hx
        · rename_i hno
          rw [Thread.promised_eq_zero (Bool.eq_false_iff.2 hno)]

/-- **A step keeps size and promises within bounds** while at most `M + 1` `set`s are in flight. -/
theorem within_step (h : s.Within cap M) (hfew : s.setsInFlight ≤ M + 1) (hstep : Steps s l t) :
    t.Within cap M := by
  obtain ⟨op, rfl, rfl⟩ | ⟨i, order, th, r, rfl, hi, hr, rfl⟩ | ⟨now, rfl, hle, rfl⟩ :=
    step_cases hstep
  · exact h.invoke op
  · exact h.advance hfew hi hr
  · exact ⟨h.capacity, h.small, h.bound⟩

/-- **A step without `clear` keeps the size above what is resident and owed.** -/
theorem covering_step (h : s.Covering) (hno : l ≠ .invoke .clear) (hstep : Steps s l t) :
    t.Covering := by
  obtain ⟨op, rfl, rfl⟩ | ⟨i, order, th, r, rfl, hi, hr, rfl⟩ | ⟨now, rfl, hle, rfl⟩ :=
    step_cases hstep
  · refine ⟨?_, ?_⟩
    · intro th hth
      rcases List.mem_append.1 hth with hth | hth
      · exact h.noClear th hth
      · rw [List.mem_singleton.1 hth, Thread.op_start]
        exact fun hop => hno (congrArg MemoryLabel.invoke hop)
    · have hsame : (s.invoke op).byteSurplus = s.byteSurplus :=
        surplus_concat (Thread.owesBytes_start op)
      exact hsame ▸ h.covers
  · have hclear := h.noClear th (List.mem_of_getElem? hi)
    refine ⟨?_, ?_⟩
    · intro th' hth'
      rcases mem_advance hth' with hth' | rfl
      · exact h.noClear th' hth'
      · rw [Thread.step_op hr]
        exact hclear
    · have hcov : Thread.Covers s.cache th r := Thread.step_covers hr hclear
      have hcovers := h.covers
      unfold Thread.Covers at hcov
      rw [byteSurplus_advance hi]
      omega
  · exact ⟨h.noClear, h.covers⟩

end Invariant

/-! ## Whole runs -/

section Runs

variable [DecidableEq K] [EvictionPolicy K P] [RustSized K] [RustSized V]

/-- **How far the capacity is exceeded.**  Calls of all kinds run on one cache in any order of their steps,
with at most `M + 1` `set`s in flight at a time.  In every state reached the size is at most `M` entries
above the capacity, and so are the bytes resident as long as nobody calls `clear`.  With one `set` at a
time, beside any number of other calls, the capacity holds.  The sums are those of the source while
`cap + (M + 1) * entrySize K V` fits `usize`. -/
theorem capacity_overshoot {cap M : Nat} {policy : P} {hcap : 0 < cap} {es : List (MemoryLabel K V)}
    {s : MemorySystem K V P}
    (hrun : Run (Guarded (fun s _ => s.setsInFlight ≤ M + 1) Steps) (fresh cap policy hcap) es s) :
    s.cache.sizeBytes ≤ cap + M * entrySize K V ∧
      ((∀ e ∈ es, e ≠ .invoke .clear) → s.cache.residentBytes ≤ cap + M * entrySize K V) := by
  have hwithin : s.Within cap M :=
    hrun.invariant (Within cap M) (within_fresh (.withPolicy cap policy hcap) rfl M 0)
      fun s e t h hstep => within_step h hstep.1 hstep.2
  refine ⟨hwithin.size_le, fun hno => hwithin.resident_le ?_⟩
  exact (hrun.of_guarded.guarded_of_forall hno).invariant Covering
    (covering_fresh (.withPolicy cap policy hcap) rfl 0) fun s e t h hstep =>
      covering_step h hstep.1 hstep.2

/-- A cache with room for one entry. -/
def roomForOne : MemorySystem UInt64 UInt64 (LRU UInt64) :=
  fresh 16 (.new UInt64 16 (Nat.succ_pos (nat_lit 15))) (Nat.succ_pos (nat_lit 15))

/-- Two `set`s that look for room before either adds its entry. -/
def jointSets : List (MemoryLabel UInt64 UInt64) :=
  [.invoke (.set 1 10 none), .invoke (.set 2 20 none)] ++ runs 0 2 (.id UInt64) ++
    runs 1 2 (.id UInt64) ++ runs 0 4 (.id UInt64) ++ runs 1 4 (.id UInt64)

/-- The cache after them. -/
def overfull : MemorySystem UInt64 UInt64 (LRU UInt64) :=
  (play (fun s e => if s.setsInFlight ≤ 2 then step s e else none) roomForOne jointSets).get (by decide)

/-- The bound is reached. -/
theorem capacity_overshoot_joint :
    overfull.cache.sizeBytes = 16 + 1 * entrySize UInt64 UInt64 ∧
      overfull.cache.residentBytes ≤ 16 + 1 * entrySize UInt64 UInt64 := by
  have hrun : Run (Guarded (fun s _ => s.setsInFlight ≤ 1 + 1) Steps) roomForOne jointSets overfull :=
    Run.of_play_guarded (Option.some_get _).symm
  refine ⟨by decide, (capacity_overshoot hrun).2 fun e he hclear => ?_⟩
  subst hclear
  simp [jointSets, runs] at he

end Runs

end MemorySystem

end CacheLayer
