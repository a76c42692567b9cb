import CacheLayer.MemoryBounds
import CacheLayer.MemoryThreads
import CacheLayer.Lib.Ledger

/-!
# Accounting and capacity under concurrency

Any number of `set`s without a time-to-live, `delete`s and `clear`s run on one cache.  Each changes the
map in one step and the counters in later ones, and owes the difference in between (`owesBytes`,
`owesEntries`).

* `Thread.step_balance` — a step of a `set` or `delete` moves map, counters and debt together, provided
  it finds what it takes for granted (`Thread.Finds`);
* `Balanced`, `balanced_step` — the invariant: the counters show what is resident and what is owed, or
  more while a `clear` has emptied the map and not yet zeroed them;
* `accounts_settled` — along runs whose steps are `Orderly` the counters are exact and within capacity
  when no call is in flight, and no `entries -= 1` underflows; `accounts_unsettled` has runs in which an
  underflow, an overshoot and a drift happen.
-/

set_option autoImplicit false

namespace CacheLayer

variable {K V P : Type}

/-- A `set` without a time-to-live, a `delete` or a `clear`. -/
def Op.Untimed : Op K V → Prop
  | .set _ _ ttl => ttl = none
  | .delete _ => True
  | .clear => True
  | _ => False

instance Op.decidableUntimed : (op : Op K V) → Decidable op.Untimed
  | .set _ _ ttl => inferInstanceAs (Decidable (ttl = none))
  | .delete _ => isTrue trivial
  | .clear => isTrue trivial
  | .get _ => isFalse id
  | .exists _ => isFalse id

theorem MemoryCache.releaseEntry_ne_panic {c c' : MemoryCache K V P} {n : Nat} {p : Panic}
    (hpos : c.stats.entries ≠ 0) : c.releaseEntry n ≠ (c', some p) := by
  intro h
  simp [releaseEntry, debit, hpos] at h

/-! ## What a call in flight owes -/

/-- An entry that a `set` has removed and not counted off. -/
def replaced : Option Nat → ℤ
  | some _ => 1
  | none => 0

namespace Thread

/-- Bytes that the call has removed from the map and will take off the size; negative, bytes that it has
inserted and will add. -/
def owesBytes : Thread K V → ℤ
  | .set _ _ _ _ (.debit n) => n
  | .set _ _ _ _ (.release n) => n
  | .set _ _ _ _ (.credit cached) => -cached.sizeBytes
  | .delete _ (some n) => n
  | _ => 0

/-- Entries that the call has removed from the map and will take off the count, or will replace;
negative, an entry that it has inserted and will count. -/
def owesEntries : Thread K V → ℤ
  | .set _ _ _ _ .remove => 0
  | .set _ _ _ oldSize (.release _) => replaced oldSize + 1
  | .set _ _ _ oldSize (.credit _) => replaced oldSize - 1
  | .set _ _ _ oldSize (.count _ _) => replaced oldSize - 1
  | .set _ _ _ _ (.record _) => 0
  | .set _ _ _ oldSize _ => replaced oldSize
  | .delete _ (some _) => 1
  | _ => 0

/-- The call is a `clear` that has emptied the map. -/
def Resets : Thread K V → Prop
  | .clear true => True
  | _ => False

theorem Resets.op {th : Thread K V} (h : th.Resets) : th.op = .clear := by
  unfold Resets at h
  split at h
  · rfl
  · cases h

theorem Resets.not_returned {th : Thread K V} (h : th.Resets) : ¬ th.Returned := by
  unfold Resets at h
  split at h
  · exact id
  · cases h

/-- The panic that ended the call. -/
def panicked : Thread K V → Option Panic
  | .returned _ _ (.panic p) => some p
  | _ => none

theorem owesBytes_start (op : Op K V) : (start op).owesBytes = 0 := by
  cases op <;> rfl

theorem owesEntries_start (op : Op K V) : (start op).owesEntries = 0 := by
  cases op <;> rfl

theorem owesBytes_of_returned {th : Thread K V} (h : th.Returned) : th.owesBytes = 0 := by
  cases th with
  | returned op inserted reply => rfl
  | _ => exact h.elim

theorem owesEntries_of_returned {th : Thread K V} (h : th.Returned) : th.owesEntries = 0 := by
  cases th with
  | returned op inserted reply => rfl
  | _ => exact h.elim

variable [DecidableEq K]

/-- The next step finds what it takes for granted: the bytes it takes off, an entry to take off
(`entryDue`), no entry that it overwrites, room for the bytes it adds, no removed entry that a failing
`set` leaves behind, and nothing due when the counters are zeroed (`settled`). -/
def Finds (c : MemoryCache K V P) (entryDue settled : Prop) : Thread K V → Prop
  | .set _ _ _ _ (.debit n) => n ≤ c.sizeBytes
  | .set _ _ _ _ (.release n) => n ≤ c.sizeBytes ∧ entryDue
  | .set _ _ _ oldSize .fail => oldSize = none
  | .set key _ _ _ (.insert _) => key ∉ c.entries
  | .set _ _ _ _ (.credit cached) => c.sizeBytes + cached.sizeBytes ≤ c.capacityBytes
  | .delete _ (some n) => n ≤ c.sizeBytes ∧ entryDue
  | .clear true => settled
  | _ => True

instance decidableFinds (c : MemoryCache K V P) (entryDue settled : Prop) [Decidable entryDue]
    [Decidable settled] : (th : Thread K V) → Decidable (th.Finds c entryDue settled)
  | .set _ _ _ _ (.debit n) => inferInstanceAs (Decidable (n ≤ c.sizeBytes))
  | .set _ _ _ _ (.release n) => inferInstanceAs (Decidable (n ≤ c.sizeBytes ∧ entryDue))
  | .set _ _ _ oldSize .fail => inferInstanceAs (Decidable (oldSize = none))
  | .set key _ _ _ (.insert _) => inferInstanceAs (Decidable (key ∉ c.entries))
  | .set _ _ _ _ (.credit cached) =>
    inferInstanceAs (Decidable (c.sizeBytes + cached.sizeBytes ≤ c.capacityBytes))
  | .delete _ (some n) => inferInstanceAs (Decidable (n ≤ c.sizeBytes ∧ entryDue))
  | .clear true => inferInstanceAs (Decidable settled)
  | .set _ _ _ _ .remove => isTrue trivial
  | .set _ _ _ _ .check => isTrue trivial
  | .set _ _ _ _ .evict => isTrue trivial
  | .set _ _ _ _ (.drop _) => isTrue trivial
  | .set _ _ _ _ .expiry => isTrue trivial
  | .set _ _ _ _ (.stamp _) => isTrue trivial
  | .set _ _ _ _ (.count _ _) => isTrue trivial
  | .set _ _ _ _ (.record _) => isTrue trivial
  | .delete _ none => isTrue trivial
  | .clear false => isTrue trivial
  | .get _ _ => isTrue trivial
  | .exists _ _ => isTrue trivial
  | .returned _ _ _ => isTrue trivial

omit [DecidableEq K] in
theorem Finds.mono {c : MemoryCache K V P} {entryDue entryDue' settled : Prop} {th : Thread K V}
    (himp : entryDue → entryDue') (h : th.Finds c entryDue settled) : th.Finds c entryDue' True := by
  unfold Finds at h ⊢
  split at h
  · exact h
  · exact ⟨h.1, himp h.2⟩
  · exact h
  · exact h
  · exact h
  · exact ⟨h.1, himp h.2⟩
  · trivial
  · trivial

/-- Map, counters and debt move together. -/
structure Balances (c : MemoryCache K V P) (th : Thread K V) (r : MemoryCache K V P × Thread K V) :
    Prop where
  bytes : (r.1.sizeBytes : ℤ) - c.sizeBytes =
    ((r.1.residentBytes : ℤ) - c.residentBytes) + (r.2.owesBytes - th.owesBytes)
  entries : (r.1.stats.entries : ℤ) - c.stats.entries =
    ((r.1.entries.count : ℤ) - c.entries.count) + (r.2.owesEntries - th.owesEntries)
  capacity : r.1.capacityBytes = c.capacityBytes
  fits : c.sizeBytes ≤ c.capacityBytes → r.1.sizeBytes ≤ c.capacityBytes
  calm : r.2.panicked = none

omit [DecidableEq K] in
/-- A step that changes neither the map nor the counters. -/
theorem Balances.of_same {c : MemoryCache K V P} {th : Thread K V}
    {r : MemoryCache K V P × Thread K V} (hmap : r.1.entries = c.entries)
    (hsize : r.1.sizeBytes = c.sizeBytes) (hcount : r.1.stats.entries = c.stats.entries)
    (hcap : r.1.capacityBytes = c.capacityBytes) (hbytes : r.2.owesBytes = th.owesBytes)
    (hentries : r.2.owesEntries = th.owesEntries) (hcalm : r.2.panicked = none) : Balances c th r := by
  refine ⟨?_, ?_, hcap, ?_, hcalm⟩
  · simp [MemoryCache.residentBytes, hmap, hsize, hbytes]
  · simp [hmap, hcount, hentries]
  · rw [hsize]
    exact id

/-- A step that removes an entry and owes for it. -/
theorem Balances.of_removeEntry {c : MemoryCache K V P} {key : K} {entry : CachedValue V}
    {th th' : Thread K V} (hl : c.entries.lookup key = some entry)
    (hbytes : th'.owesBytes = th.owesBytes + entry.sizeBytes)
    (hentries : th'.owesEntries = th.owesEntries + 1) (hcalm : th'.panicked = none) :
    Balances c th (c.removeEntry key, th') := by
  have htotal := AList.total_erase CachedValue.sizeBytes hl
  have hcount := AList.count_erase (AList.mem_of_lookup hl)
  refine ⟨?_, ?_, rfl, id, hcalm⟩
  · simp only [MemoryCache.residentBytes, MemoryCache.removeEntry, htotal, hbytes]
    push_cast
    omega
  · simp only [MemoryCache.removeEntry, hcount, hentries]
    push_cast
    omega

omit [DecidableEq K] in
/-- The section after a removal, with bytes and an entry to subtract from. -/
theorem Balances.of_releaseEntry {c c' : MemoryCache K V P} {n : Nat} {o : Option Panic}
    (hrel : c.releaseEntry n = (c', o)) (th th' : Thread K V) (hn : n ≤ c.sizeBytes)
    (hpos : c.stats.entries ≠ 0) (hbytes : th.owesBytes = th'.owesBytes + n)
    (hentries : th.owesEntries = th'.owesEntries + 1) (hcalm : th'.panicked = none) :
    Balances c th (c', th') := by
  simp only [MemoryCache.releaseEntry, MemoryCache.debit, hpos, if_false] at hrel
  cases hrel
  refine ⟨?_, ?_, rfl, ?_, hcalm⟩
  · simp only [MemoryCache.residentBytes, hbytes]
    push_cast [hn]
    omega
  · simp only [hentries]
    omega
  · simp only
    omega

variable [EvictionPolicy K P] [RustSized K] [RustSized V] {c : MemoryCache K V P} {now : Instant}
  {order : HashOrder K}

theorem setStep_balance {key : K} {value : V} {oldSize : Option Nat} {phase : SetPhase K V}
    (hok : Finds c (c.stats.entries ≠ 0) True (.set key value none oldSize phase)) :
    Balances c (.set key value none oldSize phase)
      (setStep c now order key value none oldSize phase) := by
  cases phase with
  | remove =>
    simp only [setStep]
    split
    · rename_i entry hl
      exact .of_removeEntry hl (by simp [owesBytes]) (by simp [owesEntries, replaced]) rfl
    · exact .of_same rfl rfl rfl rfl rfl rfl rfl
  | debit n =>
    have hn : n ≤ c.sizeBytes := hok
    refine ⟨?_, by simp [setStep, MemoryCache.debit, owesEntries], rfl, ?_, rfl⟩
    · simp only [setStep, MemoryCache.debit, MemoryCache.residentBytes, owesBytes]
      push_cast [hn]
      omega
    · simp only [setStep, MemoryCache.debit]
      omega
  | check =>
    simp only [setStep]
    split
    all_goals exact .of_same rfl rfl rfl rfl rfl rfl rfl
  | evict =>
    simp only [setStep]
    split
    all_goals exact .of_same rfl rfl rfl rfl rfl rfl rfl
  | drop victim =>
    simp only [setStep]
    split
    · rename_i entry hl
      exact .of_removeEntry hl (by simp [owesBytes]) (by simp [owesEntries]) rfl
    · exact .of_same rfl rfl rfl rfl rfl rfl rfl
  | release n =>
    obtain ⟨hn, hpos⟩ : n ≤ c.sizeBytes ∧ c.stats.entries ≠ 0 := hok
    simp only [setStep]
    split
    · rename_i c' hrel
      have hb := Balances.of_releaseEntry hrel (.set key value none oldSize (.release n))
        (.set key value none oldSize .check) hn hpos (by simp [owesBytes]) (by simp [owesEntries]) rfl
      exact ⟨hb.bytes, hb.entries, hb.capacity, hb.fits, hb.calm⟩
    · rename_i c' p hrel
      exact absurd hrel (MemoryCache.releaseEntry_ne_panic (c := c.countEviction) hpos)
  | fail =>
    have hold : oldSize = none := hok
    subst hold
    exact .of_same rfl rfl rfl rfl rfl rfl rfl
  | expiry => exact .of_same rfl rfl rfl rfl rfl rfl rfl
  | stamp expiresAt => exact .of_same rfl rfl rfl rfl rfl rfl rfl
  | insert cached =>
    have habsent : key ∉ c.entries := hok
    refine ⟨?_, ?_, rfl, id, rfl⟩
    · simp only [setStep, MemoryCache.insertEntry, MemoryCache.residentBytes, owesBytes,
        AList.total_insert _ _ habsent]
      push_cast
      omega
    · simp only [setStep, MemoryCache.insertEntry, owesEntries, AList.count_insert _ habsent]
      push_cast
      omega
  | credit cached =>
    have hroom : c.sizeBytes + cached.sizeBytes ≤ c.capacityBytes := hok
    refine ⟨?_, by simp [setStep, MemoryCache.credit, owesEntries], rfl, fun _ => hroom, rfl⟩
    simp only [setStep, MemoryCache.credit, MemoryCache.residentBytes, owesBytes]
    push_cast
    omega
  | count cached finalSize =>
    refine ⟨by simp [setStep, MemoryCache.countInsert, MemoryCache.residentBytes, owesBytes], ?_, rfl,
      id, rfl⟩
    cases oldSize with
    | none => simp [setStep, MemoryCache.countInsert, owesEntries, replaced]
    | some n => simp [setStep, MemoryCache.countInsert, owesEntries, replaced]
  | record cached => exact .of_same rfl rfl rfl rfl rfl rfl rfl

omit [EvictionPolicy K P] [RustSized K] [RustSized V] in
theorem deleteStep_balance {key : K} {removed : Option Nat}
    (hok : Finds c (c.stats.entries ≠ 0) True (.delete key removed)) :
    Balances c (.delete key removed) (deleteStep c key removed) := by
  cases removed with
  | none =>
    simp only [deleteStep]
    split
    · rename_i entry hl
      exact .of_removeEntry hl (by simp [owesBytes]) (by simp [owesEntries]) rfl
    · exact .of_same rfl rfl rfl rfl rfl rfl rfl
  | some n =>
    obtain ⟨hn, hpos⟩ : n ≤ c.sizeBytes ∧ c.stats.entries ≠ 0 := hok
    simp only [deleteStep]
    split
    · rename_i c' hrel
      exact .of_releaseEntry hrel _ _ hn hpos (by simp [owesBytes]) (by simp [owesEntries]) rfl
    · rename_i c' p hrel
      exact absurd hrel (MemoryCache.releaseEntry_ne_panic hpos)

/-- **A step of a `set` or `delete` moves map, counters and debt together.** -/
theorem step_balance {th : Thread K V} {r : MemoryCache K V P × Thread K V}
    (h : th.step c now order = some r) (hop : th.op.Untimed) (hclear : th.op ≠ .clear)
    (hok : th.Finds c (c.stats.entries ≠ 0) True) : Balances c th r := by
  cases th with
  | set key value ttl oldSize phase =>
    cases h
    cases (hop : ttl = none)
    exact setStep_balance hok
  | delete key removed =>
    cases h
    exact deleteStep_balance hok
  | clear emptied => exact absurd rfl hclear
  | returned op inserted reply => cases h
  | _ => exact hop.elim

end Thread

namespace MemorySystem

/-! ## The condition -/

/-- What the size should show: the bytes resident and the bytes owed. -/
def dueBytes (s : MemorySystem K V P) : ℤ := s.cache.residentBytes + owed Thread.owesBytes s.threads

/-- What the entry count should show: the entries resident and the entries owed. -/
def dueEntries (s : MemorySystem K V P) : ℤ :=
  s.cache.entries.count + owed Thread.owesEntries s.threads

/-- The step finds what it takes for granted: a section that takes off an entry finds one due, and a
`clear` zeroes the counters when nothing is due. -/
def Orderly (s : MemorySystem K V P) : MemoryLabel K V → Prop
  | .run i _ => ∀ th ∈ s.threads[i]?,
    th.Finds s.cache (1 ≤ s.dueEntries) (s.dueBytes = 0 ∧ s.dueEntries = 0)
  | .invoke _ => True
  | .tick _ => True

instance [DecidableEq K] (s : MemorySystem K V P) : (l : MemoryLabel K V) → Decidable (s.Orderly l)
  | .run i _ => inferInstanceAs (Decidable (∀ th ∈ s.threads[i]?,
      th.Finds s.cache (1 ≤ s.dueEntries) (s.dueBytes = 0 ∧ s.dueEntries = 0)))
  | .invoke _ => isTrue trivial
  | .tick _ => isTrue trivial

/-- Only `set`s without a time-to-live, `delete`s and `clear`s are called. -/
def CallsUntimed (_ : MemorySystem K V P) : MemoryLabel K V → Prop
  | .invoke op => op.Untimed
  | .run _ _ => True
  | .tick _ => True

instance (s : MemorySystem K V P) : (l : MemoryLabel K V) → Decidable (s.CallsUntimed l)
  | .invoke op => inferInstanceAs (Decidable op.Untimed)
  | .run _ _ => isTrue trivial
  | .tick _ => isTrue trivial

/-! ## The invariant -/

/-- How far the size is above what is due. -/
def byteSurplus (s : MemorySystem K V P) : ℤ :=
  surplus Thread.owesBytes s.cache.sizeBytes s.cache.residentBytes s.threads

/-- How far the entry count is above what is due. -/
def entrySurplus (s : MemorySystem K V P) : ℤ :=
  surplus Thread.owesEntries s.cache.stats.entries s.cache.entries.count s.threads

/-- The counters show what is due, or more while a `clear` is about to zero them. -/
structure Balanced (s : MemorySystem K V P) : Prop where
  untimed : ∀ th ∈ s.threads, th.op.Untimed
  bytes : 0 ≤ s.byteSurplus
  entries : 0 ≤ s.entrySurplus
  exact : (∀ th ∈ s.threads, ¬ th.Resets) → s.byteSurplus = 0 ∧ s.entrySurplus = 0
  fits : s.cache.sizeBytes ≤ s.cache.capacityBytes
  calm : ∀ th ∈ s.threads, th.panicked = none

theorem sizeBytes_eq_due (s : MemorySystem K V P) :
    (s.cache.sizeBytes : ℤ) = s.dueBytes + s.byteSurplus := by
  unfold dueBytes byteSurplus surplus
  omega

theorem entries_eq_due (s : MemorySystem K V P) :
    (s.cache.stats.entries : ℤ) = s.dueEntries + s.entrySurplus := by
  unfold dueEntries entrySurplus surplus
  omega

theorem byteSurplus_advance {s : MemorySystem K V P} {i : Nat} {th : Thread K V}
    {r : MemoryCache K V P × Thread K V} (hi : s.threads[i]? = some th) :
    (s.advance i r).byteSurplus = s.byteSurplus + (((r.1.sizeBytes : ℤ) - s.cache.sizeBytes) -
      (((r.1.residentBytes : ℤ) - s.cache.residentBytes) + (r.2.owesBytes - th.owesBytes))) :=
  surplus_set hi _ _ _ _ _

theorem entrySurplus_advance {s : MemorySystem K V P} {i : Nat} {th : Thread K V}
    {r : MemoryCache K V P × Thread K V} (hi : s.threads[i]? = some th) :
    (s.advance i r).entrySurplus = s.entrySurplus +
      (((r.1.stats.entries : ℤ) - s.cache.stats.entries) -
        (((r.1.entries.count : ℤ) - s.cache.entries.count) + (r.2.owesEntries - th.owesEntries))) :=
  surplus_set hi _ _ _ _ _

theorem balanced_fresh (capacityBytes : Nat) (policy : P) (h : 0 < capacityBytes) :
    (fresh capacityBytes policy h : MemorySystem K V P).Balanced := by
  have hbytes : (fresh capacityBytes policy h : MemorySystem K V P).byteSurplus = 0 := rfl
  have hentries : (fresh capacityBytes policy h : MemorySystem K V P).entrySurplus = 0 := rfl
  refine ⟨?_, by omega, by omega, fun _ => ⟨hbytes, hentries⟩, Nat.zero_le _, ?_⟩
  · intro th hth
    cases hth
  · intro th hth
    cases hth

/-- A call is made. -/
theorem Balanced.invoke {s : MemorySystem K V P} {op : Op K V} (h : s.Balanced) (hop : op.Untimed) :
    (s.invoke op).Balanced := by
  have hbytes : (s.invoke op).byteSurplus = s.byteSurplus := surplus_concat (Thread.owesBytes_start op)
  have hentries : (s.invoke op).entrySurplus = s.entrySurplus :=
    surplus_concat (Thread.owesEntries_start op)
  refine ⟨?_, hbytes ▸ h.bytes, hentries ▸ h.entries, ?_, h.fits, ?_⟩
  · intro th hth
    rcases List.mem_append.1 hth with hth | hth
    · exact h.untimed th hth
    · rw [List.mem_singleton.1 hth, Thread.op_start]
      exact hop
  · intro hno
    rw [hbytes, hentries]
    exact h.exact fun th hth => hno th (List.mem_append_left _ hth)
  · intro th hth
    rcases List.mem_append.1 hth with hth | hth
    · exact h.calm th hth
    · rw [List.mem_singleton.1 hth]
      cases op <;> rfl

/-- What is due makes the sections find what they take off. -/
theorem Balanced.finds {s : MemorySystem K V P} {i : Nat} {order : HashOrder K} {th : Thread K V}
    (h : s.Balanced) (hord : s.Orderly (.run i order)) (hi : s.threads[i]? = some th) :
    th.Finds s.cache (s.cache.stats.entries ≠ 0) True := by
  refine (hord th hi).mono fun hdue => ?_
  have hsum := s.entries_eq_due
  have hsur := h.entries
  omega

/-- A `clear` empties the map. -/
theorem Balanced.empty {s : MemorySystem K V P} {i : Nat} (h : s.Balanced)
    (hi : s.threads[i]? = some (.clear false)) :
    (s.advance i (s.cache.clearEntries, .clear true)).Balanced := by
  have hbytes : (s.advance i (s.cache.clearEntries, .clear true)).byteSurplus =
      s.byteSurplus + s.cache.residentBytes := by
    rw [byteSurplus_advance hi]
    simp [MemoryCache.clearEntries, MemoryCache.residentBytes, Thread.owesBytes]
  have hentries : (s.advance i (s.cache.clearEntries, .clear true)).entrySurplus =
      s.entrySurplus + s.cache.entries.count := by
    rw [entrySurplus_advance hi]
    simp [MemoryCache.clearEntries, Thread.owesEntries]
  refine ⟨?_, by have := h.bytes; omega, by have := h.entries; omega, ?_, h.fits, ?_⟩
  · intro th hth
    rcases mem_advance hth with hth | rfl
    · exact h.untimed th hth
    · trivial
  · intro hno
    exact absurd trivial (hno _ (List.mem_of_getElem? (advance_get_self hi)))
  · intro th hth
    rcases mem_advance hth with hth | rfl
    · exact h.calm th hth
    · rfl

variable [DecidableEq K] [EvictionPolicy K P] [RustSized K] [RustSized V]

/-- A `set` or a `delete` takes a step. -/
theorem Balanced.advance {s : MemorySystem K V P} {i : Nat} {order : HashOrder K} {th : Thread K V}
    {r : MemoryCache K V P × Thread K V} (h : s.Balanced) (hord : s.Orderly (.run i order))
    (hi : s.threads[i]? = some th) (hr : th.step s.cache s.clock order = some r)
    (hclear : th.op ≠ .clear) : (s.advance i r).Balanced := by
  have hop := h.untimed th (List.mem_of_getElem? hi)
  have hbal := Thread.step_balance hr hop hclear (h.finds hord hi)
  have hbytes : (s.advance i r).byteSurplus = s.byteSurplus := by
    rw [byteSurplus_advance hi, hbal.bytes, sub_self, add_zero]
  have hentries : (s.advance i r).entrySurplus = s.entrySurplus := by
    rw [entrySurplus_advance hi, hbal.entries, sub_self, add_zero]
  refine ⟨?_, by have := h.bytes; omega, by have := h.entries; omega, ?_, ?_, ?_⟩
  · intro th' hth'
    rcases mem_advance hth' with hth' | rfl
    · exact h.untimed th' hth'
    · rw [Thread.step_op hr]
      exact hop
  · intro hno
    rw [hbytes, hentries]
    refine h.exact fun th' hth' hres => ?_
    obtain ⟨j, hj⟩ := List.mem_iff_getElem?.1 hth'
    by_cases hji : i = j
    · subst hji
      rw [hi] at hj
      cases hj
      exact hclear hres.op
    · have hj' : (s.advance i r).threads[j]? = some th' := (advance_get_ne hji).trans hj
      exact hno th' (List.mem_of_getElem? hj') hres
  · show r.1.sizeBytes ≤ r.1.capacityBytes
    rw [hbal.capacity]
    exact hbal.fits h.fits
  · intro th' hth'
    rcases mem_advance hth' with hth' | rfl
    · exact h.calm th' hth'
    · exact hbal.calm

omit [DecidableEq K] [RustSized K] [RustSized V] in
/-- A `clear` zeroes the counters. -/
theorem Balanced.reset {s : MemorySystem K V P} {i : Nat} {order : HashOrder K} (h : s.Balanced)
    (hord : s.Orderly (.run i order)) (hi : s.threads[i]? = some (.clear true)) :
    (s.advance i (s.cache.resetCounters, .returned .clear none (.ok .unit))).Balanced := by
  obtain ⟨hdueB, hdueE⟩ : s.dueBytes = 0 ∧ s.dueEntries = 0 := hord _ hi
  have hbytes : (s.advance i
      (s.cache.resetCounters, .returned .clear none (.ok .unit))).byteSurplus = 0 := by
    have hsum := s.sizeBytes_eq_due
    rw [byteSurplus_advance hi]
    simp only [MemoryCache.resetCounters, MemoryCache.residentBytes, Thread.owesBytes]
    push_cast
    omega
  have hentries : (s.advance i
      (s.cache.resetCounters, .returned .clear none (.ok .unit))).entrySurplus = 0 := by
    have hsum := s.entries_eq_due
    rw [entrySurplus_advance hi]
    simp only [MemoryCache.resetCounters, Thread.owesEntries]
    push_cast
    omega
  refine ⟨?_, by omega, by omega, fun _ => ⟨hbytes, hentries⟩, Nat.zero_le _, ?_⟩
  · intro th hth
    rcases mem_advance hth with hth | rfl
    · exact h.untimed th hth
    · trivial
  · intro th hth
    rcases mem_advance hth with hth | rfl
    · exact h.calm th hth
    · rfl

theorem balanced_step {s t : MemorySystem K V P} {l : MemoryLabel K V} (h : s.Balanced)
    (hcall : s.CallsUntimed l) (hord : s.Orderly l) (hstep : Steps s l t) : t.Balanced := by
  obtain ⟨op, rfl, rfl⟩ | ⟨i, order, th, r, rfl, hi, hr, rfl⟩ | ⟨now, rfl, hle, rfl⟩ :=
    step_cases hstep
  · exact h.invoke hcall
  · by_cases hclear : th.op = .clear
    · cases th with
      | clear emptied =>
        cases hr
        cases emptied with
        | false => exact h.empty hi
        | true => exact h.reset hord hi
      | returned op inserted reply => cases hr
      | _ => cases hclear
    · exact h.advance hord hi hr hclear
  · exact ⟨h.untimed, h.bytes, h.entries, h.exact, h.fits, h.calm⟩

/-- **Accounting and capacity.**  Any number of `set`s without a time-to-live, `delete`s and `clear`s run
on a fresh cache in any order of steps, each step finding what it takes for granted (`Orderly`).  In every
state in which no call is in flight the size is the sum of the resident entries' sizes, within capacity,
and the statistics count the resident entries; and no call has panicked, in an `entries -= 1` at zero or
otherwise. -/
theorem accounts_settled {capacityBytes : Nat} {policy : P} {hpos : 0 < capacityBytes}
    {es : List (MemoryLabel K V)} {s : MemorySystem K V P}
    (hrun : Run (Guarded (fun s l => s.CallsUntimed l ∧ s.Orderly l) Steps)
      (fresh capacityBytes policy hpos) es s) :
    (s.Quiet → s.cache.sizeBytes = s.cache.residentBytes ∧
      s.cache.sizeBytes ≤ s.cache.capacityBytes ∧
      s.cache.stats.entries = s.cache.entries.count) ∧
    ∀ th ∈ s.threads, th.panicked = none := by
  have hbal : s.Balanced := hrun.invariant _ (balanced_fresh capacityBytes policy hpos)
    fun _ _ _ h hs => balanced_step h hs.1.1 hs.1.2 hs.2
  refine ⟨fun hquiet => ?_, hbal.calm⟩
  obtain ⟨hbytes, hentries⟩ := hbal.exact fun th hth hres => hres.not_returned (hquiet th hth)
  have hsize : s.byteSurplus = (s.cache.sizeBytes : ℤ) - s.cache.residentBytes :=
    surplus_settled fun th hth => Thread.owesBytes_of_returned (hquiet th hth)
  have hcount : s.entrySurplus = (s.cache.stats.entries : ℤ) - s.cache.entries.count :=
    surplus_settled fun th hth => Thread.owesEntries_of_returned (hquiet th hth)
  exact ⟨by omega, hbal.fits, by omega⟩

/-! ## Runs -/

/-- A fresh cache with this capacity. -/
def small (capacityBytes : Nat) (hpos : 0 < capacityBytes) : MemorySystem UInt64 UInt64 (LRU UInt64) :=
  fresh capacityBytes (LRU.new _ 1024 (Nat.succ_pos (nat_lit 1023))) hpos

/-- A `delete` of key 1 beside a `set` of it: it removes the entry when the `set` has counted it. -/
def deleteCounted : List (MemoryLabel UInt64 UInt64) :=
  [.invoke (.set 1 10 none), .invoke (.delete 1)] ++ runs 0 7 (.id _) ++ runs 1 1 (.id _) ++
    runs 0 1 (.id _) ++ runs 1 1 (.id _)

/-- Steps that are checked to be in order. -/
def orderlyStep (s : MemorySystem UInt64 UInt64 (LRU UInt64)) (l : MemoryLabel UInt64 UInt64) :
    Option (MemorySystem UInt64 UInt64 (LRU UInt64)) :=
  if s.CallsUntimed l ∧ s.Orderly l then s.step l else none

/-- The state after the `set` and the `delete`. -/
def setAndDeleted : MemorySystem UInt64 UInt64 (LRU UInt64) :=
  (play orderlyStep (small 16 (Nat.succ_pos (nat_lit 15))) deleteCounted).get (by decide)

theorem accounts_settled_after_delete :
    setAndDeleted.cache.sizeBytes = setAndDeleted.cache.residentBytes ∧
      setAndDeleted.cache.stats.entries = setAndDeleted.cache.entries.count ∧
      ∀ th ∈ setAndDeleted.threads, th.panicked = none := by
  have hrun : Run (Guarded (fun s l => s.CallsUntimed l ∧ s.Orderly l) Steps)
      (fresh 16 (LRU.new _ 1024 (Nat.succ_pos 1023)) (Nat.succ_pos 15)) deleteCounted setAndDeleted :=
    Run.of_play_guarded (Option.some_get _).symm
  obtain ⟨hquiet, hcalm⟩ := accounts_settled hrun
  obtain ⟨hsize, -, hcount⟩ := hquiet (by decide)
  exact ⟨hsize, hcount, hcalm⟩

/-- The `delete` removes the entry when the `set` has not counted it. -/
def deleteUncounted : List (MemoryLabel UInt64 UInt64) :=
  [.invoke (.set 1 10 none), .invoke (.delete 1)] ++ runs 0 5 (.id _) ++ runs 1 2 (.id _)

/-- Two `set`s find the same room. -/
def sameRoom : List (MemoryLabel UInt64 UInt64) :=
  [.invoke (.set 1 10 none), .invoke (.set 2 20 none)] ++ runs 0 2 (.id _) ++ runs 1 8 (.id _) ++
    runs 0 6 (.id _)

/-- Two `set`s insert the same key. -/
def sameKey : List (MemoryLabel UInt64 UInt64) :=
  [.invoke (.set 1 10 none), .invoke (.set 1 20 none)] ++ runs 0 2 (.id _) ++ runs 1 8 (.id _) ++
    runs 0 6 (.id _)

/-- Steps of untimed calls. -/
def untimedStep (s : MemorySystem UInt64 UInt64 (LRU UInt64)) (l : MemoryLabel UInt64 UInt64) :
    Option (MemorySystem UInt64 UInt64 (LRU UInt64)) :=
  if s.CallsUntimed l then s.step l else none

/-- The state after these steps of untimed calls. -/
def afterUntimed (capacityBytes : Nat) (hpos : 0 < capacityBytes)
    (es : List (MemoryLabel UInt64 UInt64)) : Option (MemorySystem UInt64 UInt64 (LRU UInt64)) :=
  play untimedStep (small capacityBytes hpos) es

/-- An `entries -= 1` at zero; a full cache that holds twice its capacity; and counters that show two
entries where one is resident. -/
theorem accounts_unsettled :
    ∃ s t u, Run (Guarded CallsUntimed Steps) (small 16 (Nat.succ_pos 15)) deleteUncounted s ∧
      (∃ th ∈ s.threads, th.panicked = some .subtractOverflow) ∧
      Run (Guarded CallsUntimed Steps) (small 16 (Nat.succ_pos 15)) sameRoom t ∧ t.Quiet ∧
      t.cache.capacityBytes < t.cache.sizeBytes ∧
      Run (Guarded CallsUntimed Steps) (small 64 (Nat.succ_pos 63)) sameKey u ∧ u.Quiet ∧
      u.cache.sizeBytes = 32 ∧ u.cache.residentBytes = 16 ∧ u.cache.stats.entries = 2 ∧
      u.cache.entries.count = 1 :=
  ⟨(afterUntimed 16 (Nat.succ_pos 15) deleteUncounted).get (by decide),
    (afterUntimed 16 (Nat.succ_pos 15) sameRoom).get (by decide),
    (afterUntimed 64 (Nat.succ_pos 63) sameKey).get (by decide), Run.of_play_guarded (Option.some_get _).symm,
    by decide, Run.of_play_guarded (Option.some_get _).symm, by decide, by decide,
    Run.of_play_guarded (Option.some_get _).symm, by decide, by decide, by decide, by decide, by decide⟩

end MemorySystem

end CacheLayer
