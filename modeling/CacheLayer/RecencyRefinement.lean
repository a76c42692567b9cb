import CacheLayer.EvictionSpec
import CacheLayer.Lib.Run

/-!
# `LRU` and the recency list

What an LRU policy is for is a recency list: `on_insert` and `on_access` touch a key, `evict` takes the
least recent one.  `LRU` keeps the list with an index of positions, which `evict` does not renumber.

* `Refines.exec` — a call that finds the index accurate does to `LRU` what it does to the list;
* `lru_refines_queue` — so every run of such calls is a run of the recency list, with the same results;
  `lru_departs_from_queue` is a run with another call;
* `accurate_of_run` — the index is accurate for every key touched since the last `evict`, so it can only
  be wrong about a key that an `evict` has left in the list;
* `LRU.WellFormed` — the index is accurate for every key and knows exactly the keys of the order, which
  `lru_touch_keeps_representation` says `on_insert` and `on_access` preserve.
-/

set_option autoImplicit false

namespace CacheLayer

open Recency

variable {K : Type} [DecidableEq K]

/-! ## Calls -/

/-- A call on an eviction policy. -/
inductive PolicyOp (K : Type) where
  | onInsert (key : K)
  | onAccess (key : K)
  | evict
  | reset
  deriving DecidableEq

/-- A call and the key it returned. -/
structure PolicyEvent (K : Type) where
  op : PolicyOp K
  returned : Option K
  deriving DecidableEq

/-- Execute a call on an `LRU`. -/
def LRU.exec (p : LRU K) : PolicyOp K → LRU K × Option K
  | .onInsert key => (p.onInsert key, none)
  | .onAccess key => (p.onAccess key, none)
  | .evict => (p.evict.2, p.evict.1)
  | .reset => (p.reset, none)

/-- What a call is to do to the recency list. -/
def queueExec (q : Queue K) : PolicyOp K → Queue K × Option K
  | .onInsert key => (q.touch key, none)
  | .onAccess key => (q.touch key, none)
  | .evict => (q.pop.2, q.pop.1)
  | .reset => (.empty, none)

/-- One call on an `LRU`. -/
def PolicyStep (p : LRU K) (e : PolicyEvent K) (p' : LRU K) : Prop := p.exec e.op = (p', e.returned)

/-- One call on the recency list. -/
def QueueStep (q : Queue K) (e : PolicyEvent K) (q' : Queue K) : Prop :=
  queueExec q e.op = (q', e.returned)

/-- The position stored for the key that the call reports, if one is stored, is its position. -/
def FindsAccurate (p : LRU K) (e : PolicyEvent K) : Prop :=
  match e.op with
  | .onInsert key => p.Accurate key
  | .onAccess key => p.Accurate key
  | .evict => True
  | .reset => True

instance (p : LRU K) (e : PolicyEvent K) : Decidable (FindsAccurate p e) :=
  match e with
  | ⟨.onInsert key, _⟩ => inferInstanceAs (Decidable (p.Accurate key))
  | ⟨.onAccess key, _⟩ => inferInstanceAs (Decidable (p.Accurate key))
  | ⟨.evict, _⟩ => isTrue trivial
  | ⟨.reset, _⟩ => isTrue trivial

/-! ## Refinement -/

namespace LRU

/-- The access order is the recency list, and the index knows its keys. -/
structure Refines (p : LRU K) (q : Queue K) : Prop where
  coherent : p.Coherent
  items_eq : p.accessOrder = q.items

namespace Refines

variable {p p' : LRU K} {q : Queue K}

omit [DecidableEq K] in
theorem size_eq (h : p.Refines q) : p.size = q.length := congrArg List.length h.items_eq

theorem touch (h : p.Refines q) {key : K} (ha : p.Accurate key) :
    (p.onAccess key).Refines (q.touch key) := by
  refine ⟨h.coherent.onAccess ha, ?_⟩
  rw [h.coherent.accessOrder_onAccess ha, h.items_eq]
  rfl

theorem evict (h : p.Refines q) : p.evict.1 = q.pop.1 ∧ p.evict.2.Refines q.pop.2 := by
  have hitems := h.items_eq
  cases horder : p.accessOrder with
  | nil =>
    have hev : p.evict = (none, p) := by unfold LRU.evict; rw [horder]
    rw [horder] at hitems
    rw [hev]
    refine ⟨?_, h.coherent, ?_⟩
    · show none = q.items.head?
      rw [← hitems]; rfl
    · show p.accessOrder = q.items.tail
      rw [horder, ← hitems]; rfl
  | cons key rest =>
    have hev : p.evict =
        (some key, { p with accessOrder := rest, keyIndex := p.keyIndex.erase key }) := by
      unfold LRU.evict; rw [horder]
    rw [horder] at hitems
    refine ⟨?_, ?_, ?_⟩
    · show p.evict.1 = q.items.head?
      rw [hev, ← hitems]; rfl
    · rw [hev]
      exact (h.coherent.evict hev).2
    · show p.evict.2.accessOrder = q.items.tail
      rw [hev, ← hitems]; rfl

/-- **A call that finds the index accurate does to `LRU` what it does to the recency list.** -/
theorem exec (h : p.Refines q) {e : PolicyEvent K} (ha : FindsAccurate p e)
    (hstep : PolicyStep p e p') : ∃ q', QueueStep q e q' ∧ p'.Refines q' := by
  obtain ⟨op, returned⟩ := e
  cases op with
  | onInsert key =>
    cases hstep
    exact ⟨_, rfl, h.touch ha⟩
  | onAccess key =>
    cases hstep
    exact ⟨_, rfl, h.touch ha⟩
  | evict =>
    cases hstep
    obtain ⟨hret, href⟩ := h.evict
    exact ⟨_, Prod.ext rfl hret.symm, href⟩
  | reset =>
    cases hstep
    exact ⟨_, rfl, Coherent.reset p, rfl⟩

end Refines

end LRU

/-- **`LRU` refines the recency list.**  Every run of calls on a new `LRU`, each of which finds the index
accurate for the key it reports, is a run of the same calls on the empty recency list with the same
results, and leaves as many keys. -/
theorem lru_refines_queue {n : Nat} {hn : 0 < n} {es : List (PolicyEvent K)} {p : LRU K}
    (hrun : Run (Guarded FindsAccurate PolicyStep) (LRU.new K n hn) es p) :
    ∃ q, Run QueueStep Queue.empty es q ∧ p.accessOrder = q.items ∧ p.size = q.length := by
  have h₀ : (LRU.new K n hn).Refines Queue.empty := ⟨LRU.Coherent.new n hn, rfl⟩
  obtain ⟨q, hq, href⟩ := hrun.simulate LRU.Refines h₀
    fun _ _ _ _ hrel hstep => hrel.exec hstep.1 hstep.2
  exact ⟨q, hq, href.items_eq, href.size_eq⟩

/-! ## What the index is right about -/

omit [DecidableEq K] in
/-- The keys reported since the last `evict` or `reset`. -/
def touchedSince (es : List (PolicyEvent K)) : List K :=
  es.foldl (fun keys e =>
    match e.op with
    | .onInsert key => key :: keys
    | .onAccess key => key :: keys
    | .evict => []
    | .reset => []) []

namespace LRU

theorem accurate_onAccess_self (p : LRU K) (key : K) : (p.onAccess key).Accurate key := by
  unfold onAccess Accurate
  simp only [AList.lookup_insert, Option.mem_some_iff]
  rintro idx rfl
  simp

/-- Where the index is right about the key of the call, the call keeps it right about every other. -/
theorem Accurate.onAccess {p : LRU K} {key k : K} (hkey : p.Accurate key) (hk : p.Accurate k)
    (hne : k ≠ key) : (p.onAccess key).Accurate k := by
  have hunlink : (p.unlink key).Accurate k := by
    unfold unlink
    split
    · rename_i idx hidx
      have hat : p.accessOrder[idx]? = some key := hkey idx hidx
      intro v hv
      simp only [AList.lookup_mapVals, Option.mem_def, Option.map_eq_some_iff] at hv
      obtain ⟨v₀, hv₀, rfl⟩ := hv
      have hat₀ : p.accessOrder[v₀]? = some k := hk v₀ hv₀
      have hv₀idx : v₀ ≠ idx := by
        rintro rfl
        rw [hat] at hat₀
        exact hne (Option.some.inj hat₀).symm
      rw [List.getElem?_eraseIdx]
      by_cases hgt : v₀ > idx
      · rw [if_pos hgt, if_neg (by omega), Nat.sub_add_cancel (by omega)]
        exact hat₀
      · rw [if_neg hgt, if_pos (by omega)]
        exact hat₀
    · exact hk
  intro v hv
  unfold LRU.onAccess at hv ⊢
  simp only [AList.lookup_insert_ne hne] at hv
  have hat := hunlink v hv
  rw [List.getElem?_append_left (List.getElem?_eq_some_iff.1 hat).1]
  exact hat

end LRU

omit [DecidableEq K] in
theorem touchedSince_snoc (es : List (PolicyEvent K)) (e : PolicyEvent K) :
    touchedSince (es ++ [e]) =
      match e.op with
      | .onInsert key => key :: touchedSince es
      | .onAccess key => key :: touchedSince es
      | .evict => []
      | .reset => [] := by
  simp [touchedSince]

/-- **The index is right about every key reported since the last `evict`.** -/
theorem accurate_of_run {n : Nat} {hn : 0 < n} {es : List (PolicyEvent K)} {p : LRU K}
    (hrun : Run (Guarded FindsAccurate PolicyStep) (LRU.new K n hn) es p) :
    ∀ key ∈ touchedSince es, p.Accurate key := by
  induction hrun with
  | nil => exact fun key hkey => absurd hkey List.not_mem_nil
  | @snoc es p e p' _ hstep ih =>
    obtain ⟨ha, hstep⟩ := hstep
    obtain ⟨op, returned⟩ := e
    -- a touch moves the positions of the others together with what is stored for them
    have htouch : ∀ key, p.Accurate key → ∀ k ∈ key :: touchedSince es,
        (p.onAccess key).Accurate k := by
      intro key hkey k hk
      by_cases hne : k = key
      · subst hne
        exact p.accurate_onAccess_self k
      · exact hkey.onAccess (ih k ((List.mem_cons.1 hk).resolve_left hne)) hne
    rw [touchedSince_snoc]
    cases op with
    | onInsert key => cases hstep; exact htouch key ha
    | onAccess key => cases hstep; exact htouch key ha
    | evict => exact fun key hkey => absurd hkey List.not_mem_nil
    | reset => exact fun key hkey => absurd hkey List.not_mem_nil

/-! ## Well formed states -/

namespace LRU

/-- The order holds no key twice, and the index maps exactly its keys, each to its position. -/
structure WellFormed (p : LRU K) : Prop where
  nodup : p.accessOrder.Nodup
  lookup_iff : ∀ k idx, p.keyIndex.lookup k = some idx ↔ p.accessOrder[idx]? = some k

theorem wellFormed_iff {p : LRU K} : p.WellFormed ↔ p.Coherent ∧ ∀ key, p.Accurate key := by
  constructor
  · intro h
    refine ⟨⟨h.nodup, fun k => ?_⟩, fun key idx hidx => (h.lookup_iff key idx).1 hidx⟩
    rw [AList.mem_iff_lookup, List.mem_iff_getElem?]
    exact exists_congr fun idx => h.lookup_iff k idx
  · rintro ⟨hcoh, hacc⟩
    refine ⟨hcoh.nodup, fun k idx => ⟨fun hidx => hacc k idx hidx, fun hat => ?_⟩⟩
    have hin : k ∈ p.accessOrder := List.mem_of_getElem? hat
    obtain ⟨j, hj⟩ := AList.exists_lookup ((hcoh.mem_iff k).2 hin)
    -- both positions hold `k`, and the order holds it once
    have hlt : idx < p.accessOrder.length := (List.getElem?_eq_some_iff.1 hat).1
    have heq : idx = j := (List.getElem?_inj hlt hcoh.nodup).1 (hat.trans (hacc k j hj).symm)
    rw [heq]
    exact hj

namespace WellFormed

variable {p : LRU K}

theorem new (n : Nat) (hn : 0 < n) : (LRU.new K n hn).WellFormed where
  nodup := List.nodup_nil
  lookup_iff k idx := by simp [LRU.new]

/-- A stored index is in bounds. -/
theorem lt_length (h : p.WellFormed) {key : K} {idx : Nat} (hidx : p.keyIndex.lookup key = some idx) :
    idx < p.accessOrder.length :=
  (List.getElem?_eq_some_iff.1 ((h.lookup_iff key idx).1 hidx)).1

theorem onAccess (h : p.WellFormed) (key : K) : (p.onAccess key).WellFormed := by
  obtain ⟨hcoh, hacc⟩ := wellFormed_iff.1 h
  refine wellFormed_iff.2 ⟨hcoh.onAccess (hacc key), fun k => ?_⟩
  by_cases hne : k = key
  · subst hne
    exact p.accurate_onAccess_self k
  · exact (hacc key).onAccess (hacc k) hne

theorem accessOrder_onAccess (h : p.WellFormed) (key : K) :
    (p.onAccess key).accessOrder = p.accessOrder.erase key ++ [key] := by
  obtain ⟨hcoh, hacc⟩ := wellFormed_iff.1 h
  exact hcoh.accessOrder_onAccess (hacc key)

/-- A key behind the removed one is found one position further to the front. -/
theorem getElem?_eraseIdx (h : p.WellFormed) {k : K} {v idx : Nat}
    (hv : p.keyIndex.lookup k = some v) (hgt : v > idx) :
    (p.accessOrder.eraseIdx idx)[v - 1]? = some k := by
  have hat : p.accessOrder[v]? = some k := (h.lookup_iff k v).1 hv
  rw [List.getElem?_eraseIdx, if_neg (by omega), Nat.sub_add_cancel (by omega)]
  exact hat

end WellFormed

end LRU

/-- **`on_access` and `on_insert` keep the representation of a well formed `LRU`**, whatever the key and
wherever it is: the order afterwards is the old one without the key and then the key; before and after,
every stored index is in bounds; and the index of a key behind the removed one is positive, so that
decrementing it gives the position that the key has after the removal. -/
theorem lru_touch_keeps_representation {p : LRU K} (h : p.WellFormed) (key : K) :
    (p.onAccess key).WellFormed ∧ (p.onInsert key).WellFormed ∧
      (p.onAccess key).accessOrder = p.accessOrder.erase key ++ [key] ∧
      (p.onInsert key).accessOrder = p.accessOrder.erase key ++ [key] ∧
      (∀ k idx, p.keyIndex.lookup k = some idx → idx < p.accessOrder.length) ∧
      (∀ k idx, (p.onAccess key).keyIndex.lookup k = some idx →
        idx < (p.onAccess key).accessOrder.length) ∧
      ∀ idx, p.keyIndex.lookup key = some idx → ∀ k v, p.keyIndex.lookup k = some v → v > idx →
        0 < v ∧ (p.accessOrder.eraseIdx idx)[v - 1]? = some k := by
  have hafter : (p.onAccess key).WellFormed := h.onAccess key
  have horder := h.accessOrder_onAccess key
  refine ⟨hafter, hafter, horder, horder, ?_, ?_, ?_⟩
  · intro k idx hidx
    exact h.lt_length hidx
  · intro k idx hidx
    exact hafter.lt_length hidx
  · intro idx _ k v hv hgt
    have hpos : 0 < v := by omega
    exact ⟨hpos, h.getElem?_eraseIdx hv hgt⟩

/-- Accessing the middle one of three keys. -/
theorem lru_touch_keeps_representation_middle :
    (((((LRU.new UInt64 16 (Nat.succ_pos 15)).onInsert 1).onInsert 2).onInsert 3).onAccess 2).accessOrder =
      [1, 3, 2] := by
  have hthree : ((((LRU.new UInt64 16 (Nat.succ_pos 15)).onInsert 1).onInsert 2).onInsert 3).WellFormed :=
    (((LRU.WellFormed.new 16 (Nat.succ_pos 15)).onAccess 1).onAccess 2).onAccess 3
  exact (lru_touch_keeps_representation hthree 2).2.2.1

/-! ## Runs of given calls -/

/-- The results of a list of calls on an `LRU`, and the state they leave. -/
def LRU.script (p : LRU K) (ops : List (PolicyOp K)) : List (PolicyEvent K) × LRU K :=
  Run.script (fun p op => ⟨op, (p.exec op).2⟩) (fun p op => (p.exec op).1) p ops

/-- The results that a list of calls is to have, and the recency list they leave. -/
def queueScript (q : Queue K) (ops : List (PolicyOp K)) : List (PolicyEvent K) × Queue K :=
  Run.script (fun q op => ⟨op, (queueExec q op).2⟩) (fun q op => (queueExec q op).1) q ops

/-- Executed from `p`, each call finds the index accurate. -/
def LRU.FindsAccurateThroughout (p : LRU K) (ops : List (PolicyOp K)) : Prop :=
  Run.Admits (fun p op => FindsAccurate p ⟨op, (p.exec op).2⟩) (fun p op => (p.exec op).1) p ops

instance (p : LRU K) (ops : List (PolicyOp K)) : Decidable (p.FindsAccurateThroughout ops) := by
  unfold LRU.FindsAccurateThroughout; infer_instance

theorem LRU.run_script (p : LRU K) {ops : List (PolicyOp K)} (h : p.FindsAccurateThroughout ops) :
    Run (Guarded FindsAccurate PolicyStep) p (p.script ops).1 (p.script ops).2 :=
  Run.of_script (fun _ _ hok => ⟨hok, rfl⟩) ops p h

/-- Three keys are inserted, the first is accessed, one key is evicted. -/
def accessThenEvict : List (PolicyOp UInt64) :=
  [.onInsert 1, .onInsert 2, .onInsert 3, .onAccess 1, .evict]

theorem lru_refines_queue_access_then_evict :
    ∃ q, Run QueueStep Queue.empty ((LRU.new UInt64 16 (Nat.succ_pos 15)).script accessThenEvict).1 q ∧
      [3, 1] = q.items ∧ 2 = q.length :=
  lru_refines_queue (LRU.run_script (LRU.new UInt64 16 (Nat.succ_pos 15)) (by decide))

/-- Three keys are inserted, one is evicted, and the second is accessed. -/
def evictThenAccess : List (PolicyOp UInt64) :=
  [.onInsert 1, .onInsert 2, .onInsert 3, .evict, .onAccess 2]

/-- The next `evict` returns the key just accessed, where the recency list has the third key at its
head; and an access of the third key instead leaves it in the order twice. -/
theorem lru_departs_from_queue :
    ((LRU.new UInt64 16 (Nat.succ_pos 15)).script (evictThenAccess ++ [.evict])).1.map (·.returned) =
        [none, none, none, some 1, none, some 2] ∧
      (queueScript (Queue.empty : Queue UInt64) (evictThenAccess ++ [.evict])).1.map (·.returned) =
        [none, none, none, some 1, none, some 3] ∧
      ((LRU.new UInt64 16 (Nat.succ_pos 15)).script
        [.onInsert 1, .onInsert 2, .onInsert 3, .evict, .onAccess 3]).2.size = 3 ∧
      (queueScript (Queue.empty : Queue UInt64)
        [.onInsert 1, .onInsert 2, .onInsert 3, .evict, .onAccess 3]).2.length = 2 :=
  ⟨by decide, by decide, by decide, by decide⟩

end CacheLayer
