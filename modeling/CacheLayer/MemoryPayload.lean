import CacheLayer.MemoryCovered
import Mathlib.Algebra.Order.BigOperators.Group.List
import Mathlib.Algebra.Order.Ring.Nat

/-!
# Capacity and payload

`estimate_size` is meant to use the "size of string representation" and takes `size_of_val`, which is
24 for every `String`: an entry of a `MemoryCache<String, String>` counts 48 bytes, however long its key
and value are.

* `exec_stored` — no call invents a value: what is resident afterwards was resident, or is its own `set`;
* `payload_le_capacity` — as long as no `set` carries more than the 48 bytes it is counted for, the
  payload is within capacity, and a `set` that cannot fit is refused;
* `payload_of_first_set` — any other `set` breaks the bound of a cache that has room for one entry;
  `payload_exceeds_capacity` is one such.
-/

set_option autoImplicit false

namespace CacheLayer

namespace MemoryCache

section Stored

variable {K V P : Type} [DecidableEq K] [EvictionPolicy K P] [RustSized K] [RustSized V]

/-- **A call stores its own value or none.** -/
theorem exec_stored {c : MemoryCache K V P} {env : Env K} {op : Op K V} {k : K} {e : CachedValue V}
    (h : (c.exec env op).1.entries.lookup k = some e) :
    (∃ e₀, c.entries.lookup k = some e₀ ∧ e₀.value = e.value) ∨ ∃ ttl, op = .set k e.value ttl := by
  cases op with
  | get key =>
    obtain ⟨e₀, h₀, heq⟩ := get_lookup h
    exact Or.inl ⟨e₀, h₀, by rw [heq]⟩
  | set key value ttl =>
    by_cases hk : k = key
    · subst hk
      refine Or.inr ⟨ttl, ?_⟩
      rw [set_lookup_self h]
    · exact Or.inl ⟨e, set_sub c env key value ttl hk h, rfl⟩
  | delete key =>
    replace h : (c.delete key).1.entries.lookup k = some e := h
    rw [delete_entries] at h
    exact Or.inl ⟨e, AList.sub_erase _ _ k e h, rfl⟩
  | «exists» key => exact Or.inl ⟨e, h, rfl⟩
  | clear => cases h

end Stored

/-- `key.len() + value.len()`. -/
def payloadBytes (key value : String) : Nat := key.utf8ByteSize + value.utf8ByteSize

/-- The bytes of all resident keys and values. -/
def payload {P : Type} (c : MemoryCache String String P) : Nat :=
  (c.entries.entries.map fun s => payloadBytes s.1 s.2.value).sum

/-- If every entry holds at most the bytes it is counted for, the payload is within capacity. -/
theorem Covered.payload_le {P : Type} {c : MemoryCache String String P} (h : Covered c)
    (hsmall : ∀ k e, c.entries.lookup k = some e →
      payloadBytes k e.value ≤ entrySize String String) : c.payload ≤ c.capacityBytes := by
  have hsum : c.payload ≤ c.entries.entries.length * entrySize String String := by
    have hle := List.sum_le_card_nsmul (c.entries.entries.map fun s => payloadBytes s.1 s.2.value)
      (entrySize String String) ?_
    · rwa [List.length_map, smul_eq_mul] at hle
    · intro n hn
      obtain ⟨s, hs, rfl⟩ := List.mem_map.1 hn
      exact hsmall s.1 s.2 (AList.lookup_of_entry hs)
  have hbytes := h.bytes_le
  rw [AList.count_eq_length, Nat.mul_comm] at hbytes
  exact Nat.le_trans hsum (Nat.le_trans hbytes h.size_le)

end MemoryCache

open MemoryCache

variable {P : Type} [EvictionPolicy String P]

/-- The call does not set more bytes than an entry is counted for. -/
def SmallPayload (_ : Session String String P) (e : Event String String) : Prop :=
  match e.op with
  | .set key value _ => payloadBytes key value ≤ entrySize String String
  | _ => True

instance (s : Session String String P) (e : Event String String) : Decidable (SmallPayload s e) :=
  match e with
  | ⟨_, .set key value _, _, _⟩ =>
    inferInstanceAs (Decidable (payloadBytes key value ≤ entrySize String String))
  | ⟨_, .get _, _, _⟩ => isTrue trivial
  | ⟨_, .delete _, _, _⟩ => isTrue trivial
  | ⟨_, .exists _, _, _⟩ => isTrue trivial
  | ⟨_, .clear, _, _⟩ => isTrue trivial

/-- What is resident after a run of small `set`s is small. -/
theorem small_of_run {cap : Nat} {hcap : 0 < cap} {policy : P} {es : List (Event String String)}
    {s : Session String String P}
    (hrun : Run (Guarded SmallPayload Step) (.fresh cap policy hcap) es s) :
    ∀ k e, s.cache.entries.lookup k = some e → payloadBytes k e.value ≤ entrySize String String := by
  refine hrun.invariant (fun s => ∀ k e, s.cache.entries.lookup k = some e →
    payloadBytes k e.value ≤ entrySize String String) (fun k e hl => by cases hl) ?_
  rintro s e t hI ⟨hsmall, hstep⟩ k x hl
  have hexec := congrArg Prod.fst hstep.exec_eq
  replace hexec : (s.cache.exec e.env e.op).1 = t.cache := hexec
  rw [← hexec] at hl
  rcases exec_stored hl with ⟨x₀, hl₀, hvalue⟩ | ⟨ttl, hop⟩
  · rw [← hvalue]
    exact hI k x₀ hl₀
  · unfold SmallPayload at hsmall
    rwa [hop] at hsmall

/-- **The capacity bounds the payload** along every run in which each `set` carries at most the bytes
that `estimate_size` counts, and such a `set` is refused if its payload alone exceeds the capacity. -/
theorem payload_le_capacity {cap : Nat} {hcap : 0 < cap} {policy : P}
    {es : List (Event String String)} {s : Session String String P}
    (hrun : Run (Guarded SmallPayload Step) (.fresh cap policy hcap) es s) :
    s.cache.payload ≤ cap ∧
      ∀ (env : Env String) (key value : String) (ttl : Option Duration),
        payloadBytes key value ≤ entrySize String String → cap < payloadBytes key value →
          ∃ e, (s.cache.set env key value ttl).2 = .err e := by
  have hcov := covered_of_run hrun.of_guarded
  have hcapacity := capacity_of_run hrun.of_guarded
  refine ⟨?_, ?_⟩
  · rw [← hcapacity]
    exact hcov.payload_le (small_of_run hrun)
  · -- where not even one entry fits there is no resident key, and no room
    intro env key value ttl hsmall hlarge
    have hempty : ∀ k, k ∉ s.cache.entries := by
      intro k hk
      have hpos := AList.count_pos_of_mem hk
      have hone := Nat.le_trans (Nat.mul_le_mul_left (entrySize String String) hpos) hcov.bytes_le
      have hle := hcov.size_le
      omega
    rcases hcov.space_cases env.order key with ⟨hkey, -⟩ | ⟨-, hroom, -⟩ | ⟨-, -, x, hx, -⟩ |
      ⟨-, -, policy, he⟩
    · exact absurd hkey (hempty key)
    · unfold HasRoom at hroom
      omega
    · exact absurd hx (hempty x)
    · exact ⟨_, by rw [set_of_err he value ttl]⟩

/-- A cache with room for two entries of strings. -/
def freshStrings : Session String String (LRU String) :=
  .fresh 100 (LRU.new _ 1024 (Nat.succ_pos (nat_lit 1023))) (Nat.succ_pos (nat_lit 99))

/-- A value is cached and overwritten with a longer one. -/
def overwriteCalls : List (Env String × Op String String) :=
  [(⟨0, .id _⟩, .set "greeting" "hi" none), (⟨1, .id _⟩, .set "greeting" "good morning" none)]

theorem payload_le_capacity_overwrite : (freshStrings.script overwriteCalls).2.cache.payload ≤ 100 :=
  (payload_le_capacity (run_script overwriteCalls freshStrings (by decide))).1

/-- **A `set` of more than 48 bytes** in a fresh cache that has room for one entry is accepted and exceeds
the capacity. -/
theorem payload_of_first_set (policy : P) (env : Env String) {key value : String}
    (h : entrySize String String < payloadBytes key value) :
    let c : MemoryCache String String P := .withPolicy 48 policy (Nat.succ_pos 47)
    (c.set env key value none).2 = .ok () ∧
      (c.set env key value none).1.capacityBytes < (c.set env key value none).1.payload := by
  intro c
  have hroom : (c.takeOld key).1.HasRoom (entrySize String String) := Nat.le_refl 48
  have hset := set_of_space (evictForSpace_of_room env.order hroom) value
    (representable_none env.now)
  rw [hset]
  refine ⟨rfl, ?_⟩
  show entrySize String String < payloadBytes key value + 0
  exact h

/-- A cache with a capacity of 48 bytes. -/
def freshNarrow : Session String String (LRU String) :=
  .fresh 48 (LRU.new _ 1024 (Nat.succ_pos (nat_lit 1023))) (Nat.succ_pos (nat_lit 47))

/-- A value of sixty-two bytes is cached under a key of four. -/
def longValueCalls : List (Env String × Op String String) :=
  [(⟨0, .id _⟩,
    .set "news" "The quick brown fox jumps over the lazy dog and the sleepy cat" none)]

theorem payload_exceeds_capacity :
    Run Step freshNarrow (freshNarrow.script longValueCalls).1
        (freshNarrow.script longValueCalls).2 ∧
      (freshNarrow.script longValueCalls).2.cache.capacityBytes = 48 ∧
      (freshNarrow.script longValueCalls).2.cache.sizeBytes = 48 ∧
      (freshNarrow.script longValueCalls).2.cache.payload = 66 ∧
      ((freshNarrow.script longValueCalls).1.map (·.reply)) = [.ok .unit] :=
  have hrun : Run (Guarded (fun _ _ => True) Step) freshNarrow _ _ :=
    run_script longValueCalls freshNarrow (by decide)
  ⟨hrun.of_guarded, by decide, by decide, by decide, by decide⟩

end CacheLayer
