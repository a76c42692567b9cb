import Mathlib.Algebra.BigOperators.Group.List.Basic
import Mathlib.Algebra.Group.Action.Defs
import Mathlib.Algebra.GroupWithZero.Nat
import Mathlib.Data.List.AList

/-!
# Finite maps with a weight

`AssocMap K V` is Mathlib's association list with unique keys, read as a hash map.  This file adds
to `AList` what a program that keeps counters beside a map needs:

* `mapVals` — rewrite every value in place (`iter_mut`, `get_mut`);
* `total w` — the sum of a weight over the stored values, with the laws `total_erase`,
  `total_insert` that say how one removal or insertion moves it; `count` is the weight `1`;
* `Sub` — one map has forgotten some keys of another and changed none of the others.
-/

set_option autoImplicit false

/-- A finite map: an association list whose keys are distinct. -/
abbrev AssocMap (K V : Type) := AList (fun _ : K => V)

namespace AList

variable {K V : Type}

/-- Rewrite every stored value. -/
def mapVals (f : K → V → V) (m : AssocMap K V) : AssocMap K V :=
  ⟨m.entries.map (Sigma.map id f), m.nodupKeys.map₂ f⟩

/-- Sum of a weight over the stored values. -/
def total (w : V → Nat) (m : AssocMap K V) : Nat := (m.entries.map fun s => w s.2).sum

/-- Number of stored keys. -/
def count (m : AssocMap K V) : Nat := m.total fun _ => 1

@[simp] theorem total_empty (w : V → Nat) : (∅ : AssocMap K V).total w = 0 := rfl

@[simp] theorem count_empty : (∅ : AssocMap K V).count = 0 := rfl

theorem count_eq_length (m : AssocMap K V) : m.count = m.entries.length := by
  simp [count, total]

theorem count_eq_keys_length (m : AssocMap K V) : m.count = m.keys.length := by
  rw [count_eq_length, AList.keys, List.keys, List.length_map]

@[simp] theorem keys_mapVals (f : K → V → V) (m : AssocMap K V) : (m.mapVals f).keys = m.keys :=
  List.map₂_keys f m.entries

@[simp] theorem mem_mapVals {f : K → V → V} {m : AssocMap K V} {k : K} :
    k ∈ m.mapVals f ↔ k ∈ m := by
  rw [AList.mem_keys, keys_mapVals, ← AList.mem_keys]

@[simp] theorem count_mapVals (f : K → V → V) (m : AssocMap K V) :
    (m.mapVals f).count = m.count := by
  rw [count_eq_keys_length, count_eq_keys_length, keys_mapVals]

theorem total_mapVals {w : V → Nat} {f : K → V → V} (h : ∀ k v, w (f k v) = w v)
    (m : AssocMap K V) : (m.mapVals f).total w = m.total w := by
  rw [total, mapVals, List.map_map]
  exact congrArg List.sum (List.map_congr_left fun s _ => h s.1 s.2)

/-- If every stored value weighs `s`, the total is `s` for each key. -/
theorem total_eq_mul_count {w : V → Nat} {s : Nat} {m : AssocMap K V}
    (h : ∀ e ∈ m.entries, w e.2 = s) : m.total w = s * m.count := by
  rw [count_eq_length, total, List.map_congr_left h, List.map_const', List.sum_replicate,
    smul_eq_mul, Nat.mul_comm]

section Lookup

variable [DecidableEq K]

@[simp] theorem lookup_mapVals (f : K → V → V) (m : AssocMap K V) (k : K) :
    (m.mapVals f).lookup k = (m.lookup k).map (f k) :=
  List.dlookup_map₂ k

theorem mem_of_lookup {m : AssocMap K V} {k : K} {v : V} (h : m.lookup k = some v) : k ∈ m :=
  AList.lookup_isSome.1 (by rw [h]; rfl)

theorem exists_lookup {m : AssocMap K V} {k : K} (h : k ∈ m) : ∃ v, m.lookup k = some v :=
  Option.isSome_iff_exists.1 (AList.lookup_isSome.2 h)

theorem mem_iff_lookup {m : AssocMap K V} {k : K} : k ∈ m ↔ ∃ v, m.lookup k = some v :=
  ⟨exists_lookup, fun ⟨_, h⟩ => mem_of_lookup h⟩

theorem entry_of_lookup {m : AssocMap K V} {k : K} {v : V} (h : m.lookup k = some v) :
    (⟨k, v⟩ : Σ _ : K, V) ∈ m.entries :=
  AList.mem_lookup_iff.1 h

theorem lookup_of_entry {m : AssocMap K V} {s : Σ _ : K, V} (h : s ∈ m.entries) :
    m.lookup s.1 = some s.2 :=
  AList.mem_lookup_iff.2 h

/-- Every stored pair satisfies `p` exactly when every lookup does. -/
theorem forall_entries_iff {m : AssocMap K V} {p : V → Prop} :
    (∀ e ∈ m.entries, p e.2) ↔ ∀ k v, m.lookup k = some v → p v :=
  ⟨fun h _ _ hv => h _ (entry_of_lookup hv), fun h e he => h e.1 e.2 (lookup_of_entry he)⟩

theorem erase_of_notMem {m : AssocMap K V} {k : K} (h : k ∉ m) : m.erase k = m :=
  AList.ext (List.kerase_of_notMem_keys h)

/-- Removing a stored key takes exactly its weight off the total. -/
theorem total_erase (w : V → Nat) {m : AssocMap K V} {k : K} {v : V} (h : m.lookup k = some v) :
    m.total w = w v + (m.erase k).total w := by
  obtain ⟨b, l₁, l₂, -, hm, he⟩ := List.exists_of_kerase (AList.mem_keys.1 (mem_of_lookup h))
  have hb : b = v := by
    have hin : (⟨k, b⟩ : Σ _ : K, V) ∈ m.entries := by rw [hm]; simp
    have := lookup_of_entry hin
    rw [h] at this
    exact (Option.some.inj this).symm
  subst hb
  have herase : (m.erase k).total w = ((l₁ ++ l₂).map fun s => w s.2).sum := by
    show ((List.kerase k m.entries).map fun s => w s.2).sum = _
    rw [he]
  rw [herase, total, hm]
  simp only [List.map_append, List.map_cons, List.sum_append, List.sum_cons]
  omega

/-- Storing a key that was absent adds exactly its weight. -/
theorem total_insert (w : V → Nat) {m : AssocMap K V} {k : K} (v : V) (h : k ∉ m) :
    (m.insert k v).total w = w v + m.total w := by
  rw [total, AList.entries_insert_of_notMem h, List.map_cons, List.sum_cons, total]

theorem total_erase_le (w : V → Nat) (m : AssocMap K V) (k : K) : (m.erase k).total w ≤ m.total w := by
  by_cases h : k ∈ m
  · obtain ⟨v, hv⟩ := exists_lookup h
    rw [total_erase w hv]
    exact Nat.le_add_left _ _
  · rw [erase_of_notMem h]

theorem total_insert_le (w : V → Nat) (m : AssocMap K V) (k : K) (v : V) :
    (m.insert k v).total w ≤ w v + m.total w := by
  rw [total, AList.entries_insert, List.map_cons, List.sum_cons]
  exact Nat.add_le_add_left (total_erase_le w m k) _

theorem count_erase {m : AssocMap K V} {k : K} (h : k ∈ m) : m.count = (m.erase k).count + 1 := by
  obtain ⟨v, hv⟩ := exists_lookup h
  rw [count, total_erase _ hv, count, Nat.add_comm]

theorem count_insert {m : AssocMap K V} {k : K} (v : V) (h : k ∉ m) :
    (m.insert k v).count = m.count + 1 := by
  rw [count, total_insert _ v h, count, Nat.add_comm]

/-- Storing a key that was present keeps the number of keys. -/
theorem count_insert_of_mem {m : AssocMap K V} {k : K} (v : V) (h : k ∈ m) :
    (m.insert k v).count = m.count := by
  rw [count_eq_length, AList.entries_insert, List.length_cons, count_erase h, count_eq_length]
  rfl

theorem count_pos_of_mem {m : AssocMap K V} {k : K} (h : k ∈ m) : 0 < m.count := by
  rw [count_erase h]; omega

theorem count_erase_le (m : AssocMap K V) (k : K) : (m.erase k).count ≤ m.count := by
  by_cases h : k ∈ m
  · rw [count_erase h]; omega
  · rw [erase_of_notMem h]

/-! ## Forgetting -/

/-- `m'` has forgotten some keys of `m` and agrees with it on the keys it kept. -/
def Sub (m' m : AssocMap K V) : Prop := ∀ k v, m'.lookup k = some v → m.lookup k = some v

theorem Sub.refl (m : AssocMap K V) : Sub m m := fun _ _ h => h

theorem Sub.trans {m₁ m₂ m₃ : AssocMap K V} (h₁ : Sub m₁ m₂) (h₂ : Sub m₂ m₃) : Sub m₁ m₃ :=
  fun k v h => h₂ k v (h₁ k v h)

theorem Sub.mem {m' m : AssocMap K V} (h : Sub m' m) {k : K} (hk : k ∈ m') : k ∈ m := by
  obtain ⟨v, hv⟩ := exists_lookup hk
  exact mem_of_lookup (h k v hv)

theorem Sub.notMem {m' m : AssocMap K V} (h : Sub m' m) {k : K} (hk : k ∉ m) : k ∉ m' :=
  fun hk' => hk (h.mem hk')

theorem sub_erase (m : AssocMap K V) (k : K) : Sub (m.erase k) m := by
  intro k' v h
  by_cases hk : k' = k
  · subst hk; simp at h
  · rwa [AList.lookup_erase_ne hk] at h

end Lookup

end AList
