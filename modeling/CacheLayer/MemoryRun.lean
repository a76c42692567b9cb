import CacheLayer.MemorySpec
import CacheLayer.Lib.Run

/-!
# Sequential runs of one `MemoryCache`

A `Session` is a cache with the last clock reading; `Step` is one call under a clock that does not go
back (one reading for each call).  An `Event` records the call, its reply and the keys its eviction
loop removed.

* `script` computes the run of a list of calls (`run_script`);
* `RepresentableTtl` — the call's expiry instant, if it has one, is representable.
-/

set_option autoImplicit false

namespace CacheLayer

/-- A call on a `MemoryCache`. -/
inductive Op (K V : Type) where
  | get (key : K)
  | set (key : K) (value : V) (ttl : Option Duration)
  | delete (key : K)
  | «exists» (key : K)
  | clear
  deriving DecidableEq

/-- The value a call returns. -/
inductive Reply (V : Type) where
  | unit
  | value (value : Option V)
  | flag (flag : Bool)
  deriving DecidableEq, Repr

/-- Apply a function to the returned value. -/
def Outcome.map {α β : Type} (f : α → β) : Outcome α → Outcome β
  | .ok a => .ok (f a)
  | .err e => .err e
  | .panic p => .panic p

theorem Outcome.returned_of_map {α β : Type} {f : α → β} {o : Outcome α}
    (h : (o.map f).Returned) : o.Returned := by
  cases o <;> exact h

theorem Outcome.ok_of_map {α β : Type} {f : α → β} {o : Outcome α} {b : β} (h : o.map f = .ok b) :
    ∃ a, o = .ok a ∧ f a = b := by
  cases o with
  | ok a => exact ⟨a, rfl, Outcome.ok.inj h⟩
  | err _ => cases h
  | panic _ => cases h

/-- One call of a sequential run, with its reply and the keys its eviction loop removed. -/
structure Event (K V : Type) where
  env : Env K
  op : Op K V
  reply : Outcome (Reply V)
  evicted : List K

/-- A cache and the last reading of the clock. -/
structure Session (K V P : Type) where
  cache : MemoryCache K V P
  clock : Instant

/-- The call's expiry instant is representable. -/
def RepresentableTtl {σ K V : Type} (_ : σ) (e : Event K V) : Prop :=
  match e.op with
  | .set _ _ ttl => Representable e.env.now ttl
  | _ => True

instance {σ K V : Type} (s : σ) (e : Event K V) : Decidable (RepresentableTtl s e) :=
  match e with
  | ⟨env, .set _ _ ttl, _, _⟩ => inferInstanceAs (Decidable (Representable env.now ttl))
  | ⟨_, .get _, _, _⟩ => isTrue trivial
  | ⟨_, .delete _, _, _⟩ => isTrue trivial
  | ⟨_, .exists _, _, _⟩ => isTrue trivial
  | ⟨_, .clear, _, _⟩ => isTrue trivial

variable {K V P : Type} [DecidableEq K] [EvictionPolicy K P] [RustSized K] [RustSized V]

namespace MemoryCache

/-- Execute a call. -/
def exec (c : MemoryCache K V P) (env : Env K) : Op K V → MemoryCache K V P × Outcome (Reply V)
  | .get key => ((c.get env key).1, (c.get env key).2.map .value)
  | .set key value ttl => ((c.set env key value ttl).1, (c.set env key value ttl).2.map fun _ => .unit)
  | .delete key => ((c.delete key).1, (c.delete key).2.map fun _ => .unit)
  | .exists key => (c, (c.exists env.now key).map .flag)
  | .clear => (c.clear.1, c.clear.2.map fun _ => .unit)

/-- The keys that the eviction loop of the call removes from the map. -/
def evictedBy (c : MemoryCache K V P) (env : Env K) : Op K V → List K
  | .set key value _ =>
    let c₁ := (c.takeOld key).1
    c₁.entries.keys.filter fun k =>
      k ∉ (c₁.evictForSpace env.order (estimateSize key value)).1.entries
  | _ => []

/-- The loop of `set(key, ..)` evicts exactly the other keys that the call makes disappear. -/
theorem mem_evictedBy_set {c : MemoryCache K V P} {env : Env K} {key : K} {value : V}
    {ttl : Option Duration} {k : K} :
    k ∈ c.evictedBy env (.set key value ttl) ↔
      k ≠ key ∧ k ∈ c.entries ∧ k ∉ (c.set env key value ttl).1.entries := by
  have hset : k ≠ key → (k ∈ (c.set env key value ttl).1.entries ↔
      k ∈ ((c.takeOld key).1.evictForSpace env.order (entrySize K V)).1.entries) := fun hk => by
    rw [AList.mem_iff_lookup, AList.mem_iff_lookup, set_lookup_ne c env key value ttl hk]
  unfold evictedBy
  simp only [List.mem_filter, ← AList.mem_keys, takeOld_entries, AList.mem_erase, estimateSize_eq]
  constructor
  · rintro ⟨⟨hk, hc⟩, hn⟩
    exact ⟨hk, hc, fun h => of_decide_eq_true hn ((hset hk).1 h)⟩
  · rintro ⟨hk, hc, hn⟩
    exact ⟨⟨hk, hc⟩, decide_eq_true fun h => hn ((hset hk).2 h)⟩

end MemoryCache

/-- One call of a sequential run. -/
structure Step (s : Session K V P) (e : Event K V) (t : Session K V P) : Prop where
  clock_le : s.clock ≤ e.env.now
  clock_eq : t.clock = e.env.now
  exec_eq : s.cache.exec e.env e.op = (t.cache, e.reply)
  evicted_eq : e.evicted = s.cache.evictedBy e.env e.op

/-- A fresh cache at the start of the clock. -/
def Session.fresh (capacityBytes : Nat) (policy : P) (h : 0 < capacityBytes) : Session K V P :=
  ⟨.withPolicy capacityBytes policy h, 0⟩

/-- The event of a call. -/
def Session.event (s : Session K V P) (env : Env K) (op : Op K V) : Event K V :=
  ⟨env, op, (s.cache.exec env op).2, s.cache.evictedBy env op⟩

/-- The session after a call. -/
def Session.after (s : Session K V P) (env : Env K) (op : Op K V) : Session K V P :=
  ⟨(s.cache.exec env op).1, env.now⟩

theorem step_after (s : Session K V P) (env : Env K) (op : Op K V) (h : s.clock ≤ env.now) :
    Step s (s.event env op) (s.after env op) :=
  ⟨h, rfl, rfl, rfl⟩

/-- Run a list of calls. -/
def Session.script (s : Session K V P) (calls : List (Env K × Op K V)) :
    List (Event K V) × Session K V P :=
  Run.script (fun s call => s.event call.1 call.2) (fun s call => s.after call.1 call.2) s calls

/-- Executed from `s`, the calls read a clock that does not go back and each meets `C`. -/
def Session.Meets (C : Session K V P → Event K V → Prop) (s : Session K V P)
    (calls : List (Env K × Op K V)) : Prop :=
  Run.Admits (fun s call => s.clock ≤ call.1.now ∧ C s (s.event call.1 call.2))
    (fun s call => s.after call.1 call.2) s calls

instance (C : Session K V P → Event K V → Prop) [∀ s e, Decidable (C s e)] (s : Session K V P)
    (calls : List (Env K × Op K V)) : Decidable (s.Meets C calls) := by
  unfold Session.Meets; infer_instance

/-- **A script that meets `C` is a run whose steps all meet `C`.** -/
theorem run_script {C : Session K V P → Event K V → Prop} (calls : List (Env K × Op K V))
    (s : Session K V P) (h : s.Meets C calls) :
    Run (Guarded C Step) s (s.script calls).1 (s.script calls).2 :=
  Run.of_script (fun s call hok => ⟨hok.2, step_after s call.1 call.2 hok.1⟩) calls s h

namespace MemoryCache

@[simp] theorem exec_capacity (c : MemoryCache K V P) (env : Env K) (op : Op K V) :
    (c.exec env op).1.capacityBytes = c.capacityBytes := by
  cases op with
  | get key => exact get_capacity c env key
  | set key value ttl => exact set_capacity c env key value ttl
  | delete key => exact delete_capacity c key
  | «exists» key => rfl
  | clear => rfl

end MemoryCache

theorem Step.capacity {s t : Session K V P} {e : Event K V} (h : Step s e t) :
    t.cache.capacityBytes = s.cache.capacityBytes := by
  have := MemoryCache.exec_capacity s.cache e.env e.op
  rw [h.exec_eq] at this
  exact this

theorem capacity_of_run {cap : Nat} {policy : P} {hcap : 0 < cap} {es : List (Event K V)}
    {s : Session K V P} (hrun : Run Step (.fresh cap policy hcap) es s) :
    s.cache.capacityBytes = cap :=
  hrun.invariant (fun s => s.cache.capacityBytes = cap) rfl fun _ _ _ h hstep =>
    hstep.capacity.trans h

end CacheLayer
