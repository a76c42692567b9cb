import CacheLayer.MemoryThreads
import CacheLayer.Lib.LockOrder

/-!
# The mutexes of `MemoryCache`

The calls of `MemoryThreads` once more, now with their mutexes: a step of a call takes the mutexes of
its section one at a time, makes its access, and drops its guards one at a time, and between two of
these instructions the other callers may do anything.  Where a section takes several mutexes its writes are
made when it has the last of them; what they protect is in nobody's reach from the first on.  `size()`
and `stats()` are calls like the others.

* `Thread.mutexes` — the mutexes of a section, in the order in which the source declares the guards;
* `lockProgram_wellFormed` — every section takes them in one order, `size_bytes`, `stats`,
  `eviction_policy`;
* `deadlock_free` — so no run deadlocks;
* `unlocked_run` — without its mutexes, a run is a run of `MemorySystem`.
-/

set_option autoImplicit false

namespace CacheLayer

open LockOrder

variable {K V P : Type}

/-! ## Sections -/

/-- The mutexes of a `MemoryCache`. -/
inductive Mutex where
  | sizeBytes
  | stats
  | evictionPolicy
  deriving DecidableEq

/-- The place of a mutex in the order in which the code nests them. -/
def Mutex.rank : Mutex → Nat
  | .sizeBytes => 0
  | .stats => 1
  | .evictionPolicy => 2

instance : Preorder Mutex := Preorder.lift Mutex.rank

instance : DecidableLT Mutex := fun a b => inferInstanceAs (Decidable (a.rank < b.rank))

/-- The mutexes that the next step of a call takes. -/
def Thread.mutexes : Thread K V → List Mutex
  | .get _ (.access _) => [.evictionPolicy]
  | .get _ (.hit _) => [.stats]
  | .get _ .miss => [.stats]
  | .set _ _ _ _ (.debit _) => [.sizeBytes]
  | .set _ _ _ _ .check => [.sizeBytes]
  | .set _ _ _ _ .evict => [.evictionPolicy]
  | .set _ _ _ _ (.release _) => [.sizeBytes, .stats]
  | .set _ _ _ _ .fail => [.sizeBytes]
  | .set _ _ _ _ (.credit _) => [.sizeBytes]
  | .set _ _ _ _ (.count _ _) => [.stats]
  | .set _ _ _ _ (.record _) => [.evictionPolicy]
  | .delete _ (some _) => [.sizeBytes, .stats]
  | .clear true => [.sizeBytes, .stats, .evictionPolicy]
  -- The map and the clock are read without a mutex.
  | _ => []

theorem Thread.mutexes_sorted (th : Thread K V) : th.mutexes.Pairwise (· < ·) := by
  unfold Thread.mutexes
  split <;> decide

/-! ## The machine -/

/-- A call that uses a mutex, or may come to. -/
inductive MemoryCall (K V : Type) where
  | op (call : Op K V)
  | size
  | stats

/-- The place a call has reached; `size` and `stats` have returned once they have a reply. -/
inductive Place (K V : Type) where
  | op (th : Thread K V)
  | size (reply : Option Nat)
  | stats (reply : Option TierStats)

namespace Place

/-- The first place of a call. -/
def start : MemoryCall K V → Place K V
  | .op call => .op (.start call)
  | .size => .size none
  | .stats => .stats none

/-- The code from a place to the next one. -/
def segment : Place K V → List (Instr Mutex)
  | .op th => if th.Returned then [] else bracketed th.mutexes
  | .size none => bracketed [.sizeBytes]
  | .size (some _) => []
  | .stats none => bracketed [.stats]
  | .stats (some _) => []

/-- The call has returned. -/
def Returned : Place K V → Prop
  | .op th => th.Returned
  | .size reply => reply.isSome
  | .stats reply => reply.isSome

instance : (p : Place K V) → Decidable p.Returned
  | .op th => inferInstanceAs (Decidable th.Returned)
  | .size reply => inferInstanceAs (Decidable (reply.isSome = true))
  | .stats reply => inferInstanceAs (Decidable (reply.isSome = true))

/-- The `Thread` of a call that is one. -/
def thread? : Place K V → Option (Thread K V)
  | .op th => some th
  | .size _ => none
  | .stats _ => none

variable [DecidableEq K] [EvictionPolicy K P] [RustSized K] [RustSized V]

/-- The access of a call, with the mutexes of its section held. -/
def step (s : Session K V P) (order : HashOrder K) : Place K V → Option (Session K V P × Place K V)
  | .op th => (th.step s.cache s.clock order).map fun r => ({ s with cache := r.1 }, .op r.2)
  | .size none => some (s, .size (some s.cache.sizeBytes))
  | .size (some _) => none
  | .stats none => some (s, .stats (some s.cache.stats))
  | .stats (some _) => none

end Place

/-- The calls of a `MemoryCache` with their mutexes, and the clock. -/
def lockProgram (K V P : Type) [DecidableEq K] [EvictionPolicy K P] [RustSized K] [RustSized V] :
    Program Mutex (Session K V P) (Place K V) (MemoryCall K V) (HashOrder K) Instant where
  start := Place.start
  segment := Place.segment
  body := Place.step
  external s now := if s.clock ≤ now then some { s with clock := now } else none

namespace Place

/-- A call that has returned has nothing left to do; any other enters a section, whose guards it
declares in increasing order. -/
theorem segment_cases (p : Place K V) :
    (p.Returned ∧ p.segment = []) ∨
      ¬ p.Returned ∧ ∃ ms : List Mutex, ms.Pairwise (· < ·) ∧ p.segment = bracketed ms := by
  cases p with
  | op th =>
    by_cases hret : th.Returned
    · exact Or.inl ⟨hret, if_pos hret⟩
    · exact Or.inr ⟨hret, th.mutexes, th.mutexes_sorted, if_neg hret⟩
  | size reply =>
    cases reply with
    | none => exact Or.inr ⟨by simp [Returned], [.sizeBytes], by decide, rfl⟩
    | some n => exact Or.inl ⟨rfl, rfl⟩
  | stats reply =>
    cases reply with
    | none => exact Or.inr ⟨by simp [Returned], [.stats], by decide, rfl⟩
    | some st => exact Or.inl ⟨rfl, rfl⟩

theorem count_run_segment {p : Place K V} (h : ¬ p.Returned) : p.segment.count .run = 1 := by
  obtain ⟨hret, -⟩ | ⟨-, ms, -, hseg⟩ := p.segment_cases
  · exact absurd hret h
  · rw [hseg, count_run_bracketed]

variable [DecidableEq K] [EvictionPolicy K P] [RustSized K] [RustSized V]

theorem step_isSome (s : Session K V P) (order : HashOrder K) {p : Place K V} (h : ¬ p.Returned) :
    (p.step s order).isSome := by
  cases p with
  | op th =>
    cases th with
    | returned op inserted reply => exact absurd trivial h
    | _ => rfl
  | size reply =>
    cases reply with
    | none => rfl
    | some n => exact absurd rfl h
  | stats reply =>
    cases reply with
    | none => rfl
    | some st => exact absurd rfl h

/-- What an access can be. -/
theorem step_inv {x x' : Session K V P} {order : HashOrder K} {p p' : Place K V}
    (h : p.step x order = some (x', p')) :
    (∃ th r, p = .op th ∧ th.step x.cache x.clock order = some r ∧ p' = .op r.2 ∧
      x' = { x with cache := r.1 }) ∨
    (p = .size none ∧ p' = .size (some x.cache.sizeBytes) ∧ x' = x) ∨
    (p = .stats none ∧ p' = .stats (some x.cache.stats) ∧ x' = x) := by
  cases p with
  | op th =>
    obtain ⟨r, hr, heq⟩ := Option.map_eq_some_iff.1 h
    cases heq
    exact Or.inl ⟨th, r, rfl, hr, rfl, rfl⟩
  | size reply =>
    cases reply with
    | none =>
      cases h
      exact Or.inr (Or.inl ⟨rfl, rfl, rfl⟩)
    | some n => cases h
  | stats reply =>
    cases reply with
    | none =>
      cases h
      exact Or.inr (Or.inr ⟨rfl, rfl, rfl⟩)
    | some st => cases h

end Place

variable [DecidableEq K] [EvictionPolicy K P] [RustSized K] [RustSized V]

/-- **Every section of every call takes its mutexes in the order** `size_bytes`, `stats`,
`eviction_policy`, and gives them all back. -/
theorem lockProgram_wellFormed : (lockProgram K V P).WellFormed where
  disciplined p := by
    obtain ⟨-, hseg⟩ | ⟨-, ms, hms, hseg⟩ := p.segment_cases
    · show Disciplined ∅ p.segment
      rw [hseg]
      rfl
    · show Disciplined ∅ p.segment
      rw [hseg]
      exact disciplined_bracketed hms
  one_run p := by
    show p.segment.count .run ≤ 1
    obtain ⟨-, hseg⟩ | ⟨hret, -⟩ := p.segment_cases
    · simp [hseg]
    · exact (Place.count_run_segment hret).le
  defined s order p hrun := by
    apply Place.step_isSome
    intro hret
    obtain ⟨-, hseg⟩ | ⟨hn, -⟩ := p.segment_cases
    · have hmem : Instr.run ∈ p.segment := hrun
      simp [hseg] at hmem
    · exact hn hret

/-! ## No deadlock -/

/-- The call has not returned, or has yet to drop its last guards. -/
def Unfinished (c : Caller Mutex (Place K V)) : Prop := ¬ c.place.Returned ∨ c.code ≠ []

instance (c : Caller Mutex (Place K V)) : Decidable (Unfinished c) :=
  inferInstanceAs (Decidable (¬ c.place.Returned ∨ c.code ≠ []))

omit [DecidableEq K] [RustSized K] [RustSized V] in
theorem Unfinished.code_ne_nil {c : Caller Mutex (Place K V)} (h : Unfinished c)
    (hcount : c.code.count .run = c.place.segment.count .run) : c.code ≠ [] := by
  rcases h with hret | hcode
  · intro hnil
    rw [hnil, Place.count_run_segment hret] at hcount
    cases hcount
  · exact hcode

/-- **`MemoryCache` does not deadlock**, whatever cache it starts from, however many calls are made on
it and in whatever order their instructions fall: no call asks for a mutex that it holds, and as long
as a call is unfinished, an unfinished call can execute its next instruction. -/
theorem deadlock_free {x : Session K V P} {s : System Mutex (Session K V P) (Place K V)}
    {es : List (Label (MemoryCall K V) (HashOrder K) Instant)}
    (h : Run (lockProgram K V P).Steps (.idle x) es s) :
    (∀ c ∈ s.callers, ∀ m code, c.code = .lock m :: code → m ∉ c.held) ∧
    ((∃ c ∈ s.callers, Unfinished c) →
      ∃ i c, s.callers[i]? = some c ∧ Unfinished c ∧
        ∀ order, ∃ t, (lockProgram K V P).Steps s (.act i order) t) := by
  obtain ⟨hself, hprogress⟩ := Program.no_deadlock lockProgram_wellFormed h
  refine ⟨hself, ?_⟩
  rintro ⟨c, hc, hunf⟩
  have hcount := (Program.orderly_of_run lockProgram_wellFormed h c hc).count_run
  obtain ⟨i, d, hi, hne, hact⟩ := hprogress ⟨c, hc, hunf.code_ne_nil hcount⟩
  exact ⟨i, d, hi, Or.inr hne, hact⟩

/-- The mutexes of a cache of `u64`s. -/
abbrev lockProgram64 := lockProgram UInt64 UInt64 (BoxedPolicy UInt64)

/-- A cache with room for one entry. -/
def smallSession : Session UInt64 UInt64 (BoxedPolicy UInt64) :=
  ⟨.withPolicy 16 (.lru (LRU.new _ 1024 (Nat.succ_pos (nat_lit 1023)))) (Nat.succ_pos (nat_lit 15)), 0⟩

/-- `clear()` holds the size when `set(1, 10, None)` comes to test it, and `stats()` wants what
`clear()` will want next. -/
def contention : List (Label (MemoryCall UInt64 UInt64) (HashOrder UInt64) Instant) :=
  [.call (.op .clear), .call (.op (.set 1 10 none)), .call .stats, .act 0 (.id _), .act 0 (.id _),
    .act 1 (.id _)]

theorem deadlock_free_contention :
    ∃ s, play lockProgram64.step (.idle smallSession) contention = some s ∧
      (∃ c ∈ s.callers, c.code = bracketed [.sizeBytes] ∧ ∃ d ∈ s.callers, .sizeBytes ∈ d.held) ∧
      ∃ i c, s.callers[i]? = some c ∧ Unfinished c ∧
        ∀ order, ∃ t, lockProgram64.Steps s (.act i order) t := by
  refine ⟨(play lockProgram64.step (.idle smallSession) contention).get (by decide),
    (Option.some_get _).symm, by decide, ?_⟩
  exact (deadlock_free (x := smallSession) (Run.of_play (Option.some_get _).symm)).2 (by decide)

/-! ## Without the mutexes -/

/-- The calls of `MemorySystem` among the callers. -/
def threadsOf (callers : List (Caller Mutex (Place K V))) : List (Thread K V) :=
  callers.filterMap fun c => c.place.thread?

/-- The system without its mutexes, and without the calls of `size()` and `stats()`. -/
def unlocked (s : System Mutex (Session K V P) (Place K V)) : MemorySystem K V P :=
  ⟨s.shared.cache, threadsOf s.callers, s.shared.clock⟩

omit [DecidableEq K] [RustSized K] [RustSized V] in
theorem threadsOf_append_cons (pre post : List (Caller Mutex (Place K V)))
    (c : Caller Mutex (Place K V)) :
    threadsOf (pre ++ c :: post) = threadsOf pre ++ (c.place.thread?.toList ++ threadsOf post) := by
  cases hth : c.place.thread? <;> simp [threadsOf, hth]

/-- What stands before and after position `i`. -/
theorem exists_set_eq {α : Type} {l : List α} {i : Nat} {a : α} (h : l[i]? = some a) (b : α) :
    ∃ pre post, l = pre ++ a :: post ∧ l.set i b = pre ++ b :: post := by
  obtain ⟨hlt, rfl⟩ := List.getElem?_eq_some_iff.1 h
  obtain ⟨pre, post, hl, -, hset⟩ := @List.exists_of_set _ i b l hlt
  exact ⟨pre, post, hl, hset⟩

omit [DecidableEq K] [EvictionPolicy K P] [RustSized K] [RustSized V] in
theorem unlocked_advance {s : System Mutex (Session K V P) (Place K V)} {i : Nat}
    {c : Caller Mutex (Place K V)} {r : Session K V P × Caller Mutex (Place K V)}
    (hi : s.callers[i]? = some c) (hplace : r.2.place.thread? = c.place.thread?)
    (hshared : r.1 = s.shared) : unlocked (s.advance i r) = unlocked s := by
  obtain ⟨pre, post, hs, hset⟩ := exists_set_eq hi r.2
  have hthreads : threadsOf (s.callers.set i r.2) = threadsOf s.callers := by
    rw [hset, hs, threadsOf_append_cons, threadsOf_append_cons, hplace]
  simp only [unlocked, System.advance, hthreads, hshared]

/-- The access of a call that is one of `MemorySystem`. -/
theorem unlocked_access {s : System Mutex (Session K V P) (Place K V)} {i : Nat}
    {c d : Caller Mutex (Place K V)} {th : Thread K V} {order : HashOrder K}
    {r : MemoryCache K V P × Thread K V} (hi : s.callers[i]? = some c) (hc : c.place = .op th)
    (hd : d.place = .op r.2) (hstep : th.step s.shared.cache s.shared.clock order = some r) :
    ∃ j, MemorySystem.Steps (unlocked s) (.run j order)
      (unlocked (s.advance i ({ s.shared with cache := r.1 }, d))) := by
  obtain ⟨pre, post, hs, hset⟩ := exists_set_eq hi d
  have hthreads : threadsOf s.callers = threadsOf pre ++ th :: threadsOf post := by
    rw [hs, threadsOf_append_cons, hc]
    rfl
  have hset' : threadsOf (s.callers.set i d) =
      (threadsOf s.callers).set (threadsOf pre).length r.2 := by
    rw [hset, hthreads, threadsOf_append_cons, hd, List.set_append_right _ _ (Nat.le_refl _),
      Nat.sub_self, List.set_cons_zero]
    rfl
  have hget : (unlocked s).threads[(threadsOf pre).length]? = some th := by
    simp [unlocked, hthreads]
  have hadvance : unlocked (s.advance i ({ s.shared with cache := r.1 }, d)) =
      (unlocked s).advance (threadsOf pre).length r := by
    simp only [unlocked, System.advance, MemorySystem.advance, hset']
  refine ⟨(threadsOf pre).length, ?_⟩
  rw [hadvance]
  exact MemorySystem.steps_run hget hstep

/-- An instruction on a mutex, `size()` and `stats()` do nothing to the rest of the system; any other
step is a step of `MemorySystem`. -/
theorem unlocked_step {s t : System Mutex (Session K V P) (Place K V)}
    {l : Label (MemoryCall K V) (HashOrder K) Instant} (h : (lockProgram K V P).Steps s l t) :
    unlocked t = unlocked s ∨ ∃ l', MemorySystem.Steps (unlocked s) l' (unlocked t) := by
  obtain ⟨call, -, rfl⟩ | ⟨i, order, c, r, -, hi, hexec, rfl⟩ | ⟨now, x, -, hx, rfl⟩ :=
    (lockProgram K V P).step_cases h
  · cases call with
    | op call =>
      refine Or.inr ⟨.invoke call, ?_⟩
      simp [MemorySystem.Steps, MemorySystem.step, MemorySystem.invoke, unlocked, threadsOf,
        Program.enter, lockProgram, Place.start, Place.thread?]
    | size => simp [unlocked, threadsOf, Program.enter, lockProgram, Place.start, Place.thread?]
    | stats => simp [unlocked, threadsOf, Program.enter, lockProgram, Place.start, Place.thread?]
  · obtain ⟨m, code, hcode, -, rfl⟩ | ⟨m, code, hcode, -, rfl⟩ | ⟨code, x, p, hcode, hbody, rfl⟩ :=
      (lockProgram K V P).execute_cases hexec
    · exact Or.inl (unlocked_advance hi rfl rfl)
    · exact Or.inl (unlocked_advance hi rfl rfl)
    · obtain ⟨th, r, hplace, hr, rfl, rfl⟩ | ⟨hplace, rfl, rfl⟩ | ⟨hplace, rfl, rfl⟩ :=
        Place.step_inv hbody
      · obtain ⟨j, hj⟩ := unlocked_access hi hplace (d := ⟨.op r.2, _, _⟩) rfl hr
        exact Or.inr ⟨.run j order, hj⟩
      · exact Or.inl (unlocked_advance hi (by rw [hplace]; rfl) rfl)
      · exact Or.inl (unlocked_advance hi (by rw [hplace]; rfl) rfl)
  · replace hx : (if s.shared.clock ≤ now then some { s.shared with clock := now } else none) =
        some x := hx
    split at hx
    · rename_i hle
      cases hx
      refine Or.inr ⟨.tick now, ?_⟩
      exact if_pos hle
    · cases hx

/-- **Without its mutexes, a run is a run of `MemorySystem`**: what holds in every run of that holds
in every run with mutexes. -/
theorem unlocked_run {s t : System Mutex (Session K V P) (Place K V)}
    {es : List (Label (MemoryCall K V) (HashOrder K) Instant)} (h : Run (lockProgram K V P).Steps s es t) :
    ∃ es', Run MemorySystem.Steps (unlocked s) es' (unlocked t) := by
  induction h with
  | nil => exact ⟨[], .nil⟩
  | snoc _ hstep ih =>
    obtain ⟨es', hrun⟩ := ih
    rcases unlocked_step hstep with heq | ⟨l, hl⟩
    · exact ⟨es', by rw [heq]; exact hrun⟩
    · exact ⟨es' ++ [l], hrun.snoc hl⟩

end CacheLayer
