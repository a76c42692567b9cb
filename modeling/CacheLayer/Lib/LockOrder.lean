import CacheLayer.Lib.Run
import Mathlib.Data.Set.Finite.Lattice
import Mathlib.Order.Preorder.Finite

/-!
# Lock order

Any number of callers execute code that takes and gives back mutexes.  A mutex is not reentrant: a
caller that wants one which is held, by another caller or by itself, waits.

* `Disciplined held code` — the code takes mutexes in increasing order only, gives back what it holds,
  and ends with nothing; `disciplined_bracketed` — so do guards that are declared in increasing order
  and dropped at the end of their scope;
* `exists_unblocked` — of callers with disciplined code, one that is not done is not blocked;
* `Program` — calls whose code is made of segments, and `Program.WellFormed`, the conditions on the
  segments; `Program.no_deadlock` — no run of such a program deadlocks;
* `Program.passes_of_call`, `Program.places_of_run` — what the place of a call says, of the present state
  and of a state that it has passed.
-/

set_option autoImplicit false

namespace LockOrder

/-- One instruction: take a mutex, give it back, or do what stands in between. -/
inductive Instr (L : Type) where
  | lock (m : L)
  | unlock (m : L)
  | run
  deriving DecidableEq

variable {L : Type} [DecidableEq L]

section Discipline

variable [Preorder L]

/-- Code that, starting with the mutexes `held`, takes only mutexes above those it holds. -/
def Disciplined : Finset L → List (Instr L) → Prop
  | held, [] => held = ∅
  | held, .lock m :: code => (∀ h ∈ held, h < m) ∧ Disciplined (insert m held) code
  | held, .unlock m :: code => m ∈ held ∧ Disciplined (held.erase m) code
  | held, .run :: code => Disciplined held code

/-- Guards declared in this order around one access, and dropped in the reverse order. -/
def bracketed (ms : List L) : List (Instr L) := ms.map .lock ++ .run :: ms.reverse.map .unlock

omit [Preorder L] in
theorem count_run_bracketed (ms : List L) : (bracketed ms).count .run = 1 := by
  have hlock : (ms.map Instr.lock).count .run = 0 := by simp [List.count_eq_zero]
  have hunlock : (ms.reverse.map Instr.unlock).count .run = 0 := by simp [List.count_eq_zero]
  rw [bracketed, List.count_append, List.count_cons_self, hlock, hunlock]

theorem Disciplined.append {held : Finset L} {code code' : List (Instr L)}
    (h : Disciplined held code) (h' : Disciplined ∅ code') : Disciplined held (code ++ code') := by
  induction code generalizing held with
  | nil =>
    cases h
    exact h'
  | cons i code ih =>
    cases i with
    | lock m => exact ⟨h.1, ih h.2⟩
    | unlock m => exact ⟨h.1, ih h.2⟩
    | run => exact ih h

/-- Code that holds a mutex has yet to give it back. -/
theorem Disciplined.ne_nil {held : Finset L} {code : List (Instr L)} {m : L}
    (h : Disciplined held code) (hm : m ∈ held) : code ≠ [] := by
  rintro rfl
  cases h
  exact Finset.notMem_empty m hm

/-- **No caller takes a mutex it holds.** -/
theorem Disciplined.notMem_of_lock {held : Finset L} {code : List (Instr L)} {m : L}
    (h : Disciplined held (.lock m :: code)) : m ∉ held := fun hm => lt_irrefl m (h.1 m hm)

theorem disciplined_unlocks : ∀ {ms : List L}, ms.Nodup → Disciplined ms.toFinset (ms.map .unlock)
  | [], _ => List.toFinset_nil
  | m :: ms, h => by
    have hnd : m ∉ ms ∧ ms.Nodup := List.nodup_cons.1 h
    have herase : (m :: ms).toFinset.erase m = ms.toFinset := by
      rw [List.toFinset_cons, Finset.erase_insert (by simpa using hnd.1)]
    refine ⟨by simp, ?_⟩
    rw [herase]
    exact disciplined_unlocks hnd.2

theorem disciplined_locks {code : List (Instr L)} : ∀ {ms : List L} {held : Finset L},
    ms.Pairwise (· < ·) → (∀ h ∈ held, ∀ m ∈ ms, h < m) → Disciplined (held ∪ ms.toFinset) code →
      Disciplined held (ms.map .lock ++ code)
  | [], held, _, _, h => by simpa using h
  | m :: ms, held, hms, hlt, h => by
    have hpair := List.pairwise_cons.1 hms
    refine ⟨fun a ha => hlt a ha m List.mem_cons_self, ?_⟩
    apply disciplined_locks hpair.2
    · intro a ha b hb
      rcases Finset.mem_insert.1 ha with rfl | ha
      · exact hpair.1 b hb
      · exact hlt a ha b (List.mem_cons_of_mem m hb)
    · rw [Finset.insert_union, ← Finset.union_insert, ← List.toFinset_cons]
      exact h

/-- **Guards declared in increasing order and dropped at the end of their scope are disciplined.** -/
theorem disciplined_bracketed {ms : List L} (h : ms.Pairwise (· < ·)) :
    Disciplined ∅ (bracketed ms) := by
  have hnd : ms.reverse.Nodup := List.nodup_reverse.2 (h.imp fun hlt => hlt.ne)
  apply disciplined_locks h
  · intro a ha
    exact absurd ha (Finset.notMem_empty a)
  · have heq : ∅ ∪ ms.toFinset = ms.reverse.toFinset := by
      rw [Finset.empty_union, List.toFinset_reverse]
    show Disciplined (∅ ∪ ms.toFinset) (ms.reverse.map .unlock)
    rw [heq]
    exact disciplined_unlocks hnd

end Discipline

/-! ## Callers -/

/-- A call in progress: the place it has reached, the instructions of its current segment that are
left, and the mutexes it holds. -/
structure Caller (L π : Type) where
  place : π
  code : List (Instr L)
  held : Finset L

variable {π : Type}

/-- A caller waits: its next instruction takes a mutex that somebody holds. -/
def Blocked (callers : List (Caller L π)) (c : Caller L π) : Prop :=
  ∃ m code, c.code = .lock m :: code ∧ ∃ d ∈ callers, m ∈ d.held

omit [DecidableEq L] in
theorem finite_held (callers : List (Caller L π)) : {m | ∃ d ∈ callers, m ∈ d.held}.Finite := by
  have h : ({d | d ∈ callers} : Set (Caller L π)).Finite := callers.finite_toSet
  have heq : {m | ∃ d ∈ callers, m ∈ d.held} = ⋃ d ∈ {d | d ∈ callers}, (d.held : Set L) := by
    ext m
    simp
  rw [heq]
  exact h.biUnion fun d _ => d.held.finite_toSet

/-- **Somebody can go on.**  Whoever holds a highest mutex of all that are held wants one above it,
if any, and nobody holds that. -/
theorem exists_unblocked [Preorder L] {callers : List (Caller L π)}
    (hcode : ∀ c ∈ callers, Disciplined c.held c.code) {c : Caller L π} (hc : c ∈ callers)
    (hne : c.code ≠ []) : ∃ d ∈ callers, d.code ≠ [] ∧ ¬ Blocked callers d := by
  by_cases hheld : {m | ∃ d ∈ callers, m ∈ d.held}.Nonempty
  · obtain ⟨m, hmax⟩ := (finite_held callers).exists_maximal hheld
    obtain ⟨d, hd, hm⟩ := hmax.prop
    refine ⟨d, hd, (hcode d hd).ne_nil hm, ?_⟩
    rintro ⟨m', code, hnext, e, he, hm'⟩
    have hlock := hcode d hd
    rw [hnext] at hlock
    exact hmax.not_gt ⟨e, he, hm'⟩ (hlock.1 m hm)
  · refine ⟨c, hc, hne, ?_⟩
    rintro ⟨m, code, -, d, hd, hm⟩
    exact hheld ⟨m, d, hd, hm⟩

/-! ## Programs -/

/-- The state that the callers share, and the callers. -/
structure System (L σ π : Type) where
  shared : σ
  callers : List (Caller L π)

namespace System

variable {σ : Type}

/-- No call has been made. -/
def idle (x : σ) : System L σ π := ⟨x, []⟩

/-- Caller `i` has executed an instruction. -/
def advance (s : System L σ π) (i : Nat) (r : σ × Caller L π) : System L σ π :=
  ⟨r.1, s.callers.set i r.2⟩

end System

/-- A call starts at a place; `segment` is the code from a place on to the next one, and `body` is
what the `run` of that code does, to the shared state and to the place.  `external` is what happens to the
shared state without a caller. -/
structure Program (L σ π ω ι ε : Type) where
  start : ω → π
  segment : π → List (Instr L)
  body : σ → ι → π → Option (σ × π)
  external : σ → ε → Option σ

/-- A call is made, caller `i` executes its next instruction, or something happens outside. -/
inductive Label (ω ι ε : Type) where
  | call (op : ω)
  | act (i : Nat) (input : ι)
  | external (e : ε)

namespace Program

variable {σ ω ι ε : Type} (P : Program L σ π ω ι ε)

/-- The next instruction of a caller. -/
def execute (s : System L σ π) (input : ι) (c : Caller L π) : Option (σ × Caller L π) :=
  match c.code with
  | [] => none
  | .lock m :: code =>
    if ∀ d ∈ s.callers, m ∉ d.held then some (s.shared, ⟨c.place, code, insert m c.held⟩) else none
  | .unlock m :: code =>
    if m ∈ c.held then some (s.shared, ⟨c.place, code, c.held.erase m⟩) else none
  | .run :: code =>
    (P.body s.shared input c.place).map fun r => (r.1, ⟨r.2, code ++ P.segment r.2, c.held⟩)

/-- A call is made. -/
def enter (s : System L σ π) (op : ω) : System L σ π :=
  { s with callers := s.callers ++ [⟨P.start op, P.segment (P.start op), ∅⟩] }

/-- One step. -/
def step (s : System L σ π) : Label ω ι ε → Option (System L σ π)
  | .call op => some (P.enter s op)
  | .act i input =>
    match s.callers[i]? with
    | some c => (P.execute s input c).map (s.advance i)
    | none => none
  | .external e => (P.external s.shared e).map fun x => { s with shared := x }

/-- The step relation. -/
def Steps (s : System L σ π) (l : Label ω ι ε) (t : System L σ π) : Prop := P.step s l = some t

/-- What a step can be. -/
theorem step_cases {s t : System L σ π} {l : Label ω ι ε} (h : P.Steps s l t) :
    (∃ op, l = .call op ∧ t = P.enter s op) ∨
    (∃ i input c r, l = .act i input ∧ s.callers[i]? = some c ∧ P.execute s input c = some r ∧
      t = s.advance i r) ∨
    (∃ e x, l = .external e ∧ P.external s.shared e = some x ∧ t = { s with shared := x }) := by
  cases l with
  | call op =>
    cases h
    exact Or.inl ⟨op, rfl, rfl⟩
  | act i input =>
    simp only [Steps, step] at h
    split at h
    · rename_i c hi
      obtain ⟨r, hr, rfl⟩ := Option.map_eq_some_iff.1 h
      exact Or.inr (Or.inl ⟨i, input, c, r, rfl, hi, hr, rfl⟩)
    · cases h
  | external e =>
    obtain ⟨x, hx, rfl⟩ := Option.map_eq_some_iff.1 h
    exact Or.inr (Or.inr ⟨e, x, rfl, hx, rfl⟩)

/-- What an instruction can be. -/
theorem execute_cases {s : System L σ π} {input : ι} {c : Caller L π} {r : σ × Caller L π}
    (h : P.execute s input c = some r) :
    (∃ m code, c.code = .lock m :: code ∧ (∀ d ∈ s.callers, m ∉ d.held) ∧
      r = (s.shared, ⟨c.place, code, insert m c.held⟩)) ∨
    (∃ m code, c.code = .unlock m :: code ∧ m ∈ c.held ∧
      r = (s.shared, ⟨c.place, code, c.held.erase m⟩)) ∨
    (∃ code x p, c.code = .run :: code ∧ P.body s.shared input c.place = some (x, p) ∧
      r = (x, ⟨p, code ++ P.segment p, c.held⟩)) := by
  unfold execute at h
  split at h
  · cases h
  · rename_i m code hcode
    split at h
    · rename_i hfree
      cases h
      exact Or.inl ⟨m, code, hcode, hfree, rfl⟩
    · cases h
  · rename_i m code hcode
    split at h
    · rename_i hheld
      cases h
      exact Or.inr (Or.inl ⟨m, code, hcode, hheld, rfl⟩)
    · cases h
  · rename_i code hcode
    obtain ⟨⟨x, p⟩, hbody, rfl⟩ := Option.map_eq_some_iff.1 h
    exact Or.inr (Or.inr ⟨code, x, p, hcode, hbody, rfl⟩)

/-! ### What a place says -/

section Places

variable {P}

/-- The shared state changes: a call makes its access, or something happens outside. -/
def Moves (P : Program L σ π ω ι ε) (x x' : σ) : Prop :=
  (∃ input p p', P.body x input p = some (x', p')) ∨ ∃ e, P.external x e = some x'

/-- What a step does to the shared state and to the place of one caller. -/
theorem step_caller {s t : System L σ π} {l : Label ω ι ε} (h : P.Steps s l t) {i : Nat}
    {c : Caller L π} (hi : s.callers[i]? = some c) :
    ∃ d, t.callers[i]? = some d ∧
      ((d.place = c.place ∧ (t.shared = s.shared ∨ P.Moves s.shared t.shared)) ∨
        ∃ input, P.body s.shared input c.place = some (t.shared, d.place)) := by
  obtain ⟨op, -, rfl⟩ | ⟨j, input, a, r, -, hj, hexec, rfl⟩ | ⟨e, x, -, hx, rfl⟩ := P.step_cases h
  · refine ⟨c, ?_, Or.inl ⟨rfl, Or.inl rfl⟩⟩
    show (s.callers ++ _)[i]? = some c
    rw [List.getElem?_append_left (List.getElem?_eq_some_iff.1 hi).1, hi]
  · by_cases hij : j = i
    · subst hij
      rw [hi] at hj
      cases hj
      refine ⟨r.2, List.getElem?_set_self (List.getElem?_eq_some_iff.1 hi).1, ?_⟩
      obtain ⟨m, code, -, -, rfl⟩ | ⟨m, code, -, -, rfl⟩ | ⟨code, x, p, -, hbody, rfl⟩ :=
        P.execute_cases hexec
      · exact Or.inl ⟨rfl, Or.inl rfl⟩
      · exact Or.inl ⟨rfl, Or.inl rfl⟩
      · exact Or.inr ⟨input, hbody⟩
    · refine ⟨c, (List.getElem?_set_ne hij).trans hi, Or.inl ⟨rfl, ?_⟩⟩
      obtain ⟨m, code, -, -, rfl⟩ | ⟨m, code, -, -, rfl⟩ | ⟨code, x, p, -, hbody, rfl⟩ :=
        P.execute_cases hexec
      · exact Or.inl rfl
      · exact Or.inl rfl
      · exact Or.inr (Or.inl ⟨input, _, p, hbody⟩)
  · exact ⟨c, hi, Or.inl ⟨rfl, Or.inr (Or.inr ⟨e, hx⟩)⟩⟩

/-- **What a place says of a state passed since the call.**  `Sees x p y` relates the place `p` of a call
to the present state `x` and to a moment `y`.  If it holds of a call that is made, if every access of the call
keeps the moment or is one, and if it survives what others do, then at every point of a run the call has
passed such a moment. -/
theorem passes_of_call (Sees : σ → π → σ → Prop) {s₁ s : System L σ π} {op : ω}
    {es : List (Label ω ι ε)} (hstart : Sees s₁.shared (P.start op) s₁.shared)
    (hbody : ∀ {x input p x' p' y}, P.body x input p = some (x', p') → Sees x p y →
      Sees x' p' y ∨ Sees x' p' x')
    (hmoves : ∀ {x x' p y}, P.Moves x x' → Sees x p y → Sees x' p y)
    (hrun : Run P.Steps (P.enter s₁ op) es s) :
    ∃ c, s.callers[s₁.callers.length]? = some c ∧
      Run.Passes P.Steps (fun m => Sees s.shared c.place m.shared) (P.enter s₁ op) es s := by
  induction hrun with
  | nil => exact ⟨_, List.getElem?_concat_length, .last .nil hstart⟩
  | @snoc es s l t hrun hstep ih =>
    obtain ⟨c, hc, hpass⟩ := ih
    obtain ⟨d, hd, ⟨hplace, hshared⟩ | ⟨input, haccess⟩⟩ := step_caller hstep hc
    · refine ⟨d, hd, (hpass.snoc hstep).imp fun _ _ m _ _ hsees => ?_⟩
      rw [hplace]
      rcases hshared with hsame | hmove
      · rw [hsame]
        exact hsees
      · exact hmoves hmove hsees
    · refine ⟨d, hd, ?_⟩
      obtain ⟨es₁, es₂, m, rfl, h₁, h₂, hsees⟩ := hpass
      rcases hbody haccess hsees with hold | hnew
      · exact ⟨es₁, es₂ ++ [l], m, List.append_assoc es₁ es₂ [l], h₁, h₂.snoc hstep, hold⟩
      · exact .last (hrun.snoc hstep) hnew

/-- **What every access keeps holds of every place**, when it holds of a call that is made. -/
theorem places_of_run (I : σ → π → Prop) {x : σ} {s : System L σ π} {es : List (Label ω ι ε)}
    (hstart : ∀ x op, I x (P.start op))
    (hbody : ∀ {x input p x' p'}, P.body x input p = some (x', p') → I x p → I x' p')
    (hmoves : ∀ {x x' p}, P.Moves x x' → I x p → I x' p) (h : Run P.Steps (.idle x) es s) :
    ∀ c ∈ s.callers, I s.shared c.place := by
  refine h.invariant (fun s => ∀ c ∈ s.callers, I s.shared c.place) (fun c hc => by cases hc) ?_
  intro s l t hs hstep d hd
  obtain ⟨i, hi⟩ := List.getElem?_of_mem hd
  rcases hcaller : s.callers[i]? with _ | c
  · -- the caller has just come
    obtain ⟨op, -, rfl⟩ | ⟨j, input, a, r, -, hj, hexec, rfl⟩ | ⟨e, x, -, hx, rfl⟩ := P.step_cases hstep
    · rcases List.mem_append.1 hd with hd | hd
      · exact hs d hd
      · cases List.mem_singleton.1 hd
        exact hstart _ op
    · have hlen := List.getElem?_eq_none_iff.1 hcaller
      have hlt : i < (s.callers.set j r.2).length := (List.getElem?_eq_some_iff.1 hi).1
      rw [List.length_set] at hlt
      omega
    · rw [show s.callers[i]? = some d from hi] at hcaller
      cases hcaller
  · obtain ⟨d', hd', hcase⟩ := step_caller hstep hcaller
    rw [hi] at hd'
    cases hd'
    have hc := hs c (List.mem_of_getElem? hcaller)
    rcases hcase with ⟨hplace, hsame | hmove⟩ | ⟨input, haccess⟩
    · rw [hplace, hsame]
      exact hc
    · rw [hplace]
      exact hmoves hmove hc
    · exact hbody haccess hc

end Places

section Deadlock

variable [Preorder L]

/-- The segments respect the order of the mutexes and give everything back, and each contains at most
one access, which the program defines. -/
structure WellFormed : Prop where
  disciplined : ∀ p, Disciplined ∅ (P.segment p)
  one_run : ∀ p, (P.segment p).count .run ≤ 1
  defined : ∀ x input p, Instr.run ∈ P.segment p → (P.body x input p).isSome

/-- The code of a caller fits the mutexes it holds and the place it has reached. -/
structure Orderly (c : Caller L π) : Prop where
  disciplined : Disciplined c.held c.code
  count_run : c.code.count .run = (P.segment c.place).count .run

variable {P}

theorem orderly_execute (hP : P.WellFormed) {s : System L σ π} {input : ι} {c : Caller L π}
    {r : σ × Caller L π} (hc : P.Orderly c) (h : P.execute s input c = some r) : P.Orderly r.2 := by
  obtain ⟨hdisc, hrun⟩ := hc
  obtain ⟨m, code, hcode, -, rfl⟩ | ⟨m, code, hcode, -, rfl⟩ | ⟨code, x, p, hcode, -, rfl⟩ :=
    P.execute_cases h
  · rw [hcode] at hdisc hrun
    exact ⟨hdisc.2, by simpa using hrun⟩
  · rw [hcode] at hdisc hrun
    exact ⟨hdisc.2, by simpa using hrun⟩
  · rw [hcode] at hdisc hrun
    refine ⟨Disciplined.append hdisc (hP.disciplined p), ?_⟩
    -- The segment's only access is the one just made.
    have hone := hP.one_run c.place
    have hnone : code.count .run = 0 := by
      rw [List.count_cons_self] at hrun
      omega
    show (code ++ P.segment p).count .run = (P.segment p).count .run
    rw [List.count_append, hnone, Nat.zero_add]

theorem orderly_of_run (hP : P.WellFormed) {x : σ} {s : System L σ π} {es : List (Label ω ι ε)}
    (h : Run P.Steps (.idle x) es s) : ∀ c ∈ s.callers, P.Orderly c := by
  refine h.invariant (fun s => ∀ c ∈ s.callers, P.Orderly c) (fun c hc => by cases hc) ?_
  intro s l t hs hstep c hc
  obtain ⟨op, -, rfl⟩ | ⟨i, input, d, r, -, hi, hexec, rfl⟩ | ⟨e, y, -, -, rfl⟩ := P.step_cases hstep
  · rcases List.mem_append.1 hc with hc | hc
    · exact hs c hc
    · cases List.mem_singleton.1 hc
      exact ⟨hP.disciplined _, rfl⟩
  · rcases List.mem_or_eq_of_mem_set hc with hc | rfl
    · exact hs c hc
    · exact orderly_execute hP (hs d (List.mem_of_getElem? hi)) hexec
  · exact hs c hc

/-- A caller that is neither done nor blocked can execute its next instruction. -/
theorem execute_isSome (hP : P.WellFormed) {s : System L σ π} {c : Caller L π} (hc : P.Orderly c)
    (hne : c.code ≠ []) (hfree : ¬ Blocked s.callers c) (input : ι) :
    (P.execute s input c).isSome := by
  unfold execute
  split
  · rename_i hcode
    exact absurd hcode hne
  · rename_i m code hcode
    have hm : ∀ d ∈ s.callers, m ∉ d.held := fun d hd hheld => hfree ⟨m, code, hcode, d, hd, hheld⟩
    rw [if_pos hm]
    rfl
  · rename_i m code hcode
    have hdisc := hc.disciplined
    rw [hcode] at hdisc
    rw [if_pos hdisc.1]
    rfl
  · rename_i code hcode
    have hrun := hc.count_run
    rw [hcode, List.count_cons_self] at hrun
    have hmem : Instr.run ∈ P.segment c.place := List.count_pos_iff.1 (by omega)
    rw [Option.isSome_map]
    exact hP.defined s.shared input c.place hmem

/-- **No run deadlocks**: a caller with code left never wants a mutex it holds itself, and as long as
there is one, one of them can execute its next instruction. -/
theorem no_deadlock (hP : P.WellFormed) {x : σ} {s : System L σ π} {es : List (Label ω ι ε)}
    (h : Run P.Steps (.idle x) es s) :
    (∀ c ∈ s.callers, ∀ m code, c.code = .lock m :: code → m ∉ c.held) ∧
    ((∃ c ∈ s.callers, c.code ≠ []) →
      ∃ i c, s.callers[i]? = some c ∧ c.code ≠ [] ∧ ∀ input, ∃ t, P.Steps s (.act i input) t) := by
  have horderly := orderly_of_run hP h
  constructor
  · intro c hc m code hcode
    have hdisc := (horderly c hc).disciplined
    rw [hcode] at hdisc
    exact hdisc.notMem_of_lock
  · rintro ⟨c, hc, hne⟩
    obtain ⟨d, hd, hdne, hfree⟩ := exists_unblocked (fun c hc => (horderly c hc).disciplined) hc hne
    obtain ⟨i, hi⟩ := List.getElem?_of_mem hd
    refine ⟨i, d, hi, hdne, fun input => ?_⟩
    obtain ⟨r, hr⟩ := Option.isSome_iff_exists.1 (execute_isSome hP (horderly d hd) hdne hfree input)
    refine ⟨s.advance i r, ?_⟩
    simp only [Steps, step, hi, hr, Option.map_some]

end Deadlock

end Program

end LockOrder
