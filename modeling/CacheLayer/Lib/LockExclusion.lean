import CacheLayer.Lib.LockOrder

/-!
# Exclusion

A mutex is held by one caller at a time, and what it protects belongs to that caller: as long as the mutex
is held, the steps of all others go as if the protected part of the shared state were not there.

* `Exclusive`, `Program.exclusive_of_run` — no two callers hold the same mutex;
* `Program.Sectioned` — the segments are guards around one access; `Program.held_of_access` — so an access
  is made with the mutexes of its section held, and no others;
* `Program.Protects` — what is behind a mutex is not used by sections that do not take it;
  `Program.isolated_run` — then it is neither read nor changed by others while the mutex is held.
-/

set_option autoImplicit false

namespace LockOrder

variable {L σ π ω ι ε : Type}

/-- No two callers hold the same mutex. -/
def Exclusive (callers : List (Caller L π)) : Prop :=
  ∀ ⦃i j : Nat⦄ ⦃c d : Caller L π⦄ ⦃m : L⦄,
    callers[i]? = some c → callers[j]? = some d → m ∈ c.held → m ∈ d.held → i = j

namespace Exclusive

variable {callers : List (Caller L π)}

theorem concat (h : Exclusive callers) {c : Caller L π} (hc : c.held = ∅) :
    Exclusive (callers ++ [c]) := by
  have hold : ∀ {i : Nat} {d : Caller L π} {m : L}, (callers ++ [c])[i]? = some d → m ∈ d.held →
      callers[i]? = some d := by
    intro i d m hi hm
    rcases Nat.lt_or_ge i callers.length with hlt | hge
    · rwa [List.getElem?_append_left hlt] at hi
    · rw [List.getElem?_append_right hge] at hi
      rw [List.mem_singleton.1 (List.mem_of_getElem? hi), hc] at hm
      exact absurd hm (Finset.notMem_empty m)
  intro i j a b m hi hj ha hb
  exact h (hold hi ha) (hold hj hb) ha hb

/-- A caller keeps mutexes that it holds, or takes some that nobody holds. -/
theorem set (h : Exclusive callers) {i : Nat} {c c' : Caller L π} (hi : callers[i]? = some c)
    (hheld : ∀ m ∈ c'.held, m ∈ c.held ∨ ∀ d ∈ callers, m ∉ d.held) :
    Exclusive (callers.set i c') := by
  have hother : ∀ {k : Nat} {e : Caller L π} {m : L}, callers[k]? = some e → m ∈ c'.held →
      m ∈ e.held → i = k := by
    intro k e m hk hm he
    rcases hheld m hm with hc | hfree
    · exact h hi hk hc he
    · exact absurd he (hfree e (List.mem_of_getElem? hk))
  have hself : ∀ {d : Caller L π}, (callers.set i c')[i]? = some d → d = c' := by
    intro d hd
    rw [List.getElem?_set_self (List.getElem?_eq_some_iff.1 hi).1] at hd
    exact (Option.some.inj hd).symm
  intro j k d e m hj hk hd he
  by_cases hij : i = j
  · subst hij
    obtain rfl := hself hj
    by_cases hik : i = k
    · exact hik
    · rw [List.getElem?_set_ne hik] at hk
      exact hother hk hd he
  · rw [List.getElem?_set_ne hij] at hj
    by_cases hik : i = k
    · subst hik
      obtain rfl := hself hk
      exact (hother hj he hd).symm
    · rw [List.getElem?_set_ne hik] at hk
      exact h hj hk hd he

end Exclusive

variable [DecidableEq L]

namespace Program

variable {P : Program L σ π ω ι ε} {x : σ} {s t : System L σ π} {es : List (Label ω ι ε)}

theorem exclusive_step {l : Label ω ι ε} (h : Exclusive s.callers) (hstep : P.Steps s l t) :
    Exclusive t.callers := by
  obtain ⟨op, -, rfl⟩ | ⟨i, input, c, r, -, hi, hexec, rfl⟩ | ⟨e, y, -, -, rfl⟩ := P.step_cases hstep
  · exact h.concat rfl
  · refine h.set hi fun m hm => ?_
    obtain ⟨m', code, -, hfree, rfl⟩ | ⟨m', code, -, -, rfl⟩ | ⟨code, y, p, -, -, rfl⟩ :=
      P.execute_cases hexec
    · rcases Finset.mem_insert.1 hm with rfl | hm
      · exact Or.inr hfree
      · exact Or.inl hm
    · exact Or.inl (Finset.mem_of_mem_erase hm)
    · exact Or.inl hm
  · exact h

/-- **A mutex is held by one caller at a time.** -/
theorem exclusive_of_run (h : Run P.Steps (.idle x) es s) : Exclusive s.callers :=
  h.invariant (fun s => Exclusive s.callers) (fun _ _ _ _ _ hi => by cases hi) fun _ _ _ h hstep =>
    exclusive_step h hstep

/-! ### Sections -/

/-- Each segment is empty, or an access under guards. -/
def Sectioned (P : Program L σ π ω ι ε) (mutexes : π → List L) : Prop :=
  ∀ p, P.segment p = [] ∨ P.segment p = bracketed (mutexes p)

omit [DecidableEq L] in
/-- What comes after the access of a section. -/
theorem after_access {ms : List L} {code : List (Instr L)} (h : .run :: code <:+ bracketed ms) :
    code = ms.reverse.map .unlock := by
  obtain ⟨pre, hpre⟩ := h
  have hlock : Instr.run ∉ ms.map Instr.lock := by simp
  have hunlock : Instr.run ∉ ms.reverse.map Instr.unlock := by simp
  have hsplit := (List.append_cons_inj_of_notMem hlock hunlock).1 hpre.symm
  exact hsplit.2.2.symm

/-- What is left of the code of a caller: guards of the last section that are still to be dropped, and
then the end of its segment. -/
def Staged (P : Program L σ π ω ι ε) (c : Caller L π) : Prop :=
  ∃ (ms : List L) (rest : List (Instr L)), c.code = ms.map .unlock ++ rest ∧ rest <:+ P.segment c.place

variable {mutexes : π → List L}

omit [DecidableEq L] in
theorem Staged.access {c : Caller L π} {code : List (Instr L)} (hP : P.Sectioned mutexes)
    (h : P.Staged c) (hcode : c.code = .run :: code) :
    code = (mutexes c.place).reverse.map .unlock := by
  obtain ⟨ms, rest, hc, hrest⟩ := h
  rw [hcode] at hc
  cases ms with
  | cons m ms => cases hc
  | nil =>
    obtain rfl : .run :: code = rest := hc
    rcases hP c.place with hnil | hsection
    · rw [hnil] at hrest
      exact absurd (List.suffix_nil.1 hrest) (List.cons_ne_nil _ _)
    · rw [hsection] at hrest
      exact after_access hrest

theorem staged_execute {input : ι} {c : Caller L π} {r : σ × Caller L π} (hP : P.Sectioned mutexes)
    (h : P.Staged c) (hexec : P.execute s input c = some r) : P.Staged r.2 := by
  obtain ⟨m, code, hcode, -, rfl⟩ | ⟨m, code, hcode, -, rfl⟩ | ⟨code, y, p, hcode, -, rfl⟩ :=
    P.execute_cases hexec
  · obtain ⟨ms, rest, hc, hrest⟩ := h
    rw [hcode] at hc
    cases ms with
    | cons m' ms => cases hc
    | nil => exact ⟨[], code, rfl, (List.suffix_cons (.lock m) code).trans (hc ▸ hrest)⟩
  · obtain ⟨ms, rest, hc, hrest⟩ := h
    rw [hcode] at hc
    cases ms with
    | cons m' ms =>
      cases hc
      exact ⟨ms, rest, rfl, hrest⟩
    | nil => exact ⟨[], code, rfl, (List.suffix_cons (.unlock m) code).trans (hc ▸ hrest)⟩
  · exact ⟨_, P.segment p, by rw [← h.access hP hcode], List.suffix_rfl⟩

theorem staged_of_run (hP : P.Sectioned mutexes) (h : Run P.Steps (.idle x) es s) :
    ∀ c ∈ s.callers, P.Staged c := by
  refine h.invariant (fun s => ∀ c ∈ s.callers, P.Staged c) (fun c hc => by cases hc) ?_
  intro s l t hs hstep c hc
  obtain ⟨op, -, rfl⟩ | ⟨i, input, d, r, -, hi, hexec, rfl⟩ | ⟨e, y, -, -, rfl⟩ := P.step_cases hstep
  · rcases List.mem_append.1 hc with hc | hc
    · exact hs c hc
    · cases List.mem_singleton.1 hc
      exact ⟨[], _, rfl, List.suffix_rfl⟩
  · rcases List.mem_or_eq_of_mem_set hc with hc | rfl
    · exact hs c hc
    · exact staged_execute hP (hs d (List.mem_of_getElem? hi)) hexec
  · exact hs c hc

variable [Preorder L]

/-- Code that only drops guards drops all that are held. -/
theorem held_of_unlocks : ∀ {ms : List L} {held : Finset L},
    Disciplined held (ms.map .unlock) → held = ms.toFinset
  | [], _, h => h
  | m :: ms, held, h => by
    have herase : held.erase m = ms.toFinset := held_of_unlocks h.2
    rw [List.toFinset_cons, ← herase, Finset.insert_erase h.1]

/-- **An access is made under the mutexes of its section**, and no others. -/
theorem held_of_access (hwf : P.WellFormed) (hP : P.Sectioned mutexes)
    (h : Run P.Steps (.idle x) es s) {c : Caller L π} {code : List (Instr L)} (hc : c ∈ s.callers)
    (hcode : c.code = .run :: code) : c.held = (mutexes c.place).toFinset := by
  have hdisc := (orderly_of_run hwf h c hc).disciplined
  rw [hcode, (staged_of_run hP h c hc).access hP hcode] at hdisc
  rw [held_of_unlocks hdisc, List.toFinset_reverse]

/-! ### What a mutex protects -/

/-- `graft m y x` is `x` with the part that `m` protects taken from `y`.  A section that does not take `m`,
and what happens outside, go the same way whatever that part is, and leave it as it is. -/
structure Protects (P : Program L σ π ω ι ε) (mutexes : π → List L) (graft : L → σ → σ → σ) :
    Prop where
  self : ∀ m x, graft m x x = x
  body : ∀ {m y x input p}, m ∉ mutexes p →
    P.body (graft m y x) input p = (P.body x input p).map fun r => (graft m y r.1, r.2)
  external : ∀ {m y x e}, P.external (graft m y x) e = (P.external x e).map (graft m y)

/-- The system, with the part that `m` protects taken from `y`. -/
def splice (graft : L → σ → σ → σ) (m : L) (y : σ) (s : System L σ π) : System L σ π :=
  ⟨graft m y s.shared, s.callers⟩

variable {graft : L → σ → σ → σ} {m : L}

omit [Preorder L] in
theorem execute_splice (hg : P.Protects mutexes graft) {c : Caller L π} {input : ι}
    (hc : ∀ code, c.code = .run :: code → m ∉ mutexes c.place) (y : σ) :
    P.execute (splice graft m y s) input c =
      (P.execute s input c).map fun r => (graft m y r.1, r.2) := by
  cases hcode : c.code with
  | nil => simp only [execute, hcode, Option.map_none]
  | cons i code =>
    cases i with
    | lock m' =>
      by_cases hfree : ∀ d ∈ s.callers, m' ∉ d.held
      · simp only [execute, hcode, if_pos hfree, Option.map_some]
        exact if_pos hfree
      · simp only [execute, hcode, if_neg hfree, Option.map_none]
        exact if_neg hfree
    | unlock m' =>
      by_cases hheld : m' ∈ c.held
      · simp only [execute, hcode, splice, if_pos hheld, Option.map_some]
      · simp only [execute, hcode, splice, if_neg hheld, Option.map_none]
    | run =>
      simp only [execute, hcode, splice, hg.body (hc code hcode), Option.map_map]
      rfl

omit [Preorder L] in
/-- A step of a caller that does not take `m`, or of what is outside, is the same step whatever stands
behind `m`. -/
theorem steps_splice (hg : P.Protects mutexes graft) {l : Label ω ι ε}
    (hreach : ∀ i input c code, l = .act i input → s.callers[i]? = some c → c.code = .run :: code →
      m ∉ mutexes c.place) (hstep : P.Steps s l t) (y : σ) :
    P.Steps (splice graft m y s) l (splice graft m y t) := by
  obtain ⟨op, rfl, rfl⟩ | ⟨i, input, c, r, rfl, hi, hexec, rfl⟩ | ⟨e, z, rfl, hz, rfl⟩ :=
    P.step_cases hstep
  · rfl
  · have hi' : (splice graft m y s).callers[i]? = some c := hi
    have hexec' : P.execute (splice graft m y s) input c =
        (P.execute s input c).map fun r => (graft m y r.1, r.2) :=
      execute_splice hg (fun code => hreach i input c code rfl hi) y
    simp only [Steps, step, hi', hexec', hexec, Option.map_some]
    rfl
  · have hz' : P.external (graft m y s.shared) e = some (graft m y z) := by rw [hg.external, hz]; rfl
    show (P.external (graft m y s.shared) e).map _ = _
    rw [hz']
    rfl

omit [Preorder L] in
/-- A caller stays as it is while others take their steps. -/
theorem caller_of_other {l : Label ω ι ε} {i : Nat} {c : Caller L π} (hi : s.callers[i]? = some c)
    (hl : ∀ input, l ≠ .act i input) (hstep : P.Steps s l t) : t.callers[i]? = some c := by
  obtain ⟨op, -, rfl⟩ | ⟨j, input, d, r, rfl, -, -, rfl⟩ | ⟨e, z, -, -, rfl⟩ := P.step_cases hstep
  · show (s.callers ++ _)[i]? = some c
    rw [List.getElem?_append_left (List.getElem?_eq_some_iff.1 hi).1, hi]
  · have hij : j ≠ i := by
      rintro rfl
      exact hl input rfl
    exact (List.getElem?_set_ne hij).trans hi
  · exact hi

/-- **A guard isolates.**  While a caller holds `m` and executes nothing, the others can take the same steps
whatever stands behind `m`, and what stands there does not change. -/
theorem isolated_run (hwf : P.WellFormed) (hP : P.Sectioned mutexes) (hg : P.Protects mutexes graft)
    (h : Run P.Steps (.idle x) es s) {i : Nat} {c : Caller L π} (hi : s.callers[i]? = some c)
    (hm : m ∈ c.held) {ls : List (Label ω ι ε)} (hls : ∀ l ∈ ls, ∀ input, l ≠ .act i input)
    (hrun : Run P.Steps s ls t) :
    t.callers[i]? = some c ∧ graft m s.shared t.shared = t.shared ∧
      ∀ y, Run P.Steps (splice graft m y s) ls (splice graft m y t) := by
  induction hrun with
  | nil => exact ⟨hi, hg.self m s.shared, fun y => .nil⟩
  | @snoc ls u l t hrun hstep ih =>
    obtain ⟨hu, hsame, hruns⟩ := ih fun l' hl' => hls l' (List.mem_append_left _ hl')
    have hreached := h.append hrun
    -- whoever makes an access holds the mutexes of its section, and `m` is not among them
    have hreach : ∀ j input d code, l = .act j input → u.callers[j]? = some d →
        d.code = .run :: code → m ∉ mutexes d.place := by
      rintro j input d code rfl hj hcode hmem
      have hheld : d.held = (mutexes d.place).toFinset :=
        held_of_access hwf hP hreached (List.mem_of_getElem? hj) hcode
      have hmd : m ∈ d.held := by rw [hheld]; exact List.mem_toFinset.2 hmem
      obtain rfl : j = i := exclusive_of_run hreached hj hu hmd hm
      exact hls _ (List.mem_append_right _ List.mem_cons_self) input rfl
    have hsteps := steps_splice hg hreach hstep
    have hl : ∀ input, l ≠ .act i input := hls l (List.mem_append_right _ List.mem_cons_self)
    refine ⟨caller_of_other hu hl hstep, ?_, fun y => (hruns y).snoc (hsteps y)⟩
    have hback : splice graft m s.shared u = u := by rw [splice, hsame]
    have hown := hsteps s.shared
    rw [hback] at hown
    have heq : splice graft m s.shared t = t := Option.some.inj (hown.symm.trans hstep)
    exact congrArg System.shared heq

end Program

end LockOrder
