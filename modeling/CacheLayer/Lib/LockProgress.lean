import CacheLayer.Lib.LockOrder
import CacheLayer.Lib.Potential

/-!
# Callers that take mutexes finish

No deadlock means that somebody can go on; it does not mean that anybody arrives.  Let every access
lower what is left to do, in the shared state and in the place of its call together, and let no segment be
longer than `k` instructions.

* `Program.Costs` — these conditions, and what a call costs when it is made;
* `Program.left_pays` — each instruction, on a mutex or not, then lowers what is left;
* `Program.instructions_le` — so a run has a bounded number of instructions, however often callers wait;
* `Program.exists_finish` — and a program that does not deadlock can be run until all callers are done.
-/

set_option autoImplicit false

namespace LockOrder

variable {L σ π ω ι ε : Type} [DecidableEq L]

/-- An instruction is executed. -/
def Label.isAct : Label ω ι ε → Bool
  | .act _ _ => true
  | _ => false

/-- A call is made. -/
def Label.isCall : Label ω ι ε → Bool
  | .call _ => true
  | _ => false

namespace Program

/-- A segment has at most `k` instructions, an access does some of the work that is left in the shared state
and in the place of its call, nothing outside adds to it, and a call begins with at most `w`. -/
structure Costs (P : Program L σ π ω ι ε) (credit : σ → Nat) (work : π → Nat) (k w : Nat) : Prop where
  segment_le : ∀ p, (P.segment p).length ≤ k
  start_le : ∀ op, work (P.start op) ≤ w
  body_le : ∀ {x input p x' p'}, P.body x input p = some (x', p') →
    credit x' + work p' + 1 ≤ credit x + work p
  external_le : ∀ {x e x'}, P.external x e = some x' → credit x' ≤ credit x

/-- What is left for a caller: the instructions of its segment, and `k` for each later access. -/
def weight (work : π → Nat) (k : Nat) (c : Caller L π) : Nat := c.code.length + k * work c.place

/-- What is left to do in a state. -/
def left (credit : σ → Nat) (work : π → Nat) (k : Nat) (s : System L σ π) : Nat :=
  k * credit s.shared + load (weight work k) s.callers

variable {P : Program L σ π ω ι ε} {credit : σ → Nat} {work : π → Nat} {k w : Nat}

/-- **An instruction lowers what is left** for its caller and in the shared state. -/
theorem execute_left (hP : P.Costs credit work k w) {s : System L σ π} {input : ι} {c : Caller L π}
    {r : σ × Caller L π} (h : P.execute s input c = some r) :
    k * credit r.1 + weight work k r.2 + 1 ≤ k * credit s.shared + weight work k c := by
  obtain ⟨m, code, hcode, -, rfl⟩ | ⟨m, code, hcode, -, rfl⟩ | ⟨code, x, p, hcode, hbody, rfl⟩ :=
    P.execute_cases h
  · simp only [weight, hcode, List.length_cons]
    omega
  · simp only [weight, hcode, List.length_cons]
    omega
  · have hseg := hP.segment_le p
    -- the access pays for the segment that it leads to
    have hpaid : k * (credit x + work p + 1) ≤ k * (credit s.shared + work c.place) :=
      Nat.mul_le_mul_left k (hP.body_le hbody)
    simp only [Nat.mul_add, Nat.mul_one] at hpaid
    simp only [weight, hcode, List.length_cons, List.length_append]
    omega

theorem left_advance (hP : P.Costs credit work k w) {s : System L σ π} {i : Nat} {input : ι}
    {c : Caller L π} {r : σ × Caller L π} (hi : s.callers[i]? = some c)
    (h : P.execute s input c = some r) :
    left credit work k (s.advance i r) + 1 ≤ left credit work k s := by
  have hstep := execute_left hP h
  have hload := load_set (weight work k) hi r.2
  show k * credit r.1 + load (weight work k) (s.callers.set i r.2) + 1 ≤ _
  unfold left
  omega

theorem left_pays (hP : P.Costs credit work k w) :
    Pays P.Steps (left credit work k) Label.isAct (fun l => if l.isCall then k * (w + 1) else 0) := by
  intro s l t hstep
  obtain ⟨op, rfl, rfl⟩ | ⟨i, input, c, r, rfl, hi, hexec, rfl⟩ | ⟨e, x, rfl, hx, rfl⟩ :=
    P.step_cases hstep
  · have hseg := hP.segment_le (P.start op)
    have hwork : k * work (P.start op) ≤ k * w := Nat.mul_le_mul_left k (hP.start_le op)
    have hnew : weight work k (⟨P.start op, P.segment (P.start op), ∅⟩ : Caller L π) =
      (P.segment (P.start op)).length + k * work (P.start op) := rfl
    show k * credit s.shared + load (weight work k) (s.callers ++ [⟨P.start op, _, ∅⟩]) + 0 ≤
      left credit work k s + k * (w + 1)
    rw [load_concat, hnew, Nat.mul_succ]
    unfold left
    omega
  · exact left_advance hP hi hexec
  · have hle : k * credit x ≤ k * credit s.shared := Nat.mul_le_mul_left k (hP.external_le hx)
    show k * credit x + load (weight work k) s.callers + 0 ≤ left credit work k s + 0
    unfold left
    omega

/-- **The calls pay for all instructions**, those that take and drop mutexes included. -/
theorem instructions_le (hP : P.Costs credit work k w) {x : σ} {s : System L σ π}
    {es : List (Label ω ι ε)} (h : Run P.Steps (.idle x) es s) :
    left credit work k s + es.countP Label.isAct ≤
      k * (w + 1) * es.countP Label.isCall + k * credit x := by
  have htotal := (left_pays hP).total h
  have hidle : left credit work k (.idle x : System L σ π) = k * credit x := rfl
  rw [sum_grant, hidle] at htotal
  omega

/-- **Without deadlock all callers can finish**, in no more instructions than are left. -/
theorem exists_finish [Preorder L] [Nonempty ι] (hP : P.Costs credit work k w) (hwf : P.WellFormed)
    {x : σ} {s : System L σ π} {es : List (Label ω ι ε)} (h : Run P.Steps (.idle x) es s) :
    ∃ ls t, Run P.Steps s ls t ∧ (∀ c ∈ t.callers, c.code = []) ∧
      ls.length ≤ left credit work k s ∧ ∀ l ∈ ls, l.isAct = true := by
  obtain ⟨input⟩ : Nonempty ι := inferInstance
  have hgo : ∀ s : System L σ π, (∃ es, Run P.Steps (.idle x) es s) → (¬ ∀ c ∈ s.callers, c.code = []) →
      ∃ l t, Label.isAct l = true ∧ P.Steps s l t ∧ (∃ es, Run P.Steps (.idle x) es t) ∧
        left credit work k t < left credit work k s := by
    rintro s ⟨es, hrun⟩ hbusy
    obtain ⟨c, hc, hcode⟩ : ∃ c ∈ s.callers, c.code ≠ [] := by simpa using hbusy
    obtain ⟨i, d, -, -, hact⟩ := (no_deadlock hwf hrun).2 ⟨c, hc, hcode⟩
    obtain ⟨t, ht⟩ := hact input
    have hpays := left_pays hP s _ t ht
    exact ⟨.act i input, t, rfl, ht, ⟨_, hrun.snoc ht⟩, hpays⟩
  exact Run.exists_final hgo _ s (Nat.le_refl _) ⟨es, h⟩

end Program

end LockOrder
