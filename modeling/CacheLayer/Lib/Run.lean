/-!
# Runs of a labelled transition relation

`Run R s₀ es s`: starting in `s₀`, the relation `R` takes the events `es`, in order, to `s`.  Events
are appended at the end, so an induction on a run has the history so far and the state it led to.

* `Run.invariant` — what every step preserves holds in every state of a run;
* `Guarded C R` — the steps of `R` whose state and event meet `C`; a run of it is a run whose steps
  all meet the condition (`Run.of_guarded`, `Run.mono`);
* `Run.append`, `Run.cons`, `Run.split` — runs compose and decompose;
* `Run.simulate` — if every step from related states is matched, so is every run;
* `play` / `Run.of_play`, `Run.script` / `Run.of_script` — runs of a partial step function, and of a total
  one that computes its own events, can be computed;
* `Passes R P s₀ es s` — the run passes through a state that satisfies `P`;
* `Ghost f R` — the steps of `R` beside a value that they update and do not read;
* `Landing P R` — the steps of `R` that end in `P`, so that a run of it stays in `P`;
  `run_landing_iff` — when a step from `P` returns to `P` exactly if it meets `C`, the runs that stay
  in `P` are the runs whose steps all meet `C`.
-/

set_option autoImplicit false

/-- From `s₀` through the events `es` to a state. -/
inductive Run {σ ε : Type} (R : σ → ε → σ → Prop) (s₀ : σ) : List ε → σ → Prop
  | nil : Run R s₀ [] s₀
  | snoc {es : List ε} {s : σ} {e : ε} {t : σ} : Run R s₀ es s → R s e t → Run R s₀ (es ++ [e]) t

/-- The steps of `R` that meet `C`. -/
def Guarded {σ ε : Type} (C : σ → ε → Prop) (R : σ → ε → σ → Prop) : σ → ε → σ → Prop :=
  fun s e t => C s e ∧ R s e t

/-- The steps of `R` that lead into `P`: a run of them stays in `P` throughout. -/
def Landing {σ ε : Type} (P : σ → Prop) (R : σ → ε → σ → Prop) : σ → ε → σ → Prop :=
  fun s e t => R s e t ∧ P t

/-- The steps of `R` beside a value that `f` updates and no step reads. -/
def Ghost {σ ε γ : Type} (f : σ → ε → γ → γ) (R : σ → ε → σ → Prop) : σ × γ → ε → σ × γ → Prop :=
  fun p e q => R p.1 e q.1 ∧ q.2 = f p.1 e p.2

/-- Fold a partial step function over a list of labels. -/
def play {σ ε : Type} (step : σ → ε → Option σ) : σ → List ε → Option σ
  | s, [] => some s
  | s, e :: es =>
    match step s e with
    | some t => play step t es
    | none => none

/-- An event of a history is its last one, or lies in the history before it. -/
theorem snoc_eq_split {ε : Type} {es pre post : List ε} {e q : ε} (h : es ++ [e] = pre ++ q :: post) :
    (pre = es ∧ q = e ∧ post = []) ∨ ∃ post', post = post' ++ [e] ∧ es = pre ++ q :: post' := by
  rcases List.eq_nil_or_concat post with rfl | ⟨post', e', rfl⟩
  · obtain ⟨rfl, he⟩ := List.append_inj' h rfl
    cases he
    exact Or.inl ⟨rfl, rfl, rfl⟩
  · rw [List.concat_eq_append, ← List.cons_append, ← List.append_assoc] at h
    obtain ⟨rfl, he⟩ := List.append_inj' h rfl
    cases he
    exact Or.inr ⟨post', List.concat_eq_append, rfl⟩

namespace Run

variable {σ ε : Type} {R R' : σ → ε → σ → Prop} {s₀ s t : σ} {es es' : List ε}

/-- **What every step preserves holds in every state of a run.** -/
theorem invariant (I : σ → Prop) (h₀ : I s₀) (hstep : ∀ s e t, I s → R s e t → I t)
    (h : Run R s₀ es s) : I s := by
  induction h with
  | nil => exact h₀
  | snoc _ hr ih => exact hstep _ _ _ ih hr

theorem mono (hR : ∀ s e t, R s e t → R' s e t) (h : Run R s₀ es s) : Run R' s₀ es s := by
  induction h with
  | nil => exact .nil
  | snoc _ hr ih => exact ih.snoc (hR _ _ _ hr)

theorem of_guarded {C : σ → ε → Prop} (h : Run (Guarded C R) s₀ es s) : Run R s₀ es s :=
  h.mono fun _ _ _ hr => hr.2

theorem guarded_and {C D : σ → ε → Prop} (h : Run (Guarded (fun s e => C s e ∧ D s e) R) s₀ es s) :
    Run (Guarded C (Guarded D R)) s₀ es s :=
  h.mono fun _ _ _ hr => ⟨hr.1.1, hr.1.2, hr.2⟩

/-- **A forward simulation carries runs over**, with the same events. -/
theorem simulate {τ : Type} {S : τ → ε → τ → Prop} (Rel : σ → τ → Prop) {t₀ : τ} (h₀ : Rel s₀ t₀)
    (hstep : ∀ s e s' t, Rel s t → R s e s' → ∃ t', S t e t' ∧ Rel s' t') (h : Run R s₀ es s) :
    ∃ t, Run S t₀ es t ∧ Rel s t := by
  induction h with
  | nil => exact ⟨t₀, .nil, h₀⟩
  | snoc _ hr ih =>
    obtain ⟨t, hrun, hrel⟩ := ih
    obtain ⟨t', ht, hrel'⟩ := hstep _ _ _ t hrel hr
    exact ⟨t', hrun.snoc ht, hrel'⟩

/-- A run whose events all satisfy `C` is a run of guarded steps. -/
theorem guarded_of_forall {C : ε → Prop} (h : Run R s₀ es s) (hC : ∀ e ∈ es, C e) :
    Run (Guarded (fun _ e => C e) R) s₀ es s := by
  induction h with
  | nil => exact .nil
  | @snoc es s e t _ hr ih =>
    refine (ih fun e' he' => hC e' ?_).snoc ⟨hC e ?_, hr⟩
    · simp [he']
    · simp

/-- An invariant guards every step of a run. -/
theorem guarded_of_invariant (I : σ → Prop) (h₀ : I s₀) (hstep : ∀ s e t, I s → R s e t → I t)
    (h : Run R s₀ es s) : Run (Guarded (fun s _ => I s) R) s₀ es s := by
  induction h with
  | nil => exact .nil
  | snoc h hr ih => exact ih.snoc ⟨h.invariant I h₀ hstep, hr⟩

/-- Every run has one beside it that keeps the ghost value. -/
theorem ghost {γ : Type} (f : σ → ε → γ → γ) (g₀ : γ) (h : Run R s₀ es s) :
    ∃ g, Run (Ghost f R) (s₀, g₀) es (s, g) := by
  induction h with
  | nil => exact ⟨g₀, .nil⟩
  | @snoc es s e t _ hr ih =>
    obtain ⟨g, hg⟩ := ih
    exact ⟨f s e g, hg.snoc ⟨hr, rfl⟩⟩

theorem append (h : Run R s₀ es s) (h' : Run R s es' t) : Run R s₀ (es ++ es') t := by
  induction h' with
  | nil => simpa using h
  | snoc _ hr ih => rw [← List.append_assoc]; exact ih.snoc hr

/-- **A forward simulation that matches a step by a run** carries runs over. -/
theorem simulate_runs {τ φ : Type} {S : τ → φ → τ → Prop} (Rel : σ → τ → Prop) {t₀ : τ}
    (h₀ : Rel s₀ t₀)
    (hstep : ∀ s e s' t, Rel s t → R s e s' → ∃ fs t', Run S t fs t' ∧ Rel s' t') (h : Run R s₀ es s) :
    ∃ fs t, Run S t₀ fs t ∧ Rel s t := by
  induction h with
  | nil => exact ⟨[], t₀, .nil, h₀⟩
  | snoc _ hr ih =>
    obtain ⟨fs, t, hrun, hrel⟩ := ih
    obtain ⟨fs', t', hrun', hrel'⟩ := hstep _ _ _ t hrel hr
    exact ⟨fs ++ fs', t', hrun.append hrun', hrel'⟩

theorem single {e : ε} (hr : R s e t) : Run R s [e] t :=
  show Run R s ([] ++ [e]) t from .snoc .nil hr

theorem cons {e : ε} (hr : R s₀ e s) (h : Run R s es t) : Run R s₀ (e :: es) t :=
  (single hr).append h

/-- The last step of a run. -/
theorem snoc_inv {e : ε} (h : Run R s₀ (es ++ [e]) t) : ∃ s, Run R s₀ es s ∧ R s e t := by
  generalize he : es ++ [e] = es' at h
  cases h with
  | nil => simp at he
  | snoc h hr =>
    obtain ⟨rfl, heq⟩ := List.append_inj' he rfl
    cases heq
    exact ⟨_, h, hr⟩

theorem split (h : Run R s₀ (es ++ es') t) : ∃ s, Run R s₀ es s ∧ Run R s es' t := by
  generalize hes : es ++ es' = l at h
  induction h generalizing es' with
  | nil =>
    obtain ⟨rfl, rfl⟩ := List.append_eq_nil_iff.1 hes
    exact ⟨_, .nil, .nil⟩
  | @snoc fs s e t h hr ih =>
    rcases List.eq_nil_or_concat es' with rfl | ⟨fs', f, rfl⟩
    · rw [List.append_nil] at hes; subst hes
      exact ⟨_, h.snoc hr, .nil⟩
    · rw [List.concat_eq_append, ← List.append_assoc] at hes
      obtain ⟨hfs, hf⟩ := List.append_inj' hes rfl
      cases hf
      obtain ⟨u, h₁, h₂⟩ := ih hfs
      exact ⟨u, h₁, by rw [List.concat_eq_append]; exact h₂.snoc hr⟩

theorem nil_inv (h : Run R s₀ [] t) : t = s₀ := by
  generalize he : ([] : List ε) = es at h
  cases h with
  | nil => rfl
  | snoc _ _ => simp at he

/-- The first step of a run. -/
theorem cons_inv {e : ε} (h : Run R s₀ (e :: es) t) : ∃ s, R s₀ e s ∧ Run R s es t := by
  obtain ⟨s, h₁, h₂⟩ : ∃ s, Run R s₀ [e] s ∧ Run R s es t := split h
  obtain ⟨s', h₀, hr⟩ : ∃ s', Run R s₀ [] s' ∧ R s' e s := snoc_inv h₁
  rw [nil_inv h₀] at hr
  exact ⟨s, hr, h₂⟩

/-- A computed run is a run. -/
theorem of_play {step : σ → ε → Option σ} :
    ∀ {es : List ε} {s t : σ}, play step s es = some t → Run (fun s e t => step s e = some t) s es t
  | [], s, t, h => by cases h; exact .nil
  | e :: es, s, t, h => by
    unfold play at h
    split at h
    · rename_i u hu
      exact cons hu (of_play h)
    · cases h

/-- A run computed with the condition tested before every step meets the condition. -/
theorem of_play_guarded {C : σ → ε → Prop} [∀ s e, Decidable (C s e)] {step : σ → ε → Option σ}
    (h : play (fun s e => if C s e then step s e else none) s es = some t) :
    Run (Guarded C fun s e t => step s e = some t) s es t := by
  refine (of_play h).mono fun s e t hst => ?_
  split at hst
  · rename_i hc
    exact ⟨hc, hst⟩
  · cases hst

/-- The run passes through a state that satisfies `P`. -/
def Passes (R : σ → ε → σ → Prop) (P : σ → Prop) (s₀ : σ) (es : List ε) (s : σ) : Prop :=
  ∃ es₁ es₂ m, es = es₁ ++ es₂ ∧ Run R s₀ es₁ m ∧ Run R m es₂ s ∧ P m

namespace Passes

variable {P Q : σ → Prop}

/-- The last state of a run is one that it passes. -/
theorem last (h : Run R s₀ es s) (hP : P s) : Passes R P s₀ es s :=
  ⟨es, [], s, (List.append_nil es).symm, h, .nil, hP⟩

theorem snoc {e : ε} (h : Passes R P s₀ es s) (hr : R s e t) : Passes R P s₀ (es ++ [e]) t := by
  obtain ⟨es₁, es₂, m, rfl, h₁, h₂, hP⟩ := h
  exact ⟨es₁, es₂ ++ [e], m, List.append_assoc es₁ es₂ [e], h₁, h₂.snoc hr, hP⟩

/-- What follows from `P` in a state on the way holds in a state on the way. -/
theorem imp (hPQ : ∀ es₁ es₂ m, Run R s₀ es₁ m → Run R m es₂ s → P m → Q m)
    (h : Passes R P s₀ es s) : Passes R Q s₀ es s := by
  obtain ⟨es₁, es₂, m, hes, h₁, h₂, hP⟩ := h
  exact ⟨es₁, es₂, m, hes, h₁, h₂, hPQ es₁ es₂ m h₁ h₂ hP⟩

end Passes

/-- The events and the last state of a run that takes the inputs in order. -/
def script {ι : Type} (event : σ → ι → ε) (next : σ → ι → σ) : σ → List ι → List ε × σ
  | s, [] => ([], s)
  | s, i :: is => (event s i :: (script event next (next s i) is).1, (script event next (next s i) is).2)

theorem script_snoc {ι : Type} (event : σ → ι → ε) (next : σ → ι → σ) :
    ∀ (is : List ι) (s : σ) (i : ι), script event next s (is ++ [i]) =
      ((script event next s is).1 ++ [event (script event next s is).2 i],
        next (script event next s is).2 i)
  | [], _, _ => rfl
  | j :: is, s, i => by
    simp only [List.cons_append, script, script_snoc event next is (next s j) i]

/-- Each input is allowed in the state it is taken in. -/
def Admits {ι : Type} (ok : σ → ι → Prop) (next : σ → ι → σ) : σ → List ι → Prop
  | _, [] => True
  | s, i :: is => ok s i ∧ Admits ok next (next s i) is

instance decidableAdmits {ι : Type} (ok : σ → ι → Prop) [∀ s i, Decidable (ok s i)]
    (next : σ → ι → σ) : ∀ (s : σ) (is : List ι), Decidable (Admits ok next s is)
  | _, [] => isTrue trivial
  | s, i :: is =>
    have := decidableAdmits ok next (next s i) is
    inferInstanceAs (Decidable (ok s i ∧ Admits ok next (next s i) is))

/-- A script of allowed inputs is a run. -/
theorem of_script {ι : Type} {ok : σ → ι → Prop} {event : σ → ι → ε} {next : σ → ι → σ}
    (hR : ∀ s i, ok s i → R s (event s i) (next s i)) :
    ∀ (is : List ι) (s : σ), Admits ok next s is →
      Run R s (script event next s is).1 (script event next s is).2
  | [], _, _ => .nil
  | i :: is, s, h => cons (hR s i h.1) (of_script hR is (next s i) h.2)

end Run

/-- If, in states that satisfy `I` and `P`, a step leads back into `P` exactly when it meets `C`, then
a run from such a state stays in `P` throughout exactly when all its steps meet `C`. -/
theorem run_landing_iff {σ ε : Type} {R : σ → ε → σ → Prop} {C : σ → ε → Prop} (I P : σ → Prop)
    {s₀ : σ} (hI₀ : I s₀) (hP₀ : P s₀) (hI : ∀ s e t, I s → R s e t → I t)
    (hP : ∀ s e t, I s → P s → R s e t → (P t ↔ C s e)) {es : List ε} {s : σ} :
    Run (Landing P R) s₀ es s ↔ Run (Guarded C R) s₀ es s := by
  constructor
  · intro h
    induction h with
    | nil => exact .nil
    | @snoc es s e t h hr ih =>
      have hs : I s ∧ P s := h.invariant (fun s => I s ∧ P s) ⟨hI₀, hP₀⟩
        fun s e t hi hr => ⟨hI s e t hi.1 hr.1, hr.2⟩
      exact ih.snoc ⟨(hP s e t hs.1 hs.2 hr.1).1 hr.2, hr.1⟩
  · intro h
    induction h with
    | nil => exact .nil
    | @snoc es s e t _ hr ih =>
      have hs : I s ∧ P s := ih.invariant (fun s => I s ∧ P s) ⟨hI₀, hP₀⟩
        fun s e t hi hr => ⟨hI s e t hi.1 hr.1, hr.2⟩
      exact ih.snoc ⟨hr.2, (hP s e t hs.1 hs.2 hr.2).2 hr.1⟩
