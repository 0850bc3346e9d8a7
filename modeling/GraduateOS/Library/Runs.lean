import Mathlib.Data.List.Induction

namespace GraduateOS.Library.Runs

variable {S A : Type}

/-- A finite run of a partial step function. The guard sees the actions already
taken, so it can restrict a run by its history as well as by its states. -/
inductive Run (step : S → A → Option S) (allowed : List A → S → A → Prop) (s₀ : S) :
    List A → S → Prop
  | start : Run step allowed s₀ [] s₀
  | next {acts s a s'} : Run step allowed s₀ acts s → allowed acts s a → step s a = some s' →
      Run step allowed s₀ (acts ++ [a]) s'

def anyStep : List A → S → A → Prop := fun _ _ _ => True

instance (history : List A) (s : S) (a : A) : Decidable (anyStep history s a) := .isTrue trivial

def execFrom (step : S → A → Option S) (allowed : List A → S → A → Prop)
    [∀ history s a, Decidable (allowed history s a)] (history : List A) (s : S) : List A → Option S
  | [] => some s
  | a :: acts =>
      if allowed history s a then
        (step s a).bind (fun s' => execFrom step allowed (history ++ [a]) s' acts)
      else none

def exec (step : S → A → Option S) (allowed : List A → S → A → Prop)
    [∀ history s a, Decidable (allowed history s a)] (s : S) (acts : List A) : Option S :=
  execFrom step allowed [] s acts

variable {step : S → A → Option S} {allowed allowed' : List A → S → A → Prop} {s₀ s s' : S}
  {acts : List A}

/-- An invariant of the history and the state that one allowed step preserves
holds at the end of every allowed run. -/
theorem Run.invariant {I : List A → S → Prop} (h : Run step allowed s₀ acts s) (hstart : I [] s₀)
    (hstep : ∀ acts s a s', I acts s → allowed acts s a → step s a = some s' → I (acts ++ [a]) s') :
    I acts s := by
  induction h with
  | start => exact hstart
  | next _ ha hs ih => exact hstep _ _ _ _ ih ha hs

theorem Run.stateInvariant {I : S → Prop} (h : Run step allowed s₀ acts s) (hstart : I s₀)
    (hstep : ∀ acts s a s', I s → allowed acts s a → step s a = some s' → I s') : I s :=
  h.invariant (I := fun _ s => I s) hstart (fun acts s a s' => hstep acts s a s')

/-- When every step from a state of the invariant lowers a measure, runs are
no longer than the measure of their first state. -/
theorem Run.length_le {I : S → Prop} (μ : S → Nat) (h : Run step allowed s₀ acts s) (hstart : I s₀)
    (hstep : ∀ acts s a s', I s → allowed acts s a → step s a = some s' → I s' ∧ μ s' < μ s) :
    acts.length + μ s ≤ μ s₀ := by
  have hall : I s ∧ acts.length + μ s ≤ μ s₀ := by
    apply h.invariant (I := fun acts s => I s ∧ acts.length + μ s ≤ μ s₀)
    · exact ⟨hstart, by simp⟩
    · intro acts s a s' hi ha hs
      obtain ⟨hi', hlt⟩ := hstep acts s a s' hi.1 ha hs
      refine ⟨hi', ?_⟩
      have hle := hi.2
      simp only [List.length_append, List.length_singleton]
      omega
  exact hall.2

def observed {E : Type} (step : S → A → Option S) (observe : S → A → List E) (s₀ : S)
    (acts : List A) :
    Option S × List E :=
  acts.foldl (fun p a => (p.1.bind (step · a), p.2 ++ (p.1.map (observe · a)).getD [])) (some s₀, [])

theorem Run.observed_state {E : Type} (observe : S → A → List E) (h : Run step allowed s₀ acts s) :
    (observed step observe s₀ acts).1 = some s := by
  induction h with
  | start => rfl
  | next _ _ hs ih =>
      simp only [observed, List.foldl_append, List.foldl_cons, List.foldl_nil] at ih ⊢
      rw [ih, Option.bind_some, hs]

theorem Run.observedInvariant {E : Type} {observe : S → A → List E} {I : List E → S → Prop}
    (h : Run step allowed s₀ acts s) (hstart : I [] s₀)
    (hstep : ∀ es acts s a s', I es s → allowed acts s a → step s a = some s' →
      I (es ++ observe s a) s') :
    I (observed step observe s₀ acts).2 s := by
  induction h with
  | start => exact hstart
  | next hrun ha hs ih =>
      have hstate := hrun.observed_state observe
      have hi := hstep _ _ _ _ _ ih ha hs
      simp only [observed, List.foldl_append, List.foldl_cons, List.foldl_nil] at hstate hi ⊢
      rw [hstate, Option.map_some, Option.getD_some]
      exact hi

/-- The same for an invariant that also sees the actions. -/
theorem Run.observedHistory {E : Type} {observe : S → A → List E} {I : List A → List E → S → Prop}
    (h : Run step allowed s₀ acts s) (hstart : I [] [] s₀)
    (hstep : ∀ acts es s a s', I acts es s → allowed acts s a → step s a = some s' →
      I (acts ++ [a]) (es ++ observe s a) s') :
    I acts (observed step observe s₀ acts).2 s := by
  induction h with
  | start => exact hstart
  | next hrun ha hs ih =>
      have hstate := hrun.observed_state observe
      have hi := hstep _ _ _ _ _ ih ha hs
      simp only [observed, List.foldl_append, List.foldl_cons, List.foldl_nil] at hstate hi ⊢
      rw [hstate, Option.map_some, Option.getD_some]
      exact hi

/-- Two machines that take the same actions stay related exactly as long as each
action keeps them related. -/
theorem related_iff {T : Type} {f : S → A → S} {g : T → A → T} {R : S → T → Prop} {P : T → A → Prop}
    (hstep : ∀ s t a, R s t → (R (f s a) (g t a) ↔ P t a)) {t : T} (hstart : R s t) (acts : List A) :
    (∀ before, before <+: acts → R (before.foldl f s) (before.foldl g t)) ↔
      ∀ before a, before ++ [a] <+: acts → P (before.foldl g t) a := by
  constructor
  · intro h before a hprefix
    have hbefore := h before ((List.prefix_append before [a]).trans hprefix)
    have hafter := h _ hprefix
    rw [List.foldl_append, List.foldl_append] at hafter
    exact (hstep _ _ a hbefore).mp hafter
  · intro h before hprefix
    induction before using List.reverseRecOn with
    | nil => exact hstart
    | append_singleton before a ih =>
        rw [List.foldl_append, List.foldl_append]
        exact (hstep _ _ a (ih ((List.prefix_append before [a]).trans hprefix))).mpr (h before a hprefix)

variable [∀ history s a, Decidable (allowed history s a)]

theorem execFrom_snoc (history acts : List A) (a : A) :
    execFrom step allowed history s (acts ++ [a]) = (execFrom step allowed history s acts).bind
      (fun s' => if allowed (history ++ acts) s' a then step s' a else none) := by
  induction acts generalizing history s with
  | nil => simp [execFrom]
  | cons b acts ih =>
      simp only [List.cons_append, execFrom]
      split
      · simp [Option.bind_assoc, ih]
      · rfl

theorem run_iff_exec : Run step allowed s₀ acts s ↔ exec step allowed s₀ acts = some s := by
  constructor
  · intro h
    induction h with
    | start => rfl
    | next _ ha hs ih =>
        rw [exec] at ih ⊢
        rw [execFrom_snoc, ih, Option.bind_some, List.nil_append, if_pos ha, hs]
  · intro h
    induction acts using List.reverseRecOn generalizing s with
    | nil => cases h; exact .start
    | append_singleton acts a ih =>
        rw [exec, execFrom_snoc, Option.bind_eq_some_iff] at h
        obtain ⟨t, ht, hs⟩ := h
        rw [List.nil_append] at hs
        split at hs
        next ha => exact .next (ih ht) ha hs
        · cases hs

end GraduateOS.Library.Runs
