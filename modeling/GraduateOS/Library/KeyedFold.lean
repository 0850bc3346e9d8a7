import Mathlib.Data.List.Basic

namespace GraduateOS.Library.KeyedFold

variable {S K V : Type}

structure Local (I : S → Prop) (view : S → K → V) (step : S → K → S) : Prop where
  keeps : ∀ s k, I s → I (step s k)
  frame : ∀ s k j, I s → j ≠ k → view (step s k) j = view s j

variable {I : S → Prop} {view : S → K → V} {step : S → K → S}

theorem Local.fold_frame (h : Local I view step) (keys : List K) {s : S} (hs : I s) {j : K}
    (hj : j ∉ keys) : view (keys.foldl step s) j = view s j := by
  induction keys generalizing s with
  | nil => rfl
  | cons k keys ih =>
      obtain ⟨hne, hrest⟩ := not_or.mp (List.mem_cons.not.mp hj)
      rw [List.foldl_cons, ih (h.keeps s k hs) hrest, h.frame s k j hs hne]

/-- When the keys are distinct, the result at a key is that of its own step,
taken from a state that looks the same there as the first one. -/
theorem Local.fold_at (h : Local I view step) {keys : List K} (hnodup : keys.Nodup) {s : S} (hs : I s)
    {j : K} (hj : j ∈ keys) :
    ∃ t, I t ∧ view t j = view s j ∧ view (keys.foldl step s) j = view (step t j) j := by
  induction keys generalizing s with
  | nil => cases hj
  | cons k keys ih =>
      obtain ⟨hk, hnodup⟩ := List.nodup_cons.mp hnodup
      by_cases hjk : j = k
      · subst j
        exact ⟨s, hs, rfl, h.fold_frame keys (h.keeps s k hs) hk⟩
      · obtain ⟨t, ht, hsame, hlast⟩ := ih hnodup (h.keeps s k hs)
          ((List.mem_cons.mp hj).resolve_left hjk)
        exact ⟨t, ht, hsame.trans (h.frame s k j hs hjk), hlast⟩

variable {D : Type} {choice : S → K → D}

def choices (choice : S → K → D) (step : S → K → S) : List K → S → List (K × D)
  | [], _ => []
  | k :: keys, s => (k, choice s k) :: choices choice step keys (step s k)

/-- When a step only performs what is chosen, the run performs all the choices in turn. -/
theorem foldl_choices (act : S → K → D → S) (h : ∀ s k, step s k = act s k (choice s k)) (keys : List K) (s : S) :
    keys.foldl step s = (choices choice step keys s).foldl (fun s e => act s e.1 e.2) s := by
  induction keys generalizing s with
  | nil => rfl
  | cons k keys ih =>
      rw [List.foldl_cons, choices, List.foldl_cons, ih, h s k]

theorem mem_keys_of_choices {keys : List K} {s : S} {k : K} {d : D} (h : (k, d) ∈ choices choice step keys s) :
    k ∈ keys := by
  induction keys generalizing s with
  | nil => cases h
  | cons j keys ih =>
      rw [choices, List.mem_cons] at h
      rcases h with h | h
      · cases h
        exact List.mem_cons_self
      · exact List.mem_cons_of_mem j (ih h)

/-- When the keys are distinct, there is one choice for each key, made in a
state that looks the same there as the first one. -/
theorem Local.choices_at (h : Local I view step) (choice : S → K → D) {keys : List K} (hnodup : keys.Nodup) {s : S} (hs : I s)
    {j : K} (hj : j ∈ keys) :
    ∃ t, I t ∧ view t j = view s j ∧ ∀ d, (j, d) ∈ choices choice step keys s ↔ d = choice t j := by
  induction keys generalizing s with
  | nil => cases hj
  | cons k keys ih =>
      obtain ⟨hk, hnodup⟩ := List.nodup_cons.mp hnodup
      by_cases hjk : j = k
      · subst j
        refine ⟨s, hs, rfl, fun d => ?_⟩
        rw [choices, List.mem_cons, Prod.mk.injEq]
        exact ⟨fun hd => (hd.resolve_right fun hd => hk (mem_keys_of_choices hd)).2, fun hd => .inl ⟨rfl, hd⟩⟩
      · obtain ⟨t, ht, hsame, hall⟩ := ih hnodup (h.keeps s k hs) ((List.mem_cons.mp hj).resolve_left hjk)
        refine ⟨t, ht, hsame.trans (h.frame s k j hs hjk), fun d => ?_⟩
        rw [choices, List.mem_cons, Prod.mk.injEq, ← hall d]
        exact or_iff_right fun hd => hjk hd.1

end GraduateOS.Library.KeyedFold
