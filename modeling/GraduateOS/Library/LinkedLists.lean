import Mathlib.Data.List.Basic

namespace GraduateOS.Library.LinkedLists

variable {A : Type}

/-- Following the links from `p` visits the nodes in order and arrives at `q`.
`next a` is nothing where there is no node, and `some none` at a last node. -/
inductive Linked (next : A → Option (Option A)) : Option A → List A → Option A → Prop
  | nil (p) : Linked next p [] p
  | cons {a p l q} : next a = some p → Linked next p l q → Linked next (some a) (a :: l) q

variable {next next' : A → Option (Option A)} {a : A} {p q r : Option A} {l l' : List A}

theorem linked_nil_iff : Linked next p [] q ↔ p = q := by
  constructor
  · intro h; cases h; rfl
  · rintro rfl; exact .nil p

theorem linked_cons_iff : Linked next p (a :: l) q ↔ p = some a ∧ ∃ r, next a = some r ∧ Linked next r l q := by
  constructor
  · intro h
    cases h with
    | cons hnext hrest => exact ⟨rfl, _, hnext, hrest⟩
  · rintro ⟨rfl, r, hnext, hrest⟩
    exact .cons hnext hrest

theorem linked_append_iff : Linked next p (l ++ l') q ↔ ∃ r, Linked next p l r ∧ Linked next r l' q := by
  induction l generalizing p with
  | nil => simp [linked_nil_iff]
  | cons a l ih =>
      simp only [List.cons_append, linked_cons_iff, ih]
      constructor
      · rintro ⟨rfl, s, hnext, r, hl, hl'⟩
        exact ⟨r, ⟨rfl, s, hnext, hl⟩, hl'⟩
      · rintro ⟨r, ⟨rfl, s, hnext, hl⟩, hl'⟩
        exact ⟨rfl, s, hnext, r, hl, hl'⟩

theorem linked_snoc_iff : Linked next p (l ++ [a]) q ↔ Linked next p l (some a) ∧ next a = some q := by
  simp [linked_append_iff, linked_cons_iff, linked_nil_iff]

theorem Linked.congr (h : Linked next p l q) (hsame : ∀ a ∈ l, next' a = next a) : Linked next' p l q := by
  induction h with
  | nil p => exact .nil p
  | cons hnext _ ih =>
      refine .cons ?_ (ih (fun b hb => hsame b (List.mem_cons_of_mem _ hb)))
      rw [hsame _ List.mem_cons_self, hnext]

theorem Linked.allocated (h : Linked next p l q) (ha : a ∈ l) : next a ≠ none := by
  induction h with
  | nil => cases ha
  | cons hnext _ ih =>
      rcases List.mem_cons.mp ha with rfl | ha
      · simp [hnext]
      · exact ih ha

theorem Linked.unique (h : Linked next p l none) (h' : Linked next p l' none) : l = l' := by
  induction l generalizing p l' with
  | nil =>
      cases linked_nil_iff.mp h
      cases h'
      rfl
  | cons a l ih =>
      obtain ⟨rfl, r, hnext, hrest⟩ := linked_cons_iff.mp h
      cases h' with
      | cons hnext' hrest' =>
          cases hnext.symm.trans hnext'
          rw [ih hrest hrest']

theorem Linked.nodup (h : Linked next p l none) : l.Nodup := by
  induction l generalizing p with
  | nil => exact List.nodup_nil
  | cons a l ih =>
      obtain ⟨_, r, hnext, hrest⟩ := linked_cons_iff.mp h
      refine List.nodup_cons.mpr ⟨?_, ih hrest⟩
      intro ha
      obtain ⟨before, after, rfl⟩ := List.append_of_mem ha
      obtain ⟨s, _, hagain⟩ := linked_append_iff.mp hrest
      obtain ⟨rfl, _⟩ := linked_cons_iff.mp hagain
      have hlength := congrArg List.length (hagain.unique (.cons hnext hrest))
      simp at hlength
      omega

theorem Linked.extend {b : A} (h : Linked next p (l ++ [b]) none)
    (hsame : ∀ c ∈ l ++ [b], c ≠ b → next' c = next c) (hlast : next' b = some (some a))
    (hnew : next' a = some none) : Linked next' p (l ++ [b] ++ [a]) none := by
  have hnodup := h.nodup
  obtain ⟨hinit, _⟩ := linked_snoc_iff.mp h
  refine linked_snoc_iff.mpr ⟨linked_snoc_iff.mpr ⟨hinit.congr ?_, hlast⟩, hnew⟩
  intro c hc
  have hne : c ≠ b := by
    rintro rfl
    exact (List.nodup_append.mp hnodup).2.2 c hc c (List.mem_singleton_self c) rfl
  exact hsame c (List.mem_append_left _ hc) hne

/-- The first node `a` becomes the end: the last node links to it, and the list
starts after it, with `a` itself when it is the only node. -/
theorem Linked.rotate [DecidableEq A] {b : A} (h : Linked next p l none) (ha : a ∉ l)
    (hb : (a :: l).getLast? = some b) (hsame : ∀ c ∈ l, c ≠ b → next' c = next c)
    (hlast : a ≠ b → next' b = some (some a)) (hnew : next' a = some none) :
    Linked next' (if a = b then some a else p) (l ++ [a]) none := by
  rcases List.eq_nil_or_concat l with rfl | ⟨init, last, rfl⟩
  · have hab : a = b := by simpa using hb
    rw [if_pos hab]
    exact .cons hnew (.nil none)
  · rw [List.concat_eq_append] at *
    obtain rfl : last = b := by
      rw [← List.cons_append, List.getLast?_concat] at hb
      exact Option.some.inj hb
    have hne : a ≠ last := by
      rintro rfl
      exact ha (by simp)
    rw [if_neg hne]
    exact h.extend hsame (hlast hne) hnew

theorem Linked.empty_iff (h : Linked next p l none) : l = [] ↔ p = none := by
  cases h <;> simp

theorem linked_end (h : Linked next p l none) : p = l.head? := by
  cases h <;> simp

end GraduateOS.Library.LinkedLists
