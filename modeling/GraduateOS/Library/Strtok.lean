import GraduateOS.Library.CStrings
import Mathlib.Data.List.TakeWhile

namespace GraduateOS.Library.Strtok

open CStrings

/-- One array, and the address in it where `strtok` goes on for a null pointer. -/
structure Scanner where
  mem : Memory
  olds : Nat

def skipped (delim text : List UInt8) : List UInt8 := text.takeWhile (· ∈ delim)

def word (delim text : List UInt8) : List UInt8 := (text.dropWhile (· ∈ delim)).takeWhile (· ∉ delim)

def following (delim text : List UInt8) : List UInt8 := (text.dropWhile (· ∈ delim)).dropWhile (· ∉ delim)

def AllOf (delim text : List UInt8) : Prop := ∀ c ∈ text, c ∈ delim

def NoneOf (delim text : List UInt8) : Prop := ∀ c ∈ text, c ∉ delim

instance (delim text : List UInt8) : Decidable (AllOf delim text) := List.decidableBAll _ text

instance (delim text : List UInt8) : Decidable (NoneOf delim text) := List.decidableBAll _ text

/-- `strtok(s, delim)`: the next word is ended by a NUL in place of its delimiter. -/
def strtok (m : Scanner) (s : Option Nat) (delim : List UInt8) : Option (Scanner × Option Nat) :=
  (cstr (m.mem.drop (s.getD m.olds))).map fun text =>
    let first := s.getD m.olds + (skipped delim text).length
    let stop := first + (word delim text).length
    if word delim text = [] then (⟨m.mem, first⟩, none)
    else if m.mem[stop]? = some 0 then (⟨m.mem, stop⟩, some first)
    else (⟨m.mem.set stop 0, stop + 1⟩, some first)

/-- `strcmp(p, s) == 0`; a null pointer is undefined. -/
def strcmp (m : Scanner) (p : Option Nat) (s : List UInt8) : Option Bool :=
  p.bind fun p => (cstr (m.mem.drop p)).map (decide <| · = s)

def front (bytes : List UInt8) : CString :=
  ⟨bytes.takeWhile (· ≠ 0), fun h => by simpa using List.mem_takeWhile_imp h⟩

/-- `s[strlen(s) - 1] = '\0'`, for a text that is not empty. -/
def chop (s : CString) : CString := ⟨s.text.dropLast, fun h => s.nul ((List.dropLast_sublist _).subset h)⟩

/-- `strsep(&s, delim)`: the text in front of the first delimiter, and what `s`
is after the call. An empty token is a token too. -/
def strsep (s : CString) (delim : List UInt8) : CString × Option CString :=
  (⟨s.text.takeWhile (· ∉ delim), fun h => s.nul ((List.takeWhile_sublist _).subset h)⟩,
    match h : s.text.dropWhile (· ∉ delim) with
    | [] => none
    | _ :: rest => some ⟨rest, fun h0 => s.nul ((List.dropWhile_sublist _).subset (h ▸ List.mem_cons_of_mem _ h0))⟩)

variable {m : Scanner} {s : Option Nat} {delim text skip w rest : List UInt8}

theorem noneOf_append {a b : List UInt8} : NoneOf delim (a ++ b) ↔ NoneOf delim a ∧ NoneOf delim b :=
  List.forall_mem_append

theorem text_eq (delim text : List UInt8) :
    text = skipped delim text ++ (word delim text ++ following delim text) := by
  rw [word, following, List.takeWhile_append_dropWhile, skipped, List.takeWhile_append_dropWhile]

theorem head_dropWhile {p : UInt8 → Bool} {c : UInt8} (h : text.dropWhile p = c :: rest) : p c = false := by
  have hne : text.dropWhile p ≠ [] := by rw [h]; exact List.cons_ne_nil c rest
  have hc := List.head_dropWhile_not p hne
  simp only [h, List.head_cons] at hc
  exact hc

theorem following_cases (delim text : List UInt8) :
    following delim text = [] ∨ ∃ d rest, d ∈ delim ∧ following delim text = d :: rest := by
  cases h : following delim text with
  | nil => exact .inl rfl
  | cons d rest => exact .inr ⟨d, rest, by simpa using head_dropWhile h, rfl⟩

theorem skipped_subset (delim text : List UInt8) : AllOf delim (skipped delim text) :=
  fun _ hc => by simpa using List.mem_takeWhile_imp hc

theorem word_disjoint (delim text : List UInt8) : NoneOf delim (word delim text) :=
  fun _ hc => by simpa using List.mem_takeWhile_imp hc

theorem following_of_word (h : word delim text = []) : following delim text = [] := by
  rw [word] at h
  rw [following]
  cases hd : text.dropWhile (· ∈ delim) with
  | nil => rfl
  | cons c rest =>
      rw [hd, List.takeWhile_cons_of_pos (by simpa using head_dropWhile hd)] at h
      cases h

/-- The words of a text are read off any way of writing it as delimiters, a
word, and a rest that does not go on with the word. -/
theorem word_append (rest : List UInt8) (hs : AllOf delim skip) (hw : NoneOf delim w) (hne : w ≠ [])
    (hr : rest = [] ∨ ∃ d t, d ∈ delim ∧ rest = d :: t) :
    skipped delim (skip ++ (w ++ rest)) = skip ∧ word delim (skip ++ (w ++ rest)) = w ∧
      following delim (skip ++ (w ++ rest)) = rest := by
  obtain ⟨c, w, rfl⟩ := List.exists_cons_of_ne_nil hne
  have hc : c ∉ delim := hw c List.mem_cons_self
  have hskip : ∀ b ∈ skip, decide (b ∈ delim) = true := fun b hb => decide_eq_true (hs b hb)
  have hword : ∀ b ∈ c :: w, decide (b ∉ delim) = true := fun b hb => decide_eq_true (hw b hb)
  have hdrop : (skip ++ (c :: w ++ rest)).dropWhile (· ∈ delim) = c :: w ++ rest := by
    rw [List.dropWhile_append_of_pos hskip, List.cons_append, List.dropWhile_cons_of_neg (by simpa using hc)]
  have htake : (skip ++ (c :: w ++ rest)).takeWhile (· ∈ delim) = skip := by
    rw [List.takeWhile_append_of_pos hskip, List.cons_append, List.takeWhile_cons_of_neg (by simpa using hc),
      List.append_nil]
  refine ⟨htake, ?_, ?_⟩
  · rw [word, hdrop, List.takeWhile_append_of_pos hword]
    rcases hr with rfl | ⟨d, t, hd, rfl⟩
    · simp
    · rw [List.takeWhile_cons_of_neg (by simpa using hd), List.append_nil]
  · rw [following, hdrop, List.dropWhile_append_of_pos hword]
    rcases hr with rfl | ⟨d, t, hd, rfl⟩
    · rfl
    · rw [List.dropWhile_cons_of_neg (by simpa using hd)]

/-- A text is a run without delimiters and a rest that is empty or starts with one. -/
theorem exists_run (delim text : List UInt8) :
    ∃ w rest, text = w ++ rest ∧ NoneOf delim w ∧ (rest = [] ∨ ∃ d t, d ∈ delim ∧ rest = d :: t) := by
  refine ⟨text.takeWhile (· ∉ delim), text.dropWhile (· ∉ delim), List.takeWhile_append_dropWhile.symm,
    fun c hc => by simpa using List.mem_takeWhile_imp hc, ?_⟩
  cases h : text.dropWhile (· ∉ delim) with
  | nil => exact .inl rfl
  | cons d t => exact .inr ⟨d, t, by simpa using head_dropWhile h, rfl⟩

/-- Memory behind a text that ends before `mem` does not matter to it. -/
theorem cstr_append_left {mem mem' a t : List UInt8} (h : cstr (a ++ mem) = some t) (hlt : t.length < a.length) :
    cstr (a ++ mem') = some t := by
  induction a generalizing t with
  | nil => cases hlt
  | cons c a ih =>
      by_cases hc : c = 0
      · subst c
        rw [List.cons_append, cstr_zero] at h ⊢
        exact h
      · rw [List.cons_append, cstr_cons hc] at h ⊢
        obtain ⟨u, hu, rfl⟩ := Option.map_eq_some_iff.mp h
        rw [ih hu (Nat.lt_of_succ_lt_succ hlt)]
        rfl

/-- What a call leaves, for the text where it starts: the word and what follows
it are texts of their own, and the texts in front are as before. -/
structure Taken (m : Scanner) (start : Nat) (delim text : List UInt8) (m' : Scanner) (p : Nat) : Prop where
  place : start ≤ p
  token : cstr (m'.mem.drop p) = some (word delim text)
  front : cstr (m'.mem.drop start) = some (skipped delim text ++ word delim text)
  saved : cstr (m'.mem.drop m'.olds) = some (following delim text).tail
  order : (following delim text).tail ≠ [] → p + (word delim text).length < m'.olds
  frame : ∀ q t, cstr (m.mem.drop q) = some t → q + t.length < start → cstr (m'.mem.drop q) = some t

theorem strtok_none (delim : List UInt8) (ht : cstr (m.mem.drop (s.getD m.olds)) = some text) (hw : word delim text = []) :
    ∃ m', strtok m s delim = some (m', none) ∧ m'.mem = m.mem ∧ cstr (m'.mem.drop m'.olds) = some [] := by
  have he := text_eq delim text
  rw [hw, following_of_word hw, List.nil_append, List.append_nil] at he
  refine ⟨⟨m.mem, s.getD m.olds + (skipped delim text).length⟩, ?_, rfl, ?_⟩
  · rw [strtok, ht, Option.map_some, if_pos hw]
  · obtain ⟨-, more, hmore⟩ := cstr_eq_some ht
    rw [← List.drop_drop, hmore, ← he, List.drop_left]
    exact cstr_zero more

theorem text_nul (h0 : 0 ∉ text) (delim : List UInt8) :
    0 ∉ skipped delim text ∧ 0 ∉ word delim text ∧ 0 ∉ following delim text := by
  rw [text_eq delim text, List.mem_append, List.mem_append, not_or, not_or] at h0
  exact h0

theorem taken_of_layout {m' : Scanner} {front back : Memory} (tail : Memory) (h0 : 0 ∉ text)
    (hm : m.mem = front ++ back)
    (hm' : m'.mem = front ++ (skipped delim text ++ (word delim text ++ 0 :: tail)))
    (hs : cstr (m'.mem.drop m'.olds) = some (following delim text).tail)
    (ho : (following delim text).tail ≠ [] →
      front.length + (skipped delim text).length + (word delim text).length < m'.olds) :
    Taken m front.length delim text m' (front.length + (skipped delim text).length) := by
  obtain ⟨hskip, hword, -⟩ := text_nul h0 delim
  constructor
  · exact Nat.le_add_right _ _
  · rw [hm', ← List.drop_drop, List.drop_left, List.drop_left]
    exact cstr_terminated hword _
  · rw [hm', List.drop_left, ← List.append_assoc]
    exact cstr_terminated (by simp [hskip, hword]) _
  · exact hs
  · exact ho
  · intro q t ht hlt
    rw [hm, List.drop_append_of_le_length (by omega)] at ht
    rw [hm', List.drop_append_of_le_length (by omega)]
    apply cstr_append_left ht
    rw [List.length_drop]
    omega

theorem strtok_word (delim : List UInt8) (h0 : 0 ∉ delim) (ht : cstr (m.mem.drop (s.getD m.olds)) = some text)
    (hw : word delim text ≠ []) :
    ∃ m' p, strtok m s delim = some (m', some p) ∧ Taken m (s.getD m.olds) delim text m' p := by
  obtain ⟨hn, more, hmore⟩ := cstr_eq_some ht
  obtain ⟨-, -, hfollow⟩ := text_nul hn delim
  have hcall : strtok m s delim = some (
      let first := s.getD m.olds + (skipped delim text).length
      let stop := first + (word delim text).length
      if m.mem[stop]? = some 0 then (⟨m.mem, stop⟩, some first)
      else (⟨m.mem.set stop 0, stop + 1⟩, some first)) := by
    rw [strtok, ht, Option.map_some]
    simp only [if_neg hw]
  have hmem : m.mem = m.mem.take (s.getD m.olds) ++
      (skipped delim text ++ (word delim text ++ (following delim text ++ 0 :: more))) := by
    rw [← List.append_assoc (word delim text), ← List.append_assoc (skipped delim text),
      ← text_eq delim text, ← hmore, List.take_append_drop]
  have hlen : (m.mem.take (s.getD m.olds)).length = s.getD m.olds := by
    have hpos := congrArg List.length hmore
    rw [List.length_take]
    simp only [List.length_drop, List.length_append, List.length_cons] at hpos
    omega
  generalize m.mem.take (s.getD m.olds) = front at hmem hlen
  rw [← hlen] at hcall ⊢
  rw [hcall, hmem]
  rcases following_cases delim text with hf | ⟨d, tail, hd, hf⟩
  · rw [hf, List.nil_append]
    have hget : (front ++ (skipped delim text ++ (word delim text ++ 0 :: more)))[
        front.length + (skipped delim text).length + (word delim text).length]? = some 0 := by
      simp [Nat.add_assoc]
    simp only [hget, if_true]
    refine ⟨_, _, rfl, taken_of_layout more hn hmem ?_ ?_ ?_⟩
    · rfl
    · rw [hf]
      simp only [← List.drop_drop, List.drop_left]
      exact cstr_zero more
    · rw [hf]
      exact fun h => absurd rfl h
  · have hd0 : d ≠ 0 := fun h => h0 (h ▸ hd)
    rw [hf, List.cons_append]
    have hget : (front ++ (skipped delim text ++ (word delim text ++ d :: (tail ++ 0 :: more))))[
        front.length + (skipped delim text).length + (word delim text).length]? = some d := by
      rw [Nat.add_assoc, List.getElem?_append_right (Nat.le_add_right _ _), Nat.add_sub_cancel_left,
        List.getElem?_append_right (Nat.le_add_right _ _), Nat.add_sub_cancel_left,
        List.getElem?_append_right (Nat.le_refl _), Nat.sub_self]
      rfl
    have hset : (front ++ (skipped delim text ++ (word delim text ++ d :: (tail ++ 0 :: more)))).set
        (front.length + (skipped delim text).length + (word delim text).length) 0 =
        front ++ (skipped delim text ++ (word delim text ++ 0 :: (tail ++ 0 :: more))) := by
      simp [Nat.add_assoc]
    simp only [hget, Option.some.injEq, hd0, if_false, hset]
    refine ⟨_, _, rfl, taken_of_layout (tail ++ 0 :: more) hn hmem ?_ ?_ ?_⟩
    · rfl
    · rw [hf] at hfollow ⊢
      simp only [← List.drop_drop, List.drop_left, List.drop_one, List.tail_cons]
      exact cstr_terminated (fun h => hfollow (List.mem_cons_of_mem d h)) more
    · exact fun _ => Nat.lt_succ_self _

theorem CString.eq_of_text {s t : CString} (h : s.text = t.text) : s = t := by
  cases s
  cases t
  simpa using h

theorem front_text (hw : 0 ∉ w) : (front w).text = w :=
  List.takeWhile_eq_self_iff.mpr fun _ hc => decide_eq_true fun h => hw (h ▸ hc)

theorem strsep_delimiter {s w rest : CString} {d : UInt8} (hs : s.text = w.text ++ d :: rest.text)
    (hw : NoneOf delim w.text) (hd : d ∈ delim) : strsep s delim = (w, some rest) := by
  have hword : ∀ b ∈ w.text, decide (b ∉ delim) = true := fun b hb => decide_eq_true (hw b hb)
  have hdrop : s.text.dropWhile (· ∉ delim) = d :: rest.text := by
    rw [hs, List.dropWhile_append_of_pos hword, List.dropWhile_cons_of_neg (by simpa using hd)]
  have htake : s.text.takeWhile (· ∉ delim) = w.text := by
    rw [hs, List.takeWhile_append_of_pos hword, List.takeWhile_cons_of_neg (by simpa using hd), List.append_nil]
  refine Prod.ext (CString.eq_of_text htake) ?_
  simp only [strsep]
  split
  next h => rw [hdrop] at h; cases h
  next h => rw [hdrop] at h; cases h; rfl

theorem strsep_last {s : CString} (hs : NoneOf delim s.text) : strsep s delim = (s, none) := by
  have hword : ∀ b ∈ s.text, decide (b ∉ delim) = true := fun b hb => decide_eq_true (hs b hb)
  have hdrop : s.text.dropWhile (· ∉ delim) = [] := List.dropWhile_eq_nil_iff.mpr hword
  refine Prod.ext (CString.eq_of_text (List.takeWhile_eq_self_iff.mpr hword)) ?_
  simp only [strsep]
  split
  next => rfl
  next h => rw [hdrop] at h; cases h

theorem strcmp_text {p : Nat} (ht : cstr (m.mem.drop p) = some text) (w : List UInt8) :
    strcmp m (some p) w = some (decide (text = w)) := by
  rw [strcmp, Option.bind_some, ht, Option.map_some]

end GraduateOS.Library.Strtok
