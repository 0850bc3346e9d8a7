import GraduateOS.Gflib.Responses

namespace GraduateOS.Gflib.StatusWords

open Library.CStrings Library.Strtok Messages Responses

variable {m : Scanner} {header : Memory} {text v : List UInt8} {rs : List Received} {gfr : Gfr}

theorem okBranch_undefined {p : Nat} (rs : List Received) (gfr : Gfr)
    (ht : cstr (m.mem.drop p) = some text) (hb : 32 ∉ text) :
    okBranch m (some p) rs gfr = none := by
  have hend : ∃ m' s, strtok m (some p) blank = some (m', s) ∧ cstr (m'.mem.drop m'.olds) = some [] := by
    by_cases hw : word blank text = []
    · obtain ⟨m', hm', -, hs⟩ := strtok_none (s := some p) blank ht hw
      exact ⟨m', none, hm', hs⟩
    · obtain ⟨m', q, hm', htaken⟩ := strtok_word (s := some p) blank (by decide) ht hw
      refine ⟨m', some q, hm', ?_⟩
      rw [htaken.saved]
      rcases following_cases blank text with hf | ⟨d, rest, hd, hf⟩
      · rw [hf]; rfl
      · have hmem : d ∈ text := by
          rw [text_eq blank text, hf]
          simp
        rw [List.mem_singleton.mp hd] at hmem
        exact absurd hmem hb
  obtain ⟨m1, s, h1, hs1⟩ := hend
  obtain ⟨m2, h2, -, hs2⟩ := strtok_none (m := m1) (s := none) blank hs1 rfl
  obtain ⟨m3, h3, -, -⟩ := strtok_none (m := m2) (s := none) lineEnds hs2 rfl
  rw [okBranch, h1]
  simp [h2, h3]

theorem verdict_nil (hw : word lineEnds v = []) : verdict v = none := by
  have hf : following lineEnds v = [] := following_of_word hw
  have hne : skipped lineEnds v ≠ ascii "INVALID" := by
    intro he
    have hm : (73 : UInt8) ∈ skipped lineEnds v := by rw [he]; decide
    exact absurd (skipped_subset lineEnds v 73 hm) (by decide)
  rw [verdict, hw, List.append_nil, if_neg (by decide), if_neg (by decide), if_neg hne]

theorem word_cut (delim text : List UInt8) (hw : word delim text ≠ []) :
    skipped delim (skipped delim text ++ word delim text) = skipped delim text ∧
      word delim (skipped delim text ++ word delim text) = word delim text := by
  have h := word_append [] (skipped_subset delim text) (word_disjoint delim text) hw (.inl rfl)
  rw [List.append_nil] at h
  exact ⟨h.1, h.2.1⟩

/-- The first cut ends the word at its first line end, and the second finds it there again. -/
theorem parseStatus_word {p : Nat} (rs : List Received) (gfr : Gfr)
    (ht : cstr (m.mem.drop p) = some v) (hb : 32 ∉ v) :
    parseStatus m (some p) rs gfr =
      (verdict v).map fun s => .returned (some 0) { gfr with status := s } := by
  by_cases hw : word lineEnds v = []
  · obtain ⟨m', h1, -, -⟩ := strtok_none (s := some p) lineEnds ht hw
    rw [verdict_nil hw, parseStatus, h1]
    rfl
  · obtain ⟨m1, q1, h1, ht1⟩ := strtok_word (s := some p) lineEnds (by decide) ht hw
    obtain ⟨hskip, hword⟩ := word_cut lineEnds v hw
    obtain ⟨m2, q2, h2, ht2⟩ := strtok_word (m := m1) (s := some p) lineEnds (by decide) ht1.front
      (by rw [hword]; exact hw)
    have htoken := ht2.token
    have hfront : cstr (m2.mem.drop p) = _ := ht2.front
    rw [hword] at htoken
    rw [hskip, hword] at hfront
    have hblank : 32 ∉ skipped lineEnds v ++ word lineEnds v := by
      intro hmem
      apply hb
      rw [text_eq lineEnds v, ← List.append_assoc]
      exact List.mem_append_left _ hmem
    have hok := okBranch_undefined rs gfr hfront hblank
    simp only [parseStatus, h1, h2, Option.bind_eq_bind, Option.bind_some, strcmp_text ht1.token,
      strcmp_text htoken, strcmp_text hfront, hok, verdict]
    simp only [decide_eq_true_eq]
    split_ifs <;> rfl

/-- Without a second word the pointer is null, and the comparison undefined. -/
theorem parseStatus_null (rs : List Received) (gfr : Gfr) (ht : cstr (m.mem.drop m.olds) = some []) :
    parseStatus m none rs gfr = none := by
  obtain ⟨m', h1, -, -⟩ := strtok_none (s := none) lineEnds ht rfl
  rw [parseStatus, h1]
  rfl

def reading (text : List UInt8) : Option (Int × Status) :=
  if word blank text = [] then none
  else if word blank text = getfile then (verdict (word blank (following blank text).tail)).map (0, ·)
  else some (-1, .invalid)

/-- The cutting of the array in `parseHeader` comes to reading two words of its text. -/
theorem parseHeader_reading (ht : cstr header = some text) :
    parseHeader header rs gfr =
      (reading text).map fun r => .returned (some r.1) { gfr with status := r.2 } := by
  by_cases hw : word blank text = []
  · obtain ⟨m1, h1, -, hs1⟩ := strtok_none (m := ⟨header, 0⟩) (s := some 0) blank ht hw
    obtain ⟨m2, h2, -, -⟩ := strtok_none (m := m1) (s := none) blank hs1 rfl
    rw [reading, if_pos hw]
    simp [parseHeader, h1, h2, strcmp]
  · obtain ⟨m1, p, h1, ht1⟩ := strtok_word (m := ⟨header, 0⟩) (s := some 0) blank (by decide) ht hw
    rw [reading, if_neg hw]
    by_cases hv : word blank (following blank text).tail = []
    · obtain ⟨m2, h2, hm2, hs2⟩ := strtok_none (s := none) blank ht1.saved hv
      have hscheme := ht1.token
      rw [← hm2] at hscheme
      have hnull := parseStatus_null rs gfr hs2
      simp only [parseHeader, h1, h2, Option.bind_eq_bind, Option.bind_some, strcmp_text hscheme, hnull, hv]
      simp only [decide_eq_true_eq]
      split_ifs <;> rfl
    · obtain ⟨m2, q, h2, ht2⟩ := strtok_word (s := none) blank (by decide) ht1.saved hv
      have htail : (following blank text).tail ≠ [] := by
        intro hn
        rw [hn] at hv
        exact hv rfl
      have hscheme := ht2.frame p _ ht1.token (ht1.order htail)
      have hstatus := parseStatus_word rs gfr ht2.token
        (fun hm => word_disjoint blank _ 32 hm List.mem_cons_self)
      simp only [parseHeader, h1, h2, Option.bind_eq_bind, Option.bind_some, strcmp_text hscheme, hstatus]
      simp only [decide_eq_true_eq]
      split_ifs
      · rw [Option.map_map]; rfl
      · rfl

theorem verdict_named {status : Status} {ends u : List UInt8} (hok : status ≠ .ok)
    (hends : AllOf lineEnds ends) (hu : u = [] ∨ ∃ d t, d ∈ lineEnds ∧ u = d :: t)
    (hinv : status = .invalid → ends = []) :
    verdict (ends ++ (ascii status.name ++ u)) = some status := by
  have hname : NoneOf lineEnds (ascii status.name) := by cases status <;> decide
  have hne : ascii status.name ≠ [] := by cases status <;> decide
  obtain ⟨hs, hw, -⟩ := word_append u hends hname hne hu
  rw [verdict, hs, hw]
  cases status with
  | ok => exact absurd rfl hok
  | fileNotFound => rfl
  | error => rfl
  | invalid => rw [hinv rfl]; rfl

theorem named_of_verdict {status : Status} (h : verdict v = some status) :
    status ≠ .ok ∧ ∃ ends u, v = ends ++ (ascii status.name ++ u) ∧ AllOf lineEnds ends ∧
      (u = [] ∨ ∃ d t, d ∈ lineEnds ∧ u = d :: t) ∧ (status = .invalid → ends = []) := by
  have hv := text_eq lineEnds v
  have hends := skipped_subset lineEnds v
  have hu := following_cases lineEnds v
  rw [verdict] at h
  split_ifs at h with hf he hi
  · cases h
    rw [hf] at hv
    exact ⟨by decide, _, _, hv, hends, hu, fun hc => by cases hc⟩
  · cases h
    rw [he] at hv
    exact ⟨by decide, _, _, hv, hends, hu, fun hc => by cases hc⟩
  · cases h
    have hnil : skipped lineEnds v = [] := by
      cases hs : skipped lineEnds v with
      | nil => rfl
      | cons c s =>
          rw [hs, List.cons_append] at hi
          have hc := hends c (by rw [hs]; exact List.mem_cons_self)
          rw [(List.cons.inj hi).1] at hc
          exact absurd hc (by decide)
    rw [hnil, List.nil_append] at hi
    rw [hi] at hv
    exact ⟨by decide, _, _, hv, hends, hu, fun _ => hnil⟩

theorem reading_ne_ok {r : Int × Status} (h : reading text = some r) : r.2 ≠ .ok := by
  rw [reading] at h
  split_ifs at h
  · obtain ⟨s, hs, rfl⟩ := Option.map_eq_some_iff.mp h
    exact (named_of_verdict hs).1
  · cases h
    exact Status.noConfusion

end GraduateOS.Gflib.StatusWords
