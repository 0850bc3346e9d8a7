import GraduateOS.Gflib.StatusWords

namespace GraduateOS.Gflib.HeaderArray

open Library.CStrings Library.Strtok Messages Responses StatusWords

/-- The texts in the header array, before anything is received, with which a
header of this status is still understood. Only the first is meant to be there. -/
inductive Harmless (status : Status) : List UInt8 → Prop
  | blanks {g : List UInt8} (hg : AllOf blank g) : Harmless status g
  | sameStatus {skip more ends : List UInt8} {d : UInt8} (hskip : AllOf blank skip)
      (hmore : AllOf blank more) (hends : AllOf lineEnds ends)
      (hd : d ∈ lineEnds ∨ d ∈ blank) (hinv : status = .invalid → ends = [])
      (rest : List UInt8) :
      Harmless status (skip ++ (getfile ++ 32 :: (more ++ (ends ++ (ascii status.name ++ d :: rest)))))
  | otherScheme {skip w rest : List UInt8} (hs : status = .invalid) (hskip : AllOf blank skip)
      (hw : NoneOf blank w) (hne : w ≠ [])
      (hr : rest = [] ∨ ∃ t, rest = 32 :: t ∧ w ≠ getfile) : Harmless status (skip ++ (w ++ rest))

variable {status : Status} {g p w skip rest t : List UInt8} {v : Int}

theorem sendheader_eq (hok : status ≠ .ok) (n : Nat) :
    gfsSendheader status n = getfile ++ 32 :: (ascii status.name ++ headerEnd) := by
  cases status with
  | ok => exact absurd rfl hok
  | fileNotFound => rfl
  | error => rfl
  | invalid => rfl

theorem getfile_word : NoneOf blank getfile ∧ getfile ≠ [] := by decide

theorem reading_getfile (hskip : AllOf blank skip) (t : List UInt8) :
    reading (skip ++ (getfile ++ 32 :: t)) = (verdict (word blank t)).map (0, ·) := by
  obtain ⟨-, hword, hfollow⟩ := word_append (32 :: t) hskip getfile_word.1 getfile_word.2
    (.inr ⟨32, t, List.mem_cons_self, rfl⟩)
  rw [reading, hword, hfollow, if_neg getfile_word.2, if_pos rfl]
  rfl

theorem reading_other (rest : List UInt8) (hskip : AllOf blank skip)
    (hw : NoneOf blank w) (hne : w ≠ []) (hr : rest = [] ∨ ∃ d t, d ∈ blank ∧ rest = d :: t) (hother : w ≠ getfile) :
    reading (skip ++ (w ++ rest)) = some (-1, .invalid) := by
  obtain ⟨-, hword, -⟩ := word_append rest hskip hw hne hr
  rw [reading, hword, if_neg hne, if_neg hother]

/-- A word of the array that runs into the received bytes is not the scheme: these start with `G`. -/
theorem reading_glued (hskip : AllOf blank skip) (hw : NoneOf blank w) (hne : w ≠ [])
    (q : List UInt8) : reading (skip ++ (w ++ 71 :: q)) = some (-1, .invalid) := by
  obtain ⟨u, r, hq, hu, hr⟩ := exists_run blank q
  have hlong : w ++ 71 :: u ≠ getfile := by
    obtain ⟨c, w, rfl⟩ := List.exists_cons_of_ne_nil hne
    intro he
    have hmem : (71 : UInt8) ∈ getfile.tail := by
      rw [← he]
      simp
    exact absurd hmem (by decide)
  have hg : NoneOf blank [71] := by decide
  have hword : NoneOf blank (w ++ ([71] ++ u)) := noneOf_append.mpr ⟨hw, noneOf_append.mpr ⟨hg, hu⟩⟩
  have h := reading_other r hskip hword (by simp) hr hlong
  rw [hq]
  simpa using h

theorem word_named (status : Status) {more ends : List UInt8} {d : UInt8} (hmore : AllOf blank more)
    (hends : AllOf lineEnds ends) (hd : d ∈ lineEnds ∨ d ∈ blank) (t : List UInt8) :
    ∃ u, word blank (more ++ (ends ++ (ascii status.name ++ d :: t))) = ends ++ (ascii status.name ++ u) ∧
      (u = [] ∨ ∃ c s, c ∈ lineEnds ∧ u = c :: s) := by
  obtain ⟨u, r, hdt, hu, hr⟩ := exists_run blank (d :: t)
  have hname : NoneOf blank (ascii status.name) := by cases status <;> decide
  have hne : ascii status.name ≠ [] := by cases status <;> decide
  have hline : NoneOf blank lineEnds := by decide
  have hw : NoneOf blank (ends ++ (ascii status.name ++ u)) :=
    noneOf_append.mpr ⟨fun c hc => hline c (hends c hc), noneOf_append.mpr ⟨hname, hu⟩⟩
  obtain ⟨-, hword, -⟩ := word_append r hmore hw (by simp [hne]) hr
  refine ⟨u, ?_, ?_⟩
  · rw [hdt, ← hword]
    simp
  · cases u with
    | nil => exact .inl rfl
    | cons c s =>
        have hc : d = c := (List.cons.inj hdt).1
        subst c
        rcases hd with hd | hd
        · exact .inr ⟨d, s, hd, rfl⟩
        · exact absurd hd (hu d List.mem_cons_self)

theorem reading_named (more ends : List UInt8) {d : UInt8} (hok : status ≠ .ok)
    (hskip : AllOf blank skip) (hmore : AllOf blank more) (hends : AllOf lineEnds ends)
    (hd : d ∈ lineEnds ∨ d ∈ blank) (hinv : status = .invalid → ends = []) (t : List UInt8) :
    reading (skip ++ (getfile ++ 32 :: (more ++ (ends ++ (ascii status.name ++ d :: t))))) =
      some (0, status) := by
  obtain ⟨u, hword, hu⟩ := word_named status hmore hends hd t
  rw [reading_getfile hskip, hword, verdict_named hok hends hu hinv]
  rfl

/-- With such an array a part of the header is as good as the whole, where the
loop may end there: the words are those of the array, or the header is all there. -/
theorem harmless_reading (hok : status ≠ .ok) (hg : Harmless status g) {q : List UInt8} (hp : p = 71 :: q)
    (hend : p = gfsSendheader status 0 ∨ 13 ∈ g) : ∃ v, reading (g ++ p) = some (v, status) := by
  cases hg with
  | blanks hg =>
      have hwhole : p = gfsSendheader status 0 := by
        rcases hend with hwhole | hcr
        · exact hwhole
        · exact absurd (hg 13 hcr) (by decide)
      have h := reading_named [] [] hok hg (by decide) (by decide)
        (.inl List.mem_cons_self : (13 : UInt8) ∈ lineEnds ∨ 13 ∈ blank) (fun _ => rfl) [10, 13, 10]
      rw [hwhole, sendheader_eq hok]
      exact ⟨0, h⟩
  | @sameStatus skip more ends d hskip hmore hends hd hinv rest =>
      have h := reading_named more ends hok hskip hmore hends hd hinv (rest ++ p)
      exact ⟨0, by simpa using h⟩
  | @otherScheme skip w rest hs hskip hw hne hr =>
      subst hs
      refine ⟨-1, ?_⟩
      rcases hr with rfl | ⟨t, rfl, hother⟩
      · rw [List.append_nil, List.append_assoc, hp]
        exact reading_glued hskip hw hne q
      · have h := reading_other (32 :: (t ++ p)) hskip hw hne
          (.inr ⟨32, _, List.mem_cons_self, rfl⟩) hother
        simpa using h

/-- A word of the array that runs into the scheme is no status word: no name ends in `E`. -/
theorem glued_named {ends u : List UInt8}
    (hu : u = [] ∨ ∃ d t, d ∈ lineEnds ∧ u = d :: t)
    (h : w ++ getfile = ends ++ (ascii status.name ++ u)) :
    ∃ d t, d ∈ lineEnds ∧ w = ends ++ (ascii status.name ++ d :: t) := by
  rcases hu with rfl | ⟨d, t, hd, rfl⟩
  · have hlast := congrArg List.getLast? h
    have hne : ascii status.name ≠ [] := by cases status <;> decide
    rw [List.append_nil, List.getLast?_append_of_ne_nil _ getfile_word.2,
      List.getLast?_append_of_ne_nil _ hne] at hlast
    have hname : getfile.getLast? ≠ (ascii status.name).getLast? := by cases status <;> decide
    exact absurd hlast hname
  · rw [← List.append_assoc] at h
    rcases List.append_eq_append_iff.mp h with ⟨a, ha, hget⟩ | ⟨a, ha, hget⟩
    · have hmem : d ∈ getfile := by rw [hget]; simp
      have hline : NoneOf getfile lineEnds := by decide
      exact absurd hmem (hline d hd)
    · cases a with
      | nil =>
          cases (List.cons.inj hget).1
          exact absurd hd (by decide)
      | cons c a =>
          cases (List.cons.inj hget).1
          exact ⟨d, a, hd, by rw [ha, List.append_assoc]⟩

theorem status_of_reading {v' : Int} {status' : Status} (h : some (v, status) = some (v', status')) :
    status = status' :=
  congrArg Prod.snd (Option.some.inj h)

/-- The array reads `GETFILE` itself, and the next word is the status word. -/
theorem verdict_harmless {t : List UInt8} (hskip : AllOf blank skip)
    (h : verdict (word blank (t ++ (getfile ++ 32 :: (ascii status.name ++ headerEnd)))) = some status) :
    Harmless status (skip ++ (getfile ++ 32 :: t)) := by
  have hmore := skipped_subset blank t
  have hw := word_disjoint blank t
  have hfollow := following_cases blank t
  have hword := @following_of_word blank t
  have ht := text_eq blank t
  generalize skipped blank t = more at *
  generalize word blank t = w at *
  generalize following blank t = rest at *
  subst ht
  have hafter : (32 :: (ascii status.name ++ headerEnd) = [] ∨
      ∃ d s, d ∈ blank ∧ 32 :: (ascii status.name ++ headerEnd) = d :: s) :=
    .inr ⟨32, _, List.mem_cons_self, rfl⟩
  by_cases hne : w = []
  · -- the word is the scheme of the received header, and no status word
    subst w
    rw [hword rfl, List.append_nil, List.append_nil,
      (word_append _ hmore getfile_word.1 getfile_word.2 hafter).2.1] at h
    revert h
    rw [show verdict getfile = none by decide]
    exact fun h => by cases h
  · rcases hfollow with rfl | ⟨c, rest, hc, rfl⟩
    · have hglued : NoneOf blank (w ++ getfile) := noneOf_append.mpr ⟨hw, getfile_word.1⟩
      have hgword := (word_append _ hmore hglued (by simp [hne]) hafter).2.1
      rw [List.append_nil, List.append_assoc, ← List.append_assoc w, hgword] at h
      obtain ⟨-, ends, u, hv, hends, hu, hinv⟩ := named_of_verdict h
      obtain ⟨d, r, hd, rfl⟩ := glued_named hu hv
      have hh := Harmless.sameStatus hskip hmore hends (.inl hd) hinv r
      simpa using hh
    · have hcword := (word_append (c :: (rest ++ (getfile ++ 32 :: (ascii status.name ++ headerEnd))))
        hmore hw hne (.inr ⟨c, _, hc, rfl⟩)).2.1
      rw [List.append_assoc, List.append_assoc, List.cons_append, hcword] at h
      obtain ⟨-, ends, u, rfl, hends, hu, hinv⟩ := named_of_verdict h
      rcases hu with rfl | ⟨d, r, hd, rfl⟩
      · have hh := Harmless.sameStatus hskip hmore hends (.inr hc) hinv rest
        simpa using hh
      · have hh := Harmless.sameStatus hskip hmore hends (.inl hd) hinv (r ++ c :: rest)
        simpa using hh

theorem reading_harmless (hok : status ≠ .ok)
    (h : reading (g ++ gfsSendheader status 0) = some (v, status)) : Harmless status g := by
  rw [sendheader_eq hok] at h
  have hskip := skipped_subset blank g
  have hw := word_disjoint blank g
  have hfollow := following_cases blank g
  have hword := @following_of_word blank g
  have hg := text_eq blank g
  generalize skipped blank g = skip at *
  generalize word blank g = w at *
  generalize following blank g = rest at *
  subst hg
  by_cases hne : w = []
  · subst w
    rw [hword rfl]
    exact .blanks (by simpa using hskip)
  · rcases hfollow with rfl | ⟨c, t, hc, rfl⟩
    · rw [List.append_nil, List.append_assoc] at h
      have hother := reading_glued hskip hw hne
        (getfile.tail ++ 32 :: (ascii status.name ++ headerEnd))
      exact .otherScheme (status_of_reading (h.symm.trans hother)) hskip hw hne (.inl rfl)
    · have hc32 : c = 32 := List.mem_singleton.mp hc
      subst c
      rw [List.append_assoc, List.append_assoc, List.cons_append] at h
      by_cases hscheme : w = getfile
      · subst w
        rw [reading_getfile hskip] at h
        obtain ⟨s, hs, hsv⟩ := Option.map_eq_some_iff.mp h
        have hst : s = status := congrArg Prod.snd hsv
        rw [hst] at hs
        exact verdict_harmless hskip hs
      · have hother := reading_other (32 :: (t ++ (getfile ++ 32 :: (ascii status.name ++ headerEnd))))
          hskip hw hne (.inr ⟨32, _, hc, rfl⟩) hscheme
        exact .otherScheme (status_of_reading (h.symm.trans hother)) hskip hw hne (.inr ⟨t, rfl, hscheme⟩)

end GraduateOS.Gflib.HeaderArray
