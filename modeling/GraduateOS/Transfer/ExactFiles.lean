import GraduateOS.Transfer.Records

namespace GraduateOS.Transfer.ExactFiles

open Library.Chunks Library.CStrings Records

def Exact (buffer : Buffer) (file : Content) : Prop :=
  ∀ pieces, Splits bufsize (sendContents file).flatten pieces → saveFile buffer pieces = some file

/-- The files that no split harms: nothing after the second byte, no NUL, one
line, and an array in which the first recv result already ends a string. -/
def Harmless (buffer : Buffer) (file : Content) : Prop :=
  file = [] ∨ (∃ x, file = [x] ∧ x ≠ 0 ∧ buffer[1] = 0) ∨
    ∃ x y, file = [x, y] ∧ x ≠ 0 ∧ y ≠ 0 ∧ x ≠ newline ∧ buffer[1] = 0 ∧ buffer[2] = 0

variable {n : Nat} {file out : Content} {buffer piece : Memory} {pieces : List Memory}

theorem line_length_le (n : Nat) (file : Content) : (line n file).length ≤ n := by
  induction n generalizing file with
  | zero => simp [line]
  | succ n ih =>
      cases file with
      | nil => simp [line]
      | cons c file =>
          simp only [line]
          split
          · simp
          · simpa using ih file

theorem line_append (n : Nat) (file : Content) : line n file ++ file.drop (line n file).length = file := by
  induction n generalizing file with
  | zero => simp [line]
  | succ n ih =>
      cases file with
      | nil => simp [line]
      | cons c file =>
          simp only [line]
          split
          · rfl
          · simpa using ih file

theorem line_pos (c : UInt8) (file : Content) : 0 < (line (bufsize - 1) (c :: file)).length := by
  simp only [bufsize, line]
  split <;> exact Nat.succ_pos _

theorem line_nul (h0 : 0 ∉ file) : 0 ∉ line n file ∧ 0 ∉ file.drop (line n file).length := by
  rw [← line_append n file, List.mem_append, not_or] at h0
  exact h0

theorem zeros_length (n : Nat) : (zeros n).length = n := List.length_replicate

theorem zeros_add (m n : Nat) : zeros (m + n) = zeros m ++ zeros n := List.replicate_add ..

theorem cstr_padded {s : List UInt8} (hs : 0 ∉ s) (hn : 0 < n) (mem : Memory) :
    cstr (overlay (s ++ zeros n) mem) = some s := by
  obtain ⟨k, rfl⟩ := Nat.exists_eq_add_of_lt hn
  rw [overlay, List.append_assoc, show 0 + k + 1 = k + 1 by omega, zeros, List.replicate_succ]
  exact cstr_terminated hs _

/-- A record is the line and, in the rest of the array, at least one NUL. -/
theorem fgets_zeros (file : Content) :
    fgets (zeros bufsize) file =
      line (bufsize - 1) file ++ zeros (bufsize - (line (bufsize - 1) file).length) := by
  have hl := line_length_le (bufsize - 1) file
  have hk : bufsize - (line (bufsize - 1) file).length =
      bufsize - ((line (bufsize - 1) file).length + 1) + 1 := by
    simp only [bufsize] at *; omega
  rw [hk]
  simp [fgets, overlay, zeros, List.replicate_succ]

theorem fgets_length (file : Content) : (fgets (zeros bufsize) file).length = bufsize := by
  have hl := line_length_le (bufsize - 1) file
  rw [fgets_zeros, List.length_append, zeros_length]
  simp only [bufsize] at *
  omega

theorem sendLoop_cons (n : Nat) (c : UInt8) (file : Content) :
    sendLoop (n + 1) (c :: file) = fgets (zeros bufsize) (c :: file) ::
      sendLoop n ((c :: file).drop (line (bufsize - 1) (c :: file)).length) :=
  rfl

theorem sendLoop_splits (n : Nat) (file : Content) :
    Splits bufsize (sendLoop n file).flatten (sendLoop n file) := by
  induction n generalizing file with
  | zero => exact ⟨rfl, by simp [sendLoop]⟩
  | succ n ih =>
      cases file with
      | nil => exact ⟨rfl, by simp [sendLoop]⟩
      | cons c file =>
          have hl := fgets_length (c :: file)
          apply splits_cons
          · rw [hl]; simp [bufsize]
          · exact Nat.le_of_eq hl
          · exact ih _

theorem saveLoop_cons {t : Content} (h : cstr (overlay piece buffer) = some t) :
    saveLoop (piece :: pieces) buffer = (saveLoop pieces (overlay piece buffer)).map (t ++ ·) := by
  rw [saveLoop, h, Option.bind_some]

/-- A recv result that starts with a NUL hides its other bytes. -/
theorem saveLoop_zero (piece : Memory) :
    saveLoop ((0 :: piece) :: pieces) buffer = saveLoop pieces (overlay (0 :: piece) buffer) := by
  have h : cstr (overlay (0 :: piece) buffer) = some [] := cstr_zero _
  rw [saveLoop_cons h]
  simp

theorem saveLoop_eq_some (h : saveLoop (piece :: pieces) buffer = some out) :
    ∃ t u, cstr (overlay piece buffer) = some t ∧
      saveLoop pieces (overlay piece buffer) = some u ∧ out = t ++ u := by
  obtain ⟨t, ht, hm⟩ := Option.bind_eq_some_iff.mp h
  obtain ⟨u, hu, rfl⟩ := Option.map_eq_some_iff.mp hm
  exact ⟨t, u, ht, hu, rfl⟩

/-- `%s` writes no NUL. -/
theorem saveLoop_nul (h : saveLoop pieces buffer = some out) : 0 ∉ out := by
  induction pieces generalizing buffer out with
  | nil => cases h; exact List.not_mem_nil
  | cons piece pieces ih =>
      obtain ⟨t, u, ht, hu, rfl⟩ := saveLoop_eq_some h
      rw [List.mem_append, not_or]
      exact ⟨(cstr_eq_some ht).1, ih hu⟩

/-- If each recv result is one record, then the array does not matter. -/
theorem saveLoop_records (h0 : 0 ∉ file) (hn : file.length ≤ n) (buffer : Memory) :
    saveLoop (sendLoop n file) buffer = some file := by
  induction n generalizing file buffer with
  | zero => rw [List.length_eq_zero_iff.mp (Nat.le_zero.mp hn)]; rfl
  | succ n ih =>
      cases file with
      | nil => rfl
      | cons c file =>
          obtain ⟨hl0, hr0⟩ := line_nul (n := bufsize - 1) h0
          have hl := line_length_le (bufsize - 1) (c :: file)
          have hpos := line_pos c file
          have ht : cstr (overlay (fgets (zeros bufsize) (c :: file)) buffer) =
              some (line (bufsize - 1) (c :: file)) := by
            rw [fgets_zeros]
            apply cstr_padded hl0
            simp only [bufsize] at *; omega
          have hrest : ((c :: file).drop (line (bufsize - 1) (c :: file)).length).length ≤ n := by
            rw [List.length_drop]; omega
          rw [sendLoop_cons, saveLoop_cons ht, ih hr0 hrest, Option.map_some, line_append]

theorem sendContents_cons (c : UInt8) (file : Content) :
    sendContents (c :: file) = fgets (zeros bufsize) (c :: file) ::
      sendLoop file.length ((c :: file).drop (line (bufsize - 1) (c :: file)).length) :=
  sendLoop_cons _ c file

theorem line_nil (n : Nat) : line n [] = [] := by cases n <;> rfl

theorem line_cons {c : UInt8} (hc : c ≠ newline) (n : Nat) (file : Content) :
    line (n + 1) (c :: file) = c :: line n file := by
  simp [line, hc]

theorem line_newline (n : Nat) (file : Content) : line (n + 1) (newline :: file) = [newline] := by
  simp [line]

/-- A file with a NUL is never written, since the records of the sender are one split. -/
theorem exact_nul {buffer : Buffer} (h : Exact buffer file) : 0 ∉ file :=
  saveLoop_nul (h _ (sendLoop_splits _ file))

/-- If the first line has three bytes `xyz`, then the second of the results
`xy` and `z` leaves `zy` at the start of the array. -/
theorem long_line_not_exact {x y z c : UInt8} {w : Content} {buffer : Buffer}
    (hl : line (bufsize - 1) (c :: file) = x :: y :: z :: w) : ¬ Exact buffer (c :: file) := by
  intro h
  have h0 := exact_nul h
  obtain ⟨hl0, hr0⟩ := line_nul (n := bufsize - 1) h0
  have hlen := line_length_le (bufsize - 1) (c :: file)
  have hfile := line_append (bufsize - 1) (c :: file)
  have hrest : ((c :: file).drop (line (bufsize - 1) (c :: file)).length).length ≤ file.length := by
    have hpos := line_pos c file
    rw [List.length_drop, List.length_cons]; omega
  have hrecord : fgets (zeros bufsize) (c :: file) = [x, y] ++ ([z] ++ (w ++ zeros (215 - w.length))) := by
    rw [fgets_zeros, hl]
    simp [bufsize]
  have hsend := sendContents_cons c file
  rw [hl] at hl0 hlen hfile hr0 hrest hsend
  simp only [bufsize, List.length_cons] at hlen
  generalize (c :: file).drop (x :: y :: z :: w).length = rest at *
  have hw : w.length ≤ 214 := by omega
  have hsplit : Splits bufsize (sendContents (c :: file)).flatten
      ([x, y] :: [z] :: (w ++ zeros (215 - w.length)) :: sendLoop file.length rest) := by
    rw [hsend, List.flatten_cons, hrecord, List.append_assoc, List.append_assoc]
    apply splits_cons (by simp) (by simp [bufsize])
    apply splits_cons (by simp) (by simp [bufsize])
    apply splits_cons
    · rw [List.length_append, zeros_length]; omega
    · rw [List.length_append, zeros_length, bufsize]; omega
    · exact sendLoop_splits _ rest
  obtain ⟨t, u, ht, hu, hout⟩ := saveLoop_eq_some (h _ hsplit)
  obtain ⟨t', u', ht', hu', rfl⟩ := saveLoop_eq_some hu
  have h1 : 2 ≤ t.length := cstr_append_length (s := [x, y]) (by simp_all) ht
  have h2 : 2 ≤ t'.length := cstr_append_length (s := [z, y]) (by simp_all) ht'
  have hw0 : 0 ∉ w := by simp_all
  have h3 : cstr (overlay (w ++ zeros (215 - w.length)) (overlay [z] (overlay [x, y] buffer.toList))) =
      some w := by
    apply cstr_padded hw0
    omega
  rw [saveLoop_cons h3, saveLoop_records hr0 hrest] at hu'
  cases hu'
  have hlong := congrArg List.length hout
  rw [← hfile] at hlong
  simp only [List.length_append, List.length_cons] at hlong
  omega

theorem fgets_snoc (file : Content) :
    fgets (zeros bufsize) file =
      line (bufsize - 1) file ++ zeros (bufsize - 1 - (line (bufsize - 1) file).length) ++ [0] := by
  have hl := line_length_le (bufsize - 1) file
  have hk : bufsize - (line (bufsize - 1) file).length =
      bufsize - 1 - (line (bufsize - 1) file).length + 1 := by
    simp only [bufsize] at *; omega
  rw [fgets_zeros, hk, zeros_add, List.append_assoc]
  rfl

/-- If the last byte of the first record comes together with the second
record, then the receiver finds an empty string there. -/
theorem two_lines_not_exact {l : Content} {c d : UInt8} {file file' : Content} {buffer : Buffer}
    (hl : line (bufsize - 1) (c :: file) = l) (hshort : l.length < bufsize - 1)
    (hd : (c :: file).drop l.length = d :: file') : ¬ Exact buffer (c :: file) := by
  intro h
  have h0 := exact_nul h
  obtain ⟨hl0, hr0⟩ := line_nul (n := bufsize - 1) h0
  have hfile := line_append (bufsize - 1) (c :: file)
  have hsend := sendContents_cons c file
  have hpos := line_pos c file
  have hfirst := fgets_snoc (c :: file)
  rw [hl] at hl0 hr0 hfile hpos hsend hfirst
  have hlen := congrArg List.length hfile
  rw [hd] at hr0 hfile hsend hlen
  obtain ⟨n, hn⟩ : ∃ n, file.length = n + 1 := ⟨file.length - 1, by simp at hlen; omega⟩
  have hpos' := line_pos d file'
  have hle' := line_length_le (bufsize - 1) (d :: file')
  have hfile' := line_append (bufsize - 1) (d :: file')
  have hsecond := fgets_snoc (d :: file')
  obtain ⟨-, hr0'⟩ := line_nul (n := bufsize - 1) hr0
  rw [hn, sendLoop_cons] at hsend
  generalize line (bufsize - 1) (d :: file') = l' at *
  have hlen' := congrArg List.length hfile'
  generalize (d :: file').drop l'.length = rest at *
  have hrest : rest.length ≤ n := by simp at hlen hlen'; omega
  have hsplit : Splits bufsize (sendContents (c :: file)).flatten
      ((l ++ zeros (bufsize - 1 - l.length)) :: (0 :: (l' ++ zeros (bufsize - 1 - l'.length))) ::
        [0] :: sendLoop n rest) := by
    have he : (sendContents (c :: file)).flatten = (l ++ zeros (bufsize - 1 - l.length)) ++
        ((0 :: (l' ++ zeros (bufsize - 1 - l'.length))) ++ ([0] ++ (sendLoop n rest).flatten)) := by
      rw [hsend, List.flatten_cons, List.flatten_cons, hfirst, hsecond]
      simp
    rw [he]
    simp only [bufsize] at *
    apply splits_cons
    · rw [List.length_append, zeros_length]; omega
    · rw [List.length_append, zeros_length]; omega
    apply splits_cons
    · exact Nat.succ_pos _
    · rw [List.length_cons, List.length_append, zeros_length]; omega
    apply splits_cons (by simp) (by simp)
    exact sendLoop_splits n rest
  have h1 : cstr (overlay (l ++ zeros (bufsize - 1 - l.length)) buffer.toList) = some l := by
    apply cstr_padded hl0
    omega
  have hsave := h _ hsplit
  rw [saveFile, saveLoop_cons h1, saveLoop_zero, saveLoop_zero, saveLoop_records hr0' hrest] at hsave
  have hshorter := congrArg List.length (Option.some.inj hsave)
  simp only [List.length_append, List.length_cons] at hshorter hlen hlen'
  omega

theorem zeros_flatten {k : Nat} (hp : ∀ piece ∈ pieces, 0 < piece.length)
    (h : pieces.flatten = zeros k) (buffer : Memory) : saveLoop pieces buffer = some [] := by
  induction pieces generalizing k buffer with
  | nil => rfl
  | cons piece pieces ih =>
      obtain ⟨c, cs, rfl⟩ := List.exists_cons_of_length_pos (hp piece List.mem_cons_self)
      rw [List.flatten_cons, List.cons_append] at h
      cases k with
      | zero => cases h
      | succ k =>
          obtain ⟨rfl, hcs⟩ := List.cons.inj (h.trans List.replicate_succ)
          have hrest := (List.append_eq_replicate_iff.mp hcs).2.2
          rw [saveLoop_zero]
          exact ih (fun p hm => hp p (List.mem_cons_of_mem _ hm)) hrest _

theorem cstr_head (h : buffer.head? = some 0) : cstr buffer = some [] := by
  cases buffer with
  | nil => cases h
  | cons c buffer => cases h; exact cstr_zero buffer

theorem cstr_zeros {k : Nat} {s : List UInt8} (h : s ++ out = zeros k)
    (hb : s = [] → buffer.head? = some 0) : cstr (s ++ buffer) = some [] := by
  apply cstr_head
  cases s with
  | nil => exact hb rfl
  | cons c s =>
      have hc := (List.append_eq_replicate_iff.mp h).2.1
      rw [List.length_cons, List.replicate_succ] at hc
      rw [List.cons_append, (List.cons.inj hc).1]
      rfl

theorem saveLoop_byte {k : Nat} {x : UInt8} (hx : x ≠ 0) (hb : (buffer.drop 1).head? = some 0)
    (h : Splits bufsize (x :: zeros k) pieces) : saveLoop pieces buffer = some [x] := by
  cases pieces with
  | nil => cases h.flatten
  | cons piece pieces =>
      obtain ⟨c, cs, rfl⟩ := List.exists_cons_of_length_pos (h.sizes piece List.mem_cons_self).1
      obtain ⟨rfl, hcs⟩ := List.cons.inj h.flatten
      have ht : cstr (overlay (c :: cs) buffer) = some [c] := by
        rw [overlay, List.cons_append, cstr_cons hx, cstr_zeros hcs (by rintro rfl; exact hb)]
        rfl
      have hrest := (List.append_eq_replicate_iff.mp hcs).2.2
      rw [saveLoop_cons ht, zeros_flatten (fun p hp => (h.tail.sizes p hp).1) hrest]
      rfl

theorem saveLoop_bytes {k : Nat} {x y : UInt8} (hx : x ≠ 0) (hy : y ≠ 0)
    (hb : (buffer.drop 1).head? = some 0) (hb' : (buffer.drop 2).head? = some 0)
    (h : Splits bufsize (x :: y :: zeros k) pieces) : saveLoop pieces buffer = some [x, y] := by
  cases pieces with
  | nil => cases h.flatten
  | cons piece pieces =>
      obtain ⟨c, cs, rfl⟩ := List.exists_cons_of_length_pos (h.sizes piece List.mem_cons_self).1
      obtain ⟨rfl, hcs⟩ := List.cons.inj h.flatten
      cases cs with
      | nil =>
          -- the second byte comes alone or with the zeros, on top of the first
          have hs : Splits bufsize (y :: zeros k) pieces := ⟨hcs, h.tail.sizes⟩
          have ht : cstr (overlay [c] buffer) = some [c] := by
            rw [overlay, List.cons_append, cstr_cons hx, List.nil_append, List.length_singleton,
              cstr_head hb]
            rfl
          have hlast : saveLoop pieces (overlay [c] buffer) = some [y] := saveLoop_byte hy hb hs
          rw [saveLoop_cons ht, hlast]
          rfl
      | cons d ds =>
          obtain ⟨rfl, hds⟩ := List.cons.inj hcs
          have ht : cstr (overlay (c :: d :: ds) buffer) = some [c, d] := by
            rw [overlay, List.cons_append, List.cons_append, cstr_cons hx, cstr_cons hy,
              cstr_zeros hds (by rintro rfl; exact hb')]
            rfl
          have hrest := (List.append_eq_replicate_iff.mp hds).2.2
          rw [saveLoop_cons ht, zeros_flatten (fun p hp => (h.tail.sizes p hp).1) hrest]
          rfl

theorem sendContents_flatten {l : Content} {c : UInt8} (hl : line (bufsize - 1) (c :: file) = l)
    (hend : (c :: file).drop l.length = []) :
    (sendContents (c :: file)).flatten = l ++ zeros (bufsize - l.length) := by
  subst l
  have hnil : sendLoop file.length [] = [] := by cases file.length <;> rfl
  rw [sendContents_cons, fgets_zeros, hend, hnil]
  exact List.append_nil _

theorem head_drop (buffer : Buffer) (n : Nat) (hn : n < bufsize) :
    (buffer.toList.drop n).head? = some buffer[n] := by
  rw [List.head?_drop]
  simp [hn]

theorem harmless_exact {buffer : Buffer} (h : Harmless buffer file) : Exact buffer file := by
  intro pieces hs
  rcases h with rfl | ⟨x, rfl, hx, h1⟩ | ⟨x, y, rfl, hx, hy, hn, h1, h2⟩
  · cases pieces with
    | nil => rfl
    | cons piece pieces =>
        have hpos := (hs.sizes piece List.mem_cons_self).1
        rw [(List.append_eq_nil_iff.mp hs.flatten).1] at hpos
        cases hpos
  · have hl : line (bufsize - 1) [x] = [x] := by
      rw [show bufsize - 1 = 216 + 1 from rfl, line, line_nil, ite_self]
    rw [sendContents_flatten hl rfl] at hs
    apply saveLoop_byte hx
    · rw [head_drop buffer 1 (by decide), h1]
    · exact hs
  · have hl : line (bufsize - 1) [x, y] = [x, y] := by
      rw [show bufsize - 1 = 216 + 1 from rfl, line_cons hn, line, line_nil, ite_self]
    rw [sendContents_flatten hl rfl] at hs
    apply saveLoop_bytes hx hy
    · rw [head_drop buffer 1 (by decide), h1]
    · rw [head_drop buffer 2 (by decide), h2]
    · exact hs

/-- A recv result `s` whose next byte in the array is not NUL brings that byte along. -/
theorem dirty_not_exact (s out : List UInt8) {buffer : Buffer} (hs : 0 < s.length)
    (hlen : s.length + out.length < bufsize)
    (hsend : (sendContents (s ++ out)).flatten = s ++ out ++ zeros (bufsize - (s ++ out).length))
    (hb : buffer[s.length] ≠ 0) : ¬ Exact buffer (s ++ out) := by
  intro h
  have h0 := exact_nul h
  rw [List.mem_append, not_or] at h0
  have hk : 0 < bufsize - (s ++ out).length := by rw [List.length_append]; omega
  have hsplit : Splits bufsize (sendContents (s ++ out)).flatten
      [s, out ++ zeros (bufsize - (s ++ out).length)] := by
    rw [hsend, List.append_assoc]
    apply splits_cons hs (by omega)
    constructor
    · simp
    · intro piece hp
      rw [List.mem_singleton.mp hp, List.length_append, zeros_length, List.length_append]
      omega
  obtain ⟨t, u, ht, hu, hout⟩ := saveLoop_eq_some (h _ hsplit)
  have hlong : (s ++ [buffer[s.length]]).length ≤ t.length := by
    have hdrop : buffer.toList.drop s.length = buffer[s.length] :: buffer.toList.drop (s.length + 1) := by
      rw [List.drop_eq_getElem_cons (by simp; omega)]
      rfl
    apply cstr_append_length (s := s ++ [buffer[s.length]])
    · rw [List.mem_append, List.mem_singleton, not_or]
      exact ⟨h0.1, hb.symm⟩
    · rwa [overlay, hdrop, ← List.singleton_append, ← List.append_assoc] at ht
  rw [saveLoop_cons (cstr_padded h0.2 hk _)] at hu
  cases hu
  have hmore := congrArg List.length hout
  simp only [List.length_append, List.length_singleton] at hmore hlong
  omega

theorem exact_harmless {buffer : Buffer} (h : Exact buffer file) : Harmless buffer file := by
  have h0 := exact_nul h
  match file with
  | [] => exact .inl rfl
  | [x] =>
      have hl : line (bufsize - 1) [x] = [x] := by
        rw [show bufsize - 1 = 216 + 1 from rfl, line, line_nil, ite_self]
      refine .inr (.inl ⟨x, rfl, fun hx => h0 (by simp [hx]), ?_⟩)
      by_contra hb
      exact dirty_not_exact [x] [] (by simp) (by simp [bufsize]) (sendContents_flatten hl rfl) hb h
  | x :: y :: file =>
      by_cases hn : x = newline
      · subst x
        exact absurd h (two_lines_not_exact (line_newline 216 _) (by decide) rfl)
      cases file with
      | nil =>
          have hl : line (bufsize - 1) [x, y] = [x, y] := by
            rw [show bufsize - 1 = 216 + 1 from rfl, line_cons hn, line, line_nil, ite_self]
          have hsend := sendContents_flatten hl rfl
          refine .inr (.inr ⟨x, y, rfl, fun hx => h0 (by simp [hx]), fun hy => h0 (by simp [hy]), hn, ?_, ?_⟩)
          · by_contra hb
            exact dirty_not_exact [x] [y] (by simp) (by simp [bufsize]) hsend hb h
          · by_contra hb
            exact dirty_not_exact [x, y] [] (by simp) (by simp [bufsize]) hsend hb h
      | cons z file =>
          by_cases hy : y = newline
          · subst y
            have hl : line (bufsize - 1) (x :: newline :: z :: file) = [x, newline] := by
              rw [show bufsize - 1 = 215 + 1 + 1 from rfl, line_cons hn, line_newline]
            exact absurd h (two_lines_not_exact hl (by simp [bufsize]) rfl)
          · have hl : ∃ w, line (bufsize - 1) (x :: y :: z :: file) = x :: y :: z :: w := by
              rw [show bufsize - 1 = 214 + 1 + 1 + 1 from rfl, line_cons hn, line_cons hy, line]
              split
              · exact ⟨[], rfl⟩
              · exact ⟨_, rfl⟩
            obtain ⟨w, hl⟩ := hl
            exact absurd h (long_line_not_exact hl)

/-- The stream keeps the recv results apart from the records, so a file
arrives intact under every split only when it is too short to be cut. -/
theorem saveFile_exact_iff (buffer : Buffer) (file : Content) :
    (∀ pieces, Splits bufsize (sendContents file).flatten pieces → saveFile buffer pieces = some file) ↔
      file = [] ∨ (∃ x, file = [x] ∧ x ≠ 0 ∧ buffer[1] = 0) ∨
        ∃ x y, file = [x, y] ∧ x ≠ 0 ∧ y ≠ 0 ∧ x ≠ newline ∧ buffer[1] = 0 ∧ buffer[2] = 0 :=
  ⟨exact_harmless, harmless_exact⟩

theorem threeBytes_changed :
    Splits bufsize (sendContents [97, 98, 99]).flatten [[97, 98], [99], zeros 215] ∧
      saveFile (Vector.replicate bufsize 0) [[97, 98], [99], zeros 215] = some [97, 98, 99, 98] ∧
      ¬ ∀ buffer file, Exact buffer file := by
  refine ⟨⟨by decide +kernel, by decide +kernel⟩, by decide +kernel, fun h => ?_⟩
  exact long_line_not_exact (w := []) rfl (h (Vector.replicate bufsize 0) [97, 98, 99])

end GraduateOS.Transfer.ExactFiles
