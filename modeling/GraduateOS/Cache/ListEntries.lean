import GraduateOS.Cache.ListFiles

namespace GraduateOS.Cache.ListEntries

open Library.CStrings Library.Sorting Library.Strtok Items ListFiles
open Transfer.Records (Content newline line line_run)

/-- A line `key path`, with or without a blank behind it. -/
structure Row where
  key : CString
  path : CString
  blank : Bool
  key_ne : key.text ≠ []
  path_ne : path.text ≠ []
  key_plain : NoneOf (newline :: blanks) key.text
  path_plain : NoneOf (newline :: blanks) path.text

def Row.text (r : Row) : Content := r.key.text ++ 32 :: (r.path.text ++ if r.blank then [32] else [])

structure ListFile (maxKeylen : Nat) where
  rows : List Row
  ended : Bool
  short : ∀ r ∈ rows, r.text.length < maxKeylen - 1

def lines (rows : List Row) : Content := rows.flatMap fun r => r.text ++ [newline]

def ListFile.content {maxKeylen : Nat} (f : ListFile maxKeylen) : Content :=
  if f.ended then lines f.rows else (lines f.rows).dropLast

structure Holds (opens : Opens) (rows : List Row) (t : Table) : Prop where
  items : t.items = rows.mapIdx fun k r => ⟨opens k r.path, r.key⟩
  opened : t.opened = rows.map Row.path

structure Keeps (opens : Opens) (rows : List Row) (t : Table) : Prop where
  items : t.items.Perm (rows.mapIdx fun k r => ⟨opens k r.path, r.key⟩)
  opened : t.opened = rows.map Row.path
  inside : Inside t

def Kept (maxKeylen : Nat) (qsort : Qsort Item) (opens : Opens) (f : ListFile maxKeylen) : Prop :=
  ∃ t, init maxKeylen qsort opens (some f.content) = .finished t ∧ Keeps opens f.rows t

def Complete {maxKeylen : Nat} (f : ListFile maxKeylen) : Prop :=
  f.rows.length < 2 ^ 30 ∧ (f.ended = true ∨ ∀ r ∈ f.rows.getLast?, r.blank = true)

variable {opens : Opens} {t t' : Table} {rows done : List Row} {r : Row} {key path : CString} {got rest : Content}
  {maxKeylen fuel : Nat}

/-- A line is read as its two words when a blank or nothing is left behind them. -/
theorem addLine_words (tail : Content) {c : UInt8} (hgot : got = key.text ++ 32 :: (path.text ++ tail) ++ [c])
    (htail : tail = [] ∨ tail = [32]) (hc : c ≠ 0) (hkey : NoneOf blanks key.text) (hpath : NoneOf blanks path.text) :
    addLine opens got t = addItem (t.opened ++ [path]) (opens t.items.length path) key t := by
  have htail0 : 0 ∉ tail := by rcases htail with rfl | rfl <;> decide
  have hnul : 0 ∉ path.text ++ tail := by simp [path.nul, htail0]
  have hfront : (front got).text = key.text ++ 32 :: (path.text ++ tail) ++ [c] := by
    rw [hgot]
    exact front_text (by simp [key.nul, path.nul, htail0, Ne.symm hc])
  have hchop : (chop (front got)).text = key.text ++ 32 :: (path.text ++ tail) := by
    show (front got).text.dropLast = _
    rw [hfront, List.dropLast_concat]
  have hfirst : strsep (chop (front got)) blanks = (key, some ⟨path.text ++ tail, hnul⟩) :=
    strsep_delimiter hchop hkey (by decide)
  have hsecond : (strsep ⟨path.text ++ tail, hnul⟩ blanks).1 = path := by
    rcases htail with rfl | rfl
    · rw [strsep_last (by simpa using hpath)]
      exact CString.eq_of_text (List.append_nil _)
    · have hcut : strsep ⟨path.text ++ [32], hnul⟩ blanks = (path, some ⟨[], List.not_mem_nil⟩) :=
        strsep_delimiter rfl hpath (by decide)
      rw [hcut]
  rw [addLine, if_neg (by rw [hfront]; simp), hfirst]
  simp only [hsecond]

theorem Row.plain (r : Row) : newline ∉ r.text ∧ NoneOf blanks r.key.text ∧ NoneOf blanks r.path.text := by
  have hkey : newline ∉ r.key.text := fun h => r.key_plain _ h List.mem_cons_self
  have hpath : newline ∉ r.path.text := fun h => r.path_plain _ h List.mem_cons_self
  refine ⟨?_, fun c hc h => r.key_plain c hc (List.mem_cons_of_mem _ h),
    fun c hc h => r.path_plain c hc (List.mem_cons_of_mem _ h)⟩
  rw [Row.text]
  cases r.blank <;> simp [hkey, hpath] <;> decide

theorem addLine_row (r : Row) (opens : Opens) (t : Table) : addLine opens (r.text ++ [newline]) t =
    addItem (t.opened ++ [r.path]) (opens t.items.length r.path) r.key t := by
  apply addLine_words _ rfl _ (by decide) r.plain.2.1 r.plain.2.2
  cases r.blank
  · exact .inl rfl
  · exact .inr rfl

theorem Holds.next (hh : Holds opens done t)
    (h : addItem (t.opened ++ [r.path]) (opens t.items.length r.path) r.key t = .finished t') :
    Holds opens (done ++ [r]) t' := by
  obtain ⟨-, capacity, -, rfl⟩ := addItem_finished h
  have hlen : t.items.length = done.length := by rw [hh.items, List.length_mapIdx]
  constructor
  · rw [List.mapIdx_append, ← hh.items, hlen]
    simp
  · rw [List.map_append, ← hh.opened]
    rfl

theorem line_row (hr : r.text.length < maxKeylen - 1) (file : Content) :
    line (maxKeylen - 1) (r.text ++ newline :: file) = r.text ++ [newline] := by
  rw [line_run r.plain.1 (by omega)]
  obtain ⟨n, hn⟩ : ∃ n, maxKeylen - 1 - r.text.length = n + 1 := ⟨_, (Nat.sub_add_cancel (by omega)).symm⟩
  rw [hn, line, if_pos rfl]

theorem initLoop_step (hr : r.text.length < maxKeylen - 1) (file : Content) (hfuel : 0 < fuel) :
    initLoop maxKeylen opens fuel (r.text ++ newline :: file) t =
      match addItem (t.opened ++ [r.path]) (opens t.items.length r.path) r.key t with
      | .finished t => initLoop maxKeylen opens (fuel - 1) file t
      | out => out := by
  obtain ⟨n, rfl⟩ := Nat.exists_eq_add_of_lt hfuel
  obtain ⟨c, text, htext⟩ : ∃ c text, r.text ++ newline :: file = c :: text :=
    List.exists_cons_of_ne_nil (by simp)
  rw [Nat.zero_add, htext, initLoop, ← htext, line_row hr, addLine_row]
  generalize addItem (t.opened ++ [r.path]) (opens t.items.length r.path) r.key t = out
  cases out <;> simp

theorem lines_cons (r : Row) (rows : List Row) (rest : Content) :
    lines (r :: rows) ++ rest = r.text ++ newline :: (lines rows ++ rest) := by
  simp [lines]

theorem lines_snoc (rows : List Row) (r : Row) : lines (rows ++ [r]) = lines rows ++ r.text ++ [newline] := by
  simp [lines]

/-- Rows that end in a newline become items, unless they are too many. -/
theorem initLoop_rows (rest : Content) (fuel : Nat) (hs : Sized t) (hh : Holds opens done t) (hshort : ∀ r ∈ rows, r.text.length < maxKeylen - 1)
    (hopen : ∀ k, ∀ r ∈ rows, 0 ≤ opens k r.path) (hfuel : (lines rows ++ rest).length ≤ fuel) :
    (∃ t' fuel', Sized t' ∧ Holds opens (done ++ rows) t' ∧ rest.length ≤ fuel' ∧
      initLoop maxKeylen opens fuel (lines rows ++ rest) t = initLoop maxKeylen opens fuel' rest t') ∨
    initLoop maxKeylen opens fuel (lines rows ++ rest) t = .undefined ∧ 2 ^ 30 ≤ (done ++ rows).length := by
  induction rows generalizing done t fuel with
  | nil =>
      refine .inl ⟨t, fuel, hs, ?_, hfuel, rfl⟩
      rwa [List.append_nil]
  | cons r rows ih =>
      rw [lines_cons] at hfuel ⊢
      simp only [List.length_append, List.length_cons] at hfuel
      rw [initLoop_step (hshort r List.mem_cons_self) _ (by omega)]
      rcases hs.grows (hopen t.items.length r List.mem_cons_self) (t.opened ++ [r.path]) r.key with ⟨t', hadd⟩ | ⟨hadd, hmany⟩
      · rw [hadd]
        have hrest := ih (fuel - 1) (hs.add hadd) (hh.next hadd) (fun r hr => hshort r (List.mem_cons_of_mem _ hr))
          (fun k r hr => hopen k r (List.mem_cons_of_mem _ hr)) (by rw [List.length_append]; omega)
        rwa [List.append_assoc] at hrest
      · rw [hadd]
        have hlen : t.items.length = done.length := by rw [hh.items, List.length_mapIdx]
        refine .inr ⟨rfl, ?_⟩
        rw [List.length_append, List.length_cons]
        omega

theorem initLoop_last (hr : r.text.length < maxKeylen - 1) (hfuel : r.text.length ≤ fuel) :
    initLoop maxKeylen opens fuel r.text t = addLine opens r.text t := by
  have hline : line (maxKeylen - 1) r.text = r.text := by
    have hrun := line_run r.plain.1 (show _ ≤ maxKeylen - 1 by omega) []
    have hend : line (maxKeylen - 1 - r.text.length) [] = [] := by cases maxKeylen - 1 - r.text.length <;> rfl
    rwa [hend, List.append_nil] at hrun
  obtain ⟨c, text, htext⟩ : ∃ c text, r.text = c :: text :=
    List.exists_cons_of_ne_nil (by rw [Row.text]; simp)
  obtain ⟨n, rfl⟩ : ∃ n, fuel = n + 1 := ⟨fuel - 1, by rw [htext, List.length_cons] at hfuel; omega⟩
  rw [htext, initLoop, ← htext, hline, List.drop_length]
  split
  next hadd => rw [hadd, initLoop]
  next => rfl

theorem addLine_blank (hb : r.blank = true) (opens : Opens) (t : Table) : addLine opens r.text t =
    addItem (t.opened ++ [r.path]) (opens t.items.length r.path) r.key t := by
  refine addLine_words [] (c := 32) ?_ (.inl rfl) (by decide) r.plain.2.1 r.plain.2.2
  simp [Row.text, hb]

/-- Without one, the path loses its last byte. -/
theorem addLine_chop (hb : r.blank = false) (opens : Opens) (t : Table) : addLine opens r.text t =
    addItem (t.opened ++ [chop r.path]) (opens t.items.length (chop r.path)) r.key t := by
  have hlast := List.dropLast_append_getLast r.path_ne
  have hc : r.path.text.getLast r.path_ne ≠ 0 := fun h => r.path.nul (h ▸ List.getLast_mem r.path_ne)
  refine addLine_words [] ?_ (.inl rfl) hc r.plain.2.1
    (fun c hc => r.plain.2.2 c ((List.dropLast_sublist _).subset hc))
  simp [Row.text, hb, chop, hlast]

theorem kept_of_loop {f : ListFile maxKeylen} {qsort : Qsort Item} (hs : Sized t) (hh : Holds opens f.rows t)
    (h : initLoop maxKeylen opens f.content.length f.content .empty = .finished t) : Kept maxKeylen qsort opens f := by
  refine ⟨{ t with items := qsort.sort itemcmp t.items }, ?_, ?_⟩
  · rw [init, h]
  · exact ⟨hh.items ▸ qsort.perm itemcmp t.items, hh.opened, hs.inside⟩

theorem holds_empty (opens : Opens) : Holds opens [] .empty := ⟨rfl, rfl⟩

theorem content_unended {f : ListFile maxKeylen} (he : f.ended = false) (hrows : f.rows = rows ++ [r]) :
    f.content = lines rows ++ r.text := by
  rw [ListFile.content, he, hrows, lines_snoc]
  simp

/-- All lines but the last are items already when the last one is read. -/
theorem unended_run {f : ListFile maxKeylen} (hopen : ∀ k, ∀ r ∈ f.rows, 0 ≤ opens k r.path) (he : f.ended = false)
    (hrows : f.rows = rows ++ [r]) :
    (∃ t, Sized t ∧ Holds opens rows t ∧
      initLoop maxKeylen opens f.content.length f.content .empty = addLine opens r.text t) ∨
    initLoop maxKeylen opens f.content.length f.content .empty = .undefined ∧ 2 ^ 30 ≤ rows.length := by
  have hshort := f.short
  have hcontent := content_unended he hrows
  rw [hrows] at hshort hopen
  rcases initLoop_rows r.text f.content.length sized_empty (holds_empty opens)
      (fun r' hr => hshort r' (List.mem_append_left _ hr)) (fun k r' hr => hopen k r' (List.mem_append_left _ hr))
      (by rw [hcontent]) with ⟨t, fuel, hs, hh, hfuel, hrun⟩ | ⟨hrun, hmany⟩
  · rw [← hcontent, initLoop_last (hshort r (by simp)) hfuel] at hrun
    exact .inl ⟨t, hs, hh, hrun⟩
  · rw [← hcontent] at hrun
    exact .inr ⟨hrun, hmany⟩

theorem complete_kept {f : ListFile maxKeylen} (qsort : Qsort Item)
    (hopen : ∀ k, ∀ r ∈ f.rows, 0 ≤ opens k r.path) (h : Complete f) : Kept maxKeylen qsort opens f := by
  obtain ⟨hfew, hend⟩ := h
  by_cases hlines : f.content = lines f.rows
  · have hrun := initLoop_rows [] f.content.length sized_empty (holds_empty opens) f.short hopen
      (by rw [hlines, List.append_nil])
    rw [List.append_nil, ← hlines, List.nil_append] at hrun
    rcases hrun with ⟨t, fuel, hs, hh, -, hrun⟩ | ⟨-, hmany⟩
    · rw [initLoop] at hrun
      exact kept_of_loop hs hh hrun
    · omega
  · have he : f.ended = false := by
      cases he : f.ended
      · rfl
      · exact absurd (by rw [ListFile.content, he, if_pos rfl]) hlines
    have hne : f.rows ≠ [] := fun h => hlines (by rw [ListFile.content, he, h]; rfl)
    obtain ⟨rows, r, hrows⟩ : ∃ rows r, f.rows = rows ++ [r] :=
      ⟨_, _, (List.dropLast_append_getLast hne).symm⟩
    have hblank : r.blank = true :=
      (hend.resolve_left (by simp [he])) r (by rw [hrows, List.getLast?_concat]; rfl)
    have hlen : rows.length + 1 < 2 ^ 30 := by simpa [hrows] using hfew
    rcases unended_run hopen he hrows with ⟨t, hs, hh, hrun⟩ | ⟨-, hmany⟩
    · rw [addLine_blank hblank] at hrun
      rcases hs.grows (hopen t.items.length r (by simp [hrows])) (t.opened ++ [r.path]) r.key with
        ⟨t', hadd⟩ | ⟨-, hmany⟩
      · rw [hadd] at hrun
        refine kept_of_loop (hs.add hadd) ?_ hrun
        rw [hrows]
        exact hh.next hadd
      · rw [hh.items, List.length_mapIdx] at hmany
        omega
    · omega

/-- The path of a last line that is cut short is not the one opened. -/
theorem blank_of_kept {f : ListFile maxKeylen} (hopen : ∀ k, ∀ r ∈ f.rows, 0 ≤ opens k r.path)
    (he : f.ended = false) (hrows : f.rows = rows ++ [r])
    (hloop : initLoop maxKeylen opens f.content.length f.content .empty = .finished t)
    (hopened : t.opened = f.rows.map Row.path) : r.blank = true := by
  by_contra hblank
  rcases unended_run hopen he hrows with ⟨t', hs, hh, hrun⟩ | ⟨hrun, -⟩
  · rw [addLine_chop (by simpa using hblank), hloop] at hrun
    obtain ⟨-, capacity, -, rfl⟩ := addItem_finished hrun.symm
    rw [hrows, List.map_append, hh.opened] at hopened
    have hpath : chop r.path = r.path := by simpa using hopened
    have hlast := congrArg (fun s => s.text.length) hpath
    have hpos := List.length_pos_iff.mpr r.path_ne
    simp only [chop, List.length_dropLast] at hlast
    omega
  · rw [hloop] at hrun
    cases hrun

theorem kept_complete {f : ListFile maxKeylen} {qsort : Qsort Item}
    (hopen : ∀ k, ∀ r ∈ f.rows, 0 ≤ opens k r.path) (h : Kept maxKeylen qsort opens f) : Complete f := by
  obtain ⟨t, hinit, hkeeps⟩ := h
  rw [init] at hinit
  split at hinit
  next t₀ hloop =>
    cases hinit
    have hlen : t₀.items.length = f.rows.length := by
      rw [← (qsort.perm itemcmp t₀.items).length_eq, hkeeps.items.length_eq, List.length_mapIdx]
    refine ⟨hlen ▸ (sized_empty.loop hloop).length_lt, ?_⟩
    cases he : f.ended
    · refine .inr fun r hr => ?_
      obtain ⟨rows, hrows⟩ := List.getLast?_eq_some_iff.mp hr
      exact blank_of_kept hopen he hrows hloop hkeeps.opened
    · exact .inl rfl
  next hno => exact absurd hinit (hno t)

theorem kept_iff {f : ListFile maxKeylen} (qsort : Qsort Item) (hopen : ∀ k, ∀ r ∈ f.rows, 0 ≤ opens k r.path) :
    Kept maxKeylen qsort opens f ↔ Complete f :=
  ⟨kept_complete hopen, complete_kept qsort hopen⟩

theorem simplecacheInit_keeps_iff (qsort : Qsort Item) (opens : Opens) (f : ListFile 1024)
    (hopen : ∀ k, ∀ r ∈ f.rows, 0 ≤ opens k r.path) :
    (∃ t, simplecacheInit qsort opens (some f.content) = .finished t ∧ Keeps opens f.rows t) ↔ Complete f :=
  kept_iff qsort hopen

/-- The lines `m ab`, `k cd`, `m ef` and `a g`: one key twice, and the keys in no order. -/
def repeatedKey : ListFile 1024 where
  rows :=
    [⟨⟨[109], by decide⟩, ⟨[97, 98], by decide⟩, false, by decide, by decide, by decide, by decide⟩,
      ⟨⟨[107], by decide⟩, ⟨[99, 100], by decide⟩, false, by decide, by decide, by decide, by decide⟩,
      ⟨⟨[109], by decide⟩, ⟨[101, 102], by decide⟩, true, by decide, by decide, by decide, by decide⟩,
      ⟨⟨[97], by decide⟩, ⟨[103], by decide⟩, false, by decide, by decide, by decide, by decide⟩]
  ended := true
  short := by decide

def opensNext : Opens := fun k _ => k + 3

theorem repeatedKey_keeps : ∃ t, simplecacheInit (Qsort.merge Item) opensNext (some repeatedKey.content) =
    .finished t ∧ Keeps opensNext repeatedKey.rows t :=
  (simplecacheInit_keeps_iff _ _ repeatedKey (fun k _ _ => by simp only [opensNext]; omega)).mpr
    ⟨by decide, .inl rfl⟩

def shortRow : Row :=
  ⟨⟨[107], by decide⟩, ⟨[97, 98], by decide⟩, false, by decide, by decide, by decide, by decide⟩

def shortFile : ListFile 1024 := ⟨[shortRow], false, by decide⟩

/-- Without a newline behind it, the file `a` is opened instead of `ab`. -/
theorem unended_not_kept : ¬ ∀ (qsort : Qsort Item) (opens : Opens) (f : ListFile 1024),
    (∀ k, ∀ r ∈ f.rows, 0 ≤ opens k r.path) →
      ∃ t, simplecacheInit qsort opens (some f.content) = .finished t ∧ Keeps opens f.rows t := by
  intro hall
  have hkept := hall (Qsort.merge Item) (fun _ _ => 3) shortFile (fun _ _ _ => by decide)
  rcases (kept_complete (fun _ _ _ => by decide) hkept).2 with he | hblank
  · cases he
  · cases hblank shortRow rfl

theorem contentInit_keeps_iff (qsort : Qsort Item) (opens : Opens) (f : ListFile 256)
    (hopen : ∀ k, ∀ r ∈ f.rows, 0 ≤ opens k r.path) :
    (∃ t, contentInit qsort opens (some f.content) = .finished t ∧ Keeps opens f.rows t) ↔ Complete f :=
  kept_iff qsort hopen

end GraduateOS.Cache.ListEntries
