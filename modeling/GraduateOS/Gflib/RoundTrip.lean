import GraduateOS.Gflib.HeaderArray

namespace GraduateOS.Gflib.RoundTrip

open Library.CStrings Library.Strtok Messages Responses StatusWords HeaderArray

/-- The array `header` of `gfc_getMessages`, which nothing initialises. -/
abbrev Garbage := Vector UInt8 1000

def response (status : Status) (content : List UInt8) : List UInt8 :=
  gfsSendheader status content.length ++ if status = .ok then content else []

/-- The stream in pieces that the calls of `recv` have room for: 256 bytes
while the header loop runs, and then 65000. -/
structure Arrives (header : Garbage) (stream : List UInt8) (pieces : List (List UInt8)) : Prop where
  flatten : pieces.flatten = stream
  nonempty : ∀ piece ∈ pieces, piece ≠ []
  fits : ∀ first piece rest, pieces = first ++ piece :: rest → piece.length ≤ 65000 ∧
    (readHeader (first.map .bytes) header.toList = .waiting → piece.length ≤ 256)

def Understood (status : Status) (content : List UInt8) (gfr : Gfr) : Outcome → Prop
  | .returned _ gfr' => gfr'.status = status ∧ ∃ calls, gfr'.written = gfr.written ++ calls ∧
      if status = .ok then
        gfr'.fileLen = content.length ∧ gfr'.bytesRecieved = content.length ∧
          calls.flatMap Call.bytes = content
      else calls = []
  | _ => False

def Answered (header : Garbage) (status : Status) (content : List UInt8) : Prop :=
  ∀ gfr pieces, Arrives header (response status content) pieces →
    Understood status content gfr (getMessages header.toList (pieces.map .bytes) gfr)

variable {status : Status} {content g p q c stream : List UInt8} {header mem : Memory}
  {rs : List Received} {gfr : Gfr} {pieces : List (List UInt8)}

theorem readHeader_finished {header' : Memory} {rs' : List Received}
    (h : readHeader rs header = .finished header' rs') :
    ∃ text, cstr header' = some text ∧ headerEnd <:+: text := by
  induction rs generalizing header with
  | nil => cases h
  | cons r rs ih =>
      rw [readHeader] at h
      split at h
      next => cases h
      next =>
        split at h
        next => cases h
        next header hcat =>
          split at h
          next => exact ih h
          next hfound =>
            cases h
            obtain ⟨rest, hrest⟩ := Option.ne_none_iff_exists'.mp hfound
            obtain ⟨text, htext, hstr⟩ := Option.bind_eq_some_iff.mp hrest
            refine ⟨text, htext, ?_⟩
            by_contra hno
            rw [strstr_eq_none_iff.mpr hno] at hstr
            cases hstr

/-- The last branch crashes on its null pointer, so the client never reports `GF_OK`. -/
theorem getMessages_ne_ok {v : Option Int} {gfr' : Gfr} (h : getMessages header rs gfr = .returned v gfr') :
    gfr'.status ≠ .ok := by
  rw [getMessages] at h
  split at h
  next => cases h
  next => cases h
  next =>
    cases h
    exact Status.noConfusion
  next header' rs' hread =>
    obtain ⟨text, ht, -⟩ := readHeader_finished hread
    rw [parseHeader_reading ht] at h
    cases hr : reading text with
    | none => rw [hr] at h; cases h
    | some r =>
        rw [hr] at h
        cases h
        exact reading_ne_ok hr

theorem receive_bytes (hlen : c.length < 256) :
    ∃ k, overlay c (List.replicate 256 0) = c ++ 0 :: List.replicate k 0 := by
  obtain ⟨k, hk⟩ : ∃ k, 256 = c.length + (k + 1) := ⟨256 - c.length - 1, by omega⟩
  refine ⟨k, ?_⟩
  rw [overlay, List.drop_replicate, hk, Nat.add_sub_cancel_left]
  rfl

theorem count_pos (hpos : c ≠ []) : ¬ (Received.bytes c).count ≤ 0 := by
  have hlen := List.length_pos_iff.mpr hpos
  simp only [Received.count]
  omega

theorem readHeader_piece (rs : List Received) (mem : Memory) (hg : 0 ∉ g) (hc : 0 ∉ c) (hpos : c ≠ [])
    (hlen : c.length < 256) (hroom : c.length ≤ mem.length) :
    readHeader (.bytes c :: rs) (g ++ 0 :: mem) =
      if strstr (g ++ c) headerEnd = none then readHeader rs (g ++ c ++ 0 :: mem.drop c.length)
      else .finished (g ++ c ++ 0 :: mem.drop c.length) rs := by
  obtain ⟨k, hrecv⟩ := receive_bytes hlen
  have htext := cstr_terminated (s := g ++ c) (by simp [hg, hc]) (mem.drop c.length)
  rw [readHeader, if_neg (count_pos hpos), Received.data, hrecv, strcat_terminated hg hc _ _ hroom]
  simp only [htext, Option.bind_some]

theorem readHeader_full (rs : List Received) (mem : Memory) (hg : 0 ∉ g) (hc : 0 ∉ c) (hpos : c ≠ [])
    (hlen : c.length < 256) (hroom : mem.length < c.length) :
    readHeader (.bytes c :: rs) (g ++ 0 :: mem) = .undefined := by
  obtain ⟨k, hrecv⟩ := receive_bytes hlen
  rw [readHeader, if_neg (count_pos hpos), Received.data, hrecv, strcat_full hg hc _ _ hroom]

theorem readHeader_unterminated (rs : List Received) (hpos : c ≠ []) (h : cstr header = none) :
    readHeader (.bytes c :: rs) header = .undefined := by
  rw [readHeader, if_neg (count_pos hpos), strcat, h]
  rfl

/-- On a stream that arrives in pieces, the loop ends with a part of it behind
the text that was in the array, or has it all there and reads on. -/
theorem readHeader_stream (rs : List Received) (hg : 0 ∉ g) (hs : 0 ∉ stream) (hlen : stream.length < 256)
    (hne : ∀ piece ∈ pieces, piece ≠ []) (hq : q ++ pieces.flatten = stream)
    (hroom : pieces.flatten.length ≤ mem.length) :
    (∃ p mem' rs', readHeader (pieces.map .bytes ++ rs) (g ++ q ++ 0 :: mem) =
        .finished (g ++ p ++ 0 :: mem') rs' ∧ p <+: stream ∧ p ≠ [] ∧ headerEnd <:+: g ++ p) ∨
      ∃ mem', readHeader (pieces.map .bytes ++ rs) (g ++ q ++ 0 :: mem) = readHeader rs (g ++ stream ++ 0 :: mem') ∧
        (pieces ≠ [] → ¬ headerEnd <:+: g ++ stream) := by
  induction pieces generalizing q mem with
  | nil =>
      rw [List.flatten_nil, List.append_nil] at hq
      subst hq
      exact .inr ⟨mem, rfl, fun h => absurd rfl h⟩
  | cons piece pieces ih =>
      rw [List.flatten_cons] at hq hroom
      have hpiece := hne piece List.mem_cons_self
      subst hq
      simp only [List.mem_append, not_or, List.length_append] at hs hlen hroom
      obtain ⟨hsq, hspiece, hspieces⟩ := hs
      have hstep := readHeader_piece (pieces.map .bytes ++ rs) mem (g := g ++ q) (by simp [hg, hsq]) hspiece
        hpiece (by omega) (by omega)
      rw [List.map_cons, List.cons_append, hstep]
      by_cases hfound : headerEnd <:+: g ++ q ++ piece
      · rw [if_neg (fun hn => strstr_eq_none_iff.mp hn hfound)]
        refine .inl ⟨q ++ piece, mem.drop piece.length, pieces.map .bytes ++ rs, ?_, ?_, ?_, ?_⟩
        · rw [List.append_assoc g]
        · rw [← List.append_assoc]
          exact List.prefix_append _ _
        · simp [hpiece]
        · rwa [← List.append_assoc]
      · rw [if_pos (strstr_eq_none_iff.mpr hfound), List.append_assoc g]
        have hdrop : pieces.flatten.length ≤ (mem.drop piece.length).length := by rw [List.length_drop]; omega
        have hnext := ih (q := q ++ piece) (fun p hp => hne p (List.mem_cons_of_mem _ hp)) (List.append_assoc ..) hdrop
        refine hnext.imp_right ?_
        rintro ⟨mem', hread, hrest⟩
        refine ⟨mem', hread, fun _ hend => ?_⟩
        cases pieces with
        | nil =>
            apply hfound
            rw [List.flatten_nil, List.append_nil] at hend
            rwa [List.append_assoc]
        | cons p pieces => exact hrest (List.cons_ne_nil p pieces) hend

/-- The end of the header is at the end of the stream and nowhere before. -/
theorem part_of_stream {base : List UInt8} (hbase : 13 ∉ base) (hp : 71 :: p <+: 71 :: (base ++ headerEnd))
    (hend : headerEnd <:+: g ++ 71 :: p) : 71 :: p = 71 :: (base ++ headerEnd) ∨ headerEnd <:+: g := by
  rcases infix_around (by decide) hend with hg | ⟨a, x, rfl⟩
  · exact .inr hg
  · left
    obtain ⟨e, he⟩ := (List.cons_prefix_cons.mp hp).2
    rw [List.append_assoc, List.append_assoc] at he
    rcases List.append_eq_append_iff.mp he with ⟨y, rfl, hy⟩ | ⟨y, rfl, hy⟩
    · cases y with
      | nil =>
          have hnil : x ++ e = [] := by simpa using hy
          rw [(List.append_eq_nil_iff.mp hnil).1, List.append_nil, List.append_nil]
      | cons d y =>
          cases (List.cons.inj hy).1
          exact absurd (List.mem_append_right a List.mem_cons_self) hbase
    · have hlen := congrArg List.length hy
      simp only [List.length_append] at hlen
      have hy0 : y = [] := List.length_eq_zero_iff.mp (by omega)
      have hx0 : x = [] := List.length_eq_zero_iff.mp (by omega)
      rw [hy0, hx0, List.append_nil, List.append_nil]

theorem sendheader_facts (hok : status ≠ .ok) :
    0 ∉ gfsSendheader status 0 ∧ (gfsSendheader status 0).length < 256 ∧ gfsSendheader status 0 ≠ [] := by
  cases status with
  | ok => exact absurd rfl hok
  | fileNotFound => decide
  | error => decide
  | invalid => decide

theorem sendheader_stream (hok : status ≠ .ok) :
    ∃ base, 13 ∉ base ∧ gfsSendheader status 0 = 71 :: (base ++ headerEnd) := by
  refine ⟨getfile.tail ++ 32 :: ascii status.name, ?_, ?_⟩
  · cases status <;> decide
  · rw [sendheader_eq hok, List.append_assoc]
    rfl

theorem response_eq (hok : status ≠ .ok) (content : List UInt8) :
    response status content = gfsSendheader status 0 := by
  rw [response, if_neg hok, List.append_nil, sendheader_eq hok, sendheader_eq hok]

theorem ok_not_answered (header : Garbage) (content : List UInt8) : ¬ Answered header .ok content := by
  intro h
  have harrives : Arrives header (response .ok content) ((response .ok content).map fun c => [c]) := by
    constructor
    · induction response .ok content with
      | nil => rfl
      | cons c stream ih => rw [List.map_cons, List.flatten_cons, ih]; rfl
    · intro piece hp
      obtain ⟨c, -, rfl⟩ := List.mem_map.mp hp
      exact List.cons_ne_nil c []
    · intro first piece rest he
      have hp : piece ∈ (response .ok content).map fun c => [c] := by rw [he]; simp
      obtain ⟨c, -, rfl⟩ := List.mem_map.mp hp
      simp
  have hu := h ⟨.invalid, 0, 0, []⟩ _ harrives
  cases ho : getMessages header.toList
      (((response .ok content).map fun c => [c]).map .bytes) ⟨.invalid, 0, 0, []⟩ with
  | waiting => rw [ho] at hu; exact hu
  | undefined => rw [ho] at hu; exact hu
  | returned v gfr' =>
      rw [ho] at hu
      exact getMessages_ne_ok ho hu.1

theorem harmless_answered {header : Garbage} (hok : status ≠ .ok) (hg : cstr header.toList = some g)
    (hlen : g.length + (gfsSendheader status 0).length < 1000) (hh : Harmless status g) :
    Answered header status content := by
  intro gfr pieces ha
  obtain ⟨hg0, mem, hmem⟩ := cstr_eq_some hg
  obtain ⟨hs0, hs256, hsne⟩ := sendheader_facts hok
  obtain ⟨base, hbase, hstream⟩ := sendheader_stream hok
  have hflat : pieces.flatten = gfsSendheader status 0 := by rw [ha.flatten, response_eq hok]
  have hroom : pieces.flatten.length ≤ mem.length := by
    have h1000 := congrArg List.length hmem
    rw [Vector.length_toList, List.length_append, List.length_cons] at h1000
    rw [hflat]
    omega
  have hend : headerEnd <:+: gfsSendheader status 0 := by
    rw [hstream, ← List.cons_append]
    exact List.infix_append_right
  have hpieces : pieces ≠ [] := by
    rintro rfl
    exact hsne hflat.symm
  obtain ⟨p, mem', rs, hread, hp, hpne, hpend⟩ := (readHeader_stream [] (q := []) hg0 hs0 hs256 ha.nonempty
    hflat hroom).resolve_right (fun ⟨_, _, hno⟩ => hno hpieces (hend.trans List.infix_append_right))
  rw [List.append_nil, List.append_nil] at hread
  obtain ⟨c, p, rfl⟩ := List.exists_cons_of_ne_nil hpne
  rw [hstream] at hp
  obtain rfl : c = 71 := (List.cons_prefix_cons.mp hp).1
  have hpart : 71 :: p = gfsSendheader status 0 ∨ 13 ∈ g := by
    rw [hstream]
    rcases part_of_stream hbase hp hpend with hwhole | hgend
    · exact .inl hwhole
    · exact .inr (hgend.subset List.mem_cons_self)
  obtain ⟨v, hv⟩ := harmless_reading hok hh rfl hpart
  have hp0 : 0 ∉ g ++ 71 :: p := by
    rw [List.mem_append, not_or]
    exact ⟨hg0, fun hz => hs0 (hstream ▸ hp.subset hz)⟩
  have hget : getMessages header.toList (pieces.map .bytes) gfr =
      .returned (some v) { gfr with status := status } := by
    rw [getMessages, hmem, hread]
    simp only [parseHeader_reading (cstr_terminated hp0 mem'), hv, Option.map_some, Option.getD_some]
  rw [hget]
  exact ⟨rfl, [], by simp, by rw [if_neg hok]⟩

theorem answered_harmless {header : Garbage} (hok : status ≠ .ok) (h : Answered header status content) :
    ∃ g, cstr header.toList = some g ∧ g.length + (gfsSendheader status 0).length < 1000 ∧
      Harmless status g := by
  obtain ⟨hs0, hs256, hsne⟩ := sendheader_facts hok
  obtain ⟨base, -, hstream⟩ := sendheader_stream hok
  have harrives : Arrives header (response status content) [gfsSendheader status 0] := by
    rw [response_eq hok]
    constructor
    · simp
    · intro piece hp
      rw [List.mem_singleton.mp hp]
      exact hsne
    · intro first piece rest he
      have hp : piece ∈ [gfsSendheader status 0] := by rw [he]; simp
      rw [List.mem_singleton.mp hp]
      omega
  have hu := h ⟨.invalid, 0, 0, []⟩ _ harrives
  rw [List.map_cons, List.map_nil] at hu
  cases hg : cstr header.toList with
  | none =>
      rw [getMessages, readHeader_unterminated [] hsne hg] at hu
      exact hu.elim
  | some g =>
      obtain ⟨hg0, mem, hmem⟩ := cstr_eq_some hg
      have h1000 := congrArg List.length hmem
      rw [Vector.length_toList, List.length_append, List.length_cons] at h1000
      by_cases hroom : (gfsSendheader status 0).length ≤ mem.length
      · have hend : headerEnd <:+: g ++ gfsSendheader status 0 := by
          rw [hstream, ← List.cons_append, ← List.append_assoc]
          exact List.infix_append_right
        have ht : 0 ∉ g ++ gfsSendheader status 0 := by simp [hg0, hs0]
        rw [getMessages, hmem, readHeader_piece [] mem hg0 hs0 hsne hs256 hroom,
          if_neg (fun hn => strstr_eq_none_iff.mp hn hend)] at hu
        simp only [parseHeader_reading (cstr_terminated ht _)] at hu
        cases hr : reading (g ++ gfsSendheader status 0) with
        | none => rw [hr] at hu; exact hu.elim
        | some r =>
            rw [hr] at hu
            obtain ⟨v, status'⟩ := r
            obtain rfl : status' = status := hu.1
            exact ⟨g, rfl, by omega, reading_harmless hok hr⟩
      · rw [getMessages, hmem, readHeader_full [] mem hg0 hs0 hsne hs256 (by omega)] at hu
        exact hu.elim

/-- A response with content never comes through, and one without content only
because of what happens to be in the header array before. -/
theorem response_answered_iff (header : Garbage) (status : Status) (content : List UInt8) :
    Answered header status content ↔
      status ≠ .ok ∧ ∃ g, cstr header.toList = some g ∧
        g.length + (gfsSendheader status 0).length < 1000 ∧ Harmless status g := by
  constructor
  · intro h
    have hok : status ≠ .ok := by
      rintro rfl
      exact ok_not_answered header content h
    exact ⟨hok, answered_harmless hok h⟩
  · rintro ⟨hok, g, hg, hlen, hh⟩
    exact harmless_answered hok hg hlen hh

theorem twoBytes_not_answered :
    response .ok [104, 105] = ascii "GETFILE OK 2\r\n\r\nhi" ∧
      getMessages (Vector.replicate 1000 0 : Garbage).toList [.bytes (response .ok [104, 105])]
        ⟨.invalid, 0, 0, []⟩ = .undefined ∧
      ¬ Answered (Vector.replicate 1000 0) .ok [104, 105] := by
  have htext : response .ok [104, 105] = ascii "GETFILE OK 2\r\n\r\nhi" := by decide
  refine ⟨htext, ?_, ok_not_answered _ _⟩
  have harray : (Vector.replicate 1000 0 : Garbage).toList = [] ++ 0 :: List.replicate 999 0 := by
    rw [Vector.toList_replicate]
    rfl
  have hend : headerEnd <:+: [] ++ ascii "GETFILE OK 2\r\n\r\nhi" :=
    ⟨ascii "GETFILE OK 2", ascii "hi", by decide⟩
  rw [getMessages, harray, htext, readHeader_piece [] _ (by decide) (by decide) (by decide) (by decide)
    (by rw [List.length_replicate]; decide), if_neg (fun hn => strstr_eq_none_iff.mp hn hend)]
  have hread : reading ([] ++ ascii "GETFILE OK 2\r\n\r\nhi") = none := by decide
  have hnul : 0 ∉ [] ++ ascii "GETFILE OK 2\r\n\r\nhi" := by decide
  simp only [parseHeader_reading (cstr_terminated hnul _), hread]
  rfl

end GraduateOS.Gflib.RoundTrip
