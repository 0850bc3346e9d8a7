import GraduateOS.Gflib.RoundTrip
import GraduateOS.Library.Chunks

namespace GraduateOS.Gflib.Rejections

open Library.Chunks Library.CStrings Library.Scanf Library.Strtok Messages Responses StatusWords RoundTrip

inductive Response : List UInt8 → Prop
  | ok {digits : List UInt8} : digits ≠ [] → (∀ c ∈ digits, isdigit c = true) →
      Response (ascii "GETFILE OK " ++ digits ++ headerEnd)
  | other {status : Status} : status ≠ .ok → Response (gfsSendheader status 0)

def Unfinished (h : List UInt8) : Prop := ¬ headerEnd <:+: h

def Malformed (h : List UInt8) : Prop :=
  headerEnd <:+ h ∧ ¬ headerEnd <:+: h.dropLast ∧ ¬ Response h

def Rejected (header : Garbage) (h : List UInt8) : Prop :=
  ∀ gfr pieces rs, Splits 256 h pieces → (Unfinished h → ∃ rest, rs = .closed :: rest) →
    ∃ v gfr', getMessages header.toList (pieces.map .bytes ++ rs) gfr = .returned (some v) gfr' ∧
      v < 0 ∧ gfr'.status = .invalid ∧ gfr'.written = gfr.written

/-- Wherever the loop can end with the text of the array and the received
bytes behind it, the first word of that is not the scheme. -/
def OtherScheme (g h : List UInt8) : Prop :=
  ∀ p, p <+: h → p ≠ [] → headerEnd <:+: g ++ p → word blank (g ++ p) ≠ getfile

variable {header : Garbage} {g h text : List UInt8} {r : Int × Status}

theorem word_ne_nil (hend : headerEnd <:+: text) : word blank text ≠ [] := by
  intro hw
  have hall := skipped_subset blank text
  have heq := text_eq blank text
  rw [hw, following_of_word hw, List.nil_append, List.append_nil] at heq
  rw [← heq] at hall
  exact absurd (hall 13 (hend.subset List.mem_cons_self)) (by decide)

theorem reading_rejects (hend : headerEnd <:+: text) (hw : word blank text ≠ getfile) :
    reading text = some (-1, .invalid) := by
  rw [reading, if_neg (word_ne_nil hend), if_neg hw]

theorem other_of_reading (hr : reading text = some r) (hneg : r.1 < 0) : word blank text ≠ getfile := by
  intro hw
  rw [reading, hw, if_neg (by decide), if_pos rfl] at hr
  obtain ⟨status, -, rfl⟩ := Option.map_eq_some_iff.mp hr
  exact Int.lt_irrefl 0 hneg

theorem getMessages_finished {mem' : Memory} {rs rs' : List Received} {gfr : Gfr} (h0 : 0 ∉ text)
    (hread : readHeader rs header.toList = .finished (text ++ 0 :: mem') rs') :
    getMessages header.toList rs gfr =
      ((reading text).map fun r => .returned (some r.1) { gfr with status := r.2 }).getD .undefined := by
  rw [getMessages, hread]
  simp only [parseHeader_reading (cstr_terminated h0 mem')]

theorem getMessages_closed {rs rest : List Received} {mem : Memory} (gfr : Gfr)
    (hread : readHeader rs header.toList = readHeader (.closed :: rest) mem) :
    getMessages header.toList rs gfr = .returned (some (-1)) { gfr with status := .invalid } := by
  rw [getMessages, hread]
  rfl

/-- The array as the function finds it, with its text and the room behind. -/
theorem garbage_text (hg : cstr header.toList = some g) :
    0 ∉ g ∧ ∃ mem, header.toList = g ++ 0 :: mem ∧ g.length + mem.length = 999 := by
  obtain ⟨hg0, mem, hmem⟩ := cstr_eq_some hg
  have h1000 := congrArg List.length hmem
  rw [Vector.length_toList, List.length_append, List.length_cons] at h1000
  exact ⟨hg0, mem, hmem, by omega⟩

theorem nothing_rejected (header : Garbage) : Rejected header [] := by
  intro gfr pieces rs hsplit hclosed
  obtain ⟨rest, rfl⟩ := hclosed (by simp [Unfinished, headerEnd])
  obtain rfl : pieces = [] := by
    cases pieces with
    | nil => rfl
    | cons p pieces =>
        have hflat := hsplit.flatten
        have hpos := (hsplit.sizes p List.mem_cons_self).1
        rw [List.flatten_cons, List.append_eq_nil_iff] at hflat
        rw [hflat.1] at hpos
        exact absurd hpos (Nat.lt_irrefl 0)
  exact ⟨-1, _, getMessages_closed gfr rfl, by decide, rfl, rfl⟩

theorem other_rejected (h0 : 0 ∉ h) (hlen : h.length < 256) (hg : cstr header.toList = some g)
    (hroom : g.length + h.length < 1000) (hother : OtherScheme g h) : Rejected header h := by
  intro gfr pieces rs hsplit hclosed
  obtain ⟨hg0, mem, hmem, h999⟩ := garbage_text hg
  have hne : ∀ piece ∈ pieces, piece ≠ [] := fun p hp => List.length_pos_iff.mp (hsplit.sizes p hp).1
  have hroom' : pieces.flatten.length ≤ mem.length := by rw [hsplit.flatten]; omega
  have hread := readHeader_stream rs (q := []) hg0 h0 hlen hne hsplit.flatten hroom'
  rw [List.append_nil, ← hmem] at hread
  refine ⟨-1, { gfr with status := .invalid }, ?_, by decide, rfl, rfl⟩
  rcases hread with ⟨p, mem', rs', hfin, hp, hpne, hend⟩ | ⟨mem', hall, hno⟩
  · have hp0 : 0 ∉ g ++ p := by
      rw [List.mem_append, not_or]
      exact ⟨hg0, fun hz => h0 (hp.subset hz)⟩
    rw [getMessages_finished hp0 hfin, reading_rejects hend (hother p hp hpne hend)]
    rfl
  · -- the loop has not ended on the bytes, so they hold no end of a header
    have hunfinished : Unfinished h := by
      intro hend
      refine hno ?_ (hend.trans List.infix_append_right)
      rintro rfl
      rw [← hsplit.flatten] at hend
      exact absurd (hend.subset List.mem_cons_self) List.not_mem_nil
    obtain ⟨rest, rfl⟩ := hclosed hunfinished
    exact getMessages_closed gfr hall

theorem splits_pair {p e : List UInt8} (hp : p ≠ []) (hlen : (p ++ e).length < 256) :
    ∃ pieces, Splits 256 (p ++ e) (p :: pieces) := by
  rw [List.length_append] at hlen
  have hpos := List.length_pos_iff.mpr hp
  by_cases he : e = []
  · subst he
    exact ⟨[], splits_cons hpos (by omega) ⟨rfl, by simp⟩⟩
  · have hsingle : Splits 256 (e ++ []) [e] :=
      splits_cons (List.length_pos_iff.mpr he) (by omega) ⟨rfl, by simp⟩
    rw [List.append_nil] at hsingle
    exact ⟨[e], splits_cons hpos (by omega) hsingle⟩

theorem rejected_first {p : List UInt8} {pieces : List (List UInt8)} (hr : Rejected header h)
    (hsplit : Splits 256 h (p :: pieces)) :
    ∃ v gfr', getMessages header.toList (.bytes p :: (pieces.map .bytes ++ [.closed])) ⟨.invalid, 0, 0, []⟩ =
      .returned (some v) gfr' ∧ v < 0 := by
  obtain ⟨v, gfr', hget, hv, -⟩ := hr ⟨.invalid, 0, 0, []⟩ _ [.closed] hsplit (fun _ => ⟨[], rfl⟩)
  exact ⟨v, gfr', hget, hv⟩

/-- A full piece leaves no NUL in the buffer that it is read into. -/
theorem readHeader_unending {p : List UInt8} (rs : List Received) (mem : Memory) (h0 : 0 ∉ p) (hlen : p.length = 256) :
    readHeader (.bytes p :: rs) mem = .undefined := by
  have hne : p ≠ [] := by
    rintro rfl
    cases hlen
  have hfull : cstr (overlay p (List.replicate 256 0)) = none := by
    rw [overlay, List.drop_eq_nil_of_le (by rw [List.length_replicate]; omega), cstr_append h0]
    rfl
  rw [readHeader, if_neg (count_pos hne), Received.data, strcat, hfull]
  cases cstr mem <;> rfl

theorem rejected_short (h0 : 0 ∉ h) (hr : Rejected header h) : h.length < 256 := by
  by_contra hlong
  have htake : (h.take 256).length = 256 := by rw [List.length_take]; omega
  have hrest : Splits 256 (h.drop 256) ((h.drop 256).map fun c => [c]) := by
    constructor
    · rw [← List.flatMap_def]
      exact List.flatMap_singleton' _
    · intro p hp
      obtain ⟨c, -, rfl⟩ := List.mem_map.mp hp
      simp
  have hsplit := splits_cons (by omega : 0 < (h.take 256).length) (by omega) hrest
  rw [List.take_append_drop] at hsplit
  obtain ⟨v, gfr', hget, -⟩ := rejected_first hr hsplit
  rw [getMessages, readHeader_unending _ _ (fun hz => h0 (List.mem_of_mem_take hz)) htake] at hget
  cases hget

theorem rejected_other (h0 : 0 ∉ h) (hne : h ≠ []) (hr : Rejected header h) :
    ∃ g, cstr header.toList = some g ∧ g.length + h.length < 1000 ∧ OtherScheme g h := by
  have hlen := rejected_short h0 hr
  have hwhole : Splits 256 h [h] := by
    have hsingle := splits_cons (List.length_pos_iff.mpr hne) (Nat.le_of_lt hlen)
      (⟨rfl, by simp⟩ : Splits 256 ([] : List UInt8) [])
    rwa [List.append_nil] at hsingle
  obtain ⟨v, gfr', hget, -⟩ := rejected_first hr hwhole
  cases hg : cstr header.toList with
  | none =>
      rw [getMessages, readHeader_unterminated _ hne hg] at hget
      cases hget
  | some g =>
      obtain ⟨hg0, mem, hmem, h999⟩ := garbage_text hg
      have hroom : h.length ≤ mem.length := by
        by_contra hfull
        rw [getMessages, hmem, readHeader_full _ mem hg0 h0 hne hlen (by omega)] at hget
        cases hget
      refine ⟨g, rfl, by omega, ?_⟩
      rintro p ⟨e, rfl⟩ hpne hend
      obtain ⟨pieces, hsplit⟩ := splits_pair hpne hlen
      obtain ⟨v, gfr', hget, hv⟩ := rejected_first hr hsplit
      rw [List.length_append] at hlen hroom
      rw [List.mem_append, not_or] at h0
      have hpiece := readHeader_piece (pieces.map .bytes ++ [.closed]) mem hg0 h0.1 hpne (by omega) (by omega)
      rw [if_neg (fun hn => strstr_eq_none_iff.mp hn hend), ← hmem] at hpiece
      have hp0 : 0 ∉ g ++ p := by simp [hg0, h0.1]
      rw [getMessages_finished hp0 hpiece] at hget
      cases hread : reading (g ++ p) with
      | none => rw [hread] at hget; cases hget
      | some r =>
          rw [hread] at hget
          cases hget
          exact other_of_reading hread hv

/-- The client rejects bytes that are too few for one `recv` and, behind the
text that happens to be in its array, do not start with the scheme; that
covers the malformed headers and those that are cut short. -/
theorem bytes_rejected_iff (header : Garbage) {h : List UInt8} (h0 : 0 ∉ h) :
    Rejected header h ↔ h = [] ∨ h.length < 256 ∧
      ∃ g, cstr header.toList = some g ∧ g.length + h.length < 1000 ∧ OtherScheme g h := by
  constructor
  · intro hr
    by_cases hne : h = []
    · exact .inl hne
    · exact .inr ⟨rejected_short h0 hr, rejected_other h0 hne hr⟩
  · rintro (rfl | ⟨hlen, g, hg, hroom, hother⟩)
    · exact nothing_rejected header
    · exact other_rejected h0 hlen hg hroom hother

theorem otherScheme_rejected_iff :
    Rejected (Vector.replicate 1000 0) (ascii "FOO\r\n\r\n") ↔ ascii "FOO\r\n\r\n" = [] ∨
      (ascii "FOO\r\n\r\n").length < 256 ∧ ∃ g, cstr (Vector.replicate 1000 (0 : UInt8)).toList = some g ∧
        g.length + (ascii "FOO\r\n\r\n").length < 1000 ∧ OtherScheme g (ascii "FOO\r\n\r\n") :=
  bytes_rejected_iff _ (by decide)

theorem unknownStatus_malformed : Malformed (ascii "GETFILE FOO\r\n\r\n") := by
  refine ⟨⟨ascii "GETFILE FOO", by decide⟩, strstr_eq_none_iff.mp (by decide), ?_⟩
  have hother : ∀ t, Response t → t[9]? ≠ some 79 := by
    intro t ht
    cases ht with
    | @ok digits hne hdigits =>
        have hbyte : (ascii "GETFILE OK " ++ digits ++ headerEnd)[9]? = some 75 := rfl
        rw [hbyte]
        decide
    | @other status hok => cases status <;> first | exact absurd rfl hok | decide
  exact fun hr => hother _ hr (by decide)

/-- An unknown status word is taken for `GF_OK`, and its length is looked for in vain. -/
theorem unknownStatus_not_rejected : ¬ ∀ (header : Garbage) (h : List UInt8), 0 ∉ h → h.length < 1000 →
    Malformed h ∨ Unfinished h → Rejected header h := by
  intro hall
  have hr := hall (Vector.replicate 1000 0) (ascii "GETFILE FOO\r\n\r\n") (by decide) (by decide)
    (.inl unknownStatus_malformed)
  obtain ⟨g, hg, -, hother⟩ := rejected_other (by decide) (by decide) hr
  have hempty : g = [] := by
    rw [Vector.toList_replicate, List.replicate_succ, cstr_zero] at hg
    exact (Option.some.inj hg).symm
  subst hempty
  exact hother _ List.prefix_rfl (by decide) ⟨ascii "GETFILE FOO", [], by decide⟩ (by decide)

end GraduateOS.Gflib.Rejections
