import GraduateOS.Curl.Handler

namespace GraduateOS.Curl.LocalFiles

open Library.CStrings hiding Memory
open Handler hiding bufsize sendLoop Outcome

def bufsize : Nat := 512

def serverFailure : Int := -1

/-- What `open` finds under a name. -/
inductive Opened
  | file (content : List UInt8)
  | missing
  | failed

/-- How many bytes more than one the `k`-th `read` gives, as far as there are
so many. There is none for an error. -/
abbrev Reads := Nat → Option Nat

def read (content : List UInt8) (position : Nat) (more : Option Nat) : Option (List UInt8) :=
  more.map fun more => (content.drop position).take (min (more + 1) bufsize)

inductive Outcome
  | undefined
  | running
  | returned (value : Int) (sent : List Sent)

/-- The loop of `handle_with_file`, with the value returned and what
`gfs_send` has taken. The file does not change meanwhile. -/
def sendLoop (content : List UInt8) (reads : Reads) (send : GfsSend) :
    Nat → Nat → Nat → Option (Int × List (List UInt8))
  | 0, _, bytesTransferred =>
      if bytesTransferred < content.length then none else some (bytesTransferred, [])
  | fuel + 1, k, bytesTransferred =>
      if bytesTransferred < content.length then
        match read content bytesTransferred (reads k) with
        | none => some (serverFailure, [])
        | some data =>
            if data = [] then some (serverFailure, [])
            else
              let writeLen := send.reply k data.length
              if writeLen ≠ data.length then some (serverFailure, [data.take writeLen.toNat])
              else
                (sendLoop content reads send fuel (k + 1) (bytesTransferred + data.length)).map
                  fun rest => (rest.1, data :: rest.2)
      else some (bytesTransferred, [])

/-- `handle_with_file`. The buffer first holds the name of the file, which
neither copy keeps from overrunning it. -/
def handleWithFile (dataDir path : CString) (opens : List UInt8 → Opened) (fstat : Bool) (headerResult : Int)
    (reads : Reads) (send : GfsSend) : Outcome :=
  match (strncat (strncpy dataDir bufsize) path bufsize).bind cstr with
  | none => .undefined
  | some name =>
      match opens name with
      | .missing => .returned headerResult [.header .fileNotFound 0]
      | .failed => .returned serverFailure []
      | .file content =>
          if fstat then
            match sendLoop content reads send content.length 0 0 with
            | none => .running
            | some (value, chunks) => .returned value (.header .ok content.length :: chunks.map .data)
          else .returned serverFailure []

def Faulty (reads : Reads) (send : GfsSend) (k : Nat) : Prop :=
  reads k = none ∨ ∃ len, 0 < len ∧ len ≤ bufsize ∧ send.reply k len ≠ len

/-- The rounds up to one that did not go through have sent something each. -/
def Breaks (reads : Reads) (send : GfsSend) (k : Nat) (chunks : List (List UInt8)) : Prop :=
  ∃ j, j ≤ chunks.length ∧ (∀ data ∈ chunks.take j, data ≠ []) ∧ Faulty reads send (k + j)

def Sends (text : List UInt8) (total : Nat) (reads : Reads) (send : GfsSend) (k : Nat) (value : Int)
    (chunks : List (List UInt8)) : Prop :=
  value = total ∧ chunks.flatten = text ∨
    value = serverFailure ∧ chunks.flatten <+: text ∧ Breaks reads send k chunks

variable {content data : List UInt8} {reads : Reads} {send : GfsSend} {k n fuel : Nat} {dataDir path : CString}

theorem drop_taken (xs : List UInt8) (m : Nat) : xs.drop (xs.take m).length = xs.drop m := by
  rw [List.length_take]
  by_cases hm : m ≤ xs.length
  · rw [Nat.min_eq_left hm]
  · rw [Nat.min_eq_right (by omega), List.drop_length, List.drop_eq_nil_of_le (by omega)]

theorem read_some {more : Option Nat} (hn : n < content.length) (h : read content n more = some data) :
    data ≠ [] ∧ data.length ≤ bufsize ∧ content.drop n = data ++ content.drop (n + data.length) := by
  obtain ⟨more, -, rfl⟩ := Option.map_eq_some_iff.mp h
  refine ⟨?_, ?_, ?_⟩
  · rw [ne_eq, List.take_eq_nil_iff, List.drop_eq_nil_iff, bufsize]
    omega
  · rw [List.length_take]
    omega
  · rw [← List.drop_drop, drop_taken, List.take_append_drop]

theorem breaks_here (chunks : List (List UInt8)) (h : Faulty reads send k) : Breaks reads send k chunks := by
  refine ⟨0, Nat.zero_le _, fun data hdata => ?_, h⟩
  rw [List.take_zero] at hdata
  cases hdata

theorem Breaks.cons {chunks : List (List UInt8)} (h : Breaks reads send (k + 1) chunks) (hne : data ≠ []) :
    Breaks reads send k (data :: chunks) := by
  obtain ⟨j, hj, hsent, hfault⟩ := h
  refine ⟨j + 1, Nat.succ_le_succ hj, fun data' hdata' => ?_, ?_⟩
  · rw [List.take_succ_cons] at hdata'
    rcases List.mem_cons.mp hdata' with rfl | hrest
    · exact hne
    · exact hsent data' hrest
  · rwa [← Nat.add_assoc, Nat.add_right_comm]

/-- Every round that goes through sends at least one byte more. -/
theorem sendLoop_sends (hn : n ≤ content.length) (hfuel : content.length ≤ n + fuel) :
    ∃ value chunks, sendLoop content reads send fuel k n = some (value, chunks) ∧
      Sends (content.drop n) content.length reads send k value chunks := by
  induction fuel generalizing k n with
  | zero =>
      have hend : n = content.length := by omega
      rw [sendLoop, if_neg (by omega)]
      exact ⟨_, _, rfl, .inl ⟨by rw [hend], by rw [hend, List.drop_length]; rfl⟩⟩
  | succ fuel ih =>
      rw [sendLoop]
      split
      next hlt =>
        cases hread : read content n (reads k) with
        | none =>
            have hfault : Faulty reads send k := .inl (Option.map_eq_none_iff.mp hread)
            exact ⟨_, _, rfl, .inr ⟨rfl, List.nil_prefix, breaks_here [] hfault⟩⟩
        | some data =>
            obtain ⟨hne, hshort, htext⟩ := read_some hlt hread
            have hpos := List.length_pos_iff.mpr hne
            have hrest : n + data.length ≤ content.length := by
              have hlength := congrArg List.length htext
              rw [List.length_append, List.length_drop, List.length_drop] at hlength
              omega
            simp only [if_neg hne]
            split
            next hwrite =>
              have hfault : Faulty reads send k := .inr ⟨data.length, hpos, hshort, hwrite⟩
              refine ⟨_, _, rfl, .inr ⟨rfl, ?_, breaks_here _ hfault⟩⟩
              rw [htext, List.flatten_singleton]
              exact (List.take_prefix _ data).trans (List.prefix_append data _)
            next =>
              obtain ⟨value, chunks, hloop, hsends⟩ := ih (k := k + 1) hrest (by omega)
              rw [hloop]
              refine ⟨_, _, rfl, ?_⟩
              rw [Sends, htext, List.flatten_cons]
              rcases hsends with ⟨hvalue, hall⟩ | ⟨hvalue, hpart, hbreaks⟩
              · exact .inl ⟨hvalue, by rw [hall]⟩
              · exact .inr ⟨hvalue, (List.prefix_append_right_inj data).mpr hpart, hbreaks.cons hne⟩
      next hge =>
        have hend : n = content.length := by omega
        exact ⟨_, _, rfl, .inl ⟨by rw [hend], by rw [hend, List.drop_length]; rfl⟩⟩

/-- What the client gets for a file, and the value that tells the library of it.
Only where `fstat` fails nothing is sent. -/
structure Replies (content : List UInt8) (fstat : Bool) (reads : Reads) (send : GfsSend) (outcome : Outcome) : Prop where
  nothing : fstat = false → outcome = .returned serverFailure []
  whole : fstat = true → (∀ k, ¬ Faulty reads send k) → ∃ chunks : List (List UInt8), chunks.flatten = content ∧
    outcome = .returned content.length (.header .ok content.length :: chunks.map .data)
  part : fstat = true → ∃ (value : Int) (chunks : List (List UInt8)),
    outcome = .returned value (.header .ok content.length :: chunks.map .data) ∧ chunks.flatten <+: content ∧
      (value = content.length ∧ chunks.flatten = content ∨ value = serverFailure ∧ Breaks reads send 0 chunks)

def dataRoot : CString := ⟨ascii "/data", by decide⟩

def fileName : CString := ⟨ascii "/f", by decide⟩

end GraduateOS.Curl.LocalFiles
