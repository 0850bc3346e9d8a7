import GraduateOS.Library.CStrings
import GraduateOS.Library.Formats
import GraduateOS.Steques.Nodes

namespace GraduateOS.Shm.Commands

open Library.CStrings Library.Formats
open Library.Scanf (NoSpace)
open Steques.Nodes (Addr enqueue pop)

def bufsize : Nat := 256

/-- A `char` array of this size, as the function finds it. -/
abbrev Buffer := Vector UInt8 bufsize

def commandFormat : List UInt8 := ascii "%s %d"

/-- The text that `handle_with_cache` puts into `buffer`, for a path and the index of a segment. -/
def encode (buffer : Buffer) (path : CString) (i : Int) : Option Memory := do
  let data ← strncat (List.replicate 3500 0) path 3500
  let data ← cstr data
  let text := sprintf commandFormat [.string data, .int i]
  if text.length < bufsize then some (overlay (text ++ [0]) buffer.toList) else none

/-- `mqueue_write`: the text with its NUL, if the message size allows for it. -/
def mqueueWrite (data : Memory) : Option Memory :=
  (cstr data).bind fun text => if text.length + 1 ≤ 256 then some (text ++ [0]) else none

/-- `mqueue_read` into an array that `malloc` has just given. -/
def mqueueRead (sent : Memory) (message : Buffer) : Memory := overlay sent message.toList

/-- What `cacheWorkerFunction` makes of its message. A conversion that fails
leaves a variable without a value, and `path` has room for 255 bytes. -/
def decode (message : Buffer) (msg : Memory) : Option (List UInt8 × Int) :=
  (cstr (overlay (msg.take 255) message.toList)).bind fun text =>
    (sscanf (directives commandFormat) text).bind fun
      | [.string path, .int i] => if path.length < 256 then some (path, i) else none
      | _ => none

/-- A command from one process to the other, through the queue of `bossWorker`. -/
def transmit (buffer heap message : Buffer) (node : Addr) (path : CString) (i : Int) : Option (List UInt8 × Int) := do
  let data ← encode buffer path i
  let sent ← mqueueWrite data
  let s ← enqueue node (mqueueRead sent heap) ∅ Steques.Nodes.init
  let r ← pop s.1 s.2
  decode message r.2

structure Command where
  path : CString
  i : Nat
  path_ne : path.text ≠ []
  path_plain : NoSpace path.text
  int : i < 2 ^ 31
  fits : (sprintf commandFormat [.string path.text, .int i]).length + 1 ≤ bufsize

def Command.text (c : Command) : List UInt8 := sprintf commandFormat [.string c.path.text, .int c.i]

variable {buffer heap message : Buffer} {c : Command} {path : CString} {i : Nat}

theorem sprintf_command (path : List UInt8) (i : Nat) :
    sprintf commandFormat [.string path, .int i] = path ++ 32 :: digits i := by
  have hnat : ¬ (i : Int) < 0 := by omega
  show path ++ sprintf [32, 37, 100] [.int i] = _
  simp [sprintf, showInt, hnat]

theorem digits_nul (i : Nat) : 0 ∉ digits i := fun h => absurd (digits_isdigit i 0 h) (by decide)

theorem Command.text_nul (c : Command) : 0 ∉ c.text := by
  rw [text, sprintf_command]
  simp [c.path.nul, digits_nul]

theorem Command.text_lt (c : Command) : c.text.length < bufsize := c.fits

theorem Command.path_lt (c : Command) : c.path.text.length < 255 := by
  have hlt := c.text_lt
  rw [text, sprintf_command, List.length_append] at hlt
  simp only [bufsize, List.length_cons] at hlt
  omega

theorem encode_command (c : Command) (buffer : Buffer) :
    encode buffer c.path c.i = some (c.text ++ 0 :: buffer.toList.drop (c.text.length + 1)) := by
  have hshort : c.path.text.length ≤ 3499 := by
    have hlt := c.path_lt
    omega
  have hcat : strncat (List.replicate 3500 0) c.path 3500 =
      some (c.path.text ++ 0 :: (List.replicate 3499 0).drop c.path.text.length) := by
    rw [strncat, List.take_of_length_le (by omega)]
    exact strcat_terminated List.not_mem_nil c.path.nul _ [] (by rwa [List.length_replicate])
  simp only [encode, hcat, Option.bind_eq_bind, Option.bind_some, cstr_terminated c.path.nul]
  change (if c.text.length < bufsize then some (overlay (c.text ++ [0]) buffer.toList) else none) = _
  rw [if_pos c.text_lt, overlay, List.length_append, List.append_assoc]
  rfl

theorem mqueueWrite_command (c : Command) (rest : Memory) : mqueueWrite (c.text ++ 0 :: rest) = some (c.text ++ [0]) := by
  rw [mqueueWrite, cstr_terminated c.text_nul, Option.bind_some, if_pos (show c.text.length + 1 ≤ 256 from c.text_lt)]

theorem pop_enqueue (node : Addr) (msg : Memory) :
    ∃ s h, enqueue node msg ∅ Steques.Nodes.init = some s ∧ pop s.1 s.2 = some (h, msg) := by
  exact ⟨_, _, rfl, by rw [pop, Option.bind_some, AList.lookup_insert]; rfl⟩

theorem transmit_command (c : Command) (buffer heap message : Buffer) (node : Addr) :
    transmit buffer heap message node c.path c.i = decode message (overlay (c.text ++ [0]) heap.toList) := by
  obtain ⟨s, h, henqueue, hpop⟩ := pop_enqueue node (overlay (c.text ++ [0]) heap.toList)
  simp only [transmit, encode_command, mqueueWrite_command, mqueueRead, henqueue, hpop, Option.bind_eq_bind,
    Option.bind_some]

theorem sscanf_command (c : Command) :
    sscanf (directives commandFormat) c.text = some [.string c.path.text, .int c.i] := by
  rw [Command.text, sprintf_command]
  exact sscanf_sprintf c.path_plain c.path_ne c.int

theorem decode_command {msg : Memory} (h : cstr (overlay (msg.take 255) message.toList) = some c.text) :
    decode message msg = some (c.path.text, (c.i : Int)) := by
  rw [decode, h, Option.bind_some, sscanf_command, Option.bind_some]
  simp only [if_pos (Nat.lt_succ_of_lt c.path_lt)]

/-- The copy of 255 bytes keeps the NUL of a shorter text. -/
theorem copy_short (h : c.text.length < 255) :
    cstr (overlay ((overlay (c.text ++ [0]) heap.toList).take 255) message.toList) = some c.text := by
  have htake : ∃ rest, (overlay (c.text ++ [0]) heap.toList).take 255 = c.text ++ 0 :: rest := by
    obtain ⟨k, hk⟩ : ∃ k, 255 = c.text.length + (k + 1) := ⟨254 - c.text.length, by omega⟩
    refine ⟨(heap.toList.drop (c.text ++ [0]).length).take k, ?_⟩
    rw [overlay, hk, List.append_assoc, List.take_length_add_append]
    rfl
  obtain ⟨rest, hrest⟩ := htake
  rw [hrest, overlay, List.append_assoc]
  exact cstr_terminated c.text_nul _

/-- With a text of 255 bytes the last byte of the array is the old one. -/
theorem copy_full (h : c.text.length = 255) :
    overlay ((overlay (c.text ++ [0]) heap.toList).take 255) message.toList = c.text ++ [message[255]] := by
  have htake : (overlay (c.text ++ [0]) heap.toList).take 255 = c.text := by
    rw [overlay, List.append_assoc, ← h, List.take_left]
  have hdrop : message.toList.drop 255 = [message[255]] := by
    rw [List.drop_eq_getElem_cons (by rw [Vector.length_toList]; decide),
      List.drop_eq_nil_of_le (by rw [Vector.length_toList]; decide), Vector.getElem_toList]
  rw [htake, overlay, h, hdrop]

/-- The worker reads what the handler has written exactly if the NUL is among
the bytes copied, or stands behind them already. -/
theorem transmit_command_iff (c : Command) (buffer heap message : Buffer) (node : Addr) :
    transmit buffer heap message node c.path c.i = some (c.path.text, (c.i : Int)) ↔
      c.text.length < 255 ∨ message[255] = 0 := by
  rw [transmit_command]
  by_cases hshort : c.text.length < 255
  · exact iff_of_true (decode_command (copy_short hshort)) (.inl hshort)
  · have hfull : c.text.length = 255 := by
      have hlt := c.text_lt
      rw [bufsize] at hlt
      omega
    rw [or_iff_right hshort]
    constructor
    · intro h
      by_contra hbyte
      have hnone : cstr (c.text ++ [message[255]]) = none := by
        rw [cstr_append c.text_nul, cstr_cons hbyte]
        rfl
      rw [decode, copy_full hfull, hnone] at h
      cases h
    · intro hbyte
      refine decode_command ?_
      rw [copy_full hfull, hbyte]
      exact cstr_terminated c.text_nul []

def longCommand : Command where
  path := ⟨List.replicate 253 97, by rw [List.mem_replicate]; decide⟩
  i := 0
  path_ne := by decide
  path_plain := fun c hc => by rw [(List.mem_replicate.mp hc).2]; rfl
  int := by decide
  fits := by rw [sprintf_command, List.length_append, List.length_replicate]; decide

/-- Its text of 255 bytes is not terminated when a digit was left in the array. -/
theorem full_not_decoded : ¬ ∀ (c : Command) (buffer heap message : Buffer) (node : Addr),
    transmit buffer heap message node c.path c.i = some (c.path.text, (c.i : Int)) := by
  intro hall
  have hfives : (Vector.replicate bufsize (53 : UInt8))[255] = 53 := Vector.getElem_replicate _
  rcases (transmit_command_iff longCommand _ _ (Vector.replicate bufsize 53) 0).mp
      (hall longCommand (Vector.replicate bufsize 0) (Vector.replicate bufsize 0) _ 0) with hlen | hbyte
  · rw [Command.text, sprintf_command, List.length_append] at hlen
    simp only [longCommand, List.length_replicate] at hlen
    exact absurd hlen (by decide)
  · rw [hfives] at hbyte
    cases hbyte

end GraduateOS.Shm.Commands
