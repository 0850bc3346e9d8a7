import GraduateOS.Library.CStrings
import GraduateOS.Library.MachineInts
import GraduateOS.Shm.Threads

namespace GraduateOS.Curl.Handler

open Library.CStrings hiding Memory
open Library.MachineInts
open Shm.Threads (Status)

def bufsize : Nat := 128

/-- `struct memory`, with the bytes of the array that `response` points to.
One byte is for the NUL; an array of 2^64 bytes there cannot be. -/
structure Memory where
  response : List UInt8
  size : Nat
  room : response.length = size + 1
  fits : size + 1 < 2 ^ 64

def Memory.body (mem : Memory) : List UInt8 := mem.response.take mem.size

/-- The memory after `malloc(1)`. -/
def Memory.empty (byte : UInt8) : Memory := ⟨[byte], 0, rfl, by decide⟩

/-- `writer`, with whether `realloc` finds the room. -/
def writer (grows : Bool) (data : List UInt8) (mem : Memory) : Nat × Memory :=
  if h : grows ∧ mem.size + data.length + 1 < 2 ^ 64 then
    (data.length, ⟨mem.body ++ data ++ [0], mem.size + data.length, by
      rw [List.length_append, List.length_append, Memory.body, List.length_take, mem.room]
      simp, h.2⟩)
  else (0, mem)

/-- What `gfs_send` gives for its `k`-th call with that many bytes: how many it
has written, or -1. -/
structure GfsSend where
  reply : Nat → Nat → Int
  valid : ∀ k len, reply k len = -1 ∨ (min 1 len : Nat) ≤ reply k len ∧ reply k len ≤ len

def GfsSend.whole : GfsSend := ⟨fun _ len => len, fun _ len => .inr ⟨by omega, Int.le_refl _⟩⟩

structure Slice where
  start : Nat
  length : Nat

/-- The arguments of `gfs_send`. The offset is an `int`, whose overflow is
undefined; the length is an unsigned difference. -/
def slice (mem : Memory) (i : Int) : Option Slice :=
  if i * bufsize < 2 ^ 31 then
    let left := toUInt64 (mem.size - i * bufsize)
    some ⟨(i * bufsize).toNat, if left ≥ bufsize then bufsize else left⟩
  else none

/-- The bytes that `gfs_send` takes of a slice. Outside the array nothing is known. -/
def gfsSend (mem : Memory) (sl : Slice) (n : Int) : Option (List UInt8) :=
  if sl.start + sl.length ≤ mem.response.length then
    some (((mem.response.drop sl.start).take sl.length).take n.toNat)
  else none

/-- The variables of the loop, and what the calls of `gfs_send` have taken. -/
structure Loop where
  i : Int
  bytesTransferred : Nat
  sent : List (List UInt8)

def Loop.start : Loop := ⟨-1, 0, []⟩

/-- A failure is printed and otherwise passed over. -/
def step (mem : Memory) (reply : Nat → Int) (s : Loop) : Option Loop := do
  let i := s.i + 1
  let sl ← slice mem i
  let n := reply sl.length
  let taken ← gfsSend mem sl n
  if n < 0 then some ⟨i, s.bytesTransferred, s.sent⟩
  else some ⟨i, toUInt64 (s.bytesTransferred + n), s.sent ++ [taken]⟩

/-- The loop after so many calls of `gfs_send`, or where it has ended before. -/
def after (mem : Memory) (send : GfsSend) : Nat → Option Loop
  | 0 => some .start
  | k + 1 => (after mem send k).bind fun s =>
      if s.bytesTransferred < mem.size then step mem (send.reply k) s else some s

inductive Sent
  | header (status : Status) (fileLen : Nat)
  | data (bytes : List UInt8)

inductive Outcome
  | running
  | undefined
  | returned (value : Int) (sent : List Sent)

def sendLoop (mem : Memory) (send : GfsSend) (fuel : Nat) : Outcome :=
  match after mem send fuel with
  | none => .undefined
  | some s =>
      if s.bytesTransferred < mem.size then .running
      else .returned (toInt64 s.bytesTransferred) (.header .ok mem.size :: s.sent.map .data)

inductive CURLcode
  | ok | writeError | httpReturnedError
  | other (code : Nat)
  deriving DecidableEq

structure Delivery where
  data : List UInt8
  grows : Bool

/-- A run of `curl_easy_perform`. If `writer` takes fewer bytes than there
were, libcurl ends the transfer with an error of its own. -/
structure Transfer where
  deliveries : List Delivery
  code : CURLcode
  refused : ∀ d ∈ deliveries, d.grows = false → d.data ≠ [] → code = .writeError

def Transfer.content (t : Transfer) : List UInt8 := t.deliveries.flatMap Delivery.data

def collect (mem : Memory) (deliveries : List Delivery) : Memory :=
  deliveries.foldl (fun mem d => (writer d.grows d.data mem).2) mem

/-- The text in the buffer. Neither copy looks at the room that is left. -/
def url (filedir path : CString) : Option (List UInt8) :=
  (strncat (strncpy filedir bufsize) path bufsize).bind cstr

def exitFailure : Int := 1

/-- `handle_with_curl`. Without a handle from libcurl `res` is never set;
`byte` is what `malloc` finds, `headerResult` the value of `gfs_sendheader`. -/
def handleWithCurl (filedir path : CString) (curl : Option Transfer) (byte : UInt8) (headerResult : Int)
    (send : GfsSend) (fuel : Nat) : Outcome :=
  match url filedir path with
  | none => .undefined
  | some buffer =>
      if buffer = [] then .returned (-1) []
      else
        match curl with
        | none => .undefined
        | some t =>
            let chunk := collect (.empty byte) t.deliveries
            match t.code with
            | .httpReturnedError => .returned headerResult [.header .fileNotFound 0]
            | .ok => sendLoop chunk send fuel
            | _ => .returned exitFailure []

variable {mem : Memory} {data : List UInt8} {deliveries : List Delivery} {filedir path : CString}

@[simp] theorem body_length (mem : Memory) : mem.body.length = mem.size := by
  rw [Memory.body, List.length_take, mem.room]
  omega

theorem writer_refuses (data : List UInt8) (mem : Memory) : writer false data mem = (0, mem) := by
  rw [writer, dif_neg]
  rintro ⟨h, -⟩
  cases h

theorem writer_appends (h : mem.size + data.length + 1 < 2 ^ 64) :
    (writer true data mem).2.body = mem.body ++ data ∧ (writer true data mem).2.size = mem.size + data.length := by
  rw [writer, dif_pos ⟨rfl, h⟩]
  refine ⟨?_, rfl⟩
  apply List.take_left'
  rw [List.length_append, body_length]

theorem collect_body (mem : Memory) (hall : ∀ d ∈ deliveries, d.grows = false → d.data = [])
    (hfits : mem.size + (deliveries.flatMap Delivery.data).length + 1 < 2 ^ 64) :
    (collect mem deliveries).body = mem.body ++ deliveries.flatMap Delivery.data := by
  induction deliveries generalizing mem with
  | nil => exact (List.append_nil _).symm
  | cons d deliveries ih =>
      rw [List.flatMap_cons, List.length_append] at hfits
      have hrest := fun d hd => hall d (List.mem_cons_of_mem _ hd)
      rw [collect, List.foldl_cons, List.flatMap_cons]
      cases hd : d.grows with
      | false =>
          rw [hall d List.mem_cons_self hd, writer_refuses]
          exact ih mem hrest (by omega)
      | true =>
          obtain ⟨hbody, hsize⟩ := writer_appends (by omega : mem.size + d.data.length + 1 < 2 ^ 64)
          have hnext := ih (writer true d.data mem).2 hrest (by omega)
          rw [collect, hbody, List.append_assoc] at hnext
          exact hnext

/-- The two copies overrun the buffer exactly when the URL and its NUL do not fit it. -/
theorem url_eq (filedir path : CString) : url filedir path =
    if (filedir.text ++ path.text).length < bufsize then some (filedir.text ++ path.text) else none :=
  strncat_strncpy filedir path bufsize

end GraduateOS.Curl.Handler
