import GraduateOS.Gflib.Messages
import GraduateOS.Library.Scanf

namespace GraduateOS.Gflib.Requests

open Library.CStrings Library.Scanf Messages

def maxRequestLen : Nat := 128

/-- `recvBuffer[numRecv] = '\0'` and the like: an index outside the array is undefined. -/
def store (mem : Memory) (i : Int) (c : UInt8) : Option Memory :=
  if 0 ≤ i ∧ i < mem.length then some (mem.set i.toNat c) else none

/-- `memset(recvBuffer)`, `recv`, the terminator and `strcat(header, recvBuffer)`.
An error of `recv` is reported, and the loop goes on. -/
def appendReceived (r : Received) (header : Memory) : Option Memory :=
  (store (overlay r.data (List.replicate maxRequestLen 0)) r.count 0).bind (strcat header)

inductive Reading
  | waiting
  | undefined
  | finished (header : Memory)

/-- The loop that reads the header, from the results of `recv`. -/
def readHeader : List Received → Memory → Int → Reading
  | [], _, _ => .waiting
  | r :: rs, header, sum =>
      match appendReceived r header with
      | none => .undefined
      | some header =>
          if (cstr header).bind (strstr · headerEnd) = none ∧ sum + r.count < maxRequestLen then
            readHeader rs header (sum + r.count)
          else .finished header

/-- The format `"GETFILE GET /%s \r\n\r\n"`. -/
def requestFormat : List Directive := directives (ascii "GETFILE GET /%s \r\n\r\n")

inductive Answer
  | handler (path : List UInt8)
  | sent (bytes : List UInt8)
  deriving DecidableEq

def parseHeader (header : List UInt8) : Answer :=
  match sscanf requestFormat header with
  | [filepath] => .handler filepath
  | _ => .sent (gfsSendheader .invalid 0)

/-- One round of the loop in `gfserver_serve`, for a client with these results of `recv`. -/
def serve (rs : List Received) : Option Answer :=
  match readHeader rs (List.replicate maxRequestLen 0) 0 with
  | .finished header => (cstr header).map parseHeader
  | _ => none

def Accumulates (rs : List Received) (h : List UInt8) : Prop :=
  ∃ header, readHeader rs (List.replicate maxRequestLen 0) 0 = .finished header ∧ cstr header = some h

theorem serve_accumulates {rs : List Received} {h : List UInt8} (hr : Accumulates rs h) :
    serve rs = some (parseHeader h) := by
  obtain ⟨header, hread, hstr⟩ := hr
  rw [serve, hread]
  simp [hstr]

end GraduateOS.Gflib.Requests
