import GraduateOS.Gflib.Messages
import GraduateOS.Library.MachineInts
import GraduateOS.Library.Scanf
import GraduateOS.Library.Strtok

namespace GraduateOS.Gflib.Responses

open Library.CStrings Library.MachineInts Library.Scanf Library.Strtok Messages

structure Call where
  data : List UInt8
  len : Nat

def Call.bytes (call : Call) : List UInt8 := call.data.take call.len

/-- The fields of `gfcrequest_t` that `gfc_getMessages` writes, and its calls of the callback. -/
structure Gfr where
  status : Status
  fileLen : Nat
  bytesRecieved : Nat
  written : List Call

/-- The value is missing where the function ends without a `return`. -/
inductive Outcome
  | waiting
  | undefined
  | returned (value : Option Int) (gfr : Gfr)

inductive HeaderReading
  | waiting
  | undefined
  | refused
  | finished (header : Memory) (rs : List Received)

/-- The loop that collects the header. Neither the array nor the count of bytes
is looked at: `strcat` goes by the NULs. -/
def readHeader : List Received → Memory → HeaderReading
  | [], _ => .waiting
  | r :: rs, header =>
      if r.count ≤ 0 then .refused
      else
        match strcat header (overlay r.data (List.replicate 256 0)) with
        | none => .undefined
        | some header =>
            if (cstr header).bind (strstr · headerEnd) = none then readHeader rs header
            else .finished header rs

def bodyLoop : List Received → Gfr → Outcome
  | [], gfr => if gfr.bytesRecieved < gfr.fileLen then .waiting else .returned none gfr
  | r :: rs, gfr =>
      if gfr.bytesRecieved < gfr.fileLen then
        let recvBytes := toUInt64 r.count
        let gfr := { gfr with bytesRecieved := toUInt64 (gfr.bytesRecieved + recvBytes) }
        if recvBytes = 0 ∧ gfr.bytesRecieved < gfr.fileLen then
          .returned (some 0) { gfr with status := .error }
        else bodyLoop rs { gfr with written := gfr.written ++ [⟨r.data, recvBytes⟩] }
      else .returned none gfr

def blank : List UInt8 := [32]

def lineEnds : List UInt8 := [13, 10]

/-- The last branch: the length and the start of the body, again by `strtok`. -/
def okBranch (m : Scanner) (status : Option Nat) (rs : List Received) (gfr : Gfr) : Option Outcome := do
  let (m, _) ← strtok m status blank
  let (m, _) ← strtok m none blank
  let (m, length) ← strtok m none lineEnds
  let fileLen ← atoi (← cstr (m.mem.drop (← length)))
  let (m, rest) ← strtok m none lineEnds
  let restMessage ← cstr (m.mem.drop (← rest))
  let calls := if 0 < restMessage.length then [⟨restMessage, restMessage.length⟩] else []
  return bodyLoop rs ⟨.ok, toUInt64 fileLen, restMessage.length, gfr.written ++ calls⟩

/-- The branches on the status word, each of which may cut the word anew. -/
def parseStatus (m : Scanner) (status : Option Nat) (rs : List Received) (gfr : Gfr) : Option Outcome := do
  let (m, token) ← strtok m status lineEnds
  if ← strcmp m token (ascii "FILE_NOT_FOUND") then
    return .returned (some 0) { gfr with status := .fileNotFound }
  let (m, token) ← strtok m status lineEnds
  if ← strcmp m token (ascii "ERROR") then
    return .returned (some 0) { gfr with status := .error }
  if ← strcmp m status (ascii "INVALID") then
    return .returned (some 0) { gfr with status := .invalid }
  okBranch m status rs gfr

def parseHeader (header : Memory) (rs : List Received) (gfr : Gfr) : Option Outcome := do
  let (m, scheme) ← strtok ⟨header, 0⟩ (some 0) blank
  let (m, status) ← strtok m none blank
  if ← strcmp m scheme getfile then parseStatus m status rs gfr
  else return .returned (some (-1)) { gfr with status := .invalid }

/-- `gfc_getMessages`, with the header array as the function finds it. -/
def getMessages (header : Memory) (rs : List Received) (gfr : Gfr) : Outcome :=
  match readHeader rs header with
  | .waiting => .waiting
  | .undefined => .undefined
  | .refused => .returned (some (-1)) { gfr with status := .invalid }
  | .finished header rs => (parseHeader header rs gfr).getD .undefined

/-- The status that a status word stands for; any other word leads to the last branch. -/
def verdict (v : List UInt8) : Option Status :=
  if word lineEnds v = ascii "FILE_NOT_FOUND" then some .fileNotFound
  else if word lineEnds v = ascii "ERROR" then some .error
  else if skipped lineEnds v ++ word lineEnds v = ascii "INVALID" then some .invalid
  else none

end GraduateOS.Gflib.Responses
