import GraduateOS.Library.CStrings

namespace GraduateOS.Gflib.Messages

open Library.CStrings

/-- `GF_OK`, `GF_FILE_NOT_FOUND`, `GF_ERROR` and `GF_INVALID`. -/
inductive Status
  | ok | fileNotFound | error | invalid
  deriving DecidableEq

def Status.name : Status → String
  | .ok => "OK"
  | .fileNotFound => "FILE_NOT_FOUND"
  | .error => "ERROR"
  | .invalid => "INVALID"

def getfile : List UInt8 := ascii "GETFILE"

def headerEnd : List UInt8 := [13, 10, 13, 10]

/-- The text that `gfs_sendheader` prints and sends; only `GF_OK` has a length. -/
def gfsSendheader (status : Status) (fileLen : Nat) : List UInt8 :=
  match status with
  | .ok => ascii "GETFILE OK " ++ ascii (toString fileLen) ++ headerEnd
  | .fileNotFound => ascii "GETFILE FILE_NOT_FOUND" ++ headerEnd
  | .error => ascii "GETFILE ERROR" ++ headerEnd
  | .invalid => ascii "GETFILE INVALID" ++ headerEnd

/-- What a call of `recv` gives: some bytes, nothing more for ever, or an error. -/
inductive Received
  | bytes (data : List UInt8)
  | closed
  | failed

def Received.data : Received → List UInt8
  | .bytes data => data
  | _ => []

def Received.count : Received → Int
  | .bytes data => data.length
  | .closed => 0
  | .failed => -1

end GraduateOS.Gflib.Messages
