import GraduateOS.Dfs.Directory
import Mathlib.Algebra.Group.Nat.Defs
import Mathlib.Logic.Function.Iterate

namespace GraduateOS.Dfs.Checksum

open Directory

/-- `Reflect(0x04C11DB7, 32)`, the polynomial of `CRC::CRC_32()`. -/
def polynomial : UInt32 := 0xEDB88320

def remainderBit (remainder : UInt32) : UInt32 :=
  if remainder &&& 1 = 1 then (remainder >>> 1) ^^^ polynomial else remainder >>> 1

/-- The entry that `InitTable` computes for one byte. -/
def tableEntry (byte : UInt8) : UInt32 := remainderBit^[8] byte.toUInt32

def calculateRemainder (data : Content) (remainder : UInt32) : UInt32 :=
  data.foldl (fun r byte => (r >>> 8) ^^^ tableEntry (r.toUInt8 ^^^ byte)) remainder

/-- `CRC::Calculate` continued from a previous value. Input and output are both
reflected, so finalizing is only the exclusive or. -/
def calculate (data : Content) (crc : UInt32) : UInt32 :=
  calculateRemainder data (crc ^^^ 0xFFFFFFFF) ^^^ 0xFFFFFFFF

def dfsBufferSize : Nat := 4096

def bufferSize (fileSize : Nat) : Nat :=
  if fileSize < dfsBufferSize then
    if fileSize / 2 = 0 then 1 else fileSize / 2
  else dfsBufferSize

def chunkCount (fileSize : Nat) : Nat :=
  (fileSize / bufferSize fileSize % 2 ^ 32 +
    if fileSize % bufferSize fileSize = 0 then 0 else 1) % 2 ^ 32

/-- The reading loop. A short last read leaves the tail of `buffer` as it was,
and the CRC is taken over the whole buffer all the same. -/
def checksumLoop (content : Content) (size : Nat) : Nat → Content → Nat → UInt32 → UInt32
  | 0, _, _, crc => crc
  | n + 1, buffer, position, crc =>
      let readSize := if content.length - position < size then content.length - position else size
      if (content.drop position).length < readSize then crc
      else
        let buffer := (content.drop position).take readSize ++ buffer.drop readSize
        checksumLoop content size n buffer (position + readSize) (calculate buffer crc)

/-- `garbage` is what the uninitialised array holds when the function starts. -/
def fileChecksum (garbage content : Content) : UInt32 :=
  checksumLoop content (bufferSize content.length) (chunkCount content.length) garbage 0 0

/-- The checksum of the file at a path, 0 when `lstat` finds none. -/
def dfsFileChecksum : Option Content → UInt32
  | none => 0
  | some content => fileChecksum (List.replicate (bufferSize content.length) 0) content

theorem bufferSize_le (n : Nat) (h : n ≠ 0) : bufferSize n ≤ n := by
  unfold bufferSize dfsBufferSize
  split
  · split <;> omega
  · omega

/-- The first read fills the buffer, so nothing depends on its old bytes. -/
theorem fileChecksum_garbage (garbage garbage' content : Content)
    (h : garbage.length = bufferSize content.length)
    (h' : garbage'.length = bufferSize content.length) :
    fileChecksum garbage content = fileChecksum garbage' content := by
  by_cases hc : content.length = 0
  · have hn : chunkCount content.length = 0 := by rw [hc]; decide
    rw [fileChecksum, fileChecksum, hn, checksumLoop, checksumLoop]
  · have hle := bufferSize_le content.length hc
    unfold fileChecksum
    cases chunkCount content.length with
    | zero => rfl
    | succ n =>
        have hread : ¬ content.length - 0 < bufferSize content.length := by omega
        simp only [checksumLoop, hread, if_false, List.drop_of_length_le (Nat.le_of_eq h),
          List.drop_of_length_le (Nat.le_of_eq h')]

@[simp] theorem checksum_absent : dfsFileChecksum none = 0 := rfl

@[simp] theorem checksum_nil : dfsFileChecksum (some []) = 0 := rfl

def CollisionFree (contents : List Content) : Prop :=
  ∀ b ∈ contents, ∀ b' ∈ contents, dfsFileChecksum (some b) = dfsFileChecksum (some b') → b = b'

instance (contents : List Content) : Decidable (CollisionFree contents) :=
  inferInstanceAs (Decidable (∀ b ∈ contents, ∀ b' ∈ contents, _ → _))

end GraduateOS.Dfs.Checksum
