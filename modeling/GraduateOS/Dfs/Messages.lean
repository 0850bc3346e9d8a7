import GraduateOS.Dfs.Checksum
import GraduateOS.Library.Chunks
import GraduateOS.Library.MachineInts

namespace GraduateOS.Dfs.Messages

open Directory Checksum Library.Chunks

inductive StatusCode
  | ok | cancelled | unknown | invalidArgument | deadlineExceeded | notFound | alreadyExists
  | permissionDenied | resourceExhausted | failedPrecondition | aborted | outOfRange
  | unimplemented | internal | unavailable | dataLoss | unauthenticated
  deriving DecidableEq

structure StoreFileInput where
  fileName : String := ""
  clientID : String := ""
  contentSize : Nat := 0
  content : Content := []
  crc : UInt32 := 0
  deriving DecidableEq

structure FetchFileInput where
  fileName : String
  crc : UInt32

structure FetchFileOutput where
  contentSize : Nat := 0
  content : Content := []
  crc : UInt32 := 0
  deriving DecidableEq

structure DeleteFileInput where
  fileName : String
  clientID : String

structure RequestLockInput where
  clientID : String
  fileName : String

/-- The two maps of a listing; the times travel as `int32`. -/
structure CallbackListOutput where
  mtime : AList (fun _ : String => Int)
  crc : AList (fun _ : String => UInt32)

instance : DecidableEq CallbackListOutput := fun r r' =>
  decidable_of_iff (r.mtime.entries = r'.mtime.entries ∧ r.crc.entries = r'.crc.entries) (by
    cases r; cases r'; simp [AList.ext_iff])

/-- What `file.write(content.c_str(), contentsize)` takes of a message. -/
def written (content : Content) (contentSize : Nat) : Content := content.take contentSize

def fileChunks (content : Content) : List (Nat × Content) :=
  readChunks content content.length (if content.length < 4000 then content.length else 4000) 0

theorem fileChunks_nil : fileChunks [] = [] := rfl

theorem fileChunks_ne_nil {content : Content} (h : content ≠ []) : fileChunks content ≠ [] :=
  readChunks_ne_nil _ _ _ _ (List.length_pos_iff.mpr h) (List.length_pos_iff.mpr h)

theorem fileChunks_flatten (content : Content) :
    ((fileChunks content).map Prod.snd).flatten = content := by
  by_cases h : content = []
  · subst content; rfl
  · have hp := List.length_pos_iff.mpr h
    rw [fileChunks, readChunks_flatten _ _ _ _ (by split <;> omega) (by omega), List.drop_zero]

theorem fileChunks_sizes {content : Content} {p : Nat × Content} (hp : p ∈ fileChunks content) :
    p.1 = p.2.length ∧ 0 < p.1 ∧ p.1 ≤ 4000 := by
  by_cases h : content = []
  · subst content; cases hp
  · have hl := List.length_pos_iff.mpr h
    obtain ⟨he, h0, hle⟩ := readChunks_sizes _ _ _ _ (by split <;> omega) p hp
    refine ⟨he, h0, Nat.le_trans hle ?_⟩
    split <;> omega

theorem fileChunks_length (content : Content) : (fileChunks content).length = (content.length + 3999) / 4000 := by
  have hcut := readChunks_cut content content.length 4000 0
  rw [Nat.sub_zero] at hcut
  rw [fileChunks, hcut, readChunks_length _ _ _ _ (by decide) (by omega)]
  rfl

end GraduateOS.Dfs.Messages
