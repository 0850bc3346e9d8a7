import GraduateOS.Library.Chunks
import GraduateOS.Library.CStrings

namespace GraduateOS.Transfer.Records

open Library.Chunks Library.CStrings

abbrev Content := List UInt8

def bufsize : Nat := 218

/-- A `char` array of this size, as the function finds it. -/
abbrev Buffer := Vector UInt8 bufsize

def newline : UInt8 := 10

def zeros (n : Nat) : Memory := List.replicate n 0

/-- What `fgets` takes from the file: at most `n` bytes, and no byte after a newline. -/
def line : Nat → Content → Content
  | 0, _ => []
  | _, [] => []
  | n + 1, c :: file => if c = newline then [c] else c :: line n file

/-- The array after `fgets`, which puts a NUL behind the line. -/
def fgets (data : Memory) (file : Content) : Memory :=
  overlay (line (bufsize - 1) file ++ [0]) data

/-- The bodies of `send` in the loop of `send_contents`, one whole array each.
Before each `fgets` the array is zero, by its initialiser or by `bzero`. -/
def sendLoop : Nat → Content → List Memory
  | 0, _ => []
  | _, [] => []
  | n + 1, file =>
      fgets (zeros bufsize) file :: sendLoop n (file.drop (line (bufsize - 1) file).length)

/-- Each round takes a byte at least, so a round for each byte is enough. -/
def sendContents (file : Content) : List Memory := sendLoop file.length file

/-- `save_file`, from the results of `recv` to the bytes written to the file. A
result covers only the start of the array; `%s` reads on to the first NUL. -/
def saveLoop : List Memory → Memory → Option Content
  | [], _ => some []
  | piece :: pieces, buffer =>
      (cstr (overlay piece buffer)).bind fun text =>
        (saveLoop pieces (overlay piece buffer)).map (text ++ ·)

def saveFile (buffer : Buffer) (pieces : List Memory) : Option Content :=
  saveLoop pieces buffer.toList

theorem line_run {run : Content} {n : Nat} (h : newline ∉ run) (hn : run.length ≤ n) (file : Content) :
    line n (run ++ file) = run ++ line (n - run.length) file := by
  induction run generalizing n with
  | nil => rfl
  | cons c run ih =>
      obtain ⟨hc, hrun⟩ := not_or.mp (List.mem_cons.not.mp h)
      cases n with
      | zero => exact absurd hn (Nat.not_succ_le_zero _)
      | succ n =>
          rw [List.cons_append, line, if_neg (Ne.symm hc), ih hrun (Nat.le_of_succ_le_succ hn), List.length_cons,
            Nat.add_sub_add_right, List.cons_append]

end GraduateOS.Transfer.Records
