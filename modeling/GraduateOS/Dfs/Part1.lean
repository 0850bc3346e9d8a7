import GraduateOS.Dfs.Storing

namespace GraduateOS.Dfs.Part1

open Directory hiding File
open Messages Storing

structure File where
  fileName : String := ""
  contentSize : Nat := 0
  content : Content := []
  deriving DecidableEq

/-- The reading loop of `DFSClientNodeP1::Fetch`. -/
def receiveLoop (f : String) (now : Int) (d : Dir) (bytesTransferred : Nat) : List File → Dir
  | [] => d
  | response :: rest =>
      receiveLoop f now
        (d.writeAt f bytesTransferred (written response.content response.contentSize) now)
        (bytesTransferred + response.contentSize) rest

def fetchReply (d : Dir) (f : String) : StatusCode → Dir × StatusCode
  | .ok => (d, .ok)
  | .notFound => (d.remove f, .notFound)
  | .deadlineExceeded => (d, .deadlineExceeded)
  | _ => (d, .cancelled)

/-- `DFSClientNodeP1::Fetch`, given the messages it reads and the final status
of the call. The local file is truncated before the call is made. -/
def fetchFrom (d : Dir) (f : String) (now : Int) (messages : List File) (status : StatusCode) :
    Dir × StatusCode :=
  fetchReply (receiveLoop f now (d.openOut f now) 0 messages) f status

/-- The loop of `uploadFile`, over what it reads and the value of `IsCancelled`
after each message. `file` is the name its stream was opened with. -/
def uploadLoop (now : Int) (d : Dir) (file : Option String) (bytesTransferred : Nat) :
    List (File × Bool) → Dir × StatusCode
  | [] => (d, .ok)
  | (request, isCancelled) :: reads =>
      if isCancelled then (d, .deadlineExceeded)
      else
        let name := file.getD request.fileName
        let d := if file.isNone then d.openOut name now else d
        uploadLoop now
          (d.writeAt name bytesTransferred (written request.content request.contentSize) now)
          (some name) (bytesTransferred + request.contentSize) reads

def uploadFile (d : Dir) (reads : List (File × Bool)) (now : Int) : Dir × StatusCode :=
  uploadLoop now d none 0 reads

def fileMessage (f : String) (p : Nat × Content) : File := ⟨f, p.1, p.2⟩

def storeReply : StatusCode → StatusCode
  | .ok => .ok
  | .deadlineExceeded => .deadlineExceeded
  | _ => .cancelled

/-- `DFSClientNodeP1::Store`; `isCancelled` tells for each message whether the
handler then finds the call cancelled. -/
def store (client : Dir) (f : String) (server : Dir) (isCancelled : Nat → Bool) (now : Int) :
    Dir × StatusCode :=
  match client.content f with
  | none => (server, .notFound)
  | some content =>
      let answer := uploadFile server (seen isCancelled ((fileChunks content).map (fileMessage f))) now
      (answer.1, storeReply answer.2)

def received (messages : List File) : Content := (messages.map File.content).flatten

variable {f : String} {now : Int}

theorem receiveLoop_content (now : Int) (messages : List File)
    (hsized : ∀ r ∈ messages, r.contentSize = r.content.length) (d : Dir) {old : Content}
    (hold : d.content f = some old) :
    (receiveLoop f now d old.length messages).content f = some (old ++ received messages) := by
  induction messages generalizing d old with
  | nil => simpa [receiveLoop, received] using hold
  | cons r messages ih =>
      have hr : r.contentSize = r.content.length := hsized r (by simp)
      have hnext : (d.writeAt f old.length (written r.content r.contentSize) now).content f =
          some (old ++ r.content) := by
        rw [written, hr, List.take_length]
        exact content_writeAt_end hold r.content now
      have hrest := ih (fun q hq => hsized q (by simp [hq])) _ hnext
      rw [receiveLoop, hr, ← List.length_append]
      rw [hr] at hrest
      simpa [received] using hrest

theorem fetchFrom_content (hn : f ≠ "") (d : Dir) (messages : List File)
    (hsized : ∀ r ∈ messages, r.contentSize = r.content.length) (status : StatusCode) :
    (fetchFrom d f now messages status).1.content f =
      if status = .notFound then none else some (received messages) := by
  have hopen : (d.openOut f now).content f = some [] := by
    simp [Dir.content, Dir.openOut, hn]
  have hloop := receiveLoop_content now messages hsized _ hopen
  simp only [List.length_nil, List.nil_append] at hloop
  cases status <;> simp [fetchFrom, fetchReply, hloop]

theorem fetchReply_code (d : Dir) (f : String) (status : StatusCode) :
    (fetchReply d f status).2 = .ok ↔ status = .ok := by
  cases status <;> simp [fetchReply]

end GraduateOS.Dfs.Part1
