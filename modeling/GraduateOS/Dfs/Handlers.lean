import GraduateOS.Dfs.ServerNode

namespace GraduateOS.Dfs.Handlers

open Directory Checksum Messages ServerNode

/-- Where a `storeFile` handler stands: before `Read`, before `IsCancelled`,
`lock`, the checksum test, the `unlock` of an unchanged file, `open`, `write`,
`close`, and the `unlock` at the end. -/
inductive StorePc
  | read | isCancelled | lock | compare | unlockSame | openFile | write | close | unlock
  deriving DecidableEq

inductive DeletePc
  | isCancelled | remove | lock | unlock
  deriving DecidableEq

/-- A call in progress. All messages of a store stream name the same `file`. -/
inductive Call
  | store (file : String) (pc : StorePc) (v : StoreVars)
  | delete (pc : DeletePc) (request : DeleteFileInput)
  | requestLock (request : RequestLockInput)

inductive Input
  | message (request : StoreFileInput)
  | endOfStream
  | isCancelled (b : Bool)
  | go (now : Int)

inductive Progress
  | running (call : Call)
  | returned (code : StatusCode)

def storeStep (s : Server) (file : String) (v : StoreVars) : StorePc → Input → Option (Server × Progress)
  | .read, .message request =>
      some (s, .running (.store file .isCancelled { v with request := request }))
  | .read, .endOfStream => some (s, .running (.store file .close v))
  | .isCancelled, .isCancelled true => some (s, .returned .deadlineExceeded)
  | .isCancelled, .isCancelled false =>
      some (s, .running (.store file (if v.flag then .lock else .write) v))
  | .lock, .go _ =>
      let locked := s.lock v.request.fileName v.request.clientID
      if locked.2 = .resourceExhausted then some (locked.1, .returned .resourceExhausted)
      else some (locked.1, .running (.store file .compare v))
  | .compare, .go _ =>
      if v.request.crc = dfsFileChecksum (s.dir.content v.request.fileName) then
        some (s, .running (.store file .unlockSame v))
      else some (s, .running (.store file .openFile v))
  | .unlockSame, .go _ => some ((s.unlock v.request.fileName).1, .returned .alreadyExists)
  | .openFile, .go now =>
      some (s.openOut v.request.fileName now,
        .running (.store file .write { v with flag := false, file := v.request.fileName }))
  | .write, .go now =>
      some (s.writeAt v.file v.bytesTransferred v.request now,
        .running (.store file .read
          { v with bytesTransferred := v.bytesTransferred + v.request.contentSize }))
  | .close, .go _ => some (s, .running (.store file .unlock { v with file := "" }))
  | .unlock, .go _ => some ((s.unlock v.request.fileName).1, .returned .ok)
  | _, _ => none

def deleteStep (s : Server) (request : DeleteFileInput) :
    DeletePc → Input → Option (Server × Progress)
  | .isCancelled, .isCancelled true => some (s, .returned .deadlineExceeded)
  | .isCancelled, .isCancelled false => some (s, .running (.delete .remove request))
  | .remove, .go _ =>
      if s.dir.lookup request.fileName = none then some (s, .returned .notFound)
      else some ({ s with dir := s.dir.remove request.fileName }, .running (.delete .lock request))
  | .lock, .go _ =>
      let locked := s.lock request.fileName request.clientID
      if locked.2 = .resourceExhausted then some (locked.1, .returned .resourceExhausted)
      else some (locked.1, .running (.delete .unlock request))
  | .unlock, .go _ => some ((s.unlock request.fileName).1, .returned .ok)
  | _, _ => none

def callStep (s : Server) : Call → Input → Option (Server × Progress)
  | .store file pc v, i => storeStep s file v pc i
  | .delete pc request, i => deleteStep s request pc i
  | .requestLock request, .go _ =>
      let locked := s.requestLock request
      some (locked.1, .returned locked.2)
  | .requestLock _, _ => none

inductive RunsAlone : Server → Call → Server → StatusCode → Prop
  | last {s call i s' code} : callStep s call i = some (s', .returned code) →
      RunsAlone s call s' code
  | step {s call i s' call' s'' code} : callStep s call i = some (s', .running call') →
      RunsAlone s' call' s'' code → RunsAlone s call s'' code

variable {now : Int}

/-- `storeLoop` is the handler of `storeFile` running alone. -/
theorem storeLoop_runsAlone (file : String) (reads : List (StoreFileInput × Bool)) (s : Server)
    (v : StoreVars) (hv : v.flag = true → v.bytesTransferred = 0) :
    RunsAlone s (.store file .read v) (storeLoop now s v reads).1 (storeLoop now s v reads).2 := by
  induction reads generalizing s v with
  | nil =>
      exact .step (i := .endOfStream) rfl (.step (i := .go now) rfl (.last (i := .go now) rfl))
  | cons r reads ih =>
      obtain ⟨request, isCancelled⟩ := r
      refine .step (i := .message request) rfl ?_
      cases isCancelled with
      | true => exact .last (i := .isCancelled true) rfl
      | false =>
          refine .step (i := .isCancelled false) rfl ?_
          cases hflag : v.flag with
          | false =>
              have hnext := ih (s.writeAt v.file v.bytesTransferred request now)
                ⟨request, false, v.file, v.bytesTransferred + request.contentSize⟩ (by simp)
              rw [storeLoop]
              simp only [hflag, Bool.false_eq_true, if_false]
              exact .step (i := .go now) rfl hnext
          | true =>
              rw [storeLoop]
              simp only [Bool.false_eq_true, if_false, if_true, hflag]
              by_cases hlock : (s.lock request.fileName request.clientID).2 = .resourceExhausted
              · simp only [hlock, if_true]
                exact .last (i := .go now) (if_pos hlock)
              · simp only [hlock, if_false]
                refine .step (i := .go now) (if_neg hlock) ?_
                split
                next hcrc => exact .step (i := .go now) (if_pos hcrc) (.last (i := .go now) rfl)
                next hcrc =>
                  refine .step (i := .go now) (if_neg hcrc) (.step (i := .go now) rfl ?_)
                  refine .step (i := .go now) rfl ?_
                  have hnext := ih (((s.lock request.fileName request.clientID).1.openOut
                    request.fileName now).writeAt request.fileName 0 request now)
                    ⟨request, false, request.fileName, request.contentSize⟩ (by simp)
                  simpa [hv hflag] using hnext

theorem storeFile_runsAlone (file : String) (reads : List (StoreFileInput × Bool)) (s : Server)
    (now : Int) :
    RunsAlone s (.store file .read {}) (s.storeFile reads now).1 (s.storeFile reads now).2 :=
  storeLoop_runsAlone file reads s {} (fun _ => rfl)

theorem deleteFile_runsAlone (request : DeleteFileInput) (isCancelled : Bool) (s : Server) :
    RunsAlone s (.delete .isCancelled request) (s.deleteFile request isCancelled).1
      (s.deleteFile request isCancelled).2 := by
  cases isCancelled with
  | true => exact .last (i := .isCancelled true) rfl
  | false =>
      refine .step (i := .isCancelled false) rfl ?_
      by_cases hfile : s.dir.lookup request.fileName = none
      · rw [Server.deleteFile, if_neg (by simp), if_pos hfile]
        exact .last (i := .go 0) (if_pos hfile)
      · refine .step (i := .go 0) (if_neg hfile) ?_
        rw [Server.deleteFile, if_neg (by simp), if_neg hfile]
        dsimp only
        split
        next hlock => exact .last (i := .go 0) (if_pos hlock)
        next hlock => exact .step (i := .go 0) (if_neg hlock) (.last (i := .go 0) rfl)

end GraduateOS.Dfs.Handlers
