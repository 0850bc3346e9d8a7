import GraduateOS.Dfs.Messages

namespace GraduateOS.Dfs.ServerNode

open Directory Checksum Messages Library.MachineInts

/-- The part of `DFSServiceImpl` that the handlers share: the mount directory
and the map from file names to the clients that hold their locks. -/
structure Server where
  dir : Dir
  lockList : AList (fun _ : String => String)

def Server.holder (s : Server) (f : String) : Option String := s.lockList.lookup f

def Server.lock (s : Server) (fileName clientID : String) : Server × StatusCode :=
  if s.holder fileName = none ∨ s.holder fileName = some clientID then
    ({ s with lockList := s.lockList.insert fileName clientID }, .ok)
  else (s, .resourceExhausted)

def Server.unlock (s : Server) (fileName : String) : Server × StatusCode :=
  if s.holder fileName = none then (s, .notFound)
  else ({ s with lockList := s.lockList.erase fileName }, .ok)

def Server.openOut (s : Server) (f : String) (now : Int) : Server :=
  { s with dir := s.dir.openOut f now }

def Server.writeAt (s : Server) (f : String) (offset : Nat) (request : StoreFileInput) (now : Int) :
    Server :=
  { s with dir := s.dir.writeAt f offset (written request.content request.contentSize) now }

/-- The local variables of `storeFile`; `file` is the name its stream was opened with. -/
structure StoreVars where
  request : StoreFileInput := {}
  flag : Bool := true
  file : String := ""
  bytesTransferred : Nat := 0

/-- The loop of `storeFile`. A list of reads holds the messages that `Read`
returns and, for each, the value of `IsCancelled` after it. At the end of the
list `Read` returns false, for whatever reason the stream ended. -/
def storeLoop (now : Int) (s : Server) (v : StoreVars) :
    List (StoreFileInput × Bool) → Server × StatusCode
  | [] => ((s.unlock v.request.fileName).1, .ok)
  | (request, isCancelled) :: reads =>
      if isCancelled then (s, .deadlineExceeded)
      else if v.flag then
        let locked := s.lock request.fileName request.clientID
        if locked.2 = .resourceExhausted then (locked.1, .resourceExhausted)
        else if request.crc = dfsFileChecksum (locked.1.dir.content request.fileName) then
          ((locked.1.unlock request.fileName).1, .alreadyExists)
        else
          storeLoop now ((locked.1.openOut request.fileName now).writeAt request.fileName 0 request now)
            ⟨request, false, request.fileName, request.contentSize⟩ reads
      else
        storeLoop now (s.writeAt v.file v.bytesTransferred request now)
          ⟨request, false, v.file, v.bytesTransferred + request.contentSize⟩ reads

def Server.storeFile (s : Server) (reads : List (StoreFileInput × Bool)) (now : Int) :
    Server × StatusCode :=
  storeLoop now s {} reads

def sendChunks (crc : UInt32) (isCancelled : Nat → Bool) :
    Nat → List (Nat × Content) → List FetchFileOutput × StatusCode
  | _, [] => ([], .ok)
  | k, (readLength, bytes) :: chunks =>
      if isCancelled k then ([], .deadlineExceeded)
      else
        let rest := sendChunks crc isCancelled (k + 1) chunks
        (⟨readLength, bytes, crc⟩ :: rest.1, rest.2)

/-- The messages that `fetchFile` writes and its status. An absent file and
an unchanged one are both announced by a message without content. -/
def Server.fetchFile (s : Server) (request : FetchFileInput) (isCancelled : Nat → Bool) :
    List FetchFileOutput × StatusCode :=
  match s.dir.content request.fileName with
  | none => ([{}], .notFound)
  | some content =>
      let crc := dfsFileChecksum (some content)
      if request.crc = crc then ([{ crc := crc }], .alreadyExists)
      else sendChunks crc isCancelled 0 (fileChunks content)

def Server.requestLock (s : Server) (request : RequestLockInput) : Server × StatusCode :=
  s.lock request.fileName request.clientID

def Server.deleteFile (s : Server) (request : DeleteFileInput) (isCancelled : Bool) :
    Server × StatusCode :=
  if isCancelled then (s, .deadlineExceeded)
  else if s.dir.lookup request.fileName = none then (s, .notFound)
  else
    let removed : Server := { s with dir := s.dir.remove request.fileName }
    let locked := removed.lock request.fileName request.clientID
    if locked.2 = .resourceExhausted then (locked.1, .resourceExhausted)
    else ((locked.1.unlock request.fileName).1, .ok)

/-- The listing. `readdir` also returns the entries `.` and `..`; both sides
have them, with checksum 0, and no branch acts on them. -/
def Server.processCallback (s : Server) : CallbackListOutput where
  mtime := ⟨s.dir.files.entries.map (.map id fun _ file => toInt32 file.mtime),
    s.dir.files.nodupKeys.map₂ _ _⟩
  crc := ⟨s.dir.files.entries.map (.map id fun _ file => dfsFileChecksum (some file.content)),
    s.dir.files.nodupKeys.map₂ _ _⟩

@[simp] theorem openOut_holder (s : Server) (f g : String) (now : Int) :
    (s.openOut f now).holder g = s.holder g := rfl

theorem lock_granted {s : Server} {f c : String} (h : s.holder f = none ∨ s.holder f = some c) :
    s.lock f c = ({ s with lockList := s.lockList.insert f c }, .ok) := if_pos h

theorem lock_refused {s : Server} {f c c' : String} (h : s.holder f = some c') (hne : c' ≠ c) :
    s.lock f c = (s, .resourceExhausted) := by
  rw [Server.lock, if_neg]
  simp [h, hne]

theorem lock_dir (s : Server) (f c : String) : (s.lock f c).1.dir = s.dir := by
  unfold Server.lock
  split <;> rfl

theorem unlock_dir (s : Server) (f : String) : (s.unlock f).1.dir = s.dir := by
  unfold Server.unlock
  split <;> rfl

theorem lock_holder_ne (s : Server) {f g : String} (c : String) (h : g ≠ f) :
    (s.lock f c).1.holder g = s.holder g := by
  unfold Server.lock
  split
  · exact AList.lookup_insert_ne h
  · rfl

theorem unlock_holder (s : Server) (f g : String) :
    (s.unlock f).1.holder g = if g = f then none else s.holder g := by
  unfold Server.unlock
  split
  next h =>
    by_cases hg : g = f
    · subst g; simpa using h
    · simp [hg]
  next h =>
    by_cases hg : g = f
    · subst g; simp [Server.holder]
    · simp [Server.holder, hg]

theorem processCallback_mtime (s : Server) (f : String) :
    s.processCallback.mtime.lookup f = (s.dir.lookup f).map (fun file => toInt32 file.mtime) :=
  List.dlookup_map₂ f

theorem processCallback_crc (s : Server) (f : String) :
    s.processCallback.crc.lookup f =
      (s.dir.lookup f).map (fun file => dfsFileChecksum (some file.content)) :=
  List.dlookup_map₂ f

end GraduateOS.Dfs.ServerNode
