import GraduateOS.Dfs.Storing

namespace GraduateOS.Dfs.ClientNode

open Directory Checksum Messages ServerNode Storing

inductive Mask
  | create | modify | delete
  deriving DecidableEq

structure Event where
  name : String
  mask : Mask
  deriving DecidableEq

structure Mount where
  dir : Dir
  events : List Event

def Mount.openOut (m : Mount) (f : String) (now : Int) : Mount where
  dir := m.dir.openOut f now
  events := m.events ++
    if f = "" then [] else [⟨f, if m.dir.lookup f = none then .create else .modify⟩]

def Mount.writeAt (m : Mount) (f : String) (offset : Nat) (bytes : Content) (now : Int) : Mount where
  dir := m.dir.writeAt f offset bytes now
  events := m.events ++ if m.dir.lookup f = none ∨ bytes = [] then [] else [⟨f, .modify⟩]

def Mount.remove (m : Mount) (f : String) : Mount where
  dir := m.dir.remove f
  events := m.events ++ if m.dir.lookup f = none then [] else [⟨f, .delete⟩]

def Mount.edit (m : Mount) (f : String) (bytes : Content) (now : Int) : Mount :=
  (m.openOut f now).writeAt f 0 bytes now

def storeMessages (clientId f : String) (content : Content) : List StoreFileInput :=
  (fileChunks content).map (storeMessage f clientId (dfsFileChecksum (some content)))

def storeReply : StatusCode → StatusCode
  | .ok => .ok
  | .deadlineExceeded => .deadlineExceeded
  | .alreadyExists => .alreadyExists
  | _ => .cancelled

/-- `Store` with its RPC taken as one step. An empty file sends no message. -/
def store (clientId : String) (m : Mount) (f : String) (s : Server) (now : Int) :
    Server × StatusCode :=
  match m.dir.content f with
  | none => (s, .cancelled)
  | some content =>
      let answer := s.storeFile (delivered (storeMessages clientId f content)) now
      (answer.1, storeReply answer.2)

/-- The reading loop of `Fetch`. It returns a code when a message ends the
call early, and nothing when `Read` fails. -/
def receiveLoop (crc : UInt32) (f : String) (now : Int) (m : Mount) (opened : Bool)
    (bytesTransferred : Nat) : List FetchFileOutput → Mount × Option StatusCode
  | [] => (m, none)
  | response :: rest =>
      if response.contentSize = 0 then (m, some .notFound)
      else if response.crc = crc then (m, some .alreadyExists)
      else
        let m := if opened then m else m.openOut f now
        receiveLoop crc f now
          (m.writeAt f bytesTransferred (written response.content response.contentSize) now) true
          (bytesTransferred + response.contentSize) rest

def fetchReply (m : Mount) (f : String) : StatusCode → Mount × StatusCode
  | .ok => (m, .ok)
  | .deadlineExceeded => (m.remove f, .deadlineExceeded)
  | .notFound => (m.remove f, .notFound)
  | .alreadyExists => (m, .alreadyExists)
  | _ => (m.remove f, .cancelled)

/-- `Fetch`, given the messages it reads and the final status of the call. -/
def fetchFrom (m : Mount) (f : String) (now : Int) (messages : List FetchFileOutput)
    (status : StatusCode) : Mount × StatusCode :=
  match receiveLoop (dfsFileChecksum (m.dir.content f)) f now m false 0 messages with
  | (m', some code) => (m', code)
  | (m', none) => fetchReply m' f status

def fetchRequest (m : Mount) (f : String) : FetchFileInput := ⟨f, dfsFileChecksum (m.dir.content f)⟩

/-- `Fetch` against a server that does not change meanwhile. No deadline is
set, so the handler never finds the call cancelled. -/
def fetch (m : Mount) (f : String) (s : Server) (now : Int) : Mount × StatusCode :=
  let answer := s.fetchFile (fetchRequest m f) (fun _ => false)
  fetchFrom m f now answer.1 answer.2

/-- `Delete`; after a deletion on the server the local copy goes as well. -/
def delete (clientId : String) (m : Mount) (f : String) (s : Server) : (Server × Mount) × StatusCode :=
  let answer := s.deleteFile ⟨f, clientId⟩ false
  match answer.2 with
  | .ok => ((answer.1, m.remove f), .ok)
  | .deadlineExceeded => ((answer.1, m), .deadlineExceeded)
  | .notFound => ((answer.1, m), .notFound)
  | .resourceExhausted => ((answer.1, m), .resourceExhausted)
  | _ => ((answer.1, m), .cancelled)

def Writes (m m' : Mount) (f : String) : Prop :=
  ∃ events, m'.events = m.events ++ events ∧ ∀ e ∈ events, e.name = f ∧ e.mask ≠ .delete

theorem Writes.refl (m : Mount) (f : String) : Writes m m f := ⟨[], by simp, by simp⟩

theorem Writes.trans {m m' m'' : Mount} {f : String} (h : Writes m m' f) (h' : Writes m' m'' f) :
    Writes m m'' f := by
  obtain ⟨es, he, hes⟩ := h
  obtain ⟨es', he', hes'⟩ := h'
  refine ⟨es ++ es', by rw [he', he, List.append_assoc], ?_⟩
  intro e hm
  rcases List.mem_append.mp hm with hm | hm
  · exact hes e hm
  · exact hes' e hm

theorem openOut_writes (m : Mount) (f : String) (now : Int) : Writes m (m.openOut f now) f := by
  refine ⟨_, rfl, ?_⟩
  intro e he
  split at he
  · cases he
  · cases List.mem_singleton.mp he
    exact ⟨rfl, by split <;> simp⟩

theorem writeAt_writes (m : Mount) (f : String) (offset : Nat) (bytes : Content) (now : Int) :
    Writes m (m.writeAt f offset bytes now) f := by
  refine ⟨_, rfl, ?_⟩
  intro e he
  split at he
  · cases he
  · cases List.mem_singleton.mp he
    exact ⟨rfl, by simp⟩

theorem edit_writes (m : Mount) (f : String) (bytes : Content) (now : Int) :
    Writes m (m.edit f bytes now) f :=
  (openOut_writes m f now).trans (writeAt_writes _ f 0 bytes now)

end GraduateOS.Dfs.ClientNode
