import GraduateOS.Library.MachineInts
import GraduateOS.Shm.Segments
import Mathlib.Logic.Function.Basic

namespace GraduateOS.Shm.Threads

open Segments Library.MachineInts

inductive Status
  | ok | fileNotFound
  deriving DecidableEq

/-- Where a call of `handle_with_cache` stands. -/
inductive HandlerPc
  | pop | create | send | waitLength | readLength | header | loop | waitReader | readData
  | postWriter | gfsSend | unmap | enqueue | sendNotFound | returned | failed
  deriving DecidableEq

/-- The variables of `handle_with_cache`, and what it has told the client so far. -/
structure Handler where
  pc : HandlerPc := .returned
  path : String := ""
  segment : Nat := 0
  fileLen : Nat := 0
  bytesTransferred : Nat := 0
  k : Int := 0
  readLen : Int := 0
  data : Content := []
  header : Option (Status × Nat) := none
  sent : Content := []

/-- The length that is passed to `gfs_send`. -/
def Handler.sendLen (h : Handler) : Nat := if h.k < 3499 then toUInt64 h.k else toUInt64 h.readLen

/-- A step of `handle_with_cache` that concerns only the segment. `result` is
what `gfs_send` returns. -/
def handlerStep (result : Int) (g : Segment) (h : Handler) : Option (Segment × Handler) :=
  match h.pc with
  | .create => some (g.shmCreate, { h with pc := .send })
  | .waitLength => (g.wait .segment).map fun g' => (g', { h with pc := .readLength })
  | .readLength =>
      let fileLen := toUInt64 g.fileLength
      some (g, { h with fileLen := fileLen, pc := if fileLen = 0 then .unmap else .header })
  | .header =>
      some (g, { h with header := some (.ok, h.fileLen), bytesTransferred := 0, k := 0, pc := .loop })
  | .loop =>
      if h.bytesTransferred < h.fileLen then
        some (g, { h with k := toInt32 ↑(h.fileLen - h.bytesTransferred), pc := .waitReader })
      else some (g, { h with pc := .unmap })
  | .waitReader => (g.wait .reader).map fun g' => (g', { h with pc := .readData })
  | .readData => some (g, { h with data := g.shmReadData, readLen := 3499, pc := .postWriter })
  | .postWriter => some (g.post .writer, { h with pc := if h.readLen < 0 then .failed else .gfsSend })
  | .gfsSend =>
      some (g, { h with
        sent := h.sent ++ h.data.take result.toNat
        bytesTransferred := (h.bytesTransferred + toUInt64 result) % 2 ^ 64
        pc := .loop })
  | .unmap => some (g, { h with pc := .enqueue })
  | .sendNotFound => some (g, { h with header := some (.fileNotFound, h.fileLen), pc := .returned })
  | _ => none

/-- Where an iteration of `cacheWorkerFunction` stands. -/
inductive WorkerPc
  | idle | getObject | lookup | writeLength | postLength | loop | clearData | copyData | postReader
  | advance | waitWriter | unmap
  deriving DecidableEq

/-- The variables of `cacheWorkerFunction`; `fildes` is the file that `simplecache_get` found. -/
structure Worker where
  pc : WorkerPc := .idle
  path : String := ""
  segment : Nat := 0
  fildes : Option Content := none
  fileLen : Int := 0
  bytesTransferred : Int := 0
  k : Int := 0
  buffer : Content := []

/-- `pread` of a regular file returns every byte that is there. -/
def pread (file : Content) (count offset : Nat) : Content := (file.drop offset).take count

def workerStep (cache : String → Option Content) (g : Segment) (w : Worker) : Option (Segment × Worker) :=
  match w.pc with
  | .idle => none
  | .getObject => some (g, { w with pc := .lookup })
  | .lookup =>
      match cache w.path with
      | none => some (g, { w with fildes := none, fileLen := 0, pc := .writeLength })
      | some file =>
          some (g, { w with fildes := some file, fileLen := toInt32 file.length, pc := .writeLength })
  | .writeLength => some (g.shmWriteFileLength w.fileLen, { w with pc := .postLength })
  | .postLength =>
      match w.fildes with
      | none => some (g.post .segment, { w with pc := .unmap })
      | some _ =>
          some (g.post .segment,
            { w with bytesTransferred := 0, k := 0, buffer := zeros 3500, pc := .loop })
  | .loop =>
      if w.bytesTransferred < w.fileLen then
        let remaining := toInt32 (w.fileLen - w.bytesTransferred)
        let count := if 3499 > remaining then toUInt64 remaining else 3499
        let bytes := pread (w.fildes.getD []) count w.bytesTransferred.toNat
        some (g, { w with
          k := bytes.length, buffer := bytes ++ w.buffer.drop bytes.length, pc := .clearData })
      else some (g, { w with pc := .unmap })
  | .clearData => some (g.clearData, { w with pc := .copyData })
  | .copyData => some (g.copyData w.buffer, { w with pc := .postReader })
  | .postReader => some (g.post .reader, { w with pc := .advance })
  | .advance =>
      some (g, { w with
        bytesTransferred := toInt32 (w.bytesTransferred + w.k), buffer := zeros 3500, pc := .waitWriter })
  | .waitWriter => (g.wait .writer).map fun g' => (g', { w with pc := .loop })
  | .unmap => some (g, { w with pc := .idle })

variable {H W : Type} [DecidableEq H] [DecidableEq W]

/-- The proxy with its pool of free segments and its handler threads, the
message queue, and the cache daemon with its own queue and its workers. -/
structure System (H W : Type) where
  pool : List Nat
  segments : Nat → Segment
  messages : List (String × Nat)
  work : List (String × Nat)
  handlers : H → Handler
  workers : W → Worker

inductive Act (H W : Type)
  | request (h : H) (path : String)
  | handler (h : H) (result : Int)
  | boss
  | worker (w : W)

def System.setHandler (s : System H W) (h : H) (x : Handler) : System H W :=
  { s with handlers := Function.update s.handlers h x }

def System.setWorker (s : System H W) (w : W) (x : Worker) : System H W :=
  { s with workers := Function.update s.workers w x }

def System.setSegment (s : System H W) (i : Nat) (g : Segment) : System H W :=
  { s with segments := Function.update s.segments i g }

def step (cache : String → Option Content) (s : System H W) : Act H W → Option (System H W)
  | .request h path =>
      if (s.handlers h).pc = .returned ∨ (s.handlers h).pc = .failed then
        some (s.setHandler h { pc := .pop, path := path })
      else none
  | .handler h result =>
      let x := s.handlers h
      match x.pc with
      | .pop =>
          match s.pool with
          | [] => none
          | i :: pool => some { s.setHandler h { x with segment := i, pc := .create } with pool := pool }
      | .send =>
          if s.messages.length < 10 then
            some { s.setHandler h { x with pc := .waitLength } with
              messages := s.messages ++ [(x.path, x.segment)] }
          else none
      | .enqueue =>
          some { s.setHandler h { x with pc := if x.fileLen = 0 then .sendNotFound else .returned } with
            pool := s.pool ++ [x.segment] }
      | _ =>
          (handlerStep result (s.segments x.segment) x).map fun p =>
            (s.setSegment x.segment p.1).setHandler h p.2
  | .boss =>
      match s.messages with
      | [] => none
      | m :: messages => some { s with messages := messages, work := s.work ++ [m] }
  | .worker w =>
      let x := s.workers w
      match x.pc, s.work with
      | .idle, m :: work =>
          some { s.setWorker w { pc := .getObject, path := m.1, segment := m.2 } with work := work }
      | _, _ =>
          (workerStep cache (s.segments x.segment) x).map fun p =>
            (s.setSegment x.segment p.1).setWorker w p.2

inductive Move (cache : String → Option Content) (s : System H W) : Act H W → System H W → Prop
  | request {h path} : (s.handlers h).pc = .returned ∨ (s.handlers h).pc = .failed →
      Move cache s (.request h path) (s.setHandler h { pc := .pop, path := path })
  | pop {h result i pool} : (s.handlers h).pc = .pop → s.pool = i :: pool →
      Move cache s (.handler h result)
        { s.setHandler h { s.handlers h with segment := i, pc := .create } with pool := pool }
  | send {h result} : (s.handlers h).pc = .send → s.messages.length < 10 →
      Move cache s (.handler h result)
        { s.setHandler h { s.handlers h with pc := .waitLength } with
          messages := s.messages ++ [((s.handlers h).path, (s.handlers h).segment)] }
  | enqueue {h result} : (s.handlers h).pc = .enqueue →
      Move cache s (.handler h result)
        { s.setHandler h { s.handlers h with
            pc := if (s.handlers h).fileLen = 0 then .sendNotFound else .returned } with
          pool := s.pool ++ [(s.handlers h).segment] }
  | handler {h result g x} :
      handlerStep result (s.segments (s.handlers h).segment) (s.handlers h) = some (g, x) →
      Move cache s (.handler h result) ((s.setSegment (s.handlers h).segment g).setHandler h x)
  | boss {m messages} : s.messages = m :: messages →
      Move cache s .boss { s with messages := messages, work := s.work ++ [m] }
  | take {w m work} : (s.workers w).pc = .idle → s.work = m :: work →
      Move cache s (.worker w)
        { s.setWorker w { pc := .getObject, path := m.1, segment := m.2 } with work := work }
  | worker {w g x} :
      workerStep cache (s.segments (s.workers w).segment) (s.workers w) = some (g, x) →
      Move cache s (.worker w) ((s.setSegment (s.workers w).segment g).setWorker w x)

theorem step_move {cache : String → Option Content} {s s' : System H W} {a : Act H W}
    (h : step cache s a = some s') : Move cache s a s' := by
  cases a with
  | request h' path =>
      simp only [step] at h
      split at h
      next hpc => cases h; exact .request hpc
      · cases h
  | handler h' result =>
      simp only [step] at h
      split at h
      next hpc =>
        split at h
        · cases h
        next hpool => cases h; exact .pop hpc hpool
      next hpc =>
        split at h
        next hlength => cases h; exact .send hpc hlength
        · cases h
      next hpc => cases h; exact .enqueue hpc
      · obtain ⟨⟨g, x⟩, hstep, rfl⟩ := Option.map_eq_some_iff.mp h
        exact .handler hstep
  | boss =>
      simp only [step] at h
      split at h
      · cases h
      next hmessages => cases h; exact .boss hmessages
  | worker w =>
      simp only [step] at h
      split at h
      next hpc hwork => cases h; exact .take hpc hwork
      · obtain ⟨⟨g, x⟩, hstep, rfl⟩ := Option.map_eq_some_iff.mp h
        exact .worker hstep

/-- `main` of the proxy creates the segments and puts them all into the pool. -/
def start (nsegments : Nat) (garbage : Nat → Segment) : System H W where
  pool := List.range nsegments
  segments i := (garbage i).shmCreate
  messages := []
  work := []
  handlers _ := {}
  workers _ := {}

def oneByte (path : String) : Option Content := if path = "f" then some [1] else none

end GraduateOS.Shm.Threads
