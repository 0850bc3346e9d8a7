import Mathlib.Logic.Function.Basic

namespace GraduateOS.Dfs.CallData

inductive CallStatus
  | create | process | finish
  deriving DecidableEq

/-- `DFSCallData` objects are numbered in the order in which they are created. -/
abbrev Tag := Nat

/-- Where a call of `Proceed` returns to: from a constructor to the start of the
thread or to `Proceed` on `outer`, otherwise to the loop. -/
inductive Caller
  | start
  | loop
  | proceed (outer : Tag)
  deriving DecidableEq

/-- Where a thread of `HandleAsyncRPC` stands. -/
inductive ThreadPc
  | off
  | next
  | proceed (tag : Tag) (caller : Caller)
  | processCallback (tag : Tag)
  | reply (tag : Tag)
  deriving DecidableEq

structure QueueRequest where
  tag : Tag
  finished : Bool

/-- The callback service. `objects` is nothing where an object has been deleted.
`passing` is the loop variable of the queue thread while it holds `queue_mutex`.
`registered`, `finishing` and `events` are what gRPC has of `RequestCallbackList`,
of `Finish` and in the completion queue. -/
structure Service (T : Type) where
  objects : List (Option CallStatus)
  queuedTags : List QueueRequest
  passing : Option Nat
  registered : List Tag
  finishing : List Tag
  events : List (Tag × Bool)
  crashed : Bool
  threads : T → ThreadPc

/-- `deliver` and `complete` are gRPC's, and `thread` takes `event` when it calls `Next`. -/
inductive Act (T : Type)
  | thread (t : T) (event : Tag × Bool)
  | lockQueue
  | register
  | eraseFinished
  | deliver (tag : Tag)
  | complete (tag : Tag) (ok : Bool)

variable {T : Type} [DecidableEq T]

def Service.goto (s : Service T) (t : T) (pc : ThreadPc) : Service T :=
  { s with threads := Function.update s.threads t pc }

def Service.status (s : Service T) (tag : Tag) : Option CallStatus := s.objects[tag]?.join

def Caller.back : Caller → ThreadPc
  | .start | .loop => .next
  | .proceed outer => .processCallback outer

/-- `Proceed`. In the constructor the status is CREATE and `RequestCallback` needs `queue_mutex`. -/
def proceed (s : Service T) (t : T) (tag : Tag) (caller : Caller) : Option (Service T) :=
  match s.status tag with
  | some .create =>
      if s.passing.isSome then none
      else some { s.goto t caller.back with
        objects := s.objects.set tag (some .process), queuedTags := s.queuedTags ++ [⟨tag, false⟩] }
  | some .process =>
      some { s.goto t (.proceed s.objects.length (.proceed tag)) with objects := s.objects ++ [some .create] }
  | some .finish => some { s.goto t .next with objects := s.objects.set tag none }
  | none => some { s with crashed := true }

def threadStep (s : Service T) (t : T) (event : Tag × Bool) : Option (Service T) :=
  match s.threads t with
  | .off => some { s.goto t (.proceed s.objects.length .start) with objects := s.objects ++ [some .create] }
  | .next =>
      if event ∈ s.events then
        some { s.goto t (if event.2 then .proceed event.1 .loop else .next) with events := s.events.erase event }
      else none
  | .proceed tag caller => proceed s t tag caller
  | .processCallback tag =>
      if s.status tag = none then some { s with crashed := true } else some (s.goto t (.reply tag))
  | .reply tag =>
      if s.status tag = none then some { s with crashed := true }
      else some { s.goto t .next with
        objects := s.objects.set tag (some .finish), finishing := s.finishing ++ [tag] }

/-- `ProcessQueuedRequests` goes over all of `queued_tags`, registers one request
after the other and then erases those that are finished. A failed event comes only
from `Finish`. -/
def step (s : Service T) : Act T → Option (Service T)
  | .thread t event => if s.crashed then none else threadStep s t event
  | .lockQueue => if s.passing.isSome then none else some { s with passing := some 0 }
  | .register =>
      match s.passing with
      | some i =>
          match s.queuedTags[i]? with
          | some request =>
              some { s with
                queuedTags := s.queuedTags.set i { request with finished := true }
                passing := some (i + 1), registered := s.registered ++ [request.tag] }
          | none => none
      | none => none
  | .eraseFinished =>
      match s.passing with
      | some i =>
          if i < s.queuedTags.length then none
          else some { s with queuedTags := s.queuedTags.filter fun request => !request.finished, passing := none }
      | none => none
  | .deliver tag =>
      if tag ∈ s.registered then
        some { s with registered := s.registered.erase tag, events := s.events ++ [(tag, true)] }
      else none
  | .complete tag ok =>
      if tag ∈ s.finishing then
        some { s with finishing := s.finishing.erase tag, events := s.events ++ [(tag, ok)] }
      else none

def start : Service T := ⟨[], [], none, [], [], [], false, fun _ => .off⟩

inductive Event
  | delivered (tag : Tag)
  | processed (tag : Tag)
  | finished (tag : Tag)
  deriving DecidableEq

def Event.tag : Event → Tag
  | .delivered tag | .processed tag | .finished tag => tag

/-- The requests that clients make, `ProcessCallback` and `Finish`. -/
def observe (s : Service T) : Act T → List Event
  | .thread t _ =>
      match s.threads t with
      | .processCallback tag => [.processed tag]
      | .reply tag => [.finished tag]
      | _ => []
  | .deliver tag => [.delivered tag]
  | _ => []

def historyOf (tag : Tag) (es : List Event) : List Event := es.filter (·.tag = tag)

/-- The entries of `queued_tags` that the queue thread has not come to: all of them, outside its loop. -/
def waiting (queuedTags : List QueueRequest) (passing : Option Nat) : List Tag :=
  (queuedTags.drop (passing.getD 0)).map QueueRequest.tag

def Awaiting (s : Service T) (tag : Tag) : Prop :=
  s.status tag = some .process ∧ ∀ t, s.threads t ≠ .processCallback tag ∧ s.threads t ≠ .reply tag

def Handing (s : Service T) (tag : Tag) (t : T) : Prop :=
  s.threads t = .proceed tag .loop ∨ ∃ new, s.threads t = .proceed new (.proceed tag)

def Started (s : Service T) (t : T) : Prop :=
  s.threads t ≠ .off ∧ ∀ tag, s.threads t ≠ .proceed tag .start

end GraduateOS.Dfs.CallData
