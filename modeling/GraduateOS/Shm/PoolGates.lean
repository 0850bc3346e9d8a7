import GraduateOS.Shm.Pool

namespace GraduateOS.Shm.PoolGates

open Segments Threads Tokens Orders

/-- Where a handler stands at `mux`. Between `test` and `wait` it goes round
the loop that waits for `cond`, and after a wake-up it locks `mux` again. With
`inside` it has `mux` for `mqueue_write`, `munmap` or `steque_enqueue`. -/
inductive Gate
  | idle | lock | test | wait | pop | run | inside | unlock | signal
  deriving DecidableEq

/-- The proxy with its lock. `exited` after `steque_pop` of an empty queue. -/
structure Proxy (H W : Type) where
  threads : System H W
  mux : Option H
  exited : Bool
  gates : H → Gate

inductive Act (H W : Type)
  | request (h : H) (path : String)
  | wake (h : H)
  | handler (h : H) (result : Int)
  | boss
  | worker (w : W)

/-- The handler takes `mux` before its next statement. On the transfer path
`munmap` comes after the lock, for a file that is not found before it. -/
def locks (x : Handler) : Bool :=
  match x.pc with
  | .send | .enqueue => true
  | .unmap => x.fileLen ≠ 0
  | _ => false

def ends (x : Handler) : Bool :=
  match x.pc with
  | .sendNotFound => true
  | .postWriter => x.readLen < 0
  | _ => false

variable {H W : Type} [DecidableEq H] [DecidableEq W]

def Proxy.setGate (p : Proxy H W) (h : H) (gate : Gate) : Proxy H W :=
  { p with gates := Function.update p.gates h gate }

def goOn (cache : String → Option Content) (p : Proxy H W) (h : H) (result : Int) (gate : Gate) :
    Option (Proxy H W) :=
  (Threads.step cache p.threads (.handler h result)).map fun s => { p.setGate h gate with threads := s }

def handlerAct (cache : String → Option Content) (p : Proxy H W) (h : H) (result : Int) : Option (Proxy H W) :=
  let x := p.threads.handlers h
  match p.gates h with
  | .idle | .wait => none
  | .lock => if p.mux.isSome then none else some { p.setGate h .test with mux := some h }
  | .test =>
      if p.threads.pool = [] then some { p.setGate h .wait with mux := none } else some (p.setGate h .pop)
  | .pop => if p.threads.pool = [] then some { p with exited := true } else goOn cache p h result .unlock
  | .run =>
      if locks x then
        if p.mux.isSome then none else some { p.setGate h .inside with mux := some h }
      else goOn cache p h result (if ends x then .idle else .run)
  | .inside => goOn cache p h result (if x.pc = .unmap then .inside else .unlock)
  | .unlock =>
      some { p.setGate h (if x.pc = .sendNotFound ∨ x.pc = .returned then .signal else .run) with mux := none }
  | .signal => some (p.setGate h (if x.pc = .returned then .idle else .run))

/-- `pthread_cond_signal` wakes up handlers that wait, and they may wake up without it. -/
def step (cache : String → Option Content) (p : Proxy H W) (a : Act H W) : Option (Proxy H W) :=
  if p.exited then none
  else
    match a with
    | .request h path =>
        if p.gates h = .idle then
          (Threads.step cache p.threads (.request h path)).map fun s =>
            { p.setGate h .lock with threads := s }
        else none
    | .wake h => if p.gates h = .wait then some (p.setGate h .lock) else none
    | .handler h result => handlerAct cache p h result
    | .boss => (Threads.step cache p.threads .boss).map fun s => { p with threads := s }
    | .worker w => (Threads.step cache p.threads (.worker w)).map fun s => { p with threads := s }

def start (nsegments : Nat) (garbage : Nat → Segment) : Proxy H W :=
  ⟨Threads.start nsegments garbage, none, false, fun _ => .idle⟩

inductive Event (H : Type)
  | call (h : H)
  | take (h : H) (i : Nat)
  | give (h : H) (i : Nat)
  | ret (h : H)
  deriving DecidableEq

def Event.handler : Event H → H
  | .call h | .take h _ | .give h _ | .ret h => h

def observe (p : Proxy H W) : Act H W → List (Event H)
  | .request h _ => [.call h]
  | .handler h _ =>
      let x := p.threads.handlers h
      match p.gates h with
      | .pop => p.threads.pool.head?.toList.map (.take h)
      | .run => if ¬ locks x ∧ ends x then [.ret h] else []
      | .inside => if x.pc = .enqueue then [.give h x.segment] else []
      | .signal => if x.pc = .returned then [.ret h] else []
      | _ => []
  | _ => []

def callEvents (h : H) (i : Nat) : List (Event H) := [.call h, .take h i, .give h i, .ret h]

def sofar (h : H) (gate : Gate) (x : Handler) : List (Event H) :=
  match gate with
  | .idle => []
  | .lock | .test | .wait | .pop => [.call h]
  | _ =>
      match x.pc with
      | .sendNotFound | .returned => [.call h, .take h x.segment, .give h x.segment]
      | _ => [.call h, .take h x.segment]

def historyOf (h : H) (es : List (Event H)) : List (Event H) := es.filter (·.handler = h)

structure PoolOk (nsegments : Nat) (es : List (Event H)) (p : Proxy H W) : Prop where
  alive : p.exited = false
  nonempty : ∀ h, p.gates h = .pop → p.threads.pool ≠ []
  once : ∀ i, i < nsegments → p.threads.pool.count i = 1 ∧ (∀ h, ¬ Holds p.threads h i) ∨
    p.threads.pool.count i = 0 ∧ ∃ h, Holds p.threads h i ∧ ∀ h', Holds p.threads h' i → h' = h
  only : ∀ i, nsegments ≤ i → i ∉ p.threads.pool ∧ ∀ h, ¬ Holds p.threads h i
  calls : ∀ h, ∃ segments : List Nat,
    historyOf h es = segments.flatMap (callEvents h) ++ sofar h (p.gates h) (p.threads.handlers h)

end GraduateOS.Shm.PoolGates
