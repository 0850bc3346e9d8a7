import GraduateOS.Steques.Nodes
import Mathlib.Logic.Function.Basic
import Mathlib.Logic.Relation

namespace GraduateOS.Shm.WorkQueue

open Steques.Nodes Library.MachineInts

/-- What `bossWorker` and the workers share: the nodes and the fields of `queue`. -/
structure Shared (α : Type) where
  heap : Heap α
  queue : Steque

/-- Where `bossWorker` stands. From `malloc` to `writeN` it is in
`steque_enqueue`, and each place reads or writes one field or link. -/
inductive BossPc (α : Type)
  | receive
  | lock (item : α)
  | malloc (item : α)
  | initNext (item : α) (node : Addr)
  | testBack (item : α) (node : Addr)
  | writeFront (item : α) (node : Addr)
  | readBack (item : α) (node : Addr)
  | link (item : α) (node : Addr) (back : Option Addr)
  | writeBack (node : Addr)
  | readN
  | writeN (n : Int)
  | unlock
  | post
  | undefined
  deriving DecidableEq

/-- Where a `cacheWorkerFunction` stands. From `testFront` to `writeN` it is in
`steque_pop`; in `serve` it has its message and is done with the queue. -/
inductive WorkerPc (α : Type)
  | wait
  | lock
  | testFront
  | readNode
  | readItem (node : Addr)
  | readFront (node : Addr) (ans : α)
  | readNext (node : Addr) (ans : α) (front : Option Addr)
  | writeFront (node : Addr) (ans : α) (next : Option Addr)
  | retest (node : Addr) (ans : α)
  | clearBack (node : Addr) (ans : α)
  | free (node : Addr) (ans : α)
  | readN (ans : α)
  | writeN (ans : α) (n : Int)
  | unlock (ans : α)
  | serve (msg : α)
  | underflow
  | undefined
  deriving DecidableEq

variable {α W : Type}

/-- One access of `steque_enqueue`. `addr` is what `malloc` returns, and `junk`
what the link of the new node holds before it is set. -/
def enqueueStep (addr : Addr) (junk : Option Addr) (g : Shared α) :
    BossPc α → Option (Shared α × BossPc α)
  | .malloc item =>
      if addr ∈ g.heap then none
      else some ({ g with heap := g.heap.insert addr ⟨item, junk⟩ }, .initNext item addr)
  | .initNext item node =>
      match setNext g.heap node none with
      | none => some (g, .undefined)
      | some heap => some ({ g with heap := heap }, .testBack item node)
  | .testBack item node =>
      some (g, if g.queue.back = none then .writeFront item node else .readBack item node)
  | .writeFront _ node =>
      some ({ g with queue := { g.queue with front := some node } }, .writeBack node)
  | .readBack item node => some (g, .link item node g.queue.back)
  | .link _ node back =>
      match back.bind (setNext g.heap · (some node)) with
      | none => some (g, .undefined)
      | some heap => some ({ g with heap := heap }, .writeBack node)
  | .writeBack node => some ({ g with queue := { g.queue with back := some node } }, .readN)
  | .readN => some (g, .writeN g.queue.N)
  | .writeN n => some ({ g with queue := { g.queue with N := toInt32 (n + 1) } }, .unlock)
  | _ => none

/-- One access of `steque_pop`. -/
def popStep (g : Shared α) : WorkerPc α → Option (Shared α × WorkerPc α)
  | .testFront => some (g, if g.queue.front = none then .underflow else .readNode)
  | .readNode => some (g, g.queue.front.elim .undefined .readItem)
  | .readItem node => some (g, (itemAt g.heap node).elim .undefined (.readFront node))
  | .readFront node ans => some (g, .readNext node ans g.queue.front)
  | .readNext node ans front =>
      some (g, (front.bind (link g.heap)).elim .undefined (.writeFront node ans))
  | .writeFront node ans next =>
      some ({ g with queue := { g.queue with front := next } }, .retest node ans)
  | .retest node ans =>
      some (g, if g.queue.front = none then .clearBack node ans else .free node ans)
  | .clearBack node ans => some ({ g with queue := { g.queue with back := none } }, .free node ans)
  | .free node ans => some ({ g with heap := g.heap.erase node }, .readN ans)
  | .readN ans => some (g, .writeN ans g.queue.N)
  | .writeN ans n => some ({ g with queue := { g.queue with N := toInt32 (n - 1) } }, .unlock ans)
  | _ => none

/-- Without a worker between its accesses the boss does what `steque_enqueue` does. -/
theorem enqueue_alone {addr : Addr} {item : α} {g : Shared α} {r : Heap α × Steque} (junk : Option Addr)
    (hfresh : addr ∉ g.heap) (hrun : enqueue addr item g.heap g.queue = some r) :
    Relation.ReflTransGen (fun p q => enqueueStep addr junk p.1 p.2 = some q) (g, .malloc item)
      (⟨r.1, r.2⟩, .unlock) := by
  obtain ⟨heap, front, back, N⟩ := g
  have hset : setNext (heap.insert addr ⟨item, junk⟩) addr none = some (heap.insert addr ⟨item, none⟩) := by
    simp [setNext]
  refine .head (if_neg hfresh) (.head (by simp only [enqueueStep, hset]; rfl) (.head rfl ?_))
  cases back with
  | none =>
      cases hrun
      exact .head rfl (.head rfl (.head rfl (.single rfl)))
  | some back =>
      obtain ⟨heap', hlink, rfl⟩ := Option.map_eq_some_iff.mp hrun
      refine .head rfl (.head (b := (⟨heap', ⟨front, some back, N⟩⟩, .writeBack addr)) ?_ ?_)
      · simp only [enqueueStep, Option.bind_some, hlink]
      · exact .head rfl (.head rfl (.single rfl))

/-- Without the boss between its accesses a worker does what `steque_pop` does. -/
theorem pop_alone {g : Shared α} {r : Heap α × Steque} {item : α}
    (hrun : pop g.heap g.queue = some (r, item)) :
    Relation.ReflTransGen (fun p q => popStep p.1 p.2 = some q) (g, .testFront)
      (⟨r.1, r.2⟩, .unlock item) := by
  obtain ⟨node, hfront, hrun⟩ := Option.bind_eq_some_iff.mp hrun
  obtain ⟨⟨ans, next⟩, hnode, hr⟩ := Option.map_eq_some_iff.mp hrun
  cases hr
  have htest : popStep g .testFront = some (g, .readNode) := by simp [popStep, hfront]
  have hread : popStep g .readNode = some (g, .readItem node) := by simp [popStep, hfront]
  have hitem : popStep g (.readItem node) = some (g, .readFront node ans) := by
    simp [popStep, itemAt, hnode]
  have hagain : popStep g (.readFront node ans) = some (g, .readNext node ans (some node)) := by
    simp [popStep, hfront]
  have hnext : popStep g (.readNext node ans (some node)) = some (g, .writeFront node ans next) := by
    simp [popStep, link, hnode]
  refine .head htest (.head hread (.head hitem (.head hagain (.head hnext (.head rfl (.head rfl ?_))))))
  cases next with
  | none => exact .head rfl (.head rfl (.head rfl (.single rfl)))
  | some next => exact .head rfl (.head rfl (.single rfl))

/-- The cache daemon. Only `bossWorker` takes `mux`, only the workers take `mux2`. -/
structure Daemon (W α : Type) where
  shared : Shared α
  semCache : Nat
  mux : Bool
  mux2 : Option W
  boss : BossPc α
  workers : W → WorkerPc α

inductive Act (W α : Type)
  | boss (message : α) (addr : Addr) (junk : Option Addr)
  | worker (w : W)

variable [DecidableEq W]

def Daemon.setWorker (s : Daemon W α) (w : W) (pc : WorkerPc α) : Daemon W α :=
  { s with workers := Function.update s.workers w pc }

def step (s : Daemon W α) : Act W α → Option (Daemon W α)
  | .boss message addr junk =>
      match s.boss with
      | .receive => some { s with boss := .lock message }
      | .lock item => if s.mux then none else some { s with mux := true, boss := .malloc item }
      | .unlock => some { s with mux := false, boss := .post }
      | .post => some { s with semCache := s.semCache + 1, boss := .receive }
      | pc => (enqueueStep addr junk s.shared pc).map fun r => { s with shared := r.1, boss := r.2 }
  | .worker w =>
      match s.workers w with
      | .wait =>
          if s.semCache = 0 then none
          else some { s.setWorker w .lock with semCache := s.semCache - 1 }
      | .lock =>
          if s.mux2.isSome then none else some { s.setWorker w .testFront with mux2 := some w }
      | .unlock ans => some { s.setWorker w (.serve ans) with mux2 := none }
      | .serve _ => some (s.setWorker w .wait)
      | pc => (popStep s.shared pc).map fun r => { s.setWorker w r.2 with shared := r.1 }

def start : Daemon W α := ⟨⟨∅, init⟩, 0, false, none, .receive, fun _ => .wait⟩

end GraduateOS.Shm.WorkQueue
