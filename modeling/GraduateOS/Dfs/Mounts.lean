import GraduateOS.Dfs.SyncRound
import GraduateOS.Library.Runs

namespace GraduateOS.Dfs.Mounts

open Directory Messages ServerNode ClientNode Transfers SyncRound Library.Runs

def extensions : List String := ["jpg", "png", "gif", "txt", "xlsx", "docx", "md", "psd"]

/-- The names whose events the watcher passes on: `InotifyWatcher` skips hidden
files, and the regular expression of `InotifyEventCallback` asks for an extension
(and its `.` matches no line terminator). -/
def watched (f : String) : Bool :=
  f.toList.head? ≠ some '.' ∧ '\n' ∉ f.toList ∧ '\r' ∉ f.toList ∧
    extensions.any (fun e => ('.' :: e.toList).isSuffixOf f.toList)

/-- `InotifyEventCallback` for one event of the mount. -/
def inotifyEventCallback (clientId : String) (now : Int) (s : Server) (m : Mount) (e : Event) :
    Server × Mount :=
  if watched e.name then
    match e.mask with
    | .delete => (delete clientId m e.name s).1
    | _ => ((store clientId m e.name s now).1, m)
  else (s, m)

/-- Where the asynchronous thread stands. A request waits at the server (after
the reply handled last), a reply is on its way, or `HandleCallbackList` is at
work: before a decision, before the call decided on, or in the second loop. -/
inductive Phase
  | waiting (handled : Option CallbackListOutput)
  | replied (reply : CallbackListOutput)
  | syncing (reply : CallbackListOutput) (rest : List String)
  | calling (reply : CallbackListOutput) (rest : List String) (f : String) (call : SyncCall)
  | removing (reply : CallbackListOutput) (rest : List String)
  deriving DecidableEq

/-- `HandleCallbackList` keeps `mux` from its first loop to its last. -/
def Phase.locksMux : Phase → Bool
  | .waiting _ | .replied _ => false
  | _ => true

structure Client where
  clientId : String
  mount : Mount
  phase : Phase

/-- What can happen at one client. The first two are the user, `watch` is the
watcher thread, and the others are the asynchronous thread and its request. The
two loops take their names in any order. -/
inductive Act
  | edit (f : String) (bytes : Content)
  | userDelete (f : String)
  | watch
  | snapshot
  | receive
  | decide (f : String) (own : Option Content)
  | call
  | opendir
  | unlink (f : String)
  | finish
  deriving DecidableEq

def clientStep (s : Server) (client : Client) (now : Int) : Act → Option (Server × Client)
  | .edit f bytes => some (s, { client with mount := client.mount.edit f bytes now })
  | .userDelete f => some (s, { client with mount := client.mount.remove f })
  | .watch =>
      match client.phase.locksMux, client.mount.events with
      | false, e :: rest =>
          let after := inotifyEventCallback client.clientId now s ⟨client.mount.dir, rest⟩ e
          some (after.1, { client with mount := after.2 })
      | _, _ => none
  | .snapshot =>
      match client.phase with
      | .waiting _ => some (s, { client with phase := .replied s.processCallback })
      | _ => none
  | .receive =>
      match client.phase with
      | .replied reply => some (s, { client with phase := .syncing reply reply.crc.keys })
      | _ => none
  | .decide f own =>
      match client.phase with
      | .syncing reply rest =>
          if f ∈ rest then
            some (s, { client with
              phase := .calling reply (rest.erase f) f (syncCall reply own client.mount f) })
          else none
      | _ => none
  | .call =>
      match client.phase with
      | .calling reply rest f call =>
          let after := perform client.clientId now s client.mount f call
          some (after.1, { client with mount := after.2, phase := .syncing reply rest })
      | _ => none
  | .opendir =>
      match client.phase with
      | .syncing reply [] => some (s, { client with phase := .removing reply client.mount.dir.names })
      | _ => none
  | .unlink f =>
      match client.phase with
      | .removing reply rest =>
          if f ∈ rest then
            some (s, { client with
              mount := removeStale reply client.mount f, phase := .removing reply (rest.erase f) })
          else none
      | _ => none
  | .finish =>
      match client.phase with
      | .removing reply [] => some (s, { client with phase := .waiting (some reply) })
      | _ => none

variable {C : Type} [DecidableEq C]

structure State (C : Type) where
  server : Server
  clients : C → Client
  clock : Int

def step (s : State C) (a : C × Int × Act) : Option (State C) :=
  if a.2.1 < s.clock then none
  else
    (clientStep s.server (s.clients a.1) a.2.1 a.2.2).map fun p =>
      ⟨p.1, Function.update s.clients a.1 p.2, a.2.1⟩

def start (d : Dir) (clientId : C → String) (mounts : C → Dir) : State C where
  server := ⟨d, ∅⟩
  clients c := ⟨clientId c, ⟨mounts c, []⟩, .waiting none⟩
  clock := 0

def storeCall (s : Server) (client : Client) (now : Int) : Act → Option (String × StatusCode)
  | .watch =>
      match client.phase.locksMux, client.mount.events with
      | false, e :: _ =>
          if watched e.name ∧ e.mask ≠ .delete then
            some (e.name, (store client.clientId client.mount e.name s now).2)
          else none
      | _, _ => none
  | .call =>
      match client.phase with
      | .calling _ _ f .store => some (f, (store client.clientId client.mount f s now).2)
      | _ => none
  | _ => none

def fetchCall (client : Client) : Act → Option String
  | .call =>
      match client.phase with
      | .calling _ _ f .fetch => some f
      | _ => none
  | _ => none

inductive Effect (s : Server) (client : Client) (now : Int) : Act → Server → Mount → Prop
  | quiet {a} : a ≠ .watch → a ≠ .call → Effect s client now a s client.mount
  | edit {f bytes} : Effect s client now (.edit f bytes) s (client.mount.edit f bytes now)
  | userDelete {f} : Effect s client now (.userDelete f) s (client.mount.remove f)
  | watch {e rest} : client.phase.locksMux = false → client.mount.events = e :: rest →
      Effect s client now .watch
        (inotifyEventCallback client.clientId now s ⟨client.mount.dir, rest⟩ e).1
        (inotifyEventCallback client.clientId now s ⟨client.mount.dir, rest⟩ e).2
  | call {reply rest f call} : client.phase = .calling reply rest f call →
      Effect s client now .call (perform client.clientId now s client.mount f call).1
        (perform client.clientId now s client.mount f call).2
  | unlink {reply rest f} : client.phase = .removing reply rest →
      Effect s client now (.unlink f) s (removeStale reply client.mount f)

theorem clientStep_effect {s s' : Server} {client client' : Client} {now : Int} {a : Act}
    (h : clientStep s client now a = some (s', client')) :
    client'.clientId = client.clientId ∧ Effect s client now a s' client'.mount := by
  cases a with
  | edit f bytes => cases h; exact ⟨rfl, .edit⟩
  | userDelete f => cases h; exact ⟨rfl, .userDelete⟩
  | watch =>
      simp only [clientStep] at h
      split at h
      next hmux hevents => cases h; exact ⟨rfl, .watch hmux hevents⟩
      · cases h
  | snapshot =>
      simp only [clientStep] at h
      split at h
      · cases h; exact ⟨rfl, .quiet nofun nofun⟩
      · cases h
  | receive =>
      simp only [clientStep] at h
      split at h
      · cases h; exact ⟨rfl, .quiet nofun nofun⟩
      · cases h
  | decide f own =>
      simp only [clientStep] at h
      split at h
      · split at h
        · cases h; exact ⟨rfl, .quiet nofun nofun⟩
        · cases h
      · cases h
  | call =>
      simp only [clientStep] at h
      split at h
      next hphase => cases h; exact ⟨rfl, .call hphase⟩
      · cases h
  | opendir =>
      simp only [clientStep] at h
      split at h
      · cases h; exact ⟨rfl, .quiet nofun nofun⟩
      · cases h
  | unlink f =>
      simp only [clientStep] at h
      split at h
      next hphase =>
        split at h
        · cases h; exact ⟨rfl, .unlink hphase⟩
        · cases h
      · cases h
  | finish =>
      simp only [clientStep] at h
      split at h
      · cases h; exact ⟨rfl, .quiet nofun nofun⟩
      · cases h

theorem step_some {s s' : State C} {c : C} {now : Int} {a : Act}
    (h : step s (c, now, a) = some s') :
    s.clock ≤ now ∧ s'.clock = now ∧
      clientStep s.server (s.clients c) now a = some (s'.server, s'.clients c) ∧
      ∀ c', c' ≠ c → s'.clients c' = s.clients c' := by
  simp only [step] at h
  split at h
  · cases h
  next htime =>
    obtain ⟨p, hp, rfl⟩ := Option.map_eq_some_iff.mp h
    exact ⟨by omega, rfl, by simpa using hp, fun c' hc => Function.update_of_ne hc _ _⟩

theorem callback_ignores {e : Event} (h : ¬ watched e.name) (clientId : String) (now : Int) (s : Server)
    (m : Mount) : inotifyEventCallback clientId now s m e = (s, m) := if_neg h

theorem callback_deletes {e : Event} (h : watched e.name) (hmask : e.mask = .delete) (clientId : String)
    (now : Int) (s : Server) (m : Mount) :
    inotifyEventCallback clientId now s m e = (delete clientId m e.name s).1 := by
  simp [inotifyEventCallback, h, hmask]

theorem callback_stores {e : Event} (h : watched e.name) (hmask : e.mask ≠ .delete) (clientId : String)
    (now : Int) (s : Server) (m : Mount) :
    inotifyEventCallback clientId now s m e = ((store clientId m e.name s now).1, m) := by
  unfold inotifyEventCallback
  rw [if_pos h]
  split
  next hdelete => exact absurd hdelete hmask
  · rfl

theorem inotifyEventCallback_unlocked {s : Server} (hs : Unlocked s) (clientId : String) (now : Int)
    (m : Mount) (e : Event) : Unlocked (inotifyEventCallback clientId now s m e).1 := by
  by_cases hwatched : watched e.name
  · by_cases hmask : e.mask = .delete
    · rw [callback_deletes hwatched hmask]
      by_cases hfile : s.dir.lookup e.name = none
      · rw [delete_absent hfile]
        exact hs
      · obtain ⟨s', hdelete, _, hs'⟩ := delete_removes clientId (m := m) hs hfile
        rw [hdelete]
        exact hs'
    · rw [callback_stores hwatched hmask]
      exact store_unlocked hs
  · rw [callback_ignores hwatched]
    exact hs

theorem effect_unlocked {s s' : Server} {client : Client} {now : Int} {a : Act} {m' : Mount}
    (hs : Unlocked s) (h : Effect s client now a s' m') : Unlocked s' := by
  cases h with
  | watch => exact inotifyEventCallback_unlocked hs _ _ _ _
  | call => exact perform_unlocked hs _
  | quiet => exact hs
  | edit => exact hs
  | userDelete => exact hs
  | unlink => exact hs

theorem step_unlocked {s s' : State C} {a : C × Int × Act} (hs : Unlocked s.server)
    (h : step s a = some s') : Unlocked s'.server :=
  effect_unlocked hs (clientStep_effect (step_some h).2.2.1).2

/-- Every RPC gives its lock back before the next one begins. -/
theorem reachable_unlocked {d : Dir} {clientId : C → String} {mounts : C → Dir} {s : State C}
    {acts : List (C × Int × Act)} (h : Run step anyStep (start d clientId mounts) acts s) :
    Unlocked s.server :=
  h.stateInvariant (fun _ => rfl) (fun _ _ _ _ hs _ hstep => step_unlocked hs hstep)

end GraduateOS.Dfs.Mounts
