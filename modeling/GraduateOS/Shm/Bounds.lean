import GraduateOS.Shm.Deadlocks
import Mathlib.Algebra.GroupWithZero.Nat

namespace GraduateOS.Shm.Bounds

open Segments Threads LocalSteps Tokens Orders Accounts Exchange Partners Answers Headers Reuse ManyCalls
open Progress PoolGates Deadlocks Library.MachineInts Library.Runs Library.Totals

def fileOf (cache : String → Option Content) (path : String) : Content := (cache path).getD []

def callRank (cache : String → Option Content) (x : Handler) : Nat :=
  handlerRank (fileOf cache x.path) x + if x.pc = .returned then 0 else 1

def serviceRank (cache : String → Option Content) (y : Worker) : Nat := workerRank (fileOf cache y.path) y

def requestRank (cache : String → Option Content) (m : String × Nat) : Nat :=
  7 * (fileOf cache m.1).length + 12

variable {H W : Type} {cache : String → Option Content} {s s' : System H W} {h : H} {w : W}

def queueRank (cache : String → Option Content) (s : System H W) : Nat :=
  ((s.messages.map (requestRank cache)).sum + s.messages.length) + (s.work.map (requestRank cache)).sum

def systemRank [Fintype H] [Fintype W] (cache : String → Option Content) (s : System H W) : Nat :=
  total (callRank cache) s.handlers + total (serviceRank cache) s.workers + queueRank cache s

/-- A call for a file that is not found takes no step of the transfer. -/
theorem missing_callRank {g g' : Segment} {x x' : Handler} {result : Int} (hanswer : HandlerAnswer cache g x)
    (hmissing : fileOf cache x.path = []) (hstep : handlerStep result g x = some (g', x')) :
    callRank cache x' < callRank cache x := by
  have hknown : x.fileLen ≠ 0 → ¬ Knows cache x := by
    intro hlength hknows
    rw [Knows, answer_missing hmissing] at hknows
    exact hlength hknows
  cases handlerStep_move hstep with
  | readLength hpc hlength =>
      simp only [HandlerAnswer, hpc] at hanswer
      rw [hanswer.2, answer_missing hmissing] at hlength
      exact absurd rfl hlength
  | header hpc =>
      simp only [HandlerAnswer, hpc] at hanswer
      exact absurd hanswer.2.2 (hknown hanswer.2.1)
  | more hpc | done hpc | waitReader hpc | readData hpc | readError hpc | postWriter hpc | gfsSend hpc =>
      simp only [HandlerAnswer, hpc] at hanswer
      exact absurd hanswer.2.2 (hknown hanswer.2.1)
  | create hpc | waitLength hpc | noLength hpc | unmap hpc | sendNotFound hpc =>
      simp [callRank, handlerRank, hpc]

theorem missing_serviceRank {g g' : Segment} {y y' : Worker} (hstarved : Starved cache y)
    (hmissing : fileOf cache y.path = []) (hstep : workerStep cache g y = some (g', y')) :
    serviceRank cache y' < serviceRank cache y := by
  have hnothing := hstarved hmissing
  cases workerStep_move hstep with
  | fill hpc hmore =>
      simp only [hpc] at hnothing
      omega
  | clearData hpc | copyData hpc | postReader hpc | advance hpc | waitWriter hpc =>
      simp [hpc] at hnothing
  | getObject hpc | absent hpc | found hpc | writeLength hpc | postAbsent hpc | postLength hpc | done hpc
  | unmap hpc =>
      simp [serviceRank, workerRank, hpc]

theorem handler_callRank (hfits : Fits cache) (hok : CallsOk cache s) {g : Segment} {x : Handler} {result : Int}
    (hsends : (s.handlers h).pc = .gfsSend → result = (s.handlers h).sendLen)
    (hstep : handlerStep result (s.segments (s.handlers h).segment) (s.handlers h) = some (g, x)) :
    callRank cache x < callRank cache (s.handlers h) := by
  by_cases hmissing : fileOf cache (s.handlers h).path = []
  · exact missing_callRank (hok.answers.handlers h) hmissing hstep
  · obtain ⟨content, hfile, hpos⟩ := (missing_or_file cache _).resolve_left hmissing
    have hpath : x.path = (s.handlers h).path := by cases handlerStep_move hstep <;> rfl
    have hcontent : fileOf cache (s.handlers h).path = content := by rw [fileOf, hfile, Option.getD_some]
    have hlimit := hfits _ _ hfile
    cases hok.right h content hfile hpos hlimit with
    | idle hpc => simp [handlerStep, hpc] at hstep
    | back hpc => simp [handlerStep, hpc] at hstep
    | preparing hpc =>
        rcases hpc with hpc | hpc | hpc <;> simp only [handlerStep, hpc] at hstep <;> cases hstep
        simp [callRank, handlerRank, hpc]
    | exchanging hasked _ hex =>
        have hlt := handlerStep_rank hlimit hex.handler hsends hstep
        have hcalled : (s.handlers h).pc ≠ .returned := by
          intro hpc
          simp [asked, hpc] at hasked
        rw [callRank, callRank, hpath, hcontent, if_neg hcalled]
        split <;> omega

theorem worker_serviceRank (hfits : Fits cache) (hok : CallsOk cache s) {g : Segment} {y : Worker}
    (hstep : workerStep cache (s.segments (s.workers w).segment) (s.workers w) = some (g, y)) :
    serviceRank cache y < serviceRank cache (s.workers w) := by
  by_cases hmissing : fileOf cache (s.workers w).path = []
  · exact missing_serviceRank (hok.starved w) hmissing hstep
  · have hbusy : (s.workers w).pc ≠ .idle := by
      intro hpc
      simp [workerStep, hpc] at hstep
    obtain ⟨h, content, hfile, _, _, hex⟩ := busy_agreement hfits hok hbusy hmissing
    have hcontent : fileOf cache (s.workers w).path = content := by rw [fileOf, hfile, Option.getD_some]
    have hlt := workerStep_rank (hfits _ _ hfile) hex.worker hstep
    rwa [serviceRank, serviceRank, (workerStep_tokens hstep).2.1, hcontent]

variable [DecidableEq H] [DecidableEq W] [Fintype H] [Fintype W]

omit [DecidableEq W] in
theorem handler_systemRank {x : Handler} (hhandlers : s'.handlers = Function.update s.handlers h x)
    (hworkers : s'.workers = s.workers)
    (hlt : callRank cache x + queueRank cache s' < callRank cache (s.handlers h) + queueRank cache s) :
    systemRank cache s' < systemRank cache s := by
  have htotal := total_update (callRank cache) s.handlers h x
  rw [systemRank, systemRank, hhandlers, hworkers]
  omega

omit [DecidableEq H] in
theorem worker_systemRank {y : Worker} (hworkers : s'.workers = Function.update s.workers w y)
    (hhandlers : s'.handlers = s.handlers)
    (hlt : serviceRank cache y + queueRank cache s' < serviceRank cache (s.workers w) + queueRank cache s) :
    systemRank cache s' < systemRank cache s := by
  have htotal := total_update (serviceRank cache) s.workers w y
  rw [systemRank, systemRank, hhandlers, hworkers]
  omega

/-- Every step but a new request brings the calls that are there closer to their end. -/
theorem step_systemRank (hfits : Fits cache) (hok : CallsOk cache s) {a : Threads.Act H W}
    (hwhole : ∀ h, SendsWhole h s a) (hinternal : ∀ h path, a ≠ .request h path)
    (hstep : Threads.step cache s a = some s') : systemRank cache s' < systemRank cache s := by
  cases Threads.step_move hstep with
  | request => exact absurd rfl (hinternal _ _)
  | @pop h _ _ _ hpc =>
      refine handler_systemRank (h := h) rfl rfl (Nat.add_lt_add_right ?_ _)
      simp [callRank, handlerRank, hpc]
  | @send h _ hpc =>
      refine handler_systemRank (h := h) rfl rfl ?_
      simp [callRank, queueRank, requestRank, handlerRank, System.setHandler, hpc]
      omega
  | @enqueue h _ hpc =>
      refine handler_systemRank (h := h) rfl rfl (Nat.add_lt_add_right ?_ _)
      by_cases hzero : (s.handlers h).fileLen = 0 <;> simp [callRank, handlerRank, hpc, hzero]
  | @handler h _ _ _ hlocal =>
      refine handler_systemRank (h := h) rfl rfl (Nat.add_lt_add_right ?_ _)
      exact handler_callRank hfits hok (hwhole h rfl) hlocal
  | boss hmessages =>
      simp only [systemRank, queueRank, hmessages, List.map_append, List.map_cons, List.map_nil,
        List.sum_append, List.sum_cons, List.sum_nil, List.length_cons]
      omega
  | @take w m _ hpc hwork =>
      refine worker_systemRank (w := w) rfl rfl ?_
      simp [serviceRank, queueRank, requestRank, workerRank, System.setWorker, hwork, hpc]
      omega
  | @worker w _ _ hlocal =>
      refine worker_systemRank (w := w) rfl rfl (Nat.add_lt_add_right ?_ _)
      exact worker_serviceRank hfits hok hlocal

/-- A statement of the threads counts for more than the way to it through the lock. -/
def proxyRank (cache : String → Option Content) (p : Proxy H W) : Nat :=
  8 * systemRank cache p.threads + total gateRank p.gates

variable {n : Nat} {p p' : Proxy H W} {a : Signals.Act H W} {acts more : List (Signals.Act H W)}

theorem step_proxyRank (hfits : Fits cache) (hi : RunInv cache n p) (hguard : Guarded p a)
    (hinternal : Internal a) (hstep : Signals.step cache p a = some p') :
    proxyRank cache p' < proxyRank cache p := by
  obtain ⟨es, hpool⟩ := hi.signals.pool
  cases step_simulated hpool hguard hstep with
  | @threads act b _ hact hallowed hthreads hle =>
      have hold : ∀ h path, b ≠ .request h path := by
        rintro h path rfl
        cases act <;> cases hact
        exact hinternal
      have hlt := step_systemRank hfits hi.calls hallowed.2 hold hthreads
      rw [proxyRank, proxyRank]
      omega
  | lock hthreads _ hlt =>
      rw [proxyRank, proxyRank, hthreads]
      exact Nat.add_lt_add_left (hlt hinternal) _

def lastRequest (h : H) (acts : List (Signals.Act H W)) : Option String :=
  acts.foldl (fun last a =>
    match a with
    | .other (.request h' path) => if h' = h then some path else last
    | _ => last) none

def reply (cache : String → Option Content) (path : String) : (Status × Nat) × Content :=
  if fileOf cache path = [] then ((.fileNotFound, 0), [])
  else ((.ok, (fileOf cache path).length), fileOf cache path)

omit [DecidableEq W] [Fintype H] [Fintype W] in
theorem lastRequest_request (h : H) (path : String) (acts : List (Signals.Act H W)) :
    lastRequest h (acts ++ [.other (.request h path)]) = some path := by
  simp [lastRequest]

omit [DecidableEq W] [Fintype H] [Fintype W] in
theorem lastRequest_other (hother : ∀ path, a ≠ .other (.request h path)) :
    lastRequest h (acts ++ [a]) = lastRequest h acts := by
  rw [lastRequest, List.foldl_append, List.foldl_cons, List.foldl_nil]
  split
  next h' path =>
    split
    next hh => exact absurd rfl (hh ▸ hother path)
    · rfl
  · rfl

def Asked (acts : List (Signals.Act H W)) (p : Proxy H W) : Prop :=
  ∀ h path, lastRequest h acts = some path → (p.threads.handlers h).path = path ∧
    ((p.threads.handlers h).pc = .returned → (p.threads.handlers h).header ≠ none)

omit [Fintype H] [Fintype W] in
theorem step_path {b : Threads.Act H W} (hstep : Threads.step cache s b = some s') (h : H) :
    (∀ path, b = .request h path → (s'.handlers h).path = path) ∧
      ((∀ path, b ≠ .request h path) → (s'.handlers h).path = (s.handlers h).path) := by
  have hset : ∀ h' x, x.path = (s.handlers h').path →
      (Function.update s.handlers h' x h).path = (s.handlers h).path := by
    intro h' x hx
    by_cases hh : h = h'
    · subst h'
      rwa [Function.update_self]
    · rw [Function.update_of_ne hh]
  cases Threads.step_move hstep with
  | @request h' path =>
      by_cases hh : h = h'
      · subst h'
        refine ⟨fun path' hact => ?_, fun hother => absurd rfl (hother path)⟩
        cases hact
        simp [System.setHandler]
      · refine ⟨fun path' hact => by cases hact; exact absurd rfl hh, fun _ => ?_⟩
        simp [System.setHandler, hh]
  | pop | send | enqueue => exact ⟨by simp, fun _ => hset _ _ rfl⟩
  | handler hlocal => exact ⟨by simp, fun _ => hset _ _ (by cases handlerStep_move hlocal <;> rfl)⟩
  | boss | take | worker => exact ⟨by simp, fun _ => rfl⟩

omit [Fintype W] in
theorem step_asked {es : List (Event H)} (hpool : PoolRuns.Inv n es p) (hok : CallsOk cache p.threads)
    (hasked : Asked acts p) (hguard : Guarded p a) (hstep : Signals.step cache p a = some p') :
    Asked (acts ++ [a]) p' := by
  intro h path hlast
  cases step_simulated hpool hguard hstep with
  | lock hthreads hnone _ =>
      rw [lastRequest_other (hnone h)] at hlast
      rw [hthreads]
      exact hasked h path hlast
  | @threads act b _ hact hallowed hthreads _ =>
      obtain ⟨hnew, hold⟩ := step_path hthreads h
      have hheader : (p'.threads.handlers h).pc = .returned → (p'.threads.handlers h).header = none →
          p'.threads.handlers h = p.threads.handlers h ∧ ∀ path, b ≠ .request h path :=
        step_returned hok.answers hthreads
      by_cases hrequest : ∃ path', act = .request h path'
      · obtain ⟨path', rfl⟩ := hrequest
        rw [lastRequest_request, Option.some.injEq] at hlast
        subst hlast
        cases hact
        exact ⟨hnew path' rfl, fun hpc hnone => (hheader hpc hnone).2 path' rfl⟩
      · have hother : ∀ path, b ≠ .request h path := by
          rintro path rfl
          cases act <;> cases hact
          exact hrequest ⟨path, rfl⟩
        rw [lastRequest_other (fun path' hact => hrequest ⟨path', by cases hact; rfl⟩)] at hlast
        obtain ⟨hpath, hanswered⟩ := hasked h path hlast
        refine ⟨(hold hother).trans hpath, fun hpc hnone => ?_⟩
        have hsame := (hheader hpc hnone).1
        rw [hsame] at hpc hnone
        exact hanswered hpc hnone

omit [DecidableEq H] [DecidableEq W] [Fintype H] [Fintype W] in
theorem returned_reply (hfits : Fits cache) (hok : CallsOk cache s) (hpc : (s.handlers h).pc = .returned)
    (hheader : (s.handlers h).header ≠ none) :
    (s.handlers h).header = some (reply cache (s.handlers h).path).1 ∧
      (s.handlers h).sent = (reply cache (s.handlers h).path).2 := by
  obtain ⟨header, hsome⟩ := Option.ne_none_iff_exists'.mp hheader
  have hreported := handlerAnswer_header (hok.answers.handlers h) hsome
  rcases missing_or_file cache (s.handlers h).path with hmissing | ⟨content, hfile, hpos⟩
  · rw [reported_missing hmissing] at hreported
    rw [reply, fileOf, if_pos hmissing, hsome, hreported]
    exact ⟨rfl, hok.headed h (by simp [hsome, hreported])⟩
  · have hcontent : fileOf cache (s.handlers h).path = content := by rw [fileOf, hfile, Option.getD_some]
    rw [reply, hcontent, if_neg (List.ne_nil_of_length_pos hpos)]
    cases hok.right h content hfile hpos (hfits _ _ hfile) with
    | idle _ hnone => exact absurd hnone hheader
    | preparing hwhere =>
        rcases hwhere with hwhere | hwhere | hwhere <;> rw [hpc] at hwhere <;> cases hwhere
    | back _ hheader hsent => exact ⟨hheader, hsent⟩
    | exchanging hasked => simp [asked, hpc] at hasked

instance : ∀ a : Signals.Act H W, Decidable (Internal a)
  | .other (.request _ _) => .isFalse id
  | .other (.wake _) => .isFalse id
  | .other (.handler _ _) => .isTrue trivial
  | .other .boss => .isTrue trivial
  | .other (.worker _) => .isTrue trivial
  | .signal _ _ => .isTrue trivial

def handlerSteps (h : Bool) (n : Nat) : List (Signals.Act Bool Unit) :=
  List.replicate n (.other (.handler h 1))

def workerSteps (n : Nat) : List (Signals.Act Bool Unit) := List.replicate n (.other (.worker ()))

def restOfCalls : List (Signals.Act Bool Unit) :=
  handlerSteps true 4 ++ .other .boss :: workerSteps 5 ++ handlerSteps true 4 ++ workerSteps 4 ++
    handlerSteps true 5 ++ workerSteps 4 ++ handlerSteps true 4 ++ .signal true (some false) ::
    handlerSteps false 8 ++ .other .boss :: workerSteps 6 ++ handlerSteps false 6 ++
    .signal false none :: handlerSteps false 1

theorem restOfCalls_returns : (exec (Signals.step oneByte) (fun _ => Guarded)
    (PoolGates.start 1 fun _ => ⟨0, 0, 0, 0, []⟩) twoCalls).any fun p =>
      (exec (Signals.step oneByte) (fun _ p a => Guarded p a ∧ Internal a) p restOfCalls).any fun p' =>
        p'.gates true = .idle ∧ p'.gates false = .idle ∧ (p'.threads.handlers true).sent = [1] := by
  decide +kernel

end GraduateOS.Shm.Bounds
