import GraduateOS.Shm.Stages

namespace GraduateOS.Shm.Progress

open Segments Threads LocalSteps Tokens Orders Accounts Exchange Turns Stages Library.MachineInts

def handlerRank (content : Content) (h : Handler) : Nat :=
  let left := content.length - h.bytesTransferred
  match h.pc with
  | .pop => 13 * content.length + 24
  | .create => 13 * content.length + 23
  | .send => 13 * content.length + 22
  | .waitLength => 6 * content.length + 8
  | .readLength => 6 * content.length + 7
  | .header => 6 * content.length + 6
  | .loop => 6 * left + 5
  | .waitReader => 6 * left + 4
  | .readData => 6 * left + 3
  | .postWriter => 6 * left + 2
  | .gfsSend => 6 * left + 1
  | .unmap => 2
  | .enqueue => 1
  | .sendNotFound | .returned | .failed => 0

def workerRank (content : Content) (w : Worker) : Nat :=
  let left := content.length - w.bytesTransferred.toNat
  match w.pc with
  | .getObject => 7 * content.length + 11
  | .lookup => 7 * content.length + 10
  | .writeLength => 7 * content.length + 9
  | .postLength => 7 * content.length + 8
  | .loop => 7 * left + 7
  | .clearData => 7 * left + 6
  | .copyData => 7 * left + 5
  | .postReader => 7 * left + 4
  | .advance => 7 * left + 3
  | .waitWriter => 7 * left + 8
  | .unmap => 1
  | .idle => 0

def rank (content : Content) (s : System Unit Unit) : Nat :=
  handlerRank content (s.handlers ()) + workerRank content (s.workers ()) +
    (7 * content.length + 13) * s.messages.length + (7 * content.length + 12) * s.work.length

variable {cache : String → Option Content} {content : Content} {i : Nat} {es : List Access}
  {s s' : System Unit Unit} {g g' : Segment} {h h' : Handler} {w w' : Worker}

theorem handlerStep_rank {result : Int} (hlimit : content.length < 2 ^ 31) (hok : HandlerOk content h)
    (hsends : h.pc = .gfsSend → result = h.sendLen) (hstep : handlerStep result g h = some (g', h')) :
    handlerRank content h' < handlerRank content h := by
  cases handlerStep_move hstep with
  | gfsSend hpc =>
      simp only [HandlerOk, hpc] at hok
      have hleft := hok.left
      have hlen := chunk_length content h.bytesTransferred
      rw [hsends hpc, hok.advance hlimit]
      simp only [handlerRank, hpc]
      omega
  | create hpc | waitLength hpc | noLength hpc | readLength hpc | header hpc | more hpc | done hpc =>
      simp [handlerRank, hpc]
  | waitReader hpc | readData hpc | readError hpc | postWriter hpc | unmap hpc =>
      simp [handlerRank, hpc]
  | sendNotFound hpc => simp [HandlerOk, hpc] at hok

theorem workerStep_rank (hlimit : content.length < 2 ^ 31) (hok : WorkerOk content w)
    (hstep : workerStep cache g w = some (g', w')) : workerRank content w' < workerRank content w := by
  cases workerStep_move hstep with
  | advance hpc =>
      simp only [WorkerOk, hpc] at hok
      have hlower := hok.lower
      have hleft := hok.left
      have hk := hok.k
      have hlen := chunk_length content w.bytesTransferred.toNat
      rw [toInt32_eq (by omega) (by omega)]
      simp only [workerRank, hpc]
      omega
  | getObject hpc | absent hpc | found hpc | writeLength hpc | postAbsent hpc | postLength hpc =>
      simp [workerRank, hpc]
  | fill hpc | done hpc | clearData hpc | copyData hpc | postReader hpc | waitWriter hpc | unmap hpc =>
      simp [workerRank, hpc]

theorem handler_rank (hlimit : content.length < 2 ^ 31) (hstage : Stage cache content i es s)
    {result : Int} {x : Handler}
    (hsends : (s.handlers ()).pc = .gfsSend → result = (s.handlers ()).sendLen)
    (hstep : handlerStep result (s.segments (s.handlers ()).segment) (s.handlers ()) = some (g, x)) :
    handlerRank content x < handlerRank content (s.handlers ()) := by
  cases hstage with
  | preparing _ _ _ _ _ _ hwhere =>
      rcases hwhere with ⟨hpc, _⟩ | ⟨hpc, _⟩ | ⟨hpc, _⟩
      · simp [handlerStep, hpc] at hstep
      · simp only [handlerStep, hpc] at hstep
        cases hstep
        simp [handlerRank, hpc]
      · simp [handlerStep, hpc] at hstep
  | queued _ _ _ _ _ hpc hsegment hempty =>
      have hblocked := wait_blocked (s := .segment).mpr hempty.1
      simp only [handlerStep, hpc, hsegment, hblocked] at hstep
      cases hstep
  | serving _ _ _ hex _ => exact handlerStep_rank hlimit hex.handler hsends hstep

theorem worker_rank (hlimit : content.length < 2 ^ 31) (hstage : Stage cache content i es s) {x : Worker}
    (hstep : workerStep cache (s.segments (s.workers ()).segment) (s.workers ()) = some (g, x)) :
    workerRank content x < workerRank content (s.workers ()) := by
  cases hstage with
  | preparing _ _ _ _ hidle => simp [workerStep, hidle] at hstep
  | queued _ _ _ hidle => simp [workerStep, hidle] at hstep
  | serving _ _ _ hex _ => exact workerStep_rank hlimit hex.worker hstep

theorem step_rank (hlimit : content.length < 2 ^ 31) (hstage : Stage cache content i es s)
    {a : Act Unit Unit} (hsends : SendsWhole s a) (hstep : step cache s a = some s') :
    rank content s' < rank content s := by
  cases step_move hstep with
  | request => exact absurd hsends id
  | pop hpc => simp [rank, System.setHandler, handlerRank, hpc]
  | send hpc =>
      simp only [rank, System.setHandler, Function.update_self, handlerRank, hpc, List.length_append,
        List.length_singleton, Nat.mul_add]
      omega
  | @enqueue h _ hpc =>
      by_cases hzero : (s.handlers h).fileLen = 0 <;>
        simp [rank, System.setHandler, handlerRank, hpc, hzero]
  | handler hlocal =>
      have hlt := handler_rank hlimit hstage hsends hlocal
      simp only [rank, System.setHandler, System.setSegment, Function.update_self]
      omega
  | boss hmessages =>
      simp only [rank, hmessages, List.length_append, List.length_cons, List.length_nil, Nat.mul_add]
      omega
  | take hpc hwork =>
      simp only [rank, System.setWorker, Function.update_self, workerRank, hpc, hwork, List.length_cons,
        Nat.mul_add]
      omega
  | worker hlocal =>
      have hlt := worker_rank hlimit hstage hlocal
      simp only [rank, System.setWorker, System.setSegment, Function.update_self]
      omega

theorem handlerStep_blocked {result : Int} (hok : HandlerOk content h)
    (hblocked : handlerStep result g h = none) :
    h.pc = .waitLength ∧ g.semSegment = 0 ∨ h.pc = .waitReader ∧ g.semReader = 0 ∨
      h.pc = .enqueue ∨ h.pc = .returned := by
  cases hpc : h.pc with
  | pop | create | send | sendNotFound | failed => simp [HandlerOk, hpc] at hok
  | enqueue | returned => simp
  | waitLength =>
      simp only [handlerStep, hpc, Option.map_eq_none_iff] at hblocked
      exact .inl ⟨rfl, wait_blocked.mp hblocked⟩
  | waitReader =>
      simp only [handlerStep, hpc, Option.map_eq_none_iff] at hblocked
      exact .inr (.inl ⟨rfl, wait_blocked.mp hblocked⟩)
  | loop =>
      simp only [handlerStep, hpc] at hblocked
      split at hblocked <;> cases hblocked
  | _ => simp [handlerStep, hpc] at hblocked

theorem workerStep_blocked (hblocked : workerStep cache g w = none) :
    w.pc = .idle ∨ w.pc = .waitWriter ∧ g.semWriter = 0 := by
  cases hpc : w.pc with
  | idle => exact .inl rfl
  | waitWriter =>
      simp only [workerStep, hpc, Option.map_eq_none_iff] at hblocked
      exact .inr ⟨rfl, wait_blocked.mp hblocked⟩
  | lookup | postLength | loop =>
      simp only [workerStep, hpc] at hblocked
      split at hblocked <;> cases hblocked
  | _ => simp [workerStep, hpc] at hblocked

/-- Handler and worker never wait for each other, and neither leaves the other waiting. -/
theorem blocked_finished {result : Int} (hex : Agreement content g h w)
    (hhandler : handlerStep result g h = none) (hworker : workerStep cache g w = none) :
    h.pc = .enqueue ∨ h.pc = .returned ∧ w.pc = .idle := by
  have htold := hex.informed
  have htoken := hex.token
  have hok := hex.handler
  rcases handlerStep_blocked hok hhandler with ⟨hpc, hzero⟩ | ⟨hpc, hzero⟩ | hpc | hpc
  · rcases workerStep_blocked hworker with hidle | ⟨hwait, _⟩
    · simp [told, informed, hpc, hidle, hzero] at htold
    · simp [told, informs, informed, hpc, hwait, hzero] at htold
  · rcases workerStep_blocked hworker with hidle | ⟨hwait, hempty⟩
    · have hposted := hex.read (by simp [Unread, hpc, hzero])
      simp only [HandlerOk, hpc] at hok
      have hleft := hok.left
      simp only [posted, received, hidle, hpc, reduceCtorEq, or_self, if_false] at hposted
      omega
    · simp [inTransit, handlerToken, workerToken, hpc, hwait, hzero, hempty] at htoken
  · exact .inl hpc
  · rcases workerStep_blocked hworker with hidle | ⟨hwait, hempty⟩
    · exact .inr ⟨hpc, hidle⟩
    · have hone : g.semReader = 1 := by
        simpa [inTransit, handlerToken, workerToken, hpc, hwait, hempty] using htoken
      obtain ⟨hleft, _⟩ := hex.unread (.inl hone)
      simp only [HandlerOk, hpc] at hok
      simp only [received, hpc, reduceCtorEq, or_self, if_false] at hleft
      omega

def Finished (s : System Unit Unit) : Prop :=
  (s.handlers ()).pc = .returned ∧ (s.workers ()).pc = .idle ∧ requests s = []

theorem step_handler {result : Int} {p : Segment × Handler}
    (hlocal : handlerStep result (s.segments (s.handlers ()).segment) (s.handlers ()) = some p) :
    (step cache s (.handler () result)).isSome := by
  simp only [step]
  split
  next hpc => simp [handlerStep, hpc] at hlocal
  next hpc => simp [handlerStep, hpc] at hlocal
  next hpc => simp [handlerStep, hpc] at hlocal
  · rw [hlocal]
    rfl

theorem step_worker {p : Segment × Worker}
    (hlocal : workerStep cache (s.segments (s.workers ()).segment) (s.workers ()) = some p) :
    (step cache s (.worker ())).isSome := by
  simp only [step]
  split
  next hpc _ => simp [workerStep, hpc] at hlocal
  · rw [hlocal]
    rfl

/-- As long as the transfer is not finished, some step is possible. -/
theorem stage_progress (hstage : Stage cache content i es s) :
    Finished s ∨ ∃ a, SendsWhole s a ∧ (step cache s a).isSome := by
  cases hstage with
  | preparing _ _ _ hrequests _ _ hwhere =>
      refine .inr ⟨.handler () (s.handlers ()).sendLen, fun _ => rfl, ?_⟩
      rcases hwhere with ⟨hpc, hpool⟩ | ⟨hpc, _⟩ | ⟨hpc, _⟩
      · simp [step, hpc, hpool]
      · simp [step, handlerStep, hpc]
      · simp [step, hpc, (List.append_eq_nil_iff.mp hrequests).1]
  | queued _ _ hqueued hidle =>
      obtain ⟨path, _, hrequests⟩ := hqueued
      cases hmessages : s.messages with
      | cons m messages => exact .inr ⟨.boss, trivial, by simp [step, hmessages]⟩
      | nil =>
          rw [requests, hmessages, List.nil_append] at hrequests
          exact .inr ⟨.worker (), trivial, by simp [step, hidle, hrequests]⟩
  | serving hsegment hrequests hworker hex _ =>
      cases hhandler : handlerStep (s.handlers ()).sendLen (s.segments i) (s.handlers ()) with
      | some p =>
          rw [← hsegment] at hhandler
          exact .inr ⟨.handler () (s.handlers ()).sendLen, fun _ => rfl, step_handler hhandler⟩
      | none =>
          cases hdaemon : workerStep cache (s.segments (s.workers ()).segment) (s.workers ()) with
          | some p => exact .inr ⟨.worker (), trivial, step_worker hdaemon⟩
          | none =>
              have hi : workerStep cache (s.segments i) (s.workers ()) = none := by
                by_cases hidle : (s.workers ()).pc = .idle
                · simp [workerStep, hidle]
                · rw [← hdaemon, (hworker hidle).1]
              rcases blocked_finished hex hhandler hi with hpc | ⟨hpc, hidle⟩
              · exact .inr ⟨.handler () 0, by simp [SendsWhole, hpc], by simp [step, hpc]⟩
              · exact .inl ⟨hpc, hidle, hrequests⟩

end GraduateOS.Shm.Progress
