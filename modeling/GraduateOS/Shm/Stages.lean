import GraduateOS.Shm.Orders
import GraduateOS.Shm.Turns

namespace GraduateOS.Shm.Stages

open Segments Threads Tokens Orders Accounts Exchange Turns

/-- One call of `handle_with_cache` and one worker, with one free segment. -/
def oneCall (path : String) (i : Nat) (segments : Nat → Segment) : System Unit Unit where
  pool := [i]
  segments := segments
  messages := []
  work := []
  handlers _ := { pc := .pop, path := path }
  workers _ := {}

def SendsWhole (s : System Unit Unit) : Act Unit Unit → Prop
  | .request _ _ => False
  | .handler _ result => (s.handlers ()).pc = .gfsSend → result = (s.handlers ()).sendLen
  | .boss => True
  | .worker _ => True

def accesses (s : System Unit Unit) : Act Unit Unit → List Access
  | .request _ _ => []
  | .handler _ _ => handlerAccess (s.handlers ())
  | .boss => []
  | .worker _ => workerAccess (s.workers ())

inductive Stage (cache : String → Option Content) (content : Content) (i : Nat) (es : List Access)
    (s : System Unit Unit) : Prop
  | preparing : Silent (s.handlers ()) → (s.handlers ()).readLen = 0 →
      cache (s.handlers ()).path = some content → requests s = [] → (s.workers ()).pc = .idle →
      es = [] →
      ((s.handlers ()).pc = .pop ∧ s.pool = [i] ∨
        (s.handlers ()).pc = .create ∧ (s.handlers ()).segment = i ∨
        (s.handlers ()).pc = .send ∧ (s.handlers ()).segment = i ∧ (s.segments i).Empty) →
      Stage cache content i es s
  | queued : Silent (s.handlers ()) → (s.handlers ()).readLen = 0 →
      (∃ path, cache path = some content ∧ requests s = [(path, i)]) → (s.workers ()).pc = .idle →
      es = [] → (s.handlers ()).pc = .waitLength → (s.handlers ()).segment = i → (s.segments i).Empty →
      Stage cache content i es s
  | serving : (s.handlers ()).segment = i → requests s = [] →
      ((s.workers ()).pc ≠ .idle →
        (s.workers ()).segment = i ∧ cache (s.workers ()).path = some content) →
      Agreement content (s.segments i) (s.handlers ()) (s.workers ()) →
      InTurn content es (s.segments i) (s.handlers ()) (s.workers ()) → Stage cache content i es s

variable {cache : String → Option Content} {content : Content} {path : String} {i : Nat}
  {segments : Nat → Segment} {es : List Access} {s s' : System Unit Unit}

theorem oneCall_stage (hfile : cache path = some content) :
    Stage cache content i [] (oneCall path i segments) :=
  .preparing ⟨rfl, rfl, rfl⟩ rfl hfile rfl rfl rfl (.inl ⟨rfl, rfl⟩)

theorem requests_singleton {m m' : String × Nat} {rest : List (String × Nat)} (h : m :: rest = [m']) :
    m = m' ∧ rest = [] := by
  simpa using h

theorem pop_stage (hstage : Stage cache content i es s) {j : Nat} {pool : List Nat}
    (hpc : (s.handlers ()).pc = .pop) (hpool : s.pool = j :: pool) :
    Stage cache content i es
      { s.setHandler () { s.handlers () with segment := j, pc := .create } with pool := pool } := by
  cases hstage with
  | preparing hsilent hlen hfile hrequests hidle hes hwhere =>
      rcases hwhere with ⟨_, hfree⟩ | ⟨hcreate, _⟩ | ⟨hsend, _⟩
      · have hj := (List.cons.inj (hpool.symm.trans hfree)).1
        subst hj
        exact .preparing ⟨hsilent.1, hsilent.2, hsilent.3⟩ hlen hfile hrequests hidle hes
          (.inr (.inl ⟨rfl, rfl⟩))
      · rw [hpc] at hcreate; cases hcreate
      · rw [hpc] at hsend; cases hsend
  | queued _ _ _ _ _ hwait => rw [hpc] at hwait; cases hwait
  | serving _ _ _ hex _ =>
      have hok := hex.handler
      simp [HandlerOk, hpc] at hok

theorem send_stage (hstage : Stage cache content i es s) (hpc : (s.handlers ()).pc = .send) :
    Stage cache content i es { s.setHandler () { s.handlers () with pc := .waitLength } with
      messages := s.messages ++ [((s.handlers ()).path, (s.handlers ()).segment)] } := by
  cases hstage with
  | preparing hsilent hlen hfile hrequests hidle hes hwhere =>
      rcases hwhere with ⟨hpop, _⟩ | ⟨hcreate, _⟩ | ⟨_, hsegment, hempty⟩
      · rw [hpc] at hpop; cases hpop
      · rw [hpc] at hcreate; cases hcreate
      · obtain ⟨hmessages, hwork⟩ := List.append_eq_nil_iff.mp hrequests
        refine .queued ⟨hsilent.1, hsilent.2, hsilent.3⟩ hlen ⟨_, hfile, ?_⟩ hidle hes rfl hsegment
          hempty
        simp [requests, System.setHandler, hmessages, hwork, hsegment]
  | queued _ _ _ _ _ hwait => rw [hpc] at hwait; cases hwait
  | serving _ _ _ hex _ =>
      have hok := hex.handler
      simp [HandlerOk, hpc] at hok

theorem unread_returned {g : Segment} {h : Handler} (hpc : h.pc = .enqueue) :
    Unread g { h with pc := .returned } ↔ Unread g h := by
  simp [Unread, hpc]

theorem received_returned {h : Handler} (hpc : h.pc = .enqueue) :
    received content { h with pc := .returned } = received content h := by
  simp [received, hpc]

theorem returned_agreement {g : Segment} {h : Handler} {w : Worker} (hpc : h.pc = .enqueue)
    (hex : Agreement content g h w) : Agreement content g { h with pc := .returned } w := by
  obtain ⟨hok, hworker, hreadLen, hfileLength, hinformed, htoken, hbuffer, hunread, hread⟩ := hex
  refine ⟨?_, hworker, hreadLen, hfileLength, ?_, ?_, ?_, ?_, ?_⟩
  · simp only [HandlerOk, hpc] at hok
    exact ⟨hok.1.at .returned, hok.2⟩
  · simpa [informed, hpc] using hinformed
  · simpa [handlerToken, hpc] using htoken
  · rw [unread_returned hpc, received_returned hpc]
    exact hbuffer
  · rw [unread_returned hpc, received_returned hpc]
    exact hunread
  · rw [unread_returned hpc, received_returned hpc]
    exact hread

theorem enqueue_stage (hpos : 0 < content.length) (hstage : Stage cache content i es s)
    (hpc : (s.handlers ()).pc = .enqueue) :
    Stage cache content i es { s.setHandler () { s.handlers () with
        pc := if (s.handlers ()).fileLen = 0 then .sendNotFound else .returned } with
      pool := s.pool ++ [(s.handlers ()).segment] } := by
  cases hstage with
  | preparing _ _ _ _ _ _ hwhere =>
      rcases hwhere with ⟨hpop, _⟩ | ⟨hcreate, _⟩ | ⟨hsend, _⟩
      · rw [hpc] at hpop; cases hpop
      · rw [hpc] at hcreate; cases hcreate
      · rw [hpc] at hsend; cases hsend
  | queued _ _ _ _ _ hwait => rw [hpc] at hwait; cases hwait
  | serving hsegment hrequests hworker hex hturn =>
      have hok := hex.handler
      simp only [HandlerOk, hpc] at hok
      have hlen := hok.1.fileLen
      obtain ⟨chunks, hcount, hreceived, hes⟩ := hturn
      rw [if_neg (by omega)]
      refine .serving hsegment hrequests hworker (returned_agreement hpc hex) ⟨chunks, hcount, ?_, ?_⟩
      · rw [← hreceived]
        exact received_returned hpc
      · rw [hes]
        congr 1
        exact (pending_same (received_returned hpc) (unread_returned hpc)).symm

theorem handler_stage (hlimit : content.length < 2 ^ 31) (hpos : 0 < content.length)
    (hstage : Stage cache content i es s) {result : Int} {g : Segment} {x : Handler}
    (hsends : (s.handlers ()).pc = .gfsSend → result = (s.handlers ()).sendLen)
    (hstep : handlerStep result (s.segments (s.handlers ()).segment) (s.handlers ()) = some (g, x)) :
    Stage cache content i (es ++ handlerAccess (s.handlers ()))
      ((s.setSegment (s.handlers ()).segment g).setHandler () x) := by
  cases hstage with
  | preparing hsilent hlen hfile hrequests hidle hes hwhere =>
      rcases hwhere with ⟨hpc, _⟩ | ⟨hpc, hsegment⟩ | ⟨hpc, _⟩
      · simp [handlerStep, hpc] at hstep
      · simp only [handlerStep, hpc] at hstep
        cases hstep
        refine .preparing ⟨hsilent.1, hsilent.2, hsilent.3⟩ hlen hfile hrequests hidle ?_
          (.inr (.inr ⟨rfl, hsegment, ?_⟩))
        · simp [hes, handlerAccess, hpc]
        · simpa [System.setHandler, System.setSegment, hsegment] using shmCreate_empty _
      · simp [handlerStep, hpc] at hstep
  | queued _ _ _ _ _ hpc hsegment hempty =>
      have hblocked := wait_blocked (s := .segment).mpr hempty.1
      simp only [handlerStep, hpc, hsegment, hblocked] at hstep
      cases hstep
  | serving hsegment hrequests hworker hex hturn =>
      rw [hsegment] at hstep ⊢
      have hex' := hex.handlerStep hlimit hpos hsends hstep
      have hturn' := hturn.handlerStep hlimit hex hex' hsends hstep
      obtain ⟨hsame, _⟩ := handlerStep_tokens (handlerStep_asked hex.handler hstep) hex.readLen hstep
      refine .serving (hsame.trans hsegment) hrequests hworker ?_ ?_
      · simpa [System.setHandler, System.setSegment] using hex'
      · simpa [System.setHandler, System.setSegment] using hturn'

theorem boss_stage (hstage : Stage cache content i es s) {m : String × Nat}
    {messages : List (String × Nat)} (hmessages : s.messages = m :: messages) :
    Stage cache content i es { s with messages := messages, work := s.work ++ [m] } := by
  cases hstage with
  | preparing _ _ _ hrequests => simp [requests, hmessages] at hrequests
  | serving _ hrequests => simp [requests, hmessages] at hrequests
  | queued hsilent hlen hqueued hidle hes hpc hsegment hempty =>
      obtain ⟨path, hfile, hrequests⟩ := hqueued
      rw [requests, hmessages, List.cons_append] at hrequests
      obtain ⟨rfl, hrest⟩ := requests_singleton hrequests
      obtain ⟨hnone, hwork⟩ := List.append_eq_nil_iff.mp hrest
      refine .queued hsilent hlen ⟨path, hfile, ?_⟩ hidle hes hpc hsegment hempty
      simp [requests, hnone, hwork]

theorem take_stage (hstage : Stage cache content i es s) {m : String × Nat}
    {work : List (String × Nat)} (hwork : s.work = m :: work) :
    Stage cache content i es
      { s.setWorker () { pc := .getObject, path := m.1, segment := m.2 } with work := work } := by
  cases hstage with
  | preparing _ _ _ hrequests => simp [requests, hwork] at hrequests
  | serving _ hrequests => simp [requests, hwork] at hrequests
  | queued hsilent hlen hqueued hidle hes hpc hsegment hempty =>
      obtain ⟨path, hfile, hrequests⟩ := hqueued
      have hsplit : s.messages = [] ∧ m = (path, i) ∧ work = [] := by
        rw [requests, hwork] at hrequests
        cases hmessages : s.messages with
        | nil => simpa [hmessages] using hrequests
        | cons m' messages => simp [hmessages] at hrequests
      obtain ⟨hmessages, rfl, rfl⟩ := hsplit
      refine .serving hsegment ?_ (fun _ => ?_) ?_ ?_
      · simp [requests, System.setWorker, hmessages]
      · simpa [System.setWorker] using hfile
      · exact start_agreement hsilent hlen hpc hempty rfl
      · rw [hes]
        exact start_inTurn hsilent hpc hempty rfl

theorem worker_stage (hlimit : content.length < 2 ^ 31) (hstage : Stage cache content i es s)
    {g : Segment} {x : Worker}
    (hstep : workerStep cache (s.segments (s.workers ()).segment) (s.workers ()) = some (g, x)) :
    Stage cache content i (es ++ workerAccess (s.workers ()))
      ((s.setSegment (s.workers ()).segment g).setWorker () x) := by
  cases hstage with
  | preparing _ _ _ _ hidle => simp [workerStep, hidle] at hstep
  | queued _ _ _ hidle => simp [workerStep, hidle] at hstep
  | serving hsegment hrequests hworker hex hturn =>
      have hbusy : (s.workers ()).pc ≠ .idle := by
        intro hpc
        simp [workerStep, hpc] at hstep
      obtain ⟨hi, hfile⟩ := hworker hbusy
      obtain ⟨hsame, hpath, _, _⟩ := workerStep_tokens hstep
      rw [hi] at hstep ⊢
      have hex' := hex.workerStep hlimit hfile hstep
      have hturn' := hturn.workerStep hlimit hfile hex hstep
      refine .serving hsegment hrequests (fun _ => ?_) ?_ ?_
      · simp only [System.setWorker, Function.update_self]
        exact ⟨hsame.trans hi, hpath ▸ hfile⟩
      · simpa [System.setWorker, System.setSegment] using hex'
      · simpa [System.setWorker, System.setSegment] using hturn'

theorem step_stage (hlimit : content.length < 2 ^ 31) (hpos : 0 < content.length)
    (hstage : Stage cache content i es s) {a : Act Unit Unit} (hsends : SendsWhole s a)
    (hstep : step cache s a = some s') : Stage cache content i (es ++ accesses s a) s' := by
  cases step_move hstep with
  | request => exact absurd hsends id
  | pop hpc hpool =>
      simpa [accesses, handlerAccess, hpc] using pop_stage hstage hpc hpool
  | send hpc => simpa [accesses, handlerAccess, hpc] using send_stage hstage hpc
  | enqueue hpc => simpa [accesses, handlerAccess, hpc] using enqueue_stage hpos hstage hpc
  | handler hlocal => exact handler_stage hlimit hpos hstage hsends hlocal
  | boss hmessages => simpa [accesses] using boss_stage hstage hmessages
  | take hpc hwork => simpa [accesses, workerAccess, hpc] using take_stage hstage hwork
  | worker hlocal => exact worker_stage hlimit hstage hlocal

end GraduateOS.Shm.Stages
