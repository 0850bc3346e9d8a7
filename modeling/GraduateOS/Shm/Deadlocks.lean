import GraduateOS.Shm.ManyCalls
import GraduateOS.Shm.Progress
import GraduateOS.Shm.Signals

namespace GraduateOS.Shm.Deadlocks

open Segments Threads LocalSteps Tokens Orders OrderSteps Accounts Exchange Partners Answers Reuse ManyCalls
open Progress Pool PoolGates Signals Library.MachineInts Library.Runs Library.Totals

def Starved (cache : String → Option Content) (w : Worker) : Prop :=
  (cache w.path).getD [] = [] →
    match w.pc with
    | .idle | .getObject | .lookup | .unmap => True
    | .writeLength | .postLength => w.fileLen = 0
    | .loop => w.fileLen = 0 ∧ w.bytesTransferred = 0
    | _ => False

structure CallsOk {H W : Type} (cache : String → Option Content) (s : System H W) : Prop where
  orders : Orders.Inv s
  answers : Answers.Inv cache s
  headed : ∀ h, Headed (s.handlers h)
  right : ∀ h, Right cache s h
  starved : ∀ w, Starved cache (s.workers w)

def Fits (cache : String → Option Content) : Prop :=
  ∀ path content, cache path = some content → content.length < 2 ^ 31

variable {H W : Type} {cache : String → Option Content} {s s' : System H W} {h : H} {w : W} {result : Int}
  {content : Content} {g : Segment} {x : Handler} {y : Worker}

theorem workerStep_starved {g' : Segment} {y' : Worker} (hstarved : Starved cache y)
    (hstep : workerStep cache g y = some (g', y')) : Starved cache y' := by
  have hpath := (workerStep_tokens hstep).2.1
  intro hempty
  rw [hpath] at hempty
  have hbefore := hstarved hempty
  cases workerStep_move hstep with
  | found hpc hfile =>
      rw [hfile, Option.getD_some] at hempty
      simp [hempty, toInt32]
  | fill hpc hmore =>
      simp only [hpc] at hbefore
      omega
  | clearData hpc | copyData hpc | postReader hpc | advance hpc | waitWriter hpc =>
      simp [hpc] at hbefore
  | writeLength hpc | postLength hpc =>
      simp only [hpc] at hbefore
      simp [hbefore]
  | _ => simp

/-- When the handler has the whole file, its worker waits for nothing. -/
theorem finished_unblocked (hex : Agreement content g x y) (hpc : x.pc = .unmap ∨ x.pc = .enqueue)
    (hblocked : workerStep cache g y = none) : y.pc = .idle := by
  rcases workerStep_blocked hblocked with hidle | ⟨hwait, hempty⟩
  · exact hidle
  · have hok := hex.handler
    have hone : g.semReader = 1 := by
      have htoken := hex.token
      rcases hpc with hpc | hpc <;> simpa [inTransit, handlerToken, workerToken, hpc, hwait, hempty] using htoken
    obtain ⟨hleft, _⟩ := hex.unread (.inl hone)
    rcases hpc with hpc | hpc <;> simp only [HandlerOk, hpc] at hok <;>
      simp only [received, hpc, reduceCtorEq, or_self, if_false] at hleft <;> omega

theorem callOk_agreement (hcall : CallOk content s h) (hasked : asked (s.handlers h)) :
    ∃ y, Partner s (s.handlers h).segment (s.handlers h).path y ∧
      Agreement content (s.segments (s.handlers h).segment) (s.handlers h) y := by
  cases hcall with
  | idle hpc => simp [asked, hpc] at hasked
  | back hpc => simp [asked, hpc] at hasked
  | preparing hpc => rcases hpc with hpc | hpc | hpc <;> simp [asked, hpc] at hasked
  | exchanging _ hpartner hex => exact ⟨_, hpartner, hex⟩

theorem handlerStep_waits (hasked : asked x) (hpc : x.pc ≠ .enqueue)
    (hblocked : handlerStep result g x = none) :
    x.pc = .waitLength ∧ g.semSegment = 0 ∨ x.pc = .waitReader ∧ g.semReader = 0 := by
  cases hx : x.pc with
  | pop | create | send | sendNotFound | returned | failed => simp [asked, hx] at hasked
  | enqueue => exact absurd hx hpc
  | waitLength =>
      simp only [handlerStep, hx, Option.map_eq_none_iff] at hblocked
      exact .inl ⟨rfl, wait_blocked.mp hblocked⟩
  | waitReader =>
      simp only [handlerStep, hx, Option.map_eq_none_iff] at hblocked
      exact .inr ⟨rfl, wait_blocked.mp hblocked⟩
  | loop =>
      simp only [handlerStep, hx] at hblocked
      split at hblocked <;> cases hblocked
  | _ => simp [handlerStep, hx] at hblocked

theorem missing_or_file (cache : String → Option Content) (path : String) :
    (cache path).getD [] = [] ∨ ∃ content, cache path = some content ∧ 0 < content.length := by
  cases hfile : cache path with
  | none => exact .inl rfl
  | some content =>
      by_cases hempty : content = []
      · exact .inl hempty
      · exact .inr ⟨content, rfl, List.length_pos_of_ne_nil hempty⟩

/-- A worker with a file that has bytes agrees with the handler that asked for it. -/
theorem busy_agreement (hfits : Fits cache) (hok : CallsOk cache s) (hbusy : (s.workers w).pc ≠ .idle)
    (hmissing : (cache (s.workers w).path).getD [] ≠ []) :
    ∃ h content, cache (s.workers w).path = some content ∧ Holds s h (s.workers w).segment ∧
      asked (s.handlers h) ∧
      Agreement content (s.segments (s.workers w).segment) (s.handlers h) (s.workers w) := by
  have hserving : Serving s w (s.workers w).segment := ⟨hbusy, rfl⟩
  obtain ⟨h, _, hholds, _, hasked, _, _, horder, _⟩ := hok.orders.inUse_of_order (.inr hserving)
  have hpath : (s.workers w).path = (s.handlers h).path := by
    cases horder with
    | queued _ hno => exact absurd hserving (hno w)
    | finished _ hno => exact absurd hserving (hno w)
    | serving w' _ _ hunique hpath =>
        have hw := hunique w hserving
        subst w'
        exact hpath
  rw [hpath] at hmissing ⊢
  obtain ⟨content, hfile, hpos⟩ := (missing_or_file cache _).resolve_left hmissing
  have hcall := hok.right h content hfile hpos (hfits _ _ hfile)
  obtain ⟨y, hpartner, hex⟩ := callOk_agreement hcall hasked
  rw [hholds.2] at hpartner hex
  have hy : y = s.workers w := by
    cases hpartner with
    | queued _ hno => exact absurd hserving (hno w)
    | finished _ hno => exact absurd hserving (hno w)
    | serving w' _ _ hunique => rw [hunique w hserving]
  exact ⟨h, content, hfile, hholds, hasked, hy ▸ hex⟩

/-- A worker that waits for its handler finds it at work. -/
theorem blocked_worker (hfits : Fits cache) (hok : CallsOk cache s) (hbusy : (s.workers w).pc ≠ .idle)
    (hblocked : workerStep cache (s.segments (s.workers w).segment) (s.workers w) = none) :
    ∃ h, Holds s h (s.workers w).segment ∧ asked (s.handlers h) ∧ (s.handlers h).pc ≠ .unmap ∧
      (s.handlers h).pc ≠ .enqueue ∧
      ∀ result, (handlerStep result (s.segments (s.handlers h).segment) (s.handlers h)).isSome := by
  have hwait := ((workerStep_blocked hblocked).resolve_left hbusy).1
  have hmissing : (cache (s.workers w).path).getD [] ≠ [] := by
    intro hempty
    have hfalse := hok.starved w hempty
    simp [hwait] at hfalse
  obtain ⟨h, content, _, hholds, hasked, hex⟩ := busy_agreement hfits hok hbusy hmissing
  have hunfinished : ¬ ((s.handlers h).pc = .unmap ∨ (s.handlers h).pc = .enqueue) :=
    fun hpc => hbusy (finished_unblocked hex hpc hblocked)
  refine ⟨h, hholds, hasked, fun hpc => hunfinished (.inl hpc), fun hpc => hunfinished (.inr hpc), ?_⟩
  intro result
  rw [hholds.2]
  by_contra hnone
  rw [Bool.not_eq_true, Option.isSome_eq_false_iff, Option.isNone_iff_eq_none] at hnone
  rcases blocked_finished hex hnone hblocked with hpc | ⟨_, hidle⟩
  · exact hunfinished (.inr hpc)
  · exact hbusy hidle

/-- A handler waits in vain only for the daemon, and the daemon has its request. -/
theorem blocked_handler (hfits : Fits cache) (hok : CallsOk cache s) (hasked : asked (s.handlers h))
    (hpc : (s.handlers h).pc ≠ .enqueue)
    (hblocked : handlerStep result (s.segments (s.handlers h).segment) (s.handlers h) = none) :
    requests s ≠ [] ∨ ∃ w, (s.workers w).pc ≠ .idle := by
  by_contra hnone
  obtain ⟨hrequests, hidle⟩ := not_or.mp hnone
  rw [not_not] at hrequests
  have hunserved : ∀ w i, ¬ Serving s w i := fun w i hw => hidle ⟨w, hw.1⟩
  obtain ⟨_, _, _, _, horder, hinformed, _⟩ := hok.orders.inUse_of_asked ⟨asked_holding hasked, rfl⟩ hasked
  rcases handlerStep_waits hasked hpc hblocked with ⟨hwait, hempty⟩ | ⟨hwait, hempty⟩
  · cases horder with
    | queued hmem => simp [hrequests] at hmem
    | serving w _ hw => exact hunserved w _ hw
    | finished => simp [informed, hwait, hempty] at hinformed
  · have hanswer := hok.answers.handlers h
    simp only [HandlerAnswer, hwait] at hanswer
    obtain ⟨_, hlength, hknows⟩ := hanswer
    have hmissing : (cache (s.handlers h).path).getD [] ≠ [] := by
      intro hempty
      rw [Knows, answer_missing hempty] at hknows
      exact hlength hknows
    obtain ⟨content, hfile, hpos⟩ := (missing_or_file cache _).resolve_left hmissing
    have hcall := hok.right h content hfile hpos (hfits _ _ hfile)
    obtain ⟨y, hpartner, hex⟩ := callOk_agreement hcall hasked
    cases hpartner with
    | queued hmem => simp [hrequests] at hmem
    | serving w _ hw => exact hunserved w _ hw
    | finished =>
        rcases blocked_finished hex hblocked (show workerStep cache _ _ = none from rfl) with hback | ⟨hback, _⟩
        · exact hpc hback
        · rw [hwait] at hback
          cases hback

section Threads

variable [DecidableEq H] [DecidableEq W]

theorem step_starved {a : Threads.Act H W} (hstarved : ∀ w, Starved cache (s.workers w))
    (hstep : Threads.step cache s a = some s') (w : W) : Starved cache (s'.workers w) := by
  have hset : ∀ w' y, Starved cache y → Starved cache (Function.update s.workers w' y w) := by
    intro w' y hy
    by_cases hw : w = w'
    · subst w'
      rwa [Function.update_self]
    · rw [Function.update_of_ne hw]
      exact hstarved w
  cases Threads.step_move hstep with
  | request | pop | send | enqueue | handler | boss => exact hstarved w
  | take => exact hset _ _ (fun _ => trivial)
  | worker hlocal => exact hset _ _ (workerStep_starved (hstarved _) hlocal)

def Allowed (s : System H W) (a : Threads.Act H W) : Prop := GivesBackUnmapped s a ∧ ∀ h, SendsWhole h s a

theorem step_callsOk {a : Threads.Act H W} (hok : CallsOk cache s) (hallowed : Allowed s a)
    (hstep : Threads.step cache s a = some s') : CallsOk cache s' where
  orders := Reuse.step_inv hok.orders hallowed.1 hstep
  answers := Answers.step_inv hok.answers hstep
  headed := step_headed hok.answers hok.headed hstep
  right h := step_right hok.orders (hok.right h) (hallowed.2 h) hstep
  starved := step_starved hok.starved hstep

omit [DecidableEq H] [DecidableEq W] in
theorem start_callsOk (nsegments : Nat) (garbage : Nat → Segment) :
    CallsOk cache (Threads.start nsegments garbage : System H W) where
  orders := OrderSteps.start_inv nsegments garbage
  answers := Answers.start_inv nsegments garbage
  headed _ _ := rfl
  right _ _ _ _ _ := .idle rfl rfl rfl
  starved _ _ := trivial

end Threads

def Guarded [DecidableEq H] (p : Proxy H W) : Signals.Act H W → Prop
  | .other (.handler h result) =>
      (p.gates h = .inside → GivesBackUnmapped p.threads (.handler h result)) ∧
        SendsWhole h p.threads (.handler h result)
  | _ => True

/-- Neither a new call, nor a wake-up without a signal. -/
def Internal : Signals.Act H W → Prop
  | .other (.request _ _) | .other (.wake _) => False
  | _ => True

structure Quiet (p : Proxy H W) : Prop where
  handlers : ∀ h, p.gates h = .idle
  workers : ∀ w, (p.threads.workers w).pc = .idle
  requests : requests p.threads = []

/-- How far a handler is from its next statement. A signal pays for the way of
the handler that it wakes up. -/
def gateRank : Gate → Nat
  | .idle | .wait | .inside => 0
  | .pop | .run => 1
  | .test => 2
  | .lock => 3
  | .signal => 5
  | .unlock => 6

def threadsAct : PoolGates.Act H W → Option (Threads.Act H W)
  | .request h path => some (.request h path)
  | .wake _ => none
  | .handler h result => some (.handler h result)
  | .boss => some .boss
  | .worker w => some (.worker w)

section Refinement

variable [DecidableEq H] [DecidableEq W] [Fintype H] {n : Nat} {es : List (Event H)} {p p' : Proxy H W}

inductive Refined (cache : String → Option Content) (p : Proxy H W) (a : PoolGates.Act H W) (p' : Proxy H W) :
    Prop
  | threads {b : Threads.Act H W} : threadsAct a = some b → Allowed p.threads b →
      Threads.step cache p.threads b = some p'.threads →
      total gateRank p'.gates ≤ total gateRank p.gates + 6 → Refined cache p a p'
  | lock {h : H} {result : Int} : a = .handler h result → p'.threads = p.threads →
      total gateRank p'.gates + (if p.gates h = .signal then 4 else 1) ≤ total gateRank p.gates →
      Refined cache p a p'

omit [DecidableEq W] in
theorem total_setGate (p : Proxy H W) (h : H) (gate : Gate) :
    total gateRank (p.setGate h gate).gates + gateRank (p.gates h) =
      total gateRank p.gates + gateRank gate :=
  total_update gateRank p.gates h gate

theorem gateRank_le (gate : Gate) : gateRank gate ≤ 6 := by
  cases gate <;> decide

theorem turn_refined {gate : Gate} (mux : Option H)
    (hle : gateRank gate + (if p.gates h = .signal then 4 else 1) ≤ gateRank (p.gates h)) :
    Refined cache p (.handler h result) { p.setGate h gate with mux := mux } := by
  refine .lock rfl rfl ?_
  have htotal := total_setGate p h gate
  simp only
  omega

theorem goOn_refined {gate : Gate} (hguard : Guarded p (.other (.handler h result)))
    (hpc : (p.threads.handlers h).pc = .enqueue → p.gates h = .inside)
    (hstep : goOn cache p h result gate = some p') : Refined cache p (.handler h result) p' := by
  obtain ⟨s, hs, rfl⟩ := Option.map_eq_some_iff.mp hstep
  refine .threads rfl ⟨fun henqueue => hguard.1 (hpc henqueue) henqueue, ?_⟩ hs ?_
  · intro h' hh
    exact hh ▸ hguard.2 rfl
  · have htotal := total_setGate p h gate
    have hle := gateRank_le gate
    simp only
    omega

theorem handlerAct_refined (hi : PoolRuns.Inv n es p) (hguard : Guarded p (.other (.handler h result)))
    (hstep : handlerAct cache p h result = some p') : Refined cache p (.handler h result) p' := by
  have hgate := hi.gates h
  cases hwhere : p.gates h with
  | idle | wait => simp [handlerAct, hwhere] at hstep
  | lock | test =>
      simp only [handlerAct, hwhere] at hstep
      split at hstep <;> cases hstep <;> exact turn_refined _ (by simp [hwhere, gateRank])
  | pop =>
      simp only [handlerAct, hwhere] at hstep
      rw [hwhere] at hgate
      rw [if_neg hgate.2] at hstep
      exact goOn_refined hguard (fun hpc => by rw [hgate.1] at hpc; cases hpc) hstep
  | run =>
      simp only [handlerAct, hwhere] at hstep
      split at hstep
      · split at hstep <;> cases hstep
        exact turn_refined _ (by simp [hwhere, gateRank])
      next hlocks => exact goOn_refined hguard (fun hpc => by simp [locks, hpc] at hlocks) hstep
  | inside =>
      simp only [handlerAct, hwhere] at hstep
      exact goOn_refined hguard (fun _ => hwhere) hstep
  | unlock =>
      simp only [handlerAct, hwhere] at hstep
      cases hstep
      exact turn_refined _ (by split <;> simp [hwhere, gateRank])
  | signal =>
      simp only [handlerAct, hwhere] at hstep
      cases hstep
      exact turn_refined p.mux (by split <;> simp [hwhere, gateRank])

theorem gates_refined {a : PoolGates.Act H W} (hi : PoolRuns.Inv n es p) (hguard : Guarded p (.other a))
    (hwake : ∀ h, a ≠ .wake h) (hstep : PoolGates.step cache p a = some p') : Refined cache p a p' := by
  simp only [PoolGates.step] at hstep
  split at hstep
  · cases hstep
  · cases a with
    | request h path =>
        simp only at hstep
        split at hstep
        next hgate =>
          obtain ⟨s, hs, rfl⟩ := Option.map_eq_some_iff.mp hstep
          refine .threads rfl ⟨trivial, fun _ => trivial⟩ hs ?_
          have htotal := total_setGate p h .lock
          simp only [gateRank, hgate] at htotal ⊢
          omega
        · cases hstep
    | wake h => exact absurd rfl (hwake h)
    | handler h result => exact handlerAct_refined hi hguard hstep
    | boss =>
        obtain ⟨s, hs, rfl⟩ := Option.map_eq_some_iff.mp hstep
        exact .threads rfl ⟨trivial, fun _ => trivial⟩ hs (Nat.le_add_right _ _)
    | worker w =>
        obtain ⟨s, hs, rfl⟩ := Option.map_eq_some_iff.mp hstep
        exact .threads rfl ⟨trivial, fun _ => trivial⟩ hs (Nat.le_add_right _ _)

theorem wake_refined (hstep : PoolGates.step cache p (.wake h) = some p') :
    p'.threads = p.threads ∧ total gateRank p'.gates = total gateRank p.gates + 3 := by
  simp only [PoolGates.step] at hstep
  split at hstep
  · cases hstep
  · split at hstep <;> cases hstep
    next hgate =>
      have htotal := total_setGate p h .lock
      simp only [gateRank, hgate] at htotal
      exact ⟨rfl, htotal⟩

structure RunInv (cache : String → Option Content) (n : Nat) (p : Proxy H W) : Prop where
  signals : Signals.Inv n p
  calls : CallsOk cache p.threads

inductive Simulated (cache : String → Option Content) (p : Proxy H W) : Signals.Act H W → Proxy H W → Prop
  | threads {a : PoolGates.Act H W} {b : Threads.Act H W} {q : Proxy H W} : threadsAct a = some b → Allowed p.threads b →
      Threads.step cache p.threads b = some q.threads →
      total gateRank q.gates ≤ total gateRank p.gates + 6 → Simulated cache p (.other a) q
  | lock {a : Signals.Act H W} {q : Proxy H W} : q.threads = p.threads → (∀ h path, a ≠ .other (.request h path)) →
      (Internal a → total gateRank q.gates < total gateRank p.gates) → Simulated cache p a q

theorem step_simulated {a : Signals.Act H W} (hi : PoolRuns.Inv n es p) (hguard : Guarded p a)
    (hstep : Signals.step cache p a = some p') : Simulated cache p a p' := by
  have hsignal : ∀ h q, p.gates h = .signal → PoolGates.step cache p (.handler h 0) = some q →
      q.threads = p.threads ∧ total gateRank q.gates + 4 ≤ total gateRank p.gates := by
    intro h q hgate hq
    simp only [PoolGates.step, handlerAct, hgate] at hq
    split at hq <;> cases hq
    have htotal := total_setGate p h (if (p.threads.handlers h).pc = .returned then .idle else .run)
    have hle : gateRank (if (p.threads.handlers h).pc = .returned then .idle else .run) ≤ 1 := by
      split <;> decide
    refine ⟨rfl, ?_⟩
    simp only [hgate, gateRank] at htotal hle ⊢
    omega
  cases step_moves hstep with
  | @other a _ hother hgates =>
      by_cases hwake : ∃ h, a = .wake h
      · obtain ⟨h, rfl⟩ := hwake
        exact .lock (wake_refined hgates).1 (by simp) (fun hinternal => absurd hinternal id)
      · cases gates_refined hi hguard (fun h hh => hwake ⟨h, hh⟩) hgates with
        | threads hact hallowed hthreads hle => exact .threads hact hallowed hthreads hle
        | @lock h result hact hthreads hle =>
            subst hact
            rw [if_neg (show p.gates h ≠ .signal from hother)] at hle
            exact .lock hthreads (by simp) (fun _ => hle)
  | unheard hgate _ hgates =>
      obtain ⟨hthreads, hle⟩ := hsignal _ _ hgate hgates
      exact .lock hthreads (by simp) (fun _ => by omega)
  | woken hgate hfirst hsecond =>
      obtain ⟨hthreads, hle⟩ := hsignal _ _ hgate hfirst
      obtain ⟨hthreads', htotal⟩ := wake_refined hsecond
      exact .lock (hthreads'.trans hthreads) (by simp) (fun _ => by omega)

theorem step_runInv {a : Signals.Act H W} (hi : RunInv cache n p) (hguard : Guarded p a)
    (hstep : Signals.step cache p a = some p') : RunInv cache n p' := by
  refine ⟨Signals.step_inv hi.signals hstep, ?_⟩
  obtain ⟨es, hpool⟩ := hi.signals.pool
  cases step_simulated hpool hguard hstep with
  | threads _ hallowed hthreads => exact step_callsOk hi.calls hallowed hthreads
  | lock hthreads => exact hthreads ▸ hi.calls

end Refinement

section Progress

variable [DecidableEq H] [DecidableEq W] [Fintype H] {n : Nat} {es : List (Event H)} {p : Proxy H W}

def Possible (cache : String → Option Content) (p : Proxy H W) : Prop :=
  ∃ a, Guarded p a ∧ Internal a ∧ (Signals.step cache p a).isSome

theorem possible_handler (halive : p.exited = false) (hgate : p.gates h ≠ .signal)
    (hguard : Guarded p (.other (.handler h (p.threads.handlers h).sendLen)))
    (hact : (handlerAct cache p h (p.threads.handlers h).sendLen).isSome) : Possible cache p :=
  ⟨_, hguard, trivial, by simpa [Signals.step, AtSignal, hgate, PoolGates.step, halive] using hact⟩

omit [DecidableEq W] [Fintype H] in
theorem guarded_handler (hgate : p.gates h = .inside → (p.threads.handlers h).pc = .enqueue →
      ∀ w, ¬ Attached (p.threads.workers w) (p.threads.handlers h).segment) :
    Guarded p (.other (.handler h (p.threads.handlers h).sendLen)) :=
  ⟨hgate, fun _ _ => rfl⟩

omit [Fintype H] in
/-- The next statement of the handler, outside the lock. -/
theorem goOn_isSome {gate : Gate} (hpop : (p.threads.handlers h).pc ≠ .pop)
    (hsend : (p.threads.handlers h).pc ≠ .send) (henqueue : (p.threads.handlers h).pc ≠ .enqueue)
    (hlocal : (handlerStep result (p.threads.segments (p.threads.handlers h).segment)
      (p.threads.handlers h)).isSome) : (goOn cache p h result gate).isSome := by
  rw [goOn, Option.isSome_map]
  simp only [Threads.step]
  rwa [Option.isSome_map]

theorem possible_worker (halive : p.exited = false)
    (hlocal : (workerStep cache (p.threads.segments (p.threads.workers w).segment)
      (p.threads.workers w)).isSome) : Possible cache p := by
  refine ⟨.other (.worker w), trivial, trivial, ?_⟩
  simp only [Signals.step, AtSignal, if_false, PoolGates.step, halive, Bool.false_eq_true, Threads.step]
  split
  next hpc _ => simp [workerStep, hpc] at hlocal
  · simpa using hlocal

theorem possible_boss (halive : p.exited = false) (hmessages : p.threads.messages ≠ []) :
    Possible cache p := by
  refine ⟨.other .boss, trivial, trivial, ?_⟩
  cases hm : p.threads.messages with
  | nil => exact absurd hm hmessages
  | cons m messages => simp [Signals.step, AtSignal, PoolGates.step, halive, Threads.step, hm]

theorem possible_take (halive : p.exited = false) (hidle : (p.threads.workers w).pc = .idle)
    (hwork : p.threads.work ≠ []) : Possible cache p := by
  refine ⟨.other (.worker w), trivial, trivial, ?_⟩
  cases hm : p.threads.work with
  | nil => exact absurd hm hwork
  | cons m work => simp [Signals.step, AtSignal, PoolGates.step, halive, Threads.step, hidle, hm]

theorem possible_signal (halive : p.exited = false) (hgate : p.gates h = .signal) : Possible cache p := by
  by_cases hwaiting : ∃ h', p.gates h' = .wait
  · obtain ⟨h', hwait⟩ := hwaiting
    have hne : h' ≠ h := by
      rintro rfl
      rw [hgate] at hwait
      cases hwait
    refine ⟨.signal h (some h'), trivial, trivial, ?_⟩
    simp [Signals.step, hgate, PoolGates.step, halive, handlerAct, Proxy.setGate, hne, hwait]
  · have hnobody : ∀ h', p.gates h' ≠ .wait := fun h' hwait => hwaiting ⟨h', hwait⟩
    refine ⟨.signal h none, trivial, trivial, ?_⟩
    simp [Signals.step, hgate, hnobody, PoolGates.step, halive, handlerAct]

theorem possible_lock (halive : p.exited = false) (hfree : p.mux = none)
    (hgate : p.gates h = .lock ∨ p.gates h = .run ∧ locks (p.threads.handlers h)) : Possible cache p := by
  rcases hgate with hgate | ⟨hgate, hlocks⟩
  · refine possible_handler (h := h) halive (by simp [hgate]) (guarded_handler (by simp [hgate])) ?_
    simp [handlerAct, hgate, hfree]
  · refine possible_handler (h := h) halive (by simp [hgate]) (guarded_handler (by simp [hgate])) ?_
    simp [handlerAct, hgate, hfree, hlocks]

theorem possible_run (halive : p.exited = false) (hfree : p.mux = none) (hgate : p.gates h = .run)
    (hpop : (p.threads.handlers h).pc ≠ .pop)
    (hlocal : ¬ locks (p.threads.handlers h) → (handlerStep (p.threads.handlers h).sendLen
      (p.threads.segments (p.threads.handlers h).segment) (p.threads.handlers h)).isSome) :
    Possible cache p := by
  by_cases hlocks : locks (p.threads.handlers h)
  · exact possible_lock halive hfree (.inr ⟨hgate, hlocks⟩)
  · refine possible_handler (h := h) halive (by simp [hgate]) (guarded_handler (by simp [hgate])) ?_
    simp only [handlerAct, hgate, if_neg hlocks]
    refine goOn_isSome hpop ?_ ?_ (hlocal hlocks)
    · intro hpc
      simp [locks, hpc] at hlocks
    · intro hpc
      simp [locks, hpc] at hlocks

/-- A worker at work can go on, or the handler that it waits for can. -/
theorem possible_busy (hfits : Fits cache) (hi : RunInv cache n p) (hfree : p.mux = none)
    (hbusy : (p.threads.workers w).pc ≠ .idle) : Possible cache p := by
  obtain ⟨es, hpool⟩ := hi.signals.pool
  cases hlocal : workerStep cache (p.threads.segments (p.threads.workers w).segment) (p.threads.workers w) with
  | some next => exact possible_worker hpool.alive (by rw [hlocal]; rfl)
  | none =>
      obtain ⟨h, _, hasked, hunmap, henqueue, hsome⟩ := blocked_worker hfits hi.calls hbusy hlocal
      have hgate := hpool.gates h
      have howner := hpool.owner h
      cases hwhere : p.gates h with
      | idle | lock | test | wait => simp [asked, (show _ = _ from hwhere ▸ hgate)] at hasked
      | run =>
          refine possible_run hpool.alive hfree hwhere ?_ (fun _ => hsome _)
          intro hpc
          simp [asked, hpc] at hasked
      | pop | inside | unlock => simp [hwhere, PoolRuns.owns, hfree] at howner
      | signal =>
          rw [hwhere] at hgate
          rcases hgate with hpc | hpc <;> simp [asked, hpc] at hasked

theorem possible_daemon [Nonempty W] (hfits : Fits cache) (hi : RunInv cache n p) (hfree : p.mux = none)
    (hdaemon : requests p.threads ≠ [] ∨ ∃ w, (p.threads.workers w).pc ≠ .idle) : Possible cache p := by
  obtain ⟨es, hpool⟩ := hi.signals.pool
  by_cases hbusy : ∃ w, (p.threads.workers w).pc ≠ .idle
  · obtain ⟨w, hw⟩ := hbusy
    exact possible_busy hfits hi hfree hw
  · have hrequests := hdaemon.resolve_right hbusy
    rw [requests, Ne, List.append_eq_nil_iff, not_and_or] at hrequests
    rcases hrequests with hmessages | hwork
    · exact possible_boss hpool.alive hmessages
    · have w := Classical.arbitrary W
      exact possible_take (w := w) hpool.alive (by_contra fun hw => hbusy ⟨w, hw⟩) hwork

/-- Until a segment can be given back its worker can go on. -/
theorem possible_mapped (hfits : Fits cache) (hi : RunInv cache n p)
    (hpc : (p.threads.handlers h).pc = .enqueue)
    (hmapped : Attached (p.threads.workers w) (p.threads.handlers h).segment) : Possible cache p := by
  obtain ⟨es, hpool⟩ := hi.signals.pool
  cases hlocal : workerStep cache (p.threads.segments (p.threads.workers w).segment) (p.threads.workers w) with
  | some next => exact possible_worker hpool.alive (by rw [hlocal]; rfl)
  | none =>
      obtain ⟨h', hholds, _, _, henqueue, _⟩ := blocked_worker hfits hi.calls hmapped.1 hlocal
      have hmine : Holds p.threads h (p.threads.workers w).segment :=
        ⟨by simp [holding, hpc], hmapped.2.2.symm⟩
      rw [(hpool.conserved.of_holds hmine).2.2 h' hholds] at henqueue
      exact absurd hpc henqueue

/-- The owner of the lock never holds it for good. -/
theorem possible_owner (hfits : Fits cache) (hi : RunInv cache n p) (howner : p.mux = some h) : Possible cache p := by
  obtain ⟨es, hpool⟩ := hi.signals.pool
  have hgate := hpool.gates h
  have howns := (hpool.owner h).mp howner
  cases hwhere : p.gates h with
  | idle | lock | wait | run | signal => simp [hwhere, PoolRuns.owns] at howns
  | test =>
      refine possible_handler (h := h) hpool.alive (by simp [hwhere]) (guarded_handler (by simp [hwhere])) ?_
      simp only [handlerAct, hwhere]
      split <;> rfl
  | pop =>
      rw [hwhere] at hgate
      refine possible_handler (h := h) hpool.alive (by simp [hwhere]) (guarded_handler (by simp [hwhere])) ?_
      obtain ⟨i, pool, hpool⟩ := List.exists_cons_of_ne_nil hgate.2
      simp [handlerAct, hwhere, goOn, Threads.step, hgate.1, hpool]
  | inside =>
      rw [hwhere] at hgate
      rcases hgate with hpc | hpc | hpc
      · by_cases hfull : p.threads.messages.length < 10
        · refine possible_handler (h := h) hpool.alive (by simp [hwhere]) (guarded_handler (by simp [hpc])) ?_
          simp [handlerAct, hwhere, goOn, Threads.step, hpc, hfull]
        · refine possible_boss hpool.alive ?_
          intro hempty
          simp [hempty] at hfull
      · refine possible_handler (h := h) hpool.alive (by simp [hwhere]) (guarded_handler (by simp [hpc])) ?_
        simp [handlerAct, hwhere, goOn, Threads.step, hpc, handlerStep]
      · by_cases hmapped : ∃ w, Attached (p.threads.workers w) (p.threads.handlers h).segment
        · obtain ⟨w, hw⟩ := hmapped
          exact possible_mapped hfits hi hpc hw
        · refine possible_handler (h := h) hpool.alive (by simp [hwhere])
            (guarded_handler fun _ _ w hw => hmapped ⟨w, hw⟩) ?_
          simp [handlerAct, hwhere, goOn, Threads.step, hpc]
  | unlock =>
      refine possible_handler (h := h) hpool.alive (by simp [hwhere]) (guarded_handler (by simp [hwhere])) ?_
      simp [handlerAct, hwhere]

/-- A handler at its segment can go on, or the daemon can. -/
theorem possible_running [Nonempty W] (hfits : Fits cache) (hi : RunInv cache n p) (hfree : p.mux = none)
    (hgate : p.gates h = .run) : Possible cache p := by
  obtain ⟨es, hpool⟩ := hi.signals.pool
  have hwhere : holding (p.threads.handlers h) ∨ (p.threads.handlers h).pc = .sendNotFound := by
    have hwhere := hpool.gates h
    rwa [hgate] at hwhere
  have hpop : (p.threads.handlers h).pc ≠ .pop := by
    rcases hwhere with hholding | hpc
    · intro hpc
      simp [holding, hpc] at hholding
    · simp [hpc]
  by_cases hwaiting : asked (p.threads.handlers h) ∧ (p.threads.handlers h).pc ≠ .enqueue ∧
      handlerStep (p.threads.handlers h).sendLen (p.threads.segments (p.threads.handlers h).segment)
        (p.threads.handlers h) = none
  · obtain ⟨hasked, henqueue, hblocked⟩ := hwaiting
    exact possible_daemon hfits hi hfree (blocked_handler hfits hi.calls hasked henqueue hblocked)
  · refine possible_run hpool.alive hfree hgate hpop (fun hlocks => ?_)
    by_contra hnone
    rw [Bool.not_eq_true, Option.isSome_eq_false_iff, Option.isNone_iff_eq_none] at hnone
    refine hwaiting ⟨?_, ?_, hnone⟩
    · cases hpc : (p.threads.handlers h).pc with
      | pop | returned | failed => simp [holding, hpc] at hwhere
      | create | sendNotFound => simp [handlerStep, hpc] at hnone
      | send => simp [locks, hpc] at hlocks
      | _ => simp [asked, hpc]
    · intro hpc
      simp [locks, hpc] at hlocks

/-- Somebody who is on the way to the queue can go on. -/
theorem possible_active (halive : p.exited = false) (hfree : p.mux = none) (hpool : PoolRuns.Inv n es p)
    (hactive : 0 < active (stand p h)) : Possible cache p := by
  have howner := hpool.owner h
  cases hgate : p.gates h with
  | idle | wait | run | inside => simp [stand, active, hgate] at hactive
  | lock => exact possible_lock halive hfree (.inl hgate)
  | signal => exact possible_signal halive hgate
  | test | pop | unlock => simp [hgate, PoolRuns.owns, hfree] at howner

/-- Whoever waits for a segment, somebody else is on the way. -/
theorem possible_waiting [Nonempty W] (hn : 0 < n) (hfits : Fits cache) (hi : RunInv cache n p)
    (hfree : p.mux = none) (hwait : p.gates h = .wait) : Possible cache p := by
  obtain ⟨es, hpool⟩ := hi.signals.pool
  rcases hpool.conserved.once 0 hn with ⟨hmem, _⟩ | ⟨_, h', hholds, _⟩
  · have hcount := hi.signals.noticed ⟨h, hwait⟩
    have hlength := List.length_pos_of_mem hmem
    have hsomebody : 0 < total active (stand p) := by omega
    obtain ⟨h', hactive⟩ := total_pos hsomebody
    exact possible_active hpool.alive hfree hpool hactive
  · have hgate := hpool.gates h'
    have howner := hpool.owner h'
    have hholding := hholds.1
    cases hwhere : p.gates h' with
    | idle | lock | test | wait =>
        rw [hwhere] at hgate
        simp [holding, (show _ = _ from hgate)] at hholding
    | run => exact possible_running hfits hi hfree hwhere
    | pop | inside | unlock => simp [hwhere, PoolRuns.owns, hfree] at howner
    | signal =>
        rw [hwhere] at hgate
        rcases hgate with hpc | hpc <;> simp [holding, hpc] at hholding

omit [DecidableEq W] in
/-- Once all handlers are back the daemon has nothing to do. -/
theorem quiet_of_idle (hi : RunInv cache n p) (hidle : ∀ h, p.gates h = .idle) : Quiet p := by
  obtain ⟨es, hpool⟩ := hi.signals.pool
  have hback : ∀ h, asked (p.threads.handlers h) = false := by
    intro h
    have hgate := hpool.gates h
    rw [hidle h] at hgate
    simp [asked, (show _ = _ from hgate)]
  refine ⟨hidle, fun w => ?_, ?_⟩
  · by_contra hbusy
    obtain ⟨h, _, _, _, hasked, _⟩ := hi.calls.orders.inUse_of_order (.inr ⟨hbusy, rfl⟩)
    simp [hback h] at hasked
  · by_contra hrequests
    obtain ⟨m, hm⟩ := List.exists_mem_of_ne_nil _ hrequests
    have hmem := List.mem_map_of_mem (f := Prod.snd) hm
    cases hi.calls.orders.segments m.2 with
    | free _ hrest => exact hrest.unrequested hmem
    | prepared _ _ _ _ _ hrest => exact hrest.unrequested hmem
    | inUse h _ _ _ hasked => simp [hback h] at hasked

theorem runInv_progress [Nonempty W] (hn : 0 < n) (hfits : Fits cache) (hi : RunInv cache n p) :
    Quiet p ∨ Possible cache p := by
  by_cases hidle : ∀ h, p.gates h = .idle
  · exact .inl (quiet_of_idle hi hidle)
  · obtain ⟨h, hbusy⟩ := not_forall.mp hidle
    obtain ⟨es, hpool⟩ := hi.signals.pool
    right
    cases hmux : p.mux with
    | some h' => exact possible_owner hfits hi hmux
    | none =>
        have howner := hpool.owner h
        cases hgate : p.gates h with
        | idle => exact absurd hgate hbusy
        | lock => exact possible_lock hpool.alive hmux (.inl hgate)
        | wait => exact possible_waiting hn hfits hi hmux hgate
        | run => exact possible_running hfits hi hmux hgate
        | signal => exact possible_signal hpool.alive hgate
        | test | pop | inside | unlock => simp [hgate, PoolRuns.owns, hmux] at howner

instance [Fintype W] (p : Proxy H W) : ∀ a, Decidable (Guarded p a)
  | .other (.handler h result) => inferInstanceAs (Decidable
      ((p.gates h = .inside → GivesBackUnmapped p.threads (.handler h result)) ∧
        SendsWhole h p.threads (.handler h result)))
  | .other (.request _ _) => .isTrue trivial
  | .other (.wake _) => .isTrue trivial
  | .other .boss => .isTrue trivial
  | .other (.worker _) => .isTrue trivial
  | .signal _ _ => .isTrue trivial

def twoCalls : List (Signals.Act Bool Unit) :=
  let acts : List (PoolGates.Act Bool Unit) := [.request true "f", .request false "g"] ++
    List.replicate 4 (.handler true 0) ++ List.replicate 2 (.handler false 0)
  acts.map .other

theorem twoCalls_waits : (exec (Signals.step oneByte) (fun _ => Guarded)
    (PoolGates.start 1 fun _ => ⟨0, 0, 0, 0, []⟩) twoCalls).any fun p => p.gates false = .wait := by
  decide +kernel

theorem oneByte_fits : Fits oneByte := by
  intro path content hfile
  simp only [oneByte] at hfile
  split at hfile <;> cases hfile
  decide

end Progress

end GraduateOS.Shm.Deadlocks
