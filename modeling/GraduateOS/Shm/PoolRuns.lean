import GraduateOS.Library.Runs
import GraduateOS.Shm.PoolGates

namespace GraduateOS.Shm.PoolRuns

open Segments Threads LocalSteps Tokens Orders Pool PoolGates Library.Runs

def owns : Gate → Bool
  | .test | .pop | .inside | .unlock => true
  | _ => false

def GateOk (pool : List Nat) (x : Handler) : Gate → Prop
  | .idle => x.pc = .returned
  | .lock | .test | .wait => x.pc = .pop
  | .pop => x.pc = .pop ∧ pool ≠ []
  | .run => holding x ∨ x.pc = .sendNotFound
  | .inside => x.pc = .send ∨ x.pc = .unmap ∨ x.pc = .enqueue
  | .unlock => x.pc = .create ∨ x.pc = .waitLength ∨ x.pc = .sendNotFound ∨ x.pc = .returned
  | .signal => x.pc = .sendNotFound ∨ x.pc = .returned

def Follows (pool : List Nat) (x x' : Handler) : Prop :=
  match x.pc with
  | .pop => x'.pc = .create ∧ pool.head? = some x'.segment
  | .send => x'.pc = .waitLength ∧ x'.segment = x.segment
  | .unmap => x'.pc = .enqueue ∧ x'.segment = x.segment
  | .enqueue => (x'.pc = .sendNotFound ∨ x'.pc = .returned) ∧ x'.segment = x.segment
  | .sendNotFound => x'.pc = .returned
  | _ => holding x' ∧ x'.segment = x.segment

variable {H W : Type} {cache : String → Option Content} {n : Nat} {s s' : System H W} {h : H} {x x' : Handler}

theorem handlerStep_follows {result : Int} {g g' : Segment} (pool : List Nat) (hlen : 0 ≤ x.readLen)
    (hstep : handlerStep result g x = some (g', x')) : Follows pool x x' := by
  cases handlerStep_move hstep with
  | readError _ herror => exact absurd hlen (Int.not_le.mpr herror)
  | create hpc | waitLength hpc | noLength hpc | readLength hpc | header hpc | more hpc | done hpc
  | waitReader hpc | readData hpc | postWriter hpc | gfsSend hpc | unmap hpc | sendNotFound hpc =>
      simp [Follows, hpc, holding]

variable [DecidableEq H]

/-- Outside the lock a call ends with its header for a file that is not found, and only so. -/
theorem run_goesOn (hok : holding x ∨ x.pc = .sendNotFound) (hlocks : ¬ locks x) (hlen : 0 ≤ x.readLen) :
    x.pc = .sendNotFound ∧ ends x ∨ holding x ∧ ends x = false ∧
      ∀ pool x', Follows pool x x' → holding x' ∧ x'.segment = x.segment := by
  cases hpc : x.pc with
  | pop | returned | failed => simp [holding, hpc] at hok
  | send | enqueue => simp [locks, hpc] at hlocks
  | sendNotFound => simp [ends, hpc]
  | unmap =>
      refine .inr ⟨by simp [holding, hpc], by simp [ends, hpc], fun pool x' hfollows => ?_⟩
      simp only [Follows, hpc] at hfollows
      simp [holding, hfollows]
  | _ =>
      refine .inr ⟨by simp [holding, hpc], by simp [ends, hpc, hlen], fun pool x' hfollows => ?_⟩
      simpa only [Follows, hpc] using hfollows

theorem sofar_run {H : Type} {h : H} (hholding : holding x) :
    sofar h .run x = [.call h, .take h x.segment] := by
  cases hpc : x.pc <;> simp [holding, hpc] at hholding <;> simp [sofar, hpc]

structure Inv (n : Nat) (es : List (Event H)) (p : Proxy H W) : Prop where
  alive : p.exited = false
  conserved : Conserved n p.threads
  reading : Reading p.threads
  owner : ∀ h, p.mux = some h ↔ owns (p.gates h)
  gates : ∀ h, GateOk p.threads.pool (p.threads.handlers h) (p.gates h)
  calls : ∀ h, ∃ segments : List Nat,
    historyOf h es = segments.flatMap (callEvents h) ++ sofar h (p.gates h) (p.threads.handlers h)

variable {es : List (Event H)} {p p' : Proxy H W}

theorem historyOf_append (h : H) (es es' : List (Event H)) :
    historyOf h (es ++ es') = historyOf h es ++ historyOf h es' := List.filter_append _ _

theorem Inv.move (hi : Inv n es p) {gate : Gate} {mux : Option H} {events : List (Event H)}
    (hhandlers : s.handlers = Function.update p.threads.handlers h x)
    (hsystem : Conserved n s ∧ Reading s)
    (hpool : p.gates h ≠ .pop → p.threads.pool ≠ [] → s.pool ≠ [])
    (hmux : mux = p.mux ∧ owns gate = owns (p.gates h) ∨ p.mux = none ∧ mux = some h ∧ owns gate ∨
      owns (p.gates h) ∧ mux = none ∧ owns gate = false)
    (hgate : GateOk s.pool x gate) (hevents : ∀ e ∈ events, e.handler = h)
    (hcalls : ∃ more : List Nat, sofar h (p.gates h) (p.threads.handlers h) ++ events =
      more.flatMap (callEvents h) ++ sofar h gate x) :
    Inv n (es ++ events) { p.setGate h gate with mux := mux, threads := s } := by
  have hself : (p.setGate h gate).gates h = gate := by simp [Proxy.setGate]
  have hother : ∀ h', h' ≠ h → (p.setGate h gate).gates h' = p.gates h' :=
    fun h' hh => by simp [Proxy.setGate, hh]
  have hx : s.handlers h = x := by simp [hhandlers]
  have hsame : ∀ h', h' ≠ h → s.handlers h' = p.threads.handlers h' := fun h' hh => by simp [hhandlers, hh]
  refine ⟨hi.alive, hsystem.1, hsystem.2, ?_, ?_, ?_⟩
  · intro h'
    by_cases hh : h' = h
    · subst h'
      rw [hself]
      rcases hmux with ⟨rfl, hsame⟩ | ⟨-, rfl, howns⟩ | ⟨-, rfl, howns⟩
      · rw [hsame]
        exact hi.owner h
      · exact iff_of_true rfl howns
      · rw [howns]
        exact iff_of_false nofun nofun
    · have howner := hi.owner h'
      rw [hother h' hh]
      rcases hmux with ⟨rfl, -⟩ | ⟨hfree, rfl, -⟩ | ⟨howns, rfl, -⟩
      · exact howner
      · rw [← howner, hfree]
        simp [Ne.symm hh]
      · rw [← howner, (hi.owner h).mpr howns]
        simp [Ne.symm hh]
  · intro h'
    by_cases hh : h' = h
    · subst h'
      rw [hself]
      exact hx.symm ▸ hgate
    · have hok := hi.gates h'
      rw [hother h' hh]
      show GateOk s.pool (s.handlers h') (p.gates h')
      rw [hsame h' hh]
      cases hgate' : p.gates h' with
      | pop =>
          rw [hgate'] at hok
          refine ⟨hok.1, hpool (fun hpop => hh ?_) hok.2⟩
          -- only one of them can have `mux`
          have hmine := (hi.owner h).mpr (by rw [hpop]; rfl)
          have hits := (hi.owner h').mpr (by rw [hgate']; rfl)
          exact Option.some.inj (hits.symm.trans hmine)
      | _ =>
          rw [hgate'] at hok
          exact hok
  · intro h'
    obtain ⟨segments, hhistory⟩ := hi.calls h'
    rw [historyOf_append]
    by_cases hh : h' = h
    · subst h'
      obtain ⟨more, hmore⟩ := hcalls
      have hall : historyOf h events = events := List.filter_eq_self.mpr (fun e he => by simp [hevents e he])
      refine ⟨segments ++ more, ?_⟩
      rw [hself, hall, hhistory, List.append_assoc, hmore, List.flatMap_append, List.append_assoc]
      show _ = _ ++ (_ ++ sofar h gate (s.handlers h))
      rw [hx]
    · have hnone : historyOf h' events = [] := by
        refine List.filter_eq_nil_iff.mpr (fun e he => ?_)
        simp [hevents e he, Ne.symm hh]
      refine ⟨segments, ?_⟩
      rw [hother h' hh, hnone, List.append_nil, hhistory]
      show _ = _ ++ sofar h' (p.gates h') (s.handlers h')
      rw [hsame h' hh]

theorem Inv.turn (hi : Inv n es p) {gate : Gate} {mux : Option H} {events : List (Event H)}
    (hmux : mux = p.mux ∧ owns gate = owns (p.gates h) ∨ p.mux = none ∧ mux = some h ∧ owns gate ∨
      owns (p.gates h) ∧ mux = none ∧ owns gate = false)
    (hgate : GateOk p.threads.pool (p.threads.handlers h) gate) (hevents : ∀ e ∈ events, e.handler = h)
    (hcalls : ∃ more : List Nat, sofar h (p.gates h) (p.threads.handlers h) ++ events =
      more.flatMap (callEvents h) ++ sofar h gate (p.threads.handlers h)) :
    Inv n (es ++ events) { p.setGate h gate with mux := mux } :=
  hi.move (Function.update_eq_self h _).symm ⟨hi.conserved, hi.reading⟩ (fun _ => id) hmux hgate hevents
    hcalls

theorem Inv.daemon (hi : Inv n es p) (hsystem : Conserved n s ∧ Reading s)
    (hpool : s.pool = p.threads.pool) (hhandlers : s.handlers = p.threads.handlers) :
    Inv n (es ++ []) { p with threads := s } := by
  refine ⟨hi.alive, hsystem.1, hsystem.2, hi.owner, ?_, ?_⟩
  · simp only [hpool, hhandlers]
    exact hi.gates
  · simp only [hhandlers, List.append_nil]
    exact hi.calls

theorem start_inv (nsegments : Nat) (garbage : Nat → Segment) :
    Inv nsegments [] (start nsegments garbage : Proxy H W) := by
  obtain ⟨hconserved, hreading⟩ := start_conserved (H := H) (W := W) nsegments garbage
  refine ⟨rfl, hconserved, hreading, ?_, fun _ => rfl, fun _ => ⟨[], rfl⟩⟩
  exact fun h => ⟨nofun, nofun⟩

theorem Inv.poolOk (hi : Inv n es p) : PoolOk n es p where
  alive := hi.alive
  nonempty h hgate := by
    have hok := hi.gates h
    rw [hgate] at hok
    exact hok.2
  once i hn := by
    have hnodup := hi.conserved.nodup
    rcases hi.conserved.once i hn with ⟨hmem, hno⟩ | ⟨hout, hheld⟩
    · exact .inl ⟨List.count_eq_one_of_mem hnodup hmem, hno⟩
    · exact .inr ⟨List.count_eq_zero_of_not_mem hout, hheld⟩
  only := hi.conserved.only
  calls := hi.calls

variable [DecidableEq W]

theorem handler_follows {result : Int} (hr : Reading s)
    (hstep : Threads.step cache s (.handler h result) = some s') :
    ∃ x, s'.handlers = Function.update s.handlers h x ∧ Follows s.pool (s.handlers h) x ∧
      ((s.handlers h).pc ≠ .pop → s.pool ≠ [] → s'.pool ≠ []) := by
  cases step_move hstep with
  | pop hpc hpool => exact ⟨_, rfl, by simp [Follows, hpc, hpool], fun hne => absurd hpc hne⟩
  | send hpc => exact ⟨_, rfl, by simp [Follows, hpc], fun _ => id⟩
  | enqueue hpc =>
      refine ⟨_, rfl, ?_, fun _ _ => by simp⟩
      simp only [Follows, hpc, and_true]
      split <;> simp
  | handler hlocal => exact ⟨_, rfl, handlerStep_follows _ (hr h).1 hlocal, fun _ => id⟩

theorem Inv.goOn (hi : Inv n es p) {gate : Gate} {result : Int} {events : List (Event H)}
    (hstep : goOn cache p h result gate = some p') (howns : owns gate = owns (p.gates h))
    (hpop : p.gates h ≠ .pop → (p.threads.handlers h).pc ≠ .pop)
    (hgate : ∀ x pool, Follows p.threads.pool (p.threads.handlers h) x → GateOk pool x gate)
    (hevents : ∀ e ∈ events, e.handler = h)
    (hcalls : ∀ x, Follows p.threads.pool (p.threads.handlers h) x → ∃ more : List Nat,
      sofar h (p.gates h) (p.threads.handlers h) ++ events =
        more.flatMap (callEvents h) ++ sofar h gate x) :
    Inv n (es ++ events) p' := by
  obtain ⟨s, hs, rfl⟩ := Option.map_eq_some_iff.mp hstep
  obtain ⟨x, hhandlers, hfollows, hpool⟩ := handler_follows hi.reading hs
  refine hi.move hhandlers (step_conserved hi.conserved hi.reading hs) ?_ (.inl ⟨rfl, howns⟩)
    (hgate x _ hfollows) hevents (hcalls x hfollows)
  exact fun hne => hpool (hpop hne)

theorem Inv.handler_lock (hi : Inv n es p) {result : Int} (hgate : p.gates h = .lock)
    (hstep : handlerAct cache p h result = some p') : Inv n (es ++ observe p (.handler h result)) p' := by
  have hok := hi.gates h
  simp only [handlerAct, hgate] at hstep
  rw [hgate] at hok
  split at hstep
  · cases hstep
  next hfree =>
    cases hstep
    simp only [observe, hgate]
    refine hi.turn (.inr (.inl ⟨?_, rfl, rfl⟩)) hok (by simp) ⟨[], ?_⟩
    · simpa using hfree
    · simp [hgate, sofar]

theorem Inv.handler_test (hi : Inv n es p) {result : Int} (hgate : p.gates h = .test)
    (hstep : handlerAct cache p h result = some p') : Inv n (es ++ observe p (.handler h result)) p' := by
  have hok := hi.gates h
  simp only [handlerAct, hgate] at hstep
  rw [hgate] at hok
  simp only [observe, hgate]
  split at hstep
  next hempty =>
    cases hstep
    refine hi.turn (.inr (.inr ⟨by rw [hgate]; rfl, rfl, rfl⟩)) hok (by simp) ⟨[], ?_⟩
    simp [hgate, sofar]
  next hmore =>
    cases hstep
    refine hi.turn (.inl ⟨(rfl : p.mux = p.mux), by rw [hgate]; rfl⟩) ⟨hok, hmore⟩ (by simp) ⟨[], ?_⟩
    simp [hgate, sofar]

theorem Inv.handler_pop (hi : Inv n es p) {result : Int} (hgate : p.gates h = .pop)
    (hstep : handlerAct cache p h result = some p') : Inv n (es ++ observe p (.handler h result)) p' := by
  have hok := hi.gates h
  simp only [handlerAct, hgate] at hstep
  rw [hgate] at hok
  rw [if_neg hok.2] at hstep
  simp only [observe, hgate]
  refine hi.goOn hstep (by rw [hgate]; rfl) (fun hne => absurd hgate hne) ?_ (by simp [Event.handler]) ?_
  · intro x pool hfollows
    simp only [Follows, hok.1] at hfollows
    exact .inl hfollows.1
  · intro x hfollows
    simp only [Follows, hok.1] at hfollows
    exact ⟨[], by simp [hgate, sofar, hfollows]⟩

theorem Inv.handler_run (hi : Inv n es p) {result : Int} (hgate : p.gates h = .run)
    (hstep : handlerAct cache p h result = some p') : Inv n (es ++ observe p (.handler h result)) p' := by
  have hok := hi.gates h
  have hread := hi.reading h
  simp only [handlerAct, hgate] at hstep
  rw [hgate] at hok
  simp only [observe, hgate]
  split at hstep
  next hlocks =>
    split at hstep
    · cases hstep
    next hfree =>
      cases hstep
      rw [if_neg (fun hno => hno.1 hlocks)]
      refine hi.turn (.inr (.inl ⟨by simpa using hfree, rfl, rfl⟩)) ?_ (by simp) ⟨[], ?_⟩
      · cases hpc : (p.threads.handlers h).pc <;> simp [locks, hpc] at hlocks <;> simp [GateOk, hpc]
      · simp [hgate, sofar]
  next hlocks =>
    rcases run_goesOn hok hlocks hread.1 with ⟨hpc, hends⟩ | ⟨hholding, hends, hnext⟩
    · rw [if_pos hends] at hstep
      rw [if_pos ⟨hlocks, hends⟩]
      refine hi.goOn hstep (by rw [hgate]; rfl) (fun _ => by simp [hpc]) ?_ (by simp [Event.handler]) ?_
      · intro x pool hfollows
        have hreturned : x.pc = .returned := by simpa only [Follows, hpc] using hfollows
        exact hreturned
      · exact fun x _ => ⟨[(p.threads.handlers h).segment], by simp [hgate, hpc, sofar, callEvents]⟩
    · rw [if_neg (by simp [hends])] at hstep
      rw [if_neg (by simp [hends])]
      refine hi.goOn hstep (by rw [hgate]) (fun _ hpc => by simp [holding, hpc] at hholding) ?_
        (by simp) ?_
      · exact fun x pool hfollows => .inl (hnext _ x hfollows).1
      · intro x hfollows
        obtain ⟨hholding', hsegment⟩ := hnext _ x hfollows
        exact ⟨[], by rw [hgate, sofar_run hholding, sofar_run hholding', hsegment]; simp⟩

theorem Inv.handler_inside (hi : Inv n es p) {result : Int} (hgate : p.gates h = .inside)
    (hstep : handlerAct cache p h result = some p') : Inv n (es ++ observe p (.handler h result)) p' := by
  have hok := hi.gates h
  simp only [handlerAct, hgate] at hstep
  rw [hgate] at hok
  simp only [observe, hgate]
  refine hi.goOn hstep ?_ ?_ ?_ ?_ ?_
  · rw [hgate]
    split <;> rfl
  · rcases hok with hpc | hpc | hpc <;> simp [hpc]
  · intro x pool hfollows
    rcases hok with hpc | hpc | hpc <;> simp only [Follows, hpc] at hfollows
    · simp [hpc, GateOk, hfollows.1]
    · simp [hpc, GateOk, hfollows.1]
    · rcases hfollows.1 with hpc' | hpc' <;> simp [hpc, GateOk, hpc']
  · split <;> simp [Event.handler]
  · intro x hfollows
    refine ⟨[], ?_⟩
    rcases hok with hpc | hpc | hpc <;> simp only [Follows, hpc] at hfollows
    · simp [hgate, hpc, sofar, hfollows]
    · simp [hgate, hpc, sofar, hfollows]
    · rcases hfollows.1 with hpc' | hpc' <;> simp [hgate, hpc, sofar, hpc', hfollows.2]

theorem Inv.handler_unlock (hi : Inv n es p) {result : Int} (hgate : p.gates h = .unlock)
    (hstep : handlerAct cache p h result = some p') : Inv n (es ++ observe p (.handler h result)) p' := by
  have hok := hi.gates h
  simp only [handlerAct, hgate] at hstep
  rw [hgate] at hok
  cases hstep
  simp only [observe, hgate]
  refine hi.turn (.inr (.inr ⟨by rw [hgate]; rfl, rfl, by split <;> rfl⟩)) ?_ (by simp) ⟨[], ?_⟩
  · rcases hok with hpc | hpc | hpc | hpc <;> simp [hpc, GateOk, holding]
  · rcases hok with hpc | hpc | hpc | hpc <;> simp [hgate, hpc, sofar]

theorem Inv.handler_signal (hi : Inv n es p) {result : Int} (hgate : p.gates h = .signal)
    (hstep : handlerAct cache p h result = some p') : Inv n (es ++ observe p (.handler h result)) p' := by
  have hok := hi.gates h
  have hread := hi.reading h
  simp only [handlerAct, hgate] at hstep
  rw [hgate] at hok
  cases hstep
  simp only [observe, hgate]
  refine hi.turn (.inl ⟨(rfl : p.mux = p.mux), by rw [hgate]; split <;> rfl⟩) ?_
    (by split <;> simp [Event.handler]) ?_
  · rcases hok with hpc | hpc <;> simp [hpc, GateOk]
  · rcases hok with hpc | hpc
    · exact ⟨[], by simp [hgate, hpc, sofar]⟩
    · exact ⟨[(p.threads.handlers h).segment], by simp [hgate, hpc, sofar, callEvents]⟩

theorem Inv.handler (hi : Inv n es p) {result : Int} (hstep : handlerAct cache p h result = some p') :
    Inv n (es ++ observe p (.handler h result)) p' := by
  cases hgate : p.gates h with
  | idle | wait => simp [handlerAct, hgate] at hstep
  | lock => exact hi.handler_lock hgate hstep
  | test => exact hi.handler_test hgate hstep
  | pop => exact hi.handler_pop hgate hstep
  | run => exact hi.handler_run hgate hstep
  | inside => exact hi.handler_inside hgate hstep
  | unlock => exact hi.handler_unlock hgate hstep
  | signal => exact hi.handler_signal hgate hstep

theorem Inv.step {a : PoolGates.Act H W} (hi : Inv n es p) (hstep : PoolGates.step cache p a = some p') :
    Inv n (es ++ observe p a) p' := by
  simp only [PoolGates.step] at hstep
  split at hstep
  · cases hstep
  · cases a with
    | request h path =>
        simp only at hstep
        split at hstep
        next hgate =>
          obtain ⟨s, hs, rfl⟩ := Option.map_eq_some_iff.mp hstep
          have hsystem := step_conserved hi.conserved hi.reading hs
          cases step_move hs with
          | request hpc =>
              refine hi.move rfl hsystem (fun _ => id) (.inl ⟨(rfl : p.mux = p.mux), by rw [hgate]; rfl⟩) rfl
                (by simp [observe, Event.handler]) ⟨[], ?_⟩
              simp [hgate, sofar, observe]
        · cases hstep
    | wake h =>
        simp only at hstep
        split at hstep
        next hgate =>
          cases hstep
          have hok := hi.gates h
          rw [hgate] at hok
          refine hi.turn (.inl ⟨(rfl : p.mux = p.mux), by rw [hgate]; rfl⟩) hok (by simp [observe]) ⟨[], ?_⟩
          simp [hgate, sofar, observe]
        · cases hstep
    | handler h result => exact hi.handler hstep
    | boss =>
        obtain ⟨s, hs, rfl⟩ := Option.map_eq_some_iff.mp hstep
        have hsystem := step_conserved hi.conserved hi.reading hs
        cases step_move hs with
        | boss => exact hi.daemon hsystem rfl rfl
    | worker w =>
        obtain ⟨s, hs, rfl⟩ := Option.map_eq_some_iff.mp hstep
        have hsystem := step_conserved hi.conserved hi.reading hs
        cases step_move hs with
        | take => exact hi.daemon hsystem rfl rfl
        | worker => exact hi.daemon hsystem rfl rfl

/-- For any number of segments, handlers and workers, in every order of their
steps, with wake-ups at any time. -/
theorem pool_conserved (cache : String → Option Content) (nsegments : Nat) (garbage : Nat → Segment)
    (acts : List (PoolGates.Act H W)) (p : Proxy H W)
    (hrun : Run (PoolGates.step cache) anyStep (PoolGates.start nsegments garbage) acts p) :
    PoolOk nsegments
      (observed (PoolGates.step cache) observe (PoolGates.start nsegments garbage : Proxy H W) acts).2 p :=
  (hrun.observedInvariant (I := Inv nsegments) (start_inv nsegments garbage)
    (fun _ _ _ _ _ hi _ hstep => hi.step hstep)).poolOk

def twoCalls : List (PoolGates.Act Bool Unit) :=
  [.request true "f", .request false "g"] ++ List.replicate 4 (.handler true 0) ++
    List.replicate 2 (.handler false 0) ++ [.wake false] ++ List.replicate 2 (.handler false 0) ++
    List.replicate 4 (.handler true 0) ++ .boss :: List.replicate 5 (.worker ()) ++
    List.replicate 8 (.handler true 0) ++ [.wake false] ++ List.replicate 3 (.handler false 0)

theorem twoCalls_run : (exec (PoolGates.step fun _ => none) anyStep
    (PoolGates.start 1 fun _ => ⟨0, 0, 0, 0, []⟩) twoCalls).isSome := by
  decide +kernel

theorem twoCalls_conserved : ∃ p : Proxy Bool Unit,
    exec (PoolGates.step fun _ => none) anyStep (PoolGates.start 1 fun _ => ⟨0, 0, 0, 0, []⟩) twoCalls = some p ∧
    PoolOk 1 (observed (PoolGates.step fun _ => none) observe
      (PoolGates.start 1 fun _ => ⟨0, 0, 0, 0, []⟩) twoCalls).2 p := by
  obtain ⟨p, hp⟩ := Option.isSome_iff_exists.mp twoCalls_run
  exact ⟨p, hp, pool_conserved (fun _ => none) 1 _ twoCalls p (run_iff_exec.mpr hp)⟩

/-- Without the gates the steps are those of the threads, or nothing. -/
theorem step_refines {a : PoolGates.Act H W} (hstep : PoolGates.step cache p a = some p') :
    p'.threads = p.threads ∨ ∃ b, Threads.step cache p.threads b = some p'.threads := by
  have hgoOn : ∀ h result gate, goOn cache p h result gate = some p' →
      ∃ b, Threads.step cache p.threads b = some p'.threads := by
    intro h result gate hgo
    obtain ⟨s, hs, rfl⟩ := Option.map_eq_some_iff.mp hgo
    exact ⟨_, hs⟩
  simp only [PoolGates.step] at hstep
  split at hstep
  · cases hstep
  · cases a with
    | request h path =>
        simp only at hstep
        split at hstep
        · obtain ⟨s, hs, rfl⟩ := Option.map_eq_some_iff.mp hstep
          exact .inr ⟨_, hs⟩
        · cases hstep
    | wake h =>
        simp only at hstep
        split at hstep <;> cases hstep
        exact .inl rfl
    | handler h result =>
        simp only [handlerAct] at hstep
        split at hstep
        · cases hstep
        · cases hstep
        · split at hstep <;> cases hstep
          exact .inl rfl
        · split at hstep <;> cases hstep <;> exact .inl rfl
        · split at hstep
          · cases hstep
            exact .inl rfl
          · exact .inr (hgoOn _ _ _ hstep)
        · split at hstep
          · split at hstep <;> cases hstep
            exact .inl rfl
          · exact .inr (hgoOn _ _ _ hstep)
        · exact .inr (hgoOn _ _ _ hstep)
        · cases hstep
          exact .inl rfl
        · cases hstep
          exact .inl rfl
    | boss =>
        obtain ⟨s, hs, rfl⟩ := Option.map_eq_some_iff.mp hstep
        exact .inr ⟨_, hs⟩
    | worker w =>
        obtain ⟨s, hs, rfl⟩ := Option.map_eq_some_iff.mp hstep
        exact .inr ⟨_, hs⟩

theorem run_refines {nsegments : Nat} {garbage : Nat → Segment} {acts : List (PoolGates.Act H W)}
    (hrun : Run (PoolGates.step cache) anyStep (PoolGates.start nsegments garbage) acts p) :
    ∃ acts', Run (Threads.step cache) anyStep (Threads.start nsegments garbage) acts' p.threads := by
  apply hrun.stateInvariant (I := fun p => ∃ acts',
    Run (Threads.step cache) anyStep (Threads.start nsegments garbage) acts' p.threads) ⟨[], .start⟩
  rintro _ p a p' ⟨acts', hthreads⟩ _ hstep
  rcases step_refines hstep with hsame | ⟨b, hb⟩
  · exact ⟨acts', hsame ▸ hthreads⟩
  · exact ⟨_, hthreads.next trivial hb⟩

end GraduateOS.Shm.PoolRuns
