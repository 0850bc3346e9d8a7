import GraduateOS.Library.Totals
import GraduateOS.Shm.PoolRuns

namespace GraduateOS.Shm.Signals

open Segments Threads Tokens Orders Pool PoolGates PoolRuns Library.Runs Library.Totals

/-- A step of the proxy or of the daemon. A `pthread_cond_signal` also says
which of the waiting handlers it wakes up. -/
inductive Act (H W : Type)
  | other (a : PoolGates.Act H W)
  | signal (h : H) (woken : Option H)

/-- The handler comes to the queue, or is about to tell that it has put a segment back. -/
def active : Gate × Handler → Nat
  | (.lock, _) | (.test, _) | (.pop, _) => 1
  | (.unlock, x) | (.signal, x) => if x.pc = .sendNotFound ∨ x.pc = .returned then 1 else 0
  | _ => 0

variable {H W : Type}

def stand (p : Proxy H W) (h : H) : Gate × Handler := (p.gates h, p.threads.handlers h)

variable {cache : String → Option Content} {n : Nat} {es : List (Event H)} {p p' p'' : Proxy H W} {h : H}

/-- A handler that waits was waiting before, and except at the signal nobody
goes away from the queue without notice. -/
def Balance [Fintype H] (p p' : Proxy H W) (signalled : Nat) : Prop :=
  p'.threads.pool = [] ∨ (∀ h, p'.gates h = .wait → p.gates h = .wait) ∧
    p'.threads.pool.length + total active (stand p) ≤
      p.threads.pool.length + total active (stand p') + signalled

/-- For each free segment somebody is on the way who will see it. -/
def Noticed [Fintype H] (p : Proxy H W) : Prop :=
  (∃ h, p.gates h = .wait) → p.threads.pool.length ≤ total active (stand p)

theorem Balance.noticed [Fintype H] (hbalance : Balance p p' 0) (hnoticed : Noticed p) : Noticed p' := by
  rintro ⟨h, hwait⟩
  rcases hbalance with hempty | ⟨hbefore, hle⟩
  · simp [hempty]
  · have hcount := hnoticed ⟨h, hbefore h hwait⟩
    omega

variable [DecidableEq H]

theorem stand_update {gate : Gate} {x : Handler} (hgates : p'.gates = Function.update p.gates h gate)
    (hhandlers : p'.threads.handlers = Function.update p.threads.handlers h x) :
    stand p' = Function.update (stand p) h (gate, x) := by
  funext h'
  by_cases hh : h' = h
  · subst h'
    simp [stand, hgates, hhandlers]
  · simp [stand, hgates, hhandlers, hh]

theorem keeps_waiting {gate : Gate} (hgates : p'.gates = Function.update p.gates h gate)
    (hgate : gate ≠ .wait) : ∀ h', p'.gates h' = .wait → p.gates h' = .wait := by
  intro h' hwait
  rw [hgates] at hwait
  by_cases hh : h' = h
  · subst h'
    rw [Function.update_self] at hwait
    exact absurd hwait hgate
  · rwa [Function.update_of_ne hh] at hwait

theorem balance_move [Fintype H] (gate : Gate) {x : Handler} {signalled : Nat}
    (hgates : p'.gates = Function.update p.gates h gate)
    (hhandlers : p'.threads.handlers = Function.update p.threads.handlers h x) (hgate : gate ≠ .wait)
    (hle : p'.threads.pool.length + active (p.gates h, p.threads.handlers h) ≤
      p.threads.pool.length + active (gate, x) + signalled) : Balance p p' signalled := by
  have htotal := total_update active (stand p) h (gate, x)
  rw [← stand_update hgates hhandlers] at htotal
  simp only [stand] at htotal
  refine .inr ⟨keeps_waiting hgates hgate, ?_⟩
  omega

/-- The handler goes on to another gate, and nothing else happens. -/
theorem balance_turn [Fintype H] {gate : Gate} (mux : Option H) {signalled : Nat} (hgate : gate ≠ .wait)
    (hle : active (p.gates h, p.threads.handlers h) ≤ active (gate, p.threads.handlers h) + signalled) :
    Balance p { p.setGate h gate with mux := mux } signalled :=
  balance_move (h := h) gate rfl (Function.update_eq_self h _).symm hgate (by simp only [Proxy.setGate]; omega)

variable [DecidableEq W]

/-- A statement of the handler outside the waiting loop. -/
theorem goOn_balance [Fintype H] {result : Int} {gate : Gate} (hr : Reading p.threads)
    (hstep : goOn cache p h result gate = some p') (hgate : gate ≠ .wait)
    (hle : ∀ x, Follows p.threads.pool (p.threads.handlers h) x →
      (if (p.threads.handlers h).pc = .enqueue then 1 else 0) + active (p.gates h, p.threads.handlers h) ≤
        (if (p.threads.handlers h).pc = .pop then 1 else 0) + active (gate, x)) : Balance p p' 0 := by
  obtain ⟨s, hs, rfl⟩ := Option.map_eq_some_iff.mp hstep
  obtain ⟨x, hhandlers, hfollows, _⟩ := handler_follows hr hs
  have hx := hle x hfollows
  refine balance_move (h := h) gate rfl hhandlers hgate ?_
  cases step_move hs with
  | pop hpc hpool =>
      simp only [hpc, hpool, List.length_cons] at hx ⊢
      simp at hx
      omega
  | send hpc =>
      simp only [hpc] at hx
      simpa [System.setHandler] using hx
  | enqueue hpc =>
      simp only [hpc] at hx
      simp at hx ⊢
      omega
  | handler hlocal =>
      have hother : (p.threads.handlers h).pc ≠ .pop ∧ (p.threads.handlers h).pc ≠ .enqueue := by
        constructor <;> intro hpc <;> simp [handlerStep, hpc] at hlocal
      simpa [hother, System.setHandler, System.setSegment] using hx

variable [Fintype H]

theorem handlerAct_balance (hi : PoolRuns.Inv n es p) {result : Int}
    (hstep : handlerAct cache p h result = some p') :
    Balance p p' (if p.gates h = .signal then 1 else 0) := by
  have hok := hi.gates h
  have hread := hi.reading h
  cases hgate : p.gates h with
  | idle | wait => simp [handlerAct, hgate] at hstep
  | lock =>
      simp only [handlerAct, hgate] at hstep
      split at hstep <;> cases hstep
      exact balance_turn _ (by simp) (by simp [active, hgate])
  | test =>
      simp only [handlerAct, hgate] at hstep
      split at hstep <;> cases hstep
      next hempty => exact .inl hempty
      · exact balance_turn _ (by simp) (by simp [active, hgate])
  | pop =>
      simp only [handlerAct, hgate] at hstep
      rw [hgate] at hok
      rw [if_neg hok.2] at hstep
      refine goOn_balance hi.reading hstep (by simp) (fun x hfollows => ?_)
      simp [active, hgate, hok.1]
  | run =>
      simp only [handlerAct, hgate] at hstep
      rw [hgate] at hok
      split at hstep
      · split at hstep <;> cases hstep
        exact balance_turn _ (by simp) (by simp [active, hgate])
      next hlocks =>
        refine goOn_balance hi.reading hstep (by split <;> simp) (fun x _ => ?_)
        have hother : (p.threads.handlers h).pc ≠ .enqueue := by
          intro hpc
          simp [locks, hpc] at hlocks
        simp [active, hgate, hother]
  | inside =>
      simp only [handlerAct, hgate] at hstep
      rw [hgate] at hok
      refine goOn_balance hi.reading hstep (by split <;> simp) (fun x hfollows => ?_)
      rcases hok with hpc | hpc | hpc <;> simp only [Follows, hpc] at hfollows <;>
        simp [active, hgate, hpc, hfollows]
  | unlock =>
      simp only [handlerAct, hgate] at hstep
      rw [hgate] at hok
      cases hstep
      refine balance_turn _ (by split <;> simp) ?_
      rcases hok with hpc | hpc | hpc | hpc <;> simp [active, hgate, hpc]
  | signal =>
      simp only [handlerAct, hgate] at hstep
      cases hstep
      refine balance_turn p.mux (by split <;> simp) ?_
      rw [hgate] at hok
      rcases hok with hpc | hpc <;> simp [active, hgate, hpc]

omit [DecidableEq H] [DecidableEq W] in
theorem threads_balance {s : System H W} (hpool : s.pool = p.threads.pool)
    (hhandlers : s.handlers = p.threads.handlers) : Balance p { p with threads := s } 0 := by
  have hstand : stand { p with threads := s } = stand p := by
    funext h
    simp [stand, hhandlers]
  exact .inr ⟨fun _ => id, by simp [hstand, hpool]⟩

def AtSignal (p : Proxy H W) : PoolGates.Act H W → Prop
  | .handler h _ => p.gates h = .signal
  | _ => False

instance (p : Proxy H W) : ∀ a, Decidable (AtSignal p a)
  | .handler h _ => inferInstanceAs (Decidable (p.gates h = .signal))
  | .request _ _ => .isFalse id
  | .wake _ => .isFalse id
  | .boss => .isFalse id
  | .worker _ => .isFalse id

/-- A signal wakes up one handler that waits, or nobody when nobody waits. -/
def step (cache : String → Option Content) (p : Proxy H W) : Act H W → Option (Proxy H W)
  | .other a => if AtSignal p a then none else PoolGates.step cache p a
  | .signal h none =>
      if p.gates h = .signal ∧ ∀ h', p.gates h' ≠ .wait then PoolGates.step cache p (.handler h 0) else none
  | .signal h (some h') =>
      if p.gates h = .signal then
        (PoolGates.step cache p (.handler h 0)).bind (PoolGates.step cache · (.wake h'))
      else none

theorem step_balance (hi : PoolRuns.Inv n es p) {a : PoolGates.Act H W}
    (hstep : PoolGates.step cache p a = some p') : Balance p p' (if AtSignal p a then 1 else 0) := by
  simp only [PoolGates.step] at hstep
  split at hstep
  · cases hstep
  · cases a with
    | request h path =>
        simp only at hstep
        split at hstep
        next hgate =>
          obtain ⟨s, hs, rfl⟩ := Option.map_eq_some_iff.mp hstep
          cases step_move hs with
          | request hpc =>
              refine balance_move (h := h) .lock rfl rfl (by simp) ?_
              simp only [active, hgate, System.setHandler]
              omega
        · cases hstep
    | wake h =>
        simp only at hstep
        split at hstep <;> cases hstep
        next hgate => exact balance_turn p.mux (by simp) (by simp [active, hgate])
    | handler h result => exact handlerAct_balance hi hstep
    | boss =>
        obtain ⟨s, hs, rfl⟩ := Option.map_eq_some_iff.mp hstep
        cases step_move hs with
        | boss => exact threads_balance rfl rfl
    | worker w =>
        obtain ⟨s, hs, rfl⟩ := Option.map_eq_some_iff.mp hstep
        cases step_move hs with
        | take => exact threads_balance rfl rfl
        | worker => exact threads_balance rfl rfl

theorem wake_noticed (hnoticed : (∃ h, p.gates h = .wait) →
      p.threads.pool.length ≤ total active (stand p) + 1)
    (hstep : PoolGates.step cache p (.wake h) = some p') : Noticed p' := by
  simp only [PoolGates.step] at hstep
  split at hstep
  · cases hstep
  · split at hstep <;> cases hstep
    next hgate =>
      intro _
      have hcount := hnoticed ⟨h, hgate⟩
      have htotal := total_update active (stand p) h (.lock, p.threads.handlers h)
      have hstand : stand (p.setGate h .lock) = Function.update (stand p) h (.lock, p.threads.handlers h) :=
        stand_update rfl (Function.update_eq_self h _).symm
      rw [hstand]
      simp only [stand, hgate, active] at htotal
      simp only [Proxy.setGate]
      omega

inductive Moves (cache : String → Option Content) (p : Proxy H W) : Act H W → Proxy H W → Prop
  | other {a : PoolGates.Act H W} {q : Proxy H W} : ¬ AtSignal p a → PoolGates.step cache p a = some q → Moves cache p (.other a) q
  | unheard {h : H} {q : Proxy H W} : p.gates h = .signal → (∀ h', p.gates h' ≠ .wait) →
      PoolGates.step cache p (.handler h 0) = some q → Moves cache p (.signal h none) q
  | woken {h h' : H} {q q' : Proxy H W} : p.gates h = .signal → PoolGates.step cache p (.handler h 0) = some q →
      PoolGates.step cache q (.wake h') = some q' → Moves cache p (.signal h (some h')) q'

theorem step_moves {a : Act H W} (hstep : step cache p a = some p') : Moves cache p a p' := by
  cases a with
  | other a =>
      simp only [step] at hstep
      split at hstep
      · cases hstep
      next hother => exact .other hother hstep
  | signal h woken =>
      cases woken with
      | none =>
          simp only [step] at hstep
          split at hstep
          next hgate => exact .unheard hgate.1 hgate.2 hstep
          · cases hstep
      | some h' =>
          simp only [step] at hstep
          split at hstep
          next hgate =>
            obtain ⟨p'', hfirst, hsecond⟩ := Option.bind_eq_some_iff.mp hstep
            exact .woken hgate hfirst hsecond
          · cases hstep

structure Inv (n : Nat) (p : Proxy H W) : Prop where
  pool : ∃ es, PoolRuns.Inv n es p
  noticed : Noticed p

theorem step_inv (hi : Inv n p) {a : Act H W} (hstep : step cache p a = some p') : Inv n p' := by
  obtain ⟨es, hpool⟩ := hi.pool
  cases step_moves hstep with
  | other hother hgates =>
      have hbalance := step_balance hpool hgates
      rw [if_neg hother] at hbalance
      exact ⟨⟨_, hpool.step hgates⟩, hbalance.noticed hi.noticed⟩
  | @unheard h _ hgate hnobody hgates =>
      refine ⟨⟨_, hpool.step hgates⟩, ?_⟩
      rintro ⟨h', hwait⟩
      rcases step_balance hpool hgates with hempty | ⟨hbefore, _⟩
      · simp [hempty]
      · exact absurd (hbefore h' hwait) (hnobody h')
  | @woken h h' p₁ _ hgate hfirst hsecond =>
      refine ⟨⟨_, (hpool.step hfirst).step hsecond⟩, wake_noticed (p := p₁) ?_ hsecond⟩
      rintro ⟨h'', hwait⟩
      have hbalance := step_balance hpool hfirst
      rw [if_pos (show AtSignal p (.handler h 0) from hgate)] at hbalance
      rcases hbalance with hempty | ⟨hbefore, hle⟩
      · simp [hempty]
      · have hcount := hi.noticed ⟨h'', hbefore h'' hwait⟩
        omega

omit [DecidableEq W] in
theorem start_inv (nsegments : Nat) (garbage : Nat → Segment) :
    Inv nsegments (PoolGates.start nsegments garbage : Proxy H W) := by
  refine ⟨⟨[], PoolRuns.start_inv nsegments garbage⟩, ?_⟩
  rintro ⟨h, hwait⟩
  simp [PoolGates.start] at hwait

end GraduateOS.Shm.Signals
