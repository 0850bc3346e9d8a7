import GraduateOS.Shm.QueueSteps
import Mathlib.Data.Fintype.Defs

namespace GraduateOS.Shm.QueueRounds

open Steques.Nodes WorkQueue QueueSteps

variable {W α : Type}

inductive Event (W α : Type)
  | received (message : α)
  | handed (w : W) (message : α)

/-- `bossWorker` receives its message with the first step of a round, and a
worker has the message that it popped when it gives `mux2` back. -/
def observe (s : Daemon W α) : Act W α → List (Event W α)
  | .boss message _ _ =>
      match s.boss with
      | .receive => [.received message]
      | _ => []
  | .worker w =>
      match s.workers w with
      | .unlock ans => [.handed w ans]
      | _ => []

def received (es : List (Event W α)) : List α :=
  es.filterMap fun
    | .received message => some message
    | .handed _ _ => none

def handed (es : List (Event W α)) : List α :=
  es.filterMap fun
    | .received _ => none
    | .handed _ message => some message

def testing : BossPc α → Bool
  | .testBack _ _ => true
  | _ => false

def joining : BossPc α → Bool
  | .readBack _ _ | .link _ _ _ => true
  | _ => false

/-- The worker is about to see that its node is the last one. -/
def takingLast (heap : Heap α) : WorkerPc α → Bool
  | .readNext _ _ front => front.bind (link heap) = some none
  | _ => false

/-- The worker has seen that its node is the last one and not set `back` yet. -/
def clearing (queue : Steque) : WorkerPc α → Bool
  | .writeFront _ _ next => next = none
  | .retest _ _ => queue.front = none
  | .clearBack _ _ => true
  | _ => false

/-- The last node is not taken while the boss is linking another one to it,
and `back` is not tested before the worker that took the last node has set it. -/
def Apart (s : Daemon W α) : Act W α → Prop
  | .boss _ _ _ => testing s.boss → ∀ w, ¬ clearing s.shared.queue (s.workers w)
  | .worker w => takingLast s.shared.heap (s.workers w) → ¬ joining s.boss

instance [Fintype W] (s : Daemon W α) (a : Act W α) : Decidable (Apart s a) :=
  match a with
  | .boss _ _ _ => inferInstanceAs (Decidable (_ → ∀ w, ¬ clearing s.shared.queue (s.workers w)))
  | .worker w => inferInstanceAs (Decidable (takingLast s.shared.heap (s.workers w) → _))

variable {s s' : Daemon W α} {a : Act W α} {es : List (Event W α)}

def Locked : BossPc α → Prop
  | .receive | .lock _ | .post => False
  | _ => True

def Critical : WorkerPc α → Prop
  | .wait | .lock | .serve _ => False
  | _ => True

def Owed (pc : WorkerPc α) : Prop := pc = .lock ∨ Taking pc

def popper (s : Daemon W α) : WorkerPc α := s.mux2.elim .wait s.workers

structure Invariant (es : List (Event W α)) (s : Daemon W α) (nodes : List Addr) (xs : List α)
    (owed : List W) : Prop where
  joint : Joint s.shared s.boss (popper s) nodes xs
  owner : ∀ w, s.mux2 = some w ↔ Critical (s.workers w)
  locked : s.mux = true → Locked s.boss
  nodup : owed.Nodup
  owing : ∀ w, w ∈ owed ↔ Owed (s.workers w)
  count : nodes.length = s.semCache + owed.length + unposted s.boss
  order : received es = handed es ++ taken (popper s) ++ xs ++ pending s.boss

variable {nodes : List Addr} {xs : List α} {owed : List W} {addr : Addr} {junk : Option Addr}
  {g g' : Shared α} {boss boss' : BossPc α} {pop pop' : WorkerPc α} {w : W}

theorem start_invariant : Invariant [] (start : Daemon W α) [] [] [] where
  joint := ⟨.nil none, rfl, trivial, trivial, by simp [unlinked, start], False.elim, fun _ _ => rfl⟩
  owner w := ⟨nofun, False.elim⟩
  locked := nofun
  nodup := List.nodup_nil
  owing w := ⟨nofun, by simp [Owed, start, Taking]⟩
  count := rfl
  order := rfl

theorem enqueueStep_locked (h : enqueueStep addr junk g boss = some (g', boss')) :
    Locked boss ∧ Locked boss' := by
  cases boss with
  | receive | lock | unlock | post | undefined => cases h
  | malloc item =>
      simp only [enqueueStep] at h
      split at h
      · cases h
      · cases h; exact ⟨trivial, trivial⟩
  | initNext item node =>
      simp only [enqueueStep] at h
      split at h <;> cases h <;> exact ⟨trivial, trivial⟩
  | testBack item node =>
      cases h
      refine ⟨trivial, ?_⟩
      split <;> trivial
  | link item node back =>
      simp only [enqueueStep] at h
      split at h <;> cases h <;> exact ⟨trivial, trivial⟩
  | _ => cases h; exact ⟨trivial, trivial⟩

theorem popStep_critical (h : popStep g pop = some (g', pop')) : Critical pop ∧ Critical pop' := by
  cases pop with
  | wait | lock | unlock | serve | underflow | undefined => cases h
  | testFront | retest =>
      cases h
      refine ⟨trivial, ?_⟩
      split <;> trivial
  | readNode =>
      cases h
      refine ⟨trivial, ?_⟩
      cases g.queue.front <;> trivial
  | readItem node =>
      cases h
      refine ⟨trivial, ?_⟩
      cases itemAt g.heap node <;> trivial
  | readNext node ans front =>
      cases h
      refine ⟨trivial, ?_⟩
      cases front.bind (link g.heap) <;> trivial
  | _ => cases h; exact ⟨trivial, trivial⟩

theorem popper_of_owner (h : s.mux2 = some w) : popper s = s.workers w := by
  rw [popper, h, Option.elim_some]

@[simp] theorem received_append (es es' : List (Event W α)) :
    received (es ++ es') = received es ++ received es' := List.filterMap_append

@[simp] theorem handed_append (es es' : List (Event W α)) :
    handed (es ++ es') = handed es ++ handed es' := List.filterMap_append

theorem joint_aside (hj : Joint g boss pop nodes xs) (hok : BossOk g nodes boss')
    (hnode : unlinked boss' = none) (hlinking : ¬ Linking boss') (hsettled : ∀ a, boss ≠ .writeBack a) :
    Joint g boss' pop nodes xs :=
  hj.keep rfl rfl (fun _ _ => rfl) (fun _ _ => rfl) (fun _ => id) hok (by simp [hnode])
    (fun _ => hlinking) hsettled

theorem observe_enqueue {message : α} {r : Shared α × BossPc α}
    (h : enqueueStep addr junk s.shared s.boss = some r) : observe s (.boss message addr junk) = [] := by
  simp only [observe]
  split
  next hpc => rw [hpc] at h; cases h
  · rfl

theorem observe_pop {r : Shared α × WorkerPc α} (h : popStep s.shared (s.workers w) = some r) :
    observe s (.worker w) = [] := by
  simp only [observe]
  split
  next hpc => rw [hpc] at h; cases h
  · rfl

theorem Invariant.receive (hi : Invariant es s nodes xs owed) (hpc : s.boss = .receive) (message : α) :
    Invariant (es ++ [.received message]) { s with boss := .lock message } nodes xs owed := by
  have hunlocked : s.mux ≠ true := by
    intro hmux
    have hlocked := hi.locked hmux
    rw [hpc] at hlocked
    exact hlocked
  have hcount := hi.count
  have horder := hi.order
  rw [hpc] at hcount horder
  refine ⟨joint_aside hi.joint trivial rfl id (by simp [hpc]), hi.owner, fun h => absurd h hunlocked,
    hi.nodup, hi.owing, hcount, ?_⟩
  rw [received_append, handed_append, horder]
  simp [received, handed, pending, popper]

/-- The boss moves without touching the queue; what it has linked it posts in the same step. -/
theorem Invariant.aside {mux : Bool} {semCache : Nat} (hi : Invariant es s nodes xs owed)
    (hjoint : Joint s.shared boss' (popper s) nodes xs) (hlocked : mux = true → Locked boss')
    (hposted : semCache + unposted boss' = s.semCache + unposted s.boss)
    (hpending : pending boss' = pending s.boss) :
    Invariant es { s with boss := boss', mux := mux, semCache := semCache } nodes xs owed := by
  refine ⟨hjoint, hi.owner, hlocked, hi.nodup, hi.owing, ?_, ?_⟩
  · have hcount := hi.count
    show nodes.length = semCache + owed.length + unposted boss'
    omega
  · rw [hi.order, ← hpending]
    rfl

theorem Invariant.enqueue (hi : Invariant es s nodes xs owed)
    (hapart : testing s.boss → ∀ w, ¬ clearing s.shared.queue (s.workers w))
    (hstep : enqueueStep addr junk s.shared s.boss = some (g', boss')) :
    ∃ nodes' xs', Invariant es { s with shared := g', boss := boss' } nodes' xs' owed := by
  have hguard : ∀ item node, s.boss = .testBack item node → ¬ Emptying nodes (popper s) := by
    intro item node hpc hempty
    cases howner : s.mux2 with
    | none => simp [popper, howner, Emptying] at hempty
    | some w =>
        rw [popper_of_owner howner] at hempty
        have hclear := hapart (by rw [hpc]; rfl) w
        cases hw : s.workers w with
        | writeFront a ans next =>
            rw [hw] at hempty hclear
            exact hclear (decide_eq_true hempty)
        | retest a ans =>
            rw [hw] at hempty hclear
            exact hclear (decide_eq_true (hi.joint.path.empty_iff.mp hempty))
        | clearBack a ans => rw [hw] at hclear; exact hclear rfl
        | _ => simp [hw, Emptying] at hempty
  obtain ⟨nodes', xs', hj, hpending, hlength⟩ := enqueueStep_joint hi.joint hguard hstep
  refine ⟨nodes', xs', hj, hi.owner, fun _ => (enqueueStep_locked hstep).2, hi.nodup, hi.owing, ?_, ?_⟩
  · have hcount := hi.count
    simp only
    omega
  · rw [hi.order, List.append_assoc, ← hpending]
    simp only [popper, List.append_assoc]

theorem taking_count (hi : Invariant es s nodes xs owed) (htaking : Taking (popper s)) :
    unposted s.boss < nodes.length := by
  cases howner : s.mux2 with
  | none => simp [popper, howner, Taking] at htaking
  | some w =>
      rw [popper_of_owner howner] at htaking
      have hpos := List.length_pos_of_mem ((hi.owing w).mpr (.inr htaking))
      have hcount := hi.count
      omega

variable [DecidableEq W]

inductive Move (s : Daemon W α) : Act W α → Daemon W α → Prop
  | receive {message : α} {addr : Addr} {junk : Option Addr} : s.boss = .receive →
      Move s (.boss message addr junk) { s with boss := .lock message }
  | lock {message item : α} {addr : Addr} {junk : Option Addr} : s.boss = .lock item → s.mux = false →
      Move s (.boss message addr junk) { s with mux := true, boss := .malloc item }
  | unlock {message : α} {addr : Addr} {junk : Option Addr} : s.boss = .unlock →
      Move s (.boss message addr junk) { s with mux := false, boss := .post }
  | post {message : α} {addr : Addr} {junk : Option Addr} : s.boss = .post →
      Move s (.boss message addr junk) { s with semCache := s.semCache + 1, boss := .receive }
  | enqueue {message : α} {addr : Addr} {junk : Option Addr} {g : Shared α} {pc : BossPc α} :
      enqueueStep addr junk s.shared s.boss = some (g, pc) →
      Move s (.boss message addr junk) { s with shared := g, boss := pc }
  | wait {w : W} : s.workers w = .wait → s.semCache ≠ 0 →
      Move s (.worker w) { s.setWorker w .lock with semCache := s.semCache - 1 }
  | enter {w : W} : s.workers w = .lock → s.mux2 = none →
      Move s (.worker w) { s.setWorker w .testFront with mux2 := some w }
  | pop {w : W} {g : Shared α} {pc : WorkerPc α} : popStep s.shared (s.workers w) = some (g, pc) →
      Move s (.worker w) { s.setWorker w pc with shared := g }
  | leave {w : W} {ans : α} : s.workers w = .unlock ans →
      Move s (.worker w) { s.setWorker w (.serve ans) with mux2 := none }
  | serve {w : W} {msg : α} : s.workers w = .serve msg → Move s (.worker w) (s.setWorker w .wait)

theorem step_move (h : step s a = some s') : Move s a s' := by
  cases a with
  | boss message addr junk =>
      simp only [step] at h
      split at h
      next hpc => cases h; exact .receive hpc
      next hpc =>
        split at h
        · cases h
        next hmux => cases h; exact .lock hpc (by simpa using hmux)
      next hpc => cases h; exact .unlock hpc
      next hpc => cases h; exact .post hpc
      · obtain ⟨⟨g, pc⟩, hstep, rfl⟩ := Option.map_eq_some_iff.mp h
        exact .enqueue hstep
  | worker w =>
      simp only [step] at h
      split at h
      next hpc =>
        split at h
        · cases h
        next hsem => cases h; exact .wait hpc hsem
      next hpc =>
        split at h
        · cases h
        next hmux => cases h; exact .enter hpc (by simpa using hmux)
      next hpc => cases h; exact .leave hpc
      next hpc => cases h; exact .serve hpc
      · obtain ⟨⟨g, pc⟩, hstep, rfl⟩ := Option.map_eq_some_iff.mp h
        exact .pop hstep

/-- A worker that does not hold `mux2` moves outside the queue. -/
theorem popper_setWorker (pc : WorkerPc α) (h : s.mux2 ≠ some w) : popper (s.setWorker w pc) = popper s := by
  rw [popper, popper]
  cases howner : s.mux2 with
  | none => simp [Daemon.setWorker, howner]
  | some v =>
      have hv : v ≠ w := by
        rintro rfl
        exact h howner
      simp [Daemon.setWorker, howner, hv]

theorem popper_update (pc : WorkerPc α) (h : s.mux2 = some w) : popper (s.setWorker w pc) = pc := by
  simp [popper, Daemon.setWorker, h]

theorem setWorker_iff {P : W → Prop} {Q : WorkerPc α → Prop} {pc : WorkerPc α} (hw : P w ↔ Q pc)
    (hothers : ∀ v, v ≠ w → (P v ↔ Q (s.workers v))) (v : W) :
    P v ↔ Q ((s.setWorker w pc).workers v) := by
  by_cases hv : v = w
  · subst v
    simpa [Daemon.setWorker] using hw
  · rw [hothers v hv]
    simp [Daemon.setWorker, hv]

theorem Invariant.wait (hi : Invariant es s nodes xs owed) (hpc : s.workers w = .wait)
    (hsem : s.semCache ≠ 0) :
    Invariant es { s.setWorker w .lock with semCache := s.semCache - 1 } nodes xs (w :: owed) := by
  have hout : s.mux2 ≠ some w := by
    rw [ne_eq, hi.owner w, hpc]
    exact id
  have hnew : w ∉ owed := by
    rw [hi.owing w, hpc]
    simp [Owed, Taking]
  have hpopper := popper_setWorker .lock hout
  refine ⟨?_, ?_, hi.locked, List.nodup_cons.mpr ⟨hnew, hi.nodup⟩, ?_, ?_, ?_⟩
  · exact hpopper ▸ hi.joint
  · apply setWorker_iff
    · exact iff_of_false hout id
    · exact fun v _ => hi.owner v
  · apply setWorker_iff
    · exact iff_of_true List.mem_cons_self (.inl rfl)
    · intro v hv
      rw [List.mem_cons, or_iff_right hv]
      exact hi.owing v
  · have hcount := hi.count
    simp only [List.length_cons, Daemon.setWorker] at hcount ⊢
    omega
  · exact hpopper ▸ hi.order

theorem Invariant.enter (hi : Invariant es s nodes xs owed) (hpc : s.workers w = .lock)
    (hmux : s.mux2 = none) :
    Invariant es { s.setWorker w .testFront with mux2 := some w } nodes xs owed := by
  have hpopper : popper s = .wait := by rw [popper, hmux]; rfl
  have hpopper' : popper { s.setWorker w .testFront with mux2 := some w } = .testFront := by
    simp [popper, Daemon.setWorker]
  have hj := hi.joint
  have horder := hi.order
  rw [hpopper] at hj horder
  refine ⟨?_, ?_, hi.locked, hi.nodup, ?_, hi.count, ?_⟩
  · rw [hpopper']
    exact hj.look trivial (fun _ => id) False.elim (fun _ => id)
  · apply setWorker_iff
    · exact iff_of_true rfl trivial
    · intro v hv
      rw [← hi.owner v, hmux]
      simp [hv.symm]
  · apply setWorker_iff
    · refine iff_of_true ((hi.owing w).mpr ?_) (.inr trivial)
      rw [hpc]
      exact .inl rfl
    · exact fun v _ => hi.owing v
  · rw [hpopper']
    exact horder

theorem Invariant.popStep (hi : Invariant es s nodes xs owed)
    (hapart : takingLast s.shared.heap (s.workers w) → ¬ joining s.boss)
    (hstep : popStep s.shared (s.workers w) = some (g', pop')) :
    ∃ nodes' xs' owed', Invariant es { s.setWorker w pop' with shared := g' } nodes' xs' owed' := by
  obtain ⟨hcritical, hcritical'⟩ := popStep_critical hstep
  have howner : s.mux2 = some w := (hi.owner w).mpr hcritical
  have hpopper := popper_of_owner howner
  have hpopper' : popper { s.setWorker w pop' with shared := g' } = pop' := popper_update pop' howner
  have hguard : ∀ node ans front, popper s = .readNext node ans front →
      front.bind (link s.shared.heap) = some none →
      (∀ item a, s.boss ≠ .readBack item a) ∧ ∀ item a b, s.boss ≠ .link item a b := by
    intro node ans front hpc hlast
    have hjoining := hapart (by rw [← hpopper, hpc]; exact decide_eq_true hlast)
    constructor
    · intro item a hboss
      rw [hboss] at hjoining
      exact hjoining rfl
    · intro item a b hboss
      rw [hboss] at hjoining
      exact hjoining rfl
  obtain ⟨nodes', xs', hj, htaken, hlength⟩ :=
    popStep_joint hi.joint (taking_count hi) hguard (hpopper ▸ hstep)
  have hcount := hi.count
  have howed : Owed (s.workers w) ↔ Taking (popper s) := by
    rw [hpopper, Owed, or_iff_right]
    intro hpc
    rw [hpc] at hcritical
    exact hcritical
  have howed' : Owed pop' ↔ Taking pop' := by
    rw [Owed, or_iff_right]
    rintro rfl
    exact hcritical'
  have hown : ∀ v, s.mux2 = some v ↔ Critical ((s.setWorker w pop').workers v) := by
    apply setWorker_iff
    · exact iff_of_true howner hcritical'
    · exact fun v _ => hi.owner v
  have horder : received es = handed es ++ taken pop' ++ xs' ++ pending s.boss := by
    rw [hi.order, List.append_assoc (handed es), ← htaken]
    simp only [List.append_assoc]
  rcases hlength with ⟨hlength, htaking⟩ | ⟨hlength, htaking, htaking'⟩
  · refine ⟨nodes', xs', owed, hpopper'.symm ▸ hj, hown, hi.locked, hi.nodup, ?_, ?_, hpopper'.symm ▸ horder⟩
    · apply setWorker_iff
      · rw [hi.owing w, howed, howed', htaking]
      · exact fun v _ => hi.owing v
    · exact hlength.trans hcount
  · -- the node has left the list, so the worker owes nothing any more
    have hmem : w ∈ owed := (hi.owing w).mpr (howed.mpr htaking)
    refine ⟨nodes', xs', owed.erase w, hpopper'.symm ▸ hj, hown, hi.locked, hi.nodup.erase w, ?_, ?_,
      hpopper'.symm ▸ horder⟩
    · apply setWorker_iff
      · rw [hi.nodup.mem_erase_iff, howed']
        simp [htaking']
      · intro v hv
        rw [hi.nodup.mem_erase_iff, ← hi.owing v]
        simp [hv]
    · have herase := List.length_erase_of_mem hmem
      have hpos := List.length_pos_of_mem hmem
      simp only [Daemon.setWorker]
      omega

theorem Invariant.leave {ans : α} (hi : Invariant es s nodes xs owed) (hpc : s.workers w = .unlock ans) :
    Invariant (es ++ [.handed w ans]) { s.setWorker w (.serve ans) with mux2 := none } nodes xs owed := by
  have howner : s.mux2 = some w := (hi.owner w).mpr (by rw [hpc]; trivial)
  have hpopper : popper s = .unlock ans := by rw [popper_of_owner howner, hpc]
  have hj := hi.joint
  have horder := hi.order
  rw [hpopper] at hj horder
  refine ⟨?_, ?_, hi.locked, hi.nodup, ?_, hi.count, ?_⟩
  · exact hj.look trivial (fun _ => id) False.elim (fun _ => id)
  · apply setWorker_iff
    · exact iff_of_false nofun id
    · intro v hv
      rw [← hi.owner v, howner]
      simp [hv.symm]
  · apply setWorker_iff
    · rw [hi.owing w, hpc]
      simp [Owed, Taking]
    · exact fun v _ => hi.owing v
  · rw [received_append, handed_append, horder]
    simp [received, handed, taken, popper, Daemon.setWorker]

theorem Invariant.serve {msg : α} (hi : Invariant es s nodes xs owed) (hpc : s.workers w = .serve msg) :
    Invariant es (s.setWorker w .wait) nodes xs owed := by
  have hout : s.mux2 ≠ some w := by
    rw [ne_eq, hi.owner w, hpc]
    exact id
  have hpopper := popper_setWorker .wait hout
  refine ⟨hpopper ▸ hi.joint, ?_, hi.locked, hi.nodup, ?_, hi.count, hpopper ▸ hi.order⟩
  · apply setWorker_iff
    · exact iff_of_false hout id
    · exact fun v _ => hi.owner v
  · apply setWorker_iff
    · rw [hi.owing w, hpc]
      simp [Owed, Taking]
    · exact fun v _ => hi.owing v

theorem Invariant.step (hi : Invariant es s nodes xs owed) (hapart : Apart s a)
    (hstep : step s a = some s') :
    ∃ nodes' xs' owed', Invariant (es ++ observe s a) s' nodes' xs' owed' := by
  cases step_move hstep with
  | receive hpc =>
      simp only [observe, hpc]
      exact ⟨_, _, _, hi.receive hpc _⟩
  | lock hpc hmux =>
      simp only [observe, hpc, List.append_nil]
      refine ⟨_, _, _, hi.aside (joint_aside hi.joint trivial rfl id (by simp [hpc])) ?_ ?_ ?_⟩
      · exact fun _ => trivial
      · rw [hpc]; rfl
      · rw [hpc]; rfl
  | unlock hpc =>
      simp only [observe, hpc, List.append_nil]
      refine ⟨_, _, _, hi.aside (joint_aside hi.joint trivial rfl id (by simp [hpc])) ?_ ?_ ?_⟩
      · exact fun h => absurd h Bool.false_ne_true
      · rw [hpc]; rfl
      · rw [hpc]; rfl
  | post hpc =>
      have hlocked := hi.locked
      rw [hpc] at hlocked
      simp only [observe, hpc, List.append_nil]
      refine ⟨_, _, _, hi.aside (joint_aside hi.joint trivial rfl id (by simp [hpc])) hlocked ?_ ?_⟩
      · rw [hpc]; rfl
      · rw [hpc]; rfl
  | enqueue henqueue =>
      obtain ⟨nodes', xs', hi'⟩ := hi.enqueue hapart henqueue
      rw [observe_enqueue henqueue, List.append_nil]
      exact ⟨nodes', xs', owed, hi'⟩
  | wait hpc hsem =>
      simp only [observe, hpc, List.append_nil]
      exact ⟨_, _, _, hi.wait hpc hsem⟩
  | enter hpc hmux =>
      simp only [observe, hpc, List.append_nil]
      exact ⟨_, _, _, hi.enter hpc hmux⟩
  | pop hpop =>
      rw [observe_pop hpop, List.append_nil]
      exact hi.popStep hapart hpop
  | leave hpc =>
      simp only [observe, hpc]
      exact ⟨_, _, _, hi.leave hpc⟩
  | serve hpc =>
      simp only [observe, hpc, List.append_nil]
      exact ⟨_, _, _, hi.serve hpc⟩

end GraduateOS.Shm.QueueRounds
