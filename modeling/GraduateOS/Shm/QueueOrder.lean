import GraduateOS.Library.Runs
import GraduateOS.Shm.QueueRounds
import Mathlib.Data.Fintype.EquivFin

namespace GraduateOS.Shm.QueueOrder

open Steques.Nodes WorkQueue QueueSteps QueueRounds Library.Runs

variable {W α : Type} {s : Daemon W α} {es : List (Event W α)} {nodes : List Addr}
  {xs : List α} {owed : List W} {w : W}

theorem worker_ok (hi : Invariant es s nodes xs owed) (w : W) :
    s.workers w ≠ .underflow ∧ s.workers w ≠ .undefined := by
  have hok := hi.joint.workerOk
  constructor
  · intro hpc
    have howner : s.mux2 = some w := (hi.owner w).mpr (by rw [hpc]; trivial)
    rw [popper_of_owner howner, hpc] at hok
    exact hok
  · intro hpc
    have howner : s.mux2 = some w := (hi.owner w).mpr (by rw [hpc]; trivial)
    rw [popper_of_owner howner, hpc] at hok
    exact hok

theorem front_ne_none (hi : Invariant es s nodes xs owed) (hpc : s.workers w = .testFront) :
    s.shared.queue.front ≠ none := by
  have howner : s.mux2 = some w := (hi.owner w).mpr (by rw [hpc]; trivial)
  have htaking : Taking (popper s) := by rw [popper_of_owner howner, hpc]; trivial
  have hcount := taking_count hi htaking
  intro hfront
  rw [hi.joint.path.empty_iff.mpr hfront] at hcount
  simp at hcount

theorem exists_fresh (h : Heap α) : ∃ addr, addr ∉ h := by
  obtain ⟨addr, hfresh⟩ := Infinite.exists_notMem_finset h.keys.toFinset
  exact ⟨addr, fun hmem => hfresh (List.mem_toFinset.mpr hmem)⟩

variable [DecidableEq W]

/-- Every message goes to one worker, in the order received, and no thread
arrives at a place where the process ends. When the boss waits for a message
and no worker can move, all messages have been handed over. -/
structure InOrder (es : List (Event W α)) (s : Daemon W α) : Prop where
  boss : ∀ message junk, ∃ addr, step s (.boss message addr junk) ≠ none
  workers : ∀ w, s.workers w ≠ .underflow ∧ s.workers w ≠ .undefined
  nonempty : ∀ w, s.workers w = .testFront → s.shared.queue.front ≠ none
  order : handed es <+: received es
  complete : s.boss = .receive → ∀ _ : W, (∀ w, step s (.worker w) = none) → handed es = received es

theorem boss_ok (hi : Invariant es s nodes xs owed) (message : α) (junk : Option Addr) :
    ∃ addr, step s (.boss message addr junk) ≠ none := by
  obtain ⟨addr, hnew⟩ := exists_fresh s.shared.heap
  have hok := hi.joint.bossOk
  have hlocked := hi.locked
  refine ⟨addr, ?_⟩
  cases hpc : s.boss with
  | undefined => rw [hpc] at hok; exact hok.elim
  | lock item =>
      have hmux : s.mux = false := by
        rw [hpc] at hlocked
        simpa [Locked] using hlocked
      simp [step, hpc, hmux]
  | malloc item => simp [step, hpc, enqueueStep, hnew]
  | initNext item node =>
      cases hset : setNext s.shared.heap node none <;> simp [step, hpc, enqueueStep, hset]
  | link item node back =>
      cases hset : back.bind (setNext s.shared.heap · (some node)) <;>
        simp [step, hpc, enqueueStep, hset]
  | _ => simp [step, hpc, enqueueStep]

/-- A worker that holds `mux2` always has a step, so when none has, all of
them wait for `semCache` and nothing is left in the queue. -/
theorem idle_complete (hi : Invariant es s nodes xs owed) (hboss : s.boss = .receive) (w : W)
    (hidle : ∀ v, step s (.worker v) = none) : handed es = received es := by
  have hmux : s.mux2 = none := by
    by_contra hsome
    obtain ⟨v, howner⟩ := Option.ne_none_iff_exists'.mp hsome
    have hcritical := (hi.owner v).mp howner
    have hv := hidle v
    obtain ⟨hunderflow, hundefined⟩ := worker_ok hi v
    simp only [step] at hv
    cases hpc : s.workers v <;> simp_all [Critical, popStep]
  have hwait : ∀ v, s.workers v = .wait ∧ s.semCache = 0 := by
    intro v
    have hcritical : ¬ Critical (s.workers v) := by
      rw [← hi.owner v, hmux]
      simp
    have hv := hidle v
    simp only [step] at hv
    cases hpc : s.workers v <;> simp_all [Critical]
  have howed : owed = [] := by
    apply List.eq_nil_iff_forall_not_mem.mpr
    intro v hv
    have howing := (hi.owing v).mp hv
    rw [(hwait v).1] at howing
    simp [Owed, Taking] at howing
  have hcount := hi.count
  rw [(hwait w).2, howed, hboss] at hcount
  have hnodes : nodes = [] := List.length_eq_zero_iff.mp hcount
  have hitems := hi.joint.items
  rw [hnodes] at hitems
  have hxs : xs = [] := List.map_eq_nil_iff.mp hitems.symm
  have horder := hi.order
  rw [hxs, hboss] at horder
  simp only [popper, hmux, Option.elim_none, taken, pending, List.append_nil] at horder
  exact horder.symm

/-- In every run that keeps the two accesses to the last node apart, the queue
loses, repeats and reorders nothing. -/
theorem apart_inOrder (acts : List (Act W α)) (s : Daemon W α)
    (hrun : Run step (fun _ => Apart) start acts s) : InOrder (observed step observe start acts).2 s := by
  obtain ⟨nodes, xs, owed, hi⟩ := hrun.observedInvariant
    (I := fun es s => ∃ nodes xs owed, Invariant es s nodes xs owed) ⟨[], [], [], start_invariant⟩
    (fun es acts s a s' ⟨_, _, _, hi⟩ hapart hstep => hi.step hapart hstep)
  refine ⟨boss_ok hi, worker_ok hi, fun _ => front_ne_none hi, ?_, fun hpc w => idle_complete hi hpc w⟩
  rw [hi.order, List.append_assoc, List.append_assoc]
  exact List.prefix_append _ _

/-- Three messages for two workers. The third is put in while the first is
taken out, access by access in turn, with the second in the list between them. -/
def interleaved : List (Act Bool Nat) :=
  List.replicate 11 (.boss 10 1 none) ++ List.replicate 12 (.boss 20 2 none) ++
    (List.replicate 12 [Act.boss 30 3 none, .worker false]).flatten ++ List.replicate 2 (.worker false) ++
    List.replicate 14 (.worker true) ++ List.replicate 14 (.worker false)

theorem interleaved_runs : (exec step (fun _ => Apart) (start : Daemon Bool Nat) interleaved).isSome := by
  decide +kernel

theorem interleaved_inOrder : ∃ s,
    exec step (fun _ => Apart) (start : Daemon Bool Nat) interleaved = some s ∧
      InOrder (observed step observe (start : Daemon Bool Nat) interleaved).2 s := by
  obtain ⟨s, hs⟩ := Option.isSome_iff_exists.mp interleaved_runs
  exact ⟨s, hs, apart_inOrder interleaved s (run_iff_exec.mpr hs)⟩

/-- The worker sees that its node is the last one, the boss links a second one
to it, and the worker clears `back`. The second message is posted and lost. -/
def overlap : List (Act Unit Bool) :=
  List.replicate 11 (.boss true 1 none) ++ List.replicate 7 (.worker ()) ++
    List.replicate 12 (.boss false 2 none) ++ List.replicate 11 (.worker ())

theorem overlap_underflows : ∃ s, exec step anyStep (start : Daemon Unit Bool) overlap = some s ∧
    s.workers () = .underflow := by
  have hlast : (exec step anyStep (start : Daemon Unit Bool) overlap).map (·.workers ()) =
      some .underflow := by decide
  exact Option.map_eq_some_iff.mp hlast

theorem overlap_not_inOrder : ¬ ∀ (W α : Type) [DecidableEq W] (acts : List (Act W α)) (s : Daemon W α),
    Run step anyStep start acts s → InOrder (observed step observe start acts).2 s := by
  intro h
  obtain ⟨s, hs, hpc⟩ := overlap_underflows
  exact ((h Unit Bool overlap s (run_iff_exec.mpr hs)).workers ()).1 hpc

end GraduateOS.Shm.QueueOrder
