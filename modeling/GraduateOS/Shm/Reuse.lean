import GraduateOS.Library.Runs
import GraduateOS.Shm.OrderSteps
import Mathlib.Data.Fintype.Basic

namespace GraduateOS.Shm.Reuse

open Segments Threads Tokens Orders OrderSteps Library.Runs

variable {H W : Type} {cache : String → Option Content} {s s' : System H W}

def GivesBackUnmapped (s : System H W) : Act H W → Prop
  | .handler h _ => (s.handlers h).pc = .enqueue → ∀ w, ¬ Attached (s.workers w) (s.handlers h).segment
  | _ => True

structure SafeReuse (s : System H W) : Prop where
  unmapped : ∀ h w, (s.handlers h).pc = .create → ¬ Attached (s.workers w) (s.handlers h).segment
  noneLost : ∀ h, (s.handlers h).pc = .create → (s.segments (s.handlers h).segment).Empty
  noneTaken : ∀ w i, Attached (s.workers w) i →
    ∃ h, Holds s h i ∧ asked (s.handlers h) ∧ (s.handlers h).path = (s.workers w).path ∧
      (∀ h', Holds s h' i → h' = h) ∧ ∀ w', Attached (s.workers w') i → w' = w

theorem attached_serving {w : W} {i : Nat} (h : Attached (s.workers w) i) : Serving s w i := ⟨h.1, h.2.2⟩

theorem create_atRest (hinv : Inv s) {h : H} (hpc : (s.handlers h).pc = .create) :
    AtRest s (s.handlers h).segment := by
  have hholds : Holds s h (s.handlers h).segment := ⟨by simp [holding, hpc], rfl⟩
  exact (hinv.prepared_of_not_asked hholds (by simp [asked, hpc])).2.2

theorem safeReuse_of_inv (hinv : Inv s) : SafeReuse s where
  unmapped _ w hpc hw := (create_atRest hinv hpc).unserved w (attached_serving hw)
  noneLost _ hpc := (create_atRest hinv hpc).empty
  noneTaken w i hw := by
    obtain ⟨h, _, hholds, hunique, hasked, _, _, horder, _⟩ :=
      hinv.inUse_of_order (.inr (attached_serving hw))
    refine ⟨h, hholds, hasked, ?_⟩
    cases horder with
    | queued _ hno => exact absurd (attached_serving hw) (hno w)
    | finished _ hno => exact absurd (attached_serving hw) (hno w)
    | serving w' _ _ hsole hpath =>
        have hw' := hsole w (attached_serving hw)
        subst w'
        exact ⟨hpath.symm, hunique, fun w' hw' => hsole w' (attached_serving hw')⟩

variable [DecidableEq H] [DecidableEq W]

theorem step_inv (hinv : Inv s) {a : Act H W} (hguard : GivesBackUnmapped s a)
    (hstep : step cache s a = some s') : Inv s' := by
  cases step_move hstep with
  | request hpc => exact request_inv hinv hpc
  | pop hpc hpool => exact pop_inv hinv hpc hpool
  | send hpc => exact send_inv hinv hpc
  | enqueue hpc => exact enqueue_inv hinv hpc (hguard hpc) (by split <;> simp)
  | handler hlocal => exact handler_inv hinv hlocal
  | boss hmessages => exact boss_inv hinv hmessages
  | take hpc hwork => exact take_inv hinv hpc hwork
  | worker hlocal => exact worker_inv hinv hlocal

/-- For any number of segments, handlers and workers. -/
theorem reuse_safe {nsegments : Nat} {garbage : Nat → Segment} {acts : List (Act H W)}
    (hrun : Run (step cache) (fun _ => GivesBackUnmapped) (start nsegments garbage) acts s) :
    SafeReuse s := by
  apply safeReuse_of_inv
  exact hrun.stateInvariant (I := Inv) (start_inv nsegments garbage)
    (fun _ _ _ _ hinv hguard hstep => step_inv hinv hguard hstep)

instance (w : Worker) (i : Nat) : Decidable (Attached w i) := inferInstanceAs (Decidable (_ ∧ _))

instance [Fintype W] (s : System H W) : ∀ a, Decidable (GivesBackUnmapped s a)
  | .handler h _ => inferInstanceAs (Decidable ((s.handlers h).pc = .enqueue →
      ∀ w, ¬ Attached (s.workers w) (s.handlers h).segment))
  | .request _ _ => .isTrue trivial
  | .boss => .isTrue trivial
  | .worker _ => .isTrue trivial

def garbage (_ : Nat) : Segment := ⟨0, 0, 0, 0, []⟩

/-- Handler and worker transfer one byte; the worker still has to take the token of `semWriter`. -/
def transfer : List (Act Unit Unit) :=
  .request () "f" :: List.replicate 3 (.handler () 0) ++ .boss :: List.replicate 5 (.worker ()) ++
    List.replicate 4 (.handler () 0) ++ List.replicate 4 (.worker ()) ++ List.replicate 4 (.handler () 1)

def giveBack : List (Act Unit Unit) :=
  List.replicate 3 (.handler () 0) ++ [.request () "f", .handler () 0]

theorem unmapped_first : (exec (step oneByte) (fun _ => GivesBackUnmapped) (start 1 garbage)
    (transfer ++ List.replicate 4 (.worker ()) ++ giveBack)).any
      fun s => (s.handlers ()).pc = .create := by
  decide +kernel

theorem second_transfer_safe : ∃ s : System Unit Unit,
    Run (step oneByte) (fun _ => GivesBackUnmapped) (start 1 garbage)
      (transfer ++ List.replicate 4 (.worker ()) ++ giveBack) s ∧
    (s.handlers ()).pc = .create ∧ SafeReuse s := by
  obtain ⟨s, hs, hpc⟩ := (Option.any_eq_true _ _).mp unmapped_first
  have hrun := run_iff_exec.mpr hs
  exact ⟨s, hrun, of_decide_eq_true hpc, reuse_safe hrun⟩

theorem still_mapped : (exec (step oneByte) anyStep (start 1 garbage) (transfer ++ giveBack)).any
    fun s => (s.handlers ()).pc = .create ∧ Attached (s.workers ()) (s.handlers ()).segment := by
  decide +kernel

/-- The worker waits for a token that the initialisation removes. -/
theorem reused_while_mapped : ¬ ∀ (acts : List (Act Unit Unit)) (s : System Unit Unit),
    Run (step oneByte) anyStep (start 1 garbage) acts s → SafeReuse s := by
  intro hall
  obtain ⟨s, hs, hmapped⟩ := (Option.any_eq_true _ _).mp still_mapped
  obtain ⟨hpc, hattached⟩ := of_decide_eq_true hmapped
  exact (hall _ s (run_iff_exec.mpr hs)).unmapped () () hpc hattached

end GraduateOS.Shm.Reuse
