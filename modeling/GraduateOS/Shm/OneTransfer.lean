import GraduateOS.Library.Runs
import GraduateOS.Shm.Progress

namespace GraduateOS.Shm.OneTransfer

open Segments Threads Orders Accounts Exchange Turns Stages Progress Library.Runs

structure Exact (content : Content) (s : System Unit Unit) : Prop where
  sofar : (s.handlers ()).header = none ∧ (s.handlers ()).sent = [] ∨
    (s.handlers ()).header = some (.ok, content.length) ∧ (s.handlers ()).sent <+: content
  complete : (s.handlers ()).pc = .returned →
    (s.handlers ()).header = some (.ok, content.length) ∧ (s.handlers ()).sent = content

structure Disciplined (content : Content) (es : List Access) (s : System Unit Unit) : Prop where
  sofar : es <+: turns (chunkCount content)
  complete : (s.handlers ()).pc = .returned → es = turns (chunkCount content)

structure Live (cache : String → Option Content) (s : System Unit Unit) : Prop where
  both : Finished s ∨ ∃ a, SendsWhole s a ∧ (step cache s a).isSome
  daemon : (s.handlers ()).pc = .returned →
    Finished s ∨ (step cache s .boss).isSome ∨ (step cache s (.worker ())).isSome
  handler : (s.workers ()).pc = .idle → requests s = [] →
    Finished s ∨ ∃ result, SendsWhole s (.handler () result) ∧ (step cache s (.handler () result)).isSome

variable {cache : String → Option Content} {content : Content} {i : Nat} {es : List Access}
  {s : System Unit Unit}

theorem silent_exact (hsilent : Silent (s.handlers ())) (hpc : (s.handlers ()).pc ≠ .returned) :
    Exact content s :=
  ⟨.inl ⟨hsilent.header, hsilent.sent⟩, fun h => absurd h hpc⟩

theorem sending_exact (hsending : Sending content (s.handlers ()))
    (hall : (s.handlers ()).pc = .returned → (s.handlers ()).bytesTransferred = content.length) :
    Exact content s where
  sofar := .inr ⟨hsending.header, hsending.sent ▸ List.take_prefix _ _⟩
  complete hpc := by
    refine ⟨hsending.header, ?_⟩
    rw [hsending.sent, hall hpc, List.take_length]

theorem handlerOk_exact (hok : HandlerOk content (s.handlers ())) : Exact content s := by
  cases hpc : (s.handlers ()).pc with
  | pop | create | send | sendNotFound | failed => simp [HandlerOk, hpc] at hok
  | waitLength | readLength =>
      simp only [HandlerOk, hpc] at hok
      exact silent_exact hok (by simp [hpc])
  | header =>
      simp only [HandlerOk, hpc] at hok
      exact silent_exact hok.1 (by simp [hpc])
  | loop =>
      simp only [HandlerOk, hpc] at hok
      exact sending_exact hok (by simp [hpc])
  | waitReader | readData =>
      simp only [HandlerOk, hpc] at hok
      exact sending_exact hok.toSending (by simp [hpc])
  | postWriter | gfsSend =>
      simp only [HandlerOk, hpc] at hok
      exact sending_exact hok.toSending (by simp [hpc])
  | unmap | enqueue | returned =>
      simp only [HandlerOk, hpc] at hok
      exact sending_exact hok.1 (fun _ => hok.2)

theorem stage_exact (hstage : Stage cache content i es s) : Exact content s := by
  cases hstage with
  | preparing hsilent _ _ _ _ _ hwhere =>
      apply silent_exact hsilent
      rcases hwhere with ⟨hpc, _⟩ | ⟨hpc, _⟩ | ⟨hpc, _⟩ <;> simp [hpc]
  | queued hsilent _ _ _ _ hpc => exact silent_exact hsilent (by simp [hpc])
  | serving _ _ _ hex _ => exact handlerOk_exact hex.handler

theorem stage_disciplined (hstage : Stage cache content i es s) : Disciplined content es s := by
  cases hstage with
  | preparing _ _ _ _ _ hes hwhere =>
      subst hes
      refine ⟨List.nil_prefix, ?_⟩
      rcases hwhere with ⟨hpc, _⟩ | ⟨hpc, _⟩ | ⟨hpc, _⟩ <;> simp [hpc]
  | queued _ _ _ _ hes hpc =>
      subst hes
      exact ⟨List.nil_prefix, by simp [hpc]⟩
  | serving _ _ _ hex hturn =>
      refine ⟨hturn.within_turns hex, fun hpc => hturn.complete hex ?_⟩
      have hok := hex.handler
      simp only [HandlerOk, hpc] at hok
      simpa [received, hpc] using hok.2

theorem stage_live (hstage : Stage cache content i es s) : Live cache s := by
  have hboth := stage_progress hstage
  refine ⟨hboth, ?_, ?_⟩
  · intro hpc
    apply hboth.imp_right
    rintro ⟨a, hsends, hstep⟩
    cases a with
    | request => exact absurd hsends id
    | handler _ result => simp [step, handlerStep, hpc] at hstep
    | boss => exact .inl hstep
    | worker _ => exact .inr hstep
  · intro hidle hrequests
    obtain ⟨hmessages, hwork⟩ := List.append_eq_nil_iff.mp hrequests
    apply hboth.imp_right
    rintro ⟨a, hsends, hstep⟩
    cases a with
    | request => exact absurd hsends id
    | handler _ result => exact ⟨result, hsends, hstep⟩
    | boss => simp [step, hmessages] at hstep
    | worker _ => simp [step, workerStep, hidle, hwork] at hstep

/-- The worker serves the one call in every order of their steps, and both come to an end. -/
theorem transfer_exact {path : String} {segments : Nat → Segment} {acts : List (Act Unit Unit)}
    (hfile : cache path = some content) (hpos : 1 ≤ content.length) (hlimit : content.length < 2 ^ 31)
    (hrun : Run (step cache) (fun _ => SendsWhole) (oneCall path i segments) acts s) :
    Exact content s ∧
      Disciplined content (observed (step cache) accesses (oneCall path i segments) acts).2 s ∧
      Live cache s ∧ acts.length ≤ 13 * content.length + 24 := by
  have hstage : Stage cache content i (observed (step cache) accesses (oneCall path i segments) acts).2 s :=
    hrun.observedInvariant (I := Stage cache content i) (oneCall_stage hfile)
      (fun _ _ _ _ _ hstage hsends hstep => step_stage hlimit hpos hstage hsends hstep)
  have hlength := hrun.length_le (I := fun s => ∃ es, Stage cache content i es s) (rank content)
    ⟨[], oneCall_stage hfile⟩ (by
      rintro _ s a s' ⟨es, hstage⟩ hsends hstep
      exact ⟨⟨_, step_stage hlimit hpos hstage hsends hstep⟩, step_rank hlimit hstage hsends hstep⟩)
  have hrank : rank content (oneCall path i segments) = 13 * content.length + 24 := rfl
  exact ⟨stage_exact hstage, stage_disciplined hstage, stage_live hstage, by omega⟩

instance (s : System Unit Unit) : ∀ a, Decidable (SendsWhole s a)
  | .request _ _ => .isFalse id
  | .handler _ result => inferInstanceAs (Decidable ((s.handlers ()).pc = .gfsSend →
      result = (s.handlers ()).sendLen))
  | .boss => .isTrue trivial
  | .worker _ => .isTrue trivial

def longFile : Content := (List.range 3500).map UInt8.ofNat

theorem longFile_length : longFile.length = 3500 := by
  rw [longFile, List.length_map, List.length_range]

def twoChunks (path : String) : Option Content := if path = "f" then some longFile else none

def wholeTransfer : List (Act Unit Unit) :=
  List.replicate 3 (.handler () 0) ++ .boss :: List.replicate 5 (.worker ()) ++
    List.replicate 4 (.handler () 0) ++ List.replicate 4 (.worker ()) ++ List.replicate 4 (.handler () 3499) ++
    List.replicate 6 (.worker ()) ++ List.replicate 5 (.handler () 1) ++ List.replicate 4 (.worker ()) ++
    List.replicate 3 (.handler () 0)

theorem wholeTransfer_returns : (exec (step twoChunks) (fun _ => SendsWhole)
    (oneCall "f" 0 fun _ => ⟨0, 0, 0, 0, []⟩) wholeTransfer).any
      fun s => (s.handlers ()).pc = .returned := by
  decide +kernel

theorem transfer_twoChunks : ∃ s : System Unit Unit, (s.handlers ()).pc = .returned ∧
    Exact longFile s ∧
    Disciplined longFile (observed (step twoChunks) accesses (oneCall "f" 0 fun _ => ⟨0, 0, 0, 0, []⟩)
      wholeTransfer).2 s ∧
    Live twoChunks s ∧ wholeTransfer.length ≤ 13 * longFile.length + 24 := by
  obtain ⟨s, hs, hpc⟩ := (Option.any_eq_true _ _).mp wholeTransfer_returns
  have hlength := longFile_length
  exact ⟨s, of_decide_eq_true hpc,
    transfer_exact (if_pos rfl) (by omega) (by omega) (run_iff_exec.mpr hs)⟩

end GraduateOS.Shm.OneTransfer
