import GraduateOS.Shm.Headers
import GraduateOS.Shm.Partners
import GraduateOS.Shm.Reuse

namespace GraduateOS.Shm.ManyCalls

open Segments Threads LocalSteps Tokens Orders OrderSteps Accounts Exchange Partners Answers Headers Reuse
open Library.MachineInts Library.Runs

variable {H W : Type} {cache : String → Option Content} {s s' : System H W} {h : H} {content : Content}
  {a : Act H W}

def SendsWhole (h : H) (s : System H W) : Act H W → Prop
  | .handler h' result => h' = h → (s.handlers h).pc = .gfsSend → result = (s.handlers h).sendLen
  | _ => True

theorem callOk_enqueue (hpos : 0 < content.length) (hcall : CallOk content s h)
    (hpc : (s.handlers h).pc = .enqueue) :
    (s.handlers h).fileLen ≠ 0 ∧ (s.handlers h).header = some (.ok, content.length) ∧
      (s.handlers h).sent = content := by
  cases hcall with
  | idle hback => rw [hpc] at hback; cases hback
  | back hback => rw [hpc] at hback; cases hback
  | preparing hwhere => rcases hwhere with hwhere | hwhere | hwhere <;> rw [hpc] at hwhere <;> cases hwhere
  | exchanging _ _ hex =>
      have hok := hex.handler
      simp only [HandlerOk, hpc] at hok
      obtain ⟨hsending, hall⟩ := hok
      refine ⟨by rw [hsending.fileLen]; omega, hsending.header, ?_⟩
      rw [hsending.sent, hall, List.take_length]

def Sofar (content : Content) (x : Handler) : Prop :=
  x.header = none ∧ x.sent = [] ∨ x.header = some (.ok, content.length) ∧ x.sent <+: content

theorem Silent.sofar {x : Handler} (hsilent : Silent x) : Sofar content x :=
  .inl ⟨hsilent.header, hsilent.sent⟩

theorem Sending.sofar {x : Handler} (hsending : Sending content x) : Sofar content x :=
  .inr ⟨hsending.header, hsending.sent ▸ List.take_prefix _ _⟩

theorem handlerOk_sofar {x : Handler} (hok : HandlerOk content x) : Sofar content x := by
  cases hpc : x.pc with
  | pop | create | send | sendNotFound | failed => simp [HandlerOk, hpc] at hok
  | waitLength | readLength =>
      simp only [HandlerOk, hpc] at hok
      exact Silent.sofar hok
  | header =>
      simp only [HandlerOk, hpc] at hok
      exact Silent.sofar hok.1
  | loop =>
      simp only [HandlerOk, hpc] at hok
      exact Sending.sofar hok
  | waitReader | readData =>
      simp only [HandlerOk, hpc] at hok
      exact Sending.sofar hok.toSending
  | postWriter | gfsSend =>
      simp only [HandlerOk, hpc] at hok
      exact Sending.sofar hok.toSending
  | unmap | enqueue | returned =>
      simp only [HandlerOk, hpc] at hok
      exact Sending.sofar hok.1

theorem callOk_sofar (hcall : CallOk content s h) : Sofar content (s.handlers h) := by
  cases hcall with
  | idle _ hheader hsent => exact .inl ⟨hheader, hsent⟩
  | preparing _ hsilent => exact Silent.sofar hsilent
  | back _ hheader hsent => exact .inr ⟨hheader, hsent ▸ List.prefix_rfl⟩
  | exchanging _ _ hex => exact handlerOk_sofar hex.handler

theorem callOk_back (hcall : CallOk content s h) (hpc : (s.handlers h).pc = .returned)
    (hheader : (s.handlers h).header ≠ none) : (s.handlers h).sent = content := by
  cases hcall with
  | idle _ hnone => exact absurd hnone hheader
  | preparing hwhere => rcases hwhere with hwhere | hwhere | hwhere <;> rw [hpc] at hwhere <;> cases hwhere
  | back _ _ hsent => exact hsent
  | exchanging hasked => simp [asked, hpc] at hasked

variable [DecidableEq H]

/-- The handler takes a step at its segment. -/
theorem moves_callOk (hinv : Orders.Inv s) (hlimit : content.length < 2 ^ 31) (hpos : 0 < content.length)
    (hcall : CallOk content s h) {result : Int} {g : Segment} {x : Handler}
    (hsends : (s.handlers h).pc = .gfsSend → result = (s.handlers h).sendLen)
    (hstep : handlerStep result (s.segments (s.handlers h).segment) (s.handlers h) = some (g, x)) :
    CallOk content ((s.setSegment (s.handlers h).segment g).setHandler h x) h := by
  have hx : ((s.setSegment (s.handlers h).segment g).setHandler h x).handlers h = x := by
    simp [System.setHandler]
  cases hcall with
  | idle hpc => simp [handlerStep, hpc] at hstep
  | back hpc => simp [handlerStep, hpc] at hstep
  | preparing hpc hsilent hlen =>
      rcases hpc with hpc | hpc | hpc
      · simp [handlerStep, hpc] at hstep
      · simp only [handlerStep, hpc] at hstep
        cases hstep
        refine .preparing ?_ ?_ ?_ <;> rw [hx]
        · exact .inr (.inr rfl)
        · exact ⟨hsilent.1, hsilent.2, hsilent.3⟩
        · exact hlen
      · simp [handlerStep, hpc] at hstep
  | @exchanging w hasked hpartner hex =>
      obtain ⟨hsegment, hpath, hasked', _⟩ := handlerStep_tokens hasked (hinv.readLen h) hstep
      have hnext := hex.handlerStep hlimit hpos hsends hstep
      refine .exchanging (w := w) ?_ ?_ ?_ <;> rw [hx]
      · exact hasked'
      · rw [hsegment, hpath]
        cases hpartner with
        | queued hmem hno => exact .queued hmem hno
        | serving w hnone hw hunique hsame => exact .serving w hnone hw hunique hsame
        | finished hnone hno => exact .finished hnone hno
      · rw [hsegment]
        simpa [System.setHandler, System.setSegment] using hnext

theorem asks_callOk (hinv : Orders.Inv s) (hcall : CallOk content s h) (hpc : (s.handlers h).pc = .send) :
    CallOk content { s.setHandler h { s.handlers h with pc := .waitLength } with
      messages := s.messages ++ [((s.handlers h).path, (s.handlers h).segment)] } h := by
  have hholds : Holds s h (s.handlers h).segment := ⟨by simp [holding, hpc], rfl⟩
  obtain ⟨_, _, hrest⟩ := hinv.prepared_of_not_asked hholds (by simp [asked, hpc])
  cases hcall with
  | idle hback => rw [hpc] at hback; cases hback
  | back hback => rw [hpc] at hback; cases hback
  | exchanging hasked => simp [asked, hpc] at hasked
  | preparing _ hsilent hlen =>
      refine .exchanging (w := { pc := .getObject, path := (s.handlers h).path,
                                 segment := (s.handlers h).segment }) ?_ ?_ ?_
      · simp [System.setHandler, asked]
      · simp only [System.setHandler, Function.update_self]
        exact .queued (by simp [requests]) hrest.unserved
      · simp only [System.setHandler, Function.update_self]
        exact start_agreement ⟨hsilent.1, hsilent.2, hsilent.3⟩ hlen rfl hrest.empty rfl

variable [DecidableEq W]

/-- A step of another thread leaves the call as it is, or is the step of its worker. -/
theorem others_callOk (hinv : Orders.Inv s) (hlimit : content.length < 2 ^ 31)
    (hfile : cache (s.handlers h).path = some content) (hcall : CallOk content s h)
    (hmove : Move cache s a s') (hx : s'.handlers h = s.handlers h)
    (hother : ∀ h' result, a = .handler h' result → h' ≠ h) : CallOk content s' h := by
  by_cases hasked : asked (s.handlers h)
  · have hholds : Holds s h (s.handlers h).segment := ⟨asked_holding hasked, rfl⟩
    obtain ⟨hpool, hunique, _⟩ := hinv.inUse_of_asked hholds hasked
    by_cases htouches : Touches s (s.handlers h).segment a
    · cases a with
      | request => exact absurd htouches id
      | boss => exact absurd htouches id
      | handler h' result =>
          rcases htouches with ⟨_, hhead⟩ | hheld
          · exact absurd (List.mem_of_mem_head? hhead) hpool
          · exact absurd (hunique h' hheld) (hother h' result rfl)
      | worker w =>
          cases hmove with
          | @take _ m work hidle hwork =>
              rcases htouches with ⟨_, path, hhead⟩ | hserving
              · rw [hwork, List.head?_cons, Option.some.injEq] at hhead
                exact hcall.taken hinv hasked hwork (by rw [hhead])
              · exact absurd hidle hserving.1
          | worker hlocal =>
              rcases htouches with ⟨hidle, _⟩ | hserving
              · simp [workerStep, hidle] at hlocal
              · exact hcall.served hlimit hfile hasked hserving hlocal
    · exact hcall.stays hx (fun _ => move_sameAt hmove htouches)
  · exact hcall.stays hx (fun h => absurd h hasked)

def Right (cache : String → Option Content) (s : System H W) (h : H) : Prop :=
  ∀ content, cache (s.handlers h).path = some content → 0 < content.length → content.length < 2 ^ 31 →
    CallOk content s h

theorem step_right (hinv : Orders.Inv s) (hright : Right cache s h) (hsends : SendsWhole h s a)
    (hstep : step cache s a = some s') : Right cache s' h := by
  have hmove := step_move hstep
  by_cases hmine : ∃ result, a = .handler h result
  · obtain ⟨result, rfl⟩ := hmine
    intro content hfile hpos hlimit
    cases hmove with
    | pop hpc hpool =>
        have hpath : cache (s.handlers h).path = some content := by simpa [System.setHandler] using hfile
        cases hright content hpath hpos hlimit with
        | idle hback => rw [hpc] at hback; cases hback
        | back hback => rw [hpc] at hback; cases hback
        | exchanging hasked => simp [asked, hpc] at hasked
        | preparing _ hsilent hlen =>
            refine .preparing ?_ ?_ ?_ <;> simp only [System.setHandler, Function.update_self]
            · exact .inr (.inl trivial)
            · exact ⟨hsilent.1, hsilent.2, hsilent.3⟩
            · exact hlen
    | send hpc =>
        have hpath : cache (s.handlers h).path = some content := by simpa [System.setHandler] using hfile
        exact asks_callOk hinv (hright content hpath hpos hlimit) hpc
    | enqueue hpc =>
        have hpath : cache (s.handlers h).path = some content := by simpa [System.setHandler] using hfile
        obtain ⟨hlen, hheader, hsent⟩ := callOk_enqueue hpos (hright content hpath hpos hlimit) hpc
        refine .back ?_ ?_ ?_ <;> simp only [System.setHandler, Function.update_self]
        · rw [if_neg hlen]
        · exact hheader
        · exact hsent
    | @handler _ _ g x hlocal =>
        have hsame : x.path = (s.handlers h).path := by cases handlerStep_move hlocal <;> rfl
        have hpath : cache (s.handlers h).path = some content := by
          simpa [System.setHandler, hsame] using hfile
        exact moves_callOk hinv hlimit hpos (hright content hpath hpos hlimit) (hsends rfl) hlocal
  · have hother : ∀ h' result, a = .handler h' result → h' ≠ h := by
      rintro h' result rfl rfl
      exact hmine ⟨result, rfl⟩
    by_cases hnew : ∃ path, a = .request h path
    · obtain ⟨path, rfl⟩ := hnew
      intro content _ _ _
      cases hmove with
      | request hpc => refine .preparing ?_ ⟨?_, ?_, ?_⟩ ?_ <;> simp [System.setHandler]
    · have hx : s'.handlers h = s.handlers h := by
        cases hmove with
        | @request h' path => exact Function.update_of_ne (by rintro rfl; exact hnew ⟨path, rfl⟩) _ _
        | pop | send | enqueue | handler => exact Function.update_of_ne (hother _ _ rfl).symm _ _
        | boss | take | worker => rfl
      intro content hfile hpos hlimit
      rw [hx] at hfile
      exact others_callOk hinv hlimit hfile (hright content hfile hpos hlimit) hmove hx hother

def Headed (x : Handler) : Prop := (∀ length, x.header ≠ some (.ok, length)) → x.sent = []

theorem handlerStep_headed {g g' : Segment} {x x' : Handler} {result : Int} (hx : HandlerAnswer cache g x)
    (hheaded : Headed x) (hstep : handlerStep result g x = some (g', x')) : Headed x' := by
  intro hnone
  cases handlerStep_move hstep with
  | header => exact absurd rfl (hnone x.fileLen)
  | gfsSend hpc =>
      simp only [HandlerAnswer, hpc] at hx
      exact absurd hx.1 (hnone x.fileLen)
  | sendNotFound hpc =>
      simp only [HandlerAnswer, hpc] at hx
      exact hheaded (by simp [hx.1])
  | _ => exact hheaded hnone

theorem step_headed (hinv : Answers.Inv cache s) (hheaded : ∀ h, Headed (s.handlers h))
    (hstep : step cache s a = some s') (h : H) : Headed (s'.handlers h) := by
  have hset : ∀ h' x, Headed x → s'.handlers = Function.update s.handlers h' x → Headed (s'.handlers h) := by
    intro h' x hx hs
    rw [hs]
    by_cases hh : h = h'
    · subst h'
      rwa [Function.update_self]
    · rw [Function.update_of_ne hh]
      exact hheaded h
  cases step_move hstep with
  | request => exact hset _ _ (fun _ => rfl) rfl
  | @pop h' | @send h' | @enqueue h' =>
      refine hset h' _ ?_ rfl
      exact hheaded h'
  | @handler h' _ _ _ hlocal =>
      exact hset h' _ (handlerStep_headed (hinv.handlers h') (hheaded h') hlocal) rfl
  | boss | take | worker => exact hheaded h

structure Served (cache : String → Option Content) (acts : List (Act H W)) (s : System H W) (h : H) :
    Prop where
  missing : (cache (s.handlers h).path).getD [] = [] → (s.handlers h).sent = [] ∧
    ((s.handlers h).header = none ∨ (s.handlers h).header = some (.fileNotFound, 0))
  sofar : ∀ content, cache (s.handlers h).path = some content → content ≠ [] →
    (s.handlers h).header = none ∧ (s.handlers h).sent = [] ∨
      (s.handlers h).header = some (.ok, content.length) ∧ (s.handlers h).sent <+: content
  complete : (s.handlers h).pc = .returned → (∃ path, .request h path ∈ acts) →
    (s.handlers h).header ≠ none ∧ (s.handlers h).sent = (cache (s.handlers h).path).getD []

structure RunOk (cache : String → Option Content) (acts : List (Act H W)) (s : System H W) (h : H) :
    Prop where
  orders : Orders.Inv s
  answers : Answers.Inv cache s
  headed : ∀ h, Headed (s.handlers h)
  right : Right cache s h
  answered : (s.handlers h).pc = .returned → (∃ path, .request h path ∈ acts) → (s.handlers h).header ≠ none

variable {acts : List (Act H W)}

theorem step_runOk (hok : RunOk cache acts s h) (hguard : GivesBackUnmapped s a ∧ SendsWhole h s a)
    (hstep : step cache s a = some s') : RunOk cache (acts ++ [a]) s' h where
  orders := Reuse.step_inv hok.orders hguard.1 hstep
  answers := Answers.step_inv hok.answers hstep
  headed := step_headed hok.answers hok.headed hstep
  right := step_right hok.orders hok.right hguard.2 hstep
  answered := by
    rintro hpc ⟨path, hmem⟩ hheader
    obtain ⟨hsame, hother⟩ := step_returned hok.answers hstep hpc hheader
    rw [hsame] at hpc hheader
    rcases List.mem_append.mp hmem with hmem | hmem
    · exact hok.answered hpc ⟨path, hmem⟩ hheader
    · exact hother path (List.mem_singleton.mp hmem).symm

omit [DecidableEq H] [DecidableEq W] in
theorem start_runOk (nsegments : Nat) (garbage : Nat → Segment) :
    RunOk cache [] (start nsegments garbage : System H W) h where
  orders := OrderSteps.start_inv nsegments garbage
  answers := Answers.start_inv nsegments garbage
  headed := fun _ _ => rfl
  right := fun _ _ _ _ => .idle rfl rfl rfl
  answered := by simp

theorem answer_missing {path : String} (hmissing : (cache path).getD [] = []) : answer cache path = 0 := by
  cases hfile : cache path with
  | none => simp [answer, hfile]
  | some file =>
      rw [hfile, Option.getD_some] at hmissing
      simp [answer, hfile, hmissing, toInt32]

theorem reported_missing {path : String} (hmissing : (cache path).getD [] = []) :
    reported cache path = (.fileNotFound, 0) := by
  rw [reported, answer_missing hmissing, toUInt64]
  rfl

omit [DecidableEq H] [DecidableEq W] in
theorem runOk_served (hok : RunOk cache acts s h)
    (hsize : ∀ content, cache (s.handlers h).path = some content → content.length < 2 ^ 31) :
    Served cache acts s h := by
  have hnothing : (cache (s.handlers h).path).getD [] = [] → (s.handlers h).sent = [] ∧
      ((s.handlers h).header = none ∨ (s.handlers h).header = some (.fileNotFound, 0)) := by
    intro hmissing
    have hheader : ∀ header, (s.handlers h).header = some header → header = (.fileNotFound, 0) := by
      intro header hsome
      rw [handlerAnswer_header (hok.answers.handlers h) hsome, reported_missing hmissing]
    refine ⟨hok.headed h (fun length hsome => by simpa using hheader _ hsome), ?_⟩
    cases hsome : (s.handlers h).header with
    | none => exact .inl rfl
    | some header => exact .inr (congrArg some (hheader header hsome))
  have hcall : ∀ content, cache (s.handlers h).path = some content → content ≠ [] → CallOk content s h :=
    fun content hfile hne =>
      hok.right content hfile (List.length_pos_of_ne_nil hne) (hsize content hfile)
  refine ⟨hnothing, fun content hfile hne => callOk_sofar (hcall content hfile hne), ?_⟩
  intro hpc hrequest
  have hanswered := hok.answered hpc hrequest
  refine ⟨hanswered, ?_⟩
  by_cases hmissing : (cache (s.handlers h).path).getD [] = []
  · rw [hmissing, (hnothing hmissing).1]
  · obtain ⟨content, hfile⟩ : ∃ content, cache (s.handlers h).path = some content := by
      cases hfile : cache (s.handlers h).path with
      | none => simp [hfile] at hmissing
      | some content => exact ⟨content, rfl⟩
    rw [hfile, Option.getD_some] at hmissing ⊢
    exact callOk_back (hcall content hfile hmissing) hpc hanswered

instance (s : System H W) : ∀ a, Decidable (SendsWhole h s a)
  | .handler h' result => inferInstanceAs (Decidable (h' = h → (s.handlers h).pc = .gfsSend →
      result = (s.handlers h).sendLen))
  | .request _ _ => .isTrue trivial
  | .boss => .isTrue trivial
  | .worker _ => .isTrue trivial

/-- A whole call for the file; the worker is done with the segment before it is given back. -/
def call (h : Bool) (result : Int) : List (Act Bool Unit) :=
  .request h "f" :: List.replicate 3 (.handler h 0) ++ .boss :: List.replicate 5 (.worker ()) ++
    List.replicate 4 (.handler h 0) ++ List.replicate 4 (.worker ()) ++ List.replicate 4 (.handler h result) ++
    List.replicate 4 (.worker ()) ++ List.replicate 3 (.handler h 0)

theorem secondCall_returns : (exec (step oneByte) (fun _ s a => GivesBackUnmapped s a ∧ SendsWhole true s a)
    (start 1 fun _ => ⟨0, 0, 0, 0, []⟩) (call false (-1) ++ call true 1)).any
      fun s => (s.handlers true).pc = .returned ∧ (s.handlers true).path = "f" := by
  decide +kernel

end GraduateOS.Shm.ManyCalls
