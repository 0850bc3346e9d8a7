import GraduateOS.Shm.Exchange
import GraduateOS.Shm.OrderSteps

namespace GraduateOS.Shm.Partners

open Segments Threads LocalSteps Tokens Orders OrderSteps Accounts Exchange

variable {H W : Type}

/-- The worker of the request for a segment: one that is about to take it as
long as it waits, and one without work when it has been served. -/
inductive Partner (s : System H W) (i : Nat) (path : String) : Worker → Prop
  | queued : (path, i) ∈ requests s → (∀ w, ¬ Serving s w i) →
      Partner s i path { pc := .getObject, path := path, segment := i }
  | serving (w) : i ∉ (requests s).map Prod.snd → Serving s w i → (∀ w', Serving s w' i → w' = w) →
      (s.workers w).path = path → Partner s i path (s.workers w)
  | finished : i ∉ (requests s).map Prod.snd → (∀ w, ¬ Serving s w i) → Partner s i path {}

inductive CallOk (content : Content) (s : System H W) (h : H) : Prop
  | idle : (s.handlers h).pc = .returned → (s.handlers h).header = none → (s.handlers h).sent = [] →
      CallOk content s h
  | preparing : (s.handlers h).pc = .pop ∨ (s.handlers h).pc = .create ∨ (s.handlers h).pc = .send →
      Silent (s.handlers h) → (s.handlers h).readLen = 0 → CallOk content s h
  | exchanging {w} : asked (s.handlers h) → Partner s (s.handlers h).segment (s.handlers h).path w →
      Agreement content (s.segments (s.handlers h).segment) (s.handlers h) w → CallOk content s h
  | back : (s.handlers h).pc = .returned → (s.handlers h).header = some (.ok, content.length) →
      (s.handlers h).sent = content → CallOk content s h

/-- The segments that a step may change, or hand over to another thread. -/
def Touches (s : System H W) (j : Nat) : Act H W → Prop
  | .request _ _ => False
  | .handler h _ => (s.handlers h).pc = .pop ∧ s.pool.head? = some j ∨ Holds s h j
  | .boss => False
  | .worker w => (s.workers w).pc = .idle ∧ (∃ path, s.work.head? = some (path, j)) ∨ Serving s w j

variable {cache : String → Option Content} {s s' : System H W} {h : H} {w : W} {i j : Nat}
  {path : String} {content : Content} {a : Act H W}

theorem partner_sameAt (hsame : SameAt s s' i) {y : Worker} (h : Partner s i path y) :
    Partner s' i path y := by
  cases h with
  | queued hmem hno =>
      exact .queued ((hsame.requested path).mpr hmem) (fun w hw => hno w ((hsame.serving w).mp hw))
  | serving w hno hw hunique hpath =>
      rw [← hsame.workers w (.inl hw)] at hpath ⊢
      exact .serving w (hsame.notRequested hno) ((hsame.serving w).mpr hw)
        (fun w' hw' => hunique w' ((hsame.serving w').mp hw')) hpath
  | finished hno hnone =>
      exact .finished (hsame.notRequested hno) (fun w hw => hnone w ((hsame.serving w).mp hw))

theorem partner_of_worker {y : Worker} (hy : s.workers w = y) (hnone : i ∉ (requests s).map Prod.snd)
    (hbusy : y.pc ≠ .idle) (hsegment : y.segment = i) (hunique : ∀ w', Serving s w' i → w' = w)
    (hpath : y.path = path) : Partner s i path y := by
  subst hy
  exact .serving w hnone ⟨hbusy, hsegment⟩ hunique hpath

/-- A worker without work counts only as such. -/
theorem agreement_idle {g : Segment} {x : Handler} {y : Worker} (hidle : y.pc = .idle)
    (hex : Agreement content g x y) : Agreement content g x {} := by
  obtain ⟨hhandler, _, hreadLen, hfileLength, hinformed, htoken, hbuffer, hunread, hread⟩ := hex
  refine ⟨hhandler, trivial, hreadLen, fun _ => hfileLength ?_, ?_, ?_, ?_, ?_, ?_⟩
  · simp [told, hidle]
  · simpa [told, hidle] using hinformed
  · simpa [workerToken, hidle] using htoken
  · simpa [hidle] using hbuffer
  · simpa [posted, hidle] using hunread
  · simpa [posted, hidle] using hread

/-- The call of a handler that takes no step. -/
theorem CallOk.stays (hcall : CallOk content s h) (hx : s'.handlers h = s.handlers h)
    (hat : asked (s.handlers h) → SameAt s s' (s.handlers h).segment) : CallOk content s' h := by
  cases hcall with
  | idle hpc hheader hsent => exact .idle (hx ▸ hpc) (hx ▸ hheader) (hx ▸ hsent)
  | preparing hpc hsilent hlen => exact .preparing (hx ▸ hpc) (hx ▸ hsilent) (hx ▸ hlen)
  | exchanging hasked hpartner hex =>
      have hsame := hat hasked
      rw [← hsame.segment] at hex
      rw [← hx] at hasked hsame hpartner hex
      exact .exchanging hasked (partner_sameAt hsame hpartner) hex
  | back hpc hheader hsent => exact .back (hx ▸ hpc) (hx ▸ hheader) (hx ▸ hsent)

section Daemon

variable [DecidableEq W]

/-- The other party of the exchange takes a step. -/
theorem CallOk.served (hlimit : content.length < 2 ^ 31) (hfile : cache (s.handlers h).path = some content)
    (hcall : CallOk content s h) (hasked : asked (s.handlers h))
    (hw : Serving s w (s.handlers h).segment) {g : Segment} {y : Worker}
    (hstep : workerStep cache (s.segments (s.workers w).segment) (s.workers w) = some (g, y)) :
    CallOk content ((s.setSegment (s.workers w).segment g).setWorker w y) h := by
  cases hcall with
  | idle hpc => simp [asked, hpc] at hasked
  | back hpc => simp [asked, hpc] at hasked
  | preparing hpc => rcases hpc with hpc | hpc | hpc <;> simp [asked, hpc] at hasked
  | exchanging _ hpartner hex =>
      cases hpartner with
      | queued _ hno => exact absurd hw (hno w)
      | finished _ hno => exact absurd hw (hno w)
      | serving w' hnone hw' hunique hpath =>
          have heq := hunique w hw
          subst w'
          obtain ⟨hsegment, hpath', -⟩ := workerStep_tokens hstep
          rw [hw.2] at hstep ⊢
          have hnext := hex.workerStep hlimit (hpath ▸ hfile) hstep
          have hsegments : ((s.setSegment (s.handlers h).segment g).setWorker w y).segments
              (s.handlers h).segment = g := by
            simp [System.setWorker, System.setSegment]
          have hothers : ∀ w', Serving ((s.setSegment (s.handlers h).segment g).setWorker w y) w'
              (s.handlers h).segment → w' = w := by
            intro w' hserving
            by_contra hne
            exact hne (hunique w' (worker_serves hne hserving))
          by_cases hidle : y.pc = .idle
          · refine .exchanging hasked (.finished hnone ?_) (hsegments.symm ▸ agreement_idle hidle hnext)
            intro w' hserving
            have heq := hothers w' hserving
            subst w'
            simp [Serving, System.setWorker, hidle] at hserving
          · have hpartner : Partner ((s.setSegment (s.handlers h).segment g).setWorker w y)
                (s.handlers h).segment (s.handlers h).path y :=
              partner_of_worker (by simp [System.setWorker]) hnone hidle (hsegment.trans hw.2) hothers
                (hpath'.trans hpath)
            exact .exchanging hasked hpartner (hsegments.symm ▸ hnext)

theorem CallOk.taken (hinv : Inv s) (hcall : CallOk content s h) (hasked : asked (s.handlers h))
    {m : String × Nat} {work : List (String × Nat)} (hwork : s.work = m :: work)
    (hm : m.2 = (s.handlers h).segment) :
    CallOk content
      { s.setWorker w { pc := .getObject, path := m.1, segment := m.2 } with work := work } h := by
  have hmem : m ∈ requests s := by simp [requests, hwork]
  cases hcall with
  | idle hpc => simp [asked, hpc] at hasked
  | back hpc => simp [asked, hpc] at hasked
  | preparing hpc => rcases hpc with hpc | hpc | hpc <;> simp [asked, hpc] at hasked
  | exchanging _ hpartner hex =>
      have hrequested := List.mem_map_of_mem (f := Prod.snd) hmem
      rw [hm] at hrequested
      cases hpartner with
      | serving _ hnone => exact absurd hrequested hnone
      | finished hnone => exact absurd hrequested hnone
      | queued hqueued hno =>
          have hmine : m = ((s.handlers h).path, (s.handlers h).segment) :=
            List.inj_on_of_nodup_map hinv.requestsNodup hmem hqueued hm
          subst hmine
          have hnodup := hinv.requestsNodup
          have hleft : (s.handlers h).segment ∉ (s.messages ++ work).map Prod.snd := by
            rw [requests, hwork, List.map_append, List.map_cons, List.nodup_middle] at hnodup
            rw [List.map_append]
            exact (List.nodup_cons.mp hnodup).1
          refine .exchanging hasked ?_ hex
          refine partner_of_worker (w := w) (by simp [System.setWorker]) hleft (by simp) rfl ?_ rfl
          intro w' hserving
          by_contra hne
          exact hno w' (worker_serves hne hserving)

end Daemon

section Proxy

variable [DecidableEq H]

theorem handler_sameAt {x : Handler} (pool : List Nat) (messages : List (String × Nat))
    (hpool : j ∈ pool → j ∈ s.pool)
    (hmessages : ∀ path, (path, j) ∈ messages → (path, j) ∈ s.messages)
    (hmessages' : ∀ path, (path, j) ∈ s.messages → (path, j) ∈ messages)
    (hbefore : ¬ Holds s h j) (hafter : ¬ (holding x ∧ x.segment = j)) :
    SameAt s { s.setHandler h x with pool := pool, messages := messages } j := by
  refine same_of_handler (h := h) hpool ?_ rfl (fun h' hh => Function.update_of_ne hh _ _) rfl hbefore ?_
  · intro path
    simp only [requests, System.setHandler, List.mem_append]
    exact or_congr_left ⟨hmessages path, hmessages' path⟩
  · simpa [Holds, System.setHandler] using hafter

end Proxy

variable [DecidableEq H] [DecidableEq W]

/-- From another segment a step looks like nothing. -/
theorem move_sameAt (hmove : Move cache s a s') (hj : ¬ Touches s j a) : SameAt s s' j := by
  cases hmove with
  | @request h path hpc =>
      refine handler_sameAt (s := s) s.pool s.messages id (fun _ => id) (fun _ => id) ?_ ?_
      · rintro ⟨hholding, _⟩
        rcases hpc with hpc | hpc <;> simp [holding, hpc] at hholding
      · simp [holding]
  | @pop h result i pool hpc hpool =>
      refine handler_sameAt _ s.messages ?_ (fun _ => id) (fun _ => id) ?_ ?_
      · intro hmem
        rw [hpool]
        exact List.mem_cons_of_mem i hmem
      · simp [Holds, holding, hpc]
      · rintro ⟨_, rfl⟩
        exact hj (.inl ⟨hpc, by simp [hpool]⟩)
  | @send h result hpc hlength =>
      have hne : j ≠ (s.handlers h).segment := by
        rintro rfl
        exact hj (.inr ⟨by simp [holding, hpc], rfl⟩)
      refine handler_sameAt s.pool _ id ?_ ?_ (fun hh => hne hh.2.symm) (fun hh => hne hh.2.symm)
      · intro path
        simp [hne]
      · exact fun path hmem => List.mem_append_left _ hmem
  | @enqueue h result hpc =>
      have hne : j ≠ (s.handlers h).segment := by
        rintro rfl
        exact hj (.inr ⟨by simp [holding, hpc], rfl⟩)
      refine handler_sameAt _ s.messages ?_ (fun _ => id) (fun _ => id) (fun hh => hne hh.2.symm)
        (fun hh => hne hh.2.symm)
      simp [hne]
  | @handler h result g x hlocal =>
      by_cases hholding : holding (s.handlers h)
      · have hne : j ≠ (s.handlers h).segment := fun heq => hj (.inr ⟨hholding, heq.symm⟩)
        refine handler_same ?_ hne
        cases handlerStep_move hlocal <;> rfl
      · cases handlerStep_move hlocal with
        | sendNotFound hpc =>
            rw [System.setSegment, Function.update_eq_self]
            refine handler_sameAt (s := s) s.pool s.messages id (fun _ => id)
              (fun _ => id) (fun hh => hholding hh.1) ?_
            simp [holding]
        | _ => simp [holding, *] at hholding
  | boss hmessages =>
      refine ⟨id, fun path => ?_, rfl, fun _ _ => rfl, fun _ _ => rfl⟩
      simp only [requests, hmessages, List.mem_append, List.mem_cons, List.not_mem_nil, or_false]
      tauto
  | @take w m work hpc hwork =>
      have hne : j ≠ m.2 := by
        rintro rfl
        exact hj (.inl ⟨hpc, m.1, by simp [hwork]⟩)
      refine same_of_worker (w := w) rfl ?_ rfl rfl (fun w' hw => Function.update_of_ne hw _ _) ?_ ?_
      · intro path
        have hpair : (path, j) ≠ m := fun heq => hne (congrArg Prod.snd heq)
        simp [requests, System.setWorker, hwork, hpair]
      · exact fun hw => hw.1 hpc
      · rintro ⟨_, hsegment⟩
        simp only [System.setWorker, Function.update_self] at hsegment
        exact hne hsegment.symm
  | @worker w g x hlocal =>
      obtain ⟨hsegment, _⟩ := workerStep_tokens hlocal
      have hbusy : (s.workers w).pc ≠ .idle := by
        intro hpc
        simp [workerStep, hpc] at hlocal
      have hne : j ≠ (s.workers w).segment := fun heq => hj (.inr ⟨hbusy, heq.symm⟩)
      refine same_of_worker (w := w) rfl (fun _ => .rfl) ?_ rfl (fun w' hw => Function.update_of_ne hw _ _)
        (fun hw => hne hw.2.symm) ?_
      · exact Function.update_of_ne hne _ _
      · rintro ⟨_, heq⟩
        simp only [System.setWorker, Function.update_self] at heq
        exact hne (heq.symm.trans hsegment)

end GraduateOS.Shm.Partners
