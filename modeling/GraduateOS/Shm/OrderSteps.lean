import GraduateOS.Shm.Orders
import Mathlib.Data.List.Nodup

namespace GraduateOS.Shm.OrderSteps

open Segments Threads LocalSteps Tokens Orders

variable {H W : Type} {cache : String → Option Content}
  {s s' : System H W} {h : H} {w : W} {i j : Nat}

/-- Between `shm_get_object(i)` and `munmap`. -/
def Attached (w : Worker) (i : Nat) : Prop := w.pc ≠ .idle ∧ w.pc ≠ .getObject ∧ w.segment = i

theorem enqueue_atRest (hinv : Inv s) (hpc : (s.handlers h).pc = .enqueue)
    (hsafe : ∀ w, ¬ Attached (s.workers w) (s.handlers h).segment) :
    AtRest s (s.handlers h).segment := by
  have hholds : Holds s h (s.handlers h).segment := ⟨by simp [holding, hpc], rfl⟩
  obtain ⟨_, _, informs, token, horder, hinforms, htoken⟩ :=
    hinv.inUse_of_asked hholds (by simp [asked, hpc])
  simp only [informed, hpc, handlerToken] at hinforms htoken
  cases horder with
  | queued => simp at hinforms
  | serving w hno hw hunique hpath =>
      refine absurd ⟨hw.1, ?_, hw.2⟩ (hsafe w)
      intro hget
      simp [Tokens.informs, hget] at hinforms
  | finished hno hnone =>
      refine ⟨⟨?_, ?_, ?_⟩, hno, hnone⟩
      · simpa using hinforms
      · simp [inTransit] at htoken; omega
      · simp [inTransit] at htoken; omega

section Proxy

variable [DecidableEq H]

theorem setHandler_readLen (hinv : Inv s) {x : Handler} (hx : 0 ≤ x.readLen) (h' : H) :
    0 ≤ ((s.setHandler h x).handlers h').readLen := by
  by_cases hh : h' = h
  · subst h'
    simpa [System.setHandler] using hx
  · simpa [System.setHandler, hh] using hinv.readLen h'

theorem handler_held {s₀ : System H W} {x : Handler} {h' : H} (hne : h' ≠ h)
    (hh' : Holds (s₀.setHandler h x) h' i) : Holds s₀ h' i := by
  simpa only [Holds, System.setHandler, Function.update_of_ne hne] using hh'

theorem request_inv (hinv : Inv s) {path : String}
    (hpc : (s.handlers h).pc = .returned ∨ (s.handlers h).pc = .failed) :
    Inv (s.setHandler h { pc := .pop, path := path }) := by
  refine ⟨hinv.poolNodup, hinv.requestsNodup, setHandler_readLen hinv (by simp), ?_⟩
  intro j
  have hsame : SameAt s (s.setHandler h { pc := .pop, path := path }) j := by
    refine same_of_handler (h := h) id (fun _ => .rfl) rfl ?_ rfl ?_ ?_
    · exact fun h' hh => Function.update_of_ne hh _ _
    · rintro ⟨hholding, _⟩
      rcases hpc with hpc | hpc <;> simp [holding, hpc] at hholding
    · rintro ⟨hholding, _⟩
      simp [System.setHandler, holding] at hholding
  exact hsame.segmentInv (hinv.segments j)

theorem pop_inv (hinv : Inv s) {pool : List Nat} (hpc : (s.handlers h).pc = .pop)
    (hpool : s.pool = i :: pool) :
    Inv { s.setHandler h { s.handlers h with segment := i, pc := .create } with pool := pool } := by
  have hnodup := hinv.poolNodup
  rw [hpool, List.nodup_cons] at hnodup
  refine ⟨hnodup.2, hinv.requestsNodup, setHandler_readLen hinv (hinv.readLen h), ?_⟩
  intro j
  by_cases hj : j = i
  · subst j
    obtain ⟨hno, hrest⟩ := hinv.free_of_pool (by rw [hpool]; exact List.mem_cons_self)
    refine .prepared h hnodup.1 ?_ ?_ ?_ ⟨hrest.1, hrest.2, hrest.3⟩
    · simp [Holds, System.setHandler, holding]
    · intro h' hh'
      by_contra hne
      exact hno h' (handler_held hne hh')
    · simp [System.setHandler, asked]
  · have hsame : SameAt s { s.setHandler h { s.handlers h with segment := i, pc := .create } with
        pool := pool } j := by
      refine same_of_handler (h := h) ?_ (fun _ => .rfl) rfl ?_ rfl ?_ ?_
      · intro hmem
        rw [hpool]
        exact List.mem_cons_of_mem i hmem
      · exact fun h' hh => Function.update_of_ne hh _ _
      · rintro ⟨hholding, _⟩
        simp [holding, hpc] at hholding
      · rintro ⟨_, hsegment⟩
        simp only [System.setHandler, Function.update_self] at hsegment
        exact hj hsegment.symm
    exact hsame.segmentInv (hinv.segments j)

theorem send_inv (hinv : Inv s) (hpc : (s.handlers h).pc = .send) :
    Inv { s.setHandler h { s.handlers h with pc := .waitLength } with
      messages := s.messages ++ [((s.handlers h).path, (s.handlers h).segment)] } := by
  have hholds : Holds s h (s.handlers h).segment := ⟨by simp [holding, hpc], rfl⟩
  obtain ⟨hpool, hunique, hrest⟩ := hinv.prepared_of_not_asked hholds (by simp [asked, hpc])
  refine ⟨hinv.poolNodup, ?_, setHandler_readLen hinv (hinv.readLen h), ?_⟩
  · have hnodup := hinv.requestsNodup
    have hnew := hrest.unrequested
    simp only [requests, System.setHandler, List.append_assoc, List.singleton_append, List.map_append,
      List.map_cons] at hnodup hnew ⊢
    exact List.nodup_middle.mpr (List.nodup_cons.mpr ⟨hnew, hnodup⟩)
  · intro j
    by_cases hj : j = (s.handlers h).segment
    · subst j
      refine .inUse h hpool ?_ ?_ ?_ ⟨0, 0, .queued ?_ hrest.unserved, ?_, ?_⟩
      · simp [Holds, System.setHandler, holding]
      · intro h' hh'
        by_contra hne
        exact hne (hunique h' (handler_held hne hh'))
      · simp [System.setHandler, asked]
      · simp [requests, System.setHandler]
      · simpa [System.setHandler, informed] using hrest.empty.1
      · simp [System.setHandler, handlerToken, inTransit, hrest.empty.2]
    · have hsame : SameAt s { s.setHandler h { s.handlers h with pc := .waitLength } with
          messages := s.messages ++ [((s.handlers h).path, (s.handlers h).segment)] } j := by
        refine same_of_handler (h := h) id ?_ rfl ?_ rfl ?_ ?_
        · intro path
          simp [requests, System.setHandler, hj]
        · exact fun h' hh => Function.update_of_ne hh _ _
        · exact fun hh => hj hh.2.symm
        · rintro ⟨_, hsegment⟩
          simp only [System.setHandler, Function.update_self] at hsegment
          exact hj hsegment.symm
      exact hsame.segmentInv (hinv.segments j)

theorem enqueue_inv (hinv : Inv s) (hpc : (s.handlers h).pc = .enqueue)
    (hsafe : ∀ w, ¬ Attached (s.workers w) (s.handlers h).segment) {pc : HandlerPc}
    (hpc' : pc = .sendNotFound ∨ pc = .returned) :
    Inv { s.setHandler h { s.handlers h with pc := pc } with
      pool := s.pool ++ [(s.handlers h).segment] } := by
  have hholds : Holds s h (s.handlers h).segment := ⟨by simp [holding, hpc], rfl⟩
  obtain ⟨hpool, hunique, _⟩ := hinv.inUse_of_asked hholds (by simp [asked, hpc])
  have hrest := enqueue_atRest hinv hpc hsafe
  have hfree : ∀ j, ¬ Holds { s.setHandler h { s.handlers h with pc := pc } with
      pool := s.pool ++ [(s.handlers h).segment] } h j := by
    rintro j ⟨hholding, _⟩
    rcases hpc' with rfl | rfl <;> simp [System.setHandler, holding] at hholding
  refine ⟨?_, hinv.requestsNodup, setHandler_readLen hinv (hinv.readLen h), ?_⟩
  · rw [List.nodup_append]
    refine ⟨hinv.poolNodup, List.nodup_singleton _, ?_⟩
    rintro i hi _ hmem rfl
    rw [List.mem_singleton.mp hmem] at hi
    exact hpool hi
  · intro j
    by_cases hj : j = (s.handlers h).segment
    · subst j
      refine .free ?_ ⟨hrest.1, hrest.2, hrest.3⟩
      intro h' hh'
      by_cases hne : h' = h
      · subst h'
        exact hfree _ hh'
      · exact hne (hunique h' (handler_held hne hh'))
    · have hsame : SameAt s { s.setHandler h { s.handlers h with pc := pc } with
          pool := s.pool ++ [(s.handlers h).segment] } j := by
        refine same_of_handler (h := h) ?_ (fun _ => .rfl) rfl ?_ rfl ?_ (hfree j)
        · simp [hj]
        · exact fun h' hh => Function.update_of_ne hh _ _
        · exact fun hh => hj hh.2.symm
      exact hsame.segmentInv (hinv.segments j)

theorem handler_same {x : Handler} {g : Segment} (hsegment : x.segment = (s.handlers h).segment)
    (hj : j ≠ (s.handlers h).segment) :
    SameAt s ((s.setSegment (s.handlers h).segment g).setHandler h x) j := by
  refine same_of_handler (h := h) id (fun _ => .rfl) ?_ ?_ rfl ?_ ?_
  · exact Function.update_of_ne hj _ _
  · exact fun h' hh => Function.update_of_ne hh _ _
  · exact fun hh => hj hh.2.symm
  · rintro ⟨_, heq⟩
    simp only [System.setHandler, Function.update_self] at heq
    exact hj (heq.symm.trans hsegment)

theorem handler_holds {x : Handler} {g : Segment}
    (hunique : ∀ h', Holds s h' (s.handlers h).segment → h' = h) (h' : H)
    (hh' : Holds ((s.setSegment (s.handlers h).segment g).setHandler h x) h' (s.handlers h).segment) :
    h' = h := by
  by_contra hne
  exact hne (hunique h' (handler_held hne hh'))

theorem asked_holding {x : Handler} (h : asked x) : holding x := by
  unfold asked at h
  unfold holding
  split at h <;> simp_all

theorem asked_inv (hinv : Inv s) {result : Int} {g : Segment} {x : Handler}
    (hasked : asked (s.handlers h))
    (hstep : handlerStep result (s.segments (s.handlers h).segment) (s.handlers h) = some (g, x)) :
    Inv ((s.setSegment (s.handlers h).segment g).setHandler h x) := by
  obtain ⟨hsegment, hpath, hasked', hlen, hinforms', htoken'⟩ :=
    handlerStep_tokens hasked (hinv.readLen h) hstep
  obtain ⟨hpool, hunique, informs, token, horder, hinforms, htoken⟩ :=
    hinv.inUse_of_asked ⟨asked_holding hasked, rfl⟩ hasked
  refine ⟨hinv.poolNodup, hinv.requestsNodup, setHandler_readLen hinv hlen, ?_⟩
  intro j
  by_cases hj : j = (s.handlers h).segment
  · subst j
    refine .inUse h hpool ?_ (handler_holds hunique) ?_ ⟨informs, token, ?_, ?_, ?_⟩
    · simp [Holds, System.setHandler, asked_holding hasked', hsegment]
    · simpa [System.setHandler] using hasked'
    · have hx : (((s.setSegment (s.handlers h).segment g).setHandler h x).handlers h).path =
          (s.handlers h).path := by
        simpa [System.setHandler] using hpath
      rw [hx]
      cases horder with
      | queued hmem hno => exact .queued hmem hno
      | serving w hno hw hsame hp => exact .serving w hno hw hsame hp
      | finished hno hnone => exact .finished hno hnone
    · simp only [System.setHandler, System.setSegment, Function.update_self]
      omega
    · simp only [System.setHandler, System.setSegment, Function.update_self]
      omega
  · exact (handler_same hsegment hj).segmentInv (hinv.segments j)

theorem create_inv (hinv : Inv s) (hpc : (s.handlers h).pc = .create) :
    Inv ((s.setSegment (s.handlers h).segment
      (s.segments (s.handlers h).segment).shmCreate).setHandler h
        { s.handlers h with pc := .send }) := by
  have hholds : Holds s h (s.handlers h).segment := ⟨by simp [holding, hpc], rfl⟩
  obtain ⟨hpool, hunique, hrest⟩ := hinv.prepared_of_not_asked hholds (by simp [asked, hpc])
  refine ⟨hinv.poolNodup, hinv.requestsNodup, setHandler_readLen hinv (hinv.readLen h), ?_⟩
  intro j
  by_cases hj : j = (s.handlers h).segment
  · subst j
    refine .prepared h hpool ?_ (handler_holds hunique) ?_ ⟨?_, hrest.2, hrest.3⟩
    · simp [Holds, System.setHandler, holding]
    · simp [System.setHandler, asked]
    · simpa [System.setHandler, System.setSegment] using shmCreate_empty _
  · have hsame : SameAt s ((s.setSegment (s.handlers h).segment
        (s.segments (s.handlers h).segment).shmCreate).setHandler h
          { s.handlers h with pc := .send }) j := handler_same rfl hj
    exact hsame.segmentInv (hinv.segments j)

theorem sendNotFound_inv (hinv : Inv s) (hpc : (s.handlers h).pc = .sendNotFound) {x : Handler}
    (hx : x.pc = .returned) (hlen : 0 ≤ x.readLen) :
    Inv ((s.setSegment (s.handlers h).segment (s.segments (s.handlers h).segment)).setHandler h x) := by
  rw [System.setSegment, Function.update_eq_self]
  refine ⟨hinv.poolNodup, hinv.requestsNodup, setHandler_readLen hinv hlen, ?_⟩
  intro j
  have hsame : SameAt s (s.setHandler h x) j := by
    refine same_of_handler (h := h) id (fun _ => .rfl) rfl ?_ rfl ?_ ?_
    · exact fun h' hh => Function.update_of_ne hh _ _
    · rintro ⟨hholding, _⟩
      simp [holding, hpc] at hholding
    · rintro ⟨hholding, _⟩
      simp [System.setHandler, holding, hx] at hholding
  exact hsame.segmentInv (hinv.segments j)

theorem handler_inv (hinv : Inv s) {result : Int} {g : Segment} {x : Handler}
    (hstep : handlerStep result (s.segments (s.handlers h).segment) (s.handlers h) = some (g, x)) :
    Inv ((s.setSegment (s.handlers h).segment g).setHandler h x) := by
  cases handlerStep_move hstep with
  | create hpc => exact create_inv hinv hpc
  | sendNotFound hpc => exact sendNotFound_inv hinv hpc rfl (hinv.readLen h)
  | _ => exact asked_inv hinv (by simp [asked, *]) hstep

end Proxy

theorem boss_inv (hinv : Inv s) {m : String × Nat} {messages : List (String × Nat)}
    (hmessages : s.messages = m :: messages) :
    Inv { s with messages := messages, work := s.work ++ [m] } := by
  have hperm : (messages ++ (s.work ++ [m])).Perm (requests s) := by
    rw [requests, hmessages, ← List.append_assoc]
    exact List.perm_append_singleton m _
  refine ⟨hinv.poolNodup, ?_, hinv.readLen, ?_⟩
  · exact (hperm.map Prod.snd).nodup_iff.mpr hinv.requestsNodup
  · intro j
    have hsame : SameAt s { s with messages := messages, work := s.work ++ [m] } j :=
      ⟨id, fun _ => hperm.mem_iff, rfl, fun _ _ => rfl, fun _ _ => rfl⟩
    exact hsame.segmentInv (hinv.segments j)

section Daemon

variable [DecidableEq W]

theorem worker_serves {s₀ : System H W} {x : Worker} {w' : W} (hw : w' ≠ w)
    (h : Serving (s₀.setWorker w x) w' i) : Serving s₀ w' i := by
  simpa only [Serving, System.setWorker, Function.update_of_ne hw] using h

/-- A worker takes the oldest request, which is the only one for its segment. -/
theorem take_inv (hinv : Inv s) {m : String × Nat} {work : List (String × Nat)}
    (hpc : (s.workers w).pc = .idle) (hwork : s.work = m :: work) :
    Inv { s.setWorker w { pc := .getObject, path := m.1, segment := m.2 } with work := work } := by
  have hidle : ∀ j, ¬ Serving s w j := fun j hw => hw.1 hpc
  have hmem : m ∈ requests s := by simp [requests, hwork]
  have hnodup := hinv.requestsNodup
  have hrest : m.2 ∉ (s.messages ++ work).map Prod.snd ∧ ((s.messages ++ work).map Prod.snd).Nodup := by
    rw [requests, hwork, List.map_append, List.map_cons, List.nodup_middle] at hnodup
    rw [List.map_append]
    exact List.nodup_cons.mp hnodup
  refine ⟨hinv.poolNodup, hrest.2, hinv.readLen, ?_⟩
  intro j
  by_cases hj : j = m.2
  · subst j
    obtain ⟨h, hpool, hholds, hunique, hasked, a, b, horder, hinforms, htoken⟩ :=
      hinv.inUse_of_order (w := w) (.inl (List.mem_map_of_mem hmem))
    cases horder with
    | serving _ hno => exact absurd (List.mem_map_of_mem hmem) hno
    | finished hno => exact absurd (List.mem_map_of_mem hmem) hno
    | queued hrequest hno =>
        have hpath : m.1 = (s.handlers h).path :=
          congrArg Prod.fst (List.inj_on_of_nodup_map hnodup hmem hrequest rfl)
        have hserving : Serving { s.setWorker w { pc := .getObject, path := m.1, segment := m.2 } with
            work := work } w m.2 := by
          simp [Serving, System.setWorker]
        refine .inUse h hpool hholds hunique hasked ⟨0, 0, ?_, hinforms, htoken⟩
        have hsole : ∀ w', Serving { s.setWorker w { pc := .getObject, path := m.1, segment := m.2 } with
            work := work } w' m.2 → w' = w := by
          intro w' hw'
          by_contra hne
          exact hno w' (worker_serves hne hw')
        have hpath' : ({ s.setWorker w { pc := .getObject, path := m.1, segment := m.2 } with
            work := work }.workers w).path = (s.handlers h).path := by
          simpa [System.setWorker] using hpath
        have htaken := Order.serving w hrest.1 hserving hsole hpath'
        simpa [System.setWorker, Tokens.informs, workerToken] using htaken
  · have hsame : SameAt s { s.setWorker w { pc := .getObject, path := m.1, segment := m.2 } with
        work := work } j := by
      refine same_of_worker (w := w) rfl ?_ rfl rfl ?_ (hidle j) ?_
      · intro path
        have hne : (path, j) ≠ m := fun heq => hj (congrArg Prod.snd heq)
        simp [requests, System.setWorker, hwork, hne]
      · exact fun w' hw => Function.update_of_ne hw _ _
      · rintro ⟨_, hsegment⟩
        simp only [System.setWorker, Function.update_self] at hsegment
        exact hj hsegment.symm
    exact hsame.segmentInv (hinv.segments j)

theorem worker_inv (hinv : Inv s) {g : Segment} {x : Worker}
    (hstep : workerStep cache (s.segments (s.workers w).segment) (s.workers w) = some (g, x)) :
    Inv ((s.setSegment (s.workers w).segment g).setWorker w x) := by
  have hbusy : (s.workers w).pc ≠ .idle := by
    intro hpc
    simp [workerStep, hpc] at hstep
  obtain ⟨hsegment, hpath, hidle, htokens⟩ := workerStep_tokens hstep
  have hserving : Serving s w (s.workers w).segment := ⟨hbusy, rfl⟩
  refine ⟨hinv.poolNodup, hinv.requestsNodup, hinv.readLen, ?_⟩
  intro j
  by_cases hj : j = (s.workers w).segment
  · subst j
    obtain ⟨h, hpool, hholds, hunique, hasked, a, b, horder, hinforms, htoken⟩ :=
      hinv.inUse_of_order (.inr hserving)
    cases horder with
    | queued _ hno => exact absurd hserving (hno w)
    | finished _ hno => exact absurd hserving (hno w)
    | serving w' hno hw' hsole hp =>
        have hw := hsole w hserving
        subst w'
        by_cases hx : x.pc = .idle
        · obtain ⟨hunmap, rfl⟩ := hidle hx
          refine .inUse h hpool hholds hunique hasked ⟨1, 0, .finished hno ?_, ?_, ?_⟩
          · intro w' hw'
            by_cases hne : w' = w
            · subst w'
              simp [Serving, System.setWorker, hx] at hw'
            · exact hne (hsole w' (worker_serves hne hw'))
          · simpa [System.setWorker, System.setSegment, Tokens.informs, hunmap] using hinforms
          · simpa [System.setWorker, System.setSegment, workerToken, hunmap] using htoken
        · obtain ⟨hsemSegment, htransit⟩ := htokens hx
          have horder : Order ((s.setSegment (s.workers w).segment g).setWorker w x)
              (s.workers w).segment (s.handlers h).path (Tokens.informs x) (workerToken x) := by
            have hserving' : Serving ((s.setSegment (s.workers w).segment g).setWorker w x) w
                (s.workers w).segment := by
              simp [Serving, System.setWorker, hx, hsegment]
            have hsole' : ∀ w', Serving ((s.setSegment (s.workers w).segment g).setWorker w x) w'
                (s.workers w).segment → w' = w := by
              intro w' hw'
              by_contra hne
              exact hne (hsole w' (worker_serves hne hw'))
            have hpath' : (((s.setSegment (s.workers w).segment g).setWorker w x).workers w).path =
                (s.handlers h).path := by
              simp [System.setWorker, hpath, hp]
            have hserved := Order.serving (s := (s.setSegment (s.workers w).segment g).setWorker w x) w hno
              hserving' hsole' hpath'
            simpa [System.setWorker] using hserved
          refine .inUse h hpool hholds hunique hasked ⟨_, _, horder, ?_, ?_⟩
          · simp only [System.setWorker, System.setSegment, Function.update_self]
            omega
          · simp only [System.setWorker, System.setSegment, Function.update_self]
            omega
  · have hsame : SameAt s ((s.setSegment (s.workers w).segment g).setWorker w x) j := by
      refine same_of_worker (w := w) rfl (fun _ => .rfl) ?_ rfl ?_ (fun hw => hj hw.2.symm) ?_
      · exact Function.update_of_ne hj _ _
      · exact fun w' hw => Function.update_of_ne hw _ _
      · rintro ⟨_, heq⟩
        simp only [System.setWorker, Function.update_self] at heq
        exact hj (heq.symm.trans hsegment)
    exact hsame.segmentInv (hinv.segments j)

end Daemon

theorem start_inv (nsegments : Nat) (garbage : Nat → Segment) :
    Inv (start nsegments garbage : System H W) where
  poolNodup := List.nodup_range
  requestsNodup := List.nodup_nil
  readLen _ := Int.le_refl 0
  segments i := by
    refine .free ?_ ⟨shmCreate_empty _, List.not_mem_nil, ?_⟩
    · rintro h ⟨hholding, _⟩
      simp [start, holding] at hholding
    · exact fun w hw => hw.1 rfl

end GraduateOS.Shm.OrderSteps
