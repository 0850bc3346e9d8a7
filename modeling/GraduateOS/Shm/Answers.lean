import GraduateOS.Shm.Orders
import Mathlib.Data.List.Nodup

namespace GraduateOS.Shm.Answers

open Segments Threads LocalSteps Tokens Orders Library.MachineInts

/-- What the worker writes for a path: the low 32 bits of the size, and 0 for an absent file. -/
def answer (cache : String → Option Content) (path : String) : Int :=
  match cache path with
  | none => 0
  | some file => toInt32 file.length

def reported (cache : String → Option Content) (path : String) : Status × Nat :=
  if toUInt64 (answer cache path) = 0 then (.fileNotFound, 0)
  else (.ok, toUInt64 (answer cache path))

def Knows (cache : String → Option Content) (h : Handler) : Prop :=
  h.fileLen = toUInt64 (answer cache h.path)

def HandlerAnswer (cache : String → Option Content) (g : Segment) (h : Handler) : Prop :=
  match h.pc with
  | .pop | .create => h.header = none
  | .send => h.header = none ∧ g.semSegment = 0
  | .waitLength =>
      h.header = none ∧ (g.semSegment ≠ 0 → g.semSegment = 1 ∧ g.fileLength = answer cache h.path)
  | .readLength => h.header = none ∧ g.fileLength = answer cache h.path
  | .header => h.header = none ∧ h.fileLen ≠ 0 ∧ Knows cache h
  | .loop | .waitReader | .readData | .postWriter | .gfsSend | .failed =>
      h.header = some (.ok, h.fileLen) ∧ h.fileLen ≠ 0 ∧ Knows cache h
  | .unmap | .enqueue =>
      h.header = (if h.fileLen = 0 then none else some (.ok, h.fileLen)) ∧ Knows cache h
  | .sendNotFound => h.header = none ∧ h.fileLen = 0 ∧ Knows cache h
  | .returned => h.header = none ∨ h.header = some (reported cache h.path)

def unanswered (w : Worker) : Bool :=
  match w.pc with
  | .getObject | .lookup | .writeLength | .postLength => true
  | _ => false

def WorkerAnswer (cache : String → Option Content) (g : Segment) (w : Worker) : Prop :=
  match w.pc with
  | .writeLength => w.fileLen = answer cache w.path
  | .postLength => w.fileLen = answer cache w.path ∧ g.fileLength = w.fileLen
  | _ => True

variable {cache : String → Option Content} {g g' : Segment} {x x' : Handler} {y y' : Worker}

/-- Only between `shm_create` and its read of the length a handler looks at what others may write. -/
theorem HandlerAnswer.congr (h : HandlerAnswer cache g x)
    (hsame : holding x → g'.semSegment = g.semSegment ∧ g'.fileLength = g.fileLength) :
    HandlerAnswer cache g' x := by
  cases hpc : x.pc with
  | send | waitLength | readLength =>
      obtain ⟨hsegment, hlength⟩ := hsame (by simp [holding, hpc])
      simpa only [HandlerAnswer, hpc, hsegment, hlength] using h
  | _ => simpa only [HandlerAnswer, hpc] using h

theorem WorkerAnswer.congr (h : WorkerAnswer cache g y)
    (hsame : unanswered y → g'.fileLength = g.fileLength) : WorkerAnswer cache g' y := by
  cases hpc : y.pc with
  | postLength =>
      have hlength := hsame (by simp [unanswered, hpc])
      simpa only [WorkerAnswer, hpc, hlength] using h
  | writeLength => simpa only [WorkerAnswer, hpc] using h
  | _ => simp only [WorkerAnswer, hpc]

theorem wait_segment (hwait : g.wait .segment = some g') :
    g.semSegment ≠ 0 ∧ g'.fileLength = g.fileLength := by
  obtain ⟨hvalue, _, hlength, _⟩ := wait_value hwait
  simp only [Segment.value] at hvalue
  exact ⟨by omega, hlength⟩

theorem handlerStep_answer {result : Int} (hx : HandlerAnswer cache g x)
    (hstep : handlerStep result g x = some (g', x')) :
    HandlerAnswer cache g' x' ∧ x'.segment = x.segment ∧ x'.path = x.path ∧
      (x.pc = .waitLength → g.semSegment ≠ 0) ∧ (holding x ∨ g' = g ∧ ¬ holding x') := by
  cases handlerStep_move hstep with
  | create hpc =>
      simp only [HandlerAnswer, hpc] at hx
      exact ⟨⟨hx, rfl⟩, rfl, rfl, by simp [hpc], by simp [holding, hpc]⟩
  | waitLength hpc hwait =>
      obtain ⟨hposted, hlength⟩ := wait_segment hwait
      simp only [HandlerAnswer, hpc] at hx
      exact ⟨⟨hx.1, hlength.trans (hx.2 hposted).2⟩, rfl, rfl, fun _ => hposted, by simp [holding, hpc]⟩
  | noLength hpc hzero =>
      simp only [HandlerAnswer, hpc] at hx
      rw [hx.2] at hzero
      exact ⟨⟨hx.1, hzero.symm⟩, rfl, rfl, by simp [hpc], by simp [holding, hpc]⟩
  | readLength hpc hlength =>
      simp only [HandlerAnswer, hpc] at hx
      rw [hx.2] at hlength ⊢
      exact ⟨⟨hx.1, hlength, rfl⟩, rfl, rfl, by simp [hpc], by simp [holding, hpc]⟩
  | header hpc =>
      simp only [HandlerAnswer, hpc] at hx
      exact ⟨⟨rfl, hx.2.1, hx.2.2⟩, rfl, rfl, by simp [hpc], by simp [holding, hpc]⟩
  | done hpc =>
      simp only [HandlerAnswer, hpc] at hx
      exact ⟨⟨by rw [if_neg hx.2.1]; exact hx.1, hx.2.2⟩, rfl, rfl, by simp [hpc], by simp [holding, hpc]⟩
  | more hpc | waitReader hpc | readData hpc | readError hpc | postWriter hpc | gfsSend hpc | unmap hpc =>
      simp only [HandlerAnswer, hpc] at hx
      exact ⟨hx, rfl, rfl, by simp [hpc], by simp [holding, hpc]⟩
  | sendNotFound hpc =>
      simp only [HandlerAnswer, hpc] at hx
      obtain ⟨_, hzero, hknows⟩ := hx
      refine ⟨.inr ?_, rfl, rfl, by simp [hpc], .inr ⟨rfl, by simp [holding]⟩⟩
      rw [Knows, hzero] at hknows
      rw [reported, if_pos hknows.symm, hzero]

/-- A worker writes and posts the answer to its request, and then never touches
the length or `semSegment` again. -/
theorem workerStep_answer (hy : WorkerAnswer cache g y) (hstep : workerStep cache g y = some (g', y')) :
    WorkerAnswer cache g' y' ∧ y'.segment = y.segment ∧ y'.path = y.path ∧
      (unanswered y' → unanswered y ∧ g'.semSegment = g.semSegment) ∧
      (¬ unanswered y → g'.semSegment = g.semSegment ∧ g'.fileLength = g.fileLength) ∧
      (unanswered y → ¬ unanswered y' →
        g'.semSegment = g.semSegment + 1 ∧ g'.fileLength = answer cache y.path) := by
  cases workerStep_move hstep with
  | getObject hpc => simp [WorkerAnswer, unanswered, hpc]
  | absent hpc habsent => simp [WorkerAnswer, unanswered, hpc, answer, habsent]
  | found hpc hfound => simp [WorkerAnswer, unanswered, hpc, answer, hfound]
  | writeLength hpc =>
      simp only [WorkerAnswer, hpc] at hy
      simp [WorkerAnswer, unanswered, hpc, hy, Segment.shmWriteFileLength]
  | postAbsent hpc | postLength hpc =>
      simp only [WorkerAnswer, hpc] at hy
      simp [WorkerAnswer, unanswered, hpc, hy, Segment.post]
  | waitWriter hpc hwait =>
      obtain ⟨_, hothers, hlength, _⟩ := wait_value hwait
      have hsegment := hothers .segment (by simp)
      simp only [Segment.value] at hsegment
      simp [WorkerAnswer, unanswered, hpc, hsegment, hlength]
  | _ => simp_all [WorkerAnswer, unanswered, Segment.clearData, Segment.copyData, Segment.post]

variable {H W : Type}

def Answering (s : System H W) (w : W) (i : Nat) : Prop :=
  unanswered (s.workers w) ∧ (s.workers w).segment = i

def Waiting (s : System H W) (h : H) (path : String) (i : Nat) : Prop :=
  (s.handlers h).pc = .waitLength ∧ (s.handlers h).segment = i ∧ (s.handlers h).path = path

structure Inv (cache : String → Option Content) (s : System H W) : Prop where
  poolNodup : s.pool.Nodup
  exclusive : ∀ h i, Holds s h i → i ∉ s.pool ∧ ∀ h', Holds s h' i → h' = h
  once : ((requests s).map Prod.snd).Nodup
  oneWorker : ∀ w i, Answering s w i → i ∉ (requests s).map Prod.snd ∧ ∀ w', Answering s w' i → w' = w
  requested : ∀ path i, (path, i) ∈ requests s →
    (s.segments i).semSegment = 0 ∧ ∃ h, Waiting s h path i
  answering : ∀ w i, Answering s w i →
    (s.segments i).semSegment = 0 ∧ ∃ h, Waiting s h (s.workers w).path i
  handlers : ∀ h, HandlerAnswer cache (s.segments (s.handlers h).segment) (s.handlers h)
  workers : ∀ w, WorkerAnswer cache (s.segments (s.workers w).segment) (s.workers w)

variable {s s' : System H W} {h : H} {w : W} {i j : Nat} {path : String}

theorem Waiting.holds (hwaiting : Waiting s h path i) : Holds s h i :=
  ⟨by simp [holding, hwaiting.1], hwaiting.2.1⟩

theorem not_holds (hpc : holding (s.handlers h) = false) (i : Nat) : ¬ Holds s h i := by
  rintro ⟨hholding, _⟩
  rw [hpc] at hholding
  cases hholding

theorem Inv.settled (hinv : Inv cache s) (hholds : Holds s h i)
    (hmoves : (s.handlers h).pc = .waitLength → (s.segments i).semSegment ≠ 0) :
    i ∉ (requests s).map Prod.snd ∧ ∀ w, ¬ Answering s w i := by
  constructor
  · rw [not_requested]
    intro path hmem
    obtain ⟨hzero, h', hwaiting⟩ := hinv.requested path i hmem
    have hh := (hinv.exclusive h i hholds).2 h' hwaiting.holds
    subst h'
    exact hmoves hwaiting.1 hzero
  · intro w hanswering
    obtain ⟨hzero, h', hwaiting⟩ := hinv.answering w i hanswering
    have hh := (hinv.exclusive h i hholds).2 h' hwaiting.holds
    subst h'
    exact hmoves hwaiting.1 hzero

/-- The handler sends the request for a segment for which nothing is requested. -/
theorem Inv.addRequest (hinv : Inv cache s) (hwaiting : Waiting s h path i)
    (hzero : (s.segments i).semSegment = 0) (hnew : i ∉ (requests s).map Prod.snd)
    (hfree : ∀ w, ¬ Answering s w i) : Inv cache { s with messages := s.messages ++ [(path, i)] } := by
  have hperm : (s.messages ++ [(path, i)] ++ s.work).Perm ((path, i) :: requests s) := by
    rw [List.append_assoc, List.singleton_append]
    exact List.perm_middle
  refine ⟨hinv.poolNodup, hinv.exclusive, ?_, ?_, ?_, hinv.answering, hinv.handlers, hinv.workers⟩
  · refine (hperm.map Prod.snd).nodup_iff.mpr ?_
    exact List.nodup_cons.mpr ⟨hnew, hinv.once⟩
  · intro w j hanswering
    obtain ⟨hout, hunique⟩ := hinv.oneWorker w j hanswering
    refine ⟨?_, hunique⟩
    intro hmem
    rcases List.mem_cons.mp ((hperm.map Prod.snd).mem_iff.mp hmem) with rfl | hmem
    · exact hfree w hanswering
    · exact hout hmem
  · intro path' j hmem
    rcases List.mem_cons.mp (hperm.mem_iff.mp hmem) with hnew' | hold
    · cases hnew'
      exact ⟨hzero, h, hwaiting⟩
    · exact hinv.requested path' j hold

section Proxy

variable [DecidableEq H]

theorem setHandler_forall {P : H → Handler → Prop} {x : Handler} (hx : P h x)
    (hothers : ∀ h', h' ≠ h → P h' (s.handlers h')) (h' : H) : P h' ((s.setHandler h x).handlers h') := by
  by_cases hh : h' = h
  · subst h'
    simpa [System.setHandler] using hx
  · simpa [System.setHandler, hh] using hothers h' hh

/-- A step of a handler at its own segment, or between the pool and its segment. -/
theorem Inv.moveHandler (hinv : Inv cache s) {x : Handler} {pool : List Nat} {segments : Nat → Segment}
    (hmoves : (s.handlers h).pc = .waitLength → (s.segments (s.handlers h).segment).semSegment ≠ 0)
    (hnodup : pool.Nodup) (hothers : ∀ h' i, h' ≠ h → Holds s h' i → i ∉ pool)
    (hmine : holding x → x.segment ∉ pool ∧ ∀ h', h' ≠ h → ¬ Holds s h' x.segment)
    (hsegments : ∀ j, ¬ Holds s h j → segments j = s.segments j)
    (hx : HandlerAnswer cache (segments x.segment) x) :
    Inv cache { s.setHandler h x with pool := pool, segments := segments } := by
  have hkeep : ∀ path i, (s.segments i).semSegment = 0 ∧ (∃ h', Waiting s h' path i) →
      (segments i).semSegment = 0 ∧
        ∃ h', Waiting { s.setHandler h x with pool := pool, segments := segments } h' path i := by
    rintro path i ⟨hzero, h', hwaiting⟩
    have hne : h' ≠ h := by
      rintro rfl
      rw [← hwaiting.2.1] at hzero
      exact hmoves hwaiting.1 hzero
    have hsame : segments i = s.segments i := by
      refine hsegments i (fun hholds => hne ?_)
      exact (hinv.exclusive h i hholds).2 h' hwaiting.holds
    refine ⟨by rw [hsame]; exact hzero, h', ?_⟩
    simpa only [Waiting, System.setHandler, Function.update_of_ne hne] using hwaiting
  refine ⟨hnodup, ?_, hinv.once, hinv.oneWorker, ?_, ?_, ?_, ?_⟩
  · apply setHandler_forall (P := fun h₁ x₁ => ∀ i, holding x₁ ∧ x₁.segment = i →
      i ∉ pool ∧ ∀ h₂, Holds (s.setHandler h x) h₂ i → h₂ = h₁)
    · rintro _ ⟨hholding, rfl⟩
      refine ⟨(hmine hholding).1, ?_⟩
      apply setHandler_forall (P := fun h₂ x₂ => holding x₂ ∧ x₂.segment = x.segment → h₂ = h)
      · exact fun _ => rfl
      · exact fun h₂ hh₂ hholds => absurd hholds ((hmine hholding).2 h₂ hh₂)
    · intro h₁ hh₁ i hholds
      refine ⟨hothers h₁ i hh₁ hholds, ?_⟩
      apply setHandler_forall (P := fun h₂ x₂ => holding x₂ ∧ x₂.segment = i → h₂ = h₁)
      · rintro ⟨hholding, rfl⟩
        exact absurd hholds ((hmine hholding).2 h₁ hh₁)
      · exact fun h₂ _ hholds₂ => (hinv.exclusive h₁ i hholds).2 h₂ hholds₂
  · exact fun path i hmem => hkeep path i (hinv.requested path i hmem)
  · exact fun w i hanswering => hkeep _ i (hinv.answering w i hanswering)
  · apply setHandler_forall (P := fun h₁ x₁ => HandlerAnswer cache (segments x₁.segment) x₁) hx
    intro h₁ hh₁
    refine (hinv.handlers h₁).congr (fun hholding => ?_)
    have hsame : segments (s.handlers h₁).segment = s.segments (s.handlers h₁).segment := by
      refine hsegments _ (fun hholds => hh₁ ?_)
      exact (hinv.exclusive h _ hholds).2 h₁ ⟨hholding, rfl⟩
    rw [hsame]
    exact ⟨rfl, rfl⟩
  · intro w
    refine (hinv.workers w).congr (fun hunanswered => ?_)
    refine congrArg Segment.fileLength (hsegments _ (fun hholds => ?_))
    refine (hinv.settled hholds ?_).2 w ⟨hunanswered, rfl⟩
    rw [← hholds.2]
    exact hmoves

/-- A step that takes no segment. -/
theorem Inv.keepPool (hinv : Inv cache s) {x : Handler} {segments : Nat → Segment}
    (hmoves : (s.handlers h).pc = .waitLength → (s.segments (s.handlers h).segment).semSegment ≠ 0)
    (hmine : holding x → holding (s.handlers h) ∧ x.segment = (s.handlers h).segment)
    (hsegments : ∀ j, ¬ Holds s h j → segments j = s.segments j)
    (hx : HandlerAnswer cache (segments x.segment) x) :
    Inv cache { s.setHandler h x with pool := s.pool, segments := segments } := by
  refine hinv.moveHandler hmoves hinv.poolNodup ?_ ?_ hsegments hx
  · exact fun h' i _ hholds => (hinv.exclusive h' i hholds).1
  · intro hholding
    obtain ⟨hbefore, hsegment⟩ := hmine hholding
    obtain ⟨hout, hunique⟩ := hinv.exclusive h _ ⟨hbefore, rfl⟩
    rw [hsegment]
    exact ⟨hout, fun h' hne hholds => hne (hunique h' hholds)⟩

theorem Inv.pop (hinv : Inv cache s) {pool : List Nat} (hpc : (s.handlers h).pc = .pop)
    (hpool : s.pool = i :: pool) :
    Inv cache { s.setHandler h { s.handlers h with segment := i, pc := .create } with pool := pool } := by
  have hnodup := hinv.poolNodup
  have hold := hinv.handlers h
  rw [hpool, List.nodup_cons] at hnodup
  simp only [HandlerAnswer, hpc] at hold
  have hout : ∀ h' j, Holds s h' j → j ∉ i :: pool := by
    intro h' j hholds
    rw [← hpool]
    exact (hinv.exclusive h' j hholds).1
  refine hinv.moveHandler (by simp [hpc]) hnodup.2 ?_ ?_ (fun _ _ => rfl) hold
  · exact fun h' j _ hholds hmem => hout h' j hholds (List.mem_cons_of_mem _ hmem)
  · exact fun _ => ⟨hnodup.1, fun h' _ hholds => hout h' i hholds List.mem_cons_self⟩

theorem Inv.send (hinv : Inv cache s) (hpc : (s.handlers h).pc = .send) :
    Inv cache { s.setHandler h { s.handlers h with pc := .waitLength } with
      messages := s.messages ++ [((s.handlers h).path, (s.handlers h).segment)] } := by
  have hholds : Holds s h (s.handlers h).segment := ⟨by simp [holding, hpc], rfl⟩
  obtain ⟨hnew, hfree⟩ := hinv.settled hholds (by simp [hpc])
  have hold := hinv.handlers h
  simp only [HandlerAnswer, hpc] at hold
  have hmoved : Inv cache { s.setHandler h { s.handlers h with pc := .waitLength } with
      pool := s.pool, segments := s.segments } := by
    refine hinv.keepPool (by simp [hpc]) (fun _ => ⟨hholds.1, rfl⟩) (fun _ _ => rfl) ?_
    exact ⟨hold.1, fun hposted => absurd hold.2 hposted⟩
  refine hmoved.addRequest (h := h) ?_ hold.2 hnew hfree
  exact ⟨by simp [System.setHandler], by simp [System.setHandler], by simp [System.setHandler]⟩

theorem Inv.enqueue (hinv : Inv cache s) (hpc : (s.handlers h).pc = .enqueue) :
    Inv cache { s.setHandler h { s.handlers h with
        pc := if (s.handlers h).fileLen = 0 then .sendNotFound else .returned } with
      pool := s.pool ++ [(s.handlers h).segment] } := by
  have hholds : Holds s h (s.handlers h).segment := ⟨by simp [holding, hpc], rfl⟩
  obtain ⟨hout, hunique⟩ := hinv.exclusive h _ hholds
  have hold := hinv.handlers h
  simp only [HandlerAnswer, hpc] at hold
  refine hinv.moveHandler (by simp [hpc]) ?_ ?_ ?_ (fun _ _ => rfl) ?_
  · exact hinv.poolNodup.append (List.nodup_singleton _) (List.disjoint_singleton.mpr hout)
  · intro h' i hne hholds' hmem
    rcases List.mem_append.mp hmem with hmem | hmem
    · exact (hinv.exclusive h' i hholds').1 hmem
    · rw [List.mem_singleton.mp hmem] at hholds'
      exact hne (hunique h' hholds')
  · split <;> simp [holding]
  · split
    next hzero =>
      rw [if_pos hzero] at hold
      exact ⟨hold.1, hzero, hold.2⟩
    next hlength =>
      rw [if_neg hlength] at hold
      refine .inr ?_
      rw [reported, ← hold.2, if_neg hlength]
      exact hold.1

theorem Inv.handler (hinv : Inv cache s) {result : Int} {x : Handler}
    (hlocal : handlerStep result (s.segments (s.handlers h).segment) (s.handlers h) = some (g, x)) :
    Inv cache ((s.setSegment (s.handlers h).segment g).setHandler h x) := by
  obtain ⟨hx, hsegment, _, hmoves, hquiet⟩ := handlerStep_answer (hinv.handlers h) hlocal
  have hsegments : ∀ j, ¬ Holds s h j → (s.setSegment (s.handlers h).segment g).segments j = s.segments j := by
    intro j hholds
    by_cases hj : j = (s.handlers h).segment
    · subst j
      rcases hquiet with hholding | ⟨rfl, _⟩
      · exact absurd ⟨hholding, rfl⟩ hholds
      · simp [System.setSegment]
    · simp [System.setSegment, hj]
  refine hinv.keepPool hmoves ?_ hsegments ?_
  · exact fun hholding => ⟨hquiet.resolve_right (fun hno => hno.2 hholding), hsegment⟩
  · rw [hsegment]
    simpa [System.setSegment] using hx

end Proxy

section Daemon

variable [DecidableEq W]

theorem setWorker_forall {P : W → Worker → Prop} {y : Worker} (hy : P w y)
    (hothers : ∀ w', w' ≠ w → P w' (s.workers w')) (w' : W) : P w' ((s.setWorker w y).workers w') := by
  by_cases hw : w' = w
  · subst w'
    simpa [System.setWorker] using hy
  · simpa [System.setWorker, hw] using hothers w' hw

theorem Inv.moveWorker (hinv : Inv cache s) {y : Worker} {segments : Nat → Segment}
    (hsegments : ∀ j, ¬ Answering s w j →
      (segments j).semSegment = (s.segments j).semSegment ∧ (segments j).fileLength = (s.segments j).fileLength)
    (hgoes : unanswered y → Answering s w y.segment ∧ y.path = (s.workers w).path ∧
      (segments y.segment).semSegment = 0)
    (hholder : ∀ h j, Answering s w j → Waiting s h (s.workers w).path j →
      HandlerAnswer cache (segments j) (s.handlers h))
    (hy : WorkerAnswer cache (segments y.segment) y) :
    Inv cache { s.setWorker w y with segments := segments } := by
  refine ⟨hinv.poolNodup, hinv.exclusive, hinv.once, ?_, ?_, ?_, ?_, ?_⟩
  · apply setWorker_forall (P := fun w₁ y₁ => ∀ i, unanswered y₁ ∧ y₁.segment = i →
      i ∉ (requests s).map Prod.snd ∧ ∀ w₂, Answering (s.setWorker w y) w₂ i → w₂ = w₁)
    · rintro _ ⟨hunanswered, rfl⟩
      obtain ⟨hout, hunique⟩ := hinv.oneWorker w _ (hgoes hunanswered).1
      refine ⟨hout, ?_⟩
      apply setWorker_forall (P := fun w₂ y₂ => unanswered y₂ ∧ y₂.segment = y.segment → w₂ = w)
      · exact fun _ => rfl
      · exact fun w₂ _ => hunique w₂
    · intro w₁ hw₁ i hanswering
      obtain ⟨hout, hunique⟩ := hinv.oneWorker w₁ i hanswering
      refine ⟨hout, ?_⟩
      apply setWorker_forall (P := fun w₂ y₂ => unanswered y₂ ∧ y₂.segment = i → w₂ = w₁)
      · rintro ⟨hunanswered, rfl⟩
        exact hunique w (hgoes hunanswered).1
      · exact fun w₂ _ => hunique w₂
  · intro path i hmem
    obtain ⟨hzero, hwaits⟩ := hinv.requested path i hmem
    refine ⟨?_, hwaits⟩
    rw [← hzero]
    refine (hsegments i (fun hanswering => ?_)).1
    exact (hinv.oneWorker w i hanswering).1 (List.mem_map_of_mem hmem)
  · apply setWorker_forall (P := fun w₁ y₁ => ∀ i, unanswered y₁ ∧ y₁.segment = i →
      (segments i).semSegment = 0 ∧ ∃ h, Waiting s h y₁.path i)
    · rintro _ ⟨hunanswered, rfl⟩
      obtain ⟨hanswering, hpath, hzero⟩ := hgoes hunanswered
      rw [hpath]
      exact ⟨hzero, (hinv.answering w _ hanswering).2⟩
    · intro w₁ hw₁ i hanswering
      obtain ⟨hzero, hwaits⟩ := hinv.answering w₁ i hanswering
      refine ⟨?_, hwaits⟩
      rw [← hzero]
      refine (hsegments i (fun hanswering' => hw₁ ?_)).1
      exact (hinv.oneWorker w i hanswering').2 w₁ hanswering
  · intro h
    by_cases hanswering : Answering s w (s.handlers h).segment
    · by_cases hholding : holding (s.handlers h)
      · obtain ⟨_, h', hwaiting⟩ := hinv.answering w _ hanswering
        have hh := (hinv.exclusive h' _ hwaiting.holds).2 h ⟨hholding, rfl⟩
        subst h
        exact hholder h' _ hanswering hwaiting
      · exact (hinv.handlers h).congr (fun hholds => absurd hholds hholding)
    · exact (hinv.handlers h).congr (fun _ => hsegments _ hanswering)
  · apply setWorker_forall (P := fun _ y₁ => WorkerAnswer cache (segments y₁.segment) y₁) hy
    intro w₁ hw₁
    refine (hinv.workers w₁).congr (fun hunanswered => ?_)
    refine (hsegments _ (fun hanswering => hw₁ ?_)).2
    exact (hinv.oneWorker w _ hanswering).2 w₁ ⟨hunanswered, rfl⟩

theorem Inv.take (hinv : Inv cache s) {m : String × Nat} {work : List (String × Nat)}
    (hwork : s.work = m :: work) :
    Inv cache { s.setWorker w { pc := .getObject, path := m.1, segment := m.2 } with work := work } := by
  have hperm : (requests s).Perm (m :: (s.messages ++ work)) := by
    rw [requests, hwork]
    exact List.perm_middle
  have honce := (hperm.map Prod.snd).nodup_iff.mp hinv.once
  rw [List.map_cons, List.nodup_cons] at honce
  obtain ⟨hzero, hwaits⟩ := hinv.requested m.1 m.2 (hperm.mem_iff.mpr List.mem_cons_self)
  have hold : ∀ j, j ∈ (s.messages ++ work).map Prod.snd → j ∈ (requests s).map Prod.snd :=
    fun j hj => (hperm.map Prod.snd).mem_iff.mpr (List.mem_cons_of_mem _ hj)
  have hfree : ∀ w', ¬ Answering s w' m.2 := fun w' hanswering =>
    (hinv.oneWorker w' _ hanswering).1 ((hperm.map Prod.snd).mem_iff.mpr List.mem_cons_self)
  refine ⟨hinv.poolNodup, hinv.exclusive, honce.2, ?_, ?_, ?_, hinv.handlers, ?_⟩
  · apply setWorker_forall (P := fun w₁ y₁ => ∀ i, unanswered y₁ ∧ y₁.segment = i →
      i ∉ (s.messages ++ work).map Prod.snd ∧
        ∀ w₂, Answering (s.setWorker w { pc := .getObject, path := m.1, segment := m.2 }) w₂ i → w₂ = w₁)
    · rintro _ ⟨_, rfl⟩
      refine ⟨honce.1, ?_⟩
      apply setWorker_forall (P := fun w₂ y₂ => unanswered y₂ ∧ y₂.segment = m.2 → w₂ = w)
      · exact fun _ => rfl
      · exact fun w₂ _ hanswering => absurd hanswering (hfree w₂)
    · intro w₁ hw₁ i hanswering
      obtain ⟨hout, hunique⟩ := hinv.oneWorker w₁ i hanswering
      refine ⟨fun hmem => hout (hold i hmem), ?_⟩
      apply setWorker_forall (P := fun w₂ y₂ => unanswered y₂ ∧ y₂.segment = i → w₂ = w₁)
      · rintro ⟨_, rfl⟩
        exact absurd hanswering (hfree w₁)
      · exact fun w₂ _ => hunique w₂
  · exact fun path i hmem => hinv.requested path i (hperm.mem_iff.mpr (List.mem_cons_of_mem _ hmem))
  · apply setWorker_forall (P := fun w₁ y₁ => ∀ i, unanswered y₁ ∧ y₁.segment = i →
      (s.segments i).semSegment = 0 ∧ ∃ h, Waiting s h y₁.path i)
    · rintro _ ⟨_, rfl⟩
      exact ⟨hzero, hwaits⟩
    · exact fun w₁ _ => hinv.answering w₁
  · apply setWorker_forall (P := fun _ y₁ => WorkerAnswer cache (s.segments y₁.segment) y₁)
    · trivial
    · exact fun w₁ _ => hinv.workers w₁

theorem Inv.worker (hinv : Inv cache s)
    (hlocal : workerStep cache (s.segments (s.workers w).segment) (s.workers w) = some (g, y)) :
    Inv cache ((s.setSegment (s.workers w).segment g).setWorker w y) := by
  obtain ⟨hy, hsegment, hpath, hgoes, hquiet, hposts⟩ := workerStep_answer (hinv.workers w) hlocal
  have hself : (s.setSegment (s.workers w).segment g).segments (s.workers w).segment = g := by
    simp [System.setSegment]
  refine hinv.moveWorker ?_ ?_ ?_ ?_
  · intro j hanswering
    by_cases hj : j = (s.workers w).segment
    · subst j
      rw [hself]
      exact hquiet (fun hunanswered => hanswering ⟨hunanswered, rfl⟩)
    · simp [System.setSegment, hj]
  · intro hunanswered
    obtain ⟨hbefore, hsame⟩ := hgoes hunanswered
    rw [hsegment, hself, hsame]
    exact ⟨⟨hbefore, rfl⟩, hpath, (hinv.answering w _ ⟨hbefore, rfl⟩).1⟩
  · rintro h _ ⟨hbefore, rfl⟩ ⟨hpc, -, hasked⟩
    have hzero := (hinv.answering w _ ⟨hbefore, rfl⟩).1
    have hold := hinv.handlers h
    rw [hself]
    simp only [HandlerAnswer, hpc] at hold ⊢
    refine ⟨hold.1, fun hposted => ?_⟩
    by_cases hunanswered : unanswered y
    · rw [(hgoes hunanswered).2] at hposted
      exact absurd hzero hposted
    · obtain ⟨hone, hlength⟩ := hposts hbefore hunanswered
      rw [hone, hlength, hzero, hasked]
      exact ⟨rfl, rfl⟩
  · rw [hsegment, hself]
    exact hy

end Daemon

theorem Inv.boss (hinv : Inv cache s) {m : String × Nat} {messages : List (String × Nat)}
    (hmessages : s.messages = m :: messages) :
    Inv cache { s with messages := messages, work := s.work ++ [m] } := by
  have hperm : (messages ++ (s.work ++ [m])).Perm (requests s) := by
    rw [requests, hmessages, ← List.append_assoc]
    exact List.perm_append_singleton m _
  refine ⟨hinv.poolNodup, hinv.exclusive, ?_, ?_, ?_, hinv.answering, hinv.handlers, hinv.workers⟩
  · exact (hperm.map Prod.snd).nodup_iff.mpr hinv.once
  · intro w i hanswering
    obtain ⟨hout, hunique⟩ := hinv.oneWorker w i hanswering
    exact ⟨fun hmem => hout ((hperm.map Prod.snd).mem_iff.mp hmem), hunique⟩
  · exact fun path i hmem => hinv.requested path i (hperm.mem_iff.mp hmem)

theorem start_inv (nsegments : Nat) (garbage : Nat → Segment) :
    Inv cache (start nsegments garbage : System H W) := by
  refine ⟨List.nodup_range, ?_, List.nodup_nil, ?_, by simp [requests, start], ?_, fun _ => .inl rfl,
    fun _ => trivial⟩
  · exact fun h i hholds => absurd hholds (not_holds rfl i)
  · exact fun w i hanswering => absurd hanswering.1 (by simp [start, unanswered])
  · exact fun w i hanswering => absurd hanswering.1 (by simp [start, unanswered])

variable [DecidableEq H] [DecidableEq W] {a : Act H W}

theorem step_inv (hinv : Inv cache s) (hstep : step cache s a = some s') : Inv cache s' := by
  cases step_move hstep with
  | @request h path hpc =>
      refine hinv.keepPool ?_ (by simp [holding]) (fun _ _ => rfl) rfl
      rcases hpc with hpc | hpc <;> simp [hpc]
  | pop hpc hpool => exact hinv.pop hpc hpool
  | send hpc => exact hinv.send hpc
  | enqueue hpc => exact hinv.enqueue hpc
  | handler hlocal => exact hinv.handler hlocal
  | boss hmessages => exact hinv.boss hmessages
  | take _ hwork => exact hinv.take hwork
  | worker hlocal => exact hinv.worker hlocal

end GraduateOS.Shm.Answers
