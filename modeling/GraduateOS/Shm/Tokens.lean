import GraduateOS.Shm.LocalSteps

namespace GraduateOS.Shm.Tokens

open Segments Threads LocalSteps

/-- The handler owns its segment: it has taken it from the pool and not given it back. -/
def holding (h : Handler) : Bool :=
  match h.pc with
  | .pop | .sendNotFound | .returned | .failed => false
  | _ => true

/-- The request is out: the message has been sent and the segment not given back. -/
def asked (h : Handler) : Bool :=
  match h.pc with
  | .pop | .create | .send | .sendNotFound | .returned | .failed => false
  | _ => true

/-- Tokens that the handler has taken: from `semSegment`, and from `semReader`
before it posts `semWriter` in exchange. -/
def informed (h : Handler) : Nat := if h.pc = .waitLength then 0 else 1

def handlerToken (h : Handler) : Nat := if h.pc = .readData ∨ h.pc = .postWriter then 1 else 0

/-- Tokens that the worker has handed out: on `semSegment`, and on `semReader`
before it takes one from `semWriter` in exchange. -/
def informs (w : Worker) : Nat :=
  match w.pc with
  | .idle | .getObject | .lookup | .writeLength | .postLength => 0
  | _ => 1

def workerToken (w : Worker) : Nat := if w.pc = .advance ∨ w.pc = .waitWriter then 1 else 0

/-- The tokens of the chunk exchange that lie in the segment. -/
def inTransit (g : Segment) : Nat := g.semReader + g.semWriter

variable {g g' : Segment} {h h' : Handler} {w w' : Worker}

theorem wait_inTransit {s : Semaphore} (hs : s ≠ .segment) (hwait : g.wait s = some g') :
    inTransit g = inTransit g' + 1 ∧ g'.semSegment = g.semSegment := by
  obtain ⟨hvalue, hothers, _, _⟩ := wait_value hwait
  cases s with
  | segment => exact absurd rfl hs
  | writer =>
      have hreader := hothers .reader (by simp)
      simp only [Segment.value] at hvalue hreader
      exact ⟨by simp only [inTransit]; omega, hothers .segment (by simp)⟩
  | reader =>
      have hwriter := hothers .writer (by simp)
      simp only [Segment.value] at hvalue hwriter
      exact ⟨by simp only [inTransit]; omega, hothers .segment (by simp)⟩

theorem waitSegment_tokens (hwait : g.wait .segment = some g') :
    g.semSegment = g'.semSegment + 1 ∧ inTransit g' = inTransit g := by
  obtain ⟨hvalue, hothers, _, _⟩ := wait_value hwait
  have hreader := hothers .reader (by simp)
  have hwriter := hothers .writer (by simp)
  simp only [Segment.value] at hvalue hreader hwriter
  exact ⟨hvalue, by simp only [inTransit]; omega⟩

/-- After its request a handler passes tokens on, and neither makes nor loses any. -/
theorem handlerStep_tokens {result : Int} (hasked : asked h) (hlen : 0 ≤ h.readLen)
    (hstep : handlerStep result g h = some (g', h')) :
    h'.segment = h.segment ∧ h'.path = h.path ∧ asked h' ∧ 0 ≤ h'.readLen ∧
      g'.semSegment + informed h' = g.semSegment + informed h ∧
      inTransit g' + handlerToken h' = inTransit g + handlerToken h := by
  cases handlerStep_move hstep with
  | create hpc => simp [asked, hpc] at hasked
  | sendNotFound hpc => simp [asked, hpc] at hasked
  | readError _ herror => exact absurd hlen (Int.not_le.mpr herror)
  | waitLength hpc hwait =>
      obtain ⟨hvalue, hsame⟩ := waitSegment_tokens hwait
      exact ⟨rfl, rfl, rfl, hlen, by simp [informed, hpc, hvalue], by simp [handlerToken, hpc, hsame]⟩
  | waitReader hpc hwait =>
      obtain ⟨hvalue, hsame⟩ := wait_inTransit (by simp) hwait
      exact ⟨rfl, rfl, rfl, hlen, by simp [informed, hpc, hsame], by simp [handlerToken, hpc, hvalue]⟩
  | readData hpc =>
      exact ⟨rfl, rfl, rfl, by simp, by simp [informed, hpc], by simp [handlerToken, hpc]⟩
  | postWriter hpc =>
      refine ⟨rfl, rfl, rfl, hlen, by simp [informed, hpc, Segment.post], ?_⟩
      simp only [handlerToken, hpc, inTransit, Segment.post, reduceCtorEq, or_true, or_self, if_true, if_false]
      omega
  | noLength hpc | readLength hpc | header hpc | more hpc | done hpc | gfsSend hpc | unmap hpc =>
      exact ⟨rfl, rfl, rfl, hlen, by simp [informed, hpc], by simp [handlerToken, hpc]⟩

/-- While it serves a request, a worker hands out one token for the length and
one for each chunk, which it takes back before the next. -/
theorem workerStep_tokens {cache : String → Option Content}
    (hstep : workerStep cache g w = some (g', w')) :
    w'.segment = w.segment ∧ w'.path = w.path ∧
      (w'.pc = .idle → w.pc = .unmap ∧ g' = g) ∧
      (w'.pc ≠ .idle → g'.semSegment + informs w = g.semSegment + informs w' ∧
        inTransit g' + workerToken w = inTransit g + workerToken w') := by
  cases workerStep_move hstep with
  | unmap hpc => simp [hpc]
  | writeLength hpc | clearData hpc | copyData hpc =>
      simp [informs, workerToken, hpc, inTransit, Segment.shmWriteFileLength, Segment.clearData,
        Segment.copyData]
  | postAbsent hpc | postLength hpc => simp [informs, workerToken, hpc, Segment.post, inTransit]
  | postReader hpc =>
      simp [informs, workerToken, hpc, Segment.post, inTransit]
      omega
  | waitWriter hpc hwait =>
      obtain ⟨hvalue, hsame⟩ := wait_inTransit (by simp) hwait
      simp [informs, workerToken, hpc, hsame, hvalue]
  | getObject hpc | absent hpc | found hpc | fill hpc | done hpc | advance hpc =>
      simp [informs, workerToken, hpc]

end GraduateOS.Shm.Tokens
