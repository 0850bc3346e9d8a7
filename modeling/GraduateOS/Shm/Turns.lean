import GraduateOS.Shm.Exchange

namespace GraduateOS.Shm.Turns

open Segments Threads Tokens Accounts Exchange

/-- The accesses to the buffer of the segment, with the offset of the chunk. -/
inductive Access
  | clear (offset : Nat)
  | write (offset : Nat)
  | read (offset : Nat)
  deriving DecidableEq

def handlerAccess (h : Handler) : List Access :=
  if h.pc = .readData then [.read h.bytesTransferred] else []

def workerAccess (w : Worker) : List Access :=
  match w.pc with
  | .clearData => [.clear w.bytesTransferred.toNat]
  | .copyData => [.write w.bytesTransferred.toNat]
  | _ => []

def turns (chunks : Nat) : List Access :=
  (List.range chunks).flatMap fun j => [.clear (3499 * j), .write (3499 * j), .read (3499 * j)]

def chunkCount (content : Content) : Nat := (content.length + 3498) / 3499

instance (g : Segment) (h : Handler) : Decidable (Unread g h) := inferInstanceAs (Decidable (_ ∨ _))

/-- The accesses to the chunk that is being written, or that is not read yet. -/
def pending (content : Content) (g : Segment) (h : Handler) (w : Worker) : List Access :=
  if w.pc = .copyData then [.clear (received content h)]
  else if Unread g h ∨ w.pc = .postReader then [.clear (received content h), .write (received content h)]
  else []

def InTurn (content : Content) (es : List Access) (g : Segment) (h : Handler) (w : Worker) : Prop :=
  ∃ chunks ≤ chunkCount content, received content h = min content.length (3499 * chunks) ∧
    es = turns chunks ++ pending content g h w

variable {content : Content} {es : List Access} {g g' : Segment} {h h' : Handler} {w w' : Worker}

theorem turns_succ (chunks : Nat) : turns (chunks + 1) =
    turns chunks ++ [.clear (3499 * chunks), .write (3499 * chunks), .read (3499 * chunks)] := by
  simp [turns, List.range_succ]

theorem pending_same (hreceived : received content h' = received content h)
    (hunread : Unread g' h' ↔ Unread g h) : pending content g' h' w = pending content g h w := by
  simp only [pending, hreceived, hunread]

theorem pending_none (hread : ¬ Unread g h) (hcopy : w.pc ≠ .copyData) (hpost : w.pc ≠ .postReader) :
    pending content g h w = [] := by
  simp [pending, hread, hcopy, hpost]

theorem start_inTurn (hsilent : Silent h) (hpc : h.pc = .waitLength) (hempty : g.Empty)
    (hget : w.pc = .getObject) : InTurn content [] g h w := by
  have hread : ¬ Unread g h := by simp [Unread, hpc, hempty.2.1]
  refine ⟨0, Nat.zero_le _, ?_, ?_⟩
  · simp [received, hpc, hsilent.bytesTransferred]
  · rw [pending_none hread (by simp [hget]) (by simp [hget])]
    rfl

theorem InTurn.handlerStep {result : Int} (hlimit : content.length < 2 ^ 31)
    (hex : Agreement content g h w) (hex' : Agreement content g' h' w)
    (hsends : h.pc = .gfsSend → result = h.sendLen) (hturn : InTurn content es g h w)
    (hstep : handlerStep result g h = some (g', h')) :
    InTurn content (es ++ handlerAccess h) g' h' w := by
  obtain ⟨chunks, hcount, hreceived, rfl⟩ := hturn
  by_cases hpc : h.pc = .readData
  · obtain ⟨rfl, hpc', hreads⟩ := handlerStep_reads content hpc hstep
    obtain ⟨hleft, _⟩ := hex.unread (.inr hpc)
    have htoken := unread_token hex.token (.inr hpc)
    have hcopy : w.pc ≠ .copyData := by
      intro hw
      simp [workerToken, hw] at htoken
    have hpost : w.pc ≠ .postReader := by
      intro hw
      simp [workerToken, hw] at htoken
    have htaken := read_of_taken hex'.token hpc'
    have hoffset : h.bytesTransferred = 3499 * chunks := by
      simp only [received, hpc, reduceCtorEq, or_self, if_false] at hreceived hleft
      omega
    refine ⟨chunks + 1, by rw [chunkCount]; omega, ?_, ?_⟩
    · rw [hreads, chunk_length]
      omega
    · rw [pending_none htaken hcopy hpost]
      simp [pending, hcopy, handlerAccess, received, Unread, hpc, turns_succ, hoffset]
  · obtain ⟨_, _, hsame, hunread⟩ :=
      handlerStep_frame hlimit hex.handler hpc hsends (reader_le hex.token) hstep
    refine ⟨chunks, hcount, hsame.trans hreceived, ?_⟩
    rw [pending_same hsame hunread, handlerAccess, if_neg hpc, List.append_nil]

theorem InTurn.workerStep {cache : String → Option Content} (hlimit : content.length < 2 ^ 31)
    (hfile : cache w.path = some content) (hex : Agreement content g h w)
    (hturn : InTurn content es g h w) (hstep : workerStep cache g w = some (g', w')) :
    InTurn content (es ++ workerAccess w) g' h w' := by
  obtain ⟨chunks, hcount, hreceived, rfl⟩ := hturn
  refine ⟨chunks, hcount, hreceived, ?_⟩
  rw [List.append_assoc, List.append_cancel_left_eq]
  cases hpc : w.pc with
  | idle => simp [Threads.workerStep, hpc] at hstep
  | clearData | copyData =>
      have hread := read_of_token hex.token (by simp [workerToken, hpc])
      have hoffset := hex.read hread
      simp only [posted, hpc] at hoffset
      simp only [Threads.workerStep, hpc] at hstep
      cases hstep
      simp [pending, workerAccess, hpc, hread, hoffset]
  | postReader =>
      obtain ⟨rfl, hpc', _⟩ := workerStep_posts content hpc hstep
      have hzero := hex.token
      simp only [inTransit, workerToken, hpc, reduceCtorEq, or_false, if_false] at hzero
      have hunread : Unread (g.post .reader) h := .inl (by simp only [Segment.post]; omega)
      simp [pending, workerAccess, hpc, hpc', hunread]
  | _ =>
      obtain ⟨_, hreader, _⟩ := workerStep_frame hlimit hfile hex.worker (by simp [hpc]) hstep
      have hunread : Unread g' h ↔ Unread g h := by rw [Unread, Unread, hreader]
      obtain ⟨hclear, hcopy⟩ := workerStep_writes hstep
      have hcopy' : w'.pc ≠ .copyData := fun hw => by simp [hclear hw] at hpc
      have hpost' : w'.pc ≠ .postReader := fun hw => by simp [hcopy hw] at hpc
      simp [pending, workerAccess, hpc, hunread, hcopy', hpost']

theorem turns_mono {chunks chunks' : Nat} (h : chunks ≤ chunks') : turns chunks <+: turns chunks' := by
  induction h with
  | refl => exact List.prefix_rfl
  | step _ ih =>
      rw [turns_succ]
      exact ih.trans (List.prefix_append _ _)

theorem pending_next (chunks : Nat) (hreceived : received content h = 3499 * chunks) :
    turns chunks ++ pending content g h w <+: turns (chunks + 1) := by
  rw [turns_succ, List.prefix_append_right_inj, pending, hreceived]
  split
  · exact ⟨[_, _], rfl⟩
  · split
    · exact ⟨[_], rfl⟩
    · exact List.nil_prefix

/-- A chunk is being written or waits to be read only while some of the file is missing. -/
theorem pending_of_received (hex : Agreement content g h w) (hall : content.length ≤ received content h) :
    pending content g h w = [] := by
  have hread : ¬ Unread g h := fun hunread => absurd (hex.unread hunread).1 (by omega)
  have hposted := hex.read hread
  have hworker := hex.worker
  apply pending_none hread
  · intro hpc
    simp only [WorkerOk, hpc] at hworker
    have hleft := hworker.1.left
    have hlower := hworker.1.lower
    simp only [posted, hpc] at hposted
    omega
  · intro hpc
    simp only [WorkerOk, hpc] at hworker
    have hleft := hworker.left
    have hlower := hworker.lower
    simp only [posted, hpc] at hposted
    omega

theorem InTurn.within_turns (hex : Agreement content g h w) (hturn : InTurn content es g h w) :
    es <+: turns (chunkCount content) := by
  obtain ⟨chunks, hcount, hreceived, rfl⟩ := hturn
  by_cases hall : content.length ≤ received content h
  · rw [pending_of_received hex hall, List.append_nil]
    exact turns_mono hcount
  · have hnext : chunks + 1 ≤ chunkCount content := by rw [chunkCount]; omega
    exact (pending_next chunks (by omega)).trans (turns_mono hnext)

theorem InTurn.complete (hex : Agreement content g h w) (hturn : InTurn content es g h w)
    (hall : received content h = content.length) : es = turns (chunkCount content) := by
  obtain ⟨chunks, hcount, hreceived, rfl⟩ := hturn
  have hlast : chunks = chunkCount content := by rw [chunkCount] at hcount ⊢; omega
  rw [pending_of_received hex (Nat.le_of_eq hall.symm), List.append_nil, hlast]

end GraduateOS.Shm.Turns
