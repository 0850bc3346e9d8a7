import GraduateOS.Shm.Accounts
import GraduateOS.Shm.Tokens

namespace GraduateOS.Shm.Exchange

open Segments Threads LocalSteps Tokens Accounts Library.MachineInts

def received (content : Content) (h : Handler) : Nat :=
  if h.pc = .postWriter ∨ h.pc = .gfsSend then
    h.bytesTransferred + (chunk content h.bytesTransferred).length
  else h.bytesTransferred

def posted (content : Content) (w : Worker) : Nat :=
  match w.pc with
  | .getObject | .lookup | .writeLength | .postLength => 0
  | .idle | .unmap => content.length
  | .advance => w.bytesTransferred.toNat + (chunk content w.bytesTransferred.toNat).length
  | _ => w.bytesTransferred.toNat

def Unread (g : Segment) (h : Handler) : Prop := g.semReader = 1 ∨ h.pc = .readData

def told (w : Worker) : Nat := if w.pc = .idle then 1 else informs w

structure Agreement (content : Content) (g : Segment) (h : Handler) (w : Worker) : Prop where
  handler : HandlerOk content h
  worker : WorkerOk content w
  readLen : 0 ≤ h.readLen
  fileLength : told w = 1 ∨ w.pc = .postLength → g.fileLength = content.length
  informed : g.semSegment + informed h = told w
  token : inTransit g + handlerToken h = workerToken w
  buffer : Unread g h ∨ w.pc = .postReader →
    g.buffer.take (chunk content (received content h)).length = chunk content (received content h)
  unread : Unread g h → received content h < content.length ∧
    posted content w = received content h + (chunk content (received content h)).length
  read : ¬ Unread g h → posted content w = received content h

variable {content : Content} {g g' : Segment} {h h' : Handler} {w w' : Worker}

theorem token_le (w : Worker) : workerToken w ≤ 1 := by
  unfold workerToken
  split <;> omega

theorem unread_token (htoken : inTransit g + handlerToken h = workerToken w) (hunread : Unread g h) :
    workerToken w = 1 := by
  have hle := token_le w
  rcases hunread with hreader | hpc
  · rw [inTransit] at htoken
    omega
  · simp only [handlerToken, hpc, true_or, if_true] at htoken
    omega

theorem read_of_taken (htoken : inTransit g + handlerToken h = workerToken w) (hpc : h.pc = .postWriter) :
    ¬ Unread g h := by
  rintro (hreader | hpc')
  · have hone := token_le w
    simp only [inTransit, handlerToken, hpc, or_true, if_true] at htoken
    omega
  · rw [hpc] at hpc'
    cases hpc'

theorem read_of_token (htoken : inTransit g + handlerToken h = workerToken w) (hzero : workerToken w = 0) :
    ¬ Unread g h := by
  intro hunread
  rw [unread_token htoken hunread] at hzero
  cases hzero

theorem reader_le (htoken : inTransit g + handlerToken h = workerToken w) : g.semReader ≤ 1 := by
  have hone := token_le w
  rw [inTransit] at htoken
  omega

theorem start_agreement (hsilent : Silent h) (hlen : h.readLen = 0) (hpc : h.pc = .waitLength)
    (hempty : g.Empty) (hget : w.pc = .getObject) : Agreement content g h w := by
  obtain ⟨hsegment, hreader, hwriter⟩ := hempty
  have hread : ¬ Unread g h := by simp [Unread, hpc, hreader]
  refine ⟨?_, ?_, by omega, ?_, ?_, ?_, ?_, fun h => absurd h hread, fun _ => ?_⟩
  · simpa only [HandlerOk, hpc] using hsilent
  · simp only [WorkerOk, hget]
  · intro h
    simp [told, informs, hget] at h
  · simp [informed, told, informs, hpc, hget, hsegment]
  · simp [inTransit, handlerToken, workerToken, hpc, hget, hreader, hwriter]
  · intro h
    simp [hread, hget] at h
  · simp [posted, received, hget, hpc, hsilent.bytesTransferred]

theorem handlerStep_asked {result : Int} (hok : HandlerOk content h)
    (hstep : handlerStep result g h = some (g', h')) : asked h := by
  cases hpc : h.pc with
  | pop | create | send | sendNotFound | failed => simp [HandlerOk, hpc] at hok
  | returned => simp [handlerStep, hpc] at hstep
  | _ => simp [asked, hpc]

theorem handlerStep_reads (content : Content) {result : Int} (hpc : h.pc = .readData)
    (hstep : handlerStep result g h = some (g', h')) :
    g' = g ∧ h'.pc = .postWriter ∧
      received content h' = received content h + (chunk content (received content h)).length := by
  simp only [handlerStep, hpc] at hstep
  cases hstep
  simp [received, hpc]

/-- The other steps of the handler neither touch the data nor change what is read. -/
theorem handlerStep_frame {result : Int} (hlimit : content.length < 2 ^ 31) (hok : HandlerOk content h)
    (hreads : h.pc ≠ .readData) (hsends : h.pc = .gfsSend → result = h.sendLen) (hle : g.semReader ≤ 1)
    (hstep : handlerStep result g h = some (g', h')) :
    g'.fileLength = g.fileLength ∧ g'.buffer = g.buffer ∧ received content h' = received content h ∧
      (Unread g' h' ↔ Unread g h) := by
  cases handlerStep_move hstep with
  | create hpc => simp [HandlerOk, hpc] at hok
  | sendNotFound hpc => simp [HandlerOk, hpc] at hok
  | readData hpc => exact absurd hpc hreads
  | waitLength hpc hwait =>
      obtain ⟨_, hothers, hlength, hbuffer⟩ := wait_value hwait
      have hreader := hothers .reader (by simp)
      simp only [Segment.value] at hreader
      simp [received, Unread, hpc, hlength, hbuffer, hreader]
  | header hpc =>
      simp only [HandlerOk, hpc] at hok
      simp [received, Unread, hpc, hok.1.bytesTransferred]
  | waitReader hpc hwait =>
      obtain ⟨hvalue, _, hlength, hbuffer⟩ := wait_value hwait
      simp only [Segment.value] at hvalue
      have hone : g.semReader = 1 := by omega
      simp [received, Unread, hpc, hlength, hbuffer, hone]
  | gfsSend hpc =>
      simp only [HandlerOk, hpc] at hok
      rw [hsends hpc, hok.advance hlimit]
      simp [received, Unread, hpc]
  | readError hpc herror =>
      simp only [HandlerOk, hpc] at hok
      rw [hok.readLen] at herror
      omega
  | postWriter hpc => simp [received, Unread, hpc, Segment.post]
  | noLength hpc | readLength hpc | more hpc | done hpc | unmap hpc => simp [received, Unread, hpc]

theorem Agreement.handlerStep {result : Int} (hlimit : content.length < 2 ^ 31) (hpos : 0 < content.length)
    (hex : Agreement content g h w) (hsends : h.pc = .gfsSend → result = h.sendLen)
    (hstep : handlerStep result g h = some (g', h')) : Agreement content g' h' w := by
  obtain ⟨_, _, _, hreadLen, hinformed, htoken⟩ :=
    handlerStep_tokens (handlerStep_asked hex.handler hstep) hex.readLen hstep
  have hlength : h.pc = .readLength → g.fileLength = content.length := by
    intro hpc
    apply hex.fileLength
    have htold := hex.informed
    simp only [Tokens.informed, hpc, reduceCtorEq, if_false] at htold
    have hle : told w ≤ 1 := by
      unfold told informs
      repeat' split
      all_goals omega
    omega
  have hready : h.pc = .readData → g.buffer.take (chunk content h.bytesTransferred).length =
      chunk content h.bytesTransferred := by
    intro hpc
    simpa [received, hpc] using hex.buffer (.inl (.inr hpc))
  have hok := handlerStep_ok hlimit hpos hex.handler hlength hready hsends hstep
  have htokens : inTransit g' + handlerToken h' = workerToken w := by
    have htokens := hex.token
    omega
  have hinforms : g'.semSegment + Tokens.informed h' = told w := by
    have hinforms := hex.informed
    omega
  by_cases hpc : h.pc = .readData
  · obtain ⟨rfl, hpc', hreceived⟩ := handlerStep_reads content hpc hstep
    obtain ⟨_, hposted⟩ := hex.unread (.inr hpc)
    have htaken := read_of_taken htokens hpc'
    refine ⟨hok, hex.worker, hreadLen, hex.fileLength, hinforms, htokens, ?_, ?_, ?_⟩
    · rintro (hunread | hpost)
      · exact absurd hunread htaken
      · have hone := unread_token hex.token (.inr hpc)
        simp [workerToken, hpost] at hone
    · exact fun hunread => absurd hunread htaken
    · exact fun _ => hposted.trans hreceived.symm
  · obtain ⟨hfileLength, hbuffer, hreceived, hunread⟩ :=
      handlerStep_frame hlimit hex.handler hpc hsends (reader_le hex.token) hstep
    refine ⟨hok, hex.worker, hreadLen, ?_, hinforms, htokens, ?_, ?_, ?_⟩
    · rw [hfileLength]
      exact hex.fileLength
    · rw [hbuffer, hreceived, hunread]
      exact hex.buffer
    · rw [hreceived, hunread]
      exact hex.unread
    · rw [hreceived, hunread]
      exact hex.read

theorem workerStep_posts (content : Content) {cache : String → Option Content} (hpc : w.pc = .postReader)
    (hstep : workerStep cache g w = some (g', w')) :
    g' = g.post .reader ∧ w'.pc = .advance ∧
      posted content w' = posted content w + (chunk content (posted content w)).length := by
  simp only [workerStep, hpc] at hstep
  cases hstep
  simp [posted, hpc]

theorem workerStep_frame {cache : String → Option Content} (hlimit : content.length < 2 ^ 31)
    (hfile : cache w.path = some content) (hok : WorkerOk content w) (hposts : w.pc ≠ .postReader)
    (hstep : workerStep cache g w = some (g', w')) :
    posted content w' = posted content w ∧ g'.semReader = g.semReader ∧
      (workerToken w = 1 → g'.buffer = g.buffer) := by
  cases workerStep_move hstep with
  | postReader hpc => exact absurd hpc hposts
  | absent _ habsent =>
      rw [hfile] at habsent
      cases habsent
  | postAbsent hpc habsent =>
      simp only [WorkerOk, hpc] at hok
      rw [hok.fildes] at habsent
      cases habsent
  | done hpc hdone =>
      simp only [WorkerOk, hpc] at hok
      have hupper := hok.upper
      have hfileLen := hok.fileLen
      refine ⟨?_, rfl, fun _ => rfl⟩
      simp only [posted, hpc]
      omega
  | advance hpc =>
      simp only [WorkerOk, hpc] at hok
      have hlower := hok.lower
      have hleft := hok.left
      have hk := hok.k
      have hlen := chunk_length content w.bytesTransferred.toNat
      rw [toInt32_eq (by omega) (by omega)]
      refine ⟨?_, rfl, fun _ => rfl⟩
      simp only [posted, hpc]
      omega
  | waitWriter hpc hwait =>
      obtain ⟨_, hothers, _, hbuffer⟩ := wait_value hwait
      have hreader := hothers .reader (by simp)
      simp only [Segment.value] at hreader
      simp [posted, hpc, hreader, hbuffer]
  | writeLength hpc | clearData hpc | copyData hpc =>
      simp [posted, hpc, workerToken, Segment.shmWriteFileLength, Segment.clearData, Segment.copyData]
  | postLength hpc => simp [posted, hpc, Segment.post]
  | getObject hpc | found hpc | fill hpc | unmap hpc => simp [posted, hpc]

theorem workerStep_length {cache : String → Option Content} (hok : WorkerOk content w)
    (hlength : told w = 1 ∨ w.pc = .postLength → g.fileLength = content.length)
    (hstep : workerStep cache g w = some (g', w')) (htold : told w' = 1 ∨ w'.pc = .postLength) :
    g'.fileLength = content.length := by
  cases workerStep_move hstep with
  | getObject => simp [told, informs] at htold
  | absent => simp [told, informs] at htold
  | found => simp [told, informs] at htold
  | writeLength hpc =>
      simp only [WorkerOk, hpc] at hok
      exact hok.fileLen
  | waitWriter hpc hwait =>
      obtain ⟨_, _, hsame, _⟩ := wait_value hwait
      rw [hsame]
      exact hlength (by simp [told, informs, hpc])
  | postAbsent hpc | postLength hpc | fill hpc | done hpc => exact hlength (by simp [told, informs, hpc])
  | clearData hpc | copyData hpc | postReader hpc | advance hpc | unmap hpc =>
      exact hlength (by simp [told, informs, hpc])

theorem workerStep_writes {cache : String → Option Content} (hstep : workerStep cache g w = some (g', w')) :
    (w'.pc = .copyData → w.pc = .clearData) ∧ (w'.pc = .postReader → w.pc = .copyData) := by
  cases workerStep_move hstep <;> simp [*]

theorem workerStep_fills {cache : String → Option Content} (hok : WorkerOk content w)
    (hstep : workerStep cache g w = some (g', w')) (hpost : w'.pc = .postReader) :
    workerToken w = 0 ∧
      g'.buffer.take (chunk content (posted content w)).length = chunk content (posted content w) := by
  have hpc := (workerStep_writes hstep).2 hpost
  have hlen := chunk_length content w.bytesTransferred.toNat
  simp only [WorkerOk, hpc] at hok
  simp only [workerStep, hpc] at hstep
  cases hstep
  have hlong := congrArg List.length hok.2
  rw [List.length_take] at hlong
  refine ⟨by simp [workerToken, hpc], ?_⟩
  simp only [Segment.copyData, posted, hpc]
  rw [List.take_append_of_le_length (by rw [List.length_take]; omega), List.take_take,
    Nat.min_eq_left (by omega)]
  exact hok.2

theorem Agreement.workerStep {cache : String → Option Content} (hlimit : content.length < 2 ^ 31)
    (hfile : cache w.path = some content) (hex : Agreement content g h w)
    (hstep : workerStep cache g w = some (g', w')) : Agreement content g' h w' := by
  have hbusy : w.pc ≠ .idle := by
    intro hpc
    simp [Threads.workerStep, hpc] at hstep
  obtain ⟨_, _, hidle, htokens⟩ := workerStep_tokens hstep
  have hinforms : g'.semSegment + Tokens.informed h = told w' ∧
      inTransit g' + handlerToken h = workerToken w' := by
    have hinforms := hex.informed
    have htoken := hex.token
    simp only [told, if_neg hbusy] at hinforms
    by_cases hpc : w'.pc = .idle
    · obtain ⟨hunmap, rfl⟩ := hidle hpc
      simp [informs, workerToken, hunmap] at hinforms htoken
      simp [told, workerToken, hpc, hinforms, htoken]
    · obtain ⟨hsegment, htransit⟩ := htokens hpc
      simp only [told, if_neg hpc]
      omega
  have hok := workerStep_ok hlimit hfile hex.worker hstep
  have hlength := workerStep_length hex.worker hex.fileLength hstep
  by_cases hpc : w.pc = .postReader
  · obtain ⟨rfl, hpc', hposted⟩ := workerStep_posts content hpc hstep
    have hread := read_of_token hex.token (by simp [workerToken, hpc])
    have hsame := hex.read hread
    have hunread : Unread (g.post .reader) h := by
      have hzero := hex.token
      simp only [inTransit, workerToken, hpc, reduceCtorEq, or_false, if_false] at hzero
      left
      simp only [Segment.post]
      omega
    have hleft : received content h < content.length := by
      have hfilled := hex.worker
      simp only [WorkerOk, hpc] at hfilled
      have hlower := hfilled.lower
      have hlt := hfilled.left
      rw [← hsame]
      simp only [posted, hpc]
      omega
    refine ⟨hex.handler, hok, hex.readLen, hlength, hinforms.1, hinforms.2, ?_, ?_, ?_⟩
    · exact fun _ => hex.buffer (.inr hpc)
    · intro _
      rw [hposted, hsame]
      exact ⟨hleft, rfl⟩
    · exact fun hnot => absurd hunread hnot
  · obtain ⟨hposted, hreader, hbuffer⟩ := workerStep_frame hlimit hfile hex.worker hpc hstep
    have hunread : Unread g' h ↔ Unread g h := by rw [Unread, Unread, hreader]
    refine ⟨hex.handler, hok, hex.readLen, hlength, hinforms.1, hinforms.2, ?_, ?_, ?_⟩
    · rw [hunread]
      rintro (hunread | hpost)
      · rw [hbuffer (unread_token hex.token hunread)]
        exact hex.buffer (.inl hunread)
      · obtain ⟨hzero, hfills⟩ := workerStep_fills hex.worker hstep hpost
        rw [hex.read (read_of_token hex.token hzero)] at hfills
        exact hfills
    · rw [hunread, hposted]
      exact hex.unread
    · rw [hunread, hposted]
      exact hex.read

end GraduateOS.Shm.Exchange
