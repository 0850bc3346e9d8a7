import GraduateOS.Shm.LocalSteps

namespace GraduateOS.Shm.Accounts

open Segments Threads LocalSteps Library.MachineInts

def chunk (content : Content) (offset : Nat) : Content := pread content 3499 offset

structure Silent (h : Handler) : Prop where
  header : h.header = none
  sent : h.sent = []
  bytesTransferred : h.bytesTransferred = 0

structure Sending (content : Content) (h : Handler) : Prop where
  header : h.header = some (.ok, content.length)
  sent : h.sent = content.take h.bytesTransferred
  bytesTransferred : h.bytesTransferred ≤ content.length
  fileLen : h.fileLen = content.length

structure Asking (content : Content) (h : Handler) : Prop extends Sending content h where
  left : h.bytesTransferred < content.length
  k : h.k = ↑(content.length - h.bytesTransferred)

structure Loaded (content : Content) (h : Handler) : Prop extends Asking content h where
  readLen : h.readLen = 3499
  data : h.data.take (chunk content h.bytesTransferred).length = chunk content h.bytesTransferred

def HandlerOk (content : Content) (h : Handler) : Prop :=
  match h.pc with
  | .waitLength | .readLength => Silent h
  | .header => Silent h ∧ h.fileLen = content.length
  | .loop => Sending content h
  | .waitReader | .readData => Asking content h
  | .postWriter | .gfsSend => Loaded content h
  | .unmap | .enqueue | .returned => Sending content h ∧ h.bytesTransferred = content.length
  | _ => False

structure Found (content : Content) (w : Worker) : Prop where
  fildes : w.fildes = some content
  fileLen : w.fileLen = content.length

structure Posting (content : Content) (w : Worker) : Prop extends Found content w where
  lower : 0 ≤ w.bytesTransferred
  upper : w.bytesTransferred ≤ content.length

structure Filled (content : Content) (w : Worker) : Prop extends Posting content w where
  left : w.bytesTransferred < content.length
  k : w.k = (chunk content w.bytesTransferred.toNat).length

def WorkerOk (content : Content) (w : Worker) : Prop :=
  match w.pc with
  | .idle | .getObject | .lookup | .unmap => True
  | .writeLength | .postLength => Found content w
  | .loop | .waitWriter => Posting content w
  | .clearData | .copyData =>
      Filled content w ∧ w.buffer.take (chunk content w.bytesTransferred.toNat).length =
        chunk content w.bytesTransferred.toNat
  | .postReader | .advance => Filled content w

variable {content : Content} {g g' : Segment} {h h' : Handler} {w w' : Worker}

theorem chunk_length (content : Content) (offset : Nat) :
    (chunk content offset).length = min 3499 (content.length - offset) := by
  simp [chunk, pread]

theorem take_chunk (content : Content) (offset : Nat) :
    content.take offset ++ chunk content offset =
      content.take (offset + (chunk content offset).length) := by
  rw [chunk_length, List.take_add, chunk, pread]
  congr 1
  rw [← List.length_drop, List.take_eq_take_iff]
  omega

theorem Sending.at (hs : Sending content h) (pc : HandlerPc) : Sending content { h with pc := pc } :=
  ⟨hs.1, hs.2, hs.3, hs.4⟩

theorem Asking.at (ha : Asking content h) (pc : HandlerPc) : Asking content { h with pc := pc } :=
  ⟨ha.1.at pc, ha.2, ha.3⟩

theorem Found.at (hf : Found content w) (pc : WorkerPc) : Found content { w with pc := pc } :=
  ⟨hf.1, hf.2⟩

theorem Posting.at (hp : Posting content w) (pc : WorkerPc) : Posting content { w with pc := pc } :=
  ⟨hp.1.at pc, hp.2, hp.3⟩

theorem Filled.at (hf : Filled content w) (pc : WorkerPc) : Filled content { w with pc := pc } :=
  ⟨hf.1.at pc, hf.2, hf.3⟩

theorem Loaded.sendLen (hloaded : Loaded content h) :
    h.sendLen = (chunk content h.bytesTransferred).length := by
  have hk := hloaded.k
  have hleft := hloaded.left
  rw [Handler.sendLen, hloaded.readLen, chunk_length]
  split
  next hlast => rw [toUInt64_eq (by omega) (by omega)]; omega
  next hfull => rw [toUInt64_eq (by omega) (by omega)]; omega

theorem Loaded.advance (hlimit : content.length < 2 ^ 31) (hloaded : Loaded content h) :
    (h.bytesTransferred + toUInt64 h.sendLen) % 2 ^ 64 =
      h.bytesTransferred + (chunk content h.bytesTransferred).length := by
  have hlen := chunk_length content h.bytesTransferred
  have hleft := hloaded.left
  rw [hloaded.sendLen, toUInt64_eq (by omega) (by omega), Int.toNat_natCast, Nat.mod_eq_of_lt (by omega)]

theorem Posting.pread_chunk (hlimit : content.length < 2 ^ 31) (hposting : Posting content w)
    (hmore : w.bytesTransferred < content.length) :
    pread (w.fildes.getD []) (readCount w) w.bytesTransferred.toNat =
      chunk content w.bytesTransferred.toNat := by
  have hlower := hposting.lower
  rw [readCount, hposting.fildes, hposting.fileLen, toInt32_eq (by omega) (by omega)]
  split
  next hlast =>
    rw [toUInt64_eq (by omega) (by omega), chunk, pread, pread, Option.getD_some,
      List.take_eq_take_iff, List.length_drop]
    omega
  · rfl

/-- The handler keeps its account of the file if the segment has the length
when it reads the length, and the next chunk when it reads a chunk. -/
theorem handlerStep_ok {result : Int} (hlimit : content.length < 2 ^ 31) (hpos : 0 < content.length)
    (hok : HandlerOk content h) (hlength : h.pc = .readLength → g.fileLength = content.length)
    (hready : h.pc = .readData → g.buffer.take (chunk content h.bytesTransferred).length =
      chunk content h.bytesTransferred)
    (hsends : h.pc = .gfsSend → result = h.sendLen) (hstep : handlerStep result g h = some (g', h')) :
    HandlerOk content h' := by
  cases handlerStep_move hstep with
  | create hpc => simp [HandlerOk, hpc] at hok
  | sendNotFound hpc => simp [HandlerOk, hpc] at hok
  | waitLength hpc =>
      simp only [HandlerOk, hpc] at hok
      exact ⟨hok.1, hok.2, hok.3⟩
  | noLength hpc hzero =>
      rw [hlength hpc, toUInt64_eq (by omega) (by omega)] at hzero
      omega
  | readLength hpc =>
      have hfile : toUInt64 g.fileLength = content.length := by
        rw [hlength hpc, toUInt64_eq (by omega) (by omega), Int.toNat_natCast]
      simp only [HandlerOk, hpc] at hok
      exact ⟨⟨hok.1, hok.2, hok.3⟩, hfile⟩
  | header hpc =>
      simp only [HandlerOk, hpc] at hok
      exact ⟨by rw [hok.2], by simp [hok.1.sent], Nat.zero_le _, hok.2⟩
  | more hpc hmore =>
      simp only [HandlerOk, hpc] at hok
      have hlen := hok.fileLen
      rw [hlen] at hmore ⊢
      rw [toInt32_eq (by omega) (by omega)]
      exact ⟨⟨hok.1, hok.2, hok.3, rfl⟩, hmore, rfl⟩
  | done hpc hdone =>
      simp only [HandlerOk, hpc] at hok
      rw [hok.fileLen] at hdone
      exact ⟨hok.at .unmap, Nat.le_antisymm hok.bytesTransferred hdone⟩
  | waitReader hpc =>
      simp only [HandlerOk, hpc] at hok
      exact hok.at .readData
  | readData hpc =>
      simp only [HandlerOk, hpc] at hok
      refine ⟨⟨⟨hok.1.1, hok.1.2, hok.1.3, hok.1.4⟩, hok.2, hok.3⟩, rfl, ?_⟩
      rw [Segment.shmReadData, List.take_take, Nat.min_eq_left (by rw [chunk_length]; omega)]
      exact hready hpc
  | readError hpc herror =>
      simp only [HandlerOk, hpc] at hok
      rw [hok.readLen] at herror
      omega
  | postWriter hpc =>
      simp only [HandlerOk, hpc] at hok
      exact ⟨hok.1.at .gfsSend, hok.2, hok.3⟩
  | gfsSend hpc =>
      simp only [HandlerOk, hpc] at hok
      have hlen := chunk_length content h.bytesTransferred
      have hleft := hok.left
      rw [hsends hpc, hok.advance hlimit]
      refine ⟨hok.header, ?_, ?_, hok.fileLen⟩
      · rw [← take_chunk, hok.sent, Int.toNat_natCast, hok.sendLen, hok.data]
      · simp only
        omega
  | unmap hpc =>
      simp only [HandlerOk, hpc] at hok
      exact ⟨hok.1.at .enqueue, hok.2⟩

theorem workerStep_ok {cache : String → Option Content} (hlimit : content.length < 2 ^ 31)
    (hfile : cache w.path = some content) (hok : WorkerOk content w)
    (hstep : workerStep cache g w = some (g', w')) : WorkerOk content w' := by
  cases workerStep_move hstep with
  | getObject => trivial
  | unmap => trivial
  | absent _ habsent =>
      rw [hfile] at habsent
      cases habsent
  | found _ hfound =>
      cases hfile.symm.trans hfound
      rw [toInt32_eq (by omega) (by omega)]
      exact ⟨rfl, rfl⟩
  | writeLength hpc =>
      simp only [WorkerOk, hpc] at hok
      exact hok.at .postLength
  | postAbsent hpc habsent =>
      simp only [WorkerOk, hpc] at hok
      rw [hok.fildes] at habsent
      cases habsent
  | postLength hpc =>
      simp only [WorkerOk, hpc] at hok
      exact ⟨⟨hok.1, hok.2⟩, Int.le_refl 0, Int.natCast_nonneg _⟩
  | fill hpc hmore hbytes =>
      simp only [WorkerOk, hpc] at hok
      rw [hok.fileLen] at hmore
      rw [hok.pread_chunk hlimit hmore] at hbytes
      subst hbytes
      exact ⟨⟨⟨⟨hok.1.1, hok.1.2⟩, hok.2, hok.3⟩, hmore, rfl⟩, List.take_left⟩
  | done => trivial
  | clearData hpc =>
      simp only [WorkerOk, hpc] at hok
      exact ⟨hok.1.at .copyData, hok.2⟩
  | copyData hpc =>
      simp only [WorkerOk, hpc] at hok
      exact hok.1.at .postReader
  | postReader hpc =>
      simp only [WorkerOk, hpc] at hok
      exact hok.at .advance
  | advance hpc =>
      simp only [WorkerOk, hpc] at hok
      have hlower := hok.lower
      have hleft := hok.left
      have hk := hok.k
      have hlen := chunk_length content w.bytesTransferred.toNat
      rw [toInt32_eq (by omega) (by omega)]
      exact ⟨⟨hok.1.1.1, hok.1.1.2⟩, by simp only; omega, by simp only; omega⟩
  | waitWriter hpc =>
      simp only [WorkerOk, hpc] at hok
      exact hok.at .loop

end GraduateOS.Shm.Accounts
