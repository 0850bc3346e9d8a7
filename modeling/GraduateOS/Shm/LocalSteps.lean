import GraduateOS.Shm.Threads

namespace GraduateOS.Shm.LocalSteps

open Segments Threads Library.MachineInts

inductive HandlerMove (result : Int) (g : Segment) (h : Handler) : Segment → Handler → Prop
  | create : h.pc = .create → HandlerMove result g h g.shmCreate { h with pc := .send }
  | waitLength {g'} : h.pc = .waitLength → g.wait .segment = some g' →
      HandlerMove result g h g' { h with pc := .readLength }
  | noLength : h.pc = .readLength → toUInt64 g.fileLength = 0 →
      HandlerMove result g h g { h with fileLen := 0, pc := .unmap }
  | readLength : h.pc = .readLength → toUInt64 g.fileLength ≠ 0 →
      HandlerMove result g h g { h with fileLen := toUInt64 g.fileLength, pc := .header }
  | header : h.pc = .header →
      HandlerMove result g h g
        { h with header := some (.ok, h.fileLen), bytesTransferred := 0, k := 0, pc := .loop }
  | more : h.pc = .loop → h.bytesTransferred < h.fileLen →
      HandlerMove result g h g
        { h with k := toInt32 ↑(h.fileLen - h.bytesTransferred), pc := .waitReader }
  | done : h.pc = .loop → h.fileLen ≤ h.bytesTransferred →
      HandlerMove result g h g { h with pc := .unmap }
  | waitReader {g'} : h.pc = .waitReader → g.wait .reader = some g' →
      HandlerMove result g h g' { h with pc := .readData }
  | readData : h.pc = .readData →
      HandlerMove result g h g { h with data := g.shmReadData, readLen := 3499, pc := .postWriter }
  | readError : h.pc = .postWriter → h.readLen < 0 →
      HandlerMove result g h (g.post .writer) { h with pc := .failed }
  | postWriter : h.pc = .postWriter → 0 ≤ h.readLen →
      HandlerMove result g h (g.post .writer) { h with pc := .gfsSend }
  | gfsSend : h.pc = .gfsSend →
      HandlerMove result g h g { h with
        sent := h.sent ++ h.data.take result.toNat
        bytesTransferred := (h.bytesTransferred + toUInt64 result) % 2 ^ 64
        pc := .loop }
  | unmap : h.pc = .unmap → HandlerMove result g h g { h with pc := .enqueue }
  | sendNotFound : h.pc = .sendNotFound →
      HandlerMove result g h g { h with header := some (.fileNotFound, h.fileLen), pc := .returned }

def readCount (w : Worker) : Nat :=
  let remaining := toInt32 (w.fileLen - w.bytesTransferred)
  if 3499 > remaining then toUInt64 remaining else 3499

inductive WorkerMove (cache : String → Option Content) (g : Segment) (w : Worker) :
    Segment → Worker → Prop
  | getObject : w.pc = .getObject → WorkerMove cache g w g { w with pc := .lookup }
  | absent : w.pc = .lookup → cache w.path = none →
      WorkerMove cache g w g { w with fildes := none, fileLen := 0, pc := .writeLength }
  | found {file} : w.pc = .lookup → cache w.path = some file →
      WorkerMove cache g w g
        { w with fildes := some file, fileLen := toInt32 file.length, pc := .writeLength }
  | writeLength : w.pc = .writeLength →
      WorkerMove cache g w (g.shmWriteFileLength w.fileLen) { w with pc := .postLength }
  | postAbsent : w.pc = .postLength → w.fildes = none →
      WorkerMove cache g w (g.post .segment) { w with pc := .unmap }
  | postLength {file} : w.pc = .postLength → w.fildes = some file →
      WorkerMove cache g w (g.post .segment)
        { w with bytesTransferred := 0, k := 0, buffer := zeros 3500, pc := .loop }
  | fill {bytes} : w.pc = .loop → w.bytesTransferred < w.fileLen →
      bytes = pread (w.fildes.getD []) (readCount w) w.bytesTransferred.toNat →
      WorkerMove cache g w g
        { w with k := bytes.length, buffer := bytes ++ w.buffer.drop bytes.length, pc := .clearData }
  | done : w.pc = .loop → w.fileLen ≤ w.bytesTransferred → WorkerMove cache g w g { w with pc := .unmap }
  | clearData : w.pc = .clearData → WorkerMove cache g w g.clearData { w with pc := .copyData }
  | copyData : w.pc = .copyData → WorkerMove cache g w (g.copyData w.buffer) { w with pc := .postReader }
  | postReader : w.pc = .postReader → WorkerMove cache g w (g.post .reader) { w with pc := .advance }
  | advance : w.pc = .advance →
      WorkerMove cache g w g { w with
        bytesTransferred := toInt32 (w.bytesTransferred + w.k), buffer := zeros 3500, pc := .waitWriter }
  | waitWriter {g'} : w.pc = .waitWriter → g.wait .writer = some g' →
      WorkerMove cache g w g' { w with pc := .loop }
  | unmap : w.pc = .unmap → WorkerMove cache g w g { w with pc := .idle }

variable {g g' : Segment} {h h' : Handler} {w w' : Worker}

theorem handlerStep_move {result : Int} (hstep : handlerStep result g h = some (g', h')) :
    HandlerMove result g h g' h' := by
  cases hpc : h.pc with
  | pop | send | enqueue | returned | failed => simp [handlerStep, hpc] at hstep
  | create => simp only [handlerStep, hpc] at hstep; cases hstep; exact .create hpc
  | waitLength =>
      simp only [handlerStep, hpc] at hstep
      obtain ⟨g₁, hwait, heq⟩ := Option.map_eq_some_iff.mp hstep
      cases heq
      exact .waitLength hpc hwait
  | readLength =>
      simp only [handlerStep, hpc] at hstep
      split at hstep
      next hzero => rw [hzero] at hstep; cases hstep; exact .noLength hpc hzero
      next hlength => cases hstep; exact .readLength hpc hlength
  | header => simp only [handlerStep, hpc] at hstep; cases hstep; exact .header hpc
  | loop =>
      simp only [handlerStep, hpc] at hstep
      split at hstep
      next hmore => cases hstep; exact .more hpc hmore
      next hdone => cases hstep; exact .done hpc (Nat.not_lt.mp hdone)
  | waitReader =>
      simp only [handlerStep, hpc] at hstep
      obtain ⟨g₁, hwait, heq⟩ := Option.map_eq_some_iff.mp hstep
      cases heq
      exact .waitReader hpc hwait
  | readData => simp only [handlerStep, hpc] at hstep; cases hstep; exact .readData hpc
  | postWriter =>
      simp only [handlerStep, hpc] at hstep
      split at hstep
      next herror => cases hstep; exact .readError hpc herror
      next hread => cases hstep; exact .postWriter hpc (Int.not_lt.mp hread)
  | gfsSend => simp only [handlerStep, hpc] at hstep; cases hstep; exact .gfsSend hpc
  | unmap => simp only [handlerStep, hpc] at hstep; cases hstep; exact .unmap hpc
  | sendNotFound => simp only [handlerStep, hpc] at hstep; cases hstep; exact .sendNotFound hpc

theorem workerStep_move {cache : String → Option Content} (hstep : workerStep cache g w = some (g', w')) :
    WorkerMove cache g w g' w' := by
  cases hpc : w.pc with
  | idle => simp [workerStep, hpc] at hstep
  | getObject => simp only [workerStep, hpc] at hstep; cases hstep; exact .getObject hpc
  | lookup =>
      simp only [workerStep, hpc] at hstep
      split at hstep
      next habsent => cases hstep; exact .absent hpc habsent
      next hfound => cases hstep; exact .found hpc hfound
  | writeLength => simp only [workerStep, hpc] at hstep; cases hstep; exact .writeLength hpc
  | postLength =>
      simp only [workerStep, hpc] at hstep
      split at hstep
      next habsent => cases hstep; exact .postAbsent hpc habsent
      next hfound => cases hstep; exact .postLength hpc hfound
  | loop =>
      simp only [workerStep, hpc] at hstep
      split at hstep
      next hmore => cases hstep; exact .fill hpc hmore rfl
      next hdone => cases hstep; exact .done hpc (Int.not_lt.mp hdone)
  | clearData => simp only [workerStep, hpc] at hstep; cases hstep; exact .clearData hpc
  | copyData => simp only [workerStep, hpc] at hstep; cases hstep; exact .copyData hpc
  | postReader => simp only [workerStep, hpc] at hstep; cases hstep; exact .postReader hpc
  | advance => simp only [workerStep, hpc] at hstep; cases hstep; exact .advance hpc
  | waitWriter =>
      simp only [workerStep, hpc] at hstep
      obtain ⟨g₁, hwait, heq⟩ := Option.map_eq_some_iff.mp hstep
      cases heq
      exact .waitWriter hpc hwait
  | unmap => simp only [workerStep, hpc] at hstep; cases hstep; exact .unmap hpc

end GraduateOS.Shm.LocalSteps
