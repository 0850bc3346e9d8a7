namespace GraduateOS.Shm.Segments

abbrev Content := List UInt8

/-- `shm_object`, with the values of its semaphores. Its mutex is never used. -/
structure Segment where
  semSegment : Nat
  semWriter : Nat
  semReader : Nat
  fileLength : Int
  buffer : Content

inductive Semaphore
  | segment | writer | reader
  deriving DecidableEq

def Segment.value (g : Segment) : Semaphore → Nat
  | .segment => g.semSegment
  | .writer => g.semWriter
  | .reader => g.semReader

def Segment.post (g : Segment) : Semaphore → Segment
  | .segment => { g with semSegment := g.semSegment + 1 }
  | .writer => { g with semWriter := g.semWriter + 1 }
  | .reader => { g with semReader := g.semReader + 1 }

/-- `sem_wait` blocks while the value is zero. -/
def Segment.wait (g : Segment) : Semaphore → Option Segment
  | .segment => if g.semSegment = 0 then none else some { g with semSegment := g.semSegment - 1 }
  | .writer => if g.semWriter = 0 then none else some { g with semWriter := g.semWriter - 1 }
  | .reader => if g.semReader = 0 then none else some { g with semReader := g.semReader - 1 }

/-- The initialisation in `shm_create`. A segment that exists keeps its bytes. -/
def Segment.shmCreate (g : Segment) : Segment :=
  { g with fileLength := -1, semSegment := 0, semReader := 0, semWriter := 0 }

def Segment.shmWriteFileLength (g : Segment) (length : Int) : Segment := { g with fileLength := length }

def zeros (n : Nat) : Content := List.replicate n 0

/-- `shm_write_data` in its two steps: `bzero` of 3500 bytes, `memcpy` of 3499. -/
def Segment.clearData (g : Segment) : Segment := { g with buffer := zeros 3500 ++ g.buffer.drop 3500 }

def Segment.copyData (g : Segment) (data : Content) : Segment :=
  { g with buffer := data.take 3499 ++ g.buffer.drop 3499 }

def Segment.shmReadData (g : Segment) : Content := g.buffer.take 3499

def Segment.Empty (g : Segment) : Prop := g.semSegment = 0 ∧ g.semReader = 0 ∧ g.semWriter = 0

theorem wait_value {g g' : Segment} {s : Semaphore} (h : g.wait s = some g') :
    g.value s = g'.value s + 1 ∧ (∀ s', s' ≠ s → g'.value s' = g.value s') ∧
      g'.fileLength = g.fileLength ∧ g'.buffer = g.buffer := by
  cases s <;> simp only [Segment.wait] at h <;> split at h <;> cases h <;>
    refine ⟨by simp only [Segment.value]; omega, ?_, rfl, rfl⟩ <;> intro s' hs' <;> cases s' <;>
    first | rfl | exact absurd rfl hs'

theorem wait_blocked {g : Segment} {s : Semaphore} : g.wait s = none ↔ g.value s = 0 := by
  cases s <;> simp [Segment.wait, Segment.value]

theorem shmCreate_empty (g : Segment) : g.shmCreate.Empty := ⟨rfl, rfl, rfl⟩

end GraduateOS.Shm.Segments
