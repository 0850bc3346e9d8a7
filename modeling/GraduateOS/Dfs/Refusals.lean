import GraduateOS.Dfs.Storing

namespace GraduateOS.Dfs.Refusals

open Directory Checksum Messages ServerNode Storing

/-- The three calls that look at the lock of a file. A store is given by what
its handler reads; the flags say when it finds the call cancelled. -/
inductive Request
  | delete (isCancelled : Bool)
  | requestLock
  | store (reads : List (StoreFileInput × Bool))

def Request.Names (f c : String) : Request → Prop
  | .store reads => ∀ r ∈ reads, r.1.fileName = f ∧ r.1.clientID = c
  | _ => True

def serve (s : Server) (f c : String) (now : Int) : Request → Server × StatusCode
  | .delete isCancelled => s.deleteFile ⟨f, c⟩ isCancelled
  | .requestLock => s.requestLock ⟨c, f⟩
  | .store reads => s.storeFile reads now

inductive Reachable : Server → Prop
  | start (d : Dir) : Reachable ⟨d, ∅⟩
  | call {s} (f c now) (r : Request) : Reachable s → r.Names f c → Reachable (serve s f c now r).1

def ChangesNothing (s : Server) (answer : Server × StatusCode) : Prop :=
  answer.2 ≠ .ok ∧ (∀ g, answer.1.dir.content g = s.dir.content g) ∧ answer.1.lockList = s.lockList

/-- `deleteFile` removes the file before it asks for the lock, so it is
harmless only where it does not come that far. A store without messages does
not name a file at all. -/
def Harmless (s : Server) (f : String) : Request → Prop
  | .delete isCancelled => isCancelled = true ∨ s.dir.lookup f = none
  | .requestLock => True
  | .store reads => reads ≠ []

variable {s : Server} {f c c' : String}

theorem deleteFile_refused (hheld : s.holder f = some c') (hne : c' ≠ c)
    (hfile : s.dir.lookup f ≠ none) :
    s.deleteFile ⟨f, c⟩ false = ({ s with dir := s.dir.remove f }, .resourceExhausted) := by
  have hl : ({ s with dir := s.dir.remove f } : Server).lock f c = (_, .resourceExhausted) :=
    lock_refused hheld hne
  simp [Server.deleteFile, hfile, hl]

theorem delete_changesNothing (hheld : s.holder f = some c') (hne : c' ≠ c) (isCancelled : Bool) :
    ChangesNothing s (s.deleteFile ⟨f, c⟩ isCancelled) ↔
      isCancelled = true ∨ s.dir.lookup f = none := by
  cases isCancelled with
  | true => simp [ChangesNothing, Server.deleteFile]
  | false =>
      by_cases hfile : s.dir.lookup f = none
      · simp [ChangesNothing, Server.deleteFile, hfile]
      · rw [deleteFile_refused hheld hne hfile]
        constructor
        · rintro ⟨_, hsame, _⟩
          have hf := hsame f
          simp only [Dir.content, lookup_remove_self, Option.map_none] at hf
          exact absurd (content_eq_none.mp hf.symm) hfile
        · simp [hfile]

theorem requestLock_changesNothing (hheld : s.holder f = some c') (hne : c' ≠ c) :
    ChangesNothing s (s.requestLock ⟨c, f⟩) := by
  rw [Server.requestLock, lock_refused hheld hne]
  exact ⟨by simp, fun _ => rfl, rfl⟩

theorem store_changesNothing (hheld : s.holder f = some c') (hne : c' ≠ c)
    (reads : List (StoreFileInput × Bool)) (hnames : (Request.store reads).Names f c) (now : Int) :
    ChangesNothing s (s.storeFile reads now) ↔ reads ≠ [] := by
  cases reads with
  | nil => simp [ChangesNothing, Server.storeFile, storeLoop]
  | cons r reads =>
      obtain ⟨m, isCancelled⟩ := r
      obtain ⟨hf, hc⟩ := hnames (m, isCancelled) (by simp)
      refine iff_of_true ?_ (by simp)
      cases isCancelled with
      | true => exact ⟨by simp [Server.storeFile, storeLoop], fun _ => rfl, rfl⟩
      | false =>
          rw [storeFile_refused hheld hne hf hc]
          exact ⟨by simp, fun _ => rfl, rfl⟩

/-- Which refused requests leave files and locks alone. -/
theorem refused_changesNothing_iff (s : Server) (f c c' : String) (hheld : s.holder f = some c')
    (hne : c' ≠ c) (r : Request) (hnames : r.Names f c) (now : Int) :
    ChangesNothing s (serve s f c now r) ↔ Harmless s f r := by
  cases r with
  | delete isCancelled => exact delete_changesNothing hheld hne isCancelled
  | requestLock => exact iff_of_true (requestLock_changesNothing hheld hne) trivial
  | store reads => exact store_changesNothing hheld hne reads hnames now

def heldServer : Server := ((Server.mk (empty.put "f.txt" ⟨[1], 0⟩) ∅).requestLock ⟨"A", "f.txt"⟩).1

theorem heldServer_reachable : Reachable heldServer :=
  .call "f.txt" "A" 0 .requestLock (.start _) trivial

theorem refused_delete_at_heldServer :
    ChangesNothing heldServer (serve heldServer "f.txt" "B" 0 (.delete false)) ↔
      Harmless heldServer "f.txt" (.delete false) :=
  refused_changesNothing_iff heldServer "f.txt" "B" "A" (by decide) (by decide) (.delete false)
    trivial 0

/-- Client B's refused deletion removes the file on which A holds the lock. -/
theorem refused_delete_removes : ¬ ∀ s, Reachable s → ∀ f c c', s.holder f = some c' → c' ≠ c →
    ∀ r : Request, r.Names f c → ∀ now, ChangesNothing s (serve s f c now r) := by
  intro h
  have hnothing := h heldServer heldServer_reachable "f.txt" "B" "A" (by decide) (by decide)
    (.delete false) trivial 0
  exact absurd (hnothing.2.1 "f.txt") (by decide)

end GraduateOS.Dfs.Refusals
