import GraduateOS.Dfs.Storing

namespace GraduateOS.Dfs.UnfinishedStore

open Directory Checksum Messages ServerNode Storing

/-- How a store stops short: the handler reads one more chunk and then finds
the call cancelled, or `Read` fails. -/
inductive Interruption
  | cancelled | broken
  deriving DecidableEq

/-- The reads of a store interrupted after its first `k` chunks. -/
def readsUntil (messages : List StoreFileInput) (k : Nat) : Interruption → List (StoreFileInput × Bool)
  | .cancelled => delivered (messages.take k) ++ messages[k]?.toList.map (fun m => (m, true))
  | .broken => delivered (messages.take k) ++ []

def chunkMessages (f c : String) (crc : UInt32) (chunks : List Content) : List StoreFileInput :=
  (chunks.map (fun b => (b.length, b))).map (storeMessage f c crc)

/-- The file is as before, and if the client holds its lock now, it held it before the call. -/
def LeavesNoTrace (s s' : Server) (f c : String) : Prop :=
  s'.dir.content f = s.dir.content f ∧ (s'.holder f = some c → s.holder f = some c)

/-- The store comes to nothing at its first chunk, or what it has written
happens to be the old content and its lock is given back or was there before. -/
def StopsCleanly (s : Server) (f c : String) (crc : UInt32) (read : List Content)
    (how : Interruption) : Prop :=
  read = [] ∨ (∃ c', s.holder f = some c' ∧ c' ≠ c) ∨ crc = dfsFileChecksum (s.dir.content f) ∨
    (s.dir.content f = some read.flatten ∧ (how = .broken ∨ s.holder f = some c))

variable {s : Server} {f c : String} {crc : UInt32}

theorem noTrace_refl (s : Server) (f c : String) : LeavesNoTrace s s f c := ⟨rfl, id⟩

theorem chunkMessages_take (f c : String) (crc : UInt32) (chunks : List Content) (k : Nat) :
    (chunkMessages f c crc chunks).take k = chunkMessages f c crc (chunks.take k) := by
  simp [chunkMessages, List.map_take]

/-- The handler decides on the first chunk, which names the file, the client and the checksum. -/
theorem readsUntil_head (f c : String) (crc : UInt32) (chunks : List Content) (k : Nat)
    (hk : k + 1 < chunks.length) (how : Interruption) :
    ∃ m reads, readsUntil (chunkMessages f c crc chunks) (k + 1) how = (m, false) :: reads ∧
      m.fileName = f ∧ m.clientID = c ∧ m.crc = crc := by
  cases chunks with
  | nil => simp at hk
  | cons b chunks =>
      cases how with
      | cancelled => exact ⟨_, _, rfl, rfl, rfl, rfl⟩
      | broken => exact ⟨_, _, rfl, rfl, rfl, rfl⟩

theorem unlock_noTrace (s : Server) (f g c : String) : LeavesNoTrace s (s.unlock g).1 f c := by
  refine ⟨by rw [unlock_dir], ?_⟩
  intro h
  rw [unlock_holder] at h
  split at h
  · cases h
  · exact h

theorem lockedUnlocked_noTrace (s : Server) (f c : String) :
    LeavesNoTrace s ((s.lock f c).1.unlock f).1 f c := by
  refine ⟨by rw [unlock_dir, lock_dir], ?_⟩
  intro h
  simp [unlock_holder] at h

/-- Nothing has been read yet: no lock of this call, and no file touched. -/
theorem unread_noTrace (s : Server) (f c : String) (messages : List StoreFileInput)
    (how : Interruption) (now : Int) :
    LeavesNoTrace s (s.storeFile (readsUntil messages 0 how) now).1 f c := by
  cases how with
  | cancelled =>
      cases messages with
      | nil => exact unlock_noTrace s f "" c
      | cons m messages => exact noTrace_refl s f c
  | broken => exact unlock_noTrace s f "" c

/-- A store that got as far as opening the file leaves what it has read; only
the end of the stream gives the lock back. -/
theorem opened_noTrace_iff (hn : f ≠ "") (hfree : s.holder f = none ∨ s.holder f = some c)
    (hcrc : crc ≠ dfsFileChecksum (s.dir.content f)) (chunks : List Content) (k : Nat)
    (hk : k + 1 < chunks.length) (how : Interruption) (now : Int) :
    LeavesNoTrace s (s.storeFile (readsUntil (chunkMessages f c crc chunks) (k + 1) how) now).1 f c ↔
      s.dir.content f = some (chunks.take (k + 1)).flatten ∧
        (how = .broken ∨ s.holder f = some c) := by
  cases chunks with
  | nil => simp at hk
  | cons b chunks =>
      have hsize : Sized ((b.length, b) :: (chunks.take k).map (fun b => (b.length, b))) := by
        intro p hp
        rw [← List.map_cons (f := fun b : Content => (b.length, b))] at hp
        obtain ⟨b, _, rfl⟩ := List.mem_map.mp hp
        rfl
      have hbytes : bytesOf ((b.length, b) :: (chunks.take k).map (fun b => (b.length, b))) =
          ((b :: chunks).take (k + 1)).flatten := by
        simp [bytesOf, List.map_map, Function.comp_def]
      have htake : (chunkMessages f c crc (b :: chunks)).take (k + 1) =
          ((b.length, b) :: (chunks.take k).map (fun b => (b.length, b))).map (storeMessage f c crc) := by
        rw [chunkMessages_take]; rfl
      cases how with
      | cancelled =>
          obtain ⟨s', v', hrun, hlock, hcontent, _⟩ := storeFile_opened hn hfree hcrc _ _ hsize
            ((chunkMessages f c crc (b :: chunks))[k + 1]?.toList.map (fun m => (m, true))) now
          have hm : (chunkMessages f c crc (b :: chunks))[k + 1]?.isSome := by
            simpa [chunkMessages] using hk
          obtain ⟨m, hm⟩ := Option.isSome_iff_exists.mp hm
          have hheld : s'.holder f = some c := by rw [Server.holder, hlock, AList.lookup_insert]
          rw [readsUntil, htake, hrun, hm, hbytes] at *
          simp only [LeavesNoTrace, storeLoop, Option.toList_some, List.map_cons, if_true, hcontent,
            hheld, true_implies, reduceCtorEq, false_or]
          rw [eq_comm]
      | broken =>
          obtain ⟨s', v', hrun, _, hcontent, _, _, hname⟩ :=
            storeFile_opened hn hfree hcrc _ _ hsize [] now
          rw [readsUntil, htake, hrun]
          simp only [LeavesNoTrace, storeLoop, unlock_dir, unlock_holder, hname, hcontent, hbytes,
            if_true, reduceCtorEq, false_implies, and_true, true_or]
          rw [eq_comm]

/-- When an interrupted store leaves no trace. -/
theorem interrupted_noTrace_iff (s : Server) (f : FileName) (c : String) (crc : UInt32)
    (chunks : List Content) (k : Fin chunks.length) (how : Interruption) (now : Int) :
    LeavesNoTrace s (s.storeFile (readsUntil (chunkMessages f c crc chunks) k how) now).1 f c ↔
      StopsCleanly s f c crc (chunks.take k) how := by
  obtain ⟨k, hk⟩ := k
  cases k with
  | zero => exact iff_of_true (unread_noTrace s f c _ how now) (.inl (List.take_zero))
  | succ k =>
      have hread : chunks.take (k + 1) ≠ [] := by
        rw [ne_eq, List.take_eq_nil_iff]
        rintro (h | rfl)
        · omega
        · simp at hk
      obtain ⟨m, reads, hreads, hf, hc, hm⟩ := readsUntil_head f c crc chunks k hk how
      by_cases hfree : s.holder f = none ∨ s.holder f = some c
      · by_cases hcrc : crc = dfsFileChecksum (s.dir.content f)
        · rw [hreads, storeFile_unchanged hfree hf hc (hm.trans hcrc)]
          exact iff_of_true (lockedUnlocked_noTrace s f c) (.inr (.inr (.inl hcrc)))
        · rw [opened_noTrace_iff f.2 hfree hcrc chunks k hk how now]
          have hother : ¬ ∃ c', s.holder f = some c' ∧ c' ≠ c := by
            rintro ⟨c', hc', hne⟩
            rcases hfree with h | h <;> simp_all
          simp [StopsCleanly, hread, hother, hcrc]
      · obtain ⟨c', hc'⟩ := Option.ne_none_iff_exists'.mp (fun h => hfree (.inl h))
        have hne : c' ≠ c := by rintro rfl; exact hfree (.inr hc')
        rw [hreads, storeFile_refused hc' hne hf hc]
        exact iff_of_true (noTrace_refl s f c) (.inr (.inl ⟨c', hc', hne⟩))

/-- Client A stores a file of 4001 bytes over `[9]`, and the stream breaks after the first chunk. -/
theorem broken_store_truncates : ¬ ∀ (s : Server) (f : FileName) (c : String) (crc : UInt32)
    (chunks : List Content) (k : Fin chunks.length) (how : Interruption) (now : Int),
    LeavesNoTrace s (s.storeFile (readsUntil (chunkMessages f c crc chunks) k how) now).1 f c := by
  intro h
  have htrace := h ⟨empty.put "f.txt" ⟨[9], 0⟩, ∅⟩ ⟨"f.txt", by decide⟩ "A" 2975848014
    [List.replicate 4000 7, [7]] ⟨1, by decide⟩ .broken 1
  have hsame := ((opened_noTrace_iff (by decide) (.inl rfl) (by decide) _ 0 (by decide) _ _).mp
    htrace).1
  have hlength := congrArg (Option.map List.length) hsame
  simp [Dir.content, -List.reduceReplicate] at hlength

end GraduateOS.Dfs.UnfinishedStore
