import GraduateOS.Dfs.FedBytes
import GraduateOS.Dfs.Part1
import GraduateOS.Dfs.Transfers

namespace GraduateOS.Dfs.StoredBytes

open Directory hiding File
open Checksum FedBytes Messages ServerNode Storing ClientNode Transfers

/-- `Store` of Part 2 when the handler may find the call cancelled after some message. -/
def storeSeen (clientId : String) (m : Mount) (f : String) (s : Server) (isCancelled : Nat → Bool)
    (now : Int) : Server × StatusCode :=
  match m.dir.content f with
  | none => (s, .cancelled)
  | some content =>
      let answer := s.storeFile (seen isCancelled (storeMessages clientId f content)) now
      (answer.1, storeReply answer.2)

def PutsBytes (before : Dir) (f : String) (bytes : Content) (after : Dir) (code : StatusCode) : Prop :=
  (code = .ok → after.content f = some bytes) ∧
    (code = .alreadyExists → before.content f = some bytes)

variable {f c : String} {bytes : Content} {s : Server} {m : Mount} {d : Dir}

theorem putsBytes_deadline (before after : Dir) :
    PutsBytes before f bytes after .deadlineExceeded := by
  simp [PutsBytes]

theorem delivered_of_uncancelled {α : Type} {reads : List (α × Bool)} (h : ∀ r ∈ reads, r.2 = false) :
    reads = (reads.map Prod.fst).map (fun m => (m, false)) := by
  induction reads with
  | nil => rfl
  | cons r reads ih =>
      have hr : r = (r.1, false) := Prod.ext rfl (h r (by simp))
      rw [List.map_cons, List.map_cons, ← hr, ← ih (fun q hq => h q (by simp [hq]))]

theorem seen_fst {α : Type} (isCancelled : Nat → Bool) (messages : List α) :
    (seen isCancelled messages).map Prod.fst = messages := by
  simp [seen, Function.comp_def]

theorem seen_cons {α : Type} (isCancelled : Nat → Bool) (message : α) (messages : List α) :
    ∃ rest, seen isCancelled (message :: messages) = (message, isCancelled 0) :: rest ∧
      rest.map Prod.fst = messages := by
  refine ⟨_, rfl, ?_⟩
  simp [Function.comp_def]

theorem storeSeen_store (now : Int) :
    storeSeen c m f s (fun _ => false) now = store c m f s now := by
  have hseen (messages : List StoreFileInput) : seen (fun _ => false) messages = delivered messages := by
    have hall : ∀ r ∈ seen (fun _ => false) messages, r.2 = false := by simp [seen]
    rw [delivered_of_uncancelled hall, seen_fst]
    rfl
  unfold storeSeen store
  cases m.dir.content f with
  | none => rfl
  | some content => simp only [hseen]

theorem storeLoop_code (now : Int) (reads : List (StoreFileInput × Bool)) (s : Server) (v : StoreVars)
    (hflag : v.flag = false) :
    (∀ r ∈ reads, r.2 = false) ∨ (storeLoop now s v reads).2 = .deadlineExceeded := by
  induction reads generalizing s v with
  | nil => simp
  | cons r reads ih =>
      obtain ⟨request, isCancelled⟩ := r
      cases isCancelled with
      | true => exact .inr (by simp [storeLoop])
      | false =>
          simpa [storeLoop, hflag] using ih (s.writeAt v.file v.bytesTransferred request now)
            ⟨request, false, v.file, v.bytesTransferred + request.contentSize⟩ rfl

theorem storeFile_putsBytes (hn : f ≠ "") (hfree : s.holder f = none ∨ s.holder f = some c)
    (hne : bytes ≠ []) (hsame : dfsFileChecksum (some bytes) = dfsFileChecksum (s.dir.content f) →
      s.dir.content f = some bytes) (isCancelled : Nat → Bool) (now : Int) :
    let answer := s.storeFile (seen isCancelled (storeMessages c f bytes)) now
    PutsBytes s.dir f bytes answer.1.dir (storeReply answer.2) := by
  obtain ⟨p, chunks, hmessages, hbytes, hsize⟩ := storeMessages_cons hne c f
  obtain ⟨rest, hseen, hrest⟩ := seen_cons isCancelled
    (storeMessage f c (dfsFileChecksum (some bytes)) p)
    (chunks.map (storeMessage f c (dfsFileChecksum (some bytes))))
  rw [hmessages, List.map_cons, hseen]
  cases isCancelled 0 with
  | true => simpa [Server.storeFile, storeLoop, storeReply] using putsBytes_deadline s.dir s.dir
  | false =>
      by_cases hcrc : dfsFileChecksum (some bytes) = dfsFileChecksum (s.dir.content f)
      · rw [storeFile_unchanged hfree rfl rfl hcrc]
        simp [PutsBytes, storeReply, hsame hcrc]
      · have hloop : ∃ s' v', s.storeFile
            ((storeMessage f c (dfsFileChecksum (some bytes)) p, false) :: rest) now =
              storeLoop now s' v' rest ∧ v'.flag = false := by
          obtain ⟨s', v', hrun, _, _, _, hflag, _⟩ := storeFile_opened hn hfree hcrc p []
            (fun q hq => hsize q (by simp_all)) rest now
          exact ⟨s', v', hrun, hflag⟩
        obtain ⟨s', v', hrun, hflag⟩ := hloop
        rcases storeLoop_code now rest s' v' hflag with hall | hcode
        · rw [delivered_of_uncancelled hall, hrest]
          obtain ⟨s₁, v₁, hwhole, _, hcontent, _⟩ := storeFile_opened hn hfree hcrc p chunks hsize [] now
          have hanswer : s.storeFile ((storeMessage f c (dfsFileChecksum (some bytes)) p, false) ::
              delivered (chunks.map (storeMessage f c (dfsFileChecksum (some bytes))))) now =
                ((s₁.unlock v₁.request.fileName).1, .ok) := by
            simpa [delivered, storeLoop] using hwhole
          rw [delivered] at hanswer
          rw [hanswer]
          simp [PutsBytes, storeReply, unlock_dir, hcontent, hbytes]
        · simp only [hrun, hcode, storeReply]
          exact putsBytes_deadline _ _

/-- Part 2 keeps its promise exactly when no empty file is to be stored over
another one, and the checksum of the server's file, 0 for none, does not stand for other bytes. -/
theorem storeSeen_putsBytes_iff (hn : f ≠ "") (hm : m.dir.content f = some bytes)
    (hfree : s.holder f = none ∨ s.holder f = some c) (now : Int) :
    (∀ isCancelled, PutsBytes s.dir f bytes (storeSeen c m f s isCancelled now).1.dir
      (storeSeen c m f s isCancelled now).2) ↔
    if bytes = [] then s.dir.content f = some []
    else dfsFileChecksum (some bytes) = dfsFileChecksum (s.dir.content f) → s.dir.content f = some bytes := by
  simp only [storeSeen, hm]
  by_cases hne : bytes = []
  · subst hne
    simp [storeMessages_nil, seen, Server.storeFile, storeLoop, storeReply, PutsBytes, unlock_dir]
  · rw [if_neg hne]
    constructor
    · intro h hcrc
      obtain ⟨p, chunks, hmessages, _, _⟩ := storeMessages_cons hne c f
      obtain ⟨rest, hseen, _⟩ := seen_cons (fun _ => false)
        (storeMessage f c (dfsFileChecksum (some bytes)) p)
        (chunks.map (storeMessage f c (dfsFileChecksum (some bytes))))
      have hexists := (h (fun _ => false)).2
      rw [hmessages, List.map_cons, hseen, storeFile_unchanged hfree rfl rfl hcrc] at hexists
      exact hexists rfl
    · intro hsame isCancelled
      exact storeFile_putsBytes hn hfree hne hsame isCancelled now

theorem uploadLoop_code (now : Int) (reads : List (Part1.File × Bool)) (d : Dir) (file : Option String)
    (k : Nat) : (∀ r ∈ reads, r.2 = false) ∨
      (Part1.uploadLoop now d file k reads).2 = .deadlineExceeded := by
  induction reads generalizing d file k with
  | nil => simp
  | cons r reads ih =>
      obtain ⟨request, isCancelled⟩ := r
      cases isCancelled with
      | true => exact .inr (by simp [Part1.uploadLoop])
      | false => simpa [Part1.uploadLoop] using ih _ _ _

theorem uploadLoop_content (now : Int) (chunks : List (Nat × Content)) (hsize : Sized chunks) (d : Dir)
    {old : Content} (hold : d.content f = some old) :
    let answer := Part1.uploadLoop now d (some f) old.length
      ((chunks.map (Part1.fileMessage f)).map (fun m => (m, false)))
    answer.1.content f = some (old ++ bytesOf chunks) ∧ answer.2 = .ok := by
  induction chunks generalizing d old with
  | nil => simpa [Part1.uploadLoop] using hold
  | cons p chunks ih =>
      have hp : p.1 = p.2.length := hsize p (by simp)
      have hnext := ih (fun q hq => hsize q (by simp [hq])) _ (content_writeAt_end hold p.2 now)
      simpa [Part1.uploadLoop, Part1.fileMessage, written, hp] using hnext

/-- Part 1 has no checksum to compare, so only the empty file goes wrong. -/
theorem part1_putsBytes_iff (hn : f ≠ "") (hd : d.content f = some bytes) (server : Dir) (now : Int) :
    (∀ isCancelled, PutsBytes server f bytes (Part1.store d f server isCancelled now).1
      (Part1.store d f server isCancelled now).2) ↔ (bytes = [] → server.content f = some []) := by
  simp only [Part1.store, hd]
  by_cases hne : bytes = []
  · subst hne
    simp [fileChunks_nil, seen, Part1.uploadFile, Part1.uploadLoop, Part1.storeReply, PutsBytes]
  · refine iff_of_true (fun isCancelled => ?_) (fun h => absurd h hne)
    have hsize : Sized (fileChunks bytes) := fun q hq => (fileChunks_sizes hq).1
    have hbytes : bytesOf (fileChunks bytes) = bytes := fileChunks_flatten bytes
    have hfst := seen_fst isCancelled ((fileChunks bytes).map (Part1.fileMessage f))
    generalize seen isCancelled ((fileChunks bytes).map (Part1.fileMessage f)) = reads at hfst
    rcases uploadLoop_code now reads server none 0 with hall | hcode
    · rw [delivered_of_uncancelled hall, hfst]
      obtain ⟨p, chunks, hp⟩ := List.exists_cons_of_ne_nil (fileChunks_ne_nil hne)
      rw [hp] at hsize hbytes ⊢
      have hopen : (server.openOut f now).content f = some [] := by
        simp [Dir.content, Dir.openOut, hn]
      obtain ⟨hcontent, hok⟩ := uploadLoop_content now (p :: chunks) hsize _ hopen
      have hanswer : Part1.uploadFile server
          (((p :: chunks).map (Part1.fileMessage f)).map (fun m => (m, false))) now =
          Part1.uploadLoop now (server.openOut f now) (some f) 0
            (((p :: chunks).map (Part1.fileMessage f)).map (fun m => (m, false))) := by
        simp [Part1.uploadFile, Part1.uploadLoop, Part1.fileMessage]
      rw [hanswer]
      simp only [List.length_nil, List.nil_append] at hcontent hok
      simp only [hok, Part1.storeReply]
      exact ⟨fun _ => by rw [hcontent, hbytes], by simp⟩
    · simp only [Part1.uploadFile, hcode, Part1.storeReply]
      exact putsBytes_deadline _ _

/-- When a good code of `Store` means what it says, in Part 1 and in Part 2. -/
theorem store_putsBytes_iff (f : FileName) (c : String) (bytes : Content) (now : Int) (d server : Dir)
    (hd : d.content f = some bytes) (m : Mount) (hm : m.dir.content f = some bytes) (s : Server)
    (hfree : s.holder f = none ∨ s.holder f = some c) :
    ((∀ isCancelled, PutsBytes server f bytes (Part1.store d f server isCancelled now).1
        (Part1.store d f server isCancelled now).2) ↔ (bytes = [] → server.content f = some [])) ∧
    ((∀ isCancelled, PutsBytes s.dir f bytes (storeSeen c m f s isCancelled now).1.dir
        (storeSeen c m f s isCancelled now).2) ↔
      if bytes = [] then s.dir.content f = some []
      else dfsFileChecksum (some bytes) = dfsFileChecksum (s.dir.content f) → s.dir.content f = some bytes) :=
  ⟨part1_putsBytes_iff f.2 hd server now, storeSeen_putsBytes_iff f.2 hm hfree now⟩

def oneFile (bytes : Content) : Dir := empty.put "f.txt" ⟨bytes, 0⟩

/-- A store over another version. -/
theorem twoVersions_putsBytes :
    ((∀ isCancelled, PutsBytes (oneFile [7]) "f.txt" [1, 2, 3]
        (Part1.store (oneFile [1, 2, 3]) "f.txt" (oneFile [7]) isCancelled 1).1
        (Part1.store (oneFile [1, 2, 3]) "f.txt" (oneFile [7]) isCancelled 1).2) ↔
      (([1, 2, 3] : Content) = [] → (oneFile [7]).content "f.txt" = some [])) ∧
    ((∀ isCancelled, PutsBytes (oneFile [7]) "f.txt" [1, 2, 3]
        (storeSeen "A" ⟨oneFile [1, 2, 3], []⟩ "f.txt" ⟨oneFile [7], ∅⟩ isCancelled 1).1.dir
        (storeSeen "A" ⟨oneFile [1, 2, 3], []⟩ "f.txt" ⟨oneFile [7], ∅⟩ isCancelled 1).2) ↔
      if ([1, 2, 3] : Content) = [] then (oneFile [7]).content "f.txt" = some []
      else dfsFileChecksum (some [1, 2, 3]) = dfsFileChecksum ((oneFile [7]).content "f.txt") →
        (oneFile [7]).content "f.txt" = some [1, 2, 3]) :=
  store_putsBytes_iff ⟨"f.txt", by decide⟩ "A" [1, 2, 3] 1 (oneFile [1, 2, 3]) (oneFile [7]) rfl
    ⟨oneFile [1, 2, 3], []⟩ rfl ⟨oneFile [7], ∅⟩ (.inl rfl)

/-- A new empty file is reported as stored and never created. In Part 2 a file
with checksum 0 is also taken for one that the server has, and so is one whose
last chunk is filled up with old bytes to those of another file. -/
theorem empty_store_putsNothing :
    (¬ ∀ (f : FileName) (bytes : Content) (now : Int) (d server : Dir), d.content f = some bytes →
      ∀ isCancelled, PutsBytes server f bytes (Part1.store d f server isCancelled now).1
        (Part1.store d f server isCancelled now).2) ∧
    ∀ p ∈ [([], empty), ([0x9d, 0x0a, 0xd9, 0x6d], empty), ([1, 2, 3, 4, 5], oneFile [1, 2, 3, 4, 5, 4])],
      ¬ ∀ (f : FileName) (c : String) (now : Int) (m : Mount), m.dir.content f = some p.1 →
        ∀ s : Server, s.dir = p.2 → s.holder f = none ∨ s.holder f = some c →
        (∀ old ∈ s.dir.content f, crc32 old = crc32 p.1 → old = p.1) →
        ∀ isCancelled, PutsBytes s.dir f p.1 (storeSeen c m f s isCancelled now).1.dir
          (storeSeen c m f s isCancelled now).2 := by
  constructor
  · intro h
    exact absurd ((h ⟨"f.txt", by decide⟩ [] 1 (oneFile []) empty rfl (fun _ => false)).1 rfl)
      (by decide)
  · intro p hp h
    have hputs := h ⟨"f.txt", by decide⟩ "A" 1 ⟨oneFile p.1, []⟩ (by simp [Dir.content, oneFile]) ⟨p.2, ∅⟩ rfl (.inl rfl)
    simp only [List.mem_cons, List.not_mem_nil, or_false] at hp
    rcases hp with rfl | rfl | rfl
    · exact absurd ((hputs (by simp [Dir.content]) fun _ => false).1 rfl) (by decide)
    · exact absurd ((hputs (by simp [Dir.content]) fun _ => false).2 (by decide +kernel)) (by decide)
    · have hother : ∀ old ∈ (oneFile [1, 2, 3, 4, 5, 4]).content "f.txt",
          crc32 old = crc32 [1, 2, 3, 4, 5] → old = [1, 2, 3, 4, 5] := by decide +kernel
      exact absurd ((hputs hother fun _ => false).2 (by decide +kernel)) (by decide +kernel)

end GraduateOS.Dfs.StoredBytes
