import GraduateOS.Dfs.Transfers
import GraduateOS.Dfs.Part1

namespace GraduateOS.Dfs.Fetching

open Directory Checksum Messages ServerNode ClientNode Transfers

/-- The result that `Fetch` is documented to have when the call itself does not fail. -/
def MeetsSpec (s : Server) (m : Mount) (f : String) (result : Mount × StatusCode) : Prop :=
  match s.dir.content f with
  | none => result = (m, .notFound)
  | some bytes =>
      result.1.dir.content f = some bytes ∧
        result.2 = if m.dir.content f ≠ none ∧
          dfsFileChecksum (m.dir.content f) = dfsFileChecksum (some bytes) then .alreadyExists else .ok

def KeepsCopy (before : Dir) (f : String) (after : Dir) (code : StatusCode) : Prop :=
  code ≠ .ok → after.content f = before.content f

def writtenReads (own : UInt32) (messages : List FetchFileOutput) : List FetchFileOutput :=
  messages.takeWhile (fun r => r.contentSize ≠ 0 ∧ r.crc ≠ own)

variable {s : Server} {m : Mount} {f : String} {now : Int}

/-- The meaning of a message without content is the same on both sides only
for a file that the server lacks. -/
theorem fetch_meetsSpec_iff (s : Server) (m : Mount) (f : FileName) (now : Int) :
    MeetsSpec s m f (fetch m f s now) ↔ s.dir.content f = none ∨ Receives m f s := by
  unfold MeetsSpec
  split
  next h => simp [h, fetch_absent h]
  next bytes h =>
    by_cases hr : Receives m f s
    · obtain ⟨hok, hcontent, _, _⟩ := fetch_receives now hr
      obtain ⟨b, hb, _, hcrc⟩ := hr
      cases h.symm.trans hb
      have hne : ¬ (m.dir.content f ≠ none ∧
          dfsFileChecksum (m.dir.content f) = dfsFileChecksum (some bytes)) := fun h' => hcrc h'.2
      simp only [hok, hcontent, h, if_neg hne, and_self, true_iff]
      exact .inr ⟨bytes, h, ‹_›, hcrc⟩
    · have hno : ¬ (s.dir.content f = none ∨ Receives m f s) := by simp [h, hr]
      refine iff_of_false ?_ (h ▸ hno)
      rintro ⟨hcontent, hcode⟩
      by_cases hcrc : dfsFileChecksum (m.dir.content f) = dfsFileChecksum (some bytes)
      · rw [fetch_same h hcrc] at hcode
        split at hcode <;> cases hcode
      · rw [fetch_keeps _ hr] at hcontent
        exact hcrc (by rw [hcontent])

/-- Both sides have the same file of one byte, and `Fetch` reports it missing. -/
theorem fetch_same_notFound : ¬ ∀ (s : Server) (m : Mount) (f : FileName) (now : Int),
    CollisionFree ([] :: (s.dir.content f).toList ++ (m.dir.content f).toList) →
      MeetsSpec s m f (fetch m f s now) := by
  intro h
  have hspec := h ⟨empty.put "f.txt" ⟨[1], 0⟩, ∅⟩ ⟨empty.put "f.txt" ⟨[1], 0⟩, []⟩
    ⟨"f.txt", by decide⟩ 1 (by decide)
  exact absurd hspec.2 (by decide)

theorem messages_split (own : UInt32) (messages : List FetchFileOutput)
    (hsized : ∀ r ∈ messages, r.contentSize = r.content.length) :
    ∃ rest, messages = writtenReads own messages ++ rest ∧
      (∀ r ∈ writtenReads own messages, IsChunk own r) ∧
      ∀ r ∈ rest.head?, r.contentSize = 0 ∨ r.crc = own := by
  induction messages with
  | nil => exact ⟨[], rfl, by simp [writtenReads], by simp⟩
  | cons r messages ih =>
      by_cases hr : r.contentSize ≠ 0 ∧ r.crc ≠ own
      · obtain ⟨rest, hsplit, hchunks, hend⟩ := ih (fun q hq => hsized q (by simp [hq]))
        have hread : writtenReads own (r :: messages) = r :: writtenReads own messages := by
          simp [writtenReads, hr]
        refine ⟨rest, by rw [hread, List.cons_append, ← hsplit], ?_, hend⟩
        rw [hread]
        intro q hq
        rcases List.mem_cons.mp hq with rfl | hq
        · exact ⟨hsized q (by simp), hr⟩
        · exact hchunks q hq
      · have hread : writtenReads own (r :: messages) = [] := by
          simp only [writtenReads, List.takeWhile_cons, hr, decide_false, Bool.false_eq_true, if_false]
        refine ⟨r :: messages, by rw [hread, List.nil_append], by simp [hread], ?_⟩
        intro q hq
        cases Option.mem_some_iff.mp hq
        by_contra hno
        exact hr (not_or.mp hno)

theorem receiveLoop_stops (now : Int) {own : UInt32} {rest : List FetchFileOutput}
    (hend : ∀ r ∈ rest.head?, r.contentSize = 0 ∨ r.crc = own) (m : Mount) (opened : Bool) (k : Nat) :
    ∃ code, receiveLoop own f now m opened k rest = (m, code) ∧ (code = none ↔ rest = []) ∧
      code ≠ some .ok := by
  cases rest with
  | nil => exact ⟨none, rfl, by simp, by simp⟩
  | cons r rest =>
      by_cases hsize : r.contentSize = 0
      · exact ⟨some .notFound, by simp [receiveLoop, hsize], by simp, by simp⟩
      · have hcrc : r.crc = own := (hend r rfl).resolve_left hsize
        exact ⟨some .alreadyExists, by simp [receiveLoop, hsize, hcrc], by simp, by simp⟩

/-- The whole loop: the file of the mount is left alone until the first message
that carries a chunk. -/
theorem receiveLoop_split (now : Int) (hn : f ≠ "") (m : Mount) (own : UInt32)
    (messages : List FetchFileOutput)
    (hsized : ∀ r ∈ messages, r.contentSize = r.content.length) :
    ∃ m' code, receiveLoop own f now m false 0 messages = (m', code) ∧
      (code = none ↔ writtenReads own messages = messages) ∧ code ≠ some .ok ∧
      m'.dir.content f = if writtenReads own messages = [] then m.dir.content f
        else some (received (writtenReads own messages)) := by
  obtain ⟨rest, hsplit, hchunks, hend⟩ := messages_split own messages hsized
  generalize writtenReads own messages = reads at *
  have hall : reads = messages ↔ rest = [] := by rw [hsplit]; simp
  cases reads with
  | nil =>
      obtain ⟨code, hrun, hnone, hok⟩ := receiveLoop_stops now (f := f) hend m false 0
      rw [List.nil_append] at hsplit
      exact ⟨m, code, by rw [hsplit, hrun], hnone.trans hall.symm, hok, by simp⟩
  | cons r reads =>
      obtain ⟨m', hrun, hcontent, _, _⟩ := receiveLoop_chunks hn r reads hchunks rest m now
      obtain ⟨code, hrun', hnone, hok⟩ := receiveLoop_stops now (f := f) hend m' true
        (received (r :: reads)).length
      exact ⟨m', code, by rw [hsplit, hrun, hrun'], hnone.trans hall.symm, hok, by simp [hcontent]⟩

theorem fetchReply_failed {status : StatusCode} (h : status ≠ .ok) (m : Mount) (f : String) :
    (fetchReply m f status).2 ≠ .ok ∧ (fetchReply m f status).1.dir.content f =
      if status = .alreadyExists then m.dir.content f else none := by
  cases status <;> simp_all [fetchReply, Mount.remove]

theorem fetchFrom_failed (hn : f ≠ "") (m : Mount) (messages : List FetchFileOutput)
    (hsized : ∀ r ∈ messages, r.contentSize = r.content.length) {status : StatusCode}
    (hfail : status ≠ .ok) :
    KeepsCopy m.dir f (fetchFrom m f now messages status).1.dir (fetchFrom m f now messages status).2 ↔
      let reads := writtenReads (dfsFileChecksum (m.dir.content f)) messages
      if reads = messages ∧ status ≠ .alreadyExists then m.dir.content f = none
      else reads = [] ∨ m.dir.content f = some (received reads) := by
  obtain ⟨m', code, hrun, hnone, hok, hcontent⟩ := receiveLoop_split now hn m
    (dfsFileChecksum (m.dir.content f)) messages hsized
  simp only [fetchFrom, hrun, KeepsCopy]
  cases code with
  | some code =>
      have hstop : ¬ (writtenReads (dfsFileChecksum (m.dir.content f)) messages = messages ∧
          status ≠ .alreadyExists) := by
        rintro ⟨h, _⟩
        exact Option.some_ne_none code (hnone.mpr h)
      have hcode : code ≠ .ok := fun h => hok (by rw [h])
      simp only [if_neg hstop, hcode, ne_eq, not_false_eq_true, true_implies, hcontent]
      split
      · simp [*]
      · simp only [*, false_or]
        exact eq_comm
  | none =>
      obtain ⟨hcode, hreply⟩ := fetchReply_failed hfail m' f
      simp only [hnone.mp rfl, true_and, hcode, ne_eq, not_false_eq_true, true_implies, hreply]
      by_cases hs : status = .alreadyExists
      · simp only [hs, if_true, not_true_eq_false, if_false, hcontent, hnone.mp rfl]
        split
        · simp [*]
        · simp only [*, false_or]
          exact eq_comm
      · simp only [hs, if_false, not_false_eq_true, if_true]
        exact eq_comm

/-- Part 1 truncates the file before the call and removes it only when the
server lacks it. Part 2 opens the file at the first chunk, but removes it on
every failure except one. -/
theorem failed_fetch_keepsCopy_iff (f : FileName) (now : Int) (status : StatusCode)
    (hfail : status ≠ .ok) (d : Dir) (files : List Part1.File)
    (hfiles : ∀ r ∈ files, r.contentSize = r.content.length) (m : Mount)
    (messages : List FetchFileOutput) (hmessages : ∀ r ∈ messages, r.contentSize = r.content.length) :
    (KeepsCopy d f (Part1.fetchFrom d f now files status).1 (Part1.fetchFrom d f now files status).2 ↔
      if status = .notFound then d.content f = none
      else d.content f = some (Part1.received files)) ∧
    (KeepsCopy m.dir f (fetchFrom m f now messages status).1.dir
        (fetchFrom m f now messages status).2 ↔
      let reads := writtenReads (dfsFileChecksum (m.dir.content f)) messages
      if reads = messages ∧ status ≠ .alreadyExists then m.dir.content f = none
      else reads = [] ∨ m.dir.content f = some (received reads)) := by
  refine ⟨?_, fetchFrom_failed f.2 m messages hmessages hfail⟩
  have hcode : (Part1.fetchFrom d f now files status).2 ≠ .ok :=
    fun h => hfail ((Part1.fetchReply_code _ _ _).mp h)
  rw [KeepsCopy, Part1.fetchFrom_content f.2 d files hfiles]
  simp only [hcode, ne_eq, not_false_eq_true, true_implies]
  split <;> exact eq_comm

def mounted : Dir := empty.put "f.txt" ⟨[1], 0⟩

/-- The messages of Part 1 and of Part 2 before a call for `[5, 6, 7]` breaks off. -/
def sentFiles : List Part1.File := [⟨"f.txt", 1, [5]⟩, ⟨"f.txt", 2, [6, 7]⟩]

def sentChunks : List FetchFileOutput :=
  [⟨1, [5], dfsFileChecksum (some [5, 6, 7])⟩, ⟨2, [6, 7], dfsFileChecksum (some [5, 6, 7])⟩]

theorem failed_fetch_of_chunks :
    (KeepsCopy mounted "f.txt" (Part1.fetchFrom mounted "f.txt" 1 sentFiles .unavailable).1
        (Part1.fetchFrom mounted "f.txt" 1 sentFiles .unavailable).2 ↔
      mounted.content "f.txt" = some [5, 6, 7]) ∧
    (KeepsCopy mounted "f.txt" (fetchFrom ⟨mounted, []⟩ "f.txt" 1 sentChunks .unavailable).1.dir
        (fetchFrom ⟨mounted, []⟩ "f.txt" 1 sentChunks .unavailable).2 ↔
      mounted.content "f.txt" = none) := by
  obtain ⟨hpart1, hpart2⟩ := failed_fetch_keepsCopy_iff ⟨"f.txt", by decide⟩ 1 .unavailable (by decide)
    mounted sentFiles (by decide) ⟨mounted, []⟩ sentChunks (by decide +kernel)
  exact ⟨hpart1, hpart2.trans (iff_of_eq (if_pos ⟨by decide +kernel, by decide⟩))⟩

/-- With the server out of reach, Part 1 leaves an empty file and Part 2 none. -/
theorem unavailable_loses_copy :
    (¬ ∀ (f : FileName) (now : Int) (status : StatusCode), status ≠ .ok →
      ∀ (d : Dir) (files : List Part1.File), (∀ r ∈ files, r.contentSize = r.content.length) →
        KeepsCopy d f (Part1.fetchFrom d f now files status).1
          (Part1.fetchFrom d f now files status).2) ∧
    ¬ ∀ (f : FileName) (now : Int) (status : StatusCode), status ≠ .ok →
      ∀ (m : Mount) (messages : List FetchFileOutput),
        (∀ r ∈ messages, r.contentSize = r.content.length) →
        KeepsCopy m.dir f (fetchFrom m f now messages status).1.dir
          (fetchFrom m f now messages status).2 := by
  constructor
  · intro h
    exact absurd (h ⟨"f.txt", by decide⟩ 1 .unavailable (by decide) mounted [] (by simp) (by decide))
      (by decide)
  · intro h
    exact absurd (h ⟨"f.txt", by decide⟩ 1 .unavailable (by decide) ⟨mounted, []⟩ [] (by simp)
      (by decide)) (by decide)

end GraduateOS.Dfs.Fetching
