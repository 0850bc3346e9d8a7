import GraduateOS.Dfs.ClientNode

namespace GraduateOS.Dfs.Transfers

open Directory Checksum Messages ServerNode Storing ClientNode

def Unlocked (s : Server) : Prop := ∀ f, s.holder f = none

def Sends (m : Mount) (f : String) (s : Server) : Prop :=
  ∃ bytes, m.dir.content f = some bytes ∧ bytes ≠ [] ∧
    dfsFileChecksum (some bytes) ≠ dfsFileChecksum (s.dir.content f)

def Receives (m : Mount) (f : String) (s : Server) : Prop :=
  ∃ bytes, s.dir.content f = some bytes ∧ bytes ≠ [] ∧
    dfsFileChecksum (m.dir.content f) ≠ dfsFileChecksum (some bytes)

instance (m : Mount) (f : String) (s : Server) : Decidable (Sends m f s) :=
  decidable_of_iff (∃ bytes ∈ (m.dir.content f).toList, bytes ≠ [] ∧
    dfsFileChecksum (some bytes) ≠ dfsFileChecksum (s.dir.content f)) (by simp [Sends])

instance (m : Mount) (f : String) (s : Server) : Decidable (Receives m f s) :=
  decidable_of_iff (∃ bytes ∈ (s.dir.content f).toList, bytes ≠ [] ∧
    dfsFileChecksum (m.dir.content f) ≠ dfsFileChecksum (some bytes)) (by simp [Receives])

def fetchMessage (crc : UInt32) (p : Nat × Content) : FetchFileOutput := ⟨p.1, p.2, crc⟩

variable {s : Server} {m : Mount} {f clientId : String} {now : Int}

theorem content_named {d : Dir} {bytes : Content} (h : d.content f = some bytes) : f ≠ "" := by
  rintro rfl
  simp [Dir.content] at h

theorem lock_unlock_holder (hs : Unlocked s) (f c g : String) :
    ((s.lock f c).1.unlock f).1.holder g = none := by
  rw [unlock_holder]
  split
  next h => rfl
  next h => rw [lock_holder_ne s c h, hs g]

theorem storeMessages_nil (clientId f : String) : storeMessages clientId f [] = [] := rfl

theorem storeMessages_cons {content : Content} (h : content ≠ []) (clientId f : String) :
    ∃ p chunks, storeMessages clientId f content =
        (p :: chunks).map (storeMessage f clientId (dfsFileChecksum (some content))) ∧
      bytesOf (p :: chunks) = content ∧ Sized (p :: chunks) := by
  obtain ⟨p, chunks, hp⟩ := List.exists_cons_of_ne_nil (fileChunks_ne_nil h)
  refine ⟨p, chunks, by rw [storeMessages, hp], ?_, ?_⟩
  · rw [bytesOf, ← hp, fileChunks_flatten]
  · intro q hq
    exact (fileChunks_sizes (hp ▸ hq)).1

/-- A new content goes to the server whole, and the lock is released. -/
theorem store_sends (clientId : String) (now : Int) (hs : Unlocked s) (h : Sends m f s) :
    (store clientId m f s now).2 = .ok ∧
      (store clientId m f s now).1.dir.content f = m.dir.content f ∧
      (∀ g, g ≠ f → (store clientId m f s now).1.dir.lookup g = s.dir.lookup g) ∧
      Unlocked (store clientId m f s now).1 := by
  obtain ⟨bytes, hm, hne, hcrc⟩ := h
  obtain ⟨p, chunks, hmsgs, hbytes, hsize⟩ := storeMessages_cons hne clientId f
  obtain ⟨s', v', hrun, hlock, hcontent, hframe, _, hname⟩ :=
    storeFile_opened (content_named hm) (.inl (hs f)) hcrc p chunks hsize [] now
  rw [List.append_nil, ← hmsgs] at hrun
  have hstore : store clientId m f s now = ((s'.unlock f).1, .ok) := by
    simp [store, hm, hrun, storeLoop, hname, storeReply]
  rw [hstore]
  refine ⟨rfl, ?_, ?_, ?_⟩
  · rw [unlock_dir, hcontent, hbytes, hm]
  · intro g hg
    rw [unlock_dir, hframe g hg]
  · intro g
    rw [unlock_holder]
    split
    next h => rfl
    next h => rw [Server.holder, hlock, AList.lookup_insert_ne h]; exact hs g

theorem store_empty (h : m.dir.content f = some []) :
    store clientId m f s now = ((s.unlock "").1, .ok) := by
  simp [store, h, storeMessages_nil, delivered, Server.storeFile, storeLoop, storeReply]

theorem store_same (hs : Unlocked s) {bytes : Content} (h : m.dir.content f = some bytes)
    (hne : bytes ≠ []) (hcrc : dfsFileChecksum (some bytes) = dfsFileChecksum (s.dir.content f)) :
    store clientId m f s now = (((s.lock f clientId).1.unlock f).1, .alreadyExists) := by
  obtain ⟨p, chunks, hmsgs, _, _⟩ := storeMessages_cons hne clientId f
  simp only [store, h, hmsgs, delivered, List.map_cons]
  rw [storeFile_unchanged (.inl (hs f)) rfl rfl hcrc]
  rfl

/-- Otherwise the server keeps all its files: there is nothing to store, the
file is empty, or the checksums agree. Only the empty file is reported as stored. -/
theorem store_keeps (clientId : String) (now : Int) (hs : Unlocked s) (h : ¬ Sends m f s) :
    (store clientId m f s now).1.dir = s.dir ∧ Unlocked (store clientId m f s now).1 ∧
      ((store clientId m f s now).2 = .ok → m.dir.content f = some []) := by
  cases hm : m.dir.content f with
  | none => exact ⟨by simp [store, hm], by simpa [store, hm] using hs, by simp [store, hm]⟩
  | some bytes =>
      by_cases hne : bytes = []
      · subst hne
        rw [store_empty hm]
        refine ⟨unlock_dir s "", ?_, fun _ => rfl⟩
        intro g
        rw [unlock_holder, hs g, ite_self]
      · have hcrc : dfsFileChecksum (some bytes) = dfsFileChecksum (s.dir.content f) := by
          by_contra hc
          exact h ⟨bytes, hm, hne, hc⟩
        rw [store_same hs hm hne hcrc]
        exact ⟨by rw [unlock_dir, lock_dir], lock_unlock_holder hs f clientId, by simp⟩

theorem store_frame {g : String} (hg : g ≠ f) :
    (store clientId m f s now).1.dir.lookup g = s.dir.lookup g := by
  rw [store]
  split
  next => rfl
  next content _ =>
    refine storeLoop_frame hg now _ ?_ s {} (.inl rfl)
    intro r hr
    obtain ⟨message, hmessage, rfl⟩ := List.mem_map.mp hr
    obtain ⟨p, _, rfl⟩ := List.mem_map.mp hmessage
    rfl

theorem store_unlocked (hs : Unlocked s) : Unlocked (store clientId m f s now).1 := by
  by_cases h : Sends m f s
  · exact (store_sends _ _ hs h).2.2.2
  · exact (store_keeps _ _ hs h).2.1

theorem delete_absent (h : s.dir.lookup f = none) :
    delete clientId m f s = ((s, m), .notFound) := by
  simp [delete, Server.deleteFile, h]

theorem delete_removes (clientId : String) (hs : Unlocked s) (h : s.dir.lookup f ≠ none) :
    ∃ s', delete clientId m f s = ((s', m.remove f), .ok) ∧ s'.dir = s.dir.remove f ∧ Unlocked s' := by
  have hremoved : Unlocked { s with dir := s.dir.remove f } := hs
  have hl := lock_granted (c := clientId) (.inl (hremoved f))
  refine ⟨((⟨s.dir.remove f, s.lockList.insert f clientId⟩ : Server).unlock f).1,
    by simp [delete, Server.deleteFile, h, hl], by rw [unlock_dir], ?_⟩
  have hunlocked := lock_unlock_holder hremoved f clientId
  rwa [hl] at hunlocked

theorem sendChunks_all (crc : UInt32) (k : Nat) (chunks : List (Nat × Content)) :
    sendChunks crc (fun _ => false) k chunks = (chunks.map (fetchMessage crc), .ok) := by
  induction chunks generalizing k with
  | nil => rfl
  | cons p chunks ih => simp [sendChunks, ih, fetchMessage]

def IsChunk (own : UInt32) (r : FetchFileOutput) : Prop :=
  r.contentSize = r.content.length ∧ r.contentSize ≠ 0 ∧ r.crc ≠ own

def received (reads : List FetchFileOutput) : Content := (reads.map FetchFileOutput.content).flatten

theorem mount_writeAt_chunk (now : Int) {own : UInt32} {old : Content} (hold : m.dir.content f = some old)
    {r : FetchFileOutput} (hr : IsChunk own r) :
    (m.writeAt f old.length (written r.content r.contentSize) now).dir.content f =
      some (old ++ r.content) := by
  rw [written, hr.1, List.take_length]
  exact content_writeAt_end hold r.content now

theorem receiveLoop_opened (now : Int) {own : UInt32} (reads : List FetchFileOutput)
    (hreads : ∀ r ∈ reads, IsChunk own r) (rest : List FetchFileOutput) (m : Mount) {old : Content}
    (hold : m.dir.content f = some old) :
    ∃ m', receiveLoop own f now m true old.length (reads ++ rest) =
        receiveLoop own f now m' true (old ++ received reads).length rest ∧
      m'.dir.content f = some (old ++ received reads) ∧
      (∀ g, g ≠ f → m'.dir.lookup g = m.dir.lookup g) ∧ Writes m m' f := by
  induction reads generalizing m old with
  | nil =>
      exact ⟨m, by simp [received], by simpa [received] using hold, fun _ _ => rfl, Writes.refl m f⟩
  | cons r reads ih =>
      have hr := hreads r (by simp)
      obtain ⟨m', hrun, hcontent, hframe, hwrites⟩ := ih (fun q hq => hreads q (by simp [hq])) _
        (mount_writeAt_chunk now hold hr)
      refine ⟨m', ?_, by simpa [received] using hcontent, ?_, (writeAt_writes _ _ _ _ _).trans hwrites⟩
      · simp only [List.cons_append, receiveLoop, hr.2.1, hr.2.2, if_true, if_false]
        rw [hr.1] at hrun ⊢
        simpa [received] using hrun
      · intro g hg
        rw [hframe g hg]
        exact lookup_writeAt_ne _ hg _ _ _

/-- The first chunk creates or truncates the local file, and the chunks make up its content. -/
theorem receiveLoop_chunks {own : UInt32} (hn : f ≠ "") (r : FetchFileOutput)
    (reads : List FetchFileOutput) (hreads : ∀ q ∈ r :: reads, IsChunk own q)
    (rest : List FetchFileOutput) (m : Mount) (now : Int) :
    ∃ m', receiveLoop own f now m false 0 (r :: reads ++ rest) =
        receiveLoop own f now m' true (received (r :: reads)).length rest ∧
      m'.dir.content f = some (received (r :: reads)) ∧
      (∀ g, g ≠ f → m'.dir.lookup g = m.dir.lookup g) ∧ Writes m m' f := by
  have hopen : (m.openOut f now).dir.content f = some [] := by
    simp [Dir.content, Mount.openOut, Dir.openOut, hn]
  obtain ⟨m', hrun, hcontent, hframe, hwrites⟩ := receiveLoop_opened now (r :: reads) hreads
    rest (m.openOut f now) hopen
  have hr := hreads r (by simp)
  refine ⟨m', ?_, hcontent, ?_, (openOut_writes m f now).trans hwrites⟩
  · rw [List.nil_append] at hrun
    rw [← hrun]
    simp [receiveLoop, hr.2.1, hr.2.2]
  · intro g hg
    rw [hframe g hg]
    exact lookup_openOut_ne _ hg _

theorem received_chunks (crc : UInt32) (chunks : List (Nat × Content)) :
    received (chunks.map (fetchMessage crc)) = bytesOf chunks := by
  simp [received, bytesOf, fetchMessage, List.map_map, Function.comp_def]

theorem fetch_absent (h : s.dir.content f = none) : fetch m f s now = (m, .notFound) := by
  simp [fetch, fetchFrom, Server.fetchFile, fetchRequest, h, receiveLoop]

/-- The server announces equal checksums by a message without content, which
the client takes for a missing file. -/
theorem fetch_same {bytes : Content} (h : s.dir.content f = some bytes)
    (hcrc : dfsFileChecksum (m.dir.content f) = dfsFileChecksum (some bytes)) :
    fetch m f s now = (m, .notFound) := by
  simp [fetch, fetchFrom, Server.fetchFile, fetchRequest, h, hcrc, receiveLoop]

theorem fetch_nothing (h : s.dir.content f = some [])
    (hcrc : dfsFileChecksum (m.dir.content f) ≠ dfsFileChecksum (some [])) :
    fetch m f s now = (m, .ok) := by
  simp only [fetch, fetchFrom, Server.fetchFile, fetchRequest, h, hcrc, if_false, fileChunks_nil]
  rfl

theorem fetch_receives (now : Int) (h : Receives m f s) :
    (fetch m f s now).2 = .ok ∧ (fetch m f s now).1.dir.content f = s.dir.content f ∧
      (∀ g, g ≠ f → (fetch m f s now).1.dir.lookup g = m.dir.lookup g) ∧
      Writes m (fetch m f s now).1 f := by
  obtain ⟨bytes, hb, hne, hcrc⟩ := h
  obtain ⟨p, chunks, hp⟩ := List.exists_cons_of_ne_nil (fileChunks_ne_nil hne)
  have hanswer : s.fetchFile (fetchRequest m f) (fun _ => false) =
      ((p :: chunks).map (fetchMessage (dfsFileChecksum (some bytes))), .ok) := by
    simp only [Server.fetchFile, fetchRequest, hb, hcrc, if_false, sendChunks_all, hp]
  have hreads : ∀ q ∈ (p :: chunks).map (fetchMessage (dfsFileChecksum (some bytes))),
      IsChunk (dfsFileChecksum (m.dir.content f)) q := by
    intro q hq
    obtain ⟨c, hc, rfl⟩ := List.mem_map.mp hq
    obtain ⟨hsize, hpos, _⟩ := fileChunks_sizes (hp ▸ hc)
    exact ⟨hsize, Nat.ne_of_gt hpos, hcrc.symm⟩
  obtain ⟨m', hrun, hcontent, hframe, hwrites⟩ :=
    receiveLoop_chunks (content_named hb) _ _ hreads [] m now
  have hfetch : fetch m f s now = (m', .ok) := by
    rw [List.append_nil] at hrun
    simp only [fetch, hanswer, fetchFrom, List.map_cons, hrun, receiveLoop, fetchReply]
  rw [hfetch]
  refine ⟨rfl, ?_, hframe, hwrites⟩
  rw [← List.map_cons, received_chunks, bytesOf, ← hp, fileChunks_flatten] at hcontent
  rw [hcontent, hb]

theorem fetch_keeps (now : Int) (h : ¬ Receives m f s) : (fetch m f s now).1 = m := by
  cases hb : s.dir.content f with
  | none => rw [fetch_absent hb]
  | some bytes =>
      by_cases hcrc : dfsFileChecksum (m.dir.content f) = dfsFileChecksum (some bytes)
      · rw [fetch_same hb hcrc]
      · by_cases hne : bytes = []
        · subst hne; rw [fetch_nothing hb hcrc]
        · exact absurd ⟨bytes, hb, hne, hcrc⟩ h

theorem fetch_frame {g : String} (hg : g ≠ f) :
    (fetch m f s now).1.dir.lookup g = m.dir.lookup g := by
  by_cases h : Receives m f s
  · exact (fetch_receives _ h).2.2.1 g hg
  · rw [fetch_keeps _ h]

theorem fetch_writes (now : Int) : Writes m (fetch m f s now).1 f := by
  by_cases h : Receives m f s
  · exact (fetch_receives _ h).2.2.2
  · rw [fetch_keeps _ h]; exact Writes.refl m f

end GraduateOS.Dfs.Transfers
