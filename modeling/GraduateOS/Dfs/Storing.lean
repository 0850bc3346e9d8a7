import GraduateOS.Dfs.ServerNode

namespace GraduateOS.Dfs.Storing

open Directory Checksum Messages ServerNode

def storeMessage (f c : String) (crc : UInt32) (p : Nat × Content) : StoreFileInput :=
  ⟨f, c, p.1, p.2, crc⟩

def delivered (messages : List StoreFileInput) : List (StoreFileInput × Bool) :=
  messages.map (fun m => (m, false))

def seen {α : Type} (isCancelled : Nat → Bool) (messages : List α) : List (α × Bool) :=
  messages.zipIdx.map (fun p => (p.1, isCancelled p.2))

def bytesOf (chunks : List (Nat × Content)) : Content := (chunks.map Prod.snd).flatten

def Sized (chunks : List (Nat × Content)) : Prop := ∀ p ∈ chunks, p.1 = p.2.length

@[simp] theorem bytesOf_nil : bytesOf [] = [] := rfl

@[simp] theorem bytesOf_cons (p : Nat × Content) (chunks : List (Nat × Content)) :
    bytesOf (p :: chunks) = p.2 ++ bytesOf chunks := rfl

theorem content_writeAt_end {d : Dir} {f : String} {old : Content} (h : d.content f = some old)
    (bytes : Content) (now : Int) :
    (d.writeAt f old.length bytes now).content f = some (old ++ bytes) := by
  obtain ⟨file, hl, hc⟩ := Option.map_eq_some_iff.mp h
  rw [Dir.content, lookup_writeAt, hl, Option.map_some, Option.map_some, ← hc, overwrite_end]

/-- Once the file is open, each chunk is appended to what has been written,
whatever ends the stream after these chunks. -/
theorem storeLoop_chunks {f c : String} (crc : UInt32) {now : Int} (chunks : List (Nat × Content))
    (hsize : Sized chunks) (tail : List (StoreFileInput × Bool)) (s : Server) (v : StoreVars)
    {old : Content} (hold : s.dir.content f = some old) (hfile : v.file = f) (hflag : v.flag = false)
    (hname : v.request.fileName = f) (hdone : v.bytesTransferred = old.length) :
    ∃ s' v', storeLoop now s v (delivered (chunks.map (storeMessage f c crc)) ++ tail) =
        storeLoop now s' v' tail ∧
      s'.lockList = s.lockList ∧ s'.dir.content f = some (old ++ bytesOf chunks) ∧
      (∀ g, g ≠ f → s'.dir.lookup g = s.dir.lookup g) ∧
      v'.flag = false ∧ v'.request.fileName = f := by
  induction chunks generalizing s v old with
  | nil => exact ⟨s, v, rfl, rfl, by simpa using hold, fun _ _ => rfl, hflag, hname⟩
  | cons p chunks ih =>
      have hp : p.1 = p.2.length := hsize p (by simp)
      have hnext : (s.writeAt v.file v.bytesTransferred (storeMessage f c crc p) now).dir.content f =
          some (old ++ p.2) := by
        have hw := content_writeAt_end hold p.2 now
        simpa [Server.writeAt, hfile, hdone, written, storeMessage, hp] using hw
      obtain ⟨s', v', hrun, hlock, hcontent, hframe, hflag', hname'⟩ :=
        ih (fun q hq => hsize q (by simp [hq])) _
          ⟨storeMessage f c crc p, false, v.file, v.bytesTransferred + p.1⟩ hnext hfile rfl rfl
          (by simp [hdone, hp])
      refine ⟨s', v', ?_, hlock, ?_, ?_, hflag', hname'⟩
      · rw [← hrun]
        simp [delivered, storeLoop, hflag, storeMessage]
      · simpa using hcontent
      · intro g hg
        rw [hframe g hg, Server.writeAt, hfile, lookup_writeAt_ne _ hg]

/-- Whatever the locks are, messages for one file leave the other files alone. -/
theorem storeLoop_frame {f g : String} (hg : g ≠ f) (now : Int) (reads : List (StoreFileInput × Bool))
    (hnames : ∀ r ∈ reads, r.1.fileName = f) (s : Server) (v : StoreVars) (hv : v.flag = true ∨ v.file = f) :
    (storeLoop now s v reads).1.dir.lookup g = s.dir.lookup g := by
  induction reads generalizing s v with
  | nil => rw [storeLoop, unlock_dir]
  | cons r reads ih =>
      obtain ⟨request, isCancelled⟩ := r
      have hname : request.fileName = f := hnames _ List.mem_cons_self
      have hrest := fun q hq => hnames q (List.mem_cons_of_mem _ hq)
      rw [storeLoop]
      split
      next => rfl
      next =>
        split
        next =>
          dsimp only
          split
          next => rw [lock_dir]
          next =>
            split
            next => rw [unlock_dir, lock_dir]
            next =>
              refine (ih hrest _ _ (.inr hname)).trans ?_
              rw [hname, Server.writeAt, Server.openOut, lookup_writeAt_ne _ hg, lookup_openOut_ne _ hg, lock_dir]
        next hflag =>
          have hfile := hv.resolve_left hflag
          rw [ih hrest _ ⟨request, false, v.file, v.bytesTransferred + request.contentSize⟩ (.inr hfile),
            Server.writeAt, hfile, lookup_writeAt_ne _ hg]

theorem storeFile_refused {s : Server} {f c c' : String} (hheld : s.holder f = some c') (hne : c' ≠ c)
    {m : StoreFileInput} (hf : m.fileName = f) (hc : m.clientID = c)
    (reads : List (StoreFileInput × Bool)) (now : Int) :
    s.storeFile ((m, false) :: reads) now = (s, .resourceExhausted) := by
  have hl : s.lock m.fileName m.clientID = (s, .resourceExhausted) := by
    rw [hf, hc]; exact lock_refused hheld hne
  simp [Server.storeFile, storeLoop, hl]

theorem storeFile_unchanged {s : Server} {f c : String}
    (hfree : s.holder f = none ∨ s.holder f = some c) {m : StoreFileInput} (hf : m.fileName = f)
    (hc : m.clientID = c) (hcrc : m.crc = dfsFileChecksum (s.dir.content f))
    (reads : List (StoreFileInput × Bool)) (now : Int) :
    s.storeFile ((m, false) :: reads) now = (((s.lock f c).1.unlock f).1, .alreadyExists) := by
  have hl : (s.lock f c).2 ≠ .resourceExhausted := by simp [lock_granted hfree]
  simp [Server.storeFile, storeLoop, hl, hcrc, hf, hc, lock_dir]

theorem storeFile_opened {s : Server} {f c : String} (hn : f ≠ "")
    (hfree : s.holder f = none ∨ s.holder f = some c) {crc : UInt32}
    (hcrc : crc ≠ dfsFileChecksum (s.dir.content f)) (p : Nat × Content)
    (chunks : List (Nat × Content)) (hsize : Sized (p :: chunks))
    (tail : List (StoreFileInput × Bool)) (now : Int) :
    ∃ s' v', s.storeFile (delivered ((p :: chunks).map (storeMessage f c crc)) ++ tail) now =
        storeLoop now s' v' tail ∧
      s'.lockList = s.lockList.insert f c ∧ s'.dir.content f = some (bytesOf (p :: chunks)) ∧
      (∀ g, g ≠ f → s'.dir.lookup g = s.dir.lookup g) ∧
      v'.flag = false ∧ v'.request.fileName = f := by
  have hl := lock_granted hfree
  have hp : p.1 = p.2.length := hsize p (by simp)
  have hopen : (s.dir.openOut f now).content f = some [] := by
    simp [Dir.content, Dir.openOut, hn]
  have hfirst : ((((s.lock f c).1.openOut f now).writeAt f 0 (storeMessage f c crc p) now).dir).content f
      = some p.2 := by
    have hw := content_writeAt_end hopen p.2 now
    simpa [Server.writeAt, Server.openOut, lock_dir, written, storeMessage, hp] using hw
  obtain ⟨s', v', hrun, hlock, hcontent, hframe, hflag, hname⟩ :=
    storeLoop_chunks (c := c) crc chunks (fun q hq => hsize q (by simp [hq])) tail _
      ⟨storeMessage f c crc p, false, f, p.1⟩ hfirst rfl rfl rfl hp
  refine ⟨s', v', ?_, ?_, ?_, ?_, hflag, hname⟩
  · rw [← hrun]
    simp [Server.storeFile, delivered, storeLoop, storeMessage, hl, hcrc]
  · rw [hlock, hl]; rfl
  · simpa using hcontent
  · intro g hg
    rw [hframe g hg, Server.writeAt, Server.openOut, lookup_writeAt_ne _ hg, lookup_openOut_ne _ hg,
      lock_dir]

end GraduateOS.Dfs.Storing
