import GraduateOS.Dfs.Transfers
import GraduateOS.Library.KeyedFold

namespace GraduateOS.Dfs.SyncRound

open Directory Checksum Messages ServerNode ClientNode Transfers Library.KeyedFold Library.MachineInts

inductive SyncCall
  | fetch | store | nothing
  deriving DecidableEq

/-- The call that the loop of `HandleCallbackList` makes for one entry of the
reply. It takes the checksum of `filename` and not of `WrapPath(filename)`, so
`own` is the file of that name in the working directory of the client process. -/
def syncCall (reply : CallbackListOutput) (own : Option Content) (m : Mount) (f : String) : SyncCall :=
  match m.dir.lookup f with
  | none => .fetch
  | some file =>
      if (reply.crc.lookup f).getD 0 ≠ dfsFileChecksum own then
        if (reply.mtime.lookup f).getD 0 > file.mtime then .fetch else .store
      else .nothing

def perform (clientId : String) (now : Int) (s : Server) (m : Mount) (f : String) :
    SyncCall → Server × Mount
  | .fetch => (s, (fetch m f s now).1)
  | .store => ((store clientId m f s now).1, m)
  | .nothing => (s, m)

def syncFile (clientId : String) (reply : CallbackListOutput) (own : Option Content) (now : Int)
    (s : Server) (m : Mount) (f : String) : Server × Mount :=
  perform clientId now s m f (syncCall reply own m f)

def removeStale (reply : CallbackListOutput) (m : Mount) (f : String) : Mount :=
  if reply.crc.lookup f = none then m.remove f else m

inductive Cwd
  | mount | serverMount | elsewhere (d : Dir)

def Cwd.content (cwd : Cwd) (s : Server) (m : Mount) (f : String) : Option Content :=
  match cwd with
  | .mount => m.dir.content f
  | .serverMount => s.dir.content f
  | .elsewhere d => d.content f

/-- The body of `HandleCallbackList` for one reply: every entry of the reply,
and then every name in the mount. -/
def handleCallbackList (clientId : String) (cwd : Cwd) (clock : String → Int)
    (reply : CallbackListOutput) (s : Server) (m : Mount) : Server × Mount :=
  let synced := reply.crc.keys.foldl
    (fun p f => syncFile clientId reply (cwd.content p.1 p.2 f) (clock f) p.1 p.2 f) (s, m)
  (synced.1, synced.2.dir.names.foldl (removeStale reply) synced.2)

def Lists (reply : CallbackListOutput) (s : Server) : Prop :=
  ∀ f, reply.crc.lookup f = s.processCallback.crc.lookup f ∧
    reply.mtime.lookup f = s.processCallback.mtime.lookup f

def SameFiles (d e : Dir) : Prop := ∀ f, d.content f = e.content f

/-- When one round makes the two copies of a listed file equal. A file that the
client lacks must have a checksum other than that of no file. Two different
copies are told apart only by the file in the working directory, and the
transfer that the times then choose must have bytes to move. -/
def Converges (cwd : Cwd) (s : Server) (m : Mount) (f : String) : Prop :=
  ∀ theirs, s.dir.lookup f = some theirs →
    match m.dir.lookup f with
    | none => theirs.content ≠ [] ∧ dfsFileChecksum none ≠ dfsFileChecksum (some theirs.content)
    | some ours =>
        ours.content = theirs.content ∨
          (dfsFileChecksum (some theirs.content) ≠ dfsFileChecksum (cwd.content s m f) ∧
            dfsFileChecksum (some ours.content) ≠ dfsFileChecksum (some theirs.content) ∧
            if toInt32 theirs.mtime > ours.mtime then theirs.content ≠ [] else ours.content ≠ [])

variable {clientId : String} {reply : CallbackListOutput} {s : Server} {m : Mount} {f : String}
  {now : Int}

def copies (p : Server × Mount) (f : String) : Option File × Option File :=
  (p.1.dir.lookup f, p.2.dir.lookup f)

theorem perform_unlocked (hs : Unlocked s) (call : SyncCall) :
    Unlocked (perform clientId now s m f call).1 := by
  cases call with
  | fetch => exact hs
  | store => exact store_unlocked hs
  | nothing => exact hs

theorem perform_frame (call : SyncCall) {g : String} (hg : g ≠ f) :
    copies (perform clientId now s m f call) g = copies (s, m) g := by
  cases call with
  | fetch => exact Prod.ext rfl (fetch_frame hg)
  | store => exact Prod.ext (store_frame hg) rfl
  | nothing => rfl

theorem syncLoop_local (clientId : String) (cwd : Cwd) (clock : String → Int)
    (reply : CallbackListOutput) :
    Local (fun p : Server × Mount => Unlocked p.1) copies
      (fun p f => syncFile clientId reply (cwd.content p.1 p.2 f) (clock f) p.1 p.2 f) where
  keeps _ _ hs := perform_unlocked hs _
  frame _ _ _ _ hg := perform_frame _ hg

theorem removeLoop_local (reply : CallbackListOutput) :
    Local (fun _ : Mount => True) (fun m f => m.dir.lookup f) (removeStale reply) where
  keeps _ _ _ := trivial
  frame m f g _ hg := by
    unfold removeStale
    split
    · exact lookup_remove_ne m.dir hg
    · rfl

theorem fetch_same_iff :
    s.dir.content f = (fetch m f s now).1.dir.content f ↔
      m.dir.content f = s.dir.content f ∨ Receives m f s := by
  by_cases h : Receives m f s
  · simp [(fetch_receives now h).2.1, h]
  · simp [fetch_keeps now h, h, eq_comm]

theorem store_same_iff (hs : Unlocked s) :
    (store clientId m f s now).1.dir.content f = m.dir.content f ↔
      m.dir.content f = s.dir.content f ∨ Sends m f s := by
  by_cases h : Sends m f s
  · simp [(store_sends clientId now hs h).2.1, h]
  · simp [(store_keeps clientId now hs h).1, h, eq_comm]

theorem syncFile_same_iff (clientId : String) (now : Int) (hs : Unlocked s) (cwd : Cwd) {theirs : File}
    (htheirs : s.dir.lookup f = some theirs)
    (hcrc : reply.crc.lookup f = some (dfsFileChecksum (some theirs.content)))
    (hmtime : reply.mtime.lookup f = some (toInt32 theirs.mtime)) :
    (syncFile clientId reply (cwd.content s m f) now s m f).1.dir.content f =
        (syncFile clientId reply (cwd.content s m f) now s m f).2.dir.content f ↔
      Converges cwd s m f := by
  have hcontent : s.dir.content f = some theirs.content := by rw [Dir.content, htheirs]; rfl
  cases hm : m.dir.lookup f with
  | none =>
      have hnone : m.dir.content f = none := content_eq_none.mpr hm
      have hcall : syncCall reply (cwd.content s m f) m f = .fetch := by simp [syncCall, hm]
      simp only [syncFile, perform, hcall, fetch_same_iff]
      simp [Receives, Converges, hm, htheirs, hcontent, hnone]
  | some ours =>
      have hours : m.dir.content f = some ours.content := by rw [Dir.content, hm]; rfl
      by_cases hown : dfsFileChecksum (some theirs.content) = dfsFileChecksum (cwd.content s m f)
      · have hcall : syncCall reply (cwd.content s m f) m f = .nothing := by
          simp [syncCall, hm, hcrc, hown]
        simp only [syncFile, perform, hcall]
        simp [Converges, hm, htheirs, hcontent, hours, hown, eq_comm]
      · by_cases htime : toInt32 theirs.mtime > ours.mtime
        · have hcall : syncCall reply (cwd.content s m f) m f = .fetch := by
            simp [syncCall, hm, hcrc, hmtime, hown, htime]
          simp only [syncFile, perform, hcall, fetch_same_iff]
          simp [Receives, Converges, hm, htheirs, hcontent, hours, hown, htime, and_comm]
        · have hcall : syncCall reply (cwd.content s m f) m f = .store := by
            simp [syncCall, hm, hcrc, hmtime, hown, htime]
          simp only [syncFile, perform, hcall, store_same_iff hs]
          simp [Sends, Converges, hm, htheirs, hcontent, hours, hown, htime, and_comm]

theorem removeLoop_lookup (reply : CallbackListOutput) (m : Mount) (f : String) :
    (m.dir.names.foldl (removeStale reply) m).dir.lookup f =
      if reply.crc.lookup f = none then none else m.dir.lookup f := by
  by_cases hf : f ∈ m.dir.names
  · obtain ⟨t, _, hsame, hlast⟩ :=
      (removeLoop_local reply).fold_at (names_nodup m.dir) trivial hf
    rw [hlast, ← hsame]
    simp only [removeStale]
    split
    · exact lookup_remove_self t.dir f
    · rfl
  · rw [(removeLoop_local reply).fold_frame m.dir.names trivial hf]
    have hnone : m.dir.lookup f = none := not_not.mp (mem_names.not.mp hf)
    simp [hnone]

theorem cwd_congr (cwd : Cwd) {s' : Server} {m' : Mount} (h : copies (s', m') f = copies (s, m) f) :
    cwd.content s' m' f = cwd.content s m f := by
  cases cwd with
  | mount => exact content_congr (congrArg Prod.snd h)
  | serverMount => exact content_congr (congrArg Prod.fst h)
  | elsewhere d => rfl

theorem converges_congr (cwd : Cwd) {s' : Server} {m' : Mount}
    (h : copies (s', m') f = copies (s, m) f) : Converges cwd s' m' f ↔ Converges cwd s m f := by
  have hs : s'.dir.lookup f = s.dir.lookup f := congrArg Prod.fst h
  have hm : m'.dir.lookup f = m.dir.lookup f := congrArg Prod.snd h
  simp only [Converges, hs, hm, cwd_congr cwd h]

theorem handleCallbackList_same_iff (clientId : String) (cwd : Cwd) (clock : String → Int)
    (hs : Unlocked s) (hreply : Lists reply s) (m : Mount) (f : String) :
    (handleCallbackList clientId cwd clock reply s m).1.dir.content f =
        (handleCallbackList clientId cwd clock reply s m).2.dir.content f ↔
      Converges cwd s m f := by
  have hlocal := syncLoop_local clientId cwd clock reply
  obtain ⟨hcrc, hmtime⟩ := hreply f
  rw [processCallback_crc] at hcrc
  rw [processCallback_mtime] at hmtime
  rw [handleCallbackList, Dir.content, Dir.content, removeLoop_lookup]
  cases htheirs : s.dir.lookup f with
  | none =>
      rw [htheirs, Option.map_none] at hcrc
      have hkeys : f ∉ reply.crc.keys := by
        rw [← AList.mem_keys, ← AList.lookup_eq_none]
        exact hcrc
      have hframe := congrArg Prod.fst (hlocal.fold_frame (s := (s, m)) _ hs hkeys)
      have hnone := hframe.trans htheirs
      simp only [copies] at hnone
      simp [hnone, hcrc, Converges, htheirs]
  | some theirs =>
      rw [htheirs, Option.map_some] at hcrc hmtime
      have hkeys : f ∈ reply.crc.keys := by
        rw [← AList.mem_keys, ← AList.lookup_isSome, hcrc]
        rfl
      obtain ⟨t, ht, hsame, hlast⟩ :=
        hlocal.fold_at (s := (s, m)) reply.crc.keys_nodup hs hkeys
      have htheirs' : t.1.dir.lookup f = some theirs := (congrArg Prod.fst hsame).trans htheirs
      have hiff := syncFile_same_iff clientId (clock f) (m := t.2) ht cwd htheirs'
        hcrc hmtime
      rw [converges_congr cwd hsame] at hiff
      rw [← hiff, if_neg (by simp [hcrc])]
      exact iff_of_eq (congrArg₂ (fun a b => Option.map File.content a = Option.map File.content b)
        (congrArg Prod.fst hlast) (congrArg Prod.snd hlast))

/-- One round makes the two directories equal exactly when every file of the
server converges. -/
theorem handleCallbackList_sameFiles_iff (clientId : String) (cwd : Cwd) (clock : String → Int)
    (reply : CallbackListOutput) (s : Server) (m : Mount) (hs : Unlocked s) (hreply : Lists reply s) :
    SameFiles (handleCallbackList clientId cwd clock reply s m).1.dir
        (handleCallbackList clientId cwd clock reply s m).2.dir ↔
      ∀ f, Converges cwd s m f :=
  forall_congr' (handleCallbackList_same_iff clientId cwd clock hs hreply m)

def newer : Server := ⟨empty.put "f.txt" ⟨[1], 5⟩, ∅⟩

def older : Mount := ⟨empty.put "f.txt" ⟨[2], 3⟩, []⟩

def besides : Cwd := .elsewhere (empty.put "f.txt" ⟨[1], 4⟩)

theorem newer_sameFiles_iff :
    SameFiles (handleCallbackList "A" besides (fun _ => 6) newer.processCallback newer older).1.dir
        (handleCallbackList "A" besides (fun _ => 6) newer.processCallback newer older).2.dir ↔
      ∀ f, Converges besides newer older f :=
  handleCallbackList_sameFiles_iff "A" besides (fun _ => 6) newer.processCallback newer older
    (fun _ => rfl) (fun _ => ⟨rfl, rfl⟩)

def contents (d : Dir) : List Content := d.files.entries.map (fun e => e.2.content)

/-- The working directory of the client process has the server's version of the
file, so the older version in the mount is never replaced. -/
theorem sync_keeps_older : ¬ ∀ (clientId : String) (cwd : Cwd) (clock : String → Int)
    (reply : CallbackListOutput) (s : Server) (m : Mount), Unlocked s → Lists reply s →
    CollisionFree ([] :: contents s.dir ++ contents m.dir) →
    SameFiles (handleCallbackList clientId cwd clock reply s m).1.dir
      (handleCallbackList clientId cwd clock reply s m).2.dir := by
  intro h
  have hsame := h "A" besides (fun _ => 6) newer.processCallback newer older (fun _ => rfl)
    (fun _ => ⟨rfl, rfl⟩) (by decide)
  exact absurd (hsame "f.txt") (by decide +kernel)

end GraduateOS.Dfs.SyncRound
