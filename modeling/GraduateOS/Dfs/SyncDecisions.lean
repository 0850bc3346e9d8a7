import GraduateOS.Dfs.SyncRound

namespace GraduateOS.Dfs.SyncDecisions

open Directory Checksum Messages ServerNode ClientNode Library.KeyedFold Library.MachineInts SyncRound

def syncCalls (clientId : String) (cwd : Cwd) (clock : String → Int) (reply : CallbackListOutput) :
    List String → Server × Mount → List (String × SyncCall) :=
  choices (fun p f => syncCall reply (cwd.content p.1 p.2 f) p.2 f)
    (fun p f => syncFile clientId reply (cwd.content p.1 p.2 f) (clock f) p.1 p.2 f)

/-- The rule of the documentation for two copies of a file: the later time
wins where the checksums differ, and without a later time nothing is done. -/
def docCall (theirs ours : File) : SyncCall :=
  if dfsFileChecksum (some theirs.content) = dfsFileChecksum (some ours.content) then .nothing
  else if theirs.mtime > ours.mtime then .fetch
  else if ours.mtime > theirs.mtime then .store
  else .nothing

def FollowsRule (clientId : String) (cwd : Cwd) (clock : String → Int) (reply : CallbackListOutput)
    (listed s : Server) (m : Mount) : Prop :=
  ∀ f theirs ours, listed.dir.lookup f = some theirs → m.dir.lookup f = some ours →
    ∀ call, (f, call) ∈ syncCalls clientId cwd clock reply reply.crc.keys (s, m) ↔ call = docCall theirs ours

/-- Where the file in the working directory and the shortened time lead to the
same decision as the mounted file and the time. -/
def Harmless (own : Option Content) (theirs ours : File) : Prop :=
  if dfsFileChecksum (some theirs.content) = dfsFileChecksum (some ours.content) then
    dfsFileChecksum (some theirs.content) = dfsFileChecksum own
  else if theirs.mtime > ours.mtime then
    dfsFileChecksum (some theirs.content) ≠ dfsFileChecksum own ∧ toInt32 theirs.mtime > ours.mtime
  else if ours.mtime > theirs.mtime then
    dfsFileChecksum (some theirs.content) ≠ dfsFileChecksum own ∧ toInt32 theirs.mtime ≤ ours.mtime
  else dfsFileChecksum (some theirs.content) = dfsFileChecksum own

variable {clientId : String} {reply : CallbackListOutput} {listed s : Server} {m : Mount} {f : String}
  {theirs ours : File} {own : Option Content}

theorem performs_syncCalls (clientId : String) (cwd : Cwd) (clock : String → Int) (reply : CallbackListOutput)
    (s : Server) (m : Mount) :
    reply.crc.keys.foldl
        (fun p f => syncFile clientId reply (cwd.content p.1 p.2 f) (clock f) p.1 p.2 f) (s, m) =
      (syncCalls clientId cwd clock reply reply.crc.keys (s, m)).foldl
        (fun p e => perform clientId (clock e.1) p.1 p.2 e.1 e.2) (s, m) :=
  foldl_choices (fun p f call => perform clientId (clock f) p.1 p.2 f call) (fun _ _ => rfl) _ _

theorem syncLoop_frames (clientId : String) (cwd : Cwd) (clock : String → Int) (reply : CallbackListOutput) :
    Local (fun _ : Server × Mount => True) copies
      (fun p f => syncFile clientId reply (cwd.content p.1 p.2 f) (clock f) p.1 p.2 f) where
  keeps _ _ _ := trivial
  frame _ _ _ _ hg := perform_frame _ hg

theorem syncCall_present (hcrc : reply.crc.lookup f = some (dfsFileChecksum (some theirs.content)))
    (hmtime : reply.mtime.lookup f = some (toInt32 theirs.mtime)) (hours : m.dir.lookup f = some ours) :
    syncCall reply own m f =
      if dfsFileChecksum (some theirs.content) ≠ dfsFileChecksum own then
        if toInt32 theirs.mtime > ours.mtime then .fetch else .store
      else .nothing := by
  simp only [syncCall, hours, hcrc, hmtime, Option.getD_some]

theorem syncCall_eq_iff (own : Option Content)
    (hcrc : reply.crc.lookup f = some (dfsFileChecksum (some theirs.content)))
    (hmtime : reply.mtime.lookup f = some (toInt32 theirs.mtime)) (hours : m.dir.lookup f = some ours) :
    (.nothing = syncCall reply own m f ↔ dfsFileChecksum (some theirs.content) = dfsFileChecksum own) ∧
      (.fetch = syncCall reply own m f ↔
        dfsFileChecksum (some theirs.content) ≠ dfsFileChecksum own ∧ toInt32 theirs.mtime > ours.mtime) ∧
      (.store = syncCall reply own m f ↔
        dfsFileChecksum (some theirs.content) ≠ dfsFileChecksum own ∧ toInt32 theirs.mtime ≤ ours.mtime) := by
  rw [syncCall_present hcrc hmtime hours]
  by_cases hown : dfsFileChecksum (some theirs.content) = dfsFileChecksum own
  · simp [hown]
  · rw [if_pos hown]
    by_cases htime : toInt32 theirs.mtime > ours.mtime
    · simp [hown, htime]
    · simp [hown, htime, Int.not_lt.mp htime]

theorem decision_iff (own : Option Content)
    (hcrc : reply.crc.lookup f = some (dfsFileChecksum (some theirs.content)))
    (hmtime : reply.mtime.lookup f = some (toInt32 theirs.mtime)) (hours : m.dir.lookup f = some ours) :
    docCall theirs ours = syncCall reply own m f ↔ Harmless own theirs ours := by
  obtain ⟨hnothing, hfetch, hstore⟩ := syncCall_eq_iff own hcrc hmtime hours
  rw [docCall, Harmless]
  by_cases hsame : dfsFileChecksum (some theirs.content) = dfsFileChecksum (some ours.content)
  · rw [if_pos hsame, if_pos hsame]
    exact hnothing
  · rw [if_neg hsame, if_neg hsame]
    by_cases hlater : theirs.mtime > ours.mtime
    · rw [if_pos hlater, if_pos hlater]
      exact hfetch
    · rw [if_neg hlater, if_neg hlater]
      by_cases hearlier : ours.mtime > theirs.mtime
      · rw [if_pos hearlier, if_pos hearlier]
        exact hstore
      · rw [if_neg hearlier, if_neg hearlier]
        exact hnothing

theorem calls_iff (clientId : String) (cwd : Cwd) (clock : String → Int) (s : Server) (hreply : Lists reply listed)
    (htheirs : listed.dir.lookup f = some theirs) (hours : m.dir.lookup f = some ours) :
    (∀ call, (f, call) ∈ syncCalls clientId cwd clock reply reply.crc.keys (s, m) ↔ call = docCall theirs ours) ↔
      Harmless (cwd.content s m f) theirs ours := by
  obtain ⟨hcrc, hmtime⟩ := hreply f
  rw [processCallback_crc, htheirs, Option.map_some] at hcrc
  rw [processCallback_mtime, htheirs, Option.map_some] at hmtime
  have hkeys : f ∈ reply.crc.keys := by
    rw [← AList.mem_keys, ← AList.lookup_isSome, hcrc]
    rfl
  obtain ⟨t, -, hsame, hcalls⟩ := (syncLoop_frames clientId cwd clock reply).choices_at
    (fun p f => syncCall reply (cwd.content p.1 p.2 f) p.2 f) reply.crc.keys_nodup (s := (s, m)) trivial hkeys
  have hours' : t.2.dir.lookup f = some ours := (congrArg Prod.snd hsame).trans hours
  have hdecision := decision_iff (cwd.content t.1 t.2 f) hcrc hmtime hours'
  rw [cwd_congr cwd hsame] at hcalls hdecision
  rw [← hdecision]
  constructor
  · exact fun h => (hcalls _).mp ((h _).mpr rfl)
  · intro h call
    rw [h]
    exact hcalls call

/-- The loop follows the rule exactly if every file is harmless. -/
theorem syncCalls_follow_iff (clientId : String) (cwd : Cwd) (clock : String → Int) (reply : CallbackListOutput)
    (listed s : Server) (m : Mount) (hreply : Lists reply listed) :
    FollowsRule clientId cwd clock reply listed s m ↔
      ∀ f theirs ours, listed.dir.lookup f = some theirs → m.dir.lookup f = some ours →
        Harmless (cwd.content s m f) theirs ours :=
  forall₃_congr fun _ _ _ => forall₂_congr fun htheirs hours => calls_iff clientId cwd clock s hreply htheirs hours

theorem newer_follows_iff :
    FollowsRule "A" .mount (fun _ => 6) newer.processCallback newer newer older ↔
      ∀ f theirs ours, newer.dir.lookup f = some theirs → older.dir.lookup f = some ours →
        Harmless (Cwd.mount.content newer older f) theirs ours :=
  syncCalls_follow_iff "A" .mount (fun _ => 6) newer.processCallback newer newer older (fun _ => ⟨rfl, rfl⟩)

/-- The file beside the process is the server's version, and the older one in
the mount is not fetched anew. -/
theorem older_not_fetched : syncCalls "A" besides (fun _ => 6) newer.processCallback ["f.txt"] (newer, older) =
      [("f.txt", .nothing)] ∧
    ¬ ∀ (clientId : String) (cwd : Cwd) (clock : String → Int) (reply : CallbackListOutput) (listed s : Server)
      (m : Mount), Lists reply listed → FollowsRule clientId cwd clock reply listed s m := by
  refine ⟨by decide +kernel, fun hall => ?_⟩
  have hrule := hall "A" besides (fun _ => 6) newer.processCallback newer newer older (fun _ => ⟨rfl, rfl⟩)
  have hharmless := (calls_iff "A" besides (fun _ => 6) newer (fun _ => ⟨rfl, rfl⟩) rfl rfl).mp
    (hrule "f.txt" ⟨[1], 5⟩ ⟨[2], 3⟩ rfl rfl)
  rw [Harmless, if_neg (by decide +kernel), if_pos (by decide)] at hharmless
  exact hharmless.1 rfl

end GraduateOS.Dfs.SyncDecisions
