import GraduateOS.Dfs.Rounds
import Mathlib.Data.Set.Defs

namespace GraduateOS.Dfs.RoundSteps

open Directory Checksum Messages ServerNode Storing ClientNode Transfers SyncRound Mounts Rounds
open Library.Runs Library.MachineInts

def idle : Phase → Bool
  | .waiting _ => true
  | _ => false

def callFile : Act → Phase → Option String
  | .call, .calling _ _ g _ => some g
  | _, _ => none

def Current (f : String) (reply : CallbackListOutput) (theirs : File) : Prop :=
  reply.crc.lookup f = some (dfsFileChecksum (some theirs.content)) ∧
    reply.mtime.lookup f = some (toInt32 theirs.mtime)

/-- What a thread still has to do with a listed file, or that it has made its
call: what is known of its reply, and then of the call that it has decided on. -/
def Track (f : String) (known : CallbackListOutput → Prop) (plan : SyncCall → Prop) (called : Prop) : Phase → Prop
  | .waiting _ => True
  | .replied reply => known reply
  | .syncing reply rest => reply.crc.lookup f ≠ none ∧ rest.Nodup ∧ if f ∈ rest then known reply else called
  | .calling reply rest g call =>
      reply.crc.lookup f ≠ none ∧ rest.Nodup ∧ g ∉ rest ∧
        if g = f then plan call else if f ∈ rest then known reply else called
  | .removing reply _ => reply.crc.lookup f ≠ none ∧ called

def Stamped (now : Int) (d d' : Dir) : Prop :=
  ∀ f file, d'.lookup f = some file → file.mtime = now ∨ d.lookup f = some file

/-- Versions that their checksums tell apart, also from a missing file. -/
structure Distinct (V : Set Content) : Prop where
  filled : ∀ v ∈ V, v ≠ []
  there : ∀ v ∈ V, dfsFileChecksum none ≠ dfsFileChecksum (some v)
  apart : ∀ v ∈ V, ∀ w ∈ V, dfsFileChecksum (some v) = dfsFileChecksum (some w) → v = w

section

variable {C : Type}

def Finished (c : C) (acts : List (C × Int × Act)) : Prop := ∃ now, (c, now, .finish) ∈ acts

def versions (f : String) (s : State C) : Set Content :=
  fun v => s.server.dir.content f = some v ∨ ∃ c, (s.clients c).mount.dir.content f = some v

structure Ready (f : String) (s : State C) : Prop where
  unlocked : Unlocked s.server
  idle : ∀ c, idle (s.clients c).phase = true
  distinct : Distinct (versions f s)
  server : ∀ theirs, s.server.dir.lookup f = some theirs → theirs.mtime ≤ s.clock ∧ toInt32 theirs.mtime = theirs.mtime
  mounts : ∀ c ours, (s.clients c).mount.dir.lookup f = some ours → ours.mtime ≤ s.clock

variable [DecidableEq C]

def Untouched (f : String) (s : State C) (a : C × Int × Act) : Prop :=
  ofThread a.2.2 = false → ∀ s' ∈ step s a, copiesAt s' a.1 f = copiesAt s a.1 f

end

variable {f clientId : String} {now : Int} {d d' d'' : Dir} {s s' : Server} {m m' : Mount}
  {client client' : Client} {theirs : File} {ours : Option File} {called called' : Prop} {a : Act}
  {V W : Set Content} {known known' : CallbackListOutput → Prop} {plan plan' : SyncCall → Prop}

theorem content_of_lookup {file : File} (h : d.lookup f = some file) : d.content f = some file.content :=
  congrArg (Option.map File.content) h

theorem Stamped.refl (now : Int) (d : Dir) : Stamped now d d := fun _ _ hfile => .inr hfile

theorem Stamped.trans (h : Stamped now d d') (h' : Stamped now d' d'') : Stamped now d d'' := by
  intro f file hfile
  rcases h' f file hfile with hnow | hbefore
  · exact .inl hnow
  · exact h f file hbefore

theorem openOut_stamped (d : Dir) (f : String) (now : Int) : Stamped now d (d.openOut f now) := by
  intro g file hfile
  rw [Dir.openOut, lookup_put] at hfile
  split at hfile
  · cases hfile
    exact .inl rfl
  · exact .inr hfile

theorem writeAt_stamped (d : Dir) (f : String) (offset : Nat) (bytes : Content) (now : Int) :
    Stamped now d (d.writeAt f offset bytes now) := by
  intro g file hfile
  by_cases hg : g = f
  · subst g
    rw [lookup_writeAt, Option.map_eq_some_iff] at hfile
    obtain ⟨old, -, rfl⟩ := hfile
    exact .inl rfl
  · rw [lookup_writeAt_ne _ hg] at hfile
    exact .inr hfile

theorem remove_stamped (d : Dir) (f : String) (now : Int) : Stamped now d (d.remove f) := by
  intro g file hfile
  by_cases hg : g = f
  · subst g
    rw [lookup_remove_self] at hfile
    cases hfile
  · rw [lookup_remove_ne d hg] at hfile
    exact .inr hfile

theorem storeLoop_stamped (now : Int) (reads : List (StoreFileInput × Bool)) (s : Server) (v : StoreVars) :
    Stamped now s.dir (storeLoop now s v reads).1.dir := by
  induction reads generalizing s v with
  | nil =>
      rw [storeLoop, unlock_dir]
      exact Stamped.refl now s.dir
  | cons r reads ih =>
      obtain ⟨request, isCancelled⟩ := r
      rw [storeLoop]
      split
      · exact Stamped.refl now s.dir
      · split
        next =>
          dsimp only
          split
          next =>
            rw [lock_dir]
            exact Stamped.refl now s.dir
          next =>
            split
            next =>
              rw [unlock_dir, lock_dir]
              exact Stamped.refl now s.dir
            next =>
              have hfirst : Stamped now s.dir (((s.lock request.fileName request.clientID).1.openOut
                  request.fileName now).writeAt request.fileName 0 request now).dir := by
                rw [Server.writeAt, Server.openOut, lock_dir]
                exact (openOut_stamped s.dir _ now).trans (writeAt_stamped _ _ _ _ now)
              exact hfirst.trans (ih _ _)
        next => exact Stamped.trans (writeAt_stamped _ _ _ _ now) (ih _ _)

theorem store_stamped (clientId : String) (m : Mount) (f : String) (s : Server) (now : Int) :
    Stamped now s.dir (store clientId m f s now).1.dir := by
  rw [store]
  split
  · exact Stamped.refl now s.dir
  · exact storeLoop_stamped now _ s {}

theorem receiveLoop_stamped (crc : UInt32) (f : String) (now : Int) (messages : List FetchFileOutput) (m : Mount)
    (opened : Bool) (bytesTransferred : Nat) :
    Stamped now m.dir (receiveLoop crc f now m opened bytesTransferred messages).1.dir := by
  induction messages generalizing m opened bytesTransferred with
  | nil => exact Stamped.refl now m.dir
  | cons response messages ih =>
      rw [receiveLoop]
      split
      · exact Stamped.refl now m.dir
      · split
        · exact Stamped.refl now m.dir
        · refine Stamped.trans ?_ (ih _ _ _)
          cases opened with
          | true => exact writeAt_stamped _ _ _ _ now
          | false => exact (openOut_stamped m.dir f now).trans (writeAt_stamped _ _ _ _ now)

theorem fetch_stamped (m : Mount) (f : String) (s : Server) (now : Int) :
    Stamped now m.dir (fetch m f s now).1.dir := by
  have hloop := receiveLoop_stamped (dfsFileChecksum (m.dir.content f)) f now
    (s.fetchFile (fetchRequest m f) fun _ => false).1 m false 0
  rw [fetch, fetchFrom]
  split
  next m' code hanswer =>
    rwa [hanswer] at hloop
  next m' hanswer =>
    rw [hanswer] at hloop
    cases (s.fetchFile (fetchRequest m f) fun _ => false).2 with
    | ok | alreadyExists => exact hloop
    | _ => exact hloop.trans (remove_stamped m'.dir f now)

theorem Stamped.file (h : Stamped now d d') {bytes : Content} (hnew : d'.content f = some bytes)
    (hold : d.content f ≠ some bytes) : d'.lookup f = some ⟨bytes, now⟩ := by
  obtain ⟨file, hfile, rfl⟩ := Option.map_eq_some_iff.mp hnew
  rcases h f file hfile with rfl | hbefore
  · exact hfile
  · exact absurd (content_of_lookup hbefore) hold

theorem Distinct.mono (h : Distinct W) (hsub : ∀ v ∈ V, v ∈ W) : Distinct V where
  filled v hv := h.filled v (hsub v hv)
  there v hv := h.there v (hsub v hv)
  apart v hv w hw := h.apart v (hsub v hv) w (hsub w hw)

/-- `Fetch` brings the server's version over, unless the mount has it. -/
theorem fetch_copies (clientId : String) (now : Int) (hV : Distinct V) (htheirs : s.dir.lookup f = some theirs)
    (hours : m.dir.lookup f = ours) (hmem : theirs.content ∈ V) (hmem' : ∀ file, ours = some file → file.content ∈ V) :
    copies (perform clientId now s m f .fetch) f =
      (some theirs, if ours.map File.content = some theirs.content then ours else some ⟨theirs.content, now⟩) := by
  have hserver : s.dir.content f = some theirs.content := content_of_lookup htheirs
  have hmount : m.dir.content f = ours.map File.content := by rw [Dir.content, hours]
  by_cases hsame : ours.map File.content = some theirs.content
  · have hkeeps : ¬ Receives m f s := by
      rintro ⟨bytes, hbytes, -, hcrc⟩
      rw [hmount, hsame, ← hserver, hbytes] at hcrc
      exact hcrc rfl
    rw [perform, fetch_keeps now hkeeps, if_pos hsame]
    exact Prod.ext htheirs hours
  · have hcrc : dfsFileChecksum (m.dir.content f) ≠ dfsFileChecksum (some theirs.content) := by
      rw [hmount]
      cases ours with
      | none => exact hV.there _ hmem
      | some file => exact fun heq => hsame (congrArg some (hV.apart _ (hmem' file rfl) _ hmem heq))
    obtain ⟨-, hcontent, -, -⟩ := fetch_receives now ⟨theirs.content, hserver, hV.filled _ hmem, hcrc⟩
    rw [if_neg hsame]
    exact Prod.ext htheirs ((fetch_stamped m f s now).file (hcontent.trans hserver) (hmount ▸ hsame))

/-- `Store` takes the version of the mount to the server, unless the server has it. -/
theorem store_copies (clientId : String) (now : Int) {file : File} (hs : Unlocked s) (hV : Distinct V)
    (htheirs : s.dir.lookup f = some theirs) (hours : m.dir.lookup f = some file) (hmem : theirs.content ∈ V)
    (hmem' : file.content ∈ V) :
    copies (perform clientId now s m f .store) f =
      (if file.content = theirs.content then some theirs else some ⟨file.content, now⟩, some file) := by
  have hserver : s.dir.content f = some theirs.content := content_of_lookup htheirs
  have hmount : m.dir.content f = some file.content := content_of_lookup hours
  refine Prod.ext ?_ hours
  show (store clientId m f s now).1.dir.lookup f = _
  by_cases hsame : file.content = theirs.content
  · have hkeeps : ¬ Sends m f s := by
      rintro ⟨bytes, hbytes, -, hcrc⟩
      rw [hserver, ← hsame, ← hmount, hbytes] at hcrc
      exact hcrc rfl
    rw [(store_keeps clientId now hs hkeeps).1, if_pos hsame, htheirs]
  · have hcrc : dfsFileChecksum (some file.content) ≠ dfsFileChecksum (some theirs.content) :=
      fun heq => hsame (hV.apart _ hmem' _ hmem heq)
    obtain ⟨-, hcontent, -, -⟩ :=
      store_sends clientId now hs ⟨file.content, hmount, hV.filled _ hmem', hserver ▸ hcrc⟩
    rw [if_neg hsame]
    refine (store_stamped clientId m f s now).file (hcontent.trans hmount) ?_
    rw [hserver]
    exact fun heq => hsame (Option.some.inj heq).symm

theorem Current.listed {reply : CallbackListOutput} (h : Current f reply theirs) : reply.crc.lookup f ≠ none := by
  rw [h.1]
  exact Option.some_ne_none _

theorem processCallback_current (htheirs : s.dir.lookup f = some theirs) : Current f s.processCallback theirs := by
  constructor
  · rw [processCallback_crc, htheirs, Option.map_some]
  · rw [processCallback_mtime, htheirs, Option.map_some]

theorem Track.mono {phase : Phase} (h : Track f known plan called phase) (hknown : ∀ reply, known reply → known' reply)
    (hplan : ∀ call, plan call → plan' call) (hcalled : called → called') : Track f known' plan' called' phase := by
  cases phase with
  | waiting handled => trivial
  | replied reply => exact hknown reply h
  | syncing reply rest =>
      obtain ⟨hlisted, hnodup, h⟩ := h
      refine ⟨hlisted, hnodup, ?_⟩
      split
      next hf =>
        rw [if_pos hf] at h
        exact hknown reply h
      next hf =>
        rw [if_neg hf] at h
        exact hcalled h
  | calling reply rest g call =>
      obtain ⟨hlisted, hnodup, hg, h⟩ := h
      refine ⟨hlisted, hnodup, hg, ?_⟩
      split
      next hgf =>
        rw [if_pos hgf] at h
        exact hplan call h
      next hgf =>
        rw [if_neg hgf] at h
        split
        next hf =>
          rw [if_pos hf] at h
          exact hknown reply h
        next hf =>
          rw [if_neg hf] at h
          exact hcalled h
  | removing reply rest => exact ⟨h.1, hcalled h.2⟩

theorem track_idle {phase : Phase} (h : idle phase = true) : Track f known plan called phase := by
  cases phase with
  | waiting handled => trivial
  | _ => cases h

/-- A step of the thread leaves the copies of the file alone, or makes the call that was planned. -/
theorem Track.thread (h : Track f known plan called client.phase)
    (hlisted : ∀ reply, known reply → reply.crc.lookup f ≠ none)
    (hdecide : ∀ own reply, a = .decide f own → known reply → plan (syncCall reply own client.mount f))
    (hstep : ThreadStep s client now a s' client') :
    (callFile a client.phase ≠ some f ∧ copies (s', client'.mount) f = copies (s, client.mount) f ∧
      Track f known plan called client'.phase) ∨
    (callFile a client.phase = some f ∧
      (∃ call, plan call ∧ (s', client'.mount) = perform client.clientId now s client.mount f call) ∧
      ∀ known' plan', Track f known' plan' True client'.phase) := by
  cases hstep with
  | @receive reply hphase =>
      rw [hphase] at h
      have hfound := hlisted reply h
      refine .inl ⟨nofun, rfl, hfound, AList.keys_nodup _, ?_⟩
      rwa [if_pos (by rwa [← AList.mem_keys, ← AList.lookup_isSome, Option.isSome_iff_ne_none])]
  | @decide reply rest g own hphase hg =>
      rw [hphase] at h
      obtain ⟨hfound, hnodup, h⟩ := h
      refine .inl ⟨nofun, rfl, hfound, hnodup.erase g, fun hmem => ((hnodup.mem_erase_iff).mp hmem).1 rfl, ?_⟩
      by_cases hgf : g = f
      · subst g
        rw [if_pos hg] at h
        rw [if_pos rfl]
        exact hdecide own reply rfl h
      · rw [if_neg hgf]
        by_cases hf : f ∈ rest
        · rw [if_pos hf] at h
          rwa [if_pos ((List.mem_erase_of_ne (Ne.symm hgf)).mpr hf)]
        · rw [if_neg hf] at h
          rwa [if_neg (mt List.mem_of_mem_erase hf)]
  | @call reply rest g call hphase =>
      rw [hphase] at h ⊢
      obtain ⟨hfound, hnodup, hg, h⟩ := h
      by_cases hgf : g = f
      · subst g
        rw [if_pos rfl] at h
        refine .inr ⟨rfl, ⟨call, h, rfl⟩, fun _ _ => ⟨hfound, hnodup, ?_⟩⟩
        rw [if_neg hg]
        trivial
      · rw [if_neg hgf] at h
        exact .inl ⟨fun heq => hgf (Option.some.inj heq), perform_frame call (Ne.symm hgf), hfound, hnodup, h⟩
  | opendir hphase =>
      rw [hphase] at h
      obtain ⟨hfound, -, h⟩ := h
      rw [if_neg List.not_mem_nil] at h
      exact .inl ⟨nofun, rfl, hfound, h⟩
  | @unlink reply rest g hphase hg =>
      rw [hphase] at h
      refine .inl ⟨nofun, ?_, h⟩
      by_cases hgf : g = f
      · subst g
        rw [removeStale_listed h.1]
      · exact Prod.ext rfl (removeStale_frame (Ne.symm hgf))
  | finish hphase => exact .inl ⟨nofun, rfl, trivial⟩

theorem Track.finish (h : Track f known plan called client.phase)
    (hstep : ThreadStep s client now .finish s' client') : called := by
  cases hstep with
  | finish hphase =>
      rw [hphase] at h
      exact h.2

theorem callFile_call {phase : Phase} (h : callFile a phase = some f) : a = .call := by
  cases a with
  | call => rfl
  | _ => cases h

theorem threadStep_busy (h : ThreadStep s client now a s' client') : idle client.phase = false := by
  cases h with
  | receive hphase | decide hphase _ | call hphase | opendir hphase | unlink hphase _ | finish hphase =>
      rw [hphase]
      rfl

/-- A step of users and watchers, the reply of the server, or a step of the thread. -/
theorem round_cases (hstep : clientStep s client now a = some (s', client')) :
    (ofThread a = false ∧ client'.phase = client.phase) ∨
    (a = .snapshot ∧ s' = s ∧ client' = { client with phase := .replied s.processCallback }) ∨
    ThreadStep s client now a s' client' := by
  cases hthread : ofThread a with
  | false => exact .inl ⟨rfl, other_phase hthread hstep⟩
  | true =>
      right
      by_cases hsnapshot : a = .snapshot
      · subst a
        simp only [clientStep] at hstep
        split at hstep
        next handled hphase =>
          obtain ⟨hserver, hclient⟩ := Prod.mk.inj (Option.some.inj hstep)
          exact .inl ⟨rfl, hserver.symm, hclient.symm⟩
        · cases hstep
      · exact .inr (thread_cases hthread hsnapshot hstep)

section

variable {C : Type} {c : C} {acts : List (C × Int × Act)} {b : C × Int × Act} {t t' : State C}

theorem finished_snoc (h : Finished c (acts ++ [b])) : Finished c acts ∨ (b.1 = c ∧ b.2.2 = .finish) := by
  obtain ⟨now, hmem⟩ := h
  rcases List.mem_append.mp hmem with hmem | hmem
  · exact .inl ⟨now, hmem⟩
  · rw [← List.mem_singleton.mp hmem]
    exact .inr ⟨rfl, rfl⟩

theorem copies_all (hmine : copiesAt t' c f = copiesAt t c f) (hothers : ∀ c', c' ≠ c → t'.clients c' = t.clients c')
    (c' : C) : copiesAt t' c' f = copiesAt t c' f := by
  by_cases hc : c' = c
  · rw [hc, hmine]
  · have hserver : t'.server.dir.lookup f = t.server.dir.lookup f := congrArg Prod.fst hmine
    refine Prod.ext hserver ?_
    simp only [copiesAt, copies, hothers c' hc]

end

section

variable {C : Type} [DecidableEq C] {c : C} {t₀ t t' : State C} {b : C × Int × Act} {acts : List (C × Int × Act)}

structure Absent (f : String) (acts : List (C × Int × Act)) (t : State C) : Prop where
  server : t.server.dir.lookup f = none
  rounds : ∀ c, idle (t.clients c).phase = true ∨
    ∃ reply : CallbackListOutput, reply.crc.lookup f = none ∧ Unlisted f reply (copiesAt t c f) (t.clients c).phase
  finished : ∀ c, Finished c acts → (t.clients c).mount.dir.lookup f = none

theorem unlisted_lookup {reply : CallbackListOutput} (hreply : reply.crc.lookup f = none)
    (h : Unlisted f reply (copies (s, client.mount) f) client.phase) (hstep : ThreadStep s client now a s' client') :
    s'.dir.lookup f = s.dir.lookup f ∧
      (client'.mount.dir.lookup f = client.mount.dir.lookup f ∨ client'.mount.dir.lookup f = none) := by
  cases hstep with
  | receive _ | decide _ _ | opendir _ | finish _ => exact ⟨rfl, .inl rfl⟩
  | @call r rest g call hphase =>
      rw [hphase] at h
      have hframe : copies (perform client.clientId now s client.mount g call) f = copies (s, client.mount) f :=
        perform_frame call h.2.1
      exact ⟨congrArg Prod.fst hframe, .inl (congrArg Prod.snd hframe)⟩
  | @unlink r rest g hphase hg =>
      rw [hphase] at h
      obtain ⟨rfl, -⟩ := h
      refine ⟨rfl, ?_⟩
      by_cases hfg : f = g
      · subst g
        right
        show (removeStale r client.mount f).dir.lookup f = none
        rw [removeStale, if_pos hreply]
        exact lookup_remove_self client.mount.dir f
      · exact .inl (removeStale_frame hfg)

theorem unlisted_finish {reply : CallbackListOutput} (h : Unlisted f reply (copies (s, client.mount) f) client.phase)
    (hstep : ThreadStep s client now .finish s' client') : client'.mount.dir.lookup f = none := by
  cases hstep with
  | finish hphase =>
      rw [hphase] at h
      exact h.2.2.resolve_left List.not_mem_nil

theorem Absent.keep (h : Absent f acts t) (hstep : step t b = some t')
    (hserver : t'.server.dir.lookup f = t.server.dir.lookup f)
    (hmount : (t'.clients b.1).mount.dir.lookup f = (t.clients b.1).mount.dir.lookup f ∨
      (t'.clients b.1).mount.dir.lookup f = none)
    (hround : idle (t'.clients b.1).phase = true ∨ ∃ reply : CallbackListOutput, reply.crc.lookup f = none ∧
      Unlisted f reply (copiesAt t' b.1 f) (t'.clients b.1).phase)
    (hfinished : b.2.2 = .finish → (t'.clients b.1).mount.dir.lookup f = none) : Absent f (acts ++ [b]) t' := by
  obtain ⟨c, now, a⟩ := b
  obtain ⟨-, -, -, hothers⟩ := step_some hstep
  refine ⟨hserver.trans h.server, fun c' => ?_, fun c' hdone => ?_⟩
  · by_cases hc : c' = c
    · exact hc ▸ hround
    · have hsame : copiesAt t' c' f = copiesAt t c' f :=
        Prod.ext hserver (by simp only [copiesAt, copies, hothers c' hc])
      rw [hsame, hothers c' hc]
      exact h.rounds c'
  · rcases finished_snoc hdone with hbefore | ⟨rfl, hfinish⟩
    · by_cases hc : c' = c
      · subst c'
        exact hmount.elim (fun hsame => hsame.trans (h.finished c hbefore)) id
      · rw [hothers c' hc]
        exact h.finished c' hbefore
    · exact hfinished hfinish

theorem step_absent (h : Absent f acts t) (huntouched : Untouched f t b) (hstep : step t b = some t') :
    Absent f (acts ++ [b]) t' := by
  obtain ⟨c, now, a⟩ := b
  obtain ⟨-, -, hclient, -⟩ := step_some hstep
  rcases round_cases hclient with ⟨hthread, hphase⟩ | ⟨rfl, hserver, hmine⟩ | hmove
  · have hcopies : copiesAt t' c f = copiesAt t c f := huntouched hthread t' hstep
    refine h.keep hstep (congrArg Prod.fst hcopies) (.inl (congrArg Prod.snd hcopies)) ?_ ?_
    · rw [hphase, hcopies]
      exact h.rounds c
    · rintro rfl
      cases hthread
  · have hnone : t'.server.dir.lookup f = none := by rw [hserver, h.server]
    refine h.keep hstep (by rw [hserver]) (.inl (by rw [hmine])) (.inr ⟨t.server.processCallback, ?_, ?_⟩)
      (fun hfinish => by cases hfinish)
    · rw [processCallback_crc, h.server, Option.map_none]
    · rw [hmine]
      exact ⟨rfl, hnone⟩
  · rcases h.rounds c with hidle | ⟨reply, hreply, hround⟩
    · rw [threadStep_busy hmove] at hidle
      cases hidle
    · have hnext := hround.thread hreply hmove
      obtain ⟨hserver, hmount⟩ := unlisted_lookup hreply hround hmove
      refine h.keep hstep hserver hmount (.inr ⟨reply, hreply, hnext⟩) ?_
      rintro rfl
      exact unlisted_finish hround hmove

omit [DecidableEq C] in
theorem Absent.restart (h : Absent f acts t) : Absent f [] t := by
  refine ⟨h.server, h.rounds, ?_⟩
  rintro c ⟨now, hmem⟩
  cases hmem

omit [DecidableEq C] in
theorem absent_idle (hidle : ∀ c, idle (t.clients c).phase = true) (hnone : t.server.dir.lookup f = none) :
    Absent f [] t := by
  refine ⟨hnone, fun c => .inl (hidle c), ?_⟩
  rintro c ⟨now, hmem⟩
  cases hmem

theorem Absent.run {allowed : List (C × Int × Act) → State C → C × Int × Act → Prop} (hstart : Absent f [] t₀)
    (hallowed : ∀ history s a, allowed history s a → Untouched f s a) (h : Run step allowed t₀ acts t) :
    Absent f acts t := by
  refine h.invariant (I := Absent f) hstart ?_
  intro acts t b t' habsent hguard hstep
  exact step_absent habsent (hallowed acts t b hguard) hstep

end

end GraduateOS.Dfs.RoundSteps
