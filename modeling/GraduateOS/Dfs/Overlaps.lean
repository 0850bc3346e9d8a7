import GraduateOS.Dfs.Convergence

namespace GraduateOS.Dfs.Overlaps

open Directory Checksum Messages ServerNode ClientNode Transfers SyncRound Mounts Rounds RoundSteps
open Convergence (threeVersions threeVersions_ready)
open Library.Runs Library.MachineInts

section

variable {C : Type} [DecidableEq C]

/-- Only the asynchronous threads touch the copies of the file, in any order of
their steps. The clients run in their mount directories, and a call takes place in
a later second than the step before. -/
def Within (f : String) (_ : List (C × Int × Act)) (s : State C) (a : C × Int × Act) : Prop :=
  match a.2.2 with
  | .edit _ _ | .userDelete _ | .watch => ∀ s' ∈ step s a, copiesAt s' a.1 f = copiesAt s a.1 f
  | .decide g own => g = f → own = (s.clients a.1).mount.dir.content f
  | .call => s.clock < a.2.1 ∧ toInt32 a.2.1 = a.2.1
  | _ => True

instance (f : String) (history : List (C × Int × Act)) (s : State C) :
    (a : C × Int × Act) → Decidable (Within f history s a)
  | (c, now, .edit g bytes) =>
      inferInstanceAs (Decidable (∀ s' ∈ step s (c, now, .edit g bytes), copiesAt s' c f = copiesAt s c f))
  | (c, now, .userDelete g) =>
      inferInstanceAs (Decidable (∀ s' ∈ step s (c, now, .userDelete g), copiesAt s' c f = copiesAt s c f))
  | (c, now, .watch) =>
      inferInstanceAs (Decidable (∀ s' ∈ step s (c, now, .watch), copiesAt s' c f = copiesAt s c f))
  | (c, _, .decide g own) => inferInstanceAs (Decidable (g = f → own = (s.clients c).mount.dir.content f))
  | (_, now, .call) => inferInstanceAs (Decidable (s.clock < now ∧ toInt32 now = now))
  | (_, _, .snapshot) | (_, _, .receive) | (_, _, .opendir) | (_, _, .unlink _) | (_, _, .finish) => .isTrue trivial

def Started (c : C) (acts : List (C × Int × Act)) : Prop := ∃ now, (c, now, .snapshot) ∈ acts

def Completed (c : C) (acts : List (C × Int × Act)) : Prop :=
  ∃ before now, before ++ [(c, now, .finish)] <+: acts ∧ Started c before

end

def Older (theirs : File) (ours : Option File) : Prop :=
  ∃ file, ours = some file ∧ (file.content = theirs.content ∨ file.mtime < theirs.mtime)

/-- What a client knows of the file from its reply, which may be out of date. Then
the server's copy is later than that of the client. -/
structure Seen (V : Set Content) (f : String) (theirs : File) (ours : Option File) (done : Prop)
    (reply : CallbackListOutput) (seen : File) : Prop where
  current : Current f reply seen
  int : toInt32 seen.mtime = seen.mtime
  mem : seen.content ∈ V
  older : done → Older seen ours
  latest : seen = theirs ∨ ∀ file, ours = some file → file.mtime < theirs.mtime

/-- What is certain of a call: only in its first round a client stores its copy,
and without a call it has the server's version, or an older one. -/
def Plan (theirs : File) (ours : Option File) (done : Prop) : SyncCall → Prop
  | .fetch => True
  | .store => ¬ done ∧ ours ≠ none
  | .nothing => Older theirs ours

structure Follows (V : Set Content) (f : String) (theirs : File) (done : Prop) (clock : Int) (client : Client) : Prop where
  past : ∀ file, client.mount.dir.lookup f = some file → file.mtime ≤ clock ∧ file.content ∈ V
  older : done → Older theirs (client.mount.dir.lookup f)
  track : Track f (fun reply => ∃ seen, Seen V f theirs (client.mount.dir.lookup f) done reply seen)
    (Plan theirs (client.mount.dir.lookup f) done) done client.phase

variable {V : Set Content} {f : String} {theirs theirs' : File} {ours : Option File} {done : Prop} {clock now : Int}
  {s s' : Server} {m : Mount} {client client' : Client} {call : SyncCall} {a : Act}

theorem Older.newer (h : Older theirs ours) (hpast : ∀ file, ours = some file → file.mtime ≤ clock)
    (hnew : clock < theirs'.mtime) : Older theirs' ours := by
  obtain ⟨file, hfile, -⟩ := h
  have hle := hpast file hfile
  exact ⟨file, hfile, .inr (by omega)⟩

/-- Another client has stored a new version, later than all copies. -/
theorem Follows.newer (h : Follows V f theirs done clock client) (hclock : clock ≤ now)
    (hnew : clock < theirs'.mtime) : Follows V f theirs' done now client := by
  have hpast (file : File) (hfile : client.mount.dir.lookup f = some file) : file.mtime ≤ clock := (h.past file hfile).1
  refine ⟨fun file hfile => ?_, fun hdone => (h.older hdone).newer hpast hnew, h.track.mono ?_ ?_ id⟩
  · exact ⟨Int.le_trans (hpast file hfile) hclock, (h.past file hfile).2⟩
  · rintro reply ⟨seen, hseen⟩
    refine ⟨seen, { hseen with latest := .inr fun file hfile => ?_ }⟩
    have hle := hpast file hfile
    omega
  · intro call hplan
    cases call with
    | fetch => trivial
    | store => exact hplan
    | nothing => exact Older.newer hplan hpast hnew

theorem Follows.later (h : Follows V f theirs done clock client) (hclock : clock ≤ now) :
    Follows V f theirs done now client :=
  { h with past := fun file hfile => ⟨Int.le_trans (h.past file hfile).1 hclock, (h.past file hfile).2⟩ }

/-- In the mount directory the decision takes the checksum of the right file. -/
theorem seen_plan {reply : CallbackListOutput} {seen : File} (hV : Distinct V)
    (hmem : ∀ file, ours = some file → file.content ∈ V) (hseen : Seen V f theirs ours done reply seen)
    (hours : m.dir.lookup f = ours) : Plan theirs ours done (syncCall reply (ours.map File.content) m f) := by
  obtain ⟨hcrc, hmtime⟩ := hseen.current
  cases ours with
  | none =>
      have hcall : syncCall reply none m f = .fetch := by simp [syncCall, hours]
      rw [Option.map_none, hcall]
      trivial
  | some file =>
      by_cases hsame : file.content = seen.content
      · have hcall : syncCall reply (some file.content) m f = .nothing := by simp [syncCall, hours, hcrc, hsame]
        rw [Option.map_some, hcall]
        refine ⟨file, rfl, ?_⟩
        rcases hseen.latest with hlatest | hlater
        · exact .inl (hlatest ▸ hsame)
        · exact .inr (hlater file rfl)
      · have hdiffer : dfsFileChecksum (some seen.content) ≠ dfsFileChecksum (some file.content) :=
          fun heq => hsame (hV.apart _ hseen.mem _ (hmem file rfl) heq).symm
        by_cases holder : file.mtime < seen.mtime
        · have hcall : syncCall reply (some file.content) m f = .fetch := by
            simp [syncCall, hours, hcrc, hmtime, hseen.int, hdiffer, holder]
          rw [Option.map_some, hcall]
          trivial
        · have hcall : syncCall reply (some file.content) m f = .store := by
            simp [syncCall, hours, hcrc, hmtime, hseen.int, hdiffer, holder]
          rw [Option.map_some, hcall]
          refine ⟨fun hdone => ?_, Option.some_ne_none _⟩
          obtain ⟨file', hfile', hkept⟩ := hseen.older hdone
          cases hfile'
          exact hkept.elim hsame holder

/-- After its call the client has the server's version, or an older one. Only a
first call can have changed the server's copy. -/
theorem plan_older (clientId : String) (hs : Unlocked s) (hV : Distinct V) (htheirs : s.dir.lookup f = some theirs)
    (hours : m.dir.lookup f = ours) (hmem : theirs.content ∈ V) (hmem' : ∀ file, ours = some file → file.content ∈ V)
    (hplan : Plan theirs ours done call) (now : Int) :
    ∃ theirs' ours', copies (perform clientId now s m f call) f = (some theirs', ours') ∧ Older theirs' ours' ∧
      (theirs' = theirs ∨ ¬ done ∧ theirs'.mtime = now) ∧ theirs'.content ∈ V ∧
      ∀ file, ours' = some file → ours = some file ∨ file = ⟨theirs.content, now⟩ := by
  cases call with
  | fetch =>
      have hfetch := fetch_copies clientId now hV htheirs hours hmem hmem'
      by_cases hsame : ours.map File.content = some theirs.content
      · rw [if_pos hsame] at hfetch
        obtain ⟨file, hfile, hcontent⟩ := Option.map_eq_some_iff.mp hsame
        exact ⟨theirs, ours, hfetch, ⟨file, hfile, .inl hcontent⟩, .inl rfl, hmem, fun _ hfile => .inl hfile⟩
      · rw [if_neg hsame] at hfetch
        exact ⟨theirs, _, hfetch, ⟨_, rfl, .inl rfl⟩, .inl rfl, hmem, fun _ hfile => .inr (Option.some.inj hfile).symm⟩
  | store =>
      obtain ⟨hfirst, hthere⟩ := hplan
      obtain ⟨file, rfl⟩ := Option.ne_none_iff_exists'.mp hthere
      have hstore := store_copies clientId now hs hV htheirs hours hmem (hmem' file rfl)
      by_cases hsame : file.content = theirs.content
      · rw [if_pos hsame] at hstore
        exact ⟨theirs, _, hstore, ⟨file, rfl, .inl hsame⟩, .inl rfl, hmem, fun _ hfile => .inl hfile⟩
      · rw [if_neg hsame] at hstore
        exact ⟨_, _, hstore, ⟨file, rfl, .inl rfl⟩, .inr ⟨hfirst, rfl⟩, hmem' file rfl, fun _ hfile => .inl hfile⟩
  | nothing => exact ⟨theirs, ours, Prod.ext htheirs hours, hplan, .inl rfl, hmem, fun _ hfile => .inl hfile⟩

/-- A step of the thread, when the client runs in its mount directory. -/
theorem Follows.thread (h : Follows V f theirs done clock client) (hs : Unlocked s) (hV : Distinct V)
    (htheirs : s.dir.lookup f = some theirs) (hmem : theirs.content ∈ V) (hclock : clock ≤ now)
    (hown : ∀ own, a = .decide f own → own = client.mount.dir.content f)
    (hstep : ThreadStep s client now a s' client') :
    ∃ theirs' done', s'.dir.lookup f = some theirs' ∧ theirs'.content ∈ V ∧
      (theirs' = theirs ∨ ¬ done ∧ theirs'.mtime = now ∧ a = .call) ∧ (done → done') ∧ (a = .finish → done') ∧
      Follows V f theirs' done' now client' := by
  have hmem' (file : File) (hfile : client.mount.dir.lookup f = some file) : file.content ∈ V := (h.past file hfile).2
  have hdecide (own : Option Content) (reply : CallbackListOutput) (ha : a = .decide f own)
      (hknown : ∃ seen, Seen V f theirs (client.mount.dir.lookup f) done reply seen) :
      Plan theirs (client.mount.dir.lookup f) done (syncCall reply own client.mount f) := by
    obtain ⟨seen, hseen⟩ := hknown
    rw [hown own ha]
    exact seen_plan hV hmem' hseen rfl
  rcases h.track.thread (fun reply ⟨_, hseen⟩ => hseen.current.listed) hdecide hstep with
    ⟨-, hcopies, htrack⟩ | ⟨hcall, ⟨call, hplan, hperform⟩, htrack⟩
  · have hserver : s'.dir.lookup f = s.dir.lookup f := congrArg Prod.fst hcopies
    have hmount : client'.mount.dir.lookup f = client.mount.dir.lookup f := congrArg Prod.snd hcopies
    refine ⟨theirs, done, hserver.trans htheirs, hmem, .inl rfl, id, ?_, ?_⟩
    · rintro rfl
      exact h.track.finish hstep
    · refine Follows.later ⟨?_, ?_, ?_⟩ hclock
      · rw [hmount]
        exact h.past
      · rw [hmount]
        exact h.older
      · rw [hmount]
        exact htrack
  · have ha : a = .call := callFile_call hcall
    obtain ⟨theirs', ours', hcopies, holder, hnew, hmemNew, hours'⟩ :=
      plan_older client.clientId hs hV htheirs rfl hmem hmem' hplan now
    rw [← hperform] at hcopies
    have hmount : client'.mount.dir.lookup f = ours' := congrArg Prod.snd hcopies
    refine ⟨theirs', True, congrArg Prod.fst hcopies, hmemNew, hnew.imp_right fun h => ⟨h.1, h.2, ha⟩, fun _ => trivial,
      fun _ => trivial, ?_, ?_, htrack _ _⟩
    · intro file hfile
      rcases hours' file (hmount.symm.trans hfile) with hold | rfl
      · exact ⟨Int.le_trans (h.past file hold).1 hclock, hmem' file hold⟩
      · exact ⟨Int.le_refl now, hmem⟩
    · rw [hmount]
      exact fun _ => holder

def Same (f : String) (final : File) (client : Client) : Prop := client.mount.dir.content f = some final.content

def Settling (f : String) (final : File) (client : Client) : Prop :=
  Track f (Current f · final) (fun call => call = .fetch ∨ Same f final client) (Same f final client) client.phase

theorem same_congr {final : File} (h : client'.mount.dir.lookup f = client.mount.dir.lookup f) :
    Same f final client' ↔ Same f final client := by
  rw [Same, Same, content_congr h]

/-- When no new version comes any more, the next call brings the last one. -/
theorem Settling.thread {final : File} (h : Settling f final client) (hfollows : Follows V f final True clock client)
    (hV : Distinct V) (hserver : s.dir.lookup f = some final)
    (hint : toInt32 final.mtime = final.mtime) (hmem : final.content ∈ V)
    (hown : ∀ own, a = .decide f own → own = client.mount.dir.content f)
    (hstep : ThreadStep s client now a s' client') :
    Settling f final client' ∧ (Same f final client → Same f final client') ∧ (a = .finish → Same f final client') := by
  have hmem' (file : File) (hfile : client.mount.dir.lookup f = some file) : file.content ∈ V :=
    (hfollows.past file hfile).2
  have hdecide (own : Option Content) (reply : CallbackListOutput) (ha : a = .decide f own)
      (hcurrent : Current f reply final) : syncCall reply own client.mount f = .fetch ∨ Same f final client := by
    obtain ⟨file, hfile, hkept⟩ := hfollows.older trivial
    have hours : client.mount.dir.content f = some file.content := content_of_lookup hfile
    by_cases hsame : file.content = final.content
    · exact .inr (hours.trans (congrArg some hsame))
    · left
      have hdiffer : dfsFileChecksum (some final.content) ≠ dfsFileChecksum (some file.content) :=
        fun heq => hsame (hV.apart _ hmem _ (hmem' file hfile) heq).symm
      simp [hown own ha, hours, syncCall, hfile, hcurrent.1, hcurrent.2, hint, hdiffer, hkept.resolve_left hsame]
  rcases Track.thread h (fun _ => Current.listed) hdecide hstep with
    ⟨-, hcopies, htrack⟩ | ⟨-, ⟨call, hplan, hperform⟩, htrack⟩
  · have hsame : Same f final client' ↔ Same f final client := same_congr (congrArg Prod.snd hcopies)
    refine ⟨?_, hsame.mpr, ?_⟩
    · rw [Settling, hsame]
      exact htrack
    · rintro rfl
      exact hsame.mpr (Track.finish h hstep)
  · have hfetch := fetch_copies client.clientId now hV hserver rfl hmem hmem'
    have hfetched (hcall : call = .fetch) : Same f final client' := by
      rw [hcall] at hperform
      rw [← hperform] at hfetch
      have hmount : client'.mount.dir.lookup f = _ := congrArg Prod.snd hfetch
      by_cases hsame : (client.mount.dir.lookup f).map File.content = some final.content
      · rw [if_pos hsame] at hmount
        rwa [same_congr hmount]
      · rw [if_neg hsame] at hmount
        rw [Same, content_of_lookup hmount]
    have hnow : Same f final client' := by
      rcases hplan with hcall | hsame
      · exact hfetched hcall
      · cases call with
        | fetch => exact hfetched rfl
        | store | nothing =>
            have hmount : client'.mount = client.mount := congrArg Prod.snd hperform
            rwa [Same, hmount]
    exact ⟨(htrack _ _).mono (fun _ => id) (fun _ => id) (fun _ => hnow), fun _ => hnow, fun _ => hnow⟩

section

variable {C : Type} [DecidableEq C] {c : C} {t₀ t t' : State C} {b : C × Int × Act} {acts : List (C × Int × Act)}
  {done : C → Prop} {first : File}

structure Inv (V : Set Content) (f : String) (theirs : File) (done : C → Prop) (t : State C) : Prop where
  unlocked : Unlocked t.server
  server : t.server.dir.lookup f = some theirs
  int : toInt32 theirs.mtime = theirs.mtime
  past : theirs.mtime ≤ t.clock
  mem : theirs.content ∈ V
  clients : ∀ c, Follows V f theirs (done c) t.clock (t.clients c)

theorem within_untouched (history : List (C × Int × Act)) (t : State C) (b : C × Int × Act)
    (hwithin : Within f history t b) : Untouched f t b := by
  obtain ⟨c, now, a⟩ := b
  intro hthread
  cases a with
  | edit g bytes | userDelete g | watch => exact hwithin
  | _ => cases hthread

theorem Inv.keep (h : Inv V f theirs done t) (hstep : step t b = some t')
    (hcopies : copiesAt t' b.1 f = copiesAt t b.1 f)
    (htrack : Track f (fun reply => ∃ seen, Seen V f theirs ((t.clients b.1).mount.dir.lookup f) (done b.1) reply seen)
      (Plan theirs ((t.clients b.1).mount.dir.lookup f) (done b.1)) (done b.1) (t'.clients b.1).phase) :
    Inv V f theirs done t' := by
  obtain ⟨c, now, a⟩ := b
  obtain ⟨hnow, hclock, -, hothers⟩ := step_some hstep
  have hmount : (t'.clients c).mount.dir.lookup f = (t.clients c).mount.dir.lookup f := congrArg Prod.snd hcopies
  refine ⟨step_unlocked h.unlocked hstep, (congrArg Prod.fst hcopies).trans h.server, h.int, ?_, h.mem, fun c' => ?_⟩
  · rw [hclock]
    exact Int.le_trans h.past hnow
  · rw [hclock]
    refine Follows.later ?_ hnow
    by_cases hc : c' = c
    · subst c'
      refine ⟨?_, ?_, ?_⟩
      · rw [hmount]
        exact (h.clients c).past
      · rw [hmount]
        exact (h.clients c).older
      · rw [hmount]
        exact htrack
    · rw [hothers c' hc]
      exact h.clients c'

theorem step_inv {history : List (C × Int × Act)} (hV : Distinct V) (h : Inv V f theirs done t)
    (hwithin : Within f history t b) (hstep : step t b = some t') :
    ∃ (theirs' : File) (done' : C → Prop), Inv V f theirs' done' t' ∧ (∀ c, done c → done' c) ∧
      ((∀ c, done c) → theirs' = theirs) ∧ (b.2.2 = .finish → done' b.1) := by
  obtain ⟨c, now, a⟩ := b
  obtain ⟨hnow, hclock, hclient, hothers⟩ := step_some hstep
  rcases round_cases hclient with ⟨hthread, hphase⟩ | ⟨rfl, hserver, hmine⟩ | hmove
  · have hcopies := within_untouched history t _ hwithin hthread t' hstep
    refine ⟨theirs, done, h.keep hstep hcopies ?_, fun _ => id, fun _ => rfl, ?_⟩
    · simp only [hphase]
      exact (h.clients c).track
    · rintro rfl
      cases hthread
  · have hcopies : copiesAt t' c f = copiesAt t c f := by rw [copiesAt, copiesAt, hserver, hmine]
    refine ⟨theirs, done, h.keep hstep hcopies ?_, fun _ => id, fun _ => rfl, fun hfinish => by cases hfinish⟩
    rw [hmine]
    exact ⟨theirs, processCallback_current h.server, h.int, h.mem, (h.clients c).older, .inl rfl⟩
  · have hown (own : Option Content) (ha : a = .decide f own) : own = (t.clients c).mount.dir.content f := by
      subst a
      exact hwithin rfl
    obtain ⟨theirs', done', hserver, hmem, hnew, hmore, hfinish, hfollows⟩ :=
      (h.clients c).thread h.unlocked hV h.server h.mem hnow hown hmove
    have hlater : theirs' = theirs ∨ t.clock < theirs'.mtime ∧ theirs'.mtime = now ∧ toInt32 now = now := by
      refine hnew.imp_right fun hnew => ?_
      obtain ⟨-, hmtime, rfl⟩ := hnew
      exact ⟨hmtime ▸ hwithin.1, hmtime, hwithin.2⟩
    refine ⟨theirs', Function.update done c done',
      ⟨step_unlocked h.unlocked hstep, hserver, ?_, ?_, hmem, ?_⟩, ?_, ?_, ?_⟩
    · rcases hlater with rfl | ⟨-, hmtime, hint⟩
      · exact h.int
      · rw [hmtime, hint]
    · rw [hclock]
      rcases hlater with rfl | ⟨-, hmtime, -⟩
      · exact Int.le_trans h.past hnow
      · exact Int.le_of_eq hmtime
    · intro c'
      rw [hclock]
      by_cases hc : c' = c
      · subst c'
        rw [Function.update_self]
        exact hfollows
      · rw [Function.update_of_ne hc, hothers c' hc]
        rcases hlater with rfl | ⟨hlater, -⟩
        · exact (h.clients c').later hnow
        · exact (h.clients c').newer hnow hlater
    · intro c' hdone
      by_cases hc : c' = c
      · subst c'
        rw [Function.update_self]
        exact hmore hdone
      · rwa [Function.update_of_ne hc]
    · exact fun hall => hnew.resolve_right fun hnew => hnew.1 (hall c)
    · intro ha
      rw [Function.update_self]
      exact hfinish ha

theorem run_inv (hready : Ready f t₀) (hfirst : t₀.server.dir.lookup f = some first)
    (h : Run step (Within f) t₀ acts t) :
    ∃ (theirs : File) (done : C → Prop), Inv (versions f t₀) f theirs done t ∧ ∀ c, Finished c acts → done c := by
  refine h.invariant (I := fun acts t => ∃ (theirs : File) (done : C → Prop),
    Inv (versions f t₀) f theirs done t ∧ ∀ c, Finished c acts → done c) ?_ ?_
  · refine ⟨first, fun _ => False, ⟨hready.unlocked, hfirst, (hready.server first hfirst).2,
      (hready.server first hfirst).1, ?_, fun c => ⟨fun file hfile => ⟨hready.mounts c file hfile, ?_⟩, False.elim,
      track_idle (hready.idle c)⟩⟩, ?_⟩
    · exact .inl (content_of_lookup hfirst)
    · exact .inr ⟨c, content_of_lookup hfile⟩
    · rintro c ⟨now, hmem⟩
      cases hmem
  · rintro acts t b t' ⟨theirs, done, hinv, hfinished⟩ hwithin hstep
    obtain ⟨theirs', done', hinv', hmore, -, hfinish⟩ := step_inv hready.distinct hinv hwithin hstep
    refine ⟨theirs', done', hinv', fun c hdone => ?_⟩
    rcases finished_snoc hdone with hbefore | ⟨rfl, ha⟩
    · exact hmore c (hfinished c hbefore)
    · exact hfinish ha

omit [DecidableEq C] in
theorem started_snoc (h : Started c (acts ++ [b])) : Started c acts ∨ (b.1 = c ∧ b.2.2 = .snapshot) := by
  obtain ⟨now, hmem⟩ := h
  rcases List.mem_append.mp hmem with hmem | hmem
  · exact .inl ⟨now, hmem⟩
  · rw [← List.mem_singleton.mp hmem]
    exact .inr ⟨rfl, rfl⟩

omit [DecidableEq C] in
theorem completed_snoc (h : Completed c (acts ++ [b])) :
    Completed c acts ∨ (Started c acts ∧ b.1 = c ∧ b.2.2 = .finish) := by
  obtain ⟨before, now, hprefix, hstarted⟩ := h
  rcases List.prefix_concat_iff.mp hprefix with hlast | hprefix
  · obtain ⟨rfl, hb⟩ := List.append_inj' hlast rfl
    obtain rfl := (List.cons.inj hb).1
    exact .inr ⟨hstarted, rfl, rfl⟩
  · exact .inl ⟨before, now, hprefix, hstarted⟩

omit [DecidableEq C] in
theorem completed_started (h : Completed c acts) : Started c acts := by
  obtain ⟨before, now, ⟨after, rfl⟩, time, hmem⟩ := h
  exact ⟨time, List.mem_append_left _ (List.mem_append_left _ hmem)⟩

omit [DecidableEq C] in
theorem completed_finished (h : Completed c acts) : Finished c acts := by
  obtain ⟨before, now, ⟨after, rfl⟩, -⟩ := h
  exact ⟨now, List.mem_append_left _ (List.mem_append_right _ (List.mem_singleton_self _))⟩

/-- After the first calls of all clients: the server keeps its version, and the rounds begun since then spread it. -/
structure Spreads (V : Set Content) (f : String) (final : File) (acts : List (C × Int × Act)) (t : State C) : Prop where
  inv : Inv V f final (fun _ => True) t
  started : ∀ c, Started c acts → Settling f final (t.clients c)
  completed : ∀ c, Completed c acts → Same f final (t.clients c)

theorem step_spreads {final : File} (hV : Distinct V) (h : Spreads V f final acts t)
    (hwithin : Within f acts t b) (hstep : step t b = some t') : Spreads V f final (acts ++ [b]) t' := by
  obtain ⟨theirs', done', hinv, hmore, hkept, -⟩ := step_inv hV h.inv hwithin hstep
  obtain rfl : theirs' = final := hkept fun _ => trivial
  obtain rfl : done' = fun _ => True := funext fun c => eq_true (hmore c trivial)
  obtain ⟨c, now, a⟩ := b
  obtain ⟨-, -, hclient, hothers⟩ := step_some hstep
  have hmine : (Started c (acts ++ [(c, now, a)]) → Settling f theirs' (t'.clients c)) ∧
      (Started c acts → Same f theirs' (t.clients c) ∨ a = .finish → Same f theirs' (t'.clients c)) := by
    rcases round_cases hclient with ⟨hthread, hphase⟩ | ⟨rfl, hserver, hmine⟩ | hmove
    · have hcopies := within_untouched acts t _ hwithin hthread t' hstep
      have hsame : Same f theirs' (t'.clients c) ↔ Same f theirs' (t.clients c) :=
        same_congr (congrArg Prod.snd hcopies)
      refine ⟨fun hstarted => ?_, fun _ hkept => hsame.mpr (hkept.resolve_right ?_)⟩
      · rw [Settling, hsame, hphase]
        refine h.started c ((started_snoc hstarted).resolve_right ?_)
        rintro ⟨-, rfl⟩
        cases hthread
      · rintro rfl
        cases hthread
    · rw [hmine]
      refine ⟨fun _ => processCallback_current h.inv.server, fun _ hkept => hkept.resolve_right ?_⟩
      intro hfinish
      cases hfinish
    · have hown (own : Option Content) (ha : a = .decide f own) : own = (t.clients c).mount.dir.content f := by
        subst a
        exact hwithin rfl
      have hthread (hstarted : Started c acts) := (h.started c hstarted).thread (h.inv.clients c) hV h.inv.server
        h.inv.int h.inv.mem hown hmove
      refine ⟨fun hstarted => (hthread ((started_snoc hstarted).resolve_right ?_)).1, fun hstarted hkept => ?_⟩
      · rintro ⟨-, rfl⟩
        cases hmove
      · obtain ⟨-, hsame, hfinish⟩ := hthread hstarted
        exact hkept.elim hsame hfinish
  refine ⟨hinv, fun c' hstarted => ?_, fun c' hcompleted => ?_⟩
  · by_cases hc : c' = c
    · subst c'
      exact hmine.1 hstarted
    · rw [hothers c' hc]
      exact h.started c' ((started_snoc hstarted).resolve_right fun hb => hc hb.1.symm)
  · by_cases hc : c' = c
    · subst c'
      rcases completed_snoc hcompleted with hbefore | ⟨hstarted, -, ha⟩
      · exact hmine.2 (completed_started hbefore) (.inl (h.completed c hbefore))
      · exact hmine.2 hstarted (.inr ha)
    · rw [hothers c' hc]
      exact h.completed c' ((completed_snoc hcompleted).resolve_right fun hb => hc hb.2.1.symm)

theorem run_spreads {final : File} (hV : Distinct V) (hinv : Inv V f final (fun _ => True) t₀)
    (h : Run step (Within f) t₀ acts t) : Spreads V f final acts t := by
  refine h.invariant (I := Spreads V f final) ⟨hinv, ?_, ?_⟩ ?_
  · rintro c ⟨now, hmem⟩
    cases hmem
  · intro c hcompleted
    obtain ⟨now, hmem⟩ := completed_started hcompleted
    cases hmem
  · intro acts t b t' hspreads hwithin hstep
    exact step_spreads hV hspreads hwithin hstep

variable {t₁ t₂ : State C} {acts₁ acts₂ : List (C × Int × Act)}

end

def bothRounds (now : Int) (own : Bool → Content) : List (Bool × Int × Act) :=
  [(true, now, .snapshot), (false, now, .snapshot), (true, now, .receive), (false, now, .receive),
    (true, now, .decide "f.txt" (some (own true))), (false, now, .decide "f.txt" (some (own false))),
    (true, now + 1, .call), (false, now + 2, .call), (true, now + 2, .opendir), (false, now + 2, .opendir),
    (true, now + 2, .unlink "f.txt"), (false, now + 2, .unlink "f.txt"), (true, now + 2, .finish),
    (false, now + 2, .finish)]

theorem bothRounds_finished (now : Int) (own : Bool → Content) (c : Bool) : Finished c (bothRounds now own) := by
  refine ⟨now + 2, ?_⟩
  cases c <;> simp [bothRounds]

theorem firstRounds_run : (exec step (Within "f.txt") threeVersions
    (bothRounds 9 fun c => if c then [2] else [3])).isSome := by decide +kernel

def bothMet : State Bool :=
  (exec step (Within "f.txt") threeVersions (bothRounds 9 fun c => if c then [2] else [3])).get firstRounds_run

theorem secondRounds_run : (exec step (Within "f.txt") bothMet
    (bothRounds 12 fun c => if c then [1] else [3])).isSome := by decide +kernel

end GraduateOS.Dfs.Overlaps
