import GraduateOS.Dfs.RoundSteps
import GraduateOS.Library.Exchanges
import Mathlib.Data.Fintype.Defs
import Mathlib.Data.Fintype.Pi

namespace GraduateOS.Dfs.Convergence

open Directory Checksum Messages ServerNode ClientNode Transfers SyncRound Mounts Rounds RoundSteps
open Library.Runs Library.MachineInts Library.Exchanges

/-- The checksum of `own`, the file in the working directory, does not hide that two copies differ. -/
def Discerns (own theirs ours : Option Content) : Prop :=
  ours ≠ none → dfsFileChecksum theirs = dfsFileChecksum own → ours = theirs

instance (own theirs ours : Option Content) : Decidable (Discerns own theirs ours) :=
  inferInstanceAs (Decidable (_ → _ → _))

section

variable {C : Type} [DecidableEq C]

/-- Only the rounds of the asynchronous threads, one client after the other, touch
the copies of the file. A call takes place in a later second than the step before. -/
def Turns (f : String) (_ : List (C × Int × Act)) (s : State C) (a : C × Int × Act) : Prop :=
  match a.2.2 with
  | .edit _ _ | .userDelete _ | .watch => ∀ s' ∈ step s a, copiesAt s' a.1 f = copiesAt s a.1 f
  | .snapshot => ∀ c, c ≠ a.1 → idle (s.clients c).phase = true
  | .decide g own => g = f → Discerns own (s.server.dir.content f) ((s.clients a.1).mount.dir.content f)
  | .call => s.clock < a.2.1 ∧ toInt32 a.2.1 = a.2.1
  | _ => True

instance [Fintype C] (f : String) (history : List (C × Int × Act)) (s : State C) :
    (a : C × Int × Act) → Decidable (Turns f history s a)
  | (c, now, .edit g bytes) =>
      inferInstanceAs (Decidable (∀ s' ∈ step s (c, now, .edit g bytes), copiesAt s' c f = copiesAt s c f))
  | (c, now, .userDelete g) =>
      inferInstanceAs (Decidable (∀ s' ∈ step s (c, now, .userDelete g), copiesAt s' c f = copiesAt s c f))
  | (c, now, .watch) =>
      inferInstanceAs (Decidable (∀ s' ∈ step s (c, now, .watch), copiesAt s' c f = copiesAt s c f))
  | (c, _, .snapshot) => inferInstanceAs (Decidable (∀ c', c' ≠ c → idle (s.clients c').phase = true))
  | (c, _, .decide g own) =>
      inferInstanceAs (Decidable (g = f →
        Discerns own (s.server.dir.content f) ((s.clients c).mount.dir.content f)))
  | (_, now, .call) => inferInstanceAs (Decidable (s.clock < now ∧ toInt32 now = now))
  | (_, _, .receive) | (_, _, .opendir) | (_, _, .unlink _) | (_, _, .finish) => .isTrue trivial

def callsOn (f : String) (s : State C) (a : C × Int × Act) : List (C × Int) :=
  if callFile a.2.2 (s.clients a.1).phase = some f then [(a.1, a.2.1)] else []

def calls (f : String) (s₀ : State C) (acts : List (C × Int × Act)) : List (C × Int) :=
  (observed step (callsOn f) s₀ acts).2

end

section

variable {C : Type}

def version (file : File) : Version Content Int := ⟨file.content, file.mtime⟩

def star (f : String) (s : State C) (theirs : File) : Star C Content Int :=
  ⟨version theirs, fun c => ((s.clients c).mount.dir.lookup f).map version⟩

/-- The version of the first client with a call whose copy differs from the
server's and is not older, or else that of the server. -/
def elected [DecidableEq C] (f : String) (s₀ : State C) (acts : List (C × Int × Act)) (theirs : File) : Content :=
  (((calls f s₀ acts).map Prod.fst).findSome? (challenge (star f s₀ theirs))).getD theirs.content

end

def Choice (theirs : File) : Option File → SyncCall → Prop
  | none, call => call = .fetch
  | some ours, call =>
      ours.content = theirs.content ∨ call = if ours.mtime < theirs.mtime then .fetch else .store

def exchanged (now : Int) (theirs : File) : Option File → Option File × Option File
  | none => (some theirs, some ⟨theirs.content, now⟩)
  | some ours =>
      if ours.content = theirs.content then (some theirs, some ours)
      else if ours.mtime < theirs.mtime then (some theirs, some ⟨theirs.content, now⟩)
      else (some ⟨ours.content, now⟩, some ours)

variable {f clientId : String} {now : Int} {d d' d'' : Dir} {s s' : Server} {m m' : Mount}
  {client client' : Client} {theirs : File} {ours : Option File} {call : SyncCall} {called : Prop} {a : Act}
  {V : Set Content}

/-- A call that is right for the two copies is an exchange between them. -/
theorem perform_exchanged (clientId : String) (now : Int) (hs : Unlocked s) (hV : Distinct V)
    (htheirs : s.dir.lookup f = some theirs) (hours : m.dir.lookup f = ours) (hmem : theirs.content ∈ V)
    (hmem' : ∀ file, ours = some file → file.content ∈ V) (hchoice : Choice theirs ours call) :
    copies (perform clientId now s m f call) f = exchanged now theirs ours := by
  have hfetch := fetch_copies clientId now hV htheirs hours hmem hmem'
  cases ours with
  | none =>
      obtain rfl : call = .fetch := hchoice
      rw [hfetch]
      rfl
  | some file =>
      have hstore := store_copies clientId now hs hV htheirs hours hmem (hmem' file rfl)
      simp only [Option.map_some, Option.some_inj] at hfetch
      rw [exchanged]
      by_cases hsame : file.content = theirs.content
      · rw [if_pos hsame] at hfetch hstore ⊢
        cases call with
        | fetch => exact hfetch
        | store => exact hstore
        | nothing => exact Prod.ext htheirs hours
      · have hcall := hchoice.resolve_left hsame
        rw [if_neg hsame] at hfetch hstore ⊢
        by_cases holder : file.mtime < theirs.mtime
        · rw [if_pos holder] at hcall ⊢
          rw [hcall, hfetch]
        · rw [if_neg holder] at hcall ⊢
          rw [hcall, hstore]

theorem syncCall_choice {reply : CallbackListOutput} {own : Option Content} (hcurrent : Current f reply theirs)
    (hint : toInt32 theirs.mtime = theirs.mtime) (hours : m.dir.lookup f = ours)
    (hown : Discerns own (some theirs.content) (ours.map File.content)) : Choice theirs ours (syncCall reply own m f) := by
  obtain ⟨hcrc, hmtime⟩ := hcurrent
  cases ours with
  | none => simp [Choice, syncCall, hours]
  | some file =>
      by_cases hsame : file.content = theirs.content
      · exact .inl hsame
      · right
        have hdiffer : dfsFileChecksum (some theirs.content) ≠ dfsFileChecksum own :=
          fun heq => hsame (Option.some.inj (hown (Option.some_ne_none _) heq))
        simp [syncCall, hours, hcrc, hmtime, hint, hdiffer]

section

variable {C : Type} [DecidableEq C] {c : C} {t₀ t t' : State C} {b : C × Int × Act} {acts : List (C × Int × Act)}
  {es : List (C × Int)} {first : File}

omit [DecidableEq C] in
theorem star_spokes (f : String) (t : State C) (theirs : File) (c : C) :
    (star f t theirs).spokes c = ((t.clients c).mount.dir.lookup f).map version := rfl

omit [DecidableEq C] in
theorem star_congr (hmounts : ∀ c, (t'.clients c).mount.dir.lookup f = (t.clients c).mount.dir.lookup f)
    (theirs : File) : star f t' theirs = star f t theirs := by
  refine Star.ext rfl (fun c => ?_)
  rw [star_spokes, star_spokes, hmounts c]

/-- A call on the file is an exchange of the client with the server. -/
theorem star_exchange (hours : (t.clients c).mount.dir.lookup f = ours)
    (hcopies : copiesAt t' c f = exchanged now theirs ours) (hothers : ∀ c', c' ≠ c → t'.clients c' = t.clients c') :
    ∃ theirs', t'.server.dir.lookup f = some theirs' ∧ (theirs' = theirs ∨ theirs'.mtime = now) ∧
      star f t' theirs' = exchange (star f t theirs) (c, now) := by
  have hserver : t'.server.dir.lookup f = (exchanged now theirs ours).1 := congrArg Prod.fst hcopies
  have hmount : (t'.clients c).mount.dir.lookup f = (exchanged now theirs ours).2 := congrArg Prod.snd hcopies
  have htakes (hmine : (t'.clients c).mount.dir.lookup f = some ⟨theirs.content, now⟩) :
      star f t' theirs = (star f t theirs).setSpoke c ⟨theirs.content, now⟩ := by
    refine Star.ext rfl (fun c' => ?_)
    by_cases hc : c' = c
    · subst c'
      rw [setSpoke_self, star_spokes, hmine]
      rfl
    · rw [setSpoke_ne _ _ hc, star_spokes, star_spokes, hothers c' hc]
  have hkeeps (hmine : (t'.clients c).mount.dir.lookup f = ours) (theirs : File) :
      star f t' theirs = star f t theirs := by
    refine star_congr (fun c' => ?_) theirs
    by_cases hc : c' = c
    · rw [hc, hmine, hours]
    · rw [hothers c' hc]
  have hspoke : (star f t theirs).spokes c = ours.map version := by rw [star_spokes, hours]
  cases ours with
  | none =>
      refine ⟨theirs, hserver, .inl rfl, ?_⟩
      rw [htakes hmount, exchange, hspoke]
      rfl
  | some file =>
      rw [exchanged] at hserver hmount
      rw [exchange, hspoke]
      by_cases hsame : file.content = theirs.content
      · rw [if_pos hsame] at hserver hmount
        exact ⟨theirs, hserver, .inl rfl, (hkeeps hmount theirs).trans (if_pos hsame).symm⟩
      · rw [if_neg hsame] at hserver hmount
        by_cases holder : file.mtime < theirs.mtime
        · rw [if_pos holder] at hserver hmount
          refine ⟨theirs, hserver, .inl rfl, (htakes hmount).trans ?_⟩
          exact ((if_neg hsame).trans (if_pos holder)).symm
        · rw [if_neg holder] at hserver hmount
          refine ⟨⟨file.content, now⟩, hserver, .inr rfl, (hkeeps hmount _).trans ?_⟩
          exact ((if_neg hsame).trans (if_neg holder)).symm

structure Inv (f : String) (t₀ : State C) (first : File) (acts : List (C × Int × Act)) (es : List (C × Int))
    (t : State C) : Prop where
  unlocked : Unlocked t.server
  copies : ∃ theirs, t.server.dir.lookup f = some theirs ∧ toInt32 theirs.mtime = theirs.mtime ∧
    star f t theirs = es.foldl exchange (star f t₀ first) ∧
    ∀ c, Track f (Current f · theirs) (Choice theirs ((t.clients c).mount.dir.lookup f)) (c ∈ es.map Prod.fst)
      (t.clients c).phase
  ordered : Ordered t₀.clock es
  clock : t₀.clock ≤ t.clock
  past : ∀ e ∈ es, e.2 ≤ t.clock
  alone : ∀ c c', idle (t.clients c).phase = false → idle (t.clients c').phase = false → c = c'
  finished : ∀ c, Finished c acts → c ∈ es.map Prod.fst

omit [DecidableEq C] in
theorem star_among (hlookup : t.server.dir.lookup f = some theirs) : Among (· ∈ versions f t) (star f t theirs) := by
  constructor
  · exact .inl (content_of_lookup hlookup)
  · intro c v hv
    obtain ⟨file, hfile, rfl⟩ := Option.map_eq_some_iff.mp hv
    exact .inr ⟨c, content_of_lookup hfile⟩

/-- A step that touches no copy of the file and is no call on it. -/
theorem Inv.keep (h : Inv f t₀ first acts es t) (hstep : step t b = some t')
    (hcopies : ∀ c, copiesAt t' c f = copiesAt t c f)
    (htrack : ∀ theirs, t.server.dir.lookup f = some theirs →
      Track f (Current f · theirs) (Choice theirs ((t.clients b.1).mount.dir.lookup f)) (b.1 ∈ es.map Prod.fst)
        (t.clients b.1).phase →
      Track f (Current f · theirs) (Choice theirs ((t.clients b.1).mount.dir.lookup f)) (b.1 ∈ es.map Prod.fst)
        (t'.clients b.1).phase)
    (halone : ∀ c, c ≠ b.1 → idle (t'.clients b.1).phase = false → idle (t.clients c).phase = true)
    (hfinished : b.2.2 = .finish → b.1 ∈ es.map Prod.fst) :
    Inv f t₀ first (acts ++ [b]) es t' := by
  obtain ⟨c, now, a⟩ := b
  obtain ⟨hnow, hclock, -, hothers⟩ := step_some hstep
  have hmounts (c' : C) : (t'.clients c').mount.dir.lookup f = (t.clients c').mount.dir.lookup f :=
    congrArg Prod.snd (hcopies c')
  obtain ⟨theirs, htheirs, hint, hstar, htracks⟩ := h.copies
  refine ⟨step_unlocked h.unlocked hstep, ⟨theirs, ?_, hint, ?_, ?_⟩, h.ordered, ?_, ?_, ?_, ?_⟩
  · exact (congrArg Prod.fst (hcopies c)).trans htheirs
  · rw [star_congr hmounts, hstar]
  · intro c'
    rw [hmounts]
    by_cases hc : c' = c
    · subst c'
      exact htrack theirs htheirs (htracks _)
    · rw [hothers c' hc]
      exact htracks c'
  · have hle := h.clock
    omega
  · intro e he
    have hle := h.past e he
    omega
  · intro c' c'' hbusy hbusy'
    by_cases hc : c' = c
    · by_cases hc' : c'' = c
      · rw [hc, hc']
      · rw [hothers c'' hc', halone c'' hc' (hc ▸ hbusy)] at hbusy'
        cases hbusy'
    · rw [hothers c' hc] at hbusy
      by_cases hc' : c'' = c
      · rw [halone c' hc (hc' ▸ hbusy')] at hbusy
        cases hbusy
      · rw [hothers c'' hc'] at hbusy'
        exact h.alone c' c'' hbusy hbusy'
  · intro c' hdone
    rcases finished_snoc hdone with hbefore | ⟨rfl, hfinish⟩
    · exact h.finished c' hbefore
    · exact hfinished hfinish

theorem Inv.others (h : Inv f t₀ first acts es t) (hbusy : idle (t.clients c).phase = false) {c' : C} (hc : c' ≠ c) :
    idle (t.clients c').phase = true := by
  by_contra hnot
  exact hc (h.alone c' c (Bool.eq_false_iff.mpr hnot) hbusy)

theorem turns_untouched (history : List (C × Int × Act)) (t : State C) (b : C × Int × Act)
    (hturn : Turns f history t b) : Untouched f t b := by
  obtain ⟨c, now, a⟩ := b
  intro hthread
  cases a with
  | edit g bytes | userDelete g | watch => exact hturn
  | _ => cases hthread

/-- Users and watchers do not touch the copies of the file, and leave the rounds where they are. -/
theorem other_inv {a : Act} (h : Inv f t₀ first acts es t) (hthread : ofThread a = false)
    (hphase : (t'.clients c).phase = (t.clients c).phase) (hturn : Turns f acts t (c, now, a))
    (hstep : step t (c, now, a) = some t') :
    Inv f t₀ first (acts ++ [(c, now, a)]) (es ++ callsOn f t (c, now, a)) t' := by
  obtain ⟨-, -, -, hothers⟩ := step_some hstep
  have hmine : copiesAt t' c f = copiesAt t c f := turns_untouched acts t _ hturn hthread t' hstep
  have hnone : callsOn f t (c, now, a) = [] := by
    cases a with
    | edit g bytes | userDelete g | watch => rfl
    | _ => cases hthread
  rw [hnone, List.append_nil]
  refine h.keep hstep (copies_all hmine hothers) ?_ ?_ ?_
  · intro theirs _ htrack
    rwa [hphase]
  · intro c' hc hbusy
    exact h.others (hphase ▸ hbusy) hc
  · rintro rfl
    cases hthread

/-- The server puts its listing of the file into the reply. -/
theorem snapshot_inv (h : Inv f t₀ first acts es t) (hturn : Turns f acts t (c, now, .snapshot))
    (hstep : step t (c, now, .snapshot) = some t') (hserver : t'.server = t.server)
    (hmine : t'.clients c = { t.clients c with phase := .replied t.server.processCallback }) :
    Inv f t₀ first (acts ++ [(c, now, .snapshot)]) (es ++ callsOn f t (c, now, .snapshot)) t' := by
  obtain ⟨-, -, -, hothers⟩ := step_some hstep
  have hcopies : copiesAt t' c f = copiesAt t c f := by rw [copiesAt, copiesAt, hserver, hmine]
  have hnone : callsOn f t (c, now, .snapshot) = [] := rfl
  rw [hnone, List.append_nil]
  refine h.keep hstep (copies_all hcopies hothers) ?_ (fun c' hc _ => hturn c' hc)
    (fun hfinish => by cases hfinish)
  intro theirs htheirs _
  rw [hmine]
  exact processCallback_current htheirs

theorem call_inv {ours : Option File} (h : Inv f t₀ first acts es t) (hV : Distinct (versions f t₀))
    (hfirst : t₀.server.dir.lookup f = some first) (hturn : Turns f acts t (c, now, .call))
    (hstep : step t (c, now, .call) = some t') (hours : (t.clients c).mount.dir.lookup f = ours)
    (hbusy : idle (t.clients c).phase = false)
    (hcall : ∀ theirs, t.server.dir.lookup f = some theirs → ∃ call, Choice theirs ours call ∧
      (t'.server, (t'.clients c).mount) = perform (t.clients c).clientId now t.server (t.clients c).mount f call)
    (htrack : ∀ known plan, Track f known plan True (t'.clients c).phase) :
    Inv f t₀ first (acts ++ [(c, now, .call)]) (es ++ [(c, now)]) t' := by
  obtain ⟨hnow, hclock, -, hothers⟩ := step_some hstep
  obtain ⟨hlater, hint'⟩ := hturn
  obtain ⟨theirs, htheirs, hint, hstar, -⟩ := h.copies
  obtain ⟨call, hchoice, hperform⟩ := hcall theirs htheirs
  have hamong : Among (· ∈ versions f t₀) (star f t theirs) := by
    rw [hstar]
    exact (star_among hfirst).foldl es
  have hcopies : copiesAt t' c f = exchanged now theirs ours := by
    rw [copiesAt, hperform]
    refine perform_exchanged _ now h.unlocked hV htheirs hours hamong.hub (fun file hfile => ?_) hchoice
    exact hamong.spokes c (version file) (by rw [star_spokes, hours, hfile]; rfl)
  obtain ⟨theirs', htheirs', hmtime, hstar'⟩ := star_exchange hours hcopies hothers
  refine ⟨step_unlocked h.unlocked hstep, ⟨theirs', htheirs', ?_, ?_, ?_⟩, ?_, ?_, ?_, ?_, ?_⟩
  · rcases hmtime with rfl | hmtime
    · exact hint
    · rw [hmtime, hint']
  · rw [hstar', hstar, List.foldl_append]
    rfl
  · intro c'
    by_cases hc : c' = c
    · subst c'
      exact (htrack _ _).mono (fun _ => id) (fun _ => id) (fun _ => by simp)
    · rw [hothers c' hc]
      exact track_idle (h.others hbusy hc)
  · refine h.ordered.append h.past h.clock ⟨List.pairwise_singleton _ _, ?_⟩
    intro e he
    rw [List.mem_singleton.mp he]
    exact hlater
  · have hle := h.clock
    omega
  · intro e he
    rcases List.mem_append.mp he with he | he
    · have hle := h.past e he
      omega
    · rw [List.mem_singleton.mp he]
      exact hclock.ge
  · intro c' c'' hbusy' hbusy''
    have hc (c' : C) (hb : idle (t'.clients c').phase = false) : c' = c := by
      by_contra hc
      rw [hothers c' hc, h.others hbusy hc] at hb
      cases hb
    rw [hc c' hbusy', hc c'' hbusy'']
  · intro c' hdone
    rw [List.map_append, List.mem_append]
    rcases finished_snoc hdone with hbefore | ⟨-, hfinish⟩
    · exact .inl (h.finished c' hbefore)
    · cases hfinish

theorem step_inv (h : Inv f t₀ first acts es t) (hV : Distinct (versions f t₀))
    (hfirst : t₀.server.dir.lookup f = some first) (hturn : Turns f acts t b) (hstep : step t b = some t') :
    Inv f t₀ first (acts ++ [b]) (es ++ callsOn f t b) t' := by
  obtain ⟨c, now, a⟩ := b
  obtain ⟨-, -, hclient, hothers⟩ := step_some hstep
  rcases round_cases hclient with ⟨hthread, hphase⟩ | ⟨rfl, hserver, hmine⟩ | hmove
  · exact other_inv h hthread hphase hturn hstep
  · exact snapshot_inv h hturn hstep hserver hmine
  · obtain ⟨theirs, htheirs, hint, hstar, htracks⟩ := h.copies
    have hdecide (own : Option Content) (reply : CallbackListOutput) (ha : a = .decide f own)
        (hcurrent : Current f reply theirs) : Choice theirs ((t.clients c).mount.dir.lookup f)
          (syncCall reply own (t.clients c).mount f) := by
      subst a
      have hdiscerns := hturn rfl
      rw [content_of_lookup htheirs] at hdiscerns
      exact syncCall_choice hcurrent hint rfl hdiscerns
    have hsame (theirs' : File) (htheirs' : t.server.dir.lookup f = some theirs') : theirs = theirs' :=
      Option.some.inj (htheirs.symm.trans htheirs')
    rcases (htracks c).thread (fun _ => Current.listed) hdecide hmove with
      ⟨hno, hcopies, htrack⟩ | ⟨hyes, hcall, htrack⟩
    · rw [callsOn, if_neg hno, List.append_nil]
      refine h.keep hstep (copies_all hcopies hothers) ?_ (fun c' hc _ => h.others (threadStep_busy hmove) hc) ?_
      · intro theirs' htheirs' _
        obtain rfl := hsame theirs' htheirs'
        exact htrack
      · rintro rfl
        exact (htracks c).finish hmove
    · obtain rfl := callFile_call hyes
      rw [callsOn, if_pos hyes]
      refine call_inv h hV hfirst hturn hstep rfl (threadStep_busy hmove) ?_ htrack
      intro theirs' htheirs'
      obtain rfl := hsame theirs' htheirs'
      exact hcall

theorem run_inv (hready : Ready f t₀) (hfirst : t₀.server.dir.lookup f = some first)
    (h : Run step (Turns f) t₀ acts t) : Inv f t₀ first acts (calls f t₀ acts) t := by
  refine h.observedHistory (I := Inv f t₀ first) ?_ ?_
  · exact {
      unlocked := hready.unlocked
      copies := ⟨first, hfirst, (hready.server first hfirst).2, rfl, fun c => track_idle (hready.idle c)⟩
      ordered := ⟨.nil, by simp⟩
      clock := le_rfl
      past := by simp
      alone := fun c _ hbusy _ => by
        rw [hready.idle c] at hbusy
        cases hbusy
      finished := fun c hdone => by
        obtain ⟨now, hmem⟩ := hdone
        cases hmem }
  · intro acts es t b t' hinv hturn hstep
    exact step_inv hinv hready.distinct hfirst hturn hstep

omit [DecidableEq C] in
theorem ready_bounded (h : Ready f t) (htheirs : t.server.dir.lookup f = some theirs) :
    Bounded (star f t theirs) t.clock := by
  refine ⟨(h.server theirs htheirs).1, fun c v hv => ?_⟩
  obtain ⟨file, hfile, rfl⟩ := Option.map_eq_some_iff.mp hv
  exact h.mounts c file hfile

/-- Between two rounds everything is as it was at the start, with other copies. -/
theorem Inv.ready (h : Inv f t₀ first acts es t) (hready : Ready f t₀) (hfirst : t₀.server.dir.lookup f = some first)
    (hidle : ∀ c, idle (t.clients c).phase = true) : Ready f t := by
  obtain ⟨theirs, htheirs, hint, hstar, -⟩ := h.copies
  have hbounded : Bounded (star f t theirs) t.clock := by
    rw [hstar]
    exact (ready_bounded hready hfirst).foldl h.ordered h.clock h.past
  have hamong : Among (· ∈ versions f t₀) (star f t theirs) := by
    rw [hstar]
    exact (star_among hfirst).foldl es
  refine ⟨h.unlocked, hidle, hready.distinct.mono ?_, ?_, ?_⟩
  · rintro v (hserver | ⟨c, hmount⟩)
    · rw [content_of_lookup htheirs] at hserver
      exact Option.some.inj hserver ▸ hamong.hub
    · obtain ⟨file, hfile, rfl⟩ := Option.map_eq_some_iff.mp hmount
      exact hamong.spokes c (version file) (by rw [star_spokes, hfile]; rfl)
  · intro theirs' htheirs'
    obtain rfl : theirs = theirs' := Option.some.inj (htheirs.symm.trans htheirs')
    exact ⟨hbounded.hub, hint⟩
  · intro c file hfile
    exact hbounded.spokes c (version file) (by rw [star_spokes, hfile]; rfl)

variable {t₁ t₂ : State C} {acts₁ acts₂ : List (C × Int × Act)}

theorem Inv.content (h : Inv f t₀ first acts es t) :
    t.server.dir.content f = some (es.foldl exchange (star f t₀ first)).hub.value ∧
      ∀ c, (t.clients c).mount.dir.content f =
        ((es.foldl exchange (star f t₀ first)).spokes c).map Version.value := by
  obtain ⟨theirs, htheirs, -, hstar, -⟩ := h.copies
  rw [← hstar]
  refine ⟨content_of_lookup htheirs, fun c => ?_⟩
  rw [star_spokes, Option.map_map]
  rfl

/-- Two rounds of every client are enough, when the rounds do not overlap and
nobody else touches the file. The server has its last version after the first ones:
its own, or that of the first client whose copy differs and is not older. -/
theorem rounds_converge (hready : Ready f t₀) (h₁ : Run step (Turns f) t₀ acts₁ t₁)
    (hidle : ∀ c, idle (t₁.clients c).phase = true) (hfirst : ∀ c, Finished c acts₁)
    (h₂ : Run step (Turns f) t₁ acts₂ t₂) (hsecond : ∀ c, Finished c acts₂) :
    t₁.server.dir.content f = (t₀.server.dir.lookup f).map (elected f t₀ acts₁) ∧
      t₂.server.dir.content f = t₁.server.dir.content f ∧
      ∀ c, (t₂.clients c).mount.dir.content f = t₁.server.dir.content f := by
  cases hserver : t₀.server.dir.lookup f with
  | none =>
      have habsent₁ := (absent_idle hready.idle hserver).run turns_untouched h₁
      have habsent₂ := (absent_idle hidle habsent₁.server).run turns_untouched h₂
      have hgone : t₁.server.dir.content f = none := content_eq_none.mpr habsent₁.server
      rw [hgone]
      exact ⟨rfl, content_eq_none.mpr habsent₂.server, fun c => content_eq_none.mpr (habsent₂.finished c (hsecond c))⟩
  | some theirs =>
      have hinv₁ := run_inv hready hserver h₁
      obtain ⟨theirs₁, htheirs₁, -, hstar, -⟩ := hinv₁.copies
      have hinv₂ := run_inv (hinv₁.ready hready hserver hidle) htheirs₁ h₂
      have hwinner := foldl_hub (ready_bounded hready hserver) hinv₁.ordered
      obtain ⟨hhub, hagree⟩ := twoPasses_agree (ready_bounded hready hserver) hinv₁.ordered
        (fun c => hinv₁.finished c (hfirst c)) (fun c => hinv₂.finished c (hsecond c))
      rw [List.foldl_append, ← hstar] at hhub hagree
      have hcontent₁ := hinv₁.content.1
      obtain ⟨hcontent₂, hmounts⟩ := hinv₂.content
      refine ⟨hcontent₁.trans (congrArg some hwinner), ?_, fun c => ?_⟩
      · rw [hcontent₁, hcontent₂, hhub, hstar]
      · rw [hmounts c, hcontent₁, ← hstar, ← hhub]
        exact hagree c

end

def threeVersions : State Bool where
  server := ⟨empty.put "f.txt" ⟨[1], 5⟩, ∅⟩
  clients c := ⟨if c then "A" else "B", ⟨empty.put "f.txt" (if c then ⟨[2], 3⟩ else ⟨[3], 7⟩), []⟩, .waiting none⟩
  clock := 8

def round (c : Bool) (now : Int) : List (Bool × Int × Act) :=
  [(c, now, .snapshot), (c, now, .receive), (c, now, .decide "f.txt" none), (c, now + 1, .call), (c, now + 1, .opendir),
    (c, now + 1, .unlink "f.txt"), (c, now + 1, .finish)]

def oncePass (now : Int) : List (Bool × Int × Act) := round true now ++ round false (now + 1)

theorem threeVersions_mem {v : Content} (h : v ∈ versions "f.txt" threeVersions) : v ∈ [[1], [2], [3]] := by
  rcases h with hserver | ⟨c, hmount⟩
  · cases hserver
    decide
  · cases c <;> cases hmount <;> decide

theorem threeVersions_ready : Ready "f.txt" threeVersions where
  unlocked _ := rfl
  idle _ := rfl
  distinct := by
    have hall : ∀ v ∈ ([[1], [2], [3]] : List Content), v ≠ [] ∧ dfsFileChecksum none ≠ dfsFileChecksum (some v) ∧
        ∀ w ∈ ([[1], [2], [3]] : List Content), dfsFileChecksum (some v) = dfsFileChecksum (some w) → v = w := by
      decide +kernel
    exact {
      filled := fun v hv => (hall v (threeVersions_mem hv)).1
      there := fun v hv => (hall v (threeVersions_mem hv)).2.1
      apart := fun v hv w hw => (hall v (threeVersions_mem hv)).2.2 w (threeVersions_mem hw) }
  server theirs htheirs := by
    cases htheirs
    decide
  mounts c ours hours := by
    cases c <;> cases hours <;> decide

theorem oncePass_finished (now : Int) (c : Bool) : Finished c (oncePass now) := by
  cases c with
  | true => exact ⟨now + 1, by simp [oncePass, round]⟩
  | false => exact ⟨now + 1 + 1, by simp [oncePass, round]⟩

theorem firstPass_runs : (exec step (Turns "f.txt") threeVersions (oncePass 9)).isSome := by decide +kernel

def onceMet : State Bool := (exec step (Turns "f.txt") threeVersions (oncePass 9)).get firstPass_runs

theorem secondPass_runs : (exec step (Turns "f.txt") onceMet (oncePass 12)).isSome := by decide +kernel

theorem threeVersions_converge : ∃ t₂, Run step (Turns "f.txt") onceMet (oncePass 12) t₂ ∧
    onceMet.server.dir.content "f.txt" =
      (threeVersions.server.dir.lookup "f.txt").map (elected "f.txt" threeVersions (oncePass 9)) ∧
    t₂.server.dir.content "f.txt" = onceMet.server.dir.content "f.txt" ∧
    ∀ c, (t₂.clients c).mount.dir.content "f.txt" = onceMet.server.dir.content "f.txt" := by
  have hfirst := run_iff_exec.mpr (Option.some_get firstPass_runs).symm
  have hsecond := run_iff_exec.mpr (Option.some_get secondPass_runs).symm
  have hidle : ∀ c, idle (onceMet.clients c).phase = true := by decide +kernel
  exact ⟨_, hsecond, rounds_converge threeVersions_ready hfirst hidle (oncePass_finished 9) hsecond (oncePass_finished 12)⟩

end GraduateOS.Dfs.Convergence
