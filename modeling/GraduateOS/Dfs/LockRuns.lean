import GraduateOS.Dfs.OneWriter

namespace GraduateOS.Dfs.LockRuns

open Directory Checksum Messages ServerNode Handlers OneWriter Library.Runs

/-- The file whose lock a call does not give back when it returns with this step:
`requestLock` keeps what it gets, and a store that finds itself cancelled in the
middle of its stream returns without an `unlock`. -/
def left (s : Server) : Call → Input → Option String
  | .requestLock request, .go _ =>
      if (s.requestLock request).2 = .resourceExhausted then none else some request.fileName
  | .store _ .isCancelled v, .isCancelled true => if v.flag then none else some v.request.fileName
  | _, _ => none

def leaves (t : Service) : Act → List (String × String)
  | .call _ _ => []
  | .handle c i => ((t.calls c).bind (left t.server · i)).toList.map (c, ·)

def leftBehind (d : Dir) (acts : List Act) : List (String × String) := (observed step leaves (start d) acts).2

def fileOf : Call → String
  | .store file _ _ => file
  | .delete _ request => request.fileName
  | .requestLock request => request.fileName

def First : Call → Prop
  | .store _ .lock v => v.flag = true
  | _ => True

def KeptBy (p : Progress) (f : String) : Prop := ∃ call, Progress.call p = some call ∧ locked call = some f

variable {s s' : Server} {c f : String} {call : Call} {i : Input} {p : Progress} {t t' : Service} {a : Act}

def Accounts (s s' : Server) (c : String) (call : Call) (i : Input) (p : Progress) : Prop :=
  ∀ f c', s'.holder f = some c' →
    (c' = c ∧ (KeptBy p f ∨ left s call i = some f)) ∨ (s.holder f = some c' ∧ (c' = c → locked call ≠ some f))

theorem accounts_same (hholder : ∀ f, s'.holder f = s.holder f)
    (hkept : ∀ f, locked call = some f → KeptBy p f ∨ left s call i = some f) : Accounts s s' c call i p := by
  intro f c' hheld
  rw [hholder] at hheld
  by_cases hmine : c' = c ∧ locked call = some f
  · exact .inl ⟨hmine.1, hkept f hmine.2⟩
  · exact .inr ⟨hheld, fun hc hlocked => hmine ⟨hc, hlocked⟩⟩

theorem accounts_none (hholder : ∀ f, s'.holder f = s.holder f) (hlocked : locked call = none) :
    Accounts s s' c call i p :=
  accounts_same hholder (fun _ hf => by rw [hlocked] at hf; cases hf)

theorem accounts_running {call' : Call} (hholder : ∀ f, s'.holder f = s.holder f)
    (hlocked : locked call' = locked call) : Accounts s s' c call i (.running call') :=
  accounts_same hholder (fun _ hf => .inl ⟨call', rfl, hlocked.trans hf⟩)

theorem accounts_lock (hlocked : locked call = none)
    (hkept : (s.lock f c).2 ≠ .resourceExhausted → KeptBy p f ∨ left s call i = some f) :
    Accounts s (s.lock f c).1 c call i p := by
  intro g c' hheld
  have hnone : c' = c → locked call ≠ some g := by simp [hlocked]
  by_cases hgf : g = f
  · subst g
    by_cases hlock : (s.lock f c).2 = .resourceExhausted
    · have hsame : (s.lock f c).1 = s := by
        unfold Server.lock at hlock ⊢
        split
        next hfree => simp [hfree] at hlock
        · rfl
      rw [hsame] at hheld
      exact .inr ⟨hheld, hnone⟩
    · rw [lock_holds s f c hlock, Option.some_inj] at hheld
      exact .inl ⟨hheld.symm, hkept hlock⟩
  · rw [lock_holder_ne s c hgf] at hheld
    exact .inr ⟨hheld, hnone⟩

theorem accounts_unlock (hlocked : locked call = some f ∨ locked call = none) :
    Accounts s (s.unlock f).1 c call i p := by
  intro g c' hheld
  rw [unlock_holder] at hheld
  split at hheld
  · cases hheld
  next hgf =>
    refine .inr ⟨hheld, fun _ hg => ?_⟩
    rcases hlocked with hlocked | hlocked
    · rw [hlocked, Option.some_inj] at hg
      exact hgf hg.symm
    · rw [hlocked] at hg
      cases hg

theorem storeStep_accounts {file : String} {pc : StorePc} {v : StoreVars}
    (hfits : Fits c (.store file pc v)) (hfirst : First (.store file pc v))
    (h : storeStep s file v pc i = some (s', p)) : Accounts s s' c (.store file pc v) i p := by
  have hrequest := hfits.2.2
  cases pc with
  | read =>
      cases i <;> cases h
      · exact accounts_running (fun _ => rfl) rfl
      · exact accounts_running (fun _ => rfl) rfl
  | isCancelled =>
      have hname : v.request.fileName = file := hrequest.1
      cases i with
      | isCancelled b =>
          cases hflag : v.flag <;> cases b <;> cases h
          · exact accounts_running (fun _ => rfl) (by simp [locked, hflag])
          · exact accounts_same (fun _ => rfl) (fun f hf => .inr (by simpa [left, locked, hflag, hname] using hf))
          · exact accounts_none (fun _ => rfl) (by simp [locked, hflag])
          · exact accounts_none (fun _ => rfl) (by simp [locked, hflag])
      | _ => cases h
  | lock =>
      cases i with
      | go now =>
          have hflag : v.flag = true := hfirst
          obtain ⟨rfl, rfl⟩ := hrequest
          by_cases hlock : (s.lock v.request.fileName v.request.clientID).2 = .resourceExhausted
          · cases (if_pos hlock).symm.trans h
            exact accounts_lock (by simp [locked, hflag]) (fun hne => absurd hlock hne)
          · cases (if_neg hlock).symm.trans h
            exact accounts_lock (by simp [locked, hflag]) (fun _ => .inl ⟨_, rfl, rfl⟩)
      | _ => cases h
  | compare =>
      cases i with
      | go now =>
          simp only [storeStep] at h
          split at h <;> cases h
          · exact accounts_running (fun _ => rfl) rfl
          · exact accounts_running (fun _ => rfl) rfl
      | _ => cases h
  | unlockSame =>
      cases i with
      | go now =>
          cases h
          exact accounts_unlock (.inl (congrArg some hrequest.1.symm))
      | _ => cases h
  | openFile =>
      cases i with
      | go now =>
          cases h
          exact accounts_running (fun _ => rfl) rfl
      | _ => cases h
  | write =>
      cases i with
      | go now =>
          cases h
          exact accounts_running (fun _ => rfl) rfl
      | _ => cases h
  | close =>
      cases i with
      | go now =>
          cases h
          exact accounts_running (fun _ => rfl) rfl
      | _ => cases h
  | unlock =>
      cases i with
      | go now =>
          cases h
          rcases hfits.unlock with ⟨hflag, -⟩ | ⟨hflag, hname, -⟩
          · exact accounts_unlock (.inr (by simp [locked, hflag]))
          · exact accounts_unlock (.inl (by simp [locked, hflag, hname]))
      | _ => cases h

theorem callStep_accounts (hfits : Fits c call) (hfirst : First call)
    (h : callStep s call i = some (s', p)) : Accounts s s' c call i p := by
  cases call with
  | store file pc v => exact storeStep_accounts hfits hfirst h
  | delete pc request =>
      cases pc with
      | isCancelled =>
          cases i with
          | isCancelled b => cases b <;> cases h <;> exact accounts_none (fun _ => rfl) rfl
          | _ => cases h
      | remove =>
          cases i with
          | go now =>
              simp only [callStep, deleteStep] at h
              split at h <;> cases h <;> exact accounts_none (fun _ => rfl) rfl
          | _ => cases h
      | lock =>
          cases i with
          | go now =>
              obtain rfl := hfits
              by_cases hlock : (s.lock request.fileName request.clientID).2 = .resourceExhausted
              · cases (if_pos hlock).symm.trans h
                exact accounts_lock rfl (fun hne => absurd hlock hne)
              · cases (if_neg hlock).symm.trans h
                exact accounts_lock rfl (fun _ => .inl ⟨_, rfl, rfl⟩)
          | _ => cases h
      | unlock =>
          cases i with
          | go now =>
              cases h
              exact accounts_unlock (.inl rfl)
          | _ => cases h
  | requestLock request =>
      cases i with
      | go now =>
          cases h
          obtain rfl := hfits
          exact accounts_lock rfl (fun hgranted => .inr (if_neg hgranted))
      | _ => cases h

theorem callStep_running {call' : Call} (h : callStep s call i = some (s', .running call')) :
    First call' ∧ fileOf call' = fileOf call := by
  cases call with
  | store file pc v =>
      cases pc with
      | isCancelled =>
          cases i with
          | isCancelled b =>
              cases hflag : v.flag <;> cases b <;> simp [callStep, storeStep, hflag] at h
              · rw [← h.2]
                exact ⟨trivial, rfl⟩
              · rw [← h.2]
                exact ⟨hflag, rfl⟩
          | _ => cases h
      | _ =>
          cases i <;> simp only [callStep, storeStep] at h
          all_goals first
            | (cases h <;> exact ⟨trivial, rfl⟩)
            | (split at h <;> cases h <;> exact ⟨trivial, rfl⟩)
  | delete pc request =>
      cases pc <;> cases i <;> simp only [callStep] at h
      case isCancelled.isCancelled b => cases b <;> cases h; exact ⟨trivial, rfl⟩
      case remove.go now => simp only [deleteStep] at h; split at h <;> cases h; exact ⟨trivial, rfl⟩
      case lock.go now => simp only [deleteStep] at h; split at h <;> cases h; exact ⟨trivial, rfl⟩
      all_goals cases h
  | requestLock request => cases i <;> cases h

structure Explained (es : List (String × String)) (t : Service) : Prop where
  inv : Inv t
  first : ∀ c call, t.calls c = some call → First call
  holders : ∀ c f, t.server.holder f = some c →
    (∃ call, t.calls c = some call ∧ locked call = some f) ∨ (c, f) ∈ es

theorem step_idle {r : Request} (h : step t (.call c r) = some t') : t.calls c = none := by
  simp only [step] at h
  split at h
  next hnone => exact hnone
  · cases h

theorem step_first (hfirst : ∀ c call, t.calls c = some call → First call) (hstep : step t a = some t') :
    ∀ c call, t'.calls c = some call → First call := by
  intro c call hcall
  cases a with
  | call c' r =>
      rw [step_call hstep] at hcall
      by_cases hc : c = c'
      · subst c'
        simp only [Function.update_self, Option.some.injEq] at hcall
        subst call
        cases r <;> trivial
      · simp only [Function.update_of_ne hc] at hcall
        exact hfirst c call hcall
  | handle c' i =>
      obtain ⟨call', s', p, _, _, hmove, rfl⟩ := step_handle hstep
      by_cases hc : c = c'
      · subst c'
        simp only [Function.update_self] at hcall
        cases p with
        | running call'' =>
            cases hcall
            exact (callStep_running hmove).1
        | returned code => cases hcall
      · simp only [Function.update_of_ne hc] at hcall
        exact hfirst c call hcall

theorem step_explained {es : List (String × String)} (h : Explained es t) (hstep : step t a = some t') :
    Explained (es ++ leaves t a) t' := by
  refine ⟨step_inv h.inv hstep, step_first h.first hstep, ?_⟩
  intro c f hheld
  cases a with
  | call c' r =>
      rw [step_call hstep] at hheld ⊢
      rcases h.holders c f hheld with ⟨call, hcall, hlocked⟩ | hmem
      · have hc : c ≠ c' := by
          rintro rfl
          rw [step_idle hstep] at hcall
          cases hcall
        exact .inl ⟨call, by simpa [Function.update_of_ne hc] using hcall, hlocked⟩
      · exact .inr (List.mem_append_left _ hmem)
  | handle c' i =>
      obtain ⟨call', s', p, hcall', _, hmove, rfl⟩ := step_handle hstep
      rcases callStep_accounts (h.inv c' call' hcall').1 (h.first c' call' hcall') hmove f c hheld with
        ⟨rfl, ⟨call'', hrunning, hlocked⟩ | hleft⟩ | ⟨hbefore, hother⟩
      · exact .inl ⟨call'', by simpa using hrunning, hlocked⟩
      · refine .inr (List.mem_append_right _ ?_)
        simp [leaves, hcall', hleft]
      · rcases h.holders c f hbefore with ⟨call, hcall, hlocked⟩ | hmem
        · have hc : c ≠ c' := by
            rintro rfl
            rw [hcall', Option.some_inj] at hcall
            exact hother rfl (hcall ▸ hlocked)
          exact .inl ⟨call, by simpa [Function.update_of_ne hc] using hcall, hlocked⟩
        · exact .inr (List.mem_append_left _ hmem)

theorem start_explained (d : Dir) : Explained [] (start d) where
  inv _ _ hcall := by cases hcall
  first _ _ hcall := by cases hcall
  holders _ _ hheld := by cases hheld

theorem run_explained {d : Dir} {acts : List Act} (h : Run step anyStep (start d) acts t) :
    Explained (leftBehind d acts) t :=
  h.observedInvariant (I := Explained) (start_explained d) (fun _ _ _ _ _ hi _ hstep => step_explained hi hstep)

/-- Every lock has a cause: a call that is in progress, or one that has left it behind. -/
theorem lock_explained {d : Dir} {acts : List Act} (h : Run step anyStep (start d) acts t)
    (hheld : t.server.holder f = some c) :
    (∃ call, t.calls c = some call ∧ locked call = some f) ∨ (c, f) ∈ leftBehind d acts :=
  (run_explained h).holders c f hheld

def cutStore : List Act :=
  [.call "A" (.store "f.txt"), .handle "A" (.message ⟨"f.txt", "A", 1, [1], 7⟩),
    .handle "A" (.isCancelled false), .handle "A" (.go 1), .handle "A" (.go 2), .handle "A" (.go 3),
    .handle "A" (.go 4), .handle "A" (.message ⟨"f.txt", "A", 1, [2], 7⟩), .handle "A" (.isCancelled true)]

theorem cutStore_explained : ∃ t, exec step anyStep (start empty) cutStore = some t ∧
    ((∃ call, t.calls "A" = some call ∧ locked call = some "f.txt") ∨
      ("A", "f.txt") ∈ leftBehind empty cutStore) := by
  obtain ⟨t, ht⟩ : ∃ t, exec step anyStep (start empty) cutStore = some t := ⟨_, rfl⟩
  have hheld : t.server.holder "f.txt" = some "A" := by
    cases ht
    decide
  exact ⟨t, ht, lock_explained (run_iff_exec.mpr ht) hheld⟩

inductive Touch (s : Server) (c : String) (call : Call) : Server → Prop
  | same : Touch s c call s
  | lock : Touch s c call (s.lock (fileOf call) c).1
  | unlock {name} : name = "" ∨ name = fileOf call → Touch s c call (s.unlock name).1
  | openOut {now} : locked call = some (fileOf call) → Touch s c call (s.openOut (fileOf call) now)
  | writeAt {name offset request now} : name = "" ∨ name = fileOf call ∧ locked call = some (fileOf call) →
      Touch s c call (s.writeAt name offset request now)
  | remove : Touch s c call { s with dir := s.dir.remove (fileOf call) }

theorem storeStep_touch {file : String} {pc : StorePc} {v : StoreVars}
    (hfits : Fits c (.store file pc v)) (h : storeStep s file v pc i = some (s', p)) :
    Touch s c (.store file pc v) s' := by
  have ⟨hfile, hwrite, hrequest⟩ := hfits
  cases pc with
  | read => cases i <;> cases h <;> exact .same
  | isCancelled =>
      cases i with
      | isCancelled b => cases b <;> cases h <;> exact .same
      | _ => cases h
  | lock =>
      cases i with
      | go now =>
          obtain ⟨rfl, rfl⟩ := hrequest
          simp only [storeStep] at h
          split at h <;> cases h <;> exact .lock
      | _ => cases h
  | compare =>
      cases i with
      | go now =>
          simp only [storeStep] at h
          split at h <;> cases h <;> exact .same
      | _ => cases h
  | unlockSame =>
      cases i with
      | go now =>
          cases h
          exact .unlock (.inr hrequest.1)
      | _ => cases h
  | openFile =>
      cases i with
      | go now =>
          cases h
          obtain ⟨rfl, _⟩ := hrequest
          exact .openOut rfl
      | _ => cases h
  | write =>
      cases i with
      | go now =>
          cases h
          refine .writeAt ?_
          by_cases hname : v.file = ""
          · exact .inl hname
          · exact .inr ⟨(hfile hname).1, by simp [locked, fileOf, hwrite rfl]⟩
      | _ => cases h
  | close => cases i <;> cases h; exact .same
  | unlock =>
      cases i with
      | go now =>
          cases h
          refine .unlock ?_
          rcases hfits.unlock with ⟨-, hname⟩ | ⟨-, hname, -⟩
          · exact .inl hname
          · exact .inr hname
      | _ => cases h

theorem callStep_touch (hfits : Fits c call) (h : callStep s call i = some (s', p)) : Touch s c call s' := by
  cases call with
  | store file pc v => exact storeStep_touch hfits h
  | delete pc request =>
      obtain rfl := hfits
      cases pc with
      | isCancelled =>
          cases i with
          | isCancelled b => cases b <;> cases h <;> exact .same
          | _ => cases h
      | remove =>
          cases i with
          | go now =>
              simp only [callStep, deleteStep] at h
              split at h <;> cases h
              · exact .same
              · exact .remove
          | _ => cases h
      | lock =>
          cases i with
          | go now =>
              simp only [callStep, deleteStep] at h
              split at h <;> cases h <;> exact .lock
          | _ => cases h
      | unlock =>
          cases i with
          | go now =>
              cases h
              exact .unlock (.inr rfl)
          | _ => cases h
  | requestLock request =>
      obtain rfl := hfits
      cases i with
      | go now =>
          cases h
          exact .lock
      | _ => cases h

theorem touch_frame (h : Touch s c call s') (hf : f ≠ "") (hne : f ≠ fileOf call) :
    s'.holder f = s.holder f ∧ s'.dir.lookup f = s.dir.lookup f := by
  cases h with
  | same => exact ⟨rfl, rfl⟩
  | lock => exact ⟨lock_holder_ne s c hne, by rw [lock_dir]⟩
  | @unlock name hname =>
      have hother : f ≠ name := by
        rintro rfl
        exact hname.elim hf hne
      rw [unlock_holder, if_neg hother, unlock_dir]
      exact ⟨rfl, rfl⟩
  | openOut => exact ⟨rfl, lookup_openOut_ne s.dir hne _⟩
  | @writeAt name _ _ _ hname =>
      have hother : f ≠ name := by
        rintro rfl
        exact hname.elim hf (fun h => hne h.1)
      exact ⟨rfl, lookup_writeAt_ne s.dir hother _ _ _⟩
  | remove => exact ⟨rfl, lookup_remove_ne s.dir hne⟩

/-- A call writes to its file only while its client has the lock. -/
theorem touch_file (hholds : Holds s c call) (h : Touch s c call s') (hf : fileOf call ≠ "")
    (hother : s.holder (fileOf call) ≠ some c) :
    s'.dir.lookup (fileOf call) = s.dir.lookup (fileOf call) ∨ s'.dir.lookup (fileOf call) = none := by
  cases h with
  | same => exact .inl rfl
  | lock => exact .inl (by rw [lock_dir])
  | unlock => exact .inl (by rw [unlock_dir])
  | openOut hlocked => exact absurd (hholds _ hlocked hf) hother
  | @writeAt name _ _ _ hname =>
      rcases hname with rfl | ⟨_, hlocked⟩
      · exact .inl (lookup_writeAt_ne s.dir hf _ _ _)
      · exact absurd (hholds _ hlocked hf) hother
  | remove => exact .inr (lookup_remove_self s.dir _)

def Forgotten (t : Service) (c f : String) : Prop := ∀ call, t.calls c = some call → fileOf call ≠ f

def Forgets (c f : String) (_ : List Act) (_ : Service) : Act → Prop
  | .call c' r => c' = c → fileOf (begin c' r) ≠ f
  | .handle _ _ => True

instance (history : List Act) (t : Service) : ∀ a, Decidable (Forgets c f history t a)
  | .call c' r => inferInstanceAs (Decidable (c' = c → fileOf (begin c' r) ≠ f))
  | .handle _ _ => .isTrue trivial

structure Frozen (c f : String) (file : Option File) (t : Service) : Prop where
  inv : Inv t
  held : t.server.holder f = some c
  forgotten : Forgotten t c f
  file : t.server.dir.lookup f = file ∨ t.server.dir.lookup f = none

theorem step_forgotten {history : List Act} (h : Forgotten t c f) (ha : Forgets c f history t a)
    (hstep : step t a = some t') : Forgotten t' c f := by
  intro call hcall
  cases a with
  | call c' r =>
      rw [step_call hstep] at hcall
      by_cases hc : c = c'
      · subst c'
        simp only [Function.update_self, Option.some.injEq] at hcall
        exact hcall ▸ ha rfl
      · simp only [Function.update_of_ne hc] at hcall
        exact h call hcall
  | handle c' i =>
      obtain ⟨call', s', p, hcall', _, hmove, rfl⟩ := step_handle hstep
      by_cases hc : c = c'
      · subst c'
        simp only [Function.update_self] at hcall
        cases p with
        | running call'' =>
            cases hcall
            rw [(callStep_running hmove).2]
            exact h call' hcall'
        | returned code => cases hcall
      · simp only [Function.update_of_ne hc] at hcall
        exact h call hcall

theorem step_frozen {file : Option File} {history : List Act} (hf : f ≠ "") (h : Frozen c f file t)
    (ha : Forgets c f history t a) (hstep : step t a = some t') : Frozen c f file t' := by
  have hforgotten := step_forgotten h.forgotten ha hstep
  have hinv := step_inv h.inv hstep
  cases a with
  | call c' r =>
      rw [step_call hstep] at hforgotten hinv ⊢
      exact ⟨hinv, h.held, hforgotten, h.file⟩
  | handle c' i =>
      obtain ⟨call, s', p, hcall, _, hmove, rfl⟩ := step_handle hstep
      obtain ⟨hfits, hholds⟩ := h.inv c' call hcall
      have htouch := callStep_touch hfits hmove
      by_cases hfile : f = fileOf call
      · have hother : c ≠ c' := by
          rintro rfl
          exact h.forgotten call hcall hfile.symm
        have hheld := step_keepsOthers h.inv hstep f c hf hother h.held
        refine ⟨hinv, hheld, hforgotten, ?_⟩
        subst hfile
        have hnot : t.server.holder (fileOf call) ≠ some c' := by
          rw [h.held]
          exact fun heq => hother (Option.some.inj heq)
        rcases touch_file hholds htouch hf hnot with hsame | hgone
        · exact h.file.imp hsame.trans hsame.trans
        · exact .inr hgone
      · obtain ⟨hholder, hlookup⟩ := touch_frame htouch hf hfile
        exact ⟨hinv, hholder.trans h.held, hforgotten, h.file.imp hlookup.trans hlookup.trans⟩

/-- A lock that its client has forgotten is never free again: no other client
can store the file, but anybody can delete it. -/
theorem forgotten_lock_stays {d : Dir} {acts later : List Act} (h : Run step anyStep (start d) acts t)
    (hf : f ≠ "") (hheld : t.server.holder f = some c) (hforgotten : Forgotten t c f)
    (hlater : Run step (Forgets c f) t later t') :
    t'.server.holder f = some c ∧
      (t'.server.dir.lookup f = t.server.dir.lookup f ∨ t'.server.dir.lookup f = none) ∧
      ∀ c' v, c' ≠ c → t'.calls c' = some (.store f .lock v) → ∀ now,
        callStep t'.server (.store f .lock v) (.go now) = some (t'.server, .returned .resourceExhausted) := by
  have hfrozen : Frozen c f (t.server.dir.lookup f) t' := by
    refine hlater.stateInvariant ⟨(run_explained h).inv, hheld, hforgotten, .inl rfl⟩ ?_
    exact fun _ _ _ _ hi ha hstep => step_frozen hf hi ha hstep
  refine ⟨hfrozen.held, hfrozen.file, ?_⟩
  intro c' v hc hcall now
  obtain ⟨⟨_, _, hname, hclient⟩, _⟩ := hfrozen.inv c' _ hcall
  have hrefused := lock_refused (hname ▸ hfrozen.held) (hclient ▸ Ne.symm hc)
  simp only [callStep, storeStep, hrefused, if_true]

def laterStore : List Act :=
  [.call "B" (.store "f.txt"), .handle "B" (.message ⟨"f.txt", "B", 1, [3], 7⟩),
    .handle "B" (.isCancelled false)]

theorem cutStore_stays : ∃ t t', exec step anyStep (start empty) cutStore = some t ∧
    exec step (Forgets "A" "f.txt") t laterStore = some t' ∧
    t'.server.holder "f.txt" = some "A" ∧
      (t'.server.dir.lookup "f.txt" = t.server.dir.lookup "f.txt" ∨ t'.server.dir.lookup "f.txt" = none) ∧
      ∀ c' v, c' ≠ "A" → t'.calls c' = some (.store "f.txt" .lock v) → ∀ now,
        callStep t'.server (.store "f.txt" .lock v) (.go now) =
          some (t'.server, .returned .resourceExhausted) := by
  obtain ⟨t, ht⟩ : ∃ t, exec step anyStep (start empty) cutStore = some t := ⟨_, rfl⟩
  obtain ⟨t', ht'⟩ : ∃ t', exec step (Forgets "A" "f.txt") t laterStore = some t' := by
    cases ht
    exact ⟨_, rfl⟩
  have hheld : t.server.holder "f.txt" = some "A" := by
    cases ht
    decide
  have hforgotten : Forgotten t "A" "f.txt" := by
    cases ht
    exact fun _ hcall => by cases hcall
  exact ⟨t, t', ht, ht', forgotten_lock_stays (run_iff_exec.mpr ht) (by decide) hheld hforgotten
    (run_iff_exec.mpr ht')⟩

end GraduateOS.Dfs.LockRuns
