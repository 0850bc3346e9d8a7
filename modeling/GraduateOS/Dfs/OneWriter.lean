import GraduateOS.Dfs.Handlers
import GraduateOS.Library.Runs

namespace GraduateOS.Dfs.OneWriter

open Directory Messages ServerNode Handlers Library.Runs

structure Service where
  server : Server
  calls : String → Option Call

inductive Request
  | store (file : String)
  | delete (file : String)
  | requestLock (file : String)

def begin (c : String) : Request → Call
  | .store file => .store file .read {}
  | .delete file => .delete .isCancelled ⟨file, c⟩
  | .requestLock file => .requestLock ⟨c, file⟩

def accepts (c : String) : Call → Input → Bool
  | .store file _ _, .message request => request.fileName = file ∧ request.clientID = c
  | _, _ => true

def Progress.call : Progress → Option Call
  | .running call => some call
  | .returned _ => none

inductive Act
  | call (c : String) (r : Request)
  | handle (c : String) (i : Input)

def Act.client : Act → String
  | .call c _ => c
  | .handle c _ => c

def step (s : Service) : Act → Option Service
  | .call c r =>
      match s.calls c with
      | none => some { s with calls := Function.update s.calls c (some (begin c r)) }
      | some _ => none
  | .handle c i =>
      match s.calls c with
      | none => none
      | some call =>
          if accepts c call i then
            (callStep s.server call i).map fun p => ⟨p.1, Function.update s.calls c (Progress.call p.2)⟩
          else none

def start (d : Dir) : Service := ⟨⟨d, ∅⟩, fun _ => none⟩

def Writing (s : Service) (c f : String) : Prop :=
  f ≠ "" ∧ ∃ file pc v, s.calls c = some (.store file pc v) ∧ v.file = f

def locked : Call → Option String
  | .store file .compare _ => some file
  | .store file .unlockSame _ => some file
  | .store file .openFile _ => some file
  | .store file _ v => if v.flag then none else some file
  | .delete .unlock request => some request.fileName
  | _ => none

/-- Before its first message, and when there is none, `request` is the empty message. -/
def unread (v : StoreVars) : StorePc → Bool
  | .read | .close | .unlock => v.flag
  | _ => false

def Fits (c : String) : Call → Prop
  | .store file pc v =>
      (v.file ≠ "" → v.file = file ∧ v.flag = false) ∧ (pc = .write → v.flag = false) ∧
        if unread v pc then v.request.fileName = ""
        else v.request.fileName = file ∧ v.request.clientID = c
  | .delete _ request => request.clientID = c
  | .requestLock request => request.clientID = c

def Holds (s : Server) (c : String) (call : Call) : Prop :=
  ∀ f, locked call = some f → f ≠ "" → s.holder f = some c

def Inv (s : Service) : Prop :=
  ∀ c call, s.calls c = some call → Fits c call ∧ Holds s.server c call

def KeepsOthers (s s' : Server) (c : String) : Prop :=
  ∀ g c', g ≠ "" → c' ≠ c → s.holder g = some c' → s'.holder g = some c'

variable {s s' : Server} {c f : String} {call : Call} {i : Input} {p : Progress}

theorem keepsOthers_refl (s : Server) (c : String) : KeepsOthers s s c := fun _ _ _ _ h => h

theorem lock_keepsOthers (s : Server) (f c : String) : KeepsOthers s (s.lock f c).1 c := by
  intro g c' _ hc' hheld
  by_cases hgf : g = f
  · subst g
    rw [lock_refused hheld hc']
    exact hheld
  · rw [lock_holder_ne s c hgf]
    exact hheld

theorem unlock_keepsOthers (h : f = "" ∨ s.holder f = some c) : KeepsOthers s (s.unlock f).1 c := by
  intro g c' hg hc' hheld
  have hgf : g ≠ f := by
    rintro rfl
    rcases h with rfl | h
    · exact hg rfl
    · rw [hheld] at h
      exact hc' (Option.some.inj h)
  rw [unlock_holder, if_neg hgf]
  exact hheld

theorem lock_holds (s : Server) (f c : String) (h : (s.lock f c).2 ≠ .resourceExhausted) :
    (s.lock f c).1.holder f = some c := by
  unfold Server.lock at h ⊢
  split
  next hfree => simp [Server.holder]
  next hfree => simp [hfree] at h

def Safe (s s' : Server) (c : String) (p : Progress) : Prop :=
  KeepsOthers s s' c ∧ ∀ call', Progress.call p = some call' → Fits c call' ∧ Holds s' c call'

theorem safe_running {call' : Call} (hkeeps : KeepsOthers s s' c) (hfits : Fits c call')
    (hholds : Holds s' c call') : Safe s s' c (.running call') := by
  refine ⟨hkeeps, ?_⟩
  intro call'' h
  cases h
  exact ⟨hfits, hholds⟩

theorem safe_returned {code : StatusCode} (hkeeps : KeepsOthers s s' c) :
    Safe s s' c (.returned code) := by
  refine ⟨hkeeps, ?_⟩
  intro call' h
  cases h

theorem owned (hholds : Holds s c call) (hlocked : locked call = some f) :
    f = "" ∨ s.holder f = some c := by
  by_cases hf : f = ""
  · exact .inl hf
  · exact .inr (hholds f hlocked hf)

/-- When the store comes to its last `unlock`, it has read its file's name, or there was no message. -/
theorem Fits.unlock {file : String} {v : StoreVars} (hfits : Fits c (.store file .unlock v)) :
    v.flag = true ∧ v.request.fileName = "" ∨
      v.flag = false ∧ v.request.fileName = file ∧ v.request.clientID = c := by
  have hrequest := hfits.2.2
  cases hflag : v.flag with
  | true => exact .inl ⟨rfl, by simpa [unread, hflag] using hrequest⟩
  | false => exact .inr ⟨rfl, by simpa [unread, hflag] using hrequest⟩

theorem read_safe {file : String} {v : StoreVars} (hfits : Fits c (.store file .read v))
    (hholds : Holds s c (.store file .read v)) (haccepts : accepts c (.store file .read v) i)
    (h : storeStep s file v .read i = some (s', p)) : Safe s s' c p := by
  obtain ⟨hfile, -, hrequest⟩ := hfits
  have hkeeps := keepsOthers_refl s c
  cases i with
  | message request =>
      cases h
      exact safe_running hkeeps ⟨hfile, nofun, by simpa [accepts, unread] using haccepts⟩ hholds
  | endOfStream =>
      cases h
      exact safe_running hkeeps ⟨hfile, nofun, hrequest⟩ hholds
  | isCancelled b => cases h
  | go now => cases h

theorem isCancelled_safe {file : String} {v : StoreVars} (hfits : Fits c (.store file .isCancelled v))
    (hholds : Holds s c (.store file .isCancelled v))
    (h : storeStep s file v .isCancelled i = some (s', p)) : Safe s s' c p := by
  obtain ⟨hfile, -, hrequest⟩ := hfits
  have hkeeps := keepsOthers_refl s c
  cases i with
  | isCancelled b =>
      cases b with
      | true =>
          cases h
          exact safe_returned hkeeps
      | false =>
          cases h
          cases hflag : v.flag with
          | true => exact safe_running hkeeps ⟨hfile, nofun, hrequest⟩ (by simp [Holds, locked, hflag])
          | false =>
              exact safe_running hkeeps ⟨hfile, fun _ => hflag, hrequest⟩
                (by simpa [Holds, locked, hflag] using hholds)
  | _ => cases h

theorem lock_safe {file : String} {v : StoreVars} (hfits : Fits c (.store file .lock v))
    (h : storeStep s file v .lock i = some (s', p)) : Safe s s' c p := by
  obtain ⟨hfile, -, hrequest⟩ := hfits
  cases i with
  | go now =>
      have hkeeps := lock_keepsOthers s file c
      obtain ⟨rfl, rfl⟩ := hrequest
      by_cases hlock : (s.lock v.request.fileName v.request.clientID).2 = .resourceExhausted
      · cases (if_pos hlock).symm.trans h
        exact safe_returned hkeeps
      · cases (if_neg hlock).symm.trans h
        refine safe_running hkeeps ⟨hfile, nofun, rfl, rfl⟩ ?_
        intro f hf _
        cases hf
        exact lock_holds s _ _ hlock
  | _ => cases h

theorem unlock_safe {file : String} {v : StoreVars} (hfits : Fits c (.store file .unlock v))
    (hholds : Holds s c (.store file .unlock v))
    (h : storeStep s file v .unlock i = some (s', p)) : Safe s s' c p := by
  cases i with
  | go now =>
      cases h
      refine safe_returned (unlock_keepsOthers ?_)
      rcases hfits.unlock with ⟨-, hname⟩ | ⟨hflag, hname, -⟩
      · exact .inl hname
      · exact hname ▸ owned hholds (by simp [locked, hflag])
  | _ => cases h

theorem storeStep_safe {file : String} {pc : StorePc} {v : StoreVars}
    (hfits : Fits c (.store file pc v)) (hholds : Holds s c (.store file pc v))
    (haccepts : accepts c (.store file pc v) i) (h : storeStep s file v pc i = some (s', p)) :
    Safe s s' c p := by
  have hkeeps := keepsOthers_refl s c
  have ⟨hfile, hwrite, hrequest⟩ := hfits
  cases pc with
  | read => exact read_safe hfits hholds haccepts h
  | isCancelled => exact isCancelled_safe hfits hholds h
  | lock => exact lock_safe hfits h
  | compare =>
      cases i with
      | go now =>
          simp only [storeStep] at h
          split at h
          · cases h
            exact safe_running hkeeps ⟨hfile, nofun, hrequest⟩ hholds
          · cases h
            exact safe_running hkeeps ⟨hfile, nofun, hrequest⟩ hholds
      | _ => cases h
  | unlockSame =>
      cases i with
      | go now =>
          cases h
          exact safe_returned (unlock_keepsOthers (hrequest.1 ▸ owned hholds rfl))
      | _ => cases h
  | openFile =>
      cases i with
      | go now =>
          cases h
          refine safe_running hkeeps ⟨fun _ => ⟨hrequest.1, rfl⟩, fun _ => rfl, hrequest⟩ ?_
          simpa [Holds, locked] using hholds
      | _ => cases h
  | write =>
      cases i with
      | go now =>
          cases h
          have hflag := hwrite rfl
          exact safe_running hkeeps ⟨hfile, nofun, by simpa [unread, hflag] using hrequest⟩ hholds
      | _ => cases h
  | close =>
      cases i with
      | go now =>
          cases h
          exact safe_running hkeeps ⟨by simp, nofun, hrequest⟩ hholds
      | _ => cases h
  | unlock => exact unlock_safe hfits hholds h

theorem deleteStep_safe {pc : DeletePc} {request : DeleteFileInput}
    (hfits : Fits c (.delete pc request)) (hholds : Holds s c (.delete pc request))
    (h : deleteStep s request pc i = some (s', p)) : Safe s s' c p := by
  have hkeeps := keepsOthers_refl s c
  cases pc with
  | isCancelled =>
      cases i with
      | isCancelled b =>
          cases b with
          | true =>
              cases h
              exact safe_returned hkeeps
          | false =>
              cases h
              exact safe_running hkeeps hfits nofun
      | _ => cases h
  | remove =>
      cases i with
      | go now =>
          simp only [deleteStep] at h
          split at h
          · cases h
            exact safe_returned hkeeps
          · cases h
            exact safe_running hkeeps hfits nofun
      | _ => cases h
  | lock =>
      cases i with
      | go now =>
          have hkeeps := lock_keepsOthers s request.fileName c
          obtain rfl := hfits
          by_cases hlock : (s.lock request.fileName request.clientID).2 = .resourceExhausted
          · cases (if_pos hlock).symm.trans h
            exact safe_returned hkeeps
          · cases (if_neg hlock).symm.trans h
            refine safe_running hkeeps rfl ?_
            intro f hf _
            cases hf
            exact lock_holds s _ _ hlock
      | _ => cases h
  | unlock =>
      cases i with
      | go now =>
          cases h
          exact safe_returned (unlock_keepsOthers (owned hholds rfl))
      | _ => cases h

theorem callStep_safe (hfits : Fits c call) (hholds : Holds s c call) (haccepts : accepts c call i)
    (h : callStep s call i = some (s', p)) : Safe s s' c p := by
  cases call with
  | store file pc v => exact storeStep_safe hfits hholds haccepts h
  | delete pc request => exact deleteStep_safe hfits hholds h
  | requestLock request =>
      cases i with
      | go now =>
          cases h
          obtain rfl := hfits
          exact safe_returned (lock_keepsOthers s _ _)
      | _ => cases h

variable {t t' : Service} {a : Act}

theorem step_call {r : Request} (h : step t (.call c r) = some t') :
    t' = { t with calls := Function.update t.calls c (some (begin c r)) } := by
  simp only [step] at h
  split at h
  · exact (Option.some.inj h).symm
  · cases h

theorem step_handle (h : step t (.handle c i) = some t') :
    ∃ call s' p, t.calls c = some call ∧ accepts c call i ∧ callStep t.server call i = some (s', p) ∧
      t' = ⟨s', Function.update t.calls c (Progress.call p)⟩ := by
  simp only [step] at h
  split at h
  · cases h
  next call hcall =>
    split at h
    next haccepts =>
      obtain ⟨⟨s', p⟩, hstep, rfl⟩ := Option.map_eq_some_iff.mp h
      exact ⟨call, s', p, hcall, haccepts, hstep, rfl⟩
    · cases h

theorem step_keepsOthers (hinv : Inv t) (h : step t a = some t') :
    KeepsOthers t.server t'.server a.client := by
  cases a with
  | call c r =>
      rw [step_call h]
      exact keepsOthers_refl t.server c
  | handle c i =>
      obtain ⟨call, s', p, hcall, haccepts, hstep, rfl⟩ := step_handle h
      obtain ⟨hfits, hholds⟩ := hinv c call hcall
      exact (callStep_safe hfits hholds haccepts hstep).1

theorem begin_fits (c : String) (r : Request) : Fits c (begin c r) ∧ locked (begin c r) = none := by
  cases r with
  | store file => exact ⟨⟨by simp, nofun, rfl⟩, rfl⟩
  | delete file => exact ⟨rfl, rfl⟩
  | requestLock file => exact ⟨rfl, rfl⟩

theorem step_inv (hinv : Inv t) (h : step t a = some t') : Inv t' := by
  have hkeeps := step_keepsOthers hinv h
  intro c call hcall
  by_cases hc : c = a.client
  · subst c
    cases a with
    | call c r =>
        rw [step_call h] at hcall ⊢
        simp only [Act.client, Function.update_self, Option.some.injEq] at hcall
        subst call
        obtain ⟨hfits, hlocked⟩ := begin_fits c r
        exact ⟨hfits, fun f hf => by simp [hlocked] at hf⟩
    | handle c i =>
        obtain ⟨call', s', p, hcall', haccepts, hstep, rfl⟩ := step_handle h
        obtain ⟨hfits, hholds⟩ := hinv c call' hcall'
        simp only [Act.client, Function.update_self] at hcall
        exact (callStep_safe hfits hholds haccepts hstep).2 call hcall
  · have hsame : t'.calls c = t.calls c := by
      cases a with
      | call c' r => rw [step_call h]; exact Function.update_of_ne hc _ _
      | handle c' i =>
          obtain ⟨_, _, _, _, _, _, rfl⟩ := step_handle h
          exact Function.update_of_ne hc _ _
    rw [hsame] at hcall
    obtain ⟨hfits, hholds⟩ := hinv c call hcall
    exact ⟨hfits, fun f hf hn => hkeeps f c hn hc (hholds f hf hn)⟩

theorem writing_holder (hinv : Inv t) (h : Writing t c f) : t.server.holder f = some c := by
  obtain ⟨hf, file, pc, v, hcall, hfile⟩ := h
  obtain ⟨⟨hopen, _, _⟩, hholds⟩ := hinv c _ hcall
  obtain ⟨hname, hflag⟩ := hopen (hfile ▸ hf)
  refine hholds f ?_ hf
  rw [hfile] at hname
  cases pc <;> simp [locked, hflag, hname]

/-- One writer per file: the lock entry names the writer, and only the writer's
own call can take it away. -/
theorem writing_exclusive (d : Dir) (acts : List Act) (t : Service)
    (hrun : Run step anyStep (start d) acts t) (c f : String) (h : Writing t c f) :
    (∀ c', Writing t c' f → c' = c) ∧ t.server.lockList.lookup f = some c ∧
      ∀ a t', a.client ≠ c → step t a = some t' → t'.server.lockList.lookup f = some c := by
  have hinv : Inv t := hrun.stateInvariant (fun _ _ hcall => by cases hcall)
    (fun _ _ _ _ hinv _ hstep => step_inv hinv hstep)
  have hheld := writing_holder hinv h
  refine ⟨?_, hheld, ?_⟩
  · intro c' h'
    exact Option.some.inj ((writing_holder hinv h').symm.trans hheld)
  · intro a t' hc hstep
    exact step_keepsOthers hinv hstep f c h.1 (Ne.symm hc) hheld

/-- Client A opens a file while client B waits before its `lock`. -/
def opening : List Act :=
  [.call "A" (.store "f.txt"), .call "B" (.store "f.txt"),
    .handle "B" (.message ⟨"f.txt", "B", 1, [2], 7⟩), .handle "B" (.isCancelled false),
    .handle "A" (.message ⟨"f.txt", "A", 1, [1], 7⟩), .handle "A" (.isCancelled false),
    .handle "A" (.go 1), .handle "A" (.go 2), .handle "A" (.go 3)]

theorem opening_exclusive : ∃ t, Writing t "A" "f.txt" ∧ (∀ c', Writing t c' "f.txt" → c' = "A") ∧
    t.server.lockList.lookup "f.txt" = some "A" ∧
      ∀ a t', a.client ≠ "A" → step t a = some t' → t'.server.lockList.lookup "f.txt" = some "A" := by
  obtain ⟨t, ht⟩ : ∃ t, exec step anyStep (start empty) opening = some t := ⟨_, rfl⟩
  have hw : Writing t "A" "f.txt" := by
    cases ht
    exact ⟨by decide, "f.txt", .write, _, rfl, rfl⟩
  exact ⟨t, hw, writing_exclusive empty opening t (run_iff_exec.mpr ht) "A" "f.txt" hw⟩

end GraduateOS.Dfs.OneWriter
