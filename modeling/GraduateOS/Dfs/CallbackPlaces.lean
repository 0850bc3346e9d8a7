import GraduateOS.Dfs.CallData
import Mathlib.Data.List.Nodup
import Mathlib.Data.Set.Function

namespace GraduateOS.Dfs.CallbackPlaces

open CallData

inductive Place (T : Type)
  | unborn
  | building (t : T)
  | queued
  | registered
  | delivered
  | taken (t : T)
  | spawning (t : T)
  | calling (t : T)
  | replying (t : T)
  | finishing
  | completed (ok : Bool)
  | deleting (t : T)
  | leaked
  | deleted

variable {T : Type}

def Place.status : Place T → Option CallStatus
  | .unborn | .deleted => none
  | .building _ => some .create
  | .queued | .registered | .delivered | .taken _ | .spawning _ | .calling _ | .replying _ => some .process
  | .finishing | .completed _ | .deleting _ | .leaked => some .finish

def Place.owner : Place T → Option T
  | .building t | .taken t | .spawning t | .calling t | .replying t | .deleting t => some t
  | _ => none

def Place.awaits : Place T → Bool
  | .queued | .registered | .delivered | .taken _ | .spawning _ => true
  | _ => false

def Place.event : Place T → Option Bool
  | .delivered => some true
  | .completed ok => some ok
  | _ => none

def Place.life (tag : Tag) : Place T → List Event
  | .unborn | .building _ | .queued | .registered => []
  | .delivered | .taken _ | .spawning _ | .calling _ => [.delivered tag]
  | .replying _ => [.delivered tag, .processed tag]
  | _ => [.delivered tag, .processed tag, .finished tag]

def ThreadOk (place : Tag → Place T) (t : T) : ThreadPc → Prop
  | .off | .next => True
  | .proceed tag .start => place tag = .building t
  | .proceed tag .loop => place tag = .taken t ∨ place tag = .deleting t
  | .proceed tag (.proceed outer) => place tag = .building t ∧ place outer = .spawning t
  | .processCallback tag => place tag = .calling t
  | .reply tag => place tag = .replying t

def Names (pc : ThreadPc) (tag : Tag) : Prop :=
  match pc with
  | .off | .next => False
  | .proceed new caller => tag = new ∨ caller = .proceed tag
  | .processCallback tag' | .reply tag' => tag = tag'

structure Held (threads : T → ThreadPc) (place : Tag → Place T) : Prop where
  ok : ∀ t, ThreadOk place t (threads t)
  names : ∀ tag t, (place tag).owner = some t → Names (threads t) tag

def Lists {A : Type} (l : List A) (P : A → Prop) : Prop := l.Nodup ∧ ∀ a, a ∈ l ↔ P a

/-- The objects in `queued_tags`. Those that the queue thread has come to are finished, and no others. -/
structure Queue (queuedTags : List QueueRequest) (passing : Option Nat) (place : Tag → Place T) : Prop where
  lists : Lists (waiting queuedTags passing) (place · = .queued)
  finished : ∀ i request, queuedTags[i]? = some request → (request.finished = true ↔ i < passing.getD 0)

structure Inv (es : List Event) (s : Service T) (place : Tag → Place T) : Prop where
  alive : s.crashed = false
  status : ∀ tag, s.status tag = (place tag).status
  unborn : ∀ tag, s.objects.length ≤ tag ↔ place tag = .unborn
  queued : Queue s.queuedTags s.passing place
  registered : Lists s.registered (place · = .registered)
  finishing : Lists s.finishing (place · = .finishing)
  events : Lists s.events fun e => (place e.1).event = some e.2
  held : Held s.threads place
  history : ∀ tag, historyOf tag es = (place tag).life tag

variable {place place' : Tag → Place T} {threads : T → ThreadPc} {t t' : T} {pc : ThreadPc} {tag : Tag}

theorem ThreadOk.congr (h : ThreadOk place t pc)
    (hsame : ∀ tag, (place tag).owner = some t → place' tag = place tag) : ThreadOk place' t pc := by
  have hkeep : ∀ tag p, place tag = p → p.owner = some t → place' tag = p := by
    rintro tag p rfl howner
    exact hsame tag howner
  cases pc with
  | off | next => trivial
  | proceed tag caller =>
      cases caller with
      | start => exact hkeep tag _ h rfl
      | loop =>
          rcases h with h | h
          · exact .inl (hkeep tag _ h rfl)
          · exact .inr (hkeep tag _ h rfl)
      | proceed outer => exact ⟨hkeep tag _ h.1 rfl, hkeep outer _ h.2 rfl⟩
  | processCallback tag => exact hkeep tag _ h rfl
  | reply tag => exact hkeep tag _ h rfl

variable {A : Type} {l : List A} {P Q : A → Prop} {a : A}

theorem Lists.congr (h : Lists l P) (hsame : ∀ a, Q a ↔ P a) : Lists l Q :=
  ⟨h.1, fun a => (h.2 a).trans (hsame a).symm⟩

theorem Lists.append (h : Lists l P) (hnew : ¬ P a) (hmore : ∀ b, Q b ↔ P b ∨ b = a) :
    Lists (l ++ [a]) Q := by
  have hout : a ∉ l := fun hmem => hnew ((h.2 a).mp hmem)
  refine ⟨List.Nodup.append h.1 (List.nodup_singleton a) (List.disjoint_singleton.mpr hout), ?_⟩
  intro b
  rw [List.mem_append, List.mem_singleton, h.2, hmore]

theorem Lists.erase [BEq A] [LawfulBEq A] (h : Lists l P) (hless : ∀ b, Q b ↔ P b ∧ b ≠ a) : Lists (l.erase a) Q := by
  refine ⟨h.1.erase a, fun b => ?_⟩
  rw [h.1.mem_erase_iff, h.2, hless, and_comm]

theorem Lists.tail (h : Lists (a :: l) P) (hless : ∀ b, Q b ↔ P b ∧ b ≠ a) : Lists l Q := by
  obtain ⟨hout, hnodup⟩ := List.nodup_cons.mp h.1
  refine ⟨hnodup, fun b => ?_⟩
  rw [hless, ← h.2, List.mem_cons]
  constructor
  · intro hb
    refine ⟨.inr hb, ?_⟩
    rintro rfl
    exact hout hb
  · rintro ⟨hb, hne⟩
    exact hb.resolve_left hne

theorem Lists.count_mem [BEq A] [LawfulBEq A] (h : Lists l P) (ha : P a) : l.count a = 1 :=
  List.count_eq_one_of_mem h.1 ((h.2 a).mpr ha)

theorem Lists.count_notMem [BEq A] [LawfulBEq A] (h : Lists l P) (ha : ¬ P a) : l.count a = 0 :=
  List.count_eq_zero_of_not_mem (fun hmem => ha ((h.2 a).mp hmem))

variable {es es' : List Event} {s : Service T} {k p q : Place T} {tags : List Tag}
  {events : List (Tag × Bool)} {ok : Bool} {requests : List QueueRequest} {request : QueueRequest}
  {passing : Option Nat} {i : Nat}

/-! One object goes from place `q` to place `p`. -/

theorem Lists.keep (h : Lists tags (place · = k)) (hplace : place tag = q) (hq : q ≠ k) (hp : p ≠ k) :
    Lists tags (Function.update place tag p · = k) := by
  refine h.congr (fun a => ?_)
  by_cases ha : a = tag
  · subst a
    simp [hplace, hq, hp]
  · simp [ha]

theorem Lists.enter (h : Lists tags (place · = k)) (hplace : place tag = q) (hq : q ≠ k) :
    Lists (tags ++ [tag]) (Function.update place tag k · = k) := by
  refine h.append (by rw [hplace]; exact hq) (fun a => ?_)
  by_cases ha : a = tag
  · subst a
    simp
  · simp [ha]

theorem leaves_iff (hp : p ≠ k) (a : Tag) : Function.update place tag p a = k ↔ place a = k ∧ a ≠ tag := by
  by_cases ha : a = tag
  · subst a
    simp [hp]
  · simp [ha]

theorem Queue.keep (h : Queue requests passing place) (hplace : place tag = q) (hq : q ≠ .queued)
    (hp : p ≠ .queued) : Queue requests passing (Function.update place tag p) :=
  ⟨h.lists.keep hplace hq hp, h.finished⟩

/-- `RequestCallback` gets `queue_mutex` only outside the loop. -/
theorem Queue.enter (h : Queue requests passing place) (hpassing : passing = none) (hplace : place tag = q)
    (hq : q ≠ .queued) : Queue (requests ++ [⟨tag, false⟩]) passing (Function.update place tag .queued) := by
  subst hpassing
  constructor
  · have hmore : waiting (requests ++ [⟨tag, false⟩]) none = waiting requests none ++ [tag] := by simp [waiting]
    rw [hmore]
    exact h.lists.enter hplace hq
  · intro i request hrequest
    rcases Nat.lt_or_ge i requests.length with hlt | hge
    · rw [List.getElem?_append_left hlt] at hrequest
      exact h.finished i request hrequest
    · rw [List.getElem?_append_right hge, List.getElem?_singleton] at hrequest
      split at hrequest <;> cases hrequest
      simp

/-- A new pass begins with the first entry. -/
theorem Queue.lock (h : Queue requests passing place) (hpassing : passing = none) : Queue requests (some 0) place := by
  subst hpassing
  exact ⟨h.lists, h.finished⟩

theorem waiting_cons (hrequest : requests[i]? = some request) :
    waiting requests (some i) =
      request.tag :: waiting (requests.set i { request with finished := true }) (some (i + 1)) := by
  obtain ⟨hlt, rfl⟩ := List.getElem?_eq_some_iff.mp hrequest
  have hrest : (requests.set i { requests[i] with finished := true }).drop (i + 1) = requests.drop (i + 1) :=
    List.drop_set_of_lt (Nat.lt_succ_self i)
  simp only [waiting, Option.getD_some, hrest]
  rw [List.drop_eq_getElem_cons hlt, List.map_cons]

theorem Queue.next (h : Queue requests (some i) place) (hrequest : requests[i]? = some request) (hp : p ≠ .queued) :
    place request.tag = .queued ∧
      Queue (requests.set i { request with finished := true }) (some (i + 1)) (Function.update place request.tag p) := by
  have hlist := h.lists
  rw [waiting_cons hrequest] at hlist
  refine ⟨(hlist.2 request.tag).mp List.mem_cons_self, hlist.tail (leaves_iff hp), fun j other hother => ?_⟩
  rw [Option.getD_some]
  by_cases hij : i = j
  · subst j
    rw [List.getElem?_set_self (List.getElem?_eq_some_iff.mp hrequest).1] at hother
    cases hother
    simp
  · rw [List.getElem?_set_ne hij] at hother
    rw [h.finished j other hother, Option.getD_some]
    omega

/-- After the loop all entries are finished, and none is left. -/
theorem Queue.erase (h : Queue requests (some i) place) (hend : requests.length ≤ i) :
    Queue (requests.filter fun request => !request.finished) none place := by
  have hnone : (requests.filter fun request => !request.finished) = [] := by
    refine List.filter_eq_nil_iff.mpr fun request hmem => ?_
    obtain ⟨j, hlt, hrequest⟩ := List.mem_iff_getElem.mp hmem
    have hfinished := (h.finished j request (List.getElem?_eq_some_iff.mpr ⟨hlt, hrequest⟩)).mpr
      (Nat.lt_of_lt_of_le hlt hend)
    simp [hfinished]
  have hempty : waiting requests (some i) = [] := by simp [waiting, hend]
  rw [hnone]
  refine ⟨?_, by simp⟩
  have hlists := h.lists
  rwa [hempty] at hlists

theorem events_keep (h : Lists events fun e => (place e.1).event = some e.2) (hplace : place tag = q)
    (hsame : p.event = q.event) :
    Lists events fun e => (Function.update place tag p e.1).event = some e.2 := by
  refine h.congr (fun e => ?_)
  by_cases he : e.1 = tag
  · simp [he, hplace, hsame]
  · simp [he]

theorem events_enter (h : Lists events fun e => (place e.1).event = some e.2) (hplace : place tag = q)
    (hq : q.event = none) (hp : p.event = some ok) :
    Lists (events ++ [(tag, ok)]) fun e => (Function.update place tag p e.1).event = some e.2 := by
  refine h.append (by simp [hplace, hq]) (fun e => ?_)
  by_cases he : e.1 = tag
  · simp [he, hplace, hq, hp, Prod.ext_iff, eq_comm]
  · simp [he, Prod.ext_iff]

theorem events_leave (h : Lists events fun e => (place e.1).event = some e.2) (hplace : place tag = q)
    (hq : q.event = some ok) (hp : p.event = none) :
    Lists (events.erase (tag, ok)) fun e => (Function.update place tag p e.1).event = some e.2 := by
  refine h.erase (fun e => ?_)
  by_cases he : e.1 = tag
  · simp [he, hplace, hq, hp, Prod.ext_iff, eq_comm]
  · simp [he, Prod.ext_iff]

theorem status_keep (h : ∀ a, s.status a = (place a).status) (hplace : place tag = q)
    (hsame : p.status = q.status) (a : Tag) : s.status a = (Function.update place tag p a).status := by
  rw [h]
  by_cases ha : a = tag
  · subst a
    simp [hplace, hsame]
  · simp [ha]

theorem unborn_keep (h : ∀ a, s.objects.length ≤ a ↔ place a = .unborn) (hplace : place tag = q)
    (hq : q ≠ .unborn) (hp : p ≠ .unborn) (a : Tag) :
    s.objects.length ≤ a ↔ Function.update place tag p a = .unborn := by
  rw [h]
  by_cases ha : a = tag
  · subst a
    simp [hplace, hq, hp]
  · simp [ha]

theorem history_move (h : ∀ a, historyOf a es = (place a).life a) (hplace : place tag = q)
    (hes : ∀ e ∈ es', e.tag = tag) (hlife : p.life tag = q.life tag ++ es') (a : Tag) :
    historyOf a (es ++ es') = (Function.update place tag p a).life a := by
  have happend : historyOf a (es ++ es') = historyOf a es ++ historyOf a es' := List.filter_append _ _
  rw [happend, h]
  by_cases ha : a = tag
  · subst a
    have hall : historyOf tag es' = es' := List.filter_eq_self.mpr (fun e he => by simp [hes e he])
    rw [hplace, hall, Function.update_self, hlife]
  · have hnone : historyOf a es' = [] := by
      refine List.filter_eq_nil_iff.mpr (fun e he => ?_)
      simp [hes e he, Ne.symm ha]
    rw [hnone, List.append_nil, Function.update_of_ne ha]

theorem history_keep (h : ∀ a, historyOf a es = (place a).life a) (hplace : place tag = q)
    (hlife : p.life tag = q.life tag) (a : Tag) :
    historyOf a es = (Function.update place tag p a).life a := by
  have hmove : historyOf a (es ++ []) = _ := history_move h hplace (by simp) (by simpa using hlife) a
  rwa [List.append_nil] at hmove

theorem Held.keep (h : Held threads place) (hplace : place tag = q) (hq : q.owner = none)
    (hp : p.owner = none) : Held threads (Function.update place tag p) := by
  constructor
  · intro t
    refine (h.ok t).congr (fun a howner => ?_)
    by_cases ha : a = tag
    · subst a
      rw [hplace, hq] at howner
      cases howner
    · simp [ha]
  · intro a t howner
    by_cases ha : a = tag
    · subst a
      rw [Function.update_self, hp] at howner
      cases howner
    · rw [Function.update_of_ne ha] at howner
      exact h.names a t howner

theorem Inv.register (hi : Inv es s place) (hpassing : s.passing = some i)
    (hrequest : s.queuedTags[i]? = some request) :
    place request.tag = .queued ∧ Inv (es ++ []) { s with
        queuedTags := s.queuedTags.set i { request with finished := true }
        passing := some (i + 1), registered := s.registered ++ [request.tag] }
      (Function.update place request.tag .registered) := by
  have hqueue := hi.queued
  rw [hpassing] at hqueue
  obtain ⟨hplace, hnext⟩ := hqueue.next hrequest (p := .registered) nofun
  exact ⟨hplace, hi.alive, status_keep hi.status hplace rfl, unborn_keep hi.unborn hplace nofun nofun,
    hnext, hi.registered.enter hplace nofun, hi.finishing.keep hplace nofun nofun,
    events_keep hi.events hplace rfl, hi.held.keep hplace rfl rfl, history_move hi.history hplace (by simp) rfl⟩

theorem Inv.deliver (hi : Inv es s place) (htag : tag ∈ s.registered) :
    Inv (es ++ [.delivered tag])
      { s with registered := s.registered.erase tag, events := s.events ++ [(tag, true)] }
      (Function.update place tag .delivered) := by
  have hplace : place tag = .registered := (hi.registered.2 tag).mp htag
  exact ⟨hi.alive, status_keep hi.status hplace rfl, unborn_keep hi.unborn hplace nofun nofun,
    hi.queued.keep hplace nofun nofun, hi.registered.erase (leaves_iff nofun),
    hi.finishing.keep hplace nofun nofun, events_enter hi.events hplace rfl rfl, hi.held.keep hplace rfl rfl,
    history_move hi.history hplace (by simp [Event.tag]) rfl⟩

theorem Inv.complete (hi : Inv es s place) (htag : tag ∈ s.finishing) (ok : Bool) :
    Inv (es ++ []) { s with finishing := s.finishing.erase tag, events := s.events ++ [(tag, ok)] }
      (Function.update place tag (.completed ok)) := by
  have hplace : place tag = .finishing := (hi.finishing.2 tag).mp htag
  exact ⟨hi.alive, status_keep hi.status hplace rfl, unborn_keep hi.unborn hplace nofun nofun,
    hi.queued.keep hplace nofun nofun, hi.registered.keep hplace nofun nofun,
    hi.finishing.erase (leaves_iff nofun), events_enter hi.events hplace rfl rfl,
    hi.held.keep hplace rfl rfl, history_move hi.history hplace (by simp) rfl⟩

def Foreign (t : T) (place place' : Tag → Place T) : Prop :=
  ∀ a t', t' ≠ t → ((place a).owner = some t' ∨ (place' a).owner = some t') → place' a = place a

def Mine (t : T) (p : Place T) : Prop := p.owner = none ∨ p.owner = some t

theorem foreign_move (hplace : place tag = q) (hq : Mine t q) (hp : Mine t p) :
    Foreign t place (Function.update place tag p) := by
  intro a t' ht howner
  by_cases ha : a = tag
  · subst a
    rw [hplace, Function.update_self] at howner
    rcases hq with hq | hq <;> rcases hp with hp | hp <;> simp [hq, hp, Ne.symm ht] at howner
  · simp [ha]

theorem Foreign.trans {place'' : Tag → Place T} (h : Foreign t place place') (h' : Foreign t place' place'') :
    Foreign t place place'' := by
  rintro a t' ht (howner | howner)
  · have hsame := h a t' ht (.inl howner)
    rw [h' a t' ht (.inl (by rw [hsame]; exact howner)), hsame]
  · have hsame := h' a t' ht (.inr howner)
    rw [hsame] at howner ⊢
    exact h a t' ht (.inr howner)

theorem status_append (h : ∀ a, s.status a = (place a).status)
    (hunborn : ∀ a, s.objects.length ≤ a ↔ place a = .unborn) (a : Tag) :
    (s.objects ++ [some CallStatus.create])[a]?.join =
      (Function.update place s.objects.length (.building t) a).status := by
  by_cases ha : a = s.objects.length
  · subst a
    simp [Place.status]
  · rw [Function.update_of_ne ha, ← h]
    rcases Nat.lt_or_gt_of_ne ha with hlt | hgt
    · rw [List.getElem?_append_left hlt]
      rfl
    · rw [h, (hunborn a).mp (Nat.le_of_lt hgt), List.getElem?_eq_none (by simp; omega)]
      rfl

theorem unborn_append (h : ∀ a, s.objects.length ≤ a ↔ place a = .unborn) (a : Tag) :
    (s.objects ++ [some CallStatus.create]).length ≤ a ↔
      Function.update place s.objects.length (.building t) a = .unborn := by
  rw [List.length_append, List.length_singleton]
  by_cases ha : a = s.objects.length
  · subst a
    simp
  · rw [Function.update_of_ne ha, ← h]
    have hne : s.objects.length ≠ a := Ne.symm ha
    omega

theorem status_set (h : ∀ a, s.status a = (place a).status) (hborn : tag < s.objects.length) (a : Tag) :
    (s.objects.set tag p.status)[a]?.join = (Function.update place tag p a).status := by
  by_cases ha : a = tag
  · subst a
    simp [hborn]
  · rw [List.getElem?_set_ne (Ne.symm ha), Function.update_of_ne ha, ← h]
    rfl

theorem unborn_set (h : ∀ a, s.objects.length ≤ a ↔ place a = .unborn) (hplace : place tag = q)
    (hq : q ≠ .unborn) (hp : p ≠ .unborn) (x : Option CallStatus) (a : Tag) :
    (s.objects.set tag x).length ≤ a ↔ Function.update place tag p a = .unborn := by
  rw [List.length_set]
  exact unborn_keep h hplace hq hp a

theorem Inv.born (hi : Inv es s place) (hplace : place tag = q) (hq : q ≠ .unborn) : tag < s.objects.length := by
  by_contra hge
  rw [Nat.not_lt, hi.unborn, hplace] at hge
  exact hq hge

variable [DecidableEq T]

/-- A thread goes on; it takes over, passes on or gives up objects. -/
theorem Held.goto (h : Held threads place) (hforeign : Foreign t place place') (hok : ThreadOk place' t pc)
    (hnames : ∀ a, (place' a).owner = some t → Names pc a) :
    Held (Function.update threads t pc) place' := by
  constructor
  · intro t'
    by_cases ht : t' = t
    · subst t'
      simpa using hok
    · rw [Function.update_of_ne ht]
      exact (h.ok t').congr (fun a howner => hforeign a t' ht (.inl howner))
  · intro a t' howner
    by_cases ht : t' = t
    · subst t'
      simpa using hnames a howner
    · rw [Function.update_of_ne ht]
      rw [hforeign a t' ht (.inr howner)] at howner
      exact h.names a t' howner

end GraduateOS.Dfs.CallbackPlaces
