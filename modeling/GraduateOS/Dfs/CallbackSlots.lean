import GraduateOS.Dfs.CallbackRuns
import GraduateOS.Library.Runs
import Mathlib.Data.Set.Card

namespace GraduateOS.Dfs.CallbackSlots

open CallData CallbackPlaces CallbackThreads CallbackRuns Library.Runs

/-- Every started thread has one object that waits for a request or for its
handling. Such an object is queued, registered or delivered, a request is
processed and answered once, and no deleted object is used. Outside its loop the
queue thread leaves no finished entry, so no request is registered again. When no
thread can go on, all requests have been answered. -/
structure SlotsOk {T : Type} [DecidableEq T] (es : List Event) (s : Service T) : Prop where
  alive : s.crashed = false
  slots : {tag | Awaiting s tag}.encard = {t | Started s t}.encard
  place : ∀ tag, Awaiting s tag →
    (((waiting s.queuedTags s.passing).count tag + s.registered.count tag + s.events.count (tag, true) : Nat) :
      ENat) + {t | Handing s tag t}.encard = 1
  unfinished : s.passing = none → ∀ request ∈ s.queuedTags, request.finished = false
  once : ∀ tag, historyOf tag es <+: [.delivered tag, .processed tag, .finished tag]
  answered : s.passing = none → (∀ t event, step s (.thread t event) = none) →
    ∀ tag, .delivered tag ∈ es → .finished tag ∈ es

variable {T : Type} {place : Tag → Place T} {t : T} {tag : Tag} {es : List Event} {s : Service T}

theorem owner_pc (hi : Inv es s place) (howner : (place tag).owner = some t) :
    match place tag with
    | .taken _ => s.threads t = .proceed tag .loop
    | .spawning _ => ∃ new, s.threads t = .proceed new (.proceed tag)
    | .calling _ => s.threads t = .processCallback tag
    | .replying _ => s.threads t = .reply tag
    | _ => True := by
  have hnames := hi.held.names tag t howner
  have hok := hi.held.ok t
  cases hpc : s.threads t with
  | off | next =>
      rw [hpc] at hnames
      exact hnames.elim
  | processCallback tag' | reply tag' =>
      rw [hpc] at hnames hok
      obtain rfl : tag = tag' := hnames
      have hplace := hok
      simp only [ThreadOk] at hplace
      rw [hplace]
  | proceed new caller =>
      rw [hpc] at hnames hok
      rcases hnames with rfl | rfl
      · cases caller with
        | start =>
            simp only [ThreadOk] at hok
            rw [hok]
            trivial
        | loop =>
            rcases hok with hok | hok
            · rw [hok]
            · rw [hok]
              trivial
        | proceed outer =>
            rw [hok.1]
            trivial
      · rw [hok.2]
        exact ⟨new, rfl⟩

theorem handing_place (hi : Inv es s place) (h : Handing s tag t) :
    place tag = .taken t ∨ place tag = .spawning t ∨ place tag = .deleting t := by
  have hok := hi.held.ok t
  rcases h with hpc | ⟨new, hpc⟩
  · rw [hpc] at hok
    rcases hok with hok | hok
    · exact .inl hok
    · exact .inr (.inr hok)
  · rw [hpc] at hok
    exact .inr (.inl hok.2)

theorem awaiting_iff (hi : Inv es s place) : Awaiting s tag ↔ (place tag).awaits := by
  constructor
  · rintro ⟨hstatus, hidle⟩
    rw [hi.status] at hstatus
    cases hplace : place tag with
    | calling t =>
        have hpc := owner_pc (t := t) hi (by rw [hplace]; rfl)
        rw [hplace] at hpc
        exact absurd hpc (hidle t).1
    | replying t =>
        have hpc := owner_pc (t := t) hi (by rw [hplace]; rfl)
        rw [hplace] at hpc
        exact absurd hpc (hidle t).2
    | queued | registered | delivered | taken | spawning => rfl
    | _ => simp [hplace, Place.status] at hstatus
  · intro hawaits
    refine ⟨?_, fun t => ⟨?_, ?_⟩⟩
    · rw [hi.status]
      cases hplace : place tag <;> simp [hplace, Place.awaits] at hawaits <;> rfl
    · intro hpc
      have hok := hi.held.ok t
      rw [hpc] at hok
      have hplace : place tag = .calling t := hok
      simp [hplace, Place.awaits] at hawaits
    · intro hpc
      have hok := hi.held.ok t
      rw [hpc] at hok
      have hplace : place tag = .replying t := hok
      simp [hplace, Place.awaits] at hawaits

theorem started_iff : Started s t ↔ begun (s.threads t) := by
  cases hpc : s.threads t with
  | proceed tag caller => cases caller <;> simp [Started, hpc, begun]
  | _ => simp [Started, hpc, begun]

theorem slots_eq (hi : Inv es s place) (hslots : Slots s.threads place) :
    {tag | Awaiting s tag}.encard = {t | Started s t}.encard := by
  obtain ⟨slot, hslot⟩ := hslots
  have hawaiting : {tag | Awaiting s tag} = {a | (place a).awaits} := Set.ext (fun _ => awaiting_iff hi)
  have hstarted : {t | Started s t} = {t | begun (s.threads t)} := Set.ext (fun _ => started_iff)
  rw [hawaiting, hstarted, ← hslot.image_eq, hslot.injOn.encard_image]

theorem nobody_handing (hi : Inv es s place) (hno : (place tag).owner = none) :
    {t | Handing s tag t} = ∅ := by
  refine Set.eq_empty_of_forall_notMem (fun t h => ?_)
  rcases handing_place hi h with hplace | hplace | hplace <;> simp [hplace, Place.owner] at hno

theorem one_handing (hi : Inv es s place) (hplace : place tag = .taken t ∨ place tag = .spawning t) :
    {t | Handing s tag t} = {t} := by
  ext t'
  constructor
  · intro h
    have hplace' := handing_place hi h
    rcases hplace with hplace | hplace
    · simpa [hplace, eq_comm] using hplace'
    · simpa [hplace, eq_comm] using hplace'
  · rintro rfl
    have hpc : (place tag).owner = some t' → _ := owner_pc hi
    rcases hplace with hplace | hplace
    · rw [hplace] at hpc
      exact .inl (hpc rfl)
    · rw [hplace] at hpc
      exact .inr (hpc rfl)

/-- An object that waits is in one place, and there once. -/
theorem one_place (hi : Inv es s place) (hawaits : (place tag).awaits) :
    (((waiting s.queuedTags s.passing).count tag + s.registered.count tag + s.events.count (tag, true) : Nat) :
      ENat) + {t | Handing s tag t}.encard = 1 := by
  cases hplace : place tag with
  | queued =>
      rw [hi.queued.lists.count_mem hplace, hi.registered.count_notMem (by simp [hplace]),
        hi.events.count_notMem (by simp [hplace, Place.event]), nobody_handing hi (by rw [hplace]; rfl)]
      simp
  | registered =>
      rw [hi.queued.lists.count_notMem (by simp [hplace]), hi.registered.count_mem hplace,
        hi.events.count_notMem (by simp [hplace, Place.event]), nobody_handing hi (by rw [hplace]; rfl)]
      simp
  | delivered =>
      rw [hi.queued.lists.count_notMem (by simp [hplace]), hi.registered.count_notMem (by simp [hplace]),
        hi.events.count_mem (by simp [hplace, Place.event]), nobody_handing hi (by rw [hplace]; rfl)]
      simp
  | taken t =>
      rw [hi.queued.lists.count_notMem (by simp [hplace]), hi.registered.count_notMem (by simp [hplace]),
        hi.events.count_notMem (by simp [hplace, Place.event]), one_handing hi (.inl hplace)]
      simp
  | spawning t =>
      rw [hi.queued.lists.count_notMem (by simp [hplace]), hi.registered.count_notMem (by simp [hplace]),
        hi.events.count_notMem (by simp [hplace, Place.event]), one_handing hi (.inr hplace)]
      simp
  | _ => simp [hplace, Place.awaits] at hawaits

/-- No entry of the queue is left over from the loop before. -/
theorem queue_unfinished (hi : Inv es s place) (hpassing : s.passing = none) (request : QueueRequest)
    (hmem : request ∈ s.queuedTags) : request.finished = false := by
  obtain ⟨i, hlt, hrequest⟩ := List.mem_iff_getElem.mp hmem
  have hfinished := hi.queued.finished i request (List.getElem?_eq_some_iff.mpr ⟨hlt, hrequest⟩)
  rw [hpassing, Option.getD_none] at hfinished
  exact Bool.eq_false_iff.mpr fun htrue => Nat.not_lt_zero i (hfinished.mp htrue)

theorem life_once (hi : Inv es s place) (tag : Tag) :
    historyOf tag es <+: [.delivered tag, .processed tag, .finished tag] := by
  rw [hi.history]
  cases place tag with
  | unborn | building | queued | registered => exact List.nil_prefix
  | delivered | taken | spawning | calling => exact ⟨[.processed tag, .finished tag], rfl⟩
  | replying => exact ⟨[.finished tag], rfl⟩
  | _ => exact List.prefix_rfl

theorem mem_life (hi : Inv es s place) {e : Event} (he : e.tag = tag) : e ∈ es ↔ e ∈ (place tag).life tag := by
  rw [← hi.history, historyOf, List.mem_filter]
  simp [he]

variable [DecidableEq T]

/-- Unless the queue is locked, a thread can go on as long as there is an event for it. -/
theorem thread_moves (hi : Inv es s place) (hpassing : s.passing = none) (t : T)
    (hidle : ∀ event, step s (.thread t event) = none) : s.threads t = .next ∧ s.events = [] := by
  have hstatus : ∀ tag, (place tag).owner = some t → s.status tag ≠ none := by
    intro tag howner
    rw [hi.status]
    cases hplace : place tag <;> simp [hplace, Place.owner] at howner <;> simp [Place.status]
  simp only [step, hi.alive, Bool.false_eq_true, if_false] at hidle
  cases hpc : s.threads t with
  | off => simp [threadStep, hpc] at hidle
  | next =>
      refine ⟨rfl, List.eq_nil_iff_forall_not_mem.mpr (fun event hevent => ?_)⟩
      simpa [threadStep, hpc, hevent] using hidle event
  | proceed tag caller =>
      have hstep := hidle (tag, true)
      simp only [threadStep, hpc, proceed, hpassing] at hstep
      split at hstep <;> simp at hstep
  | processCallback tag =>
      have hstep := hidle (tag, true)
      simp only [threadStep, hpc] at hstep
      split at hstep <;> cases hstep
  | reply tag =>
      have hstep := hidle (tag, true)
      simp only [threadStep, hpc] at hstep
      split at hstep <;> cases hstep

/-- A request that is not answered is in the completion queue or with a thread. -/
theorem idle_answered (hi : Inv es s place) (hslots : Slots s.threads place) (hpassing : s.passing = none)
    (hidle : ∀ t event, step s (.thread t event) = none) (hdelivered : .delivered tag ∈ es) :
    .finished tag ∈ es := by
  have hnext := fun t => thread_moves hi hpassing t (hidle t)
  have hnobody : ∀ t, (place tag).owner ≠ some t := fun t => idle_owner hi (.inr (hnext t).1) tag
  have hlife : Event.delivered tag ∈ (place tag).life tag := (mem_life hi rfl).mp hdelivered
  refine (mem_life hi rfl).mpr ?_
  show Event.finished tag ∈ (place tag).life tag
  cases hplace : place tag with
  | unborn | building | queued | registered => simp [hplace, Place.life] at hlife
  | taken t | spawning t | calling t | replying t => exact absurd (by rw [hplace]; rfl) (hnobody t)
  | delivered =>
      obtain ⟨slot, hslot⟩ := hslots
      obtain ⟨t, -, -⟩ := hslot.surjOn (show tag ∈ {a | (place a).awaits} by simp [hplace, Place.awaits])
      have hevent : (tag, true) ∈ s.events := (hi.events.2 (tag, true)).mpr (by simp [hplace, Place.event])
      rw [(hnext t).2] at hevent
      cases hevent
  | _ => simp [Place.life]

/-- For any threads and every order of the steps. -/
theorem callback_slots (acts : List (Act T)) (s : Service T) (hrun : Run step anyStep start acts s) :
    SlotsOk (observed step observe (start : Service T) acts).2 s := by
  obtain ⟨place, hi, hslots⟩ := hrun.observedInvariant
    (I := fun es s => ∃ place, Inv es s place ∧ Slots s.threads place)
    ⟨_, start_inv, start_slots⟩ (fun _ _ _ _ _ ⟨_, hi, hslots⟩ _ hstep => step_inv hi hslots hstep)
  exact ⟨hi.alive, slots_eq hi hslots, fun tag hawaits => one_place hi ((awaiting_iff hi).mp hawaits),
    queue_unfinished hi, life_once hi, fun hpassing hidle tag => idle_answered hi hslots hpassing hidle⟩

/-- Two threads, a request that is answered, the failed event of its `Finish`, and another pass over the queue. -/
def oneRequest : List (Act Bool) :=
  let t : Act Bool := .thread true (0, true)
  [t, t, .thread false (0, true), .lockQueue, .register, .eraseFinished, .thread false (0, true),
    .deliver 0, t, t, t, t, t, .complete 0 false, .thread false (0, false),
    .lockQueue, .register, .register, .eraseFinished, .deliver 1]

theorem oneRequest_run : (exec step anyStep (start : Service Bool) oneRequest).isSome := by
  decide

theorem oneRequest_slots : ∃ s, exec step anyStep (start : Service Bool) oneRequest = some s ∧
    SlotsOk (observed step observe (start : Service Bool) oneRequest).2 s := by
  obtain ⟨s, hs⟩ := Option.isSome_iff_exists.mp oneRequest_run
  exact ⟨s, hs, callback_slots oneRequest s (run_iff_exec.mpr hs)⟩

end GraduateOS.Dfs.CallbackSlots
