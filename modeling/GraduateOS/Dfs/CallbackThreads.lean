import GraduateOS.Dfs.CallbackPlaces

namespace GraduateOS.Dfs.CallbackThreads

open CallData CallbackPlaces

variable {T : Type} {place : Tag → Place T} {t : T} {tag outer : Tag} {es : List Event} {s : Service T}

theorem idle_owner (hi : Inv es s place) (hpc : s.threads t = .off ∨ s.threads t = .next) (a : Tag) :
    (place a).owner ≠ some t := by
  intro howner
  have hnames := hi.held.names a t howner
  rcases hpc with hpc | hpc
  · rw [hpc] at hnames
    exact hnames
  · rw [hpc] at hnames
    exact hnames

theorem names_move {pc : ThreadPc} {p : Place T} (hmine : p.owner = some t → Names pc tag)
    (hothers : ∀ a, a ≠ tag → (place a).owner = some t → Names pc a) (a : Tag)
    (howner : (Function.update place tag p a).owner = some t) : Names pc a := by
  by_cases ha : a = tag
  · subst a
    rw [Function.update_self] at howner
    exact hmine howner
  · rw [Function.update_of_ne ha] at howner
    exact hothers a ha howner

variable [DecidableEq T]

theorem begin_inv (hi : Inv es s place) (hpc : s.threads t = .off) :
    Inv (es ++ []) { s.goto t (.proceed s.objects.length .start) with objects := s.objects ++ [some .create] }
      (Function.update place s.objects.length (.building t)) := by
  have hplace : place s.objects.length = .unborn := (hi.unborn _).mp (Nat.le_refl _)
  refine ⟨hi.alive, status_append hi.status hi.unborn, unborn_append hi.unborn,
    hi.queued.keep hplace nofun nofun, hi.registered.keep hplace nofun nofun,
    hi.finishing.keep hplace nofun nofun, events_keep hi.events hplace rfl, ?_,
    history_move hi.history hplace (by simp) rfl⟩
  refine hi.held.goto (foreign_move hplace (.inl rfl) (.inr rfl)) ?_ ?_
  · exact Function.update_self ..
  · exact names_move (fun _ => .inl rfl) (fun a _ howner => absurd howner (idle_owner hi (.inl hpc) a))

theorem takeEvent_inv (hi : Inv es s place) (hpc : s.threads t = .next) (hevent : (tag, true) ∈ s.events) :
    ∃ p, p.awaits = (place tag).awaits ∧ (p = .taken t ∨ p = .deleting t) ∧
      Inv (es ++ []) { s.goto t (.proceed tag .loop) with events := s.events.erase (tag, true) }
        (Function.update place tag p) := by
  have hmem : (place tag).event = some true := (hi.events.2 (tag, true)).mp hevent
  cases hplace : place tag with
  | delivered =>
      refine ⟨.taken t, rfl, .inl rfl, hi.alive, status_keep hi.status hplace rfl,
        unborn_keep hi.unborn hplace nofun nofun, hi.queued.keep hplace nofun nofun,
        hi.registered.keep hplace nofun nofun, hi.finishing.keep hplace nofun nofun,
        events_leave hi.events hplace rfl rfl, ?_, history_move hi.history hplace (by simp) rfl⟩
      refine hi.held.goto (foreign_move hplace (.inl rfl) (.inr rfl)) ?_ ?_
      · exact .inl (by simp)
      · exact names_move (fun _ => .inl rfl) (fun a _ howner => absurd howner (idle_owner hi (.inr hpc) a))
  | completed ok =>
      rw [hplace] at hmem
      obtain rfl : ok = true := Option.some.inj hmem
      refine ⟨.deleting t, rfl, .inr rfl, hi.alive, status_keep hi.status hplace rfl,
        unborn_keep hi.unborn hplace nofun nofun, hi.queued.keep hplace nofun nofun,
        hi.registered.keep hplace nofun nofun, hi.finishing.keep hplace nofun nofun,
        events_leave hi.events hplace rfl rfl, ?_, history_move hi.history hplace (by simp) rfl⟩
      refine hi.held.goto (foreign_move hplace (.inl rfl) (.inr rfl)) ?_ ?_
      · exact .inr (by simp)
      · exact names_move (fun _ => .inl rfl) (fun a _ howner => absurd howner (idle_owner hi (.inr hpc) a))
  | _ => simp [hplace, Place.event] at hmem

theorem skipEvent_inv (hi : Inv es s place) (hpc : s.threads t = .next) (hevent : (tag, false) ∈ s.events) :
    place tag = .completed false ∧
      Inv (es ++ []) { s.goto t .next with events := s.events.erase (tag, false) }
        (Function.update place tag .leaked) := by
  have hplace : place tag = .completed false := by
    have hmem := (hi.events.2 (tag, false)).mp hevent
    cases hq : place tag <;> simp_all [Place.event]
  refine ⟨hplace, hi.alive, status_keep hi.status hplace rfl, unborn_keep hi.unborn hplace nofun nofun,
    hi.queued.keep hplace nofun nofun, hi.registered.keep hplace nofun nofun,
    hi.finishing.keep hplace nofun nofun, events_leave hi.events hplace rfl rfl, ?_,
    history_move hi.history hplace (by simp) rfl⟩
  refine hi.held.goto (foreign_move hplace (.inl rfl) (.inl rfl)) ?_ ?_
  · trivial
  · exact names_move nofun (fun a _ howner => absurd howner (idle_owner hi (.inr hpc) a))

theorem firstCreate_inv (hi : Inv es s place) (hpc : s.threads t = .proceed tag .start)
    (hpassing : s.passing = none) :
    place tag = .building t ∧
      Inv (es ++ []) { s.goto t .next with
        objects := s.objects.set tag (some .process), queuedTags := s.queuedTags ++ [⟨tag, false⟩] }
        (Function.update place tag .queued) := by
  have hok := hi.held.ok t
  rw [hpc] at hok
  have hplace : place tag = .building t := hok
  refine ⟨hplace, hi.alive, status_set (p := .queued) hi.status (hi.born hplace nofun),
    unborn_set (p := .queued) hi.unborn hplace nofun nofun _, hi.queued.enter hpassing hplace nofun, hi.registered.keep hplace nofun nofun,
    hi.finishing.keep hplace nofun nofun, events_keep hi.events hplace rfl, ?_,
    history_move hi.history hplace (by simp) rfl⟩
  refine hi.held.goto (foreign_move hplace (.inr rfl) (.inl rfl)) ?_ ?_
  · trivial
  · refine names_move nofun (fun a ha howner => ?_)
    have hnames := hi.held.names a t howner
    rw [hpc] at hnames
    rcases hnames with hnames | hnames
    · exact ha hnames
    · cases hnames

theorem nextCreate_inv (hi : Inv es s place) (hpc : s.threads t = .proceed tag (.proceed outer))
    (hpassing : s.passing = none) :
    place tag = .building t ∧ place outer = .spawning t ∧
      Inv (es ++ []) { s.goto t (.processCallback outer) with
        objects := s.objects.set tag (some .process), queuedTags := s.queuedTags ++ [⟨tag, false⟩] }
        (Function.update (Function.update place tag .queued) outer (.calling t)) := by
  have hok := hi.held.ok t
  rw [hpc] at hok
  obtain ⟨hplace, houter⟩ := hok
  have hne : outer ≠ tag := by
    rintro rfl
    rw [hplace] at houter
    cases houter
  have houter' : Function.update place tag .queued outer = .spawning t := by
    rw [Function.update_of_ne hne, houter]
  have hborn := hi.born hplace nofun
  refine ⟨hplace, houter, hi.alive, ?_, ?_, (hi.queued.enter hpassing hplace nofun).keep houter' nofun nofun,
    (hi.registered.keep (p := .queued) hplace nofun nofun).keep houter' nofun nofun,
    (hi.finishing.keep (p := .queued) hplace nofun nofun).keep houter' nofun nofun,
    events_keep (events_keep (p := .queued) hi.events hplace rfl) houter' rfl, ?_, ?_⟩
  · exact status_keep (s := { s with objects := s.objects.set tag (some .process) })
      (status_set (p := .queued) hi.status hborn) houter' rfl
  · exact unborn_keep (s := { s with objects := s.objects.set tag (some .process) })
      (unborn_set (p := .queued) hi.unborn hplace nofun nofun _) houter' nofun nofun
  · refine hi.held.goto ((foreign_move hplace (.inr rfl) (.inl rfl)).trans
      (foreign_move houter' (.inr rfl) (.inr rfl))) ?_ ?_
    · exact Function.update_self ..
    · refine names_move (fun _ => rfl) (fun a ha howner => ?_)
      by_cases htag : a = tag
      · subst a
        simp [Place.owner] at howner
      · rw [Function.update_of_ne htag] at howner
        have hnames := hi.held.names a t howner
        rw [hpc] at hnames
        rcases hnames with hnames | hnames
        · exact absurd hnames htag
        · exact absurd (Caller.proceed.inj hnames).symm ha
  · have hqueued := history_keep (p := .queued) hi.history hplace rfl
    simpa using history_keep (p := .calling t) hqueued houter' rfl

theorem spawn_inv (hi : Inv es s place) (hpc : s.threads t = .proceed tag .loop) (hplace : place tag = .taken t) :
    place s.objects.length = .unborn ∧
      Inv (es ++ []) { s.goto t (.proceed s.objects.length (.proceed tag)) with
        objects := s.objects ++ [some .create] }
        (Function.update (Function.update place tag (.spawning t)) s.objects.length (.building t)) := by
  have hnew : place s.objects.length = .unborn := (hi.unborn _).mp (Nat.le_refl _)
  have hne : s.objects.length ≠ tag := by
    rintro rfl
    rw [hplace] at hnew
    cases hnew
  have hnew' : Function.update place tag (.spawning t) s.objects.length = .unborn := by
    rw [Function.update_of_ne hne, hnew]
  have hstatus := status_keep (p := .spawning t) hi.status hplace rfl
  have hunborn := unborn_keep (p := .spawning t) hi.unborn hplace nofun nofun
  refine ⟨hnew, hi.alive, status_append hstatus hunborn, unborn_append hunborn,
    (hi.queued.keep (p := .spawning t) hplace nofun nofun).keep hnew' nofun nofun,
    (hi.registered.keep (p := .spawning t) hplace nofun nofun).keep hnew' nofun nofun,
    (hi.finishing.keep (p := .spawning t) hplace nofun nofun).keep hnew' nofun nofun,
    events_keep (events_keep (p := .spawning t) hi.events hplace rfl) hnew' rfl, ?_, ?_⟩
  · refine hi.held.goto ((foreign_move hplace (.inr rfl) (.inr rfl)).trans
      (foreign_move hnew' (.inl rfl) (.inr rfl))) ?_ ?_
    · exact ⟨Function.update_self .., by rw [Function.update_of_ne hne.symm, Function.update_self]⟩
    · refine names_move (fun _ => .inl rfl) (fun a ha howner => ?_)
      by_cases htag : a = tag
      · exact .inr (congrArg Caller.proceed htag.symm)
      · rw [Function.update_of_ne htag] at howner
        have hnames := hi.held.names a t howner
        rw [hpc] at hnames
        rcases hnames with hnames | hnames
        · exact absurd hnames htag
        · cases hnames
  · have hspawning := history_keep (p := .spawning t) hi.history hplace rfl
    simpa using history_keep (p := .building t) hspawning hnew' rfl

theorem delete_inv (hi : Inv es s place) (hpc : s.threads t = .proceed tag .loop)
    (hplace : place tag = .deleting t) :
    Inv (es ++ []) { s.goto t .next with objects := s.objects.set tag none }
      (Function.update place tag .deleted) := by
  refine ⟨hi.alive, status_set (p := .deleted) hi.status (hi.born hplace nofun),
    unborn_set (p := .deleted) hi.unborn hplace nofun nofun _, hi.queued.keep hplace nofun nofun,
    hi.registered.keep hplace nofun nofun, hi.finishing.keep hplace nofun nofun,
    events_keep hi.events hplace rfl, ?_, history_move hi.history hplace (by simp) rfl⟩
  refine hi.held.goto (foreign_move hplace (.inr rfl) (.inl rfl)) ?_ ?_
  · trivial
  · refine names_move nofun (fun a ha howner => ?_)
    have hnames := hi.held.names a t howner
    rw [hpc] at hnames
    rcases hnames with hnames | hnames
    · exact ha hnames
    · cases hnames

theorem processCallback_inv (hi : Inv es s place) (hpc : s.threads t = .processCallback tag) :
    place tag = .calling t ∧
      Inv (es ++ [.processed tag]) (s.goto t (.reply tag)) (Function.update place tag (.replying t)) := by
  have hok := hi.held.ok t
  rw [hpc] at hok
  have hplace : place tag = .calling t := hok
  refine ⟨hplace, hi.alive, status_keep hi.status hplace rfl, unborn_keep hi.unborn hplace nofun nofun,
    hi.queued.keep hplace nofun nofun, hi.registered.keep hplace nofun nofun,
    hi.finishing.keep hplace nofun nofun, events_keep hi.events hplace rfl, ?_,
    history_move hi.history hplace (by simp [Event.tag]) rfl⟩
  refine hi.held.goto (foreign_move hplace (.inr rfl) (.inr rfl)) ?_ ?_
  · exact Function.update_self ..
  · refine names_move (fun _ => rfl) (fun a ha howner => ?_)
    have hnames := hi.held.names a t howner
    rw [hpc] at hnames
    exact absurd hnames ha

theorem reply_inv (hi : Inv es s place) (hpc : s.threads t = .reply tag) :
    place tag = .replying t ∧
      Inv (es ++ [.finished tag]) { s.goto t .next with
        objects := s.objects.set tag (some .finish), finishing := s.finishing ++ [tag] }
        (Function.update place tag .finishing) := by
  have hok := hi.held.ok t
  rw [hpc] at hok
  have hplace : place tag = .replying t := hok
  refine ⟨hplace, hi.alive, status_set (p := .finishing) hi.status (hi.born hplace (by simp)),
    unborn_set (p := .finishing) hi.unborn hplace (by simp) (by simp) _, hi.queued.keep hplace (by simp) (by simp),
    hi.registered.keep hplace (by simp) (by simp), hi.finishing.enter hplace (by simp),
    events_keep hi.events hplace rfl, ?_, history_move hi.history hplace (by simp [Event.tag]) rfl⟩
  refine hi.held.goto (foreign_move hplace (.inr rfl) (.inl rfl)) ?_ ?_
  · trivial
  · refine names_move (fun howner => ?_) (fun a ha howner => ?_)
    · cases howner
    · have hnames := hi.held.names a t howner
      rw [hpc] at hnames
      exact ha hnames

end GraduateOS.Dfs.CallbackThreads
