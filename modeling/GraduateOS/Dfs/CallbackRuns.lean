import GraduateOS.Dfs.CallbackThreads

namespace GraduateOS.Dfs.CallbackRuns

open CallData CallbackPlaces CallbackThreads

variable {T : Type} {place : Tag → Place T} {threads : T → ThreadPc} {t : T} {tag outer : Tag}
  {es : List Event} {s s' : Service T} {pc : ThreadPc} {p q : Place T}

def begun : ThreadPc → Bool
  | .off | .proceed _ .start => false
  | _ => true

/-- The slot of a thread is the object that stands in for the first one that it made. -/
def Slots (threads : T → ThreadPc) (place : Tag → Place T) : Prop :=
  ∃ slot : T → Tag, Set.BijOn slot {t | begun (threads t)} {a | (place a).awaits}

theorem Slots.keep (h : Slots threads place) (hplace : place tag = q) (hsame : p.awaits = q.awaits) :
    Slots threads (Function.update place tag p) := by
  have hawaits : {a | (Function.update place tag p a).awaits} = {a | (place a).awaits} := by
    ext a
    by_cases ha : a = tag
    · subst a
      simp [hplace, hsame]
    · simp [ha]
  rw [Slots, hawaits]
  exact h

/-- The next object takes the slot of the one before. -/
theorem Slots.exchange (h : Slots threads place) (hplace : place tag = q) (hq : q.awaits = false)
    (hp : p.awaits) (hne : outer ≠ tag) {q' p' : Place T} (houter : place outer = q') (hq' : q'.awaits)
    (hp' : p'.awaits = false) :
    Slots threads (Function.update (Function.update place tag p) outer p') := by
  obtain ⟨slot, hslot⟩ := h
  have hswap : Set.BijOn (Equiv.swap outer tag) {a | (place a).awaits}
      {a | (Function.update (Function.update place tag p) outer p' a).awaits} := by
    apply Equiv.bijOn
    intro a
    by_cases ha : a = outer
    · subst a
      simp [hne.symm, hp, houter, hq']
    · by_cases htag : a = tag
      · subst a
        simp [hp', hplace, hq]
      · simp [Equiv.swap_apply_of_ne_of_ne ha htag, ha, htag]
  exact ⟨_, hswap.comp hslot⟩

theorem start_inv : Inv [] (start : Service T) fun _ => .unborn where
  alive := rfl
  status _ := rfl
  unborn _ := by simp [start]
  queued := ⟨⟨List.nodup_nil, by simp [start, waiting]⟩, by simp [start]⟩
  registered := ⟨List.nodup_nil, by simp [start]⟩
  finishing := ⟨List.nodup_nil, by simp [start]⟩
  events := ⟨List.nodup_nil, by simp [start, Place.event]⟩
  held := ⟨fun _ => trivial, nofun⟩
  history _ := rfl

theorem start_slots : Slots (start : Service T).threads fun _ => .unborn := by
  have hbegun : {t : T | begun ((start : Service T).threads t)} = ∅ := by simp [start, begun]
  have hawaits : {a : Tag | (Place.unborn : Place T).awaits} = ∅ := by simp [Place.awaits]
  refine ⟨fun _ => 0, ?_⟩
  rw [hbegun, hawaits]
  exact Set.bijOn_empty _

variable [DecidableEq T]

theorem Slots.goto (h : Slots threads place) (hsame : begun pc = begun (threads t)) :
    Slots (Function.update threads t pc) place := by
  have hbegun : {t' | begun (Function.update threads t pc t')} = {t' | begun (threads t')} := by
    ext t'
    by_cases ht : t' = t
    · subst t'
      simp [hsame]
    · simp [ht]
  rw [Slots, hbegun]
  exact h

theorem Slots.first (h : Slots threads place) (hbefore : begun (threads t) = false) (hafter : begun pc)
    (hplace : place tag = q) (hq : q.awaits = false) (hp : p.awaits) :
    Slots (Function.update threads t pc) (Function.update place tag p) := by
  obtain ⟨slot, hslot⟩ := h
  have hthreads : {t' | begun (Function.update threads t pc t')} = insert t {t' | begun (threads t')} := by
    ext t'
    by_cases ht : t' = t
    · subst t'
      simp [hafter]
    · simp [ht]
  have hplaces : {a | (Function.update place tag p a).awaits} = insert tag {a | (place a).awaits} := by
    ext a
    by_cases ha : a = tag
    · subst a
      simp [hp]
    · simp [ha]
  have hself : Function.update slot t tag t = tag := Function.update_self ..
  refine ⟨Function.update slot t tag, ?_⟩
  rw [hthreads, hplaces, ← hself, Function.update_self]
  have hkeep : Set.EqOn slot (Function.update slot t tag) {t' | begun (threads t')} := by
    intro t' ht'
    have hne : t' ≠ t := by
      rintro rfl
      exact absurd ht' (by simp [hbefore])
    rw [Function.update_of_ne hne]
  have hinsert := (hslot.congr hkeep).insert (a := t) (by simp [hplace, hq])
  rwa [hself] at hinsert

theorem proceed_inv (hi : Inv es s place) (hslots : Slots s.threads place) {caller : Caller}
    (hpc : s.threads t = .proceed tag caller) (hstep : proceed s t tag caller = some s') :
    ∃ place', Inv (es ++ []) s' place' ∧ Slots s'.threads place' := by
  have hstatus := hi.status tag
  cases caller with
  | start =>
      have hplace : place tag = .building t := by simpa [hpc, ThreadOk] using hi.held.ok t
      rw [hplace] at hstatus
      simp only [proceed, hstatus, Place.status] at hstep
      split at hstep
      · cases hstep
      next hpassing =>
        cases hstep
        obtain ⟨-, hinv⟩ := firstCreate_inv hi hpc (Option.not_isSome_iff_eq_none.mp hpassing)
        exact ⟨_, hinv, hslots.first (by rw [hpc]; rfl) rfl hplace rfl rfl⟩
  | proceed outer =>
      have hplace : place tag = .building t ∧ place outer = .spawning t := by
        simpa [hpc, ThreadOk] using hi.held.ok t
      rw [hplace.1] at hstatus
      simp only [proceed, hstatus, Place.status] at hstep
      split at hstep
      · cases hstep
      next hpassing =>
        cases hstep
        obtain ⟨hplace, houter, hinv⟩ := nextCreate_inv hi hpc (Option.not_isSome_iff_eq_none.mp hpassing)
        have hne : outer ≠ tag := by
          rintro rfl
          rw [hplace] at houter
          cases houter
        exact ⟨_, hinv, (hslots.goto (by rw [hpc]; rfl)).exchange hplace rfl rfl hne houter rfl rfl⟩
  | loop =>
      have hok := hi.held.ok t
      rw [hpc] at hok
      rcases hok with hplace | hplace
      · obtain ⟨hnew, hinv⟩ := spawn_inv hi hpc hplace
        rw [hplace] at hstatus
        simp only [proceed, hstatus, Place.status] at hstep
        cases hstep
        have hne : s.objects.length ≠ tag := by
          intro heq
          rw [heq, hplace] at hnew
          cases hnew
        have hnew' : Function.update place tag (.spawning t) s.objects.length = .unborn := by
          rw [Function.update_of_ne hne, hnew]
        exact ⟨_, hinv, ((hslots.goto (by rw [hpc]; rfl)).keep (p := .spawning t) hplace rfl).keep hnew' rfl⟩
      · have hinv := delete_inv hi hpc hplace
        rw [hplace] at hstatus
        simp only [proceed, hstatus, Place.status] at hstep
        cases hstep
        exact ⟨_, hinv, (hslots.goto (by rw [hpc]; rfl)).keep hplace rfl⟩

theorem threadStep_inv (hi : Inv es s place) (hslots : Slots s.threads place) {event : Tag × Bool}
    (hstep : threadStep s t event = some s') :
    ∃ place', Inv (es ++ observe s (.thread t event)) s' place' ∧ Slots s'.threads place' := by
  cases hpc : s.threads t with
  | off =>
      simp only [threadStep, hpc] at hstep
      cases hstep
      have hplace : place s.objects.length = .unborn := (hi.unborn _).mp (Nat.le_refl _)
      simp only [observe, hpc]
      exact ⟨_, begin_inv hi hpc, (hslots.goto (by rw [hpc]; rfl)).keep hplace rfl⟩
  | next =>
      simp only [threadStep, hpc] at hstep
      split at hstep
      next hevent =>
        cases hstep
        obtain ⟨tag, ok⟩ := event
        simp only [observe, hpc]
        cases ok with
        | true =>
            obtain ⟨p, hawaits, -, hinv⟩ := takeEvent_inv hi hpc hevent
            exact ⟨_, hinv, (hslots.goto (by rw [hpc]; rfl)).keep rfl hawaits⟩
        | false =>
            obtain ⟨hplace, hinv⟩ := skipEvent_inv hi hpc hevent
            exact ⟨_, hinv, (hslots.goto (by rw [hpc]; rfl)).keep hplace rfl⟩
      · cases hstep
  | proceed tag caller =>
      simp only [threadStep, hpc] at hstep
      simp only [observe, hpc]
      exact proceed_inv hi hslots hpc hstep
  | processCallback tag =>
      obtain ⟨hplace, hinv⟩ := processCallback_inv hi hpc
      have hstatus := hi.status tag
      rw [hplace] at hstatus
      simp only [threadStep, hpc, hstatus, Place.status, reduceCtorEq, if_false] at hstep
      cases hstep
      simp only [observe, hpc]
      exact ⟨_, hinv, (hslots.goto (by rw [hpc]; rfl)).keep hplace rfl⟩
  | reply tag =>
      obtain ⟨hplace, hinv⟩ := reply_inv hi hpc
      have hstatus := hi.status tag
      rw [hplace] at hstatus
      simp only [threadStep, hpc, hstatus, Place.status, reduceCtorEq, if_false] at hstep
      cases hstep
      simp only [observe, hpc]
      exact ⟨_, hinv, (hslots.goto (by rw [hpc]; rfl)).keep hplace rfl⟩

theorem step_inv {a : Act T} (hi : Inv es s place) (hslots : Slots s.threads place)
    (hstep : step s a = some s') : ∃ place', Inv (es ++ observe s a) s' place' ∧ Slots s'.threads place' := by
  cases a with
  | thread t event =>
      simp only [step, hi.alive, Bool.false_eq_true, if_false] at hstep
      exact threadStep_inv hi hslots hstep
  | lockQueue =>
      simp only [step] at hstep
      split at hstep <;> cases hstep
      next hpassing =>
        have hqueue := hi.queued.lock (Option.not_isSome_iff_eq_none.mp hpassing)
        refine ⟨place, ⟨hi.alive, hi.status, hi.unborn, hqueue, hi.registered, hi.finishing, hi.events,
          hi.held, ?_⟩, hslots⟩
        simpa [observe] using hi.history
  | register =>
      simp only [step] at hstep
      split at hstep
      next i hpassing =>
        split at hstep <;> cases hstep
        next request hrequest =>
          obtain ⟨hplace, hinv⟩ := hi.register hpassing hrequest
          exact ⟨_, hinv, hslots.keep hplace rfl⟩
      · cases hstep
  | eraseFinished =>
      simp only [step] at hstep
      split at hstep
      next i hpassing =>
        split at hstep <;> cases hstep
        next hend =>
          have hqueue := hi.queued
          rw [hpassing] at hqueue
          refine ⟨place, ⟨hi.alive, hi.status, hi.unborn, hqueue.erase (Nat.le_of_not_lt hend), hi.registered,
            hi.finishing, hi.events, hi.held, ?_⟩, hslots⟩
          simpa [observe] using hi.history
      · cases hstep
  | deliver tag =>
      simp only [step] at hstep
      split at hstep <;> cases hstep
      next htag => exact ⟨_, hi.deliver htag, hslots.keep ((hi.registered.2 _).mp htag) rfl⟩
  | complete tag ok =>
      simp only [step] at hstep
      split at hstep <;> cases hstep
      next htag => exact ⟨_, hi.complete htag ok, hslots.keep ((hi.finishing.2 _).mp htag) rfl⟩

end GraduateOS.Dfs.CallbackRuns
