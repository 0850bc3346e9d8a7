import GraduateOS.Dfs.Events

namespace GraduateOS.Dfs.StoredFiles

open Directory Messages ServerNode ClientNode Transfers SyncRound Mounts Events Library.Runs

variable {C : Type} [DecidableEq C]

def SafeToStore (s : State C) (c : C) (f : String) : Prop :=
  ((s.clients c).mount.dir.content f ≠ some [] ∨ s.server.dir.lookup f ≠ none) ∧
    ∀ c', ¬ PendingDelete f (s.clients c').mount

def Undeleted (f : String) (s : State C) (a : C × Int × Act) : Prop :=
  a.2.2 ≠ .userDelete f ∧ ¬ (watched f ∧ Unlinks (s.clients a.1) f a.2.2)

instance (f : String) (s : State C) (a : C × Int × Act) : Decidable (Undeleted f s a) :=
  inferInstanceAs (Decidable (_ ∧ _))

structure Kept (f : String) (s : State C) : Prop where
  unlocked : Unlocked s.server
  present : s.server.dir.lookup f ≠ none
  quiet : ∀ c, ¬ PendingDelete f (s.clients c).mount

variable {s s' : Server} {m m' : Mount} {f g clientId : String} {now : Int} {client client' : Client}
  {a : Act}

theorem sends_present (hs : Unlocked s) (h : Sends m f s) :
    (store clientId m f s now).1.dir.lookup f ≠ none := by
  have hcontent := (store_sends clientId now hs h).2.1
  obtain ⟨bytes, hm, _, _⟩ := h
  intro hnone
  rw [content_eq_none.mpr hnone, hm] at hcontent
  cases hcontent

theorem store_present (hs : Unlocked s) (h : s.dir.lookup f ≠ none) :
    (store clientId m g s now).1.dir.lookup f ≠ none := by
  by_cases hsends : Sends m g s
  · by_cases hf : f = g
    · subst g
      exact sends_present hs hsends
    · rw [store_frame hf]
      exact h
  · rw [(store_keeps _ _ hs hsends).1]
    exact h

theorem store_ok_present (hs : Unlocked s) (hok : (store clientId m f s now).2 = .ok)
    (hsafe : m.dir.content f ≠ some [] ∨ s.dir.lookup f ≠ none) :
    (store clientId m f s now).1.dir.lookup f ≠ none := by
  by_cases hsends : Sends m f s
  · exact sends_present hs hsends
  · obtain ⟨hdir, _, hempty⟩ := store_keeps clientId now hs hsends
    rw [hdir]
    exact hsafe.resolve_left (not_not.mpr (hempty hok))

theorem inotifyEventCallback_present (hs : Unlocked s) (hfile : s.dir.lookup f ≠ none) {e : Event}
    (he : ¬ (watched f ∧ e = ⟨f, .delete⟩)) :
    (inotifyEventCallback clientId now s m e).1.dir.lookup f ≠ none := by
  by_cases hwatched : watched e.name
  · by_cases hmask : e.mask = .delete
    · rw [callback_deletes hwatched hmask, delete_frame hs (deleted_ne he hwatched hmask)]
      exact hfile
    · rw [callback_stores hwatched hmask]
      exact store_present hs hfile
  · rw [callback_ignores hwatched]
    exact hfile

theorem effect_present (hs : Unlocked s) (hfile : s.dir.lookup f ≠ none)
    (hquiet : ¬ PendingDelete f client.mount) (h : Effect s client now a s' m') :
    s'.dir.lookup f ≠ none := by
  cases h with
  | watch hmux hevents => exact inotifyEventCallback_present hs hfile (head_quiet hevents hquiet)
  | @call _ _ g call hphase =>
      cases call with
      | fetch => exact hfile
      | store => exact store_present hs hfile
      | nothing => exact hfile
  | quiet => exact hfile
  | edit => exact hfile
  | userDelete => exact hfile
  | unlink => exact hfile

/-- Once it is on the server and no deletion is pending, `f` stays there. -/
theorem step_keeps {t t' : State C} {a : C × Int × Act} (h : Kept f t) (ha : Undeleted f t a)
    (hstep : step t a = some t') : Kept f t' := by
  obtain ⟨c, now, a⟩ := a
  obtain ⟨_, _, hclient, hothers⟩ := step_some hstep
  have heffect := (clientStep_effect hclient).2
  refine ⟨effect_unlocked h.unlocked heffect,
    effect_present h.unlocked h.present (h.quiet c) heffect, ?_⟩
  intro c'
  by_cases hc : c' = c
  · subst c'
    exact effect_quiet (h.quiet c) ha.1 ha.2 heffect
  · rw [hothers c' hc]
    exact h.quiet c'

/-- A store that returned OK leaves the file on the server and raises no deletion. -/
theorem effect_stored (hs : Unlocked s) (hcall : storeCall s client now a = some (f, .ok))
    (hsafe : client.mount.dir.content f ≠ some [] ∨ s.dir.lookup f ≠ none)
    (hquiet : ¬ PendingDelete f client.mount) (h : Effect s client now a s' m') :
    s'.dir.lookup f ≠ none ∧ ¬ PendingDelete f m' := by
  cases h with
  | @watch e rest hmux hevents =>
      simp only [storeCall, hmux, hevents] at hcall
      split at hcall
      next hstored =>
        obtain ⟨hname, hok⟩ := Prod.mk.inj (Option.some.inj hcall)
        rw [callback_stores hstored.1 hstored.2]
        rw [hname] at hok ⊢
        exact ⟨store_ok_present hs hok hsafe, tail_quiet hevents hquiet⟩
      · cases hcall
  | @call reply rest g call hphase =>
      simp only [storeCall, hphase] at hcall
      cases call with
      | store =>
          simp only [Option.some.injEq, Prod.mk.injEq] at hcall
          obtain ⟨rfl, hok⟩ := hcall
          exact ⟨store_ok_present hs hok hsafe, hquiet⟩
      | fetch => simp at hcall
      | nothing => simp at hcall
  | quiet hwatch hcall' => cases a <;> simp_all [storeCall]
  | edit => cases hcall
  | userDelete => cases hcall
  | unlink => cases hcall

/-- A file whose `Store` returned OK stays on the server, whatever the clients
do afterwards, until a user or a stale listing deletes it from a mount. -/
theorem stored_file_stays (d : Dir) (clientId : C → String) (mounts : C → Dir)
    (acts : List (C × Int × Act)) (s : State C)
    (hrun : Run step anyStep (start d clientId mounts) acts s) (c : C) (now : Int) (a : Act)
    (f : String) (hcall : storeCall s.server (s.clients c) now a = some (f, .ok))
    (hsafe : SafeToStore s c f) (s' : State C) (hstep : step s (c, now, a) = some s')
    (acts' : List (C × Int × Act)) (s'' : State C)
    (hrun' : Run step (fun _ => Undeleted f) s' acts' s'') : s''.server.dir.lookup f ≠ none := by
  have hs := reachable_unlocked hrun
  obtain ⟨_, _, hclient, hothers⟩ := step_some hstep
  have heffect := (clientStep_effect hclient).2
  obtain ⟨hpresent, hquiet⟩ := effect_stored hs hcall hsafe.1 (hsafe.2 c) heffect
  have hkept : Kept f s' := by
    refine ⟨effect_unlocked hs heffect, hpresent, ?_⟩
    intro c'
    by_cases hc : c' = c
    · subst c'
      exact hquiet
    · rw [hothers c' hc]
      exact hsafe.2 c'
  exact (hrun'.stateInvariant hkept (fun _ _ _ _ h ha hstep => step_keeps h ha hstep)).present

def mounted : State Unit := start empty (fun _ => "A") (fun _ => empty)

/-- The listing is taken before the file is there. -/
def written : List (Unit × Int × Act) := [((), 1, .snapshot), ((), 2, .edit "f.txt" [1])]

theorem written_stores : ∃ s s' s'', exec step anyStep mounted written = some s ∧
    storeCall s.server (s.clients ()) 3 .watch = some ("f.txt", .ok) ∧ SafeToStore s () "f.txt" ∧
    step s ((), 3, .watch) = some s' ∧
    exec step (fun _ => Undeleted "f.txt") s' [((), 4, .watch)] = some s'' :=
  ⟨_, _, _, rfl, by decide +kernel,
    ⟨.inl (by decide +kernel), fun () h => absurd h.2 (by decide +kernel)⟩, rfl, rfl⟩

theorem written_stays : ∃ s s' s'', exec step anyStep mounted written = some s ∧
    step s ((), 3, .watch) = some s' ∧
    exec step (fun _ => Undeleted "f.txt") s' [((), 4, .watch)] = some s'' ∧
    s''.server.dir.lookup "f.txt" ≠ none := by
  obtain ⟨s, s', s'', hs, hcall, hsafe, hs', hs''⟩ := written_stores
  refine ⟨s, s', s'', hs, hs', hs'', ?_⟩
  exact stored_file_stays empty _ _ written s (run_iff_exec.mpr hs) () 3 .watch "f.txt" hcall hsafe s'
    hs' _ s'' (run_iff_exec.mpr hs'')

/-- The old listing makes the sync remove the file, and the watcher takes the
removal for a deletion. -/
def synced : List (Unit × Int × Act) :=
  [((), 4, .receive), ((), 5, .opendir), ((), 6, .unlink "f.txt"), ((), 7, .finish),
    ((), 8, .watch), ((), 9, .watch)]

theorem synced_removes : ∃ s s' s'', exec step anyStep mounted written = some s ∧
    storeCall s.server (s.clients ()) 3 .watch = some ("f.txt", .ok) ∧
    step s ((), 3, .watch) = some s' ∧
    exec step (fun _ _ a => a.2.2 ≠ .userDelete "f.txt") s' synced = some s'' ∧
    s''.server.dir.lookup "f.txt" = none :=
  ⟨_, _, _, rfl, by decide +kernel, rfl, rfl, by decide +kernel⟩

theorem stale_listing_loses_file : ¬ ∀ (C : Type) [DecidableEq C] (d : Dir) (clientId : C → String)
    (mounts : C → Dir) (acts : List (C × Int × Act)) (s : State C),
    Run step anyStep (start d clientId mounts) acts s → ∀ (c : C) (now : Int) (a : Act) (f : String),
    storeCall s.server (s.clients c) now a = some (f, .ok) → ∀ s' : State C,
    step s (c, now, a) = some s' → ∀ (acts' : List (C × Int × Act)) (s'' : State C),
    Run step (fun _ _ a => a.2.2 ≠ .userDelete f) s' acts' s'' → s''.server.dir.lookup f ≠ none := by
  intro h
  obtain ⟨s, s', s'', hs, hcall, hs', hs'', hlost⟩ := synced_removes
  exact h Unit empty _ _ written s (run_iff_exec.mpr hs) () 3 .watch "f.txt" hcall s' hs' synced s''
    (run_iff_exec.mpr hs'') hlost

end GraduateOS.Dfs.StoredFiles
