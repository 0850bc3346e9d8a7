import GraduateOS.Dfs.Mounts

namespace GraduateOS.Dfs.Events

open Directory ServerNode ClientNode Transfers SyncRound Mounts

def PendingDelete (f : String) (m : Mount) : Prop := watched f ∧ ⟨f, .delete⟩ ∈ m.events

def unlisted (phase : Phase) (f : String) : Bool :=
  match phase with
  | .removing reply _ => reply.crc.lookup f = none
  | _ => false

/-- The second loop of `HandleCallbackList` takes `f` away from the mount,
because the reply does not list it. -/
def Unlinks (client : Client) (f : String) (a : Act) : Prop :=
  a = .unlink f ∧ client.mount.dir.lookup f ≠ none ∧ unlisted client.phase f

instance (f : String) (m : Mount) : Decidable (PendingDelete f m) :=
  inferInstanceAs (Decidable (_ ∧ _))

instance (client : Client) (f : String) (a : Act) : Decidable (Unlinks client f a) :=
  inferInstanceAs (Decidable (_ ∧ _ ∧ _))

def Extends (f : String) (m m' : Mount) : Prop :=
  m'.dir.lookup f = m.dir.lookup f ∧ ∀ e ∈ m.events, e ∈ m'.events

variable {s s' : Server} {m m' : Mount} {f g clientId : String} {now : Int} {client : Client}
  {a : Act}

theorem writes_quiet (h : Writes m m' g) (hquiet : ¬ PendingDelete f m) : ¬ PendingDelete f m' := by
  rintro ⟨hwatched, hmem⟩
  obtain ⟨events, he, hevents⟩ := h
  rw [he] at hmem
  rcases List.mem_append.mp hmem with hmem | hmem
  · exact hquiet ⟨hwatched, hmem⟩
  · exact (hevents _ hmem).2 rfl

theorem remove_quiet (h : g ≠ f ∨ m.dir.lookup g = none) (hquiet : ¬ PendingDelete f m) :
    ¬ PendingDelete f (m.remove g) := by
  rintro ⟨hwatched, hmem⟩
  rcases List.mem_append.mp hmem with hmem | hmem
  · exact hquiet ⟨hwatched, hmem⟩
  · split at hmem
    · cases hmem
    next hg =>
      rcases h with h | h
      · exact h (congrArg Event.name (List.mem_singleton.mp hmem)).symm
      · exact hg h

theorem head_quiet {e : Event} {rest : List Event} (hevents : m.events = e :: rest)
    (hquiet : ¬ PendingDelete f m) : ¬ (watched f ∧ e = ⟨f, .delete⟩) := by
  rintro ⟨hwatched, rfl⟩
  exact hquiet ⟨hwatched, by rw [hevents]; exact List.mem_cons_self⟩

theorem tail_quiet {d : Dir} {e : Event} {rest : List Event} (hevents : m.events = e :: rest)
    (hquiet : ¬ PendingDelete f m) : ¬ PendingDelete f ⟨d, rest⟩ := by
  rintro ⟨hwatched, hmem⟩
  exact hquiet ⟨hwatched, by rw [hevents]; exact List.mem_cons_of_mem e hmem⟩

theorem delete_mount (clientId : String) (m : Mount) (g : String) (s : Server) :
    (delete clientId m g s).1.2 = m ∨ (delete clientId m g s).1.2 = m.remove g := by
  unfold delete
  generalize s.deleteFile ⟨g, clientId⟩ false = answer
  obtain ⟨server, code⟩ := answer
  cases code <;> simp

theorem delete_frame (hs : Unlocked s) (hg : f ≠ g) :
    (delete clientId m g s).1.1.dir.lookup f = s.dir.lookup f := by
  by_cases hserver : s.dir.lookup g = none
  · rw [delete_absent hserver]
  · obtain ⟨s', hdelete, hdir, _⟩ := delete_removes clientId (m := m) hs hserver
    rw [hdelete, hdir]
    exact lookup_remove_ne s.dir hg

theorem deleted_ne {e : Event} (he : ¬ (watched f ∧ e = ⟨f, .delete⟩)) (hwatched : watched e.name)
    (hmask : e.mask = .delete) : f ≠ e.name := by
  obtain ⟨g, mask⟩ := e
  cases hmask
  rintro rfl
  exact he ⟨hwatched, rfl⟩

theorem inotifyEventCallback_quiet (hquiet : ¬ PendingDelete f m) {e : Event}
    (he : ¬ (watched f ∧ e = ⟨f, .delete⟩)) :
    ¬ PendingDelete f (inotifyEventCallback clientId now s m e).2 := by
  by_cases hwatched : watched e.name
  · by_cases hmask : e.mask = .delete
    · rw [callback_deletes hwatched hmask]
      rcases delete_mount clientId m e.name s with h | h
      · rw [h]
        exact hquiet
      · rw [h]
        exact remove_quiet (.inl (deleted_ne he hwatched hmask).symm) hquiet
    · rw [callback_stores hwatched hmask]
      exact hquiet
  · rw [callback_ignores hwatched]
    exact hquiet

/-- Only a user or a sync that unlinks the file can raise its deletion. -/
theorem effect_quiet (hquiet : ¬ PendingDelete f client.mount) (huser : a ≠ .userDelete f)
    (hsync : ¬ (watched f ∧ Unlinks client f a)) (h : Effect s client now a s' m') :
    ¬ PendingDelete f m' := by
  cases h with
  | quiet => exact hquiet
  | edit => exact writes_quiet (edit_writes _ _ _ _) hquiet
  | userDelete => exact remove_quiet (.inl (by rintro rfl; exact huser rfl)) hquiet
  | watch hmux hevents =>
      exact inotifyEventCallback_quiet (tail_quiet hevents hquiet) (head_quiet hevents hquiet)
  | @call _ _ g call hphase =>
      cases call with
      | fetch => exact writes_quiet (fetch_writes _) hquiet
      | store => exact hquiet
      | nothing => exact hquiet
  | @unlink reply rest g hphase =>
      unfold removeStale
      split
      next hstale =>
        by_cases hg : g = f
        · subst g
          by_cases hlocal : client.mount.dir.lookup f = none
          · exact remove_quiet (.inr hlocal) hquiet
          · rintro ⟨hwatched, _⟩
            exact hsync ⟨hwatched, rfl, hlocal, by simp [unlisted, hphase, hstale]⟩
        · exact remove_quiet (.inl hg) hquiet
      · exact hquiet

theorem Extends.refl (f : String) (m : Mount) : Extends f m m := ⟨rfl, fun _ h => h⟩

theorem edit_extends (hg : f ≠ g) (m : Mount) (bytes : Content) (now : Int) :
    Extends f m (m.edit g bytes now) := by
  constructor
  · rw [Mount.edit, Mount.writeAt, Mount.openOut, lookup_writeAt_ne _ hg, lookup_openOut_ne _ hg]
  · obtain ⟨events, he, _⟩ := edit_writes m g bytes now
    intro e hmem
    rw [he]
    exact List.mem_append_left _ hmem

theorem remove_extends (hg : f ≠ g) (m : Mount) : Extends f m (m.remove g) :=
  ⟨lookup_remove_ne m.dir hg, fun _ hmem => List.mem_append_left _ hmem⟩

theorem fetch_extends (hg : f ≠ g) : Extends f m (fetch m g s now).1 := by
  refine ⟨fetch_frame hg, ?_⟩
  obtain ⟨events, he, _⟩ := fetch_writes now (m := m) (f := g) (s := s)
  intro e hmem
  rw [he]
  exact List.mem_append_left _ hmem

theorem delete_extends (hg : f ≠ g) : Extends f m (delete clientId m g s).1.2 := by
  rcases delete_mount clientId m g s with h | h
  · rw [h]; exact Extends.refl f m
  · rw [h]; exact remove_extends hg m

end GraduateOS.Dfs.Events
