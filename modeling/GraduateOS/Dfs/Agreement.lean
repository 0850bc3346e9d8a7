import GraduateOS.Dfs.Events

namespace GraduateOS.Dfs.Agreement

open Directory Messages ServerNode ClientNode Transfers SyncRound Mounts Events Library.Runs

def pendingReply : Phase → Option CallbackListOutput
  | .waiting _ => none
  | .replied reply => some reply
  | .syncing reply _ => some reply
  | .calling reply _ _ _ => some reply
  | .removing reply _ => some reply

def byUser : Act → Bool
  | .edit _ _ | .userDelete _ => true
  | _ => false

variable {C : Type} [DecidableEq C]

/-- Runs in which nobody touches a mount but the clients themselves. -/
def Unattended (_ : List (C × Int × Act)) (_ : State C) (a : C × Int × Act) : Prop := byUser a.2.2 = false

instance (history : List (C × Int × Act)) (s : State C) (a : C × Int × Act) :
    Decidable (Unattended history s a) :=
  inferInstanceAs (Decidable (_ = _))

def Complete (reply : CallbackListOutput) (s : Server) : Prop :=
  ∀ f, reply.crc.lookup f = none → s.dir.lookup f = none

/-- A mount has the files of the server, and what its client still has to do deletes none of them. -/
structure InStep (s : Server) (client : Client) : Prop where
  files : SameFiles client.mount.dir s.dir
  deletes : ∀ f, PendingDelete f client.mount → s.dir.lookup f = none
  reply : ∀ reply, pendingReply client.phase = some reply → Complete reply s

structure Agreed (s : State C) : Prop where
  unlocked : Unlocked s.server
  clients : ∀ c, InStep s.server (s.clients c)

variable {s s' : Server} {m m' : Mount} {client client' : Client} {f clientId : String} {now : Int} {a : Act}

theorem same_lookup {d e : Dir} (h : SameFiles d e) (hnone : e.lookup f = none) : d.lookup f = none := by
  rw [← content_eq_none] at hnone ⊢
  rw [h f, hnone]

theorem same_not_sends (h : SameFiles m.dir s.dir) (f : String) : ¬ Sends m f s := by
  rintro ⟨bytes, hmine, _, hcrc⟩
  rw [← h f, hmine] at hcrc
  exact hcrc rfl

theorem same_not_receives (h : SameFiles m.dir s.dir) (f : String) : ¬ Receives m f s := by
  rintro ⟨bytes, htheirs, _, hcrc⟩
  rw [h f, htheirs] at hcrc
  exact hcrc rfl

theorem remove_absent {d : Dir} (h : d.lookup f = none) : d.remove f = d := by
  obtain ⟨files, unnamed⟩ := d
  have hfiles : files.erase f = files := by
    apply AList.ext
    exact List.kerase_of_notMem_keys (AList.lookup_eq_none.mp h)
  simp only [Dir.remove, hfiles]

theorem mount_remove_absent (h : m.dir.lookup f = none) : m.remove f = m := by
  simp [Mount.remove, remove_absent h, h]

theorem perform_keeps (clientId : String) (now : Int) (f : String) (hs : Unlocked s)
    (h : SameFiles m.dir s.dir) (call : SyncCall) :
    (perform clientId now s m f call).1.dir = s.dir ∧ (perform clientId now s m f call).2 = m := by
  cases call with
  | fetch => exact ⟨rfl, fetch_keeps now (same_not_receives h f)⟩
  | store => exact ⟨(store_keeps clientId now hs (same_not_sends h f)).1, rfl⟩
  | nothing => exact ⟨rfl, rfl⟩

theorem callback_keeps (clientId : String) (now : Int) {e : Event} (hs : Unlocked s)
    (h : SameFiles m.dir s.dir)
    (hdelete : watched e.name → e.mask = .delete → s.dir.lookup e.name = none) :
    (inotifyEventCallback clientId now s m e).1.dir = s.dir ∧
      (inotifyEventCallback clientId now s m e).2 = m := by
  by_cases hwatched : watched e.name
  · by_cases hmask : e.mask = .delete
    · rw [callback_deletes hwatched hmask, delete_absent (hdelete hwatched hmask)]
      exact ⟨rfl, rfl⟩
    · rw [callback_stores hwatched hmask]
      exact ⟨(store_keeps clientId now hs (same_not_sends h e.name)).1, rfl⟩
  · rw [callback_ignores hwatched]
    exact ⟨rfl, rfl⟩

theorem removeStale_keeps {reply : CallbackListOutput} (h : SameFiles m.dir s.dir)
    (hreply : Complete reply s) : removeStale reply m f = m := by
  unfold removeStale
  split
  next hunlisted => exact mount_remove_absent (same_lookup h (hreply f hunlisted))
  · rfl

/-- An event that the watcher takes is the only thing that changes. -/
theorem effect_keeps (hs : Unlocked s) (h : InStep s client) (ha : byUser a = false)
    (heffect : Effect s client now a s' m') :
    s'.dir = s.dir ∧ m'.dir = client.mount.dir ∧
      ((if a = .watch then 1 else 0) + m'.events.length = client.mount.events.length) ∧
      ∀ e ∈ m'.events, e ∈ client.mount.events := by
  cases heffect with
  | quiet hwatch _ => simp [hwatch]
  | edit => cases ha
  | userDelete => cases ha
  | @watch e rest hmux hevents =>
      have hdelete (hwatched : watched e.name) (hmask : e.mask = .delete) : s.dir.lookup e.name = none := by
        refine h.deletes e.name ⟨hwatched, ?_⟩
        rw [hevents, ← hmask]
        exact List.mem_cons_self
      obtain ⟨hserver, hmount⟩ :=
        callback_keeps (m := ⟨client.mount.dir, rest⟩) client.clientId now hs h.files hdelete
      rw [hserver, hmount, hevents]
      refine ⟨rfl, rfl, ?_, fun e' he => List.mem_cons_of_mem e he⟩
      simp only [if_true, List.length_cons]
      omega
  | @call reply rest f call hphase =>
      obtain ⟨hserver, hmount⟩ :=
        perform_keeps client.clientId now f hs h.files call
      rw [hserver, hmount]
      simp
  | @unlink reply rest f hphase =>
      have hreply : Complete reply s := h.reply reply (by rw [hphase]; rfl)
      rw [removeStale_keeps h.files hreply]
      simp

/-- A new reply lists what the server has then. -/
theorem clientStep_reply (h : clientStep s client now a = some (s', client')) :
    pendingReply client'.phase = none ∨ pendingReply client'.phase = pendingReply client.phase ∨
      pendingReply client'.phase = some s.processCallback := by
  cases a <;> simp only [clientStep] at h
  case edit | userDelete => cases h; exact .inr (.inl rfl)
  case watch => split at h <;> cases h; exact .inr (.inl rfl)
  case snapshot => split at h <;> cases h; exact .inr (.inr rfl)
  case receive =>
    split at h <;> cases h
    next hphase => exact .inr (.inl (by rw [hphase]; rfl))
  case decide =>
    split at h
    next hphase =>
      split at h <;> cases h
      exact .inr (.inl (by rw [hphase]; rfl))
    · cases h
  case call =>
    split at h <;> cases h
    next hphase => exact .inr (.inl (by rw [hphase]; rfl))
  case opendir =>
    split at h <;> cases h
    next hphase => exact .inr (.inl (by rw [hphase]; rfl))
  case unlink =>
    split at h
    next hphase =>
      split at h <;> cases h
      exact .inr (.inl (by rw [hphase]; rfl))
    · cases h
  case finish =>
    split at h <;> cases h
    exact .inl rfl

theorem processCallback_complete (s : Server) : Complete s.processCallback s := by
  intro f hf
  rwa [processCallback_crc, Option.map_eq_none_iff] at hf

theorem complete_congr {reply : CallbackListOutput} (hdir : s'.dir = s.dir) (h : Complete reply s) :
    Complete reply s' := by
  rw [Complete, hdir]
  exact h

theorem inStep_congr (hdir : s'.dir = s.dir) (h : InStep s client) : InStep s' client where
  files := hdir ▸ h.files
  deletes f hf := hdir ▸ h.deletes f hf
  reply reply hreply := complete_congr hdir (h.reply reply hreply)

theorem clientStep_keeps (hs : Unlocked s) (h : InStep s client) (ha : byUser a = false)
    (hstep : clientStep s client now a = some (s', client')) :
    s'.dir = s.dir ∧ client'.mount.dir = client.mount.dir ∧
      ((if a = .watch then 1 else 0) + client'.mount.events.length = client.mount.events.length) ∧
      InStep s' client' := by
  obtain ⟨hserver, hmount, hlength, hmem⟩ := effect_keeps hs h ha (clientStep_effect hstep).2
  refine ⟨hserver, hmount, hlength, ?_, ?_, ?_⟩
  · rw [hmount, hserver]
    exact h.files
  · intro f hf
    rw [hserver]
    exact h.deletes f ⟨hf.1, hmem _ hf.2⟩
  · intro reply hreply
    refine complete_congr hserver ?_
    rcases clientStep_reply hstep with hnone | hsame | hnew
    · rw [hnone] at hreply
      cases hreply
    · exact h.reply reply (hsame ▸ hreply)
    · rw [hnew, Option.some_inj] at hreply
      exact hreply ▸ processCallback_complete s

def atWatch (c : C) (a : C × Int × Act) : Bool := a.1 = c ∧ a.2.2 = .watch

structure Unchanged (s₀ : State C) (acts : List (C × Int × Act)) (s : State C) : Prop where
  server : s.server.dir = s₀.server.dir
  mounts : ∀ c, (s.clients c).mount.dir = (s₀.clients c).mount.dir
  events : ∀ c, acts.countP (atWatch c) + (s.clients c).mount.events.length =
    (s₀.clients c).mount.events.length

theorem step_unchanged {s₀ s s' : State C} {acts : List (C × Int × Act)} {a : C × Int × Act}
    (hagreed : Agreed s) (h : Unchanged s₀ acts s) (ha : byUser a.2.2 = false) (hstep : step s a = some s') :
    Agreed s' ∧ Unchanged s₀ (acts ++ [a]) s' := by
  obtain ⟨c, now, act⟩ := a
  obtain ⟨_, _, hclient, hothers⟩ := step_some hstep
  obtain ⟨hserver, hmount, hlength, hinStep⟩ := clientStep_keeps hagreed.unlocked (hagreed.clients c) ha hclient
  refine ⟨⟨step_unlocked hagreed.unlocked hstep, ?_⟩, ⟨hserver.trans h.server, ?_, ?_⟩⟩
  · intro c'
    by_cases hc : c' = c
    · exact hc ▸ hinStep
    · rw [hothers c' hc]
      exact inStep_congr hserver (hagreed.clients c')
  · intro c'
    by_cases hc : c' = c
    · subst c'
      rw [hmount, h.mounts]
    · rw [hothers c' hc, h.mounts]
  · intro c'
    have hbefore := h.events c'
    rw [List.countP_append, List.countP_singleton]
    by_cases hc : c' = c
    · subst c'
      by_cases hwatch : act = .watch
      · simp only [hwatch, if_true] at hlength
        simp only [atWatch, hwatch, and_self, decide_true, if_true]
        omega
      · simp only [hwatch, if_false] at hlength
        simp only [atWatch, hwatch, and_false, decide_false, Bool.false_eq_true, if_false]
        omega
    · have hno : atWatch c' (c, now, act) = false := by simp [atWatch, Ne.symm hc]
      rw [hothers c' hc, hno]
      simpa using hbefore

omit [DecidableEq C] in
theorem start_agreed (d : Dir) (clientId : C → String) : Agreed (start d clientId fun _ => d) where
  unlocked _ := rfl
  clients _ :=
    { files := fun _ => rfl
      deletes := fun _ hf => absurd hf.2 List.not_mem_nil
      reply := fun _ hreply => by cases hreply }

def oneRound : List (Bool × Int × Act) :=
  [(true, 1, .snapshot), (true, 2, .receive), (true, 3, .decide "f.txt" none), (true, 4, .call),
    (true, 5, .opendir), (true, 6, .unlink "f.txt"), (true, 7, .finish)]

end GraduateOS.Dfs.Agreement
