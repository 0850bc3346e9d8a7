import GraduateOS.Dfs.Events

namespace GraduateOS.Dfs.LastEdit

open Directory Messages ServerNode Storing ClientNode Transfers SyncRound Mounts Events Library.Runs

variable {C : Type}

def edits (f : String) (acts : List (C × Int × Act)) : List (Int × Content) :=
  acts.filterMap fun a =>
    match a.2.2 with
    | .edit g bytes => if g = f then some (a.2.1, bytes) else none
    | _ => none

def Latest (f : String) (acts : List (C × Int × Act)) (bytes : Content) : Prop :=
  ∃ t, (t, bytes) ∈ edits f acts ∧ ∀ e ∈ edits f acts, e.1 ≤ t

def Settled (s : State C) : Prop :=
  ∀ c, (s.clients c).mount.events = [] ∧
    ∃ reply, (s.clients c).phase = .waiting (some reply) ∧ Lists reply s.server

/-- A step that calls `Store` or `Fetch` for `f` puts no other bytes in the
place of the latest ones, and a `Store` of the latest ones goes through. -/
def KeepsLatest (f : String) (bytes : Content) (s : Server) (client : Client) (now : Int)
    (a : Act) : Prop :=
  ((storeCall s client now a).map Prod.fst = some f →
    (s.dir.content f = some bytes → Sends client.mount f s → client.mount.dir.content f = some bytes) ∧
    (client.mount.dir.content f = some bytes → Sends client.mount f s ∨ s.dir.content f = some bytes)) ∧
  (fetchCall client a = some f → client.mount.dir.content f = some bytes →
    Receives client.mount f s → s.dir.content f = some bytes)

def Careful (f : String) (history : List (C × Int × Act)) (s : State C) (a : C × Int × Act) :
    Prop :=
  a.2.2 ≠ .userDelete f ∧ ¬ Unlinks (s.clients a.1) f a.2.2 ∧
    ∀ e ∈ edits f history, (∀ e' ∈ edits f history, e'.1 ≤ e.1) →
      KeepsLatest f e.2 s.server (s.clients a.1) a.2.1 a.2.2

instance (f : String) (bytes : Content) (s : Server) (client : Client) (now : Int) (a : Act) :
    Decidable (KeepsLatest f bytes s client now a) :=
  inferInstanceAs (Decidable (_ ∧ _))

instance (f : String) (history : List (C × Int × Act)) (s : State C) (a : C × Int × Act) :
    Decidable (Careful f history s a) :=
  inferInstanceAs (Decidable (_ ∧ _ ∧ _))

def Carries (f : String) (bytes : Content) (m : Mount) : Prop :=
  m.dir.content f = some bytes ∧ ∃ e ∈ m.events, e.name = f ∧ e.mask ≠ .delete

def Safe (f : String) (bytes : Content) (s : State C) : Prop :=
  s.server.dir.content f = some bytes ∨ ∃ c, Carries f bytes (s.clients c).mount

structure Inv (f : String) (acts : List (C × Int × Act)) (s : State C) : Prop where
  unlocked : Unlocked s.server
  quiet : ∀ c, ¬ PendingDelete f (s.clients c).mount
  times : ∀ e ∈ edits f acts, e.1 ≤ s.clock
  safe : ∀ bytes, Latest f acts bytes → Safe f bytes s

variable {s s' : Server} {m m' : Mount} {f g clientId : String} {now : Int} {client : Client}
  {a : Act} {bytes : Content}

theorem Carries.extends (h : Carries f bytes m) (hextends : Extends f m m') : Carries f bytes m' := by
  obtain ⟨hcontent, e, hmem, he⟩ := h
  exact ⟨by rw [content_congr hextends.1]; exact hcontent, e, hextends.2 e hmem, he⟩

theorem Carries.tail {e : Event} {rest : List Event} (h : Carries f bytes m)
    (hevents : m.events = e :: rest) (he : e.name ≠ f) : Carries f bytes ⟨m.dir, rest⟩ := by
  obtain ⟨hcontent, e', hmem, hname, hmask⟩ := h
  rw [hevents] at hmem
  refine ⟨hcontent, e', (List.mem_cons.mp hmem).resolve_left ?_, hname, hmask⟩
  rintro rfl
  exact he hname

theorem store_keepsServer (hs : Unlocked s)
    (hstored : s.dir.content f = some bytes → Sends m f s → m.dir.content f = some bytes)
    (h : s.dir.content f = some bytes) :
    (store clientId m f s now).1.dir.content f = some bytes := by
  by_cases hsends : Sends m f s
  · rw [(store_sends _ _ hs hsends).2.1]
    exact hstored h hsends
  · rw [(store_keeps _ _ hs hsends).1]
    exact h

theorem store_reachesServer (hs : Unlocked s)
    (hsends : m.dir.content f = some bytes → Sends m f s ∨ s.dir.content f = some bytes)
    (h : m.dir.content f = some bytes) :
    (store clientId m f s now).1.dir.content f = some bytes := by
  by_cases hdiff : Sends m f s
  · rw [(store_sends _ _ hs hdiff).2.1]
    exact h
  · rw [(store_keeps _ _ hs hdiff).1]
    exact (hsends h).resolve_left hdiff

theorem watch_storeCall (now : Int) {e : Event} {rest : List Event} (hmux : client.phase.locksMux = false)
    (hevents : client.mount.events = e :: rest) (hwatched : watched e.name) (hmask : e.mask ≠ .delete) :
    storeCall s client now .watch =
      some (e.name, (store client.clientId client.mount e.name s now).2) := by
  simp [storeCall, hmux, hevents, hwatched, hmask]

theorem call_storeCall {reply : CallbackListOutput} {rest : List String}
    (hphase : client.phase = .calling reply rest f .store) :
    storeCall s client now .call = some (f, (store client.clientId client.mount f s now).2) := by
  simp [storeCall, hphase]

theorem effect_keepsServer (hs : Unlocked s) (hquiet : ¬ PendingDelete f client.mount)
    (hkeeps : KeepsLatest f bytes s client now a) (h : Effect s client now a s' m')
    (hserver : s.dir.content f = some bytes) : s'.dir.content f = some bytes := by
  cases h with
  | @watch e rest hmux hevents =>
      by_cases hname : watched e.name
      · by_cases hmask : e.mask = .delete
        · have hne := deleted_ne (head_quiet hevents hquiet) hname hmask
          rw [callback_deletes hname hmask, content_congr (delete_frame hs hne)]
          exact hserver
        · rw [callback_stores hname hmask]
          by_cases hf : f = e.name
          · have hcall := watch_storeCall now (s := s) hmux hevents hname hmask
            rw [← hf] at hcall ⊢
            exact store_keepsServer hs (hkeeps.1 (by simp [hcall])).1 hserver
          · rw [content_congr (store_frame hf)]
            exact hserver
      · rw [callback_ignores hname]
        exact hserver
  | @call reply rest g call hphase =>
      cases call with
      | fetch => exact hserver
      | nothing => exact hserver
      | store =>
          by_cases hf : f = g
          · subst g
            exact store_keepsServer hs (hkeeps.1 (by simp [call_storeCall hphase])).1 hserver
          · rw [perform, content_congr (store_frame hf)]
            exact hserver
  | quiet => exact hserver
  | edit => exact hserver
  | userDelete => exact hserver
  | unlink => exact hserver

/-- A mount that carries the latest bytes goes on carrying them until they are on the server. -/
theorem effect_keepsMount (hs : Unlocked s) (hwatched : watched f)
    (hquiet : ¬ PendingDelete f client.mount) (hedit : ∀ b, a ≠ .edit f b) (huser : a ≠ .userDelete f)
    (hsync : ¬ Unlinks client f a) (hkeeps : KeepsLatest f bytes s client now a)
    (h : Effect s client now a s' m') (hcarries : Carries f bytes client.mount) :
    s'.dir.content f = some bytes ∨ Carries f bytes m' := by
  cases h with
  | quiet => exact .inr hcarries
  | @edit g b =>
      have hne : f ≠ g := by rintro rfl; exact hedit b rfl
      exact .inr (hcarries.extends (edit_extends hne _ _ _))
  | @userDelete g =>
      have hne : f ≠ g := by rintro rfl; exact huser rfl
      exact .inr (hcarries.extends (remove_extends hne _))
  | @watch e rest hmux hevents =>
      by_cases hname : watched e.name
      · by_cases hmask : e.mask = .delete
        · have hne := deleted_ne (head_quiet hevents hquiet) hname hmask
          rw [callback_deletes hname hmask]
          exact .inr ((hcarries.tail hevents hne.symm).extends (delete_extends hne))
        · rw [callback_stores hname hmask]
          by_cases hf : f = e.name
          · have hcall := watch_storeCall now (s := s) hmux hevents hname hmask
            rw [← hf] at hcall ⊢
            exact .inl (store_reachesServer hs (hkeeps.1 (by simp [hcall])).2 hcarries.1)
          · exact .inr (hcarries.tail hevents (Ne.symm hf))
      · rw [callback_ignores hname]
        have hne : e.name ≠ f := by
          rintro rfl
          exact hname hwatched
        exact .inr (hcarries.tail hevents hne)
  | @call reply rest g call hphase =>
      cases call with
      | nothing => exact .inr hcarries
      | store => exact .inr hcarries
      | fetch =>
          by_cases hf : f = g
          · subst g
            by_cases hreceives : Receives client.mount f s
            · exact .inl (hkeeps.2 (by simp [fetchCall, hphase]) hcarries.1 hreceives)
            · rw [perform, fetch_keeps _ hreceives]
              exact .inr hcarries
          · exact .inr (hcarries.extends (fetch_extends hf))
  | @unlink reply rest g hphase =>
      apply Or.inr
      unfold removeStale
      split
      next hstale =>
        by_cases hf : f = g
        · subst g
          have hlocal : client.mount.dir.lookup f ≠ none := by
            rw [ne_eq, ← content_eq_none, hcarries.1]
            simp
          exact absurd ⟨rfl, hlocal, by simp [unlisted, hphase, hstale]⟩ hsync
        · exact hcarries.extends (remove_extends hf _)
      · exact hcarries

theorem edits_snoc (f : String) (acts : List (C × Int × Act)) (a : C × Int × Act) :
    edits f (acts ++ [a]) = edits f acts ++ edits f [a] := List.filterMap_append ..

theorem edits_edit (f : String) (c : C) (now : Int) (bytes : Content) :
    edits f [(c, now, .edit f bytes)] = [(now, bytes)] := by
  simp [edits]

theorem edits_other {a : Act} (h : ∀ b, a ≠ .edit f b) (c : C) (now : Int) :
    edits f [(c, now, a)] = [] := by
  cases a with
  | edit g b =>
      have hne : g ≠ f := by rintro rfl; exact h b rfl
      simp [edits, hne]
  | _ => rfl

theorem edit_carries (hn : f ≠ "") (m : Mount) (bytes : Content) (now : Int) :
    Carries f bytes (m.edit f bytes now) := by
  have hopen : (m.dir.openOut f now).content f = some [] := by
    simp [Dir.content, Dir.openOut, hn]
  refine ⟨?_, ⟨f, if m.dir.lookup f = none then .create else .modify⟩, ?_, rfl, by split <;> simp⟩
  · have hcontent := content_writeAt_end hopen bytes now
    simpa [Mount.edit, Mount.writeAt, Mount.openOut] using hcontent
  · simp [Mount.edit, Mount.writeAt, Mount.openOut, hn]

/-- A new edit is the latest one, as its time is different from the earlier ones and not before them. -/
theorem latest_edit {acts : List (C × Int × Act)} {c : C} {bytes' : Content} {clock : Int}
    (htimes : ∀ e ∈ edits f acts, e.1 ≤ clock) (hnow : clock ≤ now)
    (hdistinct : ((edits f (acts ++ [(c, now, .edit f bytes)])).map Prod.fst).Nodup)
    (h : Latest f (acts ++ [(c, now, .edit f bytes)]) bytes') : bytes' = bytes := by
  obtain ⟨t, hmem, hmax⟩ := h
  rw [edits_snoc, edits_edit] at hmem hmax hdistinct
  rcases List.mem_append.mp hmem with hmem | hmem
  · have hle := htimes _ hmem
    have hge := hmax (now, bytes) (by simp)
    have ht : t = now := by simp only at hle hge; omega
    rw [List.map_append, List.nodup_append] at hdistinct
    exact absurd ht (hdistinct.2.2 t (List.mem_map.mpr ⟨_, hmem, rfl⟩) now (by simp))
  · exact (Prod.mk.inj (List.mem_singleton.mp hmem)).2

theorem settled_of_current {s : State C} (h : ∀ c, (s.clients c).mount.events = [] ∧
    (s.clients c).phase = .waiting (some s.server.processCallback)) : Settled s :=
  fun c => ⟨(h c).1, _, (h c).2, fun _ => ⟨rfl, rfl⟩⟩

theorem start_inv (d : Dir) (clientId : C → String) (mounts : C → Dir) :
    Inv f [] (start d clientId mounts) := by
  refine ⟨fun _ => rfl, ?_, by simp [edits], ?_⟩
  · rintro c ⟨_, hmem⟩
    cases hmem
  · rintro bytes ⟨t, hmem, _⟩
    cases hmem

variable [DecidableEq C]

theorem step_safe {acts : List (C × Int × Act)} {t t' : State C} {c : C} (hn : watched f)
    (hinv : Inv f acts t) (hcareful : Careful f acts t (c, now, a))
    (hdistinct : ((edits f (acts ++ [(c, now, a)])).map Prod.fst).Nodup)
    (hstep : step t (c, now, a) = some t') (hlatest : Latest f (acts ++ [(c, now, a)]) bytes) :
    Safe f bytes t' := by
  obtain ⟨huser, hsync, hkeeps⟩ := hcareful
  obtain ⟨hclock, _, hclient, hothers⟩ := step_some hstep
  have heffect := (clientStep_effect hclient).2
  by_cases hedit : ∃ b, a = .edit f b
  · obtain ⟨b, rfl⟩ := hedit
    have hb := latest_edit hinv.times hclock hdistinct hlatest
    subst hb
    have hname : f ≠ "" := by
      rintro rfl
      exact absurd hn (by decide)
    have hmount : (t'.clients c).mount = (t.clients c).mount.edit f bytes now := by
      rw [← (Prod.mk.inj (Option.some.inj hclient)).2]
    exact .inr ⟨c, hmount ▸ edit_carries hname _ bytes now⟩
  · have hnot : ∀ b, a ≠ .edit f b := fun b hb => hedit ⟨b, hb⟩
    have hsame : edits f (acts ++ [(c, now, a)]) = edits f acts := by
      rw [edits_snoc, edits_other hnot, List.append_nil]
    have hbefore : Latest f acts bytes := by
      rw [Latest, ← hsame]
      exact hlatest
    obtain ⟨time, hmem, hmax⟩ := hbefore
    have hk := hkeeps (time, bytes) hmem hmax
    rcases hinv.safe bytes ⟨time, hmem, hmax⟩ with hserver | ⟨c', hcarries⟩
    · exact .inl (effect_keepsServer hinv.unlocked (hinv.quiet c) hk heffect hserver)
    · by_cases hc : c' = c
      · subst c'
        rcases effect_keepsMount hinv.unlocked hn (hinv.quiet c) hnot huser hsync hk heffect hcarries with
          h | h
        · exact .inl h
        · exact .inr ⟨c, h⟩
      · exact .inr ⟨c', by rw [hothers c' hc]; exact hcarries⟩

theorem step_inv {acts : List (C × Int × Act)} {t t' : State C} {b : C × Int × Act}
    (hn : watched f) (hinv : Inv f acts t) (hcareful : Careful f acts t b)
    (hdistinct : ((edits f (acts ++ [b])).map Prod.fst).Nodup) (hstep : step t b = some t') :
    Inv f (acts ++ [b]) t' := by
  obtain ⟨c, now, a⟩ := b
  obtain ⟨hclock, htime, hclient, hothers⟩ := step_some hstep
  have heffect := (clientStep_effect hclient).2
  refine ⟨effect_unlocked hinv.unlocked heffect, ?_, ?_,
    fun bytes hlatest => step_safe hn hinv hcareful hdistinct hstep hlatest⟩
  · intro c'
    by_cases hc : c' = c
    · subst c'
      exact effect_quiet (hinv.quiet c) hcareful.1 (fun h => hcareful.2.1 h.2) heffect
    · rw [hothers c' hc]
      exact hinv.quiet c'
  · intro e he
    rw [edits_snoc] at he
    rw [htime]
    rcases List.mem_append.mp he with he | he
    · have hle := hinv.times e he
      omega
    · by_cases hedit : ∃ b, a = .edit f b
      · obtain ⟨b, rfl⟩ := hedit
        rw [edits_edit] at he
        cases List.mem_singleton.mp he
        exact Int.le_refl now
      · rw [edits_other (fun b hb => hedit ⟨b, hb⟩)] at he
        cases he

/-- In a careful run the last edit wins. -/
theorem last_edit_wins (d : Dir) (clientId : C → String) (mounts : C → Dir) (f : String)
    (hwatched : watched f) (acts : List (C × Int × Act)) (s : State C)
    (hrun : Run step (Careful f) (start d clientId mounts) acts s)
    (hdistinct : ((edits f acts).map Prod.fst).Nodup) (hsettled : Settled s) (bytes : Content)
    (hlatest : Latest f acts bytes) : s.server.dir.content f = some bytes := by
  have hinv : ((edits f acts).map Prod.fst).Nodup → Inv f acts s := by
    apply hrun.invariant (I := fun acts s => ((edits f acts).map Prod.fst).Nodup → Inv f acts s)
    · exact fun _ => start_inv d clientId mounts
    · intro acts s b s' ih hcareful hstep hdistinct
      have hearlier : ((edits f acts).map Prod.fst).Nodup := by
        rw [edits_snoc, List.map_append] at hdistinct
        exact (List.nodup_append.mp hdistinct).1
      exact step_inv hwatched (ih hearlier) hcareful hdistinct hstep
  rcases (hinv hdistinct).safe bytes hlatest with h | ⟨c, _, e, hmem, _⟩
  · exact h
  · rw [(hsettled c).1] at hmem
    cases hmem

def syncActions {C : Type} (c : C) (now : Int) (f : String) : List (C × Int × Act) :=
  [.snapshot, .receive, .decide f none, .call, .opendir, .unlink f, .finish].map (fun a => (c, now, a))

def mounted (C : Type) (clientId : C → String) : State C := start empty clientId (fun _ => empty)

/-- Client A edits and stores, client B brings the file home and edits it in
turn, and A brings that home. -/
def editInTurn : List (Bool × Int × Act) :=
  [(true, 1, .edit "f.txt" [1]), (true, 2, .watch), (true, 3, .watch)] ++ syncActions false 4 "f.txt" ++
    [(false, 5, .watch), (false, 6, .watch), (false, 7, .edit "f.txt" [2]), (false, 8, .watch),
      (false, 9, .watch)] ++
    syncActions true 10 "f.txt" ++ [(true, 11, .watch), (true, 12, .watch)] ++ syncActions false 13 "f.txt"

theorem editInTurn_runs : (exec step (Careful "f.txt") (mounted Bool (fun c => if c then "A" else "B"))
    editInTurn).isSome := by
  decide +kernel

theorem editInTurn_wins : ∃ s,
    exec step (Careful "f.txt") (mounted Bool (fun c => if c then "A" else "B")) editInTurn = some s ∧
      Settled s ∧ s.server.dir.content "f.txt" = some [2] := by
  have hs := (Option.some_get editInTurn_runs).symm
  have hsettled := settled_of_current (s := (exec step (Careful "f.txt")
    (mounted Bool (fun c => if c then "A" else "B")) editInTurn).get editInTurn_runs)
    (fun c => by cases c <;> decide +kernel)
  exact ⟨_, hs, hsettled, last_edit_wins empty _ _ "f.txt" (by decide) editInTurn _
    (run_iff_exec.mpr hs) (by decide) hsettled [2] ⟨7, by decide, by decide⟩⟩

def onlyEdits (f : String) : Act → Bool
  | .edit g _ => g = f
  | .userDelete _ => false
  | _ => true

/-- Client B edits after client A, but A's watcher stores after B's. -/
def editTwice : List (Bool × Int × Act) :=
  [(true, 1, .edit "f.txt" [1]), (false, 2, .edit "f.txt" [2]), (false, 3, .watch), (false, 4, .watch),
    (true, 5, .watch), (true, 6, .watch)] ++ syncActions true 7 "f.txt" ++
    syncActions false 8 "f.txt" ++ [(false, 9, .watch), (false, 10, .watch)]

theorem editTwice_runs : (exec step (fun _ _ a => onlyEdits "f.txt" a.2.2)
    (mounted Bool (fun c => if c then "A" else "B")) editTwice).isSome := by
  decide +kernel

theorem first_edit_wins : ¬ ∀ (C : Type) [DecidableEq C] (d : Dir) (clientId : C → String)
    (mounts : C → Dir) (f : String) (acts : List (C × Int × Act)) (s : State C),
    Run step (fun _ _ a => onlyEdits f a.2.2) (start d clientId mounts) acts s →
    ((edits f acts).map Prod.fst).Nodup → Settled s → ∀ bytes, Latest f acts bytes →
    s.server.dir.content f = some bytes := by
  intro h
  have hs := (Option.some_get editTwice_runs).symm
  have hsettled := settled_of_current (s := (exec step (fun _ _ a => onlyEdits "f.txt" a.2.2)
    (mounted Bool (fun c => if c then "A" else "B")) editTwice).get editTwice_runs)
    (fun c => by cases c <;> decide +kernel)
  have hcontent := h Bool empty _ _ "f.txt" editTwice _ (run_iff_exec.mpr hs) (by decide) hsettled [2]
    ⟨2, by decide, by decide⟩
  exact absurd hcontent (by decide +kernel)

end GraduateOS.Dfs.LastEdit
