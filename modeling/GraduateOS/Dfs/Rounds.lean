import GraduateOS.Dfs.Mounts

namespace GraduateOS.Dfs.Rounds

open Directory Checksum Messages ServerNode ClientNode Transfers SyncRound Mounts Library.Runs
open Library.MachineInts

def ofThread : Act → Bool
  | .edit _ _ | .userDelete _ | .watch => false
  | _ => true

def Settles (own : Option Content) (theirs : File) : Option File → Prop
  | none => theirs.content ≠ [] ∧ dfsFileChecksum none ≠ dfsFileChecksum (some theirs.content)
  | some ours =>
      ours.content = theirs.content ∨
        (dfsFileChecksum (some theirs.content) ≠ dfsFileChecksum own ∧
          dfsFileChecksum (some ours.content) ≠ dfsFileChecksum (some theirs.content) ∧
          if toInt32 theirs.mtime > ours.mtime then theirs.content ≠ [] else ours.content ≠ [])

def Agree (p : Option File × Option File) : Prop := p.1.map File.content = p.2.map File.content

section

variable {C : Type} [DecidableEq C]

def copiesAt (s : State C) (c : C) (f : String) : Option File × Option File :=
  copies (s.server, (s.clients c).mount) f

def Alone (c : C) (f : String) (_ : List (C × Int × Act)) (s : State C) (a : C × Int × Act) : Prop :=
  if a.1 = c ∧ ofThread a.2.2 = true then a.2.2 ≠ .snapshot
  else ∀ s' ∈ step s a, copiesAt s' c f = copiesAt s c f

instance (c : C) (f : String) (history : List (C × Int × Act)) (s : State C) (a : C × Int × Act) :
    Decidable (Alone c f history s a) :=
  inferInstanceAs (Decidable (if a.1 = c ∧ ofThread a.2.2 = true then a.2.2 ≠ .snapshot
    else ∀ s' ∈ step s a, copiesAt s' c f = copiesAt s c f))

def decides (c : C) (f : String) (a : C × Int × Act) : Bool :=
  match a.2.2 with
  | .decide g _ => a.1 = c ∧ g = f
  | _ => false

def decisions (c : C) (f : String) (acts : List (C × Int × Act)) : List (C × Int × Act) := acts.filter (decides c f)

end

section

variable {C : Type} [DecidableEq C] (c : C) (f : String) (reply : CallbackListOutput) (theirs : File)
  (ours : Option File)

def Decided (acts : List (C × Int × Act)) (p : Option File × Option File) : Prop :=
  ∃ own time, decisions c f acts = [(c, time, .decide f own)] ∧ (Agree p ↔ Settles own theirs ours)

def Undecided (acts : List (C × Int × Act)) (p : Option File × Option File) : Prop :=
  decisions c f acts = [] ∧ p = (some theirs, ours)

def Listed (acts : List (C × Int × Act)) (p : Option File × Option File) : Phase → Prop
  | .replied r => r = reply ∧ Undecided c f theirs ours acts p
  | .syncing r rest =>
      r = reply ∧ rest.Nodup ∧
        if f ∈ rest then Undecided c f theirs ours acts p else Decided c f theirs ours acts p
  | .calling r rest g call =>
      r = reply ∧ rest.Nodup ∧ g ∉ rest ∧
        if g = f then p = (some theirs, ours) ∧ ∃ own time, decisions c f acts = [(c, time, .decide f own)] ∧
          ∃ m : Mount, m.dir.lookup f = ours ∧ call = syncCall reply own m f
        else if f ∈ rest then Undecided c f theirs ours acts p else Decided c f theirs ours acts p
  | .removing r _ => r = reply ∧ Decided c f theirs ours acts p
  | .waiting _ => Decided c f theirs ours acts p

end

def Unlisted (f : String) (reply : CallbackListOutput) (p : Option File × Option File) : Phase → Prop
  | .replied r => r = reply ∧ p.1 = none
  | .syncing r rest => r = reply ∧ f ∉ rest ∧ p.1 = none
  | .calling r rest g _ => r = reply ∧ f ≠ g ∧ f ∉ rest ∧ p.1 = none
  | .removing r rest => r = reply ∧ p.1 = none ∧ (f ∈ rest ∨ p.2 = none)
  | .waiting _ => p.1 = none ∧ p.2 = none

variable {C : Type} [DecidableEq C] {c : C} {f clientId : String} {reply : CallbackListOutput} {theirs : File} {ours : Option File}
  {acts : List (C × Int × Act)} {p : Option File × Option File} {s s' : Server} {client client' : Client}
  {m m' : Mount} {now : Int} {a : Act}

theorem decisions_snoc (c : C) (f : String) (acts : List (C × Int × Act)) (b : C × Int × Act) :
    decisions c f (acts ++ [b]) = decisions c f acts ++ if decides c f b then [b] else [] := by
  rw [decisions, List.filter_append, decisions]
  congr 1
  exact List.filter_cons

/-- A step that is no decision on the file. -/
theorem decisions_keep {b : C × Int × Act} (h : decides c f b = false) :
    decisions c f (acts ++ [b]) = decisions c f acts := by
  rw [decisions_snoc, h]
  exact List.append_nil _

theorem Decided.keep {b : C × Int × Act} (h : Decided c f theirs ours acts p) (hb : decides c f b = false) :
    Decided c f theirs ours (acts ++ [b]) p := by
  rwa [Decided, decisions_keep hb]

theorem Undecided.keep {b : C × Int × Act} (h : Undecided c f theirs ours acts p) (hb : decides c f b = false) :
    Undecided c f theirs ours (acts ++ [b]) p := by
  rwa [Undecided, decisions_keep hb]

theorem Listed.keep {b : C × Int × Act} {phase : Phase} (h : Listed c f reply theirs ours acts p phase)
    (hb : decides c f b = false) : Listed c f reply theirs ours (acts ++ [b]) p phase := by
  cases phase with
  | replied r => exact ⟨h.1, h.2.keep hb⟩
  | syncing r rest =>
      obtain ⟨hr, hnodup, h⟩ := h
      refine ⟨hr, hnodup, ?_⟩
      split
      next hf =>
        rw [if_pos hf] at h
        exact h.keep hb
      next hf =>
        rw [if_neg hf] at h
        exact h.keep hb
  | calling r rest g call =>
      obtain ⟨hr, hnodup, hg, h⟩ := h
      refine ⟨hr, hnodup, hg, ?_⟩
      split
      next hgf =>
        rw [if_pos hgf] at h
        rwa [decisions_keep hb]
      next hgf =>
        rw [if_neg hgf] at h
        split
        next hf =>
          rw [if_pos hf] at h
          exact h.keep hb
        next hf =>
          rw [if_neg hf] at h
          exact h.keep hb
  | removing r rest => exact ⟨h.1, h.2.keep hb⟩
  | waiting handled => exact Decided.keep h hb

/-- A working directory with one file. -/
theorem exists_cwd (own : Option Content) (hf : f ≠ "") : ∃ cwd : Cwd, ∀ s m, cwd.content s m f = own := by
  cases own with
  | none => exact ⟨.elsewhere empty, fun _ _ => by simp [Cwd.content, Dir.content]⟩
  | some bytes =>
      refine ⟨.elsewhere (empty.put f ⟨bytes, 0⟩), fun _ _ => ?_⟩
      rw [Cwd.content, Dir.content, lookup_put_self _ hf]
      rfl

theorem syncCall_congr (own : Option Content) (h : m'.dir.lookup f = m.dir.lookup f) :
    syncCall reply own m' f = syncCall reply own m f := by
  rw [syncCall, syncCall, h]

/-- The call that the decision asked for, on the copies it was taken for. -/
theorem call_agree (clientId : String) (now : Int) (hs : Unlocked s) (hreply : reply.crc.lookup f =
    some (dfsFileChecksum (some theirs.content)) ∧ reply.mtime.lookup f = some (toInt32 theirs.mtime))
    (hp : copies (s, m) f = (some theirs, ours)) (own : Option Content) (hm : m'.dir.lookup f = ours) :
    Agree (copies (perform clientId now s m f (syncCall reply own m' f)) f) ↔ Settles own theirs ours := by
  have htheirs : s.dir.lookup f = some theirs := congrArg Prod.fst hp
  have hours : m.dir.lookup f = ours := congrArg Prod.snd hp
  obtain ⟨cwd, hcwd⟩ := exists_cwd own (lookup_named htheirs)
  have hiff := syncFile_same_iff clientId now (m := m) hs cwd htheirs hreply.1 hreply.2
  rw [hcwd, syncFile] at hiff
  rw [syncCall_congr own (hm.trans hours.symm)]
  refine hiff.trans ?_
  simp only [Converges, htheirs, Option.some.injEq, forall_eq', hours, hcwd]
  cases ours <;> rfl

theorem removeStale_listed (h : reply.crc.lookup f ≠ none) : removeStale reply m f = m := if_neg h

theorem removeStale_frame {g : String} (hg : f ≠ g) : (removeStale reply m g).dir.lookup f = m.dir.lookup f :=
  (removeLoop_local reply).frame m g f trivial hg

inductive ThreadStep (s : Server) (client : Client) (now : Int) : Act → Server → Client → Prop
  | receive {reply : CallbackListOutput} (hphase : client.phase = .replied reply) :
      ThreadStep s client now .receive s { client with phase := .syncing reply reply.crc.keys }
  | decide {reply : CallbackListOutput} {rest : List String} {g : String} {own : Option Content}
      (hphase : client.phase = .syncing reply rest) (hg : g ∈ rest) :
      ThreadStep s client now (.decide g own) s { client with
        phase := .calling reply (rest.erase g) g (syncCall reply own client.mount g) }
  | call {reply : CallbackListOutput} {rest : List String} {g : String} {call : SyncCall}
      (hphase : client.phase = .calling reply rest g call) :
      ThreadStep s client now .call (perform client.clientId now s client.mount g call).1 { client with
        mount := (perform client.clientId now s client.mount g call).2, phase := .syncing reply rest }
  | opendir {reply : CallbackListOutput} (hphase : client.phase = .syncing reply []) :
      ThreadStep s client now .opendir s { client with phase := .removing reply client.mount.dir.names }
  | unlink {reply : CallbackListOutput} {rest : List String} {g : String}
      (hphase : client.phase = .removing reply rest) (hg : g ∈ rest) :
      ThreadStep s client now (.unlink g) s { client with
        mount := removeStale reply client.mount g, phase := .removing reply (rest.erase g) }
  | finish {reply : CallbackListOutput} (hphase : client.phase = .removing reply []) :
      ThreadStep s client now .finish s { client with phase := .waiting (some reply) }

theorem thread_cases (hthread : ofThread a = true) (hsnapshot : a ≠ .snapshot)
    (hstep : clientStep s client now a = some (s', client')) : ThreadStep s client now a s' client' := by
  cases a with
  | edit g bytes | userDelete g | watch => cases hthread
  | snapshot => exact absurd rfl hsnapshot
  | receive =>
      simp only [clientStep] at hstep
      split at hstep
      next hphase =>
        cases hstep
        exact .receive hphase
      · cases hstep
  | decide g own =>
      simp only [clientStep] at hstep
      split at hstep
      next hphase =>
        split at hstep
        next hg =>
          cases hstep
          exact .decide hphase hg
        · cases hstep
      · cases hstep
  | call =>
      simp only [clientStep] at hstep
      split at hstep
      next hphase =>
        cases hstep
        exact .call hphase
      · cases hstep
  | opendir =>
      simp only [clientStep] at hstep
      split at hstep
      next hphase =>
        cases hstep
        exact .opendir hphase
      · cases hstep
  | unlink g =>
      simp only [clientStep] at hstep
      split at hstep
      next hphase =>
        split at hstep
        next hg =>
          cases hstep
          exact .unlink hphase hg
        · cases hstep
      · cases hstep
  | finish =>
      simp only [clientStep] at hstep
      split at hstep
      next hphase =>
        cases hstep
        exact .finish hphase
      · cases hstep

theorem Listed.deciding {r : CallbackListOutput} {rest : List String} {g : String} {own : Option Content}
    (h : Listed c f reply theirs ours acts (copies (s, client.mount) f) (.syncing r rest)) (hg : g ∈ rest) :
    Listed c f reply theirs ours (acts ++ [(c, now, .decide g own)]) (copies (s, client.mount) f)
      (.calling r (rest.erase g) g (syncCall r own client.mount g)) := by
  obtain ⟨rfl, hnodup, h⟩ := h
  refine ⟨rfl, hnodup.erase g, fun hmem => ((hnodup.mem_erase_iff).mp hmem).1 rfl, ?_⟩
  by_cases hgf : g = f
  · subst g
    rw [if_pos hg] at h
    obtain ⟨hnone, hp⟩ := h
    rw [if_pos rfl]
    refine ⟨hp, own, now, ?_, client.mount, congrArg Prod.snd hp, rfl⟩
    rw [decisions_snoc, hnone, decides, if_pos (decide_eq_true ⟨rfl, rfl⟩), List.nil_append]
  · have hother : decides c f (c, now, .decide g own) = false := decide_eq_false fun h => hgf h.2
    rw [if_neg hgf]
    by_cases hf : f ∈ rest
    · rw [if_pos hf] at h
      rw [if_pos ((List.mem_erase_of_ne (Ne.symm hgf)).mpr hf)]
      exact h.keep hother
    · rw [if_neg hf] at h
      rw [if_neg (mt List.mem_of_mem_erase hf)]
      exact h.keep hother

theorem Listed.called (hs : Unlocked s) (hreply : reply.crc.lookup f =
    some (dfsFileChecksum (some theirs.content)) ∧ reply.mtime.lookup f = some (toInt32 theirs.mtime))
    {r : CallbackListOutput} {rest : List String} {g : String} {call : SyncCall}
    (h : Listed c f reply theirs ours acts (copies (s, client.mount) f) (.calling r rest g call)) :
    Listed c f reply theirs ours (acts ++ [(c, now, .call)])
      (copies (perform client.clientId now s client.mount g call) f) (.syncing r rest) := by
  obtain ⟨rfl, hnodup, hg, h⟩ := h
  refine ⟨rfl, hnodup, ?_⟩
  by_cases hgf : g = f
  · subst g
    rw [if_pos rfl] at h
    obtain ⟨hp, own, time, hone, m, hm, rfl⟩ := h
    rw [if_neg hg]
    exact ⟨own, time, (decisions_keep rfl).trans hone, call_agree client.clientId now hs hreply hp own hm⟩
  · rw [if_neg hgf] at h
    have hframe : copies (perform client.clientId now s client.mount g call) f = copies (s, client.mount) f :=
      perform_frame call (Ne.symm hgf)
    rw [hframe]
    split
    next hf =>
      rw [if_pos hf] at h
      exact h.keep rfl
    next hf =>
      rw [if_neg hf] at h
      exact h.keep rfl

/-- One step of the thread on a listed file. -/
theorem Listed.thread (hs : Unlocked s) (hreply : reply.crc.lookup f =
    some (dfsFileChecksum (some theirs.content)) ∧ reply.mtime.lookup f = some (toInt32 theirs.mtime))
    (h : Listed c f reply theirs ours acts (copies (s, client.mount) f) client.phase)
    (hstep : ThreadStep s client now a s' client') :
    Listed c f reply theirs ours (acts ++ [(c, now, a)]) (copies (s', client'.mount) f) client'.phase := by
  have hlisted : reply.crc.lookup f ≠ none := by simp [hreply.1]
  cases hstep with
  | receive hphase =>
      rw [hphase] at h
      obtain ⟨rfl, hp⟩ := h
      refine ⟨rfl, AList.keys_nodup _, ?_⟩
      rw [if_pos (by rwa [← AList.mem_keys, ← AList.lookup_isSome, Option.isSome_iff_ne_none])]
      exact hp.keep rfl
  | decide hphase hg =>
      rw [hphase] at h
      exact h.deciding hg
  | call hphase =>
      rw [hphase] at h
      exact h.called hs hreply
  | opendir hphase =>
      rw [hphase] at h
      obtain ⟨rfl, -, h⟩ := h
      rw [if_neg List.not_mem_nil] at h
      exact ⟨rfl, h.keep rfl⟩
  | @unlink r rest g hphase hg =>
      rw [hphase] at h
      obtain ⟨rfl, h⟩ := h
      refine ⟨rfl, ?_⟩
      have hsame : copies (s, removeStale r client.mount g) f = copies (s, client.mount) f := by
        by_cases hgf : g = f
        · subst g
          rw [removeStale_listed hlisted]
        · exact Prod.ext rfl (removeStale_frame (Ne.symm hgf))
      rw [hsame]
      exact h.keep rfl
  | finish hphase =>
      rw [hphase] at h
      exact h.2.keep rfl

/-- One step of the thread on a file that the server lacks. -/
theorem Unlisted.thread (hreply : reply.crc.lookup f = none)
    (h : Unlisted f reply (copies (s, client.mount) f) client.phase)
    (hstep : ThreadStep s client now a s' client') :
    Unlisted f reply (copies (s', client'.mount) f) client'.phase := by
  cases hstep with
  | receive hphase =>
      rw [hphase] at h
      obtain ⟨rfl, hp⟩ := h
      exact ⟨rfl, by rwa [← AList.mem_keys, ← AList.lookup_eq_none], hp⟩
  | decide hphase hg =>
      rw [hphase] at h
      obtain ⟨rfl, hf, hp⟩ := h
      refine ⟨rfl, ?_, mt List.mem_of_mem_erase hf, hp⟩
      rintro rfl
      exact hf hg
  | @call r rest g call hphase =>
      rw [hphase] at h
      obtain ⟨rfl, hfg, hf, hp⟩ := h
      have hframe : copies (perform client.clientId now s client.mount g call) f = copies (s, client.mount) f :=
        perform_frame call hfg
      exact ⟨rfl, hf, (congrArg Prod.fst hframe).trans hp⟩
  | opendir hphase =>
      rw [hphase] at h
      obtain ⟨rfl, -, hp⟩ := h
      refine ⟨rfl, hp, ?_⟩
      by_cases hours : client.mount.dir.lookup f = none
      · exact .inr hours
      · exact .inl (mem_names.mpr hours)
  | @unlink r rest g hphase hg =>
      rw [hphase] at h
      obtain ⟨rfl, hp, h⟩ := h
      refine ⟨rfl, hp, ?_⟩
      by_cases hfg : f = g
      · subst g
        right
        show (removeStale r client.mount f).dir.lookup f = none
        rw [removeStale, if_pos hreply]
        exact lookup_remove_self client.mount.dir f
      · rcases h with hf | hours
        · exact .inl ((List.mem_erase_of_ne hfg).mpr hf)
        · exact .inr ((removeStale_frame hfg).trans hours)
  | finish hphase =>
      rw [hphase] at h
      exact ⟨h.2.1, h.2.2.resolve_left List.not_mem_nil⟩

/-- The users and the watcher leave the round where it is. -/
theorem other_phase (ha : ofThread a = false) (hstep : clientStep s client now a = some (s', client')) :
    client'.phase = client.phase := by
  cases a with
  | edit g bytes => cases hstep; rfl
  | userDelete g => cases hstep; rfl
  | watch =>
      simp only [clientStep] at hstep
      split at hstep
      · cases hstep; rfl
      · cases hstep
  | _ => cases ha

section

variable {t₀ t t' : State C} {b : C × Int × Act}

/-- A step is one of the thread, or it leaves the round and the copies alone. -/
theorem alone_cases (halone : Alone c f acts t b) (hstep : step t b = some t') :
    (∃ now a, b = (c, now, a) ∧ ThreadStep t.server (t.clients c) now a t'.server (t'.clients c)) ∨
    (t'.clients c).phase = (t.clients c).phase ∧ copiesAt t' c f = copiesAt t c f ∧ decides c f b = false := by
  obtain ⟨c', now, a⟩ := b
  obtain ⟨-, -, hclient, hothers⟩ := step_some hstep
  rw [Alone] at halone
  split at halone
  next hmine =>
    obtain ⟨hc, hthread⟩ := hmine
    simp only at hc hthread
    subst c'
    exact .inl ⟨now, a, rfl, thread_cases hthread halone hclient⟩
  next hother =>
    refine .inr ⟨?_, halone t' hstep, ?_⟩
    · by_cases hc : c' = c
      · subst c'
        exact other_phase (Bool.eq_false_iff.mpr fun hthread => hother ⟨rfl, hthread⟩) hclient
      · rw [hothers c (Ne.symm hc)]
    · cases a with
      | decide g own => exact decide_eq_false fun h => hother ⟨h.1, rfl⟩
      | _ => rfl

theorem run_listed (hs : Unlocked t₀.server) (hphase : (t₀.clients c).phase = .replied reply)
    (hreply : reply.crc.lookup f = some (dfsFileChecksum (some theirs.content)) ∧
      reply.mtime.lookup f = some (toInt32 theirs.mtime))
    (htheirs : t₀.server.dir.lookup f = some theirs) (h : Run step (Alone c f) t₀ acts t) :
    Listed c f reply theirs ((t₀.clients c).mount.dir.lookup f) acts (copiesAt t c f) (t.clients c).phase := by
  have hall : Unlocked t.server ∧ Listed c f reply theirs ((t₀.clients c).mount.dir.lookup f) acts
      (copiesAt t c f) (t.clients c).phase := by
    apply h.invariant (I := fun acts t => Unlocked t.server ∧ Listed c f reply theirs
      ((t₀.clients c).mount.dir.lookup f) acts (copiesAt t c f) (t.clients c).phase)
    · rw [hphase]
      exact ⟨hs, rfl, rfl, Prod.ext htheirs rfl⟩
    · intro acts t b t' hi halone hstep
      refine ⟨step_unlocked hi.1 hstep, ?_⟩
      rcases alone_cases halone hstep with ⟨now, a, rfl, hthread⟩ | ⟨hsame, hcopies, hother⟩
      · exact hi.2.thread hi.1 hreply hthread
      · rw [hsame, hcopies]
        exact hi.2.keep hother
  exact hall.2

theorem run_unlisted (hphase : (t₀.clients c).phase = .replied reply) (hreply : reply.crc.lookup f = none)
    (htheirs : t₀.server.dir.lookup f = none) (h : Run step (Alone c f) t₀ acts t) :
    Unlisted f reply (copiesAt t c f) (t.clients c).phase := by
  apply h.stateInvariant (I := fun t => Unlisted f reply (copiesAt t c f) (t.clients c).phase)
  · rw [hphase]
    exact ⟨rfl, htheirs⟩
  · intro acts t b t' hi halone hstep
    rcases alone_cases halone hstep with ⟨now, a, rfl, hthread⟩ | ⟨hsame, hcopies, -⟩
    · exact hi.thread hreply hthread
    · rw [hsame, hcopies]
      exact hi

end

/-- Client A has an older copy of the file, and the listing is on its way to it. -/
def older : State Bool where
  server := ⟨empty.put "f.txt" ⟨[1], 5⟩, ∅⟩
  clients c := ⟨if c then "A" else "B", ⟨empty.put "f.txt" ⟨[2], 3⟩, []⟩,
    if c then .replied (Server.processCallback ⟨empty.put "f.txt" ⟨[1], 5⟩, ∅⟩) else .waiting none⟩
  clock := 5

/-- Client B stores another file during the round of client A. -/
def besideB : List (Bool × Int × Act) :=
  [(true, 6, .receive), (false, 7, .edit "g.txt" [3]), (true, 8, .decide "f.txt" none), (false, 9, .watch),
    (true, 10, .call), (false, 11, .watch), (true, 12, .opendir), (true, 13, .unlink "f.txt"), (true, 14, .finish)]

theorem besideB_runs : (exec step (Alone true "f.txt") older besideB).isSome := by decide +kernel

end GraduateOS.Dfs.Rounds
