import GraduateOS.Shm.OneTransfer

namespace GraduateOS.Shm.FailedSends

open Segments Threads LocalSteps Orders Accounts Exchange Turns Stages Progress Library.Runs Library.MachineInts
open OneTransfer (longFile longFile_length twoChunks)

/-- One call with its calls of `gfs_send` so far, the bytes that these have
accepted, and its waits for a chunk. -/
structure Call where
  system : System Unit Unit
  sends : Nat
  accepted : Nat
  waits : Nat

inductive Turn
  | handler | boss | worker

def Call.handler (c : Call) : Handler := c.system.handlers ()

/-- What the next call of `gfs_send` returns: the bytes that it is asked for, or -1. -/
def reply (results : Nat → Bool) (c : Call) : Int := if results c.sends then c.handler.sendLen else -1

def Turn.act (results : Nat → Bool) (c : Call) : Turn → Act Unit Unit
  | .handler => .handler () (reply results c)
  | .boss => .boss
  | .worker => .worker ()

def tally (results : Nat → Bool) (c : Call) (s : System Unit Unit) : Turn → Call
  | .handler =>
      match c.handler.pc with
      | .loop =>
          ⟨s, c.sends, c.accepted, c.waits + if c.handler.bytesTransferred < c.handler.fileLen then 1 else 0⟩
      | .gfsSend => ⟨s, c.sends + 1, c.accepted + (reply results c).toNat, c.waits⟩
      | _ => ⟨s, c.sends, c.accepted, c.waits⟩
  | _ => ⟨s, c.sends, c.accepted, c.waits⟩

def callStep (cache : String → Option Content) (results : Nat → Bool) (c : Call) (t : Turn) : Option Call :=
  (step cache c.system (t.act results c)).map fun s => tally results c s t

def startCall (path : String) (i : Nat) (segments : Nat → Segment) : Call := ⟨oneCall path i segments, 0, 0, 0⟩

structure Accounted (content : Content) (results : Nat → Bool) (c : Call) : Prop where
  waits : c.waits ≤ chunkCount content
  count : c.handler.bytesTransferred = c.accepted
  bound : c.accepted ≤ content.length
  failure : c.handler.pc = .returned → (∃ k < c.sends, results k = false) →
    toInt64 c.handler.bytesTransferred < 0

/-- No order of steps wedges the handler, whatever becomes of its client: it
keeps its accounts, and it comes to an end with its segment in the pool. -/
structure Survives (cache : String → Option Content) (content : Content) (path : String) (i : Nat)
    (segments : Nat → Segment) (results : Nat → Bool) : Prop where
  always : ∀ turns c, Run (callStep cache results) anyStep (startCall path i segments) turns c →
    Accounted content results c
  ends : ∃ bound, ∀ turns c, Run (callStep cache results) anyStep (startCall path i segments) turns c →
    turns.length ≤ bound
  returns : ∀ turns c, Run (callStep cache results) anyStep (startCall path i segments) turns c →
    (∀ t, callStep cache results c t = none) → c.handler.pc = .returned ∧ i ∈ c.system.pool

def asking (h : Handler) : Nat :=
  match h.pc with
  | .waitReader | .readData | .postWriter | .gfsSend => 1
  | _ => 0

structure Tally (content : Content) (c : Call) : Prop where
  accepted : c.accepted = c.handler.bytesTransferred
  count : c.handler.bytesTransferred = min content.length (3499 * c.sends)
  waits : c.waits = c.sends + asking c.handler
  sends : c.sends ≤ chunkCount content

def Pooled (i : Nat) (s : System Unit Unit) : Prop :=
  (s.handlers ()).pc = .pop ∨ (s.handlers ()).pc = .returned → i ∈ s.pool

structure Undisturbed (cache : String → Option Content) (content : Content) (i : Nat) (c : Call) : Prop where
  stage : ∃ es, Stage cache content i es c.system
  tally : Tally content c
  pooled : Pooled i c.system

variable {cache : String → Option Content} {content : Content} {path : String} {i : Nat}
  {segments : Nat → Segment} {results : Nat → Bool} {c c' : Call} {s s' : System Unit Unit} {es : List Access}
  {turns : List Turn} {t : Turn} {h h' : Handler} {g g' : Segment}

theorem callStep_some (hstep : callStep cache results c t = some c') :
    ∃ s, step cache c.system (t.act results c) = some s ∧ c' = tally results c s t := by
  obtain ⟨s, hs, rfl⟩ := Option.map_eq_some_iff.mp hstep
  exact ⟨s, hs, rfl⟩

theorem tally_system (results : Nat → Bool) (c : Call) (s : System Unit Unit) (t : Turn) :
    (tally results c s t).system = s := by
  unfold tally
  split
  · split <;> rfl
  · rfl

theorem stage_handlerOk {pc : HandlerPc} (hstage : Stage cache content i es c.system) (hpc : c.handler.pc = pc)
    (hasked : pc ≠ .pop ∧ pc ≠ .create ∧ pc ≠ .send) : HandlerOk content c.handler := by
  subst hpc
  cases hstage with
  | preparing _ _ _ _ _ _ hwhere =>
      rcases hwhere with ⟨hpc, _⟩ | ⟨hpc, _⟩ | ⟨hpc, _⟩
      · exact absurd hpc hasked.1
      · exact absurd hpc hasked.2.1
      · exact absurd hpc hasked.2.2
  | queued hsilent _ _ _ _ hwait => simpa only [HandlerOk, Call.handler, hwait] using hsilent
  | serving _ _ _ hex _ => exact hex.handler

theorem sendsWhole_act (hwhole : c.handler.pc = .gfsSend → results c.sends = true) (t : Turn) :
    SendsWhole c.system (t.act results c) := by
  cases t with
  | handler =>
      intro hpc
      rw [reply, if_pos (hwhole hpc)]
      rfl
  | boss => trivial
  | worker => trivial

/-- Only `gfs_send` depends on its result. -/
theorem step_result {r r' : Int} (hpc : (s.handlers ()).pc ≠ .gfsSend) :
    step cache s (.handler () r) = step cache s (.handler () r') := by
  simp only [step]
  cases h : (s.handlers ()).pc with
  | gfsSend => exact absurd h hpc
  | _ => simp only [handlerStep, h]

theorem tally_other (hloop : c.handler.pc ≠ .loop) (hsend : c.handler.pc ≠ .gfsSend) (t : Turn) :
    tally results c s t = ⟨s, c.sends, c.accepted, c.waits⟩ := by
  cases t with
  | handler =>
      rw [tally]
      split
      next hpc => exact absurd hpc hloop
      next hpc => exact absurd hpc hsend
      next => rfl
  | boss => rfl
  | worker => rfl

theorem tally_at {sends accepted waits : Nat} (hh : s.handlers () = h) (haccepted : accepted = h.bytesTransferred)
    (hcount : h.bytesTransferred = min content.length (3499 * sends)) (hwaits : waits = sends + asking h)
    (hsends : sends ≤ chunkCount content) : Tally content ⟨s, sends, accepted, waits⟩ := by
  subst hh
  exact ⟨haccepted, hcount, hwaits, hsends⟩

theorem Tally.frame (htally : Tally content c) (hh : s.handlers () = h)
    (hbytes : h.bytesTransferred = c.handler.bytesTransferred) (hasking : asking h = asking c.handler) :
    Tally content ⟨s, c.sends, c.accepted, c.waits⟩ :=
  tally_at hh (htally.accepted.trans hbytes.symm) (hbytes.trans htally.count) (by rw [htally.waits, hasking])
    htally.sends

/-- A chunk that the handler has asked for is still missing at its client. -/
theorem asking_left (hstage : Stage cache content i es c.system) (hask : asking c.handler = 1) :
    HandlerOk content c.handler ∧ c.handler.bytesTransferred < content.length := by
  cases hpc : c.handler.pc with
  | waitReader | readData | postWriter | gfsSend =>
      have hok := stage_handlerOk hstage hpc (by decide)
      refine ⟨hok, ?_⟩
      simp only [HandlerOk, hpc] at hok
      exact hok.left
  | _ => simp [asking, hpc] at hask

theorem Undisturbed.room (hc : Undisturbed cache content i c) (hask : asking c.handler = 1) :
    c.sends < chunkCount content := by
  obtain ⟨es, hstage⟩ := hc.stage
  have hleft := (asking_left hstage hask).2
  rw [hc.tally.count] at hleft
  rw [chunkCount]
  omega

theorem startCall_undisturbed (hfile : cache path = some content) :
    Undisturbed cache content i (startCall path i segments) where
  stage := ⟨[], oneCall_stage hfile⟩
  tally := by
    refine ⟨rfl, ?_, rfl, Nat.zero_le _⟩
    change 0 = min content.length 0
    omega
  pooled _ := List.mem_singleton_self i

theorem local_tally (hlimit : content.length < 2 ^ 31) (hc : Undisturbed cache content i c)
    (hwhole : c.handler.pc = .gfsSend → results c.sends = true)
    (hstep : handlerStep (reply results c) g c.handler = some (g', h')) (hs : s.handlers () = h') :
    Tally content (tally results c s .handler) := by
  obtain ⟨es, hstage⟩ := hc.stage
  have htally := hc.tally
  cases handlerStep_move hstep with
  | create hpc | waitLength hpc | noLength hpc | readLength hpc | unmap hpc | sendNotFound hpc =>
      rw [tally_other (by simp [hpc]) (by simp [hpc])]
      exact htally.frame hs rfl (by simp [asking, hpc])
  | waitReader hpc | readData hpc | postWriter hpc =>
      rw [tally_other (by simp [hpc]) (by simp [hpc])]
      exact htally.frame hs rfl (by simp [asking, hpc])
  | header hpc =>
      have hok := stage_handlerOk hstage hpc (by decide)
      simp only [HandlerOk, hpc] at hok
      rw [tally_other (by simp [hpc]) (by simp [hpc])]
      exact htally.frame hs hok.1.bytesTransferred.symm (by simp [asking, hpc])
  | readError hpc herror =>
      have hok := stage_handlerOk hstage hpc (by decide)
      simp only [HandlerOk, hpc] at hok
      rw [hok.readLen] at herror
      omega
  | more hpc hmore =>
      have hwaits := htally.waits
      simp only [asking, hpc] at hwaits
      simp only [tally, hpc, if_pos hmore]
      exact tally_at hs htally.accepted htally.count (by rw [hwaits]; rfl) htally.sends
  | done hpc hdone =>
      simp only [tally, hpc, if_neg (Nat.not_lt.mpr hdone)]
      exact htally.frame hs rfl (by simp [asking, hpc])
  | gfsSend hpc =>
      have hroom := hc.room (by simp [asking, hpc])
      have hok := stage_handlerOk hstage hpc (by decide)
      simp only [HandlerOk, hpc] at hok
      have hsent : reply results c = c.handler.sendLen := if_pos (hwhole hpc)
      have hlen := chunk_length content c.handler.bytesTransferred
      have hcount := htally.count
      have hwaits := htally.waits
      simp only [asking, hpc] at hwaits
      rw [hsent, hok.advance hlimit] at hs
      simp only [tally, hpc, hsent, hok.sendLen, Int.toNat_natCast]
      exact tally_at hs (by rw [htally.accepted]) (by simp only; omega) (by rw [hwaits]; rfl) hroom

theorem daemon_frame {a : Act Unit Unit} (ha : a = .boss ∨ a = .worker ()) (hstep : step cache s a = some s') :
    s'.handlers = s.handlers ∧ s'.pool = s.pool := by
  cases step_move hstep with
  | boss | take | worker => exact ⟨rfl, rfl⟩
  | _ => simp at ha

theorem step_tally (hlimit : content.length < 2 ^ 31) (hc : Undisturbed cache content i c)
    (hwhole : c.handler.pc = .gfsSend → results c.sends = true)
    (hstep : step cache c.system (t.act results c) = some s) : Tally content (tally results c s t) := by
  cases t with
  | boss => exact hc.tally.frame (congrFun (daemon_frame (.inl rfl) hstep).1 ()) rfl rfl
  | worker => exact hc.tally.frame (congrFun (daemon_frame (.inr rfl) hstep).1 ()) rfl rfl
  | handler =>
      cases step_move hstep with
      | pop hpc =>
          rw [tally_other (by simp [Call.handler, hpc]) (by simp [Call.handler, hpc])]
          exact hc.tally.frame rfl rfl (by simp [asking, Call.handler, System.setHandler, hpc])
      | send hpc =>
          rw [tally_other (by simp [Call.handler, hpc]) (by simp [Call.handler, hpc])]
          exact hc.tally.frame rfl rfl (by simp [asking, Call.handler, System.setHandler, hpc])
      | enqueue hpc =>
          rw [tally_other (by simp [Call.handler, hpc]) (by simp [Call.handler, hpc])]
          refine hc.tally.frame rfl rfl ?_
          simp only [System.setHandler, Function.update_self, asking, Call.handler, hpc]
          by_cases hzero : (c.system.handlers ()).fileLen = 0 <;> simp [hzero]
      | handler hlocal => exact local_tally hlimit hc hwhole hlocal (by simp [System.setHandler])

theorem handlerStep_busy {result : Int} (hfound : h.pc ≠ .sendNotFound)
    (hstep : handlerStep result g h = some (g', h')) : h'.pc ≠ .pop ∧ h'.pc ≠ .returned := by
  cases handlerStep_move hstep with
  | sendNotFound hpc => exact absurd hpc hfound
  | _ => exact ⟨nofun, nofun⟩

theorem enqueue_segment (hstage : Stage cache content i es s) (hpc : (s.handlers ()).pc = .enqueue) :
    (s.handlers ()).segment = i := by
  cases hstage with
  | preparing _ _ _ _ _ _ hwhere =>
      rw [hpc] at hwhere
      simp at hwhere
  | queued _ _ _ _ _ hwait => rw [hpc] at hwait; cases hwait
  | serving hsegment => exact hsegment

theorem step_pooled (hc : Undisturbed cache content i c) (hstep : step cache c.system (t.act results c) = some s) :
    Pooled i s := by
  obtain ⟨es, hstage⟩ := hc.stage
  have hpooled := hc.pooled
  cases t with
  | boss =>
      obtain ⟨hhandlers, hpool⟩ := daemon_frame (.inl rfl) hstep
      rwa [Pooled, hhandlers, hpool]
  | worker =>
      obtain ⟨hhandlers, hpool⟩ := daemon_frame (.inr rfl) hstep
      rwa [Pooled, hhandlers, hpool]
  | handler =>
      cases step_move hstep with
      | pop | send => simp [Pooled, System.setHandler]
      | enqueue hpc =>
          rw [← enqueue_segment hstage hpc]
          exact fun _ => List.mem_append_right _ (List.mem_singleton_self _)
      | handler hlocal =>
          have hfound : (c.system.handlers ()).pc ≠ .sendNotFound := by
            intro hpc
            have hok := stage_handlerOk hstage hpc (by decide)
            simp [HandlerOk, Call.handler, hpc] at hok
          obtain ⟨hpop, hreturned⟩ := handlerStep_busy hfound hlocal
          simp [Pooled, System.setHandler, hpop, hreturned]

theorem undisturbed_step (hlimit : content.length < 2 ^ 31) (hpos : 0 < content.length)
    (hc : Undisturbed cache content i c) (hwhole : c.handler.pc = .gfsSend → results c.sends = true)
    (hstep : callStep cache results c t = some c') :
    Undisturbed cache content i c' ∧ rank content c'.system < rank content c.system := by
  obtain ⟨es, hstage⟩ := hc.stage
  obtain ⟨s, hs, rfl⟩ := callStep_some hstep
  have hsends := sendsWhole_act hwhole t
  refine ⟨⟨?_, step_tally hlimit hc hwhole hs, ?_⟩, ?_⟩
  · rw [tally_system]
    exact ⟨_, step_stage hlimit hpos hstage hsends hs⟩
  · rw [tally_system]
    exact step_pooled hc hs
  · rw [tally_system]
    exact step_rank hlimit hstage hsends hs

theorem asking_le (h : Handler) : asking h ≤ 1 := by
  unfold asking
  split <;> decide

theorem Undisturbed.accounted (hc : Undisturbed cache content i c)
    (hresults : ∀ k < chunkCount content, results k = true) : Accounted content results c := by
  have htally := hc.tally
  refine ⟨?_, htally.accepted.symm, ?_, ?_⟩
  · have hroom := hc.room
    have hsends := htally.sends
    have hasking := asking_le c.handler
    rw [htally.waits]
    omega
  · rw [htally.accepted, htally.count]
    exact Nat.min_le_left _ _
  · rintro - ⟨k, hk, hfailed⟩
    rw [hresults k (Nat.lt_of_lt_of_le hk htally.sends)] at hfailed
    cases hfailed

theorem Undisturbed.whole (hc : Undisturbed cache content i c)
    (hresults : ∀ k < chunkCount content, results k = true) (hpc : c.handler.pc = .gfsSend) :
    results c.sends = true :=
  hresults c.sends (hc.room (by simp [asking, hpc]))

theorem undisturbed_progress (hc : Undisturbed cache content i c)
    (hwhole : c.handler.pc = .gfsSend → results c.sends = true) :
    Finished c.system ∨ ∃ t c', callStep cache results c t = some c' := by
  obtain ⟨es, hstage⟩ := hc.stage
  refine (stage_progress hstage).imp_right ?_
  rintro ⟨a, hsends, hstep⟩
  obtain ⟨s, hs⟩ := Option.isSome_iff_exists.mp hstep
  cases a with
  | request => exact absurd hsends id
  | boss => exact ⟨.boss, _, Option.map_eq_some_iff.mpr ⟨s, hs, rfl⟩⟩
  | worker => exact ⟨.worker, _, Option.map_eq_some_iff.mpr ⟨s, hs, rfl⟩⟩
  | handler _ result =>
      have hsame : step cache c.system (.handler () (reply results c)) = step cache c.system (.handler () result) := by
        by_cases hpc : c.handler.pc = .gfsSend
        · rw [hsends hpc, reply, if_pos (hwhole hpc)]
          rfl
        · exact step_result hpc
      exact ⟨.handler, _, Option.map_eq_some_iff.mpr ⟨s, hsame.trans hs, rfl⟩⟩

theorem survives_of_whole (hfile : cache path = some content) (hpos : 1 ≤ content.length)
    (hlimit : content.length < 2 ^ 31) (hresults : ∀ k < chunkCount content, results k = true) :
    Survives cache content path i segments results := by
  have hstart : Undisturbed cache content i (startCall path i segments) := startCall_undisturbed hfile
  have hstep : ∀ turns c t c', Undisturbed cache content i c → anyStep turns c t →
      callStep cache results c t = some c' →
      Undisturbed cache content i c' ∧ rank content c'.system < rank content c.system :=
    fun _ c _ _ hc _ hs => undisturbed_step hlimit hpos hc (hc.whole hresults) hs
  have hrun : ∀ turns c, Run (callStep cache results) anyStep (startCall path i segments) turns c →
      Undisturbed cache content i c :=
    fun _ _ h => h.stateInvariant hstart fun turns c t c' hc ha hs => (hstep turns c t c' hc ha hs).1
  constructor
  · exact fun turns c h => (hrun turns c h).accounted hresults
  · refine ⟨rank content (startCall path i segments).system, fun turns c h => ?_⟩
    exact Nat.le_of_add_right_le (h.length_le (fun c => rank content c.system) hstart hstep)
  · intro turns c h hstuck
    have hc := hrun turns c h
    rcases undisturbed_progress hc (hc.whole hresults) with hfinished | ⟨t, c', hs⟩
    · exact ⟨hfinished.1, hc.pooled (.inr hfinished.1)⟩
    · rw [hstuck t] at hs
      cases hs

theorem callStep_sends (hstep : callStep cache results c t = some c') :
    c'.sends = c.sends ∨ c.handler.pc = .gfsSend ∧ c'.sends = c.sends + 1 := by
  obtain ⟨s, -, rfl⟩ := callStep_some hstep
  unfold tally
  split
  · split
    next => exact .inl rfl
    next hpc => exact .inr ⟨hpc, rfl⟩
    next => exact .inl rfl
  · exact .inl rfl

theorem finished_sends (hc : Undisturbed cache content i c) (hfinished : Finished c.system) :
    chunkCount content ≤ c.sends := by
  obtain ⟨es, hstage⟩ := hc.stage
  have hpc : c.handler.pc = .returned := hfinished.1
  have hok := stage_handlerOk hstage hpc (by decide)
  have hcount := hc.tally.count
  simp only [HandlerOk, hpc] at hok
  rw [hok.2] at hcount
  rw [chunkCount]
  omega

/-- As long as the sends succeed, the call comes to each of them. The
induction is on the steps that the transfer still takes. -/
theorem reaches_send {c₀ : Call} {j : Nat} (hpos : 1 ≤ content.length) (hlimit : content.length < 2 ^ 31)
    (hj : j < chunkCount content) (hresults : ∀ k < j, results k = true)
    (hrun : Run (callStep cache results) anyStep c₀ turns c) (hc : Undisturbed cache content i c) (hle : c.sends ≤ j) :
    ∃ turns c, Run (callStep cache results) anyStep c₀ turns c ∧ Undisturbed cache content i c ∧
      c.handler.pc = .gfsSend ∧ c.sends = j := by
  induction hrank : rank content c.system using Nat.strongRecOn generalizing c turns with
  | _ n ih =>
      by_cases hthere : c.handler.pc = .gfsSend ∧ c.sends = j
      · exact ⟨turns, c, hrun, hc, hthere⟩
      · have hless : c.handler.pc = .gfsSend → c.sends < j := by
          intro hpc
          have hne : c.sends ≠ j := fun h => hthere ⟨hpc, h⟩
          omega
        have hwhole : c.handler.pc = .gfsSend → results c.sends = true := fun hpc => hresults _ (hless hpc)
        rcases undisturbed_progress hc hwhole with hfinished | ⟨t, c', hstep⟩
        · have hsends := finished_sends hc hfinished
          omega
        · obtain ⟨hc', hlt⟩ := undisturbed_step hlimit hpos hc hwhole hstep
          refine ih _ (by omega) (.next hrun trivial hstep) hc' ?_ rfl
          rcases callStep_sends hstep with hsame | ⟨hpc, hnext⟩
          · omega
          · have hlessj := hless hpc
            omega

/-- The -1 is added to the count as 2^64 - 1: it takes one byte back. -/
theorem failed_send (hpc : c.handler.pc = .gfsSend) (hfailed : results c.sends = false) :
    ∃ c', callStep cache results c .handler = some c' ∧ c'.accepted = c.accepted ∧
      c'.handler.bytesTransferred = (c.handler.bytesTransferred + (2 ^ 64 - 1)) % 2 ^ 64 := by
  have hreply : reply results c = -1 := by
    rw [reply, hfailed]
    rfl
  have hpc' : (c.system.handlers ()).pc = .gfsSend := hpc
  have hsome : (step cache c.system (.handler () (-1))).isSome := by simp [step, handlerStep, hpc']
  obtain ⟨s, hs⟩ := Option.isSome_iff_exists.mp hsome
  have hbytes : (s.handlers ()).bytesTransferred = (c.handler.bytesTransferred + (2 ^ 64 - 1)) % 2 ^ 64 := by
    cases step_move hs with
    | pop hpop => rw [hpc'] at hpop; cases hpop
    | send hsend => rw [hpc'] at hsend; cases hsend
    | enqueue henqueue => rw [hpc'] at henqueue; cases henqueue
    | handler hlocal =>
        simp only [handlerStep, hpc'] at hlocal
        cases hlocal
        rfl
  refine ⟨tally results c s .handler, ?_, ?_, ?_⟩
  · simp only [callStep, Turn.act, hreply, hs, Option.map_some]
  · simp only [tally, hpc, hreply]
    rfl
  · rw [Call.handler, tally_system]
    exact hbytes

theorem Survives.whole (hfile : cache path = some content) (hpos : 1 ≤ content.length)
    (hlimit : content.length < 2 ^ 31) (h : Survives cache content path i segments results) (k : Nat)
    (hk : k < chunkCount content) : results k = true := by
  induction k using Nat.strongRecOn with
  | _ k ih =>
      by_contra hno
      obtain ⟨turns, c, hrun, hc, hpc, hsends⟩ := reaches_send hpos hlimit hk
        (fun j hj => ih j hj (Nat.lt_trans hj hk)) .start (startCall_undisturbed hfile) (Nat.zero_le k)
      have hfailed : results c.sends = false := by rw [hsends]; exact Bool.eq_false_iff.mpr hno
      obtain ⟨c', hstep, haccepted, hbytes⟩ := failed_send hpc hfailed
      have hcount := (h.always _ _ (.next hrun trivial hstep)).count
      have hbefore := hc.tally.accepted
      have hbound := hc.tally.count
      rw [hbytes, haccepted, hbefore] at hcount
      omega

/-- A call survives exactly if no send of the file fails. -/
theorem call_survives_iff (cache : String → Option Content) (content : Content) (path : String) (i : Nat)
    (segments : Nat → Segment) (results : Nat → Bool) (hfile : cache path = some content)
    (hpos : 1 ≤ content.length) (hlimit : content.length < 2 ^ 31) :
    Survives cache content path i segments results ↔ ∀ k < chunkCount content, results k = true := by
  constructor
  · exact fun h => h.whole hfile hpos hlimit
  · exact survives_of_whole hfile hpos hlimit

theorem oneByte_survives_iff : Survives oneByte [1] "f" 0 (fun _ => ⟨0, 0, 0, 0, []⟩) (fun _ => true) ↔
    ∀ k < chunkCount [1], (fun _ => true : Nat → Bool) k = true :=
  call_survives_iff oneByte [1] "f" 0 _ _ (by simp [oneByte]) (by decide) (by decide)

/-- The second send of two fails: the handler asks for a third chunk, which is never posted. -/
theorem twoChunks_not_survive : ¬ ∀ (cache : String → Option Content) (content : Content) (path : String) (i : Nat)
    (segments : Nat → Segment) (results : Nat → Bool), cache path = some content → 1 ≤ content.length →
      content.length < 2 ^ 31 → Survives cache content path i segments results := by
  intro hall
  have hlength := longFile_length
  have hfile : twoChunks "f" = some longFile := if_pos rfl
  have hsurvives := hall twoChunks longFile "f" 0 (fun _ => ⟨0, 0, 0, 0, []⟩) (fun k => k ≠ 1) hfile
    (by omega) (by omega)
  have hsecond := hsurvives.whole hfile (by omega) (by omega) 1 (by rw [chunkCount, hlength]; decide)
  exact absurd hsecond (by decide)

end GraduateOS.Shm.FailedSends
