import GraduateOS.Library.Runs
import GraduateOS.Shm.Commands

namespace GraduateOS.Shm.Handshake

open Library.CStrings Library.Formats Library.Runs Commands

/-- The arguments of the proxy's `shm_init`. -/
structure Sizes where
  segmentSize : Nat
  numberSegments : Nat
  size_lt : segmentSize < 2 ^ 64
  number_lt : numberSegments < 2 ^ 32

def Sizes.text (z : Sizes) : List UInt8 := sprintfUnsigned [z.segmentSize, z.numberSegments]

/-- The proxy's `sprintf(sizeData, "%zu %u", segmentSize, numberSegments)`. -/
def encodeSizes (sizeData : Vector UInt8 100) (z : Sizes) : Option Memory :=
  if z.text.length < 100 then some (overlay (z.text ++ [0]) sizeData.toList) else none

/-- What the cache's `sscanf` makes of the first message. -/
def decodeSizes (sizeData : Buffer) (msg : Memory) : Option (Nat × Nat) :=
  (cstr (mqueueRead msg sizeData)).bind fun text =>
    (sscanfUnsigned [2 ^ 64, 2 ^ 32] text).bind fun
      | [segsize, nsegments] => some (segsize, nsegments)
      | _ => none

def maxmsg : Nat := 10

/-- `mqueue_write` blocks while the queue is full; a text that is too long is not sent. -/
def send (mq : List Memory) (data : Memory) : Option (List Memory) :=
  match mqueueWrite data with
  | none => some mq
  | some message => if mq.length < maxmsg then some (mq ++ [message]) else none

/-- Where `main` of the proxy stands: before `mqueue_init`, before the message
with the sizes, before its segments are made, or in `gfserver_serve`. -/
inductive Proxy
  | starting | opened | creating | serving
  deriving DecidableEq

/-- Where the cache stands: before `mqueue_init`, before its `mqueue_read`, or with its threads started. -/
inductive Cache
  | starting | opened | running
  deriving DecidableEq

/-- The two processes and the message queue, which `mqueue_init` creates. `sizes`
are `segmentSize` and `numberSegments` of the cache, and `received` is what
`bossWorker` has put into its work queue. -/
structure State where
  mq : Option (List Memory)
  proxy : Proxy
  cache : Cache
  sizes : Option (Nat × Nat)
  received : List Memory

/-- The steps of the two `main` functions, a handler that writes its command,
and `bossWorker` that reads one. A buffer has the bytes that its array held before. -/
inductive Act
  | proxyInit
  | writeSizes (sizeData : Vector UInt8 100)
  | serve
  | handle (buffer : Buffer) (c : Command)
  | cacheInit
  | readSizes (sizeData : Buffer)
  | bossRead (buffer : Buffer)

def State.write (s : State) (data : Option Memory) : Option State :=
  (data.bind fun data => s.mq.bind (send · data)).map fun mq => { s with mq := some mq }

def step (z : Sizes) (s : State) : Act → Option State
  | .proxyInit =>
      if s.proxy = .starting then some { s with mq := some (s.mq.getD []), proxy := .opened } else none
  | .writeSizes sizeData =>
      if s.proxy = .opened then (s.write (encodeSizes sizeData z)).map ({ · with proxy := .creating }) else none
  | .serve => if s.proxy = .creating then some { s with proxy := .serving } else none
  | .handle buffer c =>
      if s.proxy = .serving ∧ c.i < z.numberSegments then s.write (encode buffer c.path c.i) else none
  | .cacheInit =>
      if s.cache = .starting then some { s with mq := some (s.mq.getD []), cache := .opened } else none
  | .readSizes sizeData =>
      match s.cache, s.mq with
      | .opened, some (msg :: mq) =>
          some { s with mq := some mq, cache := .running, sizes := decodeSizes sizeData msg }
      | _, _ => none
  | .bossRead buffer =>
      match s.cache, s.mq with
      | .running, some (msg :: mq) =>
          some { s with mq := some mq, received := s.received ++ [mqueueRead msg buffer] }
      | _, _ => none

def start : State := ⟨none, .starting, .starting, none, []⟩

def handled (acts : List Act) : List Command :=
  acts.filterMap fun
    | .handle _ c => some c
    | _ => none

def isHandle : Act → Bool
  | .handle _ _ => true
  | _ => false

def Sizes.message (z : Sizes) : Memory := z.text ++ [0]

def message (c : Command) : Memory := c.text ++ [0]

def sizesInQueue (z : Sizes) (s : State) : List Memory :=
  if (s.proxy = .creating ∨ s.proxy = .serving) ∧ s.cache ≠ .running then [z.message] else []

def Carries (buffer : Memory) (c : Command) : Prop := ∃ old : Buffer, buffer = mqueueRead (message c) old

structure Inv (z : Sizes) (s : State) (got rest : List Command) : Prop where
  received : List.Forall₂ Carries s.received got
  queue : s.mq.getD [] = sizesInQueue z s ++ rest.map message
  created : s.proxy ≠ .starting ∨ s.cache ≠ .starting → s.mq ≠ none
  bound : (s.mq.getD []).length ≤ maxmsg
  indexes : ∀ c ∈ got ++ rest, c.i < z.numberSegments
  early : s.proxy ≠ .serving → rest = []
  unsent : s.proxy = .starting ∨ s.proxy = .opened → s.cache ≠ .running
  unread : s.cache ≠ .running → got = []
  sizes : s.cache = .running → s.sizes = some (z.segmentSize, z.numberSegments)

variable {z : Sizes} {s s' : State} {got rest : List Command} {acts : List Act} {a : Act}

theorem sizes_length (z : Sizes) : z.text.length < 100 := by
  have hsize : (digits z.segmentSize).length ≤ 20 :=
    digits_length (by decide) (Nat.lt_of_lt_of_le z.size_lt (by decide))
  have hnumber : (digits z.numberSegments).length ≤ 10 :=
    digits_length (by decide) (Nat.lt_of_lt_of_le z.number_lt (by decide))
  simp only [Sizes.text, sprintfUnsigned, List.length_append, List.length_cons]
  omega

theorem cstr_sizes (z : Sizes) (rest : Memory) : cstr (z.text ++ ([0] ++ rest)) = some z.text :=
  cstr_terminated (sprintfUnsigned_nul _) rest

theorem encodeSizes_message (sizeData : Vector UInt8 100) (z : Sizes) :
    (encodeSizes sizeData z).bind mqueueWrite = some z.message := by
  rw [encodeSizes, if_pos (sizes_length z), Option.bind_some, overlay, List.append_assoc, mqueueWrite, cstr_sizes]
  exact if_pos (by have hlt := sizes_length z; omega)

/-- The cache reads the sizes that the proxy has written. -/
theorem decodeSizes_message (sizeData : Buffer) (z : Sizes) :
    decodeSizes sizeData z.message = some (z.segmentSize, z.numberSegments) := by
  have hscan : sscanfUnsigned [2 ^ 64, 2 ^ 32] z.text = some [z.segmentSize, z.numberSegments] :=
    sscanf_sprintfUnsigned (.cons z.size_lt (.cons z.number_lt .nil))
  rw [decodeSizes, mqueueRead, Sizes.message, overlay, List.append_assoc, cstr_sizes, Option.bind_some, hscan]
  rfl

theorem encode_message (buffer : Buffer) (c : Command) :
    (encode buffer c.path c.i).bind mqueueWrite = some (message c) := by
  rw [encode_command, Option.bind_some, mqueueWrite_command]
  rfl

/-- A text that fits is sent whole, and only when there is room. -/
theorem write_some {data : Option Memory} {msg : Memory} (hdata : data.bind mqueueWrite = some msg)
    (h : s.write data = some s') :
    ∃ mq, s.mq = some mq ∧ mq.length < maxmsg ∧ s' = { s with mq := some (mq ++ [msg]) } := by
  obtain ⟨bytes, rfl, hmsg⟩ := Option.bind_eq_some_iff.mp hdata
  rw [State.write, Option.bind_some, Option.map_eq_some_iff] at h
  obtain ⟨mq', hmq', rfl⟩ := h
  obtain ⟨mq, hmq, hsend⟩ := Option.bind_eq_some_iff.mp hmq'
  rw [send, hmsg] at hsend
  simp only at hsend
  split at hsend
  next hroom =>
    cases hsend
    exact ⟨mq, hmq, hroom, rfl⟩
  · cases hsend

theorem write_room {data : Option Memory} {msg : Memory} {mq : List Memory} (hdata : data.bind mqueueWrite = some msg)
    (hmq : s.mq = some mq) (hroom : mq.length < maxmsg) :
    s.write data = some { s with mq := some (mq ++ [msg]) } := by
  obtain ⟨bytes, rfl, hmsg⟩ := Option.bind_eq_some_iff.mp hdata
  simp [State.write, hmq, send, hmsg, hroom]

theorem handled_snoc (acts : List Act) (a : Act) : handled (acts ++ [a]) = handled acts ++ handled [a] :=
  List.filterMap_append

theorem start_inv (z : Sizes) : Inv z start [] [] where
  received := .nil
  queue := rfl
  created := by simp [start]
  bound := Nat.zero_le _
  indexes := by simp
  early _ := rfl
  unsent _ := by simp [start]
  unread _ := rfl
  sizes := by simp [start]

theorem queue_cons {msg : Memory} {mq : List Memory} (h : Inv z s got rest) (hmq : s.mq = some (msg :: mq))
    (hrunning : s.cache = .running) : ∃ c rest', rest = c :: rest' ∧ msg = message c ∧ mq = rest'.map message := by
  have hqueue := h.queue
  rw [hmq, Option.getD_some, sizesInQueue, if_neg (fun hpending => hpending.2 hrunning), List.nil_append] at hqueue
  cases rest with
  | nil => cases hqueue
  | cons c rest' =>
      obtain ⟨rfl, rfl⟩ := List.cons.inj hqueue
      exact ⟨c, rest', rfl, rfl, rfl⟩

/-- The first message that the cache reads is the one with the sizes. -/
theorem queue_sizes {msg : Memory} {mq : List Memory} (h : Inv z s got rest) (hmq : s.mq = some (msg :: mq))
    (hopened : s.cache ≠ .running) :
    (s.proxy = .creating ∨ s.proxy = .serving) ∧ msg = z.message ∧ mq = rest.map message := by
  have hqueue := h.queue
  rw [hmq, Option.getD_some, sizesInQueue] at hqueue
  split at hqueue
  next hpending =>
    obtain ⟨rfl, rfl⟩ := List.cons.inj hqueue
    exact ⟨hpending.1, rfl, rfl⟩
  next hpending =>
    have hproxy : s.proxy ≠ .serving := fun hserving => hpending ⟨.inr hserving, hopened⟩
    rw [h.early hproxy] at hqueue
    cases hqueue

theorem opened_queue (h : Inv z s got rest) (hproxy : s.proxy = .opened) {mq : List Memory} (hmq : s.mq = some mq) :
    mq = [] := by
  have hqueue := h.queue
  rwa [hmq, h.early (by simp [hproxy]), sizesInQueue, if_neg (by simp [hproxy])] at hqueue

theorem bound_tail {msg : Memory} {mq : List Memory} (h : Inv z s got rest) (hmq : s.mq = some (msg :: mq)) :
    mq.length ≤ maxmsg := by
  have hbound := h.bound
  rw [hmq, Option.getD_some, List.length_cons] at hbound
  exact Nat.le_of_succ_le hbound

theorem proxyInit_inv (h : Inv z s got rest) (hproxy : s.proxy = .starting) :
    Inv z { s with mq := some (s.mq.getD []), proxy := .opened } got rest := by
  have hpending : sizesInQueue z s = [] := if_neg (by simp [hproxy])
  exact { h with
    queue := by
      rw [Option.getD_some, h.queue, hpending]
      simp [sizesInQueue]
    created := fun _ => by simp
    early := fun _ => h.early (by simp [hproxy])
    unsent := fun _ => h.unsent (.inl hproxy) }

/-- The message with the sizes is the first one in the queue. -/
theorem writeSizes_inv (h : Inv z s got rest) (hproxy : s.proxy = .opened) {mq : List Memory} (hmq : s.mq = some mq) :
    Inv z { s with mq := some (mq ++ [z.message]), proxy := .creating } got rest := by
  have hcache := h.unsent (.inr hproxy)
  have hrest := h.early (by simp [hproxy])
  have hqueue := opened_queue h hproxy hmq
  exact { h with
    queue := by simp [sizesInQueue, hcache, hqueue, hrest]
    created := fun _ => by simp
    bound := by simp [hqueue, maxmsg]
    early := fun _ => hrest
    unsent := fun hstart => by simp at hstart }

theorem serve_inv (h : Inv z s got rest) (hproxy : s.proxy = .creating) : Inv z { s with proxy := .serving } got rest :=
  { h with
    queue := by
      rw [h.queue]
      simp [sizesInQueue, hproxy]
    created := fun _ => h.created (.inl (by simp [hproxy]))
    early := fun hserving => absurd rfl hserving
    unsent := fun hstart => by simp at hstart }

theorem handle_inv {c : Command} (h : Inv z s got rest) (hproxy : s.proxy = .serving) (hindex : c.i < z.numberSegments)
    {mq : List Memory} (hmq : s.mq = some mq) (hroom : mq.length < maxmsg) :
    Inv z { s with mq := some (mq ++ [message c]) } got (rest ++ [c]) :=
  { h with
    queue := by
      have hqueue := h.queue
      rw [hmq, Option.getD_some] at hqueue
      rw [Option.getD_some, hqueue, List.map_append, List.append_assoc]
      rfl
    created := fun _ => by simp
    bound := by
      rw [Option.getD_some, List.length_append]
      exact hroom
    indexes := by
      intro d hd
      rw [← List.append_assoc, List.mem_append, List.mem_singleton] at hd
      rcases hd with hd | rfl
      · exact h.indexes d hd
      · exact hindex
    early := fun hserving => absurd hproxy hserving }

theorem cacheInit_inv (h : Inv z s got rest) (hcache : s.cache = .starting) :
    Inv z { s with mq := some (s.mq.getD []), cache := .opened } got rest :=
  { h with
    queue := by
      rw [Option.getD_some, h.queue]
      simp [sizesInQueue, hcache]
    created := fun _ => by simp
    unsent := fun _ => by simp
    unread := fun _ => h.unread (by simp [hcache])
    sizes := fun hrunning => by cases hrunning }

theorem readSizes_inv {msg : Memory} {mq : List Memory} (h : Inv z s got rest) (hcache : s.cache = .opened)
    (hmq : s.mq = some (msg :: mq)) (sizeData : Buffer) :
    Inv z { s with mq := some mq, cache := .running, sizes := decodeSizes sizeData msg } got rest := by
  obtain ⟨hproxy, rfl, rfl⟩ := queue_sizes h hmq (by simp [hcache])
  exact { h with
    queue := by simp [sizesInQueue]
    created := fun _ => by simp
    bound := bound_tail h hmq
    unsent := fun hstart => by rcases hproxy with hproxy | hproxy <;> simp [hproxy] at hstart
    unread := fun hrunning => absurd rfl hrunning
    sizes := fun _ => decodeSizes_message sizeData z }

theorem bossRead_inv {c : Command} (h : Inv z s got (c :: rest)) (hcache : s.cache = .running)
    (hmq : s.mq = some (message c :: rest.map message)) (buffer : Buffer) :
    Inv z { s with mq := some (rest.map message), received := s.received ++ [mqueueRead (message c) buffer] }
      (got ++ [c]) rest :=
  { h with
    received := List.rel_append h.received (.cons ⟨buffer, rfl⟩ .nil)
    queue := by simp [sizesInQueue, hcache]
    created := fun _ => by simp
    bound := bound_tail h hmq
    indexes := fun d hd => h.indexes d (by simpa using hd)
    early := fun hserving => by cases h.early hserving
    unread := fun hrunning => absurd hcache hrunning }

theorem step_inv (h : Inv z s got rest) (hstep : step z s a = some s') :
    ∃ got' rest', got' ++ rest' = got ++ rest ++ handled [a] ∧ Inv z s' got' rest' := by
  cases a with
  | proxyInit =>
      simp only [step] at hstep
      split at hstep
      next hproxy =>
        cases hstep
        exact ⟨got, rest, (List.append_nil _).symm, proxyInit_inv h hproxy⟩
      · cases hstep
  | writeSizes sizeData =>
      simp only [step] at hstep
      split at hstep
      next hproxy =>
        obtain ⟨t, ht, rfl⟩ := Option.map_eq_some_iff.mp hstep
        obtain ⟨mq, hmq, -, rfl⟩ := write_some (encodeSizes_message sizeData z) ht
        exact ⟨got, rest, (List.append_nil _).symm, writeSizes_inv h hproxy hmq⟩
      · cases hstep
  | serve =>
      simp only [step] at hstep
      split at hstep
      next hproxy =>
        cases hstep
        exact ⟨got, rest, (List.append_nil _).symm, serve_inv h hproxy⟩
      · cases hstep
  | handle buffer c =>
      simp only [step] at hstep
      split at hstep
      next hready =>
        obtain ⟨mq, hmq, hroom, rfl⟩ := write_some (encode_message buffer c) hstep
        exact ⟨got, rest ++ [c], (List.append_assoc _ _ _).symm, handle_inv h hready.1 hready.2 hmq hroom⟩
      · cases hstep
  | cacheInit =>
      simp only [step] at hstep
      split at hstep
      next hcache =>
        cases hstep
        exact ⟨got, rest, (List.append_nil _).symm, cacheInit_inv h hcache⟩
      · cases hstep
  | readSizes sizeData =>
      simp only [step] at hstep
      split at hstep
      next msg mq hcache hmq =>
        cases hstep
        exact ⟨got, rest, (List.append_nil _).symm, readSizes_inv h hcache hmq sizeData⟩
      · cases hstep
  | bossRead buffer =>
      simp only [step] at hstep
      split at hstep
      next msg mq hcache hmq =>
        cases hstep
        obtain ⟨c, rest, rfl, rfl, rfl⟩ := queue_cons h hmq hcache
        exact ⟨got ++ [c], rest, by simp [handled], bossRead_inv h hcache hmq buffer⟩
      · cases hstep

theorem run_inv (h : Run (step z) anyStep start acts s) :
    ∃ got rest, got ++ rest = handled acts ∧ Inv z s got rest := by
  refine h.invariant (I := fun acts s => ∃ got rest, got ++ rest = handled acts ∧ Inv z s got rest)
    ⟨[], [], rfl, start_inv z⟩ ?_
  intro acts s a s' hinv _ hstep
  obtain ⟨got, rest, hhandled, hinv⟩ := hinv
  obtain ⟨got', rest', hnext, hinv'⟩ := step_inv hinv hstep
  exact ⟨got', rest', by rw [hnext, hhandled, handled_snoc], hinv'⟩

theorem carries_cstr {buffer : Memory} {c : Command} (h : Carries buffer c) : cstr buffer = some c.text := by
  obtain ⟨old, rfl⟩ := h
  rw [mqueueRead, message, overlay, List.append_assoc]
  exact cstr_terminated c.text_nul _

/-- `bossWorker` has what the handlers wrote, in that order. -/
theorem received_command (h : Inv z s got rest) {k : Nat} {buffer : Memory} (hbuffer : s.received[k]? = some buffer) :
    ∃ c, (got ++ rest)[k]? = some c ∧ Carries buffer c ∧ c.i < z.numberSegments := by
  obtain ⟨hk, rfl⟩ := List.getElem?_eq_some_iff.mp hbuffer
  have hk' : k < got.length := h.received.length_eq ▸ hk
  have hcommand : (got ++ rest)[k]? = some got[k] := by
    rw [List.getElem?_append_left hk', List.getElem?_eq_getElem hk']
  exact ⟨got[k], hcommand, h.received.get hk hk', h.indexes _ (List.mem_of_getElem? hcommand)⟩

/-- Until both processes are up, one of them can go on by itself. -/
theorem start_goesOn (h : Inv z s got rest) :
    (s.proxy = .serving ∧ s.cache = .running) ∨ ∃ a, isHandle a = false ∧ (step z s a).isSome := by
  cases hproxy : s.proxy with
  | starting => exact .inr ⟨.proxyInit, rfl, by simp [step, hproxy]⟩
  | opened =>
      obtain ⟨mq, hmq⟩ := Option.ne_none_iff_exists'.mp (h.created (.inl (by simp [hproxy])))
      have hqueue := opened_queue h hproxy hmq
      have hroom := write_room (encodeSizes_message (Vector.replicate 100 0) z) hmq (by simp [hqueue, maxmsg])
      exact .inr ⟨.writeSizes (Vector.replicate 100 0), rfl, by simp [step, hproxy, hroom]⟩
  | creating => exact .inr ⟨.serve, rfl, by simp [step, hproxy]⟩
  | serving =>
      cases hcache : s.cache with
      | starting => exact .inr ⟨.cacheInit, rfl, by simp [step, hcache]⟩
      | opened =>
          obtain ⟨mq, hmq⟩ := Option.ne_none_iff_exists'.mp (h.created (.inl (by simp [hproxy])))
          have hqueue : mq = z.message :: rest.map message := by
            have hqueue := h.queue
            rwa [hmq, sizesInQueue, if_pos ⟨.inr hproxy, by simp [hcache]⟩] at hqueue
          exact .inr ⟨.readSizes (Vector.replicate bufsize 0), rfl, by simp [step, hcache, hmq, hqueue]⟩
      | running => exact .inl ⟨rfl, rfl⟩

def defaults : Sizes := ⟨5701, 7, by decide, by decide⟩

theorem path_terminated : 0 ∉ ascii "/f" := by decide

theorem path_plain : Library.Scanf.NoSpace (ascii "/f") := by decide

theorem command_fits : (sprintf commandFormat [.string (ascii "/f"), .int 0]).length + 1 ≤ bufsize := by decide

def oneCommand : Command where
  path := ⟨ascii "/f", path_terminated⟩
  i := 0
  path_ne := List.cons_ne_nil _ _
  path_plain := path_plain
  int := Nat.two_pow_pos 31
  fits := command_fits

def blank : Buffer := Vector.replicate bufsize 0

def opening : List Act :=
  [.cacheInit, .proxyInit, .writeSizes (Vector.replicate 100 0), .serve, .handle blank oneCommand, .readSizes blank,
    .bossRead blank]

theorem opening_runs : ∃ s, Run (step defaults) anyStep start opening s := by
  have hsizes : step defaults ⟨some [], .opened, .opened, none, []⟩ (.writeSizes (Vector.replicate 100 0)) =
      some ⟨some [defaults.message], .creating, .opened, none, []⟩ := by
    rw [step, if_pos rfl, write_room (encodeSizes_message _ _) rfl (by decide)]
    rfl
  have hcommand : step defaults ⟨some [defaults.message], .serving, .opened, none, []⟩ (.handle blank oneCommand) =
      some ⟨some [defaults.message, message oneCommand], .serving, .opened, none, []⟩ := by
    have hroom : [defaults.message].length < maxmsg := by
      rw [List.length_singleton]
      decide
    rw [step, if_pos ⟨rfl, by decide⟩, write_room (encode_message _ _) rfl hroom]
    rfl
  have hread : step defaults ⟨some [defaults.message, message oneCommand], .serving, .opened, none, []⟩
      (.readSizes blank) = some ⟨some [message oneCommand], .serving, .running,
        decodeSizes blank defaults.message, []⟩ := rfl
  have hcreated : Run (step defaults) anyStep start [.cacheInit, .proxyInit] ⟨some [], .opened, .opened, none, []⟩ :=
    .next (.next .start trivial rfl) trivial rfl
  have hserving : Run (step defaults) anyStep start
      [.cacheInit, .proxyInit, .writeSizes (Vector.replicate 100 0), .serve]
      ⟨some [defaults.message], .serving, .opened, none, []⟩ :=
    .next (.next hcreated trivial hsizes) trivial rfl
  exact ⟨_, .next (.next (.next hserving trivial hcommand) trivial hread) trivial rfl⟩

end GraduateOS.Shm.Handshake
