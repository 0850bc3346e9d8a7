import GraduateOS.Shm.WorkQueue

namespace GraduateOS.Shm.QueueSteps

open Steques.Nodes WorkQueue Library.LinkedLists

variable {α : Type}

def unlinked : BossPc α → Option Addr
  | .initNext _ node | .testBack _ node | .writeFront _ node | .readBack _ node | .link _ node _ =>
      some node
  | _ => none

def removed : WorkerPc α → Option Addr
  | .retest node _ | .clearBack node _ | .free node _ => some node
  | _ => none

/-- In `steque_pop`, and the front is still the node to be taken. -/
def Taking : WorkerPc α → Prop
  | .testFront | .readNode | .readItem _ | .readFront _ _ | .readNext _ _ _ | .writeFront _ _ _ => True
  | _ => False

/-- The boss has tested `back` and not finished acting on it. -/
def Linking : BossPc α → Prop
  | .writeFront _ _ | .readBack _ _ | .link _ _ _ | .writeBack _ => True
  | _ => False

/-- The worker has seen that the list becomes empty and has not set `back` yet. -/
def Emptying (nodes : List Addr) : WorkerPc α → Prop
  | .writeFront _ _ next => next = none
  | .retest _ _ => nodes = []
  | .clearBack _ _ => True
  | _ => False

/-- `front` is already NULL and `back` is not. -/
def Stale (nodes : List Addr) : WorkerPc α → Prop
  | .retest _ _ => nodes = []
  | .clearBack _ _ => True
  | _ => False

def BossOk (g : Shared α) (nodes : List Addr) : BossPc α → Prop
  | .initNext item node => itemAt g.heap node = some item ∧ node ∉ nodes
  | .testBack item node =>
      itemAt g.heap node = some item ∧ node ∉ nodes ∧ link g.heap node = some none
  | .writeFront item node =>
      itemAt g.heap node = some item ∧ node ∉ nodes ∧ link g.heap node = some none ∧ nodes = []
  | .readBack item node =>
      itemAt g.heap node = some item ∧ node ∉ nodes ∧ link g.heap node = some none ∧ nodes ≠ []
  | .link item node back =>
      itemAt g.heap node = some item ∧ node ∉ nodes ∧ link g.heap node = some none ∧ nodes ≠ [] ∧
        back = nodes.getLast?
  | .writeBack node => nodes.getLast? = some node
  | .undefined => False
  | _ => True

def WorkerOk (g : Shared α) (nodes : List Addr) : WorkerPc α → Prop
  | .readItem node => nodes.head? = some node
  | .readFront node ans => nodes.head? = some node ∧ itemAt g.heap node = some ans
  | .readNext node ans front =>
      nodes.head? = some node ∧ itemAt g.heap node = some ans ∧ front = some node
  | .writeFront node ans next =>
      nodes.head? = some node ∧ itemAt g.heap node = some ans ∧ next = nodes.tail.head?
  | .retest node _ | .free node _ => node ∈ g.heap ∧ node ∉ nodes
  | .clearBack node _ => node ∈ g.heap ∧ nodes = []
  | .underflow | .undefined => False
  | _ => True

/-- The message that the boss has received and not linked into the list yet. -/
def pending : BossPc α → List α
  | .lock item | .malloc item | .initNext item _ | .testBack item _ | .writeFront item _
  | .readBack item _ | .link item _ _ => [item]
  | _ => []

/-- The message that a worker has taken out of the list and not returned yet. -/
def taken : WorkerPc α → List α
  | .retest _ ans | .clearBack _ ans | .free _ ans | .readN ans | .writeN ans _ | .unlock ans => [ans]
  | _ => []

/-- The list counts one node for which `semCache` is not posted yet. -/
def unposted : BossPc α → Nat
  | .writeBack _ | .readN | .writeN _ | .unlock | .post => 1
  | _ => 0

structure Joint (g : Shared α) (boss : BossPc α) (pop : WorkerPc α) (nodes : List Addr) (xs : List α) :
    Prop where
  path : Linked (link g.heap) g.queue.front nodes none
  items : nodes.map (itemAt g.heap) = xs.map some
  bossOk : BossOk g nodes boss
  workerOk : WorkerOk g nodes pop
  apart : ∀ a, unlinked boss = some a → removed pop ≠ some a
  alone : Emptying nodes pop → ¬ Linking boss
  back : (∀ a, boss ≠ .writeBack a) → ¬ Stale nodes pop → g.queue.back = nodes.getLast?

variable {g g' : Shared α} {boss boss' : BossPc α} {pop pop' : WorkerPc α} {nodes : List Addr}
  {xs : List α} {addr : Addr} {junk : Option Addr}

theorem Joint.mem_heap (hj : Joint g boss pop nodes xs) {a : Addr} (ha : a ∈ nodes) : a ∈ g.heap :=
  link_ne_none.mp (hj.path.allocated ha)

theorem Joint.removed_mem (hj : Joint g boss pop nodes xs) {a : Addr} (ha : removed pop = some a) :
    a ∈ g.heap := by
  have hok := hj.workerOk
  cases pop <;> simp only [removed, reduceCtorEq, Option.some.injEq] at ha <;> subst ha
  · exact hok.1
  · exact hok.1
  · exact hok.1

/-- What a worker relies on is the list, its items and the node that it has removed. -/
theorem WorkerOk.congr (h : WorkerOk g nodes pop) (hitems : ∀ a ∈ nodes, itemAt g'.heap a = itemAt g.heap a)
    (hremoved : ∀ a, removed pop = some a → a ∈ g.heap → a ∈ g'.heap) : WorkerOk g' nodes pop := by
  have hhead : ∀ a, nodes.head? = some a → itemAt g'.heap a = itemAt g.heap a :=
    fun a ha => hitems a (List.mem_of_head? ha)
  cases pop with
  | readFront node ans => exact ⟨h.1, by rw [hhead node h.1, h.2]⟩
  | readNext node ans front => exact ⟨h.1, by rw [hhead node h.1, h.2.1], h.2.2⟩
  | writeFront node ans next => exact ⟨h.1, by rw [hhead node h.1, h.2.1], h.2.2⟩
  | retest node ans => exact ⟨hremoved node rfl h.1, h.2⟩
  | free node ans => exact ⟨hremoved node rfl h.1, h.2⟩
  | clearBack node ans => exact ⟨hremoved node rfl h.1, h.2⟩
  | _ => exact h

theorem Joint.keep (hj : Joint g boss pop nodes xs) (hfront : g'.queue.front = g.queue.front)
    (hback : g'.queue.back = g.queue.back)
    (hlink : ∀ a ∈ nodes, link g'.heap a = link g.heap a)
    (hitem : ∀ a ∈ nodes, itemAt g'.heap a = itemAt g.heap a) (hmem : ∀ a ∈ g.heap, a ∈ g'.heap)
    (hboss : BossOk g' nodes boss') (hapart : ∀ a, unlinked boss' = some a → removed pop ≠ some a)
    (halone : Emptying nodes pop → ¬ Linking boss') (hsettled : ∀ a, boss ≠ .writeBack a) :
    Joint g' boss' pop nodes xs where
  path := by rw [hfront]; exact hj.path.congr hlink
  items := by rw [← hj.items]; exact List.map_congr_left hitem
  bossOk := hboss
  workerOk := hj.workerOk.congr hitem (fun a _ => hmem a)
  apart := hapart
  alone := halone
  back _ hstale := by rw [hback]; exact hj.back hsettled hstale

/-- An access of the boss that leaves the nodes and both ends of the list as they are. -/
theorem Joint.observe (hj : Joint g boss pop nodes xs) (hheap : g'.heap = g.heap)
    (hfront : g'.queue.front = g.queue.front) (hback : g'.queue.back = g.queue.back)
    (hboss : BossOk g' nodes boss') (hapart : ∀ a, unlinked boss' = some a → removed pop ≠ some a)
    (halone : Emptying nodes pop → ¬ Linking boss') (hsettled : ∀ a, boss ≠ .writeBack a) :
    Joint g' boss' pop nodes xs := by
  refine hj.keep hfront hback ?_ ?_ ?_ hboss hapart halone hsettled
  · intro a _
    rw [hheap]
  · intro a _
    rw [hheap]
  · intro a ha
    rwa [hheap]

/-- A worker does not notice a node at the end, unless it is emptying the list. -/
theorem WorkerOk.append (h : WorkerOk g nodes pop) {a : Addr} (hempty : ¬ Emptying nodes pop)
    (hapart : removed pop ≠ some a) (hitems : ∀ b, itemAt g'.heap b = itemAt g.heap b)
    (hmem : ∀ b ∈ g.heap, b ∈ g'.heap) : WorkerOk g' (nodes ++ [a]) pop := by
  have hhead : ∀ b, nodes.head? = some b → (nodes ++ [a]).head? = some b := by
    intro b hb
    rw [List.head?_append, hb]
    rfl
  cases pop with
  | readItem node => exact hhead node h
  | readFront node ans => exact ⟨hhead node h.1, by rw [hitems, h.2]⟩
  | readNext node ans front => exact ⟨hhead node h.1, by rw [hitems, h.2.1], h.2.2⟩
  | writeFront node ans next =>
      refine ⟨hhead node h.1, by rw [hitems, h.2.1], ?_⟩
      have hne : nodes.tail ≠ [] := by
        intro hnil
        apply hempty
        rw [Emptying, h.2.2, hnil]
        rfl
      obtain ⟨b, rest, hrest⟩ := List.exists_cons_of_ne_nil hne
      have hnodes : nodes ≠ [] := by
        rintro rfl
        cases hrest
      rw [List.tail_append_of_ne_nil hnodes, h.2.2, hrest]
      rfl
  | retest node ans =>
      refine ⟨hmem node h.1, ?_⟩
      simpa [h.2, removed] using hapart
  | free node ans =>
      refine ⟨hmem node h.1, ?_⟩
      simpa [h.2, removed] using hapart
  | clearBack node ans => exact absurd trivial hempty
  | _ => exact h

theorem Joint.append (hj : Joint g boss pop nodes xs) {a : Addr} {item : α} (hlinking : Linking boss)
    (ha : unlinked boss = some a) (hpath : Linked (link g'.heap) g'.queue.front (nodes ++ [a]) none)
    (hitem : itemAt g.heap a = some item) (hitems : ∀ b, itemAt g'.heap b = itemAt g.heap b)
    (hmem : ∀ b ∈ g.heap, b ∈ g'.heap) : Joint g' (.writeBack a) pop (nodes ++ [a]) (xs ++ [item]) := by
  have hempty : ¬ Emptying nodes pop := fun h => hj.alone h hlinking
  refine ⟨hpath, ?_, by simp [BossOk], hj.workerOk.append hempty (hj.apart a ha) hitems hmem,
    by simp [unlinked], ?_, fun h => absurd rfl (h a)⟩
  · have hsame : itemAt g'.heap = itemAt g.heap := funext hitems
    rw [hsame, List.map_append, List.map_append, hj.items]
    simp [hitem]
  · intro h
    cases pop with
    | writeFront node ans next => exact absurd h hempty
    | retest node ans => simp [Emptying] at h
    | clearBack node ans => exact absurd trivial hempty
    | _ => exact h.elim

theorem Stale.emptying (h : Stale nodes pop) : Emptying nodes pop := by
  cases pop with
  | retest node ans => exact h
  | clearBack node ans => exact h
  | _ => exact h.elim

theorem itemAt_mem {h : Heap α} {a : Addr} {item : α} (ha : itemAt h a = some item) : a ∈ h := by
  rw [← AList.lookup_isSome]
  simpa [itemAt] using congrArg Option.isSome ha

/-- After one access of `steque_enqueue` by the boss: the message is not linked
yet, or it is the last of the list. -/
def Enqueued (pop : WorkerPc α) (boss : BossPc α) (nodes : List Addr) (xs : List α) (g' : Shared α)
    (boss' : BossPc α) : Prop :=
  ∃ nodes' xs', Joint g' boss' pop nodes' xs' ∧ xs' ++ pending boss' = xs ++ pending boss ∧
    nodes'.length + unposted boss = nodes.length + unposted boss'

theorem Joint.malloc {item : α} (hj : Joint g (.malloc item) pop nodes xs)
    (hstep : enqueueStep addr junk g (.malloc item) = some (g', boss')) :
    Enqueued pop (.malloc item) nodes xs g' boss' := by
  simp only [enqueueStep] at hstep
  split at hstep
  · cases hstep
  next hfresh =>
    cases hstep
    have hne : ∀ a ∈ nodes, a ≠ addr := by
      rintro a ha rfl
      exact hfresh (hj.mem_heap ha)
    refine ⟨nodes, xs, ?_, rfl, rfl⟩
    refine hj.keep rfl rfl (fun a ha => by rw [link_insert, if_neg (hne a ha)])
      (fun a ha => by rw [itemAt_insert, if_neg (hne a ha)])
      (fun a ha => (AList.mem_insert _).mpr (.inr ha)) ?_ ?_ (fun _ => id) (by simp)
    · exact ⟨by simp [itemAt_insert], fun h => hne addr h rfl⟩
    · rintro a ha hremoved
      cases ha
      exact hfresh (hj.removed_mem hremoved)

theorem Joint.initNext {item : α} {node : Addr} (hj : Joint g (.initNext item node) pop nodes xs)
    (hstep : enqueueStep addr junk g (.initNext item node) = some (g', boss')) :
    Enqueued pop (.initNext item node) nodes xs g' boss' := by
  obtain ⟨hitem, hnode⟩ := hj.bossOk
  obtain ⟨heap, hset, hlink, hitems, hmem⟩ := setNext_allocated (itemAt_mem hitem) none
  simp only [enqueueStep, hset] at hstep
  cases hstep
  have hne : ∀ a ∈ nodes, a ≠ node := by
    rintro a ha rfl
    exact hnode ha
  refine ⟨nodes, xs, ?_, rfl, rfl⟩
  exact hj.keep rfl rfl (fun a ha => by rw [hlink, if_neg (hne a ha)]) (fun a _ => hitems a)
    (fun a ha => (hmem a).mpr ha) ⟨by rw [hitems, hitem], hnode, by rw [hlink, if_pos rfl]⟩ hj.apart
    (fun _ => id) (by simp)

theorem Joint.testBack {item : α} {node : Addr} (hj : Joint g (.testBack item node) pop nodes xs)
    (hempty : ¬ Emptying nodes pop)
    (hstep : enqueueStep addr junk g (.testBack item node) = some (g', boss')) :
    Enqueued pop (.testBack item node) nodes xs g' boss' := by
  cases hstep
  have hback := hj.back (by simp) (fun h => hempty h.emptying)
  obtain ⟨hitem, hnode, hnext⟩ := hj.bossOk
  refine ⟨nodes, xs, ?_, ?_, ?_⟩
  · by_cases hnone : g.queue.back = none
    · rw [if_pos hnone]
      rw [hback, List.getLast?_eq_none_iff] at hnone
      exact hj.observe rfl rfl rfl ⟨hitem, hnode, hnext, hnone⟩ hj.apart (fun h => absurd h hempty)
        (by simp)
    · rw [if_neg hnone]
      rw [hback, List.getLast?_eq_none_iff] at hnone
      exact hj.observe rfl rfl rfl ⟨hitem, hnode, hnext, hnone⟩ hj.apart (fun h => absurd h hempty)
        (by simp)
  · split <;> rfl
  · split <;> rfl

theorem Joint.linkLast {item : α} {node : Addr} {back : Option Addr}
    (hj : Joint g (.link item node back) pop nodes xs)
    (hstep : enqueueStep addr junk g (.link item node back) = some (g', boss')) :
    Enqueued pop (.link item node back) nodes xs g' boss' := by
  obtain ⟨hitem, hnode, hnext, hne, rfl⟩ := hj.bossOk
  obtain ⟨init, last, rfl⟩ : ∃ init last, nodes = init ++ [last] :=
    ⟨_, _, (List.dropLast_append_getLast hne).symm⟩
  have hlast : last ∈ g.heap := hj.mem_heap (by simp)
  obtain ⟨heap, hset, hlink, hitems, hmem⟩ := setNext_allocated hlast (some node)
  have hnl : node ≠ last := by
    rintro rfl
    exact hnode (by simp)
  simp only [enqueueStep, List.getLast?_concat, Option.bind_some, hset] at hstep
  cases hstep
  refine ⟨_, _, hj.append trivial rfl ?_ hitem hitems (fun b hb => (hmem b).mpr hb), by simp [pending],
    by simp [unposted]⟩
  refine hj.path.extend (fun c _ hc => by rw [hlink, if_neg hc]) (by rw [hlink, if_pos rfl]) ?_
  rw [hlink, if_neg hnl, hnext]

/-- Each access of `steque_enqueue` keeps what the boss and the worker share,
if `back` is not tested while the worker empties the list. -/
theorem enqueueStep_joint (hj : Joint g boss pop nodes xs)
    (hguard : ∀ item node, boss = .testBack item node → ¬ Emptying nodes pop)
    (hstep : enqueueStep addr junk g boss = some (g', boss')) : Enqueued pop boss nodes xs g' boss' := by
  have hok := hj.bossOk
  cases boss with
  | receive | lock | unlock | post | undefined => cases hstep
  | malloc item => exact hj.malloc hstep
  | initNext item node => exact hj.initNext hstep
  | testBack item node => exact hj.testBack (hguard item node rfl) hstep
  | writeFront item node =>
      cases hstep
      obtain ⟨hitem, hnode, hnext, rfl⟩ := hok
      refine ⟨_, _, hj.append trivial rfl (.cons hnext (.nil none)) hitem (fun _ => rfl) (fun _ => id),
        by simp [pending], by simp [unposted]⟩
  | readBack item node =>
      cases hstep
      obtain ⟨hitem, hnode, hnext, hne⟩ := hok
      have hempty : ¬ Emptying nodes pop := fun h => hj.alone h trivial
      have hback := hj.back (by simp) (fun h => hempty h.emptying)
      refine ⟨nodes, xs, ?_, rfl, rfl⟩
      exact hj.observe rfl rfl rfl ⟨hitem, hnode, hnext, hne, hback⟩ hj.apart (fun h => absurd h hempty) (by simp)
  | link item node back => exact hj.linkLast hstep
  | writeBack node =>
      cases hstep
      refine ⟨nodes, xs, ⟨hj.path, hj.items, trivial, hj.workerOk, by simp [unlinked], fun _ => id, ?_⟩,
        rfl, rfl⟩
      exact fun _ _ => hok.symm
  | readN =>
      cases hstep
      exact ⟨nodes, xs, hj.observe rfl rfl rfl trivial hj.apart (fun _ => id) (by simp), rfl, rfl⟩
  | writeN n =>
      cases hstep
      exact ⟨nodes, xs, hj.observe rfl rfl rfl trivial hj.apart (fun _ => id) (by simp), rfl, rfl⟩

/-- What the boss relies on is the list and its own node. -/
theorem BossOk.congr (h : BossOk g nodes boss)
    (hsame : ∀ a, unlinked boss = some a →
      itemAt g'.heap a = itemAt g.heap a ∧ link g'.heap a = link g.heap a) : BossOk g' nodes boss := by
  cases boss with
  | initNext item node => exact ⟨by rw [(hsame node rfl).1, h.1], h.2⟩
  | testBack item node =>
      obtain ⟨hitem, hlink⟩ := hsame node rfl
      exact ⟨by rw [hitem, h.1], h.2.1, by rw [hlink, h.2.2]⟩
  | writeFront item node | readBack item node | link item node back =>
      obtain ⟨hitem, hlink⟩ := hsame node rfl
      exact ⟨by rw [hitem, h.1], h.2.1, by rw [hlink, h.2.2.1], h.2.2.2⟩
  | _ => exact h

theorem BossOk.unlinked_notMem (h : BossOk g nodes boss) {a : Addr} (ha : unlinked boss = some a) :
    a ∉ nodes := by
  cases boss <;> simp only [unlinked, reduceCtorEq, Option.some.injEq] at ha <;> subst ha
  · exact h.2
  · exact h.2.1
  · exact h.2.1
  · exact h.2.1
  · exact h.2.1

/-- The boss does not notice that the first of several nodes is taken. -/
theorem BossOk.tail {node : Addr} {rest : List Addr} (h : BossOk g (node :: rest) boss)
    (hheap : g'.heap = g.heap) (hrest : Linking boss → rest ≠ []) : BossOk g' rest boss := by
  have hlast : rest ≠ [] → (node :: rest).getLast? = rest.getLast? := by
    intro hne
    rw [List.getLast?_cons, List.getLast?_eq_some_getLast hne, Option.getD_some]
  cases boss with
  | initNext item a => exact ⟨by rw [hheap, h.1], fun ha => h.2 (List.mem_cons_of_mem _ ha)⟩
  | testBack item a =>
      exact ⟨by rw [hheap, h.1], fun ha => h.2.1 (List.mem_cons_of_mem _ ha), by rw [hheap, h.2.2]⟩
  | writeFront item a => cases h.2.2.2
  | readBack item a =>
      exact ⟨by rw [hheap, h.1], fun ha => h.2.1 (List.mem_cons_of_mem _ ha), by rw [hheap, h.2.2.1],
        hrest trivial⟩
  | link item a back =>
      exact ⟨by rw [hheap, h.1], fun ha => h.2.1 (List.mem_cons_of_mem _ ha), by rw [hheap, h.2.2.1],
        hrest trivial, by rw [h.2.2.2.2, hlast (hrest trivial)]⟩
  | writeBack a =>
      rw [BossOk, ← hlast (hrest trivial)]
      exact h
  | _ => exact h

theorem Joint.look (hj : Joint g boss pop nodes xs) (hok : WorkerOk g nodes pop')
    (hremoved : ∀ a, removed pop' = some a → removed pop = some a)
    (halone : Emptying nodes pop' → ¬ Linking boss) (hstale : ¬ Stale nodes pop' → ¬ Stale nodes pop) :
    Joint g boss pop' nodes xs where
  path := hj.path
  items := hj.items
  bossOk := hj.bossOk
  workerOk := hok
  apart a ha h := hj.apart a ha (hremoved a h)
  alone := halone
  back hboss h := hj.back hboss (hstale h)

theorem Joint.take {node : Addr} {ans : α} {next : Option Addr}
    (hj : Joint g boss (.writeFront node ans next) nodes xs) :
    ∃ rest ys, nodes = node :: rest ∧ xs = ans :: ys ∧
      Joint { g with queue := { g.queue with front := next } } boss (.retest node ans) rest ys := by
  obtain ⟨hhead, hitem, hnext⟩ := hj.workerOk
  obtain ⟨rest, rfl⟩ : ∃ rest, nodes = node :: rest := List.head?_eq_some_iff.mp hhead
  have hitems := hj.items
  rw [List.map_cons, hitem] at hitems
  obtain ⟨ans', ys, rfl, hans, hys⟩ := List.map_eq_cons_iff.mp hitems.symm
  cases hans
  obtain ⟨_, r, hlink, hpath⟩ := linked_cons_iff.mp hj.path
  rw [List.tail_cons] at hnext
  have halone : rest = [] → ¬ Linking boss := by
    rintro rfl
    exact hj.alone hnext
  refine ⟨rest, ys, rfl, rfl, ?_, hys.symm, ?_, ?_, ?_, halone, ?_⟩
  · rw [hnext, ← linked_end hpath]
    exact hpath
  · exact hj.bossOk.tail rfl (fun hl he => halone he hl)
  · exact ⟨hj.mem_heap List.mem_cons_self, (List.nodup_cons.mp hj.path.nodup).1⟩
  · rintro a ha h
    cases h
    exact hj.bossOk.unlinked_notMem ha List.mem_cons_self
  · intro hboss hstale
    have hback := hj.back hboss id
    rw [List.getLast?_cons, List.getLast?_eq_some_getLast hstale, Option.getD_some] at hback
    rw [List.getLast?_eq_some_getLast hstale]
    exact hback

/-- After one access of `steque_pop` by the worker: a node is still in the list,
or the worker has just taken it. -/
def Popped (boss : BossPc α) (pop : WorkerPc α) (nodes : List Addr) (xs : List α) (g' : Shared α)
    (pop' : WorkerPc α) : Prop :=
  ∃ nodes' xs', Joint g' boss pop' nodes' xs' ∧ taken pop' ++ xs' = taken pop ++ xs ∧
    (nodes'.length = nodes.length ∧ (Taking pop' ↔ Taking pop) ∨
      nodes'.length + 1 = nodes.length ∧ Taking pop ∧ ¬ Taking pop')

theorem Joint.testFront (hj : Joint g boss .testFront nodes xs)
    (hcount : unposted boss < nodes.length)
    (hstep : popStep g .testFront = some (g', pop')) : Popped boss .testFront nodes xs g' pop' := by
  have hfront := linked_end hj.path
  cases hstep
  have hne : nodes ≠ [] := by
    rintro rfl
    exact absurd hcount (by simp)
  have hfront' : g.queue.front ≠ none := by
    rw [hfront, ne_eq, List.head?_eq_none_iff]
    exact hne
  rw [if_neg hfront']
  refine ⟨nodes, xs, ?_, rfl, .inl ⟨rfl, Iff.rfl⟩⟩
  exact hj.look trivial (fun _ => id) False.elim (fun _ => id)

theorem Joint.readNode (hj : Joint g boss .readNode nodes xs)
    (hcount : unposted boss < nodes.length)
    (hstep : popStep g .readNode = some (g', pop')) : Popped boss .readNode nodes xs g' pop' := by
  have hfront := linked_end hj.path
  cases hstep
  have hne : nodes ≠ [] := by
    rintro rfl
    exact absurd hcount (by simp)
  obtain ⟨node, rest, rfl⟩ := List.exists_cons_of_ne_nil hne
  rw [hfront]
  refine ⟨_, xs, ?_, rfl, .inl ⟨rfl, Iff.rfl⟩⟩
  exact hj.look rfl (fun _ => id) False.elim (fun _ => id)

theorem Joint.readItem {node : Addr} (hj : Joint g boss (.readItem node) nodes xs)
    (hstep : popStep g (.readItem node) = some (g', pop')) :
    Popped boss (.readItem node) nodes xs g' pop' := by
  have hok := hj.workerOk
  cases hstep
  obtain ⟨rest, rfl⟩ : ∃ rest, nodes = node :: rest := List.head?_eq_some_iff.mp hok
  obtain ⟨ans, ys, rfl, hans, -⟩ := List.map_eq_cons_iff.mp hj.items.symm
  rw [← hans]
  refine ⟨_, _, ?_, rfl, .inl ⟨rfl, Iff.rfl⟩⟩
  exact hj.look ⟨rfl, hans.symm⟩ (fun _ => id) False.elim (fun _ => id)

theorem Joint.readNext {node : Addr} {ans : α} {front : Option Addr}
    (hj : Joint g boss (.readNext node ans front) nodes xs)
    (hcount : unposted boss < nodes.length)
    (hguard : front.bind (link g.heap) = some none →
      (∀ item a, boss ≠ .readBack item a) ∧ ∀ item a b, boss ≠ .link item a b)
    (hstep : popStep g (.readNext node ans front) = some (g', pop')) :
    Popped boss (.readNext node ans front) nodes xs g' pop' := by
  cases hstep
  obtain ⟨hhead, hitem, rfl⟩ := hj.workerOk
  obtain ⟨rest, rfl⟩ : ∃ rest, nodes = node :: rest := List.head?_eq_some_iff.mp hhead
  obtain ⟨_, r, hlink, hpath⟩ := linked_cons_iff.mp hj.path
  have hr := linked_end hpath
  rw [Option.bind_some, hlink]
  refine ⟨_, xs, ?_, rfl, .inl ⟨rfl, Iff.rfl⟩⟩
  refine hj.look ⟨rfl, hitem, hr⟩ (fun _ => id) ?_ (fun _ => id)
  intro hlast
  -- the node is the only one, so the boss has announced all that it has linked
  obtain rfl : r = none := hlast
  obtain rfl : rest = [] := List.head?_eq_none_iff.mp hr.symm
  obtain ⟨hread, hlinking⟩ := hguard hlink
  have hboss := hj.bossOk
  cases boss with
  | writeFront item a => cases hboss.2.2.2
  | readBack item a => exact absurd rfl (hread item a)
  | link item a b => exact absurd rfl (hlinking item a b)
  | writeBack a => simp [unposted] at hcount
  | _ => exact id

theorem Joint.retest {node : Addr} {ans : α} (hj : Joint g boss (.retest node ans) nodes xs)
    (hstep : popStep g (.retest node ans) = some (g', pop')) :
    Popped boss (.retest node ans) nodes xs g' pop' := by
  have hok := hj.workerOk
  cases hstep
  refine ⟨nodes, xs, ?_, by split <;> rfl, .inl ⟨rfl, by split <;> exact Iff.rfl⟩⟩
  by_cases hnil : nodes = []
  · rw [if_pos (hj.path.empty_iff.mp hnil)]
    exact hj.look ⟨hok.1, hnil⟩ (fun _ => id) (fun _ => hj.alone hnil) (fun h => absurd trivial h)
  · rw [if_neg (fun h => hnil (hj.path.empty_iff.mpr h))]
    exact hj.look hok (fun _ => id) False.elim (fun _ => hnil)

theorem Joint.free {node : Addr} {ans : α} (hj : Joint g boss (.free node ans) nodes xs)
    (hstep : popStep g (.free node ans) = some (g', pop')) :
    Popped boss (.free node ans) nodes xs g' pop' := by
  cases hstep
  obtain ⟨hmem, hnode⟩ := hj.workerOk
  have hne : ∀ a ∈ nodes, a ≠ node := by
    rintro a ha rfl
    exact hnode ha
  refine ⟨nodes, xs, ?_, rfl, .inl ⟨rfl, Iff.rfl⟩⟩
  refine ⟨hj.path.congr (fun a ha => link_erase (hne a ha)), ?_, ?_, trivial, by simp [removed],
    False.elim, fun h _ => hj.back h id⟩
  · rw [← hj.items]
    exact List.map_congr_left (fun a ha => itemAt_erase (hne a ha))
  · refine hj.bossOk.congr (fun a ha => ?_)
    have han : a ≠ node := by
      rintro rfl
      exact hj.apart a ha rfl
    exact ⟨itemAt_erase han, link_erase han⟩

/-- Each access of `steque_pop` keeps what the boss and the worker share, if
the list holds more than the node that the boss has not announced yet, and the
last node is not taken while the boss is linking another one to it. -/
theorem popStep_joint (hj : Joint g boss pop nodes xs)
    (hcount : Taking pop → unposted boss < nodes.length)
    (hguard : ∀ node ans front, pop = .readNext node ans front → front.bind (link g.heap) = some none →
      (∀ item a, boss ≠ .readBack item a) ∧ ∀ item a b, boss ≠ .link item a b)
    (hstep : popStep g pop = some (g', pop')) : Popped boss pop nodes xs g' pop' := by
  have hok := hj.workerOk
  have hfront := linked_end hj.path
  cases pop with
  | wait | lock | unlock | serve | underflow | undefined => cases hstep
  | testFront => exact hj.testFront (hcount trivial) hstep
  | readNode => exact hj.readNode (hcount trivial) hstep
  | readItem node => exact hj.readItem hstep
  | readFront node ans =>
      cases hstep
      refine ⟨nodes, xs, ?_, rfl, .inl ⟨rfl, Iff.rfl⟩⟩
      exact hj.look ⟨hok.1, hok.2, hfront.trans hok.1⟩ (fun _ => id) False.elim (fun _ => id)
  | readNext node ans front => exact hj.readNext (hcount trivial) (hguard node ans front rfl) hstep
  | writeFront node ans next =>
      cases hstep
      obtain ⟨rest, ys, rfl, rfl, htake⟩ := hj.take
      exact ⟨rest, ys, htake, rfl, .inr ⟨rfl, trivial, id⟩⟩
  | retest node ans => exact hj.retest hstep
  | clearBack node ans =>
      cases hstep
      obtain ⟨hmem, rfl⟩ := hok
      refine ⟨[], xs, ?_, rfl, .inl ⟨rfl, Iff.rfl⟩⟩
      refine ⟨hj.path, hj.items, hj.bossOk.congr (fun _ _ => ⟨rfl, rfl⟩), ⟨hmem, by simp⟩, hj.apart, False.elim,
        fun _ _ => rfl⟩
  | free node ans => exact hj.free hstep
  | readN ans =>
      cases hstep
      refine ⟨nodes, xs, ?_, rfl, .inl ⟨rfl, Iff.rfl⟩⟩
      exact hj.look trivial (fun _ => id) False.elim (fun _ => id)
  | writeN ans n =>
      cases hstep
      refine ⟨nodes, xs, ?_, rfl, .inl ⟨rfl, Iff.rfl⟩⟩
      exact ⟨hj.path, hj.items, hj.bossOk.congr (fun _ _ => ⟨rfl, rfl⟩), trivial, hj.apart, False.elim, hj.back⟩

end GraduateOS.Shm.QueueSteps
