import GraduateOS.Steques.Nodes

namespace GraduateOS.Steques.Lists

open Nodes Library.LinkedLists Library.MachineInts

inductive Op (α : Type)
  | enqueue (item : α)
  | push (item : α)
  | pop
  | cycle
  | front
  | size
  | isEmpty
  | destroy

/-- What an operation returns; `steque_size` and `steque_isempty` return an `int`. -/
inductive Result (α : Type)
  | void
  | item (x : α)
  | int (n : Int)

variable {α : Type}

/-- The `k`-th operation; `malloc` may answer by the heap and by all that has happened before. -/
def perform (malloc : Nat → Heap α → Addr) (k : Nat) (s : Heap α × Steque) :
    Op α → Option ((Heap α × Steque) × Result α)
  | .enqueue item => (enqueue (malloc k s.1) item s.1 s.2).map (·, .void)
  | .push item => some (push (malloc k s.1) item s.1 s.2, .void)
  | .pop => (pop s.1 s.2).map fun r => (r.1, .item r.2)
  | .cycle => (cycle s.1 s.2).map (·, .void)
  | .front => (front s.1 s.2).map fun x => (s, .item x)
  | .size => some (s, .int s.2.N)
  | .isEmpty => some (s, .int (if isEmpty s.2 then 1 else 0))
  | .destroy => (destroy s.1 s.2).map (·, .void)

def exec (malloc : Nat → Heap α → Addr) :
    Nat → Heap α × Steque → List (Op α) → Option ((Heap α × Steque) × List (Result α))
  | _, s, [] => some (s, [])
  | k, s, op :: ops =>
      (perform malloc k s op).bind fun r =>
        (exec malloc (k + 1) r.1 ops).map fun t => (t.1, r.2 :: t.2)

def listOp (xs : List α) : Op α → List α × Result α
  | .enqueue item => (xs ++ [item], .void)
  | .push item => (item :: xs, .void)
  | .pop => (xs.tail, xs.head?.elim .void .item)
  | .cycle => (xs.tail ++ xs.head?.toList, .void)
  | .front => (xs, xs.head?.elim .void .item)
  | .size => (xs, .int xs.length)
  | .isEmpty => (xs, .int (if xs = [] then 1 else 0))
  | .destroy => ([], .void)

def listExec : List α → List (Op α) → List α × List (Result α)
  | xs, [] => (xs, [])
  | xs, op :: ops =>
      let r := listOp xs op
      let rest := listExec r.1 ops
      (rest.1, r.2 :: rest.2)

def Allowed (xs : List α) : Op α → Prop
  | .enqueue _ | .push _ => xs.length + 1 < 2 ^ 31
  | .pop | .front => xs ≠ []
  | _ => True

def Legal : List α → List (Op α) → Prop
  | _, [] => True
  | xs, op :: ops => Allowed xs op ∧ Legal (listOp xs op).1 ops

structure Represents (h : Heap α) (this : Steque) (nodes : List Addr) (xs : List α) : Prop where
  path : Linked (link h) this.front nodes none
  items : nodes.map (itemAt h) = xs.map some
  back : this.back = nodes.getLast?
  N : this.N = xs.length
  fits : xs.length < 2 ^ 31
  allocated : ∀ a, a ∈ h ↔ a ∈ nodes

variable {h : Heap α} {this : Steque} {nodes : List Addr} {xs : List α} {node : Addr} {x : α}

theorem init_represents : Represents (∅ : Heap α) init [] [] where
  path := .nil none
  items := rfl
  back := rfl
  N := rfl
  fits := by simp
  allocated a := by simp [AList.notMem_empty]

theorem Represents.length (hrep : Represents h this nodes xs) : nodes.length = xs.length := by
  simpa using congrArg List.length hrep.items

theorem Represents.empty_iff (hrep : Represents h this nodes xs) : xs = [] ↔ nodes = [] := by
  rw [← List.length_eq_zero_iff, ← List.length_eq_zero_iff, hrep.length]

theorem Represents.isEmpty_iff (hrep : Represents h this nodes xs) : isEmpty this ↔ xs = [] := by
  rw [isEmpty, hrep.N, decide_eq_true_eq, Int.natCast_eq_zero, List.length_eq_zero_iff]

theorem Represents.front_iff (hrep : Represents h this nodes xs) : isEmpty this ↔ this.front = none := by
  rw [hrep.isEmpty_iff, hrep.empty_iff, hrep.path.empty_iff]

theorem insert_represents (hrep : Represents h this nodes xs) (hfresh : node ∉ h) (n : StequeNode α) :
    Linked (link (h.insert node n)) this.front nodes none ∧
      nodes.map (itemAt (h.insert node n)) = xs.map some := by
  have hne : ∀ a ∈ nodes, a ≠ node := by
    rintro a ha rfl
    exact hfresh ((hrep.allocated a).mpr ha)
  refine ⟨hrep.path.congr (fun a ha => by rw [link_insert, if_neg (hne a ha)]), ?_⟩
  rw [← hrep.items]
  exact List.map_congr_left (fun a ha => by rw [itemAt_insert, if_neg (hne a ha)])

theorem enqueue_represents (hrep : Represents h this nodes xs) (hfresh : node ∉ h)
    (hsize : xs.length + 1 < 2 ^ 31) :
    ∃ h' this', enqueue node x h this = some (h', this') ∧
      Represents h' this' (nodes ++ [node]) (xs ++ [x]) := by
  have hN : toInt32 (this.N + 1) = (xs ++ [x]).length := by
    rw [hrep.N, toInt32_eq (by omega) (by omega)]
    simp
  obtain ⟨hpath, hitems⟩ := insert_represents hrep hfresh ⟨x, none⟩
  rcases List.eq_nil_or_concat nodes with rfl | ⟨init, last, rfl⟩
  · have hxs : xs = [] := hrep.empty_iff.mpr rfl
    subst hxs
    have hback : this.back = none := hrep.back
    refine ⟨_, _, by rw [enqueue, hback], ?_, ?_, rfl, hN, by simp, ?_⟩
    · exact .cons (by simp [link_insert]) (.nil none)
    · simp [itemAt_insert]
    · intro a
      simp [AList.mem_insert, hrep.allocated]
  · rw [List.concat_eq_append] at *
    have hback : this.back = some last := by rw [hrep.back, List.getLast?_concat]
    have hlast : last ∈ h := (hrep.allocated last).mpr (by simp)
    have hne : last ≠ node := by
      rintro rfl
      exact hfresh hlast
    obtain ⟨h', hset, hlink, hitem, hmem⟩ := setNext_allocated (h := h.insert node ⟨x, none⟩)
      ((AList.mem_insert _).mpr (.inr hlast)) (some node)
    refine ⟨h', ⟨this.front, some node, toInt32 (this.N + 1)⟩, by simp [enqueue, hback, hset], ?_, ?_, ?_,
      hN, by simpa using hsize, ?_⟩
    · refine hpath.extend (fun c _ hc => by rw [hlink, if_neg hc]) (by simp [hlink]) ?_
      rw [hlink, if_neg hne.symm, link_insert, if_pos rfl]
    · have hold : itemAt h' = itemAt (h.insert node ⟨x, none⟩) := funext hitem
      rw [hold, List.map_append, hitems]
      simp [itemAt_insert]
    · simp
    · intro a
      rw [hmem, AList.mem_insert, hrep.allocated, List.mem_append (t := [node]), List.mem_singleton]
      exact or_comm

theorem push_represents (hrep : Represents h this nodes xs) (hfresh : node ∉ h)
    (hsize : xs.length + 1 < 2 ^ 31) :
    Represents (push node x h this).1 (push node x h this).2 (node :: nodes) (x :: xs) := by
  obtain ⟨hpath, hitems⟩ := insert_represents hrep hfresh ⟨x, this.front⟩
  refine ⟨.cons (by simp [push, link_insert]) hpath, ?_, ?_, ?_, hsize, ?_⟩
  · rw [List.map_cons, List.map_cons, ← hitems]
    simp [push, itemAt_insert]
  · rw [push, hrep.back]
    cases nodes <;> simp
  · rw [push, hrep.N, toInt32_eq (by omega) (by omega)]
    simp
  · intro a
    rw [push, AList.mem_insert, hrep.allocated, List.mem_cons]

theorem pop_represents (hrep : Represents h this nodes (x :: xs)) :
    ∃ h' this' nodes', pop h this = some ((h', this'), x) ∧ Represents h' this' nodes' xs := by
  cases nodes with
  | nil => simpa using hrep.length
  | cons node nodes =>
      obtain ⟨hfront, next, hnext, hrest⟩ := linked_cons_iff.mp hrep.path
      obtain ⟨n, hn, rfl⟩ := Option.map_eq_some_iff.mp hnext
      have hnodup := List.nodup_cons.mp hrep.path.nodup
      have hne : ∀ a ∈ nodes, a ≠ node := by
        rintro a ha rfl
        exact hnodup.1 ha
      have hitems := hrep.items
      simp only [List.map_cons, List.cons.injEq, itemAt, hn, Option.map_some, Option.some.injEq] at hitems
      have hfits := hrep.fits
      simp only [List.length_cons] at hfits
      refine ⟨_, _, nodes, by rw [pop, hfront, Option.bind_some, hn, Option.map_some, hitems.1], ?_, ?_, ?_,
        ?_, by omega, ?_⟩
      · exact hrest.congr (fun a ha => link_erase (hne a ha))
      · rw [← hitems.2]
        exact List.map_congr_left (fun a ha => itemAt_erase (hne a ha))
      · rw [hrep.back, linked_end hrest]
        cases nodes <;> simp
      · have hN := hrep.N
        simp only [List.length_cons] at hN
        rw [toInt32_eq (by omega) (by omega)]
        show this.N - 1 = xs.length
        omega
      · intro a
        rw [AList.mem_erase, hrep.allocated, List.mem_cons]
        constructor
        · rintro ⟨hna, ha⟩
          exact ha.resolve_left hna
        · exact fun ha => ⟨hne a ha, .inr ha⟩

/-- The front moves to the back, also when it is the only node. -/
theorem cycle_represents (hrep : Represents h this nodes xs) :
    ∃ h' this', cycle h this = some (h', this') ∧
      Represents h' this' (nodes.tail ++ nodes.head?.toList) (xs.tail ++ xs.head?.toList) := by
  cases nodes with
  | nil =>
      have hxs : xs = [] := hrep.empty_iff.mpr rfl
      subst hxs
      exact ⟨h, this, by rw [cycle, hrep.back]; rfl, hrep⟩
  | cons first rest =>
      obtain ⟨hfront, next, hnext, hrest⟩ := linked_cons_iff.mp hrep.path
      obtain ⟨x, xs', rfl⟩ := List.exists_cons_of_ne_nil (mt hrep.empty_iff.mp (List.cons_ne_nil first rest))
      have hitems := hrep.items
      rw [List.map_cons, List.map_cons, List.cons.injEq] at hitems
      have hfirst : first ∈ h := (hrep.allocated first).mpr List.mem_cons_self
      have hnodup := List.nodup_cons.mp hrep.path.nodup
      obtain ⟨back, hback, hmem⟩ : ∃ back, this.back = some back ∧ back ∈ h := by
        refine ⟨(first :: rest).getLast (List.cons_ne_nil _ _), ?_, ?_⟩
        · rw [hrep.back, List.getLast?_eq_getLast_of_ne_nil (List.cons_ne_nil first rest)]
        · exact (hrep.allocated _).mpr (List.getLast_mem _)
      obtain ⟨h₁, hset₁, hlink₁, hitem₁, hmem₁⟩ := setNext_allocated hmem (some first)
      obtain ⟨h₂, hset₂, hlink₂, hitem₂, hmem₂⟩ :=
        setNext_allocated (h := h₁) ((hmem₁ first).mpr hfirst) none
      have hnext₁ : link h₁ first = some (if first = back then some first else next) := by
        rw [hlink₁, hnext]
        split <;> rfl
      have hitem : itemAt h₂ = itemAt h := by
        funext a
        rw [hitem₂, hitem₁]
      refine ⟨h₂, ⟨if first = back then some first else next, some first, this.N⟩,
        by simp [cycle, hback, hset₁, hfront, hnext₁, hset₂], ?_, ?_, ?_, ?_, ?_, ?_⟩
      · refine hrest.rotate hnodup.1 (hrep.back.symm.trans hback) ?_ ?_ (by rw [hlink₂, if_pos rfl])
        · intro c hc hcb
          have hcf : c ≠ first := by
            rintro rfl
            exact hnodup.1 hc
          rw [hlink₂, if_neg hcf, hlink₁, if_neg hcb]
        · intro hne
          rw [hlink₂, if_neg hne.symm, hlink₁, if_pos rfl]
      · rw [hitem]
        simp [hitems.1, hitems.2]
      · simp
      · simpa using hrep.N
      · simpa using hrep.fits
      · intro a
        rw [hmem₂, hmem₁, hrep.allocated]
        simp [or_comm]

theorem destroyLoop_represents (n : Nat) (hn : nodes.length ≤ n) (hrep : Represents h this nodes xs) :
    ∃ h' this', destroyLoop n h this = some (h', this') ∧ Represents h' this' [] [] := by
  induction n generalizing h this nodes xs with
  | zero =>
      have hnodes := List.length_eq_zero_iff.mp (Nat.le_zero.mp hn)
      have hxs := hrep.empty_iff.mpr hnodes
      subst hnodes hxs
      exact ⟨h, this, by rw [destroyLoop, if_pos (hrep.isEmpty_iff.mpr rfl)], hrep⟩
  | succ n ih =>
      cases xs with
      | nil =>
          have hnodes := hrep.empty_iff.mp rfl
          subst hnodes
          exact ⟨h, this, by rw [destroyLoop, if_pos (hrep.isEmpty_iff.mpr rfl)], hrep⟩
      | cons x xs =>
          obtain ⟨h', this', nodes', hpop, hrep'⟩ := pop_represents hrep
          have hlen := hrep.length
          have hlen' := hrep'.length
          rw [List.length_cons] at hlen
          obtain ⟨h'', this'', hloop, hend⟩ := ih (by omega) hrep'
          refine ⟨h'', this'', ?_, hend⟩
          rw [destroyLoop, if_neg (by simp [hrep.isEmpty_iff]), hpop, Option.bind_some, hloop]

theorem destroy_represents (hrep : Represents h this nodes xs) :
    ∃ h' this', destroy h this = some (h', this') ∧ Represents h' this' [] [] := by
  refine destroyLoop_represents _ ?_ hrep
  refine (List.subperm_of_subset hrep.path.nodup ?_).length_le
  exact fun a ha => AList.mem_keys.mpr ((hrep.allocated a).mpr ha)

theorem front_represents (hrep : Represents h this nodes (x :: xs)) : front h this = some x := by
  cases nodes with
  | nil => simpa using hrep.length
  | cons node nodes =>
      have hitems := hrep.items
      rw [List.map_cons, List.map_cons, List.cons.injEq] at hitems
      rw [front, (linked_cons_iff.mp hrep.path).1, Option.bind_some, hitems.1]

/-- Each operation does to the nodes what it does to the list, and returns the same. -/
theorem perform_represents {malloc : Nat → Heap α → Addr} (hfresh : ∀ k h, malloc k h ∉ h) (k : Nat)
    (hrep : Represents h this nodes xs) {op : Op α} (hallowed : Allowed xs op) :
    ∃ h' this' nodes', perform malloc k (h, this) op = some ((h', this'), (listOp xs op).2) ∧
      Represents h' this' nodes' (listOp xs op).1 := by
  cases op with
  | enqueue item =>
      obtain ⟨h', this', heq, hrep'⟩ := enqueue_represents (x := item) hrep (hfresh k h) hallowed
      exact ⟨h', this', _, by simp [perform, heq, listOp], hrep'⟩
  | push item => exact ⟨_, _, _, rfl, push_represents hrep (hfresh k h) hallowed⟩
  | pop =>
      obtain ⟨x, xs', rfl⟩ := List.exists_cons_of_ne_nil hallowed
      obtain ⟨h', this', nodes', heq, hrep'⟩ := pop_represents hrep
      exact ⟨h', this', nodes', by simp [perform, heq, listOp], hrep'⟩
  | cycle =>
      obtain ⟨h', this', heq, hrep'⟩ := cycle_represents hrep
      exact ⟨h', this', _, by simp [perform, heq, listOp], hrep'⟩
  | front =>
      obtain ⟨x, xs', rfl⟩ := List.exists_cons_of_ne_nil hallowed
      exact ⟨h, this, nodes, by simp [perform, front_represents hrep, listOp], hrep⟩
  | size => exact ⟨h, this, nodes, by simp [perform, hrep.N, listOp], hrep⟩
  | isEmpty => exact ⟨h, this, nodes, by simp [perform, hrep.isEmpty_iff, listOp], hrep⟩
  | destroy =>
      obtain ⟨h', this', heq, hrep'⟩ := destroy_represents hrep
      exact ⟨h', this', [], by simp [perform, heq, listOp], hrep'⟩

theorem exec_represents {malloc : Nat → Heap α → Addr} (hfresh : ∀ k h, malloc k h ∉ h)
    (ops : List (Op α)) (k : Nat) (hrep : Represents h this nodes xs) (hlegal : Legal xs ops) :
    ∃ h' this' nodes', exec malloc k (h, this) ops = some ((h', this'), (listExec xs ops).2) ∧
      Represents h' this' nodes' (listExec xs ops).1 := by
  induction ops generalizing k h this nodes xs with
  | nil => exact ⟨h, this, nodes, rfl, hrep⟩
  | cons op ops ih =>
      obtain ⟨h₁, this₁, nodes₁, hperform, hrep₁⟩ := perform_represents hfresh k hrep hlegal.1
      obtain ⟨h₂, this₂, nodes₂, hexec, hrep₂⟩ := ih (k + 1) hrep₁ hlegal.2
      exact ⟨h₂, this₂, nodes₂, by simp [exec, hperform, hexec, listExec], hrep₂⟩

/-- After any legal sequence of operations the nodes from the front are the
list, and every operation has returned what it returns on the list. -/
theorem exec_refines {malloc : Nat → Heap α → Addr} (hfresh : ∀ k h, malloc k h ∉ h)
    (ops : List (Op α)) (hlegal : Legal [] ops) :
    ∃ h this nodes, exec malloc 0 (∅, init) ops = some ((h, this), (listExec [] ops).2) ∧
      Linked (link h) this.front nodes none ∧ nodes.Nodup ∧ this.N = nodes.length ∧
      this.back = nodes.getLast? ∧ nodes.map (itemAt h) = (listExec [] ops).1.map some ∧
      (isEmpty this ↔ this.front = none) := by
  obtain ⟨h, this, nodes, hexec, hrep⟩ := exec_represents hfresh ops 0 init_represents hlegal
  refine ⟨h, this, nodes, hexec, hrep.path, hrep.path.nodup, ?_, hrep.back, hrep.items, hrep.front_iff⟩
  rw [hrep.N, hrep.length]

def someMalloc (_ : Nat) (h : Heap α) : Addr := h.keys.max?.getD 0 + 1

theorem someMalloc_fresh (k : Nat) (h : Heap α) : someMalloc k h ∉ h := by
  intro hmem
  have hle := List.le_max?_getD_of_mem (k := 0) (AList.mem_keys.mp hmem)
  rw [someMalloc] at hle
  omega

theorem cycle_one_refines : ∃ h this nodes,
    exec someMalloc 0 (∅, init) [.enqueue 'a', .cycle, .pop] = some ((h, this), [.void, .void, .item 'a']) ∧
      Linked (link h) this.front nodes none ∧ nodes.Nodup ∧ this.N = nodes.length ∧
      this.back = nodes.getLast? ∧ nodes.map (itemAt h) = ([] : List Char).map some ∧
      (isEmpty this ↔ this.front = none) :=
  exec_refines someMalloc_fresh [.enqueue 'a', .cycle, .pop]
    ⟨by simp [Allowed], trivial, List.cons_ne_nil 'a' [], trivial⟩

end GraduateOS.Steques.Lists
