import GraduateOS.Library.LinkedLists
import GraduateOS.Library.MachineInts
import Mathlib.Data.List.AList

namespace GraduateOS.Steques.Nodes

open Library.MachineInts

abbrev Addr := Nat

/-- `steque_node_t`; a link is `none` for NULL. -/
structure StequeNode (α : Type) where
  item : α
  next : Option Addr

abbrev Heap (α : Type) := AList (fun _ : Addr => StequeNode α)

structure Steque where
  front : Option Addr
  back : Option Addr
  N : Int

variable {α : Type}

/-- `a->next = p`, which has no meaning when no node lives at `a`. -/
def setNext (h : Heap α) (a : Addr) (p : Option Addr) : Option (Heap α) :=
  (h.lookup a).map fun node => h.insert a { node with next := p }

def link (h : Heap α) (a : Addr) : Option (Option Addr) := (h.lookup a).map StequeNode.next

def itemAt (h : Heap α) (a : Addr) : Option α := (h.lookup a).map StequeNode.item

def init : Steque := ⟨none, none, 0⟩

/-- `steque_enqueue`; `node` is what `malloc` returns. -/
def enqueue (node : Addr) (item : α) (h : Heap α) (this : Steque) : Option (Heap α × Steque) :=
  let h := h.insert node ⟨item, none⟩
  match this.back with
  | none => some (h, ⟨some node, some node, toInt32 (this.N + 1)⟩)
  | some back =>
      (setNext h back (some node)).map fun h =>
        (h, ⟨this.front, some node, toInt32 (this.N + 1)⟩)

def push (node : Addr) (item : α) (h : Heap α) (this : Steque) : Heap α × Steque :=
  (h.insert node ⟨item, this.front⟩,
    ⟨some node, if this.back = none then some node else this.back, toInt32 (this.N + 1)⟩)

def isEmpty (this : Steque) : Bool := this.N = 0

/-- `steque_pop`. An empty front ends the process. -/
def pop (h : Heap α) (this : Steque) : Option ((Heap α × Steque) × α) :=
  this.front.bind fun node =>
    (h.lookup node).map fun n =>
      ((h.erase node,
        ⟨n.next, if n.next = none then none else this.back, toInt32 (this.N - 1)⟩), n.item)

/-- `steque_cycle`. The link of the old back is set first, so with one node
the front links to itself until the last assignment. -/
def cycle (h : Heap α) (this : Steque) : Option (Heap α × Steque) :=
  match this.back with
  | none => some (h, this)
  | some back =>
      (setNext h back this.front).bind fun h =>
        this.front.bind fun front =>
          (link h front).bind fun next =>
            (setNext h front none).map fun h => (h, ⟨next, some front, this.N⟩)

def front (h : Heap α) (this : Steque) : Option α := this.front.bind (itemAt h)

/-- The loop of `steque_destroy`. Each round frees a node, so after as many
rounds as there are nodes another one has nothing to pop. -/
def destroyLoop : Nat → Heap α → Steque → Option (Heap α × Steque)
  | 0, h, this => if isEmpty this then some (h, this) else none
  | n + 1, h, this =>
      if isEmpty this then some (h, this)
      else (pop h this).bind fun r => destroyLoop n r.1.1 r.1.2

def destroy (h : Heap α) (this : Steque) : Option (Heap α × Steque) :=
  destroyLoop h.keys.length h this

theorem link_insert (h : Heap α) (a b : Addr) (n : StequeNode α) :
    link (h.insert a n) b = if b = a then some n.next else link h b := by
  by_cases hb : b = a
  · subst b; simp [link]
  · simp [link, hb]

theorem itemAt_insert (h : Heap α) (a b : Addr) (n : StequeNode α) :
    itemAt (h.insert a n) b = if b = a then some n.item else itemAt h b := by
  by_cases hb : b = a
  · subst b; simp [itemAt]
  · simp [itemAt, hb]

theorem link_erase {h : Heap α} {a b : Addr} (hb : b ≠ a) : link (h.erase a) b = link h b := by
  rw [link, AList.lookup_erase_ne hb, link]

theorem itemAt_erase {h : Heap α} {a b : Addr} (hb : b ≠ a) : itemAt (h.erase a) b = itemAt h b := by
  rw [itemAt, AList.lookup_erase_ne hb, itemAt]

theorem link_ne_none {h : Heap α} {a : Addr} : link h a ≠ none ↔ a ∈ h := by
  simp [link, AList.lookup_eq_none]

theorem setNext_allocated {h : Heap α} {a : Addr} (ha : a ∈ h) (p : Option Addr) :
    ∃ h', setNext h a p = some h' ∧ (∀ b, link h' b = if b = a then some p else link h b) ∧
      (∀ b, itemAt h' b = itemAt h b) ∧ ∀ b, b ∈ h' ↔ b ∈ h := by
  obtain ⟨node, hnode⟩ := Option.isSome_iff_exists.mp (AList.lookup_isSome.mpr ha)
  refine ⟨h.insert a { node with next := p }, by simp [setNext, hnode], ?_, ?_, ?_⟩
  · exact fun b => link_insert h a b _
  · intro b
    rw [itemAt_insert]
    split
    next hb => subst b; simp [itemAt, hnode]
    · rfl
  · intro b
    rw [AList.mem_insert]
    constructor
    · rintro (rfl | hb)
      · exact ha
      · exact hb
    · exact .inr

end GraduateOS.Steques.Nodes
