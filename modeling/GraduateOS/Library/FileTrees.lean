import Mathlib.Data.List.Basic
import Mathlib.Logic.Function.Basic

namespace GraduateOS.Library.FileTrees

abbrev Name := List UInt8

/-- A path below the root, by the names on it. There are no links, and no names `.` and `..`. -/
abbrev Path := List Name

inductive Node
  | dir
  | file (content : List UInt8)
  deriving DecidableEq

structure Tree where
  node : Path → Option Node
  root : node [] = some .dir
  closed : ∀ p name, node (p ++ [name]) ≠ none → node p = some .dir

variable {t t' : Tree} {p q : Path} {bytes : List UInt8}

theorem Tree.parent (t : Tree) (hp : p ≠ []) (h : t.node p ≠ none) : t.node p.dropLast = some .dir := by
  apply t.closed p.dropLast (p.getLast hp)
  rwa [List.dropLast_append_getLast]

theorem append_ne_self (p : Path) (name : Name) : p ≠ p ++ [name] := by
  intro h
  have hlength := congrArg List.length h
  rw [List.length_append] at hlength
  exact absurd hlength (Nat.ne_of_lt (Nat.lt_succ_self _))

def Tree.set (t : Tree) (p : Path) (n : Node) (hp : p ≠ []) (hparent : t.node p.dropLast = some .dir)
    (hplace : t.node p ≠ some .dir) : Tree where
  node := Function.update t.node p (some n)
  root := by rw [Function.update_of_ne (Ne.symm hp), t.root]
  closed := by
    intro q name hq
    by_cases hqp : q = p
    · subst q
      rw [Function.update_of_ne (append_ne_self p name).symm] at hq
      exact absurd (t.closed p name hq) hplace
    · rw [Function.update_of_ne hqp]
      by_cases hchild : q ++ [name] = p
      · rw [← hchild, List.dropLast_concat] at hparent
        exact hparent
      · rw [Function.update_of_ne hchild] at hq
        exact t.closed q name hq

/-- `mkdir`, where an error other than `EEXIST` gives no tree. -/
def Tree.mkdir (t : Tree) (p : Path) : Option Tree :=
  if h : p ≠ [] ∧ t.node p = none then
    if hparent : t.node p.dropLast = some .dir then
      some (t.set p .dir h.1 hparent (by rw [h.2]; exact nofun))
    else none
  else some t

def Tree.mkdirs : Path → List Name → Tree → Option Tree
  | _, [], t => some t
  | p, name :: names, t => (t.mkdir (p ++ [name])).bind (mkdirs (p ++ [name]) names)

def Tree.create (t : Tree) (p : Path) : Option Tree :=
  if h : p ≠ [] ∧ t.node p.dropLast = some .dir ∧ t.node p ≠ some .dir then
    some (t.set p (.file []) h.1 h.2.1 h.2.2)
  else none

def Tree.append (t : Tree) (p : Path) (bytes : List UInt8) : Tree :=
  match h : t.node p with
  | some (.file content) =>
      have hp : p ≠ [] := by rintro rfl; rw [t.root] at h; cases h
      t.set p (.file (content ++ bytes)) hp (t.parent hp (by rw [h]; exact nofun)) (by rw [h]; exact nofun)
  | _ => t

/-- `unlink`, which leaves directories. -/
def Tree.unlink (t : Tree) (p : Path) : Tree :=
  match h : t.node p with
  | some (.file _) =>
      { node := Function.update t.node p none
        root := by
          have hp : [] ≠ p := by rintro rfl; rw [t.root] at h; cases h
          rw [Function.update_of_ne hp, t.root]
        closed := by
          intro q name hq
          by_cases hchild : q ++ [name] = p
          · rw [hchild, Function.update_self] at hq
            exact absurd rfl hq
          · rw [Function.update_of_ne hchild] at hq
            have hparent := t.closed q name hq
            rw [Function.update_of_ne, hparent]
            rintro rfl
            rw [h] at hparent
            cases hparent }
  | _ => t

@[simp] theorem set_node (n : Node) (hp : p ≠ []) (hparent : t.node p.dropLast = some .dir)
    (hplace : t.node p ≠ some .dir) :
    (t.set p n hp hparent hplace).node = Function.update t.node p (some n) := rfl

/-- A directory is there afterwards, and nothing else is new. -/
theorem mkdir_node (h : t.mkdir p = some t') :
    t'.node p ≠ none ∧ ∀ q, t'.node q = t.node q ∨ q = p ∧ t.node q = none ∧ t'.node q = some .dir := by
  rw [Tree.mkdir] at h
  split at h
  next hnew =>
    split at h
    next hparent =>
      cases h
      rw [set_node]
      refine ⟨by rw [Function.update_self]; exact nofun, fun q => ?_⟩
      by_cases hq : q = p
      · subst q
        exact .inr ⟨rfl, hnew.2, Function.update_self ..⟩
      · exact .inl (Function.update_of_ne hq ..)
    next => cases h
  next hold =>
    cases h
    refine ⟨fun hnone => ?_, fun q => .inl rfl⟩
    by_cases hp : p = []
    · rw [hp, t.root] at hnone
      cases hnone
    · exact hold ⟨hp, hnone⟩

theorem mkdir_some (hparent : t.node p.dropLast = some .dir) : ∃ t', t.mkdir p = some t' := by
  rw [Tree.mkdir]
  split
  · exact ⟨_, rfl⟩
  · exact ⟨t, rfl⟩

theorem mkdirs_node {names : List Name} (h : t.mkdirs p names = some t') (q : Path) :
    t'.node q = t.node q ∨ q <+: p ++ names ∧ t.node q = none ∧ t'.node q = some .dir := by
  induction names generalizing p t with
  | nil =>
      cases h
      exact .inl rfl
  | cons name names ih =>
      rw [Tree.mkdirs, Option.bind_eq_some_iff] at h
      obtain ⟨t₁, hfirst, hrest⟩ := h
      have hpre : p ++ [name] <+: p ++ name :: names := ⟨names, List.append_assoc p [name] names⟩
      rcases (mkdir_node hfirst).2 q with hsame | ⟨rfl, hnone, hdir⟩
      · rcases ih hrest with h | ⟨hq, hnone, hdir⟩
        · exact .inl (h.trans hsame)
        · rw [List.append_cons]
          exact .inr ⟨hq, hsame ▸ hnone, hdir⟩
      · rcases ih hrest with h | ⟨-, hnone', -⟩
        · exact .inr ⟨hpre, hnone, h.trans hdir⟩
        · rw [hdir] at hnone'
          cases hnone'

theorem mkdirs_some {names : List Name} (hp : t.node p = some .dir)
    (hfree : ∀ q, q <+: p ++ names → t.node q = none ∨ t.node q = some .dir) :
    ∃ t', t.mkdirs p names = some t' ∧ t'.node (p ++ names) = some .dir := by
  induction names generalizing p t with
  | nil => exact ⟨t, rfl, by rwa [List.append_nil]⟩
  | cons name names ih =>
      obtain ⟨t₁, hfirst⟩ : ∃ t₁, t.mkdir (p ++ [name]) = some t₁ :=
        mkdir_some (by rwa [List.dropLast_concat])
      obtain ⟨hthere, hothers⟩ := mkdir_node hfirst
      rw [List.append_cons] at hfree ⊢
      have hfree₁ : ∀ q, q <+: p ++ [name] ++ names → t₁.node q = none ∨ t₁.node q = some .dir := by
        intro q hq
        rcases hothers q with hsame | ⟨-, -, hdir⟩
        · rw [hsame]
          exact hfree q hq
        · exact .inr hdir
      have hdir := (hfree₁ (p ++ [name]) (List.prefix_append _ names)).resolve_left hthere
      obtain ⟨t', hrest, hlast⟩ := ih hdir hfree₁
      exact ⟨t', by rw [Tree.mkdirs, hfirst, Option.bind_some, hrest], hlast⟩

theorem create_node (h : t.create p = some t') : t'.node = Function.update t.node p (some (.file [])) := by
  rw [Tree.create] at h
  split at h
  · cases h
    exact set_node ..
  · cases h

theorem create_some (hp : p ≠ []) (hparent : t.node p.dropLast = some .dir) (hplace : t.node p ≠ some .dir) :
    ∃ t', t.create p = some t' := by
  rw [Tree.create, dif_pos ⟨hp, hparent, hplace⟩]
  exact ⟨_, rfl⟩

theorem append_node {content : List UInt8} (h : t.node p = some (.file content)) (bytes : List UInt8) :
    (t.append p bytes).node = Function.update t.node p (some (.file (content ++ bytes))) := by
  rw [Tree.append]
  split
  next content' hnode =>
    rw [h, Option.some_inj] at hnode
    cases hnode
    rfl
  next hother => exact absurd h (hother content)

theorem unlink_file {content : List UInt8} (h : t.node p = some (.file content)) :
    (t.unlink p).node = Function.update t.node p none := by
  rw [Tree.unlink]
  split
  · rfl
  next hother => exact absurd h (hother content)

theorem unlink_missing (h : t.node p = none) : t.unlink p = t := by
  rw [Tree.unlink]
  split
  next hnode =>
    rw [h] at hnode
    cases hnode
  · rfl

end GraduateOS.Library.FileTrees
