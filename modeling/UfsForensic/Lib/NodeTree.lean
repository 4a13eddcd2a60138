import Mathlib.Data.List.Basic
import Mathlib.Logic.Relation

/-!
# Trees of named nodes

A filesystem as its users see it: nodes known by an identity, directories that name other nodes, and
paths, which are sequences of names. How a node is stored is left open.
-/

namespace UfsForensic

/-- What a node is: a file, a directory with its entries in order, a symbolic link, or something
without content. -/
inductive Node (ι ν β : Type*)
  | file (content : List β)
  | dir (entries : List (ν × ι))
  | link (target : List β)
  | special

/-- The nodes there are, and the one that paths start from. -/
structure NodeTree (ι ν β : Type*) where
  root : ι
  node : ι → Option (Node ι ν β)

namespace NodeTree

variable {ι ν β : Type*} (t : NodeTree ι ν β)

def entries (i : ι) : List (ν × ι) :=
  match t.node i with
  | some (.dir es) => es
  | _ => []

/-- The node is a directory. -/
def IsDir (i : ι) : Prop :=
  match t.node i with
  | some (.dir _) => True
  | _ => False

instance (i : ι) : Decidable (t.IsDir i) := by
  unfold IsDir
  split <;> infer_instance

/-- The root is there, and so is every node that an entry names. -/
structure Closed : Prop where
  root : (t.node t.root).isSome = true
  entry : ∀ i, ∀ e ∈ t.entries i, (t.node e.2).isSome = true

/-- The directories met from the root when names in `skip` are not followed. -/
inductive Below (skip : ν → Prop) : ι → Prop
  | root : Below skip t.root
  | step {i j : ι} {name : ν} (hi : Below skip i) (hmem : (name, j) ∈ t.entries i)
      (hname : ¬ skip name) (hj : t.IsDir j) : Below skip j

/-- One of these directories names the node by a name that is followed. -/
def IsNamed (skip : ν → Prop) (j : ι) : Prop :=
  ∃ i name, t.Below skip i ∧ (name, j) ∈ t.entries i ∧ ¬ skip name

variable {t}

theorem entries_of_node {i : ι} {es : List (ν × ι)} (h : t.node i = some (.dir es)) :
    t.entries i = es := by
  rw [entries, h]

theorem IsDir.exists_node {i : ι} (h : t.IsDir i) : ∃ es, t.node i = some (.dir es) := by
  unfold IsDir at h
  split at h
  · next es hes => exact ⟨es, hes⟩
  · exact h.elim

theorem Below.isDir {skip : ν → Prop} {i : ι} (h : t.Below skip i) (hroot : t.IsDir t.root) :
    t.IsDir i := by
  cases h with
  | root => exact hroot
  | step _ _ _ hj => exact hj

section Paths

variable [BEq ν]

def child (t : NodeTree ι ν β) (i : ι) (name : ν) : Option ι :=
  ((t.entries i).find? fun e => e.1 == name).map Prod.snd

/-- The node that a path leads to from `i`. -/
def resolve (t : NodeTree ι ν β) : ι → List ν → Option ι
  | i, [] => some i
  | i, name :: names => (t.child i name).bind fun j => resolve t j names

theorem mem_entries_of_child {i j : ι} {name : ν} (h : t.child i name = some j) :
    ∃ n, (n, j) ∈ t.entries i := by
  obtain ⟨⟨n, k⟩, hfind, rfl⟩ := Option.map_eq_some_iff.mp h
  exact ⟨n, List.mem_of_find?_eq_some hfind⟩

end Paths

end NodeTree
end UfsForensic
