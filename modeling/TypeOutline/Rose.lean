/-!
# Rose trees

Finite trees with any number of children, in order. They are the views in which an arena of linked
nodes is read: its ids below a node, its attributes, what is printed of it.
-/

namespace TypeOutline

/-- A label and the trees below it. -/
inductive Rose (α : Type) where
  | node (label : α) (children : List (Rose α))
deriving Repr

namespace Rose

variable {α β : Type}

instance [Inhabited α] : Inhabited (Rose α) := ⟨.node default []⟩

def label : Rose α → α
  | node a _ => a

def children : Rose α → List (Rose α)
  | node _ ts => ts

mutual

/-- The labels, each before those below it. -/
def preorder : Rose α → List α
  | node a ts => a :: preorderAll ts

/-- The labels of several trees, one tree after the other. -/
def preorderAll : List (Rose α) → List α
  | [] => []
  | t :: ts => t.preorder ++ preorderAll ts

end

mutual

def map (f : α → β) : Rose α → Rose β
  | node a ts => node (f a) (mapAll f ts)

def mapAll (f : α → β) : List (Rose α) → List (Rose β)
  | [] => []
  | t :: ts => t.map f :: mapAll f ts

end

mutual

/-- The tree with the children of each node in the order of `le` on their labels; children that `le`
does not tell apart keep their order. -/
def sortBy (le : α → α → Bool) : Rose α → Rose α
  | node a ts => node a ((sortByAll le ts).mergeSort fun x y => le x.label y.label)

def sortByAll (le : α → α → Bool) : List (Rose α) → List (Rose α)
  | [] => []
  | t :: ts => t.sortBy le :: sortByAll le ts

end

def size (t : Rose α) : Nat := t.preorder.length

/-! ## The labels of a changed tree -/

mutual

theorem preorder_map (f : α → β) : (t : Rose α) → (t.map f).preorder = t.preorder.map f
  | node a ts => by rw [map, preorder, preorder, List.map_cons, preorderAll_mapAll f ts]

theorem preorderAll_mapAll (f : α → β) :
    (ts : List (Rose α)) → preorderAll (mapAll f ts) = (preorderAll ts).map f
  | [] => rfl
  | t :: ts => by
    rw [mapAll, preorderAll, preorderAll, List.map_append, preorder_map f t,
      preorderAll_mapAll f ts]

end

end Rose

end TypeOutline
