/-!
# Forests

A `Forest` is a list of labelled trees, given by its first tree and the trees after it.  Both the
markup of a document and the nodes below a node of it are forests, and everything that walks over
them recurses on `inner` and on `next`.
-/

namespace SamlSeal.Xml

/-- A list of trees with labels. -/
inductive Forest (α : Type) where
  | nil
  /-- A first tree, with a label and what is inside it, and the trees that come next. -/
  | node (label : α) (inner next : Forest α)
  deriving DecidableEq, Repr

namespace Forest

variable {α β : Type}

/-- The trees of one forest, then those of another. -/
def append : Forest α → Forest α → Forest α
  | nil, f => f
  | node a inner next, f => node a inner (next.append f)

instance : Append (Forest α) := ⟨append⟩

@[simp] theorem nil_append (f : Forest α) : nil ++ f = f := rfl

@[simp] theorem node_append (a : α) (inner next f : Forest α) :
    node a inner next ++ f = node a inner (next ++ f) := rfl

@[simp] theorem append_nil (f : Forest α) : f ++ nil = f := by
  induction f with
  | nil => rfl
  | node a inner next _ ih => rw [node_append, ih]

theorem append_assoc (f g h : Forest α) : f ++ g ++ h = f ++ (g ++ h) := by
  induction f with
  | nil => rfl
  | node a inner next _ ih => simp only [node_append, ih]

/-- The labels of the trees themselves, not of what is inside them. -/
def roots : Forest α → List α
  | nil => []
  | node a _ next => a :: next.roots

theorem roots_append (f g : Forest α) : (f ++ g).roots = f.roots ++ g.roots := by
  induction f with
  | nil => rfl
  | node a inner next _ ih => simp only [node_append, roots, ih, List.cons_append]

/-- All labels in the order in which the trees are written. -/
def labels : Forest α → List α
  | nil => []
  | node a inner next => a :: (inner.labels ++ next.labels)

/-- Changes every label. -/
def map (g : α → β) : Forest α → Forest β
  | nil => nil
  | node a inner next => node (g a) (inner.map g) (next.map g)

theorem roots_map (g : α → β) (f : Forest α) : (f.map g).roots = f.roots.map g := by
  induction f with
  | nil => rfl
  | node a inner next _ ihn => simp only [map, roots, ihn, List.map_cons]

theorem labels_map (g : α → β) (f : Forest α) : (f.map g).labels = f.labels.map g := by
  induction f with
  | nil => rfl
  | node a inner next ihi ihn => simp only [map, labels, ihi, ihn, List.map_cons, List.map_append]

end Forest

end SamlSeal.Xml
