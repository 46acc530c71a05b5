import FiberLex.SparseSet

/-!
# Depth-first walks

A walk over items that are identified by keys. It visits the items of a stack from the top; a
visited item puts its children on top of the stack, in order, and an item whose key was seen before
is passed over. So the items come in preorder, and each key at most once. Since every visit takes
one of the keys that are left, the walk ends whatever cycles the items form.
-/

namespace FiberLex.Preorder

variable {α : Type} {n : Nat}

/-- Walks over the items of the stack and their descendants. Returns the items visited before,
`order`, with those visited now, and the keys seen. Items whose key is not below `n` are passed
over. -/
def walk (key : α → Nat) (children : α → List α) (stack : List α) (seen : SparseSet n)
    (order : Array α) : Array α × SparseSet n :=
  match stack with
  | [] => (order, seen)
  | item :: rest =>
    match _ : seen.insert (key item) with
    | (true, seen') => walk key children (children item ++ rest) seen' (order.push item)
    | (false, seen') => walk key children rest seen' order
termination_by (n - seen.size, stack.length)
decreasing_by
  · rename_i h
    have := SparseSet.size_insert_of_new (s := seen) (k := key item) (by rw [h])
    rw [h] at this
    exact Prod.Lex.left _ _ (by simp only at this; omega)
  · rename_i h
    have := SparseSet.insert_of_not_new (s := seen) (k := key item) (by rw [h])
    rw [h] at this
    subst this
    exact Prod.Lex.right _ (by simp)

/-- The items reachable from the stack, in preorder. -/
def visit (n : Nat) (key : α → Nat) (children : α → List α) (stack : List α) : List α :=
  (walk key children stack (SparseSet.empty n) #[]).1.toList

end FiberLex.Preorder
