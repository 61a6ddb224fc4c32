import Mathlib.Algebra.GroupWithZero.Nat
import Mathlib.Tactic.Common

/-!
# The red-black tree

Embedding of `utils_rbtree.c`. The nodes live in a memory that maps names of
nodes to their contents, and nodes that compare equal hang on the list of the
one that is in the tree. The order is that of the comparison function, which
looks at the records around the nodes. A read through `NULL` and a loop that
goes on for more rounds than its bound have no result.
-/

namespace OcfCache.RbTree

/-- `struct ocf_rb_node`, with the links of its `list_head`. -/
structure Node (ι : Type*) where
  /-- Colour. -/
  red : Bool
  /-- Left child. -/
  left : Option ι
  /-- Right child. -/
  right : Option ι
  /-- Parent. -/
  parent : Option ι
  /-- `list.next`. -/
  next : ι
  /-- `list.prev`. -/
  prev : ι

/-- `struct ocf_rb_tree` with the memory of its nodes. -/
structure Tree (ι : Type*) where
  /-- Root. -/
  root : Option ι
  /-- Contents of the nodes. -/
  node : ι → Node ι

section Memory

variable {ι : Type*} [DecidableEq ι]

/-- Overwrite a node. -/
def Tree.modify (t : Tree ι) (x : ι) (f : Node ι → Node ι) : Tree ι :=
  { t with node := Function.update t.node x (f (t.node x)) }

/-- Overwrite the colour of a node. -/
def Tree.setRed (t : Tree ι) (x : ι) (red : Bool) : Tree ι := t.modify x fun n => { n with red }

/-- Overwrite the left child of a node. -/
def Tree.setLeft (t : Tree ι) (x : ι) (left : Option ι) : Tree ι := t.modify x fun n => { n with left }

/-- Overwrite the right child of a node. -/
def Tree.setRight (t : Tree ι) (x : ι) (right : Option ι) : Tree ι :=
  t.modify x fun n => { n with right }

/-- Overwrite the parent of a node. -/
def Tree.setParent (t : Tree ι) (x : ι) (parent : Option ι) : Tree ι :=
  t.modify x fun n => { n with parent }

/-- A node has this colour; there is no node behind `NULL`. -/
def Tree.isRed (t : Tree ι) : Option ι → Bool
  | none => false
  | some x => (t.node x).red

/-- `INIT_LIST_HEAD`. -/
def Tree.initList (t : Tree ι) (x : ι) : Tree ι := t.modify x fun n => { n with next := x, prev := x }

/-- `list_empty`. -/
def Tree.listEmpty (t : Tree ι) (x : ι) : Bool := decide ((t.node x).next = x)

/-- `list_add_tail`. -/
def Tree.listAddTail (t : Tree ι) (x head : ι) : Tree ι :=
  let last := (t.node head).prev
  let t := t.modify x fun n => { n with prev := last, next := head }
  let t := t.modify last fun n => { n with next := x }
  t.modify head fun n => { n with prev := x }

/-- `list_del`. -/
def Tree.listDel (t : Tree ι) (x : ι) : Tree ι :=
  let t := t.modify (t.node x).next fun n => { n with prev := (t.node x).prev }
  t.modify (t.node x).prev fun n => { n with next := (t.node x).next }

end Memory

section Insert

variable {ι : Type*} [DecidableEq ι]

/-- `ocf_rb_tree_update_parent`. -/
def ocfRbTreeUpdateParent (t : Tree ι) (parent : Option ι) (oldNode : ι) (newNode : Option ι) : Tree ι :=
  match parent with
  | none => if t.root = some oldNode then { t with root := newNode } else t
  | some p =>
    if (t.node p).left = some oldNode then t.setLeft p newNode
    else if (t.node p).right = some oldNode then t.setRight p newNode
    else t

/-- Set the parent of a child if there is one. -/
def Tree.adopt (t : Tree ι) (child : Option ι) (parent : ι) : Tree ι :=
  match child with
  | none => t
  | some c => t.setParent c (some parent)

/-- `ocf_rb_tree_rotate_left`. -/
def ocfRbTreeRotateLeft (t : Tree ι) (x : ι) : Option (Tree ι) :=
  (t.node x).right.map fun right =>
    let t := t.setRight x (t.node right).left
    let t := t.adopt (t.node x).right x
    let t := t.setParent right (t.node x).parent
    let t := ocfRbTreeUpdateParent t (t.node x).parent x (some right)
    let t := t.setLeft right (some x)
    t.setParent x (some right)

/-- `ocf_rb_tree_rotate_right`. -/
def ocfRbTreeRotateRight (t : Tree ι) (x : ι) : Option (Tree ι) :=
  (t.node x).left.map fun left =>
    let t := t.setLeft x (t.node left).right
    let t := t.adopt (t.node x).left x
    let t := t.setParent left (t.node x).parent
    let t := ocfRbTreeUpdateParent t (t.node x).parent x (some left)
    let t := t.setRight left (some x)
    t.setParent x (some left)

/-- Two nodes exchange their colours. -/
def Tree.swapRed (t : Tree ι) (x y : ι) : Tree ι :=
  let tmp := (t.node x).red
  let t := t.setRed x (t.node y).red
  t.setRed y tmp

/-- Overwrite the colour of a node if there is one. -/
def Tree.paint (t : Tree ι) (child : Option ι) (red : Bool) : Tree ι :=
  match child with
  | none => t
  | some c => t.setRed c red

/-- The loop of `ocf_rb_tree_fix_violation`. -/
def fixViolationLoop : Nat → Tree ι → ι → Option (Tree ι)
  | 0, _, _ => none
  | n + 1, t, x =>
    match (t.node x).parent with
    | none => some t
    | some parent =>
      if (t.node x).red = false ∨ (t.node parent).red = false then some t
      else match (t.node parent).parent with
        | none => some t
        | some grandparent =>
          if (t.node grandparent).left = some parent then
            let uncle := (t.node grandparent).right
            if t.isRed uncle then
              let t := t.setRed grandparent true
              let t := t.setRed parent false
              fixViolationLoop n (t.paint uncle false) grandparent
            else if (t.node parent).right = some x then
              (ocfRbTreeRotateLeft t parent).bind fun t => fixViolationLoop n t parent
            else
              (ocfRbTreeRotateRight t grandparent).bind fun t =>
                fixViolationLoop n (t.swapRed parent grandparent) parent
          else
            let uncle := (t.node grandparent).left
            if t.isRed uncle then
              let t := t.setRed grandparent true
              let t := t.setRed parent false
              fixViolationLoop n (t.paint uncle false) grandparent
            else if (t.node parent).left = some x then
              (ocfRbTreeRotateRight t parent).bind fun t => fixViolationLoop n t parent
            else
              (ocfRbTreeRotateLeft t grandparent).bind fun t =>
                fixViolationLoop n (t.swapRed parent grandparent) parent

/-- `ocf_rb_tree_fix_violation`. -/
def ocfRbTreeFixViolation (fuel : Nat) (t : Tree ι) (x : ι) : Option (Tree ι) :=
  (fixViolationLoop fuel t x).bind fun t => t.root.map fun root => t.setRed root false

/-- The search for the place of a node: the last node compared with, and the
result. -/
def descend (t : Tree ι) (cmp : ι → Int) : Nat → ι → Option (ι × Int)
  | 0, _ => none
  | n + 1, iter =>
    if cmp iter = 0 then some (iter, 0)
    else match if cmp iter < 0 then (t.node iter).left else (t.node iter).right with
      | none => some (iter, cmp iter)
      | some next => descend t cmp n next

/-- `ocf_rb_tree_insert`. -/
def ocfRbTreeInsert (fuel : Nat) (cmp : ι → ι → Int) (t : Tree ι) (x : ι) : Option (Tree ι) :=
  let t := t.initList x
  let t := ((t.setLeft x none).setRight x none).setParent x none
  match t.root with
  | none => some { (t.setRed x false).setParent x none with root := some x }
  | some root =>
    (descend t (cmp x) fuel root).bind fun r =>
      if r.2 = 0 then some (t.listAddTail x r.1)
      else
        let t := (t.setRed x true).setParent x (some r.1)
        let t := if r.2 < 0 then t.setLeft r.1 (some x) else t.setRight r.1 (some x)
        ocfRbTreeFixViolation fuel t x

end Insert

section Remove

variable {ι : Type*} [DecidableEq ι]

/-- The links of a node that was exchanged with another one to which it had a
link: the first such link of parent, left and right child. -/
def Tree.fixSelf (t : Tree ι) (x other : ι) : Tree ι :=
  if (t.node x).parent = some x then t.setParent x (some other)
  else if (t.node x).left = some x then t.setLeft x (some other)
  else if (t.node x).right = some x then t.setRight x (some other)
  else t

/-- `ocf_rb_copy_node`. -/
def Node.copyFrom (dst src : Node ι) : Node ι :=
  { dst with red := src.red, left := src.left, right := src.right, parent := src.parent }

/-- `ocf_rb_tree_update_children`. -/
def ocfRbTreeUpdateChildren (t : Tree ι) (x : ι) : Tree ι :=
  let t := t.adopt (t.node x).left x
  t.adopt (t.node x).right x

/-- `ocf_rb_tree_swap`. -/
def ocfRbTreeSwap (t : Tree ι) (node1 node2 : ι) : Tree ι :=
  let tmp := t.node node1
  let t := t.modify node1 fun n => n.copyFrom (t.node node2)
  let t := t.modify node2 fun n => n.copyFrom tmp
  let t := t.fixSelf node1 node2
  let t := t.fixSelf node2 node1
  let t := ocfRbTreeUpdateChildren t node1
  let t := ocfRbTreeUpdateChildren t node2
  let t := ocfRbTreeUpdateParent t (t.node node1).parent node2 (some node1)
  ocfRbTreeUpdateParent t (t.node node2).parent node1 (some node2)

/-- The leftmost node below a node. -/
def leftmost (t : Tree ι) : Nat → ι → Option ι
  | 0, _ => none
  | n + 1, x =>
    match (t.node x).left with
    | none => some x
    | some left => leftmost t n left

/-- The rightmost node below a node. -/
def rightmost (t : Tree ι) : Nat → ι → Option ι
  | 0, _ => none
  | n + 1, x =>
    match (t.node x).right with
    | none => some x
    | some right => rightmost t n right

/-- `ocf_rb_tree_successor`; the outer option is the bound of the loop. -/
def ocfRbTreeSuccessor (fuel : Nat) (t : Tree ι) (x : ι) : Option (Option ι) :=
  match (t.node x).right with
  | none => some none
  | some right => (leftmost t fuel right).map some

/-- `ocf_rb_tree_predecessor`. -/
def ocfRbTreePredecessor (fuel : Nat) (t : Tree ι) (x : ι) : Option (Option ι) :=
  match (t.node x).left with
  | none => some none
  | some left => (rightmost t fuel left).map some

/-- `ocf_rb_tree_bst_replacement`. -/
def ocfRbTreeBstReplacement (fuel : Nat) (t : Tree ι) (x : ι) : Option (Option ι) :=
  if (t.node x).left ≠ none ∧ (t.node x).right ≠ none then ocfRbTreeSuccessor fuel t x
  else if (t.node x).left ≠ none then some (t.node x).left
  else some (t.node x).right

/-- `ocf_rb_tree_sibling`. -/
def ocfRbTreeSibling (t : Tree ι) (x : ι) : Option ι :=
  match (t.node x).parent with
  | none => none
  | some parent =>
    if (t.node parent).left = some x then (t.node parent).right else (t.node parent).left

/-- `ocf_rb_tree_fix_double_black`. -/
def ocfRbTreeFixDoubleBlack : Nat → Tree ι → ι → Option (Tree ι)
  | 0, _, _ => none
  | n + 1, t, x =>
    match (t.node x).parent with
    | none => some t
    | some parent =>
      match ocfRbTreeSibling t x with
      | none => ocfRbTreeFixDoubleBlack n t parent
      | some sibling =>
        if (t.node sibling).red then
          let t := (t.setRed parent true).setRed sibling false
          (if (t.node parent).left = some sibling then ocfRbTreeRotateRight t parent
            else ocfRbTreeRotateLeft t parent).bind fun t => ocfRbTreeFixDoubleBlack n t x
        else if t.isRed (t.node sibling).left then
          (if (t.node parent).left = some sibling then
              let t := t.paint (t.node sibling).left (t.node sibling).red
              let t := t.setRed sibling (t.node parent).red
              ocfRbTreeRotateRight t parent
            else
              let t := t.paint (t.node sibling).left (t.node parent).red
              (ocfRbTreeRotateRight t sibling).bind fun t => ocfRbTreeRotateLeft t parent).map
            fun t => t.setRed parent false
        else if t.isRed (t.node sibling).right then
          (if (t.node parent).left = some sibling then
              let t := t.paint (t.node sibling).right (t.node parent).red
              (ocfRbTreeRotateLeft t sibling).bind fun t => ocfRbTreeRotateRight t parent
            else
              let t := t.paint (t.node sibling).right (t.node sibling).red
              let t := t.setRed sibling (t.node parent).red
              ocfRbTreeRotateLeft t parent).map
            fun t => t.setRed parent false
        else
          let t := t.setRed sibling true
          if (t.node parent).red = false then ocfRbTreeFixDoubleBlack n t parent
          else some (t.setRed parent false)

/-- The loop of `ocf_rb_tree_remove`. -/
def removeLoop (fuel : Nat) : Nat → Tree ι → ι → Option (Tree ι)
  | 0, _, _ => none
  | n + 1, t, x =>
    (ocfRbTreeBstReplacement fuel t x).bind fun rep =>
      match rep with
      | none =>
        if t.root = some x then some { t with root := none }
        else
          (if (t.node x).red = false then ocfRbTreeFixDoubleBlack fuel t x
            else some (t.paint (ocfRbTreeSibling t x) true)).map
            fun t => ocfRbTreeUpdateParent t (t.node x).parent x none
      | some rep =>
        if (t.node rep).left = none ∧ (t.node rep).right = none then
          let t := ocfRbTreeSwap t x rep
          (if (t.node x).red = false then ocfRbTreeFixDoubleBlack fuel t x else some t).map
            fun t => ocfRbTreeUpdateParent t (t.node x).parent x none
        else removeLoop fuel n (ocfRbTreeSwap t x rep) x

/-- `ocf_rb_tree_remove`. -/
def ocfRbTreeRemove (fuel : Nat) (t : Tree ι) (x : ι) : Option (Tree ι) :=
  if t.listEmpty x = false then
    if (t.node x).parent = none ∧ t.root ≠ some x then some (t.listDel x)
    else some ((ocfRbTreeSwap t x (t.node x).next).listDel x)
  else removeLoop fuel fuel t x

end Remove

section Find

variable {ι : Type*} [DecidableEq ι]

/-- The search of `ocf_rb_tree_find` below a link. -/
def findFrom (t : Tree ι) (cmp : ι → Int) : Nat → Option ι → Option (Option ι)
  | 0, _ => none
  | _ + 1, none => some none
  | n + 1, some iter =>
    if cmp iter = 0 then some (some iter)
    else findFrom t cmp n (if cmp iter < 0 then (t.node iter).left else (t.node iter).right)

/-- `ocf_rb_tree_find`, with the comparison of the key with a node and the
callback that chooses from a list of equal nodes; the callback is called with
the head of the list, which is the `list_head` of the node in the tree. -/
def ocfRbTreeFind (fuel : Nat) (find : Tree ι → ι → Option ι) (cmp : ι → Int) (t : Tree ι) :
    Option (Option ι) :=
  (findFrom t cmp fuel t.root).map fun iter =>
    match iter with
    | none => none
    | some x => if t.listEmpty x then some x else find t x

/-- `ocf_rb_tree_list_find_first`. -/
def ocfRbTreeListFindFirst (_ : Tree ι) (head : ι) : Option ι := some head

/-- The walk of `ocf_rb_tree_can_update` to a node along the order of a new key. -/
def canUpdateWalk (t : Tree ι) (cmp : ι → Int) (x : ι) : Nat → Option ι → Option (Option ι)
  | 0, _ => none
  | _ + 1, none => some none
  | n + 1, some iter =>
    if iter = x then some (some iter)
    else canUpdateWalk t cmp x n (if cmp iter < 0 then (t.node iter).left else (t.node iter).right)

/-- `ocf_rb_tree_can_update`, with the comparison of the new key with a node. -/
def ocfRbTreeCanUpdate (fuel : Nat) (cmp : ι → Int) (t : Tree ι) (x : ι) : Option Bool :=
  if t.listEmpty x = false then some false
  else (canUpdateWalk t cmp x fuel t.root).bind fun iter =>
    match iter with
    | none => some false
    | some iter =>
      if cmp iter < 0 then
        (ocfRbTreePredecessor fuel t iter).map fun pred =>
          match pred with
          | none => true
          | some pred => decide (0 < cmp pred)
      else if 0 < cmp iter then
        (ocfRbTreeSuccessor fuel t iter).map fun succ =>
          match succ with
          | none => true
          | some succ => decide (cmp succ < 0)
      else some true

end Find

end OcfCache.RbTree
