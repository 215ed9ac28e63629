import Mathlib

/-!
# The splay tree of the bounds library

Model of `SplayTrees/bounds-splay-tree.c` (`splay_helper` 70-185, `rebalance_helper1` 190-196,
`rebalance_helper2` 200-219, `rebalance` 225-243, `splay` 248-286, `new` 292-300, `insert` 308-353,
`remove` 358-387, `lookup` 393-400, `predecessor` 407-429, `successor` 435-456, `foreach` 468-543,
each with the prefix `boundssplay_tree_`).

* A pointer is an address or null, and `nodes` is the memory of the nodes. `malloc` gives an address
  that is not in use, which the caller names.
* A pointer to a pointer is a `Place`: the root of the tree or a link of a node. A call of
  `splay_helper` gets the places of a node, its parent and its grandparent, and may find them
  changed by the calls below it.
* What is null when it is followed, an access outside an array and `abort` have no result (`none`),
  and neither has a loop that takes more turns than `fuel`.
* The depth of `splay_helper` is limited by `max_depth`. Where the limit is reached, `rebalance_p`
  is set, nothing is relinked, and `splay` rebalances the tree and tries again.
* Keys are in any linear order, and values of any type. `num_keys` wraps around as 32 bits do.
  `last_splayed_key` is `none` where `last_splayed_key_p` is 0.
* The callback of `foreach` is a function of the node and of some data, which it changes; its result
  is any integer, as in C.
-/

namespace DocMachine.SplayTree

/-- The address of a node. -/
abbrev Addr := ℕ

/-- `struct boundssplay_tree_node_s`. -/
structure Node (K V : Type) where
  key : K
  value : V
  left : Option Addr
  right : Option Addr
  deriving DecidableEq, Repr

/-- `struct boundssplay_tree_s`, with the memory of the nodes. -/
structure Tree (K V : Type) where
  nodes : Addr → Option (Node K V)
  root : Option Addr
  last_splayed_key : Option K
  num_keys : ℕ
  max_depth : ℕ
  depth : ℕ
  rebalance_p : Bool

/-- What a pointer to a pointer points to: the root of the tree, or a link of a node. -/
inductive Place where
  | root
  | left (n : Addr)
  | right (n : Addr)
  deriving DecidableEq, Repr

variable {K V σ : Type}

namespace Tree

/-- `boundssplay_tree_new`. -/
def new : Tree K V := ⟨fun _ => none, none, none, 0, 0, 0, false⟩

/-- A node is written. -/
def set (sp : Tree K V) (n : Addr) (r : Node K V) : Tree K V :=
  { sp with nodes := Function.update sp.nodes n (some r) }

/-- `*place`. -/
def get (sp : Tree K V) : Place → Option (Option Addr)
  | .root => some sp.root
  | .left n => (sp.nodes n).map Node.left
  | .right n => (sp.nodes n).map Node.right

/-- `*place = p`. -/
def put (sp : Tree K V) (place : Place) (p : Option Addr) : Option (Tree K V) :=
  match place with
  | .root => some { sp with root := p }
  | .left n => (sp.nodes n).map fun r => sp.set n { r with left := p }
  | .right n => (sp.nodes n).map fun r => sp.set n { r with right := p }

/-- An address that `malloc` gives is not in use. -/
def malloc (sp : Tree K V) (n : Addr) (r : Node K V) : Option (Tree K V) :=
  match sp.nodes n with
  | none => some (sp.set n r)
  | some _ => none

/-- `free`. -/
def free (sp : Tree K V) (n : Addr) : Tree K V :=
  { sp with nodes := Function.update sp.nodes n none }

/-! ## Traversal and rebalancing -/

/-- `enum boundssplay_tree_foreach`'s directions: what is left to do at a node. -/
inductive Visit where
  | left
  | here
  | right
  | up
  deriving DecidableEq, Repr

/-- The loop of `boundssplay_tree_foreach`; the top of the two stacks comes first. -/
def foreachLoop (sp : Tree K V) (fn : Addr → σ → Option (ℤ × σ)) :
    ℕ → List (Addr × Visit) → σ → Option (ℤ × σ)
  | 0, _, _ => none
  | _ + 1, [], _ => none
  | fuel + 1, (n, .left) :: stack, data => do
    match (← sp.nodes n).left with
    | none => sp.foreachLoop fn fuel ((n, .here) :: stack) data
    | some l =>
      if stack.length + 1 < sp.num_keys then
        sp.foreachLoop fn fuel ((l, .left) :: (n, .here) :: stack) data
      else none
  | fuel + 1, (n, .here) :: stack, data => do
    let (val, data) ← fn n data
    if val = 0 then sp.foreachLoop fn fuel ((n, .right) :: stack) data else return (val, data)
  | fuel + 1, (n, .right) :: stack, data => do
    match (← sp.nodes n).right with
    | none => sp.foreachLoop fn fuel ((n, .up) :: stack) data
    | some r =>
      if stack.length + 1 < sp.num_keys then
        sp.foreachLoop fn fuel ((r, .left) :: (n, .up) :: stack) data
      else none
  | fuel + 1, (_, .up) :: stack, data =>
    if stack = [] then some (0, data) else sp.foreachLoop fn fuel stack data

/-- `boundssplay_tree_foreach`. -/
def foreach (fuel : ℕ) (sp : Tree K V) (fn : Addr → σ → Option (ℤ × σ)) (data : σ) :
    Option (ℤ × σ) :=
  match sp.root with
  | none => some (0, data)
  | some root => if 0 < sp.num_keys then sp.foreachLoop fn fuel [(root, .left)] data else none

/-- `rebalance_helper1`, on the part of the array that is filled. -/
def rebalance_helper1 (sp : Tree K V) (n : Addr) (array : List Addr) : Option (ℤ × List Addr) :=
  if array.length < sp.num_keys then some (0, array ++ [n]) else none

/-- `boundssplay_tree_rebalance_helper2`, on the part of the array from `low` to `high`. -/
def rebalance_helper2 (array : List Addr) (low high : ℕ) (sp : Tree K V) :
    Option (Addr × Tree K V) := do
  let middle := low + (high - low) / 2
  let n ← array[middle]?
  let sp ←
    if low + 1 ≤ middle then do
      let (l, sp) ← rebalance_helper2 array low (middle - 1) sp
      sp.put (.left n) (some l)
    else sp.put (.left n) none
  let sp ←
    if middle + 1 ≤ high then do
      let (r, sp) ← rebalance_helper2 array (middle + 1) high sp
      sp.put (.right n) (some r)
    else sp.put (.right n) none
  return (n, sp)
termination_by high - low
decreasing_by
  · omega
  · omega

/-- `boundssplay_tree_rebalance`. -/
def rebalance (fuel : ℕ) (sp : Tree K V) : Option (Tree K V) := do
  if sp.num_keys ≤ 2 then return sp
  let (_, all_nodes) ← sp.foreach fuel sp.rebalance_helper1 []
  let (root, sp) ← rebalance_helper2 all_nodes 0 (sp.num_keys - 1) sp
  return { sp with root := some root }

/-! ## Splaying -/

/-- `splay_helper` from `if (!parent)` on: `n` is below `*parent`. -/
def rotate (n : Addr) (node : Place) :
    Option Place → Option Place → Tree K V → Option (Tree K V)
  | none, _, sp => some sp
  | some parent, none, sp => do
    let p ← (← sp.get parent)
    if (← sp.nodes p).left = some n then do
      let sp ← sp.put node (← sp.nodes n).right
      let sp ← sp.put (.right n) (← sp.get parent)
      sp.put parent (some n)
    else do
      let sp ← sp.put node (← sp.nodes n).left
      let sp ← sp.put (.left n) (← sp.get parent)
      sp.put parent (some n)
  | some parent, some grandparent, sp => do
    let p ← (← sp.get parent)
    let g ← (← sp.get grandparent)
    if (← sp.nodes p).left = some n ∧ (← sp.nodes g).left = some p then do
      let sp ← sp.put (.left g) (← sp.nodes p).right
      let sp ← sp.put (.right p) (← sp.get grandparent)
      let sp ← sp.put (.left p) (← sp.nodes n).right
      let sp ← sp.put (.right n) (some p)
      sp.put grandparent (some n)
    else if (← sp.nodes p).right = some n ∧ (← sp.nodes g).right = some p then do
      let sp ← sp.put (.right g) (← sp.nodes p).left
      let sp ← sp.put (.left p) (← sp.get grandparent)
      let sp ← sp.put (.right p) (← sp.nodes n).left
      let sp ← sp.put (.left n) (some p)
      sp.put grandparent (some n)
    else if (← sp.nodes p).left = some n then do
      let sp ← sp.put (.left p) (← sp.nodes n).right
      let sp ← sp.put (.right n) (← sp.get parent)
      let sp ← sp.put (.right g) (← sp.nodes n).left
      let sp ← sp.put (.left n) (← sp.get grandparent)
      sp.put grandparent (some n)
    else do
      let sp ← sp.put (.right p) (← sp.nodes n).left
      let sp ← sp.put (.left n) (← sp.get parent)
      let sp ← sp.put (.left g) (← sp.nodes n).right
      let sp ← sp.put (.right n) (← sp.get grandparent)
      sp.put grandparent (some n)

/-- `splay_helper` from the test `*node != n` on. -/
def climb (n : Addr) (node : Place) (parent grandparent : Option Place) (sp : Tree K V) :
    Option (Addr × Tree K V) := do
  if (← sp.get node) ≠ some n ∨ sp.rebalance_p then return (n, sp)
  return (n, ← sp.rotate n node parent grandparent)

section

variable [LinearOrder K]

/-- Where the search goes on from `n`. -/
def next (key : K) (n : Addr) (r : Node K V) : Option Place :=
  if r.key < key then some (.right n) else if key < r.key then some (.left n) else none

/-- `boundssplay_tree_splay_helper`: the node that is now at `node`. -/
def splay_helper (key : K) :
    ℕ → Place → Option Place → Option Place → Tree K V → Option (Addr × Tree K V)
  | 0, _, _, _, _ => none
  | calls + 1, node, parent, grandparent, sp => do
    match ← sp.get node with
    | none => return (← (← sp.get (← parent)), sp)
    | some n =>
      match next key n (← sp.nodes n) with
      | none => return (n, ← sp.rotate n node parent grandparent)
      | some next =>
        if sp.max_depth < sp.depth then return (n, { sp with rebalance_p := true })
        let (n, sp) ←
          splay_helper key calls next (some node) parent { sp with depth := sp.depth + 1 }
        climb n node parent grandparent { sp with depth := sp.depth - 1 }

/-- A call of `splay_helper` for the root; no call is deeper than `max_depth + 1`. -/
def splay_root (key : K) (sp : Tree K V) : Option (Tree K V) := do
  let sp := { sp with depth := 0, rebalance_p := false }
  let (_, sp) ← splay_helper key (sp.max_depth + 2) .root none none sp
  return sp

/-- `boundssplay_tree_splay`. -/
def splay (fuel : ℕ) (key : K) (sp : Tree K V) : Option (Tree K V) := do
  if sp.root = none then return sp
  if sp.last_splayed_key = some key then return sp
  let sp ← splay_root key { sp with max_depth := 2500 }
  if sp.rebalance_p then do
    let sp ← splay_root key (← sp.rebalance fuel)
    if sp.rebalance_p then none
    else return { sp with last_splayed_key := some key }
  else return { sp with last_splayed_key := some key }

/-! ## Operations -/

/-- `node->left` or `node->right` until there is none. -/
def walk (sp : Tree K V) (link : Node K V → Option Addr) : ℕ → Addr → Option Addr
  | 0, _ => none
  | fuel + 1, n => do
    match link (← sp.nodes n) with
    | none => return n
    | some next => sp.walk link fuel next

/-- `malloc` gives the address `node`. -/
def insert (fuel : ℕ) (key : K) (value : V) (node : Addr) (sp : Tree K V) :
    Option (Option Addr × Tree K V) := do
  let sp ← sp.splay fuel key
  match sp.root with
  | none =>
    let sp ← sp.malloc node ⟨key, value, none, none⟩
    return (some node, { sp with
      num_keys := (sp.num_keys + 1) % 2 ^ 32, root := some node, last_splayed_key := none })
  | some root =>
    let r ← sp.nodes root
    if r.key = key then return (some root, sp.set root { r with value := value })
    else if r.key < key then do
      let sp ← sp.malloc node ⟨key, value, some root, r.right⟩
      let sp ← sp.put (.right root) none
      return (some node, { sp with
        num_keys := (sp.num_keys + 1) % 2 ^ 32, root := some node, last_splayed_key := none })
    else do
      let sp ← sp.malloc node ⟨key, value, r.left, some root⟩
      let sp ← sp.put (.left root) none
      return (some node, { sp with
        num_keys := (sp.num_keys + 1) % 2 ^ 32, root := some node, last_splayed_key := none })

/-- `boundssplay_tree_remove`. -/
def remove (fuel : ℕ) (key : K) (sp : Tree K V) : Option (Tree K V) := do
  let sp ← sp.splay fuel key
  let sp := { sp with last_splayed_key := none }
  match sp.root with
  | none => return sp
  | some root =>
    let r ← sp.nodes root
    if r.key = key then do
      let sp := { sp.free root with num_keys := (sp.num_keys + (2 ^ 32 - 1)) % 2 ^ 32 }
      match r.left, r.right with
      | some left, some right =>
        let sp := { sp with root := some left }
        sp.put (.right (← sp.walk Node.right fuel left)) (some right)
      | some left, none => return { sp with root := some left }
      | none, right => return { sp with root := right }
    else return sp

/-- `boundssplay_tree_lookup`. -/
def lookup (fuel : ℕ) (key : K) (sp : Tree K V) : Option (Option Addr × Tree K V) := do
  let sp ← sp.splay fuel key
  match sp.root with
  | none => return (none, sp)
  | some root => return (if (← sp.nodes root).key = key then some root else none, sp)

/-- `boundssplay_tree_predecessor`. -/
def predecessor (fuel : ℕ) (key : K) (sp : Tree K V) : Option (Option Addr × Tree K V) := do
  if sp.root = none then return (none, sp)
  let sp ← sp.splay fuel key
  let root ← sp.root
  let r ← sp.nodes root
  if r.key < key then return (some root, sp)
  match r.left with
  | none => return (none, sp)
  | some node => return (some (← sp.walk Node.right fuel node), sp)

/-- `boundssplay_tree_successor`. -/
def successor (fuel : ℕ) (key : K) (sp : Tree K V) : Option (Option Addr × Tree K V) := do
  if sp.root = none then return (none, sp)
  let sp ← sp.splay fuel key
  let root ← sp.root
  let r ← sp.nodes root
  if key < r.key then return (some root, sp)
  match r.right with
  | none => return (none, sp)
  | some node => return (some (← sp.walk Node.left fuel node), sp)

end

end Tree

end DocMachine.SplayTree
