import DocMachine.Lib.Splay
import DocMachine.SplayTree.BoundsSplayTree

/-!
# Trees in memory

What the memory of the splay tree (`SplayTrees/bounds-splay-tree.c`) stores: a tree of the library
on splaying, whose labels are the addresses, keys and values of the nodes.

* `Stored` says that a tree is in memory, `Around` that the frames around a place are. The two
  together say that the whole tree is, with one pointer open.
* Of trees at different addresses the memory holds each on its own (`addrs`): what is written to the
  nodes of one does not change the other.
* `Relinks` relates two memories that differ in the links of nodes only, as they do in a splay.

Results:
* `Stored.congr` and `Around.congr`: what is stored depends on its own nodes only.
* `stored_plug`: a tree and the frames around it make up the whole tree.
-/

namespace DocMachine.SplayTree

open DocMachine.Lib.Splay

/-- The label of a node. -/
structure Entry (K V : Type) where
  addr : Addr
  key : K
  value : V
  deriving DecidableEq, Repr

variable {K V : Type}

/-- The node of an entry, with its two links. -/
def Entry.node (e : Entry K V) (left right : Option Addr) : Node K V :=
  ⟨e.key, e.value, left, right⟩

/-- The pointer to a tree. -/
def ptr : BinaryTree (Entry K V) → Option Addr
  | .nil => none
  | .node e _ _ => some e.addr

/-- The memory holds the nodes of the tree, each linked to its two subtrees. -/
def Stored (nodes : Addr → Option (Node K V)) : BinaryTree (Entry K V) → Prop
  | .nil => True
  | .node e l r => nodes e.addr = some (e.node (ptr l) (ptr r)) ∧ Stored nodes l ∧ Stored nodes r

/-- The addresses of the nodes, in order. -/
def addrs (t : BinaryTree (Entry K V)) : List Addr := (inorder t).map Entry.addr

@[simp] theorem addrs_nil : addrs (.nil : BinaryTree (Entry K V)) = [] := rfl

@[simp] theorem addrs_node (e : Entry K V) (l r : BinaryTree (Entry K V)) :
    addrs (.node e l r) = addrs l ++ e.addr :: addrs r := by
  simp [addrs, inorder]

/-- The node of a frame, with a pointer in the place. -/
def nodeOf (f : Frame (Entry K V)) (p : Option Addr) : Node K V :=
  if f.isLeft then f.label.node p (ptr f.sibling) else f.label.node (ptr f.sibling) p

/-- The place that the frames leave open. -/
def placeOf : List (Frame (Entry K V)) → Place
  | [] => .root
  | f :: _ => if f.isLeft then .left f.label.addr else .right f.label.addr

/-- The place around a place. -/
def parentOf : List (Frame (Entry K V)) → Option Place
  | [] => none
  | _ :: frames => some (placeOf frames)

/-- The frames are stored, with a pointer in the place. -/
def Around (sp : Tree K V) : List (Frame (Entry K V)) → Option Addr → Prop
  | [], p => sp.root = p
  | f :: frames, p => sp.nodes f.label.addr = some (nodeOf f p) ∧ Stored sp.nodes f.sibling ∧
      Around sp frames (some f.label.addr)

/-- The addresses in the frames. -/
def frameAddrs : List (Frame (Entry K V)) → List Addr
  | [] => []
  | f :: frames => f.label.addr :: (addrs f.sibling ++ frameAddrs frames)

/-- Only links of nodes that exist, and the root, differ. -/
def Relinks (sp sp' : Tree K V) : Prop :=
  sp' = { sp with nodes := sp'.nodes, root := sp'.root } ∧
    ∀ a, (sp'.nodes a).isSome = (sp.nodes a).isSome

theorem Relinks.refl (sp : Tree K V) : Relinks sp sp := ⟨rfl, fun _ => rfl⟩

theorem Relinks.trans {sp sp' sp'' : Tree K V} (h : Relinks sp sp') (h' : Relinks sp' sp'') :
    Relinks sp sp'' := by
  refine ⟨?_, fun a => (h'.2 a).trans (h.2 a)⟩
  rw [h'.1, h.1]

variable {sp sp' : Tree K V} {n m : Addr} {r r' : Node K V} {p q : Option Addr}
  {t t' : BinaryTree (Entry K V)} {frames : List (Frame (Entry K V))}
  {nodes nodes' : Addr → Option (Node K V)}

/-! ## Writes -/

@[simp] theorem Tree.set_nodes_self : (sp.set n r).nodes n = some r := Function.update_self ..

theorem Tree.set_nodes_of_ne (h : m ≠ n) : (sp.set n r).nodes m = sp.nodes m :=
  Function.update_of_ne h ..

theorem relinks_set (h : sp.nodes n = some r') : Relinks sp (sp.set n r) := by
  refine ⟨rfl, fun a => ?_⟩
  by_cases ha : a = n
  · rw [ha, Tree.set_nodes_self, h]
    rfl
  · rw [Tree.set_nodes_of_ne ha]

theorem Tree.put_left (h : sp.nodes n = some r) :
    sp.put (.left n) p = some (sp.set n { r with left := p }) := by
  rw [put, h]
  rfl

theorem Tree.put_right (h : sp.nodes n = some r) :
    sp.put (.right n) p = some (sp.set n { r with right := p }) := by
  rw [put, h]
  rfl

theorem Stored.congr (h : Stored nodes t) (heq : ∀ a ∈ addrs t, nodes' a = nodes a) :
    Stored nodes' t := by
  induction t with
  | nil => trivial
  | node e l r ihl ihr =>
    simp only [addrs_node, List.mem_append, List.mem_cons] at heq
    exact ⟨(heq _ (.inr (.inl rfl))).trans h.1, ihl h.2.1 fun a ha => heq a (.inl ha),
      ihr h.2.2 fun a ha => heq a (.inr (.inr ha))⟩

theorem Stored.set (h : Stored sp.nodes t) (hn : n ∉ addrs t) : Stored (sp.set n r).nodes t :=
  h.congr fun _ ha => Tree.set_nodes_of_ne fun heq => hn (heq ▸ ha)

theorem Around.congr (h : Around sp frames p) (hroot : sp'.root = sp.root)
    (heq : ∀ a ∈ frameAddrs frames, sp'.nodes a = sp.nodes a) : Around sp' frames p := by
  induction frames generalizing p with
  | nil => exact hroot.trans h
  | cons f frames ih =>
    simp only [frameAddrs, List.mem_cons, List.mem_append] at heq
    exact ⟨(heq _ (.inl rfl)).trans h.1, h.2.1.congr fun a ha => heq a (.inr (.inl ha)),
      ih h.2.2 fun a ha => heq a (.inr (.inr ha))⟩

theorem Around.get (h : Around sp frames p) : sp.get (placeOf frames) = some p := by
  cases frames with
  | nil => exact congrArg some h
  | cons f frames =>
    have hnode := h.1
    cases hside : f.isLeft <;> simp [placeOf, Tree.get, nodeOf, Entry.node, hside, hnode]

theorem Around.put (h : Around sp frames p) (hnodup : (frameAddrs frames).Nodup)
    (q : Option Addr) :
    ∃ sp', sp.put (placeOf frames) q = some sp' ∧ Around sp' frames q ∧ Relinks sp sp' ∧
      ∀ a, a ∉ frameAddrs frames → sp'.nodes a = sp.nodes a := by
  cases frames with
  | nil => exact ⟨_, rfl, rfl, ⟨rfl, fun _ => rfl⟩, fun _ _ => rfl⟩
  | cons f frames =>
    obtain ⟨hnode, hsibling, hframes⟩ := h
    have hput : sp.put (placeOf (f :: frames)) q = some (sp.set f.label.addr (nodeOf f q)) := by
      cases hside : f.isLeft <;>
        simp [placeOf, Tree.put, nodeOf, Entry.node, hside, hnode]
    obtain ⟨hnot, -⟩ := List.nodup_cons.mp hnodup
    simp only [List.mem_append, not_or] at hnot
    refine ⟨_, hput, ⟨Tree.set_nodes_self, hsibling.set hnot.1, ?_⟩, relinks_set hnode,
      fun a ha => ?_⟩
    · exact hframes.congr rfl fun a ha => Tree.set_nodes_of_ne fun heq => hnot.2 (heq ▸ ha)
    · exact Tree.set_nodes_of_ne fun heq => ha (heq ▸ List.mem_cons_self)

theorem stored_plug : sp.root = ptr (plug frames t) ∧ Stored sp.nodes (plug frames t) ↔
    Around sp frames (ptr t) ∧ Stored sp.nodes t := by
  induction frames generalizing t with
  | nil => rfl
  | cons f frames ih =>
    rw [plug, ih]
    cases hside : f.isLeft <;>
      simp only [Frame.fill, hside, Around, nodeOf, Stored, ptr, if_true, Bool.false_eq_true,
        if_false] <;> tauto

theorem perm_addrs_plug : (addrs (plug frames t)).Perm (frameAddrs frames ++ addrs t) := by
  induction frames generalizing t with
  | nil => exact .refl _
  | cons f frames ih =>
    refine ih.trans ?_
    rw [List.perm_iff_count]
    intro a
    cases hside : f.isLeft <;>
      simp [Frame.fill, hside, frameAddrs, List.count_append, List.count_cons] <;> omega

end DocMachine.SplayTree
