import DocMachine.SplayTree.Splay

/-!
# Traversal and rebalancing in memory

`boundssplay_tree_foreach` (`SplayTrees/bounds-splay-tree.c` 468-543) and
`boundssplay_tree_rebalance` with its two helpers (190-243), on a stored tree.

* `foreach` goes over the tree with two arrays of `num_keys` places for a stack; an index outside
  them has no result. What is proved is that the stack never holds more nodes than the tree.
* `rebalance` collects the nodes with `foreach` and links them anew, the middle of each part of the
  array above its two halves. That is `balance` of the library.

Results:
* `foreachLoop_spec`: the loop goes over a tree, from its root on the top of the stack.
* `foreach_spec`: the function is called for the nodes in order, until a value is not zero.
* `rebalance_helper2_spec`: the halves are linked below the middle, for any part of the array.
* `rebalance_spec`: the nodes and their order are kept and, from three keys on, the tree is the
  lowest possible.
-/

namespace DocMachine.SplayTree

open DocMachine.Lib.Splay

variable {K V σ : Type}

/-- The tree in memory: each node once, and no other nodes. -/
structure Represents (sp : Tree K V) (t : BinaryTree (Entry K V)) : Prop where
  root : sp.root = ptr t
  stored : Stored sp.nodes t
  nodup : (addrs t).Nodup
  only : ∀ a, (sp.nodes a).isSome → a ∈ addrs t

/-! ## foreach -/

/-- The calls of `fn` for the addresses, until a value that is not zero. -/
def visit (fn : Addr → σ → Option (ℤ × σ)) : List Addr → σ → Option (ℤ × σ)
  | [], data => some (0, data)
  | a :: as, data => do
    let (val, data) ← fn a data
    if val = 0 then visit fn as data else return (val, data)

/-- What comes after the calls that gave zero. -/
def andThen (result : Option (ℤ × σ)) (rest : σ → Option (ℤ × σ)) : Option (ℤ × σ) :=
  result.bind fun r => if r.1 = 0 then rest r.2 else some r

variable {fn : Addr → σ → Option (ℤ × σ)} {sp : Tree K V} {t l r : BinaryTree (Entry K V)}
  {e : Entry K V} {stack : List (Addr × Tree.Visit)} {fuel : ℕ} {data : σ} {rec : Node K V}
  {n : Addr}

theorem andThen_assoc (result : Option (ℤ × σ)) (f g : σ → Option (ℤ × σ)) :
    andThen (andThen result f) g = andThen result fun data => andThen (f data) g := by
  cases result with
  | none => rfl
  | some r =>
    by_cases hr : r.1 = 0
    · simp [andThen, hr]
    · simp [andThen, hr]

theorem andThen_pure (result : Option (ℤ × σ)) :
    (andThen result fun data => some (0, data)) = result := by
  cases result with
  | none => rfl
  | some r =>
    obtain ⟨val, data⟩ := r
    by_cases hr : val = 0 <;> simp [andThen, hr]

theorem visit_cons (a : Addr) (as : List Addr) :
    visit fn (a :: as) data = andThen (fn a data) (visit fn as) := rfl

theorem visit_append (as bs : List Addr) :
    visit fn (as ++ bs) data = andThen (visit fn as data) (visit fn bs) := by
  induction as generalizing data with
  | nil => simp [visit, andThen]
  | cons a as ih =>
    rw [List.cons_append, visit_cons, visit_cons, andThen_assoc]
    exact congrArg (andThen _) (funext fun data => ih)

/-- From the left child of a node, or from the right one, back to the node. -/
theorem foreachLoop_child {s s' : Tree.Visit} (hnode : sp.nodes n = some rec)
    (hlink : (s = .left ∧ s' = .here ∧ rec.left = ptr t) ∨
      (s = .right ∧ s' = .up ∧ rec.right = ptr t))
    (hcap : stack.length + 1 + t.height ≤ sp.num_keys)
    (ih : ∀ e l r, t = .node e l r → ∀ fuel stack data, stack.length + t.height ≤ sp.num_keys →
      sp.foreachLoop fn (fuel + 4 * t.numNodes) ((e.addr, .left) :: stack) data =
        andThen (visit fn (addrs t) data)
          fun data => sp.foreachLoop fn (fuel + 1) ((e.addr, .up) :: stack) data) :
    sp.foreachLoop fn (fuel + 4 * t.numNodes + 1) ((n, s) :: stack) data =
      andThen (visit fn (addrs t) data)
        fun data => sp.foreachLoop fn fuel ((n, s') :: stack) data := by
  cases t with
  | nil =>
    obtain ⟨rfl, rfl, hleft⟩ | ⟨rfl, rfl, hright⟩ := hlink
    · simp [Tree.foreachLoop, hnode, hleft, ptr, visit, andThen]
    · simp [Tree.foreachLoop, hnode, hright, ptr, visit, andThen]
  | node e l r =>
    have hpush : stack.length + 1 < sp.num_keys := by
      simp only [BinaryTree.height] at hcap
      omega
    have hrun := ih e l r rfl fuel ((n, s') :: stack) data (by simpa using hcap)
    have hpop : ∀ data, sp.foreachLoop fn (fuel + 1) ((e.addr, .up) :: (n, s') :: stack) data =
        sp.foreachLoop fn fuel ((n, s') :: stack) data := fun data => by
      simp [Tree.foreachLoop]
    simp only [hpop] at hrun
    rw [← hrun]
    obtain ⟨rfl, rfl, hleft⟩ | ⟨rfl, rfl, hright⟩ := hlink
    · rw [Tree.foreachLoop, hnode]
      simp [hleft, ptr, hpush]
    · rw [Tree.foreachLoop, hnode]
      simp [hright, ptr, hpush]

/-- The loop goes over a tree, from its root on the top of the stack. -/
theorem foreachLoop_spec (hstored : Stored sp.nodes t) (ht : t = .node e l r) (fuel : ℕ)
    (stack : List (Addr × Tree.Visit)) (data : σ) (hcap : stack.length + t.height ≤ sp.num_keys) :
    sp.foreachLoop fn (fuel + 4 * t.numNodes) ((e.addr, .left) :: stack) data =
      andThen (visit fn (addrs t) data)
        fun data => sp.foreachLoop fn (fuel + 1) ((e.addr, .up) :: stack) data := by
  induction t generalizing e l r fuel stack data with
  | nil => cases ht
  | node e l r ihl ihr =>
    cases ht
    obtain ⟨hnode, hl, hr⟩ := hstored
    simp only [BinaryTree.height] at hcap
    have hright : ∀ data, sp.foreachLoop fn (fuel + 1 + 4 * r.numNodes + 1)
        ((e.addr, .right) :: stack) data = andThen (visit fn (addrs r) data)
          fun data => sp.foreachLoop fn (fuel + 1) ((e.addr, .up) :: stack) data := fun data =>
      foreachLoop_child hnode (.inr ⟨rfl, rfl, rfl⟩) (by omega) fun _ _ _ => ihr hr
    have hhere : ∀ data, sp.foreachLoop fn (fuel + 1 + 4 * r.numNodes + 1 + 1)
        ((e.addr, .here) :: stack) data = andThen (fn e.addr data)
          fun data => sp.foreachLoop fn (fuel + 1 + 4 * r.numNodes + 1)
            ((e.addr, .right) :: stack) data := fun data => by
      rw [Tree.foreachLoop]
      rfl
    have hfuel : fuel + 4 * (BinaryTree.node e l r).numNodes =
        fuel + 1 + 4 * r.numNodes + 1 + 1 + 4 * l.numNodes + 1 := by
      rw [BinaryTree.numNodes]
      omega
    rw [hfuel, foreachLoop_child hnode (.inl ⟨rfl, rfl, rfl⟩) (by omega) fun _ _ _ => ihl hl,
      addrs_node, visit_append, andThen_assoc]
    refine congrArg (andThen _) (funext fun data => ?_)
    rw [hhere, visit_cons, andThen_assoc]
    exact congrArg (andThen _) (funext hright)

/-- **Traversal.** The function is called for the nodes in order, until a value is not zero. -/
theorem foreach_spec (h : Represents sp t) (hkeys : sp.num_keys = t.numNodes)
    (hfuel : 4 * t.numNodes ≤ fuel) (fn : Addr → σ → Option (ℤ × σ)) (data : σ) :
    sp.foreach fuel fn data = visit fn (addrs t) data := by
  rw [Tree.foreach, h.root]
  cases t with
  | nil => rfl
  | node e l r =>
    have hcap := BinaryTree.height_le_numNodes (BinaryTree.node e l r)
    obtain ⟨rest, rfl⟩ := Nat.exists_eq_add_of_le' hfuel
    have hend : ∀ data, sp.foreachLoop fn (rest + 1) [(e.addr, .up)] data = some (0, data) :=
      fun data => by simp [Tree.foreachLoop]
    simp only [ptr]
    rw [if_pos (by rw [hkeys, BinaryTree.numNodes]; omega),
      foreachLoop_spec h.stored rfl rest [] data (by simpa [hkeys] using hcap)]
    simp only [hend, andThen_pure]

/-! ## rebalance -/

theorem visit_rebalance_helper1 (as array : List Addr)
    (hcap : array.length + as.length ≤ sp.num_keys) :
    visit sp.rebalance_helper1 as array = some (0, array ++ as) := by
  induction as generalizing array with
  | nil => simp [visit]
  | cons a as ih =>
    simp only [List.length_cons] at hcap
    rw [visit, Tree.rebalance_helper1, if_pos (by omega)]
    simp only [Option.bind_eq_bind, Option.bind_some, if_true]
    rw [ih _ (by simp; omega)]
    simp

section

variable {sp' : Tree K V} {array : List Addr} {xs : List (Entry K V)}

/-- The node of an entry, with any links. -/
def Holds (sp : Tree K V) (e : Entry K V) : Prop :=
  ∃ left right, sp.nodes e.addr = some (e.node left right)

theorem Stored.holds (h : Stored sp.nodes t) : ∀ e ∈ inorder t, Holds sp e := by
  induction t with
  | nil => nofun
  | node e l r ihl ihr =>
    intro e' he'
    simp only [inorder, List.mem_append, List.mem_cons] at he'
    obtain he' | rfl | he' := he'
    · exact ihl h.2.1 e' he'
    · exact ⟨_, _, h.1⟩
    · exact ihr h.2.2 e' he'

/-- The entries are linked to a tree; nothing else is written. -/
structure Built (xs : List (Entry K V)) (sp sp' : Tree K V) : Prop where
  stored : Stored sp'.nodes (balance xs)
  agree : Agree (xs.map Entry.addr) sp sp'
  isSome : ∀ a, (sp'.nodes a).isSome = (sp.nodes a).isSome

theorem addrs_balance (xs : List (Entry K V)) : addrs (balance xs) = xs.map Entry.addr := by
  rw [addrs, inorder_balance]

theorem Agree.trans {ns ms : List Addr} {sp'' : Tree K V} (h : Agree ns sp sp')
    (h' : Agree ms sp' sp'') (hns : ∀ a ∈ ns, a ∈ ms) : Agree ms sp sp'' := by
  refine ⟨?_, fun m hm => ?_⟩
  · rw [h'.1, h.1]
  · rw [h'.2 m hm, h.2 m fun hmem => hm (hns m hmem)]

theorem Agree.mono {ns ms : List Addr} (h : Agree ns sp sp') (hns : ∀ a ∈ ns, a ∈ ms) :
    Agree ms sp sp' :=
  ⟨h.1, fun m hm => h.2 m fun hmem => hm (hns m hmem)⟩

/-- One half is built, if it is not empty, and linked to the middle node. -/
theorem link_half (xs : List (Entry K V)) (cond : Prop) [Decidable cond]
    (result : Option (Addr × Tree K V)) (place : Place)
    (link : Node K V → Option Addr → Node K V) (hcond : cond ↔ xs ≠ [])
    (hcall : xs ≠ [] → ∃ n sp', result = some (n, sp') ∧ ptr (balance xs) = some n ∧
      Built xs sp sp')
    (hput : ∀ (sp : Tree K V) rec p, sp.nodes n = some rec →
      sp.put place p = some (sp.set n (link rec p)))
    (hn : n ∉ xs.map Entry.addr) (hnode : sp.nodes n = some rec) :
    ∃ sp', (if cond then result.bind fun x => x.2.put place (some x.1) else sp.put place none) =
        some sp' ∧
      sp'.nodes n = some (link rec (ptr (balance xs))) ∧ Stored sp'.nodes (balance xs) ∧
      Agree (n :: xs.map Entry.addr) sp sp' ∧ ∀ a, (sp'.nodes a).isSome = (sp.nodes a).isSome := by
  by_cases hxs : xs = []
  · rw [if_neg fun h => hcond.mp h hxs, hput sp rec none hnode, hxs, balance_nil]
    exact ⟨_, rfl, Tree.set_nodes_self, trivial, (Agree.refl _ sp).set (by simp),
      (relinks_set hnode).2⟩
  · obtain ⟨m, sp', hresult, hptr, hbuilt⟩ := hcall hxs
    have hnode' : sp'.nodes n = some rec := (hbuilt.agree.2 n hn).trans hnode
    rw [if_pos (hcond.mpr hxs), hresult, Option.bind_some, hput sp' rec _ hnode', hptr]
    refine ⟨_, rfl, Tree.set_nodes_self, hbuilt.stored.set ?_,
      (hbuilt.agree.mono fun a ha => List.mem_cons_of_mem _ ha).set (by simp), fun a => ?_⟩
    · rwa [addrs_balance]
    · rw [(relinks_set hnode').2, hbuilt.isSome]

theorem rebalance_helper2_eq (low high : ℕ) :
    Tree.rebalance_helper2 array low high sp =
      array[low + (high - low) / 2]?.bind fun n =>
        (if low + 1 ≤ low + (high - low) / 2 then
          (Tree.rebalance_helper2 array low (low + (high - low) / 2 - 1) sp).bind
            fun x => x.2.put (.left n) (some x.1)
        else sp.put (.left n) none).bind fun sp =>
        (if low + (high - low) / 2 + 1 ≤ high then
          (Tree.rebalance_helper2 array (low + (high - low) / 2 + 1) high sp).bind
            fun x => x.2.put (.right n) (some x.1)
        else sp.put (.right n) none).bind fun sp => some (n, sp) := by
  rw [Tree.rebalance_helper2]
  by_cases hleft : low + 1 ≤ low + (high - low) / 2 <;>
    by_cases hright : low + (high - low) / 2 + 1 ≤ high <;>
    simp [hleft, hright, Option.bind_assoc]

/-- **The halves linked below the middle**, for any part of the array. -/
theorem rebalance_helper2_spec (pre xs post : List (Entry K V))
    (harray : array = (pre ++ xs ++ post).map Entry.addr)
    (hnodup : array.Nodup) (hne : xs ≠ []) (hholds : ∀ e ∈ xs, Holds sp e) :
    ∃ n sp', Tree.rebalance_helper2 array pre.length (pre.length + xs.length - 1) sp =
        some (n, sp') ∧ ptr (balance xs) = some n ∧ Built xs sp sp' := by
  induction hlength : xs.length using Nat.strong_induction_on generalizing pre xs post sp with
  | _ length ih =>
    obtain ⟨left, e, right, rfl, hmiddle⟩ := exists_middle hne
    have hxs : length = left.length + right.length + 1 := by
      rw [← hlength]
      simp only [List.length_append, List.length_cons]
      omega
    have hnodup' : (left.map Entry.addr ++ e.addr :: right.map Entry.addr).Nodup := by
      rw [harray, List.map_append, List.map_append] at hnodup
      simpa using (List.nodup_append.mp (List.nodup_append.mp hnodup).1).2.1
    obtain ⟨hleft, hright, hdisjoint⟩ := List.nodup_append.mp hnodup'
    obtain ⟨hnotright, hright⟩ := List.nodup_cons.mp hright
    have hnotleft : e.addr ∉ left.map Entry.addr := fun h =>
      hdisjoint _ h _ List.mem_cons_self rfl
    have hget : array[pre.length + left.length]? = some e.addr := by
      rw [harray]
      simp
    obtain ⟨pl, pr, hnode⟩ := hholds e (by simp)
    -- the left half
    obtain ⟨sp₁, hput₁, hnode₁, hstored₁, hagree₁, hsome₁⟩ :=
      link_half left (pre.length + 1 ≤ pre.length + left.length)
        (Tree.rebalance_helper2 array pre.length (pre.length + left.length - 1) sp)
        (.left e.addr) (fun rec p => { rec with left := p })
        (by rw [← List.length_pos_iff]; omega)
        (fun hne => ih left.length (by omega) pre left (e :: right ++ post)
          (by rw [harray]; simp) hne (fun e' he' => hholds e' (by simp [he'])) rfl)
        (fun _ _ _ h => Tree.put_left h) hnotleft hnode
    -- the right half
    have hholds₁ : ∀ e' ∈ right, Holds sp₁ e' := fun e' he' => by
      obtain ⟨pl, pr, hnode'⟩ := hholds e' (by simp [he'])
      have hmem : e'.addr ∈ right.map Entry.addr := List.mem_map_of_mem he'
      refine ⟨pl, pr, (hagree₁.2 _ ?_).trans hnode'⟩
      grind
    obtain ⟨sp₂, hput₂, hnode₂, hstored₂, hagree₂, hsome₂⟩ :=
      link_half right (pre.length + left.length + 1 ≤ pre.length + left.length + right.length)
        (Tree.rebalance_helper2 array (pre.length + left.length + 1)
          (pre.length + left.length + right.length) sp₁)
        (.right e.addr) (fun rec p => { rec with right := p })
        (by rw [← List.length_pos_iff]; omega)
        (fun hne => by
          have hcall := ih right.length (by omega) (pre ++ left ++ [e]) right post
            (by rw [harray]; simp) hne hholds₁ rfl
          have hlow : (pre ++ left ++ [e]).length = pre.length + left.length + 1 := by
            simp [Nat.add_assoc]
          rw [hlow] at hcall
          rwa [show pre.length + left.length + 1 + right.length - 1 =
            pre.length + left.length + right.length by omega] at hcall)
        (fun _ _ _ h => Tree.put_right h) hnotright hnode₁
    refine ⟨e.addr, sp₂, ?_, by rw [balance_append e hmiddle]; rfl, ⟨?_, ?_, ?_⟩⟩
    · rw [rebalance_helper2_eq, show pre.length + (pre.length + length - 1 - pre.length) / 2 =
        pre.length + left.length by omega, show pre.length + length - 1 =
        pre.length + left.length + right.length by omega, hget]
      rw [Option.bind_some, hput₁, Option.bind_some, hput₂, Option.bind_some]
    · rw [balance_append e hmiddle]
      refine ⟨hnode₂, hstored₁.congr fun a ha => ?_, hstored₂⟩
      rw [addrs_balance] at ha
      exact hagree₂.2 a (by grind)
    · exact hagree₁.trans (hagree₂.mono (by simp; grind)) (by simp; grind)
    · exact fun a => (hsome₂ a).trans (hsome₁ a)

/-- **Rebalancing** keeps the nodes and their order and, from three keys on, makes the tree the
lowest possible. -/
theorem rebalance_spec (h : Represents sp t) (hkeys : sp.num_keys = t.numNodes)
    (hfuel : 4 * t.numNodes ≤ fuel) :
    ∃ sp' t', sp.rebalance fuel = some sp' ∧ Represents sp' t' ∧ inorder t' = inorder t ∧
      (2 < t.numNodes → t' = balance (inorder t)) ∧ Relinks sp sp' := by
  rw [Tree.rebalance]
  by_cases hfew : sp.num_keys ≤ 2
  · rw [if_pos hfew]
    exact ⟨sp, t, rfl, h, rfl, fun h => by omega, Relinks.refl sp⟩
  have hlength : (inorder t).length = sp.num_keys := by rw [length_inorder, hkeys]
  have hvisit : sp.foreach fuel sp.rebalance_helper1 [] = some (0, addrs t) := by
    rw [foreach_spec h hkeys hfuel, visit_rebalance_helper1 _ _ (by simp [addrs, hlength])]
    rfl
  have hne : inorder t ≠ [] := by
    intro hnil
    rw [hnil] at hlength
    simp only [List.length_nil] at hlength
    omega
  obtain ⟨n, sp', hlink, hptr, hbuilt⟩ := rebalance_helper2_spec [] (inorder t) []
    (by simp [addrs] : addrs t = _) h.nodup hne h.stored.holds
  simp only [List.length_nil, Nat.zero_add, hlength] at hlink
  rw [if_neg hfew, hvisit]
  simp only [Option.bind_eq_bind, Option.bind_some, hlink]
  have hnodes : addrs (balance (inorder t)) = addrs t := addrs_balance _
  refine ⟨_, balance (inorder t), rfl, ⟨hptr.symm, hbuilt.stored, hnodes ▸ h.nodup, ?_⟩,
    inorder_balance _, fun _ => rfl, ⟨?_, hbuilt.isSome⟩⟩
  · intro a ha
    rw [hnodes]
    exact h.only a ((hbuilt.isSome a).symm.trans ha)
  · rw [hbuilt.agree.1]

end

end DocMachine.SplayTree
