import DocMachine.Lib.DataType
import DocMachine.SplayTree.Operations

/-!
# The splay tree as an ordered dictionary

The purpose of `SplayTrees/bounds-splay-tree.c`: a finite map from keys to nodes with values, with
the nearest keys below and above a key.

* A `Dictionary` gives the node and the value of a key. `dictionary` says of each operation when it
  may be called and what it returns and leaves: `insert` returns the node of a key that is there,
  and otherwise a new one, for which the caller names an address that is not in use.
* There may be up to `2 ^ 32 - 1` keys, as `num_keys` has 32 bits.
* `Contents` relates a tree to a dictionary, and `Represents` a memory to one. The library on the
  refinement of data types turns one operation into any sequence of them.

Results:
* `tree_refines_dictionary`: on a new tree every sequence of allowed operations ends, without
  `abort` or an access outside the memory, and returns what the dictionary returns; then the nodes
  in memory are those of the dictionary. `allows_of_nodup` says which sequences are allowed.
* `foreach_dictionary`: traversal goes over the nodes in the order of their keys, each once, until
  the function returns something else than zero.
* `rebalance_least_height`: rebalancing leaves the nodes in the same order, in a tree as low as any
  with as many nodes.
* `lookup_rebalance_lookup`: rebalancing does not forget the last key that was splayed, so that a
  lookup of it after `rebalance` may find the key below the root.
-/

namespace DocMachine.SplayTree

open DocMachine.Lib.DataType DocMachine.Lib.Splay

/-- A call of the API. For an insertion `node` is the address that `malloc` would give. -/
inductive Op (K V : Type) where
  | insert (key : K) (value : V) (node : Addr)
  | remove (key : K)
  | lookup (key : K)
  | predecessor (key : K)
  | successor (key : K)

/-- The nodes and values of the keys. -/
abbrev Dictionary (K V : Type) := K → Option (Addr × V)

variable {K V : Type}

namespace Dictionary

/-- The keys that have a node. -/
def keys (m : Dictionary K V) : Set K := {k | m k ≠ none}

/-- The node of a key. -/
def node (m : Dictionary K V) (key : K) : Option Addr := (m key).map Prod.fst

end Dictionary

/-! ## Contents of a tree -/

/-- The entries of the tree are those of the dictionary. -/
def Contents (t : BinaryTree (Entry K V)) (m : Dictionary K V) : Prop :=
  ∀ e : Entry K V, e ∈ inorder t ↔ m e.key = some (e.addr, e.value)

variable {sp : Tree K V} {t : BinaryTree (Entry K V)} {m : Dictionary K V} {e : Entry K V}
  {k key : K} {fuel : ℕ}

theorem contents_new : Contents (.nil : BinaryTree (Entry K V)) fun _ => none := by
  intro e
  simp [inorder]

theorem Contents.mem_keys (h : Contents t m) : k ∈ m.keys ↔ ∃ e ∈ inorder t, e.key = k := by
  constructor
  · intro hk
    obtain ⟨⟨a, v⟩, hmk⟩ := Option.ne_none_iff_exists'.mp hk
    exact ⟨⟨a, k, v⟩, (h _).mpr hmk, rfl⟩
  · rintro ⟨e, he, rfl⟩ hnone
    rw [(h e).mp he] at hnone
    cases hnone

theorem Contents.node (h : Contents t m) (he : e ∈ inorder t) : m.node e.key = some e.addr := by
  rw [Dictionary.node, (h e).mp he]
  rfl

theorem Contents.new_iff (h : Contents t m) : (∀ e ∈ inorder t, e.key ≠ key) ↔ m key = none := by
  have hkeys : key ∈ m.keys ↔ m key ≠ none := Iff.rfl
  rw [← not_iff_not, ← ne_eq (m key), ← hkeys, h.mem_keys]
  push Not
  rfl

/-- The nodes in memory are those of the dictionary. -/
theorem Contents.nodes (h : Contents t m) (hrep : Represents sp t) (a : Addr) (k : K) (v : V) :
    m k = some (a, v) ↔ ∃ left right, sp.nodes a = some ⟨k, v, left, right⟩ := by
  rw [← h ⟨a, k, v⟩]
  constructor
  · exact fun he => hrep.stored.holds _ he
  · rintro ⟨left, right, hnode⟩
    have hmem := hrep.only a (by rw [hnode]; rfl)
    obtain ⟨e, he, rfl⟩ := List.mem_map.mp hmem
    obtain ⟨left', right', hnode'⟩ := hrep.stored.holds e he
    rw [hnode] at hnode'
    cases hnode'
    exact he

theorem keys_update [DecidableEq K] {p : Addr × V} :
    Dictionary.keys (Function.update m key (some p)) = insert key m.keys := by
  ext k
  rw [Set.mem_insert_iff]
  by_cases hk : k = key
  · simp [Dictionary.keys, hk]
  · simp [Dictionary.keys, hk]

theorem keys_update_none_subset [DecidableEq K] (m : Dictionary K V) (key : K) :
    Dictionary.keys (Function.update m key none) ⊆ m.keys := by
  intro k hk
  by_cases hkey : k = key
  · exact absurd (by rw [hkey, Function.update_self]) hk
  · rwa [Dictionary.keys, Set.mem_ofPred_eq, Function.update_of_ne hkey] at hk

variable [LinearOrder K]

theorem Contents.ncard_keys (h : Contents t m) (hsorted : Sorted Entry.key t) :
    m.keys.ncard = t.numNodes := by
  have hnodup : ((inorder t).map Entry.key).Nodup :=
    List.pairwise_map.mpr (hsorted.imp fun hlt => hlt.ne)
  have hkeys : m.keys = ((inorder t).map Entry.key).toFinset := by
    ext k
    simp [h.mem_keys]
  rw [hkeys, Set.ncard_coe_finset, List.toFinset_card_of_nodup hnodup, List.length_map,
    length_inorder]

/-! ## The specification -/

/-- The call in the C code. `remove` returns nothing. -/
def Op.exec (fuel : ℕ) (sp : Tree K V) : Op K V → Option (Option Addr × Tree K V)
  | .insert key value node => sp.insert fuel key value node
  | .remove key => (sp.remove fuel key).map fun sp => (none, sp)
  | .lookup key => sp.lookup fuel key
  | .predecessor key => sp.predecessor fuel key
  | .successor key => sp.successor fuel key

/-- What the operations are for. A new key needs an unused node, and its number must fit. -/
def dictionary : Spec (Dictionary K V) (Op K V) (Option Addr) where
  Pre m
    | .insert key _ node => m key = none → (∀ k, m.node k ≠ some node) ∧ m.keys.ncard + 1 < 2 ^ 32
    | _ => True
  Post m
    | .insert key value node, result, m' =>
      ∃ a, result = some a ∧ a = (m.node key).getD node ∧
        m' = Function.update m key (some (a, value))
    | .remove key, result, m' => result = none ∧ m' = Function.update m key none
    | .lookup key, result, m' => result = m.node key ∧ m' = m
    | .predecessor key, result, m' => m' = m ∧
      match result with
      | none => ∀ k ∈ m.keys, key ≤ k
      | some a => ∃ k, IsGreatest {k ∈ m.keys | k < key} k ∧ m.node k = some a
    | .successor key, result, m' => m' = m ∧
      match result with
      | none => ∀ k ∈ m.keys, k ≤ key
      | some a => ∃ k, IsLeast {k ∈ m.keys | key < k} k ∧ m.node k = some a

/-! ## Each operation -/

/-- The tree stands for the dictionary. -/
def Stands (sp : Tree K V) (m : Dictionary K V) : Prop :=
  ∃ t, Valid sp t ∧ Contents t m ∧ t.numNodes < 2 ^ 32

theorem exec_insert {value : V} {node : Addr} (h : Stands sp m) (hfuel : 2 ^ 34 ≤ fuel)
    (hpre : dictionary.Pre m (.insert key value node)) :
    ∃ r sp' m', Op.exec fuel sp (.insert key value node) = some (r, sp') ∧
      dictionary.Post m (.insert key value node) r m' ∧ Stands sp' m' := by
  obtain ⟨t, hvalid, hcontents, hsize⟩ := h
  have hncard := hcontents.ncard_keys hvalid.sorted
  obtain ⟨a, sp', t', hinsert, hvalid', hmem, haddr⟩ :=
    insert_stored key value node hvalid hsize (by omega : 4 * t.numNodes ≤ fuel) fun hne => by
      obtain ⟨hfresh, hless⟩ := hpre (hcontents.new_iff.mp hne)
      refine ⟨?_, by rwa [← hncard]⟩
      by_contra hused
      obtain ⟨rec, hrec⟩ := Option.ne_none_iff_exists'.mp hused
      have hm := (hcontents.nodes hvalid.toRepresents _ _ _).mpr ⟨_, _, hrec⟩
      exact hfresh rec.key (by rw [Dictionary.node, hm]; rfl)
  have hcontents' : Contents t' (Function.update m key (some (a, value))) := by
    intro e
    rw [hmem, hcontents]
    by_cases he : e.key = key
    · rw [he, Function.update_self]
      obtain ⟨addr, key', value'⟩ := e
      dsimp only at he
      subst he
      grind
    · rw [Function.update_of_ne he]
      constructor
      · rintro (rfl | h)
        · exact absurd rfl he
        · exact h.1
      · exact fun h => .inr ⟨h, he⟩
  refine ⟨some a, sp', _, hinsert, ⟨a, rfl, ?_, rfl⟩, t', hvalid', hcontents', ?_⟩
  · obtain ⟨e, he, rfl, rfl⟩ | ⟨hne, rfl⟩ := haddr
    · rw [hcontents.node he]
      rfl
    · rw [Dictionary.node, hcontents.new_iff.mp hne]
      rfl
  · rw [← hcontents'.ncard_keys hvalid'.sorted, keys_update]
    by_cases hkey : m key = none
    · have hless := (hpre hkey).2
      exact (Set.ncard_insert_le key m.keys).trans_lt hless
    · rw [Set.insert_eq_of_mem (by exact hkey), hncard]
      exact hsize

theorem exec_remove (h : Stands sp m) (hfuel : 2 ^ 34 ≤ fuel) :
    ∃ r sp' m', Op.exec fuel sp (.remove key) = some (r, sp') ∧
      dictionary.Post m (.remove key) r m' ∧ Stands sp' m' := by
  obtain ⟨t, hvalid, hcontents, hsize⟩ := h
  obtain ⟨sp', t', hremove, hvalid', horder⟩ :=
    remove_stored key hvalid hsize (by omega : 4 * t.numNodes ≤ fuel)
  refine ⟨none, sp', Function.update m key none, ?_, ⟨rfl, rfl⟩, t', hvalid', fun e => ?_, ?_⟩
  · rw [Op.exec, hremove]
    rfl
  · rw [horder, List.mem_filter, hcontents]
    by_cases he : e.key = key
    · simp [he]
    · simp [he]
  · rw [← length_inorder, horder]
    exact (List.length_filter_le _ _).trans_lt (by rwa [length_inorder])

theorem exec_lookup (h : Stands sp m) (hfuel : 2 ^ 34 ≤ fuel) :
    ∃ r sp' m', Op.exec fuel sp (.lookup key) = some (r, sp') ∧
      dictionary.Post m (.lookup key) r m' ∧ Stands sp' m' := by
  obtain ⟨t, hvalid, hcontents, hsize⟩ := h
  obtain ⟨sp', t', hlookup, hto⟩ :=
    lookup_stored key hvalid hsize (by omega : 4 * t.numNodes ≤ fuel)
  have horder := hto.inorder_eq
  refine ⟨_, sp', m, hlookup, ⟨?_, rfl⟩, t', hto.toValid, ?_, ?_⟩
  · cases hfind : (inorder t).find? fun e => e.key = key with
    | none =>
      have hnone : m key = none := hcontents.new_iff.mp (by simpa using hfind)
      rw [Dictionary.node, hnone]
      rfl
    | some e =>
      have hkey : e.key = key := by simpa using List.find?_some hfind
      rw [← hkey, hcontents.node (List.mem_of_find?_eq_some hfind)]
      rfl
  · rwa [Contents, horder]
  · rwa [numNodes_of_inorder horder]

theorem exec_predecessor (h : Stands sp m) (hfuel : 2 ^ 34 ≤ fuel) :
    ∃ r sp' m', Op.exec fuel sp (.predecessor key) = some (r, sp') ∧
      dictionary.Post m (.predecessor key) r m' ∧ Stands sp' m' := by
  obtain ⟨t, hvalid, hcontents, hsize⟩ := h
  obtain ⟨sp', t', hpredecessor, hvalid', horder⟩ :=
    predecessor_stored key hvalid hsize (by omega : 4 * t.numNodes ≤ fuel)
  refine ⟨_, sp', m, hpredecessor, ⟨rfl, ?_⟩, t', hvalid', ?_, ?_⟩
  · cases hlast : ((inorder t).filter fun e => e.key < key).getLast? with
    | none =>
      intro k hk
      obtain ⟨e, he, rfl⟩ := hcontents.mem_keys.mp hk
      rw [List.getLast?_eq_none_iff, List.filter_eq_nil_iff] at hlast
      simpa using hlast e he
    | some e =>
      obtain ⟨es, hes⟩ := List.getLast?_eq_some_iff.mp hlast
      have hsorted := hvalid.sorted.filter fun e => decide (e.key < key)
      rw [hes, List.pairwise_append] at hsorted
      have hmem : ∀ b, b ∈ inorder t ∧ b.key < key ↔ b ∈ es ∨ b = e := fun b => by
        rw [← List.mem_singleton, ← List.mem_append, ← hes]
        simp
      obtain ⟨he, hlt⟩ := (hmem e).mpr (.inr rfl)
      refine ⟨e.key, ⟨⟨hcontents.mem_keys.mpr ⟨e, he, rfl⟩, hlt⟩, ?_⟩, hcontents.node he⟩
      rintro k ⟨hk, hklt⟩
      obtain ⟨b, hb, rfl⟩ := hcontents.mem_keys.mp hk
      obtain hb | rfl := (hmem b).mp ⟨hb, hklt⟩
      · exact (hsorted.2.2 b hb e List.mem_cons_self).le
      · exact le_rfl
  · rwa [Contents, horder]
  · rwa [numNodes_of_inorder horder]

theorem exec_successor (h : Stands sp m) (hfuel : 2 ^ 34 ≤ fuel) :
    ∃ r sp' m', Op.exec fuel sp (.successor key) = some (r, sp') ∧
      dictionary.Post m (.successor key) r m' ∧ Stands sp' m' := by
  obtain ⟨t, hvalid, hcontents, hsize⟩ := h
  obtain ⟨sp', t', hsuccessor, hvalid', horder⟩ :=
    successor_stored key hvalid hsize (by omega : 4 * t.numNodes ≤ fuel)
  refine ⟨_, sp', m, hsuccessor, ⟨rfl, ?_⟩, t', hvalid', ?_, ?_⟩
  · cases hhead : ((inorder t).filter fun e => key < e.key).head? with
    | none =>
      intro k hk
      obtain ⟨e, he, rfl⟩ := hcontents.mem_keys.mp hk
      rw [List.head?_eq_none_iff, List.filter_eq_nil_iff] at hhead
      simpa using hhead e he
    | some e =>
      obtain ⟨es, hes⟩ := List.head?_eq_some_iff.mp hhead
      have hsorted := hvalid.sorted.filter fun e => decide (key < e.key)
      rw [hes, List.pairwise_cons] at hsorted
      have hmem : ∀ b, b ∈ inorder t ∧ key < b.key ↔ b = e ∨ b ∈ es := fun b => by
        rw [← List.mem_cons, ← hes]
        simp
      obtain ⟨he, hlt⟩ := (hmem e).mpr (.inl rfl)
      refine ⟨e.key, ⟨⟨hcontents.mem_keys.mpr ⟨e, he, rfl⟩, hlt⟩, ?_⟩, hcontents.node he⟩
      rintro k ⟨hk, hklt⟩
      obtain ⟨b, hb, rfl⟩ := hcontents.mem_keys.mp hk
      obtain rfl | hb := (hmem b).mp ⟨hb, hklt⟩
      · exact le_rfl
      · exact (hsorted.1 b hb).le
  · rwa [Contents, horder]
  · rwa [numNodes_of_inorder horder]

/-! ## All sequences of operations -/

/-- **Refinement.** On a new tree every sequence of operations ends, without `abort` or an access
outside the memory, and returns what the dictionary returns; then the nodes in memory are those of
the dictionary. -/
theorem tree_refines_dictionary (hfuel : 2 ^ 34 ≤ fuel) {ops : List (Op K V)}
    (hops : dictionary.Allows (fun _ => none) ops) :
    ∃ results sp m, runs (Op.exec fuel) Tree.new ops = some (results, sp) ∧
      dictionary.Serves (fun _ => none) ops results m ∧
      ∀ a k v, m k = some (a, v) ↔ ∃ left right, sp.nodes a = some ⟨k, v, left, right⟩ := by
  have hnew : Stands (Tree.new : Tree K V) fun _ => none :=
    ⟨.nil, valid_new, contents_new, Nat.two_pow_pos 32⟩
  have hstep : ∀ (sp : Tree K V) m op, Stands sp m → dictionary.Pre m op →
      ∃ r sp' m', Op.exec fuel sp op = some (r, sp') ∧ dictionary.Post m op r m' ∧
        Stands sp' m' := fun sp m op h hpre => by
    cases op with
    | insert key value node => exact exec_insert h hfuel hpre
    | remove key => exact exec_remove h hfuel
    | lookup key => exact exec_lookup h hfuel
    | predecessor key => exact exec_predecessor h hfuel
    | successor key => exact exec_successor h hfuel
  obtain ⟨results, sp, m, hruns, hserves, t, hvalid, hcontents, -⟩ := refines hstep hnew hops
  exact ⟨results, sp, m, hruns, hserves, hcontents.nodes hvalid.toRepresents⟩

/-- The node that a call brings with it. -/
def Op.node? : Op K V → Option Addr
  | .insert _ _ node => some node
  | _ => none

omit [LinearOrder K] in
theorem node_update [DecidableEq K] {p : Option (Addr × V)} {a : Addr}
    (h : Dictionary.node (Function.update m key p) k = some a) :
    p.map Prod.fst = some a ∨ m.node k = some a := by
  unfold Dictionary.node at h ⊢
  by_cases hk : k = key
  · subst hk
    rw [Function.update_self] at h
    exact .inl h
  · rw [Function.update_of_ne hk] at h
    exact .inr h

/-- Calls that bring distinct unused nodes, less than `2 ^ 32` with those in use, are allowed. -/
theorem allows_of_nodup {ops : List (Op K V)} (hfinite : m.keys.Finite)
    (hnodup : (ops.filterMap Op.node?).Nodup)
    (hunused : ∀ k a, m.node k = some a → a ∉ ops.filterMap Op.node?)
    (hsize : m.keys.ncard + (ops.filterMap Op.node?).length < 2 ^ 32) :
    dictionary.Allows m ops := by
  induction ops generalizing m with
  | nil => trivial
  | cons op ops ih =>
    cases op with
    | insert key value node =>
      obtain ⟨hnode, hnodup⟩ := List.nodup_cons.mp hnodup
      have hlength : m.keys.ncard + ((ops.filterMap Op.node?).length + 1) < 2 ^ 32 := hsize
      refine ⟨fun _ => ⟨fun k hk => hunused k node hk List.mem_cons_self, by omega⟩, ?_⟩
      rintro r m' ⟨a, -, ha, rfl⟩
      have hle := Set.ncard_insert_le key m.keys
      refine ih ?_ hnodup (fun k b hb => ?_) ?_
      · rw [keys_update]
        exact hfinite.insert key
      · rcases node_update hb with hb | hb
        · -- the node of the key, if it has one, and else the new one
          obtain rfl : a = b := Option.some.inj hb
          cases hold : m.node key with
          | none =>
            rw [hold] at ha
            exact ha.symm ▸ hnode
          | some old =>
            rw [hold] at ha
            have hnot := hunused key old hold
            rw [ha]
            exact fun hmem => hnot (List.mem_cons_of_mem _ hmem)
        · exact fun hmem => hunused k b hb (List.mem_cons_of_mem _ hmem)
      · rw [keys_update]
        omega
    | remove key =>
      refine ⟨trivial, ?_⟩
      rintro r m' ⟨-, rfl⟩
      have hsub := keys_update_none_subset m key
      refine ih (hfinite.subset hsub) hnodup (fun k b hb => ?_)
        ((Nat.add_le_add_right (Set.ncard_le_ncard hsub hfinite) _).trans_lt hsize)
      rcases node_update hb with hb | hb
      · cases hb
      · exact hunused k b hb
    | lookup key =>
      refine ⟨trivial, ?_⟩
      rintro r m' ⟨-, rfl⟩
      exact ih hfinite hnodup hunused hsize
    | predecessor key | successor key =>
      refine ⟨trivial, ?_⟩
      rintro r m' ⟨rfl, -⟩
      exact ih hfinite hnodup hunused hsize

/-- Three keys, of which the middle one is removed. -/
def sixCalls : List (Op ℕ Bool) :=
  [.insert 3 true 7, .insert 1 true 8, .insert 2 false 9, .lookup 1, .remove 2, .predecessor 3]

theorem tree_refines_dictionary_sixCalls :
    ∃ results sp m, runs (Op.exec (2 ^ 34)) Tree.new sixCalls = some (results, sp) ∧
      dictionary.Serves (fun _ => none) sixCalls results m ∧
      ∀ a k v, m k = some (a, v) ↔ ∃ left right, sp.nodes a = some ⟨k, v, left, right⟩ := by
  have hempty : Dictionary.keys (fun _ : ℕ => (none : Option (Addr × Bool))) = ∅ := by
    simp [Dictionary.keys]
  refine tree_refines_dictionary le_rfl (allows_of_nodup ?_ (by decide) nofun ?_)
  · rw [hempty]
    exact Set.finite_empty
  · rw [hempty, Set.ncard_empty]
    decide

/-- The keys 1, 2 and 3, inserted in this order. -/
def threeKeys : Tree ℕ Bool :=
  ⟨Function.update (Function.update (Function.update (fun _ => none)
    7 (some ⟨1, true, none, none⟩)) 8 (some ⟨2, true, some 7, none⟩))
    9 (some ⟨3, false, some 8, none⟩), some 9, none, 3, 2500, 0, false⟩

theorem valid_threeKeys : Valid threeKeys
    (.node ⟨9, 3, false⟩ (.node ⟨8, 2, true⟩ (.node ⟨7, 1, true⟩ .nil .nil) .nil) .nil) := by
  refine ⟨⟨rfl, ⟨rfl, ⟨rfl, ⟨rfl, trivial, trivial⟩, trivial⟩, trivial⟩, by decide, ?_⟩,
    by decide, rfl, nofun⟩
  intro a ha
  by_contra hmem
  simp only [addrs, inorder, List.nil_append, List.cons_append, List.map_cons, List.map_nil,
    List.mem_cons, List.not_mem_nil, or_false, not_or] at hmem
  simp [threeKeys, hmem] at ha

/-- Three keys with their nodes and values. -/
def threeEntries : Dictionary ℕ Bool :=
  Function.update (Function.update (Function.update (fun _ => none)
    1 (some (7, true))) 2 (some (8, true))) 3 (some (9, false))

theorem contents_threeKeys : Contents (.node ⟨9, 3, false⟩
    (.node ⟨8, 2, true⟩ (.node ⟨7, 1, true⟩ .nil .nil) .nil) .nil) threeEntries := by
  rintro ⟨a, k, v⟩
  simp only [inorder, List.nil_append, List.cons_append, List.mem_cons, List.not_mem_nil, or_false,
    Entry.mk.injEq, threeEntries, Function.update_apply]
  grind

theorem threeKeys_stands : Stands threeKeys threeEntries :=
  ⟨_, valid_threeKeys, contents_threeKeys, by decide⟩

/-- **Traversal.** `foreach` goes over the nodes of the dictionary in the order of their keys, each
once, until the function returns something else than zero. -/
theorem foreach_dictionary {σ : Type} (fn : Addr → σ → Option (ℤ × σ)) (data : σ)
    (h : Stands sp m) (hfuel : 2 ^ 34 ≤ fuel) :
    ∃ es : List (Entry K V), es.Pairwise (fun e e' => e.key < e'.key) ∧
      (∀ e, e ∈ es ↔ m e.key = some (e.addr, e.value)) ∧
      sp.foreach fuel fn data = visit fn (es.map Entry.addr) data := by
  obtain ⟨t, hvalid, hcontents, hsize⟩ := h
  exact ⟨inorder t, hvalid.sorted, hcontents,
    foreach_spec hvalid.toRepresents hvalid.keys (by omega : 4 * t.numNodes ≤ fuel) fn data⟩

theorem foreach_dictionary_threeKeys :
    ∃ es : List (Entry ℕ Bool), es.Pairwise (fun e e' => e.key < e'.key) ∧
      (∀ e, e ∈ es ↔ threeEntries e.key = some (e.addr, e.value)) ∧
      threeKeys.foreach (2 ^ 34) (fun a addrs => some (0, addrs ++ [a])) [] =
        visit (fun a addrs => some (0, addrs ++ [a])) (es.map Entry.addr) [] :=
  foreach_dictionary _ _ threeKeys_stands le_rfl

/-! ## Rebalancing between two operations -/

/-- **Rebalancing** leaves the nodes of the dictionary, in the same order, in a tree as low as any
with as many nodes. -/
theorem rebalance_least_height (h : Valid sp t) (hcontents : Contents t m)
    (hsize : t.numNodes < 2 ^ 32) (hfuel : 2 ^ 34 ≤ fuel) :
    ∃ sp' t', sp.rebalance fuel = some sp' ∧ Represents sp' t' ∧ inorder t' = inorder t ∧
      Contents t' m ∧
      ∀ u : BinaryTree (Entry K V), u.numNodes = t'.numNodes → t'.height ≤ u.height := by
  obtain ⟨sp', t', hrebalance, hrep, horder, hbalance, -⟩ :=
    rebalance_spec h.toRepresents h.keys (by omega : 4 * t.numNodes ≤ fuel)
  refine ⟨sp', t', hrebalance, hrep, horder, by rwa [Contents, horder], fun u hu => ?_⟩
  have hnodes := numNodes_of_inorder horder
  have hless := numNodes_lt_two_pow_height u
  by_cases hfew : 2 < t.numNodes
  · rw [hbalance hfew]
    refine height_balance_le ?_
    rwa [length_inorder, ← hnodes, ← hu]
  · have hheight := BinaryTree.height_le_numNodes t'
    by_contra hlow
    obtain hzero | hone : u.height = 0 ∨ u.height = 1 := by omega
    · rw [hzero] at hless
      omega
    · rw [hone] at hless
      omega

theorem rebalance_least_height_threeKeys :
    ∃ sp' t', threeKeys.rebalance (2 ^ 34) = some sp' ∧ Represents sp' t' ∧
      (inorder t').map Entry.key = [1, 2, 3] ∧ Contents t' threeEntries ∧
      ∀ u : BinaryTree (Entry ℕ Bool), u.numNodes = t'.numNodes → t'.height ≤ u.height := by
  obtain ⟨sp', t', hrebalance, hrep, horder, hcontents, hheight⟩ :=
    rebalance_least_height valid_threeKeys contents_threeKeys (by decide) le_rfl
  exact ⟨sp', t', hrebalance, hrep, by rw [horder]; rfl, hcontents, hheight⟩

/-- **The remembered key.** `rebalance` does not forget the last key that was splayed. When the
same key is looked up before and after it, the second lookup only finds the key in the middle. -/
theorem lookup_rebalance_lookup (h : Valid sp t) (hsize : t.numNodes < 2 ^ 32)
    (hfuel : 2 ^ 34 ≤ fuel) (hmany : 2 < t.numNodes) (he : e ∈ inorder t) :
    ∃ sp₁ sp₂, sp.lookup fuel e.key = some (some e.addr, sp₁) ∧ sp₁.rebalance fuel = some sp₂ ∧
      sp₂.lookup fuel e.key =
        some (if ((inorder t)[(t.numNodes - 1) / 2]?).map Entry.key = some e.key then some e.addr
          else none, sp₂) := by
  have hfuel₁ : 4 * t.numNodes ≤ fuel := by omega
  obtain ⟨sp₁, t₁, hlookup, hto⟩ := lookup_stored e.key h hsize hfuel₁
  have hvalid := hto.toValid
  have hnodes := numNodes_of_inorder hto.inorder_eq
  obtain ⟨sp₂, t₂, hrebalance, hrep, horder, hbalance, hrelinks⟩ :=
    rebalance_spec hvalid.toRepresents hvalid.keys (by rwa [hnodes] : 4 * t₁.numNodes ≤ fuel)
  have hfind : (inorder t).find? (fun e' => e'.key = e.key) = some e := by
    cases hfind : (inorder t).find? fun e' => e'.key = e.key with
    | none =>
      rw [List.find?_eq_none] at hfind
      exact absurd (decide_eq_true rfl) (hfind e he)
    | some b =>
      have hkey : b.key = e.key := by simpa using List.find?_some hfind
      rw [h.sorted.eq_of_key (List.mem_of_find?_eq_some hfind) he hkey]
  refine ⟨sp₁, sp₂, by rw [hlookup, hfind]; rfl, hrebalance, ?_⟩
  have hlast : sp₂.last_splayed_key = some e.key := by
    rw [hrelinks.1]
    exact hto.last (by rintro rfl; cases he)
  have hne : inorder t ≠ [] := List.ne_nil_of_mem he
  obtain ⟨left, b, right, hmiddle, hlength⟩ := exists_middle hne
  have ht₂ : t₂ = .node b (balance left) (balance right) := by
    rw [hbalance (by rwa [hnodes]), hto.inorder_eq, hmiddle, balance_append b hlength]
  have hmid : (inorder t)[(t.numNodes - 1) / 2]? = some b := by
    rw [← length_inorder, hmiddle]
    have hindex : ((left ++ b :: right).length - 1) / 2 = left.length := by
      rw [List.length_append, List.length_cons]
      omega
    rw [hindex]
    simp
  subst ht₂
  rw [hmid, Tree.lookup, Tree.splay, if_neg (by rw [hrep.root]; exact Option.some_ne_none _),
    if_pos hlast]
  simp only [Option.bind_eq_bind, Option.pure_def, Option.bind_some]
  rw [hrep.root]
  simp only [ptr, hrep.stored.1, Option.bind_some, Entry.node, Option.map_some, Option.some.injEq]
  by_cases hkey : b.key = e.key
  · have hb : b ∈ inorder t := hmiddle ▸ List.mem_append_right _ List.mem_cons_self
    rw [if_pos hkey, if_pos hkey, h.sorted.eq_of_key hb he hkey]
  · rw [if_neg hkey, if_neg hkey]

theorem lookup_rebalance_lookup_threeKeys : ∃ sp₁ sp₂,
    threeKeys.lookup (2 ^ 34) 3 = some (some 9, sp₁) ∧ sp₁.rebalance (2 ^ 34) = some sp₂ ∧
      sp₂.lookup (2 ^ 34) 3 = some (none, sp₂) :=
  lookup_rebalance_lookup (e := ⟨9, 3, false⟩) valid_threeKeys (by decide) le_rfl (by decide)
    (by decide)

end DocMachine.SplayTree
