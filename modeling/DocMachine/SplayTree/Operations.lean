import DocMachine.SplayTree.Rebalance

/-!
# The operations of the splay tree

The functions of `SplayTrees/bounds-splay-tree.c` from 248 to 456 on a tree in memory. Each has one
specification, about the list of the entries in order.

* Between two operations the memory of the tree is `Valid`: it stores a sorted tree and nothing
  else, `num_keys` is its size, and a key that is remembered has been splayed.
* A tree may be too high for the recursion. Then the first search changes no link, and the second
  one, after `rebalance`, goes through, as the height is below the limit for every number of keys
  that 32 bits hold.

Results:
* `splay_root_spec`: a search from the root finds the tree too high and changes no link, or splays
  the tree.
* `splay_stored`: a splay never aborts, and leaves the same entries in the same order, with no key
  between the root and the key.
* `insert_stored` and `remove_stored`: insertion, where `malloc` gives an unused address if the key
  is new, and removal.
* `walk_right`: the loops of `remove`, `predecessor` and `successor` end at the outermost node.
-/

namespace DocMachine.SplayTree

open DocMachine.Lib.Splay

variable {K V : Type} {sp sp' : Tree K V} {t l r : BinaryTree (Entry K V)} {e : Entry K V}

/-! ## Splaying -/

theorem Represents.congr (h : Represents sp t) (hnodes : sp'.nodes = sp.nodes)
    (hroot : sp'.root = sp.root) : Represents sp' t :=
  ⟨hroot.trans h.root, hnodes ▸ h.stored, h.nodup, hnodes ▸ h.only⟩

theorem Represents.root_eq_none (h : Represents sp t) : sp.root = none ↔ t = .nil := by
  rw [h.root]
  cases t <;> simp [ptr]

section

variable [LinearOrder K] {key : K} {value : V} {node : Addr} {fuel : ℕ}

/-- What holds of the memory between two operations. -/
structure Valid (sp : Tree K V) (t : BinaryTree (Entry K V)) : Prop extends Represents sp t where
  sorted : Sorted Entry.key t
  keys : sp.num_keys = t.numNodes
  cached : ∀ k, sp.last_splayed_key = some k → Splayed Entry.key k t

theorem valid_new : Valid (Tree.new : Tree K V) .nil :=
  ⟨⟨rfl, trivial, List.nodup_nil, nofun⟩, List.Pairwise.nil, rfl, nofun⟩

/-- A search from the root finds the tree too high and changes no link, or splays the tree. -/
theorem splay_root_spec (key : K) (h : Represents sp t) (hne : t ≠ .nil) :
    (sp.splay_root key = some { sp with depth := 0, rebalance_p := true } ∧
      sp.max_depth < t.height) ∨
    ∃ sp', sp.splay_root key = some sp' ∧ Represents sp' (splay Entry.key key t) ∧
      Relinks { sp with depth := 0, rebalance_p := false } sp' := by
  cases t with
  | nil => exact absurd rfl hne
  | node e l r =>
    have hat : At { sp with depth := 0, rebalance_p := false } ⟨[], e, l, r⟩ :=
      ⟨h.root, h.stored, h.nodup⟩
    obtain ⟨n, sp', hcall, hresult⟩ : Returns key [] (.node e l r) _
        (Tree.splay_helper key (sp.max_depth + 2) .root none none _) :=
      splay_helper_spec hat rfl (by simp) (by simp)
    have hroot : sp.splay_root key = some sp' := by
      simp only [Tree.splay_root, hcall]
      rfl
    obtain ⟨rfl, hhigh⟩ | ⟨y, x, hy, hraised, -⟩ := hresult
    · exact .inl ⟨hroot, by simpa using hhigh⟩
    · have hframes : x.frames = [] := by simpa using hraised.place
      have hsplay : splay Entry.key key (.node e l r) = treeOf x := by
        rw [splay, hy]
        exact hraised.splayUp.symm.trans (by rw [Located.splayUp, hframes]; rfl)
      have hperm : (addrs (treeOf x)).Perm (addrs (.node e l r)) := by
        have hperm := hraised.perm
        rwa [hframes] at hperm
      have haround := hraised.at_place.around
      rw [hframes] at haround
      refine .inr ⟨sp', hroot, hsplay ▸ ⟨haround, hraised.at_place.stored, ?_, ?_⟩,
        hraised.relinks⟩
      · exact hperm.nodup_iff.mpr h.nodup
      · intro a ha
        exact hperm.mem_iff.mpr (h.only a ((hraised.relinks.2 a).symm.trans ha))

/-- What a splay leaves. -/
structure SplayedTo (key : K) (sp : Tree K V) (t : BinaryTree (Entry K V)) (sp' : Tree K V)
    (t' : BinaryTree (Entry K V)) : Prop extends Valid sp' t' where
  inorder_eq : inorder t' = inorder t
  splayed : Splayed Entry.key key t'
  isSome : ∀ a, (sp'.nodes a).isSome = (sp.nodes a).isSome
  last : t ≠ .nil → sp'.last_splayed_key = some key

/-- A search that goes through, with the key remembered after it. -/
theorem splayedTo_of_relinks {sp₀ : Tree K V} {t₀ : BinaryTree (Entry K V)} (h : Valid sp₀ t₀)
    (hsorted : Sorted Entry.key t) (heq : inorder t = inorder t₀)
    (hrep : Represents sp' (splay Entry.key key t)) (hkeys : sp'.num_keys = sp₀.num_keys)
    (hsome : ∀ a, (sp'.nodes a).isSome = (sp₀.nodes a).isSome) :
    SplayedTo key sp₀ t₀ { sp' with last_splayed_key := some key }
      (splay Entry.key key t) := by
  obtain ⟨hinorder, hsplayed⟩ := splay_spec (k := key) hsorted
  have horder := hinorder.trans heq
  refine ⟨⟨hrep.congr rfl rfl, h.sorted.of_inorder horder, ?_, ?_⟩, horder, hsplayed, hsome,
    fun _ => rfl⟩
  · exact hkeys.trans (h.keys.trans (numNodes_of_inorder horder).symm)
  · intro k hk
    obtain rfl := Option.some.inj hk
    exact hsplayed

/-- **A splay**, also of a tree that is too high for the recursion: it never aborts, and it leaves
the same entries in the same order, with no key between the root and the key. -/
theorem splay_stored (key : K) (h : Valid sp t) (hsize : t.numNodes < 2 ^ 32)
    (hfuel : 4 * t.numNodes ≤ fuel) :
    ∃ sp' t', sp.splay fuel key = some sp' ∧ SplayedTo key sp t sp' t' := by
  rw [Tree.splay]
  by_cases hnil : t = .nil
  · rw [if_pos (h.root_eq_none.mpr hnil)]
    exact ⟨sp, t, rfl, h, rfl, hnil ▸ trivial, fun _ => rfl, fun hne => absurd hnil hne⟩
  rw [if_neg (mt h.root_eq_none.mp hnil)]
  by_cases hcached : sp.last_splayed_key = some key
  · rw [if_pos hcached]
    exact ⟨sp, t, rfl, h, rfl, h.cached key hcached, fun _ => rfl, fun _ => hcached⟩
  rw [if_neg hcached]
  have hrep : Represents { sp with max_depth := 2500 } t := h.toRepresents.congr rfl rfl
  obtain ⟨hroot, hhigh⟩ | ⟨sp₁, hroot, hrep₁, hrelinks⟩ := splay_root_spec key hrep hnil
  · -- too high: the tree is balanced, which makes it low enough
    have hrep₁ : Represents (Tree.mk sp.nodes sp.root sp.last_splayed_key sp.num_keys 2500 0 true)
        t := hrep.congr rfl rfl
    obtain ⟨sp₂, t₂, hbalance, hrep₂, horder, hlow, hrelinks₂⟩ :=
      rebalance_spec hrep₁ h.keys hfuel
    have hnodes := BinaryTree.height_le_numNodes t
    have hheight : t₂.height ≤ 32 := by
      rw [hlow (by simp only at hhigh; omega)]
      exact height_balance_le (by rw [length_inorder]; exact hsize)
    have hmax : sp₂.max_depth = 2500 := by rw [hrelinks₂.1]
    have hnil₂ : t₂ ≠ .nil := by
      rintro rfl
      have hempty := numNodes_of_inorder horder
      simp only [BinaryTree.numNodes] at hempty
      simp only at hhigh
      omega
    obtain ⟨-, hhigh₂⟩ | ⟨sp₃, hroot₃, hrep₃, hrelinks₃⟩ :=
      splay_root_spec key hrep₂ hnil₂
    · omega
    · have hflag : sp₃.rebalance_p = false := by rw [hrelinks₃.1]
      refine ⟨{ sp₃ with last_splayed_key := some key }, splay Entry.key key t₂, ?_, ?_⟩
      · simp [hroot, hbalance, hroot₃, hflag]
      · refine splayedTo_of_relinks h (h.sorted.of_inorder horder) horder hrep₃ ?_ ?_
        · rw [hrelinks₃.1, hrelinks₂.1]
        · exact fun a => (hrelinks₃.2 a).trans (hrelinks₂.2 a)
  · have hflag : sp₁.rebalance_p = false := by rw [hrelinks.1]
    refine ⟨{ sp₁ with last_splayed_key := some key }, splay Entry.key key t, ?_, ?_⟩
    · simp [hroot, hflag]
    · refine splayedTo_of_relinks h h.sorted rfl hrep₁ ?_ hrelinks.2
      rw [hrelinks.1]

/-! ## Insertion -/

/-- The memory after a node has been made and the old root has lost a link. -/
theorem valid_insert (new : Entry K V) {rec rec' : Node K V} {t' : BinaryTree (Entry K V)}
    (h : Valid sp (.node e l r)) (hfresh : sp.nodes new.addr = none)
    (hptr : ptr t' = some new.addr)
    (hstored : Stored ((sp.set new.addr rec).set e.addr rec').nodes t')
    (hperm : (inorder t').Perm (new :: inorder (.node e l r))) (hsorted : Sorted Entry.key t')
    (hsize : (BinaryTree.node e l r).numNodes + 1 < 2 ^ 32) :
    Valid { (sp.set new.addr rec).set e.addr rec' with
      num_keys := (sp.num_keys + 1) % 2 ^ 32, root := some new.addr, last_splayed_key := none }
      t' := by
  have haddrs : (addrs t').Perm (new.addr :: addrs (.node e l r)) := hperm.map Entry.addr
  have hnot : new.addr ∉ addrs (.node e l r) := fun hmem => by
    have hsome := h.stored.isSome _ hmem
    rw [hfresh] at hsome
    cases hsome
  have hlength := hperm.length_eq
  rw [List.length_cons, length_inorder, length_inorder] at hlength
  refine ⟨⟨hptr.symm, hstored, haddrs.nodup_iff.mpr (List.nodup_cons.mpr ⟨hnot, h.nodup⟩), ?_⟩,
    hsorted, ?_, nofun⟩
  · intro a ha
    rw [haddrs.mem_iff, List.mem_cons]
    by_cases hroot : a = e.addr
    · exact .inr (by simp [hroot])
    by_cases hnew : a = new.addr
    · exact .inl hnew
    · dsimp only at ha
      rw [Tree.set_nodes_of_ne hroot, Tree.set_nodes_of_ne hnew] at ha
      exact .inr (h.only a ha)
  · simp only [h.keys, hlength]
    exact Nat.mod_eq_of_lt hsize

/-- What an insertion leaves: the entry with the key and the value, at the address of the node
that had the key or else at the new one. -/
structure Inserted (key : K) (value : V) (node a : Addr) (t t' : BinaryTree (Entry K V)) :
    Prop where
  mem : ∀ e, e ∈ inorder t' ↔ e = ⟨a, key, value⟩ ∨ e ∈ inorder t ∧ e.key ≠ key
  addr : (∃ e ∈ inorder t, e.key = key ∧ e.addr = a) ∨ (∀ e ∈ inorder t, e.key ≠ key) ∧ a = node

/-- The root has the key. -/
theorem valid_replace {value : V} (h : Valid sp (.node e l r)) :
    Valid (sp.set e.addr { e.node (ptr l) (ptr r) with value := value })
      (.node { e with value := value } l r) := by
  have hnodup := h.nodup
  rw [addrs_node, List.nodup_append, List.nodup_cons] at hnodup
  obtain ⟨-, ⟨hright, -⟩, hleft⟩ := hnodup
  have hnotleft : e.addr ∉ addrs l := fun hmem => hleft _ hmem _ List.mem_cons_self rfl
  have hsorted := h.sorted
  rw [Sorted, inorder, List.pairwise_append, List.pairwise_cons] at hsorted
  refine ⟨⟨h.root, ⟨Tree.set_nodes_self, h.stored.2.1.set hnotleft, h.stored.2.2.set hright⟩,
    by simpa using h.nodup, ?_⟩, ?_, h.keys, h.cached⟩
  · intro a ha
    by_cases hroot : a = e.addr
    · simp [hroot]
    · rw [Tree.set_nodes_of_ne hroot] at ha
      simpa using h.only a ha
  · rw [Sorted, inorder, List.pairwise_append, List.pairwise_cons]
    refine ⟨hsorted.1, hsorted.2.1, fun a ha b hb => ?_⟩
    obtain rfl | hb := List.mem_cons.mp hb
    · exact hsorted.2.2 a ha e List.mem_cons_self
    · exact hsorted.2.2 a ha b (List.mem_cons_of_mem _ hb)

/-- The root has another key: it becomes a child of the new node. -/
theorem link_new (value : V) (h : Valid sp (.node e l r)) (hlt : ∀ b ∈ inorder l, b.key < key)
    (hgt : ∀ b ∈ inorder r, key < b.key) (hne : e.key ≠ key) (hfresh : sp.nodes node = none)
    (hsize : (BinaryTree.node e l r).numNodes + 1 < 2 ^ 32) :
    ∃ sp' t',
      (if e.key < key then do
        let sp ← sp.malloc node ⟨key, value, some e.addr, ptr r⟩
        let sp ← sp.put (.right e.addr) none
        some (some node, { sp with
          num_keys := (sp.num_keys + 1) % 2 ^ 32, root := some node, last_splayed_key := none })
      else do
        let sp ← sp.malloc node ⟨key, value, ptr l, some e.addr⟩
        let sp ← sp.put (.left e.addr) none
        some (some node, { sp with
          num_keys := (sp.num_keys + 1) % 2 ^ 32, root := some node, last_splayed_key := none })) =
        some (some node, sp') ∧
      Valid sp' t' ∧ (inorder t').Perm (⟨node, key, value⟩ :: inorder (.node e l r)) := by
  have hstored := h.stored
  have haddr : e.addr ≠ node := fun heq => by
    rw [← heq, hstored.1] at hfresh
    cases hfresh
  have hnot : ∀ u : BinaryTree (Entry K V), Stored sp.nodes u → node ∉ addrs u :=
    fun u hu hmem => by
      have hsome := hu.isSome _ hmem
      rw [hfresh] at hsome
      cases hsome
  have hnodup := h.nodup
  rw [addrs_node, List.nodup_append, List.nodup_cons] at hnodup
  obtain ⟨-, ⟨hright, -⟩, hleft⟩ := hnodup
  have hnotleft : e.addr ∉ addrs l := fun hmem => hleft _ hmem _ List.mem_cons_self rfl
  have hl : ∀ {rec rec'}, Stored ((sp.set node rec).set e.addr rec').nodes l :=
    (hstored.2.1.set (hnot l hstored.2.1)).set hnotleft
  have hr : ∀ {rec rec'}, Stored ((sp.set node rec).set e.addr rec').nodes r :=
    (hstored.2.2.set (hnot r hstored.2.2)).set hright
  have hnode : ∀ {rec}, (sp.set node rec).nodes e.addr = some (e.node (ptr l) (ptr r)) :=
    (Tree.set_nodes_of_ne haddr).trans hstored.1
  have hnew : ∀ {rec rec'}, ((sp.set node rec).set e.addr rec').nodes node = some rec :=
    (Tree.set_nodes_of_ne haddr.symm).trans Tree.set_nodes_self
  have hsorted := h.sorted
  rw [Sorted, inorder, List.pairwise_append, List.pairwise_cons] at hsorted
  obtain ⟨hsortedl, ⟨hroot, hsortedr⟩, hlr⟩ := hsorted
  by_cases hcmp : e.key < key
  · rw [if_pos hcmp]
    simp only [Tree.malloc, hfresh, Option.bind_eq_bind, Option.bind_some, Tree.put_right hnode]
    have hperm : (inorder (.node ⟨node, key, value⟩ (.node e l .nil) r)).Perm
        (⟨node, key, value⟩ :: inorder (.node e l r)) := by
      have hmiddle : ((inorder l ++ [e]) ++ ⟨node, key, value⟩ :: inorder r).Perm
          (⟨node, key, value⟩ :: ((inorder l ++ [e]) ++ inorder r)) := List.perm_middle
      simpa [inorder] using hmiddle
    refine ⟨_, .node ⟨node, key, value⟩ (.node e l .nil) r, rfl,
      valid_insert ⟨node, key, value⟩ h hfresh rfl
        ⟨hnew, ⟨Tree.set_nodes_self, hl, trivial⟩, hr⟩ hperm ?_ hsize, hperm⟩
    simp only [Sorted, inorder, List.pairwise_append, List.pairwise_cons, List.mem_append,
      List.mem_cons]
    grind
  · have hcmp' : key < e.key := lt_of_le_of_ne (not_lt.mp hcmp) hne.symm
    rw [if_neg hcmp]
    simp only [Tree.malloc, hfresh, Option.bind_eq_bind, Option.bind_some, Tree.put_left hnode]
    have hperm : (inorder (.node ⟨node, key, value⟩ l (.node e .nil r))).Perm
        (⟨node, key, value⟩ :: inorder (.node e l r)) := by
      exact List.perm_middle
    refine ⟨_, .node ⟨node, key, value⟩ l (.node e .nil r), rfl,
      valid_insert ⟨node, key, value⟩ h hfresh rfl
        ⟨hnew, hl, ⟨Tree.set_nodes_self, trivial, hr⟩⟩ hperm ?_ hsize, hperm⟩
    simp only [Sorted, inorder, List.pairwise_append, List.pairwise_cons, List.mem_append,
      List.mem_cons]
    grind

/-- **Insertion.** `malloc` gives an unused address if the key is new. -/
theorem insert_stored (key : K) (value : V) (node : Addr) (h : Valid sp t)
    (hsize : t.numNodes < 2 ^ 32)
    (hfuel : 4 * t.numNodes ≤ fuel)
    (hmalloc : (∀ e ∈ inorder t, e.key ≠ key) → sp.nodes node = none ∧ t.numNodes + 1 < 2 ^ 32) :
    ∃ a sp' t', sp.insert fuel key value node = some (some a, sp') ∧ Valid sp' t' ∧
      Inserted key value node a t t' := by
  obtain ⟨sp₁, t₁, hsplay, hto⟩ := splay_stored key h hsize hfuel
  have hvalid := hto.toValid
  rw [Tree.insert, hsplay]
  simp only [Option.bind_eq_bind, Option.bind_some]
  rw [← hto.inorder_eq, ← numNodes_of_inorder hto.inorder_eq] at hmalloc
  have hfresh : (∀ e ∈ inorder t₁, e.key ≠ key) → sp₁.nodes node = none := fun hnew => by
    have hsome := hto.isSome node
    rw [(hmalloc hnew).1] at hsome
    exact Option.not_isSome_iff_eq_none.mp (by rw [hsome]; simp)
  suffices hinserted : ∃ a sp' t', _ = some (some a, sp') ∧ Valid sp' t' ∧
      Inserted key value node a t₁ t' by
    obtain ⟨a, sp', t', hinsert, hvalid', hmem, haddr⟩ := hinserted
    rw [hto.inorder_eq] at hmem haddr
    exact ⟨a, sp', t', hinsert, hvalid', hmem, haddr⟩
  cases t₁ with
  | nil =>
    have hnone : sp₁.nodes node = none := hfresh fun _ he => absurd he List.not_mem_nil
    rw [hvalid.root]
    simp only [ptr, Tree.malloc, hnone, Option.bind_some]
    refine ⟨node, _, .node ⟨node, key, value⟩ .nil .nil, rfl, ⟨⟨rfl, ⟨Tree.set_nodes_self, trivial,
      trivial⟩, by simp, fun a ha => ?_⟩, by simp [Sorted, inorder], ?_, by simp⟩, ?_,
      .inr ⟨fun _ he => absurd he List.not_mem_nil, rfl⟩⟩
    · by_cases hnode : a = node
      · simp [hnode]
      · dsimp only at ha
        rw [Tree.set_nodes_of_ne hnode] at ha
        exact absurd (hvalid.only a ha) List.not_mem_nil
    · simp [Tree.set, hvalid.keys]
    · simp [inorder]
  | node e l r =>
    have hlt := hto.splayed.left_lt hvalid.sorted
    have hgt := hto.splayed.lt_right hvalid.sorted
    have hstored := hvalid.stored
    rw [hvalid.root]
    simp only [ptr, hstored.1, Option.bind_some]
    by_cases heq : e.key = key
    · rw [if_pos (by exact heq)]
      refine ⟨e.addr, _, _, rfl, valid_replace hvalid, fun b => ?_,
        .inl ⟨e, by simp [inorder], heq, rfl⟩⟩
      simp only [inorder, List.mem_append, List.mem_cons]
      constructor
      · rintro (hb | rfl | hb)
        · exact .inr ⟨.inl hb, (hlt b hb).ne⟩
        · exact .inl (by rw [← heq])
        · exact .inr ⟨.inr (.inr hb), (hgt b hb).ne'⟩
      · rintro (rfl | ⟨hb | rfl | hb, hne⟩)
        · exact .inr (.inl (by rw [← heq]))
        · exact .inl hb
        · exact absurd heq hne
        · exact .inr (.inr hb)
    · have hnew : ∀ b ∈ inorder (.node e l r), b.key ≠ key := by
        simp only [inorder, List.mem_append, List.mem_cons]
        rintro b (hb | rfl | hb)
        · exact (hlt b hb).ne
        · exact heq
        · exact (hgt b hb).ne'
      have hnone := hfresh hnew
      rw [if_neg (by exact heq)]
      obtain ⟨sp', t', hlink, hvalid', hperm⟩ :=
        link_new value hvalid hlt hgt heq hnone (hmalloc hnew).2
      refine ⟨node, sp', t', hlink, hvalid', fun b => ?_, .inr ⟨hnew, rfl⟩⟩
      rw [hperm.mem_iff, List.mem_cons]
      exact or_congr_right ⟨fun hb => ⟨hb, hnew b hb⟩, And.left⟩

/-! ## Walking down -/

omit [LinearOrder K] in
theorem ptr_append (t u : BinaryTree (Entry K V)) (h : t ≠ .nil) : ptr (append t u) = ptr t := by
  cases t with
  | nil => exact absurd rfl h
  | node e l r => rfl

omit [LinearOrder K] in
/-- The loop to the right ends at the last node; a tree linked there hangs off the tree. -/
theorem walk_right (sp : Tree K V) (hstored : Stored sp.nodes (.node e l r))
    (hnodup : (addrs (.node e l r)).Nodup) (hfuel : (BinaryTree.node e l r).numNodes ≤ fuel) :
    ∃ b, sp.walk Node.right fuel e.addr = some b.addr ∧
      (inorder (.node e l r)).getLast? = some b ∧
      ∀ u, Stored sp.nodes u → (∀ a ∈ addrs (.node e l r), a ∉ addrs u) →
        ∃ sp', sp.put (.right b.addr) (ptr u) = some sp' ∧
          Stored sp'.nodes (append (.node e l r) u) ∧ Agree (addrs (.node e l r)) sp sp' ∧
          ∀ a, (sp'.nodes a).isSome = (sp.nodes a).isSome := by
  generalize ht : BinaryTree.node e l r = t at *
  induction t generalizing e l r fuel with
  | nil => cases ht
  | node e l r ihl ihr =>
    cases ht
    obtain ⟨hnode, hl, hr⟩ := hstored
    obtain ⟨fuel, rfl⟩ := Nat.exists_eq_add_of_le' (show 1 ≤ fuel by
      simp only [BinaryTree.numNodes] at hfuel
      omega)
    rw [addrs_node, List.nodup_append, List.nodup_cons] at hnodup
    obtain ⟨-, ⟨hnotright, hnodupr⟩, hdisjoint⟩ := hnodup
    have hnotleft : e.addr ∉ addrs l := fun hmem => hdisjoint _ hmem _ List.mem_cons_self rfl
    cases r with
    | nil =>
      refine ⟨e, by simp [Tree.walk, hnode, Entry.node, ptr], by simp [inorder], fun u hu hne => ?_⟩
      refine ⟨_, Tree.put_right hnode, ⟨Tree.set_nodes_self, hl.set hnotleft, hu.set ?_⟩, ?_, ?_⟩
      · exact hne _ (by simp)
      · exact (Agree.refl _ sp).set (by simp)
      · exact (relinks_set hnode).2
    | node e' l' r' =>
      have hless : (BinaryTree.node e' l' r').numNodes ≤ fuel := by
        simp only [BinaryTree.numNodes] at hfuel ⊢
        omega
      obtain ⟨b, hwalk, hlast, happend⟩ := ihr rfl hr hnodupr hless
      refine ⟨b, ?_, ?_, fun u hu hne => ?_⟩
      · rw [Tree.walk, hnode]
        exact hwalk
      · rw [inorder, List.getLast?_append, List.getLast?_cons, hlast]
        rfl
      · obtain ⟨sp', hput, hstored', hagree, hsome⟩ := happend u hu fun a ha => hne a (by
          rw [addrs_node]
          exact List.mem_append_right _ (List.mem_cons_of_mem _ ha))
        refine ⟨sp', hput, ⟨?_, hl.congr fun a ha => ?_, hstored'⟩, hagree.mono ?_, hsome⟩
        · rw [ptr_append (.node e' l' r') u (fun h => by cases h)]
          exact (hagree.2 _ hnotright).trans hnode
        · exact hagree.2 a fun hmem => hdisjoint a ha a (List.mem_cons_of_mem _ hmem) rfl
        · intro a ha
          rw [addrs_node (e := e)]
          exact List.mem_append_right _ (List.mem_cons_of_mem _ ha)

omit [LinearOrder K] in
theorem walk_left (hstored : Stored sp.nodes (.node e l r))
    (hfuel : (BinaryTree.node e l r).numNodes ≤ fuel) :
    ∃ b, sp.walk Node.left fuel e.addr = some b.addr ∧
      (inorder (.node e l r)).head? = some b := by
  generalize ht : BinaryTree.node e l r = t at *
  induction t generalizing e l r fuel with
  | nil => cases ht
  | node e l r ihl ihr =>
    cases ht
    obtain ⟨hnode, hl, -⟩ := hstored
    obtain ⟨fuel, rfl⟩ := Nat.exists_eq_add_of_le' (show 1 ≤ fuel by
      simp only [BinaryTree.numNodes] at hfuel
      omega)
    cases l with
    | nil => exact ⟨e, by simp [Tree.walk, hnode, Entry.node, ptr], rfl⟩
    | node e' l' r' =>
      have hless : (BinaryTree.node e' l' r').numNodes ≤ fuel := by
        simp only [BinaryTree.numNodes] at hfuel ⊢
        omega
      obtain ⟨b, hwalk, hhead⟩ := ihl rfl hl hless
      refine ⟨b, ?_, ?_⟩
      · rw [Tree.walk, hnode]
        exact hwalk
      · rw [inorder, List.head?_append, hhead]
        rfl

/-! ## Removal -/

omit [LinearOrder K] in
theorem Tree.free_nodes_self {n : Addr} : (sp.free n).nodes n = none := Function.update_self ..

omit [LinearOrder K] in
theorem Tree.free_nodes_of_ne {n m : Addr} (h : m ≠ n) : (sp.free n).nodes m = sp.nodes m :=
  Function.update_of_ne h ..

/-- The root is freed and the right subtree hangs off the last node of the left one. -/
theorem valid_remove (h : Valid sp (.node e l r)) (hroot : sp'.root = ptr (append l r))
    (hstored : Stored sp'.nodes (append l r))
    (hsome : ∀ a, (sp'.nodes a).isSome = ((sp.free e.addr).nodes a).isSome)
    (hkeys : sp'.num_keys = l.numNodes + r.numNodes) (hlast : sp'.last_splayed_key = none) :
    Valid sp' (append l r) := by
  have hnodup := h.nodup
  have hsorted := h.sorted
  rw [addrs_node, List.nodup_append, List.nodup_cons] at hnodup
  rw [Sorted, inorder, List.pairwise_append, List.pairwise_cons] at hsorted
  have haddrs : addrs (append l r) = addrs l ++ addrs r := by
    rw [addrs, inorder_append, List.map_append, addrs, addrs]
  refine ⟨⟨hroot, hstored, ?_, fun a ha => ?_⟩, ?_, ?_, by simp [hlast]⟩
  · rw [haddrs, List.nodup_append]
    exact ⟨hnodup.1, hnodup.2.1.2, fun a ha b hb => hnodup.2.2 a ha b (List.mem_cons_of_mem _ hb)⟩
  · rw [hsome] at ha
    by_cases hroot : a = e.addr
    · rw [hroot, Tree.free_nodes_self] at ha
      cases ha
    · rw [Tree.free_nodes_of_ne hroot] at ha
      have hmem := h.only a ha
      rw [addrs_node, List.mem_append, List.mem_cons] at hmem
      rw [haddrs, List.mem_append]
      tauto
  · rw [Sorted, inorder_append, List.pairwise_append]
    exact ⟨hsorted.1, hsorted.2.1.2, fun a ha b hb =>
      hsorted.2.2 a ha b (List.mem_cons_of_mem _ hb)⟩
  · rw [← length_inorder, inorder_append, List.length_append, length_inorder, length_inorder]
    exact hkeys

omit [LinearOrder K] in
/-- The links that `remove` makes once the root is freed. -/
theorem link_children (sp : Tree K V) (hl : Stored sp.nodes l) (hr : Stored sp.nodes r)
    (hnodup : (addrs l).Nodup) (hdisjoint : ∀ a ∈ addrs l, a ∉ addrs r)
    (hfuel : l.numNodes ≤ fuel) :
    ∃ sp',
      (match ptr l, ptr r with
      | some left, some right =>
        (Tree.walk { sp with root := some left } Node.right fuel left).bind fun last =>
          Tree.put { sp with root := some left } (.right last) (some right)
      | some left, none => some { sp with root := some left }
      | none, right => some { sp with root := right }) = some sp' ∧
      Relinks sp sp' ∧ sp'.root = ptr (append l r) ∧ Stored sp'.nodes (append l r) := by
  cases l with
  | nil => exact ⟨{ sp with root := ptr r }, by cases r <;> rfl, ⟨rfl, fun _ => rfl⟩, rfl, hr⟩
  | node e l' r' =>
    obtain ⟨b, hwalk, -, happend⟩ :=
      walk_right { sp with root := some e.addr } hl hnodup hfuel
    cases r with
    | nil =>
      rw [append_nil]
      exact ⟨{ sp with root := some e.addr }, rfl, ⟨rfl, fun _ => rfl⟩, rfl, hl⟩
    | node e₂ l₂ r₂ =>
      obtain ⟨sp', hput, hstored, hagree, hsome⟩ := happend _ hr hdisjoint
      have hroot : sp'.root = some e.addr := by rw [hagree.1]
      refine ⟨sp', ?_, ⟨?_, hsome⟩, hroot, hstored⟩
      · simp only [ptr, hwalk, Option.bind_some]
        exact hput
      · rw [hagree.1]

theorem filter_ne_eq {es : List (Entry K V)} (h : ∀ b ∈ es, b.key ≠ key) :
    es.filter (fun e => e.key ≠ key) = es := by
  rw [List.filter_eq_self]
  simpa using h

/-- **Removal.** -/
theorem remove_stored (key : K) (h : Valid sp t) (hsize : t.numNodes < 2 ^ 32)
    (hfuel : 4 * t.numNodes ≤ fuel) :
    ∃ sp' t', sp.remove fuel key = some sp' ∧ Valid sp' t' ∧
      inorder t' = (inorder t).filter fun e => e.key ≠ key := by
  obtain ⟨sp₁, t₁, hsplay, hto⟩ := splay_stored key h hsize hfuel
  have hvalid := hto.toValid
  have hnodes := numNodes_of_inorder hto.inorder_eq
  rw [Tree.remove, hsplay, ← hto.inorder_eq]
  simp only [Option.bind_eq_bind, Option.bind_some]
  have hvalid₁ : Valid { sp₁ with root := ptr t₁, last_splayed_key := none } t₁ :=
    ⟨hvalid.toRepresents.congr rfl hvalid.root.symm, hvalid.sorted, hvalid.keys, nofun⟩
  rw [hvalid.root]
  cases t₁ with
  | nil => exact ⟨_, .nil, rfl, hvalid₁, rfl⟩
  | node e l r =>
    have hlt := hto.splayed.left_lt hvalid.sorted
    have hgt := hto.splayed.lt_right hvalid.sorted
    have hfilterl : (inorder l).filter (fun e => e.key ≠ key) = inorder l :=
      filter_ne_eq fun b hb => (hlt b hb).ne
    have hfilterr : (inorder r).filter (fun e => e.key ≠ key) = inorder r :=
      filter_ne_eq fun b hb => (hgt b hb).ne'
    obtain ⟨hnode, hl, hr⟩ := hvalid.stored
    simp only [ptr, hnode, Option.bind_some]
    by_cases heq : e.key = key
    · rw [if_pos (by exact heq)]
      have horder : inorder (append l r) =
          (inorder (.node e l r)).filter fun e => e.key ≠ key := by
        rw [inorder_append, inorder, List.filter_append, List.filter_cons,
          if_neg (by simpa using heq), hfilterl, hfilterr]
      have hnodup := hvalid.nodup
      rw [addrs_node, List.nodup_append, List.nodup_cons] at hnodup
      obtain ⟨hnodupl, ⟨hnotright, -⟩, hdisjoint⟩ := hnodup
      have hnotleft : e.addr ∉ addrs l := fun hmem => hdisjoint _ hmem _ List.mem_cons_self rfl
      have hfree : ∀ {u : BinaryTree (Entry K V)}, Stored sp₁.nodes u → e.addr ∉ addrs u →
          Stored (sp₁.free e.addr).nodes u := fun hu hnot =>
        hu.congr fun a ha => Tree.free_nodes_of_ne fun heq => hnot (heq ▸ ha)
      have hkeys : (sp₁.num_keys + (2 ^ 32 - 1)) % 2 ^ 32 = l.numNodes + r.numNodes := by
        rw [hvalid.keys, BinaryTree.numNodes]
        rw [BinaryTree.numNodes] at hnodes
        omega
      obtain ⟨sp', hlink, hrelinks, hroot, hstored⟩ := link_children
        (Tree.mk (sp₁.free e.addr).nodes (some e.addr) none
          ((sp₁.num_keys + (2 ^ 32 - 1)) % 2 ^ 32) sp₁.max_depth sp₁.depth sp₁.rebalance_p)
        (hfree hl hnotleft) (hfree hr hnotright) hnodupl
        (fun a ha hmem => hdisjoint a ha a (List.mem_cons_of_mem _ hmem) rfl)
        (show l.numNodes ≤ fuel by rw [BinaryTree.numNodes] at hnodes; omega)
      refine ⟨sp', append l r, hlink, valid_remove hvalid hroot hstored hrelinks.2 ?_ ?_, horder⟩
      · rw [hrelinks.1]
        exact hkeys
      · rw [hrelinks.1]
    · rw [if_neg (by exact heq)]
      refine ⟨_, .node e l r, rfl, hvalid₁, ?_⟩
      rw [inorder, List.filter_append, List.filter_cons, if_pos (by simpa using heq), hfilterl,
        hfilterr]

/-! ## Queries -/

theorem lookup_stored (key : K) (h : Valid sp t) (hsize : t.numNodes < 2 ^ 32)
    (hfuel : 4 * t.numNodes ≤ fuel) :
    ∃ sp' t', sp.lookup fuel key =
        some (((inorder t).find? fun e => e.key = key).map Entry.addr, sp') ∧
      SplayedTo key sp t sp' t' := by
  obtain ⟨sp₁, t₁, hsplay, hto⟩ := splay_stored key h hsize hfuel
  have hvalid := hto.toValid
  refine ⟨sp₁, t₁, ?_, hto⟩
  rw [Tree.lookup, hsplay, ← hto.inorder_eq]
  simp only [Option.bind_eq_bind, Option.bind_some]
  rw [hvalid.root]
  cases t₁ with
  | nil => rfl
  | node e l r =>
    have hlt := hto.splayed.left_lt hvalid.sorted
    have hgt := hto.splayed.lt_right hvalid.sorted
    have hl : (inorder l).find? (fun e => e.key = key) = none := by
      simpa using fun b hb => (hlt b hb).ne
    have hr : (inorder r).find? (fun e => e.key = key) = none := by
      simpa using fun b hb => (hgt b hb).ne'
    simp only [ptr, hvalid.stored.1, Option.bind_some]
    rw [inorder, List.find?_append, hl, Option.none_or, List.find?_cons]
    by_cases heq : e.key = key
    · simp [heq, Entry.node]
    · simp [heq, Entry.node, hr]

theorem predecessor_stored (key : K) (h : Valid sp t) (hsize : t.numNodes < 2 ^ 32)
    (hfuel : 4 * t.numNodes ≤ fuel) :
    ∃ sp' t', sp.predecessor fuel key =
        some (((inorder t).filter fun e => e.key < key).getLast?.map Entry.addr, sp') ∧
      Valid sp' t' ∧ inorder t' = inorder t := by
  rw [Tree.predecessor]
  by_cases hnil : t = .nil
  · rw [if_pos (h.root_eq_none.mpr hnil), hnil]
    exact ⟨sp, .nil, rfl, hnil ▸ h, rfl⟩
  rw [if_neg (mt h.root_eq_none.mp hnil)]
  obtain ⟨sp₁, t₁, hsplay, hto⟩ := splay_stored key h hsize hfuel
  have hvalid := hto.toValid
  have hnodes := numNodes_of_inorder hto.inorder_eq
  refine ⟨sp₁, t₁, ?_, hvalid, hto.inorder_eq⟩
  rw [hsplay, ← hto.inorder_eq]
  simp only [Option.bind_eq_bind, Option.bind_some]
  rw [hvalid.root]
  cases t₁ with
  | nil => exact absurd (inorder_eq_nil.mp hto.inorder_eq.symm) hnil
  | node e l r =>
    have hlt := hto.splayed.left_lt hvalid.sorted
    have hgt := hto.splayed.lt_right hvalid.sorted
    obtain ⟨hnode, hl, -⟩ := hvalid.stored
    have hfilterl : (inorder l).filter (fun e => e.key < key) = inorder l := by
      rw [List.filter_eq_self]
      simpa using hlt
    have hfilterr : (inorder r).filter (fun e => e.key < key) = [] := by
      rw [List.filter_eq_nil_iff]
      simpa using fun b hb => (hgt b hb).le
    simp only [ptr, hnode, Option.bind_some]
    rw [inorder, List.filter_append, List.filter_cons, hfilterl, hfilterr]
    by_cases hcmp : e.key < key
    · simp [hcmp, Entry.node]
    · cases l with
      | nil => simp [hcmp, Entry.node, inorder]
      | node e' l' r' =>
        have hnodup := (List.nodup_append.mp (addrs_node .. ▸ hvalid.nodup)).1
        rw [BinaryTree.numNodes] at hnodes
        have hless : (BinaryTree.node e' l' r').numNodes ≤ fuel := by omega
        obtain ⟨b, hwalk, hlast, -⟩ := walk_right sp₁ hl hnodup hless
        simp [hcmp, Entry.node, hwalk, hlast]

theorem successor_stored (key : K) (h : Valid sp t) (hsize : t.numNodes < 2 ^ 32)
    (hfuel : 4 * t.numNodes ≤ fuel) :
    ∃ sp' t', sp.successor fuel key =
        some (((inorder t).filter fun e => key < e.key).head?.map Entry.addr, sp') ∧
      Valid sp' t' ∧ inorder t' = inorder t := by
  rw [Tree.successor]
  by_cases hnil : t = .nil
  · rw [if_pos (h.root_eq_none.mpr hnil), hnil]
    exact ⟨sp, .nil, rfl, hnil ▸ h, rfl⟩
  rw [if_neg (mt h.root_eq_none.mp hnil)]
  obtain ⟨sp₁, t₁, hsplay, hto⟩ := splay_stored key h hsize hfuel
  have hvalid := hto.toValid
  have hnodes := numNodes_of_inorder hto.inorder_eq
  refine ⟨sp₁, t₁, ?_, hvalid, hto.inorder_eq⟩
  rw [hsplay, ← hto.inorder_eq]
  simp only [Option.bind_eq_bind, Option.bind_some]
  rw [hvalid.root]
  cases t₁ with
  | nil => exact absurd (inorder_eq_nil.mp hto.inorder_eq.symm) hnil
  | node e l r =>
    have hlt := hto.splayed.left_lt hvalid.sorted
    have hgt := hto.splayed.lt_right hvalid.sorted
    obtain ⟨hnode, -, hr⟩ := hvalid.stored
    have hfilterl : (inorder l).filter (fun e => key < e.key) = [] := by
      rw [List.filter_eq_nil_iff]
      simpa using fun b hb => (hlt b hb).le
    have hfilterr : (inorder r).filter (fun e => key < e.key) = inorder r := by
      rw [List.filter_eq_self]
      simpa using hgt
    simp only [ptr, hnode, Option.bind_some]
    rw [inorder, List.filter_append, List.filter_cons, hfilterl, hfilterr]
    by_cases hcmp : key < e.key
    · simp [hcmp, Entry.node]
    · cases r with
      | nil => simp [hcmp, Entry.node, inorder]
      | node e' l' r' =>
        rw [BinaryTree.numNodes] at hnodes
        have hless : (BinaryTree.node e' l' r').numNodes ≤ fuel := by omega
        obtain ⟨b, hwalk, hhead⟩ := walk_left hr hless
        simp [hcmp, Entry.node, hwalk, hhead]

end

end DocMachine.SplayTree
