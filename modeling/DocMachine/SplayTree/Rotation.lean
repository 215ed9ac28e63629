import DocMachine.SplayTree.Stored

/-!
# Rotations in memory

The assignments at the end of `boundssplay_tree_splay_helper` (`SplayTrees/bounds-splay-tree.c`
117-184), which lift a node past its parent, or past its parent and its grandparent.

* The C code tells the cases by comparing what the two places above the node point to: without a
  grandparent one rotation, with both links on one side two rotations of the same direction, and two
  different ones otherwise.
* Each case is a sequence of assignments to links. What it amounts to is that the nodes in it are
  those of the rotated tree; the links of all others, and the subtrees that are moved, stay as they
  are.

Results:
* `finish`: the last assignment, to the place of the topmost of the nodes, after the others have
  been written.
* `rotate_stored`: the node of a stored tree has been brought past two frames, or past the last one,
  as the library's `rotate` does with trees.
-/

namespace DocMachine.SplayTree

open DocMachine.Lib.Splay

variable {K V : Type} {sp sp' : Tree K V} {frames : List (Frame (Entry K V))}
  {t t' : BinaryTree (Entry K V)} {p q : Option Addr} {n m : Addr} {r : Node K V}

/-! ## One assignment -/

theorem Tree.set_root : (sp.set n r).root = sp.root := rfl

theorem Tree.get_left : sp.get (.left n) = (sp.nodes n).map Node.left := rfl

theorem Tree.get_right : sp.get (.right n) = (sp.nodes n).map Node.right := rfl

theorem Tree.put_left_eq :
    sp.put (.left n) p = (sp.nodes n).map fun r => sp.set n { r with left := p } := rfl

theorem Tree.put_right_eq :
    sp.put (.right n) p = (sp.nodes n).map fun r => sp.set n { r with right := p } := rfl

theorem Tree.get_set (h : n ∉ frameAddrs frames) :
    (sp.set n r).get (placeOf frames) = sp.get (placeOf frames) := by
  cases frames with
  | nil => rfl
  | cons f frames =>
    have hne : f.label.addr ≠ n := fun heq => h (heq ▸ List.mem_cons_self)
    cases hside : f.isLeft <;> simp [placeOf, hside, get, set_nodes_of_ne hne]

theorem Around.set (h : Around sp frames p) (hn : n ∉ frameAddrs frames) :
    Around (sp.set n r) frames p :=
  h.congr rfl fun _ ha => Tree.set_nodes_of_ne fun heq => hn (heq ▸ ha)

/-- Only nodes in `ns` differ. -/
def Agree (ns : List Addr) (sp sp' : Tree K V) : Prop :=
  sp' = { sp with nodes := sp'.nodes } ∧ ∀ m, m ∉ ns → sp'.nodes m = sp.nodes m

theorem Agree.refl (ns : List Addr) (sp : Tree K V) : Agree ns sp sp := ⟨rfl, fun _ _ => rfl⟩

theorem Agree.set {ns : List Addr} (h : Agree ns sp sp') (hn : n ∈ ns) :
    Agree ns sp (sp'.set n r) := by
  refine ⟨?_, fun m hm => ?_⟩
  · rw [Tree.set, h.1]
  · have hne : m ≠ n := by
      rintro rfl
      exact hm hn
    rw [Tree.set_nodes_of_ne hne, h.2 m hm]

/-! ## Rotating -/

/-- A node and what is around it are stored, each node once. -/
structure At (sp : Tree K V) (x : Located (Entry K V)) : Prop where
  around : Around sp x.frames (some x.label.addr)
  stored : Stored sp.nodes (.node x.label x.left x.right)
  nodup : (frameAddrs x.frames ++ addrs (.node x.label x.left x.right)).Nodup

theorem perm_addrs_rotate (x : Located (Entry K V)) :
    (frameAddrs x.rotate.frames ++ addrs (.node x.rotate.label x.rotate.left x.rotate.right)).Perm
      (frameAddrs x.frames ++ addrs (.node x.label x.left x.right)) := by
  rw [List.perm_iff_count]
  intro b
  fun_cases Located.rotate x <;> simp [frameAddrs, List.count_append, List.count_cons] <;> omega

theorem Stored.isSome (h : Stored sp.nodes t) : ∀ a ∈ addrs t, (sp.nodes a).isSome := by
  induction t with
  | nil => nofun
  | node e l r ihl ihr =>
    intro a ha
    simp only [addrs_node, List.mem_append, List.mem_cons] at ha
    obtain ha | rfl | ha := ha
    · exact ihl h.2.1 a ha
    · rw [h.1]
      rfl
    · exact ihr h.2.2 a ha

/-- The last assignment, `*grandparent = n`, after the nodes in `ns` have been written. -/
theorem finish (x : Located (Entry K V)) {ns : List Addr} {q : Option Addr}
    (haround : Around sp x.frames q) (hagree : Agree ns sp sp')
    (hold : ∀ m ∈ ns, m ∉ frameAddrs x.frames ∧ (sp.nodes m).isSome)
    (hns : ∀ m ∈ ns, m ∈ addrs (.node x.label x.left x.right))
    (hstored : Stored sp'.nodes (.node x.label x.left x.right))
    (hnodup : (frameAddrs x.frames ++ addrs (.node x.label x.left x.right)).Nodup) :
    ∃ sp'', sp'.put (placeOf x.frames) (some x.label.addr) = some sp'' ∧ At sp'' x ∧
      Relinks sp sp'' := by
  obtain ⟨hfields, hagree⟩ := hagree
  obtain ⟨hframes, -, hdisjoint⟩ := List.nodup_append.mp hnodup
  have hroot : sp'.root = sp.root := by rw [hfields]
  have haround' : Around sp' x.frames q :=
    haround.congr hroot fun m hm => hagree m fun hmem => (hold m hmem).1 hm
  obtain ⟨sp'', hput, haround'', hrelinks, hsame⟩ := haround'.put hframes (some x.label.addr)
  refine ⟨sp'', hput, ⟨haround'', hstored.congr fun a ha => hsame a fun hmem => ?_, hnodup⟩, ?_⟩
  · exact hdisjoint a hmem a ha rfl
  · refine Relinks.trans ⟨by rw [hfields], fun m => ?_⟩ hrelinks
    by_cases hm : m ∈ ns
    · rw [(hold m hm).2, hstored.isSome m (hns m hm)]
    · rw [hagree m hm]

/-- The nodes that are written, and the trees and frames that are not. -/
structure Apart (ns : List Addr) (ts : List (BinaryTree (Entry K V)))
    (frames : List (Frame (Entry K V))) : Prop where
  nodup : ns.Nodup
  frames : ∀ m ∈ ns, m ∉ frameAddrs frames
  trees : ∀ t ∈ ts, ∀ m ∈ ns, m ∉ addrs t

theorem apart_one {f : Frame (Entry K V)} {a : Entry K V} {l r : BinaryTree (Entry K V)}
    (h : (frameAddrs [f] ++ addrs (.node a l r)).Nodup) :
    Apart [a.addr, f.label.addr] [l, r, f.sibling] ([] : List (Frame (Entry K V))) := by
  simp only [frameAddrs, addrs_node, List.cons_append, List.append_assoc, List.nodup_cons,
    List.nodup_append, List.mem_append, List.mem_cons, not_or] at h
  refine ⟨by grind, by grind [frameAddrs], fun t ht m hm => ?_⟩
  simp only [List.mem_cons, List.not_mem_nil, or_false] at ht hm
  obtain rfl | rfl | rfl := ht <;> grind

theorem apart_two {f g : Frame (Entry K V)} {a : Entry K V} {l r : BinaryTree (Entry K V)}
    (h : (frameAddrs (f :: g :: frames) ++ addrs (.node a l r)).Nodup) :
    Apart [a.addr, f.label.addr, g.label.addr] [l, r, f.sibling, g.sibling] frames := by
  simp only [frameAddrs, addrs_node, List.cons_append, List.append_assoc, List.nodup_cons,
    List.nodup_append, List.mem_append, List.mem_cons, not_or] at h
  refine ⟨by grind, by grind, fun t ht m hm => ?_⟩
  simp only [List.mem_cons, List.not_mem_nil, or_false] at ht hm
  obtain rfl | rfl | rfl | rfl := ht <;> grind

theorem Apart.stored {ns : List Addr} {ts : List (BinaryTree (Entry K V))}
    (h : Apart ns ts frames) (hstored : Stored sp.nodes t) (ht : t ∈ ts)
    (hagree : Agree ns sp sp') : Stored sp'.nodes t :=
  hstored.congr fun m hm => hagree.2 m fun hmem => h.trees t ht m hmem hm

theorem Apart.ptr_ne {ns : List Addr} {ts : List (BinaryTree (Entry K V))}
    (h : Apart ns ts frames) (ht : t ∈ ts) (hn : n ∈ ns) : ptr t ≠ some n := by
  cases t with
  | nil => nofun
  | node e l r =>
    rintro heq
    obtain rfl : e.addr = n := Option.some.inj heq
    exact h.trees _ ht _ hn (by simp)

/-! ### Past one frame -/

section

variable {a b c : Entry K V} {l r s u : BinaryTree (Entry K V)}

theorem rotate_left (h : At sp ⟨[⟨true, b, s⟩], a, l, r⟩) :
    ∃ sp', sp.rotate a.addr (.left b.addr) (some .root) none = some sp' ∧
      At sp' ⟨[], a, l, .node b r s⟩ ∧ Relinks sp sp' := by
  have hnodup := (perm_addrs_rotate ⟨[⟨true, b, s⟩], a, l, r⟩).nodup_iff.mpr h.nodup
  have hapart := apart_one h.nodup
  obtain ⟨⟨hb, hs, hroot⟩, ⟨ha, hl, hr⟩, -⟩ := h
  have hroot' : sp.root = some b.addr := hroot
  have hab : a.addr ≠ b.addr := by simpa using hapart.nodup
  simp only [nodeOf, Entry.node, if_true] at ha hb
  simp only [Tree.rotate, Tree.get, hroot', Option.bind_eq_bind, Option.bind_some, hb, if_true,
    Tree.put_left_eq, Tree.put_right_eq, Option.map_some, Tree.set_nodes_of_ne hab, Tree.set_root,
    ha]
  have hagree {r₁ r₂ : Node K V} :
      Agree [a.addr, b.addr] sp ((sp.set b.addr r₁).set a.addr r₂) :=
    ((Agree.refl _ _).set (by simp)).set (by simp)
  refine finish ⟨[], a, l, .node b r s⟩ hroot hagree (fun m hm => ⟨hapart.frames m hm, ?_⟩)
    (by simp) ⟨Tree.set_nodes_self, hapart.stored hl (by simp) hagree, ?_,
      hapart.stored hr (by simp) hagree, hapart.stored hs (by simp) hagree⟩ hnodup
  · simp only [List.mem_cons, List.not_mem_nil, or_false] at hm
    obtain rfl | rfl := hm <;> simp [ha, hb]
  · rw [Tree.set_nodes_of_ne hab.symm, Tree.set_nodes_self]
    rfl

theorem rotate_right (h : At sp ⟨[⟨false, b, s⟩], a, l, r⟩) :
    ∃ sp', sp.rotate a.addr (.right b.addr) (some .root) none = some sp' ∧
      At sp' ⟨[], a, .node b s l, r⟩ ∧ Relinks sp sp' := by
  have hnodup := (perm_addrs_rotate ⟨[⟨false, b, s⟩], a, l, r⟩).nodup_iff.mpr h.nodup
  have hapart := apart_one h.nodup
  obtain ⟨⟨hb, hs, hroot⟩, ⟨ha, hl, hr⟩, -⟩ := h
  have hroot' : sp.root = some b.addr := hroot
  have hab : a.addr ≠ b.addr := by simpa using hapart.nodup
  have hside : ptr s ≠ some a.addr := hapart.ptr_ne (by simp) (by simp)
  simp only [nodeOf, Entry.node, Bool.false_eq_true, if_false] at ha hb
  simp only [Tree.rotate, Tree.get, hroot', Option.bind_eq_bind, Option.bind_some, hb, hside,
    if_false, Tree.put_left_eq, Tree.put_right_eq, Option.map_some, Tree.set_nodes_of_ne hab,
    Tree.set_root, ha]
  have hagree {r₁ r₂ : Node K V} :
      Agree [a.addr, b.addr] sp ((sp.set b.addr r₁).set a.addr r₂) :=
    ((Agree.refl _ _).set (by simp)).set (by simp)
  refine finish ⟨[], a, .node b s l, r⟩ hroot hagree (fun m hm => ⟨hapart.frames m hm, ?_⟩)
    (by simp) ⟨Tree.set_nodes_self, ⟨?_, hapart.stored hs (by simp) hagree,
      hapart.stored hl (by simp) hagree⟩, hapart.stored hr (by simp) hagree⟩ hnodup
  · simp only [List.mem_cons, List.not_mem_nil, or_false] at hm
    obtain rfl | rfl := hm <;> simp [ha, hb]
  · rw [Tree.set_nodes_of_ne hab.symm, Tree.set_nodes_self]
    rfl

/-! ### Past two frames -/

theorem rotate_left_left
    (h : At sp ⟨⟨true, b, s⟩ :: ⟨true, c, u⟩ :: frames, a, l, r⟩) :
    ∃ sp', sp.rotate a.addr (.left b.addr) (some (.left c.addr)) (some (placeOf frames)) =
        some sp' ∧
      At sp' ⟨frames, a, l, .node b r (.node c s u)⟩ ∧ Relinks sp sp' := by
  have hnodup := (perm_addrs_rotate
    ⟨⟨true, b, s⟩ :: ⟨true, c, u⟩ :: frames, a, l, r⟩).nodup_iff.mpr h.nodup
  have hapart := apart_two h.nodup
  obtain ⟨⟨hb, hs, hc, hu, hframes⟩, ⟨ha, hl, hr⟩, -⟩ := h
  obtain ⟨⟨hab, hac⟩, hbc⟩ : (a.addr ≠ b.addr ∧ a.addr ≠ c.addr) ∧ b.addr ≠ c.addr := by
    simpa using hapart.nodup
  have hc' := hapart.frames c.addr (by simp)
  simp only [nodeOf, Entry.node, if_true] at ha hb hc
  simp only [Tree.rotate, Option.bind_eq_bind, Option.bind_some, Option.map_some, Tree.get_left,
    hframes.get, hb, hc, and_self, if_true, Tree.put_left_eq, Tree.put_right_eq, Tree.get_set hc',
    Tree.set_nodes_of_ne hab, Tree.set_nodes_of_ne hac, Tree.set_nodes_of_ne hbc,
    Tree.set_nodes_self, ha]
  have hagree {r₁ r₂ r₃ r₄ : Node K V} : Agree [a.addr, b.addr, c.addr] sp
      ((((sp.set c.addr r₁).set b.addr r₂).set b.addr r₃).set a.addr r₄) :=
    ((((Agree.refl _ _).set (by simp)).set (by simp)).set (by simp)).set (by simp)
  refine finish ⟨frames, a, l, .node b r (.node c s u)⟩ hframes hagree
    (fun m hm => ⟨hapart.frames m hm, ?_⟩) (by simp)
    ⟨Tree.set_nodes_self, hapart.stored hl (by simp) hagree, ?_,
      hapart.stored hr (by simp) hagree, ?_, hapart.stored hs (by simp) hagree,
      hapart.stored hu (by simp) hagree⟩ hnodup
  · simp only [List.mem_cons, List.not_mem_nil, or_false] at hm
    obtain rfl | rfl | rfl := hm <;> simp [ha, hb, hc]
  · rw [Tree.set_nodes_of_ne hab.symm, Tree.set_nodes_self]
    rfl
  · rw [Tree.set_nodes_of_ne hac.symm, Tree.set_nodes_of_ne hbc.symm, Tree.set_nodes_of_ne hbc.symm,
      Tree.set_nodes_self]
    rfl

theorem rotate_right_right
    (h : At sp ⟨⟨false, b, s⟩ :: ⟨false, c, u⟩ :: frames, a, l, r⟩) :
    ∃ sp', sp.rotate a.addr (.right b.addr) (some (.right c.addr)) (some (placeOf frames)) =
        some sp' ∧
      At sp' ⟨frames, a, .node b (.node c u s) l, r⟩ ∧ Relinks sp sp' := by
  have hnodup := (perm_addrs_rotate
    ⟨⟨false, b, s⟩ :: ⟨false, c, u⟩ :: frames, a, l, r⟩).nodup_iff.mpr h.nodup
  have hapart := apart_two h.nodup
  obtain ⟨⟨hb, hs, hc, hu, hframes⟩, ⟨ha, hl, hr⟩, -⟩ := h
  obtain ⟨⟨hab, hac⟩, hbc⟩ : (a.addr ≠ b.addr ∧ a.addr ≠ c.addr) ∧ b.addr ≠ c.addr := by
    simpa using hapart.nodup
  have hc' := hapart.frames c.addr (by simp)
  have hside : ptr s ≠ some a.addr := hapart.ptr_ne (by simp) (by simp)
  simp only [nodeOf, Entry.node, Bool.false_eq_true, if_false] at ha hb hc
  simp only [Tree.rotate, Option.bind_eq_bind, Option.bind_some, Option.map_some, Tree.get_right,
    hframes.get, hb, hc, hside, false_and, and_self, if_true, if_false, Tree.put_left_eq,
    Tree.put_right_eq, Tree.get_set hc', Tree.set_nodes_of_ne hab, Tree.set_nodes_of_ne hac,
    Tree.set_nodes_of_ne hbc, Tree.set_nodes_self, ha]
  have hagree {r₁ r₂ r₃ r₄ : Node K V} : Agree [a.addr, b.addr, c.addr] sp
      ((((sp.set c.addr r₁).set b.addr r₂).set b.addr r₃).set a.addr r₄) :=
    ((((Agree.refl _ _).set (by simp)).set (by simp)).set (by simp)).set (by simp)
  refine finish ⟨frames, a, .node b (.node c u s) l, r⟩ hframes hagree
    (fun m hm => ⟨hapart.frames m hm, ?_⟩) (by simp)
    ⟨Tree.set_nodes_self, ⟨?_, ⟨?_, hapart.stored hu (by simp) hagree,
      hapart.stored hs (by simp) hagree⟩, hapart.stored hl (by simp) hagree⟩,
      hapart.stored hr (by simp) hagree⟩ hnodup
  · simp only [List.mem_cons, List.not_mem_nil, or_false] at hm
    obtain rfl | rfl | rfl := hm <;> simp [ha, hb, hc]
  · rw [Tree.set_nodes_of_ne hab.symm, Tree.set_nodes_self]
    rfl
  · rw [Tree.set_nodes_of_ne hac.symm, Tree.set_nodes_of_ne hbc.symm, Tree.set_nodes_of_ne hbc.symm,
      Tree.set_nodes_self]
    rfl

theorem rotate_left_right
    (h : At sp ⟨⟨true, b, s⟩ :: ⟨false, c, u⟩ :: frames, a, l, r⟩) :
    ∃ sp', sp.rotate a.addr (.left b.addr) (some (.right c.addr)) (some (placeOf frames)) =
        some sp' ∧
      At sp' ⟨frames, a, .node c u l, .node b r s⟩ ∧ Relinks sp sp' := by
  have hnodup := (perm_addrs_rotate
    ⟨⟨true, b, s⟩ :: ⟨false, c, u⟩ :: frames, a, l, r⟩).nodup_iff.mpr h.nodup
  have hapart := apart_two h.nodup
  obtain ⟨⟨hb, hs, hc, hu, hframes⟩, ⟨ha, hl, hr⟩, -⟩ := h
  obtain ⟨⟨hab, hac⟩, hbc⟩ : (a.addr ≠ b.addr ∧ a.addr ≠ c.addr) ∧ b.addr ≠ c.addr := by
    simpa using hapart.nodup
  have hf : ∀ m ∈ [a.addr, b.addr, c.addr], m ∉ frameAddrs frames := hapart.frames
  simp only [List.forall_mem_cons] at hf
  have hside : ptr s ≠ some a.addr := hapart.ptr_ne (by simp) (by simp)
  have hside' : ptr u ≠ some b.addr := hapart.ptr_ne (by simp) (by simp)
  simp only [nodeOf, Entry.node, if_true, Bool.false_eq_true, if_false] at ha hb hc
  simp only [Tree.rotate, Option.bind_eq_bind, Option.bind_some, Option.map_some, Tree.get_right,
    hframes.get, hb, hc, hside, hside', and_false, false_and, if_true, if_false, Tree.put_left_eq,
    Tree.put_right_eq, Tree.get_set hf.1, Tree.get_set hf.2.1, Tree.get_set hf.2.2.1,
    Tree.set_nodes_of_ne hab, Tree.set_nodes_of_ne hac, Tree.set_nodes_of_ne hac.symm,
    Tree.set_nodes_of_ne hbc.symm, Tree.set_nodes_self, ha]
  have hagree {r₁ r₂ r₃ r₄ : Node K V} : Agree [a.addr, b.addr, c.addr] sp
      ((((sp.set b.addr r₁).set a.addr r₂).set c.addr r₃).set a.addr r₄) :=
    ((((Agree.refl _ _).set (by simp)).set (by simp)).set (by simp)).set (by simp)
  refine finish ⟨frames, a, .node c u l, .node b r s⟩ hframes hagree
    (fun m hm => ⟨hapart.frames m hm, ?_⟩) (by simp)
    ⟨Tree.set_nodes_self, ⟨?_, hapart.stored hu (by simp) hagree,
      hapart.stored hl (by simp) hagree⟩, ?_, hapart.stored hr (by simp) hagree,
      hapart.stored hs (by simp) hagree⟩ hnodup
  · simp only [List.mem_cons, List.not_mem_nil, or_false] at hm
    obtain rfl | rfl | rfl := hm <;> simp [ha, hb, hc]
  · rw [Tree.set_nodes_of_ne hac.symm, Tree.set_nodes_self]
    rfl
  · rw [Tree.set_nodes_of_ne hab.symm, Tree.set_nodes_of_ne hbc, Tree.set_nodes_of_ne hab.symm,
      Tree.set_nodes_self]
    rfl

theorem rotate_right_left
    (h : At sp ⟨⟨false, b, s⟩ :: ⟨true, c, u⟩ :: frames, a, l, r⟩) :
    ∃ sp', sp.rotate a.addr (.right b.addr) (some (.left c.addr)) (some (placeOf frames)) =
        some sp' ∧
      At sp' ⟨frames, a, .node b s l, .node c r u⟩ ∧ Relinks sp sp' := by
  have hnodup := (perm_addrs_rotate
    ⟨⟨false, b, s⟩ :: ⟨true, c, u⟩ :: frames, a, l, r⟩).nodup_iff.mpr h.nodup
  have hapart := apart_two h.nodup
  obtain ⟨⟨hb, hs, hc, hu, hframes⟩, ⟨ha, hl, hr⟩, -⟩ := h
  obtain ⟨⟨hab, hac⟩, hbc⟩ : (a.addr ≠ b.addr ∧ a.addr ≠ c.addr) ∧ b.addr ≠ c.addr := by
    simpa using hapart.nodup
  have hf : ∀ m ∈ [a.addr, b.addr, c.addr], m ∉ frameAddrs frames := hapart.frames
  simp only [List.forall_mem_cons] at hf
  have hside : ptr s ≠ some a.addr := hapart.ptr_ne (by simp) (by simp)
  have hside' : ptr u ≠ some b.addr := hapart.ptr_ne (by simp) (by simp)
  simp only [nodeOf, Entry.node, if_true, Bool.false_eq_true, if_false] at ha hb hc
  simp only [Tree.rotate, Option.bind_eq_bind, Option.bind_some, Option.map_some, Tree.get_left,
    hframes.get, hb, hc, hside, hside', and_false, false_and, if_false, Tree.put_left_eq,
    Tree.put_right_eq, Tree.get_set hf.1, Tree.get_set hf.2.1, Tree.get_set hf.2.2.1,
    Tree.set_nodes_of_ne hab, Tree.set_nodes_of_ne hac, Tree.set_nodes_of_ne hac.symm,
    Tree.set_nodes_of_ne hbc.symm, Tree.set_nodes_self, ha]
  have hagree {r₁ r₂ r₃ r₄ : Node K V} : Agree [a.addr, b.addr, c.addr] sp
      ((((sp.set b.addr r₁).set a.addr r₂).set c.addr r₃).set a.addr r₄) :=
    ((((Agree.refl _ _).set (by simp)).set (by simp)).set (by simp)).set (by simp)
  refine finish ⟨frames, a, .node b s l, .node c r u⟩ hframes hagree
    (fun m hm => ⟨hapart.frames m hm, ?_⟩) (by simp)
    ⟨Tree.set_nodes_self, ⟨?_, hapart.stored hs (by simp) hagree,
      hapart.stored hl (by simp) hagree⟩, ?_, hapart.stored hr (by simp) hagree,
      hapart.stored hu (by simp) hagree⟩ hnodup
  · simp only [List.mem_cons, List.not_mem_nil, or_false] at hm
    obtain rfl | rfl | rfl := hm <;> simp [ha, hb, hc]
  · rw [Tree.set_nodes_of_ne hab.symm, Tree.set_nodes_of_ne hbc, Tree.set_nodes_of_ne hab.symm,
      Tree.set_nodes_self]
    rfl
  · rw [Tree.set_nodes_of_ne hac.symm, Tree.set_nodes_self]
    rfl

end

/-- **Rotating in memory.** -/
theorem rotate_stored {x : Located (Entry K V)} (h : At sp x) :
    ∃ sp', sp.rotate x.label.addr (placeOf x.frames) (parentOf x.frames)
      (parentOf x.frames.tail) = some sp' ∧ At sp' x.rotate ∧ Relinks sp sp' := by
  fun_cases Located.rotate x with
  | case1 a l r => exact ⟨sp, rfl, h, .refl sp⟩
  | case2 b s a l r => exact rotate_left h
  | case3 b s a l r => exact rotate_right h
  | case4 b s c u frames a l r => exact rotate_left_left h
  | case5 b s c u frames a l r => exact rotate_right_right h
  | case6 b s c u frames a l r => exact rotate_left_right h
  | case7 b s c u frames a l r => exact rotate_right_left h

end DocMachine.SplayTree
