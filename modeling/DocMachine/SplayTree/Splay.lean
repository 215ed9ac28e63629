import DocMachine.SplayTree.Rotation

/-!
# Splaying in memory

`boundssplay_tree_splay_helper` (`SplayTrees/bounds-splay-tree.c` 70-185), from the first call at
the root of a stored tree.

* A call goes down to the child on the side of the key, and lifts the node that comes back if two
  levels were passed, or at the root. So every other level of the recursion rotates, which is told
  by comparing the pointer at the place with the node (`Raised.get`).
* Where the depth is used up, the calls return without a rotation and leave `rebalance_p` set.

Results:
* `splay_helper_nil`: a call for an empty place gives the node above it.
* `splay_helper_turn`: one level of the recursion.
* `splay_helper_spec`: a call brings the last node on the way to the key upwards, as `splayUp` of
  the library does, or finds the tree too high and changes nothing but `rebalance_p`.
-/

namespace DocMachine.SplayTree

open DocMachine.Lib.Splay

variable {K V : Type} {sp sp' : Tree K V} {frames : List (Frame (Entry K V))}
  {t : BinaryTree (Entry K V)} {x y : Located (Entry K V)} {n : Addr}

/-! ## Links to a node -/

/-- The nodes below the root. -/
def below : BinaryTree (Entry K V) → List Addr
  | .nil => []
  | .node _ l r => addrs l ++ addrs r

theorem mem_addrs_of_ptr {a : Addr} (h : ptr t = some a) : a ∈ addrs t := by
  cases t with
  | nil => cases h
  | node e l r =>
    cases h
    simp

theorem mem_addrs_of_below {a : Addr} (h : a ∈ below t) : a ∈ addrs t := by
  cases t with
  | nil => cases h
  | node e l r =>
    simp only [below, List.mem_append] at h
    simp only [addrs_node, List.mem_append, List.mem_cons]
    tauto

/-- The nodes of a stored tree are linked to nodes below its root. -/
theorem link_below {m a : Addr} {rec : Node K V} (h : Stored sp.nodes t) (hm : m ∈ addrs t)
    (hrec : sp.nodes m = some rec) (ha : rec.left = some a ∨ rec.right = some a) :
    a ∈ below t := by
  induction t with
  | nil => cases hm
  | node e l r ihl ihr =>
    obtain ⟨he, hl, hr⟩ := h
    simp only [addrs_node, List.mem_append, List.mem_cons] at hm
    rw [below, List.mem_append]
    obtain hm | rfl | hm := hm
    · exact .inl (mem_addrs_of_below (ihl hl hm))
    · cases hrec.symm.trans he
      exact ha.imp mem_addrs_of_ptr mem_addrs_of_ptr
    · exact .inr (mem_addrs_of_below (ihr hr hm))

theorem At.congr (h : At sp x) (hnodes : sp'.nodes = sp.nodes) (hroot : sp'.root = sp.root) :
    At sp' x :=
  ⟨h.around.congr hroot fun a _ => by rw [hnodes], by rw [hnodes]; exact h.stored, h.nodup⟩

theorem Tree.get_fields {place : Place} (hnodes : sp'.nodes = sp.nodes)
    (hroot : sp'.root = sp.root) : sp'.get place = sp.get place := by
  cases place <;> simp only [get, hnodes, hroot]

/-! ## On the way up -/

/-- The tree of a node. -/
abbrev treeOf (x : Located (Entry K V)) : BinaryTree (Entry K V) := .node x.label x.left x.right

/-- The node `y` has come up to `x`, to a place one or two frames above the place of `t`. -/
structure Raised (frames : List (Frame (Entry K V))) (t : BinaryTree (Entry K V))
    (y : Located (Entry K V)) (sp sp' : Tree K V) (x : Located (Entry K V)) : Prop where
  at_place : At sp' x
  place : x.frames = frames.drop 1 ∨ x.frames = frames.drop 2
  splayUp : x.splayUp = y.splayUp
  perm : (frameAddrs x.frames ++ addrs (treeOf x)).Perm (frameAddrs frames ++ addrs t)
  relinks : Relinks sp sp'

/-- Rotating the node at a place. -/
theorem raised_rotate (h : At sp' x) (hup : x.splayUp = y.splayUp)
    (hperm : (frameAddrs x.frames ++ addrs (treeOf x)).Perm (frameAddrs x.frames ++ addrs t))
    (hrelinks : Relinks sp sp') :
    ∃ sp'', sp'.rotate x.label.addr (placeOf x.frames) (parentOf x.frames)
      (parentOf x.frames.tail) = some sp'' ∧ x.rotate.label = x.label ∧
      Raised x.frames t y sp sp'' x.rotate := by
  obtain ⟨sp'', hrotate, hat, hrelinks'⟩ := rotate_stored h
  exact ⟨sp'', hrotate, x.label_rotate, hat, .inr x.frames_rotate, x.splayUp_rotate.trans hup,
    (perm_addrs_rotate x).trans hperm, hrelinks.trans hrelinks'⟩

/-- Whether a node that has come up from below is at a place is told by the pointer there. -/
theorem Raised.get {f : Frame (Entry K V)} (h : Raised (f :: frames) t y sp sp' x) :
    (sp'.get (placeOf frames) = some (some x.label.addr) ∧ x.frames = frames) ∨
      ∃ p, sp'.get (placeOf frames) = some p ∧ p ≠ some x.label.addr ∧
        x.frames = frames.drop 1 := by
  obtain hone | htwo := h.place
  · have hframes : x.frames = frames := hone
    exact .inl ⟨hframes ▸ h.at_place.around.get, hframes⟩
  · cases frames with
    | nil =>
      have hframes : x.frames = [] := htwo
      exact .inl ⟨hframes ▸ h.at_place.around.get, hframes⟩
    | cons g frames =>
      have hframes : x.frames = frames := htwo
      -- the grandparent has gone below the node
      have hbelow : g.label.addr ∈ addrs (treeOf x) := by
        have hnodup := h.perm.nodup_iff.mp h.at_place.nodup
        have hmem : g.label.addr ∈ frameAddrs x.frames ++ addrs (treeOf x) :=
          h.perm.mem_iff.mpr (by simp [frameAddrs])
        have hnot : g.label.addr ∉ frameAddrs frames := by
          simp only [frameAddrs, List.cons_append, List.append_assoc, List.nodup_cons,
            List.nodup_append, List.mem_append, not_or] at hnodup
          grind
        rw [hframes, List.mem_append] at hmem
        exact hmem.resolve_left hnot
      obtain ⟨rec, hrec⟩ := Option.isSome_iff_exists.mp (h.at_place.stored.isSome _ hbelow)
      have hroot : x.label.addr ∉ below (treeOf x) := by
        have hnodup := (List.nodup_append.mp h.at_place.nodup).2.1
        simp only [addrs_node, List.nodup_append, List.nodup_cons, List.mem_cons] at hnodup
        simp only [below, List.mem_append]
        grind
      have hlink : rec.left ≠ some x.label.addr ∧ rec.right ≠ some x.label.addr := by
        refine ⟨fun heq => ?_, fun heq => ?_⟩
        · exact hroot (link_below h.at_place.stored hbelow hrec (.inl heq))
        · exact hroot (link_below h.at_place.stored hbelow hrec (.inr heq))
      cases hside : g.isLeft
      · exact .inr ⟨rec.right, by simp [placeOf, hside, Tree.get_right, hrec], hlink.2, hframes⟩
      · exact .inr ⟨rec.left, by simp [placeOf, hside, Tree.get_left, hrec], hlink.1, hframes⟩

/-! ## splay_helper -/

section

variable {node : Place} {parent grandparent : Option Place}

theorem climb_here (hget : sp.get node = some (some n)) (hflag : sp.rebalance_p = false)
    (hrotate : sp.rotate n node parent grandparent = some sp') :
    sp.climb n node parent grandparent = some (n, sp') := by
  simp [Tree.climb, hget, hflag, hrotate]

theorem climb_above {p : Option Addr} (hget : sp.get node = some p) (hne : p ≠ some n) :
    sp.climb n node parent grandparent = some (n, sp) := by
  simp [Tree.climb, hget, hne]

theorem climb_flagged {p : Option Addr} (hget : sp.get node = some p)
    (hflag : sp.rebalance_p = true) : sp.climb n node parent grandparent = some (n, sp) := by
  simp [Tree.climb, hget, hflag]

end

theorem perm_addrs_fill (f : Frame (Entry K V)) (t : BinaryTree (Entry K V)) :
    (frameAddrs (f :: frames) ++ addrs t).Perm (frameAddrs frames ++ addrs (f.fill t)) := by
  have hplug : (addrs (plug (f :: frames) t)).Perm (frameAddrs (f :: frames) ++ addrs t) :=
    perm_addrs_plug
  rw [plug] at hplug
  exact hplug.symm.trans perm_addrs_plug

theorem height_lt_fill (f : Frame (Entry K V)) (t : BinaryTree (Entry K V)) :
    t.height < (f.fill t).height := by
  unfold Frame.fill
  split <;> simp only [BinaryTree.height] <;> omega

theorem Relinks.shallower {d : ℕ} (h : Relinks { sp with depth := sp.depth + d } sp') :
    Relinks sp { sp' with depth := sp'.depth - d } := by
  refine ⟨?_, h.2⟩
  rw [h.1]
  simp

section

variable [LinearOrder K] {key : K} {calls : ℕ} {e : Entry K V} {l r : BinaryTree (Entry K V)}

/-- What a call of `splay_helper` for the place of `t` returns. -/
def Returns (key : K) (frames : List (Frame (Entry K V))) (t : BinaryTree (Entry K V))
    (sp : Tree K V) (result : Option (Addr × Tree K V)) : Prop :=
  ∃ n sp', result = some (n, sp') ∧
    ((sp' = { sp with rebalance_p := true } ∧ sp.max_depth < sp.depth + t.height) ∨
      ∃ y x, locate Entry.key key t frames = some y ∧ Raised frames t y sp sp' x ∧
        n = x.label.addr)

/-- A call for an empty place gives the node above it. -/
theorem splay_helper_nil {f : Frame (Entry K V)} {grandparent : Option Place}
    (h : Around sp (f :: frames) none) :
    Tree.splay_helper key (calls + 1) (placeOf (f :: frames)) (some (placeOf frames)) grandparent
      sp = some (f.label.addr, sp) := by
  rw [Tree.splay_helper, h.get]
  simp [h.2.2.get]

/-- One level of the recursion, for the place that `f` fills with `t`. -/
theorem splay_helper_turn {f : Frame (Entry K V)} {t : BinaryTree (Entry K V)}
    (hat : At sp y) (htree : treeOf y = f.fill t) (hlabel : y.label = f.label)
    (hframes : y.frames = frames) (haround : Around sp (f :: frames) (ptr t))
    (hnext : Tree.next key f.label.addr (nodeOf f (ptr t)) = some (placeOf (f :: frames)))
    (hlocate : locate Entry.key key (f.fill t) frames =
      some ((locate Entry.key key t (f :: frames)).getD y))
    (hflag : sp.rebalance_p = false) (hcalls : ¬ sp.max_depth < sp.depth → 0 < calls)
    (ih : t ≠ .nil → ¬ sp.max_depth < sp.depth →
      Returns key (f :: frames) t { sp with depth := sp.depth + 1 }
        (Tree.splay_helper key calls (placeOf (f :: frames)) (some (placeOf frames))
          (parentOf frames) { sp with depth := sp.depth + 1 })) :
    Returns key frames (f.fill t) sp (Tree.splay_helper key (calls + 1) (placeOf frames)
      (parentOf frames) (parentOf frames.tail) sp) := by
  have hheight := height_lt_fill f t
  have hget : sp.get (placeOf frames) = some (some f.label.addr) := haround.2.2.get
  rw [Tree.splay_helper, hget]
  simp only [Option.bind_eq_bind, Option.bind_some, haround.1, hnext]
  by_cases hdeep : sp.max_depth < sp.depth
  · rw [if_pos hdeep]
    exact ⟨_, _, rfl, .inl ⟨rfl, by omega⟩⟩
  rw [if_neg hdeep]
  have haround₁ : Around { sp with depth := sp.depth + 1 } (f :: frames) (ptr t) :=
    haround.congr rfl fun _ _ => rfl
  by_cases hnil : t = .nil
  · -- the node itself is the last one on the way
    subst hnil
    obtain ⟨calls, rfl⟩ := Nat.exists_eq_add_of_le' (hcalls hdeep)
    rw [splay_helper_nil haround₁]
    obtain ⟨sp', hrotate, hsame, hraised⟩ :=
      raised_rotate hat rfl (by rw [htree]) (Relinks.refl sp)
    rw [hframes, hlabel] at hrotate
    refine ⟨f.label.addr, sp', ?_, .inr ⟨y, y.rotate, hlocate, hframes ▸ hraised, ?_⟩⟩
    · exact climb_here hget hflag hrotate
    · rw [hsame, hlabel]
  · obtain ⟨n, sp₂, hcall, hresult⟩ := ih hnil hdeep
    rw [hcall]
    obtain ⟨rfl, hhigh⟩ | ⟨z, x, hz, hraised, rfl⟩ := hresult
    · have hsame : Tree.get { sp with rebalance_p := true } (placeOf frames) =
          sp.get (placeOf frames) := Tree.get_fields rfl rfl
      refine ⟨n, { sp with rebalance_p := true }, climb_flagged (hsame.trans hget) rfl,
        .inl ⟨rfl, ?_⟩⟩
      simp only at hhigh
      omega
    · have hat₂ : At { sp₂ with depth := sp₂.depth - 1 } x := hraised.at_place.congr rfl rfl
      have hrelinks : Relinks sp { sp₂ with depth := sp₂.depth - 1 } := hraised.relinks.shallower
      have hflag₂ : sp₂.rebalance_p = false := by
        rw [hraised.relinks.1]
        exact hflag
      have hperm := hraised.perm.trans (perm_addrs_fill f t)
      rw [hz, Option.getD_some] at hlocate
      have hsame : Tree.get { sp₂ with depth := sp₂.depth - 1 } (placeOf frames) =
          sp₂.get (placeOf frames) := Tree.get_fields rfl rfl
      obtain ⟨hhere, hplace⟩ | ⟨p, habove, hne, hplace⟩ := hraised.get
      · have hperm' : (frameAddrs x.frames ++ addrs (treeOf x)).Perm
            (frameAddrs x.frames ++ addrs (f.fill t)) := by
          rw [hplace] at hperm ⊢
          exact hperm
        obtain ⟨sp', hrotate, hlabel, hraised'⟩ :=
          raised_rotate hat₂ hraised.splayUp hperm' hrelinks
        rw [hplace] at hrotate hraised'
        exact ⟨x.label.addr, sp', climb_here (hsame.trans hhere) hflag₂ hrotate,
          .inr ⟨z, x.rotate, hlocate, hraised', by rw [hlabel]⟩⟩
      · exact ⟨x.label.addr, _, climb_above (hsame.trans habove) hne,
          .inr ⟨z, x, hlocate, ⟨hat₂, .inl hplace, hraised.splayUp, hperm, hrelinks⟩, rfl⟩⟩

/-- **A call of `splay_helper`.** -/
theorem splay_helper_spec (hat : At sp ⟨frames, e, l, r⟩) (hflag : sp.rebalance_p = false)
    (hcalls : sp.max_depth + 2 ≤ calls + sp.depth) (hdepth : sp.depth ≤ sp.max_depth + 1) :
    Returns key frames (.node e l r) sp
      (sp.splay_helper key calls (placeOf frames) (parentOf frames) (parentOf frames.tail)) := by
  generalize ht : BinaryTree.node e l r = t
  induction t generalizing e l r frames sp calls with
  | nil => cases ht
  | node e l r ihl ihr =>
    cases ht
    obtain ⟨calls, rfl⟩ := Nat.exists_eq_add_of_le' (show 1 ≤ calls by omega)
    obtain ⟨hnode, hl, hr⟩ := hat.stored
    -- a child in its place, one level deeper
    have hchild : ∀ {f : Frame (Entry K V)} {e' : Entry K V} {l' r' : BinaryTree (Entry K V)},
        f.fill (.node e' l' r') = .node e l r → Around sp (f :: frames) (some e'.addr) →
        Stored sp.nodes (.node e' l' r') →
        At { sp with depth := sp.depth + 1 } ⟨f :: frames, e', l', r'⟩ := by
      intro f e' l' r' hfill haround hstored
      refine ⟨haround.congr rfl fun _ _ => rfl, hstored, ?_⟩
      exact (perm_addrs_fill f _).nodup_iff.mpr (hfill ▸ hat.nodup)
    by_cases hlt : key < e.key
    · have haround : Around sp (⟨true, e, r⟩ :: frames) (ptr l) := ⟨hnode, hr, hat.around⟩
      refine splay_helper_turn hat rfl rfl rfl haround ?_ ?_ hflag (fun _ => by omega) ?_
      · simp [Tree.next, nodeOf, Entry.node, placeOf, hlt, hlt.asymm]
      · simp [Frame.fill, locate, hlt]
      · intro hne hdeep
        cases l with
        | nil => exact absurd rfl hne
        | node e' l' r' =>
          exact ihl (hchild rfl haround hl) hflag (by simp only; omega) (by simp only; omega) rfl
    · by_cases hgt : e.key < key
      · have haround : Around sp (⟨false, e, l⟩ :: frames) (ptr r) := ⟨hnode, hl, hat.around⟩
        refine splay_helper_turn hat rfl rfl rfl haround ?_ ?_ hflag (fun _ => by omega) ?_
        · simp [Tree.next, nodeOf, Entry.node, placeOf, hgt]
        · simp [Frame.fill, locate, hlt, hgt]
        · intro hne hdeep
          cases r with
          | nil => exact absurd rfl hne
          | node e' l' r' =>
            exact ihr (hchild rfl haround hr) hflag (by simp only; omega) (by simp only; omega) rfl
      · -- the key is found
        obtain ⟨sp', hrotate, hlabel, hraised⟩ :=
          raised_rotate (y := ⟨frames, e, l, r⟩) hat rfl (List.Perm.refl _) (Relinks.refl sp)
        refine ⟨e.addr, sp', ?_, .inr ⟨⟨frames, e, l, r⟩, _, ?_, hraised, ?_⟩⟩
        · rw [Tree.splay_helper, hat.around.get]
          simp [hnode, Tree.next, Entry.node, hlt, hgt, hrotate]
        · simp [locate, hlt, hgt]
        · rw [hlabel]

end

end DocMachine.SplayTree
