import DisciplinedConvex.Proofs.History

open DisciplinedConvex.Task

namespace DisciplinedConvex

variable {α : Type}

def Constant.Matches [Zero α] (c d : Constant α) : Prop :=
  c.value.rows = d.value.rows ∧ c.value.cols = d.value.cols ∧
    Constant.listing c.value = Constant.listing d.value

theorem Constant.Matches.value_eq [Zero α] {c d : Constant α} (h : c.Matches d) :
    c.value = d.value :=
  listing_inj h.1 h.2.1 h.2.2

namespace Node

variable [Zero α]

/-- Structural equality: the same operations on the same arguments down to constants of the same
numbers and unknowns that are one object. Doubles are the same if all their bits are. -/
def Matches : Node α → Node α → Prop
  | constant c, constant d => c.Matches d
  | unknown u, unknown v => u.ref = v.ref
  | product _ l r, product _ l' r' => l.Matches l' ∧ r.Matches r'
  | weighted _ c x, weighted _ d y => c.Matches d ∧ x.Matches y
  | square _ x, square _ y => x.Matches y
  | _, _ => False

/-- Among the preimages of the nodes of `N` the digest has no collision. -/
def CollisionFree [Scalar α] (N : List (Node α)) : Prop :=
  ∀ m ∈ N, ∀ n ∈ N, Sha256.hexDigest m.preimage = Sha256.hexDigest n.preimage →
    m.preimage = n.preimage

theorem Alike.matches {m n : Node α} (hm : m.Formed) (h : m.Alike n) : m.Matches n := by
  have hconstant {c d : Constant α} (h : c.value = d.value) : c.Matches d := by
    rw [Constant.Matches, h]
    exact ⟨rfl, rfl, rfl⟩
  induction m generalizing n with
  | constant c =>
    cases n with
    | constant d =>
      have hinj := constant.inj h
      exact hconstant (congrArg Constant.value hinj :)
    | unknown | product | weighted | square | bare => cases h
  | unknown u =>
    cases n with
    | unknown v => exact congrArg Unknown.ref (unknown.inj h)
    | constant | product | weighted | square | bare => cases h
  | product tag l r hl hr =>
    cases n with
    | product tag' l' r' =>
      obtain ⟨-, hl', hr'⟩ := product.inj h
      exact ⟨hl hm.2.1 hl', hr hm.2.2 hr'⟩
    | constant | unknown | weighted | square | bare => cases h
  | weighted tag c x hx =>
    cases n with
    | weighted tag' d y =>
      obtain ⟨-, hc, hx'⟩ := weighted.inj h
      exact ⟨hconstant (congrArg Constant.value hc :), hx hm.2.2 hx'⟩
    | constant | unknown | product | square | bare => cases h
  | square tag x hx =>
    cases n with
    | square tag' y => exact hx hm.2 (square.inj h).2
    | constant | unknown | product | weighted | bare => cases h
  | bare => exact hm.elim

theorem value_eq_of_preimage [Scalar α] [Encoded α] {c d : Constant α}
    (h : (constant c).preimage = (constant d).preimage) : c.value = d.value := by
  obtain ⟨hr, hc, hbytes⟩ := Identity.constantPreimage_inj h
  have hlen : (Constant.listing c.value).length = (Constant.listing d.value).length := by
    rw [Constant.length_listing, Constant.length_listing, hr, hc]
  exact Constant.listing_inj hr hc (Encoded.flatMap_inj hlen hbytes)

end Node

namespace Workspace

open Node

variable [Zero α] [Scalar α] {w : Workspace} {N : List (Node α)} {m n : Node α}

theorem Sound.id_of_preimage (hw : w.Sound N) (hm : m ∈ N) (hn : n ∈ N)
    (h : m.preimage = n.preimage) : m.id = n.id := by
  rw [hw.identified.identities m hm, hw.identified.identities n hn, h]

theorem Sound.id_of_matches (hw : w.Sound N) (hm : m ∈ N) (hn : n ∈ N) (h : m.Matches n) :
    m.id = n.id := by
  have hconstant {c d : Constant α} (hc : constant c ∈ N) (hd : constant d ∈ N)
      (h : c.Matches d) : (constant c).id = (constant d).id :=
    hw.id_of_preimage hc hd (by rw [preimage, preimage, h.value_eq])
  have hoperation {m n : Node α} (hm : m ∈ N) (hn : n ∈ N)
      (hpm : m.preimage = Identity.operationPreimage m.head (m.children.map Node.id))
      (hpn : n.preimage = Identity.operationPreimage n.head (n.children.map Node.id))
      (hhead : m.head = n.head) (h : m.children.map Node.id = n.children.map Node.id) :
      m.id = n.id :=
    hw.id_of_preimage hm hn (by rw [hpm, hpn, hhead, h])
  induction m generalizing n with
  | constant c =>
    cases n with
    | constant d => exact hconstant hm hn h
    | unknown | product | weighted | square | bare => exact h.elim
  | unknown u =>
    cases n with
    | unknown v => exact congrArg Node.id (hw.family.objects _ hm _ hn h)
    | constant | product | weighted | square | bare => exact h.elim
  | product tag l r hl hr =>
    cases n with
    | product tag' l' r' =>
      have hidl := hl (hw.family.children _ hm _ (left_mem_children tag l r))
        (hw.family.children _ hn _ (left_mem_children tag' l' r')) h.1
      have hidr := hr (hw.family.children _ hm _ (right_mem_children tag l r))
        (hw.family.children _ hn _ (right_mem_children tag' l' r')) h.2
      exact hoperation hm hn rfl rfl rfl (by simp only [children, List.map_cons, hidl, hidr])
    | constant | unknown | weighted | square | bare => exact h.elim
  | weighted tag c x hx =>
    cases n with
    | weighted tag' d y =>
      have hidc := hconstant (hw.family.children _ hm _ (List.mem_cons_self ..))
        (hw.family.children _ hn _ (List.mem_cons_self ..)) h.1
      have hidx := hx (hw.family.children _ hm _ (weighted_mem_children tag c x))
        (hw.family.children _ hn _ (weighted_mem_children tag' d y)) h.2
      exact hoperation hm hn rfl rfl rfl (by simp only [children, List.map_cons, hidc, hidx])
    | constant | unknown | product | square | bare => exact h.elim
  | square tag x hx =>
    cases n with
    | square tag' y =>
      have hidx := hx (hw.family.children _ hm _ (square_mem_children tag x))
        (hw.family.children _ hn _ (square_mem_children tag' y)) h
      exact hoperation hm hn rfl rfl rfl (by simp only [children, List.map_cons, hidx])
    | constant | unknown | product | weighted | bare => exact h.elim
  | bare => exact h.elim

theorem Sound.avoids_children (hw : w.Sound N) (hn : n ∈ N) :
    ∀ id ∈ n.children.map Node.id, Identity.Avoids ',' id := by
  intro id hid
  obtain ⟨c, hc, rfl⟩ := List.mem_map.mp hid
  rw [hw.identified.identities c (hw.family.children n hn c hc)]
  exact Identity.avoids_hexDigest _

theorem Sound.ids_children_of_preimage (hw : w.Sound N) (hm : m ∈ N) (hn : n ∈ N)
    (hlen : m.children.length = n.children.length)
    (h : Identity.operationPreimage n.head (m.children.map Node.id) =
      Identity.operationPreimage n.head (n.children.map Node.id)) :
    m.children.map Node.id = n.children.map Node.id := by
  apply Identity.operationPreimage_inj _ (hw.avoids_children hm) (hw.avoids_children hn) h
  rw [List.length_map, List.length_map, hlen]

theorem Sound.alike_of_id [Encoded α] (hw : w.Sound N) (hfree : CollisionFree N) (hm : m ∈ N)
    (hn : n ∈ N) (h : m.id = n.id) : m.Alike n := by
  induction m using children_induction generalizing n with
  | step m ih =>
    have hpre : m.preimage = n.preimage := by
      apply hfree m hm n hn
      rw [← hw.identified.identities m hm, ← hw.identified.identities n hn, h]
    have hfm := hw.family.formed m hm
    have hfn := hw.family.formed n hn
    have hhead := head_eq_of_preimage hfm hfn hpre
    have hcm := hw.family.children m hm
    have hcn := hw.family.children n hn
    cases m with
    | constant c =>
      cases n with
      | constant d =>
        have hid : c.id = d.id := h
        rw [Alike, forget, forget, hid, value_eq_of_preimage hpre]
      | unknown | product | weighted | square | bare => simp [head] at hhead
    | unknown u =>
      cases n with
      | unknown v =>
        rw [hw.identified.unknowns u hm v hn (Identity.unknownPreimage_inj hpre)]
        rfl
      | constant | product | weighted | square | bare => simp [head] at hhead
    | product tag l r =>
      cases n with
      | product tag' l' r' =>
        have hids := hw.ids_children_of_preimage hm hn rfl hpre
        simp only [children, List.map_cons, List.cons.injEq] at hids
        have hl := left_mem_children tag l r
        have hr := right_mem_children tag l r
        have hal := ih l hl (hcm l hl) (hcn l' (left_mem_children tag' l' r')) hids.1
        have har := ih r hr (hcm r hr) (hcn r' (right_mem_children tag' l' r')) hids.2.1
        have hsize : tag.size = tag'.size := by
          have hsize := hfm.1
          rw [hal.size_eq, har.size_eq, hfn.1] at hsize
          exact (Option.some.inj hsize).symm
        have hid : tag.id = tag'.id := h
        rw [Alike, forget, forget, hid, hsize, hal, har]
      | constant | unknown | weighted | square | bare => simp [head] at hhead
    | weighted tag c x =>
      cases n with
      | weighted tag' d y =>
        have hids := hw.ids_children_of_preimage hm hn rfl hpre
        simp only [children, List.map_cons, List.cons.injEq] at hids
        have hc : constant c ∈ (weighted tag c x).children := List.mem_cons_self ..
        have hx := weighted_mem_children tag c x
        have hac := ih _ hc (hcm _ hc) (hcn (constant d) (List.mem_cons_self ..)) hids.1
        have hax := ih x hx (hcm x hx) (hcn y (weighted_mem_children tag' d y)) hids.2.1
        have hsize : tag.size = tag'.size := by rw [hfm.2.1, hfn.2.1, hax.size_eq]
        have hid : tag.id = tag'.id := h
        rw [Alike, forget, forget, hid, hsize, hax, constant.inj hac]
      | constant | unknown | product | square | bare => simp [head] at hhead
    | square tag x =>
      cases n with
      | square tag' y =>
        have hids := hw.ids_children_of_preimage hm hn rfl hpre
        simp only [children, List.map_cons, List.cons.injEq] at hids
        have hx := square_mem_children tag x
        have hax := ih x hx (hcm x hx) (hcn y (square_mem_children tag' y)) hids.1
        have hsize : tag.size = tag'.size := by rw [hfm.1, hfn.1, hax.size_eq]
        have hid : tag.id = tag'.id := h
        rw [Alike, forget, forget, hid, hsize, hax]
      | constant | unknown | product | weighted | bare => simp [head] at hhead
    | bare => exact hfm.elim

end Workspace

namespace Compilation

variable [Zero α] [One α] [Neg α] [Add α] [Mul α] [Scalar α] [Encoded α]
variable {config : Config} {s : Compilation α} {ns : List (Node α)} {m n : Node α}

theorem Reached.faithful (h : Reached config s ns) (hfree : Node.CollisionFree (s.nodes ns)) :
    Node.Faithful (s.nodes ns) :=
  fun _ hm _ hn => h.sound.alike_of_id hfree hm hn

/-- Identity is structure: nodes share an identity exactly if they are the same operations on the
same constants and unknowns, and then no size, sign or value tells them apart. -/
theorem Reached.id_eq_iff_matches (h : Reached config s ns)
    (hfree : Node.CollisionFree (s.nodes ns)) (hm : m ∈ s.nodes ns) (hn : n ∈ s.nodes ns) :
    (m.id = n.id ↔ m.Matches n) ∧
      (m.id = n.id → m.size = n.size ∧
        (∃ σ, (m.askSign s.workspace.verdicts).1 = .ok σ ∧
          (n.askSign s.workspace.verdicts).1 = .ok σ) ∧
        ∀ values, m.evaluate values = n.evaluate values) := by
  have hs := h.sound
  have hfm := hs.family.formed m hm
  have hfn := hs.family.formed n hn
  refine ⟨⟨fun hid => (h.faithful hfree m hm n hn hid).matches hfm, hs.id_of_matches hm hn⟩, ?_⟩
  intro hid
  have halike := h.faithful hfree m hm n hn hid
  have hsign := (Node.askSign_ends hs.family hm hs.judges).answer
  have hsign' := (Node.askSign_ends hs.family hn hs.judges).answer
  rw [← halike.sign_eq] at hsign'
  exact ⟨halike.size_eq, ⟨m.sign, hsign, hsign'⟩, halike.evaluate_eq⟩

def edge : Unknown := ⟨0, Identity.ofUnknown 0, 0, "edge", .scalar, .indeterminate⟩

def face (ref : Nat) : Node Double :=
  .square ⟨ref, .scalar, Identity.ofOperation "square" [edge.id]⟩ (.unknown edge)

def gap (ref : Nat) (x : Double) : Node Double :=
  .constant ⟨ref, Identity.ofConstant [1, 1] (Constant.listing (Dense.scalar x)), .scalar x⟩

def faces : List (Node Double) :=
  [gap 4 (-Double.nan), gap 3 Double.nan, face 2, .unknown edge, face 1, .unknown edge, .unknown edge]

theorem reached_faces : Reached {} (untouched 5 1) faces := by
  have hedge : Reached (α := Double) {} (untouched 1 1) [.unknown edge] :=
    Reached.start.step (.unknown "edge" .scalar (.ok .indeterminate)) nofun
  have hfaces : Reached (α := Double) {} (untouched 3 1)
      [face 2, .unknown edge, face 1, .unknown edge, .unknown edge] :=
    (hedge.step (.square (.unknown edge)) (by simp [Request.operands, nodes])).step
      (.square (.unknown edge)) (by simp [Request.operands, nodes])
  exact (hfaces.step (.constant (.scalar Double.nan)) (List.nil_subset _)).step
    (.constant (.scalar (-Double.nan))) (List.nil_subset _)

theorem collisionFree_faces : Node.CollisionFree ((untouched 5 1).nodes faces) := by
  have hids : ([face 1, .unknown edge, gap 3 Double.nan, gap 4 (-Double.nan)].map fun n : Node Double =>
      Sha256.hexDigest n.preimage).Nodup := by
    decide +kernel
  have hmem (n : Node Double) (hn : n ∈ (untouched 5 1).nodes faces) :
      ∃ r ∈ [face 1, .unknown edge, gap 3 Double.nan, gap 4 (-Double.nan)],
        n.preimage = r.preimage := by
    have hn : n ∈ faces := by simpa [nodes, untouched, Pass.empty] using hn
    simp only [faces, List.mem_cons, List.not_mem_nil, or_false] at hn
    rcases hn with rfl | rfl | rfl | rfl | rfl | rfl | rfl
    · exact ⟨_, by simp, rfl⟩
    · exact ⟨_, by simp, rfl⟩
    · exact ⟨face 1, by simp, rfl⟩
    all_goals exact ⟨_, by simp, rfl⟩
  intro m hm n hn h
  obtain ⟨r, hr, hmr⟩ := hmem m hm
  obtain ⟨q, hq, hnq⟩ := hmem n hn
  rw [hmr, hnq] at h ⊢
  rw [List.inj_on_of_nodup_map hids hr hq h]

theorem faces_identified : (face 1).Matches (face 2) ∧
    (∀ values, (face 1).evaluate values = (face 2).evaluate values) ∧
    (gap 3 Double.nan).id ≠ (gap 4 (-Double.nan)).id := by
  have hmem {n : Node Double} (hn : n ∈ faces) : n ∈ (untouched 5 1).nodes faces :=
    List.mem_append_right _ hn
  obtain ⟨hiff, heq⟩ := reached_faces.id_eq_iff_matches collisionFree_faces
    (m := face 1) (n := face 2) (hmem (by simp [faces])) (hmem (by simp [faces]))
  obtain ⟨hiff', -⟩ := reached_faces.id_eq_iff_matches collisionFree_faces
    (m := gap 3 Double.nan) (n := gap 4 (-Double.nan)) (hmem (by simp [faces]))
    (hmem (by simp [faces]))
  refine ⟨hiff.mp rfl, (heq rfl).2.2, fun hid => ?_⟩
  have hnumbers : [Double.nan] = [-Double.nan] := (hiff'.mp hid).2.2
  exact absurd (List.cons.inj hnumbers).1 (by decide)

end Compilation

end DisciplinedConvex
