import DisciplinedConvex.Proofs.Constancy
import DisciplinedConvex.Proofs.Gate

namespace DisciplinedConvex

variable {α : Type}

def Sign.Refines (t s : Sign) : Prop := t = s ∨ s = .indeterminate ∨ t = .zero

namespace Sign.Refines

instance (t s : Sign) : Decidable (t.Refines s) :=
  inferInstanceAs (Decidable (t = s ∨ s = .indeterminate ∨ t = .zero))

variable {s t u s' t' : Sign}

theorem refl (s : Sign) : s.Refines s := .inl rfl

theorem trans (hu : u.Refines t) (ht : t.Refines s) : u.Refines s := by
  revert hu ht
  cases u <;> cases t <;> cases s <;> decide

theorem mul_left (h : t.Refines s) (u : Sign) : (u * t).Refines (u * s) := by
  revert h
  cases u <;> cases t <;> cases s <;> decide

theorem mul (h : t.Refines s) (h' : t'.Refines s') : (t * t').Refines (s * s') := by
  have hleft := h.mul_left s'
  rw [Sign.mul_comm, Sign.mul_comm s'] at hleft
  exact (h'.mul_left t).trans hleft

theorem squareSign (h : t.Refines s) : (Node.squareSign t).Refines (Node.squareSign s) := by
  revert h
  cases t <;> cases s <;> decide

end Sign.Refines

namespace Node

/-- The first expression, built again from unknowns whose declared signs may tell more. The numbers
stay the same, and objects and identities do not matter. -/
inductive Sharpens : Node α → Node α → Prop
  | constant {c c' : Constant α} (hvalue : c'.value = c.value) : Sharpens (constant c) (constant c')
  | unknown {u u' : Unknown} (hsize : u'.size = u.size) (hsign : u'.sign.Refines u.sign) :
      Sharpens (unknown u) (unknown u')
  | product {tag tag' : Tag} {l l' r r' : Node α} (hl : Sharpens l l') (hr : Sharpens r r') :
      Sharpens (product tag l r) (product tag' l' r')
  | weighted {tag tag' : Tag} {c c' : Constant α} {x x' : Node α} (hvalue : c'.value = c.value)
      (hx : Sharpens x x') : Sharpens (weighted tag c x) (weighted tag' c' x')
  | square {tag tag' : Tag} {x x' : Node α} (hx : Sharpens x x') :
      Sharpens (square tag x) (square tag' x')

variable {n n' l r x : Node α}

theorem ground_product {tag : Tag} : (product tag l r).Ground ↔ l.Ground ∧ r.Ground := by
  simp [Ground, preorder, not_or, forall_and]

theorem ground_weighted {tag : Tag} {c : Constant α} : (weighted tag c x).Ground ↔ x.Ground := by
  simp [Ground, preorder]

theorem ground_square {tag : Tag} : (square tag x).Ground ↔ x.Ground := by
  simp [Ground, preorder]

section Composition

variable [Scalar α]

theorem Sharpens.sign_refines (h : n.Sharpens n') : n'.sign.Refines n.sign := by
  induction h with
  | constant hvalue =>
    rw [sign, sign, hvalue]
    exact .refl _
  | unknown _ hsign => exact hsign
  | product _ _ hl hr => exact hl.mul hr
  | weighted hvalue _ hx =>
    rw [sign, sign, hvalue]
    exact hx.mul_left _
  | square _ hx => exact hx.squareSign

theorem Sharpens.sign_eq (h : n.Sharpens n') (hg : n.Ground) : n'.sign = n.sign := by
  induction h with
  | constant hvalue => rw [sign, sign, hvalue]
  | unknown => exact absurd (self_mem_preorder _) (hg _)
  | product _ _ hl hr =>
    obtain ⟨hgl, hgr⟩ := ground_product.mp hg
    rw [sign, sign, hl hgl, hr hgr]
  | weighted hvalue _ hx => rw [sign, sign, hvalue, hx (ground_weighted.mp hg)]
  | square _ hx => rw [sign, sign, hx (ground_square.mp hg)]

/-- A concave argument of sign zero counts as nonnegative, so that its square is not certified. -/
def Vanishing (n : Node α) : Prop :=
  ∃ tag x, .square tag x ∈ n.preorder ∧ x.vexity = .concave ∧ x.sign = .zero

theorem Vanishing.of_child {c : Node α} (h : c.Vanishing) (hc : c ∈ n.children) : n.Vanishing := by
  obtain ⟨tag, x, hmem, hx⟩ := h
  exact ⟨tag, x, mem_preorder_of_child hc hmem, hx⟩

theorem Vanishing.vexity_eq (h : n.Vanishing) (hn : n.Formed) : n.vexity = .notDcp := by
  obtain ⟨tag, x, hmem, hv, hs⟩ := h
  refine vexity_of_notDcp_below hn hmem ?_
  rw [vexity_square, hv, hs]
  rfl

theorem square_of_refines {s t : Sign} {v : Vexity} (h : t.Refines s)
    (hv : Vexity.convex + (s * Monotonicity.nondecreasing) * v ≠ .notDcp)
    (hz : ¬(v = .concave ∧ t = .zero)) :
    Vexity.convex + (t * Monotonicity.nondecreasing) * v =
      Vexity.convex + (s * Monotonicity.nondecreasing) * v := by
  revert h hv hz
  cases s <;> cases t <;> cases v <;> decide

theorem sign_of_concave {tag : Tag} (hv : (square tag x).vexity ≠ .notDcp)
    (hx : x.vexity = .concave) : x.sign = .negative := by
  rw [vexity_square, hx] at hv
  cases hs : x.sign with
  | negative => rfl
  | positive | zero | indeterminate =>
    rw [hs] at hv
    exact absurd rfl hv

theorem Sharpens.vexity_eq (h : n.Sharpens n') (hn : n.Formed) (hn' : n'.Formed)
    (hv : n.vexity ≠ .notDcp) (hz : ¬n'.Vanishing) : n'.vexity = n.vexity := by
  have hchild {c m : Node α} (hm : m.Formed) (hc : c ∈ m.children) (hv : m.vexity ≠ .notDcp) :
      c.vexity ≠ .notDcp := fun he => hv (vexity_of_notDcp_child hm hc he)
  induction h with
  | constant | unknown => rfl
  | @product tag tag' l l' r r' hsl hsr hl hr =>
    have hlc := left_mem_children tag l r
    have hrc := right_mem_children tag l r
    have hl := hl hn.2.1 hn'.2.1 (hchild hn hlc hv)
      fun hz' => hz (hz'.of_child (left_mem_children tag' l' r'))
    have hr := hr hn.2.2 hn'.2.2 (hchild hn hrc hv)
      fun hz' => hz (hz'.of_child (right_mem_children tag' l' r'))
    rw [vexity_product, vexity_product, hl, hr]
    -- the sign that counts is that of a constant factor, which no unknown has a part in
    by_cases hlv : l.vexity = .constant
    · rw [if_pos hlv, if_pos hlv, hsl.sign_eq ((vexity_eq_constant_iff hn.2.1).mp hlv)]
    · rw [if_neg hlv, if_neg hlv]
      by_cases hrv : r.vexity = .constant
      · rw [if_pos hrv, if_pos hrv, hsr.sign_eq ((vexity_eq_constant_iff hn.2.2).mp hrv)]
      · rw [if_neg hrv, if_neg hrv]
  | @weighted tag tag' c c' x x' hvalue hsx hx =>
    have hx := hx hn.2.2 hn'.2.2 (hchild hn (weighted_mem_children tag c x) hv)
      fun hz' => hz (hz'.of_child (weighted_mem_children tag' c' x'))
    rw [vexity_weighted, vexity_weighted, hx, hvalue]
  | @square tag tag' x x' hsx hx =>
    have hx := hx hn.2 hn'.2 (hchild hn (square_mem_children tag x) hv)
      fun hz' => hz (hz'.of_child (square_mem_children tag' x'))
    rw [vexity_square] at hv
    rw [vexity_square, vexity_square, hx]
    by_cases hxv : x.vexity = .constant
    · rw [if_pos hxv, if_pos hxv]
    · rw [if_neg hxv] at hv
      rw [if_neg hxv, if_neg hxv]
      exact square_of_refines hsx.sign_refines hv fun ⟨hc, hs⟩ =>
        hz ⟨tag', x', self_mem_preorder _, hx.trans hc, hs⟩

end Composition

end Node

namespace Compilation

open DisciplinedConvex.Node

section Asking

variable [Zero α] [One α] [Neg α] [Add α] [Mul α] [Scalar α]
variable {config config' : Config} {s s' : Compilation α} {ns ns' : List (Node α)} {n n' : Node α}

/-- An expression that is certified keeps its curvature when it is built again from unknowns with
sharper signs, but for one case: the concave argument of a square, which has to be nonpositive, may
turn out to be zero, and counts as nonnegative then. In this case, and in no other, the expression is
no longer certified. -/
theorem Reached.askVexity_sharpened (h : Reached config s ns) (h' : Reached config' s' ns')
    (hn : n ∈ s.nodes ns) (hn' : n' ∈ s'.nodes ns') (hsharp : n.Sharpens n') {v v' : Vexity}
    (hv : (n.askVexity s.workspace.verdicts).1 = .ok v)
    (hv' : (n'.askVexity s'.workspace.verdicts).1 = .ok v') (hdcp : v ≠ .notDcp) :
    (∀ tag x, .square tag x ∈ n.preorder → x.vexity = .concave → x.sign = .negative) ∧
    (v' = .notDcp ↔
      ∃ tag x, .square tag x ∈ n'.preorder ∧ x.vexity = .concave ∧ x.sign = .zero) ∧
    (v' ≠ .notDcp → v' = v) := by
  have hform := h.sound.family.formed n hn
  have hform' := h'.sound.family.formed n' hn'
  obtain rfl := h.eq_vexity hn hv
  obtain rfl := h'.eq_vexity hn' hv'
  have hkept : ¬n'.Vanishing → n'.vexity = n.vexity := hsharp.vexity_eq hform hform' hdcp
  refine ⟨fun tag x hx => sign_of_concave fun he => hdcp (vexity_of_notDcp_below hform hx he),
    ⟨fun hlost => ?_, fun hvanish => Vanishing.vexity_eq hvanish hform'⟩, fun hdcp' => ?_⟩
  · by_contra hz
    exact hdcp ((hkept hz).symm.trans hlost)
  · exact hkept fun hz => hdcp' (hz.vexity_eq hform')

end Asking

def depth (s : Sign) : Unknown := ⟨0, Identity.ofUnknown 0, 0, "depth", .scalar, s⟩

def bowl (s : Sign) : Node ℚ :=
  .square ⟨1, .scalar, Identity.ofOperation "square" [(depth s).id]⟩ (.unknown (depth s))

def minus : Node ℚ :=
  .constant ⟨2, Identity.ofConstant [1, 1] (Constant.listing (Dense.scalar (-1 : ℚ))), .scalar (-1)⟩

def hill (s : Sign) : Node ℚ :=
  .product ⟨3, .scalar, Identity.ofOperation "*" [minus.id, (bowl s).id]⟩ minus (bowl s)

def crest (s : Sign) : Node ℚ :=
  .square ⟨4, .scalar, Identity.ofOperation "square" [(hill s).id]⟩ (hill s)

def surveyed (s : Sign) : List (Node ℚ) :=
  (crest s).preorder ++ (hill s).preorder ++ [minus] ++ (bowl s).preorder ++ [.unknown (depth s)]

theorem reached_crest (s : Sign) : Reached {} (untouched 5 1) (surveyed s) := by
  have hdepth : Reached {} (untouched (α := ℚ) 1 1) [.unknown (depth s)] :=
    Reached.start.step (.unknown "depth" .scalar (.ok s)) nofun
  have hbowl : Reached {} (untouched (α := ℚ) 2 1) ((bowl s).preorder ++ [.unknown (depth s)]) :=
    hdepth.step (.square (.unknown (depth s))) fun _ h => h
  have hminus : Reached {} (untouched (α := ℚ) 3 1)
      (minus :: (bowl s).preorder ++ [.unknown (depth s)]) :=
    hbowl.step (.constant (.scalar (-1))) (List.nil_subset _)
  have hhill : Reached {} (untouched (α := ℚ) 4 1)
      ((hill s).preorder ++ [minus] ++ (bowl s).preorder ++ [.unknown (depth s)]) :=
    hminus.step (.product minus (bowl s)) (by simp [Request.operands, nodes, bowl, preorder])
  exact hhill.step (.square (hill s)) (by simp [Request.operands, nodes, hill, preorder])

theorem crest_mem (s : Sign) : crest s ∈ (untouched 5 1).nodes (surveyed s) :=
  List.mem_append_right _ (List.mem_cons_self ..)

theorem askVexity_crest (s : Sign) :
    ((crest s).askVexity (untouched (α := ℚ) 5 1).workspace.verdicts).1 = .ok (crest s).vexity := by
  have hids : ((crest s).preorder.map Node.id).Nodup := by
    change ((crest .zero).preorder.map Node.id).Nodup
    decide +kernel
  exact (reached_crest s).askVexity_of_objects (crest_mem s) fun a ha b hb he =>
    List.inj_on_of_nodup_map hids ha hb he

theorem crest_sharpens {s t : Sign} (h : t.Refines s) : (crest s).Sharpens (crest t) :=
  .square (.product (.constant rfl) (.square (.unknown rfl h)))

theorem crest_kept :
    ((crest .negative).askVexity (untouched (α := ℚ) 5 1).workspace.verdicts).1 = .ok .convex ∧
      ¬∃ tag x, .square tag x ∈ (crest .negative).preorder ∧ x.vexity = .concave ∧
        x.sign = .zero := by
  have hbefore := askVexity_crest .indeterminate
  have hafter := askVexity_crest .negative
  have hconvex : (crest .indeterminate).vexity = .convex := by decide +kernel
  have hconvex' : (crest .negative).vexity = .convex := by decide +kernel
  rw [hconvex] at hbefore
  rw [hconvex'] at hafter
  obtain ⟨-, hlost, -⟩ := (reached_crest .indeterminate).askVexity_sharpened
    (reached_crest .negative) (crest_mem _) (crest_mem _) (crest_sharpens (by decide)) hbefore hafter
    nofun
  refine ⟨hafter, fun hvanish => ?_⟩
  cases hlost.mpr hvanish

/-- When the unknown turns out to be zero, the square is no longer certified. -/
theorem crest_lost : Reached {} (untouched 5 1) (surveyed .indeterminate) ∧
    Reached {} (untouched 5 1) (surveyed .zero) ∧ (crest .indeterminate).Sharpens (crest .zero) ∧
    ((crest .indeterminate).askVexity (untouched (α := ℚ) 5 1).workspace.verdicts).1 = .ok .convex ∧
    ((crest .zero).askVexity (untouched (α := ℚ) 5 1).workspace.verdicts).1 = .ok .notDcp := by
  have hconvex : (crest .indeterminate).vexity = .convex := by decide +kernel
  have hlost : (crest .zero).vexity = .notDcp := by decide +kernel
  refine ⟨reached_crest _, reached_crest _, crest_sharpens (by decide), ?_, ?_⟩
  · rw [askVexity_crest, hconvex]
  · rw [askVexity_crest, hlost]

end Compilation

end DisciplinedConvex
