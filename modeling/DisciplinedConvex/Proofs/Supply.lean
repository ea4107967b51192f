import DisciplinedConvex.Proofs.Elementwise

open DisciplinedConvex.Task

namespace DisciplinedConvex

variable {α β γ : Type}

def Wanting (r : Except Failure β) : Prop := ∃ name, r = .error (.missingValue name)

theorem not_wanting_ok (b : β) : ¬Wanting (.ok b) := by
  rintro ⟨name, ⟨⟩⟩

theorem wanting_error_congr {e : Failure} (h : Wanting (.error e : Except Failure β)) :
    Wanting (.error e : Except Failure γ) := by
  obtain ⟨name, hname⟩ := h
  exact ⟨name, congrArg _ (Except.error.inj hname)⟩

theorem Extent.not_wanting_columns (n : Int) : ¬Wanting (columns n) := by
  rintro ⟨name, h⟩
  unfold columns at h
  split at h
  · cases h
  · split at h
    · cases h
    · cases h

theorem Extent.not_wanting_vector (n : Int) : ¬Wanting (vector n) := by
  rintro ⟨name, h⟩
  unfold vector at h
  split at h
  · cases h
  · split at h
    · cases h
    · cases h

theorem Extent.not_wanting_order (n : Int) : ¬Wanting (order n) := by
  unfold order
  split
  · rintro ⟨name, ⟨⟩⟩
  · exact not_wanting_vector n

theorem Form.not_wanting_withColumns (F : Form α) (n : Int) : ¬Wanting (F.withColumns n) := by
  unfold withColumns
  split
  · exact not_wanting_ok _
  · split
    · rintro ⟨name, ⟨⟩⟩
    · have hcolumns := Extent.not_wanting_columns n
      cases hn : Extent.columns n with
      | ok k => exact not_wanting_ok _
      | error e => exact fun h => hcolumns (hn ▸ wanting_error_congr h)

theorem Layout.not_wanting_slotOf (L : Layout) (u : Unknown) : ¬Wanting (L.slotOf (.unknown u)) := by
  unfold slotOf
  cases L.find? (Holder.unknown u).id with
  | some slot => exact not_wanting_ok _
  | none => rintro ⟨name, ⟨⟩⟩

theorem Form.not_wanting_premultiply [Zero α] [Add α] [Mul α] [Scalar α] (P : Operator α)
    (F : Form α) : ¬Wanting (F.premultiply P) := by
  unfold premultiply
  split
  · exact not_wanting_ok _
  · rintro ⟨name, ⟨⟩⟩

namespace Node

variable {w : Workspace} {N : List (Node α)} {x y : Node α}

theorem Multiplies.not_wanting {r : Except Failure (Node α)} (h : x.Multiplies y r) :
    ¬Wanting r := by
  cases h with
  | square | product => exact not_wanting_ok _
  | unfit => rintro ⟨name, ⟨⟩⟩

variable [Zero α] [Add α] [Mul α]

theorem Ground.not_wanting {n : Node α} (h : n.Ground) (hn : n.Formed) :
    ¬Wanting n.constantValue := by
  rintro ⟨name, he⟩
  cases (h.constantValue_error hn he).1

variable [Scalar α]

theorem not_wanting_of_constant (hx : x.Formed) (hc : x.vexity = .constant) {f : Failure}
    (hf : x.constantValue = .error f) : ¬Wanting (.error f : Except Failure (Node α)) :=
  fun h => ((vexity_eq_constant_iff hx).mp hc).not_wanting hx (hf ▸ wanting_error_congr h)

theorem Weighs.not_wanting {r : Except Failure (Node α)} (h : x.Weighs y r) (hx : x.Formed)
    (hc : x.vexity = .constant) : ¬Wanting r := by
  cases h with
  | weighted => exact not_wanting_ok _
  | unequal => rintro ⟨name, ⟨⟩⟩
  | failed hf => exact not_wanting_of_constant hx hc hf

theorem dotMultiply_not_wanting (hw : w.Sound N) (hx : x ∈ N) (hy : y ∈ N) :
    ¬Wanting (dotMultiply x y w).1 := by
  obtain ⟨h, -⟩ : Dots w x y (dotMultiply x y w).1 ∧ _ := dotMultiply_ends hw hx hy
  generalize (dotMultiply x y w).1 = r at h ⊢
  cases h with
  | square | product => exact not_wanting_ok _
  | left _ _ hc h => exact h.not_wanting (hw.family.formed x hx) hc
  | right _ _ _ hc h => exact h.not_wanting (hw.family.formed y hy) hc
  | clash | unasked => rintro ⟨name, ⟨⟩⟩

theorem divide_not_wanting (hw : w.Sound N) (hx : x ∈ N) (hy : y ∈ N) :
    ¬Wanting (divide x y w).1 := by
  have h : Divides w x y (divide x y w).1 := divide_ends hw hx hy
  generalize (divide x y w).1 = r at h ⊢
  cases h with
  | stretched | weighted => exact not_wanting_ok _
  | scaled _ _ _ h => exact h.not_wanting
  | failed hc hf => exact not_wanting_of_constant (hw.family.formed y hy) hc hf
  | varying | unequal | unasked => rintro ⟨name, ⟨⟩⟩

end Node

namespace Compilation

variable {s s' : Compilation α} {ns L M : List (Node α)} {n x : Node α}

variable [Zero α] [Scalar α]

def Supplied (ns M : List (Node α)) (task : Task (Compilation α) β) : Prop :=
  ∀ s : Compilation α, s.Sound ns → M ⊆ s.nodes ns →
    task.Ends s fun r s' => ¬Wanting r ∧ Moves ns (fun _ => False) s s'

theorem Supplied.bind {task : Task (Compilation α) β} {f : β → Task (Compilation α) γ}
    (ht : Supplied ns M task) (hf : ∀ b, Supplied ns M (f b)) : Supplied ns M (task >>= f) := by
  intro s hs hM
  rw [ends_bind]
  apply (ht s hs hM).imp
  rintro (e | b) s₁ ⟨hr, h₁⟩
  · exact ⟨fun h => hr (wanting_error_congr h), h₁⟩
  · apply (hf b s₁ (hs.moves h₁) (List.Subset.trans hM h₁.nodes_subset)).imp
    exact fun _ _ h₂ => ⟨h₂.1, h₁.trans h₂.2⟩

theorem Supplied.mono {task : Task (Compilation α) β} (h : Supplied ns L task) (hLM : L ⊆ M) :
    Supplied ns M task :=
  fun s hs hM => h s hs (List.Subset.trans hLM hM)

theorem Goes.supplied {task : Task (Compilation α) β} (hg : Goes ns (fun _ => False) M task)
    (h : ∀ s, ¬Wanting (task s).1) : Supplied ns M task :=
  fun s _ hM => ⟨h s, hg s hM fun _ h => h.elim⟩

theorem supplied_pure (b : β) : Supplied ns M (pure b) :=
  (goes_pure b).supplied fun _ => not_wanting_ok b

theorem supplied_throw {e : Failure} (h : ¬Wanting (.error e : Except Failure β)) :
    Supplied ns M (throw e : Task (Compilation α) β) :=
  (goes_throw e).supplied fun _ => h

theorem supplied_lift {r : Except Failure β} (h : ¬Wanting r) : Supplied ns M (liftM r) :=
  (goes_lift r).supplied fun _ => h

theorem supplied_get : Supplied ns M get :=
  goes_get.supplied fun s => not_wanting_ok s

theorem supplied_modifyPass {f : Pass α → Pass α}
    (h : Goes ns (fun _ => False) M (modifyPass f)) : Supplied ns M (modifyPass f) :=
  h.supplied fun _ => not_wanting_ok _

theorem supplied_guard {p : Prop} [Decidable p] {e : Failure}
    {rest : Unit → Task (Compilation α) β} (he : ¬Wanting (.error e : Except Failure Unit))
    (h : Supplied ns M (rest ⟨⟩)) :
    Supplied ns M (if p then throw e >>= rest else rest ⟨⟩) := by
  split
  · exact supplied_throw fun h => he (wanting_error_congr h)
  · exact h

theorem supplied_isConstant_bind {f : Bool → Task (Compilation α) β} (hn : n ∈ M)
    (hyes : n.Ground → Supplied ns M (f true)) (hno : Supplied ns M (f false)) :
    Supplied ns M (isConstant n >>= f) := by
  intro s hs hM
  have hanswer : (isConstant n).Ends s fun r _ =>
      r = .ok (decide (n.vexity = .constant)) ∨ r = .error .unaskedChild := by
    rw [isConstant, onWorkspace, ends_onPart]
    exact (Node.isConstant_ends hs.toSound (hM hn)).imp fun _ _ h => h.2.imp And.right And.right
  have hgoes : Goes ns (fun _ => False) M (isConstant n) := goes_isConstant hn
  rw [ends_bind]
  apply (hanswer.and (hgoes s hM fun _ h => h.elim)).imp
  rintro _ s₁ ⟨rfl | rfl, h₁⟩
  · have hafter {b : Bool} (hf : Supplied ns M (f b)) : (f b).Ends s₁ fun r s' =>
        ¬Wanting r ∧ Moves ns (fun _ => False) s s' := by
      apply (hf s₁ (hs.moves h₁) (List.Subset.trans hM h₁.nodes_subset)).imp
      exact fun _ _ h₂ => ⟨h₂.1, h₁.trans h₂.2⟩
    dsimp only
    by_cases hc : n.vexity = .constant
    · rw [decide_eq_true hc]
      exact hafter (hyes ((Node.vexity_eq_constant_iff (hs.family.formed n (hM hn))).mp hc))
    · rw [decide_eq_false hc]
      exact hafter hno
  · refine ⟨?_, h₁⟩
    rintro ⟨name, ⟨⟩⟩

theorem supplied_askVexity (hn : n ∈ M) :
    Supplied ns M (onWorkspace (Workspace.onVerdicts n.askVexity)) := by
  intro s hs hM
  have hanswer : (onWorkspace (Workspace.onVerdicts n.askVexity)).Ends s fun r _ => ¬Wanting r := by
    rw [onWorkspace, ends_onPart, Workspace.onVerdicts, ends_onPart]
    apply (Node.askVexity_ends hs.family (hM hn) hs.judges).imp
    intro r v hv
    have hr := hv.answer
    cases hsettle : Node.settle s.workspace.verdicts.known n with
    | none =>
      rw [hsettle] at hr
      rw [hr]
      rintro ⟨name, ⟨⟩⟩
    | some known =>
      rw [hsettle] at hr
      rw [hr.1]
      exact not_wanting_ok _
  exact hanswer.and (goes_askVexity hn s hM fun _ h => h.elim)

theorem supplied_width : Supplied ns M (width (α := α)) :=
  supplied_get.bind fun _ => supplied_lift (Extent.not_wanting_columns _)

theorem supplied_lookup {id : String} {find : Task (Compilation α) (Form α)}
    (h : Supplied ns M find) : Supplied ns M (lookup id find) := by
  apply supplied_get.bind
  intro s
  cases s.pass.find? id with
  | some F => exact supplied_pure F
  | none => exact h

theorem supplied_record {find : Task (Compilation α) (Form α)} (h : Supplied ns M find) :
    Supplied ns M (record n find) := by
  refine h.bind fun F => supplied_get.bind fun s => supplied_guard ?_ ?_
  · rintro ⟨name, ⟨⟩⟩
  · exact (supplied_modifyPass (goes_store F not_false)).bind fun _ => supplied_pure F

theorem supplied_lowerConstant (A : Dense α) : Supplied ns M (lowerConstant A) :=
  supplied_width.bind fun _ => supplied_pure _

theorem supplied_lowerUnknown [One α] {u : Unknown} (hu : .unknown u ∈ M) :
    Supplied ns M (lowerUnknown (α := α) u) := by
  have hregister : Supplied ns M (register (α := α) u) :=
    (goes_register hu).supplied fun _ => not_wanting_ok _
  refine hregister.bind fun _ => supplied_get.bind fun s =>
    (supplied_lift (s.layout.not_wanting_slotOf u)).bind fun slot =>
    (supplied_lift (Extent.not_wanting_vector _)).bind fun n =>
    (supplied_lift (Extent.not_wanting_vector _)).bind fun length =>
    supplied_width.bind fun cols =>
      supplied_guard ?_ (supplied_guard ?_ (supplied_guard ?_ (supplied_pure _)))
  all_goals rintro ⟨name, ⟨⟩⟩

variable [Add α] [Mul α]

theorem supplied_constantValue (hn : n ∈ M) (hg : n.Ground) :
    Supplied ns M (liftM n.constantValue) :=
  fun _ hs hM => ⟨hg.not_wanting (hs.family.formed n (hM hn)), .refl⟩

theorem supplied_multiple {find : Task (Compilation α) (Form α)} (hn : n ∈ M) (hg : n.Ground)
    (hf : Supplied ns M find) : Supplied ns M (multiple n find) := by
  refine hf.bind fun F => (supplied_constantValue hn hg).bind fun A => ?_
  split
  · exact supplied_pure _
  · split
    · exact supplied_pure _
    · refine supplied_throw ?_
      rintro ⟨name, ⟨⟩⟩

theorem supplied_lowerProduct {l r : Node α} {left right : Task (Compilation α) (Form α)}
    (size : Size) (hl : l ∈ M) (hr : r ∈ M) (hleft : Supplied ns M left)
    (hright : Supplied ns M right) : Supplied ns M (lowerProduct size l r left right) := by
  have hclash : ¬Wanting (.error .nonconstantProduct : Except Failure (Form α)) := by
    rintro ⟨name, ⟨⟩⟩
  unfold lowerProduct
  split
  · refine supplied_isConstant_bind hl (fun hg => supplied_multiple hl hg hright) ?_
    refine supplied_isConstant_bind hr (fun hg => supplied_multiple hr hg hleft) ?_
    exact supplied_throw hclash
  · refine supplied_isConstant_bind hl (fun hg => ?_) ?_
    · exact hright.bind fun F => (supplied_lift (Extent.not_wanting_order _)).bind fun n =>
        (supplied_constantValue hl hg).bind fun A =>
          supplied_lift (Form.not_wanting_premultiply _ F)
    · refine supplied_isConstant_bind hr (fun hg => ?_) (supplied_throw hclash)
      exact hleft.bind fun F => (supplied_constantValue hr hg).bind fun B =>
        (supplied_lift (Extent.not_wanting_order _)).bind fun n =>
          supplied_lift (Form.not_wanting_premultiply _ F)

variable [One α] [Neg α]

theorem supplied_lowerSquare {find : Task (Compilation α) (Form α)} (hn : n ∈ M) (hx : x ∈ M)
    (hg : x.Ground → n.Ground) (hf : Supplied ns M find) :
    Supplied ns M (lowerSquare n x find) := by
  refine supplied_isConstant_bind hx (fun h => ?_) ?_
  · exact (supplied_constantValue hn (hg h)).bind fun A => supplied_lowerConstant A
  · refine hf.bind fun X => ?_
    intro s hs hM
    rw [ends_bind, Ends, introduce_eq]
    have hmove : Move ns (fun _ => False) s (s.introduced (some n) x.size) :=
      .introduce (some n) x.size
    have hbound (u : Unknown) : Supplied ns (.unknown u :: M) (bound n u X) := by
      refine (supplied_lookup (supplied_record
        (supplied_lowerUnknown (List.mem_cons_self ..)))).bind fun T =>
          supplied_get.bind fun s => (supplied_lift (X.not_wanting_withColumns _)).bind fun X =>
            (supplied_lift (T.not_wanting_withColumns _)).bind fun T => ?_
      exact (supplied_modifyPass (goes_demand _)).bind fun _ => supplied_pure T
    refine (hbound _ _ (hs.introduce ..) ?_).imp fun _ _ h => ⟨h.1, .head hmove h.2⟩
    exact List.cons_subset.mpr ⟨List.mem_cons_self .., List.Subset.trans hM hmove.nodes_subset⟩

theorem supplied_compute (n : Node α) : Supplied ns n.preorder (compute n) := by
  have hsub (m : Node α) {c : Node α} (hc : c ∈ m.children) : c.preorder ⊆ m.preorder :=
    fun _ hm => Node.mem_preorder_of_child hc hm
  induction n with
  | constant c => exact supplied_record (supplied_lowerConstant _)
  | unknown u => exact supplied_record (supplied_lowerUnknown (List.mem_singleton_self _))
  | product tag l r hl hr =>
    have hls := hsub _ (Node.left_mem_children tag l r)
    have hrs := hsub _ (Node.right_mem_children tag l r)
    exact supplied_record (supplied_lowerProduct _ (hls l.self_mem_preorder)
      (hrs r.self_mem_preorder) (supplied_lookup (hl.mono hls)) (supplied_lookup (hr.mono hrs)))
  | weighted tag c x hx =>
    have hxs := hsub _ (Node.weighted_mem_children tag c x)
    exact supplied_record ((supplied_lookup (hx.mono hxs)).bind fun F =>
      supplied_lift (Form.not_wanting_premultiply _ F))
  | square tag x hx =>
    have hxs := hsub _ (Node.square_mem_children tag x)
    refine supplied_record (supplied_lowerSquare (Node.self_mem_preorder _)
      (hxs x.self_mem_preorder) (fun hg u hu => hg u ?_) (supplied_lookup (hx.mono hxs)))
    simpa [Node.preorder] using hu
  | bare tag kind arity args h =>
    refine supplied_throw ?_
    rintro ⟨name, ⟨⟩⟩

theorem supplied_turns (order : List (Node α)) (hM : ∀ m ∈ order, m.preorder ⊆ M) :
    Supplied ns M (order.forM fun m => discard (compute m)) := by
  induction order with
  | nil => exact supplied_pure _
  | cons m order ih =>
    rw [List.forM]
    have hm : Supplied ns M (discard (compute m)) :=
      ((supplied_compute m).mono (hM m (List.mem_cons_self ..))).bind fun _ => supplied_pure _
    exact hm.bind fun _ => ih fun x hx => hM x (List.mem_cons_of_mem _ hx)

theorem supplied_lower (n : Node α) : Supplied ns n.preorder (lower n) := by
  apply supplied_get.bind
  intro s
  dsimp only
  cases s.pass.find? n.id with
  | some F => exact (supplied_modifyPass (goes_hit 1)).bind fun _ => supplied_pure F
  | none =>
    have hturns : Supplied ns n.preorder
        ((n.postOrder fun m => s.pass.contains m.id).order.forM fun m => discard (compute m)) :=
      supplied_turns _ fun m hm c hc =>
        Node.mem_preorder_trans (Node.mem_preorder_of_mem_postOrder hm) hc
    refine (supplied_modifyPass (goes_hit _)).bind fun _ => hturns.bind fun _ =>
      supplied_get.bind fun t => supplied_lift ?_
    rw [Pass.get]
    cases t.pass.find? n.id with
    | some F => exact not_wanting_ok F
    | none => rintro ⟨name, ⟨⟩⟩

theorem supplied_conicForm (n : Node α) : Supplied ns n.preorder (conicForm n) := by
  have hlower : Supplied ns n.preorder (do
      let F ← lower n
      F.withColumns (← get).layout.size) :=
    (supplied_lower n).bind fun F => supplied_get.bind fun s =>
      supplied_lift (F.not_wanting_withColumns _)
  apply supplied_get.bind
  intro s
  dsimp only
  split
  · refine (supplied_askVexity n.self_mem_preorder).bind fun v => supplied_guard ?_ hlower
    rintro ⟨name, ⟨⟩⟩
  · exact hlower

/-- An expression is called constant exactly if no unknown stands below it. So whatever is evaluated
without values, while expressions are built or compiled, has the value that it has under every
assignment. -/
theorem Reached.constant_iff_ground {config : Config} (h : Reached config s ns) :
    (∀ n ∈ s.nodes ns, ∀ v, (n.askVexity s.workspace.verdicts).1 = .ok v →
      (v = .constant ↔ n.Ground)) ∧
    (∀ n ∈ s.nodes ns, n.Ground →
      ¬Wanting n.constantValue ∧ ∀ values, n.evaluate values = n.constantValue) ∧
    (∀ n ∈ s.nodes ns, ∀ A, n.constantValue = .ok A → ∀ values, n.evaluate values = .ok A) ∧
    (∀ x ∈ s.nodes ns, ∀ y ∈ s.nodes ns,
      ¬Wanting (x.dotMultiply y s.workspace).1 ∧ ¬Wanting (x.divide y s.workspace).1) ∧
    ∀ n ∈ s.nodes ns, ¬Wanting (lower n s).1 ∧ ¬Wanting (conicForm n s).1 := by
  have hform (n : Node α) (hn : n ∈ s.nodes ns) : n.Formed := h.sound.family.formed n hn
  refine ⟨fun n hn v hv => ?_, fun n hn hg => ⟨hg.not_wanting (hform n hn), hg.evaluate_eq⟩,
    fun n _ A hA values => Node.evaluate_of_constantValue hA values, fun x hx y hy => ?_,
    fun n hn => ?_⟩
  · rw [h.eq_vexity hn hv]
    exact Node.vexity_eq_constant_iff (hform n hn)
  · exact ⟨Node.dotMultiply_not_wanting h.sound.toSound hx hy,
      Node.divide_not_wanting h.sound.toSound hx hy⟩
  · have hpre := h.sound.family.preorder_subset hn
    exact ⟨(supplied_lower n s h.sound hpre).1, (supplied_conicForm n s h.sound hpre).1⟩

def nought : Node ℚ :=
  .constant ⟨0, Identity.ofConstant [1, 1] (Constant.listing (Dense.scalar (0 : ℚ))), .scalar 0⟩

def spare : Unknown := ⟨1, Identity.ofUnknown 0, 0, "spare", .scalar, .indeterminate⟩

def vanishing : Node ℚ :=
  .product ⟨2, .scalar, Identity.ofOperation "*" [nought.id, spare.id]⟩ nought (.unknown spare)

theorem reached_vanishing :
    Reached {} (untouched 3 1) (vanishing.preorder ++ [.unknown spare, nought]) := by
  have hleaves : Reached {} (untouched (α := ℚ) 2 1) [.unknown spare, nought] :=
    (Reached.start.step (.constant (.scalar (0 : ℚ))) (List.nil_subset _)).step
      (.unknown "spare" .scalar (.ok .indeterminate)) (List.nil_subset _)
  exact hleaves.step (.product nought (.unknown spare)) (by simp [Request.operands, nodes])

theorem vanishing_varies : (vanishing.askVexity (untouched (α := ℚ) 3 1).workspace.verdicts).1 =
      .ok .affine ∧ ¬vanishing.Ground ∧ nought.Ground ∧
    (∀ values, nought.evaluate values = .ok (.scalar 0)) ∧
    ¬Wanting (conicForm vanishing (untouched 3 1)).1 := by
  obtain ⟨hconstant, hground, hvalue, -, hlower⟩ := reached_vanishing.constant_iff_ground
  have hmem : vanishing ∈ (untouched (α := ℚ) 3 1).nodes
      (vanishing.preorder ++ [.unknown spare, nought]) :=
    List.mem_append_right _ (List.mem_append_left _ (Node.self_mem_preorder _))
  have hnought : nought ∈ (untouched (α := ℚ) 3 1).nodes
      (vanishing.preorder ++ [.unknown spare, nought]) :=
    List.mem_append_right _ (List.mem_append_right _ (by simp))
  have hids : (vanishing.preorder.map Node.id).Nodup := by decide +kernel
  have hvexity : (vanishing.askVexity (untouched (α := ℚ) 3 1).workspace.verdicts).1 =
      .ok vanishing.vexity :=
    reached_vanishing.askVexity_of_objects hmem fun a ha b hb he =>
      List.inj_on_of_nodup_map hids ha hb he
  have haffine : vanishing.vexity = .affine := by decide +kernel
  rw [haffine] at hvexity
  refine ⟨hvexity, ?_, Node.ground_constant _, hvalue nought hnought _ rfl, (hlower _ hmem).2⟩
  rw [← hconstant vanishing hmem _ hvexity]
  decide

end Compilation

end DisciplinedConvex
