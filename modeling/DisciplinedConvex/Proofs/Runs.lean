import DisciplinedConvex.Proofs.Shaped

open DisciplinedConvex.Task

namespace DisciplinedConvex.Compilation

variable {α : Type}
variable {s s' t : Compilation α} {ns ms : List (Node α)} {n : Node α}
variable {J : Compilation α → List (Node α) → Prop}

structure Beside (s : Compilation α) (ns : List (Node α)) (t : Compilation α)
    (ms : List (Node α)) : Prop where
  forms : t.pass.forms = s.pass.forms
  constraints : t.pass.constraints = s.pass.constraints
  auxiliaries : t.pass.auxiliaries = s.pass.auxiliaries
  slots : ∀ id slot, s.layout.find? id = some slot → t.layout.find? id = some slot
  size : s.layout.size ≤ t.layout.size
  gained : ns ⊆ ms

theorem Beside.nodes_subset (h : s.Beside ns t ms) : s.nodes ns ⊆ t.nodes ms := by
  rw [nodes, nodes, h.auxiliaries]
  exact List.append_subset.mpr ⟨List.subset_append_left ..,
    List.Subset.trans h.gained (List.subset_append_right ..)⟩

theorem beside_hit (s : Compilation α) (ns : List (Node α)) (count : Nat) :
    s.Beside ns { s with pass := s.pass.hit count } ns :=
  ⟨rfl, rfl, rfl, fun _ _ h => h, le_refl _, List.Subset.refl _⟩

theorem beside_registered {u : Unknown} (hu : u.size.Nonneg) :
    s.Beside ns (s.registered u) ns :=
  ⟨rfl, rfl, rfl, fun _ _ h => Layout.find?_register _ h,
    Layout.size_le_register (hu.count_eq ▸ Int.natCast_nonneg _), List.Subset.refl _⟩

def Ready (P : Pass α) (order : List (Node α)) : Prop :=
  ∀ pre m post, order = pre ++ m :: post →
    (∀ c ∈ m.children, P.contains c.id = true ∨ ∃ d ∈ pre, d.id = c.id) ∧ ∀ d ∈ pre, d.id ≠ m.id

theorem Ready.tail {P P' : Pass α} {m : Node α} {rest : List (Node α)} (h : Ready P (m :: rest))
    (hk : ∀ id, P.contains id = true → P'.contains id = true) (hm : P'.contains m.id = true) :
    Ready P' rest := by
  intro pre m' post he
  obtain ⟨hc, hd⟩ := h (m :: pre) m' post (congrArg (m :: ·) he)
  refine ⟨fun c hcm => ?_, fun d hdp => hd d (List.mem_cons_of_mem _ hdp)⟩
  rcases hc c hcm with hc | ⟨d, hdm, hdc⟩
  · exact .inl (hk _ hc)
  · rcases List.mem_cons.mp hdm with rfl | hdp
    · exact .inl (hdc ▸ hm)
    · exact .inr ⟨d, hdp, hdc⟩

theorem ready_postOrder {P : Pass α} (hid : n.IdsWeigh) :
    Ready P (n.postOrder fun m => P.contains m.id).order := by
  intro pre m post he
  obtain ⟨hc, hd⟩ := Node.postOrder_split hid he
  refine ⟨fun c hcm => ?_, hd⟩
  obtain ⟨d, -, hde, hk | hk⟩ := hc c hcm
  · exact .inl (hde ▸ hk)
  · exact .inr ⟨d, hk, hde⟩

theorem Ready.next {m : Node α} {rest : List (Node α)} (h : Ready s.pass (m :: rest))
    (hN : Node.Faithful (s'.nodes ns)) (hsub : s.nodes ns ⊆ s'.nodes ns)
    (horder : m :: rest ⊆ s.nodes ns) (hnew : ∀ m' ∈ m :: rest, s.pass.contains m'.id = false)
    (hkept : ∀ id, s.pass.contains id = true → s'.pass.contains id = true)
    (hdone : s'.pass.contains m.id = true)
    (hadded : ∀ id, s'.pass.contains id = true → s.pass.contains id = true ∨ id = m.id ∨
      ∃ u, .unknown u ∈ s'.nodes ns ∧ .unknown u ∉ s.nodes ns ∧ u.id = id) :
    (∀ m' ∈ rest, s'.pass.contains m'.id = false) ∧ Ready s'.pass rest := by
  refine ⟨fun m' hm' => Bool.eq_false_iff.mpr fun hc => ?_, h.tail hkept hdone⟩
  rcases hadded _ hc with hs | hid | ⟨u, hu, hu', he⟩
  · rw [hnew m' (List.mem_cons_of_mem _ hm')] at hs
    cases hs
  · obtain ⟨pre, post, rfl⟩ := List.append_of_mem hm'
    exact (h (m :: pre) m' post rfl).2 m (List.mem_cons_self ..) hid.symm
  · -- the identity of a new unknown belongs to no node of the walk
    have hmN := horder (List.mem_cons_of_mem _ hm')
    have hal := hN m' (hsub hmN) _ hu he.symm
    exact hu' (hal.unknown_eq ▸ hmN)

variable [Scalar α]

theorem Beside.shaped (h : s.Beside ns t ms) (hS : s.Shaped ns) (hN : Node.Faithful (t.nodes ms)) :
    t.Shaped ms :=
  hS.extend hN h.nodes_subset h.forms h.size

def Leaves (J : Compilation α → List (Node α) → Prop) (s : Compilation α) (ns : List (Node α))
    (task : Task (Compilation α) (List (Node α))) : Prop :=
  task.Ends s fun r s' => Node.Faithful (s'.nodes (Request.made r ++ ns)) →
    s'.Shaped (Request.made r ++ ns) ∧ J s' (Request.made r ++ ns)

theorem ask_leaves {β : Type} {task : Task (Compilation α) β}
    (h : task.Ends s fun _ s' => Node.Faithful (s'.nodes ns) → s'.Shaped ns ∧ J s' ns) :
    Leaves J s ns (Request.ask task) := by
  rw [Leaves, Request.ask, ends_bind]
  apply h.imp
  rintro (e | b) s' h
  · exact h
  · exact h

variable [Zero α]

structure Tidy (s : Compilation α) (ns : List (Node α)) : Prop where
  sound : s.Sound ns
  shaped : s.Shaped ns
  faithful : Node.Faithful (s.nodes ns)
  nonneg : ∀ n ∈ s.nodes ns, n.size.Nonneg

theorem Tidy.introduced (h : s.Tidy ns) {square? : Option (Node α)} {size : Size}
    (hN : Node.Faithful ((s.introduced square? size).nodes ns)) (hsize : size.Nonneg) :
    (s.introduced square? size).Tidy ns := by
  refine ⟨h.sound.introduce _ _, h.shaped.introduced hN hsize, hN, fun m hm => ?_⟩
  rcases List.mem_cons.mp hm with rfl | hm
  · exact hsize
  · exact h.nonneg m hm

theorem Same.beside (h : Same ns s t) : s.Beside ns t ns := by
  refine ⟨?_, ?_, ?_, fun _ _ hs => h.layout ▸ hs, h.layout ▸ le_refl _, List.Subset.refl _⟩
  all_goals rw [h.pass]

structure Turned (J : Compilation α → List (Node α) → Prop) (ns order : List (Node α))
    (s : Compilation α) (r : Except Failure PUnit) (s' : Compilation α) : Prop where
  tidy : s'.Tidy ns
  holds : J s' ns
  stopped : ∀ f, r = .error f → ∃ m ∈ order,
    m.Refused s.workspace.verdicts.known s'.layout.size s.pass.config.rejectNonfinite f
  done : ∀ b, r = .ok b → ∀ m ∈ order, s'.pass.contains m.id = true
  kept : ∀ id, s.pass.contains id = true → s'.pass.contains id = true

structure Answered (J : Compilation α → List (Node α) → Prop) (ns : List (Node α)) (n : Node α)
    (s : Compilation α) (r : Except Failure (Form α)) (s' : Compilation α) : Prop where
  tidy : s'.Tidy ns
  holds : J s' ns
  stopped : ∀ f, r = .error f → ∃ m ∈ n.preorder,
    m.Refused s.workspace.verdicts.known s'.layout.size s.pass.config.rejectNonfinite f
  done : ∀ F, r = .ok F → s'.pass.find? n.id = some F

theorem Tidy.hit (h : s.Tidy ns) (count : Nat) : Tidy { s with pass := s.pass.hit count } ns :=
  ⟨⟨h.sound.toSound, h.sound.stacked, h.sound.introduced⟩,
    (beside_hit s ns count).shaped h.shaped h.faithful, h.faithful, h.nonneg⟩

theorem onVerdicts_same {β : Type} {task : Task Verdicts β} (hs : s.Sound ns) (hle : Extends task)
    (ht : Workspace.Asks (s.nodes ns) (Workspace.onVerdicts task)) :
    (onWorkspace (Workspace.onVerdicts task)).Ends s fun _ t => Same ns s t := by
  rw [onWorkspace, ends_onPart]
  apply ((ht _ hs.toSound).and (Workspace.extends_onVerdicts hle s.workspace)).imp
  rintro _ w ⟨hw, hle⟩
  exact ⟨rfl, rfl, hle, hs.withWorkspace hw⟩

theorem Same.tidy (hst : Same ns s t) (h : s.Tidy ns) : t.Tidy ns where
  sound := hst.sound
  shaped := hst.shaped h.shaped
  faithful := hst.nodes_eq ▸ h.faithful
  nonneg := hst.nodes_eq ▸ h.nonneg

variable [One α] [Neg α] [Add α] [Mul α]

/-- A property that a compilation does not lose: not while nothing is compiled, not when an unknown
is introduced, and not when the form of a node is computed. -/
structure Kept (J : Compilation α → List (Node α) → Prop) : Prop where
  beside {s t : Compilation α} {ns ms : List (Node α)} (h : s.Tidy ns) (hj : J s ns)
    (hN : Node.Faithful (t.nodes ms)) (hst : s.Beside ns t ms) : J t ms
  introduced {s : Compilation α} {ns : List (Node α)} {size : Size} (h : s.Tidy ns) (hj : J s ns)
    (hN : Node.Faithful ((s.introduced none size).nodes ns)) : J (s.introduced none size) ns
  compute {s : Compilation α} {ns : List (Node α)} {n : Node α} (h : s.Tidy ns) (hj : J s ns)
    (hn : n ∈ s.nodes ns) (hchildren : ∀ c ∈ n.children, s.pass.contains c.id = true)
    (hnew : s.pass.contains n.id = false) :
    (compute n).Ends s fun _ s' => Node.Faithful (s'.nodes ns) → J s' ns

/-- Forms are computed in an order that is ready. What holds with all of them still to be found passes,
at each of them, to what holds with the rest to be found, or leads to what is left where it fails. -/
theorem turns_run {Q : List (Node α) → Compilation α → Prop} {E : Failure → Compilation α → Prop}
    (order : List (Node α)) (h : s.Tidy ns) (hq : Q order s) (hsub : order ⊆ s.nodes ns)
    (hnew : ∀ m ∈ order, s.pass.contains m.id = false) (hready : Ready s.pass order)
    (hstep : ∀ m rest (t : Compilation α), t.Tidy ns → s.nodes ns ⊆ t.nodes ns → m ∈ order →
      (∀ c ∈ m.children, t.pass.contains c.id = true) → t.pass.contains m.id = false →
      Q (m :: rest) t → (compute m).Ends t fun r t' => t'.Tidy ns → Computed ns m t r t' →
        Moves ns (fun _ => False) t t' →
          (∀ F, r = .ok F → Q rest t') ∧ ∀ f, r = .error f → E f t') :
    (order.forM fun m => discard (compute m)).Ends s fun r s' => Node.Faithful (s'.nodes ns) →
      s'.Tidy ns ∧ (∀ b, r = .ok b → Q [] s') ∧ ∀ f, r = .error f → E f s' := by
  induction order generalizing s with
  | nil => exact fun _ => ⟨h, fun _ _ => hq, by rintro _ ⟨⟩⟩
  | cons m rest ih =>
    have hm := hsub (List.mem_cons_self ..)
    have hchildren : ∀ c ∈ m.children, s.pass.contains c.id = true := fun c hc =>
      ((hready [] m rest rfl).1 c hc).resolve_right fun ⟨_, hd, _⟩ => absurd hd List.not_mem_nil
    have hcomp := compute_ends h.sound h.shaped h.faithful h.nonneg hm hchildren
    have hfirst := hstep m rest s h (List.Subset.refl _) (List.mem_cons_self ..) hchildren
      (hnew m (List.mem_cons_self ..)) hq
    have hgoes : Goes ns (fun _ => False) m.preorder (compute m) := goes_compute m not_false
    rw [List.forM, ends_bind, ends_discard]
    apply ((hcomp.and hfirst).and (hgoes s (h.sound.family.preorder_subset hm) (by simp))).imp
    rintro r s₁ ⟨⟨hcomp, hfirst⟩, hmoves⟩
    have hs₁ := h.sound.moves hmoves
    have hstand (hN₁ : Node.Faithful (s₁.nodes ns)) : s₁.Tidy ns :=
      ⟨hs₁, (hcomp hN₁).shaped, hN₁, (hcomp hN₁).nonneg⟩
    cases r with
    | error e =>
      intro hN₁
      refine ⟨hstand hN₁, by rintro _ ⟨⟩, fun f hf => ?_⟩
      rw [← Except.error.inj hf]
      exact (hfirst (hstand hN₁) (hcomp hN₁) hmoves).2 e rfl
    | ok F =>
      have hrest : rest ⊆ s₁.nodes ns := fun _ hr =>
        hmoves.nodes_subset (hsub (List.mem_cons_of_mem _ hr))
      by_cases hN₁ : Node.Faithful (s₁.nodes ns)
      · have hcomp := hcomp hN₁
        obtain ⟨hnew₁, hready₁⟩ := hready.next hN₁ hmoves.nodes_subset hsub hnew hcomp.kept
          (hcomp.done F rfl) hcomp.added
        exact ih (hstand hN₁) ((hfirst (hstand hN₁) hcomp hmoves).1 F rfl) hrest hnew₁ hready₁
          fun m' rest' t ht hst hm' => hstep m' rest' t ht (List.Subset.trans hmoves.nodes_subset hst)
            (List.mem_cons_of_mem _ hm')
      · have hturns : Goes ns (fun _ => False) (s₁.nodes ns) (rest.forM fun m => discard (compute m)) :=
          goes_turns rest (fun m hm => hs₁.family.preorder_subset (hrest hm)) fun _ _ => not_false
        apply (hturns s₁ (List.Subset.refl _) (by simp)).imp
        exact fun _ _ hm hN' => absurd (hN'.mono hm.nodes_subset) hN₁

theorem turns_ends (hJ : Kept J) (order : List (Node α)) (h : s.Tidy ns) (hj : J s ns)
    (hsub : order ⊆ s.nodes ns) (hnew : ∀ m ∈ order, s.pass.contains m.id = false)
    (hready : Ready s.pass order) :
    (order.forM fun m => discard (compute m)).Ends s fun r s' =>
      Node.Faithful (s'.nodes ns) → Turned J ns order s r s' := by
  let Held (t : Compilation α) : Prop :=
    J t ns ∧ Moves ns (fun _ => False) s t ∧ ∀ id, s.pass.contains id = true → t.pass.contains id = true
  let Q (rest : List (Node α)) (t : Compilation α) : Prop :=
    Held t ∧ ∀ m ∈ order, m ∈ rest ∨ t.pass.contains m.id = true
  let E (f : Failure) (t : Compilation α) : Prop :=
    Held t ∧ ∃ m ∈ order,
      m.Refused s.workspace.verdicts.known t.layout.size s.pass.config.rejectNonfinite f
  have hstart : Q order s := ⟨⟨hj, .refl, fun _ hc => hc⟩, fun _ hm => .inl hm⟩
  have hrun := turns_run (Q := Q) (E := E) order h hstart hsub hnew hready
  refine (hrun fun m rest t ht hst hm hchildren hnew₁ hq => ?_).imp ?_
  · obtain ⟨⟨hjt, hmoves, hkept⟩, hdone⟩ := hq
    apply (hJ.compute ht hjt (hst (hsub hm)) hchildren hnew₁).imp
    intro r t' hj' ht' hcomp hmoves'
    have hheld : Held t' :=
      ⟨hj' ht'.faithful, hmoves.trans hmoves', fun id hid => hcomp.kept id (hkept id hid)⟩
    refine ⟨fun F hF => ⟨hheld, fun m' hm' => ?_⟩, fun f hf => ⟨hheld, m, hm, ?_⟩⟩
    · rcases hdone m' hm' with hrest | hc
      · rcases List.mem_cons.mp hrest with rfl | hrest
        · exact .inr (hcomp.done F hF)
        · exact .inl hrest
      · exact .inr (hcomp.kept _ hc)
    · have hrefused := hcomp.stopped f hf
      rw [← hmoves.config_eq] at hrefused
      exact hrefused.mono (fun _ => Verdicts.known_of_le hmoves.workspace_le) (le_refl _)
  · intro r s' hr hN
    obtain ⟨htidy, hok, herror⟩ := hr hN
    cases r with
    | ok b =>
      obtain ⟨⟨hj', -, hkept⟩, hdone⟩ := hok b rfl
      exact ⟨htidy, hj', by rintro _ ⟨⟩, fun _ _ m hm => (hdone m hm).resolve_left
        List.not_mem_nil, hkept⟩
    | error f =>
      obtain ⟨⟨hj', -, hkept⟩, m, hm, hrefused⟩ := herror f rfl
      refine ⟨htidy, hj', fun g hg => ⟨m, hm, ?_⟩, by rintro _ ⟨⟩, hkept⟩
      rw [← Except.error.inj hg]
      exact hrefused

theorem hit_answered (hJ : Kept J) (h : s.Tidy ns) (hj : J s ns) (count : Nat) :
    Tidy { s with pass := s.pass.hit count } ns ∧ J { s with pass := s.pass.hit count } ns :=
  ⟨h.hit count, hJ.beside h hj h.faithful (beside_hit s ns count)⟩

theorem lower_ends (hJ : Kept J) (h : s.Tidy ns) (hj : J s ns) (hn : n ∈ s.nodes ns) :
    (lower n).Ends s fun r s' => Node.Faithful (s'.nodes ns) → Answered J ns n s r s' := by
  rw [lower, ends_bind, ends_get]
  dsimp only
  cases hfind : s.pass.find? n.id with
  | some F =>
    intro hN
    obtain ⟨htidy, hholds⟩ := hit_answered hJ h hj 1
    refine ⟨htidy, hholds, by rintro _ ⟨⟩, fun G hG => ?_⟩
    rw [← Except.ok.inj hG]
    exact hfind
  | none =>
    simp only [modifyPass, ends_bind, ends_modify]
    obtain ⟨htidy, hholds⟩ := hit_answered hJ h hj
      ((n.postOrder fun m => s.pass.contains m.id).met.countP fun m => s.pass.contains m.id)
    have hskip : s.pass.contains n.id = false := by
      rw [Pass.contains, hfind]
      rfl
    refine (turns_ends hJ _ htidy hholds ?_ (fun m hm => Node.skip_of_mem_postOrder hm)
      (ready_postOrder (h.sound.family.idsWeigh h.faithful hn))).imp ?_
    · exact fun m hm => h.sound.family.preorder_subset hn (Node.mem_preorder_of_mem_postOrder hm)
    · rintro (e | ⟨⟩) s' hr
      · intro hN
        refine ⟨(hr hN).tidy, (hr hN).holds, fun f hf => ?_, (by simp)⟩
        obtain ⟨m, hm, hrefused⟩ := (hr hN).stopped f (congrArg _ (Except.error.inj hf))
        exact ⟨m, Node.mem_preorder_of_mem_postOrder hm, hrefused⟩
      · intro hN
        -- the root comes last
        obtain ⟨pre, hpre⟩ : ∃ pre, (n.postOrder fun m => s.pass.contains m.id).order =
            pre ++ [n] := Node.postOrder_eq_append hskip
        have hroot : n ∈ (n.postOrder fun m => s.pass.contains m.id).order := by
          rw [hpre]
          exact List.mem_append_right _ (List.mem_singleton_self n)
        obtain ⟨F, hF⟩ := Pass.exists_of_contains ((hr hN).done ⟨⟩ rfl n hroot)
        have hget : s'.pass.get n.id = .ok F := by rw [Pass.get, hF]
        refine ⟨(hr hN).tidy, (hr hN).holds, fun f hf => ?_, fun G hG => ?_⟩
        · have hf : s'.pass.get n.id = .error f := hf
          rw [hget] at hf
          cases hf
        · have hG : s'.pass.get n.id = .ok G := hG
          rw [hget] at hG
          rw [← Except.ok.inj hG]
          exact hF

inductive Gated (J : Compilation α → List (Node α) → Prop) (ns : List (Node α)) (n : Node α)
    (s : Compilation α) : Except Failure (Form α) → Compilation α → Prop
  | unasked {t : Compilation α} (hst : Same ns s t) (hcheck : s.pass.config.checkDcp = true)
      (hn : Node.settle s.workspace.verdicts.known n = none) :
      Gated J ns n s (.error .unaskedChild) t
  | refused {t : Compilation α} (hst : Same ns s t) (hcheck : s.pass.config.checkDcp = true)
      (hn : n.vexity = .notDcp) : Gated J ns n s (.error (.notCompliant n.text)) t
  | lowered {t s' : Compilation α} {r : Except Failure (Form α)} (hst : Same ns s t)
      (hn : s.pass.config.checkDcp = true → n.vexity ≠ .notDcp) (h : Answered J ns n t r s') :
      Gated J ns n s (r.bind (·.withColumns s'.layout.size)) s'

theorem conicForm_ends (hJ : Kept J) (h : s.Tidy ns) (hj : J s ns) (hn : n ∈ s.nodes ns) :
    (conicForm n).Ends s fun r s' => Node.Faithful (s'.nodes ns) → Gated J ns n s r s' := by
  have hlower {t : Compilation α} (hst : Same ns s t)
      (hv : s.pass.config.checkDcp = true → n.vexity ≠ .notDcp) : (do
      let F ← lower n
      F.withColumns (← get).layout.size : Task (Compilation α) (Form α)).Ends t
        fun r s' => Node.Faithful (s'.nodes ns) → Gated J ns n s r s' := by
    have ht := hst.tidy h
    rw [ends_bind]
    apply (lower_ends hJ ht (hJ.beside h hj ht.faithful hst.beside) (hst.nodes_eq ▸ hn)).imp
    rintro (e | F) s' hr
    · exact fun hN => .lowered hst hv (hr hN)
    · exact fun hN => .lowered hst hv (hr hN)
  rw [conicForm, ends_bind, ends_get]
  dsimp only
  split
  · next hcheck =>
    have hanswer : (onWorkspace (Workspace.onVerdicts n.askVexity)).Ends s fun r _ =>
        r = .ok n.vexity ∨
          r = .error .unaskedChild ∧ Node.settle s.workspace.verdicts.known n = none := by
      rw [onWorkspace, ends_onPart, Workspace.onVerdicts, ends_onPart]
      apply (Node.askVexity_ends h.sound.family hn h.sound.judges).imp
      intro r v hv
      have hr := hv.answer
      cases hsettle : Node.settle s.workspace.verdicts.known n with
      | none =>
        rw [hsettle] at hr
        exact .inr ⟨hr, rfl⟩
      | some known =>
        rw [hsettle] at hr
        exact .inl hr.1
    rw [ends_bind]
    apply (hanswer.and
      (onVerdicts_same h.sound (Node.extends_askVexity n) (Workspace.asks_vexity hn))).imp
    rintro _ t ⟨rfl | ⟨rfl, hsettle⟩, hst⟩
    · dsimp only
      split
      · next hv => exact fun _ => .refused hst hcheck hv
      · next hv => exact hlower hst fun _ => hv
    · exact fun _ => .unasked hst hcheck hsettle
  · next hcheck => exact hlower h.sound.same fun hc => absurd hc hcheck

theorem Gated.keeps {r : Except Failure (Form α)} (hJ : Kept J) (h : s.Tidy ns) (hj : J s ns)
    (hg : Gated J ns n s r s') : s'.Tidy ns ∧ J s' ns := by
  cases hg with
  | unasked hst => exact ⟨hst.tidy h, hJ.beside h hj (hst.tidy h).faithful hst.beside⟩
  | refused hst => exact ⟨hst.tidy h, hJ.beside h hj (hst.tidy h).faithful hst.beside⟩
  | lowered hst hn h => exact ⟨h.tidy, h.holds⟩

theorem Beside.leaves (hJ : Kept J) (h : s.Tidy ns) (hj : J s ns) (hst : s.Beside ns t ms)
    (hN : Node.Faithful (t.nodes ms)) : t.Shaped ms ∧ J t ms :=
  ⟨hst.shaped h.shaped hN, hJ.beside h hj hN hst⟩

theorem build_leaves (hJ : Kept J) (task : Task Workspace (Node α)) (h : s.Tidy ns)
    (hj : J s ns) : Leaves J s ns (Request.build task) := by
  have hbeside (w : Workspace) (ms : List (Node α)) :
      s.Beside ns { s with workspace := w } (ms ++ ns) :=
    ⟨rfl, rfl, rfl, fun _ _ h => h, le_refl _, List.subset_append_right ..⟩
  rw [Leaves, Request.build, ends_bind, onWorkspace, ends_onPart]
  refine Ends.imp (P := fun _ _ => True) trivial ?_
  rintro (e | n) w -
  · exact (hbeside w []).leaves hJ h hj
  · exact (hbeside w n.preorder).leaves hJ h hj

theorem serve_leaves (hJ : Kept J) (r : Request α) (h : s.Tidy ns) (hj : J s ns)
    (hr : r.operands ⊆ s.nodes ns) (hsize : ∀ n ∈ (r.serve s).2.nodes ns, n.size.Nonneg) :
    Leaves J s ns r.serve := by
  have hsame {β : Type} {task : Task Verdicts β} (hle : Extends task)
      (ht : Workspace.Asks (s.nodes ns) (Workspace.onVerdicts task)) :
      Leaves J s ns (Request.ask (onWorkspace (Workspace.onVerdicts task))) :=
    ask_leaves ((onVerdicts_same h.sound hle ht).imp fun _ _ hst => hst.beside.leaves hJ h hj)
  cases r with
  | constant | unknown | product | weighted | square | multiply | dotMultiply | divide | negate =>
    exact build_leaves hJ _ h hj
  | sign n =>
    exact hsame (Node.extends_askSign n) (Workspace.asks_sign (hr (List.mem_singleton_self n)))
  | vexity n =>
    exact hsame (Node.extends_askVexity n) (Workspace.asks_vexity (hr (List.mem_singleton_self n)))
  | register u =>
    have hu : u.size.Nonneg := h.nonneg _ (hr (List.mem_singleton_self _))
    exact ask_leaves ((beside_registered hu).leaves hJ h hj)
  | auxiliary size =>
    have hnonneg : size.Nonneg := hsize (.unknown (s.nextAuxiliary size)) (List.mem_cons_self ..)
    have hends : (newAuxiliary (α := α) size).Ends s fun _ s' =>
        Node.Faithful (s'.nodes ns) → s'.Shaped ns ∧ J s' ns :=
      fun hN => ⟨h.shaped.introduced hN hnonneg, hJ.introduced h hj hN⟩
    exact ask_leaves hends
  | lower n =>
    have hn := hr (List.mem_singleton_self n)
    exact ask_leaves ((lower_ends hJ h hj hn).imp fun _ _ hr hN =>
      ⟨(hr hN).tidy.shaped, (hr hN).holds⟩)
  | conicForm n =>
    have hn := hr (List.mem_singleton_self n)
    exact ask_leaves ((conicForm_ends hJ h hj hn).imp fun _ _ hg hN =>
      ⟨((hg hN).keeps hJ h hj).1.shaped, ((hg hN).keeps hJ h hj).2⟩)

theorem Reached.keeps {config : Config} (hJ : Kept J) (h0 : J ⟨.empty, .empty, .empty config⟩ [])
    (h : Reached config s ns) (hN : Node.Faithful (s.nodes ns))
    (hsize : ∀ n ∈ s.nodes ns, n.size.Nonneg) : s.Tidy ns ∧ J s ns := by
  induction h with
  | start =>
    have hstart : Reached config (⟨.empty, .empty, .empty config⟩ : Compilation α) [] := .start
    exact ⟨⟨hstart.sound, Pass.shaped_empty config _, nofun, nofun⟩, h0⟩
  | @step s ns r h hr ih =>
    have hsound := (h.step r hr).sound
    have hgrow : s.nodes ns ⊆ (r.serve s).2.nodes (r.built s ++ ns) :=
      List.Subset.trans (serve_ends r h.sound hr).grows.nodes_subset (nodes_subset_append ..)
    obtain ⟨htidy, hj⟩ := ih (hN.mono hgrow) fun n hn => hsize n (hgrow hn)
    obtain ⟨hshaped, hj'⟩ := serve_leaves hJ r htidy hj hr
      (fun n hn => hsize n (nodes_subset_append _ _ _ hn)) hN
    exact ⟨⟨hsound, hshaped, hN, hsize⟩, hj'⟩

theorem kept_trivial : Kept fun (_ : Compilation α) _ => True :=
  ⟨fun _ _ _ _ => trivial, fun _ _ _ => trivial, fun _ _ _ _ _ =>
    Ends.imp (P := fun _ _ => True) trivial fun _ _ _ _ => trivial⟩

theorem Reached.tidy {config : Config} (h : Reached config s ns)
    (hN : Node.Faithful (s.nodes ns)) (hsize : ∀ n ∈ s.nodes ns, n.size.Nonneg) : s.Tidy ns :=
  (h.keeps kept_trivial trivial hN hsize).1

end DisciplinedConvex.Compilation
