import DisciplinedConvex.Proofs.Canonical
import DisciplinedConvex.Proofs.Sessions

open DisciplinedConvex.Task

namespace DisciplinedConvex

theorem map_eq_ok {β γ : Type} {x : Except Failure β} {f : β → γ} {c : γ} (h : x.map f = .ok c) :
    ∃ b, x = .ok b ∧ f b = c := by
  cases x with
  | error e => cases h
  | ok b => exact ⟨b, rfl, Except.ok.inj h⟩

variable {α : Type}

namespace Lowered

def problem (L : Lowered α) (auxiliary? : String → Option Unknown) : Problem α :=
  ⟨L.layout, auxiliary?, L.constraints.toList⟩

theorem ofPass_padded {s : Compilation α} {Fs : List (Form α)} {L : Lowered α}
    (h : ofPass s Fs = .ok L) : L.forms.toList.map (·.rows) = Fs.map (·.rows) ∧
      s.problem.Padded (L.problem s.pass.auxiliary?) := by
  obtain ⟨hlayout, hforms, hconstraints⟩ := ofPass_rows h
  exact ⟨hforms, hlayout, rfl, hconstraints⟩

end Lowered

variable [Field α] [LinearOrder α] [Scalar α] [ExactScalar α]

namespace Compilation

theorem Alone.holding {s : Compilation α} {K : List (Node α)} {e : Node α} {F : Form α}
    (h : s.Alone K) (hK : Node.Faithful K) (hsize : ∀ n ∈ K, n.size.Nonneg) (he : e ∈ K)
    (hF : s.pass.find? e.id = some F) : ∃ ns, s.Holding ns e := by
  obtain ⟨config, ns, hreached, hnodes⟩ := h
  have hsub : s.nodes ns ⊆ K := fun n hn => (hnodes n).mp hn
  obtain ⟨htidy, hcompiles⟩ := hreached.keeps kept_compiles (Pass.compiled_empty config _)
    (hK.mono hsub) fun n hn => hsize n (hsub hn)
  exact ⟨ns, htidy, hcompiles, (hnodes e).mpr he, Pass.contains_of_find? hF⟩

end Compilation

namespace Session

variable {S T : Session α} {M N K K' : List (Node α)} {e : Node α} {F G : Form α} {P Q : Problem α}
variable {p : Nat}

/-- The ways in which a session lowers an expression: in one of its passes, over all unknowns there
are or not, or together with others in a pass of its own. There result a form of the expression and
the problem that it is part of; the last argument lists the nodes that there are by then. -/
inductive Lowers (S : Session α) (N : List (Node α)) (e : Node α) :
    Form α → Problem α → List (Node α) → Prop
  | lower {p : Nat} {F : Form α} {T : Session α} (hp : p < S.passes.size) (he : e ∈ S.nodes N)
      (h : onPass p (Compilation.lower e) S = (.ok F, T)) :
      Lowers S N e F (T.view p).problem (T.nodes N)
  | conicForm {p : Nat} {F : Form α} {T : Session α} (hp : p < S.passes.size) (he : e ∈ S.nodes N)
      (h : onPass p (Compilation.conicForm e) S = (.ok F, T)) :
      Lowers S N e F (T.view p).problem (T.nodes N)
  | together {config : Config} {us : List Unknown} {es : List (Node α)} {L : Lowered α} {k : Nat}
      {F : Form α} (hus : us.map .unknown ⊆ S.nodes N) (hes : es ⊆ S.nodes N)
      (h : (Lowered.ofNodes config (us.map .unknown) es S.workspace).1 = .ok L)
      (he : es[k]? = some e) (hF : L.forms[k]? = some F) :
      Lowers S N e F (L.problem (Lowered.compiled config us es S.workspace).pass.auxiliary?)
        ((Lowered.compiled config us es S.workspace).nodes (S.nodes N))

omit [Field α] [LinearOrder α] [Scalar α] [ExactScalar α] in
theorem size_passes_onPass {β : Type} (p : Nat) (task : Task (Compilation α) β) (S : Session α) :
    (onPass p task S).2.passes.size = S.passes.size :=
  Array.size_setIfInBounds

omit [LinearOrder α] [ExactScalar α] in
theorem Reached.asked {β : Type} {task : Task (Compilation α) β} {r : Request α}
    (h : S.Reached N) (hr : r.serve = Request.ask task) (hp : p < S.passes.size)
    (ho : r.operands ⊆ S.nodes N) : (onPass p task S).2.Reached N := by
  obtain ⟨hmade, hstate⟩ := Request.ask_eq task (S.view p)
  have hstep := h.request p r hp ho
  rw [Request.built, hr, hmade] at hstep
  have hT : (onPass p (Request.ask task) S).2 = (onPass p task S).2 := congrArg (S.update p) hstate
  rwa [hT] at hstep

theorem Reached.holding {β : Type} {task : Task (Compilation α) β} {r : Request α}
    (h : S.Reached N) (hr : r.serve = Request.ask task) (hp : p < S.passes.size)
    (ho : r.operands ⊆ S.nodes N) (he : e ∈ S.nodes N)
    (hK : Node.Faithful ((onPass p task S).2.nodes N))
    (hsize : ∀ n ∈ (onPass p task S).2.nodes N, n.size.Nonneg)
    (hF : (task (S.view p)).2.pass.find? e.id = some F) :
    ((onPass p task S).2.view p).pass.find? e.id = some F ∧
      ∃ ns, ((onPass p task S).2.view p).Holding ns e := by
  have hplaced := h.settled.placed p hp
  have hgrows := h.settled.grows hp ho
  rw [hr, (Request.ask_eq task (S.view p)).2] at hgrows
  have hview : (onPass p task S).2.view p = (task (S.view p)).2 := (hplaced.update _).2
  have hpass : p < (onPass p task S).2.passes.size := lt_of_lt_of_eq hp (size_passes_onPass ..).symm
  have hnodes : e ∈ (onPass p task S).2.nodes ([] ++ N) ↔
      e ∈ (task (S.view p)).2.nodes [] ∨ e ∈ S.nodes N :=
    mem_nodes_update hplaced hgrows.auxiliaries
  have heT : e ∈ (onPass p task S).2.nodes N := hnodes.mpr (.inr he)
  have hF' := hview ▸ hF
  have halone := (h.asked hr hp ho).settled.passes p hpass
  exact ⟨hF', halone.holding hK hsize heT hF'⟩

theorem Lowers.holding (h : S.Reached N) (hF : S.Lowers N e F P K) (hK : Node.Faithful K)
    (hsize : ∀ n ∈ K, n.size.Nonneg) : ∃ (s : Compilation α) (ns : List (Node α)) (G : Form α),
      s.Holding ns e ∧ s.pass.find? e.id = some G ∧ F.rows = G.rows ∧ s.problem.Padded P := by
  cases hF with
  | @lower p F T hp he hT =>
    have hresult : (Compilation.lower e (S.view p)).1 = .ok F := congrArg Prod.fst hT
    obtain rfl : (onPass p (Compilation.lower e) S).2 = T := congrArg Prod.snd hT
    have hform := Compilation.lower_holds e (S.view p) F hresult
    obtain ⟨hfind, ns, hholding⟩ := h.holding (r := .lower e) rfl hp
      (List.cons_subset.mpr ⟨he, List.nil_subset _⟩) he hK hsize hform
    exact ⟨_, ns, F, hholding, hfind, rfl, Problem.Padded.refl _⟩
  | @conicForm p F T hp he hT =>
    have hresult : (Compilation.conicForm e (S.view p)).1 = .ok F := congrArg Prod.fst hT
    obtain rfl : (onPass p (Compilation.conicForm e) S).2 = T := congrArg Prod.snd hT
    obtain ⟨G, hrecalls, hGF⟩ := Compilation.conicForm_recalls e (S.view p) F hresult
    obtain ⟨hfind, ns, hholding⟩ := h.holding (r := .conicForm e) rfl hp
      (List.cons_subset.mpr ⟨he, List.nil_subset _⟩) he hK hsize hrecalls.form
    exact ⟨_, ns, G, hholding, hfind, Form.rows_of_withColumns hGF, Problem.Padded.refl _⟩
  | @together config us es L k F hus hes hL he hF =>
    let start : Compilation α := ⟨S.workspace, .ofList (us.map .unknown), .empty config⟩
    obtain ⟨config', ms, hreached, hnodes⟩ := h.settled.alone_start config hus
    have hes' : es ⊆ start.nodes ms := fun n hn => (hnodes n).mpr (hes hn)
    obtain ⟨hreached', hforms⟩ := Lowered.reached_mapM hreached hes'
    rw [Lowered.ofNodes_eq] at hL
    obtain ⟨Fs, hFs, hL⟩ := bind_eq_ok hL
    obtain ⟨hrows, hpadded⟩ := Lowered.ofPass_padded hL
    obtain ⟨F', hF', hF'F⟩ : ∃ F', Fs[k]? = some F' ∧ F'.rows = F.rows := by
      have hrow := congrArg (·[k]?) hrows
      simp only [List.getElem?_map, Array.getElem?_toList, hF] at hrow
      exact Option.map_eq_some_iff.mp hrow.symm
    obtain ⟨hk, rfl⟩ := List.getElem?_eq_some_iff.mp hF'
    obtain ⟨hke, rfl⟩ := List.getElem?_eq_some_iff.mp he
    obtain ⟨G, hG, hGF⟩ := (hforms Fs hFs).get hke hk
    have halone : (Lowered.compiled config us es S.workspace).Alone
        ((Lowered.compiled config us es S.workspace).nodes (S.nodes N)) :=
      ⟨config', ms, hreached', fun n => List.mem_append.trans
        ((or_congr_right (hnodes n)).trans List.mem_append.symm)⟩
    have hmem : es[k] ∈ (Lowered.compiled config us es S.workspace).nodes (S.nodes N) :=
      List.mem_append_right _ (hes (List.getElem_mem hke))
    obtain ⟨ns, hholding⟩ := halone.holding hK hsize hmem hG
    exact ⟨_, ns, G, hholding, hG, hF'F.symm.trans hGF, hpadded⟩

variable [IsStrictOrderedRing α]

/-- Two ways to lower an expression, in whatever sessions and after whatever requests: the forms are the
same, and so are the cones, up to the correspondence of columns. -/
theorem Reached.lowering_canonical (hS : S.Reached M) (hT : T.Reached N)
    (hF : S.Lowers M e F P K) (hG : T.Lowers N e G Q K') (hK : Node.Faithful K)
    (hK' : Node.Faithful K') (hsize : ∀ n ∈ K, n.size.Nonneg) (hsize' : ∀ n ∈ K', n.size.Nonneg) :
    P.Corresponds Q e F G := by
  obtain ⟨s, ns, F₀, hs, hF₀, hFF, hP⟩ := hF.holding hS hK hsize
  obtain ⟨t, ms, G₀, ht, hG₀, hGG, hQ⟩ := hG.holding hT hK' hsize'
  exact hP.corresponds hQ hFF hGG (hs.corresponds ht hF₀ hG₀)

end Session

namespace Session

open Compilation (side area drawn area_mem)

def other : Unknown := ⟨2, Identity.ofUnknown 1, 1, "other", .scalar, .indeterminate⟩

def listed : List (Node ℚ) := .unknown other :: drawn

def prepared : Session ℚ :=
  ⟨⟨3, 2, .empty, 0⟩, #[.empty, .ofList [.unknown other]], #[(0, .empty {}), (1, .empty {})]⟩

theorem prepared_reached : prepared.Reached listed := by
  have hside : Reached (⟨⟨1, 1, .empty, 0⟩, #[], #[]⟩ : Session ℚ) [.unknown side] :=
    Reached.start.build (.unknown "side" .scalar (.ok .indeterminate)) trivial nofun
  have harea : Reached (⟨⟨2, 1, .empty, 0⟩, #[], #[]⟩ : Session ℚ) drawn :=
    hside.build (.square (.unknown side)) trivial fun _ h => h
  have hother : Reached (⟨⟨3, 2, .empty, 0⟩, #[], #[]⟩ : Session ℚ) listed :=
    harea.build (.unknown "other" .scalar (.ok .indeterminate)) trivial nofun
  have hlayouts := (hother.newLayout [] nofun).newLayout [other] (by simp [nodes, listed])
  exact (hlayouts.newPass 0 {} (by decide)).newPass 1 {} (by decide)

def firstArea : Except Failure (Form ℚ) × Session ℚ :=
  onPass 0 (Compilation.conicForm area) prepared

def secondArea : Except Failure (Form ℚ) × Session ℚ :=
  onPass 1 (Compilation.conicForm area) firstArea.2

def areaBound (p : Nat) : Unknown :=
  ⟨p + 3, Identity.ofUnknown (p + 2), p + 2, "_aux0", .scalar, .indeterminate⟩

def areaNodes : List (Node ℚ) :=
  [.unknown (areaBound 0), .unknown (areaBound 1), .unknown other, area, .unknown side]

theorem areas_eq : firstArea.1.map (·.coefficient 0 1) = .ok 1 ∧
    secondArea.1.map (·.coefficient 0 2) = .ok 1 ∧
    (firstArea.2.passes.toList.flatMap fun P => P.2.auxiliaries.map (·.unknown)) = [areaBound 0] ∧
    (secondArea.2.passes.toList.flatMap fun P => P.2.auxiliaries.map (·.unknown)) =
      [areaBound 0, areaBound 1] ∧
    (areaNodes.map (·.id)).Nodup := by
  decide +kernel

theorem areas_subset : firstArea.2.nodes listed ⊆ areaNodes ∧
    secondArea.2.nodes listed ⊆ areaNodes := by
  obtain ⟨-, -, hfirst, hsecond, -⟩ := areas_eq
  have hmap (S : Session ℚ) : S.nodes listed =
      (S.passes.toList.flatMap fun P => P.2.auxiliaries.map (·.unknown)).map .unknown ++ listed := by
    simp only [nodes, List.map_flatMap, List.map_map]
    rfl
  rw [hmap, hmap, hfirst, hsecond]
  simp [areaNodes, listed, drawn]

theorem areaNodes_faithful : Node.Faithful areaNodes := Node.faithful_of_nodup areas_eq.2.2.2.2

theorem areaNodes_nonneg : ∀ n ∈ areaNodes, n.size.Nonneg := by
  intro n hn
  simp only [areaNodes, List.mem_cons, List.not_mem_nil, or_false] at hn
  rcases hn with rfl | rfl | rfl | rfl | rfl <;> exact ⟨by decide, by decide⟩

theorem areas_correspond : ∃ F G, firstArea.1 = .ok F ∧ secondArea.1 = .ok G ∧
    (firstArea.2.view 0).problem.Corresponds (secondArea.2.view 1).problem area F G ∧
    F.coefficient 0 1 = 1 ∧ G.coefficient 0 2 = 1 := by
  obtain ⟨hF, hG, -⟩ := areas_eq
  obtain ⟨hsub, hsub'⟩ := areas_subset
  obtain ⟨F, hfirst, hF⟩ := map_eq_ok hF
  obtain ⟨G, hsecond, hG⟩ := map_eq_ok hG
  have hdrawn : area ∈ listed := List.mem_cons_of_mem _ (List.mem_cons_self ..)
  have harea : area ∈ prepared.nodes listed := List.mem_append_right _ hdrawn
  have hreached : firstArea.2.Reached listed :=
    prepared_reached.asked (r := .conicForm area) rfl (by decide)
      (List.cons_subset.mpr ⟨harea, List.nil_subset _⟩)
  have hp : 1 < firstArea.2.passes.size :=
    lt_of_lt_of_eq (by decide : 1 < prepared.passes.size) (size_passes_onPass ..).symm
  have hfirst' : firstArea = (.ok F, firstArea.2) := Prod.ext hfirst rfl
  have hsecond' : secondArea = (.ok G, secondArea.2) := Prod.ext hsecond rfl
  have hmatch := prepared_reached.lowering_canonical hreached (.conicForm (by decide) harea hfirst')
    (.conicForm hp (List.mem_append_right _ hdrawn) hsecond') (areaNodes_faithful.mono hsub)
    (areaNodes_faithful.mono hsub') (fun n hn => areaNodes_nonneg n (hsub hn))
    fun n hn => areaNodes_nonneg n (hsub' hn)
  exact ⟨F, G, hfirst, hsecond, hmatch, hF, hG⟩

end Session

end DisciplinedConvex
