import DisciplinedConvex.Proofs.Independence
import DisciplinedConvex.Proofs.Ledger
import DisciplinedConvex.Proofs.Turns

open DisciplinedConvex.Task

namespace DisciplinedConvex

section Audits

variable {α : Type} [Scalar α]

theorem Form.isFinite_of_mem {F : Form α} {row : AffineRow α} (hF : F.isFinite = true)
    (h : row ∈ F.rows) : row.isFinite = true :=
  Array.all_eq_true'.mp hF row h

theorem Form.isFinite_congr {F G : Form α} (h : F.rows = G.rows) : F.isFinite = G.isFinite := by
  rw [isFinite, isFinite, h]

namespace Pass

variable {P Q : Pass α}
variable [Zero α] [One α] [Neg α] [Add α] [Mul α]

def Cone (c : String × Array (AffineRow α)) : Prop :=
  ∃ row k, row.isFinite = true ∧ c = ("SOC", Compilation.epigraphRows row (.column k))

structure Audited (P : Pass α) : Prop where
  forms : ∀ id F, P.find? id = some F → F.isFinite = true
  cones : ∀ c ∈ P.constraints, Cone (c.cone, c.form.rows)

theorem audited_empty (config : Config) : (empty config : Pass α).Audited :=
  ⟨fun id F hF => by simp [empty, find?] at hF, fun c hc => absurd hc (Array.not_mem_empty c)⟩

variable [FiniteUnits α]

theorem Bounds.cone {c : Constraint α} (h : P.Bounds c) (hP : P.Audited) :
    Cone (c.cone, c.form.rows) := by
  obtain ⟨row, k, hrow, hcone, hrows⟩ := h
  refine ⟨row, k, ?_, Prod.ext hcone hrows⟩
  rcases hrow with rfl | ⟨id, X, hX, hmem⟩
  · simp [AffineRow.isFinite, AffineRow.constant, FiniteUnits.zero]
  · exact Form.isFinite_of_mem (hP.forms id X hX) hmem

theorem Step.audited (h : Step P Q) (hstrict : P.config.rejectNonfinite = true) (hP : P.Audited) :
    Q.Audited := by
  cases h with
  | hit | introduce => exact ⟨hP.forms, hP.cones⟩
  | store id F hnew hfinite =>
    refine ⟨fun id' G hG => ?_, hP.cones⟩
    rw [find?_store] at hG
    split at hG
    · rw [← Option.some.inj hG]
      exact hfinite hstrict
    · exact hP.forms id' G hG
  | demand cs h =>
    refine ⟨hP.forms, fun c hc => ?_⟩
    rcases Array.mem_append.mp hc with hc | hc
    · exact hP.cones c hc
    · exact (h c hc).cone hP

theorem Steps.audited (h : Steps P Q) (hstrict : P.config.rejectNonfinite = true)
    (hP : P.Audited) : Q.Audited := by
  induction h with
  | refl => exact hP
  | tail hsteps hstep ih =>
    exact hstep.audited (Steps.config_eq hsteps ▸ hstrict) ih

end Pass

end Audits

theorem Form.isFinite_epigraphRows {F : Form Double} {row : AffineRow Double} {k : Nat}
    (h : F.rows = Compilation.epigraphRows row (.column k)) :
    F.isFinite = (row.scale (1 + 1)).isFinite := by
  have hone : Scalar.isFinite (1 : Double) = true := FiniteUnits.one
  have hplus : Scalar.isFinite (0 + 1 : Double) = true := by decide +kernel
  have hminus : Scalar.isFinite (0 + -1 : Double) = true := by decide +kernel
  rw [isFinite, h]
  simp [Compilation.epigraphRows, AffineRow.isFinite, AffineRow.column, hone, hplus, hminus]

namespace Session

variable {S : Session Double} {N es : List (Node Double)} {us : List Unknown} {config : Config}
variable {L : Lowered Double}

/-- With `rejectNonfinite` every form that is handed over is finite. The constraints are cones that
bound finite rows by columns, and one of them is finite only if the double of its row is, which nothing
has looked at. -/
theorem Reached.together_audited (h : S.Reached N) (hus : us.map .unknown ⊆ S.nodes N)
    (hes : es ⊆ S.nodes N) (hstrict : config.rejectNonfinite = true)
    (hL : (Lowered.ofNodes config (us.map .unknown) es S.workspace).1 = .ok L)
    (hN : Node.Faithful ((Lowered.compiled config us es S.workspace).nodes (S.nodes N))) :
    (∀ F ∈ L.forms, F.isFinite = true) ∧
    ∀ c ∈ L.constraints, ∃ row k, row.isFinite = true ∧ c.cone = "SOC" ∧
      c.form.rows = Compilation.epigraphRows row (.column k) ∧
      c.form.isFinite = (row.scale (1 + 1)).isFinite := by
  obtain ⟨ms, -, hseries⟩ := h.series config hus hes hN
  have haudited := hseries.advances.steps.audited hstrict (Pass.audited_empty config)
  rw [Lowered.ofNodes_eq] at hL
  obtain ⟨Fs, hFs, hL⟩ := bind_eq_ok hL
  rw [hFs] at hseries
  obtain ⟨-, hforms, hconstraints⟩ := Lowered.ofPass_rows hL
  constructor
  · intro F hF
    have hrows : F.rows ∈ Fs.map (·.rows) := hforms ▸ List.mem_map_of_mem (Array.mem_toList_iff.mpr hF)
    obtain ⟨G, hG, hGF⟩ := List.mem_map.mp hrows
    obtain ⟨id, K, hK, hGK⟩ := hseries.held hG
    rw [Form.isFinite_congr (hGF.symm.trans hGK)]
    exact haudited.forms id K hK
  · intro c hc
    let content (c : Constraint Double) : String × Array (AffineRow Double) := (c.cone, c.form.rows)
    have hmem : content c ∈ L.constraints.toList.map content :=
      List.mem_map_of_mem (Array.mem_toList_iff.mpr hc)
    rw [hconstraints] at hmem
    obtain ⟨d, hd, hdc⟩ := List.mem_map.mp hmem
    obtain ⟨row, k, hrow, he⟩ := haudited.cones d (Array.mem_toList_iff.mp hd)
    obtain ⟨hcone, hrows⟩ := Prod.mk.inj (hdc.symm.trans he)
    exact ⟨row, k, hrow, hcone, hrows, Form.isFinite_epigraphRows hrows⟩

def slack : Unknown := ⟨0, Identity.ofUnknown 0, 0, "slack", .scalar, .indeterminate⟩

def summit : Double := .ofFloat 1e308

def huge : Constant Double :=
  ⟨1, Identity.ofConstant [1, 1] (Constant.listing (Dense.scalar summit)), .scalar summit⟩

def steep : Node Double :=
  .product ⟨2, .scalar, Identity.ofOperation "*" [huge.id, slack.id]⟩ (.constant huge) (.unknown slack)

def steepSquare : Node Double :=
  .square ⟨3, .scalar, Identity.ofOperation "square" [steep.id]⟩ steep

def steepNodes : List (Node Double) :=
  steepSquare.preorder ++ steep.preorder ++ [.constant huge, .unknown slack]

def sloped : Session Double := ⟨⟨4, 1, .empty, 0⟩, #[], #[]⟩

def strict : Config := { rejectNonfinite := true }

def steepBound : Unknown := ⟨4, Identity.ofUnknown 1, 1, "_aux0", .scalar, .indeterminate⟩

theorem sloped_reached : sloped.Reached steepNodes := by
  have hslack : Reached (⟨⟨1, 1, .empty, 0⟩, #[], #[]⟩ : Session Double) [.unknown slack] :=
    Reached.start.build (.unknown "slack" .scalar (.ok .indeterminate)) trivial nofun
  have hhuge : Reached (⟨⟨2, 1, .empty, 0⟩, #[], #[]⟩ : Session Double)
      [.constant huge, .unknown slack] := hslack.build (.constant (.scalar summit)) trivial nofun
  have hsteep : Reached (⟨⟨3, 1, .empty, 0⟩, #[], #[]⟩ : Session Double)
      (steep.preorder ++ [.constant huge, .unknown slack]) :=
    hhuge.build (.product (.constant huge) (.unknown slack)) trivial fun _ hn => hn
  exact hsteep.build (.square steep) trivial
    (List.cons_subset.mpr ⟨List.mem_cons_self .., List.nil_subset _⟩)

theorem steep_eq :
    (Lowered.compiled strict [] [steepSquare] sloped.workspace).pass.auxiliaries.map (·.unknown) =
      [steepBound] ∧
    (Lowered.ofNodes strict [] [steepSquare] sloped.workspace).1.map (fun L =>
      (L.forms.map (·.isFinite), L.constraints.map (·.form.isFinite))) = .ok (#[true], #[false]) ∧
    ([.unknown steepBound, steepSquare, steep, .constant huge, .unknown slack].map Node.id).Nodup := by
  decide +kernel

theorem steep_faithful : Node.Faithful
    ((Lowered.compiled strict [] [steepSquare] sloped.workspace).nodes (sloped.nodes steepNodes)) := by
  obtain ⟨hauxiliary, -, hids⟩ := steep_eq
  rw [Compilation.nodes_eq_of_auxiliaries hauxiliary]
  refine (Node.faithful_of_nodup hids).mono (List.append_subset.mpr ⟨by simp, fun n hn => ?_⟩)
  change n ∈ [steepSquare, steep, .constant huge, .unknown slack, steep, .constant huge,
    .unknown slack, .constant huge, .unknown slack] at hn
  simp only [List.mem_cons, List.not_mem_nil, or_false] at hn ⊢
  tauto

theorem steep_audited : ∃ L, (Lowered.ofNodes strict [] [steepSquare] sloped.workspace).1 = .ok L ∧
    (∀ F ∈ L.forms, F.isFinite = true) ∧
    ∀ c ∈ L.constraints, ∃ row : AffineRow Double, row.isFinite = true ∧
      c.form.isFinite = (row.scale (1 + 1)).isFinite := by
  obtain ⟨L, hL, -⟩ := map_eq_ok steep_eq.2.1
  have hsquare : steepSquare ∈ sloped.nodes steepNodes := List.mem_cons_self ..
  have hnone : ([] : List Unknown).map Node.unknown ⊆ sloped.nodes steepNodes := List.nil_subset _
  obtain ⟨hfinite, hcones⟩ := sloped_reached.together_audited hnone
    (List.cons_subset.mpr ⟨hsquare, List.nil_subset _⟩) rfl hL steep_faithful
  refine ⟨L, hL, hfinite, fun c hc => ?_⟩
  obtain ⟨row, k, hrow, -, -, hiff⟩ := hcones c hc
  exact ⟨row, hrow, hiff⟩

/-- The row of `steep` has the coefficient `1e308`. Its double, which stands in the cone of the square,
is infinite. -/
theorem steep_overflows : sloped.Reached steepNodes ∧ steepSquare ∈ sloped.nodes steepNodes ∧
    (Lowered.ofNodes strict [] [steepSquare] sloped.workspace).1.map (fun L =>
      (L.forms.map (·.isFinite), L.constraints.map (·.form.isFinite))) =
        .ok (#[true], #[false]) :=
  ⟨sloped_reached, List.mem_cons_self .., steep_eq.2.1⟩

end Session

end DisciplinedConvex
