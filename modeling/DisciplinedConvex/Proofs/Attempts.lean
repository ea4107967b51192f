import DisciplinedConvex.Proofs.Growth
import DisciplinedConvex.Proofs.History

open DisciplinedConvex.Task

namespace DisciplinedConvex

theorem Verdicts.known_of_le {v w : Verdicts} (h : v ≤ w) {r : Nat} (hk : v.known r = true) :
    w.known r = true := by
  obtain ⟨x, hx⟩ := Option.isSome_iff_exists.mp hk
  rw [known, h.2 r x hx]
  rfl

namespace Compilation

variable {α : Type} [Zero α] [Scalar α]
variable {s s' t : Compilation α} {ns : List (Node α)} {n x : Node α}

structure Same (ns : List (Node α)) (s t : Compilation α) : Prop where
  pass : t.pass = s.pass
  layout : t.layout = s.layout
  workspace : s.workspace ≤ t.workspace
  sound : t.Sound ns

theorem Sound.same (hs : s.Sound ns) : Same ns s s := ⟨rfl, rfl, le_refl s.workspace, hs⟩

theorem Same.nodes_eq (h : Same ns s t) : t.nodes ns = s.nodes ns := by
  rw [nodes, nodes, h.pass]

theorem error_ne_ok {β : Type} (e : Failure) (b : β) : (.error e : Except Failure β) ≠ .ok b := by
  rintro ⟨⟩

/-- A task that only asks. Its answers are as `Q` says, and its failures as `E` says. -/
def Tries {β : Type} (ns : List (Node α)) (s : Compilation α) (task : Task (Compilation α) β)
    (Q : β → Prop) (E : Failure → Prop) : Prop :=
  ∀ t : Compilation α, Same ns s t → task.Ends t fun r t' =>
    Same ns s t' ∧ (∀ b, r = .ok b → Q b) ∧ ∀ f, r = .error f → E f

abbrev Reads {β : Type} (ns : List (Node α)) (s : Compilation α) (task : Task (Compilation α) β)
    (Q : β → Prop) : Prop :=
  Tries ns s task Q fun _ => True

section Tries

variable {β γ : Type} {P : β → Prop} {Q : γ → Prop} {E : Failure → Prop}

theorem Tries.bind {task : Task (Compilation α) β} {f : β → Task (Compilation α) γ}
    (ht : Tries ns s task P E) (hf : ∀ b, P b → Tries ns s (f b) Q E) :
    Tries ns s (task >>= f) Q E := by
  intro t hst
  rw [ends_bind]
  apply (ht t hst).imp
  rintro (e | b) t' ⟨hst', hb, he⟩
  · refine ⟨hst', fun c hc => absurd hc (error_ne_ok e c), fun f hf => he f ?_⟩
    exact congrArg _ (Except.error.inj hf)
  · exact hf b (hb b rfl) t' hst'

theorem Tries.imp {task : Task (Compilation α) β} {P' : β → Prop} {E' : Failure → Prop}
    (ht : Tries ns s task P E) (h : ∀ b, P b → P' b) (he : ∀ f, E f → E' f := by exact fun _ h => h) :
    Tries ns s task P' E' :=
  fun t hst => (ht t hst).imp fun _ _ hr =>
    ⟨hr.1, fun b hb => h b (hr.2.1 b hb), fun f hf => he f (hr.2.2 f hf)⟩

theorem tries_pure {b : β} (h : P b) : Tries ns s (pure b) P E := by
  intro t hst
  refine ⟨hst, fun b' hb => ?_, nofun⟩
  rw [← Except.ok.inj hb]
  exact h

theorem tries_throw (e : Failure) (h : E e := by trivial) :
    Tries ns s (throw e : Task (Compilation α) β) P E :=
  fun _ hst => ⟨hst, nofun, fun _ hf => Except.error.inj hf ▸ h⟩

theorem tries_lift (x : Except Failure β) (h : ∀ f, x = .error f → E f := by intros; trivial) :
    Tries ns s (liftM x) (fun b => x = .ok b) E :=
  fun _ hst => ⟨hst, fun _ hb => hb, h⟩

theorem tries_get : Tries ns s get (fun t => t.layout = s.layout ∧ t.pass = s.pass) E := by
  refine fun t hst => ⟨hst, fun b hb => ?_, nofun⟩
  rw [← Except.ok.inj hb]
  exact ⟨hst.layout, hst.pass⟩

theorem tries_guard {p : Prop} [Decidable p] {e : Failure} {rest : Unit → Task (Compilation α) β}
    (h : ¬p → Tries ns s (rest ⟨⟩) P E) (he : p → E e := by intros; trivial) :
    Tries ns s (if p then throw e >>= rest else rest ⟨⟩) P E := by
  split
  · next hp => exact tries_throw e (he hp)
  · next hp => exact h hp

theorem tries_width (h : ∀ f, Extent.columns s.layout.size = .error f → E f := by intros; trivial) :
    Tries ns s (width (α := α)) (fun k => Extent.columns s.layout.size = .ok k) E :=
  tries_get.bind fun t ht => by
    rw [ht.1]
    exact tries_lift _ h

theorem tries_lookup {id : String} {F : Form α} {find : Task (Compilation α) (Form α)}
    (h : s.pass.find? id = some F) : Tries ns s (lookup id find) (fun G => G = F) E := by
  intro t hst
  rw [lookup, ends_bind, ends_get]
  rw [← hst.pass] at h
  simp only [h]
  exact ⟨hst, fun G hG => (Except.ok.inj hG).symm, by rintro _ ⟨⟩⟩

theorem tries_isConstant (hn : n ∈ s.nodes ns)
    (h : s.workspace.verdicts.known n.ref = false → E .unaskedChild := by intros; trivial) :
    Tries ns s (isConstant n) (fun b => b = true ↔ n.vexity = .constant) E := by
  intro t hst
  have hn' : n ∈ t.nodes ns := hst.nodes_eq ▸ hn
  have hsound := hst.sound
  rw [isConstant, onWorkspace, ends_onPart, Workspace.onVerdicts, ends_onPart, Node.askConstant,
    ends_bind]
  apply ((Node.askVexity_ends hsound.family hn' hsound.judges).and
    (Node.extends_askVexity n t.workspace.verdicts)).imp
  rintro r v ⟨⟨hv, hr⟩, hle⟩
  have hsame : Same ns s { t with workspace := { t.workspace with verdicts := v } } :=
    ⟨hst.pass, hst.layout, hst.workspace.trans hle,
      hsound.withWorkspace ⟨hsound.family, hsound.identified, hv⟩⟩
  cases hsettle : Node.settle t.workspace.verdicts.known n with
  | none =>
    rw [hsettle] at hr
    subst hr
    refine ⟨hsame, fun b hb => absurd hb (error_ne_ok _ b), fun f hf => ?_⟩
    rw [← Except.error.inj hf]
    apply h
    cases hk : s.workspace.verdicts.known n.ref with
    | false => rfl
    | true =>
      rw [Node.settle_of_known (Verdicts.known_of_le hst.workspace hk)] at hsettle
      cases hsettle
  | some known =>
    rw [hsettle] at hr
    obtain ⟨rfl, -⟩ := hr
    refine ⟨hsame, fun b hb => ?_, by rintro _ ⟨⟩⟩
    rw [← Except.ok.inj hb]
    exact decide_eq_true_iff

end Tries

omit [Zero α] [Scalar α] in
theorem lookup_some {id : String} {F : Form α} (find : Task (Compilation α) (Form α))
    (h : s.pass.find? id = some F) (Q : Except Failure (Form α) → Compilation α → Prop) :
    (lookup id find).Ends s Q ↔ Q (.ok F) s := by
  rw [lookup, ends_bind, ends_get]
  simp only [h]
  exact Iff.rfl

omit [Zero α] [Scalar α] in
theorem lookup_none {id : String} (find : Task (Compilation α) (Form α))
    (h : s.pass.contains id = false) (Q : Except Failure (Form α) → Compilation α → Prop) :
    (lookup id find).Ends s Q ↔ find.Ends s Q := by
  rw [Pass.contains, Option.isSome_eq_false_iff, Option.isNone_iff_eq_none] at h
  rw [lookup, ends_bind, ends_get]
  simp only [h]

theorem record_bind {β : Type} (n : Node α) (task : Task (Compilation α) β)
    (f : β → Task (Compilation α) (Form α)) :
    record n (task >>= f) = task >>= fun b => record n (f b) := by
  simp only [record, bind_assoc]

theorem record_ends (n : Node α) (find : Task (Compilation α) (Form α)) (s : Compilation α)
    (Q : Except Failure (Form α) → Compilation α → Prop) :
    (record n find).Ends s Q ↔ find.Ends s fun r s' =>
      match r with
      | .ok F => if s'.pass.config.rejectNonfinite && !F.isFinite
        then Q (.error (.nonfiniteForm n.text)) s'
        else Q (.ok F) { s' with pass := s'.pass.store n.id F }
      | .error e => Q (.error e) s' := by
  have hstore (F : Form α) (s' : Compilation α) : (do
      if (← get).pass.config.rejectNonfinite && !F.isFinite then throw (.nonfiniteForm n.text)
      modifyPass (Pass.store n.id F)
      return F : Task (Compilation α) (Form α)).Ends s' Q ↔
        if s'.pass.config.rejectNonfinite && !F.isFinite
        then Q (.error (.nonfiniteForm n.text)) s'
        else Q (.ok F) { s' with pass := s'.pass.store n.id F } := by
    rw [ends_bind, ends_get]
    dsimp only
    split
    · exact Iff.rfl
    · exact Iff.rfl
  rw [record, ends_bind]
  constructor
  · intro h
    apply h.imp
    rintro (e | F) s' hr
    · exact hr
    · exact (hstore F s').mp hr
  · intro h
    apply h.imp
    rintro (e | F) s' hr
    · exact hr
    · exact (hstore F s').mpr hr

end Compilation

end DisciplinedConvex
