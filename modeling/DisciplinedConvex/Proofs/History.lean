import DisciplinedConvex.Proofs.Building
import DisciplinedConvex.Proofs.Moves
import DisciplinedConvex.Proofs.Slots

open DisciplinedConvex.Task

namespace DisciplinedConvex

variable {α : Type}

namespace Compilation

structure Grows (s s' : Compilation α) : Prop where
  slots : ∀ id slot, s.layout.find? id = some slot → s'.layout.find? id = some slot
  auxiliaries : s.pass.auxiliaries ⊆ s'.pass.auxiliaries
  constraints : ∀ c ∈ s.pass.constraints, c ∈ s'.pass.constraints

variable {s s' s'' : Compilation α} {ns : List (Node α)} {n x : Node α} {held : String → Prop}

theorem Grows.refl (s : Compilation α) : s.Grows s :=
  ⟨fun _ _ h => h, List.Subset.refl _, fun _ h => h⟩

theorem Grows.trans (h : s.Grows s') (h' : s'.Grows s'') : s.Grows s'' :=
  ⟨fun id slot hs => h'.slots id slot (h.slots id slot hs),
    List.Subset.trans h.auxiliaries h'.auxiliaries,
    fun c hc => h'.constraints c (h.constraints c hc)⟩

theorem Grows.nodes_subset (h : s.Grows s') : s.nodes ns ⊆ s'.nodes ns :=
  List.append_subset.mpr ⟨fun n hn => by
    obtain ⟨a, ha, rfl⟩ := List.mem_map.mp hn
    exact List.mem_append_left _ (List.mem_map_of_mem (h.auxiliaries ha)),
    List.subset_append_right ..⟩

theorem nodes_subset_append (s : Compilation α) (ms ns : List (Node α)) :
    s.nodes ns ⊆ s.nodes (ms ++ ns) :=
  List.append_subset.mpr ⟨List.subset_append_left .., fun _ hn =>
    List.mem_append_right _ (List.mem_append_right _ hn)⟩

variable [Scalar α]

theorem Move.grows (h : Move ns held s s') : s.Grows s' := by
  cases h with
  | register | introduce =>
    exact ⟨fun _ _ h => Layout.find?_register _ h, by simp [introduced], fun _ h => h⟩
  | demand cs => exact ⟨fun _ _ h => h, List.Subset.refl _, fun _ h => Array.mem_append_left _ h⟩
  | ask | hit | store => exact ⟨fun _ _ h => h, List.Subset.refl _, fun _ h => h⟩

theorem Moves.grows (h : Moves ns held s s') : s.Grows s' := by
  induction h with
  | refl => exact .refl s
  | tail _ h ih => exact ih.trans h.grows

variable [Zero α]

structure Sound (s : Compilation α) (ns : List (Node α)) : Prop
    extends s.workspace.Sound (s.nodes ns) where
  stacked : s.layout.Stacked (s.nodes ns)
  introduced : (s.pass.auxiliaries.map (·.unknown)).Nodup

theorem Sound.withWorkspace (hs : s.Sound ns) {w : Workspace} (hw : w.Sound (s.nodes ns)) :
    Sound { s with workspace := w } ns :=
  ⟨hw, hs.stacked, hs.introduced⟩

theorem Sound.register (hs : s.Sound ns) {u : Unknown} (hu : .unknown u ∈ s.nodes ns) :
    Sound { s with layout := s.layout.register (.unknown u) } ns :=
  ⟨hs.toSound, hs.stacked.register hu, hs.introduced⟩

theorem Sound.introduce (hs : s.Sound ns) (square? : Option (Node α)) (size : Size) :
    (s.introduced square? size).Sound ns := by
  refine ⟨?_, ?_, ?_⟩
  · exact hs.push rfl nofun trivial rfl (fun _ he => Node.unknown.inj he ▸ ⟨rfl, rfl⟩) rfl
      (Nat.le_succ _) rfl
  · exact (hs.stacked.mono (List.subset_cons_self ..)).register (List.mem_cons_self ..)
  · refine List.nodup_cons.mpr ⟨fun hm => ?_, hs.introduced⟩
    obtain ⟨a, ha, hau⟩ := List.mem_map.mp hm
    have hlt := hs.judges.refs (.unknown (s.nextAuxiliary size))
      (List.mem_append_left _ (List.mem_map.mpr ⟨a, ha, congrArg Node.unknown hau⟩))
    exact absurd hlt (Nat.lt_irrefl _)

theorem Sound.move (hs : s.Sound ns) (h : Move ns held s s') : s'.Sound ns := by
  cases h with
  | ask n hn => exact hs.withWorkspace (Workspace.asks_vexity hn s.workspace hs.toSound)
  | register u hu => exact hs.register hu
  | introduce square? size => exact hs.introduce square? size
  | hit | store | demand => exact ⟨hs.toSound, hs.stacked, hs.introduced⟩

theorem Sound.moves (hs : s.Sound ns) (h : Moves ns held s s') : s'.Sound ns := by
  induction h with
  | refl => exact hs
  | tail _ h ih => exact ih.move h

def Keeps {β : Type} (ns M : List (Node α)) (task : Task (Compilation α) β) : Prop :=
  ∀ s : Compilation α, s.Sound ns → M ⊆ s.nodes ns →
    task.Ends s fun _ s' => s'.Sound ns ∧ s.Grows s'

theorem Goes.keeps {β : Type} {M : List (Node α)} {task : Task (Compilation α) β}
    (h : Goes ns (fun _ => False) M task) : Keeps ns M task :=
  fun s hs hM => (h s hM nofun).imp fun _ _ hm => ⟨hs.moves hm, hm.grows⟩

theorem keeps_onVerdicts {β : Type} {M : List (Node α)} {task : Task Verdicts β}
    (ht : ∀ N : List (Node α), M ⊆ N → Workspace.Asks N (Workspace.onVerdicts task)) :
    Keeps ns M (onWorkspace (Workspace.onVerdicts task)) := by
  intro s hs hM
  rw [onWorkspace, ends_onPart]
  refine (ht _ hM s.workspace hs.toSound).imp fun _ _ hw => ⟨hs.withWorkspace hw, ?_⟩
  exact ⟨fun _ _ h => h, List.Subset.refl _, fun _ h => h⟩

end Compilation

inductive Request (α : Type) where
  | constant (A : Dense α)
  | unknown (name : String) (size : Size) (sign : Except Failure Sign)
  | product (left right : Node α)
  | weighted (weight : Constant α) (operand : Node α)
  | square (operand : Node α)
  | multiply (x y : Node α)
  | dotMultiply (x y : Node α)
  | divide (x c : Node α)
  | negate (x : Node α)
  | sign (n : Node α)
  | vexity (n : Node α)
  | register (u : Unknown)
  | auxiliary (size : Size)
  | lower (n : Node α)
  | conicForm (n : Node α)

namespace Request

open Compilation

def operands : Request α → List (Node α)
  | constant _ | unknown .. | auxiliary _ => []
  | product x y | multiply x y | dotMultiply x y | divide x y => [x, y]
  | weighted c x => [.constant c, x]
  | square x | negate x | sign x | vexity x | lower x | conicForm x => [x]
  | register u => [.unknown u]

def build (task : Task Workspace (Node α)) : Task (Compilation α) (List (Node α)) := do
  return (← onWorkspace task).preorder

def ask {β : Type} (task : Task (Compilation α) β) : Task (Compilation α) (List (Node α)) := do
  let _ ← task
  return []

def made : Except Failure (List (Node α)) → List (Node α)
  | .ok ns => ns
  | .error _ => []

theorem ask_eq {β : Type} (task : Task (Compilation α) β) (s : Compilation α) :
    made (ask task s).1 = [] ∧ (ask task s).2 = (task s).2 := by
  have h : (ask task).Ends s fun r s' => made r = [] ∧ s' = (task s).2 := by
    rw [ask, ends_bind]
    refine Ends.imp (P := fun _ s' => s' = (task s).2) rfl ?_
    rintro (e | b) _ rfl
    · exact ⟨rfl, rfl⟩
    · exact ⟨rfl, rfl⟩
  exact h

variable [Zero α] [One α] [Neg α] [Add α] [Mul α] [Scalar α]

def serve : Request α → Task (Compilation α) (List (Node α))
  | constant A => build do return .constant (← Constant.build A)
  | unknown name size s => build do return .unknown (← Unknown.build name size s)
  | product l r => build (Node.buildProduct l r)
  | weighted c x => build (Node.buildWeighted c x)
  | square x => build (Node.buildSquare x)
  | multiply x y => build (x.multiply y)
  | dotMultiply x y => build (x.dotMultiply y)
  | divide x c => build (x.divide c)
  | negate x => build x.negated
  | sign n => ask (onWorkspace (Workspace.onVerdicts n.askSign))
  | vexity n => ask (onWorkspace (Workspace.onVerdicts n.askVexity))
  | register u => ask (Compilation.register u)
  | auxiliary size => ask (newAuxiliary size)
  | lower n => ask (Compilation.lower n)
  | conicForm n => ask (Compilation.conicForm n)

def built (r : Request α) (s : Compilation α) : List (Node α) := made (r.serve s).1

theorem vexity_eq (n : Node α) (s : Compilation α) : (vexity n).built s = [] ∧
    ((vexity n).serve s).2 = { s with workspace := { s.workspace with
      verdicts := (n.askVexity s.workspace.verdicts).2 } } :=
  ask_eq (onWorkspace (Workspace.onVerdicts n.askVexity)) s

end Request

namespace Compilation

variable {s : Compilation α} {ns : List (Node α)}

variable [Zero α] [Scalar α]

structure Served (s : Compilation α) (ns : List (Node α)) (r : Except Failure (List (Node α)))
    (s' : Compilation α) : Prop where
  sound : s'.Sound (Request.made r ++ ns)
  grows : s.Grows s'

theorem build_ends {task : Task Workspace (Node α)} (hs : s.Sound ns)
    (ht : Workspace.Builds (s.nodes ns) task) : (Request.build task).Ends s (s.Served ns) := by
  have hkept (w : Workspace) : s.Grows { s with workspace := w } :=
    ⟨fun _ _ h => h, List.Subset.refl _, fun _ h => h⟩
  rw [Request.build, ends_bind, onWorkspace, ends_onPart]
  apply (ht s.workspace hs.toSound).imp
  rintro (e | n) w hw
  · exact ⟨hs.withWorkspace hw, hkept w⟩
  · have hstacked := hs.stacked.mono (s.nodes_subset_append n.preorder ns)
    refine ⟨⟨hw.congr fun m => ?_, hstacked, hs.introduced⟩, hkept w⟩
    simp only [nodes, List.mem_append, Workspace.gained]
    exact or_left_comm

theorem ask_ends {β : Type} {M : List (Node α)} {task : Task (Compilation α) β} (hs : s.Sound ns)
    (hM : M ⊆ s.nodes ns) (ht : Keeps ns M task) : (Request.ask task).Ends s (s.Served ns) := by
  rw [Request.ask, ends_bind]
  apply (ht s hs hM).imp
  rintro (e | b) s' ⟨hs', hg⟩
  · exact ⟨hs', hg⟩
  · exact ⟨hs', hg⟩

variable [One α] [Neg α] [Add α] [Mul α]

/-- The states that a compilation comes to, with the nodes built by then, whether the requests
before were granted or failed. -/
inductive Reached (config : Config) : Compilation α → List (Node α) → Prop
  | start : Reached config ⟨.empty, .empty, .empty config⟩ []
  | step {s : Compilation α} {ns : List (Node α)} (r : Request α) (h : Reached config s ns)
      (hr : r.operands ⊆ s.nodes ns) : Reached config (r.serve s).2 (r.built s ++ ns)

variable {config : Config}

theorem Reached.ask (h : Reached config s ns) (r : Request α) (hr : r.operands ⊆ s.nodes ns)
    (hbuilt : ∀ t, r.built t = []) : Reached config (r.serve s).2 ns := by
  have hstep := h.step r hr
  rwa [hbuilt s] at hstep

theorem serve_ends (r : Request α) (hs : s.Sound ns) (hr : r.operands ⊆ s.nodes ns) :
    r.serve.Ends s (s.Served ns) := by
  have hpre {n : Node α} (hn : n ∈ s.nodes ns) : n.preorder ⊆ s.nodes ns :=
    hs.family.preorder_subset hn
  have hpair {x y : Node α} (h : [x, y] ⊆ s.nodes ns) : x ∈ s.nodes ns ∧ y ∈ s.nodes ns := by
    simpa using h
  cases r with
  | constant A =>
    exact build_ends hs (Node.builds_of_constant A fun c =>
      Workspace.builds_pure (List.mem_cons_self ..))
  | unknown name size sign => exact build_ends hs (Node.unknown_builds name size sign)
  | product l r =>
    obtain ⟨hl, hr⟩ := hpair hr
    exact build_ends hs (Node.buildProduct_builds hl hr)
  | weighted c x =>
    obtain ⟨hc, hx⟩ := hpair hr
    exact build_ends hs (Node.buildWeighted_builds hc hx)
  | square x => exact build_ends hs (Node.buildSquare_builds (hr (List.mem_singleton_self x)))
  | multiply x y =>
    obtain ⟨hx, hy⟩ := hpair hr
    exact build_ends hs (Node.multiply_builds hx hy)
  | dotMultiply x y =>
    obtain ⟨hx, hy⟩ := hpair hr
    exact build_ends hs (Node.dotMultiply_builds hx hy)
  | divide x c =>
    obtain ⟨hx, hc⟩ := hpair hr
    exact build_ends hs (Node.divide_builds hx hc)
  | negate x => exact build_ends hs (Node.negated_builds (hr (List.mem_singleton_self x)))
  | sign n =>
    exact ask_ends hs hr (keeps_onVerdicts fun _ hN =>
      Workspace.asks_sign (hN (List.mem_singleton_self n)))
  | vexity n =>
    exact ask_ends hs hr (keeps_onVerdicts fun _ hN =>
      Workspace.asks_vexity (hN (List.mem_singleton_self n)))
  | register u => exact ask_ends hs hr (goes_register (List.mem_singleton_self _)).keeps
  | auxiliary size => exact ask_ends hs hr (goes_introduce none size).keeps
  | lower n => exact ask_ends hs (hpre (hr (List.mem_singleton_self n))) (goes_lower n).keeps
  | conicForm n => exact ask_ends hs (hpre (hr (List.mem_singleton_self n))) (goes_conicForm n).keeps

theorem Reached.sound (h : Reached config s ns) : s.Sound ns := by
  induction h with
  | start => exact ⟨Workspace.sound_empty, Layout.stacked_empty, List.nodup_nil⟩
  | step r h hr ih => exact (serve_ends r ih hr).sound

theorem Reached.askVexity_eq {n : Node α} (h : Reached config s ns) (hn : n ∈ s.nodes ns) :
    (n.askVexity s.workspace.verdicts).1 =
      if (Node.settle s.workspace.verdicts.known n).isSome then .ok n.vexity
      else .error .unaskedChild := by
  have hanswer := (Node.askVexity_ends h.sound.family hn h.sound.judges).answer
  cases hsettle : Node.settle s.workspace.verdicts.known n with
  | none =>
    rw [hsettle] at hanswer
    exact hanswer
  | some known =>
    rw [hsettle] at hanswer
    exact hanswer.1

theorem Reached.eq_vexity {n : Node α} (h : Reached config s ns) (hn : n ∈ s.nodes ns) {v : Vexity}
    (hv : (n.askVexity s.workspace.verdicts).1 = .ok v) : v = n.vexity := by
  rw [h.askVexity_eq hn] at hv
  split at hv
  · exact (Except.ok.inj hv).symm
  · cases hv

theorem Reached.askVexity_of_objects {n : Node α} (h : Reached config s ns) (hn : n ∈ s.nodes ns)
    (hobjects : ∀ a ∈ n.preorder, ∀ b ∈ n.preorder, a.id = b.id → a = b) :
    (n.askVexity s.workspace.verdicts).1 = .ok n.vexity := by
  rw [h.askVexity_eq hn, if_pos (Node.settle_of_objects _ hobjects)]

def untouched (objects unknowns : Nat) : Compilation α :=
  ⟨⟨objects, unknowns, .empty, 0⟩, .empty, .empty {}⟩

end Compilation

end DisciplinedConvex
