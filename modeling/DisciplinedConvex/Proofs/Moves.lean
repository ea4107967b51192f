import DisciplinedConvex.Pass.Lowering
import DisciplinedConvex.Proofs.Walk
import Mathlib.Logic.Relation

open DisciplinedConvex.Task

namespace DisciplinedConvex.Compilation

variable {α : Type}

def nodes (s : Compilation α) (ns : List (Node α)) : List (Node α) :=
  s.pass.auxiliaries.map (fun a => .unknown a.unknown) ++ ns

theorem nodes_eq_of_auxiliaries {s : Compilation α} {us : List Unknown}
    (h : s.pass.auxiliaries.map (·.unknown) = us) (ns : List (Node α)) :
    s.nodes ns = us.map .unknown ++ ns := by
  rw [nodes, ← h, List.map_map]
  rfl

def nextAuxiliary (s : Compilation α) (size : Size) : Unknown :=
  ⟨s.workspace.objects, Identity.ofUnknown s.workspace.unknowns, s.workspace.unknowns,
    "_aux" ++ toString s.pass.auxiliaries.length, size, .indeterminate⟩

def introduced (s : Compilation α) (square? : Option (Node α)) (size : Size) : Compilation α where
  workspace := { s.workspace with
    objects := s.workspace.objects + 1
    unknowns := s.workspace.unknowns + 1 }
  layout := s.layout.register (.unknown (s.nextAuxiliary size))
  pass := { s.pass with auxiliaries := ⟨s.nextAuxiliary size, square?⟩ :: s.pass.auxiliaries }

theorem introduce_eq (square? : Option (Node α)) (size : Size) (s : Compilation α) :
    introduce square? size s = (.ok (s.nextAuxiliary size), s.introduced square? size) := rfl

variable [Scalar α]

/-- What a pass does, one thing at a time. The forms that it stores are of identities that are not
`held`. -/
inductive Move (ns : List (Node α)) (held : String → Prop) (s : Compilation α) :
    Compilation α → Prop
  | ask (n : Node α) (hn : n ∈ s.nodes ns) : Move ns held s
      { s with workspace := { s.workspace with
        verdicts := (n.askVexity s.workspace.verdicts).2 } }
  | register (u : Unknown) (hu : .unknown u ∈ s.nodes ns) :
      Move ns held s { s with layout := s.layout.register (.unknown u) }
  | introduce (square? : Option (Node α)) (size : Size) :
      Move ns held s (s.introduced square? size)
  | hit (count : Nat) : Move ns held s { s with pass := s.pass.hit count }
  | store (id : String) (F : Form α) (h : ¬held id) :
      Move ns held s { s with pass := s.pass.store id F }
  | demand (cs : Array (Constraint α)) :
      Move ns held s { s with pass := s.pass.addConstraints cs }

abbrev Moves (ns : List (Node α)) (held : String → Prop) :
    Compilation α → Compilation α → Prop :=
  Relation.ReflTransGen (Move ns held)

variable {s s' : Compilation α} {ns M : List (Node α)} {held : String → Prop} {n x : Node α}
variable {β γ : Type}

theorem Move.nodes_subset (h : Move ns held s s') : s.nodes ns ⊆ s'.nodes ns := by
  cases h with
  | introduce => exact List.subset_cons_self ..
  | ask | register | hit | store | demand => exact List.Subset.refl _

theorem Moves.nodes_subset (h : Moves ns held s s') : s.nodes ns ⊆ s'.nodes ns := by
  induction h with
  | refl => exact List.Subset.refl _
  | tail _ h ih => exact List.Subset.trans ih h.nodes_subset

theorem Move.find? (h : Move ns held s s') {id : String} (hid : held id) :
    s'.pass.find? id = s.pass.find? id := by
  cases h with
  | store id' F hid' =>
    have hne : id' ≠ id := fun he => hid' (he ▸ hid)
    simp only [Pass.find?, Pass.store, Std.TreeMap.getElem?_insert, Std.compare_eq_iff_eq, if_neg hne]
  | ask | register | introduce | hit | demand => rfl

theorem Moves.find? (h : Moves ns held s s') {id : String} (hid : held id) :
    s'.pass.find? id = s.pass.find? id := by
  induction h with
  | refl => rfl
  | tail _ h ih => exact (h.find? hid).trans ih

def Goes (ns : List (Node α)) (held : String → Prop) (M : List (Node α))
    (task : Task (Compilation α) β) : Prop :=
  ∀ s : Compilation α, M ⊆ s.nodes ns → (∀ id, held id → s.pass.contains id = true) →
    task.Ends s fun _ s' => Moves ns held s s'

theorem Goes.bind {task : Task (Compilation α) β} {f : β → Task (Compilation α) γ}
    (ht : Goes ns held M task) (hf : ∀ b, Goes ns held M (f b)) : Goes ns held M (task >>= f) := by
  intro s hM hheld
  rw [ends_bind]
  apply (ht s hM hheld).imp
  rintro (e | b) s₁ h₁
  · exact h₁
  · apply (hf b s₁ (List.Subset.trans hM h₁.nodes_subset) fun id hid => ?_).imp
    · exact fun _ _ h₂ => h₁.trans h₂
    · rw [Pass.contains, h₁.find? hid]
      exact hheld id hid

theorem Goes.mono {L : List (Node α)} {task : Task (Compilation α) β} (h : Goes ns held L task)
    (hLM : L ⊆ M) : Goes ns held M task :=
  fun s hM => h s (List.Subset.trans hLM hM)

theorem goes_pure (b : β) : Goes ns held M (pure b) := fun _ _ _ => .refl

theorem goes_throw (e : Failure) : Goes ns held M (throw e : Task (Compilation α) β) :=
  fun _ _ _ => .refl

theorem goes_lift (x : Except Failure β) : Goes ns held M (liftM x) := fun _ _ _ => .refl

theorem goes_get : Goes ns held M get := fun _ _ _ => .refl

theorem goes_hit (count : Nat) : Goes ns held M (modifyPass (α := α) (Pass.hit count)) :=
  fun _ _ _ => .single (.hit count)

theorem goes_demand (cs : Array (Constraint α)) :
    Goes ns held M (modifyPass (Pass.addConstraints cs)) :=
  fun _ _ _ => .single (.demand cs)

theorem goes_store (F : Form α) {id : String} (h : ¬held id) :
    Goes ns held M (modifyPass (Pass.store id F)) :=
  fun _ _ _ => .single (.store id F h)

theorem goes_register {u : Unknown} (hu : .unknown u ∈ M) : Goes ns held M (register u) :=
  fun _ hM _ => .single (.register u (hM hu))

theorem goes_askVexity (hn : n ∈ M) :
    Goes ns held M (onWorkspace (Workspace.onVerdicts n.askVexity)) :=
  fun _ hM _ => .single (.ask n (hM hn))

theorem goes_isConstant (hn : n ∈ M) : Goes ns held M (isConstant n) := by
  intro s hM _
  have h : (isConstant n).Ends s fun _ s' => s' = { s with workspace := { s.workspace with
      verdicts := (n.askVexity s.workspace.verdicts).2 } } := by
    rw [isConstant, onWorkspace, ends_onPart, Workspace.onVerdicts, ends_onPart, Node.askConstant,
      ends_bind]
    refine Ends.imp (P := fun _ v => v = (n.askVexity s.workspace.verdicts).2) rfl ?_
    rintro (e | v) w rfl
    · rfl
    · rfl
  exact h.imp fun _ s' he => he ▸ .single (.ask n (hM hn))

theorem goes_introduce_bind {square? : Option (Node α)} {size : Size}
    {f : Unknown → Task (Compilation α) β} (hf : ∀ u, Goes ns held (.unknown u :: M) (f u)) :
    Goes ns held M (introduce square? size >>= f) := by
  intro s hM hheld
  rw [ends_bind, Ends, introduce_eq]
  have hmove : Move ns held s (s.introduced square? size) := .introduce square? size
  refine (hf _ _ ?_ fun id hid => ?_).imp fun _ _ h => .head hmove h
  · exact List.cons_subset.mpr ⟨List.mem_cons_self .., List.Subset.trans hM hmove.nodes_subset⟩
  · exact hheld id hid

theorem goes_introduce (square? : Option (Node α)) (size : Size) :
    Goes ns held M (introduce square? size) :=
  goes_introduce_bind fun u => goes_pure u

theorem goes_width : Goes ns held M (width (α := α)) :=
  goes_get.bind fun _ => goes_lift _

theorem goes_lookup {id : String} {find : Task (Compilation α) (Form α)}
    (hf : ¬held id → Goes ns held M find) : Goes ns held M (lookup id find) := by
  intro s hM hheld
  rw [lookup, ends_bind, ends_get]
  dsimp only
  cases hfind : s.pass.find? id with
  | some F => exact .refl
  | none =>
    refine hf (fun hid => ?_) s hM hheld
    have hc := hheld id hid
    rw [Pass.contains, hfind] at hc
    cases hc

theorem goes_guard {p : Prop} [Decidable p] {e : Failure} {rest : Unit → Task (Compilation α) β}
    (h : Goes ns held M (rest ⟨⟩)) :
    Goes ns held M (if p then throw e >>= rest else rest ⟨⟩) := by
  split
  · exact goes_throw e
  · exact h

theorem goes_lowerConstant (A : Dense α) : Goes ns held M (lowerConstant A) :=
  goes_width.bind fun _ => goes_pure _

variable [Zero α]

theorem goes_record (hn : ¬held n.id) {find : Task (Compilation α) (Form α)}
    (hf : Goes ns held M find) : Goes ns held M (record n find) :=
  hf.bind fun F => goes_get.bind fun _ => goes_guard ((goes_store F hn).bind fun _ => goes_pure F)

theorem goes_lowerUnknown [One α] {u : Unknown} (hu : .unknown u ∈ M) :
    Goes ns held M (lowerUnknown (α := α) u) :=
  (goes_register hu).bind fun _ => goes_get.bind fun _ => (goes_lift _).bind fun _ =>
    (goes_lift _).bind fun _ => (goes_lift _).bind fun _ => goes_width.bind fun _ =>
      goes_guard (goes_guard (goes_guard (goes_pure _)))

variable [Add α] [Mul α]

theorem goes_multiple {find : Task (Compilation α) (Form α)} (hf : Goes ns held M find) :
    Goes ns held M (multiple n find) := by
  refine hf.bind fun F => (goes_lift _).bind fun A => ?_
  split
  · exact goes_pure _
  · split
    · exact goes_pure _
    · exact goes_throw _

theorem goes_lowerProduct {l r : Node α} {left right : Task (Compilation α) (Form α)} (size : Size)
    (hl : l ∈ M) (hr : r ∈ M) (hleft : Goes ns held M left) (hright : Goes ns held M right) :
    Goes ns held M (lowerProduct size l r left right) := by
  unfold lowerProduct
  split
  · apply (goes_isConstant hl).bind
    intro b
    split
    · exact goes_multiple hright
    · apply (goes_isConstant hr).bind
      intro b
      split
      · exact goes_multiple hleft
      · exact goes_throw _
  · apply (goes_isConstant hl).bind
    intro b
    split
    · exact hright.bind fun F => (goes_lift _).bind fun n => (goes_lift _).bind fun A =>
        goes_lift _
    · apply (goes_isConstant hr).bind
      intro b
      split
      · exact hleft.bind fun F => (goes_lift _).bind fun B => (goes_lift _).bind fun n =>
          goes_lift _
      · exact goes_throw _

variable [One α] [Neg α]

theorem goes_bound {u : Unknown} (hu : .unknown u ∈ M) (X : Form α) :
    Goes ns held M (bound n u X) := by
  have hfind : Goes ns held M (lookup u.id (record (.unknown u) (lowerUnknown (α := α) u))) :=
    goes_lookup fun hid => goes_record hid (goes_lowerUnknown hu)
  refine hfind.bind fun T => goes_get.bind fun s => (goes_lift _).bind fun X =>
    (goes_lift _).bind fun T => ?_
  exact (goes_demand _).bind fun _ => goes_pure T

theorem goes_lowerSquare {find : Task (Compilation α) (Form α)} (hx : x ∈ M)
    (hf : Goes ns held M find) : Goes ns held M (lowerSquare n x find) := by
  apply (goes_isConstant hx).bind
  intro b
  split
  · exact (goes_lift _).bind fun A => goes_lowerConstant A
  · exact hf.bind fun X => goes_introduce_bind fun u => goes_bound (List.mem_cons_self ..) X

theorem goes_compute (n : Node α) (hn : ¬held n.id) : Goes ns held n.preorder (compute n) := by
  have hsub (m : Node α) {c : Node α} (hc : c ∈ m.children) : c.preorder ⊆ m.preorder :=
    fun _ hm => Node.mem_preorder_of_child hc hm
  induction n with
  | constant c => exact goes_record hn (goes_lowerConstant _)
  | unknown u => exact goes_record hn (goes_lowerUnknown (List.mem_singleton_self _))
  | product tag l r hl hr =>
    have hls := hsub _ (Node.left_mem_children tag l r)
    have hrs := hsub _ (Node.right_mem_children tag l r)
    exact goes_record hn (goes_lowerProduct _ (hls l.self_mem_preorder) (hrs r.self_mem_preorder)
      (goes_lookup fun h => (hl h).mono hls) (goes_lookup fun h => (hr h).mono hrs))
  | weighted tag c x hx =>
    have hxs := hsub _ (Node.weighted_mem_children tag c x)
    exact goes_record hn ((goes_lookup fun h => (hx h).mono hxs).bind fun F => goes_lift _)
  | square tag x hx =>
    have hxs := hsub _ (Node.square_mem_children tag x)
    exact goes_record hn (goes_lowerSquare (hxs x.self_mem_preorder)
      (goes_lookup fun h => (hx h).mono hxs))
  | bare tag kind arity args h => exact goes_throw _

theorem goes_turns (order : List (Node α)) (hM : ∀ m ∈ order, m.preorder ⊆ M)
    (hheld : ∀ m ∈ order, ¬held m.id) :
    Goes ns held M (order.forM fun m => discard (compute m)) := by
  induction order with
  | nil => exact goes_pure _
  | cons m order ih =>
    rw [List.forM]
    have hm : Goes ns held M (discard (compute m)) :=
      ((goes_compute m (hheld m (List.mem_cons_self ..))).mono (hM m (List.mem_cons_self ..))).bind
        fun _ => goes_pure _
    exact hm.bind fun _ => ih (fun x hx => hM x (List.mem_cons_of_mem _ hx))
      fun x hx => hheld x (List.mem_cons_of_mem _ hx)

theorem goes_lower (n : Node α) : Goes ns held n.preorder (lower n) := by
  intro s hM hheld
  rw [lower, ends_bind, ends_get]
  dsimp only
  cases s.pass.find? n.id with
  | some F => exact (goes_hit 1).bind (fun _ => goes_pure F) s hM hheld
  | none =>
    have hturns : Goes ns held n.preorder
        ((n.postOrder fun m => s.pass.contains m.id).order.forM fun m => discard (compute m)) := by
      refine goes_turns _ (fun m hm => ?_) fun m hm hid => ?_
      · exact fun c hc => Node.mem_preorder_trans (Node.mem_preorder_of_mem_postOrder hm) hc
      · have hskip := Node.skip_of_mem_postOrder hm
        rw [hheld m.id hid] at hskip
        cases hskip
    exact (goes_hit _).bind (fun _ => hturns.bind fun _ => goes_get.bind fun _ => goes_lift _)
      s hM hheld

theorem goes_conicForm (n : Node α) : Goes ns held n.preorder (conicForm n) := by
  have hlower : Goes ns held n.preorder (do
      let F ← lower n
      F.withColumns (← get).layout.size) :=
    (goes_lower n).bind fun F => goes_get.bind fun s => goes_lift _
  apply goes_get.bind
  intro s
  dsimp only
  split
  · exact (goes_askVexity n.self_mem_preorder).bind fun v => goes_guard hlower
  · exact hlower

end DisciplinedConvex.Compilation
