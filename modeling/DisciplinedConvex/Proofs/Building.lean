import DisciplinedConvex.Proofs.Judgement
import DisciplinedConvex.Proofs.Preimages

open DisciplinedConvex.Task

namespace DisciplinedConvex

variable {α : Type} [Zero α] [Scalar α]

structure Node.Identified (N : List (Node α)) (bound : Nat) : Prop where
  identities : ∀ n ∈ N, n.id = Sha256.hexDigest n.preimage
  serials : ∀ u, .unknown u ∈ N → u.serial < bound
  unknowns : ∀ u, .unknown u ∈ N → ∀ v, .unknown v ∈ N → u.serial = v.serial → u = v

theorem Node.Identified.cons {N : List (Node α)} {bound bound' : Nat} {n : Node α}
    (h : Identified N bound) (hid : n.id = Sha256.hexDigest n.preimage)
    (hn : ∀ u, n = .unknown u → u.serial = bound ∧ bound' = bound + 1) (hle : bound ≤ bound') :
    Identified (n :: N) bound' where
  identities := List.forall_mem_cons.mpr ⟨hid, h.identities⟩
  serials := by
    intro u hu
    rcases List.mem_cons.mp hu with he | hu
    · obtain ⟨hs, hb⟩ := hn u he.symm
      omega
    · exact Nat.lt_of_lt_of_le (h.serials u hu) hle
  unknowns := by
    intro u hu v hv he
    rcases List.mem_cons.mp hu with hu | hu
    · rcases List.mem_cons.mp hv with hv | hv
      · exact Node.unknown.inj (hu.trans hv.symm)
      · have hlt := h.serials v hv
        have hs := (hn u hu.symm).1
        omega
    · rcases List.mem_cons.mp hv with hv | hv
      · have hlt := h.serials u hu
        have hs := (hn v hv.symm).1
        omega
      · exact h.unknowns u hu v hv he

namespace Workspace

/-- The nodes of `N` are well built, and what is remembered of them is right. -/
structure Sound (w : Workspace) (N : List (Node α)) : Prop where
  family : Node.Family N
  identified : Node.Identified N w.unknowns
  judges : w.verdicts.Judges N w.objects

variable {w w' : Workspace} {M N : List (Node α)} {n x : Node α}

theorem sound_empty : empty.Sound ([] : List (Node α)) where
  family := ⟨nofun, nofun, nofun, nofun⟩
  identified := ⟨nofun, nofun, nofun⟩
  judges := ⟨nofun, nofun, nofun, nofun, fun _ _ => rfl, fun _ _ => rfl⟩

theorem Sound.subset (h : w.Sound N) (hM : M ⊆ N) (hc : ∀ n ∈ M, ∀ c ∈ n.children, c ∈ M) :
    w.Sound M where
  family := {
    children := hc
    older := fun n hn => h.family.older n (hM hn)
    formed := fun n hn => h.family.formed n (hM hn)
    objects := fun m hm n hn => h.family.objects m (hM hm) n (hM hn) }
  identified := {
    identities := fun n hn => h.identified.identities n (hM hn)
    serials := fun u hu => h.identified.serials u (hM hu)
    unknowns := fun u hu v hv => h.identified.unknowns u (hM hu) v (hM hv) }
  judges := {
    refs := fun n hn => h.judges.refs n (hM hn)
    signs := fun n hn => h.judges.signs n (hM hn)
    vexities := fun n hn => h.judges.vexities n (hM hn)
    closed := fun n hn => h.judges.closed n (hM hn)
    freshSigns := h.judges.freshSigns
    freshVexities := h.judges.freshVexities }

theorem Sound.congr (h : w.Sound N) (hMN : ∀ n, n ∈ M ↔ n ∈ N) : w.Sound M :=
  h.subset (fun n hn => (hMN n).mp hn) fun n hn c hc =>
    (hMN c).mpr (h.family.children n ((hMN n).mp hn) c hc)

theorem Sound.push (h : w.Sound N) (href : n.ref = w.objects) (hc : ∀ c ∈ n.children, c ∈ N)
    (hn : n.Formed) (hid : n.id = Sha256.hexDigest n.preimage)
    (hserial : ∀ u, n = .unknown u → u.serial = w.unknowns ∧ w'.unknowns = w.unknowns + 1)
    (ho : w'.objects = w.objects + 1) (hu : w.unknowns ≤ w'.unknowns)
    (hv : w'.verdicts = w.verdicts) : w'.Sound (n :: N) where
  family := h.family.cons hn hc fun m hm => href ▸ h.judges.refs m hm
  identified := h.identified.cons hid hserial hu
  judges := by
    rw [hv, ho]
    exact h.judges.cons href

def gained : Except Failure (Node α) → List (Node α)
  | .ok n => n.preorder
  | .error _ => []

omit [Zero α] [Scalar α] in
theorem children_mem_gained (r : Except Failure (Node α)) :
    ∀ n ∈ gained r, ∀ c ∈ n.children, c ∈ gained r := by
  intro n hn c hc
  cases r with
  | ok m => exact Node.mem_preorder_trans hn (Node.child_mem_preorder hc)
  | error e => exact absurd hn List.not_mem_nil

theorem Sound.gain {r : Except Failure (Node α)} (h : w.Sound M) (hr : gained r ⊆ M) (hN : N ⊆ M)
    (hc : ∀ n ∈ N, ∀ c ∈ n.children, c ∈ N) : w.Sound (gained r ++ N) := by
  apply h.subset (List.append_subset.mpr ⟨hr, hN⟩)
  intro n hn c hcn
  rcases List.mem_append.mp hn with hn | hn
  · exact List.mem_append_left _ (children_mem_gained r n hn c hcn)
  · exact List.mem_append_right _ (hc n hn c hcn)

theorem Sound.gain_push (h : w'.Sound (n :: N)) (hN : w.Sound N) :
    w'.Sound (gained (.ok n) ++ N) :=
  h.gain (h.family.preorder_subset (List.mem_cons_self ..)) (List.subset_cons_self n N)
    hN.family.children

def Asks {β : Type} (N : List (Node α)) (task : Task Workspace β) : Prop :=
  ∀ w : Workspace, w.Sound N → task.Ends w fun _ w' => w'.Sound N

def Builds (N : List (Node α)) (task : Task Workspace (Node α)) : Prop :=
  ∀ w : Workspace, w.Sound N → task.Ends w fun r w' => w'.Sound (gained r ++ N)

theorem Asks.thenBuilds {β : Type} {task : Task Workspace β} {f : β → Task Workspace (Node α)}
    (ht : Asks N task) (hf : ∀ b, Builds N (f b)) : Builds N (task >>= f) := by
  intro w hw
  rw [ends_bind]
  apply (ht w hw).imp
  rintro (e | b) u hu
  · exact hu
  · exact hf b u hu

theorem asks_lift {β : Type} (x : Except Failure β) : Asks N (liftM x) := fun _ hw => hw

theorem asks_warn : Asks N warn := fun _ hw => ⟨hw.family, hw.identified, hw.judges⟩

theorem asks_throw {β : Type} (e : Failure) : Asks N (throw e : Task Workspace β) := fun _ hw => hw

theorem builds_throw (e : Failure) : Builds N (throw e) := fun _ hw => hw

theorem builds_pure (hn : n ∈ N) : Builds N (pure n) := fun _ hw =>
  hw.gain (hw.family.preorder_subset hn) (List.Subset.refl N) hw.family.children

theorem asks_sign (hn : n ∈ N) : Asks N (onVerdicts n.askSign) := by
  intro w hw
  rw [onVerdicts, ends_onPart]
  exact (Node.askSign_ends hw.family hn hw.judges).imp fun _ _ h =>
    ⟨hw.family, hw.identified, h.judges⟩

theorem asks_vexity (hn : n ∈ N) : Asks N (onVerdicts n.askVexity) := by
  intro w hw
  rw [onVerdicts, ends_onPart]
  exact (Node.askVexity_ends hw.family hn hw.judges).imp fun _ _ h =>
    ⟨hw.family, hw.identified, h.judges⟩

theorem asks_constant (hn : n ∈ N) : Asks N (onVerdicts n.askConstant) := by
  intro w hw
  rw [onVerdicts, ends_onPart, Node.askConstant, ends_bind]
  apply (Node.askVexity_ends hw.family hn hw.judges).imp
  rintro (e | v) u hu
  · exact ⟨hw.family, hw.identified, hu.judges⟩
  · exact ⟨hw.family, hw.identified, hu.judges⟩

end Workspace

open Workspace

variable {w : Workspace} {N : List (Node α)}

theorem Constant.build_ends (A : Dense α) (hw : w.Sound N) :
    (Constant.build A).Ends w fun r w' =>
      ∃ c, r = .ok c ∧ c.value = A ∧ w'.Sound (Node.constant c :: N) :=
  ⟨_, rfl, rfl, hw.push rfl nofun trivial rfl nofun rfl (Nat.le_refl _) rfl⟩

theorem Unknown.build_ends (name : String) (size : Size) (sign : Except Failure Sign)
    (hw : w.Sound N) :
    (Unknown.build name size sign).Ends w fun r w' => match sign with
      | .ok _ => ∃ u, r = .ok u ∧ u.ref = w.objects ∧ u.size = size ∧ w'.Sound (Node.unknown u :: N)
      | .error e => r = .error e ∧ w'.Sound N := by
  have hpush (s : Sign) : Sound { w with objects := w.objects + 1, unknowns := w.unknowns + 1 }
      (Node.unknown ⟨w.objects, Identity.ofUnknown w.unknowns, w.unknowns, name, size, s⟩ :: N) :=
    hw.push rfl nofun trivial rfl (fun _ he => Node.unknown.inj he ▸ ⟨rfl, rfl⟩) rfl
      (Nat.le_succ _) rfl
  cases sign with
  | ok s => exact ⟨_, rfl, rfl, rfl, hpush s⟩
  | error e => exact ⟨rfl, (hpush .zero).subset (List.subset_cons_self ..) hw.family.children⟩

namespace Node

variable {l r x y : Node α} {c : Constant α}

theorem buildProduct_builds (hl : l ∈ N) (hr : r ∈ N) : Builds N (buildProduct l r) := by
  intro w hw
  unfold buildProduct
  cases hs : l.size.product? r.size with
  | none => exact hw
  | some size =>
    have hl' := hw.family.formed l hl
    have hr' := hw.family.formed r hr
    refine Sound.gain_push (hw.push rfl ?_ ⟨hs, hl', hr'⟩ rfl nofun rfl (Nat.le_refl _) rfl)
      hw
    intro m hm
    rcases List.mem_pair.mp hm with rfl | rfl
    · exact hl
    · exact hr

theorem buildWeighted_builds (hc : constant c ∈ N) (hx : x ∈ N) : Builds N (buildWeighted c x) := by
  intro w hw
  unfold buildWeighted
  by_cases hs : c.value.size = x.size
  · rw [if_neg (not_not.mpr hs)]
    refine Sound.gain_push (hw.push rfl ?_ ⟨hs, rfl, hw.family.formed x hx⟩ rfl nofun rfl
      (Nat.le_refl _) rfl) hw
    intro m hm
    rcases List.mem_pair.mp hm with rfl | rfl
    · exact hc
    · exact hx
  · rw [if_pos hs]
    exact hw

theorem buildSquare_builds (hx : x ∈ N) : Builds N (buildSquare x) := by
  intro w hw
  refine Sound.gain_push (hw.push rfl ?_ ⟨rfl, hw.family.formed x hx⟩ rfl nofun rfl
    (Nat.le_refl _) rfl) hw
  intro m hm
  rw [List.mem_singleton.mp hm]
  exact hx

theorem multiply_builds (hx : x ∈ N) (hy : y ∈ N) : Builds N (multiply x y) := by
  unfold multiply
  split
  · exact buildSquare_builds hx
  · exact buildProduct_builds hx hy

theorem unknown_builds (name : String) (size : Size) (sign : Except Failure Sign) :
    Builds N (do return .unknown (← Unknown.build name size sign)) := by
  intro w hw
  rw [ends_bind]
  apply (Unknown.build_ends name size sign hw).imp
  intro r w' hr
  cases sign with
  | ok s =>
    obtain ⟨u, rfl, -, -, hu⟩ := hr
    exact hu.gain_push hw
  | error e =>
    obtain ⟨rfl, hu⟩ := hr
    exact hu

theorem builds_of_constant {f : Constant α → Task Workspace (Node α)} (A : Dense α)
    (hf : ∀ c : Constant α, Builds (constant c :: N) (f c)) :
    Builds N (Constant.build A >>= f) := by
  intro w hw
  rw [ends_bind]
  apply (Constant.build_ends A hw).imp
  rintro _ u ⟨c, rfl, -, hu⟩
  apply (hf c u hu).imp
  intro r v hv
  exact hv.gain (List.subset_append_left ..)
    (fun m hm => List.mem_append_right _ (List.mem_cons_of_mem _ hm)) hw.family.children

variable [Add α] [Mul α]

theorem fold_builds {f : Constant α → Task Workspace (Node α)} (hx : x ∈ N)
    (hf : ∀ (c : Constant α) (M : List (Node α)), constant c ∈ M → N ⊆ M → Builds M (f c)) :
    Builds N (x.fold >>= f) := by
  have hvalue : Builds N ((do Constant.build (← x.constantValue)) >>= f) := by
    rw [bind_assoc]
    exact (asks_lift _).thenBuilds fun A => builds_of_constant A fun c =>
      hf c _ (List.mem_cons_self ..) (List.subset_cons_self ..)
  cases x with
  | constant c => exact hf c N hx (List.Subset.refl N)
  | unknown u => exact hvalue
  | product tag l r => exact hvalue
  | weighted tag c x => exact hvalue
  | square tag x => exact hvalue
  | bare tag kind arity args => exact hvalue

theorem dotMultiply_builds (hx : x ∈ N) (hy : y ∈ N) : Builds N (dotMultiply x y) := by
  unfold dotMultiply
  extract_lets rest
  have hrest (k : Unit) : Builds N (rest k) := by
    simp only [rest]
    split
    · exact multiply_builds hx hy
    · apply (asks_constant hx).thenBuilds
      intro b
      split
      · exact fold_builds hx fun c M hc hM => buildWeighted_builds hc (hM hy)
      · apply (asks_constant hy).thenBuilds
        intro b
        split
        · exact fold_builds hy fun c M hc hM => buildWeighted_builds hc (hM hx)
        · exact builds_throw _
  split
  · apply (asks_constant hx).thenBuilds
    intro b
    split
    · exact buildSquare_builds hx
    · exact hrest ⟨⟩
  · exact hrest ⟨⟩

theorem divide_builds [One α] [Neg α] (hx : x ∈ N) (hy : y ∈ N) : Builds N (divide x y) := by
  have hbuild (A : Dense α) : Builds N (do
      let c ← Constant.build A
      if y.size = .scalar then multiply x (constant c) else dotMultiply (constant c) x) := by
    apply builds_of_constant A
    intro c
    split
    · exact multiply_builds (List.mem_cons_of_mem _ hx) (List.mem_cons_self ..)
    · exact dotMultiply_builds (List.mem_cons_self ..) (List.mem_cons_of_mem _ hx)
  unfold divide
  apply (asks_constant hy).thenBuilds
  intro b
  extract_lets rest
  have hrest (k : Unit) : Builds N (rest k) := by
    apply (asks_lift _).thenBuilds
    intro A
    extract_lets reciprocal rest
    split
    · exact asks_warn.thenBuilds fun _ => hbuild _
    · exact hbuild _
  split
  · exact (asks_throw _).thenBuilds hrest
  · exact hrest ⟨⟩

omit [Add α] [Mul α] in
theorem negated_builds [One α] [Neg α] (hx : x ∈ N) : Builds N (negated x) :=
  builds_of_constant _ fun _ => multiply_builds (List.mem_cons_self ..) (List.mem_cons_of_mem _ hx)

end Node

end DisciplinedConvex
