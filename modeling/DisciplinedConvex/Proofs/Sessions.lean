import DisciplinedConvex.Proofs.Persistence

open DisciplinedConvex.Task

namespace DisciplinedConvex

theorem Task.onPart_map {σ τ β γ : Type} (get : σ → τ) (set : τ → σ → σ) (task : Task τ β)
    (f : β → γ) : (do return f (← task.onPart get set)) = onPart get set (do return f (← task)) := by
  funext s
  simp only [onPart, bind, ExceptT.bind, ExceptT.mk, ExceptT.bindCont, StateT.bind, pure]
  rcases task (get s) with ⟨_ | _, _⟩ <;> rfl

theorem map_eq_of_mapM {β γ δ : Type} {f : β → Except Failure γ} {g : β → δ} {g' : γ → δ}
    (h : ∀ x y, f x = .ok y → g' y = g x) {xs : List β} {ys : List γ} (hys : xs.mapM f = .ok ys) :
    ys.map g' = xs.map g := by
  have hall : List.Forall₂ (fun y x => g' y = g x) ys xs :=
    (forall₂_of_mapM (fun x _ => h x) hys).flip
  rwa [← List.forall₂_eq_eq_eq, List.forall₂_map_left_iff, List.forall₂_map_right_iff]

variable {α : Type}

namespace Request

open Compilation

variable {r : Request α} {s : Compilation α} {ns : List (Node α)}

def Local : Request α → Prop
  | register _ | auxiliary _ | lower _ | conicForm _ => False
  | _ => True

variable [Zero α] [One α] [Neg α] [Add α] [Mul α] [Scalar α]

theorem Local.serve_eq (h : r.Local) :
    ∃ task : Task Workspace (List (Node α)), r.serve = onWorkspace task := by
  cases r with
  | register | auxiliary | lower | conicForm => exact h.elim
  | sign | vexity => exact ⟨_, onPart_map ..⟩
  | constant | unknown | product | weighted | square | multiply | dotMultiply | divide | negate =>
    exact ⟨_, onPart_map ..⟩

theorem Local.serve_congr (h : r.Local) {t : Compilation α} (hw : t.workspace = s.workspace) :
    r.built t = r.built s ∧ (r.serve t).2 = { t with workspace := (r.serve s).2.workspace } := by
  obtain ⟨task, htask⟩ := h.serve_eq
  rw [built, built, htask, onWorkspace, onPart, onPart, hw]
  exact ⟨rfl, rfl⟩

theorem moves_serve (hs : s.Sound ns) (hr : r.operands ⊆ s.nodes ns) (h : ¬r.Local) :
    r.built s = [] ∧ Moves ns (fun _ => False) s (r.serve s).2 := by
  have hgoes {β : Type} {M : List (Node α)} {task : Task (Compilation α) β} (hM : M ⊆ s.nodes ns)
      (ht : Goes ns (fun _ => False) M task) :
      made (ask task s).1 = [] ∧ Moves ns (fun _ => False) s (ask task s).2 := by
    obtain ⟨hmade, hstate⟩ := ask_eq task s
    exact ⟨hmade, hstate ▸ ht s hM nofun⟩
  have hpre {n : Node α} (hn : [n] ⊆ s.nodes ns) : n.preorder ⊆ s.nodes ns :=
    hs.family.preorder_subset (hn (List.mem_singleton_self n))
  cases r with
  | register u => exact hgoes hr (goes_register (List.mem_singleton_self _))
  | auxiliary size => exact hgoes (List.nil_subset _) (goes_introduce none size)
  | lower n => exact hgoes (hpre hr) (goes_lower n)
  | conicForm n => exact hgoes (hpre hr) (goes_conicForm n)
  | constant | unknown | product | weighted | square | multiply | dotMultiply | divide | negate
  | sign | vexity => exact absurd trivial h

end Request

namespace Compilation

variable {s s' : Compilation α} {ns K K' : List (Node α)} {held : String → Prop} {w : Workspace}
variable {L : Layout} {P : Pass α} {shared : Prop}

variable [Zero α] [One α] [Neg α] [Add α] [Mul α] [Scalar α]

/-- A state with the nodes of `K` that comes about by requests to its own pass. -/
def Alone (s : Compilation α) (K : List (Node α)) : Prop :=
  ∃ config ms, Reached config s ms ∧ ∀ n, n ∈ s.nodes ms ↔ n ∈ K

theorem Alone.congr (h : s.Alone K) (hK : ∀ n, n ∈ K ↔ n ∈ K') : s.Alone K' := by
  obtain ⟨config, ms, hreached, hnodes⟩ := h
  exact ⟨config, ms, hreached, fun n => (hnodes n).trans (hK n)⟩

theorem alone_empty (config : Config) : (⟨.empty, .empty, .empty config⟩ : Compilation α).Alone [] :=
  ⟨config, [], .start, fun _ => Iff.rfl⟩

theorem Alone.local {r : Request α} (h : Alone ⟨s.workspace, L, P⟩ K) (hr : r.Local)
    (ho : r.operands ⊆ K) : Alone ⟨(r.serve s).2.workspace, L, P⟩ (r.built s ++ K) := by
  obtain ⟨config, ms, hreached, hnodes⟩ := h
  obtain ⟨hbuilt, hserve⟩ := hr.serve_congr (s := s) (t := ⟨s.workspace, L, P⟩) rfl
  have hstep := hreached.step r fun n hn => (hnodes n).mpr (ho hn)
  rw [hbuilt, hserve] at hstep
  refine ⟨config, _, hstep, fun n => ?_⟩
  have hn := hnodes n
  simp only [nodes, List.mem_append] at hn ⊢
  rw [← hn]
  exact or_left_comm

theorem Alone.register {u : Unknown} (h : s.Alone K) (hu : .unknown u ∈ K) :
    Alone { s with layout := s.layout.register (.unknown u) } K := by
  obtain ⟨config, ms, hreached, hnodes⟩ := h
  have hstep := hreached.step (.register u)
    (List.cons_subset.mpr ⟨(hnodes _).mpr hu, List.nil_subset _⟩)
  exact ⟨config, ms, hstep, hnodes⟩

theorem Alone.introduce (h : Alone ⟨s.workspace, L, P⟩ K) (square? : Option (Node α)) (size : Size) :
    Alone ⟨(s.introduced square? size).workspace, L, P⟩ (.unknown (s.nextAuxiliary size) :: K) :=
  h.local (r := .unknown ("_aux" ++ toString s.pass.auxiliaries.length) size (.ok .indeterminate))
    trivial (List.nil_subset _)

variable [Decidable shared]

theorem Move.alone (h : Move ns held s s') (hs : s.nodes ns ⊆ K)
    (ha : Alone ⟨s.workspace, if shared then s.layout else L, P⟩ K) :
    Alone ⟨s'.workspace, if shared then s'.layout else L, P⟩ (s'.nodes ns ++ K) := by
  have hsame (n : Node α) : n ∈ K ↔ n ∈ s.nodes ns ++ K :=
    ⟨List.mem_append_right _, fun hn => (List.mem_append.mp hn).elim (fun hn => hs hn) id⟩
  have hregister {w : Workspace} {K : List (Node α)} {u : Unknown} (hu : .unknown u ∈ K)
      (ha : Alone ⟨w, if shared then s.layout else L, P⟩ K) :
      Alone ⟨w, if shared then s.layout.register (.unknown u) else L, P⟩ K := by
    split
    · next hshared =>
      rw [if_pos hshared] at ha
      exact ha.register hu
    · next hshared => rwa [if_neg hshared] at ha
  cases h with
  | ask n hn =>
    have hask := ha.local (r := .vexity n) trivial
      (List.cons_subset.mpr ⟨hs hn, List.nil_subset _⟩)
    obtain ⟨hbuilt, hserve⟩ := Request.vexity_eq n s
    rw [hbuilt, hserve] at hask
    exact hask.congr hsame
  | register u hu => exact (hregister (hs hu) ha).congr hsame
  | introduce square? size =>
    refine (hregister (List.mem_cons_self ..) (ha.introduce square? size)).congr fun n => ?_
    exact List.mem_cons.trans ((or_congr_right (hsame n)).trans List.mem_cons.symm)
  | hit | store | demand => exact ha.congr hsame

theorem Moves.alone (h : Moves ns held s s') (hs : s.nodes ns ⊆ K)
    (ha : Alone ⟨s.workspace, if shared then s.layout else L, P⟩ K) :
    Alone ⟨s'.workspace, if shared then s'.layout else L, P⟩ (s'.nodes ns ++ K) := by
  induction h with
  | refl => exact ha.congr fun n => ⟨List.mem_append_right _, fun hn =>
      (List.mem_append.mp hn).elim (fun hn => hs hn) id⟩
  | tail _ hmove ih =>
    refine (hmove.alone (List.subset_append_left ..) ih).congr fun n => ?_
    have hsub := hmove.nodes_subset (s := _)
    simp only [List.mem_append]
    exact ⟨fun h => h.elim .inl (·.elim (fun h => .inl (hsub h)) .inr),
      fun h => h.elim .inl fun h => .inr (.inr h)⟩

end Compilation

namespace Lowered

open Compilation

theorem ofPass_rows {s : Compilation α} {Fs : List (Form α)} {L : Lowered α}
    (h : ofPass s Fs = .ok L) : L.layout = s.layout ∧
      L.forms.toList.map (·.rows) = Fs.map (·.rows) ∧
      L.constraints.toList.map (fun c => (c.cone, c.form.rows)) =
        s.pass.constraints.toList.map fun c => (c.cone, c.form.rows) := by
  rw [ofPass, Array.mapM_eq_mapM_toList] at h
  obtain ⟨Gs, hGs, h⟩ := bind_eq_ok h
  obtain ⟨cs, hcs, h⟩ := bind_eq_ok h
  obtain ⟨ds, hds, hcs⟩ := bind_eq_ok hcs
  obtain rfl := Except.ok.inj hcs
  obtain rfl := Except.ok.inj h
  refine ⟨rfl, map_eq_of_mapM (fun _ _ => Form.rows_of_withColumns) hGs,
    map_eq_of_mapM (fun c d hd => ?_) hds⟩
  obtain ⟨G, hG, hd⟩ := bind_eq_ok hd
  obtain rfl := Except.ok.inj hd
  exact congrArg (Prod.mk c.cone) (Form.rows_of_withColumns hG)

variable [Zero α] [One α] [Neg α] [Add α] [Mul α] [Scalar α]

def compiled (config : Config) (us : List Unknown) (es : List (Node α)) (w : Workspace) :
    Compilation α :=
  (es.mapM conicForm ⟨w, .ofList (us.map .unknown), .empty config⟩).2

theorem ofNodes_eq (config : Config) (us : List Unknown) (es : List (Node α)) (w : Workspace) :
    ofNodes config (us.map .unknown) es w =
      ((es.mapM conicForm ⟨w, .ofList (us.map .unknown), .empty config⟩).1 >>=
        ofPass (compiled config us es w), (compiled config us es w).workspace) := by
  let start : Compilation α := ⟨w, .ofList (us.map .unknown), .empty config⟩
  have h : (do
      let forms ← es.mapM conicForm
      ofPass (← get) forms : Task (Compilation α) (Lowered α)).Ends start fun r s =>
        r = (es.mapM conicForm start).1 >>= ofPass (es.mapM conicForm start).2 ∧
          s = (es.mapM conicForm start).2 := by
    rw [ends_bind]
    refine Ends.imp (P := fun r s => es.mapM conicForm start = (r, s)) rfl ?_
    rintro (e | forms) s hs
    · rw [hs]
      exact ⟨rfl, rfl⟩
    · rw [hs]
      exact ⟨rfl, rfl⟩
  exact Prod.ext h.1 (congrArg Compilation.workspace h.2)

theorem goes_mapM {ns M es : List (Node α)} {held : String → Prop} (h : ∀ e ∈ es, e.preorder ⊆ M) :
    Goes ns held M (es.mapM conicForm) := by
  induction es with
  | nil => exact goes_pure _
  | cons e es ih =>
    rw [List.mapM_cons]
    refine ((goes_conicForm e).mono (h e (List.mem_cons_self ..))).bind fun F => ?_
    exact (ih fun e he => h e (List.mem_cons_of_mem _ he)).bind fun Fs => goes_pure _

theorem reached_mapM {config : Config} {s : Compilation α} {ns es : List (Node α)}
    (h : Compilation.Reached config s ns) (hes : es ⊆ s.nodes ns) :
    (es.mapM conicForm).Ends s fun r s' => Compilation.Reached config s' ns ∧ ∀ Fs, r = .ok Fs →
      List.Forall₂ (fun e F => ∃ G, s'.pass.find? e.id = some G ∧ F.rows = G.rows) es Fs := by
  induction es generalizing s with
  | nil =>
    refine ⟨h, fun Fs hFs => ?_⟩
    rw [← Except.ok.inj hFs]
    exact .nil
  | cons e es ih =>
    obtain ⟨he, hes⟩ := List.cons_subset.mp hes
    have hgoes : Goes ns (fun _ => False) e.preorder (conicForm e) := goes_conicForm e
    have hreached : (conicForm e).Ends s fun _ s₁ => Compilation.Reached config s₁ ns := by
      have hstep := h.step (.conicForm e) (List.cons_subset.mpr ⟨he, List.nil_subset _⟩)
      obtain ⟨hmade, hstate⟩ := Request.ask_eq (conicForm e) s
      rw [Request.built, Request.serve, hmade, hstate] at hstep
      exact hstep
    rw [List.mapM_cons, ends_bind]
    apply (((conicForm_recalls e s).and hreached).and
      (hgoes s (h.sound.family.preorder_subset he) nofun)).imp
    rintro (f | F) s₁ ⟨⟨hF, h₁⟩, hmoves⟩
    · exact ⟨h₁, nofun⟩
    · have hes₁ : es ⊆ s₁.nodes ns := List.Subset.trans hes hmoves.nodes_subset
      have hle : Extends (es.mapM (conicForm (α := α))) := extends_of_goes fun _ =>
        goes_mapM (M := es.flatMap Node.preorder) fun e he _ hm => List.mem_flatMap.mpr ⟨e, he, hm⟩
      dsimp only
      rw [ends_bind]
      apply ((ih h₁ hes₁).and (hle s₁)).imp
      rintro (f | Fs) s₂ ⟨⟨h₂, hFs⟩, hle⟩
      · exact ⟨h₂, nofun⟩
      · refine ⟨h₂, fun Gs hGs => ?_⟩
        obtain ⟨G, hG, hGF⟩ := hF F rfl
        rw [← Except.ok.inj hGs]
        exact .cons ⟨G, hle.2.2.2 _ _ hG.form, Form.rows_of_withColumns hGF⟩ (hFs Fs rfl)

end Lowered

namespace Session

variable {S T : Session α} {N : List (Node α)} {p q k : Nat} {c : Compilation α}

def nodes (S : Session α) (N : List (Node α)) : List (Node α) :=
  (S.passes.toList.flatMap fun P => P.2.auxiliaries.map fun a => .unknown a.unknown) ++ N

def idle (S : Session α) : Compilation α := ⟨S.workspace, .empty, .empty {}⟩

theorem layoutOf_update (S : Session α) (p q : Nat) (c : Compilation α) :
    (S.update p c).layoutOf q = S.layoutOf q := by
  simp only [layoutOf, update, Array.getElem?_setIfInBounds]
  by_cases hpq : p = q
  · subst hpq
    by_cases hp : p < S.passes.size
    · rw [if_pos rfl, if_pos hp]
      rfl
    · rw [if_pos rfl, if_neg hp, Array.getElem?_eq_none (Nat.le_of_not_lt hp)]
  · rw [if_neg hpq]

theorem pass_update_of_ne (S : Session α) (c : Compilation α) (h : p ≠ q) :
    (S.update p c).pass q = S.pass q := by
  simp only [pass, update, Array.getElem?_setIfInBounds, if_neg h]

theorem layout_update (h : S.Placed p) (c : Compilation α) (k : Nat) :
    (S.update p c).layout k = if S.layoutOf p = k then c.layout else S.layout k := by
  simp only [layout, update, setLayout, Array.getD_eq_getD_getElem?, Array.getElem?_setIfInBounds,
    if_pos h.layout]
  split
  · rfl
  · rfl

theorem mem_nodes {n : Node α} : n ∈ S.nodes N ↔
    (∃ p < S.passes.size, ∃ a ∈ (S.pass p).auxiliaries, .unknown a.unknown = n) ∨ n ∈ N := by
  rw [nodes, List.mem_append, List.mem_flatMap]
  refine or_congr_left ⟨?_, ?_⟩
  · rintro ⟨⟨k, P⟩, hP, hn⟩
    obtain ⟨p, hp, he⟩ := List.mem_iff_getElem.mp hP
    have hpass : S.pass p = P := pass_eq (k := k) (Array.getElem?_eq_some_iff.mpr ⟨hp, he⟩)
    exact ⟨p, hp, hpass ▸ List.mem_map.mp hn⟩
  · rintro ⟨p, hp, hn⟩
    have hpass : S.pass p = S.passes[p].2 := by
      rw [pass, Array.getElem?_eq_getElem hp]
      rfl
    rw [hpass] at hn
    exact ⟨S.passes[p], Array.getElem_mem_toList hp, List.mem_map.mpr hn⟩

theorem mem_nodes_update (h : S.Placed p) {ms : List (Node α)} {n : Node α}
    (hkept : (S.pass p).auxiliaries ⊆ c.pass.auxiliaries) :
    n ∈ (S.update p c).nodes (ms ++ N) ↔ n ∈ c.nodes ms ∨ n ∈ S.nodes N := by
  have hself : (S.update p c).pass p = c.pass := congrArg Compilation.pass (h.update c).2
  have hsize : (S.update p c).passes.size = S.passes.size := Array.size_setIfInBounds
  simp only [Compilation.nodes, mem_nodes, List.mem_append, List.mem_map, hsize]
  constructor
  · rintro (⟨q, hq, hn⟩ | hn | hn)
    · by_cases hpq : p = q
      · subst hpq
        rw [hself] at hn
        exact .inl (.inl hn)
      · rw [pass_update_of_ne S c hpq] at hn
        exact .inr (.inl ⟨q, hq, hn⟩)
    · exact .inl (.inr hn)
    · exact .inr (.inr hn)
  · rintro ((hn | hn) | ⟨q, hq, a, ha, hn⟩ | hn)
    · exact .inl ⟨p, h.pass, hself ▸ hn⟩
    · exact .inr (.inl hn)
    · by_cases hpq : p = q
      · subst hpq
        exact .inl ⟨p, hq, a, hself ▸ hkept ha, hn⟩
      · exact .inl ⟨q, hq, a, pass_update_of_ne S c hpq ▸ ha, hn⟩
    · exact .inr (.inr hn)

variable [Zero α] [One α] [Neg α] [Add α] [Mul α] [Scalar α]

/-- The states that a session comes to, with the nodes built by then. Layouts begin with some
unknowns and take up others, passes are opened over them and are asked for things, in any order and
whether granted or not. -/
inductive Reached : Session α → List (Node α) → Prop
  | start : Reached .empty []
  | newLayout {S : Session α} {N : List (Node α)} (us : List Unknown) (h : Reached S N)
      (hus : us.map .unknown ⊆ S.nodes N) :
      Reached (newLayout (.ofList (us.map .unknown)) S).2 N
  | newPass {S : Session α} {N : List (Node α)} (k : Nat) (config : Config) (h : Reached S N)
      (hk : k < S.layouts.size) : Reached (newPass k config S).2 N
  | place {S : Session α} {N : List (Node α)} (k : Nat) (u : Unknown) (h : Reached S N)
      (hu : .unknown u ∈ S.nodes N) :
      Reached (S.setLayout k ((S.layout k).register (.unknown u))) N
  | build {S : Session α} {N : List (Node α)} (r : Request α) (h : Reached S N) (hr : r.Local)
      (ho : r.operands ⊆ S.nodes N) :
      Reached { S with workspace := (r.serve S.idle).2.workspace } (r.built S.idle ++ N)
  | request {S : Session α} {N : List (Node α)} (p : Nat) (r : Request α) (h : Reached S N)
      (hp : p < S.passes.size) (ho : r.operands ⊆ S.nodes N) :
      Reached (onPass p r.serve S).2 (r.built (S.view p) ++ N)
  | together {S : Session α} {N : List (Node α)} (config : Config) (us : List Unknown)
      (es : List (Node α)) (h : Reached S N) (hus : us.map .unknown ⊆ S.nodes N)
      (hes : es ⊆ S.nodes N) :
      Reached { S with workspace := (Lowered.ofNodes config (us.map .unknown) es S.workspace).2 }
        ((Lowered.compiled config us es S.workspace).nodes N)

structure Settled (S : Session α) (N : List (Node α)) : Prop where
  placed : ∀ p < S.passes.size, S.Placed p
  passes : ∀ p < S.passes.size, (S.view p).Alone (S.nodes N)
  idle : ∀ k config, Compilation.Alone ⟨S.workspace, S.layout k, .empty config⟩ (S.nodes N)

theorem Settled.of_passes {N' : List (Node α)} (h : S.Settled N) (hpasses : T.passes = S.passes)
    (hsize : S.layouts.size ≤ T.layouts.size)
    (hstep : ∀ k P, Compilation.Alone ⟨S.workspace, S.layout k, P⟩ (S.nodes N) →
      Compilation.Alone ⟨T.workspace, T.layout k, P⟩ (T.nodes N')) : T.Settled N' := by
  have hlayout (p : Nat) : T.layoutOf p = S.layoutOf p := by rw [layoutOf, hpasses, layoutOf]
  have hpass (p : Nat) : T.pass p = S.pass p := by rw [pass, hpasses, pass]
  refine ⟨fun p hp => ⟨hp, ?_⟩, fun p hp => ?_, fun k config => hstep k _ (h.idle k config)⟩
  · rw [hlayout]
    exact Nat.lt_of_lt_of_le (h.placed p (hpasses ▸ hp)).layout hsize
  · rw [view, hlayout, hpass]
    exact hstep _ _ (h.passes p (hpasses ▸ hp))

theorem Alone.ofList {w : Workspace} {K : List (Node α)} {P : Pass α} (us : List Unknown)
    (h : Compilation.Alone ⟨w, .empty, P⟩ K) (hus : us.map .unknown ⊆ K) :
    Compilation.Alone ⟨w, .ofList (us.map .unknown), P⟩ K := by
  refine List.foldlRecOn (us.map .unknown) Layout.register
    (motive := fun L => Compilation.Alone ⟨w, L, P⟩ K) h fun L hL k hk => ?_
  obtain ⟨u, hu, rfl⟩ := List.mem_map.mp hk
  exact hL.register (hus (List.mem_map_of_mem hu))

theorem Settled.newLayout (h : S.Settled N) (us : List Unknown) (hus : us.map .unknown ⊆ S.nodes N) :
    (newLayout (.ofList (us.map .unknown)) S).2.Settled N := by
  refine h.of_passes rfl (Array.size_push .. ▸ Nat.le_succ _) fun k P ha => ?_
  change Compilation.Alone
    ⟨S.workspace, (S.layouts.push (.ofList (us.map .unknown))).getD k .empty, P⟩ (S.nodes N)
  rw [layout] at ha
  rw [Array.getD_eq_getD_getElem?] at ha ⊢
  rw [Array.getElem?_push]
  split
  · next hk =>
    rw [hk, Array.getElem?_eq_none (Nat.le_refl _)] at ha
    exact Alone.ofList us ha hus
  · exact ha

theorem Settled.place (h : S.Settled N) (k : Nat) {u : Unknown} (hu : .unknown u ∈ S.nodes N) :
    (S.setLayout k ((S.layout k).register (.unknown u))).Settled N := by
  refine h.of_passes rfl (Array.size_setIfInBounds ▸ Nat.le_refl _) fun j P ha => ?_
  change Compilation.Alone ⟨S.workspace,
    (S.layouts.setIfInBounds k ((S.layout k).register (.unknown u))).getD j .empty, P⟩ (S.nodes N)
  rw [Array.getD_eq_getD_getElem?, Array.getElem?_setIfInBounds]
  split
  · next hkj =>
    subst hkj
    split
    · exact ha.register hu
    · next hk =>
      rw [layout, Array.getD_eq_getD_getElem?, Array.getElem?_eq_none (Nat.le_of_not_lt hk)] at ha
      exact ha
  · rw [layout, Array.getD_eq_getD_getElem?] at ha
    exact ha

theorem Settled.build (h : S.Settled N) {r : Request α} (hr : r.Local)
    (ho : r.operands ⊆ S.nodes N) :
    Settled { S with workspace := (r.serve S.idle).2.workspace } (r.built S.idle ++ N) := by
  refine h.of_passes rfl (Nat.le_refl _) fun k P ha => ?_
  exact (ha.local (s := S.idle) hr ho).congr fun n => by
    simp only [nodes, List.mem_append]
    exact or_left_comm

theorem Settled.newPass (h : S.Settled N) {k : Nat} (config : Config) (hk : k < S.layouts.size) :
    (newPass k config S).2.Settled N := by
  let T : Session α := { S with passes := S.passes.push (k, .empty config) }
  have hold {p : Nat} (hp : p < S.passes.size) : T.layoutOf p = S.layoutOf p ∧ T.pass p = S.pass p := by
    have hget : T.passes[p]? = S.passes[p]? := by
      rw [Array.getElem?_push_lt hp, Array.getElem?_eq_getElem hp]
    rw [layoutOf, layoutOf, pass, pass, hget]
    exact ⟨rfl, rfl⟩
  have hnew : T.layoutOf S.passes.size = k ∧ T.pass S.passes.size = .empty config :=
    ⟨layoutOf_eq Array.getElem?_push_size, pass_eq Array.getElem?_push_size⟩
  have hlast {p : Nat} (hp : p < T.passes.size) : p < S.passes.size ∨ p = S.passes.size :=
    Nat.lt_succ_iff_lt_or_eq.mp (lt_of_lt_of_eq hp (Array.size_push _))
  have hnodes : T.nodes N = S.nodes N := by
    simp only [nodes, T, Array.toList_push, List.flatMap_append, List.flatMap_singleton]
    exact congrArg (· ++ N) (List.append_nil _)
  change T.Settled N
  refine ⟨fun p hp => ⟨hp, ?_⟩, fun p hp => ?_, fun j config => hnodes ▸ h.idle j config⟩
  · rcases hlast hp with hp | rfl
    · rw [(hold hp).1]
      exact (h.placed p hp).layout
    · rw [hnew.1]
      exact hk
  · rcases hlast hp with hp | rfl
    · rw [view, (hold hp).1, (hold hp).2, hnodes]
      exact h.passes p hp
    · rw [view, hnew.1, hnew.2, hnodes]
      exact h.idle k config

theorem Settled.grows (h : S.Settled N) {r : Request α} (hp : p < S.passes.size)
    (ho : r.operands ⊆ S.nodes N) : (S.view p).Grows (r.serve (S.view p)).2 := by
  obtain ⟨config, ms, hreached, hnodes⟩ := h.passes p hp
  exact (Compilation.serve_ends r hreached.sound fun n hn => (hnodes n).mpr (ho hn)).grows

theorem Settled.request (h : S.Settled N) {r : Request α} (hp : p < S.passes.size)
    (ho : r.operands ⊆ S.nodes N) :
    (onPass p r.serve S).2.Settled (r.built (S.view p) ++ N) := by
  have hplaced := h.placed p hp
  obtain ⟨config, ms, hreached, hnodes⟩ := h.passes p hp
  have hr : r.operands ⊆ (S.view p).nodes ms := fun n hn => (hnodes n).mpr (ho hn)
  have hgrows := h.grows hp ho
  let c := (r.serve (S.view p)).2
  let T := S.update p c
  obtain ⟨hplaced', hview⟩ := hplaced.update c
  have hmem (n : Node α) : n ∈ c.nodes (r.built (S.view p) ++ ms) ↔
      n ∈ T.nodes (r.built (S.view p) ++ N) := by
    rw [mem_nodes_update hplaced hgrows.auxiliaries, ← hnodes n]
    have hn : n ∈ (S.view p).nodes ms → n ∈ c.nodes ms := fun hn => hgrows.nodes_subset hn
    simp only [Compilation.nodes, List.mem_append] at hn ⊢
    tauto
  have hothers (k : Nat) (P : Pass α)
      (ha : Compilation.Alone ⟨S.workspace, S.layout k, P⟩ (S.nodes N)) :
      Compilation.Alone ⟨c.workspace, T.layout k, P⟩ (T.nodes (r.built (S.view p) ++ N)) := by
    have hseat : (if S.layoutOf p = k then (S.view p).layout else S.layout k) = S.layout k := by
      split
      · next hk => rw [← hk]; rfl
      · rfl
    rw [layout_update hplaced]
    by_cases hlocal : r.Local
    · have hc : c = { S.view p with workspace := c.workspace } := (hlocal.serve_congr rfl).2
      have hlayout : c.layout = (S.view p).layout := by rw [hc]
      rw [hlayout, hseat]
      refine (ha.local (s := S.view p) hlocal ho).congr fun n => ?_
      rw [← hmem, List.mem_append, ← hnodes n, hc]
      simp only [Compilation.nodes, List.mem_append]
      exact or_left_comm
    · obtain ⟨hbuilt, hmoves⟩ := Request.moves_serve hreached.sound hr hlocal
      rw [← hseat] at ha
      refine (hmoves.alone (fun n hn => (hnodes n).mp hn) ha).congr fun n => ?_
      rw [← hmem, hbuilt, List.mem_append, ← hnodes n]
      exact ⟨fun hn => hn.elim id fun hn => hgrows.nodes_subset hn, .inl⟩
  change T.Settled (r.built (S.view p) ++ N)
  have hsize : T.passes.size = S.passes.size := Array.size_setIfInBounds
  refine ⟨fun q hq => ?_, fun q hq => ?_, fun k config => hothers k _ (h.idle k config)⟩
  · have hlayout := (h.placed q (hsize ▸ hq)).layout
    refine ⟨hq, ?_⟩
    rw [layoutOf_update]
    exact lt_of_lt_of_eq hlayout Array.size_setIfInBounds.symm
  · by_cases hpq : p = q
    · subst hpq
      have hstep := hreached.step r hr
      exact ⟨config, _, hview.symm ▸ hstep, fun n => hview.symm ▸ hmem n⟩
    · rw [view, layoutOf_update, pass_update_of_ne S c hpq]
      exact hothers _ _ (h.passes q (hsize ▸ hq))

theorem Settled.alone_start (h : S.Settled N) (config : Config) {us : List Unknown}
    (hus : us.map .unknown ⊆ S.nodes N) :
    Compilation.Alone ⟨S.workspace, .ofList (us.map .unknown), .empty config⟩ (S.nodes N) := by
  have hidle := h.idle S.layouts.size config
  rw [layout, Array.getD_eq_getD_getElem?, Array.getElem?_eq_none (Nat.le_refl _)] at hidle
  exact Alone.ofList us hidle hus

theorem Settled.together (h : S.Settled N) (config : Config) {us : List Unknown} {es : List (Node α)}
    (hus : us.map .unknown ⊆ S.nodes N) (hes : es ⊆ S.nodes N) :
    Settled { S with workspace := (Lowered.ofNodes config (us.map .unknown) es S.workspace).2 }
      ((Lowered.compiled config us es S.workspace).nodes N) := by
  let start : Compilation α := ⟨S.workspace, .ofList (us.map .unknown), .empty config⟩
  obtain ⟨config', ms, hreached, hnodes⟩ := h.alone_start config hus
  have hpre : ∀ e ∈ es, e.preorder ⊆ start.nodes ms := fun e he =>
    hreached.sound.family.preorder_subset ((hnodes e).mpr (hes he))
  have hmoves : Compilation.Moves ms (fun _ => False) start
      (Lowered.compiled config us es S.workspace) :=
    Lowered.goes_mapM hpre _ (List.Subset.refl _) nofun
  refine h.of_passes rfl (Nat.le_refl _) fun k P ha => ?_
  have hapart : Compilation.Alone ⟨start.workspace, if False then start.layout else S.layout k, P⟩
      (S.nodes N) := by
    rw [if_neg not_false]
    exact ha
  have hafter := hmoves.alone (fun n hn => (hnodes n).mp hn) hapart
  rw [if_neg not_false] at hafter
  rw [Lowered.ofNodes_eq]
  refine hafter.congr fun n => ?_
  have hn : n ∈ ms ↔ n ∈ S.nodes N := hnodes n
  simp only [Compilation.nodes, nodes, List.mem_append] at hn ⊢
  tauto

theorem Reached.settled (h : Reached S N) : S.Settled N := by
  induction h with
  | start => exact ⟨nofun, nofun, fun _ config => Compilation.alone_empty config⟩
  | newLayout us _ hus ih => exact ih.newLayout us hus
  | newPass k config _ hk ih => exact ih.newPass config hk
  | place k u _ hu ih => exact ih.place k hu
  | build r _ hr ho ih => exact ih.build hr ho
  | request p r _ hp ho ih => exact ih.request hp ho
  | together config us es _ hus hes ih => exact ih.together config hus hes

end Session

end DisciplinedConvex
