import DisciplinedConvex.Proofs.Exact
import DisciplinedConvex.Proofs.Growth
import DisciplinedConvex.Proofs.History
import DisciplinedConvex.Session
import Mathlib.Algebra.Order.BigOperators.Group.List

open DisciplinedConvex.Task

namespace DisciplinedConvex

variable {α : Type}

instance : Preorder (Session α) where
  le S T := S.workspace ≤ T.workspace ∧
    (∀ (k : Nat) L, S.layouts[k]? = some L → ∃ L', T.layouts[k]? = some L' ∧ L ≤ L') ∧
    ∀ (p : Nat) k P, S.passes[p]? = some (k, P) → ∃ P', T.passes[p]? = some (k, P') ∧ P ≤ P'
  le_refl S := ⟨le_refl S.workspace, fun _ L hL => ⟨L, hL, le_refl L⟩,
    fun _ _ P hP => ⟨P, hP, le_refl P⟩⟩
  le_trans S T U := by
    rintro ⟨hw, hl, hp⟩ ⟨hw', hl', hp'⟩
    refine ⟨hw.trans hw', ?_, ?_⟩
    · intro k L hL
      obtain ⟨L', hL', hle⟩ := hl k L hL
      obtain ⟨L'', hL'', hle'⟩ := hl' k L' hL'
      exact ⟨L'', hL'', hle.trans hle'⟩
    · intro p k P hP
      obtain ⟨P', hP', hle⟩ := hp p k P hP
      obtain ⟨P'', hP'', hle'⟩ := hp' p k P' hP'
      exact ⟨P'', hP'', hle.trans hle'⟩

namespace Session

variable {S T : Session α} {p : Nat} {β : Type}

theorem layout_eq {k : Nat} {L : Layout} (h : S.layouts[k]? = some L) : S.layout k = L := by
  rw [layout, Array.getD_eq_getD_getElem?, h]
  rfl

theorem layoutOf_eq {k : Nat} {P : Pass α} (h : S.passes[p]? = some (k, P)) :
    S.layoutOf p = k := by
  rw [layoutOf, h]
  rfl

theorem pass_eq {k : Nat} {P : Pass α} (h : S.passes[p]? = some (k, P)) : S.pass p = P := by
  rw [pass, h]
  rfl

theorem le_newLayout (S : Session α) (L : Layout) : S ≤ (newLayout L S).2 := by
  refine ⟨le_refl S.workspace, fun k K hK => ⟨K, ?_, le_refl K⟩, fun _ _ P hP => ⟨P, hP, le_refl P⟩⟩
  obtain ⟨hk, -⟩ := Array.getElem?_eq_some_iff.mp hK
  exact (Array.getElem?_push_lt hk).trans (Array.getElem?_eq_getElem hk ▸ hK)

theorem le_newPass (S : Session α) (k : Nat) (config : Config) : S ≤ (newPass k config S).2 := by
  refine ⟨le_refl S.workspace, fun _ K hK => ⟨K, hK, le_refl K⟩, fun p _ P hP => ⟨P, ?_, le_refl P⟩⟩
  obtain ⟨hp, -⟩ := Array.getElem?_eq_some_iff.mp hP
  exact (Array.getElem?_push_lt hp).trans (Array.getElem?_eq_getElem hp ▸ hP)

theorem le_setLayout (S : Session α) {k : Nat} {L : Layout} (h : S.layout k ≤ L) :
    S ≤ S.setLayout k L := by
  refine ⟨le_refl S.workspace, fun j K hK => ?_, fun _ _ P hP => ⟨P, hP, le_refl P⟩⟩
  change ∃ L', (S.layouts.setIfInBounds k L)[j]? = some L' ∧ K ≤ L'
  by_cases hj : k = j
  · subst hj
    obtain ⟨hk, -⟩ := Array.getElem?_eq_some_iff.mp hK
    rw [Array.getElem?_setIfInBounds_self_of_lt hk]
    exact ⟨L, rfl, layout_eq hK ▸ h⟩
  · rw [Array.getElem?_setIfInBounds_ne hj]
    exact ⟨K, hK, le_refl K⟩

theorem le_update (S : Session α) {c : Compilation α} (h : S.view p ≤ c) : S ≤ S.update p c := by
  obtain ⟨hw, hl, hp⟩ := h
  refine ⟨hw, (S.le_setLayout hl).2.1, fun q k P hP => ?_⟩
  change ∃ P', (S.passes.setIfInBounds p (S.layoutOf p, c.pass))[q]? = some (k, P') ∧ P ≤ P'
  by_cases hq : p = q
  · subst hq
    obtain ⟨hlt, -⟩ := Array.getElem?_eq_some_iff.mp hP
    rw [Array.getElem?_setIfInBounds_self_of_lt hlt]
    exact ⟨c.pass, by rw [layoutOf_eq hP], pass_eq hP ▸ hp⟩
  · rw [Array.getElem?_setIfInBounds_ne hq]
    exact ⟨P, hP, le_refl P⟩

theorem extends_onPass {task : Task (Compilation α) β} (h : Extends task) :
    Extends (onPass p task) :=
  h.onPart fun S _ hc => S.le_update hc

structure Placed (S : Session α) (p : Nat) : Prop where
  pass : p < S.passes.size
  layout : S.layoutOf p < S.layouts.size

theorem Placed.le (hp : S.Placed p) (h : S ≤ T) : T.Placed p ∧ S.view p ≤ T.view p := by
  obtain ⟨k, P, hP⟩ : ∃ k P, S.passes[p]? = some (k, P) :=
    ⟨_, _, Array.getElem?_eq_getElem hp.pass⟩
  have hk := layoutOf_eq hP
  obtain ⟨L, hL⟩ : ∃ L, S.layouts[k]? = some L := ⟨_, Array.getElem?_eq_getElem (hk ▸ hp.layout)⟩
  obtain ⟨P', hP', hpass⟩ := h.2.2 p k P hP
  obtain ⟨L', hL', hlayout⟩ := h.2.1 k L hL
  have hk' := layoutOf_eq hP'
  refine ⟨⟨(Array.getElem?_eq_some_iff.mp hP').1, ?_⟩, h.1, ?_, ?_⟩
  · rw [hk']
    exact (Array.getElem?_eq_some_iff.mp hL').1
  · simp only [view, hk, hk', layout_eq hL, layout_eq hL']
    exact hlayout
  · simp only [view, pass_eq hP, pass_eq hP']
    exact hpass

theorem Placed.update (hp : S.Placed p) (c : Compilation α) :
    (S.update p c).Placed p ∧ (S.update p c).view p = c := by
  have hpass : (S.update p c).passes[p]? = some (S.layoutOf p, c.pass) :=
    Array.getElem?_setIfInBounds_self_of_lt hp.pass
  have hlayout : (S.update p c).layouts[S.layoutOf p]? = some c.layout :=
    Array.getElem?_setIfInBounds_self_of_lt hp.layout
  refine ⟨⟨(Array.getElem?_eq_some_iff.mp hpass).1, ?_⟩, ?_⟩
  · rw [layoutOf_eq hpass]
    exact (Array.getElem?_eq_some_iff.mp hlayout).1
  · rw [view, layoutOf_eq hpass, pass_eq hpass, layout_eq hlayout]
    rfl

end Session

variable [Scalar α]

theorem Node.askVexity_remembers (n : Node α) (v : Verdicts) :
    n.askVexity.Ends v fun r v' => ∀ x, r = .ok x → x ≠ .notDcp → v'.vexity? n = some x := by
  have hread (o : Option Vexity) {x : Vexity} (h : o.getD .notDcp = x) (hx : x ≠ .notDcp) :
      o = some x := by
    cases o with
    | none => exact absurd h.symm hx
    | some y => exact congrArg some h
  rw [askVexity, ends_bind, ends_get]
  dsimp only
  cases hv : v.vexity? n with
  | some y => exact fun x hx _ => hv.trans (congrArg some (Except.ok.inj hx))
  | none =>
    dsimp only
    rw [ends_bind]
    refine Ends.imp (P := fun _ _ => True) trivial ?_
    rintro (e | _) v' -
    · simp
    · exact fun x hx => hread _ (Except.ok.inj hx)

theorem Node.askVexity_of_vexity? {n : Node α} {v : Verdicts} {x : Vexity}
    (h : v.vexity? n = some x) : n.askVexity.Ends v fun r v' => r = .ok x ∧ v' = v := by
  rw [askVexity, ends_bind, ends_get]
  dsimp only
  rw [h]
  exact ⟨rfl, rfl⟩

variable [Zero α] [One α] [Neg α] [Add α] [Mul α]

theorem Request.extends_serve (r : Request α) : Extends r.serve := by
  open Compilation in
  have hbuild {task : Task Workspace (Node α)} (h : Extends task) : Extends (build task) :=
    (extends_onWorkspace h).bind fun _ => extends_pure _
  have hask {β : Type} {task : Task (Compilation α) β} (h : Extends task) : Extends (ask task) :=
    h.bind fun _ => extends_pure _
  cases r with
  | constant A => exact hbuild ((Constant.extends_build A).bind fun _ => extends_pure _)
  | unknown name size sign =>
    exact hbuild ((Unknown.extends_build name size sign).bind fun _ => extends_pure _)
  | product l r => exact hbuild (Node.extends_buildProduct l r)
  | weighted c x => exact hbuild (Node.extends_buildWeighted c x)
  | square x => exact hbuild (Node.extends_buildSquare x)
  | multiply x y => exact hbuild (Node.extends_multiply x y)
  | dotMultiply x y => exact hbuild (Node.extends_dotMultiply x y)
  | divide x c => exact hbuild (Node.extends_divide x c)
  | negate x => exact hbuild (Node.extends_negated x)
  | sign n =>
    exact hask (extends_onWorkspace (Workspace.extends_onVerdicts (Node.extends_askSign n)))
  | vexity n =>
    exact hask (extends_onWorkspace (Workspace.extends_onVerdicts (Node.extends_askVexity n)))
  | register u => exact hask (extends_of_goes fun _ => goes_register (List.mem_singleton_self _))
  | auxiliary size => exact hask (extends_of_goes (M := []) fun _ => goes_introduce none size)
  | lower n => exact hask (extends_lower n)
  | conicForm n => exact hask (extends_of_goes fun _ => goes_conicForm n)

namespace Compilation

structure Recalls (s : Compilation α) (n : Node α) (G : Form α) : Prop where
  form : s.pass.find? n.id = some G
  passed : s.pass.config.checkDcp = true →
    ∃ v, v ≠ .notDcp ∧ s.workspace.verdicts.vexity? n = some v

variable {s s' : Compilation α} {n : Node α} {F G : Form α}

omit [Scalar α] [Zero α] [One α] [Neg α] [Add α] [Mul α] in
theorem Recalls.mono (h : s.Recalls n G) (hs : s ≤ s') : s'.Recalls n G where
  form := hs.2.2.2 _ _ h.form
  passed hc := by
    obtain ⟨v, hv, hn⟩ := h.passed (hs.2.2.1 ▸ hc)
    exact ⟨v, hv, hs.1.2 _ _ hn⟩

theorem lower_holds (n : Node α) (s : Compilation α) :
    (lower n).Ends s fun r s' => ∀ G, r = .ok G → s'.pass.find? n.id = some G := by
  rw [lower, ends_bind, ends_get]
  dsimp only
  cases hfind : s.pass.find? n.id with
  | some F => exact fun G hG => hfind.trans (congrArg some (Except.ok.inj hG))
  | none =>
    simp only [modifyPass, ends_bind, ends_modify]
    refine Ends.imp (P := fun _ _ => True) trivial ?_
    rintro (e | _) t -
    · exact nofun
    · intro G hG
      have hG : t.pass.get n.id = .ok G := hG
      rw [Pass.get] at hG
      cases ht : t.pass.find? n.id with
      | none => rw [ht] at hG; cases hG
      | some F => rw [ht] at hG; exact ht.trans (congrArg some (Except.ok.inj hG))

theorem conicForm_recalls (n : Node α) (s : Compilation α) :
    (conicForm n).Ends s fun r s' => ∀ F, r = .ok F →
      ∃ G, s'.Recalls n G ∧ G.withColumns s'.layout.size = .ok F := by
  have hlower (t : Compilation α) (hpassed : t.pass.config.checkDcp = true →
      ∃ v, v ≠ .notDcp ∧ t.workspace.verdicts.vexity? n = some v) :
      Ends (do
        let F ← lower n
        F.withColumns (← get).layout.size) t fun r s' => ∀ F, r = .ok F →
          ∃ G, s'.Recalls n G ∧ G.withColumns s'.layout.size = .ok F := by
    rw [ends_bind]
    apply ((lower_holds n t).and (extends_lower n t)).imp
    rintro (e | G) s' ⟨hG, hle⟩
    · simp
    · refine fun F hF => ⟨G, ⟨hG G rfl, fun hc => ?_⟩, hF⟩
      obtain ⟨v, hv, hn⟩ := hpassed (hle.2.2.1 ▸ hc)
      exact ⟨v, hv, hle.1.2 _ _ hn⟩
  rw [conicForm, ends_bind, ends_get]
  dsimp only
  split
  · rw [ends_bind, onWorkspace, ends_onPart, Workspace.onVerdicts, ends_onPart]
    apply (Node.askVexity_remembers n _).imp
    rintro (e | v) w hw
    · simp
    · dsimp only
      split
      · simp
      · next hv => exact hlower _ fun _ => ⟨v, hv, hw v rfl hv⟩
  · next hc => exact hlower s fun h => absurd h hc

theorem Recalls.conicForm_eq (h : s.Recalls n G) :
    (conicForm n).Ends s fun r _ => r = G.withColumns s.layout.size := by
  have hlower (t : Compilation α) (ht : t.pass = s.pass) (hl : t.layout = s.layout) :
      Ends (do
        let F ← lower n
        F.withColumns (← get).layout.size) t fun r _ => r = G.withColumns s.layout.size := by
    rw [ends_bind, lower, ends_bind, ends_get]
    dsimp only
    rw [ht, h.form]
    change G.withColumns t.layout.size = _
    rw [hl]
  rw [conicForm, ends_bind, ends_get]
  dsimp only
  split
  · next hc =>
    obtain ⟨v, hv, hn⟩ := h.passed hc
    rw [ends_bind, onWorkspace, ends_onPart, Workspace.onVerdicts, ends_onPart]
    apply (Node.askVexity_of_vexity? hn).imp
    rintro _ _ ⟨rfl, rfl⟩
    dsimp only
    rw [if_neg hv]
    exact hlower _ rfl rfl
  · exact hlower s rfl rfl

end Compilation

namespace Session

variable {S T : Session α} {p : Nat}

/-- What may happen in a session: another layout or pass is opened, something is placed in a layout,
or a pass is asked for something. -/
inductive Next (S : Session α) : Session α → Prop
  | newLayout (L : Layout) : Next S (newLayout L S).2
  | newPass (k : Nat) (config : Config) : Next S (newPass k config S).2
  | place (k : Nat) (h : Holder) : Next S (S.setLayout k ((S.layout k).register h))
  | request (p : Nat) (r : Request α) : Next S (onPass p r.serve S).2

theorem Next.le (h : Next S T) : S ≤ T := by
  cases h with
  | newLayout L => exact S.le_newLayout L
  | newPass k config => exact S.le_newPass k config
  | place k h => exact S.le_setLayout ((S.layout k).le_register h)
  | request p r => exact extends_onPass r.extends_serve S

theorem le_of_history (h : Relation.ReflTransGen Next S T) : S ≤ T := by
  induction h with
  | refl => exact le_refl S
  | tail _ h ih => exact ih.trans h.le

/-- A form that was obtained once is obtained again, over whatever columns there are by then, as long
as they are not fewer than before; and they are not unless something of negative size has taken its
slot in between. -/
theorem conicForm_again {S' : Session α} {n : Node α} {F : Form α} (hp : S.Placed p)
    (hF : onPass p (Compilation.conicForm n) S = (.ok F, S'))
    (h : Relation.ReflTransGen Next S' T) :
    ∃ new : List Slot,
      (T.view p).layout.slots.toList = (S'.view p).layout.slots.toList ++ new ∧
      (∀ id slot, (S'.view p).layout.find? id = some slot →
        (T.view p).layout.find? id = some slot) ∧
      (S'.view p).layout.size = F.cols ∧
      (T.view p).layout.size = F.cols + (new.map (·.holder.size.count)).sum ∧
      (∃ G : Form α, G.rows = F.rows ∧ G.cols ≤ F.cols ∧
        (onPass p (Compilation.conicForm n) T).1 = G.withColumns (T.view p).layout.size) ∧
      (∀ H : Form α, (onPass p (Compilation.conicForm n) T).1 = .ok H ∧ F.cols ≤ H.cols ↔
        H.rows = F.rows ∧ (H.cols : Int) = (T.view p).layout.size ∧ F.cols ≤ H.cols ∧
          ((T.view p).layout.size = F.cols ∨ (T.view p).layout.size < Extent.columnLimit)) ∧
      ((∀ slot ∈ new, 0 ≤ slot.holder.size.count) → (F.cols : Int) ≤ (T.view p).layout.size ∧
        ((T.view p).layout.size < Extent.columnLimit →
          (onPass p (Compilation.conicForm n) T).1 =
            .ok ⟨(T.view p).layout.size.toNat, F.rows⟩)) := by
  obtain ⟨hplaced, hview⟩ := hp.update (Compilation.conicForm n (S.view p)).2
  have hresult : (Compilation.conicForm n (S.view p)).1 = .ok F := congrArg Prod.fst hF
  obtain rfl : S.update p (Compilation.conicForm n (S.view p)).2 = S' := congrArg Prod.snd hF
  obtain ⟨G, hG, hGF⟩ := Compilation.conicForm_recalls n (S.view p) F hresult
  rw [← hview] at hG hGF
  obtain ⟨-, hkept⟩ := hplaced.le (le_of_history h)
  obtain ⟨new, hslots, hnew⟩ := hkept.2.1
  have hagain : (onPass p (Compilation.conicForm n) T).1 = G.withColumns (T.view p).layout.size :=
    (hG.mono hkept).conicForm_eq
  obtain ⟨hrows, hcols, hle, hlimit⟩ := Form.withColumns_eq_ok_iff.mp hGF
  have hsize := Layout.size_of_slots hslots hnew
  rw [← hcols] at hsize
  rw [hagain]
  refine ⟨new, hslots, fun _ _ => Layout.find?_of_le hkept.2.1, hcols.symm, hsize,
    ⟨G, hrows.symm, hle, rfl⟩, fun H => ?_, fun hnonneg => ?_⟩
  · rw [Form.withColumns_eq_ok_iff, hrows]
    refine ⟨fun ⟨⟨hr, hc, _, hl⟩, hge⟩ => ⟨hr, hc, hge, by omega⟩, fun ⟨hr, hc, hge, hl⟩ => ?_⟩
    exact ⟨⟨hr, hc, by omega, by omega⟩, hge⟩
  · have hadded := List.sum_nonneg (l := new.map (·.holder.size.count)) (by simpa using hnonneg)
    refine ⟨by omega, fun hbound => ?_⟩
    rw [Form.withColumns_eq_ok_iff]
    dsimp only
    exact ⟨hrows, by omega, by omega, by omega⟩

def pair : Unknown := ⟨0, Identity.ofUnknown 0, 0, "pair", ⟨2, 1⟩, .indeterminate⟩

def later (rows : Int) : Unknown :=
  ⟨1, Identity.ofUnknown 1, 1, "later", ⟨rows, 1⟩, .indeterminate⟩

def opened : Session ℚ := ⟨⟨2, 2, .empty, 0⟩, #[.empty], #[(0, .empty {})]⟩

theorem opened_reached (rows : Int) : ∃ S T : Session ℚ, Relation.ReflTransGen Next empty S ∧
    onPass 0 (Request.unknown "pair" ⟨2, 1⟩ (.ok .indeterminate)).serve S = (.ok [.unknown pair], T) ∧
    onPass 0 (Request.unknown "later" ⟨rows, 1⟩ (.ok .indeterminate)).serve T =
      (.ok [.unknown (later rows)], opened) ∧
    Relation.ReflTransGen Next empty opened := by
  let started : Session ℚ := ⟨.empty, #[.empty], #[(0, .empty {})]⟩
  let named : Session ℚ := ⟨⟨1, 1, .empty, 0⟩, #[.empty], #[(0, .empty {})]⟩
  have hlayout : Next (empty (α := ℚ)) ⟨.empty, #[.empty], #[]⟩ := .newLayout .empty
  have hpass : Next ⟨.empty, #[.empty], #[]⟩ started := .newPass 0 {}
  have hpair : Next started named := .request 0 (.unknown "pair" ⟨2, 1⟩ (.ok .indeterminate))
  have hlater : Next named opened := .request 0 (.unknown "later" ⟨rows, 1⟩ (.ok .indeterminate))
  have hstarted : Relation.ReflTransGen Next empty started := .head hlayout (.single hpass)
  exact ⟨started, named, hstarted, rfl, rfl, (hstarted.tail hpair).tail hlater⟩

def paired : Except Failure (Form ℚ) × Session ℚ :=
  onPass 0 (Compilation.conicForm (.unknown pair)) opened

def joined (rows : Int) : Session ℚ :=
  (onPass 0 (Request.lower (.unknown (later rows))).serve paired.2).2

theorem paired_eq : paired.1.map (·.cols) = .ok 2 ∧
    (paired.2.view 0).layout.slots.toList = [⟨.unknown pair, 0⟩] := by
  decide +kernel

theorem paired_joined (rows : Int) : Relation.ReflTransGen Next paired.2 (joined rows) :=
  .single (.request 0 (.lower (.unknown (later rows))))

theorem joined_eq : ((joined 3).view 0).layout.slots.toList =
    [⟨.unknown pair, 0⟩, ⟨.unknown (later 3), 2⟩] := by
  decide +kernel

theorem pair_form_padded : ∃ F S, paired = (.ok F, S) ∧
    (onPass 0 (Compilation.conicForm (.unknown pair)) (joined 3)).1 = .ok ⟨5, F.rows⟩ := by
  have hplaced : opened.Placed 0 := ⟨by decide, by decide⟩
  obtain ⟨hcols, hslots⟩ := paired_eq
  cases hF : paired.1 with
  | error e => rw [hF] at hcols; cases hcols
  | ok F =>
    have hpaired : paired = (.ok F, paired.2) := Prod.ext hF rfl
    obtain ⟨new, hnew, -, -, hsize, -, -, hagain⟩ :=
      conicForm_again hplaced hpaired (paired_joined 3)
    rw [hslots, joined_eq] at hnew
    obtain rfl : [⟨.unknown (later 3), 2⟩] = new := (List.cons.inj hnew).2
    rw [hF] at hcols
    have hcols : F.cols = 2 := Except.ok.inj hcols
    have hfive : ((joined 3).view 0).layout.size = 5 := by rw [hsize, hcols]; rfl
    obtain ⟨-, hok⟩ := hagain (by decide)
    rw [hfive] at hok
    exact ⟨F, _, hpaired, hok (by decide)⟩

/-- An unknown of negative size takes its slot backwards before it is refused, and then the form of
`pair` cannot be had any more. -/
theorem pair_form_lost :
    (∃ S T : Session ℚ, Relation.ReflTransGen Next empty S ∧
      onPass 0 (Request.unknown "pair" ⟨2, 1⟩ (.ok .indeterminate)).serve S =
        (.ok [.unknown pair], T) ∧
      onPass 0 (Request.unknown "later" ⟨-1, 1⟩ (.ok .indeterminate)).serve T =
        (.ok [.unknown (later (-1))], opened) ∧
      Relation.ReflTransGen Next empty opened) ∧
    opened.Placed 0 ∧ paired.1.map (·.cols) = .ok 2 ∧
    Relation.ReflTransGen Next paired.2 (joined (-1)) ∧
    (paired.2.view 0).layout.size = 2 ∧ ((joined (-1)).view 0).layout.size = 1 ∧
    (onPass 0 (Compilation.conicForm (.unknown pair)) (joined (-1))).1.map (·.cols) =
      .error (.shrunkForm 2 1) := by
  refine ⟨opened_reached (-1), ⟨by decide, by decide⟩, paired_eq.1, paired_joined (-1), ?_⟩
  decide +kernel

end Session

end DisciplinedConvex
