import DisciplinedConvex.Double
import DisciplinedConvex.Proofs.Epigraph

open DisciplinedConvex.Task

namespace DisciplinedConvex

/-- Numbers of which zero and one are finite, so that no unknown is ever refused a form for its
coefficients. -/
class FiniteUnits (α : Type) [Zero α] [One α] [Scalar α] : Prop where
  zero : Scalar.isFinite (0 : α) = true
  one : Scalar.isFinite (1 : α) = true

instance {α : Type} [Field α] [LinearOrder α] [Scalar α] [ExactScalar α] : FiniteUnits α :=
  ⟨ExactScalar.isFinite_eq 0, ExactScalar.isFinite_eq 1⟩

instance : FiniteUnits Double := ⟨by decide +kernel, by decide +kernel⟩

def Slot.Laid (slot : Slot) : Prop :=
  slot.length < Extent.entryLimit ∧ slot.stop < Extent.columnLimit

variable {α : Type} [Zero α] [One α] [Scalar α]

theorem Form.isFinite_of_columns [FiniteUnits α] {F : Form α} {slot : Slot}
    (h : F.rows = slot.columns) : F.isFinite = true := by
  rw [isFinite, h, Slot.columns, Array.all_eq_true]
  intro i hi
  rw [Array.getElem_ofFn]
  simp [AffineRow.isFinite, AffineRow.column, FiniteUnits.zero, FiniteUnits.one]

structure Epigraph (α : Type) where
  tag : Tag
  operand : Node α
  unknown : Unknown
  slot : Slot
  argument : Form α
  form : Form α

variable [Neg α] [Add α] [Mul α]

namespace Epigraph

def node (e : Epigraph α) : Node α := .square e.tag e.operand

def auxiliary (e : Epigraph α) : Auxiliary α := ⟨e.unknown, some e.node⟩

def cones (e : Epigraph α) : List (Constraint α) :=
  (Compilation.epigraphs e.tag.size.count.toNat e.argument e.form).toList

end Epigraph

namespace Pass

variable {P P' : Pass α} {L L' : Layout} {N N' : List (Node α)} {es : List (Epigraph α)}

def bounding (P : Pass α) : List (Auxiliary α) :=
  P.auxiliaries.filter fun a => a.square?.isSome && P.contains a.unknown.id

/-- A square that a pass holds, with an unknown of its size whose columns are its form. -/
structure Carries (P : Pass α) (L : Layout) (N : List (Node α)) (e : Epigraph α) : Prop where
  mem : e.node ∈ N
  vexity : e.operand.vexity ≠ .constant
  size : e.unknown.size = e.tag.size
  slot : L.find? e.unknown.id = some e.slot
  argument : P.find? e.operand.id = some e.argument
  form : P.find? e.tag.id = some e.form
  rows : e.form.rows = e.slot.columns

/-- An unknown that was introduced for the square `q`: it has the size of the square and a slot, and
it has a form exactly if that slot can be laid out. -/
def Stands (P : Pass α) (L : Layout) (N : List (Node α)) (u : Unknown) (q : Node α) : Prop :=
  .unknown u ∈ N ∧ ∃ tag x slot, q = .square tag x ∧ q ∈ N ∧ x.vexity ≠ .constant ∧
    u.size = tag.size ∧ L.find? u.id = some slot ∧ (P.contains u.id = true ↔ slot.Laid)

/-- The squares that a pass holds, one epigraph for each identity, account for all auxiliaries that
have a form and for all constraints. -/
structure Ledger (P : Pass α) (L : Layout) (N : List (Node α)) (es : List (Epigraph α)) :
    Prop where
  carried : ∀ e ∈ es, P.Carries L N e
  ids : (es.map (·.tag.id)).Nodup
  squares : ∀ tag x, .square tag x ∈ N → P.contains tag.id = true → x.vexity ≠ .constant →
    ∃ e ∈ es, e.tag.id = tag.id
  bounding : P.bounding.reverse = es.map (·.auxiliary)
  constraints : P.constraints.toList = es.flatMap (·.cones)
  introduced : ∀ a ∈ P.auxiliaries, ∀ q, a.square? = some q → P.Stands L N a.unknown q

theorem ledger_empty (config : Config) (L : Layout) : (empty config : Pass α).Ledger L N [] := by
  have hcontains (id : String) : ¬(empty config : Pass α).contains id = true := by
    simp [contains, empty, find?]
  exact ⟨fun _ h => absurd h List.not_mem_nil, List.nodup_nil,
    fun tag x _ h => absurd h (hcontains _), rfl, rfl, fun _ h => absurd h List.not_mem_nil⟩

omit [Neg α] [Add α] [Mul α] in
theorem Carries.contains {e : Epigraph α} (h : P.Carries L N e) :
    P.contains e.operand.id = true ∧ P.contains e.tag.id = true :=
  ⟨contains_of_find? h.argument, contains_of_find? h.form⟩

omit [Neg α] [Add α] [Mul α] in
theorem Carries.mono {e : Epigraph α} (h : P.Carries L N e) (hNN : N ⊆ N')
    (hL : ∀ id slot, L.find? id = some slot → L'.find? id = some slot)
    (hf : ∀ id, P.contains id = true → P'.find? id = P.find? id) : P'.Carries L' N' e :=
  ⟨hNN h.mem, h.vexity, h.size, hL _ _ h.slot, (hf _ h.contains.1).trans h.argument,
    (hf _ h.contains.2).trans h.form, h.rows⟩

omit [Zero α] [One α] [Neg α] [Add α] [Mul α] in
theorem Stands.mono {u : Unknown} {q : Node α} (h : P.Stands L N u q) (hNN : N ⊆ N')
    (hL : ∀ id slot, L.find? id = some slot → L'.find? id = some slot)
    (hf : P'.contains u.id = P.contains u.id) : P'.Stands L' N' u q := by
  obtain ⟨hu, tag, x, slot, rfl, hq, hv, hs, hslot, hlaid⟩ := h
  exact ⟨hNN hu, tag, x, slot, rfl, hNN hq, hv, hs, hL _ _ hslot, by rw [hf, hlaid]⟩

theorem Ledger.extend (h : P.Ledger L N es) (hS : P.Shaped L N) (hN' : Node.Faithful N')
    (hNN : N ⊆ N') (hf : P'.forms = P.forms) (hc : P'.constraints = P.constraints)
    (hL : ∀ id slot, L.find? id = some slot → L'.find? id = some slot)
    (hb : P'.bounding = P.bounding)
    (hi : ∀ a ∈ P'.auxiliaries, a ∈ P.auxiliaries ∨
      ∀ q, a.square? = some q → P'.Stands L' N' a.unknown q) : P'.Ledger L' N' es where
  carried e he := (h.carried e he).mono hNN hL fun id _ => find?_congr hf id
  ids := h.ids
  squares tag x hx hcx hv := by
    rw [contains_congr hf] at hcx
    obtain ⟨m, hm, he, hal⟩ := hS.alike hN' hNN hx hcx
    obtain ⟨tag', x', rfl, -, hax⟩ := hal.square_eq
    have he : tag'.id = tag.id := he
    obtain ⟨e, hem, hid⟩ := h.squares tag' x' hm (he ▸ hcx) (hax.vexity_eq ▸ hv)
    exact ⟨e, hem, hid.trans he⟩
  bounding := by rw [hb, h.bounding]
  constraints := by rw [hc, h.constraints]
  introduced a ha q hq := by
    rcases hi a ha with ha | ha
    · exact (h.introduced a ha q hq).mono hNN hL (contains_congr hf _)
    · exact ha q hq

theorem Ledger.store (h : P.Ledger L N es) (hN : Node.Faithful N) {n : Node α} (hn : n ∈ N)
    (hnew : P.contains n.id = false)
    (hsq : ∀ tag x, n = .square tag x → x.vexity = .constant)
    (hu : ∀ a ∈ P.auxiliaries, a.square?.isSome = true → n ≠ .unknown a.unknown) (F : Form α) :
    (P.store n.id F).Ledger L N es := by
  have hfind (id : String) (hid : P.contains id = true) :
      (P.store n.id F).find? id = P.find? id := by
    rw [find?_store, if_neg]
    rintro rfl
    rw [hnew] at hid
    cases hid
  have hcontains : ∀ a ∈ P.auxiliaries, a.square?.isSome = true →
      (P.store n.id F).contains a.unknown.id = P.contains a.unknown.id := by
    intro a ha hsome
    obtain ⟨q, hq⟩ := Option.isSome_iff_exists.mp hsome
    rw [contains, find?_store, if_neg, contains]
    exact fun he => hu a ha hsome (hN n hn _ (h.introduced a ha q hq).1 he).unknown_eq
  refine ⟨fun e he => (h.carried e he).mono (List.Subset.refl _) (fun _ _ hs => hs) hfind, h.ids,
    fun tag x hx hc hv => ?_, ?_, h.constraints, fun a ha q hq => ?_⟩
  · refine h.squares tag x hx ((eq_or_contains_of_store hc).resolve_left fun he => ?_) hv
    obtain ⟨tag', x', rfl, -, hax⟩ := (hN n hn _ hx he).square_eq
    exact hv (hax.vexity_eq ▸ hsq tag' x' rfl)
  · rw [← h.bounding]
    refine congrArg List.reverse (List.filter_congr fun a ha => ?_)
    cases hsome : a.square?.isSome with
    | false => rfl
    | true => rw [hcontains a ha hsome]
  · exact (h.introduced a ha q hq).mono (List.Subset.refl _) (fun _ _ hs => hs)
      (hcontains a ha (Option.isSome_iff_exists.mpr ⟨q, hq⟩))

theorem Ledger.store_square {e : Epigraph α} (h : P.Ledger L N es)
    (hN : Node.Faithful (.unknown e.unknown :: N)) (hu : .unknown e.unknown ∉ N)
    (hcu : P.contains e.unknown.id = false) (hct : P.contains e.tag.id = false)
    (hL : ∀ id slot, L.find? id = some slot → L'.find? id = some slot) {T : Form α}
    (hfind : ∀ id, P'.find? id = if e.tag.id = id then some e.form
      else if e.unknown.id = id then some T else P.find? id)
    (hconstraints : P'.constraints.toList = P.constraints.toList ++ e.cones)
    (hauxiliaries : P'.auxiliaries = e.auxiliary :: P.auxiliaries)
    (he : P'.Carries L' (.unknown e.unknown :: N) e) (hlaid : e.slot.Laid) :
    P'.Ledger L' (.unknown e.unknown :: N) (es ++ [e]) := by
  have hNN : N ⊆ .unknown e.unknown :: N := List.subset_cons_self ..
  have hold (id : String) (hid : P.contains id = true) : P'.find? id = P.find? id := by
    rw [hfind, if_neg, if_neg]
    · rintro rfl
      rw [hcu] at hid
      cases hid
    · rintro rfl
      rw [hct] at hid
      cases hid
  have hself : P'.contains e.unknown.id = true := by
    rw [contains, hfind]
    split
    · rfl
    · rw [if_pos rfl]
      rfl
  -- the identity of an unknown belongs neither to a square nor to another unknown
  have hother : ∀ a ∈ P.auxiliaries, a.square?.isSome = true →
      P'.contains a.unknown.id = P.contains a.unknown.id := by
    intro a ha hsome
    obtain ⟨q, hq⟩ := Option.isSome_iff_exists.mp hsome
    have hmem := (h.introduced a ha q hq).1
    rw [contains, hfind, if_neg, if_neg, contains]
    · intro hid
      have hal := hN _ (List.mem_cons_self ..) _ (hNN hmem) hid
      exact hu (hal.unknown_eq ▸ hmem)
    · exact fun hid => by cases hN _ he.mem _ (hNN hmem) hid
  refine ⟨fun d hd => ?_, ?_, fun tag x hx hc hv => ?_, ?_, ?_, fun a ha q hq => ?_⟩
  · rcases List.mem_append.mp hd with hd | hd
    · exact (h.carried d hd).mono hNN hL hold
    · exact List.mem_singleton.mp hd ▸ he
  · rw [List.map_append, List.map_singleton]
    refine List.nodup_append.mpr ⟨h.ids, List.nodup_singleton _, ?_⟩
    rintro id hid _ hid' rfl
    obtain ⟨d, hd, rfl⟩ := List.mem_map.mp hid
    rw [← List.mem_singleton.mp hid', (h.carried d hd).contains.2] at hct
    cases hct
  · have hx := (List.mem_cons.mp hx).resolve_left (by simp)
    by_cases hid : e.tag.id = tag.id
    · exact ⟨e, List.mem_append_right _ (List.mem_singleton_self e), hid⟩
    · rw [contains, hfind, if_neg hid, if_neg] at hc
      · obtain ⟨d, hd, hid⟩ := h.squares tag x hx hc hv
        exact ⟨d, List.mem_append_left _ hd, hid⟩
      · exact fun hid => by cases hN _ (List.mem_cons_self ..) _ (hNN hx) hid
  · have hfilter : P'.bounding = e.auxiliary :: P.bounding := by
      rw [Pass.bounding, hauxiliaries, List.filter_cons_of_pos, Pass.bounding]
      · refine congrArg _ (List.filter_congr fun a ha => ?_)
        cases hsome : a.square?.isSome with
        | false => rfl
        | true => rw [hother a ha hsome]
      · exact hself
    rw [hfilter, List.reverse_cons, h.bounding, List.map_append, List.map_singleton]
  · rw [hconstraints, h.constraints, List.flatMap_append, List.flatMap_singleton]
  · rw [hauxiliaries] at ha
    rcases List.mem_cons.mp ha with rfl | ha
    · obtain rfl := Option.some.inj hq
      exact ⟨List.mem_cons_self .., e.tag, e.operand, e.slot, rfl, he.mem, he.vexity, he.size,
        he.slot, iff_of_true hself hlaid⟩
    · exact (h.introduced a ha q hq).mono hNN hL
        (hother a ha (Option.isSome_iff_exists.mpr ⟨q, hq⟩))

theorem Ledger.store_bounded {e : Epigraph α} (h : P.Ledger L N es)
    (hN : Node.Faithful (.unknown e.unknown :: N)) (hu : .unknown e.unknown ∉ N)
    (hcu : P.contains e.unknown.id = false) (hct : P.contains e.tag.id = false)
    (hL : ∀ id slot, L.find? id = some slot → L'.find? id = some slot)
    (hmem : e.node ∈ N) (hv : e.operand.vexity ≠ .constant) (hsize : e.unknown.size = e.tag.size)
    (hslot : L'.find? e.unknown.id = some e.slot)
    (hargument : P.find? e.operand.id = some e.argument) (hrows : e.form.rows = e.slot.columns)
    (hlaid : e.slot.Laid) {cs : Array (Constraint α)} (hcs : cs.toList = e.cones) :
    ((({ P with auxiliaries := e.auxiliary :: P.auxiliaries } : Pass α).store e.unknown.id
      e.form).addConstraints cs |>.store e.tag.id e.form).Ledger L' (.unknown e.unknown :: N)
        (es ++ [e]) := by
  let P₁ : Pass α := { P with auxiliaries := e.auxiliary :: P.auxiliaries }
  have hfind (id : String) :
      (((P₁.store e.unknown.id e.form).addConstraints cs).store e.tag.id e.form).find? id =
        if e.tag.id = id then some e.form
        else if e.unknown.id = id then some e.form else P.find? id := by
    rw [find?_store]
    congr 1
    exact P₁.find?_store e.unknown.id id e.form
  have hne {id : String} (hid : P.contains id = false) : id ≠ e.operand.id := by
    rintro rfl
    rw [contains_of_find? hargument] at hid
    cases hid
  refine h.store_square hN hu hcu hct hL hfind ?_ rfl ⟨List.mem_cons_of_mem _ hmem, hv,
    hsize, hslot, ?_, (hfind _).trans (if_pos rfl), hrows⟩ hlaid
  · rw [← hcs]
    exact Array.toList_append
  · rw [hfind, if_neg (hne hct), if_neg (hne hcu), hargument]

theorem Ledger.held (h : P.Ledger L N es) {e : Epigraph α} (he : e ∈ es) :
    e.auxiliary ∈ P.auxiliaries ∧ P.contains e.unknown.id = true := by
  have hmem : e.auxiliary ∈ P.bounding.reverse := h.bounding ▸ List.mem_map_of_mem he
  obtain ⟨hmem, hheld⟩ := List.mem_filter.mp (List.mem_reverse.mp hmem)
  exact ⟨hmem, (Bool.and_eq_true_iff.mp hheld).2⟩

theorem Ledger.unknowns (h : P.Ledger L N es) (ha : (P.auxiliaries.map (·.unknown)).Nodup) :
    (es.map (·.unknown)).Nodup := by
  have hmap : es.map (·.unknown) = (P.bounding.map (·.unknown)).reverse := by
    rw [← List.map_reverse, h.bounding, List.map_map]
    rfl
  rw [hmap, List.nodup_reverse]
  exact ha.sublist (List.filter_sublist.map _)

end Pass

omit [Zero α] [One α] [Neg α] [Add α] [Mul α] [Scalar α] in
theorem Layout.Stacked.count_holder {L : Layout} {N : List (Node α)} {slot : Slot}
    (h : L.Stacked N) (hs : slot ∈ L.slots) :
    (L.slots.toList.map (·.holder)).count slot.holder = 1 := by
  have hmap : L.slots.toList.map (·.holder.id) = (L.slots.toList.map (·.holder)).map Holder.id := by
    rw [List.map_map]
    rfl
  exact List.count_eq_one_of_mem ((hmap ▸ h.ids).of_map _)
    (List.mem_map_of_mem (Array.mem_toList_iff.mpr hs))

namespace Compilation

variable {s s' t : Compilation α} {ns : List (Node α)} {n x : Node α}

def Ledgered (s : Compilation α) (ns : List (Node α)) : Prop :=
  ∃ es, s.pass.Ledger s.layout (s.nodes ns) es

theorem Ledgered.beside (hl : s.Ledgered ns) (h : s.Tidy ns) {ms : List (Node α)}
    (hN : Node.Faithful (t.nodes ms)) (hst : s.Beside ns t ms) : t.Ledgered ms := by
  obtain ⟨es, hes⟩ := hl
  refine ⟨es, hes.extend h.shaped hN hst.nodes_subset hst.forms hst.constraints hst.slots ?_
    fun a ha => .inl (hst.auxiliaries ▸ ha)⟩
  simp only [Pass.bounding, hst.auxiliaries, Pass.contains_congr hst.forms]

omit [Neg α] [Add α] [Mul α] in
theorem record_unknown_columns [FiniteUnits α] (h : s.Tidy ns) {u : Unknown} {slot : Slot}
    (hu : .unknown u ∈ s.nodes ns) (hslot : (s.registered u).layout.find? u.id = some slot) :
    (record (.unknown u) (lowerUnknown (α := α) u)).Ends s (Recorded ns (.unknown u) (s.registered u)
      (fun F => F.rows = slot.columns ∧ (F.cols : Int) = (s.registered u).layout.size ∧
        slot.length < Extent.entryLimit ∧ F.cols < Extent.columnLimit)
      fun _ => Extent.entryLimit ≤ slot.length ∨
        (Extent.columnLimit : Int) ≤ (s.registered u).layout.size) := by
  have hs₁ : (s.registered u).Sound ns := h.sound.register hu
  obtain ⟨_, hslot', hholder, hstart, hstop⟩ := h.sound.register_slot h.faithful h.nonneg hu
  obtain rfl := Option.some.inj (hslot'.symm.trans hslot)
  rw [lowerUnknown, record_bind, register, ends_bind, ends_modify]
  refine record_tries hs₁ ((tries_slotColumns (hs₁.stacked.size_nonneg h.nonneg) (h.nonneg _ hu)
    hslot' hholder hstart hstop).imp (fun _ hF => hF) fun f hf => ?_) fun _ F hF hinfinite => ?_
  · exact hf.imp And.right And.right
  · rw [Form.isFinite_of_columns hF.1] at hinfinite
    cases hinfinite

omit [One α] [Neg α] [Add α] [Mul α] in
theorem Sound.find?_introduced (h : s.Sound ns) {square? : Option (Node α)} {size : Size}
    (hN : Node.Faithful ((s.introduced square? size).nodes ns))
    (hnew : .unknown (s.nextAuxiliary size) ∉ s.nodes ns) :
    (s.introduced square? size).layout.find? (s.nextAuxiliary size).id =
        some ⟨.unknown (s.nextAuxiliary size), s.layout.size⟩ ∧
      (s.introduced square? size).layout.size = s.layout.size + size.count := by
  have hfree : s.layout.contains (s.nextAuxiliary size).id = false := by
    refine Bool.eq_false_iff.mpr fun hc => hnew ?_
    obtain ⟨slot, hslot⟩ := Option.isSome_iff_exists.mp hc
    obtain ⟨hmem, hid⟩ := Layout.mem_of_find? hslot
    obtain ⟨v, hv, hvN⟩ := h.stacked.holders slot hmem
    have hvid : v.id = (s.nextAuxiliary size).id := by rw [← hid, hv]; rfl
    have hal := hN _ (List.mem_cons_of_mem _ hvN) _ (List.mem_cons_self ..) hvid
    exact hal.unknown_eq ▸ hvN
  refine ⟨?_, Layout.size_register (h := .unknown (s.nextAuxiliary size)) hfree⟩
  have hregister : (s.introduced square? size).layout =
      ⟨s.layout.slots.push ⟨.unknown (s.nextAuxiliary size), s.layout.size⟩⟩ := by
    change s.layout.register _ = _
    exact if_neg (Bool.eq_false_iff.mp hfree)
  have hnone : s.layout.slots.find? (·.holder.id == (s.nextAuxiliary size).id) = none := by
    simpa [Layout.contains, Layout.find?] using hfree
  rw [hregister, Layout.find?, Array.find?_push, hnone]
  simp [Holder.id]

theorem Ledgered.introduced (hl : s.Ledgered ns) (h : s.Tidy ns) {square? : Option (Node α)}
    {size : Size} (hN : Node.Faithful ((s.introduced square? size).nodes ns))
    (hfree : square?.isSome = true → s.pass.contains (s.nextAuxiliary size).id = false)
    (hq : ∀ q, square? = some q → (s.introduced square? size).pass.Stands
      (s.introduced square? size).layout ((s.introduced square? size).nodes ns)
      (s.nextAuxiliary size) q) : (s.introduced square? size).Ledgered ns := by
  obtain ⟨es, hes⟩ := hl
  refine ⟨es, hes.extend h.shaped hN (List.subset_cons_self ..) rfl rfl
    (fun _ _ hs => Layout.find?_register _ hs) ?_ fun a ha => ?_⟩
  · rw [Pass.bounding, Compilation.introduced, List.filter_cons_of_neg]
    · rfl
    · intro hb
      obtain ⟨hsome, hc⟩ := Bool.and_eq_true_iff.mp hb
      have hc : s.pass.contains (s.nextAuxiliary size).id = true := hc
      rw [hfree hsome] at hc
      cases hc
  · rcases List.mem_cons.mp ha with rfl | ha
    · exact .inr hq
    · exact .inl ha

theorem Squared.ledgered [FiniteUnits α] {tag : Tag} {X : Form α} {r : Except Failure (Form α)}
    (hl : s.Ledgered ns) (h : s.Tidy ns) (hsq : .square tag x ∈ s.nodes ns)
    (hv : x.vexity ≠ .constant) (hX : s.pass.find? x.id = some X)
    (hnew : s.pass.contains tag.id = false)
    (hr : Squared ns (.square tag x) x X s r s') : s'.Ledgered ns := by
  have hxN := h.sound.family.children _ hsq x (Node.square_mem_children tag x)
  have htag : tag.size = x.size := (h.sound.family.formed _ hsq).1
  cases hr with
  | unasked hst => exact hl.beside h (hst.nodes_eq ▸ h.faithful) hst.beside
  | @bounded t r₂ r s₂ s' hst hN₁ hunew hcu h₂ hb =>
    let s₁ := t.introduced (some (.square tag x)) x.size
    let u := t.nextAuxiliary x.size
    let slot : Slot := ⟨.unknown u, t.layout.size⟩
    have ht := hst.tidy h
    have hs₁ : s₁.Tidy ns := ht.introduced hN₁ (h.nonneg x hxN)
    have hlt : t.Ledgered ns := hl.beside h ht.faithful hst.beside
    have hu₁ : .unknown u ∈ s₁.nodes ns := List.mem_cons_self ..
    have hsqt : .square tag x ∈ t.nodes ns := hst.nodes_eq ▸ hsq
    obtain ⟨hslot, hsize⟩ := ht.sound.find?_introduced hN₁ hunew
    have hslot : s₁.layout.find? u.id = some slot := hslot
    have hstop : slot.stop = s₁.layout.size := hsize.symm
    have hregistered : s₁.registered u = s₁ := registered_introduced _ _
    have hrec := record_unknown_columns hs₁ hu₁ (hregistered.symm ▸ hslot)
    rw [hregistered, Ends, h₂] at hrec
    obtain ⟨q, hq, hrec⟩ := hrec
    cases r₂ with
    | error f =>
      obtain ⟨hlarge, rfl⟩ := hrec
      have hl₁ : s₁.Ledgered ns := by
        refine hlt.introduced ht hN₁ (fun _ => hcu) fun m hm => ?_
        obtain rfl := Option.some.inj hm
        refine ⟨hu₁, tag, x, slot, rfl, List.mem_cons_of_mem _ hsqt, hv, htag.symm, hslot, ?_⟩
        refine iff_of_false (Bool.eq_false_iff.mp hcu) fun hlaid => ?_
        rcases hlarge with hle | hle
        · exact absurd hlaid.1 (not_lt.mpr hle)
        · exact absurd (hstop ▸ hlaid.2) (not_lt.mpr hle)
      cases hb
      exact hl₁.beside hs₁ (hq.nodes_eq ▸ hN₁) hq.beside
    | ok T =>
      obtain ⟨⟨hrows, hcols, hentries, hlimit⟩, rfl⟩ := hrec
      have hlayout : q.layout = s₁.layout := hq.layout
      have hT : T.withColumns q.layout.size = .ok T := by
        rw [hlayout, ← hcols]
        exact T.withColumns_cols
      have hXcols : X.cols ≤ T.cols := by
        have hX := (h.shaped.fills x hxN X hX).cols
        have hle : t.layout.size ≤ s₁.layout.size :=
          Layout.size_le_register ((h.nonneg x hxN).count_eq ▸ Int.natCast_nonneg _)
        rw [hst.layout] at hle
        omega
      have hX' : X.withColumns q.layout.size = .ok ⟨T.cols, X.rows⟩ := by
        rw [hlayout, ← hcols]
        exact Form.withColumns_eq_ok_iff.mpr ⟨rfl, rfl, hXcols, .inr (Int.ofNat_lt.mpr hlimit)⟩
      obtain rfl := hb.eq_stored hX' hT (Form.isFinite_of_columns hrows)
      obtain ⟨w, L, P⟩ := q
      obtain rfl : P = s₁.pass := hq.pass
      obtain rfl : L = s₁.layout := hlayout
      have hXt : t.pass.find? x.id = some X := by rw [hst.pass, hX]
      have hnewt : t.pass.contains tag.id = false := by rw [hst.pass, hnew]
      obtain ⟨es, hes⟩ := hlt
      exact ⟨_, hes.store_bounded (e := ⟨tag, x, u, slot, X, T⟩) hN₁ hunew hcu hnewt
        (fun _ _ hs => Layout.find?_register _ hs) hsqt hv htag.symm hslot hXt hrows
        ⟨hentries, by rw [hstop, ← hcols]; exact Int.ofNat_lt.mpr hlimit⟩ rfl⟩

theorem Recorded.ledgered_unknown {u : Unknown} {slot : Slot} {Q : Form α → Prop} {E : Failure → Prop}
    {r : Except Failure (Form α)} (hl : (s.registered u).Ledgered ns) (h : (s.registered u).Tidy ns)
    (hu : .unknown u ∈ s.nodes ns) (hnew : s.pass.contains u.id = false)
    (hslot : (s.registered u).layout.find? u.id = some slot) (hQ : ∀ F, Q F → slot.Laid)
    (hr : Recorded ns (.unknown u) (s.registered u) Q E r s') : s'.Ledgered ns := by
  obtain ⟨q, hq, hr⟩ := hr
  cases r with
  | error f =>
    obtain ⟨-, rfl⟩ := hr
    exact hl.beside h (hq.nodes_eq ▸ h.faithful) hq.beside
  | ok F =>
    obtain ⟨hF, rfl⟩ := hr
    obtain ⟨w, L, P⟩ := q
    obtain rfl : P = (s.registered u).pass := hq.pass
    obtain rfl : L = (s.registered u).layout := hq.layout
    obtain ⟨es, hes⟩ := hl
    refine ⟨es, hes.store h.faithful (n := .unknown u) hu hnew nofun (fun a ha hsome he => ?_) F⟩
    obtain rfl := Node.unknown.inj he
    obtain ⟨q, hq⟩ := Option.isSome_iff_exists.mp hsome
    obtain ⟨-, -, -, slot', -, -, -, -, hslot', hlaid⟩ := hes.introduced a ha q hq
    obtain rfl := Option.some.inj (hslot.symm.trans hslot')
    have hc : s.pass.contains a.unknown.id = true := hlaid.mpr (hQ F hF)
    rw [hnew] at hc
    cases hc

theorem compute_ledgered [FiniteUnits α] (h : s.Tidy ns) (hl : s.Ledgered ns) (hn : n ∈ s.nodes ns)
    (hchildren : ∀ c ∈ n.children, s.pass.contains c.id = true)
    (hnew : s.pass.contains n.id = false) :
    (compute n).Ends s fun _ s' => Node.Faithful (s'.nodes ns) → s'.Ledgered ns := by
  have hplain (hu : ∀ u, n ≠ .unknown u) (hsq : ∀ tag x, n = .square tag x → x.vexity = .constant) :
      (compute n).Ends s fun _ s' => Node.Faithful (s'.nodes ns) → s'.Ledgered ns := by
    refine (compute_recorded h.sound h.shaped h.nonneg hn hchildren hu hsq).imp ?_
    rintro (f | F) s' ⟨t, hst, hr⟩ -
    · obtain ⟨-, rfl⟩ := hr
      exact hl.beside h (hst.nodes_eq ▸ h.faithful) hst.beside
    · obtain ⟨-, rfl⟩ := hr
      obtain ⟨w, L, P⟩ := t
      obtain rfl : P = s.pass := hst.pass
      obtain rfl : L = s.layout := hst.layout
      obtain ⟨es, hes⟩ := hl
      exact ⟨es, hes.store h.faithful hn hnew hsq (fun a _ _ => hu a.unknown) F⟩
  cases n with
  | constant | product | weighted => exact hplain nofun nofun
  | unknown u =>
    have hbeside : s.Beside ns (s.registered u) ns := beside_registered (h.nonneg _ hn)
    have hs₁ : (s.registered u).Tidy ns :=
      ⟨h.sound.register hn, h.shaped.registered h.faithful (h.nonneg _ hn), h.faithful, h.nonneg⟩
    obtain ⟨slot, hslot, -, -, hstop⟩ := h.sound.register_slot h.faithful h.nonneg hn
    refine (record_unknown_columns h hn hslot).imp fun _ _ hr _ =>
      hr.ledgered_unknown (hl.beside h h.faithful hbeside) hs₁ hn hnew hslot fun F hF => ?_
    obtain ⟨-, hcols, hentries, hlimit⟩ := hF
    exact ⟨hentries, (hstop.trans hcols.ge).trans_lt (Int.ofNat_lt.mpr hlimit)⟩
  | square tag x =>
    by_cases hv : x.vexity = .constant
    · refine hplain nofun fun tag' x' he => ?_
      obtain ⟨-, rfl⟩ := Node.square.inj he
      exact hv
    · have hxc := Node.square_mem_children tag x
      obtain ⟨X, hX⟩ := Pass.exists_of_contains (hchildren x hxc)
      have hx := h.sound.family.children _ hn x hxc
      exact (record_square_ends h.sound h.shaped.known hx hv hX _).imp fun _ _ hr hN =>
        (hr hN).ledgered hl h hn hv hX hnew
  | bare => exact (h.sound.family.formed _ hn).elim

theorem kept_ledgered [FiniteUnits α] : Kept (Ledgered (α := α)) where
  beside h hl hN hst := hl.beside h hN hst
  introduced h hl hN := hl.introduced h hN nofun nofun
  compute h hl hn hchildren hnew := compute_ledgered h hl hn hchildren hnew

theorem Reached.ledgered [FiniteUnits α] {config : Config} (h : Reached config s ns)
    (hN : Node.Faithful (s.nodes ns)) (hsize : ∀ n ∈ s.nodes ns, n.size.Nonneg) : s.Ledgered ns :=
  (h.keeps kept_ledgered ⟨[], Pass.ledger_empty config _⟩ hN hsize).2

theorem Tidy.cones (h : s.Tidy ns) {es : List (Epigraph α)} {e : Epigraph α}
    (hes : s.pass.Ledger s.layout (s.nodes ns) es) (hem : e ∈ es) :
    e.slot.holder = .unknown e.unknown ∧ (e.cones.length : Int) = e.tag.size.count ∧
      e.slot.length = e.cones.length ∧ e.argument.rows.size = e.cones.length ∧
      ∀ (k : Nat) row, e.argument.rows[k]? = some row → e.cones[k]? = some
        ⟨"SOC", ⟨e.form.cols, epigraphRows row (.column (e.slot.start.toNat + k))⟩⟩ := by
  have he := hes.carried e hem
  have hu : .unknown e.unknown ∈ s.nodes ns :=
    List.mem_append_left _ (List.mem_map.mpr ⟨_, (hes.held hem).1, rfl⟩)
  have hx := h.sound.family.children _ he.mem e.operand (Node.square_mem_children ..)
  have htag : e.tag.size = e.operand.size := (h.sound.family.formed _ he.mem).1
  have hcount : e.tag.size.count = (e.tag.size.height * e.tag.size.width : Nat) :=
    (h.nonneg _ he.mem : e.tag.size.Nonneg).count_eq
  have hlength : e.cones.length = e.tag.size.count.toNat := by simp [Epigraph.cones, epigraphs]
  have hholder := (h.sound.stacked.slot_of h.faithful h.nonneg hu he.slot).1
  have hslot : e.slot.length = e.cones.length := by
    rw [e.slot.length_eq, hholder, hlength, ← he.size]
    rfl
  have hrows : e.argument.rows.size = e.cones.length := by
    rw [(h.shaped.fills _ hx _ he.argument).rows, hlength, hcount, htag, Int.toNat_natCast]
  refine ⟨hholder, by rw [hlength, hcount, Int.toNat_natCast], hslot, hrows, fun k row hk => ?_⟩
  obtain ⟨hlt, rfl⟩ := Array.getElem?_eq_some_iff.mp hk
  have hk' : k < e.tag.size.count.toNat := hlength ▸ hrows ▸ hlt
  have hks : k < e.slot.length := hslot ▸ hrows ▸ hlt
  rw [Epigraph.cones, Array.getElem?_toList, epigraphs, Array.getElem?_ofFn, dif_pos hk', he.rows]
  simp [Slot.columns, hlt, hks]

/-- Whatever was granted or failed before, the squares of arguments that vary which a pass holds, the
auxiliaries with a form and the blocks of constraints correspond to one another. An auxiliary is
without a form exactly if its slot cannot be laid out. -/
theorem Reached.squares_balanced [FiniteUnits α] {config : Config} (h : Reached config s ns)
    (hN : Node.Faithful (s.nodes ns)) (hsize : ∀ n ∈ s.nodes ns, n.size.Nonneg) :
    ∃ es, s.pass.Ledger s.layout (s.nodes ns) es ∧ (es.map (·.unknown)).Nodup ∧
      (∀ a ∈ s.pass.auxiliaries, a.square?.isSome = true →
        (s.layout.slots.toList.map (·.holder)).count (.unknown a.unknown) = 1) ∧
      ∀ e ∈ es, s.pass.contains e.unknown.id = true ∧ e.slot.holder = .unknown e.unknown ∧
        (e.cones.length : Int) = e.tag.size.count ∧ e.argument.rows.size = e.cones.length ∧
        ∀ (k : Nat) row, e.argument.rows[k]? = some row → e.cones[k]? = some
          ⟨"SOC", ⟨e.form.cols, epigraphRows row (.column (e.slot.start.toNat + k))⟩⟩ := by
  have htidy := h.tidy hN hsize
  obtain ⟨es, hes⟩ := h.ledgered hN hsize
  refine ⟨es, hes, hes.unknowns h.sound.introduced, fun a ha hsome => ?_, fun e he => ?_⟩
  · obtain ⟨q, hq⟩ := Option.isSome_iff_exists.mp hsome
    obtain ⟨hu, -, -, slot, -, -, -, -, hslot, -⟩ := hes.introduced a ha q hq
    rw [← (h.sound.stacked.slot_of hN hsize hu hslot).1]
    exact h.sound.stacked.count_holder (Layout.mem_of_find? hslot).1
  · obtain ⟨hholder, hcount, -, hrows, hcones⟩ := htidy.cones hes he
    exact ⟨(hes.held he).2, hholder, hcount, hrows, hcones⟩

theorem area_balanced : ∃ e, lowered.pass.Carries lowered.layout (lowered.nodes drawn) e ∧
    e.tag.id = area.id ∧ lowered.pass.contains e.unknown.id = true ∧ e.cones.length = 1 := by
  obtain ⟨F, hF, -⟩ := Option.map_eq_some_iff.mp lowered_eq.2.2.1
  obtain ⟨es, hes, -, -, hcones⟩ := reached_lowered.squares_balanced lowered_faithful lowered_nonneg
  obtain ⟨e, he, hid⟩ :=
    hes.squares _ (.unknown side) (area_mem _) (Pass.contains_of_find? hF) nofun
  obtain ⟨hheld, -, hlength, -⟩ := hcones e he
  obtain ⟨htag, -⟩ := Node.square.inj (square_mem_lowered (hes.carried e he).mem)
  rw [htag] at hlength
  exact ⟨e, hes.carried e he, hid, hheld, Int.ofNat.inj hlength⟩

def wide : Unknown :=
  ⟨2, Identity.ofUnknown 1, 1, "wide", ⟨9223372036854775808, 1⟩, .indeterminate⟩

def flooded : List (Node ℚ) := .unknown wide :: drawn

def stranded : Compilation ℚ :=
  ((Request.lower area).serve ((Request.register wide).serve
    ((Request.lower (.unknown side)).serve (untouched 3 2)).2).2).2

theorem reached_stranded : Reached {} stranded flooded := by
  have hmem {s : Compilation ℚ} {n : Node ℚ} (hn : n ∈ flooded) : [n] ⊆ s.nodes flooded :=
    List.cons_subset.mpr ⟨List.mem_append_right _ hn, List.nil_subset _⟩
  have hwide : Reached (α := ℚ) {} (untouched 3 2) flooded :=
    reached_area.step (.unknown "wide" wide.size (.ok .indeterminate)) nofun
  have hside := hwide.ask (.lower (.unknown side)) (hmem (by simp [flooded, drawn]))
    fun t => (Request.ask_eq _ t).1
  have hslot := hside.ask (.register wide) (hmem (by simp [flooded]))
    fun t => (Request.ask_eq _ t).1
  rw [stranded]
  exact hslot.ask (.lower area) (hmem (by simp [flooded, drawn])) fun t => (Request.ask_eq _ t).1

/-- The columns after `wide` cannot be numbered. The auxiliary of `area` stays behind without a form,
and `area` has none either. -/
theorem area_stranded : Reached {} stranded flooded ∧
    (∀ m ∈ stranded.nodes flooded, m.size.Nonneg) ∧
    (∃ a, stranded.pass.auxiliaries = [a] ∧ a.square?.map (·.id) = some area.id ∧
      stranded.pass.contains a.unknown.id = false) ∧
    stranded.pass.contains area.id = false := by
  have hstate : (stranded.pass.auxiliaries.map fun a =>
      (a.square?.map (·.id), a.unknown.size, stranded.pass.contains a.unknown.id)) =
        [(some area.id, .scalar, false)] ∧ stranded.pass.contains area.id = false := by
    decide +kernel
  obtain ⟨a, ha, hentry⟩ := List.map_eq_singleton_iff.mp hstate.1
  obtain ⟨hsquare, hsize, hc⟩ : a.square?.map (·.id) = some area.id ∧ a.unknown.size = .scalar ∧
      stranded.pass.contains a.unknown.id = false := by simpa using hentry
  refine ⟨reached_stranded, fun m hm => ?_, ⟨a, ha, hsquare, hc⟩, hstate.2⟩
  rw [nodes, ha] at hm
  have hm : m = .unknown a.unknown ∨ m = .unknown wide ∨ m = area ∨ m = .unknown side := by
    simpa [flooded, drawn] using hm
  rcases hm with rfl | rfl | rfl | rfl
  · change a.unknown.size.Nonneg
    rw [hsize]
    exact ⟨by decide, by decide⟩
  · exact ⟨by decide, by decide⟩
  · exact ⟨by decide, by decide⟩
  · exact ⟨by decide, by decide⟩

end Compilation

end DisciplinedConvex
