import DisciplinedConvex.Proofs.Ordering
import DisciplinedConvex.Proofs.Runs
import DisciplinedConvex.Proofs.Sessions

open DisciplinedConvex.Task

namespace DisciplinedConvex

variable {α : Type} [Zero α]

namespace Pass

variable {P Q : Pass α}

variable [One α] [Neg α] [Add α] [Mul α]

def Bounds (P : Pass α) (c : Constraint α) : Prop :=
  ∃ row k, (row = .constant 0 ∨ ∃ id X, P.find? id = some X ∧ row ∈ X.rows) ∧ c.cone = "SOC" ∧
    c.form.rows = Compilation.epigraphRows row (.column k)

theorem Bounds.mono {c : Constraint α} (h : P.Bounds c)
    (hPQ : ∀ id F, P.find? id = some F → Q.find? id = some F) : Q.Bounds c := by
  obtain ⟨row, k, hrow, hc⟩ := h
  exact ⟨row, k, hrow.imp_right fun ⟨id, X, hX, hrow⟩ => ⟨id, X, hPQ id X hX, hrow⟩, hc⟩

variable [Scalar α]

/-- What a pass does to itself, one thing at a time. It stores no second form of an identity, and a
strict one stores finite forms only. -/
inductive Step (P : Pass α) : Pass α → Prop
  | hit (count : Nat) : Step P (P.hit count)
  | introduce (a : Auxiliary α) : Step P { P with auxiliaries := a :: P.auxiliaries }
  | store (id : String) (F : Form α) (hnew : P.contains id = false)
      (hfinite : P.config.rejectNonfinite = true → F.isFinite = true) : Step P (P.store id F)
  | demand (cs : Array (Constraint α)) (h : ∀ c ∈ cs, P.Bounds c) : Step P (P.addConstraints cs)

abbrev Steps : Pass α → Pass α → Prop := Relation.ReflTransGen Step

theorem Step.config_eq (h : Step P Q) : Q.config = P.config := by
  cases h <;> rfl

theorem Steps.config_eq (h : Steps P Q) : Q.config = P.config := by
  induction h with
  | refl => rfl
  | tail _ h ih => exact h.config_eq.trans ih

theorem Step.find? (h : Step P Q) {id : String} {F : Form α} (hF : P.find? id = some F) :
    Q.find? id = some F := by
  cases h with
  | hit | introduce | demand => exact hF
  | store id' G hnew =>
    rw [find?_store, if_neg, hF]
    rintro rfl
    rw [contains, hF] at hnew
    cases hnew

theorem Steps.find? (h : Steps P Q) {id : String} {F : Form α} (hF : P.find? id = some F) :
    Q.find? id = some F := by
  induction h with
  | refl => exact hF
  | tail _ h ih => exact h.find? ih

theorem Steps.contains (h : Steps P Q) {id : String} (hc : P.contains id = true) :
    Q.contains id = true := by
  obtain ⟨F, hF⟩ := exists_of_contains hc
  exact contains_of_find? (h.find? hF)

end Pass

namespace Compilation

variable {s s' t : Compilation α} {ns ms : List (Node α)} {n x : Node α}

variable [Scalar α]

structure Linked (s : Compilation α) (ns : List (Node α)) : Prop where
  sound : s.Sound ns
  faithful : Node.Faithful (s.nodes ns)
  known : ∀ id F, s.pass.find? id = some F → ∃ n ∈ s.nodes ns, n.id = id
  children : ∀ n ∈ s.nodes ns, s.pass.contains n.id = true →
    ∀ c ∈ n.children, s.pass.contains c.id = true

theorem Linked.below {m : Node α} (h : s.Linked ns) (hn : n ∈ s.nodes ns)
    (hc : s.pass.contains n.id = true) (hm : m ∈ n.preorder) : s.pass.contains m.id = true := by
  induction n using Node.children_induction with
  | step n ih =>
    rw [Node.preorder_eq] at hm
    rcases List.mem_cons.mp hm with rfl | hm
    · exact hc
    · obtain ⟨c, hcn, hmc⟩ := List.mem_flatMap.mp hm
      exact ih c hcn (h.sound.family.children n hn c hcn) (h.children n hn hc c hcn) hmc

theorem Linked.preorder_subset (h : s.Linked ns) (hn : n ∈ s.nodes ns) : n.preorder ⊆ s.nodes ns :=
  h.sound.family.preorder_subset hn

theorem Linked.extend (h : s.Linked ns) (ht : t.Sound ms) (hN : Node.Faithful (t.nodes ms))
    (hsub : s.nodes ns ⊆ t.nodes ms) (hf : t.pass.forms = s.pass.forms) : t.Linked ms where
  sound := ht
  faithful := hN
  known id F hF := by
    rw [Pass.find?_congr hf] at hF
    obtain ⟨n, hn, he⟩ := h.known id F hF
    exact ⟨n, hsub hn, he⟩
  children n hn hc c hcn := by
    rw [Pass.contains_congr hf] at hc ⊢
    obtain ⟨F, hF⟩ := Pass.exists_of_contains hc
    obtain ⟨m, hm, he⟩ := h.known _ F hF
    exact Pass.contains_children (hN m (hsub hm) n hn he) (h.children m hm (he ▸ hc)) hcn

theorem Same.linked (hst : Same ns s t) (h : s.Linked ns) : t.Linked ns :=
  h.extend hst.sound (hst.nodes_eq ▸ h.faithful) (hst.nodes_eq ▸ List.Subset.refl _)
    (congrArg Pass.forms hst.pass)

theorem Sound.store (h : s.Sound ns) (id : String) (F : Form α) :
    Sound { s with pass := s.pass.store id F } ns :=
  ⟨h.toSound, h.stacked, h.introduced⟩

theorem Linked.store (h : s.Linked ns) (hn : n ∈ s.nodes ns)
    (hchildren : ∀ c ∈ n.children, s.pass.contains c.id = true) (F : Form α) :
    Linked { s with pass := s.pass.store n.id F } ns where
  sound := h.sound.store n.id F
  faithful := h.faithful
  known id G hG := by
    rw [Pass.find?_store] at hG
    split at hG
    · next he => exact ⟨n, hn, he⟩
    · exact h.known id G hG
  children m hm hc c hcm := by
    apply Pass.contains_store
    rcases Pass.eq_or_contains_of_store hc with he | hc
    · exact Pass.contains_children (h.faithful n hn m hm he) hchildren hcm
    · exact h.children m hm hc c hcm

theorem Linked.demand (h : s.Linked ns) (cs : Array (Constraint α)) :
    Linked { s with pass := s.pass.addConstraints cs } ns :=
  h.extend ⟨h.sound.toSound, h.sound.stacked, h.sound.introduced⟩ h.faithful (List.Subset.refl _) rfl

theorem Linked.hit (h : s.Linked ns) (count : Nat) :
    Linked { s with pass := s.pass.hit count } ns :=
  h.extend ⟨h.sound.toSound, h.sound.stacked, h.sound.introduced⟩ h.faithful (List.Subset.refl _) rfl

theorem Linked.registered (h : s.Linked ns) {u : Unknown} (hu : .unknown u ∈ s.nodes ns) :
    (s.registered u).Linked ns :=
  h.extend (h.sound.register hu) h.faithful (List.Subset.refl _) rfl

theorem record_reads {find : Task (Compilation α) (Form α)} {Q : Form α → Prop} (hs : s.Sound ns)
    (h : Reads ns s find Q) : (record n find).Ends s (Recorded ns n s
      (fun F => Q F ∧ (s.pass.config.rejectNonfinite = true → F.isFinite = true)) fun _ => True) := by
  rw [record_ends]
  refine (h s hs.same).imp ?_
  rintro (e | F) t ⟨hst, hQ, -⟩
  · exact ⟨t, hst, trivial, rfl⟩
  · dsimp only
    split
    · exact ⟨t, hst, trivial, rfl⟩
    · next hfinite =>
      refine ⟨t, hst, ⟨hQ F rfl, fun hstrict => ?_⟩, rfl⟩
      simpa [hst.pass, hstrict] using hfinite

abbrev Silent (ns : List (Node α)) (s : Compilation α) (task : Task (Compilation α) (Form α)) :
    Prop :=
  Reads ns s task fun _ => True

section Silent

variable {find left right : Task (Compilation α) (Form α)}

theorem silent_lift (x : Except Failure (Form α)) : Silent ns s (liftM x) :=
  (tries_lift x fun _ _ => trivial).imp fun _ _ => trivial

theorem silent_lookup {id : String} (hc : s.pass.contains id = true) :
    Silent ns s (lookup id find) := by
  obtain ⟨F, hF⟩ := Pass.exists_of_contains hc
  exact (tries_lookup hF).imp fun _ _ => trivial

theorem silent_lowerConstant (A : Dense α) : Silent ns s (lowerConstant A) :=
  (tries_width).bind fun _ _ => tries_pure trivial

variable [Add α] [Mul α]

theorem silent_multiple (h : Silent ns s find) : Silent ns s (multiple n find) := by
  refine h.bind fun F _ => (tries_lift _).bind fun A _ => ?_
  split
  · exact tries_pure trivial
  · split
    · exact tries_pure trivial
    · exact tries_throw _

theorem silent_lowerProduct {l r : Node α} (size : Size) (hl : l ∈ s.nodes ns) (hr : r ∈ s.nodes ns)
    (hleft : Silent ns s left) (hright : Silent ns s right) :
    Silent ns s (lowerProduct size l r left right) := by
  unfold lowerProduct
  split
  · refine (tries_isConstant hl).bind fun b _ => ?_
    split
    · exact silent_multiple hright
    · refine (tries_isConstant hr).bind fun b _ => ?_
      split
      · exact silent_multiple hleft
      · exact tries_throw _
  · refine (tries_isConstant hl).bind fun b _ => ?_
    split
    · exact hright.bind fun F _ => (tries_lift _).bind fun n _ => (tries_lift _).bind fun A _ =>
        silent_lift _
    · refine (tries_isConstant hr).bind fun b _ => ?_
      split
      · exact hleft.bind fun F _ => (tries_lift _).bind fun B _ => (tries_lift _).bind fun n _ =>
          silent_lift _
      · exact tries_throw _

end Silent

variable [One α]

def Columns (u : Unknown) (F : Form α) : Prop :=
  ∃ start count : Nat, (count : Int) = u.size.count ∧
    F.rows = Array.ofFn fun i : Fin count => .column (start + i)

theorem reads_columns (u : Unknown) : Reads ns s (slotColumns (α := α) u) (Columns u) := by
  refine tries_get.bind fun t _ => (tries_lift _).bind fun slot _ => (tries_lift _).bind
    fun n hn => (tries_lift _).bind fun length _ => (tries_width).bind fun cols _ => ?_
  refine tries_guard fun _ => tries_guard fun _ => tries_guard fun _ => tries_pure ?_
  exact ⟨slot.start.toNat, n, ((Extent.vector_eq_ok_iff _ _).mp hn).1.symm, rfl⟩

theorem record_columns (hs : s.Sound ns) {u : Unknown} (hu : .unknown u ∈ s.nodes ns) :
    (record (.unknown u) (lowerUnknown (α := α) u)).Ends s
      (Recorded ns (.unknown u) (s.registered u) (fun F => Columns u F ∧
        (s.pass.config.rejectNonfinite = true → F.isFinite = true)) fun _ => True) := by
  have hs₁ : (s.registered u).Sound ns := hs.register hu
  rw [lowerUnknown, record_bind, register, ends_bind, ends_modify]
  exact record_reads hs₁ (reads_columns u)

structure Fresh (s : Compilation α) (ns : List (Node α)) (u : Unknown) : Prop where
  faithful : Node.Faithful (.unknown u :: s.nodes ns)
  not_mem : .unknown u ∉ s.nodes ns
  free : s.pass.contains u.id = false

omit [Zero α] [Scalar α] [One α] in
theorem Fresh.id_ne {u : Unknown} (h : s.Fresh ns u) {m : Node α} (hm : m ∈ s.nodes ns) :
    m.id ≠ u.id := by
  intro he
  have hal := h.faithful m (List.mem_cons_of_mem _ hm) _ (List.mem_cons_self ..) he
  exact h.not_mem (hal.unknown_eq ▸ hm)

variable [Neg α] [Add α] [Mul α]

/-- States in which a node has what its form needs besides the forms of its children: an unknown its
slot, and the square of an argument that varies an unknown of its own, with a form and with cones. -/
inductive Prepared (ns : List (Node α)) (n : Node α) (s : Compilation α) : Compilation α → Prop
  | plain {t : Compilation α} (hseat : n.seat? = none) (hst : Same ns s t) : Prepared ns n s t
  | placed {t : Compilation α} (u : Unknown) (hn : n = .unknown u)
      (hst : Same ns (s.registered u) t) : Prepared ns n s t
  | bounded {q t : Compilation α} (tag : Tag) (x : Node α) (hn : n = .square tag x)
      (hv : x.vexity ≠ .constant) (hsq : Same ns s q) (hu : q.Fresh ns (q.nextAuxiliary x.size))
      (hqt : Same ns (q.introduced (some n) x.size) t) (T : Form α)
      (hT : s.pass.config.rejectNonfinite = true → T.isFinite = true)
      (cs : Array (Constraint α)) (hcs : ∀ c ∈ cs, s.pass.Bounds c) :
      Prepared ns n s { t with pass := (t.pass.store (q.nextAuxiliary x.size).id T).addConstraints cs }

inductive Turn (ns : List (Node α)) (n : Node α) (s : Compilation α) :
    Except Failure (Form α) → Compilation α → Prop
  | unasked {t : Compilation α} (hst : Same ns s t) (f : Failure) : Turn ns n s (.error f) t
  | introduced {q t : Compilation α} (tag : Tag) (x : Node α) (hn : n = .square tag x)
      (hv : x.vexity ≠ .constant) (hsq : Same ns s q) (hu : q.Fresh ns (q.nextAuxiliary x.size))
      (hqt : Same ns (q.introduced (some n) x.size) t) (f : Failure) : Turn ns n s (.error f) t
  | stopped {t : Compilation α} (h : Prepared ns n s t) (f : Failure) : Turn ns n s (.error f) t
  | stored {t : Compilation α} (h : Prepared ns n s t) (F : Form α)
      (hF : s.pass.config.rejectNonfinite = true → F.isFinite = true) :
      Turn ns n s (.ok F) { t with pass := t.pass.store n.id F }

theorem Recorded.turn {Q : Form α → Prop} {E : Failure → Prop} {r : Except Failure (Form α)}
    {p : Compilation α} (hp : ∀ t, Same ns p t → Prepared ns n s t)
    (h : Recorded ns n p
      (fun F => Q F ∧ (s.pass.config.rejectNonfinite = true → F.isFinite = true)) E r s') :
    Turn ns n s r s' := by
  obtain ⟨t, hst, hr⟩ := h
  cases r with
  | error f =>
    obtain ⟨-, rfl⟩ := hr
    exact .stopped (hp _ hst) f
  | ok F =>
    obtain ⟨⟨-, hF⟩, rfl⟩ := hr
    exact .stored (hp _ hst) F hF

omit [Scalar α] in
theorem Pass.bounds_epigraphs {P : Pass α} {id : String} {X X' T T' : Form α} {u : Unknown}
    {count : Nat} (hX : P.find? id = some X) (hX' : X'.rows = X.rows) (hT' : T'.rows = T.rows)
    (hT : Columns u T) (hcount : (count : Int) = u.size.count) :
    ∀ c ∈ epigraphs count X' T', P.Bounds c := by
  intro c hc
  obtain ⟨i, rfl⟩ := Array.mem_ofFn.mp hc
  obtain ⟨start, length, hlength, hrows⟩ := hT
  have hi : i.val < length := by omega
  refine ⟨X.rows.getD i (.constant 0), start + i, ?_, rfl, ?_⟩
  · by_cases hx : i.val < X.rows.size
    · rw [Array.getD_eq_getD_getElem?, Array.getElem?_eq_getElem hx]
      exact .inr ⟨id, X, hX, Array.getElem_mem hx⟩
    · rw [Array.getD_eq_getD_getElem?, Array.getElem?_eq_none (Nat.le_of_not_lt hx)]
      exact .inl rfl
  · rw [hX', hT', hrows]
    simp [Array.getD_eq_getD_getElem?, hi]

theorem Squared.turn {tag : Tag} {X : Form α} {r : Except Failure (Form α)}
    (h : Squared ns (.square tag x) x X s r s') (hsize : tag.size = x.size)
    (hv : x.vexity ≠ .constant) (hX : s.pass.find? x.id = some X) :
    Turn ns (.square tag x) s r s' := by
  cases h with
  | unasked hst => exact .unasked hst _
  | @bounded q r₂ r s₂ s' hsq hN hnew hfree h₂ h =>
    let u := q.nextAuxiliary x.size
    have hu : q.Fresh ns u := ⟨hN, hnew, hfree⟩
    have hs₁ : (q.introduced (some (.square tag x)) x.size).Sound ns := hsq.sound.introduce _ _
    have hrec := record_columns hs₁ (u := u) (List.mem_cons_self ..)
    have hconfig : (q.introduced (some (.square tag x)) x.size).pass.config = s.pass.config :=
      (congrArg Pass.config hsq.pass : q.pass.config = s.pass.config)
    rw [registered_introduced, hconfig, Ends, h₂] at hrec
    obtain ⟨t, hqt, hrec⟩ := hrec
    cases r₂ with
    | error f =>
      obtain ⟨-, rfl⟩ := hrec
      cases h
      exact .introduced tag x rfl hv hsq hu hqt f
    | ok T =>
      obtain ⟨⟨hcolumns, hfinite⟩, rfl⟩ := hrec
      have hfinite' {T' : Form α} {n : Int} (hT' : T.withColumns n = .ok T')
          (hstrict : s.pass.config.rejectNonfinite = true) : T'.isFinite = true := by
        rw [Form.isFinite, (Form.withColumns_eq_ok_iff.mp hT').1]
        exact hfinite hstrict
      cases h with
      | narrow T f =>
        have hprepared := Prepared.bounded tag x rfl hv hsq hu hqt T hfinite #[] (by simp)
        rw [Pass.addConstraints, Array.append_empty] at hprepared
        exact .stopped hprepared f
      | refused T X' T' hT' hrefused =>
        obtain ⟨hstrict, hinfinite⟩ := Bool.and_eq_true_iff.mp hrefused
        have hstrict : s.pass.config.rejectNonfinite = true := by
          rw [← hconfig, ← congrArg Pass.config hqt.pass]
          exact hstrict
        rw [hfinite' hT' hstrict] at hinfinite
        cases hinfinite
      | stored T X' T' hX' hT' =>
        have hcount : ((tag.size.count.toNat : Nat) : Int) = u.size.count := by
          obtain ⟨start, count, hcount, -⟩ := hcolumns
          have hu : u.size = tag.size := hsize.symm
          rw [hu] at hcount ⊢
          omega
        exact .stored (.bounded tag x rfl hv hsq hu hqt T hfinite _ (Pass.bounds_epigraphs hX
          (Form.withColumns_eq_ok_iff.mp hX').1 (Form.withColumns_eq_ok_iff.mp hT').1 hcolumns
          hcount)) T' (hfinite' hT')

theorem compute_turn (h : s.Linked ns) (hn : n ∈ s.nodes ns)
    (hchildren : ∀ c ∈ n.children, s.pass.contains c.id = true) :
    (compute n).Ends s fun r s' => Node.Faithful (s'.nodes ns) → Turn ns n s r s' := by
  have hplain {find : Task (Compilation α) (Form α)} (hseat : n.seat? = none)
      (hfind : Silent ns s find) : (record n find).Ends s fun r s' => Turn ns n s r s' :=
    (record_reads h.sound hfind).imp fun _ _ hr => hr.turn fun _ => .plain hseat
  have hmem {c : Node α} (hc : c ∈ n.children) : c ∈ s.nodes ns :=
    h.sound.family.children n hn c hc
  cases n with
  | constant c => exact (hplain rfl (silent_lowerConstant _)).imp fun _ _ ht _ => ht
  | unknown u =>
    exact (record_columns h.sound hn).imp fun _ _ hr _ => hr.turn fun _ => .placed u rfl
  | product tag l r =>
    have hl := Node.left_mem_children tag l r
    have hr := Node.right_mem_children tag l r
    exact (hplain rfl (silent_lowerProduct _ (hmem hl) (hmem hr) (silent_lookup (hchildren l hl))
      (silent_lookup (hchildren r hr)))).imp fun _ _ ht _ => ht
  | weighted tag c x =>
    have hx := Node.weighted_mem_children tag c x
    exact (hplain rfl ((silent_lookup (hchildren x hx)).bind fun _ _ => silent_lift _)).imp
      fun _ _ ht _ => ht
  | square tag x =>
    have hx := Node.square_mem_children tag x
    by_cases hv : x.vexity = .constant
    · refine (hplain (if_pos hv) ?_).imp fun _ _ ht _ => ht
      refine (tries_isConstant (hmem hx)).bind fun b hb => ?_
      rw [if_pos (hb.mpr hv)]
      exact (tries_lift _).bind fun A _ => silent_lowerConstant A
    · obtain ⟨X, hX⟩ := Pass.exists_of_contains (hchildren x hx)
      exact (record_square_ends h.sound h.known (hmem hx) hv hX _).imp fun _ _ hr hN =>
        (hr hN).turn (h.sound.family.formed _ hn).1 hv hX
  | bare => exact (h.sound.family.formed _ hn).elim

structure Advances (ns : List (Node α)) (s s' : Compilation α) : Prop where
  linked : s'.Linked ns
  nodes : s.nodes ns ⊆ s'.nodes ns
  steps : Pass.Steps s.pass s'.pass

theorem Linked.advances (h : s.Linked ns) : Advances ns s s := ⟨h, List.Subset.refl _, .refl⟩

theorem Advances.trans (h : Advances ns s t) (h' : Advances ns t s') : Advances ns s s' :=
  ⟨h'.linked, List.Subset.trans h.nodes h'.nodes, h.steps.trans h'.steps⟩

theorem Same.advances (hst : Same ns s t) (h : s.Linked ns) : Advances ns s t :=
  ⟨hst.linked h, hst.nodes_eq ▸ List.Subset.refl _, hst.pass ▸ .refl⟩

theorem Linked.introduced (h : s.Linked ns) (square? : Option (Node α)) (size : Size)
    (hN : Node.Faithful ((s.introduced square? size).nodes ns)) :
    Advances ns s (s.introduced square? size) :=
  ⟨h.extend (h.sound.introduce _ _) hN (List.subset_cons_self ..) rfl, List.subset_cons_self ..,
    .single (.introduce _)⟩

theorem Prepared.advances (h : Prepared ns n s t) (hs : s.Linked ns) (hn : n ∈ s.nodes ns) :
    Advances ns s t := by
  cases h with
  | plain hseat hst => exact hst.advances hs
  | placed u hnu hst =>
    have hu := hs.registered (hnu ▸ hn)
    exact ⟨(hst.linked hu), hst.nodes_eq ▸ List.Subset.refl _, hst.pass ▸ .refl⟩
  | @bounded q t tag x hnx hv hsq hu hqt T hT cs hcs =>
    let u := q.nextAuxiliary x.size
    have hq := hsq.linked hs
    have hintroduced := (hsq.advances hs).trans (hq.introduced (some n) _ hu.faithful)
    have ht := hintroduced.trans (hqt.advances hintroduced.linked)
    have hut : .unknown u ∈ t.nodes ns := hqt.nodes_eq ▸ List.mem_cons_self ..
    have hfree : t.pass.contains u.id = false := by
      rw [hqt.pass]
      exact hu.free
    have hstored := Pass.Step.store (P := t.pass) u.id T hfree fun hstrict =>
      hT (ht.steps.config_eq ▸ hstrict)
    have hlinked := (ht.linked.store hut (by rintro _ ⟨⟩) T).demand cs
    refine ⟨hlinked, ht.nodes, ?_⟩
    refine (ht.steps.tail hstored).tail (.demand cs fun c hc => (hcs c hc).mono fun id F hF => ?_)
    exact hstored.find? (ht.steps.find? hF)

theorem Prepared.added (h : Prepared ns n s t) {id : String} (hc : t.pass.contains id = true) :
    s.pass.contains id = true ∨
      ∃ u, .unknown u ∈ t.nodes ns ∧ s.Fresh ns u ∧ u.id = id := by
  cases h with
  | plain hseat hst => exact .inl (hst.pass ▸ hc)
  | placed u hnu hst => exact .inl (hst.pass ▸ hc)
  | @bounded q t tag x hnx hv hsq hu hqt T hT cs hcs =>
    rcases Pass.eq_or_contains_of_store hc with he | hc
    · refine .inr ⟨_, hqt.nodes_eq ▸ List.mem_cons_self .., ?_, he⟩
      exact ⟨hsq.nodes_eq ▸ hu.faithful, hsq.nodes_eq ▸ hu.not_mem, hsq.pass ▸ hu.free⟩
    · rw [hqt.pass] at hc
      exact .inl (hsq.pass ▸ hc)

structure Due (ns : List (Node α)) (n : Node α) (s : Compilation α) : Prop where
  linked : s.Linked ns
  mem : n ∈ s.nodes ns
  children : ∀ c ∈ n.children, s.pass.contains c.id = true
  new : s.pass.contains n.id = false

theorem Due.not_contains (h : Due ns n s) (ht : Prepared ns n s t) :
    t.pass.contains n.id = false := by
  refine Bool.eq_false_iff.mpr fun hc => ?_
  rcases ht.added hc with hc | ⟨u, -, hu, he⟩
  · rw [h.new] at hc
    cases hc
  · exact hu.id_ne h.mem he.symm

theorem Turn.advances {r : Except Failure (Form α)} (h : Turn ns n s r s') (hdue : Due ns n s) :
    Advances ns s s' := by
  cases h with
  | unasked hst f => exact hst.advances hdue.linked
  | @introduced q t tag x hnx hv hsq hu hqt f =>
    have hintroduced := (hsq.advances hdue.linked).trans
      ((hsq.linked hdue.linked).introduced (some n) _ hu.faithful)
    exact hintroduced.trans (hqt.advances hintroduced.linked)
  | stopped ht f => exact ht.advances hdue.linked hdue.mem
  | @stored t ht F hF =>
    have hprepared := ht.advances hdue.linked hdue.mem
    refine ⟨hprepared.linked.store (hprepared.nodes hdue.mem) (fun c hc =>
      hprepared.steps.contains (hdue.children c hc)) F, hprepared.nodes, ?_⟩
    exact hprepared.steps.tail (.store n.id F (hdue.not_contains ht) fun hstrict =>
      hF (hprepared.steps.config_eq ▸ hstrict))

theorem Turn.find? {F : Form α} (h : Turn ns n s (.ok F) s') : s'.pass.find? n.id = some F := by
  cases h with
  | stored ht F hF => rw [Pass.find?_store, if_pos rfl]

theorem Turn.added {F : Form α} (h : Turn ns n s (.ok F) s') {id : String}
    (hc : s'.pass.contains id = true) : s.pass.contains id = true ∨ id = n.id ∨
      ∃ u, .unknown u ∈ s'.nodes ns ∧ .unknown u ∉ s.nodes ns ∧ u.id = id := by
  cases h with
  | stored ht F hF =>
    rcases Pass.eq_or_contains_of_store hc with he | hc
    · exact .inr (.inl he.symm)
    · rcases ht.added hc with hc | ⟨u, hu, hfresh, he⟩
      · exact .inl hc
      · exact .inr (.inr ⟨u, hu, hfresh.not_mem, he⟩)

inductive Turns (ns : List (Node α)) :
    List (Node α) → Compilation α → Except Failure Unit → Compilation α → Prop
  | done {s : Compilation α} (h : s.Linked ns) : Turns ns [] s (.ok ()) s
  | stopped {n : Node α} {rest : List (Node α)} {s s' : Compilation α} {f : Failure}
      (hdue : Due ns n s) (h : Turn ns n s (.error f) s') : Turns ns (n :: rest) s (.error f) s'
  | next {n : Node α} {rest : List (Node α)} {s t s' : Compilation α} {F : Form α}
      {r : Except Failure Unit} (hdue : Due ns n s) (h : Turn ns n s (.ok F) t)
      (hrest : Turns ns rest t r s') : Turns ns (n :: rest) s r s'

variable {order : List (Node α)}

theorem Turns.advances {r : Except Failure Unit} (h : Turns ns order s r s') :
    Advances ns s s' := by
  induction h with
  | done h => exact h.advances
  | stopped hdue h => exact h.advances hdue
  | next hdue h _ ih => exact (h.advances hdue).trans ih

theorem forM_turns (order : List (Node α)) (h : s.Linked ns) (hsub : order ⊆ s.nodes ns)
    (hnew : ∀ m ∈ order, s.pass.contains m.id = false) (hready : Ready s.pass order) :
    (order.forM fun m => discard (compute m)).Ends s fun r s' =>
      Node.Faithful (s'.nodes ns) → Turns ns order s r s' := by
  induction order generalizing s with
  | nil => exact fun _ => .done h
  | cons m rest ih =>
    have hdue : Due ns m s := by
      refine ⟨h, hsub (List.mem_cons_self ..), fun c hc => ?_, hnew m (List.mem_cons_self ..)⟩
      exact ((hready [] m rest rfl).1 c hc).resolve_right fun ⟨_, hd, _⟩ =>
        absurd hd List.not_mem_nil
    have hgoes : Goes ns (fun _ => False) m.preorder (compute m) := goes_compute m not_false
    rw [List.forM, ends_bind, ends_discard]
    apply ((compute_turn h hdue.mem hdue.children).and
      (hgoes s (h.preorder_subset hdue.mem) (by simp))).imp
    rintro r s₁ ⟨hturn, hmoves⟩
    cases r with
    | error f => exact fun hN => .stopped hdue (hturn hN)
    | ok F =>
      have hrest : rest ⊆ s₁.nodes ns := fun _ hr =>
        hmoves.nodes_subset (hsub (List.mem_cons_of_mem _ hr))
      -- a clash of identities that has come about by now does not go away
      by_cases hN₁ : Node.Faithful (s₁.nodes ns)
      · have hturn := hturn hN₁
        have hadvances := hturn.advances hdue
        obtain ⟨hnew₁, hready₁⟩ := hready.next hN₁ hadvances.nodes hsub hnew
          (fun id => hadvances.steps.contains) (Pass.contains_of_find? hturn.find?)
          fun id => hturn.added
        exact (ih hadvances.linked hrest hnew₁ hready₁).imp fun _ _ hturns hN =>
          .next hdue hturn (hturns hN)
      · have hturns : Goes ns (fun _ => False) (s₁.nodes ns)
            (rest.forM fun m => discard (compute m)) :=
          goes_turns rest (fun m hm => (h.sound.moves hmoves).family.preorder_subset (hrest hm))
            fun _ _ => not_false
        apply (hturns s₁ (List.Subset.refl _) (by simp)).imp
        exact fun _ _ hm hN' => absurd (hN'.mono hm.nodes_subset) hN₁

def pending (s : Compilation α) (n : Node α) : Node.Walk α :=
  n.postOrder fun m => s.pass.contains m.id

def walked (s : Compilation α) (n : Node α) : Compilation α :=
  { s with pass := s.pass.hit ((s.pending n).met.countP fun m => s.pass.contains m.id) }

inductive Run (ns : List (Node α)) (n : Node α) (s : Compilation α) :
    Except Failure (Form α) → Compilation α → Prop
  | found {F : Form α} (hF : s.pass.find? n.id = some F) :
      Run ns n s (.ok F) { s with pass := s.pass.hit 1 }
  | stopped {s' : Compilation α} {f : Failure} (hnew : s.pass.contains n.id = false)
      (h : Turns ns (s.pending n).order (s.walked n) (.error f) s') : Run ns n s (.error f) s'
  | computed {s' : Compilation α} {F : Form α} (hnew : s.pass.contains n.id = false)
      (h : Turns ns (s.pending n).order (s.walked n) (.ok ()) s')
      (hF : s'.pass.find? n.id = some F) : Run ns n s (.ok F) s'

theorem Turns.find? (h : Turns ns order s (.ok ()) s') {m : Node α} (hm : m ∈ order) :
    ∃ F, s'.pass.find? m.id = some F := by
  generalize hr : (.ok () : Except Failure Unit) = r at h
  induction h with
  | done => exact absurd hm List.not_mem_nil
  | stopped => cases hr
  | next hdue h hrest ih =>
    rcases List.mem_cons.mp hm with rfl | hm
    · exact ⟨_, hrest.advances.steps.find? h.find?⟩
    · exact ih hm hr

theorem lower_run (h : s.Linked ns) (hn : n ∈ s.nodes ns) :
    (lower n).Ends s fun r s' => Node.Faithful (s'.nodes ns) → Run ns n s r s' := by
  rw [lower, ends_bind, ends_get]
  dsimp only
  cases hfind : s.pass.find? n.id with
  | some F => exact fun _ => .found hfind
  | none =>
    simp only [modifyPass, ends_bind, ends_modify]
    have hnew : s.pass.contains n.id = false := by
      rw [Pass.contains, hfind]
      rfl
    have hsub : (s.pending n).order ⊆ (s.walked n).nodes ns := fun m hm =>
      h.preorder_subset hn (Node.mem_preorder_of_mem_postOrder hm)
    have hready : Ready (s.walked n).pass (s.pending n).order :=
      ready_postOrder (h.sound.family.idsWeigh h.faithful hn)
    refine (forM_turns _ (h.hit _) hsub (fun m hm => Node.skip_of_mem_postOrder hm) hready).imp ?_
    rintro (f | ⟨⟩) s' hturns
    · exact fun hN => .stopped hnew (hturns hN)
    · intro hN
      -- the root comes last
      obtain ⟨pre, hpre⟩ : ∃ pre, (s.pending n).order = pre ++ [n] := Node.postOrder_eq_append hnew
      have hroot : n ∈ (s.pending n).order := by
        rw [hpre]
        exact List.mem_append_right _ (List.mem_singleton_self n)
      obtain ⟨F, hF⟩ := (hturns hN).find? hroot
      have hget : s'.pass.get n.id = .ok F := by rw [Pass.get, hF]
      change Run ns n s (s'.pass.get n.id) s'
      rw [hget]
      exact .computed hnew (hturns hN) hF

theorem Run.advances {r : Except Failure (Form α)} (h : Run ns n s r s') (hs : s.Linked ns) :
    Advances ns s s' := by
  have hhit (count : Nat) : Advances ns s { s with pass := s.pass.hit count } :=
    ⟨hs.hit count, List.Subset.refl _, .single (.hit count)⟩
  cases h with
  | found hF => exact hhit 1
  | stopped hnew h => exact (hhit _).trans h.advances
  | computed hnew h hF => exact (hhit _).trans h.advances

theorem Run.find? {F : Form α} (h : Run ns n s (.ok F) s') : s'.pass.find? n.id = some F := by
  cases h with
  | found hF => exact hF
  | computed hnew h hF => exact hF

inductive GatedRun (ns : List (Node α)) (n : Node α) (s : Compilation α) :
    Except Failure (Form α) → Compilation α → Prop
  | refused {t : Compilation α} (hst : Same ns s t) (f : Failure) : GatedRun ns n s (.error f) t
  | lowered {t s' : Compilation α} {r : Except Failure (Form α)} (hst : Same ns s t)
      (h : Run ns n t r s') : GatedRun ns n s (r.bind (·.withColumns s'.layout.size)) s'

theorem conicForm_run (h : s.Linked ns) (hn : n ∈ s.nodes ns) :
    (conicForm n).Ends s fun r s' => Node.Faithful (s'.nodes ns) → GatedRun ns n s r s' := by
  have hlower {t : Compilation α} (hst : Same ns s t) : (do
      let F ← lower n
      F.withColumns (← get).layout.size : Task (Compilation α) (Form α)).Ends t
        fun r s' => Node.Faithful (s'.nodes ns) → GatedRun ns n s r s' := by
    rw [ends_bind]
    apply (lower_run (hst.linked h) (hst.nodes_eq ▸ hn)).imp
    rintro (e | F) s' hr
    · exact fun hN => .lowered hst (hr hN)
    · exact fun hN => .lowered hst (hr hN)
  rw [conicForm, ends_bind, ends_get]
  dsimp only
  split
  · rw [ends_bind]
    apply (onVerdicts_same h.sound (Node.extends_askVexity n) (Workspace.asks_vexity hn)).imp
    rintro (e | v) t hst
    · exact fun _ => .refused hst e
    · dsimp only
      split
      · exact fun _ => .refused hst _
      · exact hlower hst
  · exact hlower h.sound.same

theorem GatedRun.advances {r : Except Failure (Form α)} (h : GatedRun ns n s r s')
    (hs : s.Linked ns) : Advances ns s s' := by
  cases h with
  | refused hst f => exact hst.advances hs
  | lowered hst h => exact (hst.advances hs).trans (h.advances (hst.linked hs))

theorem GatedRun.find? {F : Form α} (h : GatedRun ns n s (.ok F) s') :
    ∃ G, s'.pass.find? n.id = some G ∧ F.rows = G.rows := by
  generalize hr : (.ok F : Except Failure (Form α)) = r at h
  cases h with
  | refused hst f => cases hr
  | lowered hst h =>
    obtain ⟨G, rfl, hG⟩ := bind_eq_ok hr.symm
    exact ⟨G, h.find?, Form.rows_of_withColumns hG⟩

inductive Series (ns : List (Node α)) :
    List (Node α) → Compilation α → Except Failure (List (Form α)) → Compilation α → Prop
  | done {s : Compilation α} (h : s.Linked ns) : Series ns [] s (.ok []) s
  | stopped {e : Node α} {es : List (Node α)} {s s' : Compilation α} {f : Failure}
      (hs : s.Linked ns) (he : e ∈ s.nodes ns) (h : GatedRun ns e s (.error f) s') :
      Series ns (e :: es) s (.error f) s'
  | next {e : Node α} {es : List (Node α)} {s t s' : Compilation α} {F : Form α}
      {r : Except Failure (List (Form α))} (hs : s.Linked ns) (he : e ∈ s.nodes ns)
      (h : GatedRun ns e s (.ok F) t) (hes : Series ns es t r s') :
      Series ns (e :: es) s (r.map (F :: ·)) s'

theorem mapM_series {es : List (Node α)} (h : s.Linked ns) (hes : es ⊆ s.nodes ns) :
    (es.mapM conicForm).Ends s fun r s' => Node.Faithful (s'.nodes ns) → Series ns es s r s' := by
  induction es generalizing s with
  | nil => exact fun _ => .done h
  | cons e es ih =>
    obtain ⟨he, hes⟩ := List.cons_subset.mp hes
    have hgoes : Goes ns (fun _ => False) e.preorder (conicForm e) := goes_conicForm e
    rw [List.mapM_cons, ends_bind]
    apply ((conicForm_run h he).and (hgoes s (h.preorder_subset he) nofun)).imp
    rintro (f | F) s₁ ⟨hrun, hmoves⟩
    · exact fun hN => .stopped h he (hrun hN)
    · have hes₁ : es ⊆ s₁.nodes ns := List.Subset.trans hes hmoves.nodes_subset
      dsimp only
      rw [ends_bind]
      by_cases hN₁ : Node.Faithful (s₁.nodes ns)
      · apply (ih ((hrun hN₁).advances h).linked hes₁).imp
        rintro (f | Fs) s₂ hseries
        · exact fun hN => .next h he (hrun hN₁) (hseries hN)
        · exact fun hN => .next h he (hrun hN₁) (hseries hN)
      · have hrest : Goes ns (fun _ => False) (s₁.nodes ns) (es.mapM conicForm) :=
          Lowered.goes_mapM fun e he => (h.sound.moves hmoves).family.preorder_subset (hes₁ he)
        apply (hrest s₁ (List.Subset.refl _) nofun).imp
        rintro (f | Fs) s₂ hm
        · exact fun hN => absurd (hN.mono hm.nodes_subset) hN₁
        · exact fun hN => absurd (hN.mono hm.nodes_subset) hN₁

theorem Series.advances {es : List (Node α)} {r : Except Failure (List (Form α))}
    (h : Series ns es s r s') : Advances ns s s' := by
  induction h with
  | done h => exact h.advances
  | stopped hs he h => exact h.advances hs
  | next hs he h _ ih => exact (h.advances hs).trans ih

theorem Series.held {es : List (Node α)} {Fs : List (Form α)} (h : Series ns es s (.ok Fs) s')
    {F : Form α} (hF : F ∈ Fs) : ∃ id G, s'.pass.find? id = some G ∧ F.rows = G.rows := by
  generalize hr : (.ok Fs : Except Failure (List (Form α))) = r at h
  induction h generalizing Fs with
  | done =>
    obtain rfl := Except.ok.inj hr
    exact absurd hF List.not_mem_nil
  | stopped => cases hr
  | @next e es s t s' G r hs he h hes ih =>
    obtain ⟨Gs, rfl, rfl⟩ : ∃ Gs, r = .ok Gs ∧ G :: Gs = Fs := by
      cases r with
      | error f => cases hr
      | ok Gs => exact ⟨Gs, rfl, (Except.ok.inj hr).symm⟩
    rcases List.mem_cons.mp hF with rfl | hF
    · obtain ⟨K, hK, hrows⟩ := h.find?
      exact ⟨e.id, K, hes.advances.steps.find? hK, hrows⟩
    · exact ih hF rfl

theorem Linked.serve (h : s.Linked ns) (r : Request α) (hr : r.operands ⊆ s.nodes ns)
    (hN : Node.Faithful ((r.serve s).2.nodes (r.built s ++ ns))) :
    (r.serve s).2.Linked (r.built s ++ ns) ∧ Pass.Steps s.pass (r.serve s).2.pass := by
  have hserved := serve_ends r h.sound hr
  by_cases hlocal : r.Local
  · have hpass : (r.serve s).2.pass = s.pass := by rw [(hlocal.serve_congr rfl).2]
    have hgrow := List.Subset.trans hserved.grows.nodes_subset (nodes_subset_append _ (r.built s) ns)
    exact ⟨h.extend hserved.sound hN hgrow (congrArg Pass.forms hpass), hpass ▸ .refl⟩
  · have hasked {β : Type} (task : Task (Compilation α) β) (hserve : r.serve = Request.ask task)
        (ht : task.Ends s fun _ s' => Node.Faithful (s'.nodes ns) → Advances ns s s') :
        (r.serve s).2.Linked (r.built s ++ ns) ∧ Pass.Steps s.pass (r.serve s).2.pass := by
      obtain ⟨hmade, hstate⟩ := Request.ask_eq task s
      rw [Request.built, hserve, hmade, hstate, List.nil_append] at hN
      rw [Request.built, hserve, hmade, hstate, List.nil_append]
      exact ⟨(ht hN).linked, (ht hN).steps⟩
    cases r with
    | register u =>
      refine hasked _ rfl fun _ => ⟨h.registered (hr (List.mem_singleton_self _)), ?_, .refl⟩
      exact List.Subset.refl _
    | auxiliary size => exact hasked (newAuxiliary size) rfl fun hN => h.introduced none size hN
    | lower n =>
      exact hasked _ rfl ((lower_run h (hr (List.mem_singleton_self n))).imp
        fun _ _ hrun hN => (hrun hN).advances h)
    | conicForm n =>
      exact hasked _ rfl ((conicForm_run h (hr (List.mem_singleton_self n))).imp
        fun _ _ hrun hN => (hrun hN).advances h)
    | constant | unknown | product | weighted | square | multiply | dotMultiply | divide | negate
    | sign | vexity => exact absurd trivial hlocal

theorem Reached.linked {config : Config} (h : Reached config s ns)
    (hN : Node.Faithful (s.nodes ns)) : s.Linked ns ∧ Pass.Steps (.empty config) s.pass := by
  induction h with
  | start =>
    have hstart : Reached config (⟨.empty, .empty, .empty config⟩ : Compilation α) [] := .start
    have hnone (id : String) (F : Form α) : ¬(Pass.empty config : Pass α).find? id = some F := by
      simp [Pass.empty, Pass.find?]
    refine ⟨⟨hstart.sound, hN, fun id F hF => absurd hF (hnone id F), fun n hn => ?_⟩, .refl⟩
    exact absurd hn List.not_mem_nil
  | @step s ns r h hr ih =>
    have hgrow : s.nodes ns ⊆ (r.serve s).2.nodes (r.built s ++ ns) :=
      List.Subset.trans (serve_ends r h.sound hr).grows.nodes_subset (nodes_subset_append ..)
    obtain ⟨hlinked, hsteps⟩ := ih (hN.mono hgrow)
    obtain ⟨hlinked', hsteps'⟩ := hlinked.serve r hr hN
    exact ⟨hlinked', hsteps.trans hsteps'⟩

end Compilation

namespace Session

variable [One α] [Neg α] [Add α] [Mul α] [Scalar α]

variable {S : Session α} {N es : List (Node α)} {us : List Unknown}

theorem Reached.series (h : S.Reached N) (config : Config) (hus : us.map .unknown ⊆ S.nodes N)
    (hes : es ⊆ S.nodes N)
    (hN : Node.Faithful ((Lowered.compiled config us es S.workspace).nodes (S.nodes N))) :
    ∃ ms, (∀ n, n ∈ ms ↔ n ∈ S.nodes N) ∧ Compilation.Series ms es
      ⟨S.workspace, .ofList (us.map .unknown), .empty config⟩
      (es.mapM Compilation.conicForm ⟨S.workspace, .ofList (us.map .unknown), .empty config⟩).1
      (Lowered.compiled config us es S.workspace) := by
  obtain ⟨config', ms, hreached, hnodes⟩ := h.settled.alone_start config hus
  have hms (n : Node α) : n ∈ ms ↔ n ∈ S.nodes N := hnodes n
  have hfaithful : Node.Faithful ((Lowered.compiled config us es S.workspace).nodes ms) := by
    refine hN.mono fun n hn => ?_
    simpa only [Compilation.nodes, List.mem_append, hms] using hn
  have hlinked := (hreached.linked (hfaithful.mono (List.subset_append_right ..))).1
  exact ⟨ms, hms, Compilation.mapM_series hlinked (fun n hn => (hnodes n).mpr (hes hn)) hfaithful⟩

end Session

end DisciplinedConvex
