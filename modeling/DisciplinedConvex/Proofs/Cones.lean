import DisciplinedConvex.Proofs.Ledger
import DisciplinedConvex.Proofs.Relaxation

namespace DisciplinedConvex

variable {α : Type} [Field α]

theorem Form.apply_of_le {F : Form α} {z : Array α} (h : F.cols ≤ z.size) :
    F.apply z = .ok (F.rows.map (·.value z)) := by
  rw [apply, if_neg (Nat.not_lt.mpr h)]

theorem Slot.map_columns (slot : Slot) (z : Array α) :
    slot.columns.map (·.value z) = slot.slice z := by
  simp [columns, slice, Array.map_ofFn, Function.comp_def]

theorem Constraint.holds_of_withColumns [LinearOrder α] {c : Constraint α} {G : Form α} {n : Int}
    (h : c.form.withColumns n = .ok G) (z : Array α) :
    (Constraint.mk c.cone G).Holds z ↔ c.Holds z := by
  rw [Holds, Holds, Form.rows_of_withColumns h]

variable [LinearOrder α]

namespace Compilation

variable {s : Compilation α} {ns : List (Node α)} {z : Array α} {config : Config}

/-- What an epigraph demands of a stacked vector, entry by entry: that the square of what the form
of the argument gives is at most what stands in the slot. -/
structure Demands (s : Compilation α) (z : Array α) (e : Epigraph α) (xs : Array α) : Prop where
  argument : e.argument.apply z = .ok xs
  form : e.form.apply z = .ok (e.slot.slice z)
  size : xs.size = e.cones.length
  length : e.slot.length = e.cones.length
  cone : ∀ (k : Nat) c, e.cones[k]? = some c → (c.form.cols : Int) ≤ s.layout.size ∧
    (c.Holds z ↔ xs.getD k 0 * xs.getD k 0 ≤ (e.slot.slice z).getD k 0)

variable [IsStrictOrderedRing α] [Scalar α]

theorem Tidy.demands (h : s.Tidy ns) {es : List (Epigraph α)} {e : Epigraph α}
    (hes : s.pass.Ledger s.layout (s.nodes ns) es) (hem : e ∈ es) (hz : s.layout.size ≤ z.size) :
    s.Demands z e (e.argument.rows.map (·.value z)) := by
  have he := hes.carried e hem
  have hx := h.sound.family.children _ he.mem e.operand (Node.square_mem_children ..)
  have hcols := (h.shaped.fills _ he.mem _ he.form).cols
  obtain ⟨-, -, hlength, hrows, hcones⟩ := h.cones hes hem
  refine ⟨Form.apply_of_le ?_, ?_, by rw [Array.size_map, hrows], hlength, fun k c hc => ?_⟩
  · exact Int.ofNat_le.mp ((h.shaped.fills _ hx _ he.argument).cols.trans hz)
  · rw [Form.apply_of_le (Int.ofNat_le.mp (hcols.trans hz)), he.rows, Slot.map_columns]
  · have hk : k < e.cones.length := (List.getElem?_eq_some_iff.mp hc).1
    have hrow := Array.getElem?_eq_getElem (hrows.symm ▸ hk : k < e.argument.rows.size)
    obtain rfl := Option.some.inj ((hcones k _ hrow).symm.trans hc)
    refine ⟨hcols, ?_⟩
    rw [(bounds_epigraphRows _ _ _ z).holds_iff, AffineRow.value_column,
      Slot.slice_holds (hlength.symm ▸ hk)]
    simp [hrows, hk]

variable [ExactScalar α]

/-- The cones of a square that was lowered say that the square of every entry of its argument is at
most the entry of its auxiliary, over the columns of then and over those of now; and the form of the
square is its auxiliary. -/
theorem Reached.cone_holds_iff (h : Reached config s ns) (hN : Node.Faithful (s.nodes ns))
    (hsize : ∀ n ∈ s.nodes ns, n.size.Nonneg) {tag : Tag} {x : Node α}
    (hsq : .square tag x ∈ s.nodes ns) (hv : x.vexity ≠ .constant)
    (hc : s.pass.contains tag.id = true) (hz : s.layout.size ≤ z.size) :
    ∃ es e xs, s.pass.Ledger s.layout (s.nodes ns) es ∧ e ∈ es ∧ e.tag.id = tag.id ∧
      s.pass.find? x.id = some e.argument ∧ s.pass.find? tag.id = some e.form ∧
      (e.cones.length : Int) = tag.size.count ∧ s.Demands z e xs ∧
      ∀ (k : Nat) c, e.cones[k]? = some c →
        (s.layout.size < Extent.columnLimit → ∃ G, c.form.withColumns s.layout.size = .ok G) ∧
        ∀ n G, c.form.withColumns n = .ok G → ((Constraint.mk c.cone G).Holds z ↔
          xs.getD k 0 * xs.getD k 0 ≤ (e.slot.slice z).getD k 0) := by
  have htidy := h.tidy hN hsize
  obtain ⟨es, hes⟩ := h.ledgered hN hsize
  obtain ⟨e, hem, hid⟩ := hes.squares tag x hsq hc hv
  have he := hes.carried e hem
  have hal := hN _ he.mem _ hsq hid
  obtain ⟨tag', x', heq, htag, hax⟩ := hal.square_eq
  obtain ⟨rfl, rfl⟩ := Node.square.inj heq
  have hx : e.operand.id = x.id := by rw [← Node.id_forget, hax, Node.id_forget]
  have hdemands := htidy.demands hes hem hz
  refine ⟨es, e, _, hes, hem, hid, hx ▸ he.argument, hid ▸ he.form, ?_, hdemands, fun k c hk => ?_⟩
  · rw [← htag]
    exact (htidy.cones hes hem).2.1
  · obtain ⟨hcols, hiff⟩ := hdemands.cone k c hk
    refine ⟨fun hlimit => ?_, fun n G hG => (Constraint.holds_of_withColumns hG z).trans hiff⟩
    obtain ⟨m, hm⟩ := Int.eq_ofNat_of_zero_le (htidy.sound.stacked.size_nonneg hsize)
    exact ⟨⟨m, c.form.rows⟩, Form.withColumns_eq_ok_iff.mpr
      ⟨rfl, hm.symm, Int.ofNat_le.mp (hm ▸ hcols), .inr hlimit⟩⟩

theorem area_cone_refuses : ∃ e, lowered.pass.find? area.id = some e.form ∧
    lowered.Demands #[3, 8] e #[3] ∧ e.slot.slice #[(3 : ℚ), 8] = #[8] ∧
    ∃ c ∈ lowered.pass.constraints, ¬c.Holds #[3, 8] := by
  obtain ⟨F, hF, -⟩ := Option.map_eq_some_iff.mp lowered_eq.2.2.1
  have hsize : lowered.layout.size ≤ (#[(3 : ℚ), 8].size : Int) := by
    rw [Layout.size, ← Array.getLast?_toList, lowered_eq.2.1]
    decide
  obtain ⟨es, e, xs, hes, he, -, hX, hT, hlength, hdemands, -⟩ :=
    reached_lowered.cone_holds_iff lowered_faithful lowered_nonneg (area_mem _) (by rintro ⟨⟩)
      (Pass.contains_of_find? hF) hsize
  have hslot : e.slot = ⟨.unknown bounding, 1⟩ := by
    have hunknown : e.unknown ∈ lowered.pass.auxiliaries.map (·.unknown) :=
      List.mem_map_of_mem (hes.held he).1
    rw [lowered_eq.1, List.mem_singleton] at hunknown
    exact Option.some.inj ((hes.carried e he).slot.symm.trans (hunknown ▸ find?_bounding))
  have hxs : xs = #[3] := by
    have hside : Node.unknown side ∈ lowered.nodes drawn :=
      List.mem_append_right _ (by simp [drawn])
    have htidy := reached_lowered.tidy lowered_faithful lowered_nonneg
    have hcols := Int.ofNat_le.mp ((htidy.shaped.fills _ hside _ hX).cols.trans hsize)
    have hholds : (Dense.scalar (3 : ℚ)).Holds .scalar
        (lowered.pass.means lowered.layout #[3, 8] (.unknown side)) := by
      refine ⟨rfl, fun i hi j hj => ?_⟩
      obtain rfl : i = 0 := Nat.lt_one_iff.mp hi
      obtain rfl : j = 0 := Nat.lt_one_iff.mp hj
      exact (means_side 3 8).symm
    have happly := ((reached_lowered.right lowered_faithful lowered_nonneg).forms _ hside _ hX
      #[3, 8]).apply_eq hcols hholds
    exact Except.ok.inj (hdemands.argument.symm.trans happly)
  obtain rfl := hxs
  have hslice : e.slot.slice #[(3 : ℚ), 8] = #[8] := by
    rw [hslot]
    rfl
  have hcone : 0 < e.cones.length := by
    have hlength : (e.cones.length : Int) = 1 := hlength
    omega
  refine ⟨e, hT, hdemands, hslice, e.cones[0], ?_, ?_⟩
  · rw [← Array.mem_toList_iff, hes.constraints]
    exact List.mem_flatMap.mpr ⟨e, he, List.getElem_mem hcone⟩
  · rw [(hdemands.cone 0 _ (List.getElem?_eq_getElem hcone)).2, hslice]
    norm_num

def fund : Unknown := ⟨0, Identity.ofUnknown 0, 0, "fund", ⟨2, 1⟩, .indeterminate⟩

def vacant : Unknown := ⟨1, Identity.ofUnknown 1, 1, "vacant", ⟨0, 1⟩, .indeterminate⟩

def vacantSquare : Node ℚ :=
  .square ⟨2, ⟨0, 1⟩, Identity.ofOperation "square" [vacant.id]⟩ (.unknown vacant)

def debt : Unknown := ⟨3, Identity.ofUnknown 2, 2, "debt", ⟨-1, 1⟩, .indeterminate⟩

def accounts : List (Node ℚ) :=
  [.unknown debt, vacantSquare, .unknown vacant, .unknown vacant, .unknown fund]

def settled : Compilation ℚ :=
  ((Request.lower vacantSquare).serve ((Request.lower (.unknown fund)).serve (untouched 4 3)).2).2

def overdrawn : Compilation ℚ := ((Request.lower (.unknown debt)).serve settled).2

def vacantBound : Unknown := ⟨4, Identity.ofUnknown 3, 3, "_aux0", ⟨0, 1⟩, .indeterminate⟩

theorem reached_overdrawn : Reached {} overdrawn accounts := by
  have hfund : Reached (α := ℚ) {} (untouched 1 1) [.unknown fund] :=
    Reached.start.step (.unknown "fund" ⟨2, 1⟩ (.ok .indeterminate)) (List.nil_subset _)
  have hvacant : Reached (α := ℚ) {} (untouched 2 2) [.unknown vacant, .unknown fund] :=
    hfund.step (.unknown "vacant" ⟨0, 1⟩ (.ok .indeterminate)) (List.nil_subset _)
  have hsquare : Reached {} (untouched 3 2)
      [vacantSquare, .unknown vacant, .unknown vacant, .unknown fund] :=
    hvacant.step (.square (.unknown vacant)) (by simp [Request.operands, nodes])
  have hdebt : Reached {} (untouched 4 3) accounts :=
    hsquare.step (.unknown "debt" ⟨-1, 1⟩ (.ok .indeterminate)) (List.nil_subset _)
  have hask {s : Compilation ℚ} (h : Reached {} s accounts) {n : Node ℚ} (hn : n ∈ accounts) :
      Reached {} ((Request.lower n).serve s).2 accounts :=
    h.ask (.lower n) (List.cons_subset.mpr ⟨List.mem_append_right _ hn, List.nil_subset _⟩)
      fun t => (Request.ask_eq _ t).1
  exact hask (hask (hask hdebt (by simp [accounts])) (by simp [accounts])) (by simp [accounts])

/-- Where a size is negative the layout may shrink below forms that are held. Then the vectors of the
length of the layout are too short for the form of a square, here one without entries. -/
theorem vacant_unread : Reached {} overdrawn accounts ∧ Node.Faithful (overdrawn.nodes accounts) ∧
    vacantSquare ∈ overdrawn.nodes accounts ∧ (Node.unknown (α := ℚ) vacant).vexity ≠ .constant ∧
    overdrawn.layout.size ≤ (#[(3 : ℚ)].size : Int) ∧
    (overdrawn.pass.find? vacantSquare.id).map (·.apply #[3]) = some (.error (.shortVector 1 2)) := by
  have hrun : overdrawn.pass.auxiliaries.map (·.unknown) = [vacantBound] ∧
      overdrawn.layout.size ≤ 1 ∧
      (overdrawn.pass.find? vacantSquare.id).map (·.apply #[3]) =
        some (.error (.shortVector 1 2)) ∧
      ([.unknown vacantBound, .unknown debt, vacantSquare, .unknown vacant, .unknown fund].map
        Node.id).Nodup := by
    decide +kernel
  obtain ⟨hauxiliaries, hsize, happly, hids⟩ := hrun
  refine ⟨reached_overdrawn, ?_, List.mem_append_right _ (by simp [accounts]), nofun, hsize,
    happly⟩
  rw [nodes_eq_of_auxiliaries hauxiliaries]
  exact (Node.faithful_of_nodup hids).mono (by simp [accounts])

end Compilation

end DisciplinedConvex
