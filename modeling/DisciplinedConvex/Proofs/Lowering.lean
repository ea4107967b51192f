import DisciplinedConvex.Proofs.Compiled
import DisciplinedConvex.Proofs.Runs

open DisciplinedConvex.Task

namespace DisciplinedConvex.Compilation

variable {α : Type} [Field α]
variable {s s' t : Compilation α} {ns : List (Node α)} {n x : Node α}

section Forms

def Gives (size : Size) (f : Array α → Nat → Nat → α) (F : Form α) : Prop :=
  ∀ z, F.Computes z size (f z)

variable {size : Size} {f g : Array α → Nat → Nat → α}

theorem computes_slot {L : Layout} {u : Unknown} {slot : Slot} (hu : u.size.Nonneg)
    (h : L.find? u.id = some slot) {count : Nat} (hcount : u.size.count = count) (cols : Nat)
    (z : Array α) :
    (⟨cols, Array.ofFn fun i : Fin count => .column (slot.start.toNat + i)⟩ : Form α).Computes z
      u.size (L.reading z u) := by
  have hc : count = u.size.height * u.size.width := by
    rw [hu.count_eq] at hcount
    exact (Int.ofNat.inj hcount).symm
  refine ⟨by rw [Array.size_ofFn, hc], fun i hi j hj => ?_⟩
  have hk : j * u.size.height + i < count := hc ▸ Dense.index_lt hi hj
  rw [Form.getD_ofFn _ hk, AffineRow.value_column, Layout.reading, h]

theorem bounds_epigraphRows (x t : AffineRow α) (cols : Nat) (z : Array α) :
    (⟨"SOC", ⟨cols, epigraphRows x t⟩⟩ : Constraint α).Bounds z (x.value z) (t.value z) := by
  refine ⟨rfl, ?_⟩
  simp only [epigraphRows, List.map_cons, List.map_nil, AffineRow.value_scale]
  simp only [AffineRow.value_eq, add_assoc]

theorem getElem?_epigraphs {X T : Form α} {size : Size} {f g : Array α → Nat → Nat → α}
    (hX : Gives size f X) (hT : Gives size g T) {count : Nat}
    (hcount : count = size.height * size.width) {i j : Nat} (hi : i < size.height)
    (hj : j < size.width) : ∃ c, (epigraphs count X T)[j * size.height + i]? = some c ∧
      ∀ z, c.Bounds z (f z i j) (g z i j) := by
  have hk : j * size.height + i < count := hcount ▸ Dense.index_lt hi hj
  rw [epigraphs, Array.getElem?_ofFn, dif_pos hk]
  refine ⟨_, rfl, fun z => ?_⟩
  rw [← (hX z).value i hi j hj, ← (hT z).value i hi j hj]
  exact bounds_epigraphRows _ _ _ z

theorem Gives.widen {size : Size} {f : Array α → Nat → Nat → α} {F G : Form α} {n : Int}
    (h : Gives size f F) (hG : F.withColumns n = .ok G) : Gives size f G :=
  fun z => (h z).widen hG

variable [Scalar α]

theorem reads_lowerConstant {A : Dense α} (hA : ∀ z, A.Holds size (f z)) :
    Reads ns s (lowerConstant A) (Gives size f) := by
  refine (tries_width fun _ _ => trivial).bind fun cols _ => tries_pure fun z => ?_
  exact (Form.computes_constant (hA z).size cols z).congr (hA z).entry

theorem reads_slotColumns {u : Unknown} (hu : u.size.Nonneg) :
    Reads ns s (slotColumns (α := α) u) (Gives u.size fun z => s.layout.reading z u) := by
  refine tries_get.bind fun t ht => (tries_lift _ fun _ _ => trivial).bind fun slot hslot =>
    (tries_lift _ fun _ _ => trivial).bind fun n hn => (tries_lift _ fun _ _ => trivial).bind
    fun length _ => (tries_width fun _ _ => trivial).bind fun cols _ =>
    tries_guard fun _ => tries_guard fun _ => tries_guard fun _ => tries_pure fun z => ?_
  have hfind : s.layout.find? u.id = some slot := by
    rw [ht.1, Layout.slotOf] at hslot
    split at hslot
    · next slot' hslot' => rw [← Except.ok.inj hslot]; exact hslot'
    · cases hslot
  exact computes_slot hu hfind ((Extent.vector_eq_ok_iff _ _).mp hn).1 cols z

variable [LinearOrder α] [ExactScalar α]

theorem reads_multiple {c y : Node α} {find : Task (Compilation α) (Form α)}
    (hone : c.size = .scalar ∨ y.size = .scalar) (hs : c.size.product? y.size = some size)
    (hc : ∀ A, c.constantValue = .ok A → ∀ z, A.Holds c.size (f z))
    (hfind : Reads ns s find (Gives y.size g)) :
    Reads ns s (multiple c find) (Gives size fun z => Node.times c.size y.size (f z) (g z)) := by
  refine hfind.bind fun F hF => (tries_lift _ fun _ _ => trivial).bind fun A hA => ?_
  have hA := hc A hA
  unfold Size.product? at hs
  by_cases hcs : c.size = .scalar
  · rw [if_pos hcs] at hs ⊢
    obtain rfl := Option.some.inj hs
    refine tries_pure fun z => ((hF z).scale A.item).congr fun i hi j hj => ?_
    have hitem : A.item = f z 0 0 := by
      refine (hA z).entry 0 ?_ 0 ?_
      · rw [hcs]; exact Size.height_pos_scalar
      · rw [hcs]; exact Size.width_pos_scalar
    simp only [Node.times, if_pos hcs, hitem, mul_comm]
  · have hys := hone.resolve_left hcs
    rw [if_neg hcs, if_pos hys] at hs
    obtain rfl := Option.some.inj hs
    rw [if_neg hcs]
    split
    · next row hrow =>
      apply tries_pure
      intro z
      have hF' := hF z
      rw [hys] at hF'
      apply (hF'.broadcast hrow (hA z).size F.cols).congr
      intro i hi j hj
      simp only [Node.times, if_neg hcs, if_pos hys, (hA z).entry i hi j hj]
    · exact tries_throw _

theorem reads_lowerProduct {l r : Node α} {left right : Task (Compilation α) (Form α)}
    (hl : l ∈ s.nodes ns) (hr : r ∈ s.nodes ns) (hs : l.size.product? r.size = some size)
    (hcl : l.vexity = .constant → ∀ A, l.constantValue = .ok A → ∀ z, A.Holds l.size (f z))
    (hcr : r.vexity = .constant → ∀ B, r.constantValue = .ok B → ∀ z, B.Holds r.size (g z))
    (hleft : Reads ns s left (Gives l.size f)) (hright : Reads ns s right (Gives r.size g)) :
    Reads ns s (lowerProduct size l r left right)
      (Gives size fun z => Node.times l.size r.size (f z) (g z)) := by
  unfold lowerProduct
  by_cases hone : l.size = .scalar ∨ r.size = .scalar
  · rw [if_pos hone]
    apply (tries_isConstant hl).bind
    intro b hb
    by_cases hb' : b = true
    · rw [if_pos hb']
      exact reads_multiple hone hs (hcl (hb.mp hb')) hright
    · rw [if_neg hb']
      apply (tries_isConstant hr).bind
      intro b hb
      by_cases hb' : b = true
      · rw [if_pos hb']
        refine (reads_multiple hone.symm ((Size.product?_comm hone).symm.trans hs)
          (hcr (hb.mp hb')) hleft).imp fun F hF z => ?_
        exact (hF z).congr fun i hi j hj => (Node.times_comm hone hs _ _ i hi j hj).symm
      · rw [if_neg hb']
        exact tries_throw _
  · rw [if_neg hone]
    obtain ⟨hls, hrs⟩ := not_or.mp hone
    obtain ⟨hinner, rfl⟩ := Size.product?_of_ne_scalar hls hrs hs
    have hw : l.size.width = r.size.height := congrArg Int.toNat hinner
    apply (tries_isConstant hl).bind
    intro b hb
    by_cases hb' : b = true
    · rw [if_pos hb']
      refine hright.bind fun F hF => (tries_lift _ fun _ _ => trivial).bind fun n hn =>
        (tries_lift _ fun _ _ => trivial).bind fun A hA =>
        (tries_lift _ fun _ _ => trivial).imp fun G hG z => ?_
      have hA := hcl (hb.mp hb') A hA z
      have hn : n = (⟨l.size.rows, r.size.cols⟩ : Size).width :=
        (congrArg Int.toNat (Extent.eq_of_order hn)).symm
      subst hn
      have hrows : A.rows = l.size.height := Dense.rows_eq hA.size
      refine (Form.Computes.onColumns (s := ⟨l.size.rows, r.size.cols⟩) (hF z)
        ((Dense.cols_eq hA.size).trans hw) hrows rfl hG).congr fun i hi j hj => ?_
      simp only [Node.times, if_neg hls, if_neg hrs, Dense.cols_eq hA.size]
      exact Finset.sum_congr rfl fun k hk => by
        rw [hA.entry i hi k (Finset.mem_range.mp hk)]
    · rw [if_neg hb']
      apply (tries_isConstant hr).bind
      intro b hb
      by_cases hb' : b = true
      · rw [if_pos hb']
        refine hleft.bind fun F hF => (tries_lift _ fun _ _ => trivial).bind fun B hB =>
          (tries_lift _ fun _ _ => trivial).bind fun n hn =>
          (tries_lift _ fun _ _ => trivial).imp fun G hG z => ?_
        have hB := hcr (hb.mp hb') B hB z
        have hn : n = (⟨l.size.rows, r.size.cols⟩ : Size).height :=
          (congrArg Int.toNat (Extent.eq_of_order hn)).symm
        subst hn
        have hcols : B.cols = r.size.width := Dense.cols_eq hB.size
        refine (Form.Computes.onRows (s := ⟨l.size.rows, r.size.cols⟩) (hF z)
          ((Dense.rows_eq hB.size).trans hw.symm) hcols rfl hG).congr fun i hi j hj => ?_
        simp only [Node.times, if_neg hls, if_neg hrs, Dense.rows_eq hB.size, ← hw]
        exact Finset.sum_congr rfl fun k hk => by
          rw [hB.entry k (hw ▸ Finset.mem_range.mp hk) j hj]
      · rw [if_neg hb']
        exact tries_throw _

theorem reads_lowerWeighted {c : Constant α} {find : Task (Compilation α) (Form α)}
    (hc : c.value.size = size) (hfind : Reads ns s find (Gives size f)) :
    Reads ns s (do (← find).premultiply (.diagonal c.value.vec))
      (Gives size fun z i j => c.value.entry i j * f z i j) :=
  hfind.bind fun _ hF => (tries_lift _ fun _ _ => trivial).imp fun _ hG z => (hF z).diagonal hc hG

end Forms

variable [Scalar α]

def Compiles (s : Compilation α) (ns : List (Node α)) : Prop :=
  s.pass.Compiled s.layout (s.nodes ns)

theorem Same.compiles (h : Same ns s t) (hP : s.Compiles ns) : t.Compiles ns := by
  rw [Compiles, h.nodes_eq, h.pass, h.layout]
  exact hP

section Steps

variable {E : Failure → Prop} {r : Except Failure (Form α)}

theorem Recorded.compiles (hP : s.Compiles ns) (hN : Node.Faithful (s.nodes ns))
    (hn : n ∈ s.nodes ns)
    (hu : ∀ u, n = .unknown u → ∃ slot, s.layout.find? u.id = some slot ∧
      (slot.length : Int) = u.size.count)
    (hsq : ∀ tag x, n = .square tag x → x.vexity = .constant)
    (h : Recorded ns n s (Gives n.size fun z => s.pass.means s.layout z n) E r s') :
    s'.Compiles ns := by
  obtain ⟨t, hst, hr⟩ := h
  cases r with
  | error f =>
    obtain ⟨-, rfl⟩ := hr
    exact hst.compiles hP
  | ok F =>
    obtain ⟨hF, rfl⟩ := hr
    obtain ⟨w, L, P⟩ := t
    obtain rfl : P = s.pass := hst.pass
    obtain rfl : L = s.layout := hst.layout
    exact Pass.Compiled.store hP hN hn hF hu hsq

theorem record_unknown_gives {u : Unknown} (hs : s.Sound ns) (hu : .unknown u ∈ s.nodes ns)
    (hsize : u.size.Nonneg) :
    (record (.unknown u) (lowerUnknown (α := α) u)).Ends s
      (Recorded ns (.unknown u) (s.registered u)
        (Gives u.size fun z => (s.registered u).layout.reading z u) fun _ => True) := by
  rw [lowerUnknown, record_bind, register, ends_bind, ends_modify]
  exact record_tries (hs.register hu) (reads_slotColumns hsize) fun _ _ _ _ => trivial

theorem Compiles.registered (h : s.Tidy ns) (hP : s.Compiles ns) (u : Unknown) :
    (s.registered u).Compiles ns :=
  Pass.Compiled.extend hP h.shaped h.sound.family h.faithful (List.Subset.refl _) rfl rfl
    (fun _ _ h => Layout.find?_register _ h) (fun _ _ => rfl) fun a ha =>
      ⟨(hP.introduced a ha).1.imp fun _ h => Layout.find?_register _ h, (hP.introduced a ha).2⟩

theorem Recorded.compiles_unknown {u : Unknown} (h : s.Tidy ns) (hu : .unknown u ∈ s.nodes ns)
    (hP : (s.registered u).Compiles ns)
    (hr : Recorded ns (.unknown u) (s.registered u)
      (Gives u.size fun z => (s.registered u).layout.reading z u) E r s') : s'.Compiles ns := by
  refine Recorded.compiles hP h.faithful hu (fun v hv => ?_) nofun hr
  obtain rfl := Node.unknown.inj hv
  obtain ⟨slot, hslot, hholder, -⟩ := h.sound.register_slot h.faithful h.nonneg hu
  refine ⟨slot, hslot, ?_⟩
  have hnonneg : u.size.Nonneg := h.nonneg _ hu
  rw [slot.length_eq, hholder, Int.toNat_of_nonneg]
  · rfl
  · exact hnonneg.count_eq ▸ Int.natCast_nonneg _

theorem Recorded.compiles_square {tag : Tag} {u : Unknown} {X X' T T' : Form α} (h : s.Tidy ns)
    (hP : s.Compiles ns) (hsq : .square tag x ∈ s.nodes ns) (hu : .unknown u ∈ s.nodes ns)
    (hv : x.vexity ≠ .constant) (hX : s.pass.find? x.id = some X)
    (hnew : s.pass.contains tag.id = false) (hau : s.pass.auxiliary? tag.id = some u)
    (hus : u.size = tag.size)
    (hr : Recorded ns (.unknown u) s (Gives u.size fun z => s.layout.reading z u) E (.ok T) t)
    (ht : t.Compiles ns) (hX' : X.withColumns t.layout.size = .ok X')
    (hT' : T.withColumns t.layout.size = .ok T') :
    ((t.pass.addConstraints (epigraphs (Node.square tag x).size.count.toNat X' T')).store
      tag.id T').Compiled t.layout (t.nodes ns) := by
  have htag : tag.size = x.size := (h.sound.family.formed _ hsq).1
  obtain ⟨q, hsame, hT, rfl⟩ := hr
  have hauxiliary (id : String) : (q.pass.store u.id T).auxiliary? id = s.pass.auxiliary? id := by
    rw [← hsame.pass]
    rfl
  have hmeans (m : Node α) (z : Array α) :
      (q.pass.store u.id T).means q.layout z m = s.pass.means s.layout z m := by
    simp only [Pass.means, hsame.layout, hauxiliary]
  have hXg : Gives tag.size (fun z => (q.pass.store u.id T).means q.layout z x) X' := by
    have hx := h.sound.family.children _ hsq x (Node.square_mem_children tag x)
    simp only [hmeans, htag]
    exact Gives.widen (hP.forms x hx X hX) hX'
  have hTg : Gives tag.size (fun z => (q.pass.store u.id T).means q.layout z (.square tag x)) T' := by
    simp only [hmeans, Pass.means_square hau, ← hus]
    exact hT.widen hT'
  have hcount : (Node.square tag x).size.count.toNat = tag.size.height * tag.size.width :=
    congrArg Int.toNat (h.nonneg _ hsq : tag.size.Nonneg).count_eq
  refine Pass.Compiled.store_square ht (hsame.nodes_eq ▸ h.faithful) (hsame.nodes_eq ▸ hsq) hv ?_
    ((hauxiliary _).trans hau) hus hTg ((Array.size_ofFn ..).trans hcount)
    fun i hi j hj => getElem?_epigraphs hXg hTg hcount hi hj
  refine Bool.eq_false_iff.mpr fun hc => ?_
  rcases Pass.eq_or_contains_of_store hc with he | hc
  · cases h.faithful _ hsq _ hu he.symm
  · rw [hsame.pass, hnew] at hc
    cases hc

variable [LinearOrder α] [ExactScalar α]

theorem isFinite_eq (F : Form α) : F.isFinite = true := by
  simp [Form.isFinite, AffineRow.isFinite]

theorem Squared.compiles {tag : Tag} {X : Form α} (h : s.Tidy ns) (hP : s.Compiles ns)
    (hsq : .square tag x ∈ s.nodes ns) (hv : x.vexity ≠ .constant)
    (hX : s.pass.find? x.id = some X) (hnew : s.pass.contains tag.id = false)
    (hr : Squared ns (.square tag x) x X s r s') : s'.Compiles ns := by
  have hx := h.nonneg x (h.sound.family.children _ hsq x (Node.square_mem_children tag x))
  cases hr with
  | unasked hst => exact hst.compiles hP
  | @bounded t r₂ r s₂ s' hst hN₁ hunew hcu h₂ hb =>
    let s₁ := t.introduced (some (.square tag x)) x.size
    let u := t.nextAuxiliary x.size
    have ht := hst.tidy h
    have hsqt : .square tag x ∈ t.nodes ns := hst.nodes_eq ▸ hsq
    have hnewt : t.pass.contains tag.id = false := by rw [hst.pass, hnew]
    have hu₁ : .unknown u ∈ s₁.nodes ns := List.mem_cons_self ..
    have hs₁ : s₁.Tidy ns := ht.introduced hN₁ hx
    have hP₁ : s₁.Compiles ns := by
      apply Pass.Compiled.introduce (hst.compiles hP) ht.shaped ht.sound.family hN₁
      intro q hq
      obtain rfl := Option.some.inj hq
      exact ⟨hnewt, tag, x, rfl, hsqt, hv, ht.sound.judges.refs _ hsqt⟩
    have hregistered : s₁.registered u = s₁ := registered_introduced _ _
    have hrec := record_unknown_gives hs₁.sound hu₁ hx
    rw [Ends, h₂] at hrec
    have hP₂ : s₂.Compiles ns := hrec.compiles_unknown hs₁ hu₁ (by rw [hregistered]; exact hP₁)
    rw [hregistered] at hrec
    cases hb with
    | stopped f => exact hP₂
    | narrow T f hf => exact hP₂
    | refused T X' T' _ hf =>
      rw [isFinite_eq, Bool.not_true, Bool.and_false] at hf
      cases hf
    | stored T X' T' hX' hT' =>
      have hX₁ : s₁.pass.find? x.id = some X := by
        rw [← hX, ← hst.pass]
        rfl
      exact hrec.compiles_square hs₁ hP₁ (List.mem_cons_of_mem _ hsqt) hu₁ hv hX₁ hnewt
        Pass.auxiliary?_cons_self (h.sound.family.formed _ hsq).1.symm hP₂ hX' hT'

theorem compute_compiles (h : s.Tidy ns) (hP : s.Compiles ns) (hn : n ∈ s.nodes ns)
    (hchildren : ∀ c ∈ n.children, s.pass.contains c.id = true)
    (hnew : s.pass.contains n.id = false) :
    (compute n).Ends s fun _ s' => Node.Faithful (s'.nodes ns) → s'.Compiles ns := by
  have hfamily := h.sound.family
  have hform := hfamily.formed n hn
  -- a child is held with a form of its own
  have hchild {c : Node α} (hc : c ∈ n.children) : c ∈ s.nodes ns ∧
      ∀ find, Reads ns s (lookup c.id find) (Gives c.size fun z => s.pass.means s.layout z c) := by
    have hcn := hfamily.children n hn c hc
    refine ⟨hcn, fun find => ?_⟩
    obtain ⟨F, hF⟩ := Pass.exists_of_contains (hchildren c hc)
    apply (tries_lookup hF).imp
    intro G hG
    rw [hG]
    exact hP.forms c hcn F hF
  have hconstant {c : Node α} (hc : c ∈ s.nodes ns) (hv : c.vexity = .constant) (A : Dense α)
      (hA : c.constantValue = .ok A) (z : Array α) : A.Holds c.size (s.pass.means s.layout z c) :=
    hP.constantValue_holds hfamily h.faithful hc hv hA z
  have hrecord {find : Task (Compilation α) (Form α)} (hu : ∀ u, n ≠ .unknown u)
      (hsq : ∀ tag x, n = .square tag x → x.vexity = .constant)
      (hfind : Reads ns s find (Gives n.size fun z => s.pass.means s.layout z n)) :
      (record n find).Ends s fun _ s' => Node.Faithful (s'.nodes ns) → s'.Compiles ns :=
    (record_tries h.sound hfind fun _ _ _ _ => trivial).imp fun _ _ hr _ =>
      hr.compiles hP h.faithful hn (fun u hnu => absurd hnu (hu u)) hsq
  cases n with
  | constant c =>
    exact hrecord nofun nofun (reads_lowerConstant fun z => ⟨rfl, fun _ _ _ _ => rfl⟩)
  | unknown u =>
    exact (record_unknown_gives h.sound hn (h.nonneg _ hn)).imp fun _ _ hr _ =>
      hr.compiles_unknown h hn (hP.registered h u)
  | product tag l r =>
    obtain ⟨hl, hleft⟩ := hchild (Node.left_mem_children tag l r)
    obtain ⟨hr, hright⟩ := hchild (Node.right_mem_children tag l r)
    exact hrecord nofun nofun (reads_lowerProduct hl hr hform.1 (hconstant hl) (hconstant hr)
      (hleft _) (hright _))
  | weighted tag c x =>
    obtain ⟨-, hx⟩ := hchild (Node.weighted_mem_children tag c x)
    have hx := hx (compute x)
    rw [← hform.2.1] at hx
    exact hrecord nofun nofun (reads_lowerWeighted (hform.1.trans hform.2.1.symm) hx)
  | square tag x =>
    have hxc := Node.square_mem_children tag x
    have hx := hfamily.children _ hn x hxc
    by_cases hv : x.vexity = .constant
    · apply hrecord nofun
      · intro tag' x' he
        obtain ⟨-, rfl⟩ := Node.square.inj he
        exact hv
      · apply (tries_isConstant hx).bind
        intro b hb
        rw [if_pos (hb.mpr hv)]
        have hv' : (Node.square tag x).vexity = .constant := by rw [Node.vexity_square, if_pos hv]
        exact (tries_lift _ fun _ _ => trivial).bind fun A hA =>
          reads_lowerConstant (hconstant hn hv' A hA)
    · obtain ⟨X, hX⟩ := Pass.exists_of_contains (hchildren x hxc)
      exact (record_square_ends h.sound h.shaped.known hx hv hX _).imp fun _ _ hr hN =>
        (hr hN).compiles h hP hn hv hX hnew
  | bare => exact hform.elim

end Steps

structure Right (s : Compilation α) (ns : List (Node α)) : Prop
    extends s.pass.Shaped s.layout (s.nodes ns), s.pass.Compiled s.layout (s.nodes ns)

variable [LinearOrder α] [ExactScalar α]

theorem kept_compiles : Kept (Compiles (α := α)) where
  beside h hj hN hst := by
    refine Pass.Compiled.extend hj h.shaped h.sound.family hN hst.nodes_subset hst.forms
      hst.constraints hst.slots (fun id _ => ?_) fun a ha => ?_
    · rw [Pass.auxiliary?, Pass.auxiliary?, hst.auxiliaries]
    · rw [hst.auxiliaries] at ha
      obtain ⟨⟨slot, hslot⟩, hsq⟩ := hj.introduced a ha
      refine ⟨⟨slot, hst.slots _ _ hslot⟩, fun q hq => ?_⟩
      obtain ⟨tag, x, he, hm, hv, hlt⟩ := hsq q hq
      exact ⟨tag, x, he, hst.nodes_subset hm, hv, hlt⟩
  introduced h hj hN :=
    Pass.Compiled.introduce hj h.shaped h.sound.family hN fun q hq => by cases hq
  compute h hj hn hchildren hnew := compute_compiles h hj hn hchildren hnew

theorem Reached.right {config : Config} (h : Reached config s ns)
    (hN : Node.Faithful (s.nodes ns)) (hsize : ∀ n ∈ s.nodes ns, n.size.Nonneg) : s.Right ns := by
  obtain ⟨htidy, hcompiles⟩ := h.keeps kept_compiles (Pass.compiled_empty config _) hN hsize
  exact ⟨htidy.shaped, hcompiles⟩

end DisciplinedConvex.Compilation
