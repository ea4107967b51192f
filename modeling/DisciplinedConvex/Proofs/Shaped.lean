import DisciplinedConvex.Proofs.Shapes

open DisciplinedConvex.Task

namespace DisciplinedConvex

variable {α : Type}

namespace Pass

variable {P P' : Pass α} {L L' : Layout} {N N' : List (Node α)} {n m : Node α}

theorem find?_store (P : Pass α) (id id' : String) (F : Form α) :
    (P.store id F).find? id' = if id = id' then some F else P.find? id' := by
  simp only [find?, store, Std.TreeMap.getElem?_insert, Std.compare_eq_iff_eq]

theorem contains_of_find? {id : String} {F : Form α} (h : P.find? id = some F) :
    P.contains id = true := by
  rw [contains, h]
  rfl

theorem exists_of_contains {id : String} (h : P.contains id = true) : ∃ F, P.find? id = some F :=
  Option.isSome_iff_exists.mp h

theorem contains_store {id id' : String} {F : Form α}
    (h : P.contains id' = true) : (P.store id F).contains id' = true := by
  rw [contains, find?_store]
  split
  · rfl
  · exact h

theorem contains_store_self (P : Pass α) (id : String) (F : Form α) :
    (P.store id F).contains id = true := by
  rw [contains, find?_store, if_pos rfl]
  rfl

theorem eq_or_contains_of_store {id id' : String} {F : Form α}
    (h : (P.store id F).contains id' = true) : id = id' ∨ P.contains id' = true := by
  rw [contains, find?_store] at h
  split at h
  · next he => exact .inl he
  · exact .inr h

theorem find?_congr (h : P'.forms = P.forms) (id : String) : P'.find? id = P.find? id := by
  rw [find?, find?, h]

theorem contains_children {n m c : Node α} (hal : m.Alike n)
    (h : ∀ d ∈ m.children, P.contains d.id = true) (hc : c ∈ n.children) :
    P.contains c.id = true := by
  have hid : c.id ∈ m.children.map Node.id := by
    rw [hal.ids_children]
    exact List.mem_map_of_mem hc
  obtain ⟨d, hd, hde⟩ := List.mem_map.mp hid
  rw [← hde]
  exact h d hd

theorem contains_congr (h : P'.forms = P.forms) (id : String) : P'.contains id = P.contains id := by
  rw [contains, contains, find?_congr h]

variable [Scalar α]

/-- A pass whose forms have the shape of their nodes. Everything below a node that it holds is held as
well, and the products that it holds have a constant factor. -/
structure Shaped (P : Pass α) (L : Layout) (N : List (Node α)) : Prop where
  known : ∀ id F, P.find? id = some F → ∃ n ∈ N, n.id = id
  children : ∀ n ∈ N, P.contains n.id = true → ∀ c ∈ n.children, P.contains c.id = true
  factors : ∀ tag l r, .product tag l r ∈ N → P.contains tag.id = true →
    l.vexity = .constant ∨ r.vexity = .constant
  fills : ∀ n ∈ N, ∀ F, P.find? n.id = some F → F.Fills n.size L.size

theorem shaped_empty (config : Config) (L : Layout) : (empty config : Pass α).Shaped L N := by
  have hnone (id : String) : (empty config : Pass α).find? id = none := by
    simp [empty, find?]
  have hcontains (id : String) : ¬(empty config : Pass α).contains id = true := by
    simp [contains, hnone]
  refine ⟨fun id F h => ?_, fun n _ h => absurd h (hcontains _),
    fun tag l r _ h => absurd h (hcontains _), fun n _ F h => ?_⟩
  · rw [hnone] at h
    cases h
  · rw [hnone] at h
    cases h

theorem Shaped.below (hS : P.Shaped L N) (hN : Node.Family N) (hn : n ∈ N)
    (hc : P.contains n.id = true) (hm : m ∈ n.preorder) : P.contains m.id = true := by
  induction n using Node.children_induction with
  | step n ih =>
    rw [Node.preorder_eq] at hm
    rcases List.mem_cons.mp hm with rfl | hm
    · exact hc
    · obtain ⟨c, hcn, hmc⟩ := List.mem_flatMap.mp hm
      exact ih c hcn (hN.children n hn c hcn) (hS.children n hn hc c hcn) hmc

theorem Shaped.alike (hS : P.Shaped L N) (hN : Node.Faithful N') (hNN : N ⊆ N') (hn : n ∈ N')
    (hc : P.contains n.id = true) : ∃ m ∈ N, m.id = n.id ∧ m.Alike n := by
  obtain ⟨F, hF⟩ := exists_of_contains hc
  obtain ⟨m, hm, he⟩ := hS.known _ F hF
  exact ⟨m, hm, he, hN m (hNN hm) n hn he⟩

theorem Shaped.extend (hS : P.Shaped L N) (hN' : Node.Faithful N') (hNN : N ⊆ N')
    (hf : P'.forms = P.forms) (hL : L.size ≤ L'.size) : P'.Shaped L' N' := by
  refine ⟨?_, ?_, ?_, ?_⟩
  · intro id F hF
    rw [find?_congr hf] at hF
    obtain ⟨n, hn, he⟩ := hS.known id F hF
    exact ⟨n, hNN hn, he⟩
  · intro n hn hcn c hc
    rw [contains_congr hf] at hcn ⊢
    obtain ⟨m, hm, he, hal⟩ := hS.alike hN' hNN hn hcn
    exact contains_children hal (hS.children m hm (he ▸ hcn)) hc
  · intro tag l r hn hcn
    rw [contains_congr hf] at hcn
    obtain ⟨m, hm, he, hal⟩ := hS.alike hN' hNN hn hcn
    obtain ⟨tag', l', r', rfl, hl, hr⟩ := hal.product_eq
    have he : tag'.id = tag.id := he
    rw [← hl.vexity_eq, ← hr.vexity_eq]
    exact hS.factors tag' l' r' hm (he ▸ hcn)
  · intro n hn F hF
    rw [find?_congr hf] at hF
    obtain ⟨m, hm, he, hal⟩ := hS.alike hN' hNN hn (contains_of_find? hF)
    obtain ⟨hrows, hcols⟩ := hS.fills m hm F (he ▸ hF)
    exact ⟨hal.size_eq ▸ hrows, hcols.trans hL⟩

theorem Shaped.store (hS : P.Shaped L N) (hN : Node.Faithful N) (hn : n ∈ N)
    (hchildren : ∀ c ∈ n.children, P.contains c.id = true)
    (hfactors : ∀ tag l r, n = .product tag l r → l.vexity = .constant ∨ r.vexity = .constant)
    {F : Form α} (hF : F.Fills n.size L.size) : (P.store n.id F).Shaped L N := by
  refine ⟨?_, ?_, ?_, ?_⟩
  · intro id G hG
    rw [find?_store] at hG
    split at hG
    · next he => exact ⟨n, hn, he⟩
    · exact hS.known id G hG
  · intro m hm hc c hcm
    apply contains_store
    rcases eq_or_contains_of_store hc with he | hc
    · exact contains_children (hN n hn m hm he) hchildren hcm
    · exact hS.children m hm hc c hcm
  · intro tag l r hm hc
    rcases eq_or_contains_of_store hc with he | hc
    · obtain ⟨tag', l', r', hnp, hl, hr⟩ := (hN n hn _ hm he).product_eq
      rw [← hl.vexity_eq, ← hr.vexity_eq]
      exact hfactors tag' l' r' hnp
    · exact hS.factors tag l r hm hc
  · intro m hm G hG
    rw [find?_store] at hG
    split at hG
    · next he =>
      obtain rfl := Option.some.inj hG
      rw [← (hN n hn m hm he).size_eq]
      exact hF
    · exact hS.fills m hm G hG

end Pass

variable [Scalar α]

/-- Why the form of a node may be refused, when the curvatures of the `known` objects are known and
there are so many columns. -/
inductive Node.Refused (known : Nat → Bool) (columns : Int) (strict : Bool) (n : Node α) :
    Failure → Prop
  | product {tag : Tag} {l r : Node α} (hn : n = .product tag l r) (hl : l.vexity ≠ .constant)
      (hr : r.vexity ≠ .constant) : Refused known columns strict n .nonconstantProduct
  | array (h : ¬n.Fits) : Refused known columns strict n .arrayTooLarge
  | columns (h : (Extent.columnLimit : Int) ≤ columns) :
      Refused known columns strict n .numberTooLarge
  | unasked {c : Node α} (hc : c ∈ n.children) (h : known c.ref = false) :
      Refused known columns strict n .unaskedChild
  | nonfinite (text : String) (h : strict = true) :
      Refused known columns strict n (.nonfiniteForm text)

theorem Node.Refused.mono {known known' : Nat → Bool} {columns columns' : Int} {strict : Bool}
    {n : Node α} {f : Failure} (h : n.Refused known columns strict f)
    (hk : ∀ r, known' r = true → known r = true) (hc : columns ≤ columns') :
    n.Refused known' columns' strict f := by
  cases h with
  | product hn hl hr => exact .product hn hl hr
  | array h => exact .array h
  | columns h => exact .columns (h.trans hc)
  | unasked hcn h =>
    exact .unasked hcn (Bool.eq_false_iff.mpr fun h' => Bool.eq_false_iff.mp h (hk _ h'))
  | nonfinite text h => exact .nonfinite text h

theorem Node.Refused.of_unknown {n : Node α} {u : Unknown} {known known' : Nat → Bool} {columns : Int}
    {strict : Bool} {f : Failure} (h : (Node.unknown (α := α) u).Refused known columns strict f)
    (hn : n.size = u.size) : n.Refused known' columns strict f := by
  cases h with
  | product hu => cases hu
  | array h =>
    refine .array fun hfits => h fun m hm => ?_
    have hself := hfits n n.self_mem_preorder
    rw [hn] at hself
    rw [List.mem_singleton.mp hm]
    exact hself
  | columns h => exact .columns h
  | unasked hc => exact absurd hc List.not_mem_nil
  | nonfinite text h => exact .nonfinite text h

theorem Node.Refused.of_withColumns {known : Nat → Bool} {columns : Int} {strict : Bool} {n : Node α}
    {F : Form α} {f : Failure} (h0 : 0 ≤ columns) (hF : (F.cols : Int) ≤ columns)
    (hf : F.withColumns columns = .error f) : n.Refused known columns strict f := by
  obtain ⟨rfl, hle⟩ := Extent.columns_error (Form.columns_of_withColumns hf hF) h0
  exact .columns hle

namespace Compilation

variable {s s' t : Compilation α} {ns : List (Node α)} {n x : Node α}

def Shaped (s : Compilation α) (ns : List (Node α)) : Prop :=
  s.pass.Shaped s.layout (s.nodes ns)

abbrev Refuses (s : Compilation α) (n : Node α) : Failure → Prop :=
  n.Refused s.workspace.verdicts.known s.layout.size s.pass.config.rejectNonfinite

def registered (s : Compilation α) (u : Unknown) : Compilation α :=
  { s with layout := s.layout.register (.unknown u) }

omit [Scalar α] in
theorem registered_introduced (square? : Option (Node α)) (size : Size) :
    (s.introduced square? size).registered (s.nextAuxiliary size) = s.introduced square? size := by
  have hlayout := Layout.register_of_contains
    (Layout.contains_register s.layout (.unknown (s.nextAuxiliary size)))
  rw [registered, introduced, hlayout]

theorem Shaped.registered (hS : s.Shaped ns) (hN : Node.Faithful (s.nodes ns)) {u : Unknown}
    (hu : u.size.Nonneg) : (s.registered u).Shaped ns :=
  Pass.Shaped.extend hS hN (List.Subset.refl _) rfl
    (Layout.size_le_register (hu.count_eq ▸ Int.natCast_nonneg _))

theorem Shaped.introduced (hS : s.Shaped ns) {square? : Option (Node α)} {size : Size}
    (hN : Node.Faithful ((s.introduced square? size).nodes ns)) (hsize : size.Nonneg) :
    (s.introduced square? size).Shaped ns :=
  Pass.Shaped.extend hS hN (List.subset_cons_self ..) rfl
    (Layout.size_le_register (h := .unknown (s.nextAuxiliary size))
      (hsize.count_eq ▸ Int.natCast_nonneg _))

variable [Zero α]

theorem Same.shaped (h : Same ns s t) (hS : s.Shaped ns) : t.Shaped ns := by
  rw [Shaped, h.nodes_eq, h.pass, h.layout]
  exact hS

structure Computed (ns : List (Node α)) (n : Node α) (s : Compilation α)
    (r : Except Failure (Form α)) (s' : Compilation α) : Prop where
  shaped : s'.Shaped ns
  nonneg : ∀ m ∈ s'.nodes ns, m.size.Nonneg
  stopped : ∀ f, r = .error f →
    n.Refused s.workspace.verdicts.known s'.layout.size s.pass.config.rejectNonfinite f
  done : ∀ F, r = .ok F → s'.pass.contains n.id = true
  kept : ∀ id, s.pass.contains id = true → s'.pass.contains id = true
  added : ∀ id, s'.pass.contains id = true → s.pass.contains id = true ∨ id = n.id ∨
    ∃ u, .unknown u ∈ s'.nodes ns ∧ .unknown u ∉ s.nodes ns ∧ u.id = id

def Recorded (ns : List (Node α)) (n : Node α) (s : Compilation α) (Q : Form α → Prop)
    (E : Failure → Prop) (r : Except Failure (Form α)) (s' : Compilation α) : Prop :=
  ∃ t, Same ns s t ∧ match r with
    | .ok F => Q F ∧ s' = { t with pass := t.pass.store n.id F }
    | .error f => E f ∧ s' = t

theorem record_tries {find : Task (Compilation α) (Form α)} {Q : Form α → Prop}
    {E : Failure → Prop} (hs : s.Sound ns) (h : Tries ns s find Q E)
    (he : s.pass.config.rejectNonfinite = true → ∀ F, Q F → F.isFinite = false →
      E (.nonfiniteForm n.text)) :
    (record n find).Ends s (Recorded ns n s Q E) := by
  rw [record_ends]
  refine (h s hs.same).imp ?_
  rintro (e | F) t ⟨hst, hQ, hE⟩
  · exact ⟨t, hst, hE e rfl, rfl⟩
  · dsimp only
    split
    · next hreject =>
      obtain ⟨hstrict, hinfinite⟩ := Bool.and_eq_true_iff.mp hreject
      exact ⟨t, hst, he (hst.pass ▸ hstrict) F (hQ F rfl) (Bool.not_eq_true' _ ▸ hinfinite), rfl⟩
    · exact ⟨t, hst, hQ F rfl, rfl⟩

def Suits (n : Node α) (columns : Int) (F : Form α) : Prop :=
  (∀ tag l r, n = .product tag l r → l.vexity = .constant ∨ r.vexity = .constant) ∧
    F.Fills n.size columns

theorem Recorded.computed {r : Except Failure (Form α)} (hS : s.Shaped ns)
    (hN : Node.Faithful (s.nodes ns)) (hsize : ∀ m ∈ s.nodes ns, m.size.Nonneg)
    (hn : n ∈ s.nodes ns) (hchildren : ∀ c ∈ n.children, s.pass.contains c.id = true)
    (h : Recorded ns n s (Suits n s.layout.size) (s.Refuses n) r s') : Computed ns n s r s' := by
  obtain ⟨t, hst, hr⟩ := h
  cases r with
  | error f =>
    obtain ⟨hE, rfl⟩ := hr
    refine ⟨hst.shaped hS, hst.nodes_eq ▸ hsize, fun g hg => ?_, nofun, ?_, ?_⟩
    · rw [hst.layout, ← Except.error.inj hg]
      exact hE
    · exact fun _ hid => hst.pass ▸ hid
    · exact fun _ hid => .inl (hst.pass ▸ hid)
  | ok F =>
    obtain ⟨⟨hfactors, hF⟩, rfl⟩ := hr
    obtain ⟨w, L, P⟩ := t
    obtain rfl : P = s.pass := hst.pass
    obtain rfl : L = s.layout := hst.layout
    refine ⟨Pass.Shaped.store hS hN hn hchildren hfactors hF, hsize, nofun, fun _ _ =>
      Pass.contains_store_self .., fun _ => Pass.contains_store, fun id hid => ?_⟩
    rcases Pass.eq_or_contains_of_store hid with he | hc
    · exact .inr (.inl he.symm)
    · exact .inl hc

theorem Recorded.unchanged {Q : Form α → Prop} {E : Failure → Prop} {r : Except Failure (Form α)}
    (h : Recorded ns n s Q E r s') : s'.layout = s.layout ∧
      s'.pass.auxiliaries = s.pass.auxiliaries ∧ s'.pass.config = s.pass.config := by
  obtain ⟨t, hst, hr⟩ := h
  have hauxiliaries := congrArg Pass.auxiliaries hst.pass
  have hconfig := congrArg Pass.config hst.pass
  cases r with
  | error f =>
    obtain ⟨-, rfl⟩ := hr
    exact ⟨hst.layout, hauxiliaries, hconfig⟩
  | ok F =>
    obtain ⟨-, rfl⟩ := hr
    exact ⟨hst.layout, hauxiliaries, hconfig⟩

theorem Sound.register_slot (hs : s.Sound ns) (hN : Node.Faithful (s.nodes ns))
    (hsize : ∀ m ∈ s.nodes ns, m.size.Nonneg) {u : Unknown} (hu : .unknown u ∈ s.nodes ns) :
    ∃ slot, (s.layout.register (.unknown u)).find? u.id = some slot ∧
      slot.holder = .unknown u ∧ 0 ≤ slot.start ∧
      slot.stop ≤ (s.layout.register (.unknown u)).size := by
  obtain ⟨slot, hslot⟩ := Option.isSome_iff_exists.mp
    (Layout.contains_register s.layout (.unknown u))
  exact ⟨slot, hslot, (hs.register hu).stacked.slot_of hN hsize hu hslot⟩

theorem Sound.not_contains {u : Unknown} (hs : s.Sound ns)
    (hknown : ∀ id F, s.pass.find? id = some F → ∃ m ∈ s.nodes ns, m.id = id)
    (hN : Node.Faithful (.unknown u :: s.nodes ns)) (hu : u.ref = s.workspace.objects) :
    .unknown u ∉ s.nodes ns ∧ s.pass.contains u.id = false := by
  have hnew : .unknown u ∉ s.nodes ns := fun hm => absurd hu (Nat.ne_of_lt (hs.judges.refs _ hm))
  refine ⟨hnew, Bool.eq_false_iff.mpr fun hc => ?_⟩
  obtain ⟨F, hF⟩ := Pass.exists_of_contains hc
  obtain ⟨m, hm, he⟩ := hknown _ F hF
  have hal := hN m (List.mem_cons_of_mem _ hm) _ (List.mem_cons_self ..) he
  exact hnew (hal.unknown_eq ▸ hm)

variable [One α]

theorem record_unknown_tries (hs : s.Sound ns) (hN : Node.Faithful (s.nodes ns))
    (hsize : ∀ m ∈ s.nodes ns, m.size.Nonneg) {u : Unknown} (hu : .unknown u ∈ s.nodes ns) :
    (record (.unknown u) (lowerUnknown (α := α) u)).Ends s
      (Recorded ns (.unknown u) (s.registered u)
        (Suits (.unknown u) (s.registered u).layout.size) ((s.registered u).Refuses (.unknown u))) := by
  obtain ⟨slot, hslot, hholder, hstart, hstop⟩ := hs.register_slot hN hsize hu
  have hs₁ : (s.registered u).Sound ns := hs.register hu
  have hfit (h : Extent.fits u.size.height u.size.width = false) : ¬(Node.unknown (α := α) u).Fits :=
    fun hfits => Bool.eq_false_iff.mp h (hfits _ (Node.self_mem_preorder _))
  have htries : Tries ns (s.registered u) (slotColumns (α := α) u)
      (Suits (.unknown u) (s.registered u).layout.size) ((s.registered u).Refuses (.unknown u)) :=
    (tries_slotColumns_fills (hs₁.stacked.size_nonneg hsize) (fun h => Node.Refused.columns h)
      (hsize _ hu) hslot hholder hstart hstop fun h => Node.Refused.array (hfit h)).imp
      fun F hF => ⟨nofun, hF⟩
  rw [lowerUnknown, record_bind, register, ends_bind, ends_modify]
  exact record_tries hs₁ htries fun hstrict _ _ _ => .nonfinite _ hstrict

structure Introduced (ns : List (Node α)) (tag : Tag) (x : Node α) (X : Form α)
    (s : Compilation α) (r : Except Failure (Form α)) (s' : Compilation α) : Prop where
  shaped : s'.Shaped ns
  nonneg : ∀ m ∈ s'.nodes ns, m.size.Nonneg
  nodes : s.nodes ns ⊆ s'.nodes ns
  config : s'.pass.config = s.pass.config
  columns : 0 ≤ s'.layout.size
  cols : (X.cols : Int) ≤ s'.layout.size
  stopped : ∀ f, r = .error f → (Node.square tag x).Refused s.workspace.verdicts.known
    s'.layout.size s.pass.config.rejectNonfinite f
  fills : ∀ T, r = .ok T → T.Fills x.size s'.layout.size
  kept : ∀ id, s.pass.contains id = true → s'.pass.contains id = true
  added : ∀ id, s'.pass.contains id = true → s.pass.contains id = true ∨ id = tag.id ∨
    ∃ u, .unknown u ∈ s'.nodes ns ∧ .unknown u ∉ s.nodes ns ∧ u.id = id

theorem Same.record_introduced {tag : Tag} {X : Form α} {r : Except Failure (Form α)}
    (hst : Same ns s t) (hS : s.Shaped ns) (hsize : ∀ m ∈ s.nodes ns, m.size.Nonneg)
    (hx : x ∈ s.nodes ns) (htag : tag.size = x.size) (hX : s.pass.find? x.id = some X)
    (hN : Node.Faithful ((t.introduced (some (.square tag x)) x.size).nodes ns))
    (hnew : .unknown (t.nextAuxiliary x.size) ∉ t.nodes ns)
    (hr : record (.unknown (t.nextAuxiliary x.size)) (lowerUnknown (t.nextAuxiliary x.size))
      (t.introduced (some (.square tag x)) x.size) = (r, s')) :
    Introduced ns tag x X s r s' := by
  let s₁ := t.introduced (some (.square tag x)) x.size
  let u := t.nextAuxiliary x.size
  have hs₁ : s₁.Sound ns := hst.sound.introduce _ _
  have hS₁ : s₁.Shaped ns := (hst.shaped hS).introduced hN (hsize x hx)
  have hnodes₁ : s₁.nodes ns = .unknown u :: s.nodes ns := congrArg _ hst.nodes_eq
  have hu₁ : .unknown u ∈ s₁.nodes ns := hnodes₁ ▸ List.mem_cons_self ..
  have hsize₁ : ∀ m ∈ s₁.nodes ns, m.size.Nonneg := by
    rw [hnodes₁]
    exact List.forall_mem_cons.mpr ⟨hsize x hx, hsize⟩
  have hpass₁ (id : String) : s₁.pass.contains id = s.pass.contains id := by
    rw [← hst.pass]
    rfl
  have hconfig₁ : s₁.pass.config = s.pass.config := by
    rw [← hst.pass]
    rfl
  have hrec := record_unknown_tries hs₁ hN hsize₁ hu₁
  rw [registered_introduced, Ends, hr] at hrec
  obtain ⟨hlayout, haux, hconfig⟩ := hrec.unchanged
  have hnodes : s'.nodes ns = s₁.nodes ns := by rw [Compilation.nodes, haux, Compilation.nodes]
  have hcomp := hrec.computed hS₁ hN hsize₁ hu₁ (by rintro _ ⟨⟩)
  constructor
  case shaped => exact hcomp.shaped
  case nonneg => exact hcomp.nonneg
  case nodes => rw [hnodes, hnodes₁]; exact List.subset_cons_self ..
  case config => rw [hconfig, hconfig₁]
  case columns => rw [hlayout]; exact hs₁.stacked.size_nonneg hsize₁
  case cols =>
    rw [hlayout]
    refine (hS.fills x hx X hX).cols.trans ?_
    rw [← hst.layout]
    exact Layout.size_le_register ((hsize x hx).count_eq ▸ Int.natCast_nonneg _)
  case stopped =>
    intro f hf
    have hrefused := hcomp.stopped f hf
    rw [hconfig₁] at hrefused
    exact hrefused.of_unknown htag
  case fills =>
    rintro T rfl
    obtain ⟨-, -, ⟨-, hT⟩, -⟩ := hrec
    rw [hlayout]
    exact hT
  case kept => exact fun id hid => hcomp.kept id ((hpass₁ id).trans hid)
  case added =>
    intro id hid
    rcases hcomp.added id hid with h | h | ⟨v, hv, hv', -⟩
    · exact .inl ((hpass₁ id).symm.trans h)
    · exact .inr (.inr ⟨u, hnodes ▸ hu₁, hst.nodes_eq ▸ hnew, h.symm⟩)
    · exact absurd (hnodes ▸ hv) hv'

variable [Neg α] [Add α] [Mul α]

inductive Bounded (n : Node α) (X : Form α) (s : Compilation α) :
    Except Failure (Form α) → Except Failure (Form α) → Compilation α → Prop
  | stopped (f : Failure) : Bounded n X s (.error f) (.error f) s
  | narrow (T : Form α) (f : Failure)
      (h : X.withColumns s.layout.size = .error f ∨ T.withColumns s.layout.size = .error f) :
      Bounded n X s (.ok T) (.error f) s
  | refused (T X' T' : Form α) (hT : T.withColumns s.layout.size = .ok T')
      (h : (s.pass.config.rejectNonfinite && !T'.isFinite) = true) :
      Bounded n X s (.ok T) (.error (.nonfiniteForm n.text))
        { s with pass := s.pass.addConstraints (epigraphs n.size.count.toNat X' T') }
  | stored (T X' T' : Form α) (hX : X.withColumns s.layout.size = .ok X')
      (hT : T.withColumns s.layout.size = .ok T') : Bounded n X s (.ok T) (.ok T')
        { s with pass := (s.pass.addConstraints (epigraphs n.size.count.toNat X' T')).store n.id T' }

theorem Bounded.eq_stored {X X' T : Form α} {r : Except Failure (Form α)}
    (h : Bounded n X s (.ok T) r s') (hX : X.withColumns s.layout.size = .ok X')
    (hT : T.withColumns s.layout.size = .ok T) (hfinite : T.isFinite = true) :
    s' = { s with pass :=
      (s.pass.addConstraints (epigraphs n.size.count.toNat X' T)).store n.id T } := by
  cases h with
  | narrow T f hf =>
    rcases hf with hf | hf
    · cases hX.symm.trans hf
    · cases hT.symm.trans hf
  | refused T X'' T' hT' hf =>
    obtain rfl := Except.ok.inj (hT.symm.trans hT')
    rw [hfinite, Bool.not_true, Bool.and_false] at hf
    cases hf
  | stored T X'' T' hX'' hT' =>
    obtain rfl := Except.ok.inj (hT.symm.trans hT')
    obtain rfl := Except.ok.inj (hX.symm.trans hX'')
    rfl

theorem record_bound_ends {u : Unknown} {X : Form α} (h : s.pass.contains u.id = false) :
    (record n (bound n u X)).Ends s fun r s' => ∃ r₂ s₂,
      record (.unknown u) (lowerUnknown u) s = (r₂, s₂) ∧ Bounded n X s₂ r₂ r s' := by
  rw [bound, record_bind, ends_bind, lookup_none _ h]
  refine Ends.imp (P := fun r₂ s₂ => record (.unknown u) (lowerUnknown u) s = (r₂, s₂)) rfl ?_
  rintro (f | T) s₂ heq
  · exact ⟨_, s₂, heq, .stopped f⟩
  · simp only [record_bind, ends_bind, ends_get, ends_lift]
    cases hX : X.withColumns s₂.layout.size with
    | error f => exact ⟨_, s₂, heq, .narrow T f (.inl hX)⟩
    | ok X' =>
      cases hT : T.withColumns s₂.layout.size with
      | error f => exact ⟨_, s₂, heq, .narrow T f (.inr hT)⟩
      | ok T' =>
        dsimp only
        rw [modifyPass, ends_modify]
        dsimp only
        rw [record_ends, ends_pure]
        dsimp only
        split
        · next h => exact ⟨_, s₂, heq, .refused T X' T' hT h⟩
        · exact ⟨_, s₂, heq, .stored T X' T' hX hT⟩

inductive Squared (ns : List (Node α)) (n x : Node α) (X : Form α) (s : Compilation α) :
    Except Failure (Form α) → Compilation α → Prop
  | unasked {t : Compilation α} (hst : Same ns s t)
      (hk : s.workspace.verdicts.known x.ref = false) :
      Squared ns n x X s (.error .unaskedChild) t
  | bounded {t : Compilation α} {r₂ r : Except Failure (Form α)} {s₂ s' : Compilation α}
      (hst : Same ns s t) (hN : Node.Faithful ((t.introduced (some n) x.size).nodes ns))
      (hnew : .unknown (t.nextAuxiliary x.size) ∉ t.nodes ns)
      (hu : t.pass.contains (t.nextAuxiliary x.size).id = false)
      (h₂ : record (.unknown (t.nextAuxiliary x.size)) (lowerUnknown (t.nextAuxiliary x.size))
        (t.introduced (some n) x.size) = (r₂, s₂))
      (h : Bounded n X s₂ r₂ r s') : Squared ns n x X s r s'

theorem record_square_ends {tag : Tag} {X : Form α} (hs : s.Sound ns)
    (hknown : ∀ id F, s.pass.find? id = some F → ∃ m ∈ s.nodes ns, m.id = id)
    (hx : x ∈ s.nodes ns) (hv : x.vexity ≠ .constant) (hX : s.pass.find? x.id = some X)
    (find : Task (Compilation α) (Form α)) :
    (record (.square tag x) (lowerSquare (.square tag x) x (lookup x.id find))).Ends s fun r s' =>
      Node.Faithful (s'.nodes ns) → Squared ns (.square tag x) x X s r s' := by
  have hasked : Tries ns s (isConstant x) (fun b => b = true ↔ x.vexity = .constant)
      fun f => f = .unaskedChild ∧ s.workspace.verdicts.known x.ref = false :=
    tries_isConstant hx fun hk => ⟨rfl, hk⟩
  rw [lowerSquare, record_bind, ends_bind]
  refine (hasked s hs.same).imp ?_
  rintro (f | b) t ⟨hst, hb, hf⟩
  · obtain ⟨rfl, hk⟩ := hf f rfl
    exact fun _ => .unasked hst hk
  have hb' : ¬b = true := fun h => hv ((hb b rfl).mp h)
  have htX : t.pass.find? x.id = some X := by rw [hst.pass, hX]
  simp only [if_neg hb']
  rw [record_bind, ends_bind, lookup_some _ htX]
  dsimp only
  rw [record_bind, ends_bind, Ends, introduce_eq]
  dsimp only
  have hnodes : (t.introduced (some (.square tag x)) x.size).nodes ns =
      .unknown (t.nextAuxiliary x.size) :: t.nodes ns := rfl
  by_cases hN : Node.Faithful ((t.introduced (some (.square tag x)) x.size).nodes ns)
  · have htknown : ∀ id F, t.pass.find? id = some F → ∃ m ∈ t.nodes ns, m.id = id := by
      rwa [hst.nodes_eq, hst.pass]
    obtain ⟨hnew, hu⟩ := hst.sound.not_contains htknown (hnodes ▸ hN) rfl
    apply (record_bound_ends (s := t.introduced (some (.square tag x)) x.size) hu).imp
    rintro r s' ⟨r₂, s₂, h₂, h⟩ -
    exact .bounded hst hN hnew hu h₂ h
  · have hu : .unknown (t.nextAuxiliary x.size) ∈
        (t.introduced (some (.square tag x)) x.size).nodes ns := hnodes ▸ List.mem_cons_self ..
    apply ((goes_record (n := .square tag x) not_false (goes_bound hu X)).keeps _
      (hst.sound.introduce _ _) (List.Subset.refl _)).imp
    exact fun r s' h hN' => absurd (hN'.mono h.2.nodes_subset) hN

theorem Bounded.computed {tag : Tag} {X : Form α} {r₂ r : Except Failure (Form α)}
    (h : Bounded (.square tag x) X t r₂ r s') (hi : Introduced ns tag x X s r₂ t)
    (hN : Node.Faithful (s'.nodes ns)) (hsq : .square tag x ∈ s.nodes ns) (htag : tag.size = x.size)
    (hc : s.pass.contains x.id = true) : Computed ns (.square tag x) s r s' := by
  cases h with
  | stopped f =>
    exact ⟨hi.shaped, hi.nonneg, fun g hg => Except.error.inj hg ▸ hi.stopped f rfl, nofun, hi.kept,
      hi.added⟩
  | narrow T f h =>
    refine ⟨hi.shaped, hi.nonneg, fun g hg => ?_, nofun, hi.kept, hi.added⟩
    obtain rfl := Except.error.inj hg
    rcases h with h | h
    · exact .of_withColumns hi.columns hi.cols h
    · exact .of_withColumns hi.columns (hi.fills T rfl).cols h
  | refused T X' T' _ h =>
    refine ⟨hi.shaped.extend hN (List.Subset.refl _) rfl (le_refl _), hi.nonneg, fun g hg => ?_,
      nofun, hi.kept, hi.added⟩
    obtain rfl := Except.error.inj hg
    exact .nonfinite _ (hi.config ▸ (Bool.and_eq_true_iff.mp h).1)
  | stored T X' T' hX' hT' =>
    obtain ⟨hrows, hcols, -⟩ := Form.withColumns_eq_ok_iff.mp hT'
    have hfills : T'.Fills tag.size t.layout.size := by
      rw [htag]
      exact ⟨hrows ▸ (hi.fills T rfl).rows, hcols.le⟩
    have hshaped : (t.pass.addConstraints
        (epigraphs (Node.square tag x).size.count.toNat X' T')).Shaped t.layout (t.nodes ns) :=
      hi.shaped.extend hN (List.Subset.refl _) rfl (le_refl _)
    have hchildren : ∀ c ∈ (Node.square tag x).children, t.pass.contains c.id = true := by
      intro c hcm
      rw [List.mem_singleton.mp hcm]
      exact hi.kept _ hc
    refine ⟨hshaped.store (n := .square tag x) hN (hi.nodes hsq) hchildren nofun hfills, hi.nonneg,
      nofun, fun _ _ => Pass.contains_store_self .., fun id hid => Pass.contains_store (hi.kept id hid),
      fun id hid => ?_⟩
    rcases Pass.eq_or_contains_of_store hid with he | hid
    · exact .inr (.inl he.symm)
    · exact hi.added id hid

theorem record_square_computed {tag : Tag} (hs : s.Sound ns) (hS : s.Shaped ns)
    (hsize : ∀ m ∈ s.nodes ns, m.size.Nonneg) (hsq : .square tag x ∈ s.nodes ns)
    (hv : x.vexity ≠ .constant) (hc : s.pass.contains x.id = true)
    (find : Task (Compilation α) (Form α)) :
    (record (.square tag x) (lowerSquare (.square tag x) x (lookup x.id find))).Ends s fun r s' =>
      Node.Faithful (s'.nodes ns) → Computed ns (.square tag x) s r s' := by
  obtain ⟨X, hX⟩ := Pass.exists_of_contains hc
  have hxc := Node.square_mem_children tag x
  have hx : x ∈ s.nodes ns := hs.family.children _ hsq x hxc
  have htag : tag.size = x.size := (hs.family.formed _ hsq).1
  have hchildren : ∀ c ∈ (Node.square tag x).children, s.pass.contains c.id = true := by
    intro c hcm
    rwa [List.mem_singleton.mp hcm]
  apply (record_square_ends hs hS.known hx hv hX find).imp
  intro r s' hsquared hN
  cases hsquared hN with
  | unasked hst hk =>
    exact Recorded.computed hS (hst.nodes_eq ▸ hN) hsize hsq hchildren
      ⟨s', hst, .unasked hxc hk, rfl⟩
  | bounded hst hN₁ hnew hu h₂ h =>
    exact h.computed (hst.record_introduced hS hsize hx htag hX hN₁ hnew h₂) hN hsq htag hc

theorem compute_recorded (hs : s.Sound ns) (hS : s.Shaped ns) (hsize : ∀ m ∈ s.nodes ns, m.size.Nonneg)
    (hn : n ∈ s.nodes ns) (hchildren : ∀ c ∈ n.children, s.pass.contains c.id = true)
    (hu : ∀ u, n ≠ .unknown u) (hsq : ∀ tag x, n = .square tag x → x.vexity = .constant) :
    (compute n).Ends s (Recorded ns n s (Suits n s.layout.size) (s.Refuses n)) := by
  have hform := hs.family.formed n hn
  have h0 := hs.stacked.size_nonneg hsize
  have hcols : (Extent.columnLimit : Int) ≤ s.layout.size → s.Refuses n .numberTooLarge :=
    Node.Refused.columns
  have hself (h : Extent.fits n.size.height n.size.width = false) : s.Refuses n .arrayTooLarge :=
    .array fun hfits => Bool.eq_false_iff.mp h (hfits n n.self_mem_preorder)
  have hrecord {find : Task (Compilation α) (Form α)}
      (h : Tries ns s find (Suits n s.layout.size) (s.Refuses n)) :
      (record n find).Ends s (Recorded ns n s (Suits n s.layout.size) (s.Refuses n)) :=
    record_tries hs h fun hstrict _ _ _ => .nonfinite _ hstrict
  -- a child is held with a form of its own
  have hchild {c : Node α} (hc : c ∈ n.children) (find : Task (Compilation α) (Form α)) :
      Tries ns s (lookup c.id find) (·.Fills c.size s.layout.size) (s.Refuses n) := by
    obtain ⟨F, hF⟩ := Pass.exists_of_contains (hchildren c hc)
    apply (tries_lookup hF).imp
    intro G hG
    rw [hG]
    exact hS.fills c (hs.family.children n hn c hc) F hF
  have hconstant {c : Node α} (hc : c ∈ n.children) (hv : c.vexity = .constant) (f : Failure)
      (hf : c.constantValue = .error f) : s.Refuses n f := by
    have hcn := hs.family.children n hn c hc
    have hcform := hs.family.formed c hcn
    obtain ⟨rfl, hfits⟩ :=
      ((Node.vexity_eq_constant_iff hcform).mp hv).constantValue_error hcform hf
    exact .array fun h => hfits (h.child hc)
  have hasked {c : Node α} (hc : c ∈ n.children) (hk : s.workspace.verdicts.known c.ref = false) :
      s.Refuses n .unaskedChild := .unasked hc hk
  cases n with
  | constant c =>
    exact hrecord ((tries_lowerConstant_fills h0 hcols rfl).imp fun F hF => ⟨nofun, hF⟩)
  | unknown u => exact absurd rfl (hu u)
  | product tag l r =>
    have hlc := Node.left_mem_children tag l r
    have hrc := Node.right_mem_children tag l r
    refine hrecord ((tries_lowerProduct_fills (hs.family.children _ hn l hlc)
      (hs.family.children _ hn r hrc) hform.1 hform.2.1 hform.2.2 (hsize _ hn) (hconstant hlc)
      (hconstant hrc) (hasked hlc) (hasked hrc) hself (.product rfl) (hchild hlc _)
      (hchild hrc _)).imp fun F hF => ⟨fun tag' l' r' he => ?_, hF.2⟩)
    obtain ⟨-, rfl, rfl⟩ := Node.product.inj he
    exact hF.1
  | weighted tag c x =>
    have hx := hchild (Node.weighted_mem_children tag c x) (compute x)
    rw [← hform.2.1] at hx
    exact hrecord ((tries_lowerWeighted_fills (hform.1.trans hform.2.1.symm) hx).imp
      fun F hF => ⟨nofun, hF⟩)
  | square tag x =>
    have hxc := Node.square_mem_children tag x
    have hx := hs.family.children _ hn x hxc
    have hv := hsq tag x rfl
    have hv' : (Node.square tag x).vexity = .constant := by rw [Node.vexity_square, if_pos hv]
    apply hrecord
    apply (tries_isConstant hx (hasked hxc)).bind
    intro b hb
    rw [if_pos (hb.mpr hv)]
    refine (tries_lift _ fun f hf => ?_).bind fun A hA => ?_
    · obtain ⟨rfl, hfits⟩ :=
        ((Node.vexity_eq_constant_iff hform).mp hv').constantValue_error hform hf
      exact .array hfits
    · exact (tries_lowerConstant_fills h0 hcols (Node.evaluate_size hform hA)).imp
        fun F hF => ⟨nofun, hF⟩
  | bare => exact hform.elim

theorem compute_ends (hs : s.Sound ns) (hS : s.Shaped ns) (hN : Node.Faithful (s.nodes ns))
    (hsize : ∀ m ∈ s.nodes ns, m.size.Nonneg) (hn : n ∈ s.nodes ns)
    (hchildren : ∀ c ∈ n.children, s.pass.contains c.id = true) :
    (compute n).Ends s fun r s' => Node.Faithful (s'.nodes ns) → Computed ns n s r s' := by
  have hplain (hu : ∀ u, n ≠ .unknown u) (hsq : ∀ tag x, n = .square tag x → x.vexity = .constant) :
      (compute n).Ends s fun r s' => Node.Faithful (s'.nodes ns) → Computed ns n s r s' :=
    (compute_recorded hs hS hsize hn hchildren hu hsq).imp fun _ _ hr _ =>
      hr.computed hS hN hsize hn hchildren
  cases n with
  | constant | product | weighted => exact hplain nofun nofun
  | unknown u =>
    apply (record_unknown_tries hs hN hsize hn).imp
    intro r s' hr _
    have hcomp := hr.computed (hS.registered hN (hsize _ hn)) hN hsize hn nofun
    exact ⟨hcomp.shaped, hcomp.nonneg, hcomp.stopped, hcomp.done, hcomp.kept, hcomp.added⟩
  | square tag x =>
    by_cases hv : x.vexity = .constant
    · refine hplain nofun fun tag' x' he => ?_
      obtain ⟨-, rfl⟩ := Node.square.inj he
      exact hv
    · exact record_square_computed hs hS hsize hn hv (hchildren x (Node.square_mem_children tag x)) _
  | bare => exact (hs.family.formed _ hn).elim

end Compilation

end DisciplinedConvex
