import DisciplinedConvex.Proofs.Rows
import DisciplinedConvex.Proofs.Shaped

namespace DisciplinedConvex

variable {α : Type} [Field α]

def Layout.reading (L : Layout) (z : Array α) (u : Unknown) (i j : Nat) : α :=
  match L.find? u.id with
  | some slot => z.getD (slot.start.toNat + (j * u.size.height + i)) 0
  | none => 0

theorem Layout.reading_congr {L L' : Layout} {u : Unknown} {slot : Slot} (z : Array α)
    (h : L.find? u.id = some slot) (h' : L'.find? u.id = some slot) :
    L'.reading z u = L.reading z u := by
  funext i j
  rw [reading, reading, h, h']

namespace Constraint

def Holds [LinearOrder α] (c : Constraint α) (z : Array α) : Prop :=
  c.cone = "SOC" ∧ match c.form.rows.toList.map (·.value z) with
    | [] => False
    | t :: xs => 0 ≤ t ∧ (xs.map fun x => x * x).sum ≤ t * t

def Bounds (c : Constraint α) (z : Array α) (x t : α) : Prop :=
  c.cone = "SOC" ∧ c.form.rows.toList.map (·.value z) = [t + 1, x * (1 + 1), t + -1]

theorem Bounds.holds_iff [LinearOrder α] [IsStrictOrderedRing α] {c : Constraint α} {z : Array α}
    {x t : α} (h : c.Bounds z x t) : c.Holds z ↔ x * x ≤ t := by
  rw [Holds, h.1, h.2]
  simp only [List.map_cons, List.map_nil, List.sum_cons, List.sum_nil, true_and]
  constructor
  · rintro ⟨-, hs⟩
    nlinarith
  · intro hs
    have := mul_self_nonneg x
    constructor <;> nlinarith

end Constraint

namespace Pass

def auxiliary? (P : Pass α) (id : String) : Option Unknown :=
  (P.auxiliaries.find? fun a => a.square?.any (·.id == id)).map (·.unknown)

/-- The entries of a node when unknowns are read from a stacked vector, and squares from the slots
of their auxiliaries. -/
def means (P : Pass α) (L : Layout) (z : Array α) (n : Node α) : Nat → Nat → α :=
  n.entry (L.reading z) fun id => (P.auxiliary? id).map (L.reading z)

theorem means_square {P : Pass α} {tag : Tag} {u : Unknown} (h : P.auxiliary? tag.id = some u)
    (L : Layout) (z : Array α) (x : Node α) : P.means L z (.square tag x) = L.reading z u := by
  rw [means, Node.entry, h, Option.map_some]

variable [Scalar α]

structure Cones (P : Pass α) (L : Layout) (N : List (Node α)) (tag : Tag) (x : Node α)
    (cs : List (Constraint α)) : Prop where
  mem : .square tag x ∈ N
  held : P.contains tag.id = true
  vexity : x.vexity ≠ .constant
  length : cs.length = tag.size.height * tag.size.width
  bounds : ∀ i < tag.size.height, ∀ j < tag.size.width, ∃ c,
    cs[j * tag.size.height + i]? = some c ∧
      ∀ z, c.Bounds z (P.means L z x i j) (P.means L z (.square tag x) i j)

structure Demand (α : Type) where
  tag : Tag
  operand : Node α
  cones : List (Constraint α)

structure Emitted (P : Pass α) (L : Layout) (N : List (Node α)) (demands : List (Demand α)) :
    Prop where
  constraints : P.constraints.toList = demands.flatMap (·.cones)
  ids : (demands.map (·.tag.id)).Nodup
  cones : ∀ d ∈ demands, P.Cones L N d.tag d.operand d.cones
  held : ∀ tag x, .square tag x ∈ N → P.contains tag.id = true → x.vexity ≠ .constant →
    ∃ d ∈ demands, d.tag.id = tag.id

/-- A pass whose forms compute what their nodes mean. Below a node that it holds, the unknowns have
their slots and the squares their auxiliaries, each introduced after its square; the constraints are
those of the squares that it holds, one for every entry. -/
structure Compiled (P : Pass α) (L : Layout) (N : List (Node α)) : Prop where
  slots : ∀ u, .unknown u ∈ N → P.contains u.id = true →
    ∃ slot, L.find? u.id = some slot ∧ (slot.length : Int) = u.size.count
  squares : ∀ tag x, .square tag x ∈ N → P.contains tag.id = true → x.vexity ≠ .constant →
    ∃ u, P.auxiliary? tag.id = some u ∧ u.size = tag.size
  introduced : ∀ a ∈ P.auxiliaries, (∃ slot, L.find? a.unknown.id = some slot) ∧
    ∀ q, a.square? = some q → ∃ tag x, q = .square tag x ∧ q ∈ N ∧ x.vexity ≠ .constant ∧
      tag.ref < a.unknown.ref
  forms : ∀ n ∈ N, ∀ F, P.find? n.id = some F → ∀ z, F.Computes z n.size (P.means L z n)
  emitted : ∃ demands, P.Emitted L N demands

variable {P P' : Pass α} {L L' : Layout} {N N' : List (Node α)} {n m : Node α}

theorem compiled_empty (config : Config) (L : Layout) :
    (empty config : Pass α).Compiled L N := by
  have hnone (id : String) : (empty config : Pass α).find? id = none := by
    simp [empty, find?]
  have hcontains (id : String) : ¬(empty config : Pass α).contains id = true := by
    simp [contains, hnone]
  refine ⟨fun u _ h => absurd h (hcontains _), fun tag x _ h => absurd h (hcontains _), by rintro _ ⟨⟩,
    fun n _ F h => ?_, [], rfl, List.nodup_nil, (by simp), fun tag x _ h => absurd h (hcontains _)⟩
  rw [hnone] at h
  cases h

theorem Cones.alike {tag tag' : Tag} {x x' : Node α} {cs : List (Constraint α)}
    (h : P.Cones L N tag x cs) (hal : (Node.square tag x).Alike (.square tag' x')) :
    ∀ i < tag'.size.height, ∀ j < tag'.size.width, ∃ c,
      cs[j * tag'.size.height + i]? = some c ∧
        ∀ z, c.Bounds z (P.means L z x' i j) (P.means L z (.square tag' x') i j) := by
  obtain ⟨_, _, he, hs, hax⟩ := hal.square_eq
  obtain ⟨rfl, rfl⟩ := Node.square.inj he
  intro i hi j hj
  obtain ⟨c, hc, hb⟩ := h.bounds i (hs ▸ hi) j (hs ▸ hj)
  refine ⟨c, hs ▸ hc, fun z => ?_⟩
  have hz := hb z
  rw [means, means, hax.entry_eq, hal.entry_eq] at hz
  exact hz

theorem Compiled.bounded (hP : P.Compiled L N) (hN : Node.Faithful N) : ∀ tag x,
    .square tag x ∈ N → P.contains tag.id = true → x.vexity ≠ .constant →
    ∀ i < tag.size.height, ∀ j < tag.size.width, ∃ c ∈ P.constraints, ∀ z,
      c.Bounds z (P.means L z x i j) (P.means L z (.square tag x) i j) := by
  intro tag x hx hcx hv i hi j hj
  obtain ⟨demands, hd⟩ := hP.emitted
  obtain ⟨d, hdm, he⟩ := hd.held tag x hx hcx hv
  have hcones := hd.cones d hdm
  obtain ⟨c, hc, hb⟩ := hcones.alike (hN _ hcones.mem _ hx he) i hi j hj
  refine ⟨c, ?_, hb⟩
  rw [← Array.mem_toList_iff, hd.constraints]
  exact List.mem_flatMap.mpr ⟨d, hdm, List.mem_of_getElem? hc⟩

theorem Compiled.bounds (hP : P.Compiled L N) : ∀ c ∈ P.constraints, ∃ tag x, .square tag x ∈ N ∧
    P.contains tag.id = true ∧ x.vexity ≠ .constant ∧ ∃ i < tag.size.height,
    ∃ j < tag.size.width, ∀ z,
      c.Bounds z (P.means L z x i j) (P.means L z (.square tag x) i j) := by
  intro c hc
  obtain ⟨demands, hd⟩ := hP.emitted
  rw [← Array.mem_toList_iff, hd.constraints] at hc
  obtain ⟨d, hdm, hcd⟩ := List.mem_flatMap.mp hc
  have hcones := hd.cones d hdm
  obtain ⟨k, hk, rfl⟩ := List.mem_iff_getElem.mp hcd
  obtain ⟨hi, hj, he⟩ := Dense.index_split (hcones.length ▸ hk)
  obtain ⟨c, hc, hb⟩ := hcones.bounds _ hi _ hj
  rw [he, List.getElem?_eq_getElem hk] at hc
  obtain rfl := Option.some.inj hc
  exact ⟨d.tag, d.operand, hcones.mem, hcones.held, hcones.vexity, _, hi, _, hj, hb⟩

theorem Compiled.means_eq (hP : P.Compiled L N) (hS : P.Shaped L N) (hN : Node.Family N)
    (hn : n ∈ N) (hc : P.contains n.id = true)
    (hL : ∀ id slot, L.find? id = some slot → L'.find? id = some slot)
    (ha : ∀ id, P.contains id = true → P'.auxiliary? id = P.auxiliary? id) (z : Array α) :
    ∀ i < n.size.height, ∀ j < n.size.width, P'.means L' z n i j = P.means L z n i j := by
  refine Node.entry_congr (hN.formed n hn) (fun u hu i _ j _ => ?_) fun tag y hy => .inl ?_
  · have hcu := hS.below hN hn hc hu
    obtain ⟨slot, hslot, -⟩ := hP.slots u (hN.preorder_subset hn hu) hcu
    rw [Layout.reading_congr z hslot (hL _ _ hslot)]
  · change (P'.auxiliary? tag.id).map (L'.reading z) = (P.auxiliary? tag.id).map (L.reading z)
    rw [ha tag.id (hS.below hN hn hc hy)]
    cases hau : P.auxiliary? tag.id with
    | none => rfl
    | some u =>
      obtain ⟨a, hfind, rfl⟩ := Option.map_eq_some_iff.mp hau
      obtain ⟨slot, hslot⟩ := (hP.introduced a (List.mem_of_find?_eq_some hfind)).1
      rw [Option.map_some, Option.map_some, Layout.reading_congr z hslot (hL _ _ hslot)]

theorem Compiled.extend (hP : P.Compiled L N) (hS : P.Shaped L N) (hN : Node.Family N)
    (hN' : Node.Faithful N') (hNN : N ⊆ N') (hf : P'.forms = P.forms)
    (hc : P'.constraints = P.constraints)
    (hL : ∀ id slot, L.find? id = some slot → L'.find? id = some slot)
    (ha : ∀ id, P.contains id = true → P'.auxiliary? id = P.auxiliary? id)
    (hi : ∀ a ∈ P'.auxiliaries, (∃ slot, L'.find? a.unknown.id = some slot) ∧
      ∀ q, a.square? = some q → ∃ tag x, q = .square tag x ∧ q ∈ N' ∧ x.vexity ≠ .constant ∧
        tag.ref < a.unknown.ref) :
    P'.Compiled L' N' := by
  refine ⟨?_, ?_, hi, ?_, ?_⟩
  · intro u hu hcu
    rw [contains_congr hf] at hcu
    obtain ⟨m, hm, -, hal⟩ := hS.alike hN' hNN hu hcu
    obtain ⟨slot, hslot, hlen⟩ := hP.slots u (hal.unknown_eq ▸ hm) hcu
    exact ⟨slot, hL _ _ hslot, hlen⟩
  · intro tag x hx hcx hv
    rw [contains_congr hf] at hcx
    obtain ⟨m, hm, he, hal⟩ := hS.alike hN' hNN hx hcx
    obtain ⟨tag', x', rfl, hs, hax⟩ := hal.square_eq
    have he : tag'.id = tag.id := he
    obtain ⟨u, hu, hus⟩ := hP.squares tag' x' hm (he ▸ hcx) (hax.vexity_eq ▸ hv)
    exact ⟨u, by rw [ha _ hcx, ← he, hu], hus.trans hs⟩
  · intro n hn F hF z
    rw [find?_congr hf] at hF
    obtain ⟨m, hm, he, hal⟩ := hS.alike hN' hNN hn (contains_of_find? hF)
    have hcompute := (hP.forms m hm F (he ▸ hF) z).congr fun i hi j hj =>
      (hP.means_eq hS hN hm (he ▸ contains_of_find? hF) hL ha z i hi j hj).symm
    rw [means, hal.size_eq, hal.entry_eq] at hcompute
    exact hcompute
  · obtain ⟨demands, hd⟩ := hP.emitted
    refine ⟨demands, by rw [hc, hd.constraints], hd.ids, fun d hdm => ?_, fun tag x hx hcx hv => ?_⟩
    · have hcones := hd.cones d hdm
      have hxc := Node.square_mem_children d.tag d.operand
      have hxN := hN.children _ hcones.mem _ hxc
      have hcx := hS.children _ hcones.mem hcones.held _ hxc
      have hs : d.tag.size = d.operand.size := (hN.formed _ hcones.mem).1
      refine ⟨hNN hcones.mem, (contains_congr hf _).trans hcones.held, hcones.vexity,
        hcones.length, fun i hi j hj => ?_⟩
      obtain ⟨c, hc, hb⟩ := hcones.bounds i hi j hj
      refine ⟨c, hc, fun z => ?_⟩
      rw [hP.means_eq hS hN hxN hcx hL ha z i (hs ▸ hi) j (hs ▸ hj),
        hP.means_eq hS hN hcones.mem hcones.held hL ha z i hi j hj]
      exact hb z
    · rw [contains_congr hf] at hcx
      obtain ⟨m, hm, he, hal⟩ := hS.alike hN' hNN hx hcx
      obtain ⟨tag', x', rfl, -, hax⟩ := hal.square_eq
      have he : tag'.id = tag.id := he
      obtain ⟨d, hdm, hid⟩ := hd.held tag' x' hm (he ▸ hcx) (hax.vexity_eq ▸ hv)
      exact ⟨d, hdm, hid.trans he⟩

theorem Compiled.forms_store (hP : P.Compiled L N) (hN : Node.Faithful N) (hn : n ∈ N) {F : Form α}
    (hF : ∀ z, F.Computes z n.size (P.means L z n)) :
    ∀ m ∈ N, ∀ G, (P.store n.id F).find? m.id = some G →
      ∀ z, G.Computes z m.size (P.means L z m) := by
  intro m hm G hG z
  rw [find?_store] at hG
  split at hG
  · next he =>
    obtain rfl := Option.some.inj hG
    have hal := hN n hn m hm he
    have hcompute := hF z
    rw [means, hal.size_eq, hal.entry_eq] at hcompute
    exact hcompute
  · exact hP.forms m hm G hG z

theorem Compiled.slots_store (hP : P.Compiled L N) (hN : Node.Faithful N) (hn : n ∈ N) {F : Form α}
    (hu : ∀ u, n = .unknown u → ∃ slot, L.find? u.id = some slot ∧
      (slot.length : Int) = u.size.count) :
    ∀ u, .unknown u ∈ N → (P.store n.id F).contains u.id = true →
      ∃ slot, L.find? u.id = some slot ∧ (slot.length : Int) = u.size.count := by
  intro u hm hc
  rcases eq_or_contains_of_store hc with he | hc
  · exact hu u (hN n hn _ hm he).unknown_eq
  · exact hP.slots u hm hc

theorem Compiled.store (hP : P.Compiled L N) (hN : Node.Faithful N) (hn : n ∈ N) {F : Form α}
    (hF : ∀ z, F.Computes z n.size (P.means L z n))
    (hu : ∀ u, n = .unknown u → ∃ slot, L.find? u.id = some slot ∧
      (slot.length : Int) = u.size.count)
    (hsq : ∀ tag x, n = .square tag x → x.vexity = .constant) :
    (P.store n.id F).Compiled L N := by
  -- the squares of the identity of the node have constant arguments as well
  have hold : ∀ tag x, .square tag x ∈ N → (P.store n.id F).contains tag.id = true →
      x.vexity ≠ .constant → P.contains tag.id = true := by
    intro tag x hx hc hv
    refine (eq_or_contains_of_store hc).resolve_left fun he => ?_
    obtain ⟨tag', x', rfl, -, hax⟩ := (hN n hn _ hx he).square_eq
    exact hv (hax.vexity_eq ▸ hsq tag' x' rfl)
  obtain ⟨demands, hd⟩ := hP.emitted
  refine ⟨hP.slots_store hN hn hu, fun tag x hx hc hv => hP.squares tag x hx (hold tag x hx hc hv) hv,
    hP.introduced, hP.forms_store hN hn hF, demands, hd.constraints, hd.ids, fun d hdm => ?_,
    fun tag x hx hc hv => hd.held tag x hx (hold tag x hx hc hv) hv⟩
  have hcones := hd.cones d hdm
  exact ⟨hcones.mem, contains_store hcones.held, hcones.vexity, hcones.length, hcones.bounds⟩

theorem Compiled.store_square {tag : Tag} {x : Node α} {u : Unknown} {F : Form α}
    {cs : Array (Constraint α)} (hP : P.Compiled L N) (hN : Node.Faithful N)
    (hsq : .square tag x ∈ N) (hv : x.vexity ≠ .constant) (hnew : P.contains tag.id = false)
    (hau : P.auxiliary? tag.id = some u) (hus : u.size = tag.size)
    (hF : ∀ z, F.Computes z tag.size (P.means L z (.square tag x)))
    (hlength : cs.size = tag.size.height * tag.size.width)
    (hbounds : ∀ i < tag.size.height, ∀ j < tag.size.width, ∃ c,
      cs[j * tag.size.height + i]? = some c ∧
        ∀ z, c.Bounds z (P.means L z x i j) (P.means L z (.square tag x) i j)) :
    ((P.addConstraints cs).store tag.id F).Compiled L N := by
  obtain ⟨demands, hd⟩ := hP.emitted
  refine ⟨hP.slots_store (n := .square tag x) hN hsq nofun, fun tag' x' hx' hc hv' => ?_,
    hP.introduced, hP.forms_store (n := .square tag x) hN hsq hF,
    demands ++ [⟨tag, x, cs.toList⟩], ?_, ?_, ?_, ?_⟩
  · rcases eq_or_contains_of_store hc with he | hc
    · obtain ⟨tag₀, x₀, heq, hs, -⟩ := (hN _ hsq _ hx' he).square_eq
      obtain ⟨rfl, rfl⟩ := Node.square.inj heq
      exact ⟨u, he ▸ hau, hus.trans hs⟩
    · exact hP.squares tag' x' hx' hc hv'
  · rw [List.flatMap_append, List.flatMap_singleton, ← hd.constraints]
    exact Array.toList_append
  · rw [List.map_append, List.map_singleton]
    refine List.nodup_append.mpr ⟨hd.ids, List.nodup_singleton _, ?_⟩
    rintro id hid _ hid' rfl
    obtain ⟨d, hdm, rfl⟩ := List.mem_map.mp hid
    rw [← List.mem_singleton.mp hid', (hd.cones d hdm).held] at hnew
    cases hnew
  · intro d hdm
    rcases List.mem_append.mp hdm with hdm | hdm
    · have hcones := hd.cones d hdm
      exact ⟨hcones.mem, contains_store hcones.held, hcones.vexity, hcones.length, hcones.bounds⟩
    · rw [List.mem_singleton.mp hdm]
      refine ⟨hsq, contains_store_self .., hv, hlength, fun i hi j hj => ?_⟩
      obtain ⟨c, hc, hb⟩ := hbounds i hi j hj
      exact ⟨c, (Array.getElem?_toList ..).trans hc, hb⟩
  · intro tag' x' hx' hc hv'
    rcases eq_or_contains_of_store hc with he | hc
    · exact ⟨_, List.mem_append_right _ (List.mem_singleton_self _), he⟩
    · obtain ⟨d, hdm, he⟩ := hd.held tag' x' hx' hc hv'
      exact ⟨d, List.mem_append_left _ hdm, he⟩

theorem Compiled.auxiliary?_of_constant (hP : P.Compiled L N) (hN : Node.Family N)
    (hN' : Node.Faithful N) {tag : Tag} {x : Node α} (hx : .square tag x ∈ N)
    (hv : (Node.square tag x).vexity = .constant) : P.auxiliary? tag.id = none := by
  cases hau : P.auxiliary? tag.id with
  | none => rfl
  | some u =>
    obtain ⟨a, hfind, -⟩ := Option.map_eq_some_iff.mp hau
    have hid := List.find?_some hfind
    obtain ⟨q, hq, he⟩ := (Option.any_eq_true _ _).mp hid
    obtain ⟨tag', x', rfl, hqN, hv', -⟩ :=
      (hP.introduced a (List.mem_of_find?_eq_some hfind)).2 q hq
    have hal := hN' _ hqN _ hx (beq_iff_eq.mp he)
    rw [← hal.vexity_eq] at hv
    have hx' := Node.square_mem_children tag' x'
    exact absurd (Node.vexity_children (hN.formed _ hqN) hv x' hx') hv'

theorem Compiled.constantValue_holds (hP : P.Compiled L N) (hN : Node.Family N)
    (hN' : Node.Faithful N) (hn : n ∈ N) (hv : n.vexity = .constant) {A : Dense α}
    (hA : n.constantValue = .ok A) (z : Array α) : A.Holds n.size (P.means L z n) := by
  have hform := hN.formed n hn
  have hholds := Node.evaluate_holds hform hA
  refine ⟨hholds.size, fun i hi j hj => ?_⟩
  rw [hholds.entry i hi j hj, means]
  refine (Node.entry_of_constant _ _ hform hv (fun tag y hy => ?_) i hi j hj).symm
  rw [hP.auxiliary?_of_constant hN hN' (hN.preorder_subset hn hy) (Node.vexity_below hform hv hy)]
  rfl

omit [Scalar α] [Field α] in
theorem auxiliary?_cons {a : Auxiliary α} {id : String} (h : ∀ q, a.square? = some q → q.id ≠ id) :
    auxiliary? { P with auxiliaries := a :: P.auxiliaries } id = P.auxiliary? id := by
  rw [auxiliary?, auxiliary?, List.find?_cons_of_neg]
  intro hq
  obtain ⟨q, hq, he⟩ := (Option.any_eq_true _ _).mp hq
  exact h q hq (beq_iff_eq.mp he)

omit [Scalar α] [Field α] in
theorem auxiliary?_cons_self {u : Unknown} {q : Node α} :
    auxiliary? { P with auxiliaries := ⟨u, some q⟩ :: P.auxiliaries } q.id = some u := by
  rw [auxiliary?, List.find?_cons_of_pos]
  · rfl
  · exact (Option.any_eq_true _ _).mpr ⟨q, rfl, beq_self_eq_true _⟩

theorem Compiled.introduce (hP : P.Compiled L N) (hS : P.Shaped L N) (hN : Node.Family N)
    {u : Unknown} {square? : Option (Node α)} (hN' : Node.Faithful (.unknown u :: N))
    (hq : ∀ q, square? = some q → P.contains q.id = false ∧ ∃ tag x, q = .square tag x ∧ q ∈ N ∧
      x.vexity ≠ .constant ∧ tag.ref < u.ref) :
    Compiled { P with auxiliaries := ⟨u, square?⟩ :: P.auxiliaries } (L.register (.unknown u))
      (.unknown u :: N) := by
  refine hP.extend hS hN hN' (List.subset_cons_self ..) rfl rfl
    (fun _ _ h => Layout.find?_register _ h) (fun id hid => ?_) fun a ha => ?_
  · refine auxiliary?_cons fun q hsq he => ?_
    have hcq : P.contains q.id = false := (hq q hsq).1
    rw [he, hid] at hcq
    cases hcq
  · rcases List.mem_cons.mp ha with rfl | ha
    · refine ⟨Option.isSome_iff_exists.mp (Layout.contains_register L (.unknown u)), fun q hsq => ?_⟩
      obtain ⟨-, tag, x, he, hqN, hv, hlt⟩ := hq q hsq
      exact ⟨tag, x, he, List.mem_cons_of_mem _ hqN, hv, hlt⟩
    · obtain ⟨⟨slot, hslot⟩, hsq⟩ := hP.introduced a ha
      refine ⟨⟨slot, Layout.find?_register _ hslot⟩, fun q hqa => ?_⟩
      obtain ⟨tag, x, he, hqN, hv, hlt⟩ := hsq q hqa
      exact ⟨tag, x, he, List.mem_cons_of_mem _ hqN, hv, hlt⟩

end Pass

end DisciplinedConvex
