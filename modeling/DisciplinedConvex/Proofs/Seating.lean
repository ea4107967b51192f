import DisciplinedConvex.Proofs.Canonical
import DisciplinedConvex.Proofs.Ordering

open DisciplinedConvex.Task

namespace DisciplinedConvex

namespace Layout

variable {L : Layout} {h : Holder} {id : String} {k : Int}

def start? (L : Layout) (id : String) : Option Int := (L.find? id).map (·.start)

theorem isSome_start? (L : Layout) (id : String) : (L.start? id).isSome = L.contains id := by
  rw [start?, Option.isSome_map, contains]

theorem start?_register_of_ne (L : Layout) (hid : h.id ≠ id) :
    (L.register h).start? id = L.start? id := by
  unfold register
  split
  · rfl
  · rw [start?, start?, find?, Array.find?_push, ← find?]
    rw [if_neg (by simpa using hid), Option.or_none]

theorem start?_register (hk : L.start? id = some k) : (L.register h).start? id = some k := by
  obtain ⟨slot, hslot, rfl⟩ := Option.map_eq_some_iff.mp hk
  rw [start?, find?_register h hslot]
  rfl

theorem start?_register_new (hc : L.contains h.id = false) :
    (L.register h).start? h.id = some L.size := by
  have hnone : L.find? h.id = none := by
    rwa [contains, Option.isSome_eq_false_iff, Option.isNone_iff_eq_none] at hc
  rw [register, if_neg (by simp [hc]), start?, find?, Array.find?_push, ← find?, hnone]
  simp

theorem contains_register_iff (L : Layout) (h : Holder) (id : String) :
    (L.register h).contains id = true ↔ L.contains id = true ∨ h.id = id := by
  by_cases hid : h.id = id
  · subst hid
    simp [contains_register]
  · rw [← isSome_start?, start?_register_of_ne L hid, isSome_start?]
    simp [hid]

theorem start?_register_congr {L' : Layout} (hsize : L'.size = L.size)
    (hh : L'.start? h.id = L.start? h.id) (hid : L'.start? id = L.start? id) :
    (L'.register h).start? id = (L.register h).start? id := by
  by_cases he : h.id = id
  · subst he
    have hcontains : L'.contains h.id = L.contains h.id := by
      rw [← isSome_start?, ← isSome_start?, hh]
    cases hc : L.contains h.id with
    | true => rw [register_of_contains hc, register_of_contains (hcontains.trans hc), hh]
    | false =>
      rw [start?_register_new hc, start?_register_new (hcontains.trans hc), hsize]
  · rw [start?_register_of_ne _ he, start?_register_of_ne _ he, hid]

variable {α : Type} {N : List (Node α)} {u : Unknown}

theorem Stacked.not_contains (hL : L.Stacked N) (hN : Node.Faithful (.unknown u :: N))
    (hu : .unknown u ∉ N) : L.contains u.id = false := by
  refine Bool.eq_false_iff.mpr fun hc => ?_
  obtain ⟨slot, hslot⟩ := Option.isSome_iff_exists.mp hc
  obtain ⟨hmem, hid⟩ := mem_of_find? hslot
  obtain ⟨v, hv, hvN⟩ := hL.holders slot hmem
  rw [hv] at hid
  have hal := hN _ (List.mem_cons_of_mem _ hvN) _ (List.mem_cons_self ..) hid
  exact hu (hal.unknown_eq ▸ hvN)

end Layout

def Layout.seating {α : Type} [Scalar α] (L : Layout) (order : List (Node α)) : Layout :=
  (order.filterMap Node.seat?).foldl register L

def Layout.seat {α : Type} [Scalar α] (L : Layout) (n : Node α) : Layout :=
  n.seat?.elim L L.register

theorem Layout.seating_cons {α : Type} [Scalar α] (L : Layout) (n : Node α) (rest : List (Node α)) :
    L.seating (n :: rest) = (L.seat n).seating rest := by
  rw [seating, seat, List.filterMap_cons]
  cases n.seat? with
  | none => rfl
  | some h => rfl

variable {α : Type} [Scalar α]

namespace Compilation

variable {s s' t : Compilation α} {ns N : List (Node α)} {n x : Node α} {L : Layout}

structure Seated (s : Compilation α) (N : List (Node α)) (L : Layout) : Prop where
  size : s.layout.size = L.size
  unknowns : ∀ u, .unknown u ∈ N → s.layout.start? u.id = L.start? u.id
  squares : ∀ tag x, .square tag x ∈ N → x.vexity ≠ .constant → s.pass.contains tag.id = true →
    ∃ a, s.problem.slot? (.square tag x) = some a ∧ L.start? tag.id = some a.start
  labels : ∀ id, L.contains id = true →
    s.pass.contains id = true ∨ ∃ u, .unknown u ∈ N ∧ u.id = id

variable [Field α]

theorem Sound.seated (h : s.Sound ns) (hnew : ∀ id, s.pass.contains id = false) :
    s.Seated (s.nodes ns) s.layout where
  size := rfl
  unknowns _ _ := rfl
  squares tag x _ _ hc := by
    rw [hnew] at hc
    cases hc
  labels id hid := by
    obtain ⟨slot, hslot⟩ := Option.isSome_iff_exists.mp hid
    obtain ⟨hmem, rfl⟩ := Layout.mem_of_find? hslot
    obtain ⟨u, hu, huN⟩ := h.stacked.holders slot hmem
    exact .inr ⟨u, huN, by rw [hu]; rfl⟩

omit [Field α] [Scalar α] in
theorem slot?_square_congr {tag : Tag} (haux : s'.pass.auxiliary? tag.id = s.pass.auxiliary? tag.id)
    (hslots : ∀ id slot, s.layout.find? id = some slot → s'.layout.find? id = some slot) {a : Slot}
    (ha : s.problem.slot? (.square tag x) = some a) :
    s'.problem.slot? (.square tag x) = some a := by
  obtain ⟨u, hu, ha⟩ := Option.bind_eq_some_iff.mp ha
  exact Option.bind_eq_some_iff.mpr ⟨u, haux.trans hu, hslots _ _ ha⟩

omit [Field α] in
theorem Seated.store (h : t.Seated N L) (hN : Node.Faithful N) (hn : n ∈ N)
    (hsq : ∀ tag x, n = .square tag x → x.vexity = .constant) (hlayout : s'.layout = t.layout)
    (haux : s'.pass.auxiliaries = t.pass.auxiliaries)
    (hkept : ∀ id, t.pass.contains id = true → s'.pass.contains id = true)
    (hadded : ∀ id, s'.pass.contains id = true → t.pass.contains id = true ∨ id = n.id) :
    s'.Seated N L where
  size := hlayout ▸ h.size
  unknowns := hlayout ▸ h.unknowns
  squares tag x hx hv hc := by
    rcases hadded _ hc with hc | hid
    · obtain ⟨a, ha, hstart⟩ := h.squares tag x hx hv hc
      refine ⟨a, slot?_square_congr ?_ (fun _ _ hs => hlayout ▸ hs) ha, hstart⟩
      rw [Pass.auxiliary?, Pass.auxiliary?, haux]
    · -- a node of the identity of a square that varies is one
      obtain ⟨tag', x', rfl, -, hal⟩ := (hN n hn _ hx hid.symm).square_eq
      exact absurd (hal.vexity_eq ▸ hsq tag' x' rfl) hv
  labels id hid := (h.labels id hid).imp_left (hkept id)

omit [Field α] in
theorem Seated.store_unknown {u : Unknown} (h : t.Seated N L) (hN : Node.Faithful N)
    (hu : .unknown u ∈ N) (hlayout : s'.layout = t.layout.register (.unknown u))
    (haux : s'.pass.auxiliaries = t.pass.auxiliaries)
    (hkept : ∀ id, t.pass.contains id = true → s'.pass.contains id = true)
    (hadded : ∀ id, s'.pass.contains id = true → t.pass.contains id = true ∨ id = u.id) :
    s'.Seated N (L.register (.unknown u)) where
  size := by
    have hcontains : t.layout.contains (Holder.unknown u).id = L.contains (Holder.unknown u).id := by
      rw [← Layout.isSome_start?, ← Layout.isSome_start?]
      exact congrArg Option.isSome (h.unknowns u hu)
    rw [hlayout]
    cases hc : L.contains (Holder.unknown u).id with
    | true =>
      rw [Layout.register_of_contains hc, Layout.register_of_contains (hcontains.trans hc), h.size]
    | false =>
      rw [Layout.size_register hc, Layout.size_register (hcontains.trans hc), h.size]
  unknowns v hv := by
    rw [hlayout]
    exact Layout.start?_register_congr h.size (h.unknowns u hu) (h.unknowns v hv)
  squares tag x hx hv hc := by
    rcases hadded _ hc with hc | hid
    · obtain ⟨a, ha, hstart⟩ := h.squares tag x hx hv hc
      refine ⟨a, slot?_square_congr ?_ (fun _ _ hs => ?_) ha, Layout.start?_register hstart⟩
      · rw [Pass.auxiliary?, Pass.auxiliary?, haux]
      · exact hlayout ▸ Layout.find?_register _ hs
    · cases hN _ hx _ hu hid
  labels id hid := by
    rcases (Layout.contains_register_iff L _ id).mp hid with hid | rfl
    · exact (h.labels id hid).imp_left (hkept id)
    · exact .inr ⟨u, hu, rfl⟩

omit [Field α] in
theorem Seated.store_square {tag : Tag} {u : Unknown} (h : t.Seated N L) (hN : Node.Faithful N)
    (hsq : .square tag x ∈ N) (hnew : t.pass.contains tag.id = false)
    (hcount : u.size = tag.size) (hu : t.layout.contains u.id = false)
    (hfresh : ∀ m ∈ N, m.id ≠ u.id)
    (hlayout : s'.layout = t.layout.register (.unknown u))
    (haux : s'.pass.auxiliaries = ⟨u, some (.square tag x)⟩ :: t.pass.auxiliaries)
    (hkept : ∀ id, t.pass.contains id = true → s'.pass.contains id = true)
    (hheld : s'.pass.contains tag.id = true)
    (hadded : ∀ id, s'.pass.contains id = true →
      t.pass.contains id = true ∨ id = tag.id ∨ id = u.id) :
    s'.Seated N (L.register (.other tag.id tag.size)) := by
  have hother : L.contains (Holder.other tag.id tag.size).id = false := by
    refine Bool.eq_false_iff.mpr fun hc => ?_
    rcases h.labels _ hc with hc | ⟨v, hv, he⟩
    · rw [Holder.id, hnew] at hc
      cases hc
    · cases hN _ hsq _ hv he.symm
  have hcons (id : String) : s'.pass.auxiliary? id = Pass.auxiliary?
      { t.pass with auxiliaries := ⟨u, some (.square tag x)⟩ :: t.pass.auxiliaries } id := by
    rw [Pass.auxiliary?, haux]
    rfl
  refine ⟨?_, fun v hv => ?_, fun tag' x' hx hv hc => ?_, fun id hid => ?_⟩
  · rw [hlayout, Layout.size_register hu, Layout.size_register hother, h.size]
    exact congrArg (fun n : Size => L.size + n.count) hcount
  · have hvu : (Holder.unknown u).id ≠ v.id := fun he => hfresh _ hv he.symm
    have hvt : (Holder.other tag.id tag.size).id ≠ v.id := fun he => by cases hN _ hsq _ hv he
    rw [hlayout, Layout.start?_register_of_ne _ hvu, Layout.start?_register_of_ne _ hvt]
    exact h.unknowns v hv
  · by_cases hid : tag'.id = tag.id
    · have hnext := Layout.start?_register_new (L := t.layout) (h := Holder.unknown u) hu
      obtain ⟨a, ha, hstart⟩ := Option.map_eq_some_iff.mp hnext
      have hau : s'.pass.auxiliary? tag'.id = some u := by
        rw [hid, hcons]
        exact Pass.auxiliary?_cons_self
      have hslot : s'.layout.find? u.id = some a := by
        rw [hlayout]
        exact ha
      refine ⟨a, Option.bind_eq_some_iff.mpr ⟨u, hau, hslot⟩, ?_⟩
      rw [hstart, hid, h.size]
      exact Layout.start?_register_new hother
    · have hc' := ((hadded _ hc).resolve_right fun he => he.elim hid (hfresh _ hx))
      obtain ⟨a, ha, hstart⟩ := h.squares tag' x' hx hv hc'
      refine ⟨a, slot?_square_congr ?_ (fun _ _ hs => ?_) ha, Layout.start?_register hstart⟩
      · rw [hcons]
        refine Pass.auxiliary?_cons fun q hq he => hid ?_
        obtain rfl := Option.some.inj hq
        exact he.symm
      · exact hlayout ▸ Layout.find?_register _ hs
  · rcases (Layout.contains_register_iff L _ id).mp hid with hid | rfl
    · exact (h.labels id hid).imp_left (hkept id)
    · exact .inl hheld

theorem Squared.seated {tag : Tag} {X F : Form α} (hr : Squared ns (.square tag x) x X t (.ok F) s')
    (h : t.Tidy ns) (hN : N ⊆ t.nodes ns) (hq : t.Seated N L) (hn : .square tag x ∈ N)
    (hv : x.vexity ≠ .constant) (hnew : t.pass.contains tag.id = false) :
    s'.Seated N (L.seat (.square tag x)) := by
  have hfaithful : Node.Faithful N := h.faithful.mono hN
  have hx := h.sound.family.children _ (hN hn) x (Node.square_mem_children tag x)
  have hsize : tag.size = x.size := (h.sound.family.formed _ (hN hn)).1
  cases hr with
  | @bounded q r₂ _ s₂ _ hst hN₁ hunew hcu h₂ hb =>
    obtain ⟨w, K, P⟩ := q
    obtain rfl : P = t.pass := hst.pass
    obtain rfl : K = t.layout := hst.layout
    let q : Compilation α := ⟨w, t.layout, t.pass⟩
    let s₁ := q.introduced (some (.square tag x)) x.size
    let u := q.nextAuxiliary x.size
    have hs₁ : s₁.Tidy ns := (hst.tidy h).introduced hN₁ (h.nonneg x hx)
    have hrec := record_unknown_tries hs₁.sound hN₁ hs₁.nonneg (u := u) (List.mem_cons_self ..)
    rw [registered_introduced, Ends, h₂] at hrec
    have hfresh : ∀ m ∈ N, m.id ≠ u.id := fun m hm he =>
      hunew ((hN₁ m (List.mem_cons_of_mem _ (hN hm)) _ (List.mem_cons_self ..) he).unknown_eq ▸
        hN hm)
    cases hb with
    | stored T X' T' hX' hT' =>
      obtain ⟨q₂, hst₂, -, rfl⟩ := hrec
      obtain ⟨w₂, K₂, P₂⟩ := q₂
      obtain rfl : P₂ = s₁.pass := hst₂.pass
      obtain rfl : K₂ = s₁.layout := hst₂.layout
      rw [Layout.seat, Node.seat?, if_neg hv]
      refine hq.store_square hfaithful hn hnew hsize.symm
        (h.sound.stacked.not_contains hN₁ hunew) hfresh rfl rfl
        (fun _ hid => Pass.contains_store (Pass.contains_store hid)) (Pass.contains_store_self ..)
        fun id hid => ?_
      rcases Pass.eq_or_contains_of_store hid with he | hid
      · exact .inr (.inl he.symm)
      · rcases Pass.eq_or_contains_of_store hid with he | hid
        · exact .inr (.inr he.symm)
        · exact .inl hid

theorem compute_seated (h : t.Tidy ns) (hN : N ⊆ t.nodes ns) (hq : t.Seated N L) (hn : n ∈ N)
    (hchildren : ∀ c ∈ n.children, t.pass.contains c.id = true)
    (hnew : t.pass.contains n.id = false) :
    (compute n).Ends t fun r t' => t'.Tidy ns → ∀ F, r = .ok F → t'.Seated N (L.seat n) := by
  have hnN := hN hn
  have hfaithful : Node.Faithful N := h.faithful.mono hN
  have hplain (hu : ∀ u, n ≠ .unknown u) (hsq : ∀ tag x, n = .square tag x → x.vexity = .constant)
      (hseat : n.seat? = none) :
      (compute n).Ends t fun r t' => t'.Tidy ns → ∀ F, r = .ok F → t'.Seated N (L.seat n) := by
    apply (compute_recorded h.sound h.shaped h.nonneg hnN hchildren hu hsq).imp
    rintro _ _ ⟨q, hst, hr⟩ - F rfl
    obtain ⟨-, rfl⟩ := hr
    obtain ⟨w, K, P⟩ := q
    obtain rfl : P = t.pass := hst.pass
    obtain rfl : K = t.layout := hst.layout
    rw [Layout.seat, hseat]
    exact hq.store hfaithful hn hsq rfl rfl (fun _ => Pass.contains_store) fun id hid =>
      (Pass.eq_or_contains_of_store hid).symm.imp_right Eq.symm
  cases n with
  | constant | product | weighted =>
    exact hplain (by rintro _ ⟨⟩) (by rintro _ _ ⟨⟩) rfl
  | unknown u =>
    apply (record_unknown_tries h.sound h.faithful h.nonneg hnN).imp
    rintro _ _ ⟨q, hst, hr⟩ - F rfl
    obtain ⟨-, rfl⟩ := hr
    obtain ⟨w, K, P⟩ := q
    obtain rfl : P = t.pass := hst.pass
    obtain rfl : K = t.layout.register (.unknown u) := hst.layout
    exact hq.store_unknown hfaithful hn rfl rfl (fun _ => Pass.contains_store) fun id hid =>
      (Pass.eq_or_contains_of_store hid).symm.imp_right Eq.symm
  | square tag x =>
    by_cases hv : x.vexity = .constant
    · refine hplain (by rintro _ ⟨⟩) (fun tag' x' he => ?_) (if_pos hv)
      obtain ⟨-, rfl⟩ := Node.square.inj he
      exact hv
    · have hxc := Node.square_mem_children tag x
      have hx := h.sound.family.children _ hnN x hxc
      obtain ⟨X, hX⟩ := Pass.exists_of_contains (hchildren x hxc)
      apply (record_square_ends h.sound h.shaped.known hx hv hX _).imp
      rintro r t' hsquared ht' F rfl
      exact (hsquared ht'.faithful).seated h hN hq hn hv hnew
  | bare => exact (h.sound.family.formed _ hnN).elim

/-- Lowered from scratch, an expression adds to the layout what the nodes below ask for, from the bottom
up and from left to right. -/
theorem lower_seated (h : s.Tidy ns) (hn : n ∈ s.nodes ns)
    (hnew : ∀ id, s.pass.contains id = false) :
    (lower n).Ends s fun r s' => ∀ F, r = .ok F → Node.Faithful (s'.nodes ns) →
      s'.Seated (s.nodes ns) (s.layout.seating (n.postOrder fun _ => false).order) := by
  have hfind : s.pass.find? n.id = none := Option.isSome_eq_false_iff.mp (hnew n.id) |>
    Option.isNone_iff_eq_none.mp
  have hskip : (fun m : Node α => s.pass.contains m.id) = fun _ => false :=
    funext fun m => hnew m.id
  rw [lower, ends_bind, ends_get]
  dsimp only
  rw [hfind]
  simp only [modifyPass, ends_bind, ends_modify, hskip]
  let order := (n.postOrder fun _ => false).order
  have hstart := h.hit ((n.postOrder fun _ => false).met.countP fun _ => false)
  let Q (rest : List (Node α)) (t : Compilation α) : Prop :=
    ∃ L, t.Seated (s.nodes ns) L ∧ L.seating rest = s.layout.seating order
  have hsub : order ⊆ s.nodes ns := fun m hm =>
    h.sound.family.preorder_subset hn (Node.mem_preorder_of_mem_postOrder hm)
  have hready : Ready s.pass order := by
    have hready := ready_postOrder (P := s.pass) (h.sound.family.idsWeigh h.faithful hn)
    rwa [hskip] at hready
  have hrun := turns_run (Q := Q) (E := fun _ _ => True) order hstart
    ⟨s.layout, hstart.sound.seated hnew, rfl⟩ hsub (fun m _ => hnew m.id) hready
  refine (hrun fun m rest t ht hst hm hchildren hnew hq => ?_).imp ?_
  · obtain ⟨L, hseated, hrest⟩ := hq
    apply (compute_seated ht hst hseated (hsub hm) hchildren hnew).imp
    refine fun r t' hr ht' _ _ => ⟨fun F hF => ⟨L.seat m, hr ht' F hF, ?_⟩, fun _ _ => trivial⟩
    rw [← Layout.seating_cons]
    exact hrest
  · rintro (e | b) s' hr
    · rintro _ ⟨⟩
    · intro F _ hN
      obtain ⟨L, hseated, hL⟩ := (hr hN).2.1 b rfl
      rw [← hL]
      exact hseated

end Compilation

end DisciplinedConvex
