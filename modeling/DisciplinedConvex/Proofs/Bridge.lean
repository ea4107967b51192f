import DisciplinedConvex.Model
import DisciplinedConvex.Proofs.Convexity

open DisciplinedConvex.Task

namespace DisciplinedConvex

variable {α : Type}

def Symbol.ofUnknown (u : Unknown) : Symbol :=
  ⟨u.name, [u.size.rows, u.size.cols], u.sign = .positive, u.sign = .negative⟩

namespace Bridge

/-- What an expression becomes in the modelling language: a product is taken entrywise exactly if a
factor is a scalar, and every unknown is read from the bridge. -/
inductive Restates (B : Bridge) : Node α → Model α → Prop
  | constant (c : Constant α) : Restates B (.constant c) (.constant c.value)
  | unknown {u : Unknown} {s : Symbol} (hs : B.find? u.name = some s) :
      Restates B (.unknown u) (.symbol u.name s)
  | multiply {tag : Tag} {l r : Node α} {a b : Model α} (hs : l.size = .scalar ∨ r.size = .scalar)
      (hl : Restates B l a) (hr : Restates B r b) : Restates B (.product tag l r) (.multiply a b)
  | matmul {tag : Tag} {l r : Node α} {a b : Model α} (hs : ¬(l.size = .scalar ∨ r.size = .scalar))
      (hl : Restates B l a) (hr : Restates B r b) : Restates B (.product tag l r) (.matmul a b)
  | weighted {tag : Tag} (c : Constant α) {x : Node α} {a : Model α} (hx : Restates B x a) :
      Restates B (.weighted tag c x) (.multiply (.constant c.value) a)
  | square {tag : Tag} {x : Node α} {a : Model α} (hx : Restates B x a) :
      Restates B (.square tag x) (.square a)

structure Grows (B : Bridge) (N : List (Node α)) (B' : Bridge) : Prop where
  kept : ∀ name s, B.find? name = some s → B'.find? name = some s
  new : ∀ name s, B'.find? name = some s → B.find? name = some s ∨
    ∃ u, .unknown u ∈ N ∧ u.name = name ∧ s = .ofUnknown u

variable {B B' B'' : Bridge} {N N' : List (Node α)}

theorem Grows.refl (B : Bridge) (N : List (Node α)) : B.Grows N B :=
  ⟨fun _ _ h => h, fun _ _ h => .inl h⟩

theorem Grows.mono (h : B.Grows N B') (hN : N ⊆ N') : B.Grows N' B' :=
  ⟨h.kept, fun name s hs => (h.new name s hs).imp_right fun ⟨u, hu, he⟩ => ⟨u, hN hu, he⟩⟩

theorem Grows.trans (h : B.Grows N B') (h' : B'.Grows N B'') : B.Grows N B'' where
  kept name s hs := h'.kept name s (h.kept name s hs)
  new name s hs := (h'.new name s hs).elim (h.new name s) .inr

theorem Restates.grows {n : Node α} {t : Model α} (h : B.Restates n t) (hB : B.Grows N B') :
    B'.Restates n t := by
  induction h with
  | constant c => exact .constant c
  | unknown hs => exact .unknown (hB.kept _ _ hs)
  | multiply hs _ _ hl hr => exact .multiply hs hl hr
  | matmul hs _ _ hl hr => exact .matmul hs hl hr
  | weighted c _ hx => exact .weighted c hx
  | square _ hx => exact .square hx

theorem Restates.find? {n : Node α} {t : Model α} (h : B.Restates n t) {u : Unknown}
    (hu : .unknown u ∈ n.preorder) : ∃ s, B.find? u.name = some s := by
  induction h with
  | constant c => cases List.mem_singleton.mp hu
  | unknown hs =>
    obtain rfl := Node.unknown.inj (List.mem_singleton.mp hu)
    exact ⟨_, hs⟩
  | multiply _ _ _ hl hr | matmul _ _ _ hl hr =>
    rcases List.mem_cons.mp hu with hu | hu
    · cases hu
    · exact (List.mem_append.mp hu).elim hl hr
  | weighted c _ hx =>
    rcases List.mem_cons.mp hu with hu | hu
    · cases hu
    · exact hx ((List.mem_cons.mp hu).resolve_left nofun)
  | square _ hx => exact hx ((List.mem_cons.mp hu).resolve_left nofun)

theorem find?_of_restates {ms : List (Node α)} {ts : List (Model α)}
    (h : List.Forall₂ B.Restates ms ts) {u : Unknown}
    (hu : .unknown u ∈ ms.flatMap Node.preorder) : ∃ s, B.find? u.name = some s := by
  induction h with
  | nil => cases hu
  | cons ht _ ih => exact (List.mem_append.mp hu).elim ht.find? ih

theorem find?_register {name : String} (h : B.find? name = none) (s : Symbol) (m : String) :
    (B.register name s).find? m = if name = m then some s else B.find? m := by
  have hnew : ¬(B.find? name).isSome = true := by simp [h]
  rw [register, if_neg hnew, find?, Array.find?_push]
  by_cases hm : name = m
  · subst hm
    have hnone : B.symbols.find? (·.1 == name) = none := Option.map_eq_none_iff.mp h
    simp [hnone]
  · simp [hm, find?]

theorem Grows.register {u : Unknown} (h : B.find? u.name = none) :
    B.Grows [(.unknown u : Node α)] (B.register u.name (.ofUnknown u)) where
  kept name s hs := by
    rw [find?_register h, if_neg, hs]
    rintro rfl
    rw [h] at hs
    cases hs
  new name s hs := by
    rw [find?_register h] at hs
    split at hs
    · next he => exact .inr ⟨u, List.mem_singleton_self _, he, (Option.some.inj hs).symm⟩
    · exact .inl hs

theorem Grows.of_empty (h : empty.Grows N B) {name : String} {s : Symbol}
    (hs : B.find? name = some s) : ∃ u, .unknown u ∈ N ∧ u.name = name ∧ s = .ofUnknown u :=
  (h.new name s hs).resolve_left nofun

theorem Grows.own (h : empty.Grows N B) (hnames : Set.InjOn Unknown.name {u | .unknown u ∈ N})
    {u : Unknown} (hu : .unknown u ∈ N) {s : Symbol} (hs : B.find? u.name = some s) :
    s = .ofUnknown u := by
  obtain ⟨v, hv, he, rfl⟩ := h.of_empty hs
  rw [hnames hv hu he]

theorem symbolOf_ends (u : Unknown) (B : Bridge) : (symbolOf u).Ends B fun r B' =>
    B.Grows [(.unknown u : Node α)] B' ∧ ∃ s, r = .ok s ∧ B'.find? u.name = some s := by
  rw [symbolOf, ends_bind, ends_get]
  cases h : B.find? u.name with
  | some s =>
    simp only [h, ends_pure]
    exact ⟨.refl B _, s, rfl, rfl⟩
  | none =>
    simp only [h, ends_bind, ends_modify, ends_pure]
    exact ⟨.register h, _, rfl, (find?_register h _ _).trans (if_pos rfl)⟩

theorem translate_ends {n : Node α} (hn : n.Formed) (B : Bridge) :
    (translate n).Ends B fun r B' => B.Grows n.preorder B' ∧ ∃ t, r = .ok t ∧ B'.Restates n t := by
  induction n generalizing B with
  | constant c => exact ⟨.refl B _, _, rfl, .constant c⟩
  | unknown u =>
    rw [translate, ends_bind]
    refine (symbolOf_ends (α := α) u B).imp ?_
    rintro _ B' ⟨hB, s, rfl, hs⟩
    exact ⟨hB, _, rfl, .unknown hs⟩
  | product tag l r hl hr =>
    have hlc : l.preorder ⊆ (Node.product tag l r).preorder := fun _ =>
      Node.mem_preorder_of_child (Node.left_mem_children tag l r)
    have hrc : r.preorder ⊆ (Node.product tag l r).preorder := fun _ =>
      Node.mem_preorder_of_child (Node.right_mem_children tag l r)
    rw [translate, ends_bind]
    refine (hl hn.2.1 B).imp ?_
    rintro _ B' ⟨hB, a, rfl, ha⟩
    dsimp only
    rw [ends_bind]
    refine (hr hn.2.2 B').imp ?_
    rintro _ B'' ⟨hB', b, rfl, hb⟩
    refine ⟨(hB.mono hlc).trans (hB'.mono hrc), _, rfl, ?_⟩
    split
    · next hs => exact .multiply hs (ha.grows hB') hb
    · next hs => exact .matmul hs (ha.grows hB') hb
  | weighted tag c x hx =>
    have hxc : x.preorder ⊆ (Node.weighted tag c x).preorder := fun _ =>
      Node.mem_preorder_of_child (Node.weighted_mem_children tag c x)
    rw [translate, ends_bind]
    refine (hx hn.2.2 B).imp ?_
    rintro _ B' ⟨hB, a, rfl, ha⟩
    exact ⟨hB.mono hxc, _, rfl, .weighted c ha⟩
  | square tag x hx =>
    have hxc : x.preorder ⊆ (Node.square tag x).preorder := fun _ =>
      Node.mem_preorder_of_child (Node.square_mem_children tag x)
    rw [translate, ends_bind]
    refine (hx hn.2 B).imp ?_
    rintro _ B' ⟨hB, a, rfl, ha⟩
    exact ⟨hB.mono hxc, _, rfl, .square ha⟩
  | bare => exact hn.elim

theorem mapM_translate_ends {ms : List (Node α)} (hms : ∀ m ∈ ms, m.Formed) (B : Bridge) :
    (ms.mapM translate).Ends B fun r B' => B.Grows (ms.flatMap Node.preorder) B' ∧
      ∃ ts, r = .ok ts ∧ List.Forall₂ B'.Restates ms ts := by
  induction ms generalizing B with
  | nil => exact ⟨.refl B _, [], rfl, .nil⟩
  | cons m ms ih =>
    rw [List.mapM_cons, ends_bind]
    refine (translate_ends (hms m (List.mem_cons_self ..)) B).imp ?_
    rintro _ B' ⟨hB, t, rfl, ht⟩
    dsimp only
    rw [ends_bind]
    refine (ih (fun n hn => hms n (List.mem_cons_of_mem _ hn)) B').imp ?_
    rintro _ B'' ⟨hB', ts, rfl, hts⟩
    rw [List.flatMap_cons]
    exact ⟨(hB.mono (List.subset_append_left ..)).trans (hB'.mono (List.subset_append_right ..)),
      t :: ts, rfl, .cons (ht.grows hB') hts⟩

end Bridge

section Values

variable [Zero α] [Mul α]

def Dense.entrywise? (A B : Dense α) : Option (Dense α) :=
  if A.size = .scalar then some (B.map (A.item * ·))
  else if B.size = .scalar then some (A.map (· * B.item))
  else if A.size = B.size then some (A.hadamard B)
  else none

variable [Add α]

namespace Model

def value (env : String → Option (Dense α)) : Model α → Option (Dense α)
  | constant A => some A
  | symbol name s => (env name).filter fun A => [(A.rows : Int), A.cols] = s.shape
  | multiply l r => do (← l.value env).entrywise? (← r.value env)
  | matmul l r => do
    let A ← l.value env
    let B ← r.value env
    if A.cols = B.rows then return A.mul B else none
  | square x => (x.value env).map fun A => A.map fun a => a * a

end Model

namespace Dense

omit [Add α] in
theorem entrywise?_of_size {A B : Dense α} (h : A.size = B.size) :
    A.entrywise? B = some (A.hadamard B) := by
  have hhadamard : (A.hadamard B).Holds B.size fun i j => A.entry i j * B.entry i j :=
    ⟨h, fun i hi j hj => entry_hadamard A B (rows_eq h ▸ hi) (cols_eq h ▸ hj)⟩
  by_cases hA : A.size = .scalar
  · rw [entrywise?, if_pos hA]
    refine congrArg some (Holds.eq (A := B.map (A.item * ·)) (s := B.size)
      (f := fun i j => A.item * B.entry i j) ⟨rfl, fun i hi j hj => ?_⟩ hhadamard
      fun i hi j hj => ?_)
    · exact entry_map _ B hi hj
    · rw [← h, hA] at hi hj
      obtain rfl : i = 0 := Nat.lt_one_iff.mp hi
      obtain rfl : j = 0 := Nat.lt_one_iff.mp hj
      rfl
  · rw [entrywise?, if_neg hA, if_neg (h ▸ hA), if_pos h]

end Dense

namespace Node

theorem entrywise?_of_multiplyValues {left right : Size} {A B C : Dense α} (hA : A.size = left)
    (hB : B.size = right) (hs : left = .scalar ∨ right = .scalar)
    (h : multiplyValues left right A B = .ok C) : A.entrywise? B = some C := by
  subst hA hB
  unfold multiplyValues at h
  unfold Dense.entrywise?
  split at h
  · next hl => rw [if_pos hl, Except.ok.inj h]
  · next hl =>
    rw [if_pos (hs.resolve_left hl)] at h
    rw [if_neg hl, if_pos (hs.resolve_left hl), Except.ok.inj h]

theorem mul_of_multiplyValues {left right s : Size} {A B C : Dense α} (hA : A.size = left)
    (hB : B.size = right) (hp : left.product? right = some s)
    (hs : ¬(left = .scalar ∨ right = .scalar)) (h : multiplyValues left right A B = .ok C) :
    A.cols = B.rows ∧ A.mul B = C := by
  obtain ⟨hl, hr⟩ := not_or.mp hs
  have hinner := congrArg Int.toNat (Size.product?_of_ne_scalar hl hr hp).1
  rw [multiplyValues, if_neg hl, if_neg hr] at h
  split at h
  · exact ⟨(Dense.cols_eq hA).trans (hinner.trans (Dense.rows_eq hB).symm), Except.ok.inj h⟩
  · cases h

end Node

namespace Bridge

variable {B : Bridge}

structure Reads (B : Bridge) (env : String → Option (Dense α)) (values : Assignment α)
    (n : Node α) : Prop where
  own : ∀ u, .unknown u ∈ n.preorder → B.find? u.name = some (.ofUnknown u)
  given : ∀ u, .unknown u ∈ n.preorder → env u.name = (u.valueIn values).toOption

omit [Add α] [Mul α] in
theorem Reads.child {env : String → Option (Dense α)} {values : Assignment α} {c n : Node α}
    (h : B.Reads env values n) (hc : c ∈ n.children) : B.Reads env values c :=
  ⟨fun u hu => h.own u (Node.mem_preorder_of_child hc hu),
    fun u hu => h.given u (Node.mem_preorder_of_child hc hu)⟩

omit [Add α] [Mul α] in
theorem exists_readings {N : List (Node α)}
    (hnames : Set.InjOn Unknown.name {u | .unknown u ∈ N}) (values : Assignment α) :
    ∃ env : String → Option (Dense α),
      ∀ u, .unknown u ∈ N → env u.name = (u.valueIn values).toOption := by
  have hunknown : Nonempty Unknown := ⟨⟨0, "", 0, "", .scalar, .indeterminate⟩⟩
  let holder := Function.invFunOn Unknown.name {u | .unknown u ∈ N}
  refine ⟨fun name => ((holder name).valueIn values).toOption, fun u hu => ?_⟩
  exact congrArg (fun v : Unknown => (v.valueIn values).toOption) (hnames.leftInvOn_invFunOn hu)

theorem value_symbol {u : Unknown} {values : Assignment α} {env : String → Option (Dense α)}
    {A : Dense α} (henv : env u.name = (u.valueIn values).toOption)
    (hA : u.valueIn values = .ok A) : (Model.symbol u.name (.ofUnknown u)).value env = some A := by
  have hsize : (⟨A.rows, A.cols⟩ : Size) = u.size := Unknown.size_of_valueIn hA
  rw [Model.value, henv, hA]
  simp [Except.toOption, Option.filter, Symbol.ofUnknown, ← hsize]

theorem Restates.value_eq {n : Node α} {t : Model α} (h : B.Restates n t) (hn : n.Formed)
    {values : Assignment α} {env : String → Option (Dense α)} (hr : B.Reads env values n)
    {A : Dense α} (hA : n.evaluate values = .ok A) : t.value env = some A := by
  induction h generalizing A with
  | constant c => exact congrArg some (Except.ok.inj hA)
  | @unknown u s hs =>
    obtain rfl := Option.some.inj (hs.symm.trans (hr.own u (List.mem_singleton_self _)))
    exact value_symbol (hr.given u (List.mem_singleton_self _)) hA
  | @multiply tag l r a b hs _ _ hl hr' =>
    obtain ⟨-, hnl, hnr⟩ := hn
    obtain ⟨L, hL, hA⟩ := bind_eq_ok hA
    obtain ⟨R, hR, hA⟩ := bind_eq_ok hA
    rw [Model.value, hl hnl (hr.child (Node.left_mem_children tag l r)) hL,
      hr' hnr (hr.child (Node.right_mem_children tag l r)) hR]
    exact Node.entrywise?_of_multiplyValues (Node.evaluate_size hnl hL) (Node.evaluate_size hnr hR)
      hs hA
  | @matmul tag l r a b hs _ _ hl hr' =>
    obtain ⟨hp, hnl, hnr⟩ := hn
    obtain ⟨L, hL, hA⟩ := bind_eq_ok hA
    obtain ⟨R, hR, hA⟩ := bind_eq_ok hA
    obtain ⟨hinner, rfl⟩ := Node.mul_of_multiplyValues (Node.evaluate_size hnl hL)
      (Node.evaluate_size hnr hR) hp hs hA
    rw [Model.value, hl hnl (hr.child (Node.left_mem_children tag l r)) hL,
      hr' hnr (hr.child (Node.right_mem_children tag l r)) hR]
    exact if_pos hinner
  | @weighted tag c x a _ hx =>
    obtain ⟨hc, -, hnx⟩ := hn
    obtain ⟨X, hX, hA⟩ := bind_eq_ok hA
    obtain rfl := Except.ok.inj hA
    rw [Model.value, hx hnx (hr.child (Node.weighted_mem_children tag c x)) hX]
    exact Dense.entrywise?_of_size (hc.trans (Node.evaluate_size hnx hX).symm)
  | @square tag x a _ hx =>
    obtain ⟨-, hnx⟩ := hn
    obtain ⟨X, hX, hA⟩ := bind_eq_ok hA
    obtain rfl := Except.ok.inj hA
    rw [Model.value, hx hnx (hr.child (Node.square_mem_children tag x)) hX]
    rfl

end Bridge

end Values

namespace Compilation

section Reached

variable [Zero α] [One α] [Neg α] [Add α] [Mul α] [Scalar α]
variable {s : Compilation α} {ns ms : List (Node α)} {config : Config}

/-- Expressions that are restated one after the other over one bridge, where no two unknowns below
share a name, have their values in the modelling language: every unknown has a variable of its own,
of its size and sign, which all of them read. -/
theorem Reached.bridge_faithful (h : Reached config s ns) (hsize : ∀ n ∈ s.nodes ns, n.size.Nonneg)
    (hms : ms ⊆ s.nodes ns)
    (hnames : Set.InjOn Unknown.name {u | .unknown u ∈ ms.flatMap Node.preorder}) :
    ∃ ts B, ms.mapM Bridge.translate Bridge.empty = (.ok ts, B) ∧
      List.Forall₂ B.Restates ms ts ∧
      (∀ u, .unknown u ∈ ms.flatMap Node.preorder → B.find? u.name = some (.ofUnknown u)) ∧
      (∀ name ∈ B.names, ∃ u, .unknown u ∈ ms.flatMap Node.preorder ∧ u.name = name) ∧
      ∀ values : Assignment α, ∃ env : String → Option (Dense α),
        (∀ u, .unknown u ∈ ms.flatMap Node.preorder → env u.name = (u.valueIn values).toOption) ∧
        List.Forall₂ (fun m t =>
          (m.Covered values → m.Fits → ∃ A, m.evaluate values = .ok A) ∧
          ∀ A, m.evaluate values = .ok A → t.value env = some A) ms ts := by
  have hform : ∀ m ∈ ms, m.Formed := fun m hm => h.sound.family.formed m (hms hm)
  obtain ⟨hB, ts, hts, hrestates⟩ := Bridge.mapM_translate_ends hform .empty
  generalize hB' : (ms.mapM Bridge.translate Bridge.empty).2 = B at hB hrestates
  have hown : ∀ u, .unknown u ∈ ms.flatMap Node.preorder →
      B.find? u.name = some (.ofUnknown u) := by
    intro u hu
    obtain ⟨t, ht⟩ := Bridge.find?_of_restates hrestates hu
    rw [ht, hB.own hnames hu ht]
  refine ⟨ts, B, Prod.ext hts hB', hrestates, hown, fun name hname => ?_, fun values => ?_⟩
  · obtain ⟨t, ht⟩ := Option.isSome_iff_exists.mp ((Bridge.find?_isSome B name).mpr hname)
    obtain ⟨u, hu, he, -⟩ := hB.of_empty ht
    exact ⟨u, hu, he⟩
  · obtain ⟨env, henv⟩ := Bridge.exists_readings hnames values
    refine ⟨env, henv, ((List.forall₂_and_left _ _).mpr ⟨fun m hm => hm, hrestates⟩).imp ?_⟩
    rintro m t ⟨hm, ht⟩
    have hbelow {u : Unknown} (hu : .unknown u ∈ m.preorder) :
        .unknown u ∈ ms.flatMap Node.preorder := List.mem_flatMap.mpr ⟨m, hm, hu⟩
    refine ⟨fun hcov hfits => ?_, fun A hA =>
      ht.value_eq (hform m hm) ⟨fun u hu => hown u (hbelow hu), fun u hu => henv u (hbelow hu)⟩ hA⟩
    cases hA : m.evaluate values with
    | ok A => exact ⟨A, rfl⟩
    | error f =>
      have hsized : m.Sized := fun n hn => hsize n (h.sound.family.preorder_subset (hms hm) hn)
      exact absurd hfits (Node.evaluate_error (hform m hm) hsized hcov hA).2

end Reached

theorem area_restated : ∃ (ts : List (Model ℚ)) (B : Bridge) (env : String → Option (Dense ℚ)),
    [.unknown side, area].mapM Bridge.translate Bridge.empty = (.ok ts, B) ∧
    B.find? "side" = some ⟨"side", [1, 1], false, false⟩ ∧ env "side" = some (.scalar 3) ∧
    ts.map (·.value env) = [some (.scalar 3), some (.scalar (3 * 3))] := by
  have hsize : ∀ n ∈ (untouched 2 1).nodes drawn, n.size.Nonneg := by
    intro n hn
    have hn : n ∈ drawn := hn
    have hn : n = area ∨ n = .unknown side := by simpa [drawn] using hn
    rcases hn with rfl | rfl <;> exact ⟨by decide, by decide⟩
  have hbelow (u : Unknown) :
      .unknown u ∈ [.unknown side, area].flatMap Node.preorder ↔ u = side := by
    simp [area, Node.preorder]
  have hmem : [.unknown side, area] ⊆ (untouched 2 1).nodes drawn := by simp [nodes, drawn]
  obtain ⟨ts, B, hrun, -, hown, -, hvalues⟩ := reached_area.bridge_faithful hsize hmem
    fun u hu v hv _ => ((hbelow u).mp hu).trans ((hbelow v).mp hv).symm
  obtain ⟨env, henv, hts⟩ := hvalues (sideIs 3)
  have hside : side.valueIn (sideIs 3) = .ok (.scalar 3) := by
    rw [Unknown.valueIn, sideIs, if_pos rfl]
    rfl
  cases hts with
  | cons hfirst hts =>
    cases hts with
    | cons hsecond hts =>
      cases hts
      refine ⟨_, B, env, hrun, hown side ((hbelow side).mpr rfl), ?_, ?_⟩
      · rw [show "side" = side.name from rfl, henv side ((hbelow side).mpr rfl), hside]
        rfl
      · rw [List.map_cons, List.map_singleton, hfirst.2 _ hside, hsecond.2 _ (evaluate_area 3)]

def low : Unknown := ⟨0, Identity.ofUnknown 0, 0, "v", .scalar, .indeterminate⟩

def high : Unknown := ⟨1, Identity.ofUnknown 1, 1, "v", ⟨2, 1⟩, .indeterminate⟩

def shared : Symbol := ⟨"v", [1, 1], false, false⟩

def namesakes : Node ℚ :=
  .product ⟨2, ⟨2, 1⟩, Identity.ofOperation "*" [low.id, high.id]⟩ (.unknown low) (.unknown high)

theorem reached_namesakes : Reached {} (untouched 3 2)
    (namesakes.preorder ++ [.unknown high, .unknown low]) := by
  have hlow : Reached {} (untouched (α := ℚ) 1 1) [.unknown low] :=
    Reached.start.step (.unknown "v" .scalar (.ok .indeterminate)) nofun
  have hhigh : Reached {} (untouched (α := ℚ) 2 2) [.unknown high, .unknown low] :=
    hlow.step (.unknown "v" ⟨2, 1⟩ (.ok .indeterminate)) nofun
  exact hhigh.step (.product (.unknown low) (.unknown high)) (by simp [Request.operands, nodes])

/-- Unknowns that share a name share the variable of the first of them, whatever their sizes. -/
theorem namesakes_conflated : ∃ (values : Assignment ℚ) (A : Dense ℚ) (t : Model ℚ) (B : Bridge),
    Reached {} (untouched 3 2) (namesakes.preorder ++ [.unknown high, .unknown low]) ∧
    namesakes.evaluate values = .ok A ∧ Bridge.translate namesakes .empty = (.ok t, B) ∧
    B.find? high.name = B.find? low.name ∧ ∀ env, t.value env ≠ some A := by
  let values : Assignment ℚ := fun id =>
    if id = low.id then some (.ok (.vector #[3])) else some (.ok (.vector #[1, 2]))
  have hid : high.id ≠ low.id := by decide +kernel
  have hlow : low.valueIn values = .ok (.scalar 3) := by
    rw [Unknown.valueIn, show values low.id = some (.ok (.vector #[3])) from if_pos rfl]
    rfl
  have hhigh : high.valueIn values = .ok (.column #[1, 2]) := by
    rw [Unknown.valueIn, show values high.id = some (.ok (.vector #[1, 2])) from if_neg hid]
    rfl
  have hvalue : namesakes.evaluate values =
      .ok ((Dense.column #[1, 2]).map ((Dense.scalar (3 : ℚ)).item * ·)) := by
    rw [namesakes, Node.evaluate, Node.evaluate, hlow, Node.evaluate, hhigh]
    rfl
  have hrun : Bridge.translate namesakes .empty =
      (.ok (.multiply (.symbol "v" shared) (.symbol "v" shared)), ⟨#[("v", shared)]⟩) := rfl
  refine ⟨values, _, _, _, reached_namesakes, hvalue, hrun, rfl, fun env h => ?_⟩
  -- both factors are the scalar variable, and so is their product
  obtain ⟨C, hC, h⟩ := Option.bind_eq_some_iff.mp h
  obtain ⟨D, hD, h⟩ := Option.bind_eq_some_iff.mp h
  obtain rfl := Option.some.inj (hC.symm.trans hD)
  have hone : C.size = .scalar := by
    have hshape := of_decide_eq_true (Option.filter_eq_some_iff.mp hC).2
    simpa [Dense.size, Size.scalar, shared] using hshape
  rw [Dense.entrywise?, if_pos hone] at h
  have hrows : C.rows = 2 := congrArg Dense.rows (Option.some.inj h)
  have hone : C.rows = 1 := Dense.rows_eq hone
  omega

end Compilation

end DisciplinedConvex
