import DisciplinedConvex.Proofs.Independence
import DisciplinedConvex.Proofs.Mirrors
import DisciplinedConvex.Proofs.Seating

open DisciplinedConvex.Task

namespace DisciplinedConvex

variable {α : Type} [Field α]

structure Form.Agrees (F G : Form α) : Prop where
  size : F.rows.size = G.rows.size
  offset : ∀ r, F.offset r = G.offset r
  coefficient : ∀ r j, F.coefficient r j = G.coefficient r j

theorem Form.agrees_of_computes {F G : Form α} {s : Size} {f g : Array α → Nat → Nat → α}
    (hF : ∀ z, F.Computes z s (f z)) (hG : ∀ z, G.Computes z s (g z))
    (hfg : ∀ z, ∀ i < s.height, ∀ j < s.width, f z i j = g z i j) : F.Agrees G := by
  have hvalue (z : Array α) := (hF z).value_eq (hG z) (hfg z)
  refine ⟨?_, fun r => ?_, fun r j => ?_⟩
  · rw [(hF #[]).size, (hG #[]).size]
  · rw [offset_eq, offset_eq, hvalue]
  · rw [coefficient_eq, coefficient_eq, hvalue, hvalue]

theorem Form.Agrees.congr {F F' G G' : Form α} (h : F'.Agrees G') (hF : F.rows = F'.rows)
    (hG : G.rows = G'.rows) : F.Agrees G := by
  obtain ⟨hsize, hoffset, hcoefficient⟩ := h
  refine ⟨?_, fun r => ?_, fun r j => ?_⟩
  · rw [hF, hG, hsize]
  · simpa only [Form.offset, hF, hG] using hoffset r
  · simpa only [Form.coefficient, hF, hG] using hcoefficient r j

theorem Form.Agrees.symm {F G : Form α} (h : F.Agrees G) : G.Agrees F :=
  ⟨h.size.symm, fun r => (h.offset r).symm, fun r j => (h.coefficient r j).symm⟩

namespace Compilation

variable {config config' : Config} {s s' t t' : Compilation α} {ns ms : List (Node α)}
variable {n x y p q : Node α} {F G : Form α} {L : Layout} {N M : List (Node α)}
variable [Scalar α]

inductive Finds (s : Compilation α) (n : Node α) (F : Form α) (s' : Compilation α) : Prop
  | lower (h : lower n s = (.ok F, s'))
  | conicForm (h : conicForm n s = (.ok F, s'))

structure Found (config : Config) (ns : List (Node α)) (s : Compilation α) (n : Node α) (F : Form α)
    (s' : Compilation α) : Prop where
  reached : Reached config s' ns
  grows : s.nodes ns ⊆ s'.nodes ns
  le : s ≤ s'
  lowered : ∃ t F', Same ns s t ∧ Compilation.lower n t = (.ok F', s') ∧ F.rows = F'.rows

theorem conicForm_lowers (h : s.Sound ns) (hn : n ∈ s.nodes ns) :
    (conicForm n).Ends s fun r s' => ∀ F, r = .ok F → ∃ t F', Same ns s t ∧
      lower n t = (.ok F', s') ∧ F'.withColumns s'.layout.size = .ok F := by
  have hlower {t : Compilation α} (hst : Same ns s t) : Ends (do
      let F ← lower n
      F.withColumns (← get).layout.size) t fun r s' => ∀ F, r = .ok F → ∃ t F', Same ns s t ∧
        lower n t = (.ok F', s') ∧ F'.withColumns s'.layout.size = .ok F := by
    rw [ends_bind]
    refine Ends.imp (P := fun r s' => lower n t = (r, s')) rfl ?_
    rintro (e | F') s' hF'
    · simp
    · exact fun F hF => ⟨t, F', hst, hF', hF⟩
  rw [conicForm, ends_bind, ends_get]
  dsimp only
  split
  · rw [ends_bind]
    apply (onVerdicts_same h (Node.extends_askVexity n) (Workspace.asks_vexity hn)).imp
    rintro (e | v) t hst
    · simp
    · dsimp only
      split
      · simp
      · exact hlower hst
  · exact hlower h.same

theorem Reached.asks {β : Type} {task : Task (Compilation α) β} {r : Request α}
    (h : Reached config s ns) (hr : r.serve = Request.ask task) (ho : r.operands ⊆ s.nodes ns) :
    Reached config (task s).2 ns ∧ s.nodes ns ⊆ (task s).2.nodes ns ∧ s ≤ (task s).2 := by
  have hstate : (r.serve s).2 = (task s).2 := hr ▸ (Request.ask_eq task s).2
  have hbuilt (t : Compilation α) : r.built t = [] := by
    rw [Request.built, hr]
    exact (Request.ask_eq task t).1
  rw [← hstate]
  exact ⟨h.ask r ho hbuilt, (serve_ends r h.sound ho).grows.nodes_subset, r.extends_serve s⟩

theorem Reached.found (h : Reached config s ns) (hn : n ∈ s.nodes ns) (hF : s.Finds n F s') :
    Found config ns s n F s' := by
  have hoperands : [n] ⊆ s.nodes ns := List.cons_subset.mpr ⟨hn, List.nil_subset _⟩
  cases hF with
  | lower hF =>
    obtain rfl : (lower n s).2 = s' := congrArg Prod.snd hF
    obtain ⟨hreached, hgrows, hle⟩ := h.asks (r := .lower n) rfl hoperands
    exact ⟨hreached, hgrows, hle, s, F, h.sound.same, hF, rfl⟩
  | conicForm hF =>
    obtain rfl : (conicForm n s).2 = s' := congrArg Prod.snd hF
    obtain ⟨hreached, hgrows, hle⟩ := h.asks (r := .conicForm n) rfl hoperands
    have hlowers := conicForm_lowers h.sound hn
    rw [Ends, hF] at hlowers
    obtain ⟨t, F', hst, hF', hrows⟩ := hlowers F rfl
    exact ⟨hreached, hgrows, hle, t, F', hst, hF', Form.rows_of_withColumns hrows⟩

theorem Found.holds (h : Found config ns s n F s') :
    ∃ F', s'.pass.find? n.id = some F' ∧ F.rows = F'.rows := by
  obtain ⟨t, F', -, hF', hrows⟩ := h.lowered
  have hholds := lower_holds n t
  rw [Ends, hF'] at hholds
  exact ⟨F', hholds F' rfl, hrows⟩

variable [LinearOrder α] [ExactScalar α]

theorem Reached.holding (h : Reached config s ns) (hN : Node.Faithful (s.nodes ns))
    (hsize : ∀ m ∈ s.nodes ns, m.size.Nonneg) (hn : n ∈ s.nodes ns)
    (hF : s.pass.find? n.id = some F) : s.Holding ns n := by
  obtain ⟨htidy, hcompiles⟩ := h.keeps kept_compiles (Pass.compiled_empty config _) hN hsize
  exact ⟨htidy, hcompiles, hn, Pass.contains_of_find? hF⟩

omit [LinearOrder α] [ExactScalar α] in
theorem Seated.agree (h : s.Seated N L) (h' : t.Seated M L) (hs : s.Holding ns n)
    (ht : t.Holding ms n) (hN : n.preorder ⊆ N) (hM : n.preorder ⊆ M) (z : Array α) :
    s.problem.Agree t.problem n z z := by
  rintro a b ⟨m, hm, hcolumns, ha, hb⟩ k -
  suffices hstart : a.start = b.start by rw [hstart]
  cases m with
  | unknown u =>
    have ha : s.layout.start? u.id = some a.start := congrArg (Option.map Slot.start) ha
    have hb : t.layout.start? u.id = some b.start := congrArg (Option.map Slot.start) hb
    rw [h.unknowns u (hN hm)] at ha
    rw [h'.unknowns u (hM hm), ha] at hb
    exact Option.some.inj hb
  | square tag x =>
    obtain ⟨a', ha', hstart⟩ := h.squares tag x (hN hm) hcolumns (hs.below hm).held
    obtain ⟨b', hb', hstart'⟩ := h'.squares tag x (hM hm) hcolumns (ht.below hm).held
    obtain rfl := Option.some.inj (ha.symm.trans ha')
    obtain rfl := Option.some.inj (hb.symm.trans hb')
    exact Option.some.inj (hstart.symm.trans hstart')
  | constant | product | weighted | bare => exact hcolumns.elim

omit [ExactScalar α] [LinearOrder α] in
theorem Holding.mirrors_means_eq (h : s.Holding ns p) (h' : t.Holding ms q) (hmir : x.Mirrors y p q)
    (hp : p ∈ t.nodes ms)
    (hagree : ∀ e ∈ p.preorder, t.Holding ms e → ∀ z, s.problem.Agree t.problem e z z)
    (z : Array α) : ∀ i < p.size.height, ∀ j < p.size.width,
      s.pass.means s.layout z p i j = t.pass.means t.layout z q i j := by
  have hform := h.tidy.sound.family.formed p h.mem
  cases hmir with
  | @square tag tag' hxy =>
    have hal := Node.alike_square h'.tidy.sound.toSound h'.tidy.faithful hp h'.mem hxy
    have htp : t.Holding ms (.square tag x) :=
      ⟨h'.tidy, h'.compiles, hp, hal.id_eq.symm ▸ h'.held⟩
    have hmeans := h.means_eq htp (hagree _ (Node.self_mem_preorder _) htp z)
    have halike : t.pass.means t.layout z (.square tag x) = t.pass.means t.layout z (.square tag' y) :=
      hal.entry_eq ..
    rwa [halike] at hmeans
  | @product tag tag' hone =>
    have hl := Node.child_mem_preorder (Node.left_mem_children tag x y)
    have hr := Node.child_mem_preorder (Node.right_mem_children tag x y)
    have htl := h'.below (Node.child_mem_preorder (Node.right_mem_children tag' y x))
    have htr := h'.below (Node.child_mem_preorder (Node.left_mem_children tag' y x))
    intro i hi j hj
    refine (Node.times_congr hform.1 ?_ ?_ i hi j hj).trans (Node.times_comm hone hform.1 _ _ i hi j hj)
    · exact (h.below hl).means_eq htl (hagree x hl htl z)
    · exact (h.below hr).means_eq htr (hagree y hr htr z)
  | @weighted tag tag' k k' e _ _ hk ht =>
    have he := Node.child_mem_preorder (Node.weighted_mem_children tag k e)
    have hte := h'.below (Node.child_mem_preorder (Node.weighted_mem_children tag' k' e))
    have hmeans := (h.below he).means_eq hte (hagree e he hte z)
    intro i hi j hj
    have hsize : (Node.weighted tag k e).size = e.size := ht
    rw [hsize] at hi hj
    exact congrArg₂ (· * ·) (congrArg (Dense.entry · i j) hk) (hmeans i hi j hj)
  | @folded tag tag' k k' hxy hx hy hs ht =>
    have hsy := h.below (Node.child_mem_preorder (Node.weighted_mem_children tag k y))
    have htx := h'.below (Node.child_mem_preorder (Node.weighted_mem_children tag' k' x))
    have hmeans := hsy.compiles.constantValue_holds hsy.tidy.sound.family hsy.tidy.faithful hsy.mem
      hxy.2.1 hy z
    have hmeans' := htx.compiles.constantValue_holds htx.tidy.sound.family htx.tidy.faithful htx.mem
      hxy.1 hx z
    intro i hi j hj
    have hsize : (Node.weighted tag k y).size = y.size := ht
    rw [hsize] at hi hj
    have hleft : s.pass.means s.layout z (.weighted tag k y) i j =
        k.value.entry i j * k'.value.entry i j :=
      congrArg (k.value.entry i j * ·) (hmeans.entry i hi j hj).symm
    have hright : t.pass.means t.layout z (.weighted tag' k' x) i j =
        k'.value.entry i j * k.value.entry i j :=
      congrArg (k'.value.entry i j * ·) (hmeans'.entry i (hs ▸ hi) j (hs ▸ hj)).symm
    rw [hleft, hright, mul_comm]

omit [ExactScalar α] [LinearOrder α] in
theorem Holding.mirrors_agrees (h : s.Holding ns p) (h' : t.Holding ms q) (hmir : x.Mirrors y p q)
    (hp : p ∈ t.nodes ms)
    (hagree : ∀ e ∈ p.preorder, t.Holding ms e → ∀ z, s.problem.Agree t.problem e z z)
    (hF : s.pass.find? p.id = some F) (hG : t.pass.find? q.id = some G) : F.Agrees G :=
  Form.agrees_of_computes (h.compiles.forms p h.mem F hF)
    (hmir.size_eq ▸ h'.compiles.forms q h'.mem G hG) fun z =>
    h.mirrors_means_eq h' hmir hp hagree z

omit [LinearOrder α] [ExactScalar α] in
theorem agree_self (s : Compilation α) (n : Node α) (z : Array α) :
    s.problem.Agree s.problem n z z := by
  rintro a b ⟨m, -, -, ha, hb⟩ k -
  rw [Option.some.inj (ha.symm.trans hb)]

omit [LinearOrder α] [ExactScalar α] in
theorem Found.seated (hf : Found config ns s n F s') (h : s.Tidy ns) (hn : n ∈ s.nodes ns)
    (hnew : ∀ id, s.pass.contains id = false) (hN : Node.Faithful (s'.nodes ns)) :
    s'.Seated (s.nodes ns) (s.layout.seating (n.postOrder fun _ => false).order) := by
  obtain ⟨t, F', hst, hF', -⟩ := hf.lowered
  have hseated := lower_seated (hst.tidy h) (hst.nodes_eq ▸ hn) fun id => hst.pass ▸ hnew id
  rw [Ends, hF'] at hseated
  have hseated := hseated F' rfl hN
  rwa [hst.nodes_eq, hst.layout] at hseated

theorem mirrors_together (hmir : x.Mirrors y p q) (h : Reached config s ns) (hp : p ∈ s.nodes ns)
    (hq : q ∈ s.nodes ns) (hF : s.Finds p F s') (hG : s'.Finds q G t)
    (hN : Node.Faithful (t.nodes ns)) (hsize : ∀ m ∈ t.nodes ns, m.size.Nonneg) : F.Agrees G := by
  have hf := h.found hp hF
  have hg := hf.reached.found (hf.grows hq) hG
  obtain ⟨F', hF', hrows⟩ := hf.holds
  obtain ⟨G', hG', hrows'⟩ := hg.holds
  have hkept := hg.le.2.2.2 _ _ hF'
  have hpt := hg.grows (hf.grows hp)
  have hholding := hg.reached.holding hN hsize hpt hkept
  have hholding' := hg.reached.holding hN hsize (hg.grows (hf.grows hq)) hG'
  exact (hholding.mirrors_agrees hholding' hmir hpt (fun e _ _ => agree_self t e) hkept hG').congr
    hrows hrows'

theorem mirrors_apart (hmir : x.Mirrors y p q) (h : Reached config s ns) (h' : Reached config' t ms)
    (hp : p ∈ s.nodes ns) (hq : q ∈ s.nodes ns) (hp' : p ∈ t.nodes ms) (hq' : q ∈ t.nodes ms)
    (hnew : ∀ id, s.pass.contains id = false) (hnew' : ∀ id, t.pass.contains id = false)
    (hlayout : t.layout = s.layout) (hF : s.Finds p F s') (hG : t.Finds q G t')
    (hN : Node.Faithful (s'.nodes ns)) (hN' : Node.Faithful (t'.nodes ms))
    (hsize : ∀ m ∈ s'.nodes ns, m.size.Nonneg) (hsize' : ∀ m ∈ t'.nodes ms, m.size.Nonneg) :
    F.Agrees G := by
  have hf := h.found hp hF
  have hg := h'.found hq' hG
  obtain ⟨F', hF', hrows⟩ := hf.holds
  obtain ⟨G', hG', hrows'⟩ := hg.holds
  have hholding := hf.reached.holding hN hsize (hf.grows hp) hF'
  have hholding' := hg.reached.holding hN' hsize' (hg.grows hq') hG'
  have hseated := hf.seated (h.tidy (hN.mono hf.grows) fun m hm => hsize m (hf.grows hm)) hp hnew hN
  have hseated' := hg.seated (h'.tidy (hN'.mono hg.grows) fun m hm => hsize' m (hg.grows hm)) hq'
    hnew' hN'
  have hfactors : ∀ tag l r, p = .product tag l r → l.vexity = .constant ∨ r.vexity = .constant := by
    rintro tag l r rfl
    exact hholding.tidy.shaped.factors tag l r hholding.mem hholding.held
  -- both orders seat the same nodes, from the same layout on
  have hseats := hmir.seats_eq h.sound.toSound (hN.mono hf.grows) hp hq hfactors
  rw [hlayout, Layout.seating, ← hseats, ← Layout.seating] at hseated'
  refine (hholding.mirrors_agrees hholding' hmir (hg.grows hp') (fun e he hte z => ?_) hF' hG').congr
    hrows hrows'
  have hbelow := h.sound.family.preorder_subset (h.sound.family.preorder_subset hp he)
  have hbelow' := h'.sound.family.preorder_subset (h'.sound.family.preorder_subset hp' he)
  exact hseated.agree hseated' (hholding.below he) hte hbelow hbelow' z

/-- Expressions that may stand for each other. They have one size and the same values, and the same
curvature wherever both are asked for it. Their forms agree, whether they are lowered one after the
other or each over the same layout, when nothing is held yet. -/
structure Interchangeable (p q : Node α) : Prop where
  size : p.size = q.size
  value : ∀ values C, p.evaluate values = .ok C ↔ q.evaluate values = .ok C
  vexity : ∀ {config config' : Config} {s t : Compilation α} {ns ms : List (Node α)}
    {v v' : Vexity}, Reached config s ns → Reached config' t ms → p ∈ s.nodes ns →
    q ∈ t.nodes ms → (p.askVexity s.workspace.verdicts).1 = .ok v →
    (q.askVexity t.workspace.verdicts).1 = .ok v' → v = v'
  together : ∀ {config : Config} {s s' t : Compilation α} {ns : List (Node α)} {F G : Form α},
    Reached config s ns → p ∈ s.nodes ns → q ∈ s.nodes ns →
    (s.Finds p F s' ∧ s'.Finds q G t ∨ s.Finds q G s' ∧ s'.Finds p F t) →
    Node.Faithful (t.nodes ns) → (∀ m ∈ t.nodes ns, m.size.Nonneg) → F.Agrees G
  apart : ∀ {config config' : Config} {s s' t t' : Compilation α} {ns ms : List (Node α)}
    {F G : Form α}, Reached config s ns → Reached config' t ms → p ∈ s.nodes ns → q ∈ s.nodes ns →
    p ∈ t.nodes ms → q ∈ t.nodes ms → (∀ id, s.pass.contains id = false) →
    (∀ id, t.pass.contains id = false) → t.layout = s.layout → s.Finds p F s' → t.Finds q G t' →
    Node.Faithful (s'.nodes ns) → Node.Faithful (t'.nodes ms) →
    (∀ m ∈ s'.nodes ns, m.size.Nonneg) → (∀ m ∈ t'.nodes ms, m.size.Nonneg) → F.Agrees G

theorem interchangeable_of_mirrors (h : x.Mirrors y p q) (hp : p.Entrywise (· * ·) x y)
    (hq : q.Entrywise (· * ·) y x) : Interchangeable p q where
  size := h.size_eq
  value values C := hp.comm hq h.size_eq
  vexity hs ht hps hqt hv hv' := by
    rw [hs.eq_vexity hps hv, ht.eq_vexity hqt hv', h.vexity_eq]
  together hs hps hqs hfinds hN hsize := by
    rcases hfinds with ⟨hF, hG⟩ | ⟨hG, hF⟩
    · exact mirrors_together h hs hps hqs hF hG hN hsize
    · exact (mirrors_together h.symm hs hqs hps hG hF hN hsize).symm
  apart hs ht hps hqs hpt hqt hnew hnew' hlayout hF hG hN hN' hsize hsize' :=
    mirrors_apart h hs ht hps hqs hpt hqt hnew hnew' hlayout hF hG hN hN' hsize hsize'

/-- The operands of an entrywise product may change places, whatever they are: both orders are refused
for the same reason, or build expressions that may stand for each other. Only of two constants neither
of which is a scalar the signs may differ, since each order folds another one. -/
theorem Reached.dotMultiply_comm {v v' : Vexity} (h : Reached config s ns) (hx : x ∈ s.nodes ns)
    (hy : y ∈ s.nodes ns) (hN : Node.Faithful [x, y])
    (hv : (x.askVexity s.workspace.verdicts).1 = .ok v)
    (hv' : (y.askVexity (s.workspace.asked x).verdicts).1 = .ok v') :
    (x.dotMultiply y).Ends s.workspace fun r w => (y.dotMultiply x).Ends w fun r' _ =>
      (r = .error .nonconstantElementwise ∧ r' = .error .nonconstantElementwise) ∨
      (∃ a b c d, r = .error (.unequalSizes a b) ∧ r' = .error (.unequalSizes c d)) ∨
      ((v = .constant ∧ ¬x.Fits ∨ v' = .constant ∧ ¬y.Fits) ∧
        (r = .error .arrayTooLarge ∨ r' = .error .arrayTooLarge)) ∨
      ∃ p q, r = .ok p ∧ r' = .ok q ∧ Interchangeable p q ∧
        ∀ {config config' : Config} {t u : Compilation α} {ms ls : List (Node α)} {σ τ : Sign},
          Reached config t ms → Reached config' u ls → p ∈ t.nodes ms → q ∈ u.nodes ls →
          (p.askSign t.workspace.verdicts).1 = .ok σ → (q.askSign u.workspace.verdicts).1 = .ok τ →
          (¬(v = .constant ∧ v' = .constant ∧ x.size ≠ .scalar ∧ y.size ≠ .scalar) → σ = τ) ∧
          (v = .constant ∧ v' = .constant ∧ x.size ≠ .scalar ∧ y.size ≠ .scalar →
            ∃ A B, x.constantValue = .ok A ∧ y.constantValue = .ok B ∧
              σ = Sign.ofEntries A.vec * y.sign ∧ τ = Sign.ofEntries B.vec * x.sign) := by
  have hs := h.sound.toSound
  have hfx := hs.family.formed x hx
  have hfy := hs.family.formed y hy
  have hxy : x.id = y.id → x.Alike y := hN x (by simp) y (by simp)
  obtain rfl := hs.vexity_eq hx hv
  obtain rfl := (Workspace.asked_sound hs hx).vexity_eq hy hv'
  apply ((Node.dotMultiply_ends hs hx hy).and (Node.dotMultiply_builds hx hy s.workspace hs)).imp
  rintro r w ⟨⟨hdots, hconsulted⟩, hw⟩
  have hheard : Node.Heard s.workspace x y := fun _ => ⟨⟨_, hv⟩, ⟨_, hv'⟩⟩
  have hheard' := hconsulted.heard hs hx hy ⟨_, hv⟩ ⟨_, hv'⟩
  have hyx : y.id = x.id → y.Alike x := fun he => (hxy he.symm).symm
  apply (Node.dotMultiply_ends hw (List.mem_append_right _ hy) (List.mem_append_right _ hx)).imp
  rintro r' - ⟨hdots', -⟩
  cases hdots.mirrored hdots' hfx hfy hxy hheard hheard' with
  | clash => exact .inl ⟨rfl, rfl⟩
  | unequal a b c d => exact .inr (.inl ⟨a, b, c, d, rfl, rfl⟩)
  | large hfits hlarge => exact .inr (.inr (.inl ⟨hfits, hlarge⟩))
  | @built p q hmir =>
    have hp := hdots.entrywise hfx hfy hxy hheard
    have hq := hdots'.entrywise hfy hfx hyx hheard'
    refine .inr (.inr (.inr ⟨p, q, rfl, rfl, interchangeable_of_mirrors hmir hp hq, ?_⟩))
    intro _ _ t u ms ls σ τ ht hu hpt hqu hσ hτ
    have hanswer := (Node.askSign_ends ht.sound.family hpt ht.sound.judges).answer
    have hanswer' := (Node.askSign_ends hu.sound.family hqu hu.sound.judges).answer
    obtain rfl := Except.ok.inj (hanswer.symm.trans hσ)
    obtain rfl := Except.ok.inj (hanswer'.symm.trans hτ)
    exact hmir.sign_eq

def rate : Node ℚ :=
  .constant ⟨0, Identity.ofConstant [1, 1] (Constant.listing (Dense.scalar (3 : ℚ))), .scalar 3⟩

def scaled : Node ℚ :=
  .product ⟨2, ⟨2, 1⟩, Identity.ofOperation "*" [rate.id, amounts.id]⟩ rate (.unknown amounts)

def rescaled : Node ℚ :=
  .product ⟨3, ⟨2, 1⟩, Identity.ofOperation "*" [amounts.id, rate.id]⟩ (.unknown amounts) rate

def scales : List (Node ℚ) :=
  [rescaled, .unknown amounts, rate, scaled, rate, .unknown amounts, .unknown amounts, rate]

theorem reached_rate : Reached {} pricing [.unknown amounts, rate] :=
  (Reached.start.step (.constant (.scalar 3)) (List.nil_subset _)).step
    (.unknown "amounts" ⟨2, 1⟩ (.ok .indeterminate)) (List.nil_subset _)

theorem reached_scales : Reached {} (untouched 4 1) scales := by
  have hscaled : Reached {} (untouched (α := ℚ) 3 1)
      [scaled, rate, .unknown amounts, .unknown amounts, rate] :=
    reached_rate.step (.product rate (.unknown amounts)) (by simp [Request.operands, nodes])
  exact hscaled.step (.product (.unknown amounts) rate) (by simp [Request.operands, nodes])

def scaledForm : Except Failure (Form ℚ) × Compilation ℚ := lower scaled (untouched 4 1)

def rescaledForm : Except Failure (Form ℚ) × Compilation ℚ := lower rescaled scaledForm.2

theorem scaledForm_eq : scaledForm.1.map (·.coefficient 1 1) = .ok 3 ∧
    rescaledForm.1.map (·.cols) = .ok 2 ∧
    rescaledForm.2.pass.auxiliaries.map (·.unknown) = [] ∧
    ([rescaled, scaled, .unknown amounts, rate].map Node.id).Nodup := by
  decide +kernel

theorem scales_built : (rate.dotMultiply (.unknown amounts) pricing.workspace) =
      (.ok scaled, (untouched (α := ℚ) 3 1).workspace) ∧
    ((Node.unknown amounts).dotMultiply rate (untouched (α := ℚ) 3 1).workspace) =
      (.ok rescaled, (untouched (α := ℚ) 4 1).workspace) := by
  have hids : rate.id ≠ (Node.unknown (α := ℚ) amounts).id := by decide +kernel
  constructor
  · have hsame : rate.same (.unknown amounts) = false := by simpa [Node.same] using hids
    simp only [Node.dotMultiply, Node.multiply, hsame]
    rfl
  · have hsame : (Node.unknown amounts).same rate = false := by simpa [Node.same] using hids.symm
    simp only [Node.dotMultiply, Node.multiply, hsame]
    rfl

theorem amounts_scaled : ∃ F G, scaledForm.1 = .ok F ∧ rescaledForm.1 = .ok G ∧ F.Agrees G ∧
    G.coefficient 1 1 = 3 := by
  obtain ⟨hF, hG, hauxiliaries, hids⟩ := scaledForm_eq
  obtain ⟨hscaled, hrescaled⟩ := scales_built
  obtain ⟨F, hF, hthree⟩ := map_eq_ok hF
  obtain ⟨G, hG, -⟩ := map_eq_ok hG
  have hfaithful : Node.Faithful [rescaled, scaled, .unknown amounts, rate] := fun m hm n hn he =>
    congrArg Node.forget (List.inj_on_of_nodup_map hids hm hn he)
  have hsound := reached_rate.sound.toSound
  have hrate : rate ∈ pricing.nodes [.unknown amounts, rate] := by simp [nodes]
  have hamounts : .unknown amounts ∈ pricing.nodes [.unknown amounts, rate] := by simp [nodes]
  have hcomm := reached_rate.dotMultiply_comm hrate hamounts (hfaithful.mono (by simp))
    (Node.askVexity_leaf hsound hrate rfl)
    (Node.askVexity_leaf (Workspace.asked_sound hsound hrate) hamounts rfl)
  rw [Ends, hscaled, Ends, hrescaled] at hcomm
  have hpq : Interchangeable scaled rescaled := by
    rcases hcomm with h | h | h | ⟨p, q, hp, hq, hpq, -⟩
    · cases h.1
    · obtain ⟨_, _, _, _, hr, -⟩ := h
      cases hr
    · rcases h.2 with hr | hr
      · cases hr
      · cases hr
    · obtain rfl := Except.ok.inj hp
      obtain rfl := Except.ok.inj hq
      exact hpq
  have hnodes : rescaledForm.2.nodes scales ⊆ [rescaled, scaled, .unknown amounts, rate] := by
    rw [nodes, List.map_eq_nil_iff.mp hauxiliaries]
    simp [scales]
  have hnonneg : ∀ m ∈ rescaledForm.2.nodes scales, m.size.Nonneg := by
    intro m hm
    have hm := hnodes hm
    simp only [List.mem_cons, List.not_mem_nil, or_false] at hm
    rcases hm with rfl | rfl | rfl | rfl <;> exact ⟨by decide, by decide⟩
  have hfirst : scaledForm = (.ok F, scaledForm.2) := Prod.fst_eq_iff.mp hF
  have hsecond : rescaledForm = (.ok G, rescaledForm.2) := Prod.fst_eq_iff.mp hG
  have hagrees : F.Agrees G := by
    refine hpq.together reached_scales ?_ ?_ (.inl ⟨.lower hfirst, .lower hsecond⟩)
      (hfaithful.mono hnodes) hnonneg
    · simp [nodes, scales]
    · simp [nodes, scales]
  exact ⟨F, G, hF, hG, hagrees, (hagrees.coefficient 1 1).symm.trans hthree⟩

def signs : Constant ℚ :=
  ⟨0, Identity.ofConstant [2, 1] (Constant.listing (Dense.column #[(1 : ℚ), -1])), .column #[1, -1]⟩

def squares : Node ℚ :=
  .weighted ⟨1, ⟨2, 1⟩, Identity.ofOperation ".*" [signs.id, signs.id]⟩ signs (.constant signs)

def ones : Node ℚ :=
  .constant ⟨2, Identity.ofConstant [2, 1] (Constant.listing (Dense.column #[(1 : ℚ), 1])),
    .column #[1, 1]⟩

def squared : List (Node ℚ) := ones :: squares :: [.constant signs, .constant signs, .constant signs]

theorem reached_squares : Reached {} (untouched 3 0) squared := by
  have hsigns : Reached {} (untouched (α := ℚ) 1 0) [.constant signs] :=
    Reached.start.step (.constant (.column #[1, -1])) (List.nil_subset _)
  have hsquares : Reached {} (untouched (α := ℚ) 2 0)
      [squares, .constant signs, .constant signs, .constant signs] :=
    hsigns.step (.weighted signs (.constant signs)) (by simp [Request.operands, nodes])
  exact hsquares.step (.constant (.column #[1, 1])) (List.nil_subset _)

def squaresFirst : Except Failure (Node ℚ) × Workspace :=
  squares.dotMultiply ones (untouched (α := ℚ) 3 0).workspace

def onesFirst : Except Failure (Node ℚ) × Workspace :=
  ones.dotMultiply squares squaresFirst.2

/-- The sign of a product of two constants depends on which one comes first. -/
theorem sign_of_first_constant :
    Reached {} (untouched 3 0) squared ∧ squares ∈ squared ∧ ones ∈ squared ∧
      Node.Faithful [squares, ones] ∧
      (squares.askVexity (untouched (α := ℚ) 3 0).workspace.verdicts).1 = .ok .constant ∧
      (ones.askVexity ((untouched (α := ℚ) 3 0).workspace.asked squares).verdicts).1 =
        .ok .constant ∧
      ∃ p q, squaresFirst.1 = .ok p ∧ onesFirst.1 = .ok q ∧
        (p.askSign onesFirst.2.verdicts).1 = .ok .positive ∧
        (q.askSign onesFirst.2.verdicts).1 = .ok .indeterminate := by
  have hanswers : (do (← squaresFirst.1).askSign onesFirst.2.verdicts |>.1) = .ok .positive ∧
      (do (← onesFirst.1).askSign onesFirst.2.verdicts |>.1) = .ok .indeterminate ∧
      ([squares, ones, .constant signs].map Node.id).Nodup := by
    decide +kernel
  obtain ⟨hp, hq, hids⟩ := hanswers
  obtain ⟨p, hp, hσ⟩ := bind_eq_ok hp
  obtain ⟨q, hq, hτ⟩ := bind_eq_ok hq
  have hobjects {m n : Node ℚ} (hm : m ∈ [squares, ones, .constant signs])
      (hn : n ∈ [squares, ones, .constant signs]) (he : m.id = n.id) : m = n :=
    List.inj_on_of_nodup_map hids hm hn he
  have hbelow : squares.preorder ⊆ [squares, ones, .constant signs] := by
    change [squares, .constant signs, .constant signs] ⊆ _
    simp
  have hsquares : squares ∈ (untouched 3 0).nodes squared := by simp [nodes, squared]
  have hones : ones ∈ (untouched 3 0).nodes squared := by simp [nodes, squared]
  refine ⟨reached_squares, by simp [squared], by simp [squared], fun m hm n hn he => ?_, ?_, ?_,
    p, q, hp, hq, hσ, hτ⟩
  · have hpair : [squares, ones] ⊆ [squares, ones, .constant signs] := by simp
    exact congrArg Node.forget (hobjects (hpair hm) (hpair hn) he)
  · exact reached_squares.askVexity_of_objects hsquares fun m hm n hn =>
      hobjects (hbelow hm) (hbelow hn)
  · exact Node.askVexity_leaf (Workspace.asked_sound reached_squares.sound.toSound hsquares) hones rfl

end Compilation

end DisciplinedConvex
