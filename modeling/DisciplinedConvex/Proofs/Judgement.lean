import DisciplinedConvex.Proofs.Structure
import DisciplinedConvex.Verdicts

open DisciplinedConvex.Task

namespace DisciplinedConvex

variable {α : Type} [Scalar α]

namespace Verdicts

def known (v : Verdicts) (ref : Nat) : Bool := v.vexities[ref]?.isSome

/-- What is remembered of the nodes of `N` is right, a curvature only together with those of the
children, and nothing is remembered of objects from `bound` on. -/
structure Judges (v : Verdicts) (N : List (Node α)) (bound : Nat) : Prop where
  refs : ∀ n ∈ N, n.ref < bound
  signs : ∀ n ∈ N, ∀ s, v.signs[n.ref]? = some s → s = n.sign
  vexities : ∀ n ∈ N, ∀ w, v.vexities[n.ref]? = some w → w = n.vexity
  closed : ∀ n ∈ N, v.known n.ref = true → ∀ c ∈ n.children, v.known c.ref = true
  freshSigns : ∀ r, bound ≤ r → v.signs[r]? = none
  freshVexities : ∀ r, bound ≤ r → v.vexities[r]? = none

variable {v : Verdicts} {N : List (Node α)} {bound : Nat} {n : Node α}

theorem Judges.cons (hv : v.Judges N bound) (hn : n.ref = bound) : v.Judges (n :: N) (bound + 1) := by
  have hsign : v.signs[n.ref]? = none := hv.freshSigns _ (Nat.le_of_eq hn.symm)
  have hvexity : v.vexities[n.ref]? = none := hv.freshVexities _ (Nat.le_of_eq hn.symm)
  constructor
  case refs =>
    exact List.forall_mem_cons.mpr ⟨by omega, fun m hm => Nat.lt_succ_of_lt (hv.refs m hm)⟩
  case signs =>
    refine List.forall_mem_cons.mpr ⟨fun s hs => ?_, hv.signs⟩
    rw [hsign] at hs
    cases hs
  case vexities =>
    refine List.forall_mem_cons.mpr ⟨fun w hw => ?_, hv.vexities⟩
    rw [hvexity] at hw
    cases hw
  case closed =>
    refine List.forall_mem_cons.mpr ⟨fun hk => ?_, hv.closed⟩
    rw [known, hvexity] at hk
    cases hk
  case freshSigns => exact fun r hr => hv.freshSigns r (Nat.le_of_succ_le hr)
  case freshVexities => exact fun r hr => hv.freshVexities r (Nat.le_of_succ_le hr)

theorem Judges.sign? (hv : v.Judges N bound) (hn : n ∈ N) {s : Sign} (h : v.sign? n = some s) :
    s = n.sign := by
  cases n with
  | constant c => exact (Option.some.inj h).symm
  | unknown u => exact (Option.some.inj h).symm
  | product => exact hv.signs _ hn s h
  | weighted => exact hv.signs _ hn s h
  | square => exact hv.signs _ hn s h
  | bare => exact hv.signs _ hn s h

omit [Scalar α] in
theorem getElem?_setSign (n : Node α) (s : Sign) (r : Nat) :
    (setSign n s v).signs[r]? = if n.ref = r then some s else v.signs[r]? := by
  simp only [setSign, Std.TreeMap.getElem?_insert, Std.compare_eq_iff_eq]

omit [Scalar α] in
theorem getElem?_setVexity (n : Node α) (w : Vexity) (r : Nat) :
    (setVexity n w v).vexities[r]? = if n.ref = r then some w else v.vexities[r]? := by
  simp only [setVexity, Std.TreeMap.getElem?_insert, Std.compare_eq_iff_eq]

theorem Judges.setSign (hN : Node.Family N) (hv : v.Judges N bound) (hn : n ∈ N) :
    (setSign n n.sign v).Judges N bound where
  refs := hv.refs
  signs m hm s h := by
    rw [getElem?_setSign] at h
    split at h
    · next he => rw [← hN.objects n hn m hm he]; exact (Option.some.inj h).symm
    · exact hv.signs m hm s h
  vexities := hv.vexities
  closed := hv.closed
  freshSigns r hr := by
    have hlt := hv.refs n hn
    rw [getElem?_setSign, if_neg (by omega)]
    exact hv.freshSigns r hr
  freshVexities := hv.freshVexities

omit [Scalar α] in
theorem known_setVexity (n : Node α) (w : Vexity) :
    (Verdicts.setVexity n w v).known = fun r => decide (n.ref = r) || v.known r := by
  funext r
  rw [known, getElem?_setVexity]
  by_cases h : n.ref = r
  · simp [h]
  · simp [h, known]

theorem Judges.setVexity (hN : Node.Family N) (hv : v.Judges N bound) (hn : n ∈ N)
    (hc : ∀ c ∈ n.children, v.known c.ref = true) :
    (setVexity n n.vexity v).Judges N bound where
  refs := hv.refs
  signs := hv.signs
  vexities m hm w h := by
    rw [getElem?_setVexity] at h
    split at h
    · next he => rw [← hN.objects n hn m hm he]; exact (Option.some.inj h).symm
    · exact hv.vexities m hm w h
  closed m hm hk c hcm := by
    rw [known_setVexity] at hk ⊢
    rcases Bool.or_eq_true_iff.mp hk with he | hk
    · obtain rfl := hN.objects n hn m hm (of_decide_eq_true he)
      exact Bool.or_eq_true_iff.mpr (.inr (hc c hcm))
    · exact Bool.or_eq_true_iff.mpr (.inr (hv.closed m hm hk c hcm))
  freshSigns := hv.freshSigns
  freshVexities r hr := by
    have hlt := hv.refs n hn
    rw [getElem?_setVexity, if_neg (by omega)]
    exact hv.freshVexities r hr

theorem Judges.below (hN : Node.Family N) (hv : v.Judges N bound) (hn : n ∈ N)
    (hk : v.known n.ref = true) {m : Node α} (hm : m ∈ n.preorder) : v.known m.ref = true := by
  induction n using Node.children_induction with
  | step n ih =>
    rw [Node.preorder_eq] at hm
    rcases List.mem_cons.mp hm with rfl | hm
    · exact hk
    · obtain ⟨c, hcn, hmc⟩ := List.mem_flatMap.mp hm
      exact ih c hcn (hN.children n hn c hcn) (hv.closed n hn hk c hcn) hmc

end Verdicts

namespace Node

open Verdicts

variable {N : List (Node α)} {bound : Nat} {n : Node α} {v : Verdicts}

structure Signed (N : List (Node α)) (bound : Nat) (v : Verdicts) (s : Sign)
    (r : Except Failure Sign) (v' : Verdicts) : Prop where
  answer : r = .ok s
  judges : v'.Judges N bound
  vexities : v'.vexities = v.vexities
  kept : ∀ ref : Nat, v.signs[ref]?.isSome → v'.signs[ref]?.isSome

theorem signRule_ends (hN : Family N) (hn : n ∈ N) (hv : v.Judges N bound)
    {ask : (c : Node α) → c.weight < n.weight → Task Verdicts Sign}
    (hask : ∀ c hc, c ∈ n.children → ∀ u : Verdicts, u.Judges N bound →
      (ask c hc).Ends u (Signed N bound u c.sign)) :
    (signRule n ask).Ends v (Signed N bound v n.sign) := by
  cases n with
  | constant c => exact ⟨rfl, hv, rfl, fun _ h => h⟩
  | unknown u => exact ⟨rfl, hv, rfl, fun _ h => h⟩
  | product tag l r =>
    simp only [signRule, ends_bind, ends_pure]
    apply (hask l _ (by simp [children]) v hv).imp
    rintro _ v₁ ⟨rfl, hv₁, he₁, hk₁⟩
    apply (hask r _ (by simp [children]) v₁ hv₁).imp
    rintro _ v₂ ⟨rfl, hv₂, he₂, hk₂⟩
    exact ⟨rfl, hv₂, he₂.trans he₁, fun r h => hk₂ r (hk₁ r h)⟩
  | weighted tag c x =>
    simp only [signRule, ends_bind, ends_pure]
    apply (hask (constant c) _ (by simp [children]) v hv).imp
    rintro _ v₁ ⟨rfl, hv₁, he₁, hk₁⟩
    apply (hask x _ (by simp [children]) v₁ hv₁).imp
    rintro _ v₂ ⟨rfl, hv₂, he₂, hk₂⟩
    exact ⟨rfl, hv₂, he₂.trans he₁, fun r h => hk₂ r (hk₁ r h)⟩
  | square tag x =>
    simp only [signRule, ends_bind, ends_pure]
    apply (hask x _ (by simp [children]) v hv).imp
    rintro _ v₁ ⟨rfl, hv₁, he₁, hk₁⟩
    exact ⟨rfl, hv₁, he₁, hk₁⟩
  | bare tag kind arity args => exact (hN.formed _ hn).elim

theorem sign?_of_none {u : Verdicts} (h : v.sign? n = none) : u.sign? n = u.signs[n.ref]? := by
  cases n with
  | constant c => exact absurd h (Option.some_ne_none _)
  | unknown u => exact absurd h (Option.some_ne_none _)
  | product => rfl
  | weighted => rfl
  | square => rfl
  | bare => rfl

theorem askSign_ends (hN : Family N) (hn : n ∈ N) (hv : v.Judges N bound) :
    (askSign n).Ends v (Signed N bound v n.sign) := by
  induction n using weight_induction generalizing v with
  | step n ih =>
    rw [askSign]
    simp only [ends_bind, ends_get]
    cases hs : v.sign? n with
    | some s => exact ⟨congrArg _ (hv.sign? hn hs), hv, rfl, fun _ h => h⟩
    | none =>
      simp only [ends_bind, ends_get, ends_pure]
      let skip := fun m : Node α => (v.sign? m).isSome
      have hlist : ∀ m ∈ (postOrder skip n).order, m ∈ N := fun m hm =>
        hN.preorder_subset hn (mem_preorder_of_mem_postOrder hm)
      have hmark : ∀ (m : Node α) (s : Sign) (u : Verdicts) (r : Nat), u.signs[r]?.isSome →
          (setSign m s u).signs[r]?.isSome := by
        intro m s u r hr
        rw [getElem?_setSign]
        split
        · rfl
        · exact hr
      refine (ends_forM (P := fun u => Signed N bound v n.sign (.ok n.sign) u)
        (R := fun (m : {m // m ∈ (postOrder skip n).order}) u => (u.signs[m.1.ref]?).isSome) _ v ?_
        ⟨rfl, hv, rfl, fun _ h => h⟩).imp ?_
      · rintro ⟨m, hm⟩ - u ⟨-, hu, hue, huk⟩
        rw [ends_bind]
        refine (signRule_ends hN (hlist m hm) hu fun c hc hmem u' hu' =>
          ih c (Nat.lt_of_lt_of_le hc (weight_le_of_mem_postOrder hm))
            (hN.children m (hlist m hm) c hmem) hu').imp ?_
        rintro _ u₁ ⟨rfl, hu₁, he₁, hk₁⟩
        refine ⟨rfl, ⟨rfl, hu₁.setSign hN (hlist m hm), he₁.trans hue, fun r hr => ?_⟩, ?_,
          fun y hy => ?_⟩
        · exact hmark m m.sign u₁ r (hk₁ r (huk r hr))
        · change ((setSign m m.sign u₁).signs[m.ref]?).isSome = true
          simp [getElem?_setSign]
        · exact hmark m m.sign u₁ y.1.ref (hk₁ _ hy)
      · rintro _ u ⟨rfl, ⟨-, hu, hue, huk⟩, hall, -⟩
        obtain ⟨ns, hns⟩ : ∃ ns, (postOrder skip n).order = ns ++ [n] :=
          postOrder_eq_append (by simp [skip, hs])
        have hlast := hall ⟨n, by simp [hns]⟩ (List.mem_attach ..)
        obtain ⟨s, hs'⟩ := Option.isSome_iff_exists.mp hlast
        refine ⟨?_, hu, hue, huk⟩
        rw [sign?_of_none hs, hs', hu.signs n hn s hs']
        rfl

def monotonicities : Node α → List Monotonicity
  | product _ l r => [r.sign * Monotonicity.nondecreasing, l.sign * Monotonicity.nondecreasing]
  | weighted _ c x =>
    [x.sign * Monotonicity.nondecreasing, (constant c).sign * Monotonicity.nondecreasing]
  | square _ x => [x.sign * Monotonicity.nondecreasing]
  | constant _ | unknown _ | bare .. => []

def curvature : Node α → Vexity
  | constant _ => .constant
  | unknown _ => .affine
  | product _ l r => if l.vexity = .constant then .constant
    else if r.vexity = .constant then .constant else .notDcp
  | weighted _ _ x => if x.vexity = .constant then .constant else .affine
  | square .. => .convex
  | bare .. => .notDcp

def asked : Node α → List (Node α)
  | product _ l r => if l.vexity = .constant then [l] else [l, r]
  | weighted _ _ x => [x]
  | constant _ | unknown _ | square .. | bare .. => []

theorem asked_subset (n : Node α) : n.asked ⊆ n.children := by
  cases n with
  | product tag l r =>
    simp only [asked, children]
    split <;> simp
  | weighted => simp [asked, children]
  | constant => simp [asked]
  | unknown => simp [asked]
  | square => simp [asked]
  | bare => simp [asked]

theorem askMonotonicity_ends (hN : Family N) (hn : n ∈ N) (hv : v.Judges N bound) :
    n.askMonotonicity.Ends v fun r v' =>
      r = .ok n.monotonicities ∧ v'.Judges N bound ∧ v'.vexities = v.vexities := by
  cases n with
  | product tag l r =>
    simp only [askMonotonicity, ends_bind, ends_pure]
    apply (askSign_ends hN (hN.children _ hn r (by simp [children])) hv).imp
    rintro _ v₁ ⟨rfl, hv₁, he₁, -⟩
    apply (askSign_ends hN (hN.children _ hn l (by simp [children])) hv₁).imp
    rintro _ v₂ ⟨rfl, hv₂, he₂, -⟩
    exact ⟨rfl, hv₂, he₂.trans he₁⟩
  | weighted tag c x =>
    simp only [askMonotonicity, ends_bind, ends_pure]
    apply (askSign_ends hN (hN.children _ hn x (by simp [children])) hv).imp
    rintro _ v₁ ⟨rfl, hv₁, he₁, -⟩
    apply (askSign_ends hN (hN.children _ hn (constant c) (by simp [children])) hv₁).imp
    rintro _ v₂ ⟨rfl, hv₂, he₂, -⟩
    exact ⟨rfl, hv₂, he₂.trans he₁⟩
  | square tag x =>
    simp only [askMonotonicity, ends_bind, ends_pure]
    apply (askSign_ends hN (hN.children _ hn x (by simp [children])) hv).imp
    rintro _ v₁ ⟨rfl, hv₁, he₁, -⟩
    exact ⟨rfl, hv₁, he₁⟩
  | constant => exact ⟨rfl, hv, rfl⟩
  | unknown => exact ⟨rfl, hv, rfl⟩
  | bare => exact ⟨rfl, hv, rfl⟩

/-- The objects whose curvature is known after that of `n` was asked for, if it was known of those
of `known` before; `none` if a node below reads a child whose curvature is not known by then. A walk
enters one object of each identity, and so it knows the children of a node only if they are the
objects that it entered, were known before it began, or were asked for in between. -/
def settle (known : Nat → Bool) (n : Node α) : Option (Nat → Bool) :=
  if known n.ref then some known
  else
    (postOrder (fun m => known m.ref) n).order.attach.foldlM (fun known m => do
      let known ← m.1.asked.attach.foldlM (fun known c => settle known c.1) known
      bif m.1.children.all fun c => known c.ref then
        some fun r => decide (m.1.ref = r) || known r
      else none) known
termination_by n.weight
decreasing_by
  exact Nat.lt_of_lt_of_le (weight_lt_of_mem_children (asked_subset _ c.2))
    (weight_le_of_mem_postOrder m.2)

structure Follows {β : Type} (N : List (Node α)) (bound : Nat) (plan : Option (Nat → Bool)) (a : β)
    (r : Except Failure β) (v : Verdicts) : Prop where
  judges : v.Judges N bound
  answer : match plan with
    | some known => r = .ok a ∧ v.known = known
    | none => r = .error .unaskedChild

theorem Follows.bind {β γ : Type} {task : Task Verdicts β} {f : β → Task Verdicts γ}
    {plan : Option (Nat → Bool)} {next : (Nat → Bool) → Option (Nat → Bool)} {a : β} {b : γ}
    (ht : task.Ends v (Follows N bound plan a))
    (hf : ∀ u, u.Judges N bound → plan = some u.known →
      (f a).Ends u (Follows N bound (next u.known) b)) :
    (task >>= f).Ends v (Follows N bound (plan >>= next) b) := by
  rw [ends_bind]
  apply ht.imp
  rintro r u ⟨hu, hr⟩
  cases plan with
  | none =>
    subst hr
    exact ⟨hu, rfl⟩
  | some known =>
    obtain ⟨rfl, rfl⟩ := hr
    exact hf u hu rfl

theorem Follows.congr {β : Type} {plan : Option (Nat → Bool)} {a b : β} {r : Except Failure β}
    (h : Follows N bound plan a r v) (hab : plan.isSome → a = b) : Follows N bound plan b r v := by
  refine ⟨h.judges, ?_⟩
  have hr := h.answer
  cases plan with
  | none => exact hr
  | some known => exact hab rfl ▸ hr

theorem settle_of_known {known : Nat → Bool} (h : known n.ref = true) :
    settle known n = some known := by
  rw [settle, if_pos h]

theorem foldlM_settle_of_known {known : Nat → Bool} (ns : List (Node α))
    (h : ∀ n ∈ ns, known n.ref = true) : ns.foldlM settle known = some known := by
  induction ns with
  | nil => rfl
  | cons n ns ih =>
    rw [List.foldlM_cons, settle_of_known (h n (List.mem_cons_self ..))]
    exact ih fun m hm => h m (List.mem_cons_of_mem _ hm)

def plan (n : Node α) (known : Nat → Bool) : Option (Nat → Bool) :=
  n.asked.foldlM settle known >>= fun known =>
    bif n.children.all fun c => known c.ref then some known else none

def turn (known : Nat → Bool) (m : Node α) : Option (Nat → Bool) := do
  let known ← m.plan known
  return fun r => decide (m.ref = r) || known r

theorem settle_eq (known : Nat → Bool) (n : Node α) :
    settle known n = if known n.ref then some known
      else (postOrder (fun m => known m.ref) n).order.foldlM turn known := by
  have hattach {γ δ : Type} (xs : List γ) (f : δ → γ → Option δ) (d : δ) :
      xs.attach.foldlM (fun d x => f d x.1) d = xs.foldlM f d := by
    rw [← List.foldlM_map, List.attach_map_subtype_val]
  rw [settle, ← hattach _ turn]
  congr 2
  funext known m
  rw [hattach, turn, plan]
  cases m.1.asked.foldlM settle known with
  | none => rfl
  | some known =>
    simp only [Option.bind_eq_bind, Option.bind_some]
    cases m.1.children.all fun c => known c.ref <;> rfl

theorem vexity_eq_foldl (hn : n.Formed) (hsq : ∀ tag x, n = square tag x → x.vexity ≠ .constant) :
    n.vexity = (n.monotonicities.zip n.children).foldl
      (fun w a => w + a.1 * a.2.vexity) n.curvature := by
  cases n with
  | constant c => rfl
  | unknown u => rfl
  | product tag l r =>
    by_cases hl : l.vexity = .constant
    · by_cases hr : r.vexity = .constant <;>
        simp [vexity, compose, monotonicities, children, curvature, hl, hr, Vexity.mul_constant,
          Vexity.constant_add]
    · by_cases hr : r.vexity = .constant <;>
        simp [vexity, compose, monotonicities, children, curvature, hl, hr]
  | weighted tag c x =>
    by_cases hx : x.vexity = .constant <;>
      simp [vexity, compose, monotonicities, children, curvature, sign, hx, Vexity.mul_constant,
        Vexity.constant_add]
  | square tag x =>
    have hx := hsq tag x rfl
    simp [vexity, compose, monotonicities, children, curvature, hx]
  | bare => exact hn.elim

theorem vexity_of_children (hn : n.Formed) (hc : n.children ≠ [])
    (h : ∀ c ∈ n.children, c.vexity = .constant) : n.vexity = .constant := by
  cases n with
  | constant c => rfl
  | unknown u => simp [children] at hc
  | product tag l r =>
    simp [vexity, compose, h l (by simp [children]), h r (by simp [children])]
  | weighted tag c x => simp [vexity, compose, h x (by simp [children])]
  | square tag x => simp [vexity, compose, h x (by simp [children])]
  | bare => exact hn.elim

theorem curvatureRule_ends (hN : Family N) (hn : n ∈ N) (hv : v.Judges N bound)
    {ask : (c : Node α) → c.weight < n.weight → Task Verdicts Vexity}
    (hask : ∀ c hc, c ∈ n.children → ∀ u : Verdicts, u.Judges N bound →
      (ask c hc).Ends u (Follows N bound (settle u.known c) c.vexity)) :
    (curvatureRule n ask).Ends v (Follows N bound (n.asked.foldlM settle v.known) n.curvature) := by
  cases n with
  | constant => exact ⟨hv, rfl, rfl⟩
  | unknown => exact ⟨hv, rfl, rfl⟩
  | product tag l r =>
    have hl := hask l (left_lt_product tag l r) (by simp [children]) v hv
    by_cases hc : l.vexity = .constant
    · simp only [asked, curvature, if_pos hc, List.foldlM_cons, List.foldlM_nil]
      apply Follows.bind hl
      intro u hu _
      rw [if_pos hc]
      exact ⟨hu, rfl, rfl⟩
    · simp only [asked, curvature, if_neg hc, List.foldlM_cons, List.foldlM_nil]
      apply Follows.bind hl
      intro u hu _
      rw [if_neg hc]
      have hr := hask r (right_lt_product tag l r) (by simp [children]) u hu
      apply Follows.bind hr
      intro u' hu' _
      exact ⟨hu', rfl, rfl⟩
  | weighted tag c x =>
    simp only [asked, curvature, List.foldlM_cons, List.foldlM_nil]
    have hx := hask x (operand_lt_weighted tag c x) (by simp [children]) v hv
    apply Follows.bind hx
    intro u hu _
    exact ⟨hu, rfl, rfl⟩
  | square => exact ⟨hv, rfl, rfl⟩
  | bare => exact (hN.formed _ hn).elim

theorem joinChildren_ends (hv : v.Judges N bound) (own : Vexity)
    (args : List (Monotonicity × Node α)) (hargs : ∀ a ∈ args, a.2 ∈ N) :
    (joinChildren own args).Ends v (Follows N bound
      (bif args.all fun a => v.known a.2.ref then some v.known else none)
      (args.foldl (fun w a => w + a.1 * a.2.vexity) own)) := by
  simp only [joinChildren, ends_bind, ends_get]
  induction args generalizing own with
  | nil => exact ⟨hv, rfl, rfl⟩
  | cons a args ih =>
    simp only [List.foldlM_cons, List.all_cons, List.foldl_cons, ends_bind]
    cases h : v.vexity? a.2 with
    | none =>
      have hk : v.known a.2.ref = false := by
        rw [known, ← vexity?, h]
        rfl
      rw [hk, Bool.false_and, cond_false]
      exact ⟨hv, rfl⟩
    | some w =>
      have hk : v.known a.2.ref = true := by
        rw [known, ← vexity?, h]
        rfl
      have hw : w = a.2.vexity := hv.vexities a.2 (hargs a (List.mem_cons_self ..)) w h
      simp only [hk, Bool.true_and, ends_pure, hw]
      exact ih (own + a.1 * a.2.vexity) fun b hb => hargs b (List.mem_cons_of_mem _ hb)

omit [Scalar α] in
theorem all_zip {ms : List Monotonicity} {ns : List (Node α)} (h : ns.length ≤ ms.length)
    (p : Node α → Bool) : ((ms.zip ns).all fun a => p a.2) = ns.all p := by
  calc ((ms.zip ns).all fun a => p a.2) = ((ms.zip ns).map Prod.snd).all p := by
        rw [List.all_map]
        rfl
    _ = ns.all p := by rw [List.map_snd_zip h]

theorem length_monotonicities (hn : n.Formed) : n.monotonicities.length = n.children.length := by
  cases n with
  | bare => exact hn.elim
  | _ => rfl

theorem vexityRule_ends (hN : Family N) (hn : n ∈ N) (hv : v.Judges N bound)
    {ask : (c : Node α) → c.weight < n.weight → Task Verdicts Vexity}
    (hask : ∀ c hc, c ∈ n.children → ∀ u : Verdicts, u.Judges N bound →
      (ask c hc).Ends u (Follows N bound (settle u.known c) c.vexity)) :
    (vexityRule n ask).Ends v (Follows N bound (n.plan v.known) n.vexity) := by
  have hform := hN.formed n hn
  rw [vexityRule, ends_bind, ends_get]
  by_cases hconst : (!n.children.isEmpty && n.children.all fun c =>
      decide (v.vexity? c = some .constant)) = true
  · simp only [if_pos hconst, ends_pure]
    obtain ⟨hne, hall⟩ := Bool.and_eq_true_iff.mp hconst
    have hknown : ∀ c ∈ n.children, v.known c.ref = true := by
      intro c hc
      rw [known, ← vexity?, of_decide_eq_true (List.all_eq_true.mp hall c hc)]
      rfl
    have hplan : n.plan v.known = some v.known := by
      rw [plan, foldlM_settle_of_known _ fun c hc => hknown c (n.asked_subset hc)]
      exact congrArg (cond · _ none) (List.all_eq_true.mpr hknown)
    have hvex : n.vexity = .constant := by
      apply vexity_of_children hform (by simpa using hne)
      intro c hc
      exact (hv.vexities c (hN.children n hn c hc) _
        (of_decide_eq_true (List.all_eq_true.mp hall c hc))).symm
    rw [hplan, hvex]
    exact ⟨hv, rfl, rfl⟩
  · simp only [if_neg hconst]
    apply Follows.bind (curvatureRule_ends hN hn hv hask)
    intro u hu hplan
    rw [ends_bind]
    apply (askMonotonicity_ends hN hn hu).imp
    rintro _ u' ⟨rfl, hu', he⟩
    have hk : u'.known = u.known := by
      funext r
      rw [known, he, known]
    have hjoin := joinChildren_ends hu' n.curvature (n.monotonicities.zip n.children)
      fun a ha => hN.children n hn _ (List.of_mem_zip ha).2
    have hlength := Nat.le_of_eq (length_monotonicities hform).symm
    rw [all_zip hlength fun c => u'.known c.ref, hk] at hjoin
    refine hjoin.imp fun r w hr => hr.congr fun hsome => ?_
    refine (vexity_eq_foldl hform fun tag x hsq hx => hconst ?_).symm
    subst hsq
    have hu : v.known = u.known := Option.some.inj hplan
    have hall : (square tag x).children.all (fun c => v.known c.ref) = true := by
      rw [hu]
      cases hb : (square tag x).children.all fun c => u.known c.ref with
      | true => rfl
      | false => rw [hb] at hsome; exact absurd hsome Bool.false_ne_true
    obtain ⟨w, hw⟩ := Option.isSome_iff_exists.mp
      (List.all_eq_true.mp hall x (List.mem_singleton_self x))
    have hxw : w = x.vexity := hv.vexities x (hN.children _ hn x (by simp [children])) w hw
    simp [children, vexity?, hw, hxw, hx]

theorem known_of_plan {known known' : Nat → Bool} (h : n.plan known = some known') :
    ∀ c ∈ n.children, known' c.ref = true := by
  obtain ⟨k, -, hk⟩ := Option.bind_eq_some_iff.mp h
  cases hall : n.children.all fun c => k c.ref with
  | false =>
    rw [hall] at hk
    cases hk
  | true =>
    rw [hall] at hk
    obtain rfl := Option.some.inj hk
    exact List.all_eq_true.mp hall

theorem turn_ends (hN : Family N) (hn : n ∈ N) {task : Task Verdicts Vexity}
    (ht : task.Ends v (Follows N bound (n.plan v.known) n.vexity)) :
    (task >>= fun w => modify (setVexity n w)).Ends v (Follows N bound (turn v.known n) ⟨⟩) := by
  apply Follows.bind ht
  intro u hu hplan
  exact ⟨hu.setVexity hN hn (known_of_plan hplan), rfl, known_setVexity n n.vexity⟩

theorem turns_end {β : Type} {f : β → Task Verdicts PUnit} (node : β → Node α) (xs : List β)
    (hv : v.Judges N bound)
    (hf : ∀ x ∈ xs, ∀ u : Verdicts, u.Judges N bound →
      (f x).Ends u (Follows N bound (turn u.known (node x)) ⟨⟩)) :
    (xs.forM f).Ends v (Follows N bound ((xs.map node).foldlM turn v.known) ⟨⟩) := by
  induction xs generalizing v with
  | nil => exact ⟨hv, rfl, rfl⟩
  | cons x xs ih =>
    rw [List.forM, List.map_cons, List.foldlM_cons]
    apply Follows.bind (hf x (List.mem_cons_self ..) v hv)
    intro u hu _
    exact ih hu fun y hy => hf y (List.mem_cons_of_mem _ hy)

theorem known_of_foldlM_turn {known known' : Nat → Bool} {ns : List (Node α)}
    (h : (ns ++ [n]).foldlM turn known = some known') : known' n.ref = true := by
  rw [List.foldlM_append] at h
  obtain ⟨k, -, hk⟩ := Option.bind_eq_some_iff.mp h
  rw [List.foldlM_cons] at hk
  obtain ⟨k', hk', he⟩ := Option.bind_eq_some_iff.mp hk
  obtain ⟨k'', -, hk''⟩ := Option.bind_eq_some_iff.mp hk'
  rw [← Option.some.inj he, ← Option.some.inj hk'']
  simp

theorem askVexity_ends (hN : Family N) (hn : n ∈ N) (hv : v.Judges N bound) :
    (askVexity n).Ends v (Follows N bound (settle v.known n) n.vexity) := by
  induction n using weight_induction generalizing v with
  | step n ih =>
    rw [askVexity, settle_eq]
    simp only [ends_bind, ends_get]
    cases hw : v.vexity? n with
    | some w =>
      have hk : v.known n.ref = true := by
        rw [known, ← vexity?, hw]
        rfl
      rw [if_pos hk]
      exact ⟨hv, congrArg _ (hv.vexities n hn w hw), rfl⟩
    | none =>
      have hk : v.known n.ref = false := by
        rw [known, ← vexity?, hw]
        rfl
      rw [if_neg (by simp [hk])]
      let skip := fun m : Node α => v.known m.ref
      have hlist : ∀ m ∈ (postOrder skip n).order, m ∈ N := fun m hm =>
        hN.preorder_subset hn (mem_preorder_of_mem_postOrder hm)
      obtain ⟨ns, hns⟩ : ∃ ns, (postOrder skip n).order = ns ++ [n] := postOrder_eq_append hk
      rw [ends_bind]
      refine (turns_end Subtype.val (postOrder skip n).order.attach hv ?_).imp ?_
      · rintro ⟨m, hm⟩ - u hu
        refine turn_ends hN (hlist m hm) (vexityRule_ends hN (hlist m hm) hu ?_)
        intro c hc hmem u' hu'
        exact ih c (Nat.lt_of_lt_of_le hc (weight_le_of_mem_postOrder hm))
          (hN.children m (hlist m hm) c hmem) hu'
      · rw [List.attach_map_subtype_val]
        rintro r u ⟨hu, hr⟩
        cases hp : (postOrder skip n).order.foldlM turn v.known with
        | none =>
          rw [hp] at hr
          subst hr
          exact ⟨hu, rfl⟩
        | some known' =>
          rw [hp] at hr
          obtain ⟨rfl, rfl⟩ := hr
          obtain ⟨w, hw⟩ := Option.isSome_iff_exists.mp (known_of_foldlM_turn (hns ▸ hp))
          refine ⟨hu, ?_, rfl⟩
          change Except.ok ((u.vexities[n.ref]?).getD .notDcp) = _
          rw [hw, hu.vexities n hn w hw]
          rfl

theorem plan_of_known {known : Nat → Bool} (h : ∀ c ∈ n.children, known c.ref = true) :
    n.plan known = some known := by
  rw [plan, foldlM_settle_of_known _ fun c hc => h c (n.asked_subset hc)]
  exact congrArg (cond · _ none) (List.all_eq_true.mpr h)

theorem settle_of_objects (known : Nat → Bool)
    (hn : ∀ a ∈ n.preorder, ∀ b ∈ n.preorder, a.id = b.id → a = b) :
    (settle known n).isSome = true := by
  rw [settle_eq]
  by_cases hk : known n.ref = true
  · rw [if_pos hk]
    rfl
  · rw [if_neg hk]
    let skip := fun m : Node α => known m.ref
    have hid : n.IdsWeigh := fun a ha b hb he => congrArg weight (hn a ha b hb he)
    -- whatever was known stays known, and so do the nodes judged so far
    have hrest : ∀ post pre known', (postOrder skip n).order = pre ++ post →
        (∀ r, known r = true → known' r = true) → (∀ d ∈ pre, known' d.ref = true) →
        (post.foldlM turn known').isSome = true := by
      intro post
      induction post with
      | nil => exact fun _ _ _ _ _ => rfl
      | cons m post ih =>
        intro pre known' hsplit hold hpre
        have hm : m ∈ n.preorder := mem_preorder_of_mem_postOrder (by rw [hsplit]; simp)
        have hchildren : ∀ c ∈ m.children, known' c.ref = true := by
          intro c hc
          obtain ⟨d, hd, he, hskip⟩ := (postOrder_split hid hsplit).1 c hc
          have hdc : d = c :=
            hn d hd c (mem_preorder_trans hm (child_mem_preorder hc)) he
          subst hdc
          rcases hskip with hskip | hd
          · exact hold _ hskip
          · exact hpre d hd
        rw [List.foldlM_cons, turn, plan_of_known hchildren]
        refine ih (pre ++ [m]) _ (by simp [hsplit]) (fun r hr => ?_) fun d hd => ?_
        · simp [hold r hr]
        · rcases List.mem_append.mp hd with hd | hd
          · simp [hpre d hd]
          · simp [List.mem_singleton.mp hd]
    exact hrest _ [] known rfl (fun _ h => h) nofun

end Node

end DisciplinedConvex
