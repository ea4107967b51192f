import DisciplinedConvex.Node.Composition
import DisciplinedConvex.Proofs.Walk

namespace DisciplinedConvex.Node

variable {α : Type}

def forget : Node α → Node α
  | constant c => constant { c with ref := 0 }
  | unknown u => unknown u
  | product tag l r => product { tag with ref := 0 } l.forget r.forget
  | weighted tag c x => weighted { tag with ref := 0 } { c with ref := 0 } x.forget
  | square tag x => square { tag with ref := 0 } x.forget
  | bare tag kind arity args => bare { tag with ref := 0 } kind arity fun i => (args i).forget

/-- Nodes of one structure, whether they are one object or built apart. -/
def Alike (m n : Node α) : Prop := m.forget = n.forget

theorem size_forget (n : Node α) : n.forget.size = n.size := by
  cases n <;> rfl

theorem weight_forget (n : Node α) : n.forget.weight = n.weight := by
  induction n with
  | constant c => rfl
  | unknown u => rfl
  | product tag l r hl hr => simp only [forget, weight, hl, hr]
  | weighted tag c x hx => simp only [forget, weight, hx]
  | square tag x hx => simp only [forget, weight, hx]
  | bare tag kind arity args h => simp only [forget, weight, h]

theorem Alike.size_eq {m n : Node α} (h : m.Alike n) : m.size = n.size := by
  rw [← m.size_forget, ← n.size_forget, h]

theorem Alike.weight_eq {m n : Node α} (h : m.Alike n) : m.weight = n.weight := by
  rw [← m.weight_forget, ← n.weight_forget, h]

theorem id_forget (n : Node α) : n.forget.id = n.id := by
  cases n <;> rfl

theorem ids_children_forget (n : Node α) : n.forget.children.map id = n.children.map id := by
  cases n with
  | constant c => rfl
  | unknown u => rfl
  | product tag l r => simp only [forget, children, List.map_cons, List.map_nil, id_forget]
  | weighted tag c x =>
    simp only [forget, children, List.map_cons, List.map_nil, id_forget]
    rfl
  | square tag x => simp only [forget, children, List.map_cons, List.map_nil, id_forget]
  | bare tag kind arity args =>
    simp only [forget, children, List.map_ofFn]
    exact congrArg List.ofFn (funext fun i => id_forget (args i))

theorem Alike.ids_children {m n : Node α} (h : m.Alike n) :
    m.children.map id = n.children.map id := by
  rw [← m.ids_children_forget, ← n.ids_children_forget, h]

theorem Alike.unknown_eq {n : Node α} {u : Unknown} (h : n.Alike (unknown u)) : n = unknown u := by
  cases n with
  | unknown v => exact h
  | constant | product | weighted | square | bare => cases h

theorem unknown_mem_forget (n : Node α) (u : Unknown) :
    unknown u ∈ n.forget.preorder ↔ unknown u ∈ n.preorder := by
  induction n with
  | constant c => simp [forget, preorder]
  | unknown v => rfl
  | product tag l r hl hr => simp [forget, preorder, hl, hr]
  | weighted tag c x hx => simp [forget, preorder, hx]
  | square tag x hx => simp [forget, preorder, hx]
  | bare tag kind arity args h => simp [forget, preorder, List.mem_flatten, List.mem_ofFn, h]

theorem Alike.unknown_mem {m n : Node α} (h : m.Alike n) {u : Unknown}
    (hu : unknown u ∈ m.preorder) : unknown u ∈ n.preorder := by
  rwa [← unknown_mem_forget, ← h, unknown_mem_forget]

theorem Alike.square_eq {n x : Node α} {tag : Tag} (h : n.Alike (square tag x)) :
    ∃ tag' x', n = square tag' x' ∧ tag'.size = tag.size ∧ x'.Alike x := by
  cases n with
  | square tag' x' =>
    have hinj := Node.square.inj h
    have hsize := congrArg Tag.size hinj.1
    exact ⟨tag', x', rfl, hsize, hinj.2⟩
  | constant | unknown | product | weighted | bare => cases h

theorem Alike.product_eq {n l r : Node α} {tag : Tag} (h : n.Alike (product tag l r)) :
    ∃ tag' l' r', n = product tag' l' r' ∧ l'.Alike l ∧ r'.Alike r := by
  cases n with
  | product tag' l' r' =>
    have hinj := Node.product.inj h
    exact ⟨tag', l', r', rfl, hinj.2.1, hinj.2.2⟩
  | constant | unknown | weighted | square | bare => cases h

section Composition

variable [Scalar α]

theorem sign_forget (n : Node α) : n.forget.sign = n.sign := by
  induction n with
  | constant c => rfl
  | unknown u => rfl
  | product tag l r hl hr => simp only [forget, sign, hl, hr]
  | weighted tag c x hx => simp only [forget, sign, hx]
  | square tag x hx => simp only [forget, sign, hx]
  | bare tag kind arity args h => rfl

theorem vexity_forget (n : Node α) : n.forget.vexity = n.vexity := by
  induction n with
  | constant c => rfl
  | unknown u => rfl
  | product tag l r hl hr => simp only [forget, vexity, sign_forget, hl, hr]
  | weighted tag c x hx => simp only [forget, vexity, sign_forget, hx]
  | square tag x hx => simp only [forget, vexity, sign_forget, hx]
  | bare tag kind arity args h => simp only [forget, vexity, h]

theorem Alike.sign_eq {m n : Node α} (h : m.Alike n) : m.sign = n.sign := by
  rw [← m.sign_forget, ← n.sign_forget, h]

theorem Alike.vexity_eq {m n : Node α} (h : m.Alike n) : m.vexity = n.vexity := by
  rw [← m.vexity_forget, ← n.vexity_forget, h]

end Composition

/-- Equal identities stand for equal structure among the nodes of `N`. -/
def Faithful (N : List (Node α)) : Prop :=
  ∀ m ∈ N, ∀ n ∈ N, m.id = n.id → m.Alike n

theorem faithful_of_nodup {N : List (Node α)} (h : (N.map id).Nodup) : Faithful N :=
  fun _ hm _ hn he => congrArg forget (List.inj_on_of_nodup_map h hm hn he)

theorem Faithful.mono {M N : List (Node α)} (h : Faithful N) (hMN : M ⊆ N) : Faithful M :=
  fun m hm n hn => h m (hMN hm) n (hMN hn)

/-- Every operation below a node has the size that its constructor gives it, and rules of its own. -/
def Formed : Node α → Prop
  | constant _ | unknown _ => True
  | product tag l r => l.size.product? r.size = some tag.size ∧ l.Formed ∧ r.Formed
  | weighted tag c x => c.value.size = x.size ∧ tag.size = x.size ∧ x.Formed
  | square tag x => tag.size = x.size ∧ x.Formed
  | bare .. => False

theorem Formed.child {c n : Node α} (hn : n.Formed) (hc : c ∈ n.children) : c.Formed := by
  cases n with
  | constant c => exact absurd hc List.not_mem_nil
  | unknown u => exact absurd hc List.not_mem_nil
  | product tag l r =>
    rcases List.mem_pair.mp hc with rfl | rfl
    · exact hn.2.1
    · exact hn.2.2
  | weighted tag c x =>
    rcases List.mem_pair.mp hc with rfl | rfl
    · trivial
    · exact hn.2.2
  | square tag x =>
    rw [List.mem_singleton.mp hc]
    exact hn.2
  | bare => exact hn.elim

theorem Formed.of_mem {m n : Node α} (hn : n.Formed) (hm : m ∈ n.preorder) : m.Formed := by
  induction n using children_induction with
  | step n ih =>
    rw [preorder_eq] at hm
    rcases List.mem_cons.mp hm with rfl | hm
    · exact hn
    · obtain ⟨c, hc, hmc⟩ := List.mem_flatMap.mp hm
      exact ih c hc (hn.child hc) hmc

structure Family (N : List (Node α)) : Prop where
  children : ∀ n ∈ N, ∀ c ∈ n.children, c ∈ N
  older : ∀ n ∈ N, ∀ c ∈ n.children, c.ref < n.ref
  formed : ∀ n ∈ N, n.Formed
  objects : ∀ m ∈ N, ∀ n ∈ N, m.ref = n.ref → m = n

theorem Family.cons {N : List (Node α)} (hN : Family N) {n : Node α} (hn : n.Formed)
    (hc : ∀ c ∈ n.children, c ∈ N) (hlt : ∀ m ∈ N, m.ref < n.ref) : Family (n :: N) where
  children := List.forall_mem_cons.mpr ⟨fun c h => List.mem_cons_of_mem _ (hc c h),
    fun m hm c h => List.mem_cons_of_mem _ (hN.children m hm c h)⟩
  older := List.forall_mem_cons.mpr ⟨fun c h => hlt c (hc c h), hN.older⟩
  formed := List.forall_mem_cons.mpr ⟨hn, hN.formed⟩
  objects := by
    intro l hl m hm he
    rcases List.mem_cons.mp hl with rfl | hlN
    · rcases List.mem_cons.mp hm with rfl | hmN
      · rfl
      · exact absurd he (Nat.ne_of_gt (hlt m hmN))
    · rcases List.mem_cons.mp hm with rfl | hmN
      · exact absurd he (Nat.ne_of_lt (hlt l hlN))
      · exact hN.objects l hlN m hmN he

theorem Family.preorder_subset {N : List (Node α)} (hN : Family N) {n : Node α} (hn : n ∈ N) :
    n.preorder ⊆ N := by
  induction n using children_induction with
  | step n ih =>
    rw [preorder_eq]
    refine List.cons_subset.mpr ⟨hn, fun m hm => ?_⟩
    obtain ⟨c, hc, hmc⟩ := List.mem_flatMap.mp hm
    exact ih c hc (hN.children n hn c hc) hmc

theorem Family.ref_lt {N : List (Node α)} (hN : Family N) {m n : Node α} (hn : n ∈ N)
    (hm : m ∈ n.preorder) : m = n ∨ m.ref < n.ref := by
  induction n using children_induction with
  | step n ih =>
    rw [preorder_eq] at hm
    rcases List.mem_cons.mp hm with rfl | hm
    · exact .inl rfl
    · obtain ⟨c, hc, hmc⟩ := List.mem_flatMap.mp hm
      have hlt := hN.older n hn c hc
      rcases ih c hc (hN.children n hn c hc) hmc with rfl | h
      · exact .inr hlt
      · exact .inr (Nat.lt_trans h hlt)

theorem Family.idsWeigh {N : List (Node α)} (hN : Family N) (hf : Faithful N) {n : Node α}
    (hn : n ∈ N) : n.IdsWeigh :=
  fun a ha b hb he => (hf a (hN.preorder_subset hn ha) b (hN.preorder_subset hn hb) he).weight_eq

end DisciplinedConvex.Node
