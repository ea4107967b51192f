import DisciplinedConvex.Proofs.Signs

namespace DisciplinedConvex

variable {α : Type}

namespace Dense

variable [Zero α] {A B : Dense α}

structure Pairs (R : α → α → Prop) (A B : Dense α) : Prop where
  size : A.size = B.size
  entry : ∀ i < A.rows, ∀ j < A.cols, R (A.entry i j) (B.entry i j)

theorem Pairs.apply {R : α → α → Prop} {s : Size} {i j : Nat} (h : A.Pairs R B) (hs : A.size = s)
    (hi : i < s.height) (hj : j < s.width) : R (A.entry i j) (B.entry i j) :=
  h.entry i (rows_eq hs ▸ hi) j (cols_eq hs ▸ hj)

theorem Holds.pairs {R : α → α → Prop} {s : Size} {f g : Nat → Nat → α} (hA : A.Holds s f)
    (hB : B.Holds s g) (h : ∀ i < s.height, ∀ j < s.width, R (f i j) (g i j)) : A.Pairs R B := by
  refine ⟨hA.size.trans hB.size.symm, fun i hi j hj => ?_⟩
  rw [rows_eq hA.size] at hi
  rw [cols_eq hA.size] at hj
  rw [hA.entry i hi j hj, hB.entry i hi j hj]
  exact h i hi j hj

theorem holds_own {s : Size} (h : A.size = s) : A.Holds s A.entry := ⟨h, fun _ _ _ _ => rfl⟩

theorem hadamard_holds [Mul α] {s : Size} (hA : A.size = s) :
    (A.hadamard B).Holds s fun i j => A.entry i j * B.entry i j :=
  ⟨hA, fun _ hi _ hj => entry_hadamard A B (rows_eq hA ▸ hi) (cols_eq hA ▸ hj)⟩

theorem map_holds {s : Size} (f : α → α) (hA : A.size = s) :
    (A.map f).Holds s fun i j => f (A.entry i j) :=
  ⟨hA, fun _ hi _ hj => entry_map f A (rows_eq hA ▸ hi) (cols_eq hA ▸ hj)⟩

end Dense

namespace Monotonicity

def Promises [LE α] : Monotonicity → α → α → Prop
  | nondecreasing, a, b => a ≤ b
  | nonincreasing, a, b => b ≤ a
  | constant, a, b => a = b
  | nonmonotone, _, _ => True

variable [LinearOrder α] {s : Sign} {m : Monotonicity} {a b c : α}

theorem promises_iff : m.Promises a b ↔ (m * Vexity.convex).Promises a b := by
  cases m <;> exact Iff.rfl

variable [Field α] [IsStrictOrderedRing α]

theorem Promises.sum {n : Nat} {f g : Nat → α} (h : ∀ k < n, m.Promises (f k) (g k)) :
    m.Promises (∑ k ∈ Finset.range n, f k) (∑ k ∈ Finset.range n, g k) :=
  promises_iff.mpr (Vexity.Promises.sum fun k hk => promises_iff.mp (h k hk))

theorem promises_mul_left (hc : s.Admits c) (h : a ≤ b) :
    (s * nondecreasing).Promises (c * a) (c * b) :=
  promises_iff.mpr (Vexity.Promises.scale (v := .convex) hc h)

theorem promises_mul_right (hc : s.Admits c) (h : a ≤ b) :
    (s * nondecreasing).Promises (a * c) (b * c) := by
  rw [mul_comm a c, mul_comm b c]
  exact promises_mul_left hc h

theorem promises_mul_self (ha : s.Admits a) (hb : s.Admits b) (h : a ≤ b) :
    (s * nondecreasing).Promises (a * a) (b * b) := by
  cases s with
  | positive => exact mul_self_le_mul_self ha h
  | negative => exact mul_le_mul_of_nonpos_of_nonpos h h (h.trans hb) hb
  | zero => exact mul_self_le_mul_self (ha.nonneg rfl) h
  | indeterminate => trivial

end Monotonicity

namespace Node

section Operations

variable [Zero α] [Add α] [Mul α]

def operate : Node α → List (Dense α) → Except Failure (Dense α)
  | product _ l r, [A, B] => multiplyValues l.size r.size A B
  | weighted .., [C, X] => .ok (C.hadamard X)
  | square .., [X] => .ok (X.map fun a => a * a)
  | n, _ => .error (.noRule .value n.kind)

theorem evaluate_eq_operate {n : Node α} (hn : n.Formed) (hc : n.children ≠ [])
    (values : Assignment α) :
    n.evaluate values = n.children.mapM (evaluate values) >>= n.operate := by
  cases n with
  | constant | unknown => exact absurd rfl hc
  | product tag l r => simp [evaluate, children, operate]
  | weighted tag c x =>
    simp only [children, List.mapM_cons, List.mapM_nil, bind_assoc, pure_bind, evaluate]
    cases x.evaluate values <;> rfl
  | square tag x =>
    simp only [children, List.mapM_cons, List.mapM_nil, bind_assoc, pure_bind, evaluate]
    cases x.evaluate values <;> rfl
  | bare => exact hn.elim

end Operations

inductive Rises [Zero α] [LE α] : Nat → List (Dense α) → List (Dense α) → Prop
  | head {A B : Dense α} (P : List (Dense α)) (h : A.Pairs (· ≤ ·) B) : Rises 0 (A :: P) (B :: P)
  | tail {k : Nat} {P Q : List (Dense α)} (A : Dense α) (h : Rises k P Q) :
    Rises (k + 1) (A :: P) (A :: Q)

section Values

variable [Field α] [LinearOrder α] [Scalar α]

/-- A value that an expression may have: a matrix of its size, with entries of its sign. -/
structure Takes (n : Node α) (A : Dense α) : Prop where
  size : A.size = n.size
  sign : ∀ a ∈ A.vec, n.sign.Admits a

def Arguments (n : Node α) : List (Dense α) → Prop := List.Forall₂ Takes n.children

variable {n : Node α} {P Q : List (Dense α)} {A B : Dense α}

theorem Takes.admits (h : n.Takes A) {i j : Nat} (hi : i < n.size.height) (hj : j < n.size.width) :
    n.sign.Admits (A.entry i j) :=
  h.sign _ (A.entry_mem (Dense.rows_eq h.size ▸ hi) (Dense.cols_eq h.size ▸ hj))

theorem Arguments.pair {l r : Node α} (hc : n.children = [l, r]) (h : n.Arguments P) :
    ∃ A B, P = [A, B] ∧ l.Takes A ∧ r.Takes B := by
  rw [Arguments, hc] at h
  cases h with
  | cons hA h =>
    cases h with
    | cons hB h =>
      cases h
      exact ⟨_, _, rfl, hA, hB⟩

theorem Arguments.single {x : Node α} (hc : n.children = [x]) (h : n.Arguments P) :
    ∃ A, P = [A] ∧ x.Takes A := by
  rw [Arguments, hc] at h
  cases h with
  | cons hA h =>
    cases h
    exact ⟨_, rfl, hA⟩

theorem Arguments.children_ne {k : Nat} (h : n.Arguments P) (hrise : Rises k P Q) :
    n.children ≠ [] := by
  intro hc
  rw [Arguments, hc] at h
  cases h
  cases hrise

theorem operate_outcome (hn : n.Formed) (hc : n.children ≠ []) (hP : n.Arguments P)
    (hQ : n.Arguments Q) :
    (∃ A B, n.operate P = .ok A ∧ n.operate Q = .ok B ∧ A.size = n.size ∧ B.size = n.size) ∨
      (Extent.fits n.size.height n.size.width = false ∧ n.operate P = .error .arrayTooLarge ∧
        n.operate Q = .error .arrayTooLarge) := by
  cases n with
  | constant | unknown => exact absurd rfl hc
  | product tag l r =>
    obtain ⟨L, R, rfl, hL, hR⟩ := hP.pair rfl
    obtain ⟨L', R', rfl, hL', hR'⟩ := hQ.pair rfl
    have hl := hL.size.trans hL'.size.symm
    have hr := hR.size.trans hR'.size.symm
    -- whether there is room for a product is settled by the sizes, which the arguments share
    cases hA : multiplyValues l.size r.size L R with
    | ok A =>
      obtain ⟨B, hB⟩ := multiplyValues_isOk hl hr ⟨A, hA⟩
      exact .inl ⟨A, B, hA, hB, multiplyValues_size hn.1 hL.size hR.size hA,
        multiplyValues_size hn.1 hL'.size hR'.size hB⟩
    | error f =>
      obtain ⟨rfl, hfit⟩ := multiplyValues_error hn.1 hL.size hR.size hA
      cases hB : multiplyValues l.size r.size L' R' with
      | ok B =>
        obtain ⟨A, hA'⟩ := multiplyValues_isOk hl.symm hr.symm ⟨B, hB⟩
        rw [hA] at hA'
        cases hA'
      | error g =>
        obtain ⟨rfl, -⟩ := multiplyValues_error hn.1 hL'.size hR'.size hB
        exact .inr ⟨hfit, hA, hB⟩
  | weighted tag c x =>
    obtain ⟨C, X, rfl, hC, -⟩ := hP.pair rfl
    obtain ⟨C', X', rfl, hC', -⟩ := hQ.pair rfl
    have hsize : c.value.size = tag.size := hn.1.trans hn.2.1.symm
    exact .inl ⟨_, _, rfl, rfl, hC.size.trans hsize, hC'.size.trans hsize⟩
  | square tag x =>
    obtain ⟨X, rfl, hX⟩ := hP.single rfl
    obtain ⟨X', rfl, hX'⟩ := hQ.single rfl
    exact .inl ⟨_, _, rfl, rfl, hX.size.trans hn.1.symm, hX'.size.trans hn.1.symm⟩
  | bare => exact hn.elim

variable [IsStrictOrderedRing α] {k : Nat} {m : Monotonicity}

omit [Scalar α] in
theorem multiplyValues_pairs {left right s : Size} {A' B' C C' : Dense α}
    (hs : left.product? right = some s) (hA : A.size = left) (hA' : A'.size = left)
    (hB : B.size = right) (hB' : B'.size = right)
    (h : ∀ i < left.height, ∀ j < left.width, ∀ i' < right.height, ∀ j' < right.width,
      m.Promises (A.entry i j * B.entry i' j') (A'.entry i j * B'.entry i' j'))
    (hC : multiplyValues left right A B = .ok C) (hC' : multiplyValues left right A' B' = .ok C') :
    C.Pairs m.Promises C' := by
  have hC := multiplyValues_holds hs (Dense.holds_own hA) (Dense.holds_own hB) hC
  have hC' := multiplyValues_holds hs (Dense.holds_own hA') (Dense.holds_own hB') hC'
  refine hC.pairs hC' fun i hi j hj => ?_
  obtain ⟨len, p, q, hpq, hsum⟩ := times_eq_sum (α := α) hs hi hj
  rw [hsum, hsum]
  refine Monotonicity.Promises.sum fun k hk => ?_
  obtain ⟨hp1, hp2, hq1, hq2⟩ := hpq k hk
  exact h _ hp1 _ hp2 _ hq1 _ hq2

theorem factors_promise {l r : Node α} (hc : n.children = [l, r]) (hmono : n.monotonicities =
      [r.sign * Monotonicity.nondecreasing, l.sign * Monotonicity.nondecreasing])
    (hP : n.Arguments P) (hQ : n.Arguments Q) (hrise : Rises k P Q)
    (hm : n.monotonicities[k]? = some m) :
    ∃ L R L' R', P = [L, R] ∧ Q = [L', R'] ∧ l.Takes L ∧ r.Takes R ∧ l.Takes L' ∧ r.Takes R' ∧
      ∀ i < l.size.height, ∀ j < l.size.width, ∀ i' < r.size.height, ∀ j' < r.size.width,
        m.Promises (L.entry i j * R.entry i' j') (L'.entry i j * R'.entry i' j') := by
  obtain ⟨L, R, rfl, hL, hR⟩ := hP.pair hc
  obtain ⟨L', R', rfl, hL', hR'⟩ := hQ.pair hc
  refine ⟨L, R, L', R', rfl, rfl, hL, hR, hL', hR', fun i hi j hj i' hi' j' hj' => ?_⟩
  rw [hmono] at hm
  -- one factor stays as it is, and its sign is the one that was asked for
  cases hrise with
  | head _ hle =>
    obtain rfl := Option.some.inj hm
    exact Monotonicity.promises_mul_right (hR.admits hi' hj') (hle.apply hL.size hi hj)
  | tail _ hrise =>
    cases hrise with
    | head _ hle =>
      obtain rfl := Option.some.inj hm
      exact Monotonicity.promises_mul_left (hL.admits hi hj) (hle.apply hR.size hi' hj')
    | tail _ hrise => cases hrise

theorem operate_promises (hn : n.Formed) (hP : n.Arguments P) (hQ : n.Arguments Q)
    (hrise : Rises k P Q) (hm : n.monotonicities[k]? = some m) (hA : n.operate P = .ok A)
    (hB : n.operate Q = .ok B) : A.Pairs m.Promises B := by
  cases n with
  | constant | unknown => cases hm
  | product tag l r =>
    obtain ⟨L, R, L', R', rfl, rfl, hL, hR, hL', hR', hentries⟩ :=
      factors_promise rfl rfl hP hQ hrise hm
    exact multiplyValues_pairs hn.1 hL.size hL'.size hR.size hR'.size hentries hA hB
  | weighted tag c x =>
    obtain ⟨C, X, C', X', rfl, rfl, hC, hX, hC', hX', hentries⟩ :=
      factors_promise rfl rfl hP hQ hrise hm
    obtain rfl := Except.ok.inj hA
    obtain rfl := Except.ok.inj hB
    have hsize : (constant c).size = x.size := hn.1
    refine (Dense.hadamard_holds hC.size).pairs (Dense.hadamard_holds hC'.size) ?_
    intro i hi j hj
    exact hentries i hi j hj i (hsize ▸ hi) j (hsize ▸ hj)
  | square tag x =>
    obtain ⟨X, rfl, hX⟩ := hP.single rfl
    obtain ⟨X', rfl, hX'⟩ := hQ.single rfl
    obtain rfl := Except.ok.inj hA
    obtain rfl := Except.ok.inj hB
    refine (Dense.map_holds _ hX.size).pairs (Dense.map_holds _ hX'.size) fun i hi j hj => ?_
    cases hrise with
    | head _ hle =>
      obtain rfl := Option.some.inj hm
      exact Monotonicity.promises_mul_self (hX.admits hi hj) (hX'.admits hi hj)
        (hle.apply hX.size hi hj)
    | tail _ hrise => cases hrise
  | bare => exact hn.elim

end Values

end Node

namespace Compilation

open Node

variable [Field α] [LinearOrder α] [IsStrictOrderedRing α] [Scalar α]
variable {config : Config} {s : Compilation α} {ns : List (Node α)} {n : Node α}

/-- What an operation answers about its responses is true of it: there is one monotonicity for each
child, and where the value of one child rises, while the others stay as they are and all keep to the
signs that the children are asked for, the value of the operation moves the way that the monotonicity
in this child promises. Its array may be too large to be had at all. -/
theorem Reached.askMonotonicity_sound (h : Reached config s ns) (hn : n ∈ s.nodes ns) :
    (∀ c ∈ n.children, (c.askSign s.workspace.verdicts).1 = .ok c.sign) ∧
    (n.children ≠ [] →
      ∀ values, n.evaluate values = n.children.mapM (evaluate values) >>= n.operate) ∧
    ∃ ms, (n.askMonotonicity s.workspace.verdicts).1 = .ok ms ∧
      ms.length = n.children.length ∧
      ∀ k m, ms[k]? = some m → ∀ P Q, n.Arguments P → n.Arguments Q → Rises k P Q →
        (∃ A B, n.operate P = .ok A ∧ n.operate Q = .ok B ∧ A.size = n.size ∧ B.size = n.size ∧
          A.Pairs m.Promises B) ∨
        (Extent.fits n.size.height n.size.width = false ∧ n.operate P = .error .arrayTooLarge ∧
          n.operate Q = .error .arrayTooLarge) := by
  have hN := h.sound.family
  have hform := hN.formed n hn
  refine ⟨fun c hc => (askSign_ends hN (hN.children n hn c hc) h.sound.judges).answer,
    evaluate_eq_operate hform, n.monotonicities, (askMonotonicity_ends hN hn h.sound.judges).1,
    length_monotonicities hform, fun k m hm P Q hP hQ hrise => ?_⟩
  rcases operate_outcome hform (hP.children_ne hrise) hP hQ with ⟨A, B, hA, hB, hsA, hsB⟩ | hlarge
  · exact .inl ⟨A, B, hA, hB, hsA, hsB, operate_promises hform hP hQ hrise hm hA hB⟩
  · exact .inr hlarge

def row (a b : ℚ) : Dense ℚ := ⟨1, 2, #[a, b], rfl⟩

def pair (a b : ℚ) : Dense ℚ := .column #[a, b]

def fees : Node ℚ :=
  .constant ⟨0, Identity.ofConstant [1, 2] (Constant.listing (row (-1) (-2))), row (-1) (-2)⟩

def stock : Unknown := ⟨1, Identity.ofUnknown 0, 0, "stock", ⟨2, 1⟩, .positive⟩

def bill : Node ℚ :=
  .product ⟨2, .scalar, Identity.ofOperation "*" [fees.id, stock.id]⟩ fees (.unknown stock)

def billed : List (Node ℚ) := bill.preorder ++ [.unknown stock, fees]

theorem reached_bill : Reached {} (untouched 3 1) billed := by
  have hfees : Reached {} (untouched (α := ℚ) 1 0) [fees] :=
    Reached.start.step (.constant (row (-1) (-2))) (List.nil_subset _)
  have hleaves : Reached {} (untouched (α := ℚ) 2 1) [.unknown stock, fees] :=
    hfees.step (.unknown "stock" ⟨2, 1⟩ (.ok .positive)) (List.nil_subset _)
  exact hleaves.step (.product fees (.unknown stock)) (by simp [Request.operands, nodes])

theorem fees_takes {a b : ℚ} (ha : a ≤ 0) (hb : b ≤ 0) : fees.Takes (row a b) := by
  have hsign : fees.sign = .negative := by decide +kernel
  refine ⟨rfl, fun c hc => ?_⟩
  rw [hsign]
  rcases List.mem_pair.mp (Array.mem_toList_iff.mpr hc) with rfl | rfl
  · exact ha
  · exact hb

theorem stock_takes {a b : ℚ} (ha : 0 ≤ a) (hb : 0 ≤ b) :
    (Node.unknown stock).Takes (pair a b) := by
  refine ⟨rfl, fun c hc => ?_⟩
  rcases List.mem_pair.mp (Array.mem_toList_iff.mpr hc) with rfl | rfl
  · exact ha
  · exact hb

theorem bill_responds :
    (bill.askMonotonicity (untouched (α := ℚ) 3 1).workspace.verdicts).1 =
      .ok [.nondecreasing, .nonincreasing] ∧
    (∃ A B, bill.operate [row (-3) (-2), pair 4 0] = .ok A ∧
      bill.operate [row (-1) (-2), pair 4 0] = .ok B ∧ A.entry 0 0 ≤ B.entry 0 0) ∧
    ∃ A B, bill.operate [row (-1) (-2), pair 4 0] = .ok A ∧
      bill.operate [row (-1) (-2), pair 4 5] = .ok B ∧ B.entry 0 0 ≤ A.entry 0 0 := by
  have hmem : bill ∈ (untouched 3 1).nodes billed := by simp [nodes, billed, bill, preorder]
  have hanswer : (bill.askMonotonicity (untouched (α := ℚ) 3 1).workspace.verdicts).1 =
      .ok [.nondecreasing, .nonincreasing] := by
    have hsound := reached_bill.sound
    rw [(askMonotonicity_ends hsound.family hmem hsound.judges).1]
    decide +kernel
  obtain ⟨-, -, ms, hms, -, hsound⟩ := reached_bill.askMonotonicity_sound hmem
  obtain rfl : ms = [.nondecreasing, .nonincreasing] := Except.ok.inj (hms.symm.trans hanswer)
  have hfirst {k : Nat} {P Q : List (Dense ℚ)} {m : Monotonicity}
      (hm : [Monotonicity.nondecreasing, .nonincreasing][k]? = some m) (hP : bill.Arguments P)
      (hQ : bill.Arguments Q) (hrise : Rises k P Q) : ∃ A B,
      bill.operate P = .ok A ∧ bill.operate Q = .ok B ∧ m.Promises (A.entry 0 0) (B.entry 0 0) := by
    rcases hsound k m hm P Q hP hQ hrise with ⟨A, B, hA, hB, hs, -, h⟩ | ⟨h, -⟩
    · exact ⟨A, B, hA, hB, h.apply hs Size.height_pos_scalar Size.width_pos_scalar⟩
    · have hfits : Extent.fits bill.size.height bill.size.width = true := by decide
      rw [hfits] at h
      cases h
  have hfees : fees.Takes (row (-1) (-2)) := fees_takes (by norm_num) (by norm_num)
  have hless : fees.Takes (row (-3) (-2)) := fees_takes (by norm_num) (by norm_num)
  have hstock : (Node.unknown stock).Takes (pair 4 0) := stock_takes (by norm_num) (by norm_num)
  have hmore : (Node.unknown stock).Takes (pair 4 5) := stock_takes (by norm_num) (by norm_num)
  refine ⟨hanswer, ?_, ?_⟩
  · exact hfirst (m := .nondecreasing) rfl (.cons hless (.cons hstock .nil))
      (.cons hfees (.cons hstock .nil)) (.head _ ⟨rfl, by decide +kernel⟩)
  · exact hfirst (m := .nonincreasing) rfl (.cons hfees (.cons hstock .nil))
      (.cons hfees (.cons hmore .nil)) (.tail _ (.head _ ⟨rfl, by decide +kernel⟩))

end Compilation

end DisciplinedConvex
