import DisciplinedConvex.Failure

namespace DisciplinedConvex

/-- A computation on a state of type `σ` that may fail; a failure keeps what the state had
become. -/
abbrev Task (σ β : Type) : Type := ExceptT Failure (StateM σ) β

namespace Task

def onPart {σ τ β : Type} (get : σ → τ) (set : τ → σ → σ) (task : Task τ β) : Task σ β := fun s =>
  let (result, t) := task (get s)
  (result, set t s)

variable {σ τ β γ : Type}

def Ends (task : Task σ β) (s : σ) (Q : Except Failure β → σ → Prop) : Prop :=
  Q (task s).1 (task s).2

theorem Ends.imp {task : Task σ β} {s : σ} {P Q : Except Failure β → σ → Prop}
    (h : task.Ends s P) (himp : ∀ r s', P r s' → Q r s') : task.Ends s Q :=
  himp _ _ h

theorem Ends.and {task : Task σ β} {s : σ} {P Q : Except Failure β → σ → Prop}
    (h : task.Ends s P) (h' : task.Ends s Q) : task.Ends s fun r s' => P r s' ∧ Q r s' :=
  ⟨h, h'⟩

@[simp] theorem ends_pure (b : β) (s : σ) (Q : Except Failure β → σ → Prop) :
    (pure b : Task σ β).Ends s Q ↔ Q (.ok b) s := Iff.rfl

@[simp] theorem ends_throw (e : Failure) (s : σ) (Q : Except Failure β → σ → Prop) :
    (throw e : Task σ β).Ends s Q ↔ Q (.error e) s := Iff.rfl

@[simp] theorem ends_get (s : σ) (Q : Except Failure σ → σ → Prop) :
    (get : Task σ σ).Ends s Q ↔ Q (.ok s) s := Iff.rfl

@[simp] theorem ends_modify (f : σ → σ) (s : σ) (Q : Except Failure PUnit → σ → Prop) :
    (modify f : Task σ PUnit).Ends s Q ↔ Q (.ok ⟨⟩) (f s) := Iff.rfl

@[simp] theorem ends_lift (x : Except Failure β) (s : σ) (Q : Except Failure β → σ → Prop) :
    (liftM x : Task σ β).Ends s Q ↔ Q x s := Iff.rfl

theorem ends_bind (task : Task σ β) (f : β → Task σ γ) (s : σ) (Q : Except Failure γ → σ → Prop) :
    (task >>= f).Ends s Q ↔ task.Ends s fun r s' =>
      match r with
      | .ok b => (f b).Ends s' Q
      | .error e => Q (.error e) s' := by
  have h : (task >>= f) s = match task s with
      | (.ok b, s') => f b s'
      | (.error e, s') => (.error e, s') := by
    change (match task s with | (r, s') => ExceptT.bindCont f r s') = _
    rcases task s with ⟨_ | _, _⟩ <;> rfl
  simp only [Ends, h]
  rcases task s with ⟨_ | _, _⟩ <;> rfl

theorem ends_discard (task : Task σ β) (s : σ) (Q : Except Failure PUnit → σ → Prop) :
    (discard task).Ends s Q ↔ task.Ends s fun r s' => Q (r.map fun _ => ⟨⟩) s' := by
  have h : discard task = task >>= fun _ => (pure ⟨⟩ : Task σ PUnit) := rfl
  rw [h, ends_bind]
  simp only [Ends]
  rcases task s with ⟨_ | _, _⟩ <;> exact Iff.rfl

theorem ends_onPart (get : σ → τ) (set : τ → σ → σ) (task : Task τ β) (s : σ)
    (Q : Except Failure β → σ → Prop) :
    (task.onPart get set).Ends s Q ↔ task.Ends (get s) fun r t => Q r (set t s) := Iff.rfl

theorem ends_forM {f : β → Task σ PUnit} {P : σ → Prop} {R : β → σ → Prop} (xs : List β) (s : σ)
    (hf : ∀ x ∈ xs, ∀ s, P s → (f x).Ends s fun r s' =>
      r = .ok ⟨⟩ ∧ P s' ∧ R x s' ∧ ∀ y, R y s → R y s') (hs : P s) :
    (xs.forM f).Ends s fun r s' =>
      r = .ok ⟨⟩ ∧ P s' ∧ (∀ x ∈ xs, R x s') ∧ ∀ y, R y s → R y s' := by
  induction xs generalizing s with
  | nil => exact ⟨rfl, hs, nofun, fun _ h => h⟩
  | cons x xs ih =>
    rw [List.forM, ends_bind]
    refine (hf x (List.mem_cons_self ..) s hs).imp ?_
    rintro _ s₁ ⟨rfl, hs₁, hx, hk₁⟩
    refine (ih s₁ (fun y hy => hf y (List.mem_cons_of_mem _ hy)) hs₁).imp ?_
    rintro _ s₂ ⟨rfl, hs₂, hxs, hk₂⟩
    refine ⟨rfl, hs₂, fun y hy => ?_, fun y hy => hk₂ y (hk₁ y hy)⟩
    rcases List.mem_cons.mp hy with rfl | hy
    · exact hk₂ y hx
    · exact hxs y hy

end Task

end DisciplinedConvex
